import Mathlib.Data.List.Forall2

/-!
# Computations in lockstep

Two computations which may fail, run side by side: both succeed with results in
relation, or both fail with the same error. What is built of such computations
step by step is in lockstep again.
-/

namespace Lockstep

inductive Alike (R : α → β → Prop) : Except ε α → Except ε β → Prop
  | ok (h : R a b) : Alike R (.ok a) (.ok b)
  | error (e : ε) : Alike R (.error e) (.error e)

variable {R R' : α → β → Prop} {S : γ → δ → Prop} {Q : ι → κ → Prop}

theorem Alike.of_eq {R : α → α → Prop} (h : ∀ a, R a a) (x : Except ε α) : Alike R x x := by
  cases x with
  | error e => exact .error e
  | ok a => exact .ok (h a)

theorem alike_iff {x : Except ε α} {y : Except ε β} :
    Alike R x y ↔ (∃ e, x = .error e ∧ y = .error e) ∨ ∃ a b, x = .ok a ∧ y = .ok b ∧ R a b := by
  constructor
  · intro h
    cases h with
    | error e => exact .inl ⟨e, rfl, rfl⟩
    | ok h => exact .inr ⟨_, _, rfl, rfl, h⟩
  · rintro (⟨e, rfl, rfl⟩ | ⟨a, b, rfl, rfl, h⟩)
    · exact .error e
    · exact .ok h

theorem Alike.eq {x y : Except ε α} (h : Alike (· = ·) x y) : x = y := by
  cases h with
  | error e => rfl
  | ok h => rw [h]

theorem Alike.imp {x : Except ε α} {y : Except ε β} (h : Alike R x y) (hR : ∀ a b, R a b → R' a b) :
    Alike R' x y := by
  cases h with
  | error e => exact .error e
  | ok h => exact .ok (hR _ _ h)

theorem Alike.bind {x : Except ε α} {y : Except ε β} {f : α → Except ε γ} {g : β → Except ε δ}
    (h : Alike R x y) (hfg : ∀ a b, R a b → Alike S (f a) (g b)) : Alike S (x >>= f) (y >>= g) := by
  cases h with
  | error e => exact .error e
  | ok h => exact hfg _ _ h

theorem Alike.map {x : Except ε α} {y : Except ε β} {f : α → γ} {g : β → δ} (h : Alike R x y)
    (hfg : ∀ a b, R a b → S (f a) (g b)) : Alike S (f <$> x) (g <$> y) := by
  cases h with
  | error e => exact .error e
  | ok h => exact .ok (hfg _ _ h)

theorem Alike.ite [Decidable p] [Decidable q] {x x' : Except ε α} {y y' : Except ε β} (h : p ↔ q)
    (hpos : Alike R x y) (hneg : Alike R x' y') :
    Alike R (if p then x else x') (if q then y else y') := by
  by_cases hp : p
  · rwa [if_pos hp, if_pos (h.mp hp)]
  · rwa [if_neg hp, if_neg (mt h.mpr hp)]

theorem Alike.foldlM {f : α → ι → Except ε α} {g : β → κ → Except ε β}
    (hstep : ∀ a b i k, R a b → Q i k → Alike R (f a i) (g b k)) (h : List.Forall₂ Q is ks)
    (hab : R a b) : Alike R (is.foldlM f a) (ks.foldlM g b) := by
  induction h generalizing a b with
  | nil => exact .ok hab
  | cons hik _ ih =>
    rw [List.foldlM_cons, List.foldlM_cons]
    exact (hstep _ _ _ _ hab hik).bind fun _ _ h => ih h

end Lockstep
