import Mathlib.Tactic.Common

/-!
# What holds throughout a run

A run which can be given up after any of its steps: a property holds throughout
it when every beginning of the run ends in a state with the property.
-/

namespace Prefixes

variable {P Q : σ → Prop} {step : σ → α → σ} {as bs : List α}

def Throughout (P : σ → Prop) (step : σ → α → σ) (s : σ) (as : List α) : Prop :=
  ∀ bs, bs <+: as → P (bs.foldl step s)

theorem Throughout.start (h : Throughout P step s as) : P s := h [] List.nil_prefix

theorem Throughout.last (h : Throughout P step s as) : P (as.foldl step s) := h as (List.prefix_refl as)

theorem Throughout.imp (h : Throughout P step s as) (himp : ∀ t, P t → Q t) :
    Throughout Q step s as :=
  fun bs hbs => himp _ (h bs hbs)

theorem throughout_nil : Throughout P step s [] ↔ P s :=
  ⟨fun h => h.start, fun h bs hbs => by rwa [List.prefix_nil.mp hbs]⟩

theorem throughout_cons :
    Throughout P step s (a :: as) ↔ P s ∧ Throughout P step (step s a) as := by
  constructor
  · exact fun h => ⟨h.start, fun bs hbs => h (a :: bs) (List.cons_prefix_cons.mpr ⟨rfl, hbs⟩)⟩
  · rintro ⟨hs, h⟩ bs hbs
    rcases List.prefix_cons_iff.mp hbs with rfl | ⟨more, rfl, hmore⟩
    · exact hs
    · exact h more hmore

theorem throughout_append :
    Throughout P step s (as ++ bs) ↔
      Throughout P step s as ∧ Throughout P step (as.foldl step s) bs := by
  induction as generalizing s with
  | nil =>
    rw [List.nil_append, throughout_nil, List.foldl_nil]
    exact ⟨fun h => ⟨h.start, h⟩, fun h => h.2⟩
  | cons a as ih =>
    rw [List.cons_append, throughout_cons, ih, throughout_cons, List.foldl_cons, and_assoc]

theorem throughout_of_step (hs : P s) (h : ∀ t, ∀ a ∈ as, P t → P (step t a)) :
    Throughout P step s as := fun bs hbs =>
  List.foldlRecOn (motive := P) bs step hs fun t ht a ha => h t a (hbs.subset ha) ht

end Prefixes
