import Mathlib.Tactic.Common

/-!
# Steps which may be repeated

Steps which write without looking: of several equal steps only the last one
counts, whatever is done in between. So a list of such steps makes up for any
of them which were taken before it, in whatever order and however often.
-/

namespace Repeats

variable {step : σ → α → σ} {as bs : List α}

/-- States which `a` makes equal stay so while other steps are taken. -/
structure Overwrites (step : σ → α → σ) : Prop where
  again : ∀ s a, step (step s a) a = step s a
  covers : ∀ {s t a}, step s a = step t a → ∀ b, step (step s b) a = step (step t b) a

namespace Overwrites

theorem foldl_covers (h : Overwrites step) (heq : step s a = step t a) (bs : List α) :
    step (bs.foldl step s) a = step (bs.foldl step t) a := by
  induction bs generalizing s t with
  | nil => exact heq
  | cons b bs ih => exact ih (h.covers heq b)

/-- A step need not be taken when one which replaces it is taken later on. -/
theorem foldl_replaced (h : Overwrites step) (hmem : a ∈ as)
    (hreplaces : ∀ s, step (step s b) a = step s a) :
    as.foldl step (step s b) = as.foldl step s := by
  obtain ⟨before, after, rfl⟩ := List.append_of_mem hmem
  have hlast : step (before.foldl step (step s b)) a = step (before.foldl step s) a :=
    h.foldl_covers (hreplaces s) before
  rw [List.foldl_append, List.foldl_cons, hlast, List.foldl_append, List.foldl_cons]

theorem absorb (h : Overwrites step)
    (hreplaced : ∀ b ∈ bs, ∃ a ∈ as, ∀ s, step (step s b) a = step s a) :
    as.foldl step (bs.foldl step s) = as.foldl step s := by
  induction bs generalizing s with
  | nil => rfl
  | cons b bs ih =>
    obtain ⟨⟨a, hmem, hreplaces⟩, hbs⟩ := List.forall_mem_cons.mp hreplaced
    rw [List.foldl_cons, ih hbs, h.foldl_replaced hmem hreplaces]

theorem absorb_subset (h : Overwrites step) (hsub : bs ⊆ as) :
    as.foldl step (bs.foldl step s) = as.foldl step s :=
  h.absorb fun b hb => ⟨b, hsub hb, fun s => h.again s b⟩

/-- Parts of the state which the steps change one by one, and which make up the
whole state. -/
theorem of_parts {τ : ι → Type} (part : ∀ i, σ → τ i) (steps : ∀ i, τ i → α → τ i)
    (hext : ∀ s t, (∀ i, part i s = part i t) → s = t)
    (hpart : ∀ i s a, part i (step s a) = steps i (part i s) a)
    (h : ∀ i, Overwrites (steps i)) : Overwrites step where
  again s a := hext _ _ fun i => by rw [hpart, hpart, (h i).again]
  covers := by
    intro s t a heq b
    refine hext _ _ fun i => ?_
    have hi : steps i (part i s) a = steps i (part i t) a := by rw [← hpart, ← hpart, heq]
    rw [hpart, hpart, (h i).covers hi b, hpart, hpart]

/-- Any two steps commute, or the later one replaces the earlier. -/
theorem of_replaces (again : ∀ s a, step (step s a) a = step s a)
    (h : ∀ a b, (∀ s, step (step s b) a = step s a) ∨ ∀ s, step (step s b) a = step (step s a) b) :
    Overwrites step where
  again := again
  covers := by
    intro s t a heq b
    rcases h a b with hreplaced | hcomm
    · rw [hreplaced, hreplaced, heq]
    · rw [hcomm, hcomm, heq]

end Overwrites

end Repeats
