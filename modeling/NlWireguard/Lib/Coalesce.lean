import Mathlib.Data.List.Chain

/-!
# Coalescing neighbours

Items which arrive one by one are appended to a list, except that an item
which carries the key of the last one is merged into it. `Mergeable` holds
what the merge has to obey; the laws say that it does not matter into how
many consecutive pieces an item was cut before it arrived.
-/

namespace Coalesce

structure Mergeable (α κ : Type) where
  key : α → Option κ
  merge : α → α → α
  key_merge : ∀ a b, (key a).isSome → key (merge a b) = key a
  assoc : ∀ a b c, merge (merge a b) c = merge a (merge b c)

namespace Mergeable

variable {α κ : Type} (M : Mergeable α κ)

/-- `b` is taken for more of `a`. -/
def Continues (a b : α) : Prop := (M.key b).isSome ∧ M.key a = M.key b

theorem continues_merge_left (ha : (M.key a).isSome) :
    M.Continues (M.merge a b) c ↔ M.Continues a c := by
  simp [Continues, M.key_merge a b ha]

theorem continues_merge_right (hb : (M.key b).isSome) :
    M.Continues a (M.merge b c) ↔ M.Continues a b := by
  simp [Continues, M.key_merge b c hb]

theorem key_foldl_merge {cs : List α} (h : ∀ c ∈ cs, M.Continues p c) :
    M.key (cs.foldl M.merge p) = M.key p := by
  induction cs generalizing p with
  | nil => rfl
  | cons c cs ih =>
    have hc := h c (by simp)
    have hp : (M.key p).isSome := hc.2 ▸ hc.1
    rw [List.foldl_cons, ih, M.key_merge p c hp]
    exact fun d hd => (M.continues_merge_left hp).mpr (h d (List.mem_cons_of_mem _ hd))

variable [DecidableEq κ]

instance (a b : α) : Decidable (M.Continues a b) := inferInstanceAs (Decidable (_ ∧ _))

def push (xs : List α) (x : α) : List α :=
  match xs.getLast? with
  | some last => if M.Continues last x then xs.dropLast ++ [M.merge last x] else xs ++ [x]
  | none => xs ++ [x]

@[simp] theorem push_nil (x : α) : M.push [] x = [x] := rfl

theorem push_snoc (ys : List α) (last x : α) :
    M.push (ys ++ [last]) x =
      if M.Continues last x then ys ++ [M.merge last x] else ys ++ [last, x] := by
  simp [push]

/-- A piece which follows its item could as well have been part of it. -/
theorem push_push (xs : List α) (h : M.Continues p c) :
    M.push (M.push xs p) c = M.push xs (M.merge p c) := by
  have hp : (M.key p).isSome := h.2 ▸ h.1
  rcases List.eq_nil_or_concat xs with rfl | ⟨ys, last, rfl⟩
  · simpa [h] using M.push_snoc [] p c
  · rw [List.concat_eq_append, M.push_snoc ys last p, M.push_snoc ys last (M.merge p c)]
    by_cases hl : M.Continues last p
    · have hlast : (M.key last).isSome := hl.2 ▸ hl.1
      have hc : M.Continues (M.merge last p) c :=
        (M.continues_merge_left hlast).mpr ⟨h.1, hl.2.trans h.2⟩
      rw [if_pos hl, if_pos ((M.continues_merge_right hp).mpr hl), M.push_snoc, if_pos hc, M.assoc]
    · rw [if_neg hl, if_neg fun hm => hl ((M.continues_merge_right hp).mp hm)]
      have hsnoc := M.push_snoc (ys ++ [last]) p c
      rw [if_pos h] at hsnoc
      simpa using hsnoc

/-- Pushing an item in pieces is pushing the item. -/
theorem foldl_push_pieces {cs : List α} (xs : List α) (h : ∀ c ∈ cs, M.Continues p c) :
    cs.foldl M.push (M.push xs p) = M.push xs (cs.foldl M.merge p) := by
  induction cs generalizing p with
  | nil => rfl
  | cons c cs ih =>
    have hc := h c (by simp)
    rw [List.foldl_cons, M.push_push xs hc]
    exact ih fun d hd =>
      (M.continues_merge_left (hc.2 ▸ hc.1)).mpr (h d (List.mem_cons_of_mem _ hd))

/-- No item continues the one before it. -/
def Separate (xs : List α) : Prop := xs.IsChain fun a b => ¬M.Continues a b

/-- `group` is `x`, cut into a piece and further pieces which continue it. -/
inductive Pieces (x : α) : List α → Prop
  | intro (h : ∀ c ∈ cs, M.Continues p c) (hx : cs.foldl M.merge p = x) : Pieces x (p :: cs)

theorem foldl_push_groups (h : List.Forall₂ M.Pieces xs groups) (ys : List α) :
    groups.flatten.foldl M.push ys = xs.foldl M.push ys := by
  induction h generalizing ys with
  | nil => rfl
  | cons hpieces _ ih =>
    obtain ⟨hc, rfl⟩ := hpieces
    rw [List.flatten_cons, List.foldl_append, List.foldl_cons, List.foldl_cons,
      M.foldl_push_pieces ys hc, ih]

-- ---------------------------------------------------------------------------
-- Runs of one item
-- ---------------------------------------------------------------------------

/-- `x` and the items after it, in which each run is merged from left to right. -/
def coalesceFrom (x : α) : List α → List α
  | [] => [x]
  | y :: ys => if M.Continues x y then coalesceFrom (M.merge x y) ys else x :: coalesceFrom y ys

def coalesce : List α → List α
  | [] => []
  | x :: xs => M.coalesceFrom x xs

theorem foldl_push_snoc (ys : List α) (x : α) (xs : List α) :
    xs.foldl M.push (ys ++ [x]) = ys ++ M.coalesceFrom x xs := by
  induction xs generalizing ys x with
  | nil => rfl
  | cons y xs ih =>
    rw [List.foldl_cons, M.push_snoc, coalesceFrom]
    by_cases h : M.Continues x y
    · rw [if_pos h, if_pos h, ih]
    · rw [if_neg h, if_neg h]
      simpa using ih (ys ++ [x]) y

theorem foldl_push (xs : List α) : xs.foldl M.push [] = M.coalesce xs := by
  cases xs with
  | nil => rfl
  | cons x xs => exact M.foldl_push_snoc [] x xs

theorem coalesceFrom_separate (h : M.Separate (x :: xs)) : M.coalesceFrom x xs = x :: xs := by
  induction xs generalizing x with
  | nil => rfl
  | cons y xs ih =>
    obtain ⟨hn, hrest⟩ := List.isChain_cons_cons.mp h
    rw [coalesceFrom, if_neg hn, ih hrest]

theorem coalesce_separate (h : M.Separate xs) : M.coalesce xs = xs := by
  cases xs with
  | nil => rfl
  | cons x xs => exact M.coalesceFrom_separate h

omit [DecidableEq κ] in
theorem Pieces.single (x : α) : M.Pieces x [x] := .intro (by simp) rfl

omit [DecidableEq κ] in
theorem Pieces.snoc (h : M.Pieces x group) (hy : M.Continues x y) :
    M.Pieces (M.merge x y) (group ++ [y]) := by
  obtain ⟨hcs, rfl⟩ := h
  refine .intro (fun c hc => ?_) (by simp)
  rcases List.mem_append.mp hc with hc | hc
  · exact hcs c hc
  · cases List.mem_singleton.mp hc
    exact ⟨hy.1, (M.key_foldl_merge hcs).symm.trans hy.2⟩

theorem coalesceFrom_runs (h : M.Pieces x group) (ys : List α) :
    ∃ runs, runs.flatten = group ++ ys ∧ List.Forall₂ M.Pieces (M.coalesceFrom x ys) runs := by
  induction ys generalizing x group with
  | nil => exact ⟨[group], by simp, .cons h .nil⟩
  | cons y ys ih =>
    by_cases hy : M.Continues x y
    · obtain ⟨runs, hflat, hruns⟩ := ih (h.snoc M hy)
      rw [coalesceFrom, if_pos hy]
      exact ⟨runs, by simpa using hflat, hruns⟩
    · obtain ⟨runs, hflat, hruns⟩ := ih (.single M y)
      rw [coalesceFrom, if_neg hy]
      exact ⟨group :: runs, by simp [hflat], .cons h hruns⟩

/-- Each item of the result is merged from one run, and the runs are the items. -/
theorem coalesce_runs (xs : List α) :
    ∃ runs, runs.flatten = xs ∧ List.Forall₂ M.Pieces (M.coalesce xs) runs := by
  cases xs with
  | nil => exact ⟨[], rfl, .nil⟩
  | cons x xs => exact M.coalesceFrom_runs (.single M x) xs

theorem separate_cons_coalesceFrom (h : ¬M.Continues w x) (ys : List α) :
    M.Separate (w :: M.coalesceFrom x ys) := by
  induction ys generalizing w x with
  | nil => exact List.isChain_cons_cons.mpr ⟨h, .singleton x⟩
  | cons y ys ih =>
    rw [coalesceFrom]
    by_cases hy : M.Continues x y
    · rw [if_pos hy]
      exact ih fun hw => h ((M.continues_merge_right (hy.2 ▸ hy.1)).mp hw)
    · rw [if_neg hy]
      exact List.isChain_cons_cons.mpr ⟨h, ih hy⟩

/-- The runs are as long as they can be. -/
theorem separate_coalesce (xs : List α) : M.Separate (M.coalesce xs) := by
  cases xs with
  | nil => exact .nil
  | cons x xs =>
    rw [coalesce]
    induction xs generalizing x with
    | nil => exact .singleton x
    | cons y ys ih =>
      rw [coalesceFrom]
      by_cases hy : M.Continues x y
      · rw [if_pos hy]
        exact ih (M.merge x y)
      · rw [if_neg hy]
        exact M.separate_cons_coalesceFrom hy ys

/-- There is nothing left to merge in the result. -/
theorem foldl_push_coalesce (xs : List α) : (M.coalesce xs).foldl M.push [] = M.coalesce xs := by
  rw [M.foldl_push, M.coalesce_separate (M.separate_coalesce xs)]

/-- An item can be merged into the items before it before these are pushed. -/
theorem foldl_push_push (xs ys : List α) (z : α) :
    (M.push ys z).foldl M.push xs = M.push (ys.foldl M.push xs) z := by
  rcases List.eq_nil_or_concat ys with rfl | ⟨ys, last, rfl⟩
  · rfl
  · rw [List.concat_eq_append, M.push_snoc, List.foldl_append]
    by_cases h : M.Continues last z
    · rw [if_pos h, List.foldl_append]
      exact (M.push_push (ys.foldl M.push xs) h).symm
    · rw [if_neg h, List.foldl_append]
      rfl

/-- Items can be coalesced before they are pushed. -/
theorem foldl_push_foldl (xs ys zs : List α) :
    (zs.foldl M.push ys).foldl M.push xs = zs.foldl M.push (ys.foldl M.push xs) :=
  (List.foldl_hom (fun ys => ys.foldl M.push xs) fun ys z => (M.foldl_push_push xs ys z).symm).symm

/-- What merging neighbours joins, is the same before and after. -/
theorem flatMap_coalesce {part : α → List β}
    (h : ∀ a b, M.Continues a b → part (M.merge a b) = part a ++ part b) (xs : List α) :
    (M.coalesce xs).flatMap part = xs.flatMap part := by
  cases xs with
  | nil => rfl
  | cons x xs =>
    rw [coalesce]
    induction xs generalizing x with
    | nil => rfl
    | cons y ys ih =>
      rw [coalesceFrom]
      by_cases hy : M.Continues x y
      · rw [if_pos hy, ih, List.flatMap_cons, h x y hy]
        simp
      · rw [if_neg hy, List.flatMap_cons, ih]
        rfl

end Mergeable

end Coalesce
