import Mathlib.Data.List.Forall2
import Mathlib.Data.List.Nodup

/-!
# Laws of folds

What all steps of a fold leave alone, the fold leaves alone, and steps which
commute can be taken in any order.
-/

namespace Folds

/-- A part of the state which no step changes. -/
theorem foldl_frame (part : σ → β) {f : σ → α → σ} {xs : List α}
    (h : ∀ s, ∀ x ∈ xs, part (f s x) = part s) (s : σ) : part (xs.foldl f s) = part s :=
  List.foldlRecOn (motive := fun t => part t = part s) xs f rfl fun t ht x hx => (h t x hx).trans ht

theorem foldl_fixed {f : σ → α → σ} {xs : List α} (h : ∀ x ∈ xs, f s x = s) : xs.foldl f s = s :=
  List.foldlRecOn (motive := (· = s)) xs f rfl fun _ ht x hx => (congrArg (f · x) ht).trans (h x hx)

/-- A part of the state which some steps replace is what the last one of them
made of it. -/
theorem foldl_last (part : σ → β) (value? : α → Option β) {f : σ → α → σ}
    (hset : ∀ s x v, value? x = some v → part (f s x) = v)
    (hkeep : ∀ s x, value? x = none → part (f s x) = part s) (s : σ) (xs : List α) :
    part (xs.foldl f s) = (xs.filterMap value?).getLastD (part s) := by
  induction xs generalizing s with
  | nil => rfl
  | cons x xs ih =>
    rw [List.foldl_cons, ih]
    cases hx : value? x with
    | none => rw [hkeep s x hx, List.filterMap_cons_none hx]
    | some v => rw [hset s x v hx, List.filterMap_cons_some hx, List.getLastD_cons]

/-- Taking steps in any order gives the same if steps of different kinds commute
and no kind is repeated. -/
theorem foldl_perm_of_kinds {f : σ → α → σ} {kind : α → κ} {xs ys : List α}
    (hcomm : ∀ s a b, kind a ≠ kind b → f (f s a) b = f (f s b) a)
    (hperm : xs.Perm ys) (hkinds : (xs.map kind).Nodup) (s : σ) :
    xs.foldl f s = ys.foldl f s := by
  refine hperm.foldl_eq' (fun a ha b hb z => ?_) s
  by_cases hab : a = b
  · rw [hab]
  · exact hcomm z a b fun heq => hab (List.inj_on_of_nodup_map hkinds ha hb heq)

/-- A step in the middle can be taken last. -/
theorem perm_middle_last {xs before after : List α} (h : xs = before ++ x :: after) :
    xs.Perm (before ++ after ++ [x]) :=
  h ▸ List.perm_middle.trans (List.perm_append_singleton _ _).symm

-- ---------------------------------------------------------------------------
-- Merging a list into one item
-- ---------------------------------------------------------------------------

variable {merge : α → α → α}

theorem foldl_first (part : α → Option β) (h : ∀ a b, part (merge a b) = (part a).or (part b))
    (x : α) (xs : List α) : part (xs.foldl merge x) = (x :: xs).findSome? part := by
  induction xs generalizing x with
  | nil => cases hx : part x <;> simp [hx]
  | cons y ys ih =>
    rw [List.foldl_cons, ih]
    cases hx : part x <;> simp [List.findSome?_cons, h, hx]

theorem foldl_join (part : α → List β) (h : ∀ a b, part (merge a b) = part a ++ part b)
    (x : α) (xs : List α) : part (xs.foldl merge x) = (x :: xs).flatMap part := by
  induction xs generalizing x with
  | nil => simp
  | cons y ys ih => simp [ih, h]

theorem foldl_any (part : α → Bool) (h : ∀ a b, part (merge a b) = (part a || part b))
    (x : α) (xs : List α) : part (xs.foldl merge x) = (x :: xs).any part := by
  induction xs generalizing x with
  | nil => simp
  | cons y ys ih => simp [ih, h, Bool.or_assoc]

-- ---------------------------------------------------------------------------
-- Lists in another order
-- ---------------------------------------------------------------------------

theorem exists_of_forall₂ {R : α → β → Prop} {xs : List α} {ys : List β} (h : List.Forall₂ R xs ys) :
    ∀ x ∈ xs, ∃ y ∈ ys, R x y := by
  induction h with
  | nil => exact fun x hx => nomatch hx
  | cons hxy _ ih =>
    refine List.forall_mem_cons.mpr ⟨⟨_, List.mem_cons_self, hxy⟩, fun x hx => ?_⟩
    obtain ⟨y, hy, hR⟩ := ih x hx
    exact ⟨y, List.mem_cons_of_mem _ hy, hR⟩

theorem map_congr {f : α → β} {R : α → α → Prop} {xs ys : List α}
    (hR : ∀ x ∈ xs, ∀ y, R x y → f x = f y) (h : List.Forall₂ R xs ys) : xs.map f = ys.map f := by
  induction h with
  | nil => rfl
  | cons hxy _ ih =>
    obtain ⟨hx, hxs⟩ := List.forall_mem_cons.mp hR
    rw [List.map_cons, hx _ hxy, ih hxs, List.map_cons]

theorem foldl_congr {f : σ → α → σ} {R : α → α → Prop} {xs ys : List α}
    (hR : ∀ x ∈ xs, ∀ y, R x y → ∀ s, f s x = f s y) (h : List.Forall₂ R xs ys) (s : σ) :
    xs.foldl f s = ys.foldl f s := by
  have hsteps : xs.map (fun x s => f s x) = ys.map fun y s => f s y :=
    map_congr (fun x hx y hxy => funext (hR x hx y hxy)) h
  have hfold (zs : List α) : zs.foldl f s = (zs.map fun z s => f s z).foldl (fun s g => g s) s := by
    rw [List.foldl_map]
  rw [hfold, hsteps, ← hfold]

/-- `ys` is `xs` in any order, with each item changed as `R` says. -/
def Shuffled (R : α → β → Prop) (xs : List α) (ys : List β) : Prop :=
  ∃ zs, xs.Perm zs ∧ List.Forall₂ R zs ys

/-- Changes which no step notices, in any order of steps which commute. -/
theorem foldl_shuffled {f : σ → α → σ} {kind : α → κ} {R : α → α → Prop} {xs ys : List α}
    (hcomm : ∀ s a b, kind a ≠ kind b → f (f s a) b = f (f s b) a)
    (hR : ∀ x ∈ xs, ∀ y, R x y → ∀ s, f s x = f s y)
    (h : Shuffled R xs ys) (hkinds : (xs.map kind).Nodup) (s : σ) :
    xs.foldl f s = ys.foldl f s := by
  obtain ⟨zs, hperm, hzs⟩ := h
  rw [foldl_perm_of_kinds hcomm hperm hkinds]
  exact foldl_congr (fun z hz => hR z (hperm.mem_iff.mpr hz)) hzs s

theorem Shuffled.kinds {kind : α → κ} {R : α → α → Prop} {xs ys : List α}
    (hR : ∀ x y, R x y → kind x = kind y) (h : Shuffled R xs ys) (hkinds : (xs.map kind).Nodup) :
    (ys.map kind).Nodup := by
  obtain ⟨zs, hperm, hzs⟩ := h
  rw [← map_congr (fun z _ => hR z) hzs]
  exact (hperm.map kind).nodup_iff.mp hkinds

section Once

variable {f : α → Option β} {kind : α → κ} {xs ys : List α}

/-- What only one kind of item yields, is yielded at most once. -/
theorem filterMap_once (hone : ∀ a b, (f a).isSome → (f b).isSome → kind a = kind b)
    (hkinds : (xs.map kind).Nodup) : (xs.filterMap f).Pairwise fun _ _ => False := by
  rw [List.pairwise_filterMap]
  refine (List.pairwise_map.mp hkinds).imp fun hne b hb b' hb' => ?_
  exact hne (hone _ _ (by simp [hb]) (by simp [hb']))

/-- So it is yielded in any order. -/
theorem filterMap_perm_of_kinds (hone : ∀ a b, (f a).isSome → (f b).isSome → kind a = kind b)
    (hperm : xs.Perm ys) (hkinds : (xs.map kind).Nodup) : xs.filterMap f = ys.filterMap f :=
  (hperm.filterMap f).eq_of_pairwise (fun _ _ _ _ h => h.elim) (filterMap_once hone hkinds)
    (filterMap_once hone ((hperm.map kind).nodup_iff.mp hkinds))

end Once

/-- Of at most one list, the last one is all of them. -/
theorem getLastD_once {xss : List (List α)} (h : xss.Pairwise fun _ _ => False) :
    xss.getLastD [] = xss.flatten := by
  match xss, h with
  | [], _ => rfl
  | [xs], _ => exact (List.flatten_singleton).symm
  | _ :: _ :: _, h => exact absurd (List.mem_cons_self) ((List.pairwise_cons.mp h).1 _)

theorem filterMap_shuffled {f : α → Option β} {kind : α → κ} {R : α → α → Prop}
    {S : β → β → Prop} {xs ys : List α}
    (hone : ∀ a b, (f a).isSome → (f b).isSome → kind a = kind b)
    (hR : ∀ x y, R x y → Option.Rel S (f x) (f y))
    (h : Shuffled R xs ys) (hkinds : (xs.map kind).Nodup) :
    List.Forall₂ S (xs.filterMap f) (ys.filterMap f) := by
  obtain ⟨zs, hperm, hzs⟩ := h
  rw [filterMap_perm_of_kinds hone hperm hkinds]
  exact List.rel_filterMap (fun x y hxy => hR x y hxy) hzs

end Folds
