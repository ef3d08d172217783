import Mathlib.Data.List.Forall2

/-!
# Laws of the error monad

A computation that may fail succeeds exactly when each of its steps does.
`bind_ok` and `pure_ok` take a `do` block apart, `mapM_ok` a traversal; the
`drain` section is the loop which collects a stream up to its first failure.
-/

namespace ExceptLaws

theorem bind_ok {x : Except ε α} {f : α → Except ε β} :
    x >>= f = .ok b ↔ ∃ a, x = .ok a ∧ f a = .ok b := by
  cases x <;> simp [bind, Except.bind]

theorem bind_error {x : Except ε α} {f : α → Except ε β} :
    x >>= f = .error e ↔ x = .error e ∨ ∃ a, x = .ok a ∧ f a = .error e := by
  cases x <;> simp [bind, Except.bind]

theorem pure_ok : (pure a : Except ε α) = .ok b ↔ a = b := by
  simp [pure, Except.pure]

theorem ok_ne_error {a : α} {e : ε} : (.ok a : Except ε α) ≠ .error e := by simp

@[simp] theorem ok_bind (a : α) (f : α → Except ε β) : (Except.ok a >>= f) = f a := rfl

@[simp] theorem error_bind (e : ε) (f : α → Except ε β) : (Except.error e >>= f) = .error e := rfl

@[simp] theorem ok_map (f : α → β) (a : α) : f <$> (Except.ok a : Except ε α) = .ok (f a) := rfl

@[simp] theorem error_map (f : α → β) (e : ε) : f <$> (Except.error e : Except ε α) = .error e := rfl

theorem map_ok {x : Except ε α} {f : α → β} : f <$> x = .ok b ↔ ∃ a, x = .ok a ∧ f a = b := by
  cases x <;> simp

theorem map_error {x : Except ε α} {f : α → β} : f <$> x = .error e ↔ x = .error e := by
  cases x <;> simp

/-- A check in front of a computation has to pass. -/
theorem guard_ok [Decidable p] {e : ε} {x : Except ε α} :
    (if p then (do throw e; x) else x) = .ok b ↔ ¬p ∧ x = .ok b := by
  by_cases hp : p <;> simp [hp, throw, throwThe, MonadExceptOf.throw]

theorem guard_error [Decidable p] {e : ε} {x : Except ε α} :
    (if p then (do throw e; x) else x) = .error e' ↔ p ∧ e = e' ∨ ¬p ∧ x = .error e' := by
  by_cases hp : p <;> simp [hp, throw, throwThe, MonadExceptOf.throw]

theorem mapM_ok {f : α → Except ε β} :
    xs.mapM f = .ok ys ↔ List.Forall₂ (fun x y => f x = .ok y) xs ys := by
  induction xs generalizing ys with
  | nil => cases ys <;> simp [pure_ok]
  | cons x xs ih =>
    simp only [List.mapM_cons, bind_ok, pure_ok, ih]
    cases ys with
    | nil => simp
    | cons y ys => simp only [List.forall₂_cons, List.cons.injEq]; grind

theorem forM_ok {f : α → Except ε Unit} {xs : List α} :
    forM xs f = .ok u ↔ ∀ x ∈ xs, f x = .ok () := by
  induction xs with
  | nil => simp [pure_ok]
  | cons x xs ih =>
    simp only [List.forM_cons, bind_ok, ih, List.forall_mem_cons]
    exact ⟨fun ⟨_, hx, hxs⟩ => ⟨hx, hxs⟩, fun ⟨hx, hxs⟩ => ⟨(), hx, hxs⟩⟩

theorem forM_error {f : α → Except ε Unit} {xs : List α} (h : forM xs f = .error e) :
    ∃ x ∈ xs, f x = .error e := by
  induction xs with
  | nil => simp [pure, Except.pure] at h
  | cons x xs ih =>
    rw [List.forM_cons, bind_error] at h
    rcases h with h | ⟨_, -, h⟩
    · exact ⟨x, by simp, h⟩
    · obtain ⟨y, hy, h⟩ := ih h
      exact ⟨y, List.mem_cons_of_mem _ hy, h⟩

theorem foldlM_error {f : σ → α → Except ε σ} {xs : List α} (h : xs.foldlM f s = .error e) :
    ∃ t, ∃ x ∈ xs, f t x = .error e := by
  induction xs generalizing s with
  | nil => simp [pure, Except.pure] at h
  | cons x xs ih =>
    rw [List.foldlM_cons, bind_error] at h
    rcases h with h | ⟨t, -, h⟩
    · exact ⟨s, x, by simp, h⟩
    · obtain ⟨t, y, hy, h⟩ := ih h
      exact ⟨t, y, List.mem_cons_of_mem _ hy, h⟩

/-- A traversal by steps which are the ones of `g` wherever they succeed. -/
theorem filterMapM_ok {f : α → Except ε (Option β)} {g : α → Option β} {P : α → Prop}
    (h : ∀ x y, f x = .ok y ↔ P x ∧ y = g x) {xs : List α} :
    xs.filterMapM f = .ok ys ↔ (∀ x ∈ xs, P x) ∧ ys = xs.filterMap g := by
  induction xs generalizing ys with
  | nil => simp [List.filterMapM_nil, pure, Except.pure, eq_comm]
  | cons x xs ih =>
    rw [List.filterMapM_cons, bind_ok, List.forall_mem_cons]
    constructor
    · rintro ⟨y, hy, hrest⟩
      obtain ⟨hx, rfl⟩ := (h x y).mp hy
      rw [List.filterMap_cons]
      split at hrest
      · rename_i hg
        obtain ⟨hxs, rfl⟩ := ih.mp hrest
        exact ⟨⟨hx, hxs⟩, by rw [hg]⟩
      · rename_i b hg
        obtain ⟨bs, hbs, hys⟩ := bind_ok.mp hrest
        obtain ⟨hxs, rfl⟩ := ih.mp hbs
        exact ⟨⟨hx, hxs⟩, by rw [hg, ← pure_ok.mp hys]⟩
    · rintro ⟨⟨hx, hxs⟩, rfl⟩
      refine ⟨g x, (h x _).mpr ⟨hx, rfl⟩, ?_⟩
      have hrest : xs.filterMapM f = .ok (xs.filterMap g) := ih.mpr ⟨hxs, rfl⟩
      rw [List.filterMap_cons]
      cases hg : g x with
      | none => exact hrest
      | some b => rw [hrest]; rfl

theorem foldlM_invariant {f : σ → α → Except ε σ} {P : σ → Prop} {xs : List α}
    (hstep : ∀ s x s', P s → f s x = .ok s' → P s') (hs : P s) (h : xs.foldlM f s = .ok s') :
    P s' := by
  induction xs generalizing s with
  | nil =>
    rw [List.foldlM_nil, pure_ok] at h
    exact h ▸ hs
  | cons x xs ih =>
    rw [List.foldlM_cons, bind_ok] at h
    obtain ⟨t, ht, h⟩ := h
    exact ih (hstep s x t hs ht) h

/-- A loop whose steps can not fail is a loop without failures. -/
theorem foldlM_total {f : σ → α → Except ε σ} {g : σ → α → σ} (h : ∀ s x, f s x = .ok (g s x))
    (s : σ) (xs : List α) : xs.foldlM f s = .ok (xs.foldl g s) := by
  rw [funext fun s => funext (h s)]
  exact List.foldlM_pure

/-- A loop over what an outer loop produces is one loop over all of it. -/
theorem foldlM_flatten_ok {f : α → Except ε (List β)} {g : σ → β → Except ε σ} {xs : List α} :
    xs.foldlM (fun s x => do (← f x).foldlM g s) s = .ok s' ↔
      ∃ yss, xs.mapM f = .ok yss ∧ yss.flatten.foldlM g s = .ok s' := by
  induction xs generalizing s with
  | nil => simp [pure_ok]
  | cons x xs ih =>
    simp only [List.foldlM_cons, List.mapM_cons, bind_ok, pure_ok, ih]
    constructor
    · rintro ⟨t, ⟨ys, hys, ht⟩, yss, hyss, h⟩
      refine ⟨ys :: yss, ⟨ys, hys, yss, hyss, rfl⟩, ?_⟩
      rw [List.flatten_cons, List.foldlM_append, bind_ok]
      exact ⟨t, ht, h⟩
    · rintro ⟨_, ⟨ys, hys, yss, hyss, rfl⟩, h⟩
      rw [List.flatten_cons, List.foldlM_append, bind_ok] at h
      obtain ⟨t, ht, h⟩ := h
      exact ⟨t, ⟨ys, hys, ht⟩, yss, hyss, h⟩

/-- A loop over what an outer loop produces, when nothing fails in between. -/
theorem foldlM_flatten {f : α → Except ε (List β)} {g : σ → β → Except ε σ} {xs : List α}
    (h : xs.mapM f = .ok yss) (s : σ) :
    xs.foldlM (fun s x => do (← f x).foldlM g s) s = yss.flatten.foldlM g s := by
  rw [mapM_ok] at h
  induction h generalizing s with
  | nil => rfl
  | cons hx _ ih =>
    rw [List.foldlM_cons, hx, ok_bind, List.flatten_cons, List.foldlM_append]
    exact congrArg _ (funext ih)

/-- The step which fails, and the steps before it. -/
theorem foldlM_error_split {f : σ → α → Except ε σ} {xs : List α} (h : xs.foldlM f s = .error e) :
    ∃ before x after t, xs = before ++ x :: after ∧ before.foldlM f s = .ok t ∧ f t x = .error e := by
  induction xs generalizing s with
  | nil => simp [pure, Except.pure] at h
  | cons x xs ih =>
    rw [List.foldlM_cons, bind_error] at h
    rcases h with h | ⟨t, ht, h⟩
    · exact ⟨[], x, xs, s, rfl, rfl, h⟩
    · obtain ⟨before, y, after, t', rfl, hbefore, hy⟩ := ih h
      refine ⟨x :: before, y, after, t', rfl, ?_, hy⟩
      rw [List.foldlM_cons, ht, ok_bind, hbefore]

-- ---------------------------------------------------------------------------
-- Collecting a stream
-- ---------------------------------------------------------------------------

/-- Take the items of a stream as long as they are successes, keeping the ones
already taken; the first failure is the result. -/
def drain (taken : List α) : List (Except ε α) → Except ε (List α)
  | [] => .ok taken
  | .ok a :: items => drain (taken ++ [a]) items
  | .error e :: _ => .error e

theorem drain_ok {taken : List α} {items : List (Except ε α)} : drain taken items = .ok all ↔
    ∃ more : List α, items = more.map .ok ∧ all = taken ++ more := by
  induction items generalizing taken with
  | nil => simp [drain, eq_comm]
  | cons item items ih =>
    cases item with
    | error e =>
      refine ⟨fun h => by simp [drain] at h, ?_⟩
      rintro ⟨more, h, -⟩
      cases more <;> simp at h
    | ok a =>
      simp only [drain, ih]
      constructor
      · rintro ⟨more, rfl, rfl⟩
        exact ⟨a :: more, rfl, by simp⟩
      · rintro ⟨more, h, rfl⟩
        cases more with
        | nil => simp at h
        | cons b more =>
          simp only [List.map_cons, List.cons.injEq, Except.ok.injEq] at h
          exact ⟨more, h.2, by simp [h.1]⟩

end ExceptLaws
