import Mathlib.Tactic.Common

/-!
# Next-fit packing

A list of sized items is cut, in order, into bins of a limited size. Every
bin starts with a prefix of its own: `first` bytes in the first bin, `rest`
bytes in the others. An item which does not fit closes the open bin, except
that an empty bin takes any item.

The lemmas say what such a cut is good for: nothing is lost or moved, no bin
is empty, every bin fits as soon as every single item does, and no bin is
closed before it has to be.
-/

namespace NextFit

def total (size : α → Nat) : List α → Nat
  | [] => 0
  | x :: xs => size x + total size xs

@[simp] theorem total_nil : total size [] = 0 := rfl

@[simp] theorem total_cons : total size (x :: xs) = size x + total size xs := rfl

@[simp] theorem total_append : total size (xs ++ ys) = total size xs + total size ys := by
  induction xs with
  | nil => exact (Nat.zero_add _).symm
  | cons x xs ih => rw [List.cons_append, total_cons, total_cons, ih, Nat.add_assoc]

theorem total_const (h : ∀ x ∈ xs, size x = n) : total size xs = xs.length * n := by
  induction xs with
  | nil => simp
  | cons x xs ih =>
    rw [total_cons, h x (by simp), ih fun y hy => h y (List.mem_cons_of_mem _ hy),
      List.length_cons, Nat.succ_mul, Nat.add_comm]

theorem le_total (h : x ∈ xs) : size x ≤ total size xs := by
  induction xs with
  | nil => simp at h
  | cons y ys ih =>
    rw [total_cons]
    rcases List.mem_cons.mp h with rfl | h
    · exact Nat.le_add_right _ _
    · exact Nat.le_trans (ih h) (Nat.le_add_left _ _)

theorem total_perm (h : xs.Perm ys) : total size xs = total size ys := by
  induction h with
  | nil => rfl
  | cons x _ ih => rw [total_cons, total_cons, ih]
  | swap x y xs => simp only [total_cons, Nat.add_left_comm]
  | trans _ _ ih ih' => exact ih.trans ih'

/-- `used` bytes of the open bin are taken, by its prefix and by `bin`. -/
def pack (size : α → Nat) (limit rest : Nat) : (used : Nat) → (bin items : List α) → List (List α)
  | _, bin, [] => if bin = [] then [] else [bin]
  | used, bin, x :: xs =>
    if bin ≠ [] ∧ limit < used + size x then
      bin :: pack size limit rest (rest + size x) [x] xs
    else
      pack size limit rest (used + size x) (bin ++ [x]) xs

variable {size : α → Nat} {limit rest : Nat}

theorem pack_flatten (used : Nat) (bin items : List α) :
    (pack size limit rest used bin items).flatten = bin ++ items := by
  fun_induction pack size limit rest used bin items with
  | case1 used => simp
  | case2 used bin h => simp
  | case3 used bin x xs h ih => simp [ih]
  | case4 used bin x xs h ih => simp [ih]

theorem ne_nil_of_mem_pack (h : bin ∈ pack size limit rest used current items) : bin ≠ [] := by
  fun_induction pack size limit rest used current items with
  | case1 used => simp at h
  | case2 used current hc => simp at h; simpa [h] using hc
  | case3 used current x xs hc ih =>
    rcases List.mem_cons.mp h with rfl | h
    · exact hc.1
    · exact ih h
  | case4 used current x xs hc ih => exact ih h

theorem pack_ne_nil (h : current ++ items ≠ []) : pack size limit rest used current items ≠ [] := by
  intro hp
  have hf : (pack size limit rest used current items).flatten = current ++ items :=
    pack_flatten used current items
  rw [hp] at hf
  exact h hf.symm

/-- The first bin fits with a prefix of `first` bytes, the others with `rest`. -/
def Fits (size : α → Nat) (limit first rest : Nat) : List (List α) → Prop
  | [] => True
  | bin :: bins => first + total size bin ≤ limit ∧ ∀ b ∈ bins, rest + total size b ≤ limit

theorem Fits.tail (h : Fits size limit first rest (bin :: bins)) : Fits size limit rest rest bins := by
  cases bins with
  | nil => trivial
  | cons b bins => exact ⟨h.2 b (by simp), fun c hc => h.2 c (List.mem_cons_of_mem _ hc)⟩

theorem Fits.total_le (h : Fits size limit first rest bins) :
    ∀ bin ∈ bins, total size bin ≤ limit := by
  cases bins with
  | nil => simp
  | cons b bins =>
    intro bin hbin
    rcases List.mem_cons.mp hbin with rfl | hbin
    · exact Nat.le_trans (Nat.le_add_left _ _) h.1
    · exact Nat.le_trans (Nat.le_add_left _ _) (h.2 bin hbin)

/-- Every bin fits if the open one does and every item fits into a bin of its own. -/
theorem pack_fits {first : Nat} (hused : used = first + total size current)
    (hopen : current ≠ [] → used ≤ limit)
    (hfirst : ∀ x ∈ items, first + size x ≤ limit) (hrest : ∀ x ∈ items, rest + size x ≤ limit) :
    Fits size limit first rest (pack size limit rest used current items) := by
  fun_induction pack size limit rest used current items generalizing first with
  | case1 used => trivial
  | case2 used current hc => exact ⟨hused ▸ hopen hc, by simp⟩
  | case3 used current x xs hc ih =>
    have htail : Fits size limit rest rest (pack size limit rest (rest + size x) [x] xs) :=
      ih (by simp) (fun _ => hrest x (by simp))
        (fun y hy => hrest y (List.mem_cons_of_mem _ hy))
        (fun y hy => hrest y (List.mem_cons_of_mem _ hy))
    refine ⟨hused ▸ hopen hc.1, ?_⟩
    intro b hb
    revert htail
    generalize pack size limit rest (rest + size x) [x] xs = bins at hb
    intro htail
    cases bins with
    | nil => simp at hb
    | cons c bins =>
      rcases List.mem_cons.mp hb with rfl | hb
      · exact htail.1
      · exact htail.2 b hb
  | case4 used current x xs hc ih =>
    refine ih (by simp [hused]; omega) (fun _ => ?_)
      (fun y hy => hfirst y (List.mem_cons_of_mem _ hy))
      (fun y hy => hrest y (List.mem_cons_of_mem _ hy))
    by_cases hn : current = []
    · subst hn
      simpa [hused] using hfirst x (by simp)
    · exact Nat.not_lt.mp fun hl => hc ⟨hn, hl⟩

theorem pack_single (hne : current ++ items ≠ []) (hfits : used + total size items ≤ limit) :
    pack size limit rest used current items = [current ++ items] := by
  fun_induction pack size limit rest used current items with
  | case1 used => simp at hne
  | case2 used current hc => simp
  | case3 used current x xs hc ih =>
    simp only [total_cons] at hfits
    omega
  | case4 used current x xs hc ih =>
    rw [ih (by simp) (by simp only [total_cons] at hfits; omega)]
    simp

/-- One bin is enough exactly when everything fits into one. -/
theorem pack_length_le_one {first : Nat}
    (hfits : Fits size limit first rest (pack size limit rest first [] items)) :
    (pack size limit rest first [] items).length ≤ 1 ↔ items = [] ∨ first + total size items ≤ limit := by
  have hflatten : (pack size limit rest first [] items).flatten = items := pack_flatten first [] items
  constructor
  · intro hlen
    generalize pack size limit rest first [] items = bins at hfits hflatten hlen
    match bins with
    | [] => exact .inl hflatten.symm
    | [bin] =>
      have hbin : bin = items := by simpa using hflatten
      exact .inr (hbin ▸ hfits.1)
    | _ :: _ :: _ => simp at hlen
  · intro h
    by_cases hnil : items = []
    · simp [hnil, pack]
    · have hsingle : pack size limit rest first [] items = [[] ++ items] :=
        pack_single hnil (h.resolve_left hnil)
      rw [hsingle]
      exact Nat.le_refl 1

/-- No bin is closed before an item arrives which does not fit. -/
def Tight (size : α → Nat) (limit first rest : Nat) : List (List α) → Prop
  | bin :: (x :: more) :: bins =>
    limit < first + total size bin + size x ∧ Tight size limit rest rest ((x :: more) :: bins)
  | _ => True

/-- The open bin stays the first bin, with more items at its end. -/
theorem pack_head (hc : current ≠ []) :
    ∃ more bins, pack size limit rest used current items = (current ++ more) :: bins := by
  fun_induction pack size limit rest used current items with
  | case1 used => simp at hc
  | case2 used current h => exact ⟨[], [], by simp⟩
  | case3 used current x xs h ih => exact ⟨[], _, by simp; rfl⟩
  | case4 used current x xs h ih =>
    obtain ⟨more, bins, heq⟩ := ih (by simp)
    exact ⟨x :: more, bins, by simp [heq]⟩

theorem pack_tight {first : Nat} (hused : used = first + total size current) :
    Tight size limit first rest (pack size limit rest used current items) := by
  fun_induction pack size limit rest used current items generalizing first with
  | case1 used => trivial
  | case2 used current hc => trivial
  | case3 used current x xs hc ih =>
    have htail : Tight size limit rest rest (pack size limit rest (rest + size x) [x] xs) :=
      ih (by simp)
    obtain ⟨more, bins, heq⟩ :
        ∃ more bins, pack size limit rest (rest + size x) [x] xs = ([x] ++ more) :: bins :=
      pack_head (by simp)
    rw [heq] at htail ⊢
    exact ⟨hused ▸ hc.2, htail⟩
  | case4 used current x xs hc ih => exact ih (by simp [hused]; omega)

theorem Tight.tail (h : Tight size limit first rest (bin :: bins)) (hne : ∀ b ∈ bins, b ≠ []) :
    Tight size limit rest rest bins := by
  match bins with
  | [] => trivial
  | [] :: _ => exact absurd rfl (hne [] (by simp))
  | (_ :: _) :: _ => exact h.2

/-- No bin could have taken the first item of the one behind it. -/
theorem Tight.isChain (h : Tight size limit rest rest bins) (hne : ∀ bin ∈ bins, bin ≠ []) :
    bins.IsChain fun bin next => ∃ x, next.head? = some x ∧ limit < rest + total size bin + size x := by
  induction bins with
  | nil => exact .nil
  | cons bin bins ih =>
    match bins with
    | [] => exact .singleton bin
    | [] :: _ => exact absurd rfl (hne [] (by simp))
    | (x :: more) :: bins =>
      exact .cons_cons ⟨x, rfl, h.1⟩ (ih h.2 fun b hb => hne b (List.mem_cons_of_mem _ hb))

-- ---------------------------------------------------------------------------
-- Any other cut
-- ---------------------------------------------------------------------------

/-- The bin of a cut which takes the first item, and the bins behind it. -/
theorem exists_of_flatten_eq_cons {bins : List (List α)} (h : bins.flatten = x :: xs) :
    ∃ (bin : List α) (more : List (List α)), (x :: bin) ∈ bins ∧ (∀ b ∈ more, b ∈ bins) ∧
      more.length < bins.length ∧ bin ++ more.flatten = xs := by
  induction bins with
  | nil => simp at h
  | cons b bins ih =>
    cases b with
    | nil =>
      obtain ⟨bin, more, hbin, hmore, hlen, hxs⟩ := ih h
      exact ⟨bin, more, List.mem_cons_of_mem _ hbin, fun b hb => List.mem_cons_of_mem _ (hmore b hb),
        Nat.lt_succ_of_lt hlen, hxs⟩
    | cons y bin =>
      obtain ⟨rfl, rfl⟩ := List.cons.inj h
      exact ⟨bin, bins, by simp, fun b hb => List.mem_cons_of_mem _ hb, Nat.lt_succ_self _, rfl⟩

/-- Next fit is never behind another cut, in which the open bin still takes
`more` and the bins behind it are `bins`. -/
theorem pack_length_le_succ {more : List α} {bins : List (List α)}
    (hitems : more ++ bins.flatten = items) (hmore : more ≠ [] → used + total size more ≤ limit)
    (hbins : ∀ bin ∈ bins, rest + total size bin ≤ limit) :
    (pack size limit rest used current items).length ≤ bins.length + 1 := by
  fun_induction pack size limit rest used current items generalizing more bins with
  | case1 used => simp
  | case2 used current hc => simp
  | case3 used current x xs hc ih =>
    cases more with
    | cons y more =>
      obtain ⟨rfl, -⟩ := List.cons.inj hitems
      have hle : used + (size y + total size more) ≤ limit := hmore (by simp)
      omega
    | nil =>
      obtain ⟨bin, later, hbin, hlater, hlen, hxs⟩ := exists_of_flatten_eq_cons hitems
      have hfits : rest + (size x + total size bin) ≤ limit := hbins _ hbin
      have hle : (pack size limit rest (rest + size x) [x] xs).length ≤ later.length + 1 :=
        ih hxs (fun _ => by omega) fun b hb => hbins b (hlater b hb)
      rw [List.length_cons]
      omega
  | case4 used current x xs hc ih =>
    cases more with
    | cons y more =>
      obtain ⟨rfl, hxs⟩ := List.cons.inj hitems
      have hle : used + (size y + total size more) ≤ limit := hmore (by simp)
      exact ih hxs (fun _ => by omega) hbins
    | nil =>
      -- The other cut has already closed its bin, next fit still uses it.
      obtain ⟨bin, later, hbin, hlater, hlen, hxs⟩ := exists_of_flatten_eq_cons hitems
      have hfits : rest + (size x + total size bin) ≤ limit := hbins _ hbin
      have hle : (pack size limit rest (used + size x) (current ++ [x]) xs).length ≤
          (bin :: later).length + 1 := by
        have hall : [] ++ (bin :: later).flatten = xs := hxs
        refine ih hall (fun h => absurd rfl h) fun b hb => ?_
        rcases List.mem_cons.mp hb with rfl | hb
        · omega
        · exact hbins b (hlater b hb)
      rw [List.length_cons] at hle
      omega

/-- No cut whose bins fit has fewer bins. -/
theorem pack_length_le {first : Nat} (h : Fits size limit first rest (bin :: bins))
    (hitems : bin ++ bins.flatten = items) :
    (pack size limit rest first [] items).length ≤ (bin :: bins).length :=
  pack_length_le_succ hitems (fun _ => h.1) h.2

/-- Neighbours which do not fit into one bin bound the number of bins. -/
theorem length_mul_le {bin : List α} {bins : List (List α)}
    (h : (bin :: bins).IsChain fun bin next => limit < total size bin + total size next) :
    bins.length * (limit + 1) + total size bin ≤ 2 * total size (bin :: bins).flatten := by
  induction bins generalizing bin with
  | nil => simp; omega
  | cons next bins ih =>
    obtain ⟨hfull, htail⟩ := List.isChain_cons_cons.mp h
    have hrest : bins.length * (limit + 1) + total size next ≤ 2 * total size (next :: bins).flatten :=
      ih htail
    rw [List.length_cons, Nat.succ_mul, List.flatten_cons, total_append]
    omega

-- ---------------------------------------------------------------------------
-- Bin by bin
-- ---------------------------------------------------------------------------

/-- The open bin: the bytes taken so far and the number of items in it. -/
structure Bin where
  used : Nat
  count : Nat := 0

def fill (size : α → Nat) (limit : Nat) (bin : Bin) : List α → Bin
  | [] => bin
  | x :: xs =>
    if 0 < bin.count ∧ limit < bin.used + size x then bin
    else fill size limit ⟨bin.used + size x, bin.count + 1⟩ xs

theorem le_fill (bin : Bin) (items : List α) : bin.count ≤ (fill size limit bin items).count := by
  fun_induction fill size limit bin items with
  | case1 => omega
  | case2 => omega
  | case3 bin x xs h ih => exact Nat.le_of_succ_le ih

theorem fill_pos (h : items ≠ []) : 0 < (fill size limit ⟨used, 0⟩ items).count := by
  cases items with
  | nil => exact absurd rfl h
  | cons x xs =>
    simp only [fill, Nat.lt_irrefl, false_and, ↓reduceIte]
    exact Nat.lt_of_lt_of_le Nat.zero_lt_one (le_fill ⟨used + size x, 1⟩ xs)

theorem pack_eq_fill (hne : current ++ items ≠ []) :
    pack size limit rest used current items =
      (current ++ items.take ((fill size limit ⟨used, current.length⟩ items).count - current.length)) ::
        pack size limit rest rest []
          (items.drop ((fill size limit ⟨used, current.length⟩ items).count - current.length)) := by
  fun_induction pack size limit rest used current items with
  | case1 used => simp at hne
  | case2 used current hc => simp [pack]
  | case3 used current x xs hc ih =>
    have hpos : 0 < current.length := List.length_pos_iff.mpr hc.1
    simp [fill, hpos, hc.2, pack]
  | case4 used current x xs hc ih =>
    have hnot : ¬(0 < current.length ∧ limit < used + size x) := by
      rintro ⟨h1, h2⟩
      exact hc ⟨List.length_pos_iff.mp h1, h2⟩
    have hle : current.length + 1 ≤ (fill size limit ⟨used + size x, current.length + 1⟩ xs).count :=
      le_fill ⟨used + size x, current.length + 1⟩ xs
    obtain ⟨n, hn⟩ := Nat.exists_eq_add_of_le hle
    rw [ih (by simp)]
    simp only [fill, if_neg hnot, List.length_append, List.length_singleton, hn]
    have h1 : current.length + 1 + n - (current.length + 1) = n := by omega
    have h2 : current.length + 1 + n - current.length = n + 1 := by omega
    simp [h1, h2]

/-- The first bin of a packing, then the packing of what it leaves. -/
theorem pack_unfold (h : items ≠ []) :
    pack size limit rest used [] items =
      items.take (fill size limit ⟨used, 0⟩ items).count ::
        pack size limit rest rest [] (items.drop (fill size limit ⟨used, 0⟩ items).count) := by
  have hfill : pack size limit rest used [] items =
      ([] ++ items.take ((fill size limit ⟨used, 0⟩ items).count - 0)) ::
        pack size limit rest rest [] (items.drop ((fill size limit ⟨used, 0⟩ items).count - 0)) :=
    pack_eq_fill (by simpa using h)
  simpa using hfill

end NextFit
