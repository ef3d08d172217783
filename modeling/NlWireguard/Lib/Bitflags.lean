import Mathlib.Data.List.Basic
import Mathlib.Tactic.Common

/-!
# Sets of bit flags

A set of flags is a machine word. Some of its values have names; iterating
over a set yields the named flags it contains, in the order of their
declaration, and then all remaining bits as one last value.

For nonzero named flags which do not overlap, `iter_eq` says which list this
is without the loop, and `rest_not_named` that the last value never looks
like a named flag.
-/

namespace Bitflags

/-- The set which holds all bits of `flags`, inserted one by one. -/
def union (flags : List (BitVec w)) : BitVec w := flags.foldl (· ||| ·) 0

def Contains (bits flag : BitVec w) : Prop := bits &&& flag = flag

instance (bits flag : BitVec w) : Decidable (Contains bits flag) :=
  inferInstanceAs (Decidable (_ = _))

/-- The loop of the iterator: `remaining` holds the bits not yielded so far. -/
def iterFrom (source : BitVec w) : (named : List (BitVec w)) → (remaining : BitVec w) → List (BitVec w)
  | [], remaining => if remaining = 0 then [] else [remaining]
  | flag :: named, remaining =>
    if remaining = 0 then []
    else if Contains source flag ∧ remaining &&& flag ≠ 0 then
      flag :: iterFrom source named (remaining &&& ~~~flag)
    else iterFrom source named remaining

def iter (named : List (BitVec w)) (bits : BitVec w) : List (BitVec w) := iterFrom bits named bits

theorem foldl_or (flags : List (BitVec w)) (bits : BitVec w) :
    flags.foldl (· ||| ·) bits = bits ||| union flags := by
  induction flags generalizing bits with
  | nil => simp [union]
  | cons f fs ih =>
    simp only [union, List.foldl_cons] at ih ⊢
    rw [ih, ih (0 ||| f)]
    simp [BitVec.or_assoc]

@[simp] theorem union_nil : union ([] : List (BitVec w)) = 0 := rfl

@[simp] theorem union_cons (f : BitVec w) (fs : List (BitVec w)) :
    union (f :: fs) = f ||| union fs := by
  rw [union, List.foldl_cons, foldl_or]
  simp

def names (named : List (BitVec w)) (bits : BitVec w) : List (BitVec w) :=
  named.filter fun flag => Contains bits flag

def rest (named : List (BitVec w)) (bits : BitVec w) : BitVec w :=
  bits &&& ~~~union (names named bits)

def canonical (named : List (BitVec w)) (bits : BitVec w) : List (BitVec w) :=
  names named bits ++ if rest named bits = 0 then [] else [rest named bits]

/-- Named flags which can be told apart by their bits. -/
structure Disjoint (named : List (BitVec w)) : Prop where
  nonzero : ∀ f ∈ named, f ≠ 0
  apart : named.Pairwise fun f g => f &&& g = 0

theorem Disjoint.tail (h : Disjoint (f :: named)) : Disjoint named :=
  ⟨fun g hg => h.nonzero g (List.mem_cons_of_mem _ hg), (List.pairwise_cons.mp h.apart).2⟩

/-- A contained flag is still there when only bits apart from it were taken. -/
theorem and_of_contains (hc : Contains source flag) (hd : taken &&& flag = 0) :
    source &&& ~~~taken &&& flag = flag := by
  ext i hi
  have h1 := congrArg (·[i]) hc
  have h2 := congrArg (·[i]) hd
  simp only [BitVec.getElem_and] at h1 h2
  simp only [BitVec.getElem_and, BitVec.getElem_not]
  revert h1 h2
  cases source[i] <;> cases flag[i] <;> cases taken[i] <;> simp

theorem not_or_eq (a b c : BitVec w) : a &&& ~~~b &&& ~~~c = a &&& ~~~(b ||| c) := by
  ext i hi
  simp [Bool.and_assoc]

theorem iterFrom_eq (hn : Disjoint named) (ht : ∀ f ∈ named, taken &&& f = 0) :
    iterFrom source named (source &&& ~~~taken) =
      names named source ++
        if source &&& ~~~(taken ||| union (names named source)) = 0 then []
        else [source &&& ~~~(taken ||| union (names named source))] := by
  induction named generalizing taken with
  | nil => simp [iterFrom, names]
  | cons f named ih =>
    have htail : ∀ g ∈ named, taken &&& g = 0 := fun g hg => ht g (List.mem_cons_of_mem _ hg)
    have hf : Contains source f → source &&& ~~~taken &&& f = f :=
      fun hc => and_of_contains hc (ht f (by simp))
    by_cases hz : source &&& ~~~taken = 0
    · -- Nothing is left to yield, so no name of the list is contained.
      have hnone : names (f :: named) source = [] := by
        refine List.filter_eq_nil_iff.mpr fun g hg hc => hn.nonzero g hg ?_
        have := and_of_contains (of_decide_eq_true hc) (ht g hg)
        simpa [hz] using this.symm
      simp [iterFrom, hz, hnone]
    · by_cases hc : Contains source f
      · have hnz : source &&& ~~~taken &&& f ≠ 0 := by
          rw [hf hc]
          exact hn.nonzero f (by simp)
        have hnames : names (f :: named) source = f :: names named source := by simp [names, hc]
        have hapart : ∀ g ∈ named, (taken ||| f) &&& g = 0 := by
          intro g hg
          rw [BitVec.and_comm, BitVec.and_or_distrib_left, BitVec.and_comm, htail g hg,
            BitVec.and_comm, (List.pairwise_cons.mp hn.apart).1 g hg]
          simp
        rw [iterFrom, if_neg hz, if_pos ⟨hc, hnz⟩, not_or_eq, ih hn.tail hapart, hnames]
        simp [BitVec.or_assoc]
      · have hnames : names (f :: named) source = names named source := by simp [names, hc]
        rw [iterFrom, if_neg hz, if_neg fun h => hc h.1, ih hn.tail htail, hnames]

theorem iter_eq {named : List (BitVec w)} (hn : Disjoint named) (bits : BitVec w) :
    iter named bits = canonical named bits := by
  have h : iterFrom bits named (bits &&& ~~~0) = names named bits ++
      if bits &&& ~~~(0 ||| union (names named bits)) = 0 then []
      else [bits &&& ~~~(0 ||| union (names named bits))] := iterFrom_eq hn (by simp)
  have hall : bits &&& ~~~(0 : BitVec w) = bits := by simp
  have hunion : (0 : BitVec w) ||| union (names named bits) = union (names named bits) := by simp
  rw [hall, hunion] at h
  exact h

theorem contains_union (h : f ∈ fs) : Contains (union fs) f := by
  induction fs with
  | nil => simp at h
  | cons g fs ih =>
    unfold Contains at ih ⊢
    rw [union_cons]
    rcases List.mem_cons.mp h with rfl | h
    · ext i hi
      simpa using Or.inl
    · rw [← ih h]
      ext i hi
      simpa using fun hu _ => Or.inr hu

/-- What no name covers is none of the named flags. -/
theorem rest_not_named (hn : Disjoint named) (hf : f ∈ named) : rest named bits ≠ f := by
  intro h
  have hc : Contains bits f := by
    rw [Contains, ← h, rest]
    ext i hi
    simp
  have hu : Contains (union (names named bits)) f :=
    contains_union (List.mem_filter.mpr ⟨hf, decide_eq_true hc⟩)
  refine hn.nonzero f hf ?_
  rw [← h, rest, ← hu] at *
  ext i hi
  have h1 := congrArg (·[i]) h
  simp only [BitVec.getElem_and, BitVec.getElem_not] at h1 ⊢
  revert h1
  cases bits[i] <;> cases (union (names named bits))[i] <;> cases f[i] <;> simp

/-- An enumeration of the named flags, in which any other value is `other`. -/
structure Naming (w : Nat) (φ : Type) where
  named : List φ
  toFlags : φ → BitVec w
  ofFlags : BitVec w → φ
  other : BitVec w → φ
  disjoint : Disjoint (named.map toFlags)
  ofFlags_toFlags : ∀ f ∈ named, ofFlags (toFlags f) = f
  ofFlags_other : ∀ bits, bits ∉ named.map toFlags → ofFlags bits = other bits

namespace Naming

variable {φ : Type} (N : Naming w φ)

/-- The flags of a set: the names it contains, then the remaining bits. -/
def ofBits (bits : BitVec w) : List φ :=
  N.named.filter (fun f => Contains bits (N.toFlags f)) ++
    if rest (N.named.map N.toFlags) bits = 0 then []
    else [N.other (rest (N.named.map N.toFlags) bits)]

theorem map_iter (bits : BitVec w) :
    (iter (N.named.map N.toFlags) bits).map N.ofFlags = N.ofBits bits := by
  have hnames : (names (N.named.map N.toFlags) bits).map N.ofFlags =
      N.named.filter fun f => Contains bits (N.toFlags f) := by
    have hid : ∀ f ∈ N.named.filter (fun f => Contains bits (N.toFlags f)),
        (N.ofFlags ∘ N.toFlags) f = f := fun f hf => N.ofFlags_toFlags f (List.mem_filter.mp hf).1
    rw [names, List.filter_map, List.map_map]
    exact (List.map_congr_left hid).trans (List.map_id _)
  have hrest : N.ofFlags (rest (N.named.map N.toFlags) bits) =
      N.other (rest (N.named.map N.toFlags) bits) :=
    N.ofFlags_other _ fun hmem => rest_not_named N.disjoint hmem rfl
  rw [iter_eq N.disjoint, canonical, List.map_append, hnames, ofBits]
  split
  · rfl
  · rw [List.map_singleton, hrest]

end Naming

end Bitflags
