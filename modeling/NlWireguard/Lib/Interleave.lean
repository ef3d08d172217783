import Mathlib.Data.List.Forall2
import Mathlib.Data.List.Pairwise

/-!
# Queues which take turns

Several queues of steps share one state: at any time one of them takes its next
step. If steps of different queues commute, it does not matter whose turn it is.
-/

namespace Interleave

variable {step : σ → α → σ} {as bs : List α}

def Commutes (step : σ → α → σ) (a b : α) : Prop := ∀ s, step (step s a) b = step (step s b) a

theorem Commutes.symm (h : Commutes step a b) : Commutes step b a := fun s => (h s).symm

theorem foldl_step (h : ∀ b ∈ bs, Commutes step a b) (s : σ) :
    bs.foldl step (step s a) = step (bs.foldl step s) a := by
  induction bs generalizing s with
  | nil => rfl
  | cons b bs ih =>
    obtain ⟨hb, hbs⟩ := List.forall_mem_cons.mp h
    rw [List.foldl_cons, hb s, ih hbs, List.foldl_cons]

theorem foldl_comm (h : ∀ a ∈ as, ∀ b ∈ bs, Commutes step a b) (s : σ) :
    bs.foldl step (as.foldl step s) = as.foldl step (bs.foldl step s) := by
  induction as generalizing s with
  | nil => rfl
  | cons a as ih =>
    obtain ⟨ha, has⟩ := List.forall_mem_cons.mp h
    rw [List.foldl_cons, ih has, foldl_step ha, List.foldl_cons]

theorem pairwise_of_forall₂ {R : α → β → Prop} {S : α → α → Prop} {T : β → β → Prop}
    {as : List α} {bs : List β} (hST : ∀ a a' b b', R a b → R a' b' → S a a' → T b b')
    (h : List.Forall₂ R as bs) (hS : as.Pairwise S) : bs.Pairwise T := by
  induction h with
  | nil => exact .nil
  | @cons a b as bs hab hrest ih =>
    obtain ⟨ha, has⟩ := List.pairwise_cons.mp hS
    refine List.pairwise_cons.mpr ⟨?_, ih has⟩
    clear ih hS has
    induction hrest with
    | nil => simp
    | cons hab' _ ih =>
      obtain ⟨ha', has⟩ := List.forall_mem_cons.mp ha
      exact List.forall_mem_cons.mpr ⟨hST _ _ _ _ hab hab' ha', ih has⟩

/-- A run of the queues, which ends when all of them are empty. -/
inductive Interleaved : List (List α) → List α → Prop
  | done {queues : List (List α)} (h : ∀ queue ∈ queues, queue = []) : Interleaved queues []
  | turn {before after : List (List α)} {queue run : List α} {a : α}
      (h : Interleaved (before ++ queue :: after) run) :
      Interleaved (before ++ (a :: queue) :: after) (a :: run)

/-- Running the queues in turns is running them one after the other. -/
theorem Interleaved.foldl {queues : List (List α)} {run : List α} (h : Interleaved queues run)
    (hcomm : queues.Pairwise fun as bs => ∀ a ∈ as, ∀ b ∈ bs, Commutes step a b) (s : σ) :
    run.foldl step s = queues.flatten.foldl step s := by
  induction h generalizing s with
  | done h => rw [List.flatten_eq_nil_iff.mpr h]
  | @turn before after queue run a _ ih =>
    obtain ⟨hbefore, hqueue, hcross⟩ := List.pairwise_append.mp hcomm
    obtain ⟨hafter, hrest⟩ := List.pairwise_cons.mp hqueue
    have hlater : (before ++ queue :: after).Pairwise
        fun as bs => ∀ a ∈ as, ∀ b ∈ bs, Commutes step a b := by
      refine List.pairwise_append.mpr ⟨hbefore, List.pairwise_cons.mpr ⟨?_, hrest⟩, ?_⟩
      · exact fun bs hbs b hb => hafter bs hbs b (List.mem_cons_of_mem _ hb)
      · intro as has bs hbs b hb c hc
        rcases List.mem_cons.mp hbs with rfl | hbs
        · exact hcross as has _ List.mem_cons_self b hb c (List.mem_cons_of_mem _ hc)
        · exact hcross as has bs (List.mem_cons_of_mem _ hbs) b hb c hc
    have hfirst : ∀ b ∈ before.flatten, Commutes step a b := by
      intro b hb t
      obtain ⟨as, has, hb⟩ := List.mem_flatten.mp hb
      exact (hcross as has _ List.mem_cons_self b hb a List.mem_cons_self t).symm
    rw [List.foldl_cons, ih hlater, List.flatten_append, List.flatten_append, List.foldl_append,
      List.foldl_append, foldl_step hfirst]
    rfl

end Interleave
