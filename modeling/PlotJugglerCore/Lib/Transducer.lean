import Mathlib.Data.List.Pairwise

/-!
# Transducers

A machine that reads its inputs one by one, and answers some of them. What it answers to a list does
not depend on how the list was cut into pieces, as long as the state is carried from one piece to the
next. A machine that keeps to an order answers every list of inputs in order with outputs in order,
and then so it does from every state it can be brought into.
-/

namespace Transducer

variable {σ α β : Type*} {step : σ → α → σ × Option β} {s : σ} {l l' : List α} {a : α}

/-- The state behind a list of inputs, and the outputs on the way. -/
def run (step : σ → α → σ × Option β) : σ → List α → σ × List β
  | s, [] => (s, [])
  | s, a :: l => ((run step (step s a).1 l).1, (step s a).2.toList ++ (run step (step s a).1 l).2)

theorem run_append (step : σ → α → σ × Option β) (s : σ) (l l' : List α) :
    run step s (l ++ l') =
      ((run step (run step s l).1 l').1, (run step s l).2 ++ (run step (run step s l).1 l').2) := by
  induction l generalizing s with
  | nil => rfl
  | cons a l ih => rw [List.cons_append, run, ih, run, List.append_assoc]

/-- One input more. -/
theorem run_concat (step : σ → α → σ × Option β) (s : σ) (l : List α) (a : α) :
    run step s (l ++ [a]) = ((step (run step s l).1 a).1,
      (run step s l).2 ++ (step (run step s l).1 a).2.toList) := by
  rw [run_append, run, run, List.append_nil]

theorem run_concat_of_none (h : (step (run step s l).1 a).2 = none) :
    (run step s (l ++ [a])).2 = (run step s l).2 := by
  rw [run_concat, h, Option.toList_none, List.append_nil]

theorem run_concat_of_some {b : β} (h : (step (run step s l).1 a).2 = some b) :
    (run step s (l ++ [a])).2 = (run step s l).2 ++ [b] := by
  rw [run_concat, h, Option.toList_some]

/-- There is at most one output for an input. -/
theorem length_run_le (step : σ → α → σ × Option β) (s : σ) (l : List α) :
    (run step s l).2.length ≤ l.length := by
  induction l generalizing s with
  | nil => exact Nat.le_refl 0
  | cons a l ih =>
    rw [run, List.length_append, List.length_cons, Nat.add_comm]
    refine Nat.add_le_add (ih _) ?_
    rcases (step s a).2 with _ | b
    · exact Nat.zero_le 1
    · exact Nat.le_refl 1

/-- A machine that gives inputs back, or what has their key. -/
theorem map_run_sublist {κ : Type*} {key : α → κ} {key' : β → κ}
    (hstep : ∀ s a b, (step s a).2 = some b → key' b = key a) (s : σ) (l : List α) :
    ((run step s l).2.map key').Sublist (l.map key) := by
  induction l generalizing s with
  | nil => exact .slnil
  | cons a l ih =>
    rw [run, List.map_append, List.map_cons]
    rcases hout : (step s a).2 with _ | b
    · exact .cons _ (ih _)
    · rw [Option.toList_some, List.map_singleton, hstep s a b hout]
      exact .cons_cons _ (ih _)

/-! ## One input back -/

/-- What a machine answers that compares each input with the one before it. -/
def consecutive (f : α → α → β) (l : List α) : List β := List.zipWith f l l.tail

/-- A machine that remembers of an input what it needs for the next answer. -/
theorem run_remembering {f : α → α → β} (remember : α → σ)
    (hstep : ∀ a a', step (remember a) a' = (remember a', some (f a a'))) (a : α) (l : List α) :
    (run step (remember a) l).2 = consecutive f (a :: l) := by
  induction l generalizing a with
  | nil => rfl
  | cons a' l ih =>
    rw [run, hstep, ih]
    rfl

/-! ## Order -/

section Order

variable {τ υ : Type*} [LE τ] [LE υ] {key : α → τ} {key' : β → υ}

/-- Inputs in order are answered in order. -/
def KeepsOrder (step : σ → α → σ × Option β) (key : α → τ) (key' : β → υ) (s : σ) : Prop :=
  ∀ l : List α, (l.map key).Pairwise (· ≤ ·) → ((run step s l).2.map key').Pairwise (· ≤ ·)

/-- The next output comes behind the outputs before it. -/
theorem KeepsOrder.le_next (h : KeepsOrder step key key' s)
    (hl : ((l ++ [a]).map key).Pairwise (· ≤ ·)) {b : β} (hb : (step (run step s l).1 a).2 = some b) :
    ∀ b' ∈ (run step s l).2, key' b' ≤ key' b := by
  intro b' hb'
  have hout := h (l ++ [a]) hl
  rw [run_concat_of_some hb, List.map_append] at hout
  exact (List.pairwise_append.mp hout).2.2 _ (List.mem_map_of_mem hb') _ List.mem_cons_self

end Order

end Transducer
