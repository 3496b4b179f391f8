import Mathlib.Data.List.Basic

/-!
# Binary search

`std::lower_bound` and `std::upper_bound` are one search for the point where a predicate turns false,
with a comparison to the left or to the right of the value. The search here takes the same steps, so
it is defined on every list. On a list that the predicate cuts in two, it finds the cut: the elements
before it are those that satisfy the predicate.
-/

/-- Halve the list until nothing is left, like the loop of `std::partition_point`. -/
def partitionPoint {α : Type*} (p : α → Bool) (l : List α) : ℕ :=
  if h : l = [] then 0
  else if p (l.get ⟨l.length / 2, Nat.div_lt_self (List.length_pos_iff.mpr h) Nat.one_lt_two⟩) then
    l.length / 2 + 1 + partitionPoint p (l.drop (l.length / 2 + 1))
  else partitionPoint p (l.take (l.length / 2))
termination_by l.length
decreasing_by
  · have := List.length_pos_iff.mpr h
    rw [List.length_drop]
    omega
  · have := List.length_pos_iff.mpr h
    rw [List.length_take]
    omega

namespace PartitionPoint

variable {α : Type*} {p : α → Bool} {l : List α}

/-- Nothing that satisfies `p` comes after something that does not. -/
def Partitioned (p : α → Bool) (l : List α) : Prop := l.Pairwise fun a b ↦ p b → p a

theorem countP_eq_zero (h : ∀ a ∈ l, p a = false) : l.countP p = 0 := by
  rw [List.countP_eq_zero]
  intro a ha
  rw [h a ha]
  exact Bool.false_ne_true

/-- A list cut at an element: what lies before it and what lies behind it. -/
theorem split_at {i : ℕ} (hi : i < l.length) : l = l.take i ++ l.get ⟨i, hi⟩ :: l.drop (i + 1) := by
  rw [List.get_eq_getElem, List.getElem_cons_drop, List.take_append_drop]

/-- The search counts the elements before the cut. -/
theorem partitionPoint_eq_countP (h : Partitioned p l) : partitionPoint p l = l.countP p := by
  induction hn : l.length using Nat.strongRecOn generalizing l with
  | _ n ih =>
    subst hn
    rw [partitionPoint]
    split_ifs with hnil hmid
    · rw [hnil, List.countP_nil]
    · have hpos := List.length_pos_iff.mpr hnil
      have hlt : l.length / 2 < l.length := Nat.div_lt_self hpos Nat.one_lt_two
      have hsplit := split_at hlt
      have hpart := h
      rw [Partitioned, hsplit, List.pairwise_append] at hpart
      -- everything before the middle satisfies the predicate
      have hbefore : (l.take (l.length / 2)).countP p = l.length / 2 := by
        have hall : ∀ a ∈ l.take (l.length / 2), p a = true :=
          fun a ha ↦ hpart.2.2 a ha _ List.mem_cons_self hmid
        rw [List.countP_eq_length.mpr hall, List.length_take]
        omega
      rw [ih _ (by rw [List.length_drop]; omega) (h.sublist (List.drop_sublist _ _)) rfl]
      conv_rhs => rw [hsplit, List.countP_append, List.countP_cons_of_pos hmid, hbefore]
      omega
    · have hpos := List.length_pos_iff.mpr hnil
      have hlt : l.length / 2 < l.length := Nat.div_lt_self hpos Nat.one_lt_two
      have hsplit := split_at hlt
      have hpart := h
      rw [Partitioned, hsplit, List.pairwise_append, List.pairwise_cons] at hpart
      have hbehind : (l.drop (l.length / 2 + 1)).countP p = 0 := by
        refine countP_eq_zero fun a ha ↦ ?_
        by_contra hne
        exact hmid (hpart.2.1.1 a ha (by simpa using hne))
      rw [ih _ (by rw [List.length_take]; omega) (h.sublist (List.take_sublist _ _)) rfl]
      conv_rhs => rw [hsplit, List.countP_append, List.countP_cons_of_neg hmid, hbehind]
      omega

theorem take_countP (h : Partitioned p l) : l.take (l.countP p) = l.filter p := by
  induction l with
  | nil => rfl
  | cons a l ih =>
    obtain ⟨hhead, htail⟩ := List.pairwise_cons.mp h
    by_cases ha : p a
    · rw [List.countP_cons_of_pos ha, List.filter_cons_of_pos ha, List.take_succ_cons, ih htail]
    · have hnone : ∀ b ∈ l, p b = false := by
        intro b hb
        by_contra hne
        exact ha (hhead b hb (by simpa using hne))
      rw [List.countP_cons_of_neg ha, countP_eq_zero hnone, List.filter_cons_of_neg ha, List.take_zero,
        List.filter_eq_nil_iff.mpr (by simpa using hnone)]

theorem drop_countP (h : Partitioned p l) : l.drop (l.countP p) = l.filter fun a ↦ !p a := by
  induction l with
  | nil => rfl
  | cons a l ih =>
    obtain ⟨hhead, htail⟩ := List.pairwise_cons.mp h
    by_cases ha : p a
    · rw [List.countP_cons_of_pos ha, List.drop_succ_cons, ih htail,
        List.filter_cons_of_neg (by simpa using ha)]
    · have hnone : ∀ b ∈ l, p b = false := by
        intro b hb
        by_contra hne
        exact ha (hhead b hb (by simpa using hne))
      rw [List.countP_cons_of_neg ha, countP_eq_zero hnone, List.drop_zero,
        List.filter_cons_of_pos (by simpa using ha),
        List.filter_eq_self.mpr (by simpa using hnone)]

theorem takeWhile_eq_filter (h : Partitioned p l) : l.takeWhile p = l.filter p := by
  induction l with
  | nil => rfl
  | cons a l ih =>
    obtain ⟨hhead, htail⟩ := List.pairwise_cons.mp h
    by_cases ha : p a
    · rw [List.takeWhile_cons_of_pos ha, List.filter_cons_of_pos ha, ih htail]
    · have hnone : ∀ b ∈ l, ¬p b := fun b hb hpb ↦ ha (hhead b hb hpb)
      rw [List.takeWhile_cons_of_neg ha, List.filter_cons_of_neg ha,
        List.filter_eq_nil_iff.mpr hnone]

/-- The elements before the point the search returns. -/
theorem take_partitionPoint (h : Partitioned p l) : l.take (partitionPoint p l) = l.filter p := by
  rw [partitionPoint_eq_countP h, take_countP h]

/-- The elements from the point the search returns on. -/
theorem drop_partitionPoint (h : Partitioned p l) :
    l.drop (partitionPoint p l) = l.filter fun a ↦ !p a := by
  rw [partitionPoint_eq_countP h, drop_countP h]

theorem partitionPoint_le_length (h : Partitioned p l) : partitionPoint p l ≤ l.length := by
  rw [partitionPoint_eq_countP h]
  exact List.countP_le_length

/-- The elements that satisfy the predicate are those before the point. -/
theorem lt_partitionPoint_iff (h : Partitioned p l) {i : ℕ} {a : α} (ha : l[i]? = some a) :
    i < partitionPoint p l ↔ p a := by
  constructor
  · intro hi
    have hmem : a ∈ l.take (partitionPoint p l) := by
      rw [List.mem_take_iff_getElem]
      obtain ⟨hlt, rfl⟩ := List.getElem?_eq_some_iff.mp ha
      exact ⟨i, by omega, rfl⟩
    rw [take_partitionPoint h] at hmem
    exact (List.mem_filter.mp hmem).2
  · intro hpa
    by_contra hi
    have hmem : a ∈ l.drop (partitionPoint p l) := by
      apply List.mem_of_getElem? (i := i - partitionPoint p l)
      rw [List.getElem?_drop, ← ha]
      congr 1
      omega
    rw [drop_partitionPoint h] at hmem
    simp [hpa] at hmem

end PartitionPoint
