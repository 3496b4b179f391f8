import Mathlib

/-!
# Topological order by counting

Kahn's algorithm. Every vertex carries the number of edges into it that are still there; a vertex
whose count is zero is ready, and when it is taken its outgoing edges go. The loop can stop early
without a sign of it: a count that is one too high, or one edge too many, and a vertex never becomes
ready. The counts are integers, as a count that passes zero never comes back to it.

The state of the loop is read through the vertices that have not been taken: each count is the
number of edges from these, the queue holds exactly those with count zero, and no edge leads from
them to a vertex that has been taken. On a graph with a rank that grows along the edges some vertex
is always ready, so everything is taken, and nothing is taken before what points to it.
-/

namespace Kahn

variable {α : Type*} [DecidableEq α]

/-! ## The loop -/

/-- Lower the count of every vertex of the list, once for each time it stands there, and collect the
vertices whose count comes down to zero. -/
def relax : (α → ℤ) → List α → (α → ℤ) × List α
  | deg, [] => (deg, [])
  | deg, m :: ms =>
    ((relax (Function.update deg m (deg m - 1)) ms).1,
      if deg m - 1 = 0 then m :: (relax (Function.update deg m (deg m - 1)) ms).2
      else (relax (Function.update deg m (deg m - 1)) ms).2)

/-- Take the vertices off the queue, one for each unit of fuel. What becomes ready goes behind the
queue in the order `arrange` puts it. -/
def order (succ : α → List α) (arrange : List α → List α) : ℕ → (α → ℤ) → List α → List α
  | 0, _, _ => []
  | _ + 1, _, [] => []
  | fuel + 1, deg, n :: queue =>
    n :: order succ arrange fuel (relax deg (succ n)).1 (queue ++ arrange (relax deg (succ n)).2)

/-! ## One round -/

theorem relax_fst (deg : α → ℤ) (l : List α) (m : α) : (relax deg l).1 m = deg m - l.count m := by
  induction l generalizing deg with
  | nil => simp [relax]
  | cons x l ih =>
    rw [relax, ih, List.count_cons]
    by_cases hx : x = m
    · subst hx
      rw [Function.update_self]
      simp only [beq_self_eq_true, if_true]
      push_cast
      omega
    · rw [Function.update_of_ne (Ne.symm hx)]
      simp [hx]

theorem mem_relax_snd (deg : α → ℤ) (l : List α) (m : α) :
    m ∈ (relax deg l).2 ↔ 1 ≤ deg m ∧ deg m ≤ l.count m := by
  induction l generalizing deg with
  | nil =>
    simp only [relax, List.not_mem_nil, List.count_nil, false_iff, not_and]
    intro h
    push_cast
    omega
  | cons x l ih =>
    have hmem : m ∈ (relax deg (x :: l)).2 ↔ (deg x - 1 = 0 ∧ m = x) ∨
        m ∈ (relax (Function.update deg x (deg x - 1)) l).2 := by
      rw [relax]
      split <;> simp [*]
    rw [hmem, ih, List.count_cons]
    by_cases hx : x = m
    · subst hx
      rw [Function.update_self]
      simp only [and_true, beq_self_eq_true, if_true]
      push_cast
      omega
    · rw [Function.update_of_ne (Ne.symm hx)]
      simp [hx, Ne.symm hx]

theorem nodup_relax_snd (deg : α → ℤ) (l : List α) : (relax deg l).2.Nodup := by
  induction l generalizing deg with
  | nil => exact List.nodup_nil
  | cons x l ih =>
    rw [relax]
    split
    · rename_i hzero
      refine List.nodup_cons.mpr ⟨fun hmem ↦ ?_, ih _⟩
      -- the count of `x` is zero by now and only falls
      rw [mem_relax_snd, Function.update_self] at hmem
      omega
    · exact ih _

/-! ## The loop invariant -/

/-- How often `m` stands among the successors of the vertices of the list. -/
def inDegree (succ : α → List α) (rest : List α) (m : α) : ℕ :=
  (rest.map fun u ↦ (succ u).count m).sum

theorem inDegree_eq_zero {succ : α → List α} {rest : List α} {m : α} :
    inDegree succ rest m = 0 ↔ ∀ u ∈ rest, m ∉ succ u := by
  rw [inDegree, List.sum_eq_zero_iff_forall_eq_nat]
  simp [List.count_eq_zero]

theorem inDegree_erase (succ : α → List α) {rest : List α} {n : α} (hn : n ∈ rest) (m : α) :
    inDegree succ rest m = (succ n).count m + inDegree succ (rest.erase n) m := by
  rw [inDegree, ((List.perm_cons_erase hn).map _).sum_eq, List.map_cons, List.sum_cons]
  rfl

/-- The loop with the vertices `rest` before it. -/
structure Invariant (succ : α → List α) (rest queue : List α) (deg : α → ℤ) : Prop where
  nodup : rest.Nodup
  nodup_queue : queue.Nodup
  deg_eq : ∀ m ∈ rest, deg m = inDegree succ rest m
  mem_queue : ∀ m, m ∈ queue ↔ m ∈ rest ∧ deg m = 0
  closed : ∀ u ∈ rest, ∀ m ∈ succ u, m ∈ rest

namespace Invariant

variable {succ : α → List α} {rest queue : List α} {deg : α → ℤ} {n : α}

/-- Nothing that is left points to a vertex of the queue. -/
theorem notMem_succ (h : Invariant succ rest queue deg) (hn : n ∈ queue) :
    ∀ u ∈ rest, n ∉ succ u := by
  obtain ⟨hrest, hzero⟩ := (h.mem_queue n).mp hn
  rw [h.deg_eq n hrest] at hzero
  exact inDegree_eq_zero.mp (by exact_mod_cast hzero)

/-- Along a rank the graph cannot get stuck. -/
theorem rest_eq_nil {rank : α → ℕ} (hrank : ∀ u m, m ∈ succ u → rank u < rank m)
    (h : Invariant succ rest [] deg) : rest = [] := by
  by_contra hne
  obtain ⟨m, hm⟩ := Option.ne_none_iff_exists'.mp (List.argmin_eq_none (f := rank).not.mpr hne)
  have hmem : m ∈ rest := List.argmin_mem hm
  have hzero : inDegree succ rest m = 0 := inDegree_eq_zero.mpr fun u hu hmu ↦
    absurd (hrank u m hmu) (Nat.not_lt.mpr (List.le_of_mem_argmin hu hm))
  have : m ∈ ([] : List α) := (h.mem_queue m).mpr ⟨hmem, by rw [h.deg_eq m hmem, hzero]; rfl⟩
  exact List.not_mem_nil this

theorem next {arrange : List α → List α} (harrange : ∀ l, (arrange l).Perm l)
    (h : Invariant succ rest (n :: queue) deg) :
    Invariant succ (rest.erase n) (queue ++ arrange (relax deg (succ n)).2)
      (relax deg (succ n)).1 := by
  have hn : n ∈ rest := ((h.mem_queue n).mp List.mem_cons_self).1
  have hfree : ∀ u ∈ rest, n ∉ succ u := h.notMem_succ List.mem_cons_self
  have hqueue : n ∉ queue ∧ queue.Nodup := List.nodup_cons.mp h.nodup_queue
  have hdeg : ∀ m ∈ rest.erase n, (relax deg (succ n)).1 m = inDegree succ (rest.erase n) m := by
    intro m hm
    rw [relax_fst, h.deg_eq m (List.mem_of_mem_erase hm), inDegree_erase succ hn]
    push_cast
    omega
  have hmem : ∀ m, m ∈ queue ++ arrange (relax deg (succ n)).2 ↔
      m ∈ rest.erase n ∧ (relax deg (succ n)).1 m = 0 := by
    intro m
    rw [List.mem_append, (harrange _).mem_iff, mem_relax_snd, h.nodup.mem_erase_iff]
    have hold : m ∈ queue ↔ m ≠ n ∧ m ∈ rest ∧ deg m = 0 := by
      rw [← h.mem_queue m, List.mem_cons]
      constructor
      · exact fun hm ↦ ⟨fun heq ↦ hqueue.1 (heq ▸ hm), Or.inr hm⟩
      · exact fun ⟨hne, hm⟩ ↦ hm.resolve_left hne
    rw [hold, relax_fst]
    constructor
    · rintro (⟨hne, hm, hzero⟩ | ⟨hpos, hle⟩)
      · have hcount : (succ n).count m = 0 := by
          have := inDegree_erase succ hn m
          have := h.deg_eq m hm
          omega
        exact ⟨⟨hne, hm⟩, by rw [hzero, hcount]; rfl⟩
      · have hsucc : m ∈ succ n := List.count_pos_iff.mp (by omega)
        have hm : m ∈ rest := h.closed n hn m hsucc
        have := inDegree_erase succ hn m
        have := h.deg_eq m hm
        exact ⟨⟨fun heq ↦ hfree n hn (heq ▸ hsucc), hm⟩, by omega⟩
    · rintro ⟨⟨hne, hm⟩, hzero⟩
      by_cases hdegm : deg m = 0
      · exact Or.inl ⟨hne, hm, hdegm⟩
      · have := h.deg_eq m hm
        exact Or.inr (by omega)
  refine ⟨h.nodup.erase n, ?_, hdeg, hmem, ?_⟩
  · refine List.Nodup.append hqueue.2 ((harrange _).nodup_iff.mpr (nodup_relax_snd _ _)) ?_
    intro m hm hm'
    rw [(harrange _).mem_iff, mem_relax_snd] at hm'
    have := ((h.mem_queue m).mp (List.mem_cons_of_mem n hm)).2
    omega
  · intro u hu m hm
    have hu : u ∈ rest := List.mem_of_mem_erase hu
    exact h.nodup.mem_erase_iff.mpr ⟨fun heq ↦ hfree u hu (heq ▸ hm), h.closed u hu m hm⟩

end Invariant

/-! ## The result -/

/-- With fuel for every vertex that is left, all of them are taken, and none before a vertex that
points to it. -/
theorem order_spec {succ : α → List α} {arrange : List α → List α}
    (harrange : ∀ l, (arrange l).Perm l) (rank : α → ℕ)
    (hrank : ∀ u m, m ∈ succ u → rank u < rank m) {fuel : ℕ} {rest queue : List α} {deg : α → ℤ}
    (h : Invariant succ rest queue deg) (hfuel : rest.length ≤ fuel) :
    (order succ arrange fuel deg queue).Perm rest ∧
      (order succ arrange fuel deg queue).Pairwise fun a b ↦ a ∉ succ b := by
  induction fuel generalizing rest queue deg with
  | zero =>
    rw [List.length_eq_zero_iff.mp (Nat.le_zero.mp hfuel)]
    exact ⟨List.Perm.refl _, List.Pairwise.nil⟩
  | succ fuel ih =>
    match queue with
    | [] =>
      rw [h.rest_eq_nil hrank]
      exact ⟨List.Perm.refl _, List.Pairwise.nil⟩
    | n :: queue =>
      have hn : n ∈ rest := ((h.mem_queue n).mp List.mem_cons_self).1
      have hlen : (rest.erase n).length ≤ fuel := by
        rw [List.length_erase_of_mem hn]
        omega
      obtain ⟨hperm, hpair⟩ := ih (h.next harrange) hlen
      rw [order]
      refine ⟨(hperm.cons n).trans (List.perm_cons_erase hn).symm, List.pairwise_cons.mpr ⟨?_, hpair⟩⟩
      intro b hb
      exact h.notMem_succ List.mem_cons_self b (List.mem_of_mem_erase (hperm.mem_iff.mp hb))

omit [DecidableEq α] in
/-- Two members of a list stand in it one way or the other. -/
theorem sublist_or_sublist {l : List α} {a b : α} (ha : a ∈ l) (hb : b ∈ l) (hne : a ≠ b) :
    [a, b].Sublist l ∨ [b, a].Sublist l := by
  induction l with
  | nil => exact absurd ha List.not_mem_nil
  | cons x l ih =>
    rcases List.mem_cons.mp ha with rfl | ha'
    · have hb' : b ∈ l := (List.mem_cons.mp hb).resolve_left (Ne.symm hne)
      exact .inl ((List.singleton_sublist.mpr hb').cons_cons a)
    · rcases List.mem_cons.mp hb with rfl | hb'
      · exact .inr ((List.singleton_sublist.mpr ha').cons_cons b)
      · exact (ih ha' hb').imp (·.cons x) (·.cons x)

omit [DecidableEq α] in
/-- Standing before is transitive where nothing stands twice. -/
theorem pair_sublist_trans {l : List α} (hl : l.Nodup) {a b c : α} (hab : [a, b].Sublist l)
    (hbc : [b, c].Sublist l) : [a, c].Sublist l := by
  induction l with
  | nil => cases hab
  | cons x l ih =>
    obtain ⟨hx, hl⟩ := List.nodup_cons.mp hl
    cases hab with
    | cons _ hab =>
      cases hbc with
      | cons _ hbc => exact (ih hl hab hbc).cons x
      | cons_cons _ _ => exact absurd (hab.subset (List.mem_cons_of_mem a List.mem_cons_self)) hx
    | cons_cons _ hb =>
      cases hbc with
      | cons _ hbc =>
        have hc : c ∈ l := hbc.subset (List.mem_cons_of_mem b List.mem_cons_self)
        exact (List.singleton_sublist.mpr hc).cons_cons a
      | cons_cons _ _ => exact absurd (List.singleton_sublist.mp hb) hx

omit [DecidableEq α] in
/-- A part of the list keeps the order of what is left in it. -/
theorem pair_sublist_of_sublist {l l' : List α} (hl : l.Nodup) (hsub : l'.Sublist l) {a b : α}
    (hab : [a, b].Sublist l) (ha : a ∈ l') (hb : b ∈ l') : [a, b].Sublist l' := by
  have hne : a ≠ b := fun heq ↦ absurd (hl.sublist hab) (by simp [heq])
  refine (sublist_or_sublist ha hb hne).resolve_right fun hback ↦ ?_
  have hloop : [a, a].Sublist l := pair_sublist_trans hl hab (hback.trans hsub)
  exact absurd (hl.sublist hloop) (by simp)

omit [DecidableEq α] in
/-- In such an order a vertex stands before what it points to. -/
theorem sublist_of_mem_succ {succ : α → List α} {l : List α} {u m : α}
    (hpair : l.Pairwise fun a b ↦ a ∉ succ b) (hu : u ∈ l) (hm : m ∈ l) (hne : u ≠ m)
    (hsucc : m ∈ succ u) : [u, m].Sublist l := by
  refine (sublist_or_sublist hu hm hne).resolve_right fun hback ↦ ?_
  exact List.pairwise_iff_forall_sublist.mp hpair hback hsucc

end Kahn
