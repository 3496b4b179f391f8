import Mathlib.Data.List.Nodup
import Mathlib.Data.List.Flatten
import Mathlib.Data.List.Lattice

/-!
# Lists that grow by groups

A list takes in groups of entries, one for each index, and passes over a group as soon as it holds
any entry that belongs to it. When no entry belongs to two indices, the groups do not see each other:
the outcome can be written down from the list at the start, and it is complete and free of duplicates
exactly if every group was there as a whole or not at all.
-/

namespace GroupedGrowth

variable {ι α β : Type*} {own : ι → α → Prop} [∀ i a, Decidable (own i a)] {group : ι → List α}

/-- The entries of a group belong to its index, and no entry belongs to two. -/
structure Owned (own : ι → α → Prop) (group : ι → List α) : Prop where
  own_of_mem : ∀ i, ∀ a ∈ group i, own i a
  index_eq : ∀ i j a, own i a → own j a → i = j

/-- What is taken in for an index. -/
def added (own : ι → α → Prop) [∀ i a, Decidable (own i a)] (group : ι → List α) (l : List α)
    (i : ι) : List α :=
  if ∃ a ∈ l, own i a then [] else group i

/-- A group is there as a whole, or nothing of it is there and it holds no entry twice. -/
def Fits (own : ι → α → Prop) (group : ι → List α) (l : List α) (i : ι) : Prop :=
  (∀ a ∈ group i, a ∈ l) ∨ (∀ a ∈ l, ¬own i a) ∧ (group i).Nodup

theorem added_of_mem {l : List α} {i : ι} (h : ∃ a ∈ l, own i a) : added own group l i = [] :=
  if_pos h

theorem added_of_notMem {l : List α} {i : ι} (h : ¬∃ a ∈ l, own i a) :
    added own group l i = group i :=
  if_neg h

theorem own_of_mem_added (h : Owned own group) {l : List α} {i : ι} {a : α}
    (ha : a ∈ added own group l i) : own i a := by
  rw [added] at ha
  split_ifs at ha
  · exact absurd ha List.not_mem_nil
  · exact h.own_of_mem i a ha

/-- A group that was taken in does not change what another index takes. -/
theorem added_append (h : Owned own group) {l : List α} {i j : ι} (hne : j ≠ i) :
    added own group (l ++ added own group l i) j = added own group l j := by
  have hiff : (∃ a ∈ l ++ added own group l i, own j a) ↔ ∃ a ∈ l, own j a := by
    constructor
    · rintro ⟨a, ha, hown⟩
      rcases List.mem_append.mp ha with ha | ha
      · exact ⟨a, ha, hown⟩
      · exact absurd (h.index_eq j i a hown (own_of_mem_added h ha)) hne
    · rintro ⟨a, ha, hown⟩
      exact ⟨a, List.mem_append_left _ ha, hown⟩
  by_cases hthere : ∃ a ∈ l, own j a
  · rw [added_of_mem hthere, added_of_mem (hiff.mpr hthere)]
  · rw [added_of_notMem hthere, added_of_notMem fun hlater ↦ hthere (hiff.mp hlater)]

/-- A loop whose rounds take in one group each. -/
theorem map_foldl (h : Owned own group) {f : List β → ι → List β} {key : β → α}
    (hf : ∀ l i, (f l i).map key = l.map key ++ added own group (l.map key) i) {is : List ι}
    (his : is.Nodup) (l : List β) :
    (is.foldl f l).map key = l.map key ++ is.flatMap (added own group (l.map key)) := by
  induction is generalizing l with
  | nil => simp
  | cons i is ih =>
    obtain ⟨hi, his⟩ := List.nodup_cons.mp his
    have hrest : is.flatMap (added own group ((f l i).map key)) =
        is.flatMap (added own group (l.map key)) := by
      refine List.flatMap_congr fun j hj ↦ ?_
      rw [hf, added_append h (ne_of_mem_of_not_mem hj hi)]
    rw [List.foldl_cons, ih his, hrest, hf, List.flatMap_cons, List.append_assoc]

theorem mem_group_iff (h : Owned own group) {is : List ι} {l : List α} {i : ι} (hi : i ∈ is)
    {a : α} (ha : a ∈ group i) :
    a ∈ l ++ is.flatMap (added own group l) ↔ a ∈ l ∨ ∀ b ∈ l, ¬own i b := by
  have hown := h.own_of_mem i a ha
  rw [List.mem_append, List.mem_flatMap]
  constructor
  · rintro (hmem | ⟨j, -, hj⟩)
    · exact .inl hmem
    · obtain rfl := h.index_eq i j a hown (own_of_mem_added h hj)
      rw [added] at hj
      split_ifs at hj with hthere
      · exact absurd hj List.not_mem_nil
      · exact .inr fun b hb hown' ↦ hthere ⟨b, hb, hown'⟩
  · rintro (hmem | hnone)
    · exact .inl hmem
    · refine .inr ⟨i, hi, ?_⟩
      rwa [added, if_neg]
      rintro ⟨b, hb, hown'⟩
      exact hnone b hb hown'

theorem nodup_iff (h : Owned own group) {is : List ι} (his : is.Nodup) {l : List α} (hl : l.Nodup) :
    (l ++ is.flatMap (added own group l)).Nodup ↔ ∀ i ∈ is, (added own group l i).Nodup := by
  rw [List.nodup_append, List.nodup_flatMap]
  constructor
  · exact fun hnodup ↦ hnodup.2.1.1
  · intro hadded
    have hdisjoint : is.Pairwise fun i j ↦ List.Disjoint (added own group l i) (added own group l j) :=
      his.imp fun hne a ha hb ↦
        hne (h.index_eq _ _ a (own_of_mem_added h ha) (own_of_mem_added h hb))
    refine ⟨hl, ⟨hadded, hdisjoint⟩, ?_⟩
    · rintro a ha b hb rfl
      obtain ⟨i, -, hi⟩ := List.mem_flatMap.mp hb
      have hown := own_of_mem_added h hi
      rw [added, if_pos ⟨a, ha, hown⟩] at hi
      exact List.not_mem_nil hi

/-- All groups are there and no entry is there twice exactly if every group fits. -/
theorem complete_iff (h : Owned own group) {is : List ι} (his : is.Nodup) {l : List α}
    (hl : l.Nodup) :
    (l ++ is.flatMap (added own group l)).Nodup ∧
        (∀ i ∈ is, ∀ a ∈ group i, a ∈ l ++ is.flatMap (added own group l)) ↔
      ∀ i ∈ is, Fits own group l i := by
  rw [nodup_iff h his hl]
  constructor
  · rintro ⟨hnodup, hall⟩ i hi
    by_cases hthere : ∃ a ∈ l, own i a
    · left
      intro a ha
      rcases (mem_group_iff h hi ha).mp (hall i hi a ha) with hmem | hnone
      · exact hmem
      · obtain ⟨b, hb, hown⟩ := hthere
        exact absurd hown (hnone b hb)
    · have hgroup := hnodup i hi
      rw [added, if_neg hthere] at hgroup
      exact .inr ⟨fun a ha hown ↦ hthere ⟨a, ha, hown⟩, hgroup⟩
  · intro hfits
    constructor
    · intro i hi
      rw [added]
      split_ifs with hthere
      · exact List.nodup_nil
      · rcases hfits i hi with hall | ⟨-, hnodup⟩
        · -- nothing of the group is there, so all of it being there means that it is empty
          have hempty : group i = [] := List.eq_nil_iff_forall_not_mem.mpr fun a ha ↦
            hthere ⟨a, hall a ha, h.own_of_mem i a ha⟩
          rw [hempty]
          exact List.nodup_nil
        · exact hnodup
    · intro i hi a ha
      rw [mem_group_iff h hi ha]
      rcases hfits i hi with hall | ⟨hnone, -⟩
      · exact .inl (hall a ha)
      · exact .inr hnone

end GroupedGrowth
