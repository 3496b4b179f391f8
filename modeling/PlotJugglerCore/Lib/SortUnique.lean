import Mathlib.Data.List.Destutter
import Mathlib.Data.List.Sort

/-!
# Sorting and dropping repetitions

A list that is sorted and from which each element that equals the one in front of it is taken out is
the list of the elements, ascending and each once. It is of no importance whether repetitions that
stood next to each other were left out before.
-/

namespace SortUnique

variable {α : Type*} [LinearOrder α] {l : List α} {a x : α}

/-- `sort`, then `unique` and `erase`. -/
def sortUnique (l : List α) : List α := (l.insertionSort (· ≤ ·)).destutter (· ≠ ·)

theorem mem_destutter'_ne : x ∈ l.destutter' (· ≠ ·) a ↔ x = a ∨ x ∈ l := by
  induction l generalizing a with
  | nil => simp
  | cons b l ih =>
    by_cases hab : a = b
    · subst hab
      rw [List.destutter'_cons_neg _ (not_not_intro rfl), ih]
      simp
    · rw [List.destutter'_cons_pos _ hab, List.mem_cons, ih, List.mem_cons]

@[simp] theorem mem_sortUnique : x ∈ sortUnique l ↔ x ∈ l := by
  rw [← (List.perm_insertionSort (· ≤ ·) l).mem_iff, sortUnique]
  rcases l.insertionSort (· ≤ ·) with _ | ⟨a, l'⟩
  · rfl
  · rw [List.destutter_cons', mem_destutter'_ne, List.mem_cons]

theorem pairwise_lt_of_isChain_ne (hle : l.Pairwise (· ≤ ·)) (hne : l.IsChain (· ≠ ·)) :
    l.Pairwise (· < ·) := by
  induction l with
  | nil => exact List.Pairwise.nil
  | cons a l ih =>
    obtain ⟨ha, hl⟩ := List.pairwise_cons.mp hle
    have hlt := ih hl hne.tail
    refine List.pairwise_cons.mpr ⟨fun x hx ↦ ?_, hlt⟩
    rcases l with _ | ⟨b, l⟩
    · exact absurd hx List.not_mem_nil
    · have hab : a < b := lt_of_le_of_ne (ha b List.mem_cons_self) (List.isChain_cons_cons.mp hne).1
      rcases List.mem_cons.mp hx with rfl | hx
      · exact hab
      · exact hab.trans (List.rel_of_pairwise_cons hlt hx)

/-- Ascending, and so without repetitions. -/
theorem pairwise_lt_sortUnique (l : List α) : (sortUnique l).Pairwise (· < ·) :=
  pairwise_lt_of_isChain_ne
    ((List.pairwise_insertionSort (· ≤ ·) l).sublist (List.destutter_sublist _ _))
    (List.isChain_destutter _ _)

/-- The body of a loop that notes elements and skips one that it has just noted. -/
def note (noted : List α) (a : α) : List α :=
  if noted.getLast? = some a then noted else noted ++ [a]

@[simp] theorem mem_note {noted : List α} : x ∈ note noted a ↔ x ∈ noted ∨ x = a := by
  rw [note]
  split_ifs with hlast
  · exact (or_iff_left_of_imp fun hx ↦ hx ▸ List.mem_of_getLast? hlast).symm
  · rw [List.mem_append, List.mem_singleton]

end SortUnique
