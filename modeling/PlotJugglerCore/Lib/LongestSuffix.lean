import Mathlib.Data.List.Infix
import Mathlib.Data.List.TakeWhile

/-!
# The longest suffix with a property

Dropping elements from the front until a condition holds leaves the longest suffix that has it,
provided that whatever has it keeps it when more is dropped. Two such conditions can be met one
after the other.
-/

/-- `r` is the longest suffix of `l` that has the property. -/
structure LongestSuffix {α : Type*} (P : List α → Prop) (l r : List α) : Prop where
  suffix : r <:+ l
  holds : P r
  longest : ∀ r', r' <:+ l → P r' → r' <:+ r

namespace LongestSuffix

variable {α : Type*} {P Q : List α → Prop} {l r r' : List α} {a : α}

/-- What has the property keeps it when elements are dropped from the front. -/
def Closed (P : List α → Prop) : Prop := ∀ l r, r <:+ l → P l → P r

theorem refl (h : P l) : LongestSuffix P l l := ⟨List.suffix_rfl, h, fun _ hr _ ↦ hr⟩

theorem unique (h : LongestSuffix P l r) (h' : LongestSuffix P l r') : r = r' :=
  (h'.longest r h.suffix h.holds).eq_of_length_le (h.longest r' h'.suffix h'.holds).length_le

/-- Without the property the first element goes. -/
theorem cons (h : ¬P (a :: l)) (hr : LongestSuffix P l r) : LongestSuffix P (a :: l) r where
  suffix := hr.suffix.trans (List.suffix_cons a l)
  holds := hr.holds
  longest := by
    intro r' hsuffix hholds
    rcases List.suffix_cons_iff.mp hsuffix with rfl | hsuffix
    · exact absurd hholds h
    · exact hr.longest r' hsuffix hholds

/-- One condition after the other. -/
theorem and (hP : Closed P) (h : LongestSuffix P l r) (h' : LongestSuffix Q r r') :
    LongestSuffix (fun l ↦ P l ∧ Q l) l r' where
  suffix := h'.suffix.trans h.suffix
  holds := ⟨hP r r' h'.suffix h.holds, h'.holds⟩
  longest s hs hboth := h'.longest s (h.longest s hs hboth.1) hboth.2

theorem congr (h : LongestSuffix P l r) (hPQ : ∀ r, r <:+ l → (P r ↔ Q r)) :
    LongestSuffix Q l r where
  suffix := h.suffix
  holds := (hPQ r h.suffix).mp h.holds
  longest r' hsuffix hholds := h.longest r' hsuffix ((hPQ r' hsuffix).mpr hholds)

end LongestSuffix

/-- Dropping while a predicate holds removes the longest prefix of elements that satisfy it. -/
theorem List.eq_dropWhile_iff {α : Type*} {p : α → Bool} {l r : List α} :
    r = l.dropWhile p ↔ ∃ removed, l = removed ++ r ∧ (∀ a ∈ removed, p a) ∧
      ∀ a, r.head? = some a → p a = false := by
  constructor
  · rintro rfl
    refine ⟨l.takeWhile p, List.takeWhile_append_dropWhile.symm, fun a ha ↦ List.mem_takeWhile_imp ha,
      fun a ha ↦ ?_⟩
    have hnot := List.head?_dropWhile_not p l
    rwa [ha] at hnot
  · rintro ⟨removed, rfl, hall, hhead⟩
    rw [List.dropWhile_append_of_pos hall]
    rcases r with _ | ⟨a, r⟩
    · rfl
    · rw [List.dropWhile_cons_of_neg (by rw [hhead a rfl]; exact Bool.false_ne_true)]
