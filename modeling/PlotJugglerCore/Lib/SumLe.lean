import Mathlib.Algebra.BigOperators.Group.Finset.Piecewise
import Mathlib.Algebra.Order.BigOperators.Group.Finset

/-!
# A bound shared by many variables

`SumLe f k` says that the values of `f` come to at most `k` together, however many there are: every
finite part of them does. It is the potential of a program with any number of variables, when each
step takes from one variable what it uses up or hands to another.
-/

variable {ι : Type*} {f : ι → ℕ} {k : ℕ}

def SumLe (f : ι → ℕ) (k : ℕ) : Prop := ∀ F : Finset ι, ∑ i ∈ F, f i ≤ k

namespace SumLe

theorem le (h : SumLe f k) (i : ι) : f i ≤ k := by
  simpa using h {i}

theorem mono {k' : ℕ} (h : SumLe f k) (hk : k ≤ k') : SumLe f k' := fun F ↦ (h F).trans hk

variable [DecidableEq ι]

/-- One variable alone may hold everything. -/
theorem single (i : ι) (k : ℕ) : SumLe (Function.update (fun _ ↦ 0) i k) k := by
  intro F
  calc ∑ j ∈ F, Function.update (fun _ ↦ 0) i k j
      ≤ ∑ j ∈ insert i F, Function.update (fun _ ↦ 0) i k j :=
        Finset.sum_le_sum_of_subset (Finset.subset_insert i F)
    _ = k := by
        rw [Finset.sum_update_of_mem (Finset.mem_insert_self i F), Finset.sum_const_zero,
          Nat.add_zero]

private theorem sum_update_add {F : Finset ι} {i : ι} (hi : i ∈ F) (v : ℕ) :
    ∑ j ∈ F, Function.update f i v j + f i = ∑ j ∈ F, f j + v := by
  have hrest := Finset.add_sum_erase F f hi
  rw [Finset.sum_update_of_mem hi, ← Finset.erase_eq, ← hrest]
  omega

/-- What one variable loses is lost to the whole. -/
theorem take (h : SumLe f k) {i : ι} {v d : ℕ} (hv : v + d ≤ f i) :
    SumLe (Function.update f i v) (k - d) := by
  intro F
  have hsub := Finset.sum_le_sum_of_subset (f := Function.update f i v) (Finset.subset_insert i F)
  have hupd := sum_update_add (f := f) (Finset.mem_insert_self i F) v
  have hall := h (insert i F)
  omega

/-- A variable may hand over part of what it holds, to another one or to itself. -/
theorem give (h : SumLe f k) {i j : ι} {v w d : ℕ} (hv : v + w + d ≤ f i) :
    SumLe (Function.update (Function.update f i v) j w) (k - d) := by
  by_cases hij : j = i
  · subst hij
    rw [Function.update_idem]
    exact h.take (by omega)
  · intro F
    have hsub := Finset.sum_le_sum_of_subset (f := Function.update (Function.update f i v) j w)
      ((Finset.subset_insert j F).trans (Finset.subset_insert i _))
    have hupd₁ := sum_update_add (f := f) (Finset.mem_insert_self i (insert j F)) v
    have hupd₂ := sum_update_add (f := Function.update f i v)
      (Finset.mem_insert_of_mem (a := j) (b := i) (Finset.mem_insert_self j F)) w
    have hall := h (insert i (insert j F))
    rw [Function.update_of_ne hij] at hupd₂
    omega

end SumLe
