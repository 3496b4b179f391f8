import Mathlib.Data.List.Destutter
import Mathlib.Data.List.Sort

/-!
# Inner joins of sorted streams

Streams of items with keys, each in the order of its keys, are joined on the keys that all of them
have. The keys of the first stream that the others have too, with runs of equal ones cut to one, are
these keys in ascending order, each once (`joined_strict`, `mem_joined`), and of items with one key the
last counts (`lookupLast`). A list in strictly ascending order is known by its members, so a join of
parts of the streams that are cut out by their keys is that part of the join (`joined_filter`). That is
what lets a join go on where it left off.
-/

namespace InnerJoin

variable {ι κ : Type*} [LinearOrder κ] {key : ι → κ} {first l : List ι} {others ls : List (List ι)} {k : κ}

/-- The keys of the first stream that all others have. -/
def joined (key : ι → κ) : List (List ι) → List κ
  | [] => []
  | first :: others =>
    (others.foldl (fun ks l ↦ ks.filter fun k ↦ l.any fun a ↦ key a = k) (first.map key)).destutter
      (· ≠ ·)

/-- The last item with a key. -/
def lookupLast (key : ι → κ) (l : List ι) (k : κ) : Option ι := l.reverse.find? fun a ↦ key a = k

/-! ## Runs of equal elements -/

theorem mem_destutter'_ne {a b : κ} {l : List κ} : b ∈ l.destutter' (· ≠ ·) a ↔ b = a ∨ b ∈ l := by
  induction l generalizing a with
  | nil => simp
  | cons c l ih =>
    rw [List.destutter'_cons]
    split_ifs with hne
    · rw [List.mem_cons, ih, List.mem_cons]
    · obtain rfl := not_not.mp hne
      rw [ih, List.mem_cons, ← or_assoc, or_self]

theorem mem_destutter_ne {b : κ} {l : List κ} : b ∈ l.destutter (· ≠ ·) ↔ b ∈ l := by
  cases l with
  | nil => rfl
  | cons a l => rw [List.destutter_cons', mem_destutter'_ne, List.mem_cons]

theorem strict_of_isChain_ne {l : List κ} (hle : l.Pairwise (· ≤ ·)) (hne : l.IsChain (· ≠ ·)) :
    l.Pairwise (· < ·) := by
  refine List.IsChain.pairwise ?_
  induction hne with
  | nil => exact .nil
  | singleton a => exact .singleton a
  | cons_cons hab _ ih =>
    obtain ⟨hfirst, hrest⟩ := List.pairwise_cons.mp hle
    exact .cons_cons (lt_of_le_of_ne (hfirst _ List.mem_cons_self) hab) (ih hrest)

/-- Cut to one, the runs of an ascending list leave it strictly ascending. -/
theorem strict_destutter {l : List κ} (h : l.Pairwise (· ≤ ·)) :
    (l.destutter (· ≠ ·)).Pairwise (· < ·) :=
  strict_of_isChain_ne (h.sublist (l.destutter_sublist (· ≠ ·))) (l.isChain_destutter (· ≠ ·))

/-! ## The keys of a join -/

theorem mem_foldl_filter {ks : List κ} :
    k ∈ others.foldl (fun ks l ↦ ks.filter fun k ↦ l.any fun a ↦ key a = k) ks ↔
      k ∈ ks ∧ ∀ l ∈ others, ∃ a ∈ l, key a = k := by
  induction others generalizing ks with
  | nil => simp
  | cons l others ih =>
    rw [List.foldl_cons, ih, List.mem_filter, List.forall_mem_cons, and_assoc]
    simp

theorem mem_joined : k ∈ joined key (first :: others) ↔
    ∀ l ∈ first :: others, ∃ a ∈ l, key a = k := by
  rw [joined, mem_destutter_ne, mem_foldl_filter, List.forall_mem_cons, List.mem_map]

theorem joined_strict (h : ∀ l ∈ ls, (l.map key).Pairwise (· ≤ ·)) :
    (joined key ls).Pairwise (· < ·) := by
  match ls with
  | [] => exact .nil
  | first :: others =>
    refine strict_destutter ((h first List.mem_cons_self).sublist ?_)
    generalize first.map key = ks
    induction others generalizing ks with
    | nil => exact List.Sublist.refl ks
    | cons l others ih =>
      refine (ih (fun l' hl' ↦ h l' ?_) _).trans List.filter_sublist
      rcases List.mem_cons.mp hl' with rfl | hmem
      · exact List.mem_cons_self
      · exact List.mem_cons_of_mem _ (List.mem_cons_of_mem _ hmem)

/-- The join of the parts of all streams with keys in `p` is the part of the join in `p`. -/
theorem joined_filter (h : ∀ l ∈ ls, (l.map key).Pairwise (· ≤ ·)) (p : κ → Bool) :
    joined key (ls.map fun l ↦ l.filter fun a ↦ p (key a)) = (joined key ls).filter p := by
  match ls with
  | [] => rfl
  | first :: others =>
    have hparts : ∀ l ∈ (first :: others).map fun l ↦ l.filter fun a ↦ p (key a),
        (l.map key).Pairwise (· ≤ ·) := by
      intro l hl
      obtain ⟨l, hmem, rfl⟩ := List.mem_map.mp hl
      exact (h l hmem).sublist (List.filter_sublist.map key)
    refine (joined_strict hparts).eq_of_mem_iff ((joined_strict h).sublist List.filter_sublist)
      fun k ↦ ?_
    rw [List.map_cons, mem_joined, ← List.map_cons, List.forall_mem_map, List.mem_filter, mem_joined]
    simp only [List.mem_filter]
    constructor
    · intro hall
      refine ⟨fun l hl ↦ (hall l hl).imp fun a ha ↦ ⟨ha.1.1, ha.2⟩, ?_⟩
      obtain ⟨a, ⟨-, hp⟩, rfl⟩ := hall first List.mem_cons_self
      exact hp
    · rintro ⟨hall, hp⟩ l hl
      obtain ⟨a, ha, rfl⟩ := hall l hl
      exact ⟨a, ⟨ha, hp⟩, rfl⟩

/-! ## The items of a join -/

theorem lookupLast_filter {p : κ → Bool} (hk : p k = true) :
    lookupLast key (l.filter fun a ↦ p (key a)) k = lookupLast key l k := by
  rw [lookupLast, ← List.filter_reverse, List.find?_filter, lookupLast]
  congr 1
  funext a
  by_cases ha : key a = k
  · simp [ha, hk]
  · simp [ha]

theorem key_of_lookupLast {a : ι} (h : lookupLast key l k = some a) : key a = k :=
  of_decide_eq_true (List.find?_some (p := fun a ↦ decide (key a = k)) h)

theorem lookupLast_map {ι' : Type*} {key' : ι' → κ} {f : ι → ι'} (hf : ∀ a, key' (f a) = key a) :
    lookupLast key' (l.map f) k = (lookupLast key l k).map f := by
  rw [lookupLast, ← List.map_reverse, List.find?_map, lookupLast]
  simp only [Function.comp_def, hf]

end InnerJoin
