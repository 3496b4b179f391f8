import Mathlib.Data.List.Nodup
import Mathlib.Data.List.Perm.Subperm
import Mathlib.Logic.Relation

/-!
# What can be reached

Breadth-first search from a list of seeds, with the set of what has been seen kept as a list. The
loop spends one unit of fuel on every vertex it takes off the queue, and each vertex enters the queue
once: fuel for a list of vertices that the search cannot leave is enough. The result is then the
closure of the seeds under the step relation, whatever order they came in.
-/

namespace Explore

open Relation

variable {α : Type*} [DecidableEq α]

/-! ## The loop -/

/-- The elements of the first list that are not in the second, each once. -/
def fresh : List α → List α → List α
  | [], _ => []
  | y :: ys, seen => if y ∈ seen then fresh ys seen else y :: fresh ys (y :: seen)

def explore (next : α → List α) : ℕ → List α → List α → List α
  | 0, _, seen => seen
  | _ + 1, [], seen => seen
  | fuel + 1, x :: queue, seen =>
    explore next fuel (queue ++ fresh (next x) seen) (seen ++ fresh (next x) seen)

/-- Search from the seeds on. -/
def closure (next : α → List α) (fuel : ℕ) (seeds : List α) : List α :=
  explore next fuel (fresh seeds []) (fresh seeds [])

/-! ## New elements -/

theorem mem_fresh {ys seen : List α} {y : α} : y ∈ fresh ys seen ↔ y ∈ ys ∧ y ∉ seen := by
  induction ys generalizing seen with
  | nil => simp [fresh]
  | cons z ys ih =>
    rw [fresh]
    split
    · rename_i hz
      rw [ih, List.mem_cons]
      constructor
      · exact fun h ↦ ⟨Or.inr h.1, h.2⟩
      · rintro ⟨rfl | h, hy⟩
        · exact absurd hz hy
        · exact ⟨h, hy⟩
    · rename_i hz
      rw [List.mem_cons, ih, List.mem_cons, List.mem_cons]
      by_cases hy : y = z
      · subst hy
        simp [hz]
      · simp [hy]

theorem nodup_fresh (ys seen : List α) : (fresh ys seen).Nodup := by
  induction ys generalizing seen with
  | nil => exact List.nodup_nil
  | cons z ys ih =>
    rw [fresh]
    split
    · exact ih seen
    · refine List.nodup_cons.mpr ⟨fun hz ↦ ?_, ih _⟩
      exact (mem_fresh.mp hz).2 List.mem_cons_self

/-! ## The loop invariant -/

/-- The search from `seeds` inside `vertices`, with `queue` still to look at. -/
structure Invariant (next : α → List α) (vertices seeds queue seen : List α) : Prop where
  nodup : seen.Nodup
  subset : seen ⊆ vertices
  queue_subset : queue ⊆ seen
  seeds_subset : seeds ⊆ seen
  closed : ∀ x ∈ seen, x ∉ queue → next x ⊆ seen
  sound : ∀ y ∈ seen, ∃ x ∈ seeds, ReflTransGen (fun a b ↦ b ∈ next a) x y

namespace Invariant

variable {next : α → List α} {vertices seeds queue seen : List α} {x : α}

theorem start (h : seeds ⊆ vertices) :
    Invariant next vertices seeds (fresh seeds []) (fresh seeds []) where
  nodup := nodup_fresh seeds []
  subset _ hy := h (mem_fresh.mp hy).1
  queue_subset _ hy := hy
  seeds_subset _ hy := mem_fresh.mpr ⟨hy, List.not_mem_nil⟩
  closed _ hx hx' := absurd hx hx'
  sound y hy := ⟨y, (mem_fresh.mp hy).1, ReflTransGen.refl⟩

theorem next_round (hnext : ∀ y ∈ vertices, next y ⊆ vertices)
    (h : Invariant next vertices seeds (x :: queue) seen) :
    Invariant next vertices seeds (queue ++ fresh (next x) seen) (seen ++ fresh (next x) seen) := by
  have hx : x ∈ seen := h.queue_subset List.mem_cons_self
  refine ⟨?_, ?_, ?_, ?_, ?_, ?_⟩
  · refine List.Nodup.append h.nodup (nodup_fresh _ _) fun y hy hy' ↦ ?_
    exact (mem_fresh.mp hy').2 hy
  · refine List.append_subset.mpr ⟨h.subset, fun y hy ↦ ?_⟩
    exact hnext x (h.subset hx) (mem_fresh.mp hy).1
  · refine List.append_subset.mpr ⟨fun y hy ↦ ?_, fun y hy ↦ List.mem_append_right _ hy⟩
    exact List.mem_append_left _ (h.queue_subset (List.mem_cons_of_mem x hy))
  · exact fun y hy ↦ List.mem_append_left _ (h.seeds_subset hy)
  · intro y hy hy' z hz
    rw [List.mem_append, not_or] at hy'
    have hyseen : y ∈ seen := (List.mem_append.mp hy).resolve_right hy'.2
    by_cases hyx : y = x
    · -- the vertex just taken: what it leads to was seen before or is new
      subst hyx
      by_cases hzseen : z ∈ seen
      · exact List.mem_append_left _ hzseen
      · exact List.mem_append_right _ (mem_fresh.mpr ⟨hz, hzseen⟩)
    · have hyq : y ∉ x :: queue := by
        rw [List.mem_cons, not_or]
        exact ⟨hyx, hy'.1⟩
      exact List.mem_append_left _ (h.closed y hyseen hyq hz)
  · intro y hy
    rcases List.mem_append.mp hy with hy | hy
    · exact h.sound y hy
    · obtain ⟨s, hs, hreach⟩ := h.sound x hx
      exact ⟨s, hs, hreach.tail (mem_fresh.mp hy).1⟩

omit [DecidableEq α] in
/-- Once the queue is empty, what has been seen is the closure. -/
theorem mem_iff (h : Invariant next vertices seeds [] seen) {y : α} :
    y ∈ seen ↔ ∃ s ∈ seeds, ReflTransGen (fun a b ↦ b ∈ next a) s y := by
  constructor
  · exact h.sound y
  · rintro ⟨s, hs, hreach⟩
    induction hreach with
    | refl => exact h.seeds_subset hs
    | tail _ hstep ih => exact h.closed _ ih List.not_mem_nil hstep

end Invariant

/-! ## The result -/

theorem mem_explore {next : α → List α} {vertices seeds : List α}
    (hnext : ∀ y ∈ vertices, next y ⊆ vertices) {fuel : ℕ} {queue seen : List α}
    (h : Invariant next vertices seeds queue seen)
    (hfuel : vertices.length + queue.length ≤ fuel + seen.length) {y : α} :
    y ∈ explore next fuel queue seen ↔
      ∃ s ∈ seeds, ReflTransGen (fun a b ↦ b ∈ next a) s y := by
  induction fuel generalizing queue seen with
  | zero =>
    -- everything has been seen, so there is no room left in the queue
    have hle : seen.length ≤ vertices.length := (h.nodup.subperm h.subset).length_le
    have hqueue : queue = [] := List.length_eq_zero_iff.mp (by omega)
    subst hqueue
    exact h.mem_iff
  | succ fuel ih =>
    match queue with
    | [] => exact h.mem_iff
    | x :: queue =>
      rw [explore]
      refine ih (h.next_round hnext) ?_
      rw [List.length_append, List.length_append]
      rw [List.length_cons] at hfuel
      omega

theorem mem_closure {next : α → List α} {vertices seeds : List α}
    (hnext : ∀ y ∈ vertices, next y ⊆ vertices) (hseeds : seeds ⊆ vertices) {y : α} :
    y ∈ closure next vertices.length seeds ↔
      ∃ s ∈ seeds, ReflTransGen (fun a b ↦ b ∈ next a) s y :=
  mem_explore hnext (Invariant.start hseeds) (Nat.le_refl _)

end Explore
