import Mathlib.Data.List.Flatten
import Mathlib.Data.List.Infix

/-!
# Tables with ranges

Lists of blocks are often kept flat: the blocks stand one behind the other in one table, and each
has an entry that says where it begins and how long it is. While the table grows, the block at its
end may not have an entry yet.
-/

namespace Tables

variable {ι β : Type*}

/-- A range: where it begins and how long it is. -/
def slice (table : List β) (range : ℕ × ℕ) : List β := (table.drop range.1).take range.2

theorem slice_append {table : List β} {range : ℕ × ℕ} (h : range.1 + range.2 ≤ table.length)
    (more : List β) : slice (table ++ more) range = slice table range := by
  rw [slice, List.drop_append_of_le_length (by omega), List.take_append_of_le_length, slice]
  rw [List.length_drop]
  omega

theorem slice_self (done block : List β) :
    slice (done ++ block) (done.length, block.length) = block := by
  rw [slice, List.drop_left, List.take_length]

/-- The entries give the blocks, and behind the blocks the table goes on with `tail`. -/
structure Shows (range : ι → ℕ × ℕ) (table : List β) (entries : List ι) (blocks : List (List β))
    (tail : List β) : Prop where
  read : entries.map (fun i ↦ slice table (range i)) = blocks
  inside : ∀ i ∈ entries, (range i).1 + (range i).2 ≤ table.length
  table : table = blocks.flatten ++ tail

variable {range : ι → ℕ × ℕ} {table : List β} {entries : List ι} {blocks : List (List β)}
  {tail : List β}

theorem shows_nil (range : ι → ℕ × ℕ) (table : List β) : Shows range table [] [] table :=
  ⟨rfl, fun _ h ↦ absurd h List.not_mem_nil, rfl⟩

theorem Shows.append (h : Shows range table entries blocks tail) (more : List β) :
    Shows range (table ++ more) entries blocks (tail ++ more) where
  read := by
    rw [← h.read]
    exact List.map_congr_left fun i hi ↦ slice_append (h.inside i hi) more
  inside i hi := by
    have := h.inside i hi
    rw [List.length_append]
    omega
  table := by rw [h.table, List.append_assoc]

/-- An entry for what is behind the blocks. -/
theorem Shows.close (h : Shows range table entries blocks tail) {i : ι}
    (hi : range i = (blocks.flatten.length, tail.length)) :
    Shows range table (entries ++ [i]) (blocks ++ [tail]) [] where
  read := by
    have hlast : slice table (range i) = tail := by
      rw [hi, h.table, slice_self]
    rw [List.map_append, h.read, List.map_singleton, hlast]
  inside j hj := by
    rcases List.mem_append.mp hj with hj | hj
    · exact h.inside j hj
    · obtain rfl := List.mem_singleton.mp hj
      rw [hi, h.table, List.length_append]
  table := by rw [List.flatten_append, List.flatten_singleton, List.append_nil, h.table]

/-- Without a tail the ranges tile the table. -/
theorem Shows.tiles (h : Shows range table entries blocks []) :
    table = entries.flatMap fun i ↦ slice table (range i) := by
  rw [List.flatMap, h.read, ← List.append_nil blocks.flatten]
  exact h.table

end Tables
