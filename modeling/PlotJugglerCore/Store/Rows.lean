import PlotJugglerCore.Store.Calls
import PlotJugglerCore.Store.RoundTrip

/-!
# Slices of a batch

`appendColumns` hands a batch to the builder in slices, each as long as the room that is left. The
values, the bytes and the bits of a slice are slices of those of the batch.
-/

namespace PlotJuggler

namespace ColumnSpan

variable {d : ColumnSpan} {o n : ℕ}

theorem slices_drop (values : List UInt8) (offsets : List UInt32) (o : ℕ) :
    slices values (offsets.drop o) = (slices values offsets).drop o := by
  induction o generalizing offsets with
  | zero => rfl
  | succ o ih =>
    match offsets with
    | [] => rfl
    | [a] => simp [slices]
    | a :: b :: rest => rw [List.drop_succ_cons, ih, slices, List.drop_succ_cons]

theorem slices_take (values : List UInt8) (offsets : List UInt32) (n : ℕ) :
    slices values (offsets.take (n + 1)) = (slices values offsets).take n := by
  induction n generalizing offsets with
  | zero =>
    cases offsets with
    | nil => rfl
    | cons a rest => simp [slices]
  | succ n ih =>
    rcases offsets with _ | ⟨a, _ | ⟨b, rest⟩⟩
    · rfl
    · simp [slices]
    · rw [List.take_succ_cons, List.take_succ_cons, slices, ← List.take_succ_cons, ih, slices,
        List.take_succ_cons]

theorem values_subspan (d : ColumnSpan) (o n : ℕ) :
    (d.subspan o n).values = (d.values.drop o).take n := by
  cases d with
  | strings offsets values =>
    simp only [subspan, ColumnSpan.values, slices_take, slices_drop, List.map_take, List.map_drop]
  | _ => simp only [subspan, ColumnSpan.values, List.map_take, List.map_drop]

theorem rowCount_subspan (h : o + n ≤ d.rowCount) : (d.subspan o n).rowCount = n := by
  cases d with
  | _ =>
    simp only [rowCount] at h
    simp only [subspan, rowCount, List.length_take, List.length_drop]
    omega

theorem wellFormed_subspan (h : d.WellFormed) : (d.subspan o n).WellFormed := by
  cases d with
  | strings offsets values =>
    exact List.Pairwise.sublist ((List.take_sublist _ _).trans (List.drop_sublist _ _)) h
  | _ => trivial

end ColumnSpan

theorem BitSpan.bits_subspan {s : BitSpan} {o n : ℕ} (h : o + n ≤ s.bitLength) :
    (s.subspan o n).bits = (s.bits.drop o).take n := by
  apply List.ext_getElem
  · simp only [bits, subspan, List.length_map, List.length_range, List.length_take,
      List.length_drop]
    omega
  · intro i hi hi'
    simp [bits, subspan, test, Nat.add_assoc]

theorem batchBits_subspan {d : ColumnSpan} {v : Option BitSpan} {o n : ℕ}
    (hd : o + n ≤ d.rowCount) (hv : ∀ s ∈ v, s.bitLength = d.rowCount) :
    batchBits (d.subspan o n) (v.map (·.subspan o n)) = ((batchBits d v).drop o).take n := by
  rcases v with _ | s
  · simp only [Option.map_none, batchBits, ColumnSpan.rowCount_subspan hd, List.drop_replicate,
      List.take_replicate]
    congr 1
    omega
  · exact BitSpan.bits_subspan (by rw [hv s rfl]; exact hd)

theorem batchCells_subspan {d : ColumnSpan} {v : Option BitSpan} {o n : ℕ}
    (hd : o + n ≤ d.rowCount) (hv : ∀ s ∈ v, s.bitLength = d.rowCount) :
    batchCells (d.subspan o n) (v.map (·.subspan o n)) = ((batchCells d v).drop o).take n := by
  rw [batchCells, batchCells, batchBits_subspan hd hv, ColumnSpan.values_subspan,
    List.drop_zipWith, List.take_zipWith]

end PlotJuggler
