import Mathlib.Algebra.Order.BigOperators.Group.List
import PlotJugglerCore.Store.Statistics

/-!
# Ways of filling a chunk

A table can go into a builder by rows, in bulk or by a mix of both, and the statistics must not tell
which. They do tell, unless every column is sound.

The ways that tell them apart take one row at a time: a `RoutedRow` is a row that is either a row
call or a batch of its own, with bytes of the caller's choice below the nulls. Any list of them goes
through (`RoutedRow.exists_run`), so what the statistics say along one list can be compared with
what they say along another.
-/

namespace PlotJuggler

open TypedColumnBuffer (Slot byteCount nullRaw)

/-! ## Batches of one row -/

/-- The data of a batch of one row. -/
def ColumnSpan.single : Value → ColumnSpan
  | .float32 v => .float32 [v]
  | .float64 v => .float64 [v]
  | .int32 v => .int32 [v]
  | .int64 v => .int64 [v]
  | .uint64 v => .uint64 [v]
  | .bool v => .bool [if v then 1 else 0]
  | .string v => .strings [0, UInt32.ofNat v.length] v

/-- The bitmap of a batch of one row. -/
def BitSpan.single (valid : Bool) : BitSpan := ⟨[if valid then 1 else 0], 0, 1⟩

theorem BitSpan.bits_single (valid : Bool) : (BitSpan.single valid).bits = [valid] := by
  cases valid <;> decide

namespace ColumnSpan

variable {v : Value}

theorem kind_single (v : Value) : (single v).kind = v.kind := by cases v <;> rfl

theorem rowCount_single (v : Value) : (single v).rowCount = 1 := by cases v <;> rfl

theorem wellFormed_single (v : Value) : (single v).WellFormed := by
  cases v with
  | string s =>
    simp only [single, WellFormed, List.pairwise_cons, List.mem_singleton, forall_eq]
    exact ⟨UInt32.zero_le, by simp⟩
  | _ => trivial

theorem inBounds_single (h : v.bytes.length < 2 ^ 32) : (single v).InBounds := by
  cases v with
  | string s =>
    refine ⟨fun o ho ↦ ?_, h⟩
    rcases List.mem_pair.mp ho with rfl | rfl
    · exact Nat.zero_le _
    · exact (UInt32.toNat_ofNat_of_lt' h).le
  | _ => trivial

theorem raws_single (h : v.bytes.length < 2 ^ 32) : (single v).raws = [v.bytes] := by
  cases v with
  | string s =>
    have hlen : (UInt32.ofNat s.length).toNat = s.length := UInt32.toNat_ofNat_of_lt' h
    simp [single, raws, slices, Value.bytes, hlen]
  | _ => rfl

end ColumnSpan

theorem Entry.bulk_ofRow (k : StorageKind) (cell : Option Value) :
    (Entry.ofRow k cell).bulk = false := by
  cases cell <;> rfl

/-- The row a value or a null leaves in a column when it comes in bulk, `under` being what stands
below the null. -/
def Entry.ofBatch (under : Value) (cell : Option Value) : Entry :=
  ⟨true, cell.isSome, (cell.getD under).bytes⟩

theorem batchEntries_single {under : Value} {cell : Option Value}
    (h : (cell.getD under).bytes.length < 2 ^ 32) :
    batchEntries (.single (cell.getD under)) (some (.single cell.isSome))
      = [.ofBatch under cell] := by
  rw [batchEntries, batchBits, BitSpan.bits_single, ColumnSpan.raws_single h]
  rfl

/-! ## Rows and their routes -/

/-- A row of a table, by the index of the column, and its route: `none` is a row call, `some under`
a batch of this row alone, with `under i` below a null of column `i`. -/
structure RoutedRow where
  row : ℕ → Option Value
  route : Option (ℕ → Value) := none

namespace RoutedRow

open TopicChunkBuilder

variable {cols : List ColumnDescriptor} {r : RoutedRow} {i : ℕ} {d : ColumnDescriptor}

/-- What the row leaves in column `i`. -/
def entry (k : StorageKind) (i : ℕ) (r : RoutedRow) : Entry :=
  match r.route with
  | none => .ofRow k (r.row i)
  | some under => .ofBatch (under i) (r.row i)

def cellCall (row : ℕ → Option Value) (i : ℕ) : CellCall := (row i).elim (.setNull i) (.set i)

def bulkCalls (row : ℕ → Option Value) (under : ℕ → Value) (i : ℕ) : List BulkCall :=
  [.column i (.single ((row i).getD (under i))), .validity i (.single (row i).isSome)]

/-- The row as a unit of the interface, for a builder of `n` columns. -/
def append (n : ℕ) (r : RoutedRow) : Append :=
  match r.route with
  | none => .row 0 ((List.range n).map (cellCall r.row))
  | some under => .batch [0] ((List.range n).flatMap (bulkCalls r.row under))

/-- The values have the kinds of their columns, and each string fits into 32 bits. -/
def Fits (cols : List ColumnDescriptor) (r : RoutedRow) : Prop :=
  ∀ i d v, cols[i]? = some d → (r.row i = some v ∨ ∃ under ∈ r.route, under i = v) →
    v.kind = d.kind ∧ v.bytes.length < 2 ^ 32

theorem col_cellCall (row : ℕ → Option Value) (i : ℕ) : (cellCall row i).col = i := by
  rw [cellCall]
  cases row i <;> rfl

theorem cell_cellCall (row : ℕ → Option Value) (i : ℕ) : (cellCall row i).cell = row i := by
  rw [cellCall]
  cases row i <;> rfl

/-- Of calls in the order of the columns those about column `i` are the `i`-th. -/
theorem filter_flatMap_range {κ : Type*} {key : κ → ℕ} {f : ℕ → List κ}
    (hf : ∀ j, ∀ k ∈ f j, key k = j) {n : ℕ} (hi : i < n) :
    (((List.range n).flatMap f).filter fun k ↦ key k = i) = f i := by
  have hpart : ∀ j, ((f j).filter fun k ↦ key k = i) = if j = i then f i else [] := by
    intro j
    split_ifs with hj
    · subst hj
      exact List.filter_eq_self.mpr fun k hk ↦ by simpa using hf j k hk
    · rw [List.filter_eq_nil_iff]
      intro k hk
      simpa [hf j k hk] using hj
  induction n with
  | zero => exact absurd hi (Nat.not_lt_zero i)
  | succ n ih =>
    rw [List.range_succ, List.flatMap_append, List.filter_append, List.flatMap_singleton, hpart n]
    rcases Nat.lt_succ_iff_lt_or_eq.mp hi with hlt | rfl
    · rw [ih hlt, if_neg hlt.ne', List.append_nil]
    · have hnone : (((List.range i).flatMap f).filter fun k ↦ key k = i) = [] := by
        rw [List.filter_eq_nil_iff]
        intro k hk
        obtain ⟨j, hj, hkj⟩ := List.mem_flatMap.mp hk
        simpa [hf j k hkj] using (List.mem_range.mp hj).ne
      rw [hnone, if_pos rfl, List.nil_append]

theorem filter_cellCalls (row : ℕ → Option Value) {n : ℕ} (hi : i < n) :
    (((List.range n).map (cellCall row)).filter fun k ↦ k.col = i) = [cellCall row i] := by
  rw [← List.flatMap_singleton' ((List.range n).map (cellCall row)), List.flatMap_map]
  refine filter_flatMap_range (f := fun j ↦ [cellCall row j]) (fun j k hk ↦ ?_) hi
  rw [List.mem_singleton.mp hk, col_cellCall]

theorem filter_bulkCalls (row : ℕ → Option Value) (under : ℕ → Value) {n : ℕ} (hi : i < n) :
    (((List.range n).flatMap (bulkCalls row under)).filter fun k ↦ k.col = i)
      = bulkCalls row under i := by
  refine filter_flatMap_range (fun j k hk ↦ ?_) hi
  rcases List.mem_pair.mp hk with rfl | rfl <;> rfl

theorem rowCell_cellCalls (row : ℕ → Option Value) {n : ℕ} (hi : i < n) :
    rowCell ((List.range n).map (cellCall row)) i = row i := by
  rw [rowCell, ← List.head?_filter, filter_cellCalls row hi, List.head?_cons, Option.bind_some,
    cell_cellCall]

theorem Fits.getD {under : ℕ → Value} (h : r.Fits cols) (hroute : r.route = some under)
    (hd : cols[i]? = some d) : ((r.row i).getD (under i)).kind = d.kind ∧
      ((r.row i).getD (under i)).bytes.length < 2 ^ 32 := by
  rcases hcell : r.row i with _ | v
  · exact h i d _ hd (.inr ⟨under, hroute, rfl⟩)
  · exact h i d v hd (.inl hcell)

theorem supplies_bulkCalls (row : ℕ → Option Value) (under : ℕ → Value) {n : ℕ} (hi : i < n) :
    Supplies ((List.range n).flatMap (bulkCalls row under)) 1 i
      (.single ((row i).getD (under i))) (some (.single (row i).isSome)) := by
  refine ⟨filter_bulkCalls row under hi, ColumnSpan.wellFormed_single _,
    ColumnSpan.rowCount_single _, fun s hs ↦ ?_⟩
  obtain rfl := Option.some.inj hs
  rfl

theorem wellFormed_append (n : ℕ) (r : RoutedRow) : (r.append n).WellFormed n := by
  rw [append]
  rcases r.route with _ | under
  · have hcols : ((List.range n).map (cellCall r.row)).map CellCall.col = List.range n := by
      rw [List.map_map]
      exact (List.map_congr_left fun i _ ↦ col_cellCall r.row i).trans (List.map_id _)
    rw [Append.WellFormed, hcols]
    exact List.nodup_range
  · exact fun i hi ↦ ⟨_, _, supplies_bulkCalls r.row under hi⟩

/-- The row leaves its entry and gives its cell. -/
theorem history_append (h : r.Fits cols) (hd : cols[i]? = some d) :
    (r.append cols.length).history cols i = [r.entry d.kind i] ∧
      (r.append cols.length).cells i = [r.row i] := by
  have hi : i < cols.length := (List.getElem?_eq_some_iff.mp hd).1
  rw [append, entry]
  rcases hroute : r.route with _ | under
  · simp only [Append.history, Append.cells, rowHistory, hd, rowCell_cellCalls r.row hi]
    exact ⟨trivial, trivial⟩
  · have hsup := supplies_bulkCalls r.row under hi
    obtain ⟨-, hbytes⟩ := h.getD hroute hd
    refine ⟨hsup.batchHistory.trans (batchEntries_single hbytes), ?_⟩
    rw [Append.cells, hsup.suppliedCells, batchCells, batchBits, BitSpan.bits_single,
      ← ColumnSpan.map_decode_raws, ColumnSpan.raws_single hbytes, ColumnSpan.kind_single,
      List.map_singleton, Value.decode_bytes]
    cases r.row i <;> rfl

/-! ### They all go through -/

theorem exists_set {c : ColumnBuilder} {v : Value} (h : v.kind = c.kind) :
    ∃ c', c.set v = some c' := by
  have happ : ∃ b, c.buffer.append v = some b := by
    have hk : v.kind = c.buffer.kind := h
    rw [TypedColumnBuffer.append.eq_def, if_pos hk]
    cases v <;> exact ⟨_, rfl⟩
  obtain ⟨b, hb⟩ := happ
  exact ⟨_, by rw [ColumnBuilder.set, hb, Option.map_some]⟩

variable {b b' : TopicChunkBuilder} {hist : ℕ → List Entry} {stamps : List Timestamp}

/-- A row call with values of the right kinds passes all assertions. -/
theorem exists_runRow (al : b.Aligned cols hist stamps) (horder : b.lastTimestamp ≤ 0)
    (h : r.Fits cols) :
    ∃ b', b.runRow 0 ((List.range cols.length).map (cellCall r.row)) = some b' := by
  set begun : TopicChunkBuilder :=
    { b with rowInProgress := true, currentTimestamp := 0, lastTimestamp := 0 } with hbegun
  have hbegin : b.beginRow 0 = some begun := by
    rw [beginRow, if_pos ⟨by simp [al.idle], horder⟩]
  have hcells : ∃ b₁, ((List.range cols.length).map (cellCall r.row)).foldlM
      (fun b k ↦ b.updateColumn k.col k.apply) begun = some b₁ := by
    refine exists_foldlM_updateColumn (fun k hk ↦ ?_) fun i c hc ↦ ?_
    · obtain ⟨j, hj, rfl⟩ := List.mem_map.mp hk
      rw [col_cellCall]
      exact al.tracks.length ▸ List.mem_range.mp hj
    · obtain ⟨d, hd, tc⟩ := al.tracks.exists_descriptor hc
      have hi : i < cols.length := (List.getElem?_eq_some_iff.mp hd).1
      have hone : ∃ c', (cellCall r.row i).apply c = some c' := by
        rw [cellCall]
        rcases hcell : r.row i with _ | v
        · exact ⟨_, rfl⟩
        · exact exists_set ((h i d v hd (.inl hcell)).1.trans tc.kind.symm)
      obtain ⟨c', hc'⟩ := hone
      exact ⟨c', by rw [filter_cellCalls r.row hi, List.foldlM_cons, hc']; rfl⟩
  obtain ⟨b₁, hb₁⟩ := hcells
  obtain ⟨hframe, -, -⟩ := foldlM_updateColumn hb₁
  have hfin : ∃ b₂, b₁.finishRow = some b₂ := by
    rw [hframe, finishRow, if_pos rfl]
    exact ⟨_, rfl⟩
  obtain ⟨b₂, hb₂⟩ := hfin
  exact ⟨b₂, by rw [runRow, hbegin, Option.bind_some, foldlM_runCellCall rfl, hb₁,
    Option.bind_some, hb₂]⟩

theorem exists_append (al : b.Aligned cols hist stamps) (horder : b.lastTimestamp ≤ 0)
    (h : r.Fits cols) :
    ∃ b', (r.append cols.length).run b = some b' ∧ b'.lastTimestamp ≤ 0 := by
  rw [append]
  rcases hroute : r.route with _ | under
  · obtain ⟨b', hb'⟩ := exists_runRow al horder h
    obtain ⟨⟨-, -, hframe⟩, -, -⟩ := runRow_eq_some hb'
    exact ⟨b', hb', by rw [hframe]⟩
  · have hbatch : ∃ b', b.runBatch [0]
        ((List.range cols.length).flatMap (bulkCalls r.row under)) = some b' := by
      refine al.exists_runBatch (fun t ht ↦ ?_) (fun k hk ↦ ?_) fun i d hd ↦ ?_
      · obtain rfl := Option.some.inj ht
        exact horder
      · obtain ⟨j, hj, hkj⟩ := List.mem_flatMap.mp hk
        rcases List.mem_pair.mp hkj with rfl | rfl <;> exact List.mem_range.mp hj
      · obtain ⟨hkind, hbytes⟩ := h.getD hroute hd
        exact ⟨_, _, supplies_bulkCalls r.row under (List.getElem?_eq_some_iff.mp hd).1,
          (ColumnSpan.kind_single _).trans hkind, ColumnSpan.inBounds_single hbytes⟩
    obtain ⟨b', hb'⟩ := hbatch
    obtain ⟨hafter, -, -⟩ := runBatch_eq_some al.pending hb'
    exact ⟨b', hb', by rw [hafter.frame]; exact le_rfl⟩

/-- Rows with values of the right kinds go through, whichever route each of them takes. -/
theorem exists_run {rs : List RoutedRow} (al : b.Aligned cols hist stamps)
    (horder : b.lastTimestamp ≤ 0) (h : ∀ r ∈ rs, r.Fits cols) :
    ∃ b', (rs.map (append cols.length)).foldlM Append.run b = some b' := by
  induction rs generalizing b hist stamps with
  | nil => exact ⟨b, rfl⟩
  | cons r rs ih =>
    obtain ⟨b₁, hb₁, horder₁⟩ := exists_append al horder (h r List.mem_cons_self)
    obtain ⟨al₁, -⟩ := al.append (wellFormed_append cols.length r) hb₁
    obtain ⟨b', hb'⟩ := ih al₁ horder₁ fun r' hr' ↦ h r' (List.mem_cons_of_mem r hr')
    exact ⟨b', by rw [List.map_cons, List.foldlM_cons, hb₁]; exact hb'⟩

/-- What they leave and give. -/
theorem runHistory_map_append {rs : List RoutedRow} (h : ∀ r ∈ rs, r.Fits cols)
    (hd : cols[i]? = some d) :
    runHistory cols (rs.map (append cols.length)) i = rs.map (entry d.kind i) ∧
      runCells (rs.map (append cols.length)) i = rs.map fun r ↦ r.row i := by
  induction rs with
  | nil => exact ⟨rfl, rfl⟩
  | cons r rs ih =>
    obtain ⟨hentry, hcell⟩ := history_append (h r List.mem_cons_self) hd
    obtain ⟨hrest, hrest'⟩ := ih fun r' hr' ↦ h r' (List.mem_cons_of_mem r hr')
    rw [runHistory] at hrest ⊢
    rw [runCells] at hrest' ⊢
    rw [List.map_cons, List.flatMap_cons, List.flatMap_cons, hrest, hrest', hentry, hcell]
    exact ⟨rfl, rfl⟩

end RoutedRow

/-! ## What two routes tell apart -/

section Necessity

variable {k : StorageKind} {h : List Entry} {cells : List (Option Value)}

/-- The runs of a history with a value, all of it in bulk. -/
theorem runs_of_bulk (hbulk : ∀ e ∈ h, e.bulk = true)
    (hstring : k = .string → h.Pairwise fun e e' ↦ e.valid = false → e'.valid = false)
    (hne : (h.map (Entry.cell k)).reduceOption ≠ []) :
    (scanStats k h).stats.runCount
        = OnePass.runs (Value.alike k) (h.map (Entry.cell k)).reduceOption ∧
      (scanStats k h).stats.isConstant
        = decide (OnePass.runs (Value.alike k) (h.map (Entry.cell k)).reduceOption ≤ 1) := by
  rcases exists_first h with hnull | ⟨ns, e, rest, rfl, hns, hv⟩
  · refine absurd ?_ hne
    rw [reduceOption_map_cell, List.map_eq_nil_iff, List.filter_eq_nil_iff]
    exact fun e he ↦ by simp [hnull e he]
  have hb : e.bulk = true := hbulk e (by simp)
  obtain ⟨hcount, hconst⟩ := first_of_bulk_or_nil (k := k) hns hv (.inl hb)
  obtain ⟨hruns, hconst'⟩ := @runs_of_first k ns rest e hv (.inl (hcount ▸ Nat.one_pos)) fun hk ↦
    (List.pairwise_cons.mp (List.pairwise_append.mp (hstring hk)).2.1).2
  rw [runs_reduceOption hns hv, hruns, hconst', hcount, hconst, Bool.true_and]
  exact ⟨rfl, decide_eq_decide.mpr (by omega)⟩

/-- The runs of a numeric history that starts with a null, all of it row by row: a first value of
zero counts no run, and any other is taken for a change. -/
theorem runs_of_rows (hk : k ≠ .string) (hrow : ∀ e ∈ h, e.bulk = false)
    (hhead : (h.map (Entry.cell k)).head? = some none) {x : Binary64}
    (hx : (doubles (h.map (Entry.cell k))).head? = some x) :
    (scanStats k h).stats.runCount + 1 = (if Binary64.eq x .zero then 0 else 1)
        + OnePass.runs (Value.alike k) (h.map (Entry.cell k)).reduceOption ∧
      ((scanStats k h).stats.isConstant = true → Binary64.eq x .zero = true) := by
  rcases exists_first h with hnull | ⟨ns, e, rest, rfl, hns, hv⟩
  · have hnil : (h.map (Entry.cell k)).reduceOption = [] := by
      rw [reduceOption_map_cell, List.map_eq_nil_iff, List.filter_eq_nil_iff]
      exact fun e he ↦ by simp [hnull e he]
    rw [doubles, hnil] at hx
    cases hx
  have hne : ns ≠ [] := by
    rintro rfl
    simp [Entry.cell, hv] at hhead
  have hb : e.bulk = false := hrow e (by simp)
  -- the first value, as a double
  have hdouble : e.double k = x := by
    have hnone : ns.filter Entry.valid = [] := by
      rw [List.filter_eq_nil_iff]
      exact fun e he ↦ by simp [hns e he]
    rw [doubles_map_cell, List.filter_append, hnone, List.nil_append, List.filter_cons_of_pos hv]
      at hx
    exact Option.some.inj hx
  obtain ⟨hcount, hconst⟩ := first_of_row hk hns hne hv hb
  obtain ⟨hruns, hconst'⟩ := @runs_of_first k ns rest e hv
    (.inr fun e' he' ↦ hrow e' (by simp [he'])) fun hk' ↦ absurd hk' hk
  rw [hruns, hconst', hcount, hconst, runs_reduceOption hns hv, hdouble]
  refine ⟨by omega, fun hand ↦ ?_⟩
  exact (Bool.and_eq_true_iff.mp hand).1

/-- A bound that is found in bulk is right only if some value is on its side of the limit. -/
theorem exists_of_isBound (lt le : Binary64 → Binary64 → Bool) {limit : Binary64}
    {f : Binary64 → ℤ} (hlt : ∀ x y, x.isNaN = false → y.isNaN = false → lt x y = decide (f x < f y))
    (hle : ∀ x y, x.isNaN = false → y.isNaN = false → le x y = decide (f x ≤ f y))
    (hlimit : limit.isNaN = false) {l : List (Bool × Binary64)} (hne : l ≠ [])
    (hflag : ∀ p ∈ l, p.1 = true) (hnum : ∀ p ∈ l, p.2.isNaN = false)
    (hbound : IsBound le (l.map Prod.snd) (l.foldl (boundStep lt limit) none)) :
    ∃ x ∈ l.map Prod.snd, le x limit = true := by
  by_contra hnone
  have hall : ∀ p ∈ l, f limit < f p.2 := by
    intro p hp
    by_contra hge
    refine hnone ⟨p.2, List.mem_map_of_mem hp, ?_⟩
    rw [hle p.2 limit (hnum p hp) hlimit, decide_eq_true_eq]
    exact not_lt.mp hge
  rw [foldl_boundStep hlt hlimit hnum, OnePass.foldl_search_eq_limit hne hflag hall] at hbound
  -- the search ended at the limit, which is none of the values
  refine hnone ⟨limit, hbound.1, ?_⟩
  rw [hle limit limit hlimit hlimit, decide_eq_true_eq]

/-- A numeric column is sound if its statistics are right in bulk and the same row by row. -/
theorem statsSound_of_routes (hk : k ≠ .string) {hb hr : List Entry}
    (hbulk : ∀ e ∈ hb, e.bulk = true) (hrow : ∀ e ∈ hr, e.bulk = false)
    (hcb : hb.map (Entry.cell k) = cells) (hcr : hr.map (Entry.cell k) = cells)
    (hdesc : (scanStats k hb).stats.Describes k cells)
    (hsame : (scanStats k hb).stats = (scanStats k hr).stats) : StatsSound k cells := by
  rw [StatsSound, if_neg hk]
  by_cases hne : cells.reduceOption = []
  · exact .inl hne
  refine .inr ?_
  have hsnd : (flagged k hb).map Prod.snd = doubles cells := by
    rw [← hcb, doubles_map_cell, flagged, List.map_map]
    rfl
  have hdoubles : doubles cells ≠ [] := by simpa [doubles] using hne
  have hnum : ∀ x ∈ doubles cells, x.isNaN = false := by
    intro x hx
    have hmin := hdesc.minValue hk
    rcases hm : (scanStats k hb).stats.minValue with _ | m <;> rw [hm] at hmin
    · exact absurd hmin hdoubles
    · exact (Binary64.isNaN_of_le (hmin.2 x hx)).2
  have hflagged : flagged k hb ≠ [] := by
    rintro hnil
    rw [hnil] at hsnd
    exact hdoubles hsnd.symm
  have hflag : ∀ p ∈ flagged k hb, p.1 = true := by
    intro p hp
    obtain ⟨e, he, rfl⟩ := List.mem_map.mp hp
    exact hbulk e (List.mem_filter.mp he).1
  have hflagNum : ∀ p ∈ flagged k hb, p.2.isNaN = false := fun p hp ↦
    hnum p.2 (hsnd ▸ List.mem_map_of_mem hp)
  obtain ⟨hruns, hconst⟩ := runs_of_bulk hbulk (fun hk' ↦ absurd hk' hk) (hcb ▸ hne)
  rw [hcb] at hruns hconst
  refine ⟨hnum, ?_, ?_, ?_⟩
  · rw [← hsnd]
    refine exists_of_isBound Binary64.lt Binary64.le (f := Binary64.key)
      (fun x y ↦ Binary64.lt_eq) (fun x y ↦ Binary64.le_eq) (by decide) hflagged hflag hflagNum ?_
    rw [hsnd, ← (bounds_scanStats hk hb).1]
    exact hdesc.minValue hk
  · have hmax := hdesc.maxValue hk
    rw [(bounds_scanStats hk hb).2, ← hsnd] at hmax
    rw [← hsnd]
    refine exists_of_isBound (fun x y ↦ Binary64.lt y x) (fun x y ↦ Binary64.le y x)
      (f := (-Binary64.key ·)) (fun x y hx hy ↦ ?_) (fun x y hx hy ↦ ?_) (by decide) hflagged hflag
      hflagNum hmax
    · rw [Binary64.lt_eq hy hx]
      simp
    · rw [Binary64.le_eq hy hx]
      simp
  · have hpair := runs_alike_le_one_iff k cells.reduceOption
    rw [← pairwise_doubles hk] at hpair
    split_ifs with hhead
    · obtain ⟨x, hx⟩ : ∃ x, (doubles cells).head? = some x := by
        rw [← Option.isSome_iff_exists, List.isSome_head?]
        exact hdoubles
      obtain ⟨hcount, hzero⟩ := runs_of_rows hk hrow (hcr ▸ hhead) (hcr ▸ hx)
      rw [hcr, ← hsame, hruns] at hcount
      rw [← hsame, hconst, decide_eq_true_eq] at hzero
      -- the two routes count the same runs, so the first value is not zero
      have hx' : Binary64.eq x .zero = false := by
        by_contra hne'
        rw [if_pos (by simpa using hne')] at hcount
        omega
      refine ⟨fun y hy ↦ ?_, fun hp ↦ ?_⟩
      · obtain rfl : x = y := Option.some.inj (hx.symm.trans hy)
        exact hx'
      · rw [hzero (hpair.mpr hp)] at hx'
        cases hx'
    · intro hp
      exact hdesc.isConstant.mp (by rw [hconst, decide_eq_true_eq]; exact hpair.mpr hp)

/-- Rows of strings add the same runs to scans that agree on the row before. -/
theorem runCount_foldl_rows {new : List Entry} (hrow : ∀ e ∈ new, e.bulk = false) {s s' : StatsScan}
    (hs : 0 < s.row) (hs' : 0 < s'.row) (hprev : s'.previous = s.previous) {c : ℕ}
    (hcount : s'.stats.runCount = s.stats.runCount + c) :
    (new.foldl (StatsScan.step .string) s').stats.runCount
      = (new.foldl (StatsScan.step .string) s).stats.runCount + c := by
  induction new generalizing s s' with
  | nil => exact hcount
  | cons e new ih =>
    have hrest : ∀ e' ∈ new, e'.bulk = false := fun e' he' ↦ hrow e' (List.mem_cons_of_mem e he')
    rw [List.foldl_cons, List.foldl_cons]
    rcases hv : e.valid
    · rw [StatsScan.step_of_null s hv, StatsScan.step_of_null s' hv]
      exact ih hrest (Nat.succ_pos _) (Nat.succ_pos _) rfl hcount
    · rw [StatsScan.step_of_valid s hv, StatsScan.step_of_valid s' hv]
      have hb : e.bulk = false := hrow e List.mem_cons_self
      have hfirst : s.isFirst e = false ∧ s'.isFirst e = false := by
        rw [StatsScan.isFirst, StatsScan.isFirst, hb]
        exact ⟨by simpa using hs.ne', by simpa using hs'.ne'⟩
      have hsame : s'.isSame .string e = s.isSame .string e := by
        rw [StatsScan.isSame, StatsScan.isSame, hb]
        simp only [Bool.false_eq_true, if_false, if_true, hprev]
      refine ih hrest (Nat.succ_pos _) (Nat.succ_pos _) rfl ?_
      simp only [ColumnStats.runCount_addRun, StatsScan.runCount_addBounds, hfirst.1, hfirst.2,
        hsame, Bool.false_eq_true, if_false, hcount]
      split_ifs <;> omega

/-- A string of the row path behind a null counts a run unless the bytes below the null are its
own. -/
theorem runCount_behind_null (pre post : List Entry) {e : Entry} (hv : e.valid = true)
    (hrow : ∀ e' ∈ e :: post, e'.bulk = false) {raw : List UInt8} (hraw : e.raw ≠ raw) :
    (scanStats .string (pre ++ ⟨true, false, raw⟩ :: e :: post)).stats.runCount
      = (scanStats .string (pre ++ ⟨true, false, e.raw⟩ :: e :: post)).stats.runCount + 1 := by
  have hb : e.bulk = false := hrow e List.mem_cons_self
  generalize hs : scanStats .string pre = s
  have hstep : ∀ raw, (s.step .string ⟨true, false, raw⟩).step .string e =
      { stats := s.stats.addNull.addRun false (e.raw = raw)
        last := e.double .string
        previous := e.raw
        lastValid := e.raw
        row := s.row + 2 } := by
    intro raw
    rw [StatsScan.step_of_null s rfl, StatsScan.step_of_valid _ hv]
    simp [StatsScan.addBounds, StatsScan.isFirst, StatsScan.isSame, hb]
  rw [scanStats_append, scanStats_append, List.foldl_cons, List.foldl_cons, List.foldl_cons,
    List.foldl_cons, hs, hstep, hstep]
  refine runCount_foldl_rows (fun e' he' ↦ hrow e' (List.mem_cons_of_mem e he')) ?_ ?_ ?_ ?_
  · exact Nat.succ_pos _
  · exact Nat.succ_pos _
  · rfl
  · simp [hraw]

end Necessity

/-! ## Tables -/

/-- The number of string bytes in a column. -/
def cellBytes (cells : List (Option Value)) : ℕ :=
  (cells.map fun cell ↦ cell.elim 0 (·.bytes.length)).sum

/-- A table: the values of a row, by the index of the column, have the kinds of their columns. -/
structure Table where
  cols : List ColumnDescriptor
  rows : List (ℕ → Option Value)
  kind : ∀ row ∈ rows, ∀ i d v, cols[i]? = some d → row i = some v → v.kind = d.kind

namespace Table

open TopicChunkBuilder

variable {t : Table} {i : ℕ} {d : ColumnDescriptor} {run : List Append} {b : TopicChunkBuilder}

def column (t : Table) (i : ℕ) : List (Option Value) := t.rows.map (· i)

/-- A way of appending the table to a new builder: any run of row calls and batches that gives each
column its cells, with string data that 32-bit offsets can address. -/
structure Way (t : Table) (run : List Append) (b : TopicChunkBuilder) : Prop where
  wellFormed : ∀ a ∈ run, a.WellFormed t.cols.length
  reaches : ∃ topicId schemaId maxRows,
    run.foldlM Append.run (.new topicId schemaId t.cols maxRows) = some b
  cells : ∀ i, i < t.cols.length → runCells run i = t.column i
  bytes : ∀ i d, t.cols[i]? = some d → d.kind = .string → stringBytes t.cols run i < 2 ^ 32

/-- The statistics of the sealed chunk do not depend on the way, and describe every column. -/
structure StatsDescribe (t : Table) : Prop where
  same : ∀ run b run' b' id id', t.Way run b → t.Way run' b' →
    (b.sealChunk id).stats.columnStats = (b'.sealChunk id').stats.columnStats
  describes : ∀ run b id, t.Way run b → ∀ i d, t.cols[i]? = some d →
    ∃ s : ColumnStats, (b.sealChunk id).stats.columnStats[i]? = some s ∧
      s.Describes d.kind (t.column i)

/-- Every column is sound. -/
def ColumnsSound (t : Table) : Prop :=
  ∀ i d, t.cols[i]? = some d → StatsSound d.kind (t.column i)

/-- No column of strings takes half of what 32-bit offsets can address, so that there is room for a
second copy of a string. -/
def HalfFull (t : Table) : Prop :=
  ∀ i d, t.cols[i]? = some d → d.kind = .string → cellBytes (t.column i) < 2 ^ 31

/-! ### The statistics of a way -/

/-- The statistics of a way are those of the scans of its columns. -/
theorem Way.columnStats (w : t.Way run b) (id : ℕ) :
    (b.sealChunk id).stats.columnStats.length = t.cols.length ∧
      ∀ i d, t.cols[i]? = some d →
        (b.sealChunk id).stats.columnStats[i]?
            = some (scanStats d.kind (runHistory t.cols run i)).stats ∧
          (runHistory t.cols run i).map (Entry.cell d.kind) = t.column i := by
  obtain ⟨topicId, schemaId, maxRows, hrun⟩ := w.reaches
  have al₀ := aligned_new topicId schemaId t.cols maxRows
  obtain ⟨al, hcells⟩ := al₀.run w.wellFormed hrun
  have hcounts := al₀.run_column w.wellFormed hrun
    (I := fun d h c ↦ (d.kind = .string → byteCount (h.map Entry.slot) < 2 ^ 32) →
      ColumnBuilder.Counts d h c)
    (fun d h c new c' tc hc hstep hbytes ↦ by
      refine (hc fun hk ↦ ?_).step tc hstep hbytes
      have := hbytes hk
      rw [ColumnBuilder.byteCount_append] at this
      omega)
    (fun i d c hd hc _ ↦ by
      have hc' : some (ColumnBuilder.new d) = some c := by
        rw [← hc, new, List.getElem?_map, hd, Option.map_some]
      obtain rfl := Option.some.inj hc'
      exact ColumnBuilder.counts_new d)
  refine ⟨(List.length_map _).trans al.tracks.length, fun i d hd ↦ ⟨?_, ?_⟩⟩
  · obtain ⟨c, hc, -⟩ := al.tracks.exists_column hd
    have hstats := (hcounts i d c hd hc (w.bytes i d hd)).stats
    rw [List.nil_append] at hstats
    rw [sealChunk, List.getElem?_map, hc, Option.map_some, hstats]
  · rw [hcells i d hd]
    exact w.cells i (List.getElem?_eq_some_iff.mp hd).1

theorem kind_of_mem_column (hd : t.cols[i]? = some d) {v : Value}
    (hv : v ∈ (t.column i).reduceOption) : v.kind = d.kind := by
  obtain ⟨row, hrow, hcell⟩ := List.mem_map.mp (List.reduceOption_mem_iff.mp hv)
  exact t.kind row hrow i d v hd hcell

/-- Sound columns are described along every way. -/
theorem statsDescribe_of_columnsSound (hs : t.ColumnsSound) : t.StatsDescribe := by
  have hexpected : ∀ run b id, t.Way run b → ∀ i d, t.cols[i]? = some d →
      (b.sealChunk id).stats.columnStats[i]?
        = some (ColumnStats.expected d.kind (t.column i)) := by
    intro run b id w i d hd
    obtain ⟨hstats, hcells⟩ := (w.columnStats id).2 i d hd
    have hsound := hs i d hd
    rw [← hcells] at hsound
    rw [hstats, scanStats_of_sound hsound, hcells]
  refine ⟨fun run b run' b' id id' w w' ↦ List.ext_getElem? fun i ↦ ?_,
    fun run b id w i d hd ↦ ⟨_, hexpected run b id w i d hd, ?_⟩⟩
  · rcases hd : t.cols[i]? with _ | d
    · have hle := List.getElem?_eq_none_iff.mp hd
      rw [List.getElem?_eq_none_iff.mpr ((w.columnStats id).1 ▸ hle),
        List.getElem?_eq_none_iff.mpr ((w'.columnStats id').1 ▸ hle)]
    · rw [hexpected run b id w i d hd, hexpected run' b' id' w' i d hd]
  · exact expected_describes (hs i d hd) fun v hv ↦ kind_of_mem_column hd hv

/-! ### Ways of rows with routes -/

/-- What stands below the nulls of a batch by default: zeros, and no bytes of a string. -/
def filler (cols : List ColumnDescriptor) (i : ℕ) : Value :=
  cols[i]?.elim (.bool false) (·.kind.decode [])

/-- Any routes make a way, if the bytes below the nulls leave room. -/
theorem exists_way (rs : List RoutedRow) (hrows : rs.map RoutedRow.row = t.rows)
    (hfits : ∀ r ∈ rs, r.Fits t.cols)
    (hbytes : ∀ i d, t.cols[i]? = some d → d.kind = .string →
      (rs.map fun r ↦ (r.entry .string i).raw.length).sum < 2 ^ 32) :
    ∃ run b, t.Way run b ∧ ∀ i d, t.cols[i]? = some d →
      runHistory t.cols run i = rs.map (RoutedRow.entry d.kind i) := by
  obtain ⟨b, hb⟩ := RoutedRow.exists_run (aligned_new 0 0 t.cols 0)
    (show Int64.minValue ≤ 0 by decide) hfits
  have hhist : ∀ i d, t.cols[i]? = some d →
      runHistory t.cols (rs.map (RoutedRow.append t.cols.length)) i
        = rs.map (RoutedRow.entry d.kind i) := fun i d hd ↦
    (RoutedRow.runHistory_map_append hfits hd).1
  refine ⟨_, b, ⟨fun a ha ↦ ?_, ⟨0, 0, 0, hb⟩, fun i hi ↦ ?_, fun i d hd hk ↦ ?_⟩, hhist⟩
  · obtain ⟨r, -, rfl⟩ := List.mem_map.mp ha
    exact RoutedRow.wellFormed_append _ r
  · rw [(RoutedRow.runHistory_map_append hfits (List.getElem?_eq_getElem hi)).2, column, ← hrows,
      List.map_map]
    rfl
  · rw [stringBytes, hhist i d hd, hk, byteCount, List.map_map, List.map_map, List.length_flatten,
      List.map_map]
    exact hbytes i d hd hk

/-- Values of a half full table fit, and so do the fillers below the nulls. -/
theorem HalfFull.fits (hh : t.HalfFull) {row : ℕ → Option Value} (hrow : row ∈ t.rows)
    {route : Option (ℕ → Value)} (hroute : ∀ under ∈ route, ∀ i d, t.cols[i]? = some d →
      (under i).kind = d.kind ∧ (d.kind = .string → (under i).bytes.length < 2 ^ 32)) :
    RoutedRow.Fits t.cols ⟨row, route⟩ := by
  intro i d v hd hv
  have hfixed : v.kind = d.kind → d.kind ≠ .string → v.bytes.length < 2 ^ 32 := by
    intro hvk hk
    rw [v.length_bytes (hvk ▸ hk)]
    cases v.kind <;> decide
  rcases hv with hcell | ⟨under, hunder, rfl⟩
  · have hvk := t.kind row hrow i d v hd hcell
    refine ⟨hvk, ?_⟩
    by_cases hk : d.kind = .string
    · have hmem : v.bytes.length ∈ (t.column i).map fun cell ↦ cell.elim 0 (·.bytes.length) :=
        List.mem_map.mpr ⟨some v, List.mem_map.mpr ⟨row, hrow, hcell⟩, rfl⟩
      have hle := List.le_sum_of_mem hmem
      have hhalf := hh i d hd hk
      rw [cellBytes] at hhalf
      omega
    · exact hfixed hvk hk
  · obtain ⟨hkind, hbytes⟩ := hroute under hunder i d hd
    refine ⟨hkind, ?_⟩
    by_cases hk : d.kind = .string
    · exact hbytes hk
    · exact hfixed hkind hk

theorem filler_eq {cols : List ColumnDescriptor} (hd : cols[i]? = some d) :
    filler cols i = d.kind.decode [] := by
  rw [filler, hd]
  rfl

/-- The bytes a string column takes: those of its value, or those below the null. -/
theorem length_raw_le (r : RoutedRow) (i : ℕ) : (r.entry .string i).raw.length
    ≤ (r.row i).elim 0 (·.bytes.length) + r.route.elim 0 fun under ↦ (under i).bytes.length := by
  rw [RoutedRow.entry]
  rcases r.route with _ | under
  · rcases r.row i with _ | v
    · exact Nat.zero_le _
    · exact Nat.le_add_right _ _
  · rcases hcell : r.row i with _ | v
    · exact (Nat.zero_add _).ge
    · exact Nat.le_add_right _ _

/-- The rows `rows`, each by a row call. -/
def byRow (rows : List (ℕ → Option Value)) : List RoutedRow := rows.map fun row ↦ ⟨row, none⟩

/-- The rows `rows`, each in bulk. -/
def inBulk (cols : List ColumnDescriptor) (rows : List (ℕ → Option Value)) : List RoutedRow :=
  rows.map fun row ↦ ⟨row, some (filler cols)⟩

theorem length_byRow_le (rows : List (ℕ → Option Value)) (i : ℕ) :
    ((byRow rows).map fun r ↦ (r.entry .string i).raw.length).sum
      ≤ cellBytes (rows.map (· i)) := by
  rw [byRow, cellBytes, List.map_map, List.map_map]
  exact List.sum_le_sum fun row _ ↦ length_raw_le ⟨row, none⟩ i

theorem length_inBulk_le (hd : t.cols[i]? = some d) (hk : d.kind = .string)
    (rows : List (ℕ → Option Value)) :
    ((inBulk t.cols rows).map fun r ↦ (r.entry .string i).raw.length).sum
      ≤ cellBytes (rows.map (· i)) := by
  rw [inBulk, cellBytes, List.map_map, List.map_map]
  refine List.sum_le_sum fun row _ ↦ ?_
  have hle := length_raw_le ⟨row, some (filler t.cols)⟩ i
  simpa [filler_eq hd, hk, StorageKind.decode, Value.bytes] using hle

theorem map_row_byRow (rows : List (ℕ → Option Value)) :
    (byRow rows).map RoutedRow.row = rows := by
  rw [byRow, List.map_map]
  exact List.map_id _

theorem map_row_inBulk (cols : List ColumnDescriptor) (rows : List (ℕ → Option Value)) :
    (inBulk cols rows).map RoutedRow.row = rows := by
  rw [inBulk, List.map_map]
  exact List.map_id _

theorem HalfFull.fits_byRow (hh : t.HalfFull) {rows : List (ℕ → Option Value)}
    (hrows : ∀ row ∈ rows, row ∈ t.rows) : ∀ r ∈ byRow rows, r.Fits t.cols := by
  intro r hr
  obtain ⟨row, hrow, rfl⟩ := List.mem_map.mp hr
  exact hh.fits (hrows row hrow) fun under hunder ↦ by cases hunder

theorem HalfFull.fits_inBulk (hh : t.HalfFull) {rows : List (ℕ → Option Value)}
    (hrows : ∀ row ∈ rows, row ∈ t.rows) : ∀ r ∈ inBulk t.cols rows, r.Fits t.cols := by
  intro r hr
  obtain ⟨row, hrow, rfl⟩ := List.mem_map.mp hr
  refine hh.fits (hrows row hrow) fun under hunder i d hd ↦ ?_
  obtain rfl := Option.some.inj hunder
  rw [filler_eq hd]
  refine ⟨StorageKind.decode_kind _ _, fun hk ↦ ?_⟩
  rw [hk]
  decide

/-! ### When the statistics describe the table -/

/-- A numeric column whose statistics are right and the same along all ways is sound. -/
theorem statsSound_of_describes (hh : t.HalfFull) (hdesc : t.StatsDescribe) (hd : t.cols[i]? = some d)
    (hk : d.kind ≠ .string) : StatsSound d.kind (t.column i) := by
  have hsmall : ∀ j e, t.cols[j]? = some e → e.kind = .string →
      cellBytes (t.rows.map (· j)) < 2 ^ 32 := fun j e he hek ↦
    (hh j e he hek).trans (by decide)
  -- everything in bulk, and everything row by row
  obtain ⟨run, b, w, hhist⟩ := exists_way _ (map_row_inBulk t.cols t.rows)
    (hh.fits_inBulk fun _ hrow ↦ hrow) fun j e he hek ↦
      (length_inBulk_le he hek t.rows).trans_lt (hsmall j e he hek)
  obtain ⟨run', b', w', hhist'⟩ := exists_way _ (map_row_byRow t.rows)
    (hh.fits_byRow fun _ hrow ↦ hrow) fun j e he hek ↦
      (length_byRow_le t.rows j).trans_lt (hsmall j e he hek)
  obtain ⟨hstats, hcells⟩ := (w.columnStats 0).2 i d hd
  obtain ⟨hstats', hcells'⟩ := (w'.columnStats 0).2 i d hd
  obtain ⟨s, hs, hdescribes⟩ := hdesc.describes run b 0 w i d hd
  rw [hstats] at hs
  obtain rfl := Option.some.inj hs
  have hsame := hdesc.same run b run' b' 0 0 w w'
  rw [hsame, hstats'] at hstats
  refine statsSound_of_routes hk (fun e he ↦ ?_) (fun e he ↦ ?_) hcells hcells' hdescribes
    (Option.some.inj hstats).symm
  · rw [hhist i d hd] at he
    obtain ⟨r, hr, rfl⟩ := List.mem_map.mp he
    obtain ⟨row, -, rfl⟩ := List.mem_map.mp hr
    rfl
  · rw [hhist' i d hd] at he
    obtain ⟨r, hr, rfl⟩ := List.mem_map.mp he
    obtain ⟨row, -, rfl⟩ := List.mem_map.mp hr
    exact Entry.bulk_ofRow d.kind (row i)

/-- The rows of a table up to a row in bulk, and from the next one on by row calls. Below a null of
column `i` that row has the bytes `raw`. -/
def withBytes (cols : List ColumnDescriptor) (i : ℕ) (raw : List UInt8)
    (pre : List (ℕ → Option Value)) (row : ℕ → Option Value) (post : List (ℕ → Option Value)) :
    List RoutedRow :=
  inBulk cols pre ++
    ⟨row, some fun j ↦ if j = i then .string raw else filler cols j⟩ :: byRow post

/-- Behind a null the bytes below it decide whether a string of the row path counts a run. -/
theorem exists_way_withBytes (hh : t.HalfFull) (hd : t.cols[i]? = some d) (hk : d.kind = .string)
    {pre post : List (ℕ → Option Value)} {row : ℕ → Option Value}
    (hrows : t.rows = pre ++ row :: post) (hnull : row i = none) {raw : List UInt8}
    (hraw : raw.length < 2 ^ 31) :
    ∃ run b, t.Way run b ∧ runHistory t.cols run i
      = (inBulk t.cols pre).map (RoutedRow.entry .string i) ++ ⟨true, false, raw⟩ ::
        post.map fun row ↦ .ofRow .string (row i) := by
  have hmem : ∀ {row'}, row' ∈ pre ∨ row' = row ∨ row' ∈ post → row' ∈ t.rows := by
    intro row' h
    rw [hrows]
    simpa using h
  obtain ⟨run, b, w, hhist⟩ := exists_way (withBytes t.cols i raw pre row post)
    (by rw [withBytes, List.map_append, map_row_inBulk, List.map_cons, map_row_byRow, hrows])
    (fun r hr ↦ by
      rcases List.mem_append.mp hr with hr | hr
      · exact hh.fits_inBulk (fun row' hrow' ↦ hmem (.inl hrow')) r hr
      rcases List.mem_cons.mp hr with rfl | hr
      · refine hh.fits (hmem (.inr (.inl rfl))) fun under hunder j e he ↦ ?_
        obtain rfl := Option.some.inj hunder
        simp only
        split_ifs with hj
        · subst hj
          obtain rfl : d = e := Option.some.inj (hd.symm.trans he)
          exact ⟨hk.symm, fun _ ↦ hraw.trans (by decide)⟩
        · rw [filler_eq he]
          refine ⟨StorageKind.decode_kind _ _, fun hek ↦ ?_⟩
          rw [hek]
          decide
      · exact hh.fits_byRow (fun row' hrow' ↦ hmem (.inr (.inr hrow'))) r hr)
    (fun j e he hek ↦ by
      have hpre := length_inBulk_le he hek pre
      have hpost := length_byRow_le post j
      have hhalf := hh j e he hek
      have hrow := length_raw_le
        ⟨row, some fun j ↦ if j = i then .string raw else filler t.cols j⟩ j
      have hunder : (if j = i then Value.string raw else filler t.cols j).bytes.length
          < 2 ^ 31 := by
        split_ifs
        · exact hraw
        · rw [filler_eq he, hek]
          decide
      rw [column, cellBytes, hrows, List.map_append, List.map_append, List.sum_append,
        List.map_cons, List.map_cons, List.sum_cons] at hhalf
      rw [withBytes, List.map_append, List.sum_append, List.map_cons, List.sum_cons]
      rw [cellBytes] at hpre hpost
      simp only [Option.elim_some] at hrow
      omega)
  refine ⟨run, b, w, ?_⟩
  have hentry : RoutedRow.entry .string i
      ⟨row, some fun j ↦ if j = i then .string raw else filler t.cols j⟩ = ⟨true, false, raw⟩ := by
    simp [RoutedRow.entry, Entry.ofBatch, hnull, Value.bytes]
  rw [hhist i d hd, hk, withBytes, List.map_append, List.map_cons, hentry, byRow, List.map_map]
  rfl

/-- In a column of strings no value stands behind a null if all ways count the same runs. -/
theorem statsSound_of_same (hh : t.HalfFull) (hdesc : t.StatsDescribe) (hd : t.cols[i]? = some d)
    (hk : d.kind = .string) : StatsSound d.kind (t.column i) := by
  rw [StatsSound, if_pos hk, column, List.pairwise_map]
  have htrans : IsTrans (ℕ → Option Value) fun row row' ↦ row i = none → row' i = none :=
    ⟨fun _ _ _ h h' hnone ↦ h' (h hnone)⟩
  rw [← List.isChain_iff_pairwise, List.isChain_iff_forall_rel_of_append_cons_cons]
  intro row row' pre post hrows hnull
  by_contra hne
  obtain ⟨v, hv⟩ := Option.ne_none_iff_exists'.mp hne
  have hrow' : row' ∈ t.rows := by simp [hrows]
  have hvk := (t.kind row' hrow' i d v hd hv).trans hk
  obtain ⟨s, rfl⟩ : ∃ s, v = .string s := by
    cases v <;> first | exact ⟨_, rfl⟩ | cases hvk
  have hs : s.length < 2 ^ 31 := by
    have hmem : s.length ∈ (t.column i).map fun cell ↦ cell.elim 0 (·.bytes.length) :=
      List.mem_map.mpr ⟨some (.string s), List.mem_map.mpr ⟨row', hrow', hv⟩, rfl⟩
    exact (List.le_sum_of_mem hmem).trans_lt (hh i d hd hk)
  -- other bytes than those of the string
  obtain ⟨raw, hraw, hlen⟩ : ∃ raw, s ≠ raw ∧ raw.length < 2 ^ 31 := by
    rcases s with _ | ⟨x, s⟩
    · exact ⟨[0], by simp, by decide⟩
    · exact ⟨[], by simp, by decide⟩
  obtain ⟨run, b, w, hhist⟩ := exists_way_withBytes hh hd hk hrows hnull hlen
  obtain ⟨run', b', w', hhist'⟩ := exists_way_withBytes hh hd hk hrows hnull hs
  have hstats := ((w.columnStats 0).2 i d hd).1
  have hstats' := ((w'.columnStats 0).2 i d hd).1
  rw [hdesc.same run b run' b' 0 0 w w', hstats', hhist, hhist', hk, List.map_cons, hv] at hstats
  have hcount := runCount_behind_null ((inBulk t.cols pre).map (RoutedRow.entry .string i))
    (post.map fun row ↦ .ofRow .string (row i)) (e := .ofRow .string (some (.string s)))
    rfl (fun e he ↦ by
      rcases List.mem_cons.mp he with rfl | he
      · rfl
      · obtain ⟨row, -, rfl⟩ := List.mem_map.mp he
        exact Entry.bulk_ofRow .string (row i)) hraw
  have hruns := congrArg ColumnStats.runCount (Option.some.inj hstats)
  simp only [Entry.ofRow, Value.bytes] at hcount hruns
  omega

/-- The statistics of a sound table describe its columns and do not depend on the way it is
appended to a new builder. A table that is not sound has a way along which they fail, as long as
there is room for a second copy of a string. -/
theorem statsDescribe_iff (t : Table) :
    (t.ColumnsSound → t.StatsDescribe) ∧ (t.HalfFull → t.StatsDescribe → t.ColumnsSound) := by
  refine ⟨statsDescribe_of_columnsSound, fun hh hdesc i d hd ↦ ?_⟩
  by_cases hk : d.kind = .string
  · exact statsSound_of_same hh hdesc hd hk
  · exact statsSound_of_describes hh hdesc hd hk

/-- Two columns of three rows, each with a null that no value or a change of values follows. -/
def gaps : Table where
  cols := [⟨0, .int64, "count"⟩, ⟨1, .string, "name"⟩]
  rows := [([some (.int64 1), some (.string [97])].getD · none),
    ([none, some (.string [98])].getD · none), ([some (.int64 2), none].getD · none)]
  kind := by
    intro row hrow i d v hd hv
    simp only [List.mem_cons, List.not_mem_nil, or_false] at hrow
    rcases i with _ | _ | i
    · obtain rfl := Option.some.inj hd
      rcases hrow with rfl | rfl | rfl <;> cases hv <;> rfl
    · obtain rfl := Option.some.inj hd
      rcases hrow with rfl | rfl | rfl <;> cases hv <;> rfl
    · cases hd

theorem statsDescribe_iff_gaps : gaps.StatsDescribe := by
  refine (statsDescribe_iff gaps).1 fun i d hd ↦ ?_
  rcases i with _ | _ | i
  · obtain rfl := Option.some.inj hd
    have hcolumn : gaps.column 0 = [some (.int64 1), none, some (.int64 2)] := rfl
    have hdoubles : doubles (gaps.column 0) = [0x3FF0000000000000, 0x4000000000000000] := by
      decide +kernel
    rw [StatsSound, if_neg (by decide), hdoubles, hcolumn]
    refine .inr ⟨by simp; decide, ⟨_, List.mem_cons_self, by decide⟩,
      ⟨_, List.mem_cons_self, by decide⟩, ?_⟩
    rw [if_neg (by decide)]
    intro hp
    exact absurd (List.pairwise_cons.mp hp).1 (by simp; decide)
  · obtain rfl := Option.some.inj hd
    have hcolumn : gaps.column 1 = [some (.string [97]), some (.string [98]), none] := rfl
    rw [StatsSound, if_pos (by decide), hcolumn]
    simp
  · cases hd

/-- A value that follows a null: added by a row call it is taken for a change, and the column for
one that is not constant. -/
theorem not_statsDescribe_lateValue : ¬ ∀ t : Table, t.StatsDescribe := by
  intro hall
  set t : Table :=
    { cols := [⟨0, .int64, "count"⟩]
      rows := [([none].getD · none), ([some (.int64 5)].getD · none)]
      kind := by
        intro row hrow i d v hd hv
        simp only [List.mem_cons, List.not_mem_nil, or_false] at hrow
        rcases i with _ | i
        · obtain rfl := Option.some.inj hd
          rcases hrow with rfl | rfl
          · cases hv
          · cases hv
            rfl
        · cases hd } with ht
  have hstats : (List.foldlM Append.run (new 1 0 t.cols 1024)
      [.row 10 [.setNull 0], .row 20 [.set 0 (.int64 5)]]).map
        (fun b ↦ (b.sealChunk 1).stats.columnStats.map (·.isConstant)) = some [false] := by
    decide +kernel
  obtain ⟨b, hrun, hconst⟩ := Option.map_eq_some_iff.mp hstats
  have w : t.Way [.row 10 [.setNull 0], .row 20 [.set 0 (.int64 5)]] b := by
    refine ⟨by simp [Append.WellFormed], ⟨1, 0, 1024, hrun⟩, fun i hi ↦ ?_, fun i d hd hk ↦ ?_⟩
    · obtain rfl : i = 0 := by simpa [ht] using hi
      rfl
    · obtain rfl := List.mem_singleton.mp (List.mem_of_getElem? hd)
      exact absurd hk (by decide)
  obtain ⟨s, hs, hdescribes⟩ := (hall t).describes _ b 1 w 0 _ rfl
  have hfalse : s.isConstant = false := by
    have := congrArg (·[0]?) hconst
    simpa [hs] using this
  have htrue : s.isConstant = true := hdescribes.isConstant.mpr (by decide)
  rw [hfalse] at htrue
  cases htrue

end Table

end PlotJuggler
