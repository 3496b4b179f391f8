import Mathlib.Algebra.BigOperators.Group.List.Defs
import Mathlib.Algebra.Group.Action.Defs
import PlotJugglerCore.Store.Bulk
import PlotJugglerCore.Store.TimeOrder

/-!
# Splitting a batch

`appendColumns` on any builder a run of the system can leave behind, also one whose columns earlier
calls have filled unevenly. The rows are what the readers return: `Column.cells` for a sealed chunk,
`TypedColumnBuffer.cells` for a builder. `ColumnBuilder.Extends` says what a slice does to a column,
and `Split` what the loop does as a whole: fill the builder up, seal it, go on with a fresh one.

With room for a row in a chunk the loop ends and the rows are split without loss, except that
sealing may turn a column into a constant that is none (`ColumnBuilder.SealsTruly`). Without room it
never ends.
-/

namespace PlotJuggler

open TypedColumnBuffer (Slot byteCount)

/-! ## Rows as they read -/

/-- A value as the readers return it: they know no `float` and no `int32_t`. -/
def Value.widen : Value → Value
  | .float32 v => .float64 (.ofBinary32 v)
  | .int32 v => .int64 v.toInt64
  | v => v

/-- What the typed reader of a column returns. -/
def Column.read (col : Column) (row : ℕ) : Option Value :=
  match col.descriptor.kind with
  | .float32 | .float64 => some (.float64 (col.readNumericAsDouble row))
  | .int32 | .int64 => some (.int64 (col.readNumericAsInt64 row))
  | .uint64 => some (.uint64 (col.readNumericAsUint64 row))
  | .bool => some (.bool (col.readBool row))
  | .string => (col.readString row).map .string

def Column.cell (col : Column) (row : ℕ) : Option Value :=
  if col.isNull row then none else col.read row

def Column.cells (col : Column) : List (Option Value) := (List.range col.rowCount).map col.cell

def TopicChunk.cells (chunk : TopicChunk) (i : ℕ) : List (Option Value) :=
  (chunk.columns[i]?.map Column.cells).getD []

/-- The bytes of one row of a buffer. -/
def TypedColumnBuffer.read (b : TypedColumnBuffer) (row : ℕ) : List UInt8 :=
  if b.kind = .string then b.readString row else b.readFixed row

def TypedColumnBuffer.cell (b : TypedColumnBuffer) (row : ℕ) : Option Value :=
  if b.isValid row then some (b.kind.decode (b.read row)).widen else none

def TypedColumnBuffer.cells (b : TypedColumnBuffer) : List (Option Value) :=
  (List.range b.rowCount).map b.cell

def TopicChunkBuilder.cells (b : TopicChunkBuilder) (i : ℕ) : List (Option Value) :=
  (b.columns[i]?.map (·.buffer.cells)).getD []

/-- The rows a column of a batch adds. -/
def ColumnData.cells (col : ColumnData) : List (Option Value) :=
  (batchCells col.data col.bitmap).map (Option.map Value.widen)

/-- The rows a batch adds to column `i`. -/
def batchCellsAt (batch : List ColumnData) (i : ℕ) : List (Option Value) :=
  ((batch.find? fun col ↦ col.colIndex = i).map ColumnData.cells).getD []

/-- What a slot reads as in a column of kind `k`. -/
def TypedColumnBuffer.Slot.cell (k : StorageKind) (s : Slot) : Option Value :=
  if s.valid then some (k.decode s.raw).widen else none

theorem Entry.cell_slot (k : StorageKind) (e : Entry) :
    e.slot.cell k = (e.cell k).map Value.widen := by
  rw [Slot.cell, Entry.cell, Entry.slot]
  split_ifs <;> rfl

/-- The cells of a batch are those of the slots it adds. -/
theorem ColumnData.cells_eq (col : ColumnData) :
    col.cells = (col.entries.map Entry.slot).map (Slot.cell col.data.kind) := by
  rw [cells, ← map_cell_batchEntries, ← entries, List.map_map, List.map_map]
  exact List.map_congr_left fun e _ ↦ (Entry.cell_slot _ e).symm

namespace TypedColumnBuffer

variable {b : TypedColumnBuffer} {slots : List Slot}

theorem Holds.read (hb : b.Holds slots) (hbytes : b.kind = .string → byteCount slots < 2 ^ 32)
    {row : ℕ} {s : Slot} (hs : slots[row]? = some s) : b.read row = s.raw := by
  have hget : (slots.map Slot.raw).getD row [] = s.raw := by
    rw [List.getD_eq_getElem?_getD, List.getElem?_map, hs]
    rfl
  rw [TypedColumnBuffer.read]
  split_ifs with hk
  · rw [hb.readString hk (hbytes hk) (List.getElem?_eq_some_iff.mp hs).1, hget]
  · rw [hb.readFixed hk, hget]

/-- A buffer reads as the slots it holds. -/
theorem Holds.cells (hb : b.Holds slots) (hbytes : b.kind = .string → byteCount slots < 2 ^ 32) :
    b.cells = slots.map (Slot.cell b.kind) := by
  rw [TypedColumnBuffer.cells, hb.rowCount]
  apply List.ext_getElem
  · simp
  intro row hrow hrow'
  have hlt : row < slots.length := by simpa using hrow
  have hs : slots[row]? = some slots[row] := List.getElem?_eq_getElem hlt
  have hvalid := hb.isValid hlt
  rw [List.getD_eq_getElem?_getD, List.getElem?_map, hs, Option.map_some,
    Option.getD_some] at hvalid
  rw [List.getElem_map, List.getElem_range, List.getElem_map, TypedColumnBuffer.cell, Slot.cell,
    hvalid, hb.read hbytes hs]

end TypedColumnBuffer

/-! ## Sealing a column -/

/-- The kinds that `seal` encodes as the statistics say. -/
def StorageKind.TrustsStats (k : StorageKind) : Prop :=
  k = .uint64 ∨ k = .bool ∨ k = .float32 ∨ k = .float64

instance : DecidablePred StorageKind.TrustsStats := fun k ↦
  inferInstanceAs (Decidable (k = .uint64 ∨ k = .bool ∨ k = .float32 ∨ k = .float64))

namespace ColumnBuilder

variable {c c' : ColumnBuilder} {slots : List Slot} {row : ℕ} {s s₀ : Slot}

/-- The bytes a sealed column shows for a slot. -/
def shown (c : ColumnBuilder) (s₀ s : Slot) : List UInt8 :=
  if c.kind.TrustsStats ∧ c.stats.isConstant = true then s₀.raw else s.raw

theorem shown_of_trustsStats (hk : c.kind.TrustsStats) :
    c.shown s₀ s = if c.stats.isConstant then s₀.raw else s.raw := by
  rw [shown]
  exact if_congr (and_iff_right hk) rfl rfl

theorem read_sealColumn (hb : c.buffer.Holds slots)
    (hbytes : c.kind = .string → byteCount slots < 2 ^ 32) (hs : slots[row]? = some s)
    (hs₀ : slots[0]? = some s₀) :
    c.sealColumn.read row = some (c.kind.decode (c.shown s₀ s)).widen := by
  have hdesc : c.sealColumn.descriptor.kind = c.kind := rfl
  rw [Column.read, hdesc]
  rcases hk : c.kind
  case float32 =>
    have hread := readNumericAsDouble_sealColumn hb (.inl hk) hs hs₀
    rw [hk] at hread
    simp only [hread, shown_of_trustsStats (show c.kind.TrustsStats by rw [hk]; decide)]
    rfl
  case float64 =>
    have hread := readNumericAsDouble_sealColumn hb (.inr hk) hs hs₀
    rw [hk] at hread
    simp only [hread, shown_of_trustsStats (show c.kind.TrustsStats by rw [hk]; decide)]
    rfl
  case uint64 =>
    have hread := readNumericAsUint64_sealColumn hb hk hs hs₀
    rw [hk] at hread
    simp only [hread, shown_of_trustsStats (show c.kind.TrustsStats by rw [hk]; decide)]
    rfl
  case bool =>
    simp only [readBool_sealColumn hb hk hs hs₀,
      shown_of_trustsStats (show c.kind.TrustsStats by rw [hk]; decide)]
    rfl
  case int32 =>
    have hread := readsBack_integer hb (.inl hk) hs
    rw [hk] at hread
    have hshown : c.shown s₀ s = s.raw := if_neg fun h ↦ absurd (hk ▸ h.1) (by decide)
    rw [hshown]
    exact congrArg (fun x ↦ some (Value.int64 x)) hread
  case int64 =>
    have hread := readsBack_integer hb (.inr hk) hs
    rw [hk] at hread
    have hshown : c.shown s₀ s = s.raw := if_neg fun h ↦ absurd (hk ▸ h.1) (by decide)
    rw [hshown]
    exact congrArg (fun x ↦ some (Value.int64 x)) hread
  case string =>
    have hread : c.sealColumn.readString row = some s.raw :=
      readsBack_string hb hk (hbytes hk) hs
    have hshown : c.shown s₀ s = s.raw := if_neg fun h ↦ absurd (hk ▸ h.1) (by decide)
    rw [hshown]
    simp only [hread, Option.map_some]
    rfl

/-- A sealed column has the rows of its buffer. -/
theorem rowCount_sealColumn (hb : c.buffer.Holds slots) :
    c.sealColumn.rowCount = slots.length := by
  have hlength : c.kind ≠ .string →
      c.buffer.values.length = c.buffer.rowCount * storageKindSize c.kind := by
    intro hk
    rw [hb.values, hb.rowCount, List.length_flatten, List.map_map, List.sum_eq_card_nsmul _
      (storageKindSize c.kind), List.length_map, smul_eq_mul]
    intro x hx
    obtain ⟨s, hs, rfl⟩ := List.mem_map.mp hx
    exact hb.size hk s hs
  have hraw : c.kind ≠ .string →
      c.buffer.values.length / storageKindSize c.kind = c.buffer.rowCount := by
    intro hk
    have hsize : 0 < storageKindSize c.kind := by
      revert hk
      cases c.kind <;> decide
    rw [hlength hk, Nat.mul_div_cancel _ hsize]
  have hdesc : c.buffer.descriptor.kind = c.kind := rfl
  rw [← hb.rowCount, Column.rowCount, sealColumn, encode, hdesc]
  rcases hk : c.kind
  case string =>
    simp only
    by_cases hzero : c.buffer.rowCount = 0
    · rw [dictionaryEncodeStrings, if_pos hzero, hzero]
    · rw [dictionaryEncodeStrings_eq _ _ hzero, encodeKeys]
      simp
  case bool =>
    have htake := hlength (by rw [hk]; decide)
    rw [hk, storageKindSize, Nat.mul_one] at htake
    simp only
    split_ifs
    · rfl
    · simp [packBools, htake]
  case int32 =>
    have hraw := hraw (by rw [hk]; decide)
    rw [hk] at hraw
    simp only [encodeInteger, encodeInteger.encodeValues]
    split_ifs
    · rfl
    · rfl
    · exact hraw
  case int64 =>
    have hraw := hraw (by rw [hk]; decide)
    rw [hk] at hraw
    simp only [encodeInteger, encodeInteger.encodeValues]
    split_ifs
    · rfl
    · rfl
    · exact hraw
  all_goals
    have hraw := hraw (by rw [hk]; decide)
    rw [hk] at hraw
    simp only
    split_ifs
    · rfl
    · exact hraw

/-- The columns that read as what was put in: if the statistics of a column that trusts them say
that it is constant, all its values are what lies in row zero. -/
theorem cells_sealColumn_iff (hb : c.buffer.Holds slots)
    (hbytes : c.kind = .string → byteCount slots < 2 ^ 32) (hs₀ : slots[0]? = some s₀) :
    c.sealColumn.cells = slots.map (Slot.cell c.kind) ↔
      (c.kind.TrustsStats → c.stats.isConstant = true → ∀ s ∈ slots, s.valid = true →
        (c.kind.decode s.raw).widen = (c.kind.decode s₀.raw).widen) := by
  have hcell : ∀ row s, slots[row]? = some s → c.sealColumn.cell row
      = if s.valid then some (c.kind.decode (c.shown s₀ s)).widen else none := by
    intro row s hs
    rw [Column.cell, isNull_sealColumn hb hs, read_sealColumn hb hbytes hs hs₀]
    cases s.valid <;> rfl
  have hcells : c.sealColumn.cells = slots.map fun s ↦
      if s.valid then some (c.kind.decode (c.shown s₀ s)).widen else none := by
    rw [Column.cells, rowCount_sealColumn hb]
    apply List.ext_getElem
    · simp
    intro row hrow hrow'
    have hlt : row < slots.length := by simpa using hrow
    rw [List.getElem_map, List.getElem_range, List.getElem_map,
      hcell row _ (List.getElem?_eq_getElem hlt)]
  rw [hcells, List.map_inj_left]
  constructor
  · intro hall hk hconst s hs hv
    have := hall s hs
    rw [Slot.cell, if_pos hv, if_pos hv, Option.some.injEq, shown, if_pos ⟨hk, hconst⟩] at this
    exact this.symm
  · intro htrue s hs
    rw [Slot.cell, shown]
    by_cases hv : s.valid = true
    · rw [if_pos hv, if_pos hv]
      split_ifs with hk
      · rw [htrue hk.1 hk.2 s hs hv]
      · rfl
    · rw [if_neg hv, if_neg hv]

/-! ### Behind a slice -/

/-- What lies in row zero once `new` is behind. -/
def rowZero (c : ColumnBuilder) (new : List Entry) : List UInt8 :=
  if 0 < c.buffer.rowCount then c.buffer.read 0 else (new.head?.map Entry.raw).getD []

/-- Sealed with `new` behind, the column is no constant that it should not be. -/
def SealsTruly (c : ColumnBuilder) (new : List Entry) : Prop :=
  c.kind.TrustsStats → (new.foldl (Scan.step c.kind) c.beliefs).isConstant = true →
    ∀ x, some x ∈ c.buffer.cells ++ new.map (fun e ↦ e.slot.cell c.kind) →
      x = (c.kind.decode (c.rowZero new)).widen

/-- The strings of the column can be addressed with 32 bits, also with `new` behind. -/
def Addressable (c : ColumnBuilder) (new : List Entry) : Prop :=
  c.kind = .string → c.buffer.values.length + (new.map Entry.raw).flatten.length < 2 ^ 32

variable {new : List Entry}

theorem Extends.kind (h : c.Extends new c') : c'.kind = c.kind :=
  congrArg ColumnDescriptor.kind h.descriptor

theorem Extends.rowCount (h : c.Extends new c') (hb : c.buffer.Holds slots) :
    c'.buffer.rowCount = c.buffer.rowCount + new.length := by
  rw [(h.holds slots hb).rowCount, hb.rowCount, List.length_append, List.length_map]

theorem Addressable.byteCount (ha : c.Addressable new) (hb : c.buffer.Holds slots) :
    c.kind = .string → byteCount (slots ++ new.map Entry.slot) < 2 ^ 32 := by
  intro hk
  have hlt := ha hk
  have hraws : (new.map Entry.slot).map Slot.raw = new.map Entry.raw := by
    rw [List.map_map]
    rfl
  rw [TypedColumnBuffer.byteCount, List.map_append, hraws, List.flatten_append,
    List.length_append, ← hb.values]
  exact hlt

theorem Addressable.old (ha : c.Addressable new) (hb : c.buffer.Holds slots) :
    c.kind = .string → TypedColumnBuffer.byteCount slots < 2 ^ 32 := by
  intro hk
  have hlt := ha hk
  rw [TypedColumnBuffer.byteCount, ← hb.values]
  omega

/-- A slice adds its cells. -/
theorem Extends.cells (h : c.Extends new c') (hb : c.buffer.Holds slots) (ha : c.Addressable new) :
    c'.buffer.cells = c.buffer.cells ++ new.map fun e ↦ e.slot.cell c.kind := by
  have hkind : c'.buffer.kind = c.buffer.kind := h.kind
  rw [(h.holds slots hb).cells (hkind ▸ ha.byteCount hb), hkind, List.map_append,
    hb.cells (ha.old hb), List.map_map]
  rfl

theorem Extends.length_cells_sealColumn (h : c.Extends new c') (hb : c.buffer.Holds slots) :
    c'.sealColumn.cells.length
      = (c.buffer.cells ++ new.map fun e ↦ e.slot.cell c.kind).length := by
  rw [Column.cells, List.length_map, List.length_range,
    rowCount_sealColumn (h.holds slots hb)]
  simp [TypedColumnBuffer.cells, hb.rowCount]

/-- A column that is sealed behind a slice reads as its rows exactly when it is sealed truly. -/
theorem Extends.cells_sealColumn_iff (h : c.Extends new c') (hb : c.buffer.Holds slots)
    (ha : c.Addressable new) (hne : new ≠ []) :
    c'.sealColumn.cells = c.buffer.cells ++ new.map (fun e ↦ e.slot.cell c.kind)
      ↔ c.SealsTruly new := by
  have hheld := h.holds slots hb
  have hbytes : c'.kind = .string →
      TypedColumnBuffer.byteCount (slots ++ new.map Entry.slot) < 2 ^ 32 := h.kind ▸ ha.byteCount hb
  have hpos : 0 < (slots ++ new.map Entry.slot).length := by
    rw [List.length_append, List.length_map]
    exact Nat.lt_of_lt_of_le (List.length_pos_iff.mpr hne) (Nat.le_add_left _ _)
  have hs₀ := List.getElem?_eq_getElem hpos
  have hcells : c.buffer.cells ++ new.map (fun e ↦ e.slot.cell c.kind)
      = (slots ++ new.map Entry.slot).map (Slot.cell c'.kind) := by
    rw [← h.cells hb ha]
    exact hheld.cells hbytes
  -- row zero is the first of the old rows, or else of the new ones
  have hzero : c.rowZero new = (slots ++ new.map Entry.slot)[0].raw := by
    rw [rowZero, hb.rowCount]
    rcases slots with _ | ⟨s, rest⟩
    · obtain ⟨e, new', rfl⟩ := List.exists_cons_of_ne_nil hne
      rfl
    · have hold : 0 < (s :: rest).length := Nat.succ_pos _
      rw [if_pos hold, hb.read (ha.old hb) rfl]
      rfl
  rw [hcells, ColumnBuilder.cells_sealColumn_iff hheld hbytes hs₀, SealsTruly, hcells, hzero,
    h.kind]
  refine forall_congr' fun hk ↦ ?_
  have hconst : c'.stats.isConstant = (new.foldl (Scan.step c.kind) c.beliefs).isConstant := by
    have hne : c.kind ≠ .string := by
      rintro hs
      rw [hs] at hk
      exact absurd hk (by decide)
    rw [← h.beliefs hne]
    rfl
  rw [hconst]
  refine forall_congr' fun _ ↦ ⟨fun hall x hx ↦ ?_, fun hall s hs hv ↦ ?_⟩
  · obtain ⟨s, hs, hcell⟩ := List.mem_map.mp hx
    rw [Slot.cell] at hcell
    split_ifs at hcell with hv
    rw [← Option.some.inj hcell]
    exact hall s hs hv
  · refine hall _ (List.mem_map.mpr ⟨s, hs, ?_⟩)
    rw [Slot.cell, if_pos hv]

end ColumnBuilder

/-! ## A slice into a builder -/

namespace TopicChunkBuilder

/-- Builder `b'` is `b` with a slice behind: `ts`, and `new i` in column `i`. -/
structure Extends (b : TopicChunkBuilder) (ts : List Timestamp) (new : ℕ → List Entry)
    (b' : TopicChunkBuilder) : Prop where
  after : AfterBatch b b' ts
  length : b'.columns.length = b.columns.length
  column : ∀ (i : ℕ) (c : ColumnBuilder), b.columns[i]? = some c →
    ∃ c', b'.columns[i]? = some c' ∧ c.Extends (new i) c'

/-- A builder between two calls, whatever the calls before have put into its columns. -/
structure Regular (b : TopicChunkBuilder) : Prop where
  holds : ∀ c ∈ b.columns, ∃ slots, c.buffer.Holds slots
  timestamps : b.timestamps.length = b.rowCount
  fresh : b.rowInProgress = false → b.rowCount = 0 → b.lastTimestamp = Int64.minValue

/-- A batch of `n` rows with data for each column once, in any order. -/
structure Takes (b : TopicChunkBuilder) (n : ℕ) (batch : List ColumnData) : Prop where
  once : (batch.map (·.colIndex)).Perm (List.range b.columns.length)
  supplies : ∀ col ∈ batch, ∀ c, b.columns[col.colIndex]? = some c → col.Supplies c.kind n

variable {b b' : TopicChunkBuilder} {n : ℕ} {batch : List ColumnData}

theorem Takes.nodup (h : b.Takes n batch) : (batch.map (·.colIndex)).Nodup :=
  h.once.nodup_iff.mpr List.nodup_range

theorem Takes.exists_column (h : b.Takes n batch) {i : ℕ} {c : ColumnBuilder}
    (hc : b.columns[i]? = some c) : ∃ col ∈ batch, col.colIndex = i ∧ col.Supplies c.kind n := by
  have hi : i ∈ batch.map (·.colIndex) :=
    h.once.mem_iff.mpr (List.mem_range.mpr (List.getElem?_eq_some_iff.mp hc).1)
  obtain ⟨col, hcol, rfl⟩ := List.mem_map.mp hi
  exact ⟨col, hcol, rfl, h.supplies col hcol c hc⟩

theorem Takes.exists_builder (h : b.Takes n batch) {col : ColumnData} (hcol : col ∈ batch) :
    ∃ c, b.columns[col.colIndex]? = some c ∧ col.Supplies c.kind n := by
  have hlt : col.colIndex < b.columns.length :=
    List.mem_range.mp (h.once.mem_iff.mp (List.mem_map_of_mem hcol))
  have hc := List.getElem?_eq_getElem hlt
  exact ⟨_, hc, h.supplies col hcol _ hc⟩

/-- What a builder takes only depends on the descriptors of its columns. -/
theorem Takes.congr (h : b.Takes n batch)
    (hsame : b'.columns.map (·.buffer.descriptor) = b.columns.map (·.buffer.descriptor)) :
    b'.Takes n batch := by
  have hlen : b'.columns.length = b.columns.length := by
    simpa using congrArg List.length hsame
  refine ⟨hlen ▸ h.once, fun col hcol c' hc' ↦ ?_⟩
  obtain ⟨c, hc, hs⟩ := h.exists_builder hcol
  have hdesc := congrArg (·[col.colIndex]?) hsame
  simp only [List.getElem?_map, hc, hc', Option.map_some, Option.some.injEq] at hdesc
  have hkind : c'.kind = c.kind := congrArg ColumnDescriptor.kind hdesc
  exact hkind ▸ hs

end TopicChunkBuilder

/-- The rows a batch adds to the column with index `i`. -/
def batchEntriesAt (batch : List ColumnData) (i : ℕ) : List Entry :=
  ((batch.find? fun col ↦ col.colIndex = i).map ColumnData.entries).getD []

theorem find?_colIndex {batch : List ColumnData} (hnodup : (batch.map (·.colIndex)).Nodup)
    {col : ColumnData} (hcol : col ∈ batch) :
    batch.find? (fun c ↦ c.colIndex = col.colIndex) = some col := by
  have hhead := congrArg List.head? (TopicView.filter_colIndex_eq hnodup hcol)
  rwa [List.head?_filter, List.head?_cons] at hhead

theorem batchEntriesAt_eq {batch : List ColumnData} (hnodup : (batch.map (·.colIndex)).Nodup)
    {col : ColumnData} (hcol : col ∈ batch) : batchEntriesAt batch col.colIndex = col.entries := by
  rw [batchEntriesAt, find?_colIndex hnodup hcol]
  rfl

theorem batchCellsAt_eq {batch : List ColumnData} (hnodup : (batch.map (·.colIndex)).Nodup)
    {col : ColumnData} (hcol : col ∈ batch) {k : StorageKind} {n : ℕ} (hs : col.Supplies k n) :
    batchCellsAt batch col.colIndex = col.entries.map fun e ↦ e.slot.cell k := by
  rw [batchCellsAt, find?_colIndex hnodup hcol, Option.map_some, Option.getD_some,
    ColumnData.cells_eq, hs.kind, List.map_map]
  rfl

namespace TopicChunkBuilder

variable {b b' : TopicChunkBuilder} {n : ℕ} {batch : List ColumnData} {ts : List Timestamp}

theorem Takes.length_batchEntriesAt (h : b.Takes n batch) {i : ℕ} {c : ColumnBuilder}
    (hc : b.columns[i]? = some c) : (batchEntriesAt batch i).length = n := by
  obtain ⟨col, hcol, rfl, hs⟩ := h.exists_column hc
  rw [batchEntriesAt_eq h.nodup hcol, hs.length_entries]

/-- A round of the loop: the slice goes in, and stands behind what there was. -/
theorem Takes.exists_extends (h : b.Takes ts.length batch) (hb : b.Regular)
    (hidle : b.rowInProgress = false) (hpending : b.bulkPendingRows = 0) {o m : ℕ} (hm : 0 < m)
    (ho : o + m ≤ ts.length) (horder : ∀ t ∈ ((ts.drop o).take m).head?, b.lastTimestamp ≤ t) :
    ∃ b', b.runBatch ((ts.drop o).take m) (TopicView.sliceCalls batch o m) = some b' ∧
      b.Extends ((ts.drop o).take m) (fun i ↦ ((batchEntriesAt batch i).drop o).take m) b' := by
  have hlen : ((ts.drop o).take m).length = m := by
    rw [List.length_take, List.length_drop]
    omega
  have hsup : ∀ i c, b.columns[i]? = some c → ∃ col ∈ batch, col.colIndex = i ∧
      col.Supplies c.kind ts.length ∧ Supplies (TopicView.sliceCalls batch o m)
        ((ts.drop o).take m).length i (col.data.subspan o m) (col.bitmap.map (·.subspan o m)) := by
    intro i c hc
    obtain ⟨col, hcol, rfl, hs⟩ := h.exists_column hc
    exact ⟨col, hcol, rfl, hs, hlen.symm ▸ TopicView.supplies_sliceCalls h.nodup hcol hs ho⟩
  obtain ⟨b', hb'⟩ : ∃ b', b.runBatch ((ts.drop o).take m) (TopicView.sliceCalls batch o m)
      = some b' := by
    refine exists_runBatch hidle hpending horder (fun k hk ↦ ?_) fun i c hc ↦ ?_
    · rw [TopicView.sliceCalls_eq] at hk
      obtain ⟨col, hcol, hk⟩ := List.mem_flatMap.mp hk
      obtain ⟨c, hc, -⟩ := h.exists_builder hcol
      rw [TopicView.col_of_mem_columnCalls hk]
      exact (List.getElem?_eq_some_iff.mp hc).1
    · obtain ⟨col, -, -, hs, hsup⟩ := hsup i c hc
      obtain ⟨slots, hslots⟩ := hb.holds c (List.mem_of_getElem? hc)
      exact ⟨slots, _, _, hslots, hsup, (ColumnSpan.kind_subspan _ _ _).trans hs.kind,
        ColumnSpan.inBounds_subspan hs.inBounds⟩
  refine ⟨b', hb', ?_⟩
  obtain ⟨hafter, hlength, hcols⟩ := runBatch_eq_some hpending hb'
  refine ⟨hafter, hlength, fun i c hc ↦ ?_⟩
  obtain ⟨col, hcol, rfl, hs, hsup⟩ := hsup i c hc
  obtain ⟨slots, hslots⟩ := hb.holds c (List.mem_of_getElem? hc)
  obtain ⟨c₁, c', hc', hfold, hfin⟩ := hcols _ c hc
  obtain ⟨buf, hbuf, rfl⟩ := foldlM_apply_of_supplies hsup hfold
  have hne : (ts.drop o).take m ≠ [] := by
    rw [← List.length_pos_iff, hlen]
    exact hm
  rw [if_neg hne] at hfin
  have hcount := ColumnSpan.rowCount_subspan (d := col.data) (hs.rowCount.symm ▸ ho)
  have hext := ColumnBuilder.extends_batch hslots hsup.2.1
    (fun s hs' ↦ by rw [hsup.2.2.1, hsup.2.2.2 s hs']) hbuf (hsup.2.2.1 ▸ hfin)
  rw [hs.batchEntries_subspan ho] at hext
  exact ⟨c', hc', batchEntriesAt_eq h.nodup hcol ▸ hext⟩

end TopicChunkBuilder

/-! ## Sealing truly at every cut -/

namespace ColumnBuilder

variable {c : ColumnBuilder} {new : List Entry} {cap size : ℕ}

/-- The cuts of `new` behind a column with room for `cap` rows: the column itself is sealed first if
it fills up, and then one column for every `size` rows. -/
def SplitsTruly (c : ColumnBuilder) (cap size : ℕ) (new : List Entry) : Prop :=
  (cap ≤ new.length → c.SealsTruly (new.take cap)) ∧
    ∀ k, cap + (k + 1) * size ≤ new.length →
      (ColumnBuilder.new c.buffer.descriptor).SealsTruly ((new.drop (cap + k * size)).take size)

/-- Without a cut there is nothing to seal. -/
theorem splitsTruly_of_lt (h : new.length < cap) : c.SplitsTruly cap size new :=
  ⟨fun hle ↦ absurd hle (by omega), fun k hk ↦ absurd hk (by omega)⟩

/-- One cut, and the cuts behind it. -/
theorem splitsTruly_iff (h : cap ≤ new.length) : c.SplitsTruly cap size new ↔
    c.SealsTruly (new.take cap) ∧
      (ColumnBuilder.new c.buffer.descriptor).SplitsTruly size size (new.drop cap) := by
  rw [SplitsTruly, SplitsTruly, imp_iff_right h, List.length_drop]
  refine and_congr_right' ⟨fun hall ↦ ⟨fun hsize ↦ ?_, fun k hk ↦ ?_⟩, fun hall k hk ↦ ?_⟩
  · simpa using hall 0 (by omega)
  · have hnext := hall (k + 1) (by rw [Nat.add_mul (k + 1), Nat.one_mul]; omega)
    rwa [Nat.add_mul k, Nat.one_mul, Nat.add_comm (k * size), ← List.drop_drop] at hnext
  · rcases k with _ | k
    · simpa using hall.1 (by omega)
    · have hnext := hall.2 k (by rw [Nat.add_mul (k + 1), Nat.one_mul] at hk; omega)
      rwa [List.drop_drop, ← Nat.one_mul size, Nat.one_mul size, Nat.add_comm size,
        ← Nat.succ_mul] at hnext

theorem Addressable.length_le (ha : c.Addressable new) {new' : List Entry}
    (h : (new'.map Entry.raw).flatten.length ≤ (new.map Entry.raw).flatten.length) :
    c.Addressable new' := fun hk ↦ by
  have := ha hk
  omega

theorem length_raws_take_add_drop (new : List Entry) (m : ℕ) :
    ((new.take m).map Entry.raw).flatten.length + ((new.drop m).map Entry.raw).flatten.length
      = (new.map Entry.raw).flatten.length := by
  rw [← List.length_append, ← List.flatten_append, ← List.map_append, List.take_append_drop]

theorem Addressable.take (ha : c.Addressable new) (m : ℕ) : c.Addressable (new.take m) :=
  ha.length_le (by have := length_raws_take_add_drop new m; omega)

/-- What comes behind a cut is addressable in a fresh column. -/
theorem Addressable.drop (ha : c.Addressable new) (m : ℕ) :
    (ColumnBuilder.new c.buffer.descriptor).Addressable (new.drop m) := by
  intro hk
  have hlt := ha hk
  have hsum := length_raws_take_add_drop new m
  show 0 + _ < _
  omega

end ColumnBuilder

namespace TopicChunkBuilder

/-! ## Filling up and going on -/

/-- What the loop makes of a builder: it fills it up, seals it and goes on with a fresh one, until
the rows are used up. The sealed builders, and the one that is left. -/
inductive Split (size : ℕ) (fresh : TopicChunkBuilder) : TopicChunkBuilder → List Timestamp →
    (ℕ → List Entry) → List TopicChunkBuilder → TopicChunkBuilder → Prop
  | done {b : TopicChunkBuilder} {new : ℕ → List Entry} : Split size fresh b [] new [] b
  | part {b b' : TopicChunkBuilder} {ts : List Timestamp} {new : ℕ → List Entry}
    (h : b.Extends ts new b') (hroom : b'.rowCount < size) : Split size fresh b ts new [] b'
  | full {b b' left : TopicChunkBuilder} {ts : List Timestamp} {new : ℕ → List Entry} {m : ℕ}
    {sealed : List TopicChunkBuilder} (hpos : 0 < m) (hm : m ≤ ts.length)
    (h : b.Extends (ts.take m) (fun i ↦ (new i).take m) b') (hfull : b'.rowCount = size)
    (hrest : Split size fresh fresh (ts.drop m) (fun i ↦ (new i).drop m) sealed left) :
    Split size fresh b ts new (b' :: sealed) left

variable {size topicId schemaId : ℕ} {cols : List ColumnDescriptor} {b b' left : TopicChunkBuilder}
  {ts : List Timestamp} {new : ℕ → List Entry} {sealed : List TopicChunkBuilder}

theorem Extends.rowCount (h : b.Extends ts new b') : b'.rowCount = b.rowCount + ts.length := by
  rw [h.after.frame]

theorem Extends.timestamps (h : b.Extends ts new b') : b'.timestamps = b.timestamps ++ ts := by
  rw [h.after.frame]

theorem Split.rowCount (h : Split size (.new topicId schemaId cols size) b ts new sealed left) :
    ∀ b' ∈ sealed, b'.rowCount = size := by
  induction h with
  | done => simp
  | part => simp
  | full hpos hm h hfull hrest ih => exact List.forall_mem_cons.mpr ⟨hfull, ih⟩

/-- The timestamps are split without loss. -/
theorem Split.timestamps (h : Split size (.new topicId schemaId cols size) b ts new sealed left) :
    sealed.flatMap (·.timestamps) ++ left.timestamps = b.timestamps ++ ts := by
  induction h with
  | done => simp
  | part h hroom => simpa using h.timestamps
  | @full b b' left ts new m sealed hpos hm h hfull hrest ih =>
    have hfresh : (TopicChunkBuilder.new topicId schemaId cols size).timestamps = [] := rfl
    rw [hfresh, List.nil_append] at ih
    rw [List.flatMap_cons, List.append_assoc, ih, h.timestamps, List.append_assoc,
      List.take_append_drop]

theorem cells_of_column {i : ℕ} {c : ColumnBuilder} (hc : b.columns[i]? = some c) :
    b.cells i = c.buffer.cells := by
  rw [cells, hc]
  rfl

/-- The cells of column `i` of a chunk sealed from `b`. -/
theorem cells_sealChunk (b : TopicChunkBuilder) (id i : ℕ) :
    (b.sealChunk id).cells i = (b.columns[i]?.map (·.sealColumn.cells)).getD [] := by
  rw [TopicChunk.cells, sealChunk, List.getElem?_map, Option.map_map]
  rfl

/-- The rows of a column are split without loss exactly when every cut seals it truly. -/
theorem Split.cells_iff (h : Split size (.new topicId schemaId cols size) b ts new sealed left)
    {i : ℕ} {c : ColumnBuilder} {slots : List Slot} (hc : b.columns[i]? = some c)
    (hd : cols[i]? = some c.buffer.descriptor) (hb : c.buffer.Holds slots)
    (hroom : b.rowCount < size) (hlen : (new i).length = ts.length) (ha : c.Addressable (new i)) :
    sealed.flatMap (fun b ↦ (b.columns[i]?.map (·.sealColumn.cells)).getD []) ++ left.cells i
        = b.cells i ++ (new i).map (fun e ↦ e.slot.cell c.kind)
      ↔ c.SplitsTruly (size - b.rowCount) size (new i) := by
  induction h generalizing c slots with
  | done =>
    have hnil := List.length_eq_zero_iff.mp hlen
    rw [hnil]
    exact iff_of_true (by simp) (ColumnBuilder.splitsTruly_of_lt (by simpa using by omega))
  | part h hroom' =>
    have hcount := h.rowCount
    obtain ⟨c', hc', hext⟩ := h.column i c hc
    refine iff_of_true ?_ (ColumnBuilder.splitsTruly_of_lt (by omega))
    rw [List.flatMap_nil, List.nil_append, cells_of_column hc, cells_of_column hc']
    exact hext.cells hb ha
  | @full b b' left ts new m sealed hpos hm h hfull hrest ih =>
    have hcount := h.rowCount
    rw [List.length_take, Nat.min_eq_left hm] at hcount
    have hcap : size - b.rowCount = m := by omega
    obtain ⟨c', hc', hext⟩ := h.column i c hc
    have hfresh : (TopicChunkBuilder.new topicId schemaId cols size).columns[i]?
        = some (ColumnBuilder.new c.buffer.descriptor) := by
      rw [TopicChunkBuilder.new, List.getElem?_map, hd, Option.map_some]
    have hrest : sealed.flatMap (fun b ↦ (b.columns[i]?.map (·.sealColumn.cells)).getD [])
          ++ left.cells i
        = (TopicChunkBuilder.new topicId schemaId cols size).cells i
          ++ ((new i).drop m).map (fun e ↦ e.slot.cell c.kind)
        ↔ (ColumnBuilder.new c.buffer.descriptor).SplitsTruly size size ((new i).drop m) :=
      ih hfresh hd (TypedColumnBuffer.holds_new _) (Nat.zero_lt_of_lt hroom)
        (by rw [List.length_drop, List.length_drop, hlen]) (ha.drop m)
    have hnocells : (TopicChunkBuilder.new topicId schemaId cols size).cells i = [] := by
      rw [cells_of_column hfresh]
      rfl
    rw [hnocells, List.nil_append] at hrest
    have hne : (new i).take m ≠ [] := by
      rw [← List.length_pos_iff, List.length_take]
      omega
    have hseal := hext.cells_sealColumn_iff hb (ha.take m) hne
    rw [hcap, ColumnBuilder.splitsTruly_iff (by omega), ← hseal, ← hrest, List.flatMap_cons, hc',
      Option.map_some, Option.getD_some, cells_of_column hc, List.append_assoc]
    have hsplit : (new i).map (fun e ↦ e.slot.cell c.kind)
        = ((new i).take m).map (fun e ↦ e.slot.cell c.kind)
          ++ ((new i).drop m).map (fun e ↦ e.slot.cell c.kind) := by
      rw [← List.map_append, List.take_append_drop]
    rw [hsplit, ← List.append_assoc c.buffer.cells]
    -- the sealed part is as long as what went into it
    exact ⟨fun heq ↦ List.append_inj heq (hext.length_cells_sealColumn hb),
      fun heq ↦ by rw [heq.1, heq.2]⟩

/-- What every slice keeps holds of every sealed builder. -/
theorem Split.forall_sealed {P : TopicChunkBuilder → Prop}
    (h : Split size (.new topicId schemaId cols size) b ts new sealed left)
    (hfresh : P (.new topicId schemaId cols size))
    (hstep : ∀ b ts new b', P b → (∀ i, i < cols.length → (new i).length = ts.length) →
      b.Extends ts new b' → P b')
    (hlen : ∀ i, i < cols.length → (new i).length = ts.length) (hb : P b) :
    ∀ b' ∈ sealed, P b' := by
  induction h with
  | done => simp
  | part => simp
  | full hpos hm h hfull hrest ih =>
    refine List.forall_mem_cons.mpr ⟨hstep _ _ _ _ hb (fun i hi ↦ ?_) h, ih (fun i hi ↦ ?_) hfresh⟩
    · rw [List.length_take, List.length_take, hlen i hi]
    · rw [List.length_drop, List.length_drop, hlen i hi]

/-! ## Builders between two calls -/

theorem regular_new (topicId schemaId : ℕ) (cols : List ColumnDescriptor) (maxRows : ℕ) :
    (TopicChunkBuilder.new topicId schemaId cols maxRows).Regular where
  holds c hc := by
    obtain ⟨d, -, rfl⟩ := List.mem_map.mp hc
    exact ⟨[], TypedColumnBuffer.holds_new d⟩
  timestamps := rfl
  fresh _ _ := rfl

theorem descriptors_new (topicId schemaId : ℕ) (cols : List ColumnDescriptor) (maxRows : ℕ) :
    (TopicChunkBuilder.new topicId schemaId cols maxRows).columns.map (·.buffer.descriptor)
      = cols := by
  rw [TopicChunkBuilder.new, List.map_map]
  exact List.map_id cols

/-- A builder stays regular when its columns stay readable and its rows are counted. -/
theorem AfterBatch.regular (h : AfterBatch b b' ts) (hb : b.Regular)
    (hholds : ∀ c ∈ b'.columns, ∃ slots, c.buffer.Holds slots) : b'.Regular where
  holds := hholds
  timestamps := by
    rw [h.frame]
    simp [hb.timestamps]
  fresh _ hzero := by
    rw [h.frame] at hzero ⊢
    obtain ⟨hrows, hnil⟩ := Nat.add_eq_zero_iff.mp hzero
    rw [List.length_eq_zero_iff.mp hnil]
    exact hb.fresh h.notInProgress hrows

theorem Extends.exists_column (h : b.Extends ts new b') {c' : ColumnBuilder}
    (hc' : c' ∈ b'.columns) :
    ∃ (i : ℕ) (c : ColumnBuilder), b.columns[i]? = some c ∧ c.Extends (new i) c' := by
  obtain ⟨i, hi⟩ := List.mem_iff_getElem?.mp hc'
  have hlt : i < b.columns.length := h.length ▸ (List.getElem?_eq_some_iff.mp hi).1
  obtain ⟨c₁, hc₁, hext⟩ := h.column i _ (List.getElem?_eq_getElem hlt)
  obtain rfl := Option.some.inj (hc₁.symm.trans hi)
  exact ⟨i, _, List.getElem?_eq_getElem hlt, hext⟩

theorem Extends.regular (h : b.Extends ts new b') (hb : b.Regular) : b'.Regular := by
  refine h.after.regular hb fun c' hc' ↦ ?_
  obtain ⟨i, c, hc, hext⟩ := h.exists_column hc'
  obtain ⟨slots, hslots⟩ := hb.holds c (List.mem_of_getElem? hc)
  exact ⟨_, hext.holds slots hslots⟩

theorem Extends.congr {new' : ℕ → List Entry} (h : b.Extends ts new b')
    (heq : ∀ i, i < b.columns.length → new' i = new i) : b.Extends ts new' b' where
  after := h.after
  length := h.length
  column i c hc := by
    rw [heq i (List.getElem?_eq_some_iff.mp hc).1]
    exact h.column i c hc

/-- Columns that were filled evenly are filled evenly behind a slice. -/
theorem Extends.even (h : b.Extends ts new b') (hb : b.Regular)
    (hlen : ∀ i, i < b.columns.length → (new i).length = ts.length)
    (heven : ∀ c ∈ b.columns, c.buffer.rowCount = b.rowCount) :
    ∀ c ∈ b'.columns, c.buffer.rowCount = b'.rowCount := by
  intro c' hc'
  obtain ⟨i, c, hc, hext⟩ := h.exists_column hc'
  obtain ⟨slots, hslots⟩ := hb.holds c (List.mem_of_getElem? hc)
  rw [hext.rowCount hslots, h.rowCount, heven c (List.mem_of_getElem? hc),
    hlen i (List.getElem?_eq_some_iff.mp hc).1]

/-- Columns that were filled evenly are sealed with a row for every timestamp. -/
theorem Split.rowCount_sealColumn
    (h : Split size (.new topicId schemaId cols size) b ts new sealed left)
    (hb : b.Regular) (hcols : b.columns.length = cols.length)
    (hlen : ∀ i, i < cols.length → (new i).length = ts.length)
    (heven : ∀ c ∈ b.columns, c.buffer.rowCount = b.rowCount) :
    ∀ b' ∈ sealed, ∀ c ∈ b'.columns, c.sealColumn.rowCount = b'.rowCount := by
  have hall := h.forall_sealed
    (P := fun b ↦ b.Regular ∧ b.columns.length = cols.length ∧
      ∀ c ∈ b.columns, c.buffer.rowCount = b.rowCount)
    ⟨regular_new _ _ _ _, by simp [TopicChunkBuilder.new], fun c hc ↦ by
      obtain ⟨d, -, rfl⟩ := List.mem_map.mp hc
      rfl⟩
    (fun b ts new b' ⟨hreg, hlength, heven⟩ hlen hext ↦
      ⟨hext.regular hreg, hext.length.trans hlength, hext.even hreg (hlength ▸ hlen) heven⟩)
    hlen ⟨hb, hcols, heven⟩
  intro b' hb' c hc
  obtain ⟨hreg, -, heven'⟩ := hall b' hb'
  obtain ⟨slots, hslots⟩ := hreg.holds c hc
  rw [ColumnBuilder.rowCount_sealColumn hslots, ← hslots.rowCount, heven' c hc]

end TopicChunkBuilder

/-! ## The loop -/

namespace TopicView

variable {schema : Option TypeTreeNode} {v v' : TopicView} {ts : List Timestamp}
  {batch : List ColumnData}

/-- The columns the writer takes the topic to have. -/
def layout (schema : Option TypeTreeNode) (v : TopicView) : List ColumnDescriptor :=
  (v.ensureColsLoaded schema).writer.columns

/-- The builder that comes behind a sealed one. -/
def freshBuilder (schema : Option TypeTreeNode) (v : TopicView) : TopicChunkBuilder :=
  .new v.storage.topicId v.storage.descriptor.schemaId (v.layout schema)
    v.storage.descriptor.maxChunkRows

/-- A batch that can go in between two rows: data for each column of the topic once, of the right
kind and shape and not before the rows there are. -/
structure Accepts (schema : Option TypeTreeNode) (v : TopicView) (ts : List Timestamp)
    (batch : List ColumnData) : Prop where
  idle : v.isRowInProgress = false
  order : ¬(0 < (v.currentBuilder schema).rowCount ∧
    ∃ t ∈ ts.head?, t < (v.currentBuilder schema).lastTimestamp)
  once : (batch.map (·.colIndex)).Perm (List.range (v.layout schema).length)
  taken : ∀ col ∈ batch, ∃ c, (v.currentBuilder schema).columns[col.colIndex]? = some c ∧
    col.Supplies c.kind ts.length

/-- The strings of every column can be addressed with 32 bits, also with the batch behind. -/
def Addressable (schema : Option TypeTreeNode) (v : TopicView) (batch : List ColumnData) : Prop :=
  ∀ col ∈ batch, ∀ c, (v.currentBuilder schema).columns[col.colIndex]? = some c →
    c.Addressable col.entries

/-- A view as the rounds of the loop meet it. -/
structure Ready (schema : Option TypeTreeNode) (v : TopicView) (n : ℕ) (batch : List ColumnData) :
    Prop where
  fits : v.Fits
  idle : (v.currentBuilder schema).rowInProgress = false
  regular : (v.currentBuilder schema).Regular
  descriptors :
    (v.currentBuilder schema).columns.map (·.buffer.descriptor) = v.layout schema
  takes : (v.currentBuilder schema).Takes n batch

theorem appendLoop_of_length_le {fuel o : ℕ} (ho : ts.length ≤ o) :
    appendLoop schema ts batch fuel o v = some v := by
  cases fuel <;> rw [appendLoop, if_neg (by omega)]

/-- With room for a row in a chunk, every round takes one. -/
theorem batchSize_pos_of_fits (hv : v.Fits) (hmax : 0 < v.storage.descriptor.maxChunkRows) {n o : ℕ}
    (ho : o < n) : 0 < v.batchSize schema n o := by
  have hfit : (v.currentBuilder schema).Fits v.storage.descriptor.maxChunkRows := hv.currentBuilder
  rw [batchSize, TopicChunkBuilder.remainingCapacity, hfit.maxRows]
  rcases hfit.room with hroom | hroom <;> omega

theorem layout_putBack {b : TopicChunkBuilder} :
    ((v.getOrCreateBuilder schema).putBack b).layout schema = v.layout schema :=
  columns_getOrCreateBuilder (by simp) (by simp)

theorem currentBuilder_stage {b : TopicChunkBuilder} :
    ((v.getOrCreateBuilder schema).stage b).currentBuilder schema = v.freshBuilder schema := by
  have hlayout : ((v.getOrCreateBuilder schema).stage b).layout schema = v.layout schema :=
    columns_getOrCreateBuilder (by simp) (by simp)
  rw [currentBuilder_of_none rfl, newBuilder, freshBuilder, ensureColsLoaded_storage, stage_storage,
    getOrCreateBuilder_storage]
  rw [layout] at hlayout
  rw [hlayout]

/-- From any round on, the loop splits what is left of the batch. -/
theorem appendLoop_split {fuel o : ℕ} (hfuel : ts.length ≤ o + fuel)
    (hv : v.Ready schema ts.length batch) (hmax : 0 < v.storage.descriptor.maxChunkRows)
    (horder : ∀ t ∈ (ts.drop o).head?, (v.currentBuilder schema).lastTimestamp ≤ t) :
    ∃ v' sealed chunks, appendLoop schema ts batch fuel o v = some v' ∧
      v'.writer.pending = v.writer.pending ++ chunks ∧
      List.Forall₂ (fun b chunk ↦ ∃ id, chunk = TopicChunkBuilder.sealChunk b id) sealed chunks ∧
      TopicChunkBuilder.Split v.storage.descriptor.maxChunkRows (v.freshBuilder schema)
        (v.currentBuilder schema) (ts.drop o) (fun i ↦ (batchEntriesAt batch i).drop o) sealed
        (v'.currentBuilder schema) := by
  induction fuel generalizing v o with
  | zero =>
    refine ⟨v, [], [], appendLoop_of_length_le hfuel, (List.append_nil _).symm, .nil, ?_⟩
    rw [List.drop_of_length_le (show ts.length ≤ o from hfuel)]
    exact .done
  | succ fuel ih =>
    by_cases ho : o < ts.length
    · set m := v.batchSize schema ts.length o with hmdef
      have hfit : (v.currentBuilder schema).Fits _ := hv.fits.currentBuilder
      have hpos : 0 < m := batchSize_pos_of_fits hv.fits hmax ho
      have hle : o + m ≤ ts.length := by
        have : m ≤ ts.length - o := Nat.min_le_left _ _
        omega
      have hcap : m ≤ (v.currentBuilder schema).remainingCapacity := Nat.min_le_right _ _
      rw [TopicChunkBuilder.remainingCapacity, hfit.maxRows] at hcap
      have horder' : ∀ t ∈ ((ts.drop o).take m).head?,
          (v.currentBuilder schema).lastTimestamp ≤ t := by
        intro t ht
        rw [List.head?_take, if_neg (by omega)] at ht
        exact horder t ht
      obtain ⟨b, hb, hext⟩ :=
        hv.takes.exists_extends hv.regular hv.idle hfit.pending hpos hle horder'
      have hslice : v.appendSlice schema ts batch o m
          = some ((v.getOrCreateBuilder schema).putBack b) := by
        rw [appendSlice, hb]
        rfl
      have hcount := hext.rowCount
      rw [List.length_take, List.length_drop, Nat.min_eq_left (by omega)] at hcount
      have hmaxRows : b.maxRows = v.storage.descriptor.maxChunkRows := by
        rw [hext.after.frame]
        exact hfit.maxRows
      rw [appendLoop, if_pos ho, ← hmdef, hslice, Option.bind_some]
      by_cases hfull : b.isFull
      · -- the builder is full: the chunk is staged, and the next round starts afresh
        have hstage : (v.getOrCreateBuilder schema).putBack b
            = (v.getOrCreateBuilder schema).stage b := by rw [putBack_eq, if_pos hfull]
        rw [TopicChunkBuilder.isFull, hmaxRows, decide_eq_true_eq] at hfull
        have hsame : ((v.getOrCreateBuilder schema).stage b).storage = v.storage := by simp
        have hlayout : ((v.getOrCreateBuilder schema).stage b).layout schema = v.layout schema :=
          hstage ▸ layout_putBack
        have hfresh : ((v.getOrCreateBuilder schema).stage b).freshBuilder schema
            = v.freshBuilder schema := by
          rw [freshBuilder, freshBuilder, hsame, hlayout]
        have hready : ((v.getOrCreateBuilder schema).stage b).Ready schema ts.length batch := by
          refine ⟨fits_of_builder_eq_none rfl, ?_, ?_, ?_, ?_⟩ <;> rw [currentBuilder_stage]
          · rfl
          · exact TopicChunkBuilder.regular_new _ _ _ _
          · rw [hlayout]
            exact TopicChunkBuilder.descriptors_new _ _ _ _
          · refine hv.takes.congr ?_
            rw [hv.descriptors]
            exact TopicChunkBuilder.descriptors_new _ _ _ _
        obtain ⟨v', sealed, chunks, hloop, hpending, hchunks, hsplit⟩ :=
          ih (o := o + m) (by omega) hready (by rw [hsame]; exact hmax)
            (by rw [currentBuilder_stage]; exact fun t _ ↦ Int64.minValue_le t)
        rw [hsame, hfresh, currentBuilder_stage] at hsplit
        refine ⟨v', b :: sealed, b.sealChunk (v.getOrCreateBuilder schema).nextChunkId :: chunks,
          hstage ▸ hloop, ?_, .cons ⟨_, rfl⟩ hchunks, .full hpos ?_ hext (by omega) ?_⟩
        · rw [hpending, stage_pending, getOrCreateBuilder_pending, List.append_assoc]
          rfl
        · rw [List.length_drop]
          omega
        · simpa only [List.drop_drop] using hsplit
      · -- room is left, so the rows were used up
        have hset : (v.getOrCreateBuilder schema).putBack b
            = (v.getOrCreateBuilder schema).setBuilder b := by rw [putBack_eq, if_neg hfull]
        rw [TopicChunkBuilder.isFull, hmaxRows, decide_eq_true_eq] at hfull
        have hend : m = ts.length - o := by
          have : m = min (ts.length - o) (v.currentBuilder schema).remainingCapacity := rfl
          rw [TopicChunkBuilder.remainingCapacity, hfit.maxRows] at this
          omega
        refine ⟨(v.getOrCreateBuilder schema).setBuilder b, [], [], ?_, ?_, .nil, ?_⟩
        · rw [hset]
          exact appendLoop_of_length_le (by omega)
        · rw [setBuilder_pending, getOrCreateBuilder_pending, List.append_nil]
        · rw [currentBuilder_of_some setBuilder_builder]
          rw [List.take_of_length_le (by rw [List.length_drop, hend])] at hext
          refine .part (hext.congr fun i hi ↦ ?_) (by omega)
          rw [List.take_of_length_le]
          rw [List.length_drop, hv.takes.length_batchEntriesAt (List.getElem?_eq_getElem hi), hend]
    · refine ⟨v, [], [], appendLoop_of_length_le (by omega), (List.append_nil _).symm, .nil, ?_⟩
      rw [List.drop_of_length_le (by omega)]
      exact .done

end TopicView

/-! ## Builders a run leaves behind -/

/-- The data of a call has the layout the interface asks for. -/
def TopicCall.WellFormed : TopicCall → Prop
  | .appendColumns _ cols => ∀ col ∈ cols, col.data.WellFormed
  | _ => True

instance : DecidablePred TopicCall.WellFormed
  | .appendColumns _ cols => inferInstanceAs (Decidable (∀ col ∈ cols, col.data.WellFormed))
  | .beginRow _ | .set _ _ | .setNull _ | .finishRow | .resolveField _ | .ensureColumn _ _
  | .expandArray _ _ _ => .isTrue trivial

/-- The builder of a writer is regular, and has the columns the writer has loaded. It may have none
if the topic had none when it was opened. -/
def TopicWriter.Regular (tw : TopicWriter) : Prop :=
  ∀ b, tw.builder = some b →
    b.Regular ∧ (b.columns.map (·.buffer.descriptor) = tw.columns ∨ b.columns = [])

/-- What the checks of `appendColumns` establish. -/
theorem TopicView.of_checkColumns {n : ℕ} {batch : List ColumnData}
    (h : checkColumns n batch = none) : ∀ col ∈ batch, col.data.rowCount = n ∧
      ∀ s ∈ col.bitmap, s.bitLength = n := by
  induction batch with
  | nil => simp
  | cons col batch ih =>
    rw [checkColumns] at h
    split_ifs at h with hrows hempty hlength
    · refine List.forall_mem_cons.mpr ⟨⟨not_not.mp hrows, fun s hs ↦ ?_⟩, ih h⟩
      rw [ColumnData.bitmap, if_pos hempty] at hs
      cases hs
    · refine List.forall_mem_cons.mpr ⟨⟨not_not.mp hrows, fun s hs ↦ ?_⟩, ih h⟩
      rw [(ColumnData.bitmap_eq_some hs).1]
      exact not_not.mp hlength

namespace TopicChunkBuilder

variable {b b' : TopicChunkBuilder}

/-- A column stays readable under whatever a checked batch does to it. -/
theorem exists_holds_columnCalls {n o m : ℕ} (ho : o + m ≤ n) {batch : List ColumnData}
    (hwf : ∀ col ∈ batch, col.data.WellFormed)
    (hcheck : ∀ col ∈ batch, col.data.rowCount = n ∧ ∀ s ∈ col.bitmap, s.bitLength = n)
    {c c' : ColumnBuilder} (hc : ∃ slots, c.buffer.Holds slots)
    (h : (batch.flatMap (TopicView.columnCalls o m)).foldlM (fun c k ↦ k.apply c) c = some c') :
    ∃ slots, c'.buffer.Holds slots := by
  induction batch generalizing c with
  | nil =>
    obtain rfl := Option.some.inj h
    exact hc
  | cons col batch ih =>
    obtain ⟨hrows, hbits⟩ := hcheck col List.mem_cons_self
    rw [List.flatMap_cons, List.foldlM_append] at h
    obtain ⟨c₁, hc₁, hrest⟩ := Option.bind_eq_some_iff.mp h
    have hsup : Supplies (TopicView.columnCalls o m col) m col.colIndex (col.data.subspan o m)
        (col.bitmap.map (·.subspan o m)) := by
      refine ⟨List.filter_eq_self.mpr fun k hk ↦ by simp [TopicView.col_of_mem_columnCalls hk],
        ColumnSpan.wellFormed_subspan (hwf col List.mem_cons_self),
        ColumnSpan.rowCount_subspan (hrows.symm ▸ ho), fun s hs ↦ ?_⟩
      obtain ⟨s₀, -, rfl⟩ := Option.map_eq_some_iff.mp hs
      rfl
    have hfold : ((TopicView.columnCalls o m col).filter fun k ↦ k.col = col.colIndex).foldlM
        (fun c k ↦ k.apply c) c = some c₁ := by
      rw [List.filter_eq_self.mpr fun k hk ↦ by simp [TopicView.col_of_mem_columnCalls hk]]
      exact hc₁
    obtain ⟨buf, hbuf, rfl⟩ := foldlM_apply_of_supplies hsup hfold
    obtain ⟨slots, hslots⟩ := hc
    obtain ⟨h₀, rfl⟩ := exists_entries slots
    have hholds := ColumnBuilder.holds_batch hslots hsup.2.1
      (fun s hs ↦ by rw [hsup.2.2.1, hsup.2.2.2 s hs]) hbuf
    exact ih (fun x hx ↦ hwf x (List.mem_cons_of_mem col hx))
      (fun x hx ↦ hcheck x (List.mem_cons_of_mem col hx)) ⟨_, hholds⟩ hrest

/-- A builder stays regular under whatever a checked batch does to it. -/
theorem Regular.runBatch (hb : b.Regular) (hpending : b.bulkPendingRows = 0) {n o m : ℕ}
    (ho : o + m ≤ n) {batch : List ColumnData} (hwf : ∀ col ∈ batch, col.data.WellFormed)
    (hcheck : ∀ col ∈ batch, col.data.rowCount = n ∧ ∀ s ∈ col.bitmap, s.bitLength = n)
    {ts : List Timestamp} (h : b.runBatch ts (TopicView.sliceCalls batch o m) = some b') :
    b'.Regular := by
  obtain ⟨hafter, hlen, hcols⟩ := runBatch_eq_some hpending h
  refine hafter.regular hb fun c' hc' ↦ ?_
  obtain ⟨i, hi⟩ := List.mem_iff_getElem?.mp hc'
  have hlt : i < b.columns.length := hlen ▸ (List.getElem?_eq_some_iff.mp hi).1
  obtain ⟨c₁, c₂, hc₂, hfold, hfin⟩ := hcols i _ (List.getElem?_eq_getElem hlt)
  obtain rfl := Option.some.inj (hc₂.symm.trans hi)
  have hbuffer : c₂.buffer = c₁.buffer := by
    split_ifs at hfin
    · rw [hfin]
    · exact ColumnBuilder.finishBulk_buffer hfin
  rw [TopicView.filter_sliceCalls] at hfold
  rw [hbuffer]
  exact exists_holds_columnCalls ho (fun col hcol ↦ hwf col (List.mem_of_mem_filter hcol))
    (fun col hcol ↦ hcheck col (List.mem_of_mem_filter hcol))
    (hb.holds _ (List.getElem_mem hlt)) hfold

end TopicChunkBuilder

namespace TopicView

variable {schema : Option TypeTreeNode} {v v' v₀ : TopicView} {c : TopicCall}

theorem regular_of_builder_eq_none {tw : TopicWriter} (hb : tw.builder = none) : tw.Regular := by
  intro b hb'
  rw [hb] at hb'
  cases hb'

theorem regular_setBuilder {b : TopicChunkBuilder} (hb : b.Regular)
    (hd : b.columns.map (·.buffer.descriptor) = v.writer.columns ∨ b.columns = []) :
    (v.setBuilder b).writer.Regular := by
  rintro b' hb'
  obtain rfl := Option.some.inj hb'
  exact ⟨hb, hd⟩

theorem regular_putBack {b : TopicChunkBuilder} (hb : b.Regular)
    (hd : b.columns.map (·.buffer.descriptor) = v.writer.columns ∨ b.columns = []) :
    (v.putBack b).writer.Regular := by
  rw [putBack_eq]
  split_ifs
  · exact regular_of_builder_eq_none rfl
  · exact regular_setBuilder hb hd

/-- The descriptors of a builder decide whether it has the columns of the writer. -/
theorem descriptors_congr {b b' : TopicChunkBuilder} {cols : List ColumnDescriptor}
    (h : b'.columns.map (·.buffer.descriptor) = b.columns.map (·.buffer.descriptor))
    (hd : b.columns.map (·.buffer.descriptor) = cols ∨ b.columns = []) :
    b'.columns.map (·.buffer.descriptor) = cols ∨ b'.columns = [] := by
  rcases hd with hd | hd
  · exact .inl (h.trans hd)
  · rw [hd] at h
    exact .inr (List.map_eq_nil_iff.mp h)

theorem regular_getOrCreateBuilder (hv : v.writer.Regular) :
    (v.getOrCreateBuilder schema).writer.Regular := by
  rcases hb : v.writer.builder with _ | b
  · rw [getOrCreateBuilder_of_none hb]
    exact regular_setBuilder (TopicChunkBuilder.regular_new _ _ _ _)
      (.inl (TopicChunkBuilder.descriptors_new _ _ _ _))
  · rw [getOrCreateBuilder_of_some hb]
    exact hv

/-- One update of a cell. -/
theorem regular_runCellCall {b b' : TopicChunkBuilder} {k : TopicChunkBuilder.CellCall}
    (hb : b.Regular) (h : b.runCellCall k = some b') : b'.Regular := by
  obtain ⟨hrow, c, c', hc, hk, rfl⟩ := TopicChunkBuilder.runCellCall_eq_some h
  obtain ⟨slots, hslots⟩ := hb.holds c (List.mem_of_getElem? hc)
  have hcell : ∃ slots, c'.buffer.Holds slots := by
    cases k with
    | set i x =>
      obtain ⟨buf, hbuf, hc'⟩ := Option.map_eq_some_iff.mp hk
      have hsame : c'.buffer = buf := by
        rw [← hc']
        cases x <;> rfl
      rw [hsame]
      exact ⟨_, hslots.append hbuf⟩
    | setNull i =>
      obtain rfl := Option.some.inj hk
      exact ⟨_, hslots.appendNull⟩
  refine ⟨fun x hx ↦ ?_, hb.timestamps, fun hidle ↦ absurd (hrow.symm.trans hidle) (by simp)⟩
  rcases List.mem_or_eq_of_mem_set hx with hx | rfl
  · exact hb.holds x hx
  · exact hcell

theorem regular_finishRow {b b' : TopicChunkBuilder} (hb : b.Regular) (h : b.finishRow = some b') :
    b'.Regular := by
  obtain ⟨-, rfl⟩ := TopicChunkBuilder.finishRow_eq_some h
  refine ⟨fun x hx ↦ ?_, by simp [hb.timestamps], fun _ hzero ↦ absurd hzero (by simp)⟩
  obtain ⟨c, hc, rfl⟩ := List.mem_map.mp hx
  obtain ⟨slots, hslots⟩ := hb.holds c hc
  rw [TopicChunkBuilder.padColumn]
  split_ifs
  · exact ⟨_, hslots.appendNull⟩
  · exact ⟨slots, hslots⟩

/-- The micro steps of all calls but `appendColumns`. -/
theorem Micro.regular (h : Micro schema v₀ c v v') (hc : ∀ ts cols, c ≠ .appendColumns ts cols)
    (hv : v.writer.Regular) : v'.writer.Regular := by
  cases h with
  | load =>
    intro b hb
    rw [ensureColsLoaded_builder] at hb
    obtain ⟨hreg, hd⟩ := hv b hb
    refine ⟨hreg, ?_⟩
    rw [ensureColsLoaded_columns]
    split_ifs with hne
    · exact hd
    · rw [not_not.mp hne] at hd
      exact .inr (hd.elim List.map_eq_nil_iff.mp id)
  | create hb =>
    exact regular_setBuilder (TopicChunkBuilder.regular_new _ _ _ _)
      (.inl (TopicChunkBuilder.descriptors_new _ _ _ _))
  | beginRow hb h =>
    obtain ⟨hreg, hd⟩ := hv _ hb
    obtain ⟨-, -, rfl⟩ := TopicChunkBuilder.beginRow_eq_some h
    exact regular_setBuilder ⟨hreg.holds, hreg.timestamps, by simp⟩ hd
  | cell hb h =>
    obtain ⟨hreg, hd⟩ := hv _ hb
    exact regular_setBuilder (regular_runCellCall hreg h)
      (descriptors_congr (TopicChunkBuilder.descriptors_runCellCall h) hd)
  | finishRow hb h =>
    obtain ⟨hreg, hd⟩ := hv _ hb
    exact regular_putBack (regular_finishRow hreg h)
      (descriptors_congr (TopicChunkBuilder.descriptors_finishRow h) hd)
  | batch hcall => exact absurd hcall (hc _ _)
  | close => exact regular_of_builder_eq_none sealBeforeLayoutChange_builder
  | grow hb => exact regular_of_builder_eq_none hb
  | note => exact hv

theorem call_regular {out : Outcome} (hfit : v.Fits) (hc : c.WellFormed) (hv : v.writer.Regular)
    (h : v.call schema c = some (v', out)) : v'.writer.Regular := by
  by_cases happ : ∃ ts cols, c = .appendColumns ts cols
  · obtain ⟨ts, cols, rfl⟩ := happ
    obtain ⟨p, hp, heq⟩ := Option.map_eq_some_iff.mp h
    obtain ⟨rfl, -⟩ := Prod.mk.inj heq
    rcases appendColumns_eq_some hp with
      ⟨-, -, hsame | hsame⟩ | ⟨-, -, hsame⟩ | ⟨-, -, hcheck, hloop⟩
    · exact hsame.symm ▸ hv
    · exact hsame.symm ▸ regular_getOrCreateBuilder hv
    · exact hsame.symm ▸ hv
    · refine (appendLoop_induction (I := fun _ u ↦ u.writer.Regular) ?_
        (fits_getOrCreateBuilder hfit) (Nat.zero_le _) (regular_getOrCreateBuilder hv) hloop).2
      intro o n u b hu hfit' ho hn hpos hb
      have hle : n ≤ ts.length - o := hn ▸ Nat.min_le_left _ _
      obtain ⟨hreg, hd⟩ := regular_getOrCreateBuilder hu _ getOrCreateBuilder_builder
      have hpending : (u.currentBuilder schema).bulkPendingRows = 0 :=
        hfit'.currentBuilder.pending
      exact regular_putBack (hreg.runBatch hpending (by omega) hc (of_checkColumns hcheck) hb)
        (descriptors_congr (TopicChunkBuilder.descriptors_runBatch hpending hb) hd)
  · refine (call_path hfit h).induction (fun u u' hstep ↦ Micro.regular hstep ?_) hv
    exact fun ts cols heq ↦ happ ⟨ts, cols, heq⟩

end TopicView

namespace World

variable {S : Setup} {W W' : World}

/-- A run whose batches are well formed. -/
def DataWellFormed (_ : World) (c : Call) (_ : Outcome) : Prop :=
  match c with
  | .topic _ _ c => c.WellFormed
  | _ => True

instance (W : World) (c : Call) (out : Outcome) : Decidable (W.DataWellFormed c out) :=
  match c with
  | .topic _ _ c => inferInstanceAs (Decidable c.WellFormed)
  | .flush _ _ | .flushAll _ _ _ | .commitChunks _ _ | .evictBefore _ _ _ | .enforceRetention _ _
  | .clearChunks _ _ | .flushTo _ _ => .isTrue trivial

/-- Every run leaves regular builders behind. -/
theorem run_regular {calls : List Call} (hinit : W.Initial S)
    (hmeets : RunMeets S DataWellFormed W calls) (h : W.run S calls = some W') :
    W'.Fits S ∧ ∀ w τ, (W'.writers w τ).Regular := by
  refine run_induction (I := fun W ↦ W.Fits S ∧ ∀ w τ, (W.writers w τ).Regular) ?_ hmeets h
    ⟨hinit.fits, fun w τ ↦ TopicView.regular_of_builder_eq_none (hinit.builder w τ)⟩
  rintro W c W' out ⟨hfits, hW⟩ hstep hc
  refine ⟨(step_keeps hfits hstep).2, writers_step (P := fun _ _ tw ↦ tw.Regular) hfits hW ?_ ?_
    (fun _ _ tw htw ↦ htw) hstep⟩
  · rintro w τ tc rfl schema v v' hfit hv hcall
    exact TopicView.call_regular hfit hc hv hcall
  · intro _ _ v hv
    rcases v.flush_cases with ⟨b, -, -, hnone, -⟩ | ⟨-, hsame, -⟩
    · exact TopicView.regular_of_builder_eq_none hnone
    · intro b hb
      rw [TopicView.flush_columns]
      exact hv b (hsame ▸ hb)

end World

/-! ## Splitting without loss -/

/-- The chunks of a list of sealed builders. -/
abbrev SealedAs : List TopicChunkBuilder → List TopicChunk → Prop :=
  List.Forall₂ fun b chunk ↦ ∃ id, chunk = b.sealChunk id

namespace SealedAs

variable {sealed : List TopicChunkBuilder} {chunks : List TopicChunk}

theorem exists_builder (h : SealedAs sealed chunks) :
    ∀ chunk ∈ chunks, ∃ b ∈ sealed, ∃ id, chunk = b.sealChunk id := by
  induction h with
  | nil => simp
  | @cons b chunk sealed chunks hb h ih =>
    refine List.forall_mem_cons.mpr ⟨⟨b, List.mem_cons_self, hb⟩, fun x hx ↦ ?_⟩
    obtain ⟨b', hb', hid⟩ := ih x hx
    exact ⟨b', List.mem_cons_of_mem b hb', hid⟩

theorem flatMap_timestamps (h : SealedAs sealed chunks) :
    chunks.flatMap (·.timestamps) = sealed.flatMap (·.timestamps) := by
  induction h with
  | nil => rfl
  | cons hb h ih =>
    obtain ⟨id, rfl⟩ := hb
    rw [List.flatMap_cons, ih, List.flatMap_cons]
    rfl

theorem flatMap_cells (h : SealedAs sealed chunks) (i : ℕ) : chunks.flatMap (·.cells i)
    = sealed.flatMap fun b ↦ (b.columns[i]?.map (·.sealColumn.cells)).getD [] := by
  induction h with
  | nil => rfl
  | cons hb h ih =>
    obtain ⟨id, rfl⟩ := hb
    rw [List.flatMap_cons, ih, List.flatMap_cons, TopicChunkBuilder.cells_sealChunk]

end SealedAs

namespace TopicView

open Relation (ReflTransGen)

variable {schema : Option TypeTreeNode} {v v' : TopicView} {ts : List Timestamp}
  {batch : List ColumnData}

/-- One iteration of the loop: the offset and the state before it and behind it. -/
inductive Round (schema : Option TypeTreeNode) (ts : List Timestamp) (batch : List ColumnData) :
    ℕ × TopicView → ℕ × TopicView → Prop
  | mk {o : ℕ} {v v' : TopicView} (ho : o < ts.length)
    (h : v.appendSlice schema ts batch o (v.batchSize schema ts.length o) = some v') :
    Round schema ts batch (o, v) (o + v.batchSize schema ts.length o, v')

/-- The call ends with `v'` and has sealed `chunks`, and the rows of these and those left in the
builder are the rows there were and behind them those of the batch. -/
structure Splits (schema : Option TypeTreeNode) (v v' : TopicView) (ts : List Timestamp)
    (batch : List ColumnData) (chunks : List TopicChunk) : Prop where
  ends : v.appendColumns schema ts batch = some (v', .ok ())
  pending : v'.writer.pending = v.writer.pending ++ chunks
  advances : ∀ p p', ReflTransGen (Round schema ts batch) (0, v.getOrCreateBuilder schema) p →
    Round schema ts batch p p' → p.1 < p'.1
  timestamps : chunks.flatMap (·.timestamps) ++ (v'.currentBuilder schema).timestamps
    = (v.currentBuilder schema).timestamps ++ ts
  cells : ∀ i, i < (v.layout schema).length →
    chunks.flatMap (·.cells i) ++ (v'.currentBuilder schema).cells i
      = (v.currentBuilder schema).cells i ++ batchCellsAt batch i
  rowCount : ∀ chunk ∈ chunks,
    chunk.stats.rowCount ≤ max 1 v.storage.descriptor.maxChunkRows
  stamps : ∀ chunk ∈ chunks, chunk.timestamps.length = chunk.stats.rowCount
  even : (∀ c ∈ (v.currentBuilder schema).columns,
      c.buffer.rowCount = (v.currentBuilder schema).rowCount) →
    ∀ chunk ∈ chunks, ∀ col ∈ chunk.columns, col.rowCount = chunk.stats.rowCount

theorem layout_getOrCreateBuilder :
    (v.getOrCreateBuilder schema).layout schema = v.layout schema :=
  columns_getOrCreateBuilder getOrCreateBuilder_storage rfl

/-- A regular writer takes a batch it accepts. -/
theorem Accepts.ready (h : v.Accepts schema ts batch) (hfits : v.Fits) (hreg : v.writer.Regular) :
    v.Ready schema ts.length batch := by
  have hidle : (v.currentBuilder schema).rowInProgress = false := by
    have := h.idle
    rw [isRowInProgress] at this
    rcases hb : v.writer.builder with _ | b
    · rw [currentBuilder_of_none hb]
      rfl
    · rw [hb] at this
      rw [currentBuilder_of_some hb]
      simpa using this
  have hregular : (v.currentBuilder schema).Regular ∧
      (v.currentBuilder schema).columns.map (·.buffer.descriptor) = v.layout schema := by
    rcases hb : v.writer.builder with _ | b
    · rw [currentBuilder_of_none hb]
      exact ⟨TopicChunkBuilder.regular_new _ _ _ _, TopicChunkBuilder.descriptors_new _ _ _ _⟩
    · rw [currentBuilder_of_some hb]
      obtain ⟨hb', hd⟩ := hreg b hb
      refine ⟨hb', ?_⟩
      rw [layout, ensureColsLoaded_columns]
      split_ifs with hne
      · -- columns loaded: a batch that the builder takes shows that they are the builder's
        refine hd.resolve_right fun hnil ↦ ?_
        have hlen := h.once.length_eq
        rw [layout, ensureColsLoaded_columns, if_pos hne, List.length_map,
          List.length_range] at hlen
        have hbatch : batch ≠ [] := by
          rintro rfl
          exact hne (List.length_eq_zero_iff.mp hlen.symm)
        obtain ⟨col, hcol⟩ := List.exists_mem_of_ne_nil batch hbatch
        obtain ⟨c, hc, -⟩ := h.taken col hcol
        rw [currentBuilder_of_some hb, hnil] at hc
        cases hc
      · have hnil : b.columns = [] := hd.elim
          (fun hd ↦ List.map_eq_nil_iff.mp (hd.trans (not_not.mp hne))) id
        rw [hnil]
        have hlen := h.once.length_eq
        rcases batch with _ | ⟨col, batch⟩
        · rw [layout, ensureColsLoaded_columns, if_neg hne, List.length_map,
            List.length_range] at hlen
          exact (List.length_eq_zero_iff.mp hlen.symm).symm
        · obtain ⟨c, hc, -⟩ := h.taken col List.mem_cons_self
          rw [currentBuilder_of_some hb, hnil] at hc
          cases hc
  refine ⟨hfits, hidle, hregular.1, hregular.2, ?_, fun col hcol c hc ↦ ?_⟩
  · have hlen := congrArg List.length hregular.2
    rw [List.length_map] at hlen
    rw [hlen]
    exact h.once
  · obtain ⟨c', hc', hs⟩ := h.taken col hcol
    obtain rfl := Option.some.inj (hc'.symm.trans hc)
    exact hs

theorem Accepts.order_le (h : v.Accepts schema ts batch)
    (hready : v.Ready schema ts.length batch) :
    ∀ t ∈ ts.head?, (v.currentBuilder schema).lastTimestamp ≤ t := by
  intro t ht
  rcases Nat.eq_zero_or_pos (v.currentBuilder schema).rowCount with hzero | hpos
  · rw [hready.regular.fresh hready.idle hzero]
    exact Int64.minValue_le t
  · exact not_lt.mp fun hlt ↦ h.order ⟨hpos, t, ht, hlt⟩

/-- An accepted batch reaches the loop. -/
theorem Accepts.appendColumns_eq (h : v.Accepts schema ts batch) (hne : ts ≠ []) :
    v.appendColumns schema ts batch = (appendLoop schema ts batch ts.length 0
      (v.getOrCreateBuilder schema)).map fun v' ↦ (v', .ok ()) := by
  obtain ⟨first, rest, rfl⟩ := List.exists_cons_of_ne_nil hne
  have hcheck : checkColumns (first :: rest).length batch = none :=
    checkColumns_of_supplies fun col hcol ↦ by
      obtain ⟨c, -, hs⟩ := h.taken col hcol
      exact ⟨_, hs⟩
  have horder : ¬(0 < (v.currentBuilder schema).rowCount ∧
      first < (v.currentBuilder schema).lastTimestamp) :=
    fun ⟨hpos, hlt⟩ ↦ h.order ⟨hpos, first, rfl, hlt⟩
  rw [appendColumns.eq_def, hcheck]
  simp only [if_neg horder]

/-- The condition: the loop can take a row, and no cut makes a false constant. -/
def SplitsTruly (schema : Option TypeTreeNode) (v : TopicView) (batch : List ColumnData) : Prop :=
  0 < v.storage.descriptor.maxChunkRows ∧
    ∀ col ∈ batch, ∀ c, (v.currentBuilder schema).columns[col.colIndex]? = some c →
      c.SplitsTruly (v.currentBuilder schema).remainingCapacity v.storage.descriptor.maxChunkRows
        col.entries

/-- What every iteration keeps of the view. -/
theorem Round.keeps {p p' : ℕ × TopicView} (h : Round schema ts batch p p') (hp : p.2.Fits) :
    p'.2.Fits ∧ p'.2.storage = p.2.storage := by
  rcases h with ⟨ho, h⟩
  obtain ⟨b, hb, rfl⟩ := Option.map_eq_some_iff.mp h
  exact ⟨fits_putBack_batch hp hb, by rw [putBack_storage, getOrCreateBuilder_storage]⟩

/-- With room for a row in a chunk, every iteration moves on. -/
theorem Round.advances {p₀ p p' : ℕ × TopicView} (hfits : p₀.2.Fits)
    (hmax : 0 < p₀.2.storage.descriptor.maxChunkRows)
    (hp : ReflTransGen (Round schema ts batch) p₀ p) (h : Round schema ts batch p p') :
    p.1 < p'.1 := by
  have hkept : p.2.Fits ∧ p.2.storage = p₀.2.storage := by
    clear h
    induction hp with
    | refl => exact ⟨hfits, rfl⟩
    | tail _ hstep ih =>
      obtain ⟨hfit, hsame⟩ := hstep.keeps ih.1
      exact ⟨hfit, hsame.trans ih.2⟩
  rcases h with ⟨ho, h⟩
  exact Nat.lt_add_of_pos_right
    (batchSize_pos_of_fits hkept.1 (hkept.2.symm ▸ hmax) ho)

theorem Ready.getOrCreateBuilder {n : ℕ} (h : v.Ready schema n batch) :
    (v.getOrCreateBuilder schema).Ready schema n batch where
  fits := fits_getOrCreateBuilder h.fits
  idle := by
    rw [currentBuilder_getOrCreateBuilder]
    exact h.idle
  regular := by
    rw [currentBuilder_getOrCreateBuilder]
    exact h.regular
  descriptors := by
    rw [currentBuilder_getOrCreateBuilder, layout_getOrCreateBuilder]
    exact h.descriptors
  takes := by
    rw [currentBuilder_getOrCreateBuilder]
    exact h.takes

/-- The rows are split without loss in every column exactly when every cut seals truly. -/
theorem Accepts.cells_iff (h : v.Accepts schema ts batch) (hready : v.Ready schema ts.length batch)
    (hbytes : v.Addressable schema batch)
    (hmax : 0 < v.storage.descriptor.maxChunkRows) {sealed : List TopicChunkBuilder}
    {left : TopicChunkBuilder}
    (hsplit : TopicChunkBuilder.Split v.storage.descriptor.maxChunkRows (v.freshBuilder schema)
      (v.currentBuilder schema) ts (batchEntriesAt batch) sealed left) :
    (∀ i, i < (v.layout schema).length →
      sealed.flatMap (fun b ↦ (b.columns[i]?.map (·.sealColumn.cells)).getD []) ++ left.cells i
        = (v.currentBuilder schema).cells i ++ batchCellsAt batch i) ↔
    ∀ col ∈ batch, ∀ c, (v.currentBuilder schema).columns[col.colIndex]? = some c →
      c.SplitsTruly (v.currentBuilder schema).remainingCapacity
        v.storage.descriptor.maxChunkRows col.entries := by
  have hfit : (v.currentBuilder schema).Fits v.storage.descriptor.maxChunkRows :=
    hready.fits.currentBuilder
  have hroom : (v.currentBuilder schema).rowCount < v.storage.descriptor.maxChunkRows := by
    have := hfit.room
    omega
  have hnodup := hready.takes.nodup
  have hlength : (v.currentBuilder schema).columns.length = (v.layout schema).length := by
    simpa using congrArg List.length hready.descriptors
  -- a column of the batch and the column of the builder it goes to
  have hcolumn : ∀ col ∈ batch, ∀ c, (v.currentBuilder schema).columns[col.colIndex]? = some c →
      (sealed.flatMap (fun b ↦ (b.columns[col.colIndex]?.map (·.sealColumn.cells)).getD [])
          ++ left.cells col.colIndex
        = (v.currentBuilder schema).cells col.colIndex ++ batchCellsAt batch col.colIndex ↔
      c.SplitsTruly (v.currentBuilder schema).remainingCapacity
        v.storage.descriptor.maxChunkRows col.entries) := by
    intro col hcol c hc
    obtain ⟨c', hc', hs⟩ := h.taken col hcol
    obtain rfl := Option.some.inj (hc.symm.trans hc')
    obtain ⟨slots, hslots⟩ := hready.regular.holds c (List.mem_of_getElem? hc)
    have hentries := batchEntriesAt_eq hnodup hcol
    have hd : (v.layout schema)[col.colIndex]? = some c.buffer.descriptor := by
      rw [← hready.descriptors, List.getElem?_map, hc]
      rfl
    have hiff := hsplit.cells_iff hc hd hslots hroom
      (by rw [hentries, hs.length_entries]) (hentries ▸ hbytes col hcol c hc)
    rw [hentries, ← batchCellsAt_eq hnodup hcol hs] at hiff
    rwa [TopicChunkBuilder.remainingCapacity, hfit.maxRows]
  constructor
  · rintro hall col hcol c hc
    refine (hcolumn col hcol c hc).mp (hall _ ?_)
    rw [← hlength]
    exact (List.getElem?_eq_some_iff.mp hc).1
  · rintro hall i hi
    obtain ⟨col, hcol, rfl, -⟩ := hready.takes.exists_column
      (List.getElem?_eq_getElem (hlength.symm ▸ hi))
    have hc := List.getElem?_eq_getElem (hlength.symm ▸ hi)
    exact (hcolumn col hcol _ hc).mpr (hall col hcol _ hc)

/-- With room for a row in a chunk the call ends, and all that can get lost are the values of a
column that is sealed as a constant. -/
theorem Accepts.exists_split (h : v.Accepts schema ts batch) (hfits : v.Fits)
    (hreg : v.writer.Regular) (hbytes : v.Addressable schema batch) (hne : ts ≠ [])
    (hmax : 0 < v.storage.descriptor.maxChunkRows) :
    ∃ v' chunks, v.appendColumns schema ts batch = some (v', .ok ()) ∧
      v'.writer.pending = v.writer.pending ++ chunks ∧
      (Splits schema v v' ts batch chunks ↔ ∀ col ∈ batch, ∀ c,
        (v.currentBuilder schema).columns[col.colIndex]? = some c →
        c.SplitsTruly (v.currentBuilder schema).remainingCapacity
          v.storage.descriptor.maxChunkRows col.entries) := by
  have hready := h.ready hfits hreg
  have hstorage : (v.getOrCreateBuilder schema).storage = v.storage := getOrCreateBuilder_storage
  have hfresh : (v.getOrCreateBuilder schema).freshBuilder schema = v.freshBuilder schema := by
    rw [freshBuilder, freshBuilder, hstorage, layout_getOrCreateBuilder]
  have hfuel : ts.length ≤ 0 + ts.length := (Nat.zero_add _).ge
  obtain ⟨v', sealed, chunks, hloop, hpending, hchunks, hsplit⟩ :=
    appendLoop_split hfuel hready.getOrCreateBuilder (hstorage.symm ▸ hmax) (by
      rw [currentBuilder_getOrCreateBuilder]
      exact h.order_le hready)
  rw [hstorage, hfresh, currentBuilder_getOrCreateBuilder] at hsplit
  simp only [List.drop_zero] at hsplit
  rw [getOrCreateBuilder_pending] at hpending
  have hends : v.appendColumns schema ts batch = some (v', .ok ()) := by
    rw [h.appendColumns_eq hne, hloop]
    rfl
  have hsealed : SealedAs sealed chunks := hchunks
  have hcells := h.cells_iff hready hbytes hmax hsplit
  refine ⟨v', chunks, hends, hpending, fun hs ↦ hcells.mp fun i hi ↦ ?_, fun htrue ↦ ?_⟩
  · rw [← hsealed.flatMap_cells]
    exact hs.cells i hi
  have hcounts := hsplit.rowCount
  have hlengths : ∀ i, i < (v.layout schema).length →
      (batchEntriesAt batch i).length = ts.length := by
    intro i hi
    have hlen : (v.currentBuilder schema).columns.length = (v.layout schema).length := by
      simpa using congrArg List.length hready.descriptors
    exact hready.takes.length_batchEntriesAt (List.getElem?_eq_getElem (hlen.symm ▸ hi))
  exact {
    ends := hends
    pending := hpending
    advances := fun p p' hp hround ↦
      hround.advances (fits_getOrCreateBuilder hfits) (hstorage.symm ▸ hmax) hp
    timestamps := by
      rw [hsealed.flatMap_timestamps]
      exact hsplit.timestamps
    cells := fun i hi ↦ by
      rw [hsealed.flatMap_cells]
      exact hcells.mpr htrue i hi
    rowCount := fun chunk hchunk ↦ by
      obtain ⟨b, hb, id, rfl⟩ := hsealed.exists_builder chunk hchunk
      exact (hcounts b hb).le.trans (Nat.le_max_right _ _)
    stamps := fun chunk hchunk ↦ by
      obtain ⟨b, hb, id, rfl⟩ := hsealed.exists_builder chunk hchunk
      have hregular := hsplit.forall_sealed (P := TopicChunkBuilder.Regular)
        (TopicChunkBuilder.regular_new _ _ _ _) (fun b ts new b' hb _ h ↦ h.regular hb) hlengths
        hready.regular
      exact (hregular b hb).timestamps
    even := fun heven chunk hchunk col hcol ↦ by
      obtain ⟨b, hb, id, rfl⟩ := hsealed.exists_builder chunk hchunk
      obtain ⟨c, hc, rfl⟩ := List.mem_map.mp hcol
      have hlen : (v.currentBuilder schema).columns.length = (v.layout schema).length := by
        simpa using congrArg List.length hready.descriptors
      exact hsplit.rowCount_sealColumn hready.regular hlen hlengths heven b hb c hc }

/-- A batch without rows changes nothing. -/
theorem Accepts.splits_nil (h : v.Accepts schema [] batch) : Splits schema v v [] batch [] := by
  have hcheck : checkColumns ([] : List Timestamp).length batch = none :=
    checkColumns_of_supplies fun col hcol ↦ by
      obtain ⟨c, -, hs⟩ := h.taken col hcol
      exact ⟨_, hs⟩
  exact {
    ends := by rw [appendColumns.eq_def, hcheck]
    pending := (List.append_nil _).symm
    advances := fun p p' _ hround ↦ by
      rcases hround with ⟨ho, -⟩
      exact absurd ho (Nat.not_lt_zero _)
    timestamps := by simp
    cells := fun i _ ↦ by
      have hnil : batchCellsAt batch i = [] := by
        rw [batchCellsAt]
        rcases hfind : batch.find? (fun col ↦ col.colIndex = i) with _ | col
        · rw [hfind]
          rfl
        · obtain ⟨c, -, hs⟩ := h.taken col (List.mem_of_find?_eq_some hfind)
          have hentries := List.length_eq_zero_iff.mp hs.length_entries
          rw [hfind, Option.map_some, Option.getD_some, ColumnData.cells_eq, hentries]
          rfl
      rw [hnil, List.flatMap_nil, List.nil_append, List.append_nil]
    rowCount := by simp
    stamps := by simp
    even := by simp }

/-- A regular writer splits a batch it accepts without loss exactly when the loop can take a row and
no cut makes a false constant. -/
theorem Accepts.splits_iff (h : v.Accepts schema ts batch) (hfits : v.Fits)
    (hreg : v.writer.Regular) (hbytes : v.Addressable schema batch) :
    (∃ v' chunks, Splits schema v v' ts batch chunks) ↔ (ts ≠ [] → v.SplitsTruly schema batch) := by
  by_cases hne : ts = []
  · subst hne
    exact iff_of_true ⟨v, [], h.splits_nil⟩ fun hne ↦ absurd rfl hne
  rw [imp_iff_right hne]
  rcases Nat.eq_zero_or_pos v.storage.descriptor.maxChunkRows with hzero | hmax
  · -- no chunk takes a row: the call does not end
    refine iff_of_false ?_ fun hsplits ↦ absurd hsplits.1 (by omega)
    rintro ⟨v', chunks, hsplits⟩
    have hends := hsplits.ends
    rw [h.appendColumns_eq hne, appendLoop_eq_none (fits_getOrCreateBuilder hfits)
      (by rw [getOrCreateBuilder_storage, hzero]) (List.length_pos_iff.mpr hne)] at hends
    cases hends
  · obtain ⟨v', chunks, hends, hpending, hiff⟩ := h.exists_split hfits hreg hbytes hne hmax
    constructor
    · rintro ⟨v'', chunks', hsplits⟩
      -- the call has one outcome
      obtain rfl : v'' = v' := by
        have hsame := hsplits.ends.symm.trans hends
        exact (Prod.mk.inj (Option.some.inj hsame)).1
      obtain rfl : chunks' = chunks :=
        List.append_cancel_left (hsplits.pending.symm.trans hpending)
      exact ⟨hmax, hiff.mp hsplits⟩
    · rintro ⟨-, htrue⟩
      exact ⟨v', chunks, hiff.mpr htrue⟩

end TopicView

namespace World

variable {S : Setup} {W₀ W : World} {calls : List Call}

/-- `appendColumns` in whatever state a run has left the topic and its writer. -/
theorem run_splits_iff (hinit : W₀.Initial S) (hmeets : RunMeets S DataWellFormed W₀ calls)
    (hrun : W₀.run S calls = some W) {w τ : ℕ} {v : TopicView} (hview : W.view S w τ = some v)
    {ts : List Timestamp} {batch : List ColumnData} (hacc : v.Accepts (schemaOf S w v) ts batch)
    (hbytes : v.Addressable (schemaOf S w v) batch) :
    (∃ v' chunks, TopicView.Splits (schemaOf S w v) v v' ts batch chunks) ↔
      (ts ≠ [] → v.SplitsTruly (schemaOf S w v) batch) := by
  obtain ⟨hfits, hregular⟩ := run_regular hinit hmeets hrun
  have hwriter : v.writer = W.writers w τ := by
    obtain ⟨s, -, rfl⟩ := Option.map_eq_some_iff.mp hview
    rfl
  exact hacc.splits_iff (hfits.view hview) (hwriter ▸ hregular w τ) hbytes

/-- A topic with a column `x` whose chunks have room for `maxRows` rows. -/
def topicX (maxRows : ℕ) : TopicStorage where
  topicId := 1
  descriptor := { name := "imu", maxChunkRows := maxRows }
  columnDescriptors := [{ fieldId := 0, logicalType := .uint64, fieldPath := "x" }]

/-- A builder with one row. -/
def builderX : TopicChunkBuilder where
  topicId := 1
  schemaId := 0
  maxRows := 2
  columns := [{
    buffer := {
      descriptor := { fieldId := 0, logicalType := .uint64, fieldPath := "x" }
      values := [5, 0, 0, 0, 0, 0, 0, 0]
      rowCount := 1 }
    stats := {
      runCount := 1
      minValue := some (.ofNat 5)
      maxValue := some (.ofNat 5) }
    lastValue := .ofNat 5 }]
  timestamps := [10]
  tMin := 10
  tMax := 10
  rowCount := 1
  currentTimestamp := 10
  lastTimestamp := 10

/-- One row in a chunk for two. -/
def viewX : TopicView where
  storage := topicX 2
  writer := { builder := some builderX, columns := (topicX 2).columnDescriptors }

def oneRowRun : List Call :=
  [.topic 0 1 (.ensureColumn "x" .uint64), .topic 0 1 (.beginRow 10),
    .topic 0 1 (.set 0 (.uint64 5)), .topic 0 1 .finishRow]

/-- Three more rows: one fills the chunk up, and the other two fill the next one. -/
def batchX : List ColumnData := [{ colIndex := 0, data := .uint64 [7, 7, 9] }]

theorem run_splits_iff_oneRow : ∃ W, twoEngines.run schemaless oneRowRun = some W ∧
    W.view schemaless 0 1 = some viewX ∧
    ∃ v' chunks, TopicView.Splits none viewX v' [20, 30, 30] batchX chunks := by
  have hview : (twoEngines.run schemaless oneRowRun).bind (fun W ↦ W.view schemaless 0 1)
      = some viewX := by decide +kernel
  obtain ⟨W, hrun, hview⟩ := Option.bind_eq_some_iff.mp hview
  have hacc : viewX.Accepts none [20, 30, 30] batchX := by
    refine ⟨rfl, by decide +kernel, by decide +kernel, fun col hcol ↦ ?_⟩
    obtain rfl := List.mem_singleton.mp hcol
    exact ⟨_, rfl, rfl, rfl, trivial, trivial, fun s hs ↦ by cases hs⟩
  have hbytes : viewX.Addressable none batchX := by
    rintro col hcol c hc hk
    obtain rfl := List.mem_singleton.mp hcol
    obtain rfl := Option.some.inj hc
    exact absurd hk (by decide)
  refine ⟨W, hrun, hview, (run_splits_iff (start_initial _) (by decide +kernel) hrun hview hacc
    hbytes).mpr fun _ ↦ ⟨by decide, fun col hcol c hc ↦ ?_⟩⟩
  obtain rfl := List.mem_singleton.mp hcol
  obtain rfl := Option.some.inj hc
  refine ⟨fun _ _ hconst ↦ absurd hconst (by decide +kernel), fun k hk ↦ ?_⟩
  rcases k with _ | k
  · exact fun _ hconst ↦ absurd hconst (by decide +kernel)
  · have hlen : 1 + (k + 1 + 1) * 2 ≤ 3 := hk
    omega

/-- A topic whose chunks have room for no row. -/
def roomless : TopicView := ⟨topicX 0, { columns := (topicX 0).columnDescriptors }, 1⟩

theorem run_not_splits : ¬∀ (S : Setup) (W₀ W : World) (calls : List Call) (w τ : ℕ) (v : TopicView)
    (ts : List Timestamp) (batch : List ColumnData), W₀.Initial S →
    RunMeets S DataWellFormed W₀ calls → W₀.run S calls = some W → W.view S w τ = some v →
    v.Accepts (schemaOf S w v) ts batch → v.Addressable (schemaOf S w v) batch →
    ∃ v' chunks, TopicView.Splits (schemaOf S w v) v v' ts batch chunks := by
  intro hall
  have hview : ((start fun _ ↦ [{ name := "imu", maxChunkRows := 0 }]).run schemaless
      [.topic 0 1 (.ensureColumn "x" .uint64)]).bind (fun W ↦ W.view schemaless 0 1)
        = some roomless := by decide +kernel
  obtain ⟨W, hrun, hview⟩ := Option.bind_eq_some_iff.mp hview
  have hacc : roomless.Accepts none [20] [{ colIndex := 0, data := .uint64 [7] }] := by
    refine ⟨rfl, by decide +kernel, by decide +kernel, fun col hcol ↦ ?_⟩
    obtain rfl := List.mem_singleton.mp hcol
    exact ⟨_, rfl, rfl, rfl, trivial, trivial, fun s hs ↦ by cases hs⟩
  have hbytes : roomless.Addressable none [{ colIndex := 0, data := .uint64 [7] }] := by
    rintro col hcol c hc hk
    obtain rfl := List.mem_singleton.mp hcol
    obtain rfl := Option.some.inj hc
    exact absurd hk (by decide)
  obtain ⟨v', chunks, hsplits⟩ := hall _ _ W _ 0 1 roomless _ _ (start_initial _)
    (by decide +kernel) hrun hview hacc hbytes
  have hends : roomless.appendColumns none [20] [{ colIndex := 0, data := .uint64 [7] }]
      = some (v', .ok ()) := hsplits.ends
  -- the one row stays where it is in every round
  rw [show roomless.appendColumns none [20] [{ colIndex := 0, data := .uint64 [7] }] = none by
    decide +kernel] at hends
  cases hends

end World

end PlotJuggler
