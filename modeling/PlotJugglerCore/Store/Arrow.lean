import PlotJugglerCore.Store.Bulk

/-!
# Arrow import

`arrow_import.cpp`: record batches from a stream, each turned into one call of `appendColumns`. The
views on the arrays come from nanoarrow, which is not part of this code: a view is the array as the
producer gave it, and `Nanoarrow` holds the calls the importer makes, with what they are documented
to do in `Nanoarrow.Documented`.

What the arrays *mean* is written down separately, after the Arrow columnar format: slot `i` of an
array lies at position `offset + i` of its buffers, a row of a batch is counted from the offset of
the batch, and an array whose null count is `-1` has as many nulls as its bitmap says.
-/

namespace PlotJuggler

open LittleEndian (element)

/-! ## Schemas -/

/-- The types the importer tells apart; `other` stands for the rest of them. -/
inductive ArrowType
  | int8 | int16 | int32 | int64 | uint8 | uint16 | uint32 | uint64 | float | double | bool
  | string | largeString | other (code : ℕ)
  deriving DecidableEq, Repr

def nanoarrowTypeToPrimitive : ArrowType → Option PrimitiveType
  | .int8 => some .int8
  | .int16 => some .int16
  | .int32 => some .int32
  | .int64 => some .int64
  | .uint8 => some .uint8
  | .uint16 => some .uint16
  | .uint32 => some .uint32
  | .uint64 => some .uint64
  | .float => some .float32
  | .double => some .float64
  | .bool => some .bool
  | .string => some .string
  | .largeString => some .string
  | .other _ => none

/-- A child of the schema: its name, which may be missing, and its type, unless
`ArrowSchemaViewInit` fails on it. -/
structure ArrowField where
  name : Option String
  type : Option ArrowType
  deriving DecidableEq, Repr

structure ArrowColumnMapping where
  arrowColumnIndex : ℕ
  pjColumnIndex : ℕ
  pjType : PrimitiveType
  fieldName : String
  deriving DecidableEq, Repr

/-- The loop of `mappingsFromSchema` from child `i` on, with `j` mappings made. -/
def mappingsFrom : ℕ → ℕ → List ArrowField → List ArrowColumnMapping
  | _, _, [] => []
  | i, j, field :: fields =>
    match field.type.bind nanoarrowTypeToPrimitive with
    | none => mappingsFrom (i + 1) j fields
    | some t => ⟨i, j, t, field.name.getD ""⟩ :: mappingsFrom (i + 1) (j + 1) fields

def mappingsFromSchema (fields : List ArrowField) :
    Except String (TypeTreeNode × List ArrowColumnMapping) :=
  if mappingsFrom 0 0 fields = [] then .error "No supported columns found in Arrow schema"
  else .ok (makeStruct "arrow_row"
    ((mappingsFrom 0 0 fields).map fun m ↦ makePrimitive m.fieldName m.pjType),
    mappingsFrom 0 0 fields)

/-! ## Arrays -/

/-- `ArrowArrayView`, with its three buffers. -/
structure ArrowArrayView where
  storageType : ArrowType
  length : ℕ
  offset : ℕ
  /-- `-1` when it was not computed. -/
  nullCount : ℤ
  /-- `none` for a null pointer. -/
  validity : Option (List UInt8)
  /-- The values, or the offsets of strings. -/
  data : List UInt8
  /-- The characters of strings. -/
  chars : List UInt8 := []
  deriving DecidableEq, Repr

structure RecordBatch where
  length : ℕ
  offset : ℕ := 0
  children : List ArrowArrayView
  deriving DecidableEq, Repr

/-- The number in slot `i` of a buffer of `size`-byte numbers, seen from the offset. -/
def ArrowArrayView.word (view : ArrowArrayView) (size i : ℕ) : ℕ :=
  LittleEndian.value (element view.data size (view.offset + i))

/-- The calls to nanoarrow. -/
structure Nanoarrow where
  /-- Whether `ArrowArrayViewInitFromSchema` succeeds. -/
  initFromSchema : List ArrowField → Bool
  /-- Whether `ArrowArrayViewSetArray` succeeds. -/
  setArray : List ArrowField → RecordBatch → Bool
  getIntUnsafe : ArrowArrayView → ℕ → Int64
  getUIntUnsafe : ArrowArrayView → ℕ → UInt64

/-! ## The importer -/

inductive ImportError
  | initFromSchema
  | readBatch (message : String)
  | setArray
  | timestampColumnOutOfRange (column : ℤ) (children : ℕ)
  | columnOutOfRange (column : ℕ)
  | write (e : WriteError)
  deriving DecidableEq, Repr

namespace Nanoarrow

variable (N : Nanoarrow)

/-- The validity of `make_column_data_nanoarrow`: the bitmap from its first byte on, as far as the
rows reach. -/
def validityView (child : ArrowArrayView) (n : ℕ) : BitSpan :=
  match child.validity with
  | some bytes =>
    if 0 < child.nullCount then ⟨bytes.take ((child.offset + n + 7) / 8), child.offset, n⟩
    else ⟨[], 0, 0⟩
  | none => ⟨[], 0, 0⟩

/-- The values of `make_column_data_nanoarrow`, by the type they are mapped to. -/
def columnSpan (child : ArrowArrayView) (n : ℕ) : PrimitiveType → ColumnSpan
  | .float32 => .float32 ((List.range n).map fun i ↦ UInt32.ofNat (child.word 4 i))
  | .float64 | .unspecified =>
    .float64 ((List.range n).map fun i ↦ UInt64.ofNat (child.word 8 i))
  | .int32 => .int32 ((List.range n).map fun i ↦ (UInt32.ofNat (child.word 4 i)).toInt32)
  | .int8 | .int16 => .int64 ((List.range n).map (N.getIntUnsafe child))
  | .int64 => .int64 ((List.range n).map fun i ↦ (UInt64.ofNat (child.word 8 i)).toInt64)
  | .uint8 | .uint16 | .uint32 => .uint64 ((List.range n).map (N.getUIntUnsafe child))
  | .uint64 => .uint64 ((List.range n).map fun i ↦ UInt64.ofNat (child.word 8 i))
  | .bool => .bool ((List.range n).map fun i ↦ if N.getIntUnsafe child i ≠ 0 then 1 else 0)
  -- 32-bit offsets, also where the type has 64-bit ones
  | .string =>
    .strings ((List.range (n + 1)).map fun i ↦ UInt32.ofNat (child.word 4 i)) child.chars

def makeColumnData (child : ArrowArrayView) (m : ArrowColumnMapping) (n : ℕ) : ColumnData where
  colIndex := m.pjColumnIndex
  data := N.columnSpan child n m.pjType
  validity := validityView child n

def generateSequentialTimestamps (n : ℕ) : List Timestamp := (List.range n).map Int64.ofNat

def extractTimestamps (view : ArrowArrayView) (n : ℕ) : List Timestamp :=
  match view.storageType with
  | .int64 | .uint64 => (List.range n).map fun i ↦ (UInt64.ofNat (view.word 8 i)).toInt64
  | .int32 => (List.range n).map fun i ↦ (UInt32.ofNat (view.word 4 i)).toInt32.toInt64
  | _ => (List.range n).map Int64.ofNat

/-- The timestamps of a batch. A negative column means that there is none. -/
def timestamps (batch : RecordBatch) (timestampColumn : ℤ) :
    Except ImportError (List Timestamp) :=
  if 0 ≤ timestampColumn then
    match batch.children[timestampColumn.toNat]? with
    | some view => .ok (extractTimestamps view batch.length)
    | none => .error (.timestampColumnOutOfRange timestampColumn batch.children.length)
  else .ok (generateSequentialTimestamps batch.length)

/-- The loop over the mappings. -/
def columns (batch : RecordBatch) :
    List ArrowColumnMapping → Except ImportError (List ColumnData)
  | [] => .ok []
  | m :: mappings =>
    match batch.children[m.arrowColumnIndex]? with
    | none => .error (.columnOutOfRange m.arrowColumnIndex)
    | some child =>
      match columns batch mappings with
      | .ok cols => .ok (N.makeColumnData child m batch.length :: cols)
      | .error e => .error e

variable (fields : List ArrowField) (mappings : List ArrowColumnMapping) (timestampColumn : ℤ)
  (schema : Option TypeTreeNode)

/-- What happens to a batch that has rows. -/
def ingestBatch (v : TopicView) (batch : RecordBatch) :
    Option (TopicView × Except ImportError Unit) :=
  if N.setArray fields batch then
    match timestamps batch timestampColumn, N.columns batch mappings with
    | .error e, _ => some (v, .error e)
    | .ok _, .error e => some (v, .error e)
    | .ok ts, .ok cols =>
      (v.appendColumns schema ts cols).map fun r ↦ (r.1, r.2.mapError .write)
  else some (v, .error .setArray)

/-- The loop over the stream, which gives batches and may fail on the way. -/
def ingestLoop : List (Except String RecordBatch) → TopicView →
    Option (TopicView × Except ImportError Unit)
  | [], v => some (v, .ok ())
  | .error message :: _, v => some (v, .error (.readBatch message))
  | .ok batch :: stream, v =>
    if batch.length = 0 then ingestLoop stream v
    else
      match N.ingestBatch fields mappings timestampColumn schema v batch with
      | none => none
      | some (v', .error e) => some (v', .error e)
      | some (v', .ok ()) => ingestLoop stream v'

def ingestBatchesFromStream (v : TopicView) (stream : List (Except String RecordBatch)) :
    Option (TopicView × Except ImportError Unit) :=
  if N.initFromSchema fields then N.ingestLoop fields mappings timestampColumn schema stream v
  else some (v, .error .initFromSchema)

end Nanoarrow

/-! ## What the arrays mean -/

namespace ArrowArrayView

/-- Whether slot `i` is not null. -/
def isValid (view : ArrowArrayView) (i : ℕ) : Bool :=
  view.validity.all fun bytes ↦ Bits.get bytes (view.offset + i)

/-- The integer in slot `i` of an array of integers. -/
def integer (view : ArrowArrayView) (i : ℕ) : ℤ :=
  match view.storageType with
  | .int8 => (UInt8.ofNat (view.word 1 i)).toInt8.toInt
  | .int16 => (UInt16.ofNat (view.word 2 i)).toInt16.toInt
  | .int32 => (UInt32.ofNat (view.word 4 i)).toInt32.toInt
  | .int64 => (UInt64.ofNat (view.word 8 i)).toInt64.toInt
  | .uint8 => view.word 1 i
  | .uint16 => view.word 2 i
  | .uint32 => view.word 4 i
  | .uint64 => view.word 8 i
  | _ => 0

/-- The width of the offsets of an array of strings. -/
def offsetSize (view : ArrowArrayView) : ℕ := if view.storageType = .largeString then 8 else 4

/-- The value in slot `i`, in the type it is stored as. -/
def value (view : ArrowArrayView) (i : ℕ) : Value :=
  match view.storageType with
  | .int8 | .int16 | .int64 => .int64 (.ofInt (view.integer i))
  | .int32 => .int32 (.ofInt (view.integer i))
  | .uint8 | .uint16 | .uint32 | .uint64 => .uint64 (.ofInt (view.integer i))
  | .float => .float32 (UInt32.ofNat (view.word 4 i))
  | .double => .float64 (UInt64.ofNat (view.word 8 i))
  | .bool => .bool (Bits.get view.data (view.offset + i))
  | .string | .largeString =>
    .string ((view.chars.drop (view.word view.offsetSize i)).take
      (view.word view.offsetSize (i + 1) - view.word view.offsetSize i))
  | .other _ => .string []

/-- Slot `i`, with what lies under it where it is null. -/
def slot (view : ArrowArrayView) (i : ℕ) : Entry := ⟨true, view.isValid i, (view.value i).bytes⟩

/-- Slot `i` as a cell of the table. -/
def cell (view : ArrowArrayView) (i : ℕ) : Option Value :=
  if view.isValid i then some (view.value i) else none

/-- The buffers are as large as the format asks for. Offsets of strings never step back, start
inside the characters and end where the characters end, which is how a view measures them; 32-bit
offsets are signed. -/
def FitsBuffers (view : ArrowArrayView) : Prop :=
  match view.storageType with
  | .int8 | .uint8 => view.offset + view.length ≤ view.data.length
  | .int16 | .uint16 => (view.offset + view.length) * 2 ≤ view.data.length
  | .int32 | .uint32 | .float => (view.offset + view.length) * 4 ≤ view.data.length
  | .int64 | .uint64 | .double => (view.offset + view.length) * 8 ≤ view.data.length
  | .bool => view.offset + view.length ≤ 8 * view.data.length
  | .string | .largeString =>
    (view.offset + view.length + 1) * view.offsetSize ≤ view.data.length ∧
      (∀ i, i < view.length → view.word view.offsetSize i ≤ view.word view.offsetSize (i + 1)) ∧
      view.word view.offsetSize view.length = view.chars.length ∧
      (view.storageType = .string → view.chars.length < 2 ^ 31)
  | .other _ => True

/-- The number of nulls the bitmap shows. -/
def nulls (view : ArrowArrayView) : ℕ := (List.range view.length).countP fun i ↦ !view.isValid i

/-- What the C data interface asks of an array. -/
structure Valid (view : ArrowArrayView) : Prop where
  nullCount : view.nullCount = -1 ∨ view.nullCount = view.nulls
  bitmap : ∀ bytes ∈ view.validity, view.offset + view.length ≤ 8 * bytes.length
  buffers : 0 < view.length → view.FitsBuffers

end ArrowArrayView

/-- The field is of a type that gets a column, and this is the type. -/
def ArrowField.Maps (field : ArrowField) (t : ArrowType) (p : PrimitiveType) : Prop :=
  field.type = some t ∧ nanoarrowTypeToPrimitive t = some p

namespace RecordBatch

/-- What the C data interface asks of a record batch with a given schema. -/
structure Conforms (fields : List ArrowField) (batch : RecordBatch) : Prop where
  length : batch.length < 2 ^ 63
  children : batch.children.length = fields.length
  rows : ∀ view ∈ batch.children, batch.offset + batch.length ≤ view.length
  child : ∀ (c : ℕ) (field : ArrowField) (view : ArrowArrayView) (t : ArrowType) (p : PrimitiveType),
    fields[c]? = some field → batch.children[c]? = some view → field.Maps t p →
    view.storageType = t ∧ view.Valid

/-- What `f` sees in the rows of child `c`. -/
def rowsOf {α : Type} (f : ArrowArrayView → ℕ → α) (c : ℕ) (batch : RecordBatch) : List α :=
  (batch.children[c]?.map fun view ↦
    (List.range batch.length).map fun r ↦ f view (batch.offset + r)).getD []

end RecordBatch

/-! ## Tables -/

def ArrowType.isInteger : ArrowType → Bool
  | .int8 | .int16 | .int32 | .int64 | .uint8 | .uint16 | .uint32 | .uint64 => true
  | _ => false

/-- A table: its rows, the timestamp of each, and the cells of column `c` of the schema. -/
structure ArrowTable where
  rowCount : ℕ
  stamps : List ℤ
  cells : ℕ → List (Option Value)

/-- The batches, one after the other, are the table. Its timestamps are the integers of the
timestamp column, none of them null, and the row numbers where there is no such column. -/
structure ArrowTable.Cut (table : ArrowTable) (fields : List ArrowField) (timestampColumn : ℤ)
    (batches : List RecordBatch) : Prop where
  types : ∀ field ∈ fields, field.type ≠ none
  conforms : ∀ batch ∈ batches, batch.Conforms fields
  rowCount : (batches.map (·.length)).sum = table.rowCount
  cells : ∀ (c : ℕ) (field : ArrowField) (t : ArrowType) (p : PrimitiveType),
    fields[c]? = some field → field.Maps t p →
    batches.flatMap (RecordBatch.rowsOf ArrowArrayView.cell c) = table.cells c
  stamps : 0 ≤ timestampColumn → ∃ field t p, fields[timestampColumn.toNat]? = some field ∧
    field.Maps t p ∧ t.isInteger = true ∧
    batches.flatMap (RecordBatch.rowsOf
      (fun view i ↦ if view.isValid i then some (view.integer i) else none) timestampColumn.toNat)
      = table.stamps.map some
  sequential : timestampColumn < 0 → table.stamps = (List.range table.rowCount).map Int.ofNat

/-- What nanoarrow is documented to do, as far as the importer relies on it: a readable schema and
arrays that conform to it are taken, and the typed accessors return the integer in a slot, for
booleans zero or not. -/
structure Nanoarrow.Documented (N : Nanoarrow) : Prop where
  initFromSchema : ∀ fields, (∀ field ∈ fields, ArrowField.type field ≠ none) →
    N.initFromSchema fields = true
  setArray : ∀ fields batch, RecordBatch.Conforms fields batch → N.setArray fields batch = true
  getInt : ∀ view i, ArrowArrayView.Valid view → i < view.length →
    (view.storageType = .int8 ∨ view.storageType = .int16) →
    N.getIntUnsafe view i = .ofInt (view.integer i)
  getBool : ∀ view i, ArrowArrayView.Valid view → i < view.length → view.storageType = .bool →
    (N.getIntUnsafe view i ≠ 0 ↔ Bits.get view.data (view.offset + i) = true)
  getUInt : ∀ view i, ArrowArrayView.Valid view → i < view.length →
    (view.storageType = .uint8 ∨ view.storageType = .uint16 ∨ view.storageType = .uint32) →
    N.getUIntUnsafe view i = .ofInt (view.integer i)

end PlotJuggler
