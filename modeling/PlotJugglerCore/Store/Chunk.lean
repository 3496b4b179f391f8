import PlotJugglerCore.Store.Encoding

/-!
# Chunks and their builder

`chunk.cpp`: the builder a writer fills row by row or batch by batch, `seal`, and the readers of a
sealed chunk. The builder keeps three vectors of the same length (buffers, statistics, last values);
here they are one list of `ColumnBuilder` records, and an operation on column `c` touches entry `c`
only. A failed assertion is `none`: the program ends there and no chunk comes out.

The statistics are kept as the source keeps them, because `seal` looks at `isConstant` to choose
the encoding of a `uint64` or `bool` column. Row by row a value is compared with the last value as a
double, unless it is the very first row. In bulk it is compared unless no run has been counted yet.
-/

namespace PlotJuggler

open LittleEndian

abbrev Timestamp := Int64

/-! ## Statistics of a column -/

structure ColumnStats where
  nullCount : ℕ := 0
  runCount : ℕ := 0
  isConstant : Bool := true
  minValue : Option Binary64 := none
  maxValue : Option Binary64 := none
  deriving DecidableEq, Repr

namespace ColumnStats

def addNull (s : ColumnStats) : ColumnStats := { s with nullCount := s.nullCount + 1 }

def firstRun (s : ColumnStats) : ColumnStats := { s with runCount := 1 }

def nextRun (s : ColumnStats) : ColumnStats :=
  { s with isConstant := false, runCount := s.runCount + 1 }

/-- The minimum and maximum of `updateColumnStats`. -/
def addBounds (s : ColumnStats) (value : Binary64) : ColumnStats :=
  { s with
    minValue := if s.minValue.all (Binary64.lt value) then some value else s.minValue
    maxValue := if s.maxValue.all (fun m ↦ Binary64.lt m value) then some value else s.maxValue }

end ColumnStats

/-- One column of the builder: `columns_[i]`, `stats_.column_stats[i]`, `last_column_values_[i]`. -/
structure ColumnBuilder where
  buffer : TypedColumnBuffer
  stats : ColumnStats := {}
  lastValue : Binary64 := .zero
  deriving DecidableEq, Repr

namespace ColumnBuilder

def kind (c : ColumnBuilder) : StorageKind := c.buffer.kind

def new (d : ColumnDescriptor) : ColumnBuilder := { buffer := { descriptor := d } }

/-- Called after the value was appended, so the current row is the last one of the buffer. -/
def updateColumnStats (c : ColumnBuilder) (value : Binary64) : ColumnBuilder :=
  { c with
    stats :=
      if c.buffer.rowCount - 1 = 0 then (c.stats.addBounds value).firstRun
      else if Binary64.eq value c.lastValue then c.stats.addBounds value
      else (c.stats.addBounds value).nextRun
    lastValue := value }

/-- The statistics of `set<std::string_view>`. -/
def updateStringStats (c : ColumnBuilder) (value : List UInt8) : ColumnBuilder :=
  { c with
    stats :=
      if c.buffer.rowCount - 1 = 0 then c.stats.firstRun
      else if value = c.buffer.readString (c.buffer.rowCount - 1 - 1) then c.stats
      else c.stats.nextRun }

def set (c : ColumnBuilder) (v : Value) : Option ColumnBuilder :=
  (c.buffer.append v).map fun b ↦
    match v with
    | .string s => { c with buffer := b }.updateStringStats s
    | v => { c with buffer := b }.updateColumnStats v.toDouble

def setNull (c : ColumnBuilder) : ColumnBuilder :=
  { c with buffer := c.buffer.appendNull, stats := c.stats.addNull }

/-! ### Bulk statistics -/

/-- The variables of the loop of `computeBulkNumericStats`. -/
structure NumericScan where
  stats : ColumnStats
  localMin : Binary64
  localMax : Binary64
  prev : Binary64
  hadValid : Bool

/-- One round: a row that is `valid` or not, and its value. -/
def NumericScan.step (s : NumericScan) (valid : Bool) (v : Binary64) : NumericScan :=
  if valid then
    { stats :=
        if !s.hadValid then s.stats.firstRun
        else if Binary64.eq v s.prev then s.stats else s.stats.nextRun
      localMin := if Binary64.lt v s.localMin then v else s.localMin
      localMax := if Binary64.lt s.localMax v then v else s.localMax
      prev := v
      hadValid := true }
  else { s with stats := s.stats.addNull }

/-- A row counts unless the column has nulls and it is one of them. -/
def countsAsValid (b : TypedColumnBuffer) (row : ℕ) : Bool := !b.hasNulls || b.isValid row

def computeBulkNumericStats (c : ColumnBuilder) (firstRow count : ℕ) : ColumnBuilder :=
  finish <| ((List.range count).map (firstRow + ·)).foldl
    (fun s row ↦ s.step (countsAsValid c.buffer row) (c.buffer.readAsDouble row))
    { stats := c.stats
      localMin := c.stats.minValue.getD .largest
      localMax := c.stats.maxValue.getD .lowest
      prev := c.lastValue
      hadValid := decide (0 < c.stats.runCount) }
where
  finish (s : NumericScan) : ColumnBuilder :=
    { c with
      stats := if s.hadValid then
          { s.stats with minValue := some s.localMin, maxValue := some s.localMax }
        else s.stats
      lastValue := s.prev }

/-- One round of the loop of `computeBulkStringStats`. -/
def stringStep (b : TypedColumnBuffer) (s : ColumnStats × Option (List UInt8)) (row : ℕ) :
    ColumnStats × Option (List UInt8) :=
  if countsAsValid b row then
    (match s.2 with
      | none => s.1.firstRun
      | some last => if b.readString row = last then s.1 else s.1.nextRun,
     some (b.readString row))
  else (s.1.addNull, s.2)

/-- The last valid string before `firstRow`. -/
def lastValidString (b : TypedColumnBuffer) (firstRow : ℕ) : Option (List UInt8) :=
  ((List.range firstRow).reverse.find? (countsAsValid b)).map b.readString

def computeBulkStringStats (c : ColumnBuilder) (firstRow count : ℕ) : ColumnBuilder :=
  { c with
    stats := (((List.range count).map (firstRow + ·)).foldl (stringStep c.buffer)
      (c.stats, if 0 < firstRow ∧ 0 < c.stats.runCount then lastValidString c.buffer firstRow
        else none)).1 }

/-- The part of `finishBulkAppend` about one column. -/
def finishBulk (c : ColumnBuilder) (count : ℕ) : Option ColumnBuilder :=
  if count ≤ c.buffer.rowCount then
    if c.kind = .string then some (c.computeBulkStringStats (c.buffer.rowCount - count) count)
    else some (c.computeBulkNumericStats (c.buffer.rowCount - count) count)
  else none

end ColumnBuilder

/-! ## Sealed chunks -/

inductive EncodedData
  | raw (buf : List UInt8)
  | constant (enc : ConstantEncoded)
  | frameOfReference (enc : FrameOfReferenceEncoded)
  | dictionary (enc : DictionaryEncoded)
  | packedBools (enc : PackedBools)
  deriving DecidableEq, Repr

/-- `TopicChunk::Column`. -/
structure Column where
  data : EncodedData
  validityBitmap : Option BitVector
  descriptor : ColumnDescriptor
  deriving DecidableEq, Repr

/-- Reference and offset are rounded first, and so is their sum. Both are integers below `2 ^ 64`. -/
def forDecodeOneAsDouble (enc : FrameOfReferenceEncoded) (row : ℕ) : Binary64 :=
  .ofInt ((Binary64.ofInt enc.reference.toInt).truncate +
    (Binary64.ofNat (forReadOffset enc.offsets row enc.offsetBytes).toNat).truncate)

/-- As long as both are exact as doubles, only the sum is rounded. -/
theorem forDecodeOneAsDouble_eq {enc : FrameOfReferenceEncoded} {row : ℕ}
    (href : enc.reference.toInt.natAbs < 2 ^ 53)
    (hoff : (forReadOffset enc.offsets row enc.offsetBytes).toNat < 2 ^ 53) :
    forDecodeOneAsDouble enc row =
      .ofInt (enc.reference.toInt + (forReadOffset enc.offsets row enc.offsetBytes).toNat) := by
  rw [forDecodeOneAsDouble, Binary64.truncate_ofInt href, Binary64.truncate_ofNat hoff]

/-- `static_cast<double>` of a numeric value; bools and strings give zero. -/
def Value.asDouble (v : Value) : Binary64 :=
  match v.kind with
  | .bool => .zero
  | .string => .zero
  | _ => v.toDouble

namespace Column

def readNumericAsDouble (c : Column) (row : ℕ) : Binary64 :=
  match c.data with
  | .raw buf =>
    (c.descriptor.kind.decode (element buf (storageKindSize c.descriptor.kind) row)).asDouble
  | .constant enc => enc.value.asDouble
  | .frameOfReference enc => forDecodeOneAsDouble enc row
  | _ => .zero

def readNumericAsInt64 (c : Column) (row : ℕ) : Int64 :=
  match c.data with
  | .raw buf => readInteger buf c.descriptor.kind row
  | .constant enc => constantDecodeAsInt64 enc
  | .frameOfReference enc => forDecodeOneAsInt64 enc row
  | _ => 0

def readNumericAsUint64 (c : Column) (row : ℕ) : UInt64 :=
  match c.data with
  | .raw buf =>
    (c.descriptor.kind.decode (element buf (storageKindSize c.descriptor.kind) row)).asUint64
  | .constant enc => constantDecodeAsUint64 enc
  | .frameOfReference enc => (forDecodeOneAsInt64 enc row).toUInt64
  | _ => 0

/-- `std::get` on the variant: a column in another form throws. -/
def readString (c : Column) (row : ℕ) : Option (List UInt8) :=
  match c.data with
  | .dictionary enc => some (dictionaryLookup enc row)
  | _ => none

def readBool (c : Column) (row : ℕ) : Bool :=
  match c.data with
  | .constant enc => enc.valueBytes.headD 0 != 0
  | .packedBools enc => unpackBool enc row
  | _ => false

def isNull (c : Column) (row : ℕ) : Bool :=
  match c.validityBitmap with
  | none => false
  | some bm => !bm.isEmpty && !bm.isValid row

/-- How many rows the data of a column decodes to. -/
def rowCount (c : Column) : ℕ :=
  match c.data with
  | .raw buf => buf.length / storageKindSize c.descriptor.kind
  | .constant enc => enc.count
  | .frameOfReference enc => enc.count
  | .dictionary enc => enc.count
  | .packedBools enc => enc.count

end Column

structure ChunkStats where
  tMin : Timestamp
  tMax : Timestamp
  rowCount : ℕ
  columnStats : List ColumnStats
  deriving DecidableEq, Repr

structure TopicChunk where
  id : ℕ
  topicId : ℕ
  schemaVersion : ℕ
  stats : ChunkStats
  timestamps : List Timestamp
  columns : List Column
  deriving DecidableEq, Repr

namespace TopicChunk

/-- The typed readers of a chunk, `none` when there is no such column. -/
def isNull (chunk : TopicChunk) (col row : ℕ) : Option Bool :=
  chunk.columns[col]?.map (·.isNull row)

def readNumericAsDouble (chunk : TopicChunk) (col row : ℕ) : Option Binary64 :=
  chunk.columns[col]?.map (·.readNumericAsDouble row)

def readNumericAsInt64 (chunk : TopicChunk) (col row : ℕ) : Option Int64 :=
  chunk.columns[col]?.map (·.readNumericAsInt64 row)

def readNumericAsUint64 (chunk : TopicChunk) (col row : ℕ) : Option UInt64 :=
  chunk.columns[col]?.map (·.readNumericAsUint64 row)

def readString (chunk : TopicChunk) (col row : ℕ) : Option (List UInt8) :=
  chunk.columns[col]?.bind (·.readString row)

def readBool (chunk : TopicChunk) (col row : ℕ) : Option Bool :=
  chunk.columns[col]?.map (·.readBool row)

end TopicChunk

/-! ## Sealing a column -/

namespace ColumnBuilder

/-- The integer branch of `seal`: minimum, maximum and constancy from an exact scan. -/
def encodeInteger (b : TypedColumnBuffer) : EncodedData :=
  encodeValues ((List.range b.rowCount).map (readInteger b.values b.kind))
where
  encodeValues (vs : List Int64) : EncodedData :=
    if vs.all (· = vs.headD 0) && decide (0 < b.rowCount) then
      .constant (constantEncode b.values b.kind b.rowCount)
    else if 0 < b.rowCount ∧
        offsetBytesFor (vs.foldl max Int64.minValue - vs.foldl min Int64.maxValue).toUInt64
          < storageKindSize b.kind then
      .frameOfReference (forEncode b.values b.kind b.rowCount
        (vs.foldl min Int64.maxValue) (vs.foldl max Int64.minValue))
    else .raw b.values

def encode (c : ColumnBuilder) : EncodedData :=
  match c.kind with
  | .string =>
    .dictionary (dictionaryEncodeStrings c.buffer.offsets c.buffer.values c.buffer.rowCount)
  | .bool =>
    if c.stats.isConstant && decide (0 < c.buffer.rowCount) then
      .constant (constantEncode c.buffer.values .bool c.buffer.rowCount)
    else .packedBools (packBools (c.buffer.values.take c.buffer.rowCount))
  | .int32 => encodeInteger c.buffer
  | .int64 => encodeInteger c.buffer
  | k =>
    if c.stats.isConstant && decide (0 < c.buffer.rowCount) then
      .constant (constantEncode c.buffer.values k c.buffer.rowCount)
    else .raw c.buffer.values

/-- The part of `seal` about one column. -/
def sealColumn (c : ColumnBuilder) : Column where
  data := c.encode
  validityBitmap := if c.buffer.hasNulls then some c.buffer.validity else none
  descriptor := c.buffer.descriptor

end ColumnBuilder

/-! ## The builder -/

structure TopicChunkBuilder where
  topicId : ℕ
  schemaId : ℕ
  maxRows : ℕ
  columns : List ColumnBuilder
  timestamps : List Timestamp := []
  tMin : Timestamp := Int64.maxValue
  tMax : Timestamp := Int64.minValue
  rowCount : ℕ := 0
  rowInProgress : Bool := false
  currentTimestamp : Timestamp := 0
  lastTimestamp : Timestamp := Int64.minValue
  bulkPendingRows : ℕ := 0
  deriving DecidableEq, Repr

namespace TopicChunkBuilder

def new (topicId schemaId : ℕ) (columns : List ColumnDescriptor) (maxRows : ℕ) :
    TopicChunkBuilder where
  topicId := topicId
  schemaId := schemaId
  maxRows := maxRows
  columns := columns.map ColumnBuilder.new

/-- Replace column `c` by what `f` makes of it. -/
def updateColumn (b : TopicChunkBuilder) (c : ℕ) (f : ColumnBuilder → Option ColumnBuilder) :
    Option TopicChunkBuilder :=
  b.columns[c]?.bind fun col ↦ (f col).map fun col' ↦ { b with columns := b.columns.set c col' }

def beginRow (b : TopicChunkBuilder) (t : Timestamp) : Option TopicChunkBuilder :=
  if !b.rowInProgress ∧ b.lastTimestamp ≤ t then
    some { b with rowInProgress := true, currentTimestamp := t, lastTimestamp := t }
  else none

def set (b : TopicChunkBuilder) (c : ℕ) (v : Value) : Option TopicChunkBuilder :=
  if b.rowInProgress then b.updateColumn c (·.set v) else none

def setNull (b : TopicChunkBuilder) (c : ℕ) : Option TopicChunkBuilder :=
  if b.rowInProgress then b.updateColumn c (some ·.setNull) else none

/-- Pad a column that got no value in this row. -/
def padColumn (expected : ℕ) (c : ColumnBuilder) : ColumnBuilder :=
  if c.buffer.rowCount < expected then c.setNull else c

def finishRow (b : TopicChunkBuilder) : Option TopicChunkBuilder :=
  if b.rowInProgress then
    some { b with
      columns := b.columns.map (padColumn (b.rowCount + 1))
      timestamps := b.timestamps ++ [b.currentTimestamp]
      tMin := min b.tMin b.currentTimestamp
      tMax := max b.tMax b.currentTimestamp
      rowCount := b.rowCount + 1
      rowInProgress := false }
  else none

def appendTimestamps (b : TopicChunkBuilder) (ts : List Timestamp) : Option TopicChunkBuilder :=
  if b.rowInProgress then none
  else
    match ts with
    | [] => some b
    | first :: rest =>
      if b.lastTimestamp ≤ first then
        some { b with
          timestamps := b.timestamps ++ (first :: rest)
          tMin := min b.tMin first
          tMax := max b.tMax (rest.getLastD first)
          lastTimestamp := rest.getLastD first
          bulkPendingRows := (first :: rest).length }
      else none

/-- `appendColumn` and `appendColumnStrings`. -/
def appendColumn (b : TopicChunkBuilder) (c : ℕ) (d : ColumnSpan) : Option TopicChunkBuilder :=
  b.updateColumn c fun col ↦ (col.buffer.appendBulk d).map fun buf ↦ { col with buffer := buf }

def appendColumnValidity (b : TopicChunkBuilder) (c : ℕ) (v : BitSpan) :
    Option TopicChunkBuilder :=
  b.updateColumn c fun col ↦ some { col with buffer := col.buffer.appendValidityBulk v }

def finishBulkAppend (b : TopicChunkBuilder) : Option TopicChunkBuilder :=
  if b.rowInProgress then none
  else if b.bulkPendingRows = 0 then some b
  else
    (b.columns.mapM (ColumnBuilder.finishBulk · b.bulkPendingRows)).map fun columns ↦
      { b with
        columns := columns
        rowCount := b.rowCount + b.bulkPendingRows
        bulkPendingRows := 0 }

/-- `max_rows_ - rowCount()`. A writer seals a builder that is full, so its builders never hold
more than `maxRows` rows and the unsigned difference never wraps. -/
def remainingCapacity (b : TopicChunkBuilder) : ℕ := b.maxRows - b.rowCount

def isFull (b : TopicChunkBuilder) : Bool := b.maxRows ≤ b.rowCount

/-- `seal`. The id is drawn by the caller from the counter all builders share. -/
def sealChunk (b : TopicChunkBuilder) (id : ℕ) : TopicChunk where
  id := id
  topicId := b.topicId
  schemaVersion := b.schemaId
  stats := ⟨b.tMin, b.tMax, b.rowCount, b.columns.map (·.stats)⟩
  timestamps := b.timestamps
  columns := b.columns.map (·.sealColumn)

end TopicChunkBuilder

end PlotJuggler
