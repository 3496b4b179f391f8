import PlotJugglerCore.Store.Builder
import PlotJugglerCore.Store.Schema
import PlotJugglerCore.Store.Topic

/-!
# The data writer

`writer.cpp`. A writer keeps, for each topic, an open builder, the chunks it has sealed and not
handed out yet, and a copy of the column list. A call on a topic reads and writes these, the storage
of the topic, which all writers share, and the counter chunk ids are drawn from: that is a
`TopicView`. A call returns the view behind it together with a result or an error, and `none` when
an assertion fails, or when the loop of `appendColumns` never ends.

Chunks come into being in three places: `finishRow` and `appendColumns` seal a full builder,
`sealBeforeLayoutChange` seals one that is about to get the wrong columns, and `flush` seals what
there is.
-/

namespace PlotJuggler

/-- What a writer keeps for one topic: its entries in `builders`, `pending_chunks` and
`topic_columns`. -/
structure TopicWriter where
  builder : Option TopicChunkBuilder := none
  pending : List TopicChunk := []
  columns : List ColumnDescriptor := []
  deriving DecidableEq, Repr

/-- The part of the state that a call on one topic works on. -/
structure TopicView where
  storage : TopicStorage
  writer : TopicWriter := {}
  nextChunkId : ℕ := 1
  deriving DecidableEq, Repr

/-- The errors a call can return, with what their message says. -/
inductive WriteError
  | topicNotFound (topicId : ℕ)
  | outOfOrder (t last : Timestamp)
  | noActiveRow (topicId : ℕ)
  | rowCountMismatch (column rows timestamps : ℕ)
  | validityLengthMismatch (column : ℕ)
  | validityOutOfBounds (column : ℕ)
  | differentType (path : String)
  | rowInProgress (topicId : ℕ)
  | fieldNotFound (path : String)
  | notAnArray (path : String)
  | fixedSizeArray (path : String)
  deriving DecidableEq, Repr

/-- One column of an `appendColumns` call. An empty bitmap means that all rows are valid. -/
structure ColumnData where
  colIndex : ℕ
  data : ColumnSpan
  validity : BitSpan := ⟨[], 0, 0⟩
  deriving DecidableEq, Repr

namespace TopicView

variable (schema : Option TypeTreeNode)

/-! ## Helpers -/

def setBuilder (v : TopicView) (b : TopicChunkBuilder) : TopicView :=
  { v with writer := { v.writer with builder := some b } }

def setColumns (v : TopicView) (cols : List ColumnDescriptor) : TopicView :=
  { v with writer := { v.writer with columns := cols } }

/-- Where the columns of a writer that has none yet come from. -/
def loadColumns (s : TopicStorage) : List ColumnDescriptor :=
  if s.columnDescriptors ≠ [] then s.columnDescriptors
  else
    match schema with
    | some root => buildColumnDescriptors root
    | none => (s.sealedChunks.head?.map fun chunk ↦ chunk.columns.map (·.descriptor)).getD []

def ensureColsLoaded (v : TopicView) : TopicView :=
  if v.writer.columns ≠ [] then v else v.setColumns (loadColumns schema v.storage)

def newBuilder (v : TopicView) : TopicChunkBuilder :=
  .new v.storage.topicId v.storage.descriptor.schemaId v.writer.columns
    v.storage.descriptor.maxChunkRows

/-- The builder `getOrCreateBuilder` returns. -/
def currentBuilder (v : TopicView) : TopicChunkBuilder :=
  v.writer.builder.getD (v.ensureColsLoaded schema).newBuilder

/-- The state `getOrCreateBuilder` leaves. -/
def getOrCreateBuilder (v : TopicView) : TopicView :=
  match v.writer.builder with
  | some _ => v
  | none => (v.ensureColsLoaded schema).setBuilder (v.ensureColsLoaded schema).newBuilder

/-- Seal builder `b`, which is the one of the topic, and stage the chunk. -/
def stage (v : TopicView) (b : TopicChunkBuilder) : TopicView :=
  { v with
    writer := { v.writer with
      builder := none
      pending := v.writer.pending ++ [b.sealChunk v.nextChunkId] }
    nextChunkId := v.nextChunkId + 1 }

def autoSeal (v : TopicView) : TopicView :=
  match v.writer.builder with
  | some b => v.stage b
  | none => v

def sealBeforeLayoutChange (v : TopicView) : TopicView :=
  match v.writer.builder with
  | some b =>
    if 0 < b.rowCount then v.stage b else { v with writer := { v.writer with builder := none } }
  | none => v

/-- Store a builder after rows went in, and seal it when it is full. -/
def putBack (v : TopicView) (b : TopicChunkBuilder) : TopicView :=
  if b.isFull then (v.setBuilder b).autoSeal else v.setBuilder b

theorem putBack_eq (v : TopicView) (b : TopicChunkBuilder) :
    v.putBack b = if b.isFull then v.stage b else v.setBuilder b := rfl

/-! ## Rows -/

def beginRow (v : TopicView) (t : Timestamp) : Option (TopicView × Except WriteError Unit) :=
  if 0 < (v.currentBuilder schema).rowCount ∧ t < (v.currentBuilder schema).lastTimestamp then
    some (v.getOrCreateBuilder schema, .error (.outOfOrder t (v.currentBuilder schema).lastTimestamp))
  else
    ((v.currentBuilder schema).beginRow t).map fun b ↦
      ((v.getOrCreateBuilder schema).setBuilder b, .ok ())

def set (v : TopicView) (i : ℕ) (value : Value) : Option TopicView :=
  v.writer.builder.bind fun b ↦ (b.set i value).map v.setBuilder

def setNull (v : TopicView) (i : ℕ) : Option TopicView :=
  v.writer.builder.bind fun b ↦ (b.setNull i).map v.setBuilder

def finishRow (v : TopicView) : Option (TopicView × Except WriteError Unit) :=
  match v.writer.builder with
  | none => some (v, .error (.noActiveRow v.storage.topicId))
  | some b => b.finishRow.map fun b' ↦ (v.putBack b', .ok ())

/-- Where `beginRow` returns an error, `appendScalar` asserts. The value is widened to the type of the
column. -/
def appendScalar (v : TopicView) (t : Timestamp) (i : ℕ) (value : Value) : Option TopicView :=
  if 0 < (v.currentBuilder schema).rowCount ∧ t < (v.currentBuilder schema).lastTimestamp then none
  else
    ((v.currentBuilder schema).beginRow t).bind fun b ↦ (b.set i value).bind fun b ↦
      b.finishRow.map (v.getOrCreateBuilder schema).putBack

/-- A scalar that is appended is a row of three calls. -/
theorem appendScalar_eq_some {v v' : TopicView} {t : Timestamp} {i : ℕ} {value : Value} :
    v.appendScalar schema t i value = some v' ↔ ∃ v₁ v₂,
      v.beginRow schema t = some (v₁, .ok ()) ∧ v₁.set i value = some v₂ ∧
        v₂.finishRow = some (v', .ok ()) := by
  rw [appendScalar, beginRow]
  split_ifs with horder
  · simp
  rcases hbegin : (v.currentBuilder schema).beginRow t with _ | b
  · simp
  rcases hset : b.set i value with _ | b₂
  · simp [set, setBuilder, hset]
  · simp [set, setBuilder, finishRow, putBack_eq, stage, hset]

/-! ## Bulk -/

/-- The checks on the columns of a batch, in the order the source makes them. -/
def checkColumns (n : ℕ) : List ColumnData → Option WriteError
  | [] => none
  | col :: cols =>
    if col.data.rowCount ≠ n then some (.rowCountMismatch col.colIndex col.data.rowCount n)
    else if col.validity.isEmpty then checkColumns n cols
    else if col.validity.bitLength ≠ n then some (.validityLengthMismatch col.colIndex)
    else if col.validity.bytes.length * 8 < col.validity.bitOffset + col.validity.bitLength then
      some (.validityOutOfBounds col.colIndex)
    else checkColumns n cols

/-- `append_single_column_to_builder` for every column: the slice of the data, and the slice of the
bitmap if there is one. -/
def sliceCalls (cols : List ColumnData) (offset count : ℕ) : List TopicChunkBuilder.BulkCall :=
  cols.flatMap fun col ↦
    .column col.colIndex (col.data.subspan offset count) ::
      if col.validity.isEmpty then []
      else [.validity col.colIndex (col.validity.subspan offset count)]

/-- How many rows the next round of the loop takes. -/
def batchSize (v : TopicView) (total offset : ℕ) : ℕ :=
  min (total - offset) (v.currentBuilder schema).remainingCapacity

/-- One round of the loop. -/
def appendSlice (v : TopicView) (ts : List Timestamp) (cols : List ColumnData)
    (offset count : ℕ) : Option TopicView :=
  ((v.currentBuilder schema).runBatch ((ts.drop offset).take count)
    (sliceCalls cols offset count)).map (v.getOrCreateBuilder schema).putBack

/-- The loop of `appendColumns`. A round that takes no row repeats for ever, so as many rounds as
there are rows are enough for every loop that ends. -/
def appendLoop (ts : List Timestamp) (cols : List ColumnData) :
    ℕ → ℕ → TopicView → Option TopicView
  | 0, offset, v => if offset < ts.length then none else some v
  | fuel + 1, offset, v =>
    if offset < ts.length then
      (v.appendSlice schema ts cols offset (v.batchSize schema ts.length offset)).bind
        (appendLoop ts cols fuel (offset + v.batchSize schema ts.length offset))
    else some v

def appendColumns (v : TopicView) (ts : List Timestamp) (cols : List ColumnData) :
    Option (TopicView × Except WriteError Unit) :=
  match checkColumns ts.length cols, ts with
  | some e, _ => some (v, .error e)
  | none, [] => some (v, .ok ())
  | none, first :: rest =>
    if 0 < (v.currentBuilder schema).rowCount ∧
        first < (v.currentBuilder schema).lastTimestamp then
      some (v.getOrCreateBuilder schema,
        .error (.outOfOrder first (v.currentBuilder schema).lastTimestamp))
    else
      (appendLoop schema (first :: rest) cols (first :: rest).length 0
        (v.getOrCreateBuilder schema)).map fun v' ↦ (v', .ok ())

/-! ## Flush -/

/-- The chunks handed out, and the state behind. A builder without finished rows stays. -/
def flush (v : TopicView) : TopicView × List TopicChunk :=
  match v.writer.builder with
  | some b =>
    if 0 < b.rowCount then
      ({ v with
        writer := { v.writer with builder := none, pending := [] }
        nextChunkId := v.nextChunkId + 1 },
       v.writer.pending ++ [b.sealChunk v.nextChunkId])
    else ({ v with writer := { v.writer with pending := [] } }, v.writer.pending)
  | none => ({ v with writer := { v.writer with pending := [] } }, v.writer.pending)

/-! ## Finding and adding columns -/

def resolveField (v : TopicView) (path : String) : TopicView × Except WriteError ℕ :=
  (v.getOrCreateBuilder schema,
    match (v.getOrCreateBuilder schema).writer.columns.find? fun col ↦ col.fieldPath = path with
    | some col => .ok col.fieldId
    | none => .error (.fieldNotFound path))

/-- The assertion before new columns are numbered. -/
def denseIds (cols : List ColumnDescriptor) : Bool :=
  cols.getLast?.all fun last ↦ last.fieldId = cols.length - 1

def isRowInProgress (v : TopicView) : Bool :=
  v.writer.builder.any (·.rowInProgress)

/-- Write a grown list to the writer and to the storage. -/
def growColumns (v : TopicView) (cols : List ColumnDescriptor) : TopicView :=
  { v.setColumns cols with storage := v.storage.setColumnDescriptors cols }

def ensureColumn (v : TopicView) (path : String) (type : PrimitiveType) :
    Option (TopicView × Except WriteError ℕ) :=
  match (v.ensureColsLoaded schema).writer.columns.find? fun col ↦ col.fieldPath = path with
  | some col =>
    if col.logicalType ≠ type then some (v.ensureColsLoaded schema, .error (.differentType path))
    else some (v.ensureColsLoaded schema, .ok col.fieldId)
  | none =>
    if v.isRowInProgress then
      some (v.ensureColsLoaded schema, .error (.rowInProgress v.storage.topicId))
    else if denseIds (v.ensureColsLoaded schema).writer.columns then
      some ((v.ensureColsLoaded schema).sealBeforeLayoutChange.growColumns
          ((v.ensureColsLoaded schema).writer.columns ++
            [⟨(v.ensureColsLoaded schema).writer.columns.length, type, path⟩]),
        .ok (v.ensureColsLoaded schema).writer.columns.length)
    else none

/-- The element columns of an array in a topic without a schema. -/
def growSchemaless (path : String) (type : PrimitiveType) (cols : List ColumnDescriptor) (i : ℕ) :
    List ColumnDescriptor :=
  if cols.any fun col ↦ col.fieldPath = elementPath path i then cols
  else cols ++ [⟨cols.length, type, elementPath path i⟩]

/-- The element columns of an array of the schema. An element counts as present as soon as one
column lies under it. -/
def growTyped (path : String) (element : Option TypeTreeNode) (cols : List ColumnDescriptor)
    (i : ℕ) : List ColumnDescriptor :=
  if cols.any fun col ↦ col.fieldPath = elementPath path i ∨
      col.fieldPath.startsWith (elementPath path i ++ ".") then cols
  else cols ++ numberFrom cols.length (flattenOptionalElement element (elementPath path i))

/-- The check of the array field against the schema. -/
def checkArray (path : String) : Except WriteError (Option TypeTreeNode) :=
  match schema with
  | none => .ok none
  | some root =>
    match findChildAtPath root path with
    | none => .error (.fieldNotFound path)
    | some node =>
      if node.kind ≠ .array then .error (.notAnArray path)
      else if node.fixedArraySize.isSome then .error (.fixedSizeArray path)
      else .ok (some node)

/-- The column list after elements `current` to `actual` got their columns. -/
def expandedColumns (path : String) (type : PrimitiveType) (node : Option TypeTreeNode)
    (current actual : ℕ) (cols : List ColumnDescriptor) : List ColumnDescriptor :=
  (List.range' current (actual - current)).foldl
    (match node with
      | none => growSchemaless path type
      | some node => growTyped path node.elementType) cols

def mapStorage (v : TopicView) (f : TopicStorage → TopicStorage) : TopicView :=
  { v with storage := f v.storage }

/-- The part of `expandArray` behind the checks. -/
def expandTo (v : TopicView) (path : String) (type : PrimitiveType) (node : Option TypeTreeNode)
    (current actual : ℕ) : Option (TopicView × Except WriteError ℕ) :=
  if denseIds (v.sealBeforeLayoutChange.ensureColsLoaded schema).writer.columns then
    some (((v.sealBeforeLayoutChange.ensureColsLoaded schema).growColumns
        (expandedColumns path type node current actual
          (v.sealBeforeLayoutChange.ensureColsLoaded schema).writer.columns)).mapStorage
        (·.setArrayExpansionCount path actual),
      .ok actual)
  else none

/-- The part of `expandArray` behind the schema check: clamp, and refuse inside a row. -/
def expandClamped (v : TopicView) (path : String) (newLength : ℕ) (type : PrimitiveType)
    (node : Option TypeTreeNode) : Option (TopicView × Except WriteError ℕ) :=
  if min newLength v.storage.descriptor.arrayExpansionLimit ≤ v.storage.arrayExpansionCount path then
    some (v, .ok (v.storage.arrayExpansionCount path))
  else if v.isRowInProgress then some (v, .error (.rowInProgress v.storage.topicId))
  else v.expandTo schema path type node (v.storage.arrayExpansionCount path)
    (min newLength v.storage.descriptor.arrayExpansionLimit)

/-- Count a sample that is longer than the limit. -/
def noteTruncation (v : TopicView) (newLength : ℕ) : TopicView :=
  if v.storage.descriptor.arrayExpansionLimit < newLength then
    v.mapStorage (·.incrementTruncatedSampleCount)
  else v

def expandArray (v : TopicView) (path : String) (newLength : ℕ) (type : PrimitiveType) :
    Option (TopicView × Except WriteError ℕ) :=
  if newLength ≤ v.storage.arrayExpansionCount path then
    some (v.mapStorage (·.updateMaxObservedArrayLength newLength),
      .ok (v.storage.arrayExpansionCount path))
  else
    match checkArray schema path with
    | .error e => some (v.mapStorage (·.updateMaxObservedArrayLength newLength), .error e)
    | .ok node =>
      ((v.mapStorage (·.updateMaxObservedArrayLength newLength)).noteTruncation
        newLength).expandClamped schema path newLength type node

end TopicView

end PlotJuggler
