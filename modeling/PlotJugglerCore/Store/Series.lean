import PlotJugglerCore.Lib.Loop
import PlotJugglerCore.Store.Query

/-!
# A column as a time series

`query.cpp`, second half: `SeriesReader` and its cursor show one column of a topic as a list of
samples. A row is a sample if its chunk has the column and the cell is not null; all other rows are
invisible, and the index of a sample counts samples, not rows.

The reader has no index of its own. Every function walks the chunks again and counts on the way, and
four of them leave chunks or rows out by their timestamps. The list they all speak about is
`samplesOf`, and each loop is shown to be what the same loop would be on that list.
-/

namespace PlotJuggler

/-! ## The code -/

/-- `Range<T>`. -/
structure Range (α : Type) where
  min : α
  max : α
  deriving DecidableEq, Repr

def normalized (range : Range Timestamp) : Range Timestamp :=
  if range.max < range.min then ⟨range.max, range.min⟩ else range

/-- A sample of a series; the pointer to the chunk is its position. -/
structure SeriesSample where
  timestamp : Timestamp
  value : Binary64
  chunk : ℕ
  rowIndex : ℕ
  deriving DecidableEq, Repr

/-- A cell as a double: a bool is one or zero. -/
def Column.seriesValue (c : Column) (row : ℕ) : Binary64 :=
  if c.descriptor.logicalType = .bool then
    if c.readBool row then .one else .zero
  else c.readNumericAsDouble row

def readSeriesValue (chunk : TopicChunk) (column row : ℕ) : Option Binary64 :=
  chunk.columns[column]?.bind fun c ↦
    if chunk.stats.rowCount ≤ row ∨ c.isNull row then none else some (c.seriesValue row)

/-- `none` is the assertion that there is a value. The chunk has position `i`. -/
def makeSeriesSample (i : ℕ) (chunk : TopicChunk) (column row : ℕ) : Option SeriesSample :=
  (readSeriesValue chunk column row).map fun value ↦ ⟨chunk.readTimestamp row, value, i, row⟩

structure SeriesCursor where
  chunks : List TopicChunk
  columnIndex : ℕ
  timeRange : Range Timestamp
  chunkIndex : ℕ
  rowIndex : ℕ
  deriving DecidableEq, Repr

namespace SeriesCursor

/-- How the search among the rows of one chunk ends, with the row it ends at. -/
inductive RowSearch
  | found (row : ℕ)
  | beyond (row : ℕ)
  | exhausted
  deriving DecidableEq, Repr

/-- The inner loop of `skipToSample` over the rows that are left. -/
def searchRows (range : Range Timestamp) (column : ℕ) (chunk : TopicChunk) : List ℕ → RowSearch
  | [] => .exhausted
  | row :: rows =>
    if chunk.readTimestamp row < range.min then searchRows range column chunk rows
    else if range.max < chunk.readTimestamp row then .beyond row
    else if (readSeriesValue chunk column row).isSome then .found row
    else searchRows range column chunk rows

/-- The outer loop over the chunks that are left, of which the first has position `i`: the chunk and
the row it ends at. -/
def searchChunks (range : Range Timestamp) (column : ℕ) : List TopicChunk → ℕ → ℕ → ℕ × ℕ
  | [], i, row => (i, row)
  | chunk :: chunks, i, row =>
    if chunk.stats.rowCount = 0 ∨ chunk.stats.tMax < range.min ∨ chunk.columns.length ≤ column then
      searchChunks range column chunks (i + 1) 0
    else if range.max < chunk.stats.tMin then (i + (chunk :: chunks).length, row)
    else
      match searchRows range column chunk (List.range' row (chunk.stats.rowCount - row)) with
      | .found row => (i, row)
      | .beyond row => (i + (chunk :: chunks).length, row)
      | .exhausted => searchChunks range column chunks (i + 1) 0

def skipToSample (c : SeriesCursor) : SeriesCursor :=
  let p := searchChunks c.timeRange c.columnIndex (c.chunks.drop c.chunkIndex) c.chunkIndex c.rowIndex
  { c with chunkIndex := p.1, rowIndex := p.2 }

@[simp] theorem skipToSample_chunks (c : SeriesCursor) : c.skipToSample.chunks = c.chunks := rfl

def new (chunks : List TopicChunk) (column : ℕ) (timeRange : Range Timestamp) : SeriesCursor :=
  skipToSample ⟨chunks, column, normalized timeRange, 0, 0⟩

/-- `none` is the assertion that the cursor is valid. -/
def current (c : SeriesCursor) : Option SeriesSample :=
  c.chunks[c.chunkIndex]?.bind fun chunk ↦
    makeSeriesSample c.chunkIndex chunk c.columnIndex c.rowIndex

def advance (c : SeriesCursor) : Option SeriesCursor :=
  c.chunks[c.chunkIndex]?.map fun _ ↦ skipToSample { c with rowIndex := c.rowIndex + 1 }

/-- How far a cursor can still go: chunks, then rows of the current chunk. -/
def room (c : SeriesCursor) : ℕ × ℕ :=
  (c.chunks.length - c.chunkIndex,
    ((c.chunks[c.chunkIndex]?.map (·.stats.rowCount)).getD 0) - c.rowIndex)

theorem mem_of_searchRows {range : Range Timestamp} {column : ℕ} {chunk : TopicChunk}
    {rows : List ℕ} {row : ℕ} (h : searchRows range column chunk rows = .found row) : row ∈ rows := by
  induction rows with
  | nil => cases h
  | cons first rows ih =>
    rw [searchRows] at h
    split_ifs at h
    · exact List.mem_cons_of_mem _ (ih h)
    · rw [RowSearch.found.inj h]
      exact List.mem_cons_self
    · exact List.mem_cons_of_mem _ (ih h)

theorem le_searchChunks (range : Range Timestamp) (column : ℕ) (left : List TopicChunk) (i row : ℕ) :
    i ≤ (searchChunks range column left i row).1 := by
  induction left generalizing i row with
  | nil => exact le_rfl
  | cons chunk left ih =>
    rw [searchChunks]
    split_ifs
    · exact (Nat.le_succ i).trans (ih (i + 1) 0)
    · exact Nat.le_add_right i _
    · split
      · exact le_rfl
      · exact Nat.le_add_right i _
      · exact (Nat.le_succ i).trans (ih (i + 1) 0)

/-- The search ends in a later chunk, or in this one at a row that is not before the given one. -/
theorem searchChunks_forward (range : Range Timestamp) (column : ℕ) (chunk : TopicChunk)
    (left : List TopicChunk) (i row : ℕ) :
    i < (searchChunks range column (chunk :: left) i row).1 ∨
      (searchChunks range column (chunk :: left) i row).1 = i ∧
        row ≤ (searchChunks range column (chunk :: left) i row).2 ∧
        (searchChunks range column (chunk :: left) i row).2 < chunk.stats.rowCount := by
  have hlater := le_searchChunks range column left (i + 1) 0
  rw [searchChunks]
  split_ifs
  · exact .inl hlater
  · exact .inl (Nat.lt_add_of_pos_right (Nat.succ_pos _))
  · split
    · next found hfound =>
      have hmem := List.mem_range'_1.mp (mem_of_searchRows hfound)
      exact .inr ⟨rfl, hmem.1, by omega⟩
    · exact .inl (Nat.lt_add_of_pos_right (Nat.succ_pos _))
    · exact .inl hlater

theorem room_advance {c c' : SeriesCursor} (h : c.advance = some c') :
    Prod.Lex (· < ·) (· < ·) c'.room c.room := by
  obtain ⟨chunk, hchunk, rfl⟩ := Option.map_eq_some_iff.mp h
  obtain ⟨hlt, hget⟩ := List.getElem?_eq_some_iff.mp hchunk
  have hdrop : c.chunks.drop c.chunkIndex = chunk :: c.chunks.drop (c.chunkIndex + 1) := by
    rw [← List.getElem_cons_drop hlt, hget]
  have hforward := searchChunks_forward c.timeRange c.columnIndex chunk
    (c.chunks.drop (c.chunkIndex + 1)) c.chunkIndex (c.rowIndex + 1)
  rw [← hdrop] at hforward
  rcases hforward with hnext | ⟨hsame, hle, hrow⟩
  · apply Prod.Lex.left
    show c.chunks.length - _ < c.chunks.length - c.chunkIndex
    exact Nat.sub_lt_sub_left hlt hnext
  · have hroom : c.room = (c.chunks.length - c.chunkIndex, chunk.stats.rowCount - c.rowIndex) := by
      rw [room, hchunk]
      rfl
    rw [hroom, room]
    simp only [skipToSample, hsame, hchunk, Option.map_some, Option.getD_some]
    apply Prod.Lex.right
    omega

/-- The samples `forEach` hands to its callback. -/
def forEach (c : SeriesCursor) : List SeriesSample :=
  match c.current, _h : c.advance with
  | some sample, some c' => sample :: forEach c'
  | _, _ => []
termination_by c.room
decreasing_by exact room_advance _h

end SeriesCursor

structure SeriesBounds where
  time : Range Timestamp := ⟨Int64.minValue, Int64.maxValue⟩
  value : Range Binary64 := ⟨.lowest, .largest⟩
  sampleCount : ℕ := 0
  deriving DecidableEq, Repr

/-- The variables of `bounds`. -/
structure BoundsScan where
  result : SeriesBounds := {}
  foundTime : Bool := false
  foundValue : Bool := false
  deriving DecidableEq, Repr

namespace BoundsScan

def addTime (b : BoundsScan) (t : Timestamp) : BoundsScan :=
  { b with
    result.time :=
      if b.foundTime then ⟨min b.result.time.min t, max b.result.time.max t⟩ else ⟨t, t⟩
    foundTime := true }

def addValue (b : BoundsScan) (v : Binary64) : BoundsScan :=
  if Binary64.isFinite v then
    { b with
      result.value :=
        if b.foundValue then
          ⟨if Binary64.lt v b.result.value.min then v else b.result.value.min,
            if Binary64.lt b.result.value.max v then v else b.result.value.max⟩
        else ⟨v, v⟩
      foundValue := true }
  else b

/-- The callback of `bounds`. -/
def step (b : BoundsScan) (sample : SeriesSample) : BoundsScan :=
  let b := (b.addTime sample.timestamp).addValue sample.value
  { b with result.sampleCount := b.result.sampleCount + 1 }

end BoundsScan

structure SeriesReader where
  chunks : List TopicChunk
  columnIndex : ℕ
  deriving DecidableEq, Repr

namespace SeriesReader

/-- The count of the samples of one chunk, on top of `count`. -/
def countRows (column : ℕ) (chunk : TopicChunk) (count : ℕ) : ℕ :=
  (List.range chunk.stats.rowCount).foldl
    (fun count row ↦ if (readSeriesValue chunk column row).isSome then count + 1 else count) count

def size (r : SeriesReader) : ℕ :=
  r.chunks.foldl (fun count chunk ↦
    if chunk.columns.length ≤ r.columnIndex then count
    else countRows r.columnIndex chunk count) 0

def empty (r : SeriesReader) : Bool := r.size = 0

/-- The loop of `sampleAt` over the rows of the chunk at position `i`. -/
def sampleAtRow (column index i : ℕ) (chunk : TopicChunk) (seriesIndex row : ℕ) :
    Except (Option SeriesSample) ℕ :=
  if (readSeriesValue chunk column row).isNone then .ok seriesIndex
  else if seriesIndex = index then .error (makeSeriesSample i chunk column row)
  else .ok (seriesIndex + 1)

def sampleAtChunk (column index seriesIndex : ℕ) (p : TopicChunk × ℕ) :
    Except (Option SeriesSample) ℕ :=
  if p.1.columns.length ≤ column then .ok seriesIndex
  else (List.range p.1.stats.rowCount).foldlM (sampleAtRow column index p.2 p.1) seriesIndex

def sampleAt (r : SeriesReader) (index : ℕ) : Option SeriesSample :=
  Loop.returning (sampleAtChunk r.columnIndex index) (fun _ ↦ none) r.chunks.zipIdx 0

/-- The loop of `indexAtOrBeforeTime` over the rows of a chunk, on `latest` and `series_index`. -/
def beforeRow (column : ℕ) (t : Timestamp) (chunk : TopicChunk) (s : Option ℕ × ℕ) (row : ℕ) :
    Except (Option ℕ) (Option ℕ × ℕ) :=
  if t < chunk.readTimestamp row then .error s.1
  else if (readSeriesValue chunk column row).isSome then .ok (some s.2, s.2 + 1)
  else .ok s

/-- The `break` leads to the same `return` as the end of the loop. -/
def beforeChunk (column : ℕ) (t : Timestamp) (s : Option ℕ × ℕ) (chunk : TopicChunk) :
    Except (Option ℕ) (Option ℕ × ℕ) :=
  if chunk.stats.rowCount = 0 ∨ chunk.columns.length ≤ column then .ok s
  else if t < chunk.stats.tMin then .error s.1
  else (List.range chunk.stats.rowCount).foldlM (beforeRow column t chunk) s

def indexAtOrBeforeTime (r : SeriesReader) (t : Timestamp) : Option ℕ :=
  Loop.returning (beforeChunk r.columnIndex t) Prod.fst r.chunks (none, 0)

/-- The loop of `indexAtOrAfterTime` over the rows of a chunk that does not end before `t`. -/
def afterRow (column : ℕ) (t : Timestamp) (chunk : TopicChunk) (seriesIndex row : ℕ) :
    Except (Option ℕ) ℕ :=
  if (readSeriesValue chunk column row).isNone then .ok seriesIndex
  else if t ≤ chunk.readTimestamp row then .error (some seriesIndex)
  else .ok (seriesIndex + 1)

def afterChunk (column : ℕ) (t : Timestamp) (seriesIndex : ℕ) (chunk : TopicChunk) :
    Except (Option ℕ) ℕ :=
  if chunk.stats.rowCount = 0 ∨ chunk.columns.length ≤ column then .ok seriesIndex
  else if chunk.stats.tMax < t then .ok (countRows column chunk seriesIndex)
  else (List.range chunk.stats.rowCount).foldlM (afterRow column t chunk) seriesIndex

def indexAtOrAfterTime (r : SeriesReader) (t : Timestamp) : Option ℕ :=
  Loop.returning (afterChunk r.columnIndex t) (fun _ ↦ none) r.chunks 0

def sampleAtOrBeforeTime (r : SeriesReader) (t : Timestamp) : Option SeriesSample :=
  (r.indexAtOrBeforeTime t).bind r.sampleAt

def sampleAtOrAfterTime (r : SeriesReader) (t : Timestamp) : Option SeriesSample :=
  (r.indexAtOrAfterTime t).bind r.sampleAt

def samples (r : SeriesReader) (timeRange : Range Timestamp) : SeriesCursor :=
  .new r.chunks r.columnIndex timeRange

/-- `bounds(time_range)`; without a range it is that of all timestamps. -/
def bounds (r : SeriesReader) (timeRange : Range Timestamp) : Option SeriesBounds :=
  let b := (r.samples timeRange).forEach.foldl BoundsScan.step {}
  if !b.foundTime || !b.foundValue then none else some b.result

end SeriesReader

/-! ## The list of samples -/

/-- The samples of the chunk at position `i`, from a row on. -/
def samplesFrom (column i : ℕ) (chunk : TopicChunk) (row : ℕ) : List SeriesSample :=
  (List.range' row (chunk.stats.rowCount - row)).filterMap (makeSeriesSample i chunk column)

/-- The samples of chunks of which the first has position `i`, in chunk and row order. -/
def samplesOf (column : ℕ) : ℕ → List TopicChunk → List SeriesSample
  | _, [] => []
  | i, chunk :: chunks => samplesFrom column i chunk 0 ++ samplesOf column (i + 1) chunks

/-- The number in a cell, as the chunk's reader for the type of the column gives it: a bool counts as
one or zero. -/
def TopicChunk.cellNumber (chunk : TopicChunk) (column row : ℕ) : Option Binary64 :=
  chunk.columns[column]?.bind fun c ↦
    if c.descriptor.kind = .bool then
      (chunk.readBool column row).map fun b ↦ if b then .one else .zero
    else chunk.readNumericAsDouble column row

/-- The rows of the chunk at position `i` in which the column is present and not null, each with its
timestamp and the number in its cell. -/
def presentRows (column i : ℕ) (chunk : TopicChunk) : List SeriesSample :=
  ((List.range chunk.stats.rowCount).filter fun row ↦ chunk.isNull column row = some false).filterMap
    fun row ↦ (chunk.cellNumber column row).map fun x ↦ ⟨chunk.readTimestamp row, x, i, row⟩

/-- The list a reader is a view of: the present cells in chunk and row order. -/
def SeriesReader.series (r : SeriesReader) : List SeriesSample :=
  r.chunks.zipIdx.flatMap fun p ↦ presentRows r.columnIndex p.2 p.1

/-- The row a sample lies in. -/
def SeriesSample.row (s : SeriesSample) : SampleRow := ⟨s.timestamp, s.chunk, s.rowIndex⟩

/-- The value the reader takes from a cell is the number in it. -/
theorem TopicChunk.cellNumber_eq {chunk : TopicChunk} {column : ℕ} {c : Column}
    (hc : chunk.columns[column]? = some c) (row : ℕ) :
    chunk.cellNumber column row = some (c.seriesValue row) := by
  have hbool : c.descriptor.kind = .bool ↔ c.descriptor.logicalType = .bool := by
    rw [ColumnDescriptor.kind]
    rcases c.descriptor.logicalType <;> decide
  rw [cellNumber, readBool, readNumericAsDouble, hc, Option.bind_some, Column.seriesValue]
  exact (if_congr hbool rfl rfl).trans (apply_ite some _ _ _).symm

theorem isSome_makeSeriesSample (i : ℕ) (chunk : TopicChunk) (column row : ℕ) :
    (makeSeriesSample i chunk column row).isSome = (readSeriesValue chunk column row).isSome :=
  Option.isSome_map

theorem row_makeSeriesSample {i column row : ℕ} {chunk : TopicChunk} {s : SeriesSample}
    (h : makeSeriesSample i chunk column row = some s) :
    s.row = ⟨chunk.readTimestamp row, i, row⟩ := by
  obtain ⟨value, -, rfl⟩ := Option.map_eq_some_iff.mp h
  rfl

theorem timestamp_makeSeriesSample {i column row : ℕ} {chunk : TopicChunk} {s : SeriesSample}
    (h : makeSeriesSample i chunk column row = some s) : s.timestamp = chunk.readTimestamp row :=
  congrArg SampleRow.timestamp (row_makeSeriesSample h)

/-- A chunk without the column has no samples. -/
theorem samplesFrom_eq_nil {column i row : ℕ} {chunk : TopicChunk}
    (h : chunk.columns.length ≤ column) : samplesFrom column i chunk row = [] := by
  rw [samplesFrom, List.filterMap_eq_nil_iff]
  intro row _
  rw [makeSeriesSample, readSeriesValue, List.getElem?_eq_none_iff.mpr h]
  rfl

/-- The samples of a chunk as a filtered list of its rows. -/
theorem samplesFrom_zero (column i : ℕ) (chunk : TopicChunk) :
    samplesFrom column i chunk 0
      = (List.range chunk.stats.rowCount).filterMap (makeSeriesSample i chunk column) := by
  rw [samplesFrom, List.range_eq_range', Nat.sub_zero]

theorem presentRows_eq (column i : ℕ) (chunk : TopicChunk) :
    presentRows column i chunk = samplesFrom column i chunk 0 := by
  rw [samplesFrom_zero, presentRows, List.filterMap_filter]
  refine List.filterMap_congr fun row hrow ↦ ?_
  rw [makeSeriesSample, readSeriesValue, TopicChunk.isNull]
  rcases hc : chunk.columns[column]? with _ | c
  · rfl
  · have hlt := not_le.mpr (List.mem_range.mp hrow)
    rw [TopicChunk.cellNumber_eq hc]
    rcases hnull : c.isNull row with _ | _ <;> simp [hlt, hnull]

/-- The list of a reader, as the loops walk it. -/
theorem SeriesReader.series_eq (r : SeriesReader) : r.series = samplesOf r.columnIndex 0 r.chunks := by
  rw [series]
  generalize 0 = i
  induction r.chunks generalizing i with
  | nil => rfl
  | cons chunk chunks ih =>
    rw [List.zipIdx_cons, List.flatMap_cons, presentRows_eq, ih (i + 1), samplesOf]

theorem filterMap_sublist_map {α β : Type} {f : α → Option β} {g : α → β} {l : List α}
    (h : ∀ a b, f a = some b → b = g a) : (l.filterMap f).Sublist (l.map g) := by
  induction l with
  | nil => exact List.Sublist.refl _
  | cons a l ih =>
    rw [List.filterMap_cons, List.map_cons]
    split
    · exact ih.cons _
    · next b hb =>
      rw [h a b hb]
      exact ih.cons_cons _

theorem chunkRows_eq_range {chunk : TopicChunk}
    (h : chunk.stats.rowCount = chunk.timestamps.length) (i : ℕ) :
    chunkRows i chunk
      = (List.range chunk.stats.rowCount).map fun row ↦ ⟨chunk.readTimestamp row, i, row⟩ := by
  apply List.ext_getElem
  · rw [RangeCursor.length_chunkRows, TopicChunk.stamps_eq h, List.length_map, List.length_range, h]
  · intro row hrow _
    rw [RangeCursor.length_chunkRows] at hrow
    simp [chunkRows, RangeCursor.readTimestamp_eq hrow]

theorem sorted_readTimestamp {chunk : TopicChunk} (hordered : chunk.Ordered)
    (hcount : chunk.stats.rowCount = chunk.timestamps.length) :
    (List.range chunk.stats.rowCount).Pairwise
      fun a b ↦ chunk.readTimestamp a ≤ chunk.readTimestamp b := by
  have horder : ChunksInOrder [chunk] :=
    ⟨by simpa using hordered, by simpa using hcount, List.isChain_singleton chunk⟩
  have hrows := horder.sorted_chunkRows 0
  rwa [chunkRows_eq_range hcount, List.pairwise_map] at hrows

theorem readTimestamp_mem {chunk : TopicChunk} {row : ℕ}
    (hcount : chunk.stats.rowCount = chunk.timestamps.length) (hrow : row < chunk.stats.rowCount) :
    chunk.readTimestamp row ∈ chunk.timestamps := by
  rw [hcount] at hrow
  rw [TopicChunk.readTimestamp, List.getD_eq_getElem _ _ hrow]
  exact List.getElem_mem hrow

theorem timestamp_mem {chunk : TopicChunk} {column i row : ℕ}
    (hcount : chunk.stats.rowCount = chunk.timestamps.length) {s : SeriesSample}
    (hs : s ∈ samplesFrom column i chunk row) : s.timestamp ∈ chunk.timestamps := by
  obtain ⟨row', hrow', hmake⟩ := List.mem_filterMap.mp hs
  have hmem := List.mem_range'_1.mp hrow'
  rw [timestamp_makeSeriesSample hmake]
  exact readTimestamp_mem hcount (by omega)

/-- The samples are some of the rows, in their order. -/
theorem samplesOf_sublist {chunks : List TopicChunk}
    (h : ∀ chunk ∈ chunks, chunk.stats.rowCount = chunk.timestamps.length) (column i : ℕ) :
    ((samplesOf column i chunks).map SeriesSample.row).Sublist (rowsOf i chunks) := by
  induction chunks generalizing i with
  | nil => exact List.Sublist.refl _
  | cons chunk chunks ih =>
    rw [samplesOf, rowsOf, List.map_append]
    refine List.Sublist.append ?_ (ih (fun c hc ↦ h c (List.mem_cons_of_mem _ hc)) (i + 1))
    rw [samplesFrom_zero, chunkRows_eq_range (h chunk List.mem_cons_self), List.map_filterMap]
    apply filterMap_sublist_map
    intro row r hr
    obtain ⟨s, hs, rfl⟩ := Option.map_eq_some_iff.mp hr
    exact row_makeSeriesSample hs

theorem ChunksInOrder.sorted_samplesOf {chunks : List TopicChunk} (h : ChunksInOrder chunks)
    (column i : ℕ) :
    (samplesOf column i chunks).Pairwise fun a b ↦ a.timestamp ≤ b.timestamp := by
  have hrows := (h.sorted i).sublist (samplesOf_sublist h.counted column i)
  rwa [List.pairwise_map] at hrows

/-- Every sample behind a chunk lies at or behind its end. -/
theorem ChunksInOrder.tMax_le_sample {chunk : TopicChunk} {chunks : List TopicChunk}
    (h : ChunksInOrder (chunk :: chunks)) {column i : ℕ} {s : SeriesSample}
    (hs : s ∈ samplesOf column i chunks) : chunk.stats.tMax ≤ s.timestamp :=
  h.tMax_le ((samplesOf_sublist h.tail.counted column i).mem (List.mem_map_of_mem hs))

/-! ## The reader -/

namespace SeriesReader

theorem countRows_eq (column i : ℕ) (chunk : TopicChunk) (count : ℕ) :
    countRows column chunk count = count + (samplesFrom column i chunk 0).length := by
  rw [countRows, samplesFrom_zero]
  induction List.range chunk.stats.rowCount generalizing count with
  | nil => rfl
  | cons row rows ih =>
    rw [List.foldl_cons, ih, ← isSome_makeSeriesSample i, List.filterMap_cons]
    rcases makeSeriesSample i chunk column row with _ | s
    · rfl
    · exact Nat.add_right_comm count 1 _

theorem size_eq (r : SeriesReader) : r.size = r.series.length := by
  suffices h : ∀ i count, r.chunks.foldl (fun count chunk ↦
      if chunk.columns.length ≤ r.columnIndex then count
      else countRows r.columnIndex chunk count) count
        = count + (samplesOf r.columnIndex i r.chunks).length by
    rw [size, h 0 0, Nat.zero_add, series_eq]
  induction r.chunks with
  | nil => exact fun _ _ ↦ rfl
  | cons chunk chunks ih =>
    intro i count
    rw [List.foldl_cons, ih (i + 1), samplesOf, List.length_append]
    split_ifs with hmissing
    · rw [samplesFrom_eq_nil hmissing, List.length_nil, Nat.zero_add]
    · rw [countRows_eq r.columnIndex i, Nat.add_assoc]

theorem foldlM_sampleAtChunk (column index i seriesIndex : ℕ) (chunks : List TopicChunk) :
    (chunks.zipIdx i).foldlM (sampleAtChunk column index) seriesIndex
      = (samplesOf column i chunks).foldlM (fun n s ↦
          if n = index then (.error (some s) : Except (Option SeriesSample) ℕ)
          else .ok (n + 1)) seriesIndex := by
  induction chunks generalizing i seriesIndex with
  | nil => rfl
  | cons chunk chunks ih =>
    rw [List.zipIdx_cons, List.foldlM_cons, samplesOf, List.foldlM_append]
    have hchunk : sampleAtChunk column index seriesIndex (chunk, i)
        = (samplesFrom column i chunk 0).foldlM (fun n s ↦
            if n = index then (.error (some s) : Except (Option SeriesSample) ℕ)
            else .ok (n + 1)) seriesIndex := by
      rw [sampleAtChunk]
      split_ifs with hmissing
      · rw [samplesFrom_eq_nil hmissing]
        rfl
      · rw [samplesFrom_zero, List.foldlM_filterMap]
        congr 1
        funext n row
        rw [sampleAtRow, ← Option.not_isSome, ← isSome_makeSeriesSample i]
        rcases makeSeriesSample i chunk column row with _ | s <;> rfl
    rw [hchunk]
    exact bind_congr (ih (i + 1))

/-- Counting up to an index finds the element there. -/
theorem returning_getElem? {α : Type} (l : List α) (index n : ℕ) :
    Loop.returning (fun n a ↦ if n = index then .error (some a) else .ok (n + 1)) (fun _ ↦ none) l n
      = if n ≤ index then l[index - n]? else none := by
  induction l generalizing n with
  | nil =>
    rw [List.getElem?_nil, ite_self]
    rfl
  | cons a l ih =>
    rw [Loop.returning, List.foldlM_cons]
    split_ifs with hhere hle hle
    · rw [hhere, Nat.sub_self]
      rfl
    · omega
    · refine (ih (n + 1)).trans ?_
      rw [if_pos (by omega), show index - n = index - (n + 1) + 1 by omega]
      rfl
    · exact (ih (n + 1)).trans (if_neg (by omega))

theorem sampleAt_eq (r : SeriesReader) (index : ℕ) : r.sampleAt index = r.series[index]? := by
  have h := returning_getElem? r.series index 0
  rw [if_pos (Nat.zero_le index), Nat.sub_zero] at h
  rw [← h, sampleAt, Loop.returning, foldlM_sampleAtChunk, ← series_eq]
  rfl

theorem afterChunk_eq {column i : ℕ} {t : Timestamp} {chunk : TopicChunk}
    (hordered : chunk.Ordered) (hcount : chunk.stats.rowCount = chunk.timestamps.length) (n : ℕ) :
    afterChunk column t n chunk
      = (samplesFrom column i chunk 0).foldlM (fun n s ↦
          if t ≤ s.timestamp then (.error (some n) : Except (Option ℕ) ℕ) else .ok (n + 1)) n := by
  rw [afterChunk]
  split_ifs with hskip hearly
  · rcases hskip with hempty | hmissing
    · rw [samplesFrom, hempty]
      rfl
    · rw [samplesFrom_eq_nil hmissing]
      rfl
  · -- all rows lie before `t`, so the search would only count them
    have hbefore : ∀ s ∈ samplesFrom column i chunk 0, ¬t ≤ s.timestamp := fun s hs ↦
      not_le.mpr ((hordered.le_tMax (timestamp_mem hcount hs)).trans_lt hearly)
    rw [countRows_eq column i, Loop.foldlM_ok (f := fun n _ ↦ n + 1)]
    · rw [List.foldl_add_const, Nat.one_mul]
    · exact fun s hs n ↦ if_neg (hbefore s hs)
  · rw [samplesFrom_zero, List.foldlM_filterMap]
    congr 1
    funext n row
    rw [afterRow, ← Option.not_isSome, ← isSome_makeSeriesSample i]
    rcases hs : makeSeriesSample i chunk column row with _ | s
    · rfl
    · simp [timestamp_makeSeriesSample hs]

theorem indexAtOrAfterTime_eq (r : SeriesReader) (h : ChunksInOrder r.chunks) (t : Timestamp) :
    r.indexAtOrAfterTime t = r.series.findIdx? fun s ↦ t ≤ s.timestamp := by
  have hfold : ∀ chunks, ChunksInOrder chunks → ∀ i n,
      chunks.foldlM (afterChunk r.columnIndex t) n
        = (samplesOf r.columnIndex i chunks).foldlM (fun n s ↦
            if t ≤ s.timestamp then (.error (some n) : Except (Option ℕ) ℕ) else .ok (n + 1)) n := by
    intro chunks horder
    induction chunks with
    | nil => exact fun _ _ ↦ rfl
    | cons chunk chunks ih =>
      intro i n
      rw [List.foldlM_cons, samplesOf, List.foldlM_append,
        afterChunk_eq (horder.ordered chunk List.mem_cons_self)
          (horder.counted chunk List.mem_cons_self)]
      exact bind_congr (ih horder.tail (i + 1))
  have hsearch := Loop.returning_findIdx? (fun s : SeriesSample ↦ decide (t ≤ s.timestamp)) r.series 0
  simp only [decide_eq_true_eq, Nat.zero_add, Option.map_id'] at hsearch
  rw [← hsearch, indexAtOrAfterTime, Loop.returning, hfold r.chunks h 0 0, ← series_eq]
  rfl

/-- The index of the last of `n` samples. -/
def lastIndex (n : ℕ) : Option ℕ := if n = 0 then none else some (n - 1)

/-- How many samples of a list do not lie behind `t`. -/
def countUpTo (t : Timestamp) (l : List SeriesSample) : ℕ := l.countP fun s ↦ s.timestamp ≤ t

theorem countUpTo_append (t : Timestamp) (l l' : List SeriesSample) :
    countUpTo t (l ++ l') = countUpTo t l + countUpTo t l' := List.countP_append

theorem countUpTo_eq_zero {t : Timestamp} {l : List SeriesSample} (h : ∀ s ∈ l, t < s.timestamp) :
    countUpTo t l = 0 :=
  PartitionPoint.countP_eq_zero fun s hs ↦ decide_eq_false (not_le.mpr (h s hs))

/-- Among rows in time order the search has counted all samples not behind `t`, and a row behind `t`
ends it. -/
theorem foldlM_beforeRow {column i : ℕ} {t : Timestamp} {chunk : TopicChunk} {rows : List ℕ}
    (hsorted : rows.Pairwise fun a b ↦ chunk.readTimestamp a ≤ chunk.readTimestamp b) (n : ℕ) :
    let m := n + countUpTo t (rows.filterMap (makeSeriesSample i chunk column))
    rows.foldlM (beforeRow column t chunk) (lastIndex n, n) = .ok (lastIndex m, m) ∨
      rows.foldlM (beforeRow column t chunk) (lastIndex n, n) = .error (lastIndex m) ∧
        ∃ row ∈ rows, t < chunk.readTimestamp row := by
  induction rows generalizing n with
  | nil => exact .inl rfl
  | cons row rows ih =>
    obtain ⟨hfirst, hrest⟩ := List.pairwise_cons.mp hsorted
    rw [List.foldlM_cons, beforeRow]
    split_ifs with hlate hvalue
    · -- this row and all behind it lie behind `t`
      have hnone : countUpTo t ((row :: rows).filterMap (makeSeriesSample i chunk column)) = 0 := by
        apply countUpTo_eq_zero
        intro s hs
        obtain ⟨later, hlater, hmake⟩ := List.mem_filterMap.mp hs
        rw [timestamp_makeSeriesSample hmake]
        rcases List.mem_cons.mp hlater with rfl | hlater
        · exact hlate
        · exact hlate.trans_le (hfirst later hlater)
      rw [hnone]
      exact .inr ⟨rfl, row, List.mem_cons_self, hlate⟩
    · rw [← isSome_makeSeriesSample i, Option.isSome_iff_exists] at hvalue
      obtain ⟨s, hs⟩ := hvalue
      have hts := timestamp_makeSeriesSample hs
      have hcount : n + countUpTo t ((row :: rows).filterMap (makeSeriesSample i chunk column))
          = n + 1 + countUpTo t (rows.filterMap (makeSeriesSample i chunk column)) := by
        rw [List.filterMap_cons, hs, countUpTo, List.countP_cons_of_pos, ← countUpTo]
        · omega
        · rw [decide_eq_true_eq, hts]
          exact not_lt.mp hlate
      rw [hcount]
      rcases ih hrest (n + 1) with hok | ⟨herror, later, hlater, hlt⟩
      · exact .inl hok
      · exact .inr ⟨herror, later, List.mem_cons_of_mem _ hlater, hlt⟩
    · have hnone : makeSeriesSample i chunk column row = none := by
        rwa [← isSome_makeSeriesSample i, Option.not_isSome_iff_eq_none] at hvalue
      rw [List.filterMap_cons, hnone]
      rcases ih hrest n with hok | ⟨herror, later, hlater, hlt⟩
      · exact .inl hok
      · exact .inr ⟨herror, later, List.mem_cons_of_mem _ hlater, hlt⟩

theorem beforeChunk_eq {column i : ℕ} {t : Timestamp} {chunk : TopicChunk}
    (hordered : chunk.Ordered) (hcount : chunk.stats.rowCount = chunk.timestamps.length) (n : ℕ) :
    let m := n + countUpTo t (samplesFrom column i chunk 0)
    beforeChunk column t (lastIndex n, n) chunk = .ok (lastIndex m, m) ∨
      beforeChunk column t (lastIndex n, n) chunk = .error (lastIndex m) ∧
        t < chunk.stats.tMax := by
  rw [beforeChunk]
  split_ifs with hskip hlate
  · have hnil : samplesFrom column i chunk 0 = [] := by
      rcases hskip with hempty | hmissing
      · rw [samplesFrom, hempty]
        rfl
      · exact samplesFrom_eq_nil hmissing
    rw [hnil]
    exact .inl rfl
  · have hnone : countUpTo t (samplesFrom column i chunk 0) = 0 :=
      countUpTo_eq_zero fun s hs ↦ hlate.trans_le (hordered.tMin_le (timestamp_mem hcount hs))
    rw [hnone]
    exact .inr ⟨rfl, hlate.trans_le hordered.tMin_le_tMax⟩
  · rw [samplesFrom_zero]
    rcases foldlM_beforeRow (i := i) (sorted_readTimestamp hordered hcount) n with
      hok | ⟨herror, row, hrow, hlt⟩
    · exact .inl hok
    · have hmem := readTimestamp_mem hcount (List.mem_range.mp hrow)
      exact .inr ⟨herror, hlt.trans_le (hordered.le_tMax hmem)⟩

theorem indexAtOrBeforeTime_eq (r : SeriesReader) (h : ChunksInOrder r.chunks) (t : Timestamp) :
    r.indexAtOrBeforeTime t = lastIndex (countUpTo t r.series) := by
  suffices hfold : ∀ chunks, ChunksInOrder chunks → ∀ i n,
      Loop.returning (beforeChunk r.columnIndex t) Prod.fst chunks (lastIndex n, n)
        = lastIndex (n + countUpTo t (samplesOf r.columnIndex i chunks)) by
    rw [series_eq, ← Nat.zero_add (countUpTo t _), ← hfold r.chunks h 0 0]
    rfl
  intro chunks horder
  induction chunks with
  | nil => exact fun _ _ ↦ rfl
  | cons chunk chunks ih =>
    intro i n
    rw [Loop.returning, List.foldlM_cons, samplesOf, countUpTo_append, ← Nat.add_assoc]
    rcases beforeChunk_eq (horder.ordered chunk List.mem_cons_self)
      (horder.counted chunk List.mem_cons_self) n with hok | ⟨herror, hlate⟩
    · rw [hok]
      exact ih horder.tail (i + 1) _
    · -- what comes behind this chunk lies behind `t`
      rw [herror, countUpTo_eq_zero fun s hs ↦ hlate.trans_le (horder.tMax_le_sample hs)]
      rfl

end SeriesReader

/-! ## The cursor -/

namespace SeriesCursor

/-- The sample lies in the window. -/
def inside (range : Range Timestamp) (s : SeriesSample) : Bool :=
  range.min ≤ s.timestamp ∧ s.timestamp ≤ range.max

/-- The samples of the chunks that are left, from a row of the first on. -/
def restOf (column : ℕ) : List TopicChunk → ℕ → ℕ → List SeriesSample
  | [], _, _ => []
  | chunk :: chunks, i, row => samplesFrom column i chunk row ++ samplesOf column (i + 1) chunks

theorem restOf_zero (column : ℕ) (left : List TopicChunk) (i : ℕ) :
    restOf column left i 0 = samplesOf column i left := by
  rcases left with _ | ⟨chunk, left⟩ <;> rfl

variable {range : Range Timestamp} {column i : ℕ} {chunk : TopicChunk}

theorem not_inside_of_lt {s : SeriesSample} (h : s.timestamp < range.min) : ¬inside range s := by
  simp [inside, h]

theorem not_inside_of_gt {s : SeriesSample} (h : range.max < s.timestamp) : ¬inside range s := by
  simp [inside, h]

/-- The samples in the window among some rows of a chunk. -/
def window (range : Range Timestamp) (column i : ℕ) (chunk : TopicChunk) (rows : List ℕ) :
    List SeriesSample :=
  (rows.filterMap (makeSeriesSample i chunk column)).filter (inside range)

/-- A row that is passed over is no sample of the window. -/
theorem window_cons_of_not {row : ℕ} {rows : List ℕ}
    (h : ∀ s, makeSeriesSample i chunk column row = some s → ¬inside range s) :
    window range column i chunk (row :: rows) = window range column i chunk rows := by
  rw [window, List.filterMap_cons]
  rcases hs : makeSeriesSample i chunk column row with _ | s
  · rfl
  · exact List.filter_cons_of_neg (h s hs)

theorem window_cons_of_lt {row : ℕ} {rows : List ℕ} (h : chunk.readTimestamp row < range.min) :
    window range column i chunk (row :: rows) = window range column i chunk rows := by
  apply window_cons_of_not
  intro s hs
  exact not_inside_of_lt ((timestamp_makeSeriesSample hs).trans_lt h)

theorem window_cons_of_none {row : ℕ} {rows : List ℕ}
    (h : ¬(readSeriesValue chunk column row).isSome) :
    window range column i chunk (row :: rows) = window range column i chunk rows := by
  apply window_cons_of_not
  intro s hs
  rw [← isSome_makeSeriesSample i, hs] at h
  exact absurd rfl h

/-- The row found is the first sample of the window. -/
theorem searchRows_found {n row r : ℕ}
    (h : searchRows range column chunk (List.range' row n) = .found r) :
    ∃ s, makeSeriesSample i chunk column r = some s ∧
      window range column i chunk (List.range' row n)
        = s :: window range column i chunk (List.range' (r + 1) (row + n - (r + 1))) := by
  induction n generalizing row with
  | zero => cases h
  | succ n ih =>
    rw [List.range'_succ, searchRows] at h
    rw [List.range'_succ]
    have hnext : row + (n + 1) = row + 1 + n := by omega
    split_ifs at h with hearly hlate hvalue
    · rw [window_cons_of_lt hearly, hnext]
      exact ih h
    · obtain rfl := RowSearch.found.inj h
      rw [← isSome_makeSeriesSample i, Option.isSome_iff_exists] at hvalue
      obtain ⟨s, hs⟩ := hvalue
      refine ⟨s, hs, ?_⟩
      rw [window, List.filterMap_cons, hs, List.filter_cons_of_pos, hnext, Nat.add_sub_cancel_left]
      · rfl
      · rw [inside, timestamp_makeSeriesSample hs, decide_eq_true_eq]
        exact ⟨not_lt.mp hearly, not_lt.mp hlate⟩
    · rw [window_cons_of_none hvalue, hnext]
      exact ih h

/-- The rows ran out without a sample of the window. -/
theorem searchRows_exhausted {rows : List ℕ}
    (h : searchRows range column chunk rows = .exhausted) :
    window range column i chunk rows = [] := by
  induction rows with
  | nil => rfl
  | cons row rows ih =>
    rw [searchRows] at h
    split_ifs at h with hearly hlate hvalue
    · rw [window_cons_of_lt hearly]
      exact ih h
    · rw [window_cons_of_none hvalue]
      exact ih h

/-- A row behind the window ends the search: all rows after it lie behind the window too. -/
theorem searchRows_beyond {rows : List ℕ} {r : ℕ}
    (hsorted : rows.Pairwise fun a b ↦ chunk.readTimestamp a ≤ chunk.readTimestamp b)
    (h : searchRows range column chunk rows = .beyond r) :
    window range column i chunk rows = [] ∧ r ∈ rows ∧ range.max < chunk.readTimestamp r := by
  induction rows with
  | nil => cases h
  | cons row rows ih =>
    obtain ⟨hfirst, hrest⟩ := List.pairwise_cons.mp hsorted
    rw [searchRows] at h
    split_ifs at h with hearly hlate hvalue
    · obtain ⟨hnil, hmem, hlt⟩ := ih hrest h
      exact ⟨by rw [window_cons_of_lt hearly, hnil], List.mem_cons_of_mem _ hmem, hlt⟩
    · obtain rfl := RowSearch.beyond.inj h
      refine ⟨?_, List.mem_cons_self, hlate⟩
      rw [window, List.filter_eq_nil_iff]
      intro s hs
      obtain ⟨later, hlater, hmake⟩ := List.mem_filterMap.mp hs
      apply not_inside_of_gt
      rw [timestamp_makeSeriesSample hmake]
      rcases List.mem_cons.mp hlater with rfl | hlater
      · exact hlate
      · exact hlate.trans_le (hfirst later hlater)
    · obtain ⟨hnil, hmem, hlt⟩ := ih hrest h
      exact ⟨by rw [window_cons_of_none hvalue, hnil], List.mem_cons_of_mem _ hmem, hlt⟩

/-- The search from some place on: either the window has no more samples and the cursor runs out, or
it stops at the first of them, and the others lie behind that row. -/
theorem searchChunks_spec {left : List TopicChunk} (h : ChunksInOrder left) (row : ℕ) :
    (searchChunks range column left i row).1 = i + left.length ∧
        (restOf column left i row).filter (inside range) = [] ∨
      ∃ j chunk s, (searchChunks range column left i row).1 = i + j ∧ left[j]? = some chunk ∧
        makeSeriesSample (i + j) chunk column (searchChunks range column left i row).2 = some s ∧
        (restOf column left i row).filter (inside range)
          = s :: (restOf column (left.drop j) (i + j)
              ((searchChunks range column left i row).2 + 1)).filter (inside range) := by
  induction left generalizing i row with
  | nil => exact .inl ⟨rfl, rfl⟩
  | cons chunk left ih =>
    have hordered := h.ordered chunk List.mem_cons_self
    have hcount := h.counted chunk List.mem_cons_self
    have hrest : (restOf column (chunk :: left) i row).filter (inside range)
        = (samplesFrom column i chunk row).filter (inside range)
          ++ (samplesOf column (i + 1) left).filter (inside range) := by
      rw [restOf, List.filter_append]
    -- from the next chunk on, when this one has nothing in the window
    have hgo : (samplesFrom column i chunk row).filter (inside range) = [] →
        (searchChunks range column left (i + 1) 0).1 = i + (chunk :: left).length ∧
            (restOf column (chunk :: left) i row).filter (inside range) = [] ∨
          ∃ j chunk' s, (searchChunks range column left (i + 1) 0).1 = i + j ∧
            (chunk :: left)[j]? = some chunk' ∧
            makeSeriesSample (i + j) chunk' column
              (searchChunks range column left (i + 1) 0).2 = some s ∧
            (restOf column (chunk :: left) i row).filter (inside range)
              = s :: (restOf column ((chunk :: left).drop j) (i + j)
                  ((searchChunks range column left (i + 1) 0).2 + 1)).filter (inside range) := by
      intro hnone
      rw [hrest, hnone, List.nil_append, ← restOf_zero, List.length_cons]
      rcases ih h.tail (i := i + 1) 0 with ⟨hend, hnil⟩ | ⟨j, chunk', s, hj, hget, hs, hcons⟩
      · exact .inl ⟨by rw [hend]; omega, hnil⟩
      · have hshift : i + 1 + j = i + (j + 1) := by omega
        rw [hshift] at hj hs hcons
        exact .inr ⟨j + 1, chunk', s, hj, hget, hs, hcons⟩
    -- no chunk has anything in the window when this one has not and ends behind it
    have hstop : range.max < chunk.stats.tMax →
        (samplesFrom column i chunk row).filter (inside range) = [] →
        (restOf column (chunk :: left) i row).filter (inside range) = [] := by
      intro hlt hnone
      rw [hrest, hnone, List.nil_append, List.filter_eq_nil_iff]
      exact fun s hs ↦ not_inside_of_gt (hlt.trans_le (h.tMax_le_sample hs))
    rw [searchChunks]
    split_ifs with hskip hlate
    · apply hgo
      rcases hskip with hempty | hearly | hmissing
      · rw [samplesFrom, hempty, Nat.zero_sub]
        rfl
      · rw [List.filter_eq_nil_iff]
        exact fun s hs ↦ not_inside_of_lt
          ((hordered.le_tMax (timestamp_mem hcount hs)).trans_lt hearly)
      · rw [samplesFrom_eq_nil hmissing]
        rfl
    · refine .inl ⟨rfl, hstop (hlate.trans_le hordered.tMin_le_tMax) ?_⟩
      rw [List.filter_eq_nil_iff]
      exact fun s hs ↦ not_inside_of_gt
        (hlate.trans_le (hordered.tMin_le (timestamp_mem hcount hs)))
    · rcases hsearch : searchRows range column chunk
        (List.range' row (chunk.stats.rowCount - row)) with r | r | _
      · obtain ⟨s, hs, hcons⟩ := searchRows_found (i := i) hsearch
        have hmem := List.mem_range'_1.mp (mem_of_searchRows hsearch)
        refine .inr ⟨0, chunk, s, rfl, rfl, hs, ?_⟩
        have hleft : row + (chunk.stats.rowCount - row) - (r + 1) = chunk.stats.rowCount - (r + 1) := by
          omega
        rw [hleft] at hcons
        rw [hrest, List.drop_zero, Nat.add_zero, restOf, List.filter_append, samplesFrom, samplesFrom]
        exact congrArg (· ++ (samplesOf column (i + 1) left).filter (inside range)) hcons
      · have hrows : (List.range' row (chunk.stats.rowCount - row)).Pairwise
            fun a b ↦ chunk.readTimestamp a ≤ chunk.readTimestamp b := by
          have hall := (sorted_readTimestamp hordered hcount).drop (i := row)
          rwa [List.range_eq_range', List.drop_range', Nat.mul_one, Nat.zero_add] at hall
        obtain ⟨hnone, hmem, hlt⟩ := searchRows_beyond (i := i) hrows hsearch
        have hrow := List.mem_range'_1.mp hmem
        exact .inl ⟨rfl, hstop (hlt.trans_le
          (hordered.le_tMax (readTimestamp_mem hcount (by omega)))) hnone⟩
      · exact hgo (searchRows_exhausted hsearch)

theorem forEach_of_some {c c' : SeriesCursor} {s : SeriesSample} (hs : c.current = some s)
    (hc : c.advance = some c') : c.forEach = s :: c'.forEach := by
  rw [forEach]
  split
  · next sample next hsample hnext =>
    obtain rfl := Option.some.inj (hs.symm.trans hsample)
    obtain rfl := Option.some.inj (hc.symm.trans hnext)
    rfl
  · next hno => exact absurd hc (hno s c' hs)

theorem forEach_of_none {c : SeriesCursor} (h : c.current = none) : c.forEach = [] := by
  rw [forEach]
  split
  · next hsample _ => cases h.symm.trans hsample
  · rfl

/-- From wherever the cursor looks for the next sample, it visits the samples of the window that are
left. -/
theorem forEach_skipToSample {c : SeriesCursor} (h : ChunksInOrder c.chunks) :
    c.skipToSample.forEach
      = (restOf c.columnIndex (c.chunks.drop c.chunkIndex) c.chunkIndex c.rowIndex).filter
          (inside c.timeRange) := by
  -- induction on what is left of the window
  generalize hW : (restOf c.columnIndex (c.chunks.drop c.chunkIndex) c.chunkIndex c.rowIndex).filter
    (inside c.timeRange) = W
  induction W generalizing c with
  | nil =>
    apply forEach_of_none
    rcases searchChunks_spec (h.drop c.chunkIndex) c.rowIndex with ⟨hend, -⟩ | ⟨_, _, _, _, _, _, hcons⟩
    · have hnone : c.chunks[c.skipToSample.chunkIndex]? = none := by
        rw [List.getElem?_eq_none_iff]
        refine le_of_le_of_eq ?_ hend.symm
        rw [List.length_drop]
        omega
      rw [current, skipToSample_chunks, hnone]
      rfl
    · rw [hW] at hcons
      cases hcons
  | cons s W ih =>
    rcases searchChunks_spec (h.drop c.chunkIndex) c.rowIndex with ⟨-, hnil⟩ |
      ⟨j, chunk, s', hj, hget, hs', hcons⟩
    · rw [hW] at hnil
      cases hnil
    · obtain ⟨rfl, hrest⟩ := List.cons.inj (hW.symm.trans hcons)
      rw [List.getElem?_drop] at hget
      rw [List.drop_drop] at hrest
      have hchunk : c.skipToSample.chunks[c.skipToSample.chunkIndex]? = some chunk := by
        rw [← hget, ← hj]
        rfl
      have hcurrent : c.skipToSample.current = some s := by
        rw [current, hchunk, ← hs', ← hj]
        rfl
      have hadvance : c.skipToSample.advance
          = some ({ c.skipToSample with rowIndex := c.skipToSample.rowIndex + 1 } :
              SeriesCursor).skipToSample := by
        rw [advance, hchunk]
        rfl
      refine (forEach_of_some hcurrent hadvance).trans (congrArg (s :: ·) (ih h ?_))
      rw [← hj] at hrest
      exact hrest.symm

/-- A cursor visits the samples of its window. -/
theorem forEach_new {chunks : List TopicChunk} (h : ChunksInOrder chunks) (column : ℕ)
    (timeRange : Range Timestamp) :
    (new chunks column timeRange).forEach
      = (samplesOf column 0 chunks).filter (inside (normalized timeRange)) := by
  rw [new, forEach_skipToSample h, List.drop_zero, restOf_zero]

end SeriesCursor

/-! ## Bounds -/

namespace BoundsScan

theorem time_addValue (b : BoundsScan) (v : Binary64) :
    (b.addValue v).result.time = b.result.time := by
  rw [addValue]
  split_ifs <;> rfl

theorem foundTime_addValue (b : BoundsScan) (v : Binary64) :
    (b.addValue v).foundTime = b.foundTime := by
  rw [addValue]
  split_ifs <;> rfl

theorem sampleCount_addValue (b : BoundsScan) (v : Binary64) :
    (b.addValue v).result.sampleCount = b.result.sampleCount := by
  rw [addValue]
  split_ifs <;> rfl

theorem foundValue_addValue (b : BoundsScan) (v : Binary64) :
    (b.addValue v).foundValue = (b.foundValue || Binary64.isFinite v) := by
  rw [addValue]
  rcases Binary64.isFinite v with _ | _
  · rw [Bool.or_false, if_neg Bool.false_ne_true]
  · rw [Bool.or_true, if_pos rfl]

/-- What the scan of `bounds` knows behind a list of samples in time order. -/
structure Scanned (l : List SeriesSample) (b : BoundsScan) : Prop where
  count : b.result.sampleCount = l.length
  foundTime : b.foundTime = !l.isEmpty
  foundValue : b.foundValue = l.any fun s ↦ Binary64.isFinite s.value
  first : ∀ s, l.head? = some s → b.result.time.min = s.timestamp
  last : ∀ s, l.getLast? = some s → b.result.time.max = s.timestamp

theorem Scanned.step {l : List SeriesSample} {b : BoundsScan} (hb : Scanned l b) {s : SeriesSample}
    (hsorted : (l ++ [s]).Pairwise fun a b ↦ a.timestamp ≤ b.timestamp) :
    Scanned (l ++ [s]) (b.step s) := by
  have hbefore : ∀ a ∈ l, a.timestamp ≤ s.timestamp :=
    fun a ha ↦ (List.pairwise_append.mp hsorted).2.2 a ha s List.mem_cons_self
  have htime : (b.step s).result.time = (b.addTime s.timestamp).result.time := time_addValue _ _
  constructor
  · rw [BoundsScan.step, sampleCount_addValue, addTime, hb.count, List.length_append]
    rfl
  · exact (foundTime_addValue _ _).trans (by simp [addTime])
  · refine (foundValue_addValue _ _).trans ?_
    rw [addTime, hb.foundValue, List.any_append, List.any_cons, List.any_nil, Bool.or_false]
  · rcases l with _ | ⟨a, l⟩
    · intro first hfirst
      obtain rfl := Option.some.inj hfirst
      rw [htime, addTime, hb.foundTime]
      rfl
    · -- the first sample stays the least
      intro first hfirst
      obtain rfl := Option.some.inj hfirst
      rw [htime, addTime, hb.foundTime]
      simp only [List.isEmpty_cons, Bool.not_false, if_true, hb.first a rfl]
      exact min_eq_left (hbefore a List.mem_cons_self)
  · intro s' hs'
    rw [List.getLast?_concat] at hs'
    obtain rfl := Option.some.inj hs'
    rw [htime, addTime, hb.foundTime]
    rcases hlast : l.getLast? with _ | a
    · rw [List.getLast?_eq_none_iff.mp hlast]
      rfl
    · have hmem := List.mem_of_getLast? hlast
      rw [List.isEmpty_eq_false_iff.mpr (List.ne_nil_of_mem hmem)]
      simp only [Bool.not_false, if_true, hb.last a hlast]
      exact max_eq_right (hbefore a hmem)

theorem scanned_foldl {l : List SeriesSample}
    (hsorted : l.Pairwise fun a b ↦ a.timestamp ≤ b.timestamp) :
    Scanned l (l.foldl BoundsScan.step {}) := by
  induction l using List.reverseRecOn with
  | nil => exact ⟨rfl, rfl, rfl, by simp, by simp⟩
  | append_singleton l s ih =>
    rw [List.foldl_append]
    exact (ih (hsorted.sublist (List.sublist_append_left l [s]))).step hsorted

end BoundsScan

/-! ## The view -/

namespace SeriesReader

/-- The reader shows the list `S`, through all of its functions. -/
structure Views (r : SeriesReader) (S : List SeriesSample) : Prop where
  size : r.size = S.length
  sampleAt : ∀ i, r.sampleAt i = S[i]?
  indexAtOrBeforeTime : ∀ t i, r.indexAtOrBeforeTime t = some i ↔
    IsGreatest {i | ∃ s, S[i]? = some s ∧ s.timestamp ≤ t} i
  indexAtOrAfterTime : ∀ t i, r.indexAtOrAfterTime t = some i ↔
    IsLeast {i | ∃ s, S[i]? = some s ∧ t ≤ s.timestamp} i
  samples : ∀ timeRange, (r.samples timeRange).forEach
    = S.filter (SeriesCursor.inside (normalized timeRange))
  sampleAtOrBeforeTime : ∀ t, r.sampleAtOrBeforeTime t
    = (S.filter fun s ↦ s.timestamp ≤ t).getLast?
  sampleAtOrAfterTime : ∀ t, r.sampleAtOrAfterTime t = S.find? fun s ↦ t ≤ s.timestamp
  bounds : ∀ timeRange b, r.bounds timeRange = some b →
    let W := S.filter (SeriesCursor.inside (normalized timeRange))
    b.sampleCount = W.length ∧ W.head?.map SeriesSample.timestamp = some b.time.min ∧
      W.getLast?.map SeriesSample.timestamp = some b.time.max
  /-- The bounds are missing exactly when no sample of the window is finite. -/
  hasBounds : ∀ timeRange, (r.bounds timeRange).isSome ↔
    ∃ s ∈ S.filter (SeriesCursor.inside (normalized timeRange)), Binary64.isFinite s.value

theorem partitioned_timestamp {l : List SeriesSample}
    (hsorted : l.Pairwise fun a b ↦ a.timestamp ≤ b.timestamp) (t : Timestamp) :
    PartitionPoint.Partitioned (fun s : SeriesSample ↦ decide (s.timestamp ≤ t)) l := by
  refine hsorted.imp fun {a b} hab hb ↦ ?_
  simp only [decide_eq_true_eq] at hb ⊢
  exact hab.trans hb

/-- The greatest index before a cut of a list in time order. -/
theorem lastIndex_eq_some {t : Timestamp} {l : List SeriesSample}
    (hsorted : l.Pairwise fun a b ↦ a.timestamp ≤ b.timestamp) (i : ℕ) :
    lastIndex (countUpTo t l) = some i ↔
      IsGreatest {i | ∃ s, l[i]? = some s ∧ s.timestamp ≤ t} i := by
  have hpart := partitioned_timestamp hsorted t
  have hcount := PartitionPoint.partitionPoint_eq_countP hpart
  have hset : {i | ∃ s, l[i]? = some s ∧ s.timestamp ≤ t} = Set.Iio (countUpTo t l) := by
    ext j
    rw [Set.mem_ofPred_eq, Set.mem_Iio, countUpTo, ← hcount]
    constructor
    · rintro ⟨s, hs, hle⟩
      exact (PartitionPoint.lt_partitionPoint_iff hpart hs).mpr (decide_eq_true hle)
    · intro hlt
      have hs := List.getElem?_eq_getElem
        (hlt.trans_le (PartitionPoint.partitionPoint_le_length hpart))
      exact ⟨_, hs, of_decide_eq_true ((PartitionPoint.lt_partitionPoint_iff hpart hs).mp hlt)⟩
  rw [hset, lastIndex]
  constructor
  · intro h
    split_ifs at h
    obtain rfl := Option.some.inj h
    exact ⟨Set.mem_Iio.mpr (by omega), fun j hj ↦ Nat.le_sub_one_of_lt hj⟩
  · rintro ⟨hlt, hmax⟩
    rw [Set.mem_Iio] at hlt
    have hle : countUpTo t l - 1 ≤ i := hmax (Set.mem_Iio.mpr (by omega))
    rw [if_neg (by omega)]
    exact congrArg some (by omega)

/-- The first index with a property is the least. -/
theorem findIdx?_eq_some_iff_isLeast {α : Type} (p : α → Bool) (l : List α) (i : ℕ) :
    l.findIdx? p = some i ↔ IsLeast {i | ∃ a, l[i]? = some a ∧ p a} i := by
  rw [List.findIdx?_eq_some_iff_getElem]
  constructor
  · rintro ⟨hlt, hp, hbefore⟩
    refine ⟨⟨_, List.getElem?_eq_getElem hlt, hp⟩, ?_⟩
    rintro j ⟨a, ha, hpa⟩
    obtain ⟨_, rfl⟩ := List.getElem?_eq_some_iff.mp ha
    by_contra hji
    exact hbefore j (not_le.mp hji) hpa
  · rintro ⟨⟨a, ha, hpa⟩, hleast⟩
    obtain ⟨hlt, rfl⟩ := List.getElem?_eq_some_iff.mp ha
    refine ⟨hlt, hpa, fun j hji hpj ↦ ?_⟩
    exact absurd (hleast ⟨_, List.getElem?_eq_getElem (hji.trans hlt), hpj⟩) (not_le.mpr hji)

theorem sorted_series (r : SeriesReader) (h : ChunksInOrder r.chunks) :
    r.series.Pairwise fun a b ↦ a.timestamp ≤ b.timestamp := by
  rw [series_eq]
  exact h.sorted_samplesOf r.columnIndex 0

theorem forEach_samples (r : SeriesReader) (h : ChunksInOrder r.chunks) (timeRange : Range Timestamp) :
    (r.samples timeRange).forEach
      = r.series.filter (SeriesCursor.inside (normalized timeRange)) := by
  rw [series_eq]
  exact SeriesCursor.forEach_new h r.columnIndex timeRange

theorem isSome_bounds (r : SeriesReader) (h : ChunksInOrder r.chunks) (timeRange : Range Timestamp) :
    (r.bounds timeRange).isSome ↔
      ∃ s ∈ r.series.filter (SeriesCursor.inside (normalized timeRange)),
        Binary64.isFinite s.value := by
  have hscan := BoundsScan.scanned_foldl
    ((r.sorted_series h).sublist (List.filter_sublist
      (p := SeriesCursor.inside (normalized timeRange))))
  rw [bounds, r.forEach_samples h, hscan.foundTime, hscan.foundValue, ← List.any_eq_true]
  rcases r.series.filter (SeriesCursor.inside (normalized timeRange)) with _ | ⟨s, W⟩
  · exact Iff.rfl
  · rcases hfinite : (s :: W).any fun s ↦ Binary64.isFinite s.value with _ | _ <;> simp

/-- The sample at or before `t` is the last one of the list that is not behind `t`. -/
theorem sampleAtOrBeforeTime_eq (r : SeriesReader) (h : ChunksInOrder r.chunks) (t : Timestamp) :
    r.sampleAtOrBeforeTime t = (r.series.filter fun s ↦ s.timestamp ≤ t).getLast? := by
  have hpart := partitioned_timestamp (r.sorted_series h) t
  rw [sampleAtOrBeforeTime, r.indexAtOrBeforeTime_eq h, ← PartitionPoint.take_countP hpart,
    ← countUpTo, lastIndex]
  have hle : countUpTo t r.series ≤ r.series.length := List.countP_le_length
  split_ifs with hnone
  · rw [hnone, List.take_zero, Option.bind_none, List.getLast?_nil]
  · rw [Option.bind_some, r.sampleAt_eq, List.getLast?_eq_getElem?, List.length_take_of_le hle,
      List.getElem?_take_of_lt (by omega)]

/-- The sample at or after `t` is the first one of the list that is not before `t`. -/
theorem sampleAtOrAfterTime_eq (r : SeriesReader) (h : ChunksInOrder r.chunks) (t : Timestamp) :
    r.sampleAtOrAfterTime t = r.series.find? fun s ↦ t ≤ s.timestamp := by
  rw [sampleAtOrAfterTime, r.indexAtOrAfterTime_eq h, List.find?_eq_bind_findIdx?_getElem?]
  exact Option.bind_congr fun i _ ↦ r.sampleAt_eq i

theorem views_series (r : SeriesReader) (h : ChunksInOrder r.chunks) : r.Views r.series where
  size := r.size_eq
  sampleAt := r.sampleAt_eq
  indexAtOrBeforeTime t i := by
    rw [r.indexAtOrBeforeTime_eq h]
    exact lastIndex_eq_some (r.sorted_series h) i
  indexAtOrAfterTime t i := by
    rw [r.indexAtOrAfterTime_eq h, findIdx?_eq_some_iff_isLeast]
    simp only [decide_eq_true_eq]
  samples := r.forEach_samples h
  sampleAtOrBeforeTime := r.sampleAtOrBeforeTime_eq h
  sampleAtOrAfterTime := r.sampleAtOrAfterTime_eq h
  hasBounds := r.isSome_bounds h
  bounds timeRange b hb := by
    intro W
    have hsorted : W.Pairwise fun a b ↦ a.timestamp ≤ b.timestamp :=
      (r.sorted_series h).sublist List.filter_sublist
    have hscan := BoundsScan.scanned_foldl hsorted
    have hsamples : (r.samples timeRange).forEach = W := r.forEach_samples h timeRange
    rw [SeriesReader.bounds, hsamples] at hb
    split_ifs at hb with hnone
    obtain rfl := Option.some.inj hb
    have hne : W ≠ [] := by
      rintro hnil
      rw [hscan.foundTime, hnil] at hnone
      exact hnone rfl
    refine ⟨hscan.count, ?_, ?_⟩
    · have hhead := List.head?_eq_some_head hne
      rw [hhead, Option.map_some, hscan.first _ hhead]
    · have hlast := List.getLast?_eq_some_getLast hne
      rw [hlast, Option.map_some, hscan.last _ hlast]

/-- A bool column whose second row is null. -/
def flagColumn : Column where
  data := .packedBools ⟨[1, 1, 0], 3⟩
  validityBitmap := some ⟨[0b101], 3⟩
  descriptor := ⟨0, .bool, "flag"⟩

/-- The integers `107` and `103` behind a null, as offsets from `100`. -/
def countColumn : Column where
  data := .frameOfReference ⟨100, 1, [0, 7, 3], 3⟩
  validityBitmap := some ⟨[0b110], 3⟩
  descriptor := ⟨1, .int64, "count"⟩

/-- A chunk from before the columns, and one with nulls in it. -/
def flagChunks : List TopicChunk :=
  [RangeCursor.plainChunk 1 [4],
    { RangeCursor.plainChunk 4 [6, 9] with columns := [flagColumn, countColumn] }]

theorem flagChunks_inOrder : ChunksInOrder flagChunks where
  ordered := by
    simp only [flagChunks, List.forall_mem_cons]
    exact ⟨⟨by decide, by decide, rfl, rfl⟩, ⟨by decide, by decide, rfl, rfl⟩, by simp⟩
  counted := by decide
  chain := List.isChain_pair.mpr (show (4 : Timestamp) ≤ 4 by decide)

theorem views_series_flagAndCount :
    (⟨flagChunks, 0⟩ : SeriesReader).Views [⟨4, .one, 1, 0⟩, ⟨9, .zero, 1, 2⟩] ∧
      (⟨flagChunks, 1⟩ : SeriesReader).Views
        [⟨6, 0x405AC00000000000, 1, 1⟩, ⟨9, 0x4059C00000000000, 1, 2⟩] := by
  have hflag := views_series ⟨flagChunks, 0⟩ flagChunks_inOrder
  have hcount := views_series ⟨flagChunks, 1⟩ flagChunks_inOrder
  rw [show series ⟨flagChunks, 0⟩ = [⟨4, .one, 1, 0⟩, ⟨9, .zero, 1, 2⟩] by decide +kernel] at hflag
  rw [show series ⟨flagChunks, 1⟩ = [⟨6, 0x405AC00000000000, 1, 1⟩, ⟨9, 0x4059C00000000000, 1, 2⟩]
    by decide +kernel] at hcount
  exact ⟨hflag, hcount⟩

end SeriesReader

end PlotJuggler
