import PlotJugglerCore.Lib.PartitionPoint
import PlotJugglerCore.Store.TimeOrder

/-!
# Queries on a topic

`query.cpp`: the range cursor and `latestAt`. Both search the chunks and then the rows of one chunk,
but by different bounds: the cursor looks for the first chunk that *ends* at or after `tMin` and in it
for the first row that is not before `tMin`, `latestAt` for the last chunk that *starts* at or before
`t` and in it for the last row that is not behind `t`. Equal timestamps may lie on both sides of a
chunk boundary, and then the two searches enter different chunks.

The reference for both is the list of all rows in chunk and row order. In a topic in time order that
list is sorted, so a window of time is a segment of it: `restOf` is the part a cursor has before it,
and the loops take from it while the timestamps stay in the window.
-/

namespace PlotJuggler

open PartitionPoint

/-! ## The code -/

/-- A row of a deque of chunks; the pointer to the chunk is its position. -/
structure SampleRow where
  timestamp : Timestamp
  chunk : ℕ
  rowIndex : ℕ
  deriving DecidableEq, Repr

/-- Rows `rowStart` to `rowEnd`, exclusive, of one chunk. -/
structure ChunkRowRange where
  chunk : ℕ
  rowStart : ℕ
  rowEnd : ℕ
  deriving DecidableEq, Repr

def TopicChunk.readTimestamp (chunk : TopicChunk) (row : ℕ) : Timestamp :=
  chunk.timestamps.getD row 0

/-- The timestamps a search runs over. -/
def TopicChunk.stamps (chunk : TopicChunk) : List Timestamp :=
  chunk.timestamps.take chunk.stats.rowCount

structure RangeCursor where
  chunks : List TopicChunk
  tMin : Timestamp
  tMax : Timestamp
  chunkIndex : ℕ
  rowIndex : ℕ
  deriving DecidableEq, Repr

namespace RangeCursor

def exhaust (c : RangeCursor) : RangeCursor := { c with chunkIndex := c.chunks.length }

/-- The first chunk that does not end before `tMin`. -/
def firstChunk (chunks : List TopicChunk) (tMin : Timestamp) : ℕ :=
  partitionPoint (fun chunk ↦ decide (chunk.stats.tMax < tMin)) chunks

/-- The first row of a chunk that is not before `tMin`. -/
def firstRow (chunk : TopicChunk) (tMin : Timestamp) : ℕ :=
  partitionPoint (fun t ↦ decide (t < tMin)) chunk.stamps

/-- The constructor with `findFirstValid`. -/
def new (chunks : List TopicChunk) (tMin tMax : Timestamp) : RangeCursor :=
  match chunks[firstChunk chunks tMin]? with
  | none => ⟨chunks, tMin, tMax, chunks.length, 0⟩
  | some chunk =>
    if chunk.stamps[firstRow chunk tMin]?.all (tMax < ·) then
      ⟨chunks, tMin, tMax, chunks.length, 0⟩
    else ⟨chunks, tMin, tMax, firstChunk chunks tMin, firstRow chunk tMin⟩

def skipToValid (c : RangeCursor) : RangeCursor :=
  match c.chunks[c.chunkIndex]? with
  | none => c
  | some chunk => if c.tMax < chunk.readTimestamp c.rowIndex then c.exhaust else c

/-- The next row, wherever it lies in time. -/
def nextRow (c : RangeCursor) (chunk : TopicChunk) : RangeCursor :=
  if chunk.stats.rowCount ≤ c.rowIndex + 1 then
    { c with chunkIndex := c.chunkIndex + 1, rowIndex := 0 }
  else { c with rowIndex := c.rowIndex + 1 }

/-- `none` is the assertion that the cursor is valid. -/
def current (c : RangeCursor) : Option SampleRow :=
  c.chunks[c.chunkIndex]?.map fun chunk ↦
    ⟨chunk.readTimestamp c.rowIndex, c.chunkIndex, c.rowIndex⟩

def advance (c : RangeCursor) : Option RangeCursor :=
  c.chunks[c.chunkIndex]?.map fun chunk ↦ (c.nextRow chunk).skipToValid

/-- How far a cursor can still go: chunks, then rows of the current chunk. -/
def room (c : RangeCursor) : ℕ × ℕ :=
  (c.chunks.length - c.chunkIndex,
    ((c.chunks[c.chunkIndex]?.map (·.stats.rowCount)).getD 0) - c.rowIndex)

theorem room_advance {c c' : RangeCursor} (h : c.advance = some c') :
    Prod.Lex (· < ·) (· < ·) c'.room c.room := by
  obtain ⟨chunk, hchunk, rfl⟩ := Option.map_eq_some_iff.mp h
  have hlt : c.chunkIndex < c.chunks.length := (List.getElem?_eq_some_iff.mp hchunk).1
  have hskip : ∀ d : RangeCursor, d.chunks = c.chunks → c.chunkIndex ≤ d.chunkIndex →
      Prod.Lex (· < ·) (· < ·) d.room c.room →
      Prod.Lex (· < ·) (· < ·) d.skipToValid.room c.room := by
    intro d hd hle hroom
    rw [skipToValid]
    split
    · exact hroom
    · split_ifs
      · refine Prod.Lex.left _ _ ?_
        simp only [exhaust, hd]
        omega
      · exact hroom
  apply hskip
  · rw [nextRow]
    split_ifs <;> rfl
  · rw [nextRow]
    split_ifs
    · exact Nat.le_succ _
    · exact le_rfl
  · rw [nextRow]
    split_ifs with hlast
    · refine Prod.Lex.left _ _ ?_
      show c.chunks.length - (c.chunkIndex + 1) < c.chunks.length - c.chunkIndex
      omega
    · have hroom : c.room = (c.chunks.length - c.chunkIndex, chunk.stats.rowCount - c.rowIndex) := by
        rw [room, hchunk]
        rfl
      rw [hroom, room, hchunk]
      refine Prod.Lex.right _ ?_
      simp only [Option.map_some, Option.getD_some]
      omega

/-- The rows `forEach` hands to its callback. -/
def forEach (c : RangeCursor) : List SampleRow :=
  match c.current, _h : c.advance with
  | some row, some c' => row :: forEach c'
  | _, _ => []
termination_by c.room
decreasing_by exact room_advance _h

/-- The first row from `row` on that is not before `tMin`, and the first behind it that lies
behind `tMax`. -/
def rowRange (tMin tMax : Timestamp) (chunk : TopicChunk) (i row : ℕ) : ChunkRowRange :=
  upTo (row + ((chunk.stamps.drop row).takeWhile (· < tMin)).length)
where
  upTo (first : ℕ) : ChunkRowRange :=
    ⟨i, first, first + ((chunk.stamps.drop first).takeWhile (· ≤ tMax)).length⟩

/-- The loop of `forEachChunk` over the chunks that are left, of which the first has position `i`.
A chunk that is skipped leaves the row number behind. -/
def forEachChunkFrom (tMin tMax : Timestamp) : List TopicChunk → ℕ → ℕ → List ChunkRowRange
  | [], _, _ => []
  | chunk :: chunks, i, row =>
    if chunk.stats.tMax < tMin then forEachChunkFrom tMin tMax chunks (i + 1) row
    else if tMax < chunk.stats.tMin then []
    else if (rowRange tMin tMax chunk i row).rowStart < (rowRange tMin tMax chunk i row).rowEnd then
      rowRange tMin tMax chunk i row :: forEachChunkFrom tMin tMax chunks (i + 1) 0
    else forEachChunkFrom tMin tMax chunks (i + 1) 0

def forEachChunk (c : RangeCursor) : List ChunkRowRange :=
  forEachChunkFrom c.tMin c.tMax (c.chunks.drop c.chunkIndex) c.chunkIndex c.rowIndex

/-- `k` times `advance`. -/
def advanceBy : ℕ → RangeCursor → Option RangeCursor
  | 0, c => some c
  | k + 1, c => c.advance.bind (advanceBy k)

end RangeCursor

def rangeQuery (chunks : List TopicChunk) (tMin tMax : Timestamp) : RangeCursor :=
  .new chunks tMin tMax

/-- How many chunks do not start behind `t`. -/
def chunksUpTo (chunks : List TopicChunk) (t : Timestamp) : ℕ :=
  partitionPoint (fun chunk ↦ !decide (t < chunk.stats.tMin)) chunks

/-- How many rows of a chunk do not lie behind `t`. -/
def rowsUpTo (chunk : TopicChunk) (t : Timestamp) : ℕ :=
  partitionPoint (fun u ↦ !decide (t < u)) chunk.stamps

def latestAt (chunks : List TopicChunk) (t : Timestamp) : Option SampleRow :=
  match chunksUpTo chunks t with
  | 0 => none
  | i + 1 => chunks[i]?.bind fun chunk ↦
    match rowsUpTo chunk t with
    | 0 => none
    | row + 1 => some ⟨chunk.readTimestamp row, i, row⟩

/-! ## All rows -/

/-- The rows of the chunk at position `i`. -/
def chunkRows (i : ℕ) (chunk : TopicChunk) : List SampleRow :=
  chunk.stamps.mapIdx fun row t ↦ ⟨t, i, row⟩

/-- The rows of chunks of which the first has position `i`, in chunk and row order. -/
def rowsOf : ℕ → List TopicChunk → List SampleRow
  | _, [] => []
  | i, chunk :: chunks => chunkRows i chunk ++ rowsOf (i + 1) chunks

/-- The rows of a range. -/
def ChunkRowRange.rows (chunks : List TopicChunk) (r : ChunkRowRange) : List SampleRow :=
  (chunks[r.chunk]?.map fun chunk ↦ ((chunkRows r.chunk chunk).take r.rowEnd).drop r.rowStart).getD []

/-- The storage order: what `TopicStorage.Ordered` says of the chunks, and that the number of rows is
the number of timestamps. -/
structure ChunksInOrder (chunks : List TopicChunk) : Prop where
  ordered : ∀ chunk ∈ chunks, chunk.Ordered
  counted : ∀ chunk ∈ chunks, chunk.stats.rowCount = chunk.timestamps.length
  chain : chunks.IsChain TopicChunk.Follows

namespace TopicChunk

variable {chunk : TopicChunk}

theorem stamps_eq (hcount : chunk.stats.rowCount = chunk.timestamps.length) :
    chunk.stamps = chunk.timestamps := by
  rw [stamps, hcount, List.take_length]

theorem Ordered.tMin_le (h : chunk.Ordered) {t : Timestamp} (ht : t ∈ chunk.timestamps) :
    chunk.stats.tMin ≤ t := by
  obtain ⟨first, rest, hts⟩ := List.exists_cons_of_ne_nil h.nonempty
  have hfirst := h.first
  have hsorted := h.sorted
  rw [hts] at hfirst hsorted ht
  obtain rfl := Option.some.inj hfirst
  rcases List.mem_cons.mp ht with rfl | ht
  · exact le_rfl
  · exact List.rel_of_pairwise_cons hsorted ht

theorem Ordered.le_tMax (h : chunk.Ordered) {t : Timestamp} (ht : t ∈ chunk.timestamps) :
    t ≤ chunk.stats.tMax := by
  have hlast := h.last
  rw [List.getLast?_eq_some_getLast h.nonempty] at hlast
  rw [← Option.some.inj hlast]
  exact h.sorted.rel_getLast ht

theorem Ordered.tMin_le_tMax (h : chunk.Ordered) : chunk.stats.tMin ≤ chunk.stats.tMax :=
  h.tMin_le (List.mem_of_getLast? h.last)

end TopicChunk

theorem map_timestamp_chunkRows (i : ℕ) (chunk : TopicChunk) :
    (chunkRows i chunk).map SampleRow.timestamp = chunk.stamps := by
  apply List.ext_getElem?
  intro row
  rw [chunkRows, List.getElem?_map, List.getElem?_mapIdx, Option.map_map]
  exact Option.map_id'

theorem mem_chunkRows {i : ℕ} {chunk : TopicChunk} {r : SampleRow} (h : r ∈ chunkRows i chunk)
    (hcount : chunk.stats.rowCount = chunk.timestamps.length) :
    r.timestamp ∈ chunk.timestamps := by
  rw [← TopicChunk.stamps_eq hcount, ← map_timestamp_chunkRows i chunk]
  exact List.mem_map_of_mem h

/-- Every row is a row of some chunk. -/
theorem exists_chunk {chunks : List TopicChunk} {i : ℕ}
    (h : ∀ chunk ∈ chunks, chunk.stats.rowCount = chunk.timestamps.length) {r : SampleRow}
    (hr : r ∈ rowsOf i chunks) : ∃ chunk ∈ chunks, r.timestamp ∈ chunk.timestamps := by
  induction chunks generalizing i with
  | nil => exact absurd hr List.not_mem_nil
  | cons chunk chunks ih =>
    rcases List.mem_append.mp hr with hr | hr
    · exact ⟨chunk, List.mem_cons_self, mem_chunkRows hr (h chunk List.mem_cons_self)⟩
    · obtain ⟨later, hlater, hts⟩ := ih (fun c hc ↦ h c (List.mem_cons_of_mem _ hc)) hr
      exact ⟨later, List.mem_cons_of_mem _ hlater, hts⟩

namespace ChunksInOrder

variable {chunk : TopicChunk} {chunks : List TopicChunk} {i : ℕ}

theorem tail (h : ChunksInOrder (chunk :: chunks)) : ChunksInOrder chunks where
  ordered c hc := h.ordered c (List.mem_cons_of_mem _ hc)
  counted c hc := h.counted c (List.mem_cons_of_mem _ hc)
  chain := h.chain.tail

theorem drop (h : ChunksInOrder chunks) (n : ℕ) : ChunksInOrder (chunks.drop n) where
  ordered c hc := h.ordered c (List.mem_of_mem_drop hc)
  counted c hc := h.counted c (List.mem_of_mem_drop hc)
  chain := h.chain.drop n

/-- A chunk ends before all chunks behind it start. -/
theorem tMax_le_tMin (h : ChunksInOrder (chunk :: chunks)) {later : TopicChunk}
    (hlater : later ∈ chunks) : chunk.stats.tMax ≤ later.stats.tMin := by
  induction chunks generalizing chunk with
  | nil => exact absurd hlater List.not_mem_nil
  | cons next chunks ih =>
    have hfollows : chunk.stats.tMax ≤ next.stats.tMin := (List.isChain_cons_cons.mp h.chain).1
    rcases List.mem_cons.mp hlater with rfl | hlater
    · exact hfollows
    · have hnext := h.tail.ordered next List.mem_cons_self
      exact (hfollows.trans hnext.tMin_le_tMax).trans (ih h.tail hlater)

theorem pairwise (h : ChunksInOrder chunks) :
    chunks.Pairwise fun a b ↦ a.stats.tMax ≤ b.stats.tMin := by
  induction chunks with
  | nil => exact List.Pairwise.nil
  | cons chunk chunks ih =>
    exact List.pairwise_cons.mpr ⟨fun later hlater ↦ h.tMax_le_tMin hlater, ih h.tail⟩

/-- Every row behind a chunk lies at or behind its end. -/
theorem tMax_le (h : ChunksInOrder (chunk :: chunks)) {r : SampleRow} (hr : r ∈ rowsOf i chunks) :
    chunk.stats.tMax ≤ r.timestamp := by
  obtain ⟨later, hlater, hts⟩ := exists_chunk h.tail.counted hr
  exact (h.tMax_le_tMin hlater).trans
    ((h.ordered later (List.mem_cons_of_mem _ hlater)).tMin_le hts)

theorem sorted_chunkRows (h : ChunksInOrder (chunk :: chunks)) (i : ℕ) :
    (chunkRows i chunk).Pairwise fun a b ↦ a.timestamp ≤ b.timestamp := by
  rw [← List.pairwise_map (f := SampleRow.timestamp) (R := (· ≤ ·)), map_timestamp_chunkRows,
    TopicChunk.stamps_eq (h.counted chunk List.mem_cons_self)]
  exact (h.ordered chunk List.mem_cons_self).sorted

/-- All rows are in time order. -/
theorem sorted (h : ChunksInOrder chunks) (i : ℕ) :
    (rowsOf i chunks).Pairwise fun a b ↦ a.timestamp ≤ b.timestamp := by
  induction chunks generalizing i with
  | nil => exact List.Pairwise.nil
  | cons chunk chunks ih =>
    refine List.pairwise_append.mpr ⟨h.sorted_chunkRows i, ih h.tail (i + 1), fun a ha b hb ↦ ?_⟩
    exact ((h.ordered chunk List.mem_cons_self).le_tMax
      (mem_chunkRows ha (h.counted chunk List.mem_cons_self))).trans (h.tMax_le hb)

end ChunksInOrder

/-! ## The range cursor -/

namespace RangeCursor

variable {c : RangeCursor} {chunk : TopicChunk}

/-- The rows before a cursor, up to the end of the topic. -/
def restOf (c : RangeCursor) : List SampleRow :=
  (rowsOf c.chunkIndex (c.chunks.drop c.chunkIndex)).drop c.rowIndex

/-- A cursor that has not run out of chunks points at a row, not behind `tMax`. -/
def Points (c : RangeCursor) : Prop :=
  ∀ chunk, c.chunks[c.chunkIndex]? = some chunk →
    c.rowIndex < chunk.stamps.length ∧ chunk.readTimestamp c.rowIndex ≤ c.tMax

theorem points_of_none (h : c.chunks[c.chunkIndex]? = none) : c.Points := by
  intro chunk hchunk
  rw [h] at hchunk
  cases hchunk

theorem rowsOf_drop {chunks : List TopicChunk} {i : ℕ} (h : chunks[i]? = some chunk) :
    rowsOf i (chunks.drop i) = chunkRows i chunk ++ rowsOf (i + 1) (chunks.drop (i + 1)) := by
  obtain ⟨hlt, hget⟩ := List.getElem?_eq_some_iff.mp h
  rw [← List.getElem_cons_drop hlt, hget, rowsOf]

theorem length_chunkRows (i : ℕ) (chunk : TopicChunk) :
    (chunkRows i chunk).length = chunk.stamps.length := List.length_mapIdx

theorem restOf_eq_nil (h : c.chunks[c.chunkIndex]? = none) : c.restOf = [] := by
  rw [restOf, List.drop_eq_nil_of_le (List.getElem?_eq_none_iff.mp h), rowsOf, List.drop_nil]

/-- The rest of the current chunk, and the chunks behind it. -/
theorem restOf_eq_append (h : c.chunks[c.chunkIndex]? = some chunk)
    (hrow : c.rowIndex ≤ chunk.stamps.length) :
    c.restOf = (chunkRows c.chunkIndex chunk).drop c.rowIndex
      ++ rowsOf (c.chunkIndex + 1) (c.chunks.drop (c.chunkIndex + 1)) := by
  rw [restOf, rowsOf_drop h, List.drop_append_of_le_length (by rwa [length_chunkRows])]

theorem readTimestamp_eq {row : ℕ} (hrow : row < chunk.stamps.length) :
    chunk.readTimestamp row = chunk.stamps[row] := by
  have hlt : row < chunk.timestamps.length := by
    rw [TopicChunk.stamps, List.length_take] at hrow
    omega
  simp [TopicChunk.readTimestamp, TopicChunk.stamps, hlt]

/-- The current row, and the rows from the next one on. -/
theorem restOf_eq_cons (h : c.chunks[c.chunkIndex]? = some chunk)
    (hcount : chunk.stats.rowCount = chunk.timestamps.length)
    (hrow : c.rowIndex < chunk.stamps.length) :
    c.restOf = ⟨chunk.readTimestamp c.rowIndex, c.chunkIndex, c.rowIndex⟩
      :: (c.nextRow chunk).restOf := by
  have hlen : chunk.stamps.length = chunk.stats.rowCount := by
    rw [TopicChunk.stamps_eq hcount, hcount]
  have hlt : c.rowIndex < (chunkRows c.chunkIndex chunk).length := by rwa [length_chunkRows]
  have hget : (chunkRows c.chunkIndex chunk)[c.rowIndex]
      = ⟨chunk.readTimestamp c.rowIndex, c.chunkIndex, c.rowIndex⟩ := by
    rw [readTimestamp_eq hrow]
    simp [chunkRows]
  rw [restOf_eq_append h hrow.le, List.drop_eq_getElem_cons hlt, hget, List.cons_append, nextRow]
  congr 1
  split_ifs with hlast
  · -- the last row of the chunk
    rw [List.drop_eq_nil_of_le (by rw [length_chunkRows]; omega)]
    rfl
  · exact (restOf_eq_append (c := { c with rowIndex := c.rowIndex + 1 }) h hrow).symm

theorem takeWhile_restOf_skipToValid (hc : ChunksInOrder c.chunks)
    (hrow : ∀ chunk, c.chunks[c.chunkIndex]? = some chunk → c.rowIndex < chunk.stamps.length) :
    c.skipToValid.Points ∧ c.skipToValid.restOf.takeWhile (fun r ↦ r.timestamp ≤ c.tMax)
      = c.restOf.takeWhile fun r ↦ r.timestamp ≤ c.tMax := by
  rcases hchunk : c.chunks[c.chunkIndex]? with _ | chunk
  · have hskip : c.skipToValid = c := by rw [skipToValid, hchunk]
    rw [hskip]
    exact ⟨points_of_none hchunk, rfl⟩
  · have hskip : c.skipToValid = if c.tMax < chunk.readTimestamp c.rowIndex then c.exhaust else c := by
      rw [skipToValid, hchunk]
    have hcount := hc.counted chunk (List.mem_of_getElem? hchunk)
    rw [hskip]
    split_ifs with hlate
    · have hnone : c.exhaust.chunks[c.exhaust.chunkIndex]? = none :=
        List.getElem?_eq_none_iff.mpr le_rfl
      refine ⟨points_of_none hnone, ?_⟩
      rw [restOf_eq_nil hnone, restOf_eq_cons hchunk hcount (hrow chunk hchunk),
        List.takeWhile_cons_of_neg (by simpa using hlate), List.takeWhile_nil]
    · refine ⟨fun chunk' h ↦ ?_, rfl⟩
      obtain rfl := Option.some.inj (hchunk.symm.trans h)
      exact ⟨hrow chunk hchunk, not_lt.mp hlate⟩

@[simp] theorem skipToValid_chunks : c.skipToValid.chunks = c.chunks := by
  rw [skipToValid]
  split
  · rfl
  · split_ifs <;> rfl

@[simp] theorem skipToValid_tMax : c.skipToValid.tMax = c.tMax := by
  rw [skipToValid]
  split
  · rfl
  · split_ifs <;> rfl

@[simp] theorem skipToValid_tMin : c.skipToValid.tMin = c.tMin := by
  rw [skipToValid]
  split
  · rfl
  · split_ifs <;> rfl

@[simp] theorem nextRow_chunks : (c.nextRow chunk).chunks = c.chunks := by
  rw [nextRow]
  split_ifs <;> rfl

@[simp] theorem nextRow_tMax : (c.nextRow chunk).tMax = c.tMax := by
  rw [nextRow]
  split_ifs <;> rfl

@[simp] theorem nextRow_tMin : (c.nextRow chunk).tMin = c.tMin := by
  rw [nextRow]
  split_ifs <;> rfl

/-- Behind the last row of a chunk comes the first row of the next chunk, which has one. -/
theorem rowIndex_nextRow_lt (hc : ChunksInOrder c.chunks) (h : c.chunks[c.chunkIndex]? = some chunk)
    {chunk' : TopicChunk}
    (h' : (c.nextRow chunk).chunks[(c.nextRow chunk).chunkIndex]? = some chunk') :
    (c.nextRow chunk).rowIndex < chunk'.stamps.length := by
  rw [nextRow_chunks] at h'
  have hlen : chunk'.stamps.length = chunk'.timestamps.length := by
    rw [TopicChunk.stamps_eq (hc.counted chunk' (List.mem_of_getElem? h'))]
  rw [hlen]
  rw [nextRow] at h' ⊢
  split_ifs at h' ⊢ with hlast
  · exact List.length_pos_iff.mpr (hc.ordered chunk' (List.mem_of_getElem? h')).nonempty
  · obtain rfl := Option.some.inj (h.symm.trans h')
    rw [← hc.counted chunk (List.mem_of_getElem? h)]
    exact Nat.lt_of_not_le hlast

/-- What `advance` does to the rows of the window that are left. -/
theorem takeWhile_advance (hc : ChunksInOrder c.chunks) (hp : c.Points)
    (h : c.chunks[c.chunkIndex]? = some chunk) :
    (c.nextRow chunk).skipToValid.Points ∧ c.restOf.takeWhile (fun r ↦ r.timestamp ≤ c.tMax)
      = ⟨chunk.readTimestamp c.rowIndex, c.chunkIndex, c.rowIndex⟩
        :: (c.nextRow chunk).skipToValid.restOf.takeWhile fun r ↦ r.timestamp ≤ c.tMax := by
  obtain ⟨hrow, hle⟩ := hp chunk h
  have hcount := hc.counted chunk (List.mem_of_getElem? h)
  obtain ⟨hpoints, hrest⟩ := takeWhile_restOf_skipToValid (c := c.nextRow chunk)
    (by rwa [nextRow_chunks]) fun chunk' ↦ rowIndex_nextRow_lt hc h
  refine ⟨hpoints, ?_⟩
  rw [nextRow_tMax] at hrest
  rw [restOf_eq_cons h hcount hrow, List.takeWhile_cons_of_pos (by simpa using hle), hrest]

theorem forEach_of_none (h : c.chunks[c.chunkIndex]? = none) : c.forEach = [] := by
  rw [forEach]
  simp [current, h]

theorem forEach_of_some (h : c.chunks[c.chunkIndex]? = some chunk) :
    c.forEach = ⟨chunk.readTimestamp c.rowIndex, c.chunkIndex, c.rowIndex⟩
      :: (c.nextRow chunk).skipToValid.forEach := by
  have hcurrent : c.current = some ⟨chunk.readTimestamp c.rowIndex, c.chunkIndex, c.rowIndex⟩ := by
    rw [RangeCursor.current, h, Option.map_some]
  have hadvance : c.advance = some (c.nextRow chunk).skipToValid := by
    rw [advance, h, Option.map_some]
  rw [forEach]
  split
  · rename_i row c' hrow hc'
    obtain rfl := Option.some.inj (hcurrent.symm.trans hrow)
    obtain rfl := Option.some.inj (hadvance.symm.trans hc')
    rfl
  · rename_i hno
    exact absurd hadvance (hno _ _ hcurrent)

/-- `forEach` visits the rows before the cursor as long as they do not lie behind `tMax`. -/
theorem forEach_eq_takeWhile (hc : ChunksInOrder c.chunks) (hp : c.Points) :
    c.forEach = c.restOf.takeWhile fun r ↦ r.timestamp ≤ c.tMax := by
  induction c using forEach.induct with
  | case1 c row c' hadvance _ ih =>
    obtain ⟨chunk, hchunk, rfl⟩ := Option.map_eq_some_iff.mp hadvance
    obtain ⟨hpoints, hrest⟩ := takeWhile_advance hc hp hchunk
    rw [forEach_of_some hchunk, hrest, ih (by simpa using hc) hpoints]
    simp
  | case2 c hno =>
    have hnone : c.chunks[c.chunkIndex]? = none := by
      rw [Option.eq_none_iff_forall_not_mem]
      intro chunk hchunk
      exact hno ⟨chunk.readTimestamp c.rowIndex, c.chunkIndex, c.rowIndex⟩
        (c.nextRow chunk).skipToValid (Option.map_eq_some_iff.mpr ⟨chunk, hchunk, rfl⟩)
        (Option.map_eq_some_iff.mpr ⟨chunk, hchunk, rfl⟩)
    rw [forEach_of_none hnone, restOf_eq_nil hnone, List.takeWhile_nil]

/-! ### The start -/

theorem partitioned_tMax {chunks : List TopicChunk} (h : ChunksInOrder chunks) (t : Timestamp) :
    Partitioned (fun chunk : TopicChunk ↦ decide (chunk.stats.tMax < t)) chunks := by
  refine h.pairwise.imp_of_mem fun {a b} _ hb hab hlt ↦ ?_
  simp only [decide_eq_true_eq] at hlt ⊢
  exact (hab.trans (h.ordered b hb).tMin_le_tMax).trans_lt hlt

theorem partitioned_stamps (hsorted : chunk.timestamps.Pairwise (· ≤ ·)) (t : Timestamp) :
    Partitioned (fun u : Timestamp ↦ decide (u < t)) chunk.stamps := by
  refine (hsorted.sublist (List.take_sublist _ _)).imp fun {a b} hab hb ↦ ?_
  simp only [decide_eq_true_eq] at hb ⊢
  exact hab.trans_lt hb

theorem rowsOf_append (i : ℕ) (a b : List TopicChunk) :
    rowsOf i (a ++ b) = rowsOf i a ++ rowsOf (i + a.length) b := by
  induction a generalizing i with
  | nil => rfl
  | cons chunk a ih =>
    rw [List.cons_append, rowsOf, ih, rowsOf, List.append_assoc, List.length_cons,
      Nat.add_right_comm, Nat.add_assoc]

/-- The rows before the chunk the search enters lie before `tMin`. -/
theorem lt_of_mem_take {chunks : List TopicChunk} (h : ChunksInOrder chunks) {tMin : Timestamp}
    {i : ℕ} {r : SampleRow} (hr : r ∈ rowsOf i (chunks.take (firstChunk chunks tMin))) :
    r.timestamp < tMin := by
  obtain ⟨chunk, hchunk, hts⟩ := exists_chunk (fun c hc ↦ h.counted c (List.mem_of_mem_take hc)) hr
  have hordered := h.ordered chunk (List.mem_of_mem_take hchunk)
  rw [firstChunk, take_partitionPoint (partitioned_tMax h tMin)] at hchunk
  have hlt : chunk.stats.tMax < tMin := by simpa using (List.mem_filter.mp hchunk).2
  exact (hordered.le_tMax hts).trans_lt hlt

/-- Where the two searches of `findFirstValid` lead to. -/
def found (chunks : List TopicChunk) (tMin tMax : Timestamp) (chunk : TopicChunk) : RangeCursor :=
  ⟨chunks, tMin, tMax, firstChunk chunks tMin, firstRow chunk tMin⟩

/-- The rows before `tMin`, and the rows from the place found on. -/
theorem rowsOf_eq_append {chunks : List TopicChunk} (h : ChunksInOrder chunks)
    {tMin : Timestamp} (tMax : Timestamp) (hchunk : chunks[firstChunk chunks tMin]? = some chunk) :
    firstRow chunk tMin < chunk.stamps.length ∧
      ∃ before, rowsOf 0 chunks = before ++ (found chunks tMin tMax chunk).restOf ∧
        (∀ r ∈ before, r.timestamp < tMin) ∧
        ∀ r ∈ (found chunks tMin tMax chunk).restOf, tMin ≤ r.timestamp := by
  obtain ⟨hlt, hget⟩ := List.getElem?_eq_some_iff.mp hchunk
  have hmem : chunk ∈ chunks := List.mem_of_getElem? hchunk
  have hordered := h.ordered chunk hmem
  have hstamps := TopicChunk.stamps_eq (h.counted chunk hmem)
  have hpart := partitioned_stamps hordered.sorted tMin
  -- the chunk does not end before `tMin`
  have hend : tMin ≤ chunk.stats.tMax := by
    have hdrop : chunk ∈ chunks.drop (firstChunk chunks tMin) := by
      rw [← List.getElem_cons_drop hlt, hget]
      exact List.mem_cons_self
    rw [firstChunk, drop_partitionPoint (partitioned_tMax h tMin)] at hdrop
    simpa using (List.mem_filter.mp hdrop).2
  -- so its last row is not before `tMin`, and the search for a row finds one
  have hrow : firstRow chunk tMin < chunk.stamps.length := by
    have hlast : chunk.stats.tMax ∈ chunk.stamps.drop (firstRow chunk tMin) := by
      rw [firstRow, drop_partitionPoint hpart, List.mem_filter, hstamps]
      exact ⟨List.mem_of_getLast? hordered.last, by simpa using hend⟩
    rw [← Nat.sub_pos_iff_lt, ← List.length_drop]
    exact List.length_pos_of_mem hlast
  have hrest : (found chunks tMin tMax chunk).restOf
      = (chunkRows (firstChunk chunks tMin) chunk).drop (firstRow chunk tMin)
        ++ rowsOf (firstChunk chunks tMin + 1) (chunks.drop (firstChunk chunks tMin + 1)) :=
    restOf_eq_append (c := found chunks tMin tMax chunk) hchunk hrow.le
  refine ⟨hrow, rowsOf 0 (chunks.take (firstChunk chunks tMin))
    ++ (chunkRows (firstChunk chunks tMin) chunk).take (firstRow chunk tMin), ?_, ?_, ?_⟩
  · have hwhole := rowsOf_append 0 (chunks.take (firstChunk chunks tMin))
      (chunks.drop (firstChunk chunks tMin))
    rw [List.take_append_drop, List.length_take_of_le hlt.le, Nat.zero_add, rowsOf_drop hchunk]
      at hwhole
    rw [hwhole, hrest, List.append_assoc, ← List.append_assoc (List.take _ _),
      List.take_append_drop]
  · intro r hr
    rcases List.mem_append.mp hr with hr | hr
    · exact lt_of_mem_take h hr
    · have hts := List.mem_map_of_mem (f := SampleRow.timestamp) hr
      rw [List.map_take, map_timestamp_chunkRows, firstRow, take_partitionPoint hpart] at hts
      simpa using (List.mem_filter.mp hts).2
  · intro r hr
    rw [hrest] at hr
    rcases List.mem_append.mp hr with hr | hr
    · have hts := List.mem_map_of_mem (f := SampleRow.timestamp) hr
      rw [List.map_drop, map_timestamp_chunkRows, firstRow, drop_partitionPoint hpart] at hts
      simpa using (List.mem_filter.mp hts).2
    · have hbehind := h.drop (firstChunk chunks tMin)
      rw [← List.getElem_cons_drop hlt, hget] at hbehind
      exact hend.trans (hbehind.tMax_le hr)

theorem sorted_restOf (h : ChunksInOrder c.chunks) :
    c.restOf.Pairwise fun a b ↦ a.timestamp ≤ b.timestamp :=
  ((h.drop c.chunkIndex).sorted c.chunkIndex).sublist (List.drop_sublist _ _)

/-- In a sorted list, taking while not behind `t` is keeping what is not behind `t`. -/
theorem takeWhile_eq_filter_of_sorted {rows : List SampleRow}
    (h : rows.Pairwise fun a b ↦ a.timestamp ≤ b.timestamp) (t : Timestamp) :
    rows.takeWhile (fun r ↦ r.timestamp ≤ t) = rows.filter fun r ↦ r.timestamp ≤ t := by
  refine takeWhile_eq_filter (h.imp fun {a b} hab hb ↦ ?_)
  simp only [decide_eq_true_eq] at hb ⊢
  exact hab.trans hb

/-- What a new cursor has before it. -/
theorem new_spec {chunks : List TopicChunk} (h : ChunksInOrder chunks) (tMin tMax : Timestamp) :
    (new chunks tMin tMax).chunks = chunks ∧ (new chunks tMin tMax).tMin = tMin ∧
      (new chunks tMin tMax).tMax = tMax ∧ (new chunks tMin tMax).Points ∧
      (∀ r ∈ (new chunks tMin tMax).restOf, tMin ≤ r.timestamp) ∧
      (new chunks tMin tMax).restOf.takeWhile (fun r ↦ r.timestamp ≤ tMax)
        = (rowsOf 0 chunks).filter fun r ↦ tMin ≤ r.timestamp ∧ r.timestamp ≤ tMax := by
  have hend : (⟨chunks, tMin, tMax, chunks.length, 0⟩ : RangeCursor).chunks[chunks.length]? = none :=
    List.getElem?_eq_none_iff.mpr le_rfl
  rcases hchunk : chunks[firstChunk chunks tMin]? with _ | chunk
  · have hnew : new chunks tMin tMax = ⟨chunks, tMin, tMax, chunks.length, 0⟩ := by
      rw [new, hchunk]
    have hall : ∀ r ∈ rowsOf 0 chunks, r.timestamp < tMin := by
      intro r hr
      refine lt_of_mem_take (i := 0) h ?_
      rwa [List.take_of_length_le (List.getElem?_eq_none_iff.mp hchunk)]
    rw [hnew, restOf_eq_nil hend]
    refine ⟨rfl, rfl, rfl, points_of_none hend, by simp, ?_⟩
    rw [List.takeWhile_nil, eq_comm, List.filter_eq_nil_iff]
    intro r hr
    simp [(hall r hr).not_ge]
  · obtain ⟨hrow, before, hsplit, hbefore, hafter⟩ := rowsOf_eq_append h tMax hchunk
    have hcount := h.counted chunk (List.mem_of_getElem? hchunk)
    have hcons := restOf_eq_cons (c := found chunks tMin tMax chunk) hchunk hcount hrow
    -- of all rows, the window keeps a beginning of those from the place found on
    have hwindow : (rowsOf 0 chunks).filter (fun r ↦ tMin ≤ r.timestamp ∧ r.timestamp ≤ tMax)
        = (found chunks tMin tMax chunk).restOf.takeWhile fun r ↦ r.timestamp ≤ tMax := by
      have hnone : before.filter (fun r ↦ tMin ≤ r.timestamp ∧ r.timestamp ≤ tMax) = [] := by
        rw [List.filter_eq_nil_iff]
        intro r hr
        simp [(hbefore r hr).not_ge]
      rw [hsplit, List.filter_append, hnone, List.nil_append,
        takeWhile_eq_filter_of_sorted (sorted_restOf (c := found chunks tMin tMax chunk) h)]
      refine List.filter_congr fun r hr ↦ ?_
      simp [hafter r hr]
    have hnew : new chunks tMin tMax = if chunk.stamps[firstRow chunk tMin]?.all (tMax < ·) then
        ⟨chunks, tMin, tMax, chunks.length, 0⟩ else found chunks tMin tMax chunk := by
      rw [new, hchunk]
      rfl
    have hstamp : chunk.stamps[firstRow chunk tMin]?
        = some (chunk.readTimestamp (firstRow chunk tMin)) := by
      rw [List.getElem?_eq_getElem hrow, readTimestamp_eq hrow]
    rw [hnew, hwindow, hstamp]
    split_ifs with hlate
    · rw [restOf_eq_nil hend, hcons, List.takeWhile_cons_of_neg]
      · exact ⟨rfl, rfl, rfl, points_of_none hend, by simp, rfl⟩
      · have hlt : tMax < chunk.readTimestamp (firstRow chunk tMin) := by simpa using hlate
        rw [decide_eq_true_eq]
        exact not_le.mpr hlt
    · refine ⟨rfl, rfl, rfl, fun chunk' hchunk' ↦ ?_, hafter, rfl⟩
      obtain rfl := Option.some.inj (hchunk.symm.trans hchunk')
      exact ⟨hrow, by simpa [found] using hlate⟩

/-! ### Chunk by chunk -/

/-- The rows of a range that starts at a row not before `tMin`. -/
theorem rows_rowRange {chunks : List TopicChunk} {i row : ℕ} {tMin : Timestamp} (tMax : Timestamp)
    (hchunk : chunks[i]? = some chunk)
    (hrow : ∀ r ∈ (chunkRows i chunk).drop row, tMin ≤ r.timestamp) :
    (rowRange tMin tMax chunk i row).rows chunks
      = ((chunkRows i chunk).drop row).takeWhile fun r ↦ r.timestamp ≤ tMax := by
  have hstart : (chunk.stamps.drop row).takeWhile (· < tMin) = [] := by
    rcases hstamps : chunk.stamps.drop row with _ | ⟨t, ts⟩
    · rfl
    · have ht : t ∈ ((chunkRows i chunk).drop row).map SampleRow.timestamp := by
        rw [List.map_drop, map_timestamp_chunkRows, hstamps]
        exact List.mem_cons_self
      obtain ⟨r, hr, rfl⟩ := List.mem_map.mp ht
      exact List.takeWhile_cons_of_neg (by simpa using hrow r hr)
  have hcount : ((chunk.stamps.drop row).takeWhile (· ≤ tMax)).length
      = (((chunkRows i chunk).drop row).takeWhile fun r ↦ r.timestamp ≤ tMax).length := by
    rw [← map_timestamp_chunkRows i, ← List.map_drop, List.takeWhile_map, List.length_map]
    rfl
  rw [rowRange, hstart, List.length_nil, Nat.add_zero, rowRange.upTo, ChunkRowRange.rows, hchunk,
    Option.map_some, Option.getD_some, hcount]
  show List.drop row (List.take _ (chunkRows i chunk)) = _
  rw [List.drop_take, Nat.add_sub_cancel_left]
  exact (List.prefix_iff_eq_take.mp (List.takeWhile_prefix _)).symm

theorem rows_eq_nil {chunks : List TopicChunk} {r : ChunkRowRange} (h : r.rowEnd ≤ r.rowStart) :
    r.rows chunks = [] := by
  rw [ChunkRowRange.rows]
  rcases chunks[r.chunk]? with _ | chunk
  · rfl
  · exact List.drop_eq_nil_of_le ((List.length_take_le _ _).trans h)

/-- The last row of a chunk is among those from `row` on. -/
theorem tMax_mem_drop {left : List TopicChunk} (h : ChunksInOrder (chunk :: left)) {row : ℕ}
    (hrow : row < chunk.stamps.length) : chunk.stats.tMax ∈ chunk.stamps.drop row := by
  have hlast : chunk.stamps.getLast? = some chunk.stats.tMax := by
    rw [TopicChunk.stamps_eq (h.counted chunk List.mem_cons_self)]
    exact (h.ordered chunk List.mem_cons_self).last
  apply List.mem_of_getLast?
  rw [List.getLast?_drop, if_neg (Nat.not_le.mpr hrow), hlast]

/-- A window over two pieces of sorted rows. -/
theorem takeWhile_append_rows {A B : List SampleRow} {tMax : Timestamp}
    (h : (A ++ B).Pairwise fun a b ↦ a.timestamp ≤ b.timestamp) :
    (A ++ B).takeWhile (fun r ↦ r.timestamp ≤ tMax)
      = A.takeWhile (fun r ↦ r.timestamp ≤ tMax) ++ B.takeWhile fun r ↦ r.timestamp ≤ tMax := by
  obtain ⟨hA, hB, -⟩ := List.pairwise_append.mp h
  rw [takeWhile_eq_filter_of_sorted h, takeWhile_eq_filter_of_sorted hA,
    takeWhile_eq_filter_of_sorted hB, List.filter_append]

/-- The loop over the chunks from a place where all rows left are not before `tMin`. -/
theorem flatMap_forEachChunkFrom {chunks left : List TopicChunk} {tMin tMax : Timestamp}
    {i row : ℕ} (h : ChunksInOrder left) (hleft : chunks.drop i = left)
    (hrow : ∀ chunk ∈ left.head?, row < chunk.stamps.length)
    (hmin : ∀ r ∈ (rowsOf i left).drop row, tMin ≤ r.timestamp) :
    (forEachChunkFrom tMin tMax left i row).flatMap (ChunkRowRange.rows chunks)
      = ((rowsOf i left).drop row).takeWhile fun r ↦ r.timestamp ≤ tMax := by
  induction left generalizing i row with
  | nil => rw [rowsOf, List.drop_nil]; rfl
  | cons chunk left ih =>
    have hchunk : chunks[i]? = some chunk := by
      have : (chunks.drop i)[0]? = chunks[i + 0]? := List.getElem?_drop
      rw [hleft] at this
      exact this.symm
    have hlt : row < chunk.stamps.length := hrow chunk rfl
    have hcut : (rowsOf i (chunk :: left)).drop row
        = (chunkRows i chunk).drop row ++ rowsOf (i + 1) left := by
      rw [rowsOf, List.drop_append_of_le_length (by rw [length_chunkRows]; exact hlt.le)]
    have hsorted : ((rowsOf i (chunk :: left)).drop row).Pairwise
        fun a b ↦ a.timestamp ≤ b.timestamp := (h.sorted i).sublist (List.drop_sublist _ _)
    rw [hcut] at hmin ⊢
    have hfirst : ∀ r ∈ (chunkRows i chunk).drop row, tMin ≤ r.timestamp :=
      fun r hr ↦ hmin r (List.mem_append_left _ hr)
    -- the chunk is not skipped: its last row is one of those left
    have hkeep : ¬chunk.stats.tMax < tMin := by
      have hmem := tMax_mem_drop h hlt
      rw [← map_timestamp_chunkRows i, ← List.map_drop] at hmem
      obtain ⟨r, hr, heq⟩ := List.mem_map.mp hmem
      rw [← heq]
      exact not_lt.mpr (hfirst r hr)
    rw [forEachChunkFrom, if_neg hkeep]
    by_cases hlate : tMax < chunk.stats.tMin
    · -- the loop stops: the first row left is already behind `tMax`
      rw [if_pos hlate, List.flatMap_nil, eq_comm, takeWhile_eq_filter_of_sorted (hcut ▸ hsorted),
        List.filter_eq_nil_iff]
      intro r hr
      rw [decide_eq_true_eq, not_le]
      rcases List.mem_append.mp hr with hr | hr
      · exact hlate.trans_le ((h.ordered chunk List.mem_cons_self).tMin_le
          (mem_chunkRows (List.mem_of_mem_drop hr) (h.counted chunk List.mem_cons_self)))
      · exact (hlate.trans_le (h.ordered chunk List.mem_cons_self).tMin_le_tMax).trans_le
          (h.tMax_le hr)
    · have htail := @ih (i + 1) 0 h.tail (by rw [← List.drop_drop, hleft]; rfl) ?_ ?_
      · have hrange := rows_rowRange tMax hchunk hfirst
        rw [if_neg hlate, takeWhile_append_rows (hcut ▸ hsorted), ← hrange]
        rw [List.drop_zero] at htail
        split_ifs with hsome
        · rw [List.flatMap_cons, htail]
        · -- an empty range is not handed out
          rw [rows_eq_nil (Nat.le_of_not_lt hsome), htail, List.nil_append]
      · intro next hnext
        have hmem : next ∈ left := List.mem_of_mem_head? hnext
        rw [TopicChunk.stamps_eq (h.tail.counted next hmem), List.length_pos_iff]
        exact (h.tail.ordered next hmem).nonempty
      · exact fun r hr ↦ hmin r (List.mem_append_right _ hr)

/-! ### All of it -/

/-- A cursor on its way through a window. -/
structure Walks (chunks : List TopicChunk) (tMin tMax : Timestamp) (c : RangeCursor) : Prop where
  chunks_eq : c.chunks = chunks
  tMin_eq : c.tMin = tMin
  tMax_eq : c.tMax = tMax
  points : c.Points
  tMin_le : ∀ r ∈ c.restOf, tMin ≤ r.timestamp

variable {chunks : List TopicChunk} {tMin tMax : Timestamp} {c' : RangeCursor}

theorem walks_new (h : ChunksInOrder chunks) (tMin tMax : Timestamp) :
    Walks chunks tMin tMax (new chunks tMin tMax) := by
  obtain ⟨h₁, h₂, h₃, h₄, h₅, -⟩ := new_spec h tMin tMax
  exact ⟨h₁, h₂, h₃, h₄, h₅⟩

theorem Walks.advance (h : ChunksInOrder chunks) (hc : Walks chunks tMin tMax c)
    (hadvance : c.advance = some c') :
    Walks chunks tMin tMax c' ∧ ∃ row, c.forEach = row :: c'.forEach := by
  obtain ⟨chunk, hchunk, rfl⟩ := Option.map_eq_some_iff.mp hadvance
  have horder : ChunksInOrder c.chunks := hc.chunks_eq ▸ h
  obtain ⟨hpoints, -⟩ := takeWhile_advance horder hc.points hchunk
  refine ⟨⟨?_, ?_, ?_, hpoints, fun r hr ↦ ?_⟩, _, forEach_of_some hchunk⟩
  · rw [skipToValid_chunks, nextRow_chunks, hc.chunks_eq]
  · rw [skipToValid_tMin, nextRow_tMin, hc.tMin_eq]
  · rw [skipToValid_tMax, nextRow_tMax, hc.tMax_eq]
  · -- a cursor that was exhausted has no rows left, any other has the rows behind the current one
    have hcons := restOf_eq_cons hchunk (horder.counted chunk (List.mem_of_getElem? hchunk))
      (hc.points chunk hchunk).1
    refine hc.tMin_le r ?_
    rw [hcons]
    refine List.mem_cons_of_mem _ ?_
    rw [skipToValid] at hr
    split at hr
    · exact hr
    · split_ifs at hr
      · rw [restOf_eq_nil (List.getElem?_eq_none_iff.mpr le_rfl)] at hr
        exact absurd hr List.not_mem_nil
      · exact hr

theorem Walks.advanceBy (h : ChunksInOrder chunks) {k : ℕ} (hc : Walks chunks tMin tMax c)
    (hadvance : advanceBy k c = some c') :
    Walks chunks tMin tMax c' ∧ c'.forEach = c.forEach.drop k := by
  induction k generalizing c with
  | zero =>
    obtain rfl := Option.some.inj hadvance
    exact ⟨hc, rfl⟩
  | succ k ih =>
    obtain ⟨c₁, hc₁, hrest⟩ := Option.bind_eq_some_iff.mp hadvance
    obtain ⟨hwalks, row, hrow⟩ := hc.advance h hc₁
    obtain ⟨hwalks', hdrop⟩ := ih hwalks hrest
    exact ⟨hwalks', by rw [hdrop, hrow, List.drop_succ_cons]⟩

theorem Walks.forEachChunk (h : ChunksInOrder chunks) (hc : Walks chunks tMin tMax c) :
    c.forEachChunk.flatMap (ChunkRowRange.rows chunks) = c.forEach := by
  have horder : ChunksInOrder c.chunks := hc.chunks_eq ▸ h
  rw [forEach_eq_takeWhile horder hc.points, restOf, RangeCursor.forEachChunk, ← hc.chunks_eq]
  refine flatMap_forEachChunkFrom (horder.drop _) rfl (fun chunk hchunk ↦ ?_) (fun r hr ↦ ?_)
  · rw [List.head?_drop] at hchunk
    exact (hc.points chunk hchunk).1
  · rw [hc.tMin_eq]
    exact hc.tMin_le r hr

/-- The range cursor visits the rows of the window. -/
theorem forEach_rangeQuery (h : ChunksInOrder chunks) (tMin tMax : Timestamp) :
    (rangeQuery chunks tMin tMax).forEach
      = (rowsOf 0 chunks).filter fun r ↦ tMin ≤ r.timestamp ∧ r.timestamp ≤ tMax := by
  obtain ⟨hchunks, -, htMax, hpoints, -, hwindow⟩ := new_spec h tMin tMax
  rw [rangeQuery, forEach_eq_takeWhile (by rwa [hchunks]) hpoints, htMax, hwindow]

/-- The rows of the window, and from wherever the cursor stands, chunk by chunk the same rows as row
by row. -/
theorem rangeQuery_visits (h : ChunksInOrder chunks) (tMin tMax : Timestamp) :
    (rangeQuery chunks tMin tMax).forEach
        = (rowsOf 0 chunks).filter (fun r ↦ tMin ≤ r.timestamp ∧ r.timestamp ≤ tMax) ∧
      ∀ k c, advanceBy k (rangeQuery chunks tMin tMax) = some c →
        c.forEach = (rangeQuery chunks tMin tMax).forEach.drop k ∧
          c.forEachChunk.flatMap (ChunkRowRange.rows chunks) = c.forEach := by
  refine ⟨forEach_rangeQuery h tMin tMax, fun k c hc ↦ ?_⟩
  obtain ⟨hwalks, hdrop⟩ := (walks_new h tMin tMax).advanceBy h hc
  exact ⟨hdrop, hwalks.forEachChunk h⟩

/-- A chunk of timestamps only, with the statistics they have. -/
def plainChunk (first : Timestamp) (rest : List Timestamp) : TopicChunk where
  id := 1
  topicId := 1
  schemaVersion := 0
  stats := ⟨first, rest.getLastD first, rest.length + 1, []⟩
  timestamps := first :: rest
  columns := []

/-- Two chunks that share a timestamp at their boundary. -/
def boundaryChunks : List TopicChunk := [plainChunk 1 [4], plainChunk 4 [6]]

theorem boundaryChunks_inOrder : ChunksInOrder boundaryChunks where
  ordered := by
    simp only [boundaryChunks, List.forall_mem_cons]
    exact ⟨⟨by decide, by decide, rfl, rfl⟩, ⟨by decide, by decide, rfl, rfl⟩, by simp⟩
  counted := by decide
  chain := List.isChain_pair.mpr (show (4 : Timestamp) ≤ 4 by decide)

theorem rangeQuery_visits_boundary :
    (rangeQuery boundaryChunks 2 5).forEach = [⟨4, 0, 1⟩, ⟨4, 1, 0⟩] ∧
      ∀ k c, advanceBy k (rangeQuery boundaryChunks 2 5) = some c →
        c.forEachChunk.flatMap (ChunkRowRange.rows boundaryChunks)
          = [⟨4, 0, 1⟩, ⟨4, 1, 0⟩].drop k := by
  obtain ⟨hvisits, hadvance⟩ := rangeQuery_visits boundaryChunks_inOrder 2 5
  have hrows : (rangeQuery boundaryChunks 2 5).forEach = [⟨4, 0, 1⟩, ⟨4, 1, 0⟩] :=
    hvisits.trans (by decide)
  refine ⟨hrows, fun k c hc ↦ ?_⟩
  obtain ⟨hdrop, hranges⟩ := hadvance k c hc
  rw [hranges, hdrop, hrows]

end RangeCursor

/-! ## The latest row -/

theorem partitioned_tMin {chunks : List TopicChunk} (h : ChunksInOrder chunks) (t : Timestamp) :
    Partitioned (fun chunk : TopicChunk ↦ !decide (t < chunk.stats.tMin)) chunks := by
  refine h.pairwise.imp_of_mem fun {a b} ha _ hab hle ↦ ?_
  simp only [Bool.not_eq_true', decide_eq_false_iff_not, not_lt] at hle ⊢
  exact ((h.ordered a ha).tMin_le_tMax.trans hab).trans hle

theorem partitioned_upTo {chunk : TopicChunk} (hsorted : chunk.timestamps.Pairwise (· ≤ ·))
    (t : Timestamp) : Partitioned (fun u : Timestamp ↦ !decide (t < u)) chunk.stamps := by
  refine (hsorted.sublist (List.take_sublist _ _)).imp fun {a b} hab hle ↦ ?_
  simp only [Bool.not_eq_true', decide_eq_false_iff_not, not_lt] at hle ⊢
  exact hab.trans hle

/-- The rows of the chunks behind the search lie behind `t`. -/
theorem lt_of_mem_drop {chunks : List TopicChunk} (h : ChunksInOrder chunks) {t : Timestamp}
    {i : ℕ} {r : SampleRow} (hr : r ∈ rowsOf i (chunks.drop (chunksUpTo chunks t))) :
    t < r.timestamp := by
  obtain ⟨chunk, hchunk, hts⟩ := exists_chunk (fun c hc ↦ h.counted c (List.mem_of_mem_drop hc)) hr
  have hordered := h.ordered chunk (List.mem_of_mem_drop hchunk)
  rw [chunksUpTo, drop_partitionPoint (partitioned_tMin h t)] at hchunk
  have hlt : t < chunk.stats.tMin := by simpa using (List.mem_filter.mp hchunk).2
  exact hlt.trans_le (hordered.tMin_le hts)

/-- In the chunk the search enters, the rows not behind `t` are a beginning, with at least the
first row. -/
theorem filter_chunkRows {chunk : TopicChunk} (hordered : chunk.Ordered)
    (hcount : chunk.stats.rowCount = chunk.timestamps.length) {t : Timestamp}
    (hstart : chunk.stats.tMin ≤ t) (i : ℕ) :
    (chunkRows i chunk).filter (fun r ↦ r.timestamp ≤ t)
        = (chunkRows i chunk).take (rowsUpTo chunk t) ∧
      0 < rowsUpTo chunk t ∧ rowsUpTo chunk t ≤ chunk.stamps.length := by
  have hcountP : rowsUpTo chunk t = chunk.stamps.countP fun u ↦ !decide (t < u) :=
    partitionPoint_eq_countP (partitioned_upTo hordered.sorted t)
  have hsame : rowsUpTo chunk t = (chunkRows i chunk).countP fun r ↦ decide (r.timestamp ≤ t) := by
    rw [hcountP, ← map_timestamp_chunkRows i, List.countP_map]
    refine List.countP_congr fun r _ ↦ ?_
    simp
  have hpart : Partitioned (fun r : SampleRow ↦ decide (r.timestamp ≤ t)) (chunkRows i chunk) := by
    have horder : ChunksInOrder [chunk] :=
      ⟨by simpa using hordered, by simpa using hcount, List.isChain_singleton chunk⟩
    refine (horder.sorted_chunkRows i).imp fun {a b} hab hb ↦ ?_
    simp only [decide_eq_true_eq] at hb ⊢
    exact hab.trans hb
  refine ⟨?_, ?_, ?_⟩
  · rw [hsame, take_countP hpart]
  · rw [hcountP, List.countP_pos_iff, TopicChunk.stamps_eq hcount]
    exact ⟨chunk.stats.tMin, List.mem_of_mem_head? hordered.first, by simpa using hstart⟩
  · rw [hcountP]
    exact List.countP_le_length

/-- `latestAt` is the last row that is not behind `t`. -/
theorem latestAt_eq_getLast {chunks : List TopicChunk} (h : ChunksInOrder chunks) (t : Timestamp) :
    latestAt chunks t = ((rowsOf 0 chunks).filter fun r ↦ r.timestamp ≤ t).getLast? := by
  have hbehind : ∀ i, (rowsOf i (chunks.drop (chunksUpTo chunks t))).filter
      (fun r ↦ r.timestamp ≤ t) = [] := by
    intro i
    rw [List.filter_eq_nil_iff]
    intro r hr
    rw [decide_eq_true_eq, not_le]
    exact lt_of_mem_drop h hr
  rcases hupTo : chunksUpTo chunks t with _ | i
  · have hall := hbehind 0
    rw [hupTo, List.drop_zero] at hall
    rw [latestAt, hupTo, hall, List.getLast?_nil]
  · have hle : i < chunks.length := by
      rw [Nat.lt_iff_add_one_le, ← hupTo, chunksUpTo,
        partitionPoint_eq_countP (partitioned_tMin h t)]
      exact List.countP_le_length
    have hchunk := List.getElem?_eq_getElem hle
    have hmem : chunks[i] ∈ chunks := List.getElem_mem hle
    -- the last chunk before the cut does not start behind `t`
    have hstart : chunks[i].stats.tMin ≤ t := by
      have htake : chunks[i] ∈ chunks.take (chunksUpTo chunks t) := by
        rw [hupTo, List.take_succ_eq_append_getElem hle]
        exact List.mem_append_right _ List.mem_cons_self
      rw [chunksUpTo, take_partitionPoint (partitioned_tMin h t)] at htake
      simpa using (List.mem_filter.mp htake).2
    obtain ⟨hfilter, hpos, hrows⟩ := filter_chunkRows (h.ordered _ hmem) (h.counted _ hmem) hstart i
    have hsplit : rowsOf 0 chunks = rowsOf 0 (chunks.take i) ++
        (chunkRows i chunks[i] ++ rowsOf (i + 1) (chunks.drop (i + 1))) := by
      have := RangeCursor.rowsOf_append 0 (chunks.take i) (chunks.drop i)
      rwa [List.take_append_drop, List.length_take_of_le hle.le, Nat.zero_add,
        RangeCursor.rowsOf_drop hchunk] at this
    have hnone := hbehind (i + 1)
    rw [hupTo] at hnone
    rcases hrow : rowsUpTo chunks[i] t with _ | row
    · omega
    · rw [hsplit, List.filter_append, List.filter_append, hnone, List.append_nil, hfilter, hrow]
      have hlt : row < (chunkRows i chunks[i]).length := by
        rw [RangeCursor.length_chunkRows]
        omega
      have hget : (chunkRows i chunks[i])[row] = ⟨chunks[i].readTimestamp row, i, row⟩ := by
        rw [RangeCursor.readTimestamp_eq (by omega)]
        simp [chunkRows]
      rw [List.take_succ_eq_append_getElem hlt, hget, ← List.append_assoc, List.getLast?_concat,
        latestAt, hupTo]
      simp only [hchunk, Option.bind_some, hrow]

/-- `latestAt` finds nothing exactly when all rows lie behind `t`; else it is the last row, in chunk
and row order, that does not, and so the last one the range query up to `t` visits. -/
theorem latestAt_spec {chunks : List TopicChunk} (h : ChunksInOrder chunks) (t : Timestamp) :
    (latestAt chunks t = none ↔ ∀ r ∈ rowsOf 0 chunks, t < r.timestamp) ∧
      latestAt chunks t = ((rowsOf 0 chunks).filter fun r ↦ r.timestamp ≤ t).getLast? ∧
      latestAt chunks t = (rangeQuery chunks Int64.minValue t).forEach.getLast? := by
  refine ⟨?_, latestAt_eq_getLast h t, ?_⟩
  · rw [latestAt_eq_getLast h t, List.getLast?_eq_none_iff, List.filter_eq_nil_iff]
    refine forall₂_congr fun r _ ↦ ?_
    rw [decide_eq_true_eq, not_le]
  · rw [latestAt_eq_getLast h t, RangeCursor.forEach_rangeQuery h]
    congr 1
    refine List.filter_congr fun r _ ↦ ?_
    simp [Int64.minValue_le]

theorem latestAt_spec_boundary : latestAt RangeCursor.boundaryChunks 4 = some ⟨4, 1, 0⟩ :=
  (latestAt_spec RangeCursor.boundaryChunks_inOrder 4).2.1.trans (by decide)

end PlotJuggler
