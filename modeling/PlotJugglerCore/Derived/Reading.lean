import PlotJugglerCore.Derived.Session
import PlotJugglerCore.Store.Series

/-!
# Reading in the middle of a session

`reader.cpp`: a `DataReader` looks up a topic and hands its chunks to the queries of `query.cpp` and
`series_reader.cpp`, which search them by time and trust that they are in order. Beside them
`TopicStorage::metadata` sums up a topic from the statistics of its chunks. In a session the chunks
are in order at all times, so whatever a reader is asked at any time, all its answers are about one
list of rows.
-/

namespace PlotJuggler

/-! ## Metadata -/

/-- What `metadata` counts of a column beside the validity bitmap. -/
def EncodedData.sizeBytes : EncodedData → ℕ
  | .raw buf => buf.length
  | .constant enc => enc.valueSize
  | .frameOfReference enc => enc.offsets.length
  | .dictionary enc => enc.indices.length + (enc.dictionary.map List.length).sum
  | .packedBools enc => enc.bits.length

def Column.sizeBytes (c : Column) : ℕ :=
  c.data.sizeBytes + (c.validityBitmap.map (·.bytes.length)).getD 0

structure TopicMetadata where
  topicId : ℕ
  name : String
  currentSchema : ℕ
  datasetId : ℕ
  timeRangeMin : Timestamp
  timeRangeMax : Timestamp
  totalRowCount : ℕ
  totalByteSize : ℕ
  maxObservedArrayLength : ℕ
  truncatedSampleCount : ℕ
  deriving DecidableEq, Repr

def TopicStorage.metadata (s : TopicStorage) : TopicMetadata where
  topicId := s.topicId
  name := s.descriptor.name
  currentSchema := s.descriptor.schemaId
  datasetId := s.descriptor.datasetId
  timeRangeMin := s.timeMin
  timeRangeMax := s.timeMax
  totalRowCount := (s.sealedChunks.map (·.stats.rowCount)).sum
  totalByteSize := (s.sealedChunks.map fun chunk ↦
    8 * chunk.timestamps.length + (chunk.columns.map Column.sizeBytes).sum).sum
  maxObservedArrayLength := s.maxObservedArrayLength
  truncatedSampleCount := s.truncatedSampleCount

/-! ## The reader -/

namespace DataReader

def isSeriesValueType : PrimitiveType → Bool
  | .string | .unspecified => false
  | _ => true

/-- The stored layout, else that of the first chunk, else that of the schema. -/
def columnsForTopic (d : DataEngine) (s : TopicStorage) : List ColumnDescriptor :=
  if s.columnDescriptors ≠ [] then s.columnDescriptors
  else
    match s.sealedChunks with
    | chunk :: _ => chunk.columns.map (·.descriptor)
    | [] => ((d.schemas.lookup s.descriptor.schemaId).map schemaColumns).getD []

def notFound (τ : ℕ) : String := "Topic " ++ toString τ ++ " not found"

def getMetadata (d : DataEngine) (τ : ℕ) : Option TopicMetadata :=
  (d.getTopicStorage τ).map TopicStorage.metadata

def rangeQuery (d : DataEngine) (τ : ℕ) (tMin tMax : Timestamp) : Except String RangeCursor :=
  match d.getTopicStorage τ with
  | none => .error (notFound τ)
  | some s => .ok (PlotJuggler.rangeQuery s.sealedChunks tMin tMax)

def latestAt (d : DataEngine) (τ : ℕ) (t : Timestamp) : Except String (Option SampleRow) :=
  match d.getTopicStorage τ with
  | none => .error (notFound τ)
  | some s => .ok (PlotJuggler.latestAt s.sealedChunks t)

def series (d : DataEngine) (τ column : ℕ) : Except String SeriesReader :=
  match d.getTopicStorage τ with
  | none => .error (notFound τ)
  | some s =>
    match (columnsForTopic d s)[column]? with
    | none => .error ("Column " ++ toString column ++ " not found in topic " ++ toString τ)
    | some desc =>
      if isSeriesValueType desc.logicalType then .ok ⟨s.sealedChunks, column⟩
      else .error ("Column " ++ toString column ++ " in topic " ++ toString τ ++
        " is not a numeric series")

end DataReader

/-! ## All answers are about one list of rows -/

theorem map_timestamp_rowsOf {chunks : List TopicChunk} (i : ℕ)
    (h : ∀ chunk ∈ chunks, chunk.stats.rowCount = chunk.timestamps.length) :
    (rowsOf i chunks).map SampleRow.timestamp = chunks.flatMap (·.timestamps) := by
  induction chunks generalizing i with
  | nil => rfl
  | cons chunk chunks ih =>
    obtain ⟨hchunk, hrest⟩ := List.forall_mem_cons.mp h
    rw [rowsOf, List.map_append, map_timestamp_chunkRows, TopicChunk.stamps_eq hchunk, ih _ hrest,
      List.flatMap_cons]

/-- What a reader says of topic `τ`, in terms of its rows. -/
structure Readable (d : DataEngine) (τ : ℕ) (rows : List SampleRow) : Prop where
  sorted : rows.Pairwise fun a b ↦ a.timestamp ≤ b.timestamp
  rangeQuery : ∀ tMin tMax, (DataReader.rangeQuery d τ tMin tMax).map RangeCursor.forEach
    = .ok (rows.filter fun r ↦ tMin ≤ r.timestamp ∧ r.timestamp ≤ tMax)
  latestAt : ∀ t, DataReader.latestAt d τ t = .ok (rows.filter fun r ↦ r.timestamp ≤ t).getLast?
  series : ∀ column r, DataReader.series d τ column = .ok r →
    r.Views r.series ∧ (r.series.map SeriesSample.row).Sublist rows
  metadata : ∃ m, DataReader.getMetadata d τ = some m ∧ m.totalRowCount = rows.length ∧
    m.timeRangeMin = (rows.head?.map SampleRow.timestamp).getD 0 ∧
      m.timeRangeMax = (rows.getLast?.map SampleRow.timestamp).getD 0

theorem TopicStorage.metadata_rows {s : TopicStorage} (h : ChunksInOrder s.sealedChunks) :
    s.metadata.totalRowCount = (rowsOf 0 s.sealedChunks).length ∧
      s.metadata.timeRangeMin = ((rowsOf 0 s.sealedChunks).head?.map SampleRow.timestamp).getD 0 ∧
      s.metadata.timeRangeMax
        = ((rowsOf 0 s.sealedChunks).getLast?.map SampleRow.timestamp).getD 0 := by
  have htimes := map_timestamp_rowsOf 0 h.counted
  refine ⟨?_, ?_, ?_⟩
  · rw [← List.length_map (f := SampleRow.timestamp), htimes, List.length_flatMap]
    exact congrArg List.sum (List.map_congr_left h.counted)
  · rw [← List.head?_map, htimes]
    show s.timeMin = _
    rw [timeMin]
    rcases hchunks : s.sealedChunks with _ | ⟨chunk, chunks⟩
    · rfl
    · have hordered := h.ordered chunk (hchunks ▸ List.mem_cons_self)
      rw [List.flatMap_cons, List.head?_append_of_ne_nil _ hordered.nonempty, hordered.first]
      rfl
  · rw [← List.getLast?_map, htimes]
    show s.timeMax = _
    rw [timeMax]
    rcases s.sealedChunks.eq_nil_or_concat with hnil | ⟨chunks, chunk, hconcat⟩
    · rw [hnil]
      rfl
    · rw [List.concat_eq_append] at hconcat
      have hordered := h.ordered chunk (hconcat ▸ List.mem_append_right _ List.mem_cons_self)
      rw [hconcat, List.flatMap_append, List.flatMap_singleton, List.getLast?_concat,
        List.getLast?_append, hordered.last]
      rfl

theorem DataEngine.Sound.readable {S : Setup} {d : DataEngine} (hd : d.Sound S) {τ : ℕ}
    {s : TopicStorage} (hs : d.getTopicStorage τ = some s) :
    Readable d τ (rowsOf 0 s.sealedChunks) := by
  have horder := hd.chunksInOrder hs
  refine ⟨horder.sorted 0, fun tMin tMax ↦ ?_, fun t ↦ ?_, fun column r hr ↦ ?_, ?_⟩
  · rw [DataReader.rangeQuery, hs]
    exact congrArg Except.ok (RangeCursor.forEach_rangeQuery horder tMin tMax)
  · rw [DataReader.latestAt, hs]
    exact congrArg Except.ok (latestAt_eq_getLast horder t)
  · rw [DataReader.series, hs] at hr
    dsimp only at hr
    split at hr
    · cases hr
    · split_ifs at hr
      obtain rfl := Except.ok.inj hr
      refine ⟨SeriesReader.views_series _ horder, ?_⟩
      rw [SeriesReader.series_eq]
      exact samplesOf_sublist horder.counted column 0
  · rw [DataReader.getMetadata, hs]
    exact ⟨_, rfl, s.metadata_rows horder⟩

namespace DerivedEngine

variable {S : Setup} {walk : WalkOrder} {W : World} {events : List Event} {d : DerivedEngine}

/-- At any time in a session, what a reader finds in a topic by range, by point and by series, and
what the metadata says, is about one list of rows in time order, those of the chunks. -/
theorem run_readable (hinit : W.Initial S) (hpos : 1 ≤ W.nextChunkId)
    (hmeets : Runs.Meets (happen S walk) (InTime S) (start W) events)
    (h : Runs.run (happen S walk) (start W) events = some d) (τ : ℕ) (s : TopicStorage)
    (hs : d.data.getTopicStorage τ = some s) : Readable d.data τ (rowsOf 0 s.sealedChunks) :=
  (run_sound hinit hpos hmeets h).readable hs

theorem run_readable_mirroredRows : ∃ d,
    Runs.run (happen oneEngine .plain) (start (.start fun _ ↦ [])) mirroredRows = some d ∧
      Readable d.data 1 [⟨3, 0, 0⟩, ⟨5, 1, 0⟩] := by
  have hrows : ((Runs.run (happen oneEngine .plain) (start (.start fun _ ↦ [])) mirroredRows).bind
      fun d ↦ (d.data.getTopicStorage 1).map fun s ↦ rowsOf 0 s.sealedChunks)
        = some [⟨3, 0, 0⟩, ⟨5, 1, 0⟩] := by
    decide +kernel
  obtain ⟨d, hd, hs⟩ := Option.bind_eq_some_iff.mp hrows
  obtain ⟨s, hs, hrows⟩ := Option.map_eq_some_iff.mp hs
  exact ⟨d, hd,
    hrows ▸ run_readable (World.start_initial _) (by decide) (by decide +kernel) hd 1 s hs⟩

end DerivedEngine

end PlotJuggler
