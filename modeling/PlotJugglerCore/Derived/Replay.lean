import PlotJugglerCore.Derived.Order
import PlotJugglerCore.Store.Series

/-!
# The samples a transform gets to see

`recompute_batch` forgets the state of a node and hands it the whole history of its input again. The
series reader shows the same history as a list of samples, without the rows in which the column is
null or missing. The loop of `run_siso_incremental` looks at neither: it decodes column `0` of every
row. A null is decoded as whatever bytes stand in its place, and a chunk without the column is read
out of bounds.

The calls of a transform are made visible by a transform that keeps a record. A replay that returns
has a record which agrees with the rows up to where it stopped, whatever the transform answers.
-/

namespace PlotJuggler

/-! ## Recording transforms -/

namespace SisoTransform

/-- The same transform with a record of the calls it has had since the last reset. -/
def recording (op : SisoTransform) : SisoTransform where
  State := op.State × List (Timestamp × VarValue)
  state := (op.state, [])
  reset s := (op.reset s.1, [])
  outputKind := op.outputKind
  calculate s t input out :=
    (((op.calculate s.1 t input out).1, s.2 ++ [(t, input)]), (op.calculate s.1 t input out).2)

/-- The same transform with all its answers suppressed. -/
def silent (op : SisoTransform) : SisoTransform where
  State := op.State
  state := op.state
  reset := op.reset
  outputKind := op.outputKind
  calculate s t input out :=
    ((op.calculate s t input out).1, false, (op.calculate s t input out).2.2)

end SisoTransform

namespace SisoNode

def recorded (n : SisoNode) : SisoNode := { n with op := n.op.recording }

def silenced (n : SisoNode) : SisoNode := { n with op := n.op.silent }

/-- The record of a node with a recording transform. -/
def Called (op : SisoTransform) (log : List (Timestamp × VarValue)) (n : SisoNode) : Prop :=
  ∃ s, n.op = { op.recording with state := (s, log) }

/-- `recompute_batch` for a node with one input. -/
def replay (walk : WalkOrder) (d : DataEngine) (n : SisoNode) :
    Option (DataEngine × SisoNode × Option DerivedError) :=
  n.reset.runIncremental walk (d.mapTopic n.outputTopicId (·.clearChunks))

end SisoNode

/-! ## Samples and the calls they ask for -/

/-- A cell as the reader of its type gives it: integers, bools and strings exactly. A string column
in another form than a dictionary has no reader. -/
def Column.storedValue (c : Column) (row : ℕ) : Option VarValue :=
  match c.descriptor.kind with
  | .float32 | .float64 => some (.double (c.readNumericAsDouble row))
  | .int32 | .int64 => some (.int64 (c.readNumericAsInt64 row))
  | .uint64 => some (.uint64 (c.readNumericAsUint64 row))
  | .bool => some (.int64 (if c.readBool row then 1 else 0))
  | .string => (c.readString row).map .string

/-- The samples of a series with their stored values. -/
def SeriesReader.storedSamples (r : SeriesReader) : List (Timestamp × VarValue) :=
  r.series.filterMap fun s ↦
    (r.chunks[s.chunk]?.bind fun chunk ↦ chunk.columns[r.columnIndex]?.bind fun c ↦
      c.storedValue s.rowIndex).map (s.timestamp, ·)

/-- The history of the single-column input of a node: chunks that writers sealed, in which the
column, where there is one, has the type the node was registered for. -/
structure SisoNode.Input (n : SisoNode) (chunks : List TopicChunk) : Prop where
  writtenElsewhere : n.outputTopicId ≠ n.inputTopicId
  sealed : ∀ chunk ∈ chunks, ∃ (b : TopicChunkBuilder) (id : ℕ), 0 < id ∧ chunk = b.sealChunk id
  typed : ∀ chunk ∈ chunks, ∀ c, chunk.columns[0]? = some c → c.descriptor.kind = n.inputKind

theorem SisoNode.Input.id_pos {n : SisoNode} {chunks : List TopicChunk} (h : n.Input chunks) :
    ∀ chunk ∈ chunks, 0 < chunk.id := by
  intro chunk hchunk
  obtain ⟨b, id, hid, rfl⟩ := h.sealed chunk hchunk
  exact hid

theorem SisoNode.Input.silenced {n : SisoNode} {chunks : List TopicChunk} (h : n.Input chunks) :
    n.silenced.Input chunks := ⟨h.writtenElsewhere, h.sealed, h.typed⟩

namespace DerivedEngine

/-- The engine with a node under an id. -/
def withSiso (d : DerivedEngine) (id : ℕ) (n : SisoNode) : DerivedEngine :=
  { d with nodes := d.nodes.insert id { id := id, op := .siso n } }

/-- The replays of a node show the transform the samples `S`. -/
structure SeesSeries (d : DerivedEngine) (walk : WalkOrder) (id : ℕ) (n : SisoNode)
    (S : List (Timestamp × VarValue)) : Prop where
  /-- A replay that returns has made the calls of `S`, all of them unless it stopped at a write. -/
  calls : ∀ d' err, (d.withSiso id n.recorded).recomputeBatch walk id = some (d', err) →
    ∃ m n' log, d'.nodes.lookup id = some m ∧ m.op = .siso n' ∧ n'.Called n.op log ∧
      log <+: S ∧ (err = none → log = S)
  /-- Without answers to write, the replay does return. -/
  returns : ∃ d' m n', (d.withSiso id n.silenced.recorded).recomputeBatch walk id = some (d', none) ∧
    d'.nodes.lookup id = some m ∧ m.op = .siso n' ∧ n'.Called n.op.silent S

end DerivedEngine

/-! ## The rows a run decodes -/

namespace SisoNode

/-- The rows of a chunk, each with its cell as the run decodes it. -/
def decodedRows (kind : StorageKind) (chunk : TopicChunk) : List (Timestamp × Option VarValue) :=
  (List.range chunk.stats.rowCount).map fun row ↦
    (chunk.readTimestamp row, decodeAsVarValue chunk 0 row kind)

/-- A call that was made, as a row that was decoded. -/
def asRow (p : Timestamp × VarValue) : Timestamp × Option VarValue := (p.1, some p.2)

/-- A run of a recorded node that has made the calls `log` since it began with `n`. -/
def Records (n : SisoNode) (log : List (Timestamp × VarValue)) (r : SisoRun) : Prop :=
  ∃ s buf, r.node
    = { n with op := { n.op.recording with state := (s, log) }, outValBuf := buf }

variable {S : Setup} {n : SisoNode} {log : List (Timestamp × VarValue)} {r r' : SisoRun}
  {err : Option DerivedError} {chunk : TopicChunk}

theorem Records.inputKind (h : n.Records log r) : r.node.inputKind = n.inputKind := by
  obtain ⟨s, buf, hn⟩ := h
  rw [hn]

theorem Records.lastProcessedChunkId (h : n.Records log r) :
    r.node.lastProcessedChunkId = n.lastProcessedChunkId := by
  obtain ⟨s, buf, hn⟩ := h
  rw [hn]

/-- Handing over a sample adds one call to the record. -/
theorem Records.calculate (h : n.Records log r) (t : Timestamp) (input : VarValue)
    (outTs : Timestamp) : ∃ s buf, (r.node.calculate t input outTs).1
      = { n with
          op := { n.op.recording with state := (s, log ++ [(t, input)]) }, outValBuf := buf } := by
  obtain ⟨s, buf, hn⟩ := h
  rw [hn]
  exact ⟨_, _, rfl⟩

theorem Records.runRow (h : n.Records log r) {row : ℕ}
    (hrun : SisoNode.runRow S chunk r row = some (r', err)) :
    ∃ input, decodeAsVarValue chunk 0 row n.inputKind = some input ∧
      n.Records (log ++ [(chunk.readTimestamp row, input)]) r' := by
  rw [SisoNode.runRow] at hrun
  obtain ⟨input, hinput, hrun⟩ := Option.bind_eq_some_iff.mp hrun
  obtain ⟨s, buf, hcalc⟩ := h.calculate (chunk.timestamps.getD row 0) input r.outTs
  rw [h.inputKind] at hinput
  refine ⟨input, hinput, s, buf, ?_⟩
  rw [TopicChunk.readTimestamp, ← hcalc]
  -- whether there is an answer, and whether it can be written, the node has moved on
  split at hrun
  · next hanswer =>
    obtain ⟨rfl, -⟩ := Prod.mk.inj (Option.some.inj hrun)
    rw [hanswer]
  · next hanswer =>
    obtain ⟨q, -, hq⟩ := Option.map_eq_some_iff.mp hrun
    rw [hanswer]
    split at hq <;> (obtain ⟨rfl, -⟩ := Prod.mk.inj hq; rfl)

/-- A run over rows of a chunk has called the transform with a beginning of them, and with all of
them unless a write failed. -/
theorem Records.runRows (h : n.Records log r) {rows : List ℕ}
    (hrun : Loop.run (SisoNode.runRow S chunk) rows r = some (r', err)) :
    ∃ new, n.Records (log ++ new) r' ∧
      new.map asRow <+: rows.map (fun row ↦
        (chunk.readTimestamp row, decodeAsVarValue chunk 0 row n.inputKind)) ∧
      (err = none → new.map asRow = rows.map fun row ↦
        (chunk.readTimestamp row, decodeAsVarValue chunk 0 row n.inputKind)) := by
  induction rows generalizing r log with
  | nil =>
    obtain ⟨rfl, rfl⟩ := Prod.mk.inj (Option.some.inj hrun)
    exact ⟨[], by rwa [List.append_nil], List.nil_prefix, fun _ ↦ rfl⟩
  | cons row rows ih =>
    rcases Loop.run_cons_eq_some hrun with ⟨e, hfail, rfl⟩ | ⟨t, hgo, hrest⟩
    · obtain ⟨input, hinput, hr'⟩ := h.runRow hfail
      refine ⟨_, hr', ?_, nofun⟩
      rw [List.map_cons, List.map_cons, hinput]
      exact List.prefix_cons_inj _ |>.mpr List.nil_prefix
    · obtain ⟨input, hinput, ht⟩ := h.runRow hgo
      obtain ⟨new, hr', hsome, hall⟩ := ih ht hrest
      rw [List.append_assoc] at hr'
      refine ⟨_, hr', ?_, fun hnone ↦ ?_⟩
      · rw [List.map_cons, hinput]
        exact List.prefix_cons_inj _ |>.mpr hsome
      · rw [List.map_cons, hinput, ← hall hnone]
        rfl

/-- The same over the chunks, none of which has been processed before. -/
theorem Records.runChunks (h : n.Records log r) {chunks : List TopicChunk}
    (hnew : ∀ chunk ∈ chunks, n.lastProcessedChunkId < chunk.id)
    (hrun : Loop.run (SisoNode.runChunk S) chunks r = some (r', err)) :
    ∃ new, n.Records (log ++ new) r' ∧
      new.map asRow <+: chunks.flatMap (decodedRows n.inputKind) ∧
      (err = none → new.map asRow = chunks.flatMap (decodedRows n.inputKind)) := by
  induction chunks generalizing r log with
  | nil =>
    obtain ⟨rfl, rfl⟩ := Prod.mk.inj (Option.some.inj hrun)
    exact ⟨[], by rwa [List.append_nil], List.nil_prefix, fun _ ↦ rfl⟩
  | cons chunk chunks ih =>
    have hbody : SisoNode.runChunk S r chunk
        = Loop.run (SisoNode.runRow S chunk) (List.range chunk.stats.rowCount) r := by
      rw [SisoNode.runChunk, h.lastProcessedChunkId,
        if_neg (not_le.mpr (hnew chunk List.mem_cons_self))]
    rw [List.flatMap_cons]
    rcases Loop.run_cons_eq_some hrun with ⟨e, hfail, rfl⟩ | ⟨t, hgo, hrest⟩
    · rw [hbody] at hfail
      obtain ⟨new, hr', hsome, -⟩ := h.runRows hfail
      exact ⟨new, hr', hsome.trans (List.prefix_append _ _), fun hnone ↦ absurd hnone (by simp)⟩
    · rw [hbody] at hgo
      obtain ⟨new, ht, -, hall⟩ := h.runRows hgo
      obtain ⟨more, hr', hsome, hrest'⟩ := ih ht
        (fun c hc ↦ hnew c (List.mem_cons_of_mem chunk hc)) hrest
      rw [List.append_assoc] at hr'
      have hfirst : new.map asRow = decodedRows n.inputKind chunk := hall rfl
      refine ⟨_, hr', ?_, fun hnone ↦ ?_⟩
      · rw [List.map_append, hfirst]
        exact (List.prefix_append_right_inj _).mpr hsome
      · rw [List.map_append, hfirst, hrest' hnone]

/-- Without answers nothing but a cell that cannot be read stops a run. -/
theorem exists_runChunks {chunks : List TopicChunk}
    (hnew : ∀ chunk ∈ chunks, n.lastProcessedChunkId < chunk.id)
    (hread : ∀ chunk ∈ chunks, ∀ row < chunk.stats.rowCount,
      (decodeAsVarValue chunk 0 row n.inputKind).isSome)
    (h : n.silenced.Records log r) :
    ∃ r', Loop.run (SisoNode.runChunk S) chunks r = some (r', none) ∧
      ∃ log', n.silenced.Records log' r' := by
  refine Loop.run_eq_some (I := fun r ↦ ∃ log, n.silenced.Records log r) ?_ ⟨log, h⟩
  rintro chunk hchunk r ⟨log, h⟩
  have hbody : SisoNode.runChunk S r chunk
      = Loop.run (SisoNode.runRow S chunk) (List.range chunk.stats.rowCount) r := by
    rw [SisoNode.runChunk, h.lastProcessedChunkId]
    exact if_neg (not_le.mpr (hnew chunk hchunk))
  rw [hbody]
  refine Loop.run_eq_some (I := fun r ↦ ∃ log, n.silenced.Records log r) ?_ ⟨log, h⟩
  rintro row hrow r ⟨log, h⟩
  obtain ⟨input, hinput⟩ := Option.isSome_iff_exists.mp
    (hread chunk hchunk row (List.mem_range.mp hrow))
  have hgo : ∃ r', SisoNode.runRow S chunk r row = some (r', none) := by
    rw [SisoNode.runRow, h.inputKind, show n.silenced.inputKind = n.inputKind from rfl, hinput,
      Option.bind_some]
    obtain ⟨s, buf, hn⟩ := h
    rw [hn]
    exact ⟨_, rfl⟩
  obtain ⟨r', hr'⟩ := hgo
  obtain ⟨_, -, hrecords⟩ := h.runRow hr'
  exact ⟨r', hr', _, hrecords⟩

variable {walk : WalkOrder} {d d' : DataEngine} {s : TopicStorage} {n' : SisoNode}

/-- A replay is a run over the chunks of the input, from a node that is reset. -/
theorem replay_eq_some (hs : d.getTopicStorage n.inputTopicId = some s)
    (hne : n.outputTopicId ≠ n.inputTopicId) (h : n.replay walk d = some (d', n', err)) :
    ∃ W r', Loop.run (SisoNode.runChunk d.setup) s.sealedChunks { world := W, node := n.reset }
      = some (r', err) ∧ n'.op = r'.node.op := by
  have hs' := DataEngine.getTopicStorage_mapTopic_of_ne (d := d) (f := (·.clearChunks)) hne
  rw [hs] at hs'
  rw [replay, runIncremental, show n.reset.inputTopicId = n.inputTopicId from rfl, hs'] at h
  obtain ⟨⟨W, out⟩, hbody, hout⟩ := Option.map_eq_some_iff.mp h
  obtain ⟨-, hnode⟩ := Prod.mk.inj hout
  obtain ⟨⟨r', e⟩, hloop, hr'⟩ := Option.map_eq_some_iff.mp hbody
  refine ⟨_, r', hloop.trans (congrArg some (Prod.ext rfl ?_)), ?_⟩
  · show e = err
    rcases e with _ | e
    · exact congrArg Prod.snd ((congrArg Prod.snd hr').trans hnode)
    · exact congrArg Prod.snd ((congrArg Prod.snd hr').trans hnode)
  · rcases e with _ | e
    · exact congrArg (·.1.op) (hnode.symm.trans (congrArg Prod.snd hr').symm)
    · exact congrArg (·.1.op) (hnode.symm.trans (congrArg Prod.snd hr').symm)

/-- The other way round, for a run that goes through. -/
theorem exists_replay (hs : d.getTopicStorage n.inputTopicId = some s)
    (hne : n.outputTopicId ≠ n.inputTopicId)
    (h : ∀ W, ∃ r', Loop.run (SisoNode.runChunk d.setup) s.sealedChunks
      { world := W, node := n.reset } = some (r', none)) :
    ∃ d' n', n.replay walk d = some (d', n', none) := by
  have hs' := DataEngine.getTopicStorage_mapTopic_of_ne (d := d) (f := (·.clearChunks)) hne
  rw [hs] at hs'
  rw [replay, runIncremental, show n.reset.inputTopicId = n.inputTopicId from rfl, hs']
  obtain ⟨r', hr'⟩ := h (DataEngine.createWriter (d.mapTopic n.outputTopicId (·.clearChunks)).world)
  refine ⟨_, _, Option.map_eq_some_iff.mpr ⟨_, Option.map_eq_some_iff.mpr ⟨_, hr', rfl⟩, rfl⟩⟩

theorem records_reset (W : World) :
    ({ n with lastProcessedChunkId := 0 } : SisoNode).Records []
      { world := W, node := n.recorded.reset } := ⟨_, _, rfl⟩

/-- The record of a replay is a beginning of the rows, and all of them when it returns OK. -/
theorem replay_recorded (hin : n.Input s.sealedChunks)
    (hs : d.getTopicStorage n.inputTopicId = some s)
    (h : n.recorded.replay walk d = some (d', n', err)) :
    ∃ log, n'.Called n.op log ∧
      log.map asRow <+: s.sealedChunks.flatMap (decodedRows n.inputKind) ∧
      (err = none → log.map asRow = s.sealedChunks.flatMap (decodedRows n.inputKind)) := by
  obtain ⟨W, r', hrun, hop⟩ := replay_eq_some (n := n.recorded) hs hin.writtenElsewhere h
  obtain ⟨log, ⟨state, buf, hnode⟩, hsome, hall⟩ := (records_reset W).runChunks hin.id_pos hrun
  exact ⟨log, ⟨state, by rw [hop, hnode]; rfl⟩, hsome, hall⟩

/-- When every cell can be read, a replay without answers returns. -/
theorem exists_replay_silenced (walk : WalkOrder) (hin : n.Input s.sealedChunks)
    (hs : d.getTopicStorage n.inputTopicId = some s)
    (hread : ∀ chunk ∈ s.sealedChunks, ∀ row < chunk.stats.rowCount,
      (decodeAsVarValue chunk 0 row n.inputKind).isSome) :
    ∃ d' n', n.silenced.recorded.replay walk d = some (d', n', none) := by
  refine exists_replay (n := n.silenced.recorded) hs hin.writtenElsewhere fun W ↦ ?_
  obtain ⟨r', hr', -⟩ := exists_runChunks (n := { n with lastProcessedChunkId := 0 }) (S := d.setup)
    hin.id_pos hread (records_reset (n := n.silenced) W)
  exact ⟨r', hr'⟩

end SisoNode

/-! ## What the reader shows -/

/-- The present cells of a chunk with their stored values. -/
def storedRows (column : ℕ) (chunk : TopicChunk) : List (Timestamp × VarValue) :=
  chunk.columns[column]?.elim [] fun c ↦
    ((List.range chunk.stats.rowCount).filter fun row ↦ !c.isNull row).filterMap fun row ↦
      (c.storedValue row).map (chunk.readTimestamp row, ·)

theorem SeriesReader.storedSamples_eq (r : SeriesReader) :
    r.storedSamples = r.chunks.flatMap (storedRows r.columnIndex) := by
  have hchunk : ∀ p ∈ r.chunks.zipIdx,
      (presentRows r.columnIndex p.2 p.1).filterMap (fun s ↦
        (r.chunks[s.chunk]?.bind fun chunk ↦ chunk.columns[r.columnIndex]?.bind fun c ↦
          c.storedValue s.rowIndex).map (s.timestamp, ·)) = storedRows r.columnIndex p.1 := by
    rintro ⟨chunk, i⟩ hp
    have hi : r.chunks[i]? = some chunk := List.mem_zipIdx_iff_getElem?.mp hp
    rw [presentRows, storedRows]
    rcases hc : chunk.columns[r.columnIndex]? with _ | c
    · simp [TopicChunk.isNull, hc]
    · simp only [Option.elim_some, TopicChunk.isNull, hc, TopicChunk.cellNumber_eq hc,
        Option.map_some, Option.some_inj, List.filterMap_filterMap, Option.bind_some]
      refine congrArg₂ List.filterMap (funext fun row ↦ ?_) (List.filter_congr fun row _ ↦ ?_)
      · simp [hi, hc]
      · cases c.isNull row <;> rfl
  rw [storedSamples, series, List.filterMap_flatMap]
  conv_rhs => rw [← List.zipIdx_map_fst 0 r.chunks, List.flatMap_map]
  exact List.flatMap_congr hchunk

theorem length_storedRows_le (column : ℕ) (chunk : TopicChunk) :
    (storedRows column chunk).length ≤ chunk.stats.rowCount := by
  rw [storedRows]
  rcases chunk.columns[column]? with _ | c
  · exact Nat.zero_le _
  · exact (List.length_filterMap_le _ _).trans ((List.length_filter_le _ _).trans_eq
      List.length_range)

/-- A chunk shows all its rows only if none is null or missing. -/
theorem present_of_length {column : ℕ} {chunk : TopicChunk}
    (h : (storedRows column chunk).length = chunk.stats.rowCount) {row : ℕ}
    (hrow : row < chunk.stats.rowCount) :
    ∃ c, chunk.columns[column]? = some c ∧ c.isNull row = false := by
  rw [storedRows] at h
  rcases hc : chunk.columns[column]? with _ | c
  all_goals rw [hc] at h
  · rw [Option.elim_none, List.length_nil] at h
    omega
  · refine ⟨c, rfl, ?_⟩
    have hfilter := List.length_filterMap_le
      (fun row ↦ (c.storedValue row).map (chunk.readTimestamp row, ·))
      ((List.range chunk.stats.rowCount).filter fun row ↦ !c.isNull row)
    have hall : ((List.range chunk.stats.rowCount).filter fun row ↦ !c.isNull row).length
        = (List.range chunk.stats.rowCount).length := by
      refine le_antisymm (List.length_filter_le _ _) ?_
      rw [List.length_range]
      exact h.symm.trans_le hfilter
    have hvalid := List.length_filter_eq_length_iff.mp hall row (List.mem_range.mpr hrow)
    simpa using hvalid

namespace SisoNode.Input

variable {n : SisoNode} {chunks : List TopicChunk} {chunk : TopicChunk} {c : Column}

theorem decode_eq (hin : n.Input chunks) (hchunk : chunk ∈ chunks)
    (hc : chunk.columns[0]? = some c) (row : ℕ) :
    decodeAsVarValue chunk 0 row n.inputKind = c.storedValue row := by
  rw [← hin.typed chunk hchunk c hc, Column.storedValue]
  rcases c.descriptor.kind <;> simp [decodeAsVarValue, TopicChunk.readNumericAsDouble,
    TopicChunk.readNumericAsInt64, TopicChunk.readNumericAsUint64, TopicChunk.readBool,
    TopicChunk.readString, hc]

/-- Every cell of a sealed column can be read: a string column is a dictionary. -/
theorem isSome_storedValue (hin : n.Input chunks) (hchunk : chunk ∈ chunks)
    (hc : chunk.columns[0]? = some c) (row : ℕ) : (c.storedValue row).isSome := by
  obtain ⟨b, id, -, rfl⟩ := hin.sealed chunk hchunk
  rw [TopicChunkBuilder.sealChunk, List.getElem?_map] at hc
  obtain ⟨col, -, rfl⟩ := Option.map_eq_some_iff.mp hc
  rcases hkind : col.buffer.descriptor.kind
  all_goals simp only [Column.storedValue, ColumnBuilder.sealColumn, hkind, Option.isSome_some]
  rw [Column.readString, ColumnBuilder.encode, ColumnBuilder.kind, TypedColumnBuffer.kind, hkind]
  rfl

/-- Where nothing is null or missing, the run decodes what the reader shows. -/
theorem decodedRows_eq (hin : n.Input chunks) (hchunk : chunk ∈ chunks)
    (hpresent : ∀ row < chunk.stats.rowCount,
      ∃ c, chunk.columns[0]? = some c ∧ c.isNull row = false) :
    decodedRows n.inputKind chunk = (storedRows 0 chunk).map asRow := by
  rcases Nat.eq_zero_or_pos chunk.stats.rowCount with hempty | hpos
  · rw [decodedRows, storedRows, hempty]
    rcases chunk.columns[0]? with _ | c <;> rfl
  · obtain ⟨c, hc, -⟩ := hpresent 0 hpos
    have hvalid : ∀ row ∈ List.range chunk.stats.rowCount, (!c.isNull row) = true := by
      intro row hrow
      obtain ⟨c', hc', hnull⟩ := hpresent row (List.mem_range.mp hrow)
      obtain rfl := Option.some.inj (hc.symm.trans hc')
      rw [hnull]
      rfl
    rw [decodedRows, storedRows, hc, Option.elim_some, List.filter_eq_self.mpr hvalid,
      List.map_filterMap, ← List.filterMap_eq_map]
    refine List.filterMap_congr fun row _ ↦ ?_
    obtain ⟨v, hv⟩ := Option.isSome_iff_exists.mp (hin.isSome_storedValue hchunk hc row)
    simp [hin.decode_eq hchunk hc, hv, asRow]

end SisoNode.Input

/-! ## A replay and the reader -/

/-- Every row of the history has its cell. -/
def AllPresent (chunks : List TopicChunk) : Prop :=
  ∀ chunk ∈ chunks, ∀ row < chunk.stats.rowCount,
    ∃ c, chunk.columns[0]? = some c ∧ c.isNull row = false

theorem length_decodedRows (kind : StorageKind) (chunk : TopicChunk) :
    (SisoNode.decodedRows kind chunk).length = chunk.stats.rowCount := by
  rw [SisoNode.decodedRows, List.length_map, List.length_range]

/-- As many samples as rows: then no row is missing. -/
theorem allPresent_of_length {chunks : List TopicChunk} (kind : StorageKind)
    (h : (chunks.flatMap (storedRows 0)).length
      = (chunks.flatMap (SisoNode.decodedRows kind)).length) : AllPresent chunks := by
  have hle : ∀ chunks : List TopicChunk, (chunks.flatMap (storedRows 0)).length
      ≤ (chunks.flatMap (SisoNode.decodedRows kind)).length := by
    intro chunks
    induction chunks with
    | nil => exact le_rfl
    | cons chunk chunks ih =>
      rw [List.flatMap_cons, List.flatMap_cons, List.length_append, List.length_append,
        length_decodedRows]
      exact Nat.add_le_add (length_storedRows_le 0 chunk) ih
  induction chunks with
  | nil => exact fun _ hchunk ↦ absurd hchunk List.not_mem_nil
  | cons chunk chunks ih =>
    rw [List.flatMap_cons, List.flatMap_cons, List.length_append, List.length_append,
      length_decodedRows] at h
    have hhead := length_storedRows_le 0 chunk
    have htail := hle chunks
    rintro c hc row hrow
    rcases List.mem_cons.mp hc with rfl | hc
    · exact present_of_length (by omega) hrow
    · exact ih (by omega) c hc row hrow

theorem storedSamples_map_asRow {n : SisoNode} {chunks : List TopicChunk} (hin : n.Input chunks)
    (hpresent : AllPresent chunks) :
    (SeriesReader.storedSamples ⟨chunks, 0⟩).map SisoNode.asRow
      = chunks.flatMap (SisoNode.decodedRows n.inputKind) := by
  rw [SeriesReader.storedSamples_eq, List.map_flatMap]
  exact List.flatMap_congr fun chunk hchunk ↦
    (hin.decodedRows_eq hchunk (hpresent chunk hchunk)).symm

theorem SisoNode.asRow_injective : Function.Injective SisoNode.asRow := by
  rintro ⟨t, v⟩ ⟨t', v'⟩ h
  obtain ⟨ht, hv⟩ := Prod.mk.inj h
  exact Prod.ext ht (Option.some.inj hv)

/-- A recorded log is determined by the node. -/
theorem SisoNode.Called.unique {n : SisoNode} {op : SisoTransform} {log log' : List (Timestamp × VarValue)}
    (h : n.Called op log) (h' : n.Called op log') : log = log' := by
  obtain ⟨s, hs⟩ := h
  obtain ⟨s', hs'⟩ := h'
  have hstate := (SisoTransform.mk.inj (hs.symm.trans hs')).2.1
  exact (Prod.mk.inj (eq_of_heq hstate)).2

namespace DerivedEngine

open SisoNode (asRow asRow_injective)

variable {d d' : DerivedEngine} {walk : WalkOrder} {id : ℕ} {n n' : SisoNode} {s : TopicStorage}
  {err : Option DerivedError} {data : DataEngine}

/-- `recompute_batch` of a node is its replay, and the node goes back into the map. -/
theorem recomputeBatch_withSiso (h : (d.withSiso id n).recomputeBatch walk id = some (d', err)) :
    ∃ data m n', n.replay walk d.data = some (data, n', err) ∧ d'.nodes.lookup id = some m ∧
      m.op = .siso n' := by
  rw [recomputeBatch, withSiso, AList.lookup_insert] at h
  obtain ⟨⟨data, op, e⟩, hrun, hd'⟩ := Option.map_eq_some_iff.mp h
  obtain ⟨⟨data', n', e'⟩, hreplay, hout⟩ := Option.map_eq_some_iff.mp hrun
  obtain ⟨rfl, rfl, rfl⟩ : data' = data ∧ NodeOp.siso n' = op ∧ e' = e := by
    obtain ⟨h₁, h₂⟩ := Prod.mk.inj hout
    obtain ⟨h₂, h₃⟩ := Prod.mk.inj h₂
    exact ⟨h₁, h₂, h₃⟩
  rcases e' with _ | e
  · obtain ⟨rfl, rfl⟩ := Prod.mk.inj hd'
    exact ⟨data', _, n', hreplay, AList.lookup_insert _, rfl⟩
  · obtain ⟨rfl, rfl⟩ := Prod.mk.inj hd'
    exact ⟨data', _, n', hreplay, AList.lookup_insert _, rfl⟩

theorem exists_recomputeBatch (id : ℕ) (h : n.replay walk d.data = some (data, n', none)) :
    ∃ d', (d.withSiso id n).recomputeBatch walk id = some (d', none) := by
  rw [recomputeBatch, withSiso, AList.lookup_insert]
  exact ⟨_, Option.map_eq_some_iff.mpr ⟨_, Option.map_eq_some_iff.mpr ⟨_, h, rfl⟩, rfl⟩⟩

/-- The samples the reader shows are all rows if a replay has them as its calls. -/
theorem SeesSeries.allPresent (hin : n.Input s.sealedChunks)
    (hs : d.data.getTopicStorage n.inputTopicId = some s)
    (h : d.SeesSeries walk id n (SeriesReader.storedSamples ⟨s.sealedChunks, 0⟩)) :
    AllPresent s.sealedChunks := by
  obtain ⟨d', m, n', hrun, hm, hop, hcalled⟩ := h.returns
  obtain ⟨data, m', n'', hreplay, hm', hop'⟩ := recomputeBatch_withSiso hrun
  obtain rfl := Option.some.inj (hm.symm.trans hm')
  obtain rfl := NodeOp.siso.inj (hop.symm.trans hop')
  obtain ⟨log, hlog, -, hall⟩ := SisoNode.replay_recorded (n := n.silenced) hin.silenced hs hreplay
  obtain rfl := SisoNode.Called.unique hcalled hlog
  apply allPresent_of_length n.inputKind
  rw [← SeriesReader.storedSamples_eq ⟨s.sealedChunks, 0⟩, show n.inputKind = n.silenced.inputKind from rfl,
    ← hall rfl, List.length_map]

/-- A replay shows the transform the samples of the reader exactly when every row of the history has
its cell. -/
theorem recomputeBatch_seesSeries_iff (hin : n.Input s.sealedChunks)
    (hs : d.data.getTopicStorage n.inputTopicId = some s) :
    d.SeesSeries walk id n (SeriesReader.storedSamples ⟨s.sealedChunks, 0⟩) ↔
      AllPresent s.sealedChunks := by
  refine ⟨fun h ↦ h.allPresent hin hs, fun h ↦ ⟨?_, ?_⟩⟩
  · intro d' err hrun
    obtain ⟨data, m, n', hreplay, hm, hop⟩ := recomputeBatch_withSiso hrun
    obtain ⟨log, hcalled, hsome, hall⟩ := SisoNode.replay_recorded hin hs hreplay
    rw [← storedSamples_map_asRow hin h] at hsome hall
    exact ⟨m, n', log, hm, hop, hcalled, (List.prefix_map_iff_of_injective asRow_injective).mp hsome,
      fun hnone ↦ List.map_injective_iff.mpr asRow_injective (hall hnone)⟩
  · have hread : ∀ chunk ∈ s.sealedChunks, ∀ row < chunk.stats.rowCount,
        (decodeAsVarValue chunk 0 row n.inputKind).isSome := by
      intro chunk hchunk row hrow
      obtain ⟨c, hc, -⟩ := h chunk hchunk row hrow
      rw [hin.decode_eq hchunk hc]
      exact hin.isSome_storedValue hchunk hc row
    obtain ⟨_, _, hgo⟩ := SisoNode.exists_replay_silenced walk hin hs hread
    obtain ⟨d', hd'⟩ := exists_recomputeBatch id hgo
    obtain ⟨data, m, n', hreplay, hm, hop⟩ := recomputeBatch_withSiso hd'
    obtain ⟨log, hcalled, -, hall⟩ :=
      SisoNode.replay_recorded (n := n.silenced) hin.silenced hs hreplay
    have hlog : log.map asRow = (SeriesReader.storedSamples ⟨s.sealedChunks, 0⟩).map asRow :=
      (hall rfl).trans (storedSamples_map_asRow hin h).symm
    obtain rfl := List.map_injective_iff.mpr asRow_injective hlog
    exact ⟨d', m, n', hd', hm, hop, hcalled⟩

/-! ### An integer series -/

/-- An engine with an input topic `1` that holds the chunks, and an output topic `2`. -/
def withHistory (chunks : List TopicChunk) : DerivedEngine where
  data :=
    { world := (World.start fun _ ↦ [{ name := "count" }, { name := "copy" }]).setEngine 0
        ((Engine.create [{ name := "count" }, { name := "copy" }]).mapTopic 1 fun s ↦
          { s with sealedChunks := chunks }) }

/-- The storage of the input topic. -/
def historyStorage (chunks : List TopicChunk) : TopicStorage where
  topicId := 1
  descriptor := { name := "count" }
  sealedChunks := chunks

theorem getTopicStorage_withHistory (chunks : List TopicChunk) :
    (withHistory chunks).data.getTopicStorage 1 = some (historyStorage chunks) := by
  have hengine : (withHistory chunks).data.engine
      = (Engine.create [{ name := "count" }, { name := "copy" }]).mapTopic 1 fun s ↦
          { s with sealedChunks := chunks } := World.setEngine_self
  rw [DataEngine.getTopicStorage, hengine, Engine.mapTopic_self]
  rfl

def copyNode : SisoNode where
  inputTopicId := 1
  inputKind := .int64
  outputKind := .int64
  outputTopicId := 2
  op := passThrough

/-- A builder with an integer column behind some rows. -/
def countBuilder (rows : List TopicChunkBuilder.Append) : Option TopicChunkBuilder :=
  rows.foldlM TopicChunkBuilder.Append.run (.new 1 0 [⟨0, .int64, "value"⟩] 1024)

theorem input_copyNode {b : TopicChunkBuilder}
    (hkind : b.columns.map (·.buffer.descriptor) = [⟨0, .int64, "value"⟩]) :
    copyNode.Input (historyStorage [b.sealChunk 1]).sealedChunks where
  writtenElsewhere := by decide
  sealed chunk hchunk := ⟨b, 1, Nat.one_pos, List.mem_singleton.mp hchunk⟩
  typed := by
    intro chunk hchunk c hc
    rw [List.mem_singleton.mp hchunk, TopicChunkBuilder.sealChunk, List.getElem?_map] at hc
    obtain ⟨col, hcol, rfl⟩ := Option.map_eq_some_iff.mp hc
    have hdesc : (b.columns.map (·.buffer.descriptor))[0]? = some col.buffer.descriptor := by
      rw [List.getElem?_map, hcol]
      rfl
    rw [hkind] at hdesc
    rw [ColumnBuilder.sealColumn, ← Option.some.inj hdesc]
    rfl

theorem recomputeBatch_seesSeries_count : ∃ b : TopicChunkBuilder,
    countBuilder [.row 1 [.set 0 (.int64 5)], .row 2 [.set 0 (.int64 7)]] = some b ∧
      (withHistory [b.sealChunk 1]).SeesSeries .plain 1 copyNode
        (SeriesReader.storedSamples ⟨[b.sealChunk 1], 0⟩) := by
  have hsome : ((countBuilder [.row 1 [.set 0 (.int64 5)], .row 2 [.set 0 (.int64 7)]]).filter
      fun b ↦ b.columns.map (·.buffer.descriptor) = [⟨0, .int64, "value"⟩] ∧
        (b.sealChunk 1).stats.rowCount = 2 ∧ ∀ row < 2,
          ((b.sealChunk 1).columns[0]?.map (·.isNull row)) = some false).isSome = true := by
    decide +kernel
  obtain ⟨b, hb⟩ := Option.isSome_iff_exists.mp hsome
  obtain ⟨hrun, hfacts⟩ := Option.filter_eq_some_iff.mp hb
  obtain ⟨hkind, hcount, hvalid⟩ := of_decide_eq_true hfacts
  refine ⟨b, hrun, (recomputeBatch_seesSeries_iff (input_copyNode hkind)
    (getTopicStorage_withHistory _)).mpr ?_⟩
  intro chunk hchunk row hrow
  obtain rfl := List.mem_singleton.mp hchunk
  rw [hcount] at hrow
  exact Option.map_eq_some_iff.mp (hvalid row hrow)

/-- A null comes in as a zero. -/
theorem recomputeBatch_not_seesSeries : ¬∀ (d : DerivedEngine) (walk : WalkOrder) (id : ℕ)
    (n : SisoNode) (s : TopicStorage), n.Input s.sealedChunks →
      d.data.getTopicStorage n.inputTopicId = some s →
      d.SeesSeries walk id n (SeriesReader.storedSamples ⟨s.sealedChunks, 0⟩) := by
  intro hall
  have hsome : ((countBuilder [.row 1 [.set 0 (.int64 5)], .row 2 []]).filter
      fun b ↦ b.columns.map (·.buffer.descriptor) = [⟨0, .int64, "value"⟩] ∧
        (b.sealChunk 1).stats.rowCount = 2 ∧
          ((b.sealChunk 1).columns[0]?.map (·.isNull 1)) = some true).isSome = true := by
    decide +kernel
  obtain ⟨b, hb⟩ := Option.isSome_iff_exists.mp hsome
  obtain ⟨-, hfacts⟩ := Option.filter_eq_some_iff.mp hb
  obtain ⟨hkind, hcount, hnull⟩ := of_decide_eq_true hfacts
  have hin := input_copyNode hkind
  have hs := getTopicStorage_withHistory [b.sealChunk 1]
  have hsees := hall (withHistory [b.sealChunk 1]) .plain 1 copyNode _ hin hs
  obtain ⟨c, hc, hvalid⟩ := hsees.allPresent hin hs (b.sealChunk 1) List.mem_cons_self 1
    (by rw [hcount]; decide)
  rw [hc, Option.map_some, hvalid] at hnull
  exact absurd hnull (by decide)

end DerivedEngine

end PlotJuggler
