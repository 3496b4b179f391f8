import PlotJugglerCore.Derived.Appending
import PlotJugglerCore.Derived.Emission
import PlotJugglerCore.Derived.Replay
import PlotJugglerCore.Lib.Transducer

/-!
# A node runs where it left off

`run_siso_incremental` passes over the chunks up to the watermark and hands the rows of the others to
the transform, which has kept its state. So a node answers all rows of its input as one run of a
transducer would, however the rows come in pieces, as long as the transform keeps to what
`ISISOTransform` asks of it (`SisoTransform.Contract`): `reset` brings it back to where it began, an
answer does not depend on what the output places held, and samples in time order are answered in time
order. Then no write of a run is refused, and the output has a row for every answer.
-/

namespace PlotJuggler

open TopicChunkBuilder (CellCall rowCell)

/-! ## Transforms -/

namespace SisoTransform

variable {op : SisoTransform}

/-- A transform as a transducer: what it makes of a sample, and its answer, if it gives one. -/
def answer (op : SisoTransform) (s : op.State) (sample : Timestamp × VarValue) :
    op.State × Option (Timestamp × VarValue) :=
  let r := op.calculate s sample.1 sample.2 (0, .double .zero)
  (r.1, if r.2.1 then some r.2.2 else none)

/-- A transform that is registered in its first state. -/
structure Contract (op : SisoTransform) : Prop where
  reset : ∀ s, op.reset s = op.state
  places : ∀ s t x out, op.answer s (t, x) = ((op.calculate s t x out).1,
    if (op.calculate s t x out).2.1 then some (op.calculate s t x out).2.2 else none)
  ordered : Transducer.KeepsOrder op.answer Prod.fst Prod.fst op.state

/-- The answers to a list of samples, from a reset on. -/
def batch (op : SisoTransform) (samples : List (Timestamp × VarValue)) :
    List (Timestamp × VarValue) :=
  (Transducer.run op.answer (op.reset op.state) samples).2

/-- The transform behind a list of samples. -/
def after (op : SisoTransform) (samples : List (Timestamp × VarValue)) : SisoTransform :=
  { op with state := (Transducer.run op.answer op.state samples).1 }

theorem Contract.batch_after (h : op.Contract) (samples samples' : List (Timestamp × VarValue)) :
    (op.after samples).batch samples' = (Transducer.run op.answer op.state samples').2 := by
  have hreset : (op.after samples).reset (op.after samples).state = op.state := h.reset _
  rw [batch, hreset]
  rfl

end SisoTransform

namespace SisoNode

/-! ## A run in progress -/

variable {S : Setup} {op : SisoTransform} {W₀ : World} {n : SisoNode}
  {log log₀ : List (Timestamp × VarValue)} {r r' : SisoRun} {err : Option DerivedError}
  {chunk : TopicChunk}

/-- The rows of the output behind the samples `log`. -/
def answers (n : SisoNode) (op : SisoTransform) (log : List (Timestamp × VarValue)) : List Row :=
  (Transducer.run op.answer op.state log).2.map (VarValue.row n.outputKind)

/-- A run that began in world `W₀` behind the samples `log₀`, and has come to `log`. -/
structure Answering (S : Setup) (op : SisoTransform) (W₀ : World)
    (log₀ : List (Timestamp × VarValue)) (n : SisoNode) (log : List (Timestamp × VarValue))
    (r : SisoRun) : Prop where
  node : ∃ buf, r.node = { n with op := op.after log, outValBuf := buf }
  emitting : r.world.Emitting S n.outputTopicId (n.answers op log)
  idle : r.wroteAny = false → r.world = W₀ ∧ n.answers op log = n.answers op log₀

theorem Answering.inputKind (h : n.Answering S op W₀ log₀ log r) :
    r.node.inputKind = n.inputKind := by
  obtain ⟨buf, hn⟩ := h.node
  rw [hn]

theorem Answering.lastProcessedChunkId (h : n.Answering S op W₀ log₀ log r) :
    r.node.lastProcessedChunkId = n.lastProcessedChunkId := by
  obtain ⟨buf, hn⟩ := h.node
  rw [hn]

/-- A row is decoded and answered, and the answer is written. -/
theorem Answering.runRow (hop : op.Contract) (h : n.Answering S op W₀ log₀ log r) {row : ℕ}
    (hsorted : (log.map Prod.fst ++ [chunk.readTimestamp row]).Pairwise (· ≤ ·))
    (hrun : SisoNode.runRow S chunk r row = some (r', err)) :
    err = none ∧ ∃ input, decodeAsVarValue chunk 0 row n.inputKind = some input ∧
      n.Answering S op W₀ log₀ (log ++ [(chunk.readTimestamp row, input)]) r' := by
  rw [SisoNode.runRow] at hrun
  obtain ⟨input, hinput, hrun⟩ := Option.bind_eq_some_iff.mp hrun
  rw [h.inputKind] at hinput
  obtain ⟨buf, hn⟩ := h.node
  have hplaces := hop.places (Transducer.run op.answer op.state log).1 (chunk.readTimestamp row)
    input (r.outTs, buf)
  rcases hq : op.calculate (Transducer.run op.answer op.state log).1 (chunk.readTimestamp row)
    input (r.outTs, buf) with ⟨s', answered, t', x'⟩
  rw [hq] at hplaces
  have hcalc : r.node.calculate (chunk.timestamps.getD row 0) input r.outTs
      = ({ n with op := { op with state := s' }, outValBuf := x' }, answered, t') := by
    rw [hn, SisoNode.calculate]
    exact congrArg (fun q : op.State × Bool × Timestamp × VarValue ↦
      (({ n with op := { op with state := q.1 }, outValBuf := q.2.2.2 } : SisoNode), q.2.1, q.2.2.1))
      hq
  have hafter : op.after (log ++ [(chunk.readTimestamp row, input)]) = { op with state := s' } := by
    rw [SisoTransform.after, Transducer.run_concat, hplaces]
  rw [hcalc] at hrun
  rcases answered with _ | _
  · obtain ⟨rfl, rfl⟩ := Prod.mk.inj (Option.some.inj hrun)
    have hsame : n.answers op (log ++ [(chunk.readTimestamp row, input)]) = n.answers op log :=
      congrArg (List.map _) (Transducer.run_concat_of_none (congrArg Prod.snd hplaces))
    refine ⟨rfl, input, hinput, ⟨x', ?_⟩, hsame ▸ h.emitting, hsame ▸ h.idle⟩
    rw [hafter]
  · obtain ⟨⟨W', e⟩, hemit, heq⟩ := Option.map_eq_some_iff.mp hrun
    have hmore : n.answers op (log ++ [(chunk.readTimestamp row, input)])
        = n.answers op log ++ [VarValue.row n.outputKind (t', x')] := by
      rw [answers, Transducer.run_concat_of_some (congrArg Prod.snd hplaces), List.map_append]
      rfl
    have hbehind : ∀ row ∈ n.answers op log, row.1 ≤ t' := by
      intro r hr
      obtain ⟨b, hb, rfl⟩ := List.mem_map.mp hr
      refine hop.ordered.le_next ?_ (congrArg Prod.snd hplaces) b hb
      rwa [List.map_append]
    obtain ⟨rfl, hemitting⟩ := h.emitting.emitRow hbehind hemit
    obtain ⟨rfl, rfl⟩ := Prod.mk.inj heq
    refine ⟨rfl, input, hinput, ⟨x', ?_⟩, hmore ▸ hemitting, fun hidle ↦ ?_⟩
    · rw [hafter]
    · cases hidle

theorem Answering.runRows (hop : op.Contract) (h : n.Answering S op W₀ log₀ log r) {rows : List ℕ}
    (hsorted : (log.map Prod.fst ++ rows.map chunk.readTimestamp).Pairwise (· ≤ ·))
    (hrun : Loop.run (SisoNode.runRow S chunk) rows r = some (r', err)) :
    err = none ∧ ∃ new, n.Answering S op W₀ log₀ (log ++ new) r' ∧
      new.map asRow = rows.map fun row ↦
        (chunk.readTimestamp row, decodeAsVarValue chunk 0 row n.inputKind) := by
  induction rows generalizing r log with
  | nil =>
    obtain ⟨rfl, rfl⟩ := Prod.mk.inj (Option.some.inj hrun)
    exact ⟨rfl, [], by rwa [List.append_nil], rfl⟩
  | cons row rows ih =>
    rw [List.map_cons, List.append_cons] at hsorted
    rcases Loop.run_cons_eq_some hrun with ⟨e, hfail, -⟩ | ⟨t, hgo, hrest⟩
    · -- no write is refused
      cases (h.runRow hop (List.pairwise_append.mp hsorted).1 hfail).1
    · obtain ⟨-, input, hinput, ht⟩ := h.runRow hop (List.pairwise_append.mp hsorted).1 hgo
      obtain ⟨rfl, new, hr', hnew⟩ := ih ht (by rwa [List.map_append]) hrest
      rw [List.append_assoc] at hr'
      refine ⟨rfl, _, hr', ?_⟩
      rw [List.map_cons, hinput, ← hnew]
      rfl

/-- The chunks that a run does not pass over. -/
def unseen (n : SisoNode) (chunks : List TopicChunk) : List TopicChunk :=
  chunks.filter (n.lastProcessedChunkId < ·.id)

/-- The timestamps of a chunk, row by row. -/
def rowTimes (chunk : TopicChunk) : List Timestamp :=
  (List.range chunk.stats.rowCount).map chunk.readTimestamp

theorem Answering.runChunks (hop : op.Contract) (h : n.Answering S op W₀ log₀ log r)
    {chunks : List TopicChunk}
    (hsorted : (log.map Prod.fst ++ (n.unseen chunks).flatMap rowTimes).Pairwise (· ≤ ·))
    (hrun : Loop.run (SisoNode.runChunk S) chunks r = some (r', err)) :
    err = none ∧ ∃ new, n.Answering S op W₀ log₀ (log ++ new) r' ∧
      new.map asRow = (n.unseen chunks).flatMap (decodedRows n.inputKind) := by
  induction chunks generalizing r log with
  | nil =>
    obtain ⟨rfl, rfl⟩ := Prod.mk.inj (Option.some.inj hrun)
    exact ⟨rfl, [], by rwa [List.append_nil], rfl⟩
  | cons chunk chunks ih =>
    rw [unseen, List.filter_cons] at hsorted ⊢
    rw [← unseen] at hsorted ⊢
    split_ifs at hsorted ⊢ with hnew
    · have hbody : SisoNode.runChunk S r chunk
          = Loop.run (SisoNode.runRow S chunk) (List.range chunk.stats.rowCount) r := by
        rw [SisoNode.runChunk, h.lastProcessedChunkId, if_neg (not_le.mpr (by simpa using hnew))]
      rw [List.flatMap_cons, ← List.append_assoc] at hsorted
      rcases Loop.run_cons_eq_some hrun with ⟨e, hfail, -⟩ | ⟨t, hgo, hrest⟩
      · rw [hbody] at hfail
        cases (h.runRows hop (List.pairwise_append.mp hsorted).1 hfail).1
      · rw [hbody] at hgo
        obtain ⟨-, new, ht, hnewRows⟩ := h.runRows hop (List.pairwise_append.mp hsorted).1 hgo
        have htimes : new.map Prod.fst = rowTimes chunk := by
          have hfst := congrArg (List.map Prod.fst) hnewRows
          rwa [List.map_map, List.map_map] at hfst
        obtain ⟨rfl, more, hr', hmore⟩ := ih ht (by rwa [List.map_append, htimes]) hrest
        rw [List.append_assoc] at hr'
        refine ⟨rfl, _, hr', ?_⟩
        rw [List.flatMap_cons, List.map_append, hmore, hnewRows]
        rfl
    · have hskip : SisoNode.runChunk S r chunk = some (r, none) := by
        rw [SisoNode.runChunk, h.lastProcessedChunkId, if_pos (not_lt.mp (by simpa using hnew))]
      rw [Loop.run, hskip, Option.bind_some] at hrun
      exact ih h hsorted hrun

/-! ## A whole run -/

theorem sorted_rowTimes {chunks : List TopicChunk} (h : ChunksInOrder chunks) :
    (chunks.flatMap rowTimes).Pairwise (· ≤ ·) := by
  rw [List.flatMap, List.pairwise_flatten, List.pairwise_map, List.forall_mem_map]
  refine ⟨fun chunk hchunk ↦ ?_, h.pairwise.imp_of_mem fun {a b} ha hb hab t ht u hu ↦ ?_⟩
  · rw [rowTimes, List.pairwise_map]
    exact sorted_readTimestamp (h.ordered chunk hchunk) (h.counted chunk hchunk)
  · obtain ⟨i, hi, rfl⟩ := List.mem_map.mp ht
    obtain ⟨j, hj, rfl⟩ := List.mem_map.mp hu
    have hi' := readTimestamp_mem (h.counted a ha) (List.mem_range.mp hi)
    have hj' := readTimestamp_mem (h.counted b hb) (List.mem_range.mp hj)
    exact ((h.ordered a ha).le_tMax hi').trans (hab.trans ((h.ordered b hb).tMin_le hj'))

theorem map_fst_eq_rowTimes {chunks : List TopicChunk} {kind : StorageKind}
    (h : log.map asRow = chunks.flatMap (decodedRows kind)) :
    log.map Prod.fst = chunks.flatMap rowTimes := by
  have hfst := congrArg (List.map Prod.fst) h
  rw [List.map_map, List.map_flatMap] at hfst
  refine hfst.trans (List.flatMap_congr fun chunk _ ↦ ?_)
  rw [decodedRows, List.map_map]
  rfl

/-- The watermark behind a run: the largest of the ids and the watermark before. -/
theorem maxSeen_le_iff {chunks : List TopicChunk} {bound : ℕ} : n.maxSeen chunks ≤ bound ↔
    n.lastProcessedChunkId ≤ bound ∧ ∀ chunk ∈ chunks, chunk.id ≤ bound := by
  have hall : ∀ m, n.lastProcessedChunkId ≤ m →
      (chunks.foldl (fun seen chunk ↦
        if chunk.id ≤ n.lastProcessedChunkId then seen else max seen chunk.id) m ≤ bound ↔
          m ≤ bound ∧ ∀ chunk ∈ chunks, chunk.id ≤ bound) := by
    induction chunks with
    | nil => simp
    | cons chunk chunks ih =>
      intro m hm
      rw [List.foldl_cons, List.forall_mem_cons]
      split_ifs with hold
      · rw [ih m hm]
        exact and_congr_right fun hle ↦ (and_iff_right (hold.trans (hm.trans hle))).symm
      · rw [ih _ (hm.trans (le_max_left m chunk.id)), max_le_iff, and_assoc]
  exact hall _ le_rfl

/-- The node has answered the samples `log` of its input, from the chunks `past`, and the chunks
`rest` are to come. -/
structure Behind (op : SisoTransform) (log : List (Timestamp × VarValue))
    (past rest : List TopicChunk) (d : DataEngine) (n : SisoNode) : Prop where
  contract : op.Contract
  node : n.op = op.after log
  input : ∃ s, d.getTopicStorage n.inputTopicId = some s ∧ s.sealedChunks = past ++ rest
  output : ∃ s, d.getTopicStorage n.outputTopicId = some s ∧ s.HoldsRows (n.answers op log)
  samples : log.map asRow = past.flatMap (decodedRows n.inputKind)
  seen : ∀ chunk ∈ past, chunk.id ≤ n.lastProcessedChunkId
  unseen : ∀ chunk ∈ rest, n.lastProcessedChunkId < chunk.id
  below : n.lastProcessedChunkId < d.world.nextChunkId

variable {walk : WalkOrder} {d d' : DataEngine} {n' : SisoNode} {past rest : List TopicChunk}
  {T : Setup}

theorem Behind.unseen_eq (h : n.Behind op log past rest d) : n.unseen (past ++ rest) = rest := by
  rw [SisoNode.unseen, List.filter_append, List.filter_eq_nil_iff.mpr, List.nil_append,
    List.filter_eq_self]
  · exact fun chunk hchunk ↦ decide_eq_true (h.unseen chunk hchunk)
  · exact fun chunk hchunk ↦ by simpa using h.seen chunk hchunk

/-- A run of a node goes through, and the node catches up. -/
theorem Behind.runIncremental (hd : d.Sound T) (h : n.Behind op log past rest d)
    (hne : n.inputTopicId ≠ n.outputTopicId)
    (hrun : n.runIncremental walk d = some (d', n', err)) :
    err = none ∧ ∃ log', n'.Behind op log' (past ++ rest) [] d' := by
  obtain ⟨htouches, hwire⟩ := runIncremental_frame hrun
  have hadvances := runIncremental_advances hd hrun
  obtain ⟨s, hs, hchunks⟩ := h.input
  obtain ⟨o, ho, hrows⟩ := h.output
  have hstart : n.Answering d.setup op (DataEngine.createWriter d.world) log log
      { world := DataEngine.createWriter d.world, node := n } :=
    ⟨⟨n.outValBuf, by rw [← h.node]⟩,
      World.emitting_createWriter rfl ho (hd.ordered.engines 0 _ o ho) hrows, fun _ ↦ ⟨rfl, rfl⟩⟩
  have hsorted : (log.map Prod.fst ++ (n.unseen (past ++ rest)).flatMap rowTimes).Pairwise
      (· ≤ ·) := by
    rw [h.unseen_eq, map_fst_eq_rowTimes h.samples, ← List.flatMap_append, ← hchunks]
    exact sorted_rowTimes (hd.chunksInOrder hs)
  rw [SisoNode.runIncremental, hs] at hrun
  dsimp only at hrun
  rw [hchunks] at hrun
  obtain ⟨⟨W, b⟩, hbody, heq⟩ := Option.map_eq_some_iff.mp hrun
  obtain ⟨rfl, rfl⟩ := Prod.mk.inj heq
  obtain ⟨⟨r, e⟩, hloop, heq'⟩ := Option.map_eq_some_iff.mp hbody
  obtain ⟨rfl, new, hr, hnew⟩ := hstart.runChunks h.contract hsorted hloop
  obtain ⟨rfl, hnode⟩ := Prod.mk.inj heq'
  obtain ⟨rfl, rfl⟩ := Prod.mk.inj hnode
  obtain ⟨buf, hbuf⟩ := hr.node
  have hbelow : ∀ chunk ∈ past ++ rest, chunk.id < d.world.nextChunkId := fun chunk hchunk ↦
    (hd.id_lt hs chunk (hchunks ▸ hchunk)).2
  refine ⟨rfl, log ++ new, h.contract, ?_, ⟨s, ?_, ?_⟩, ?_, ?_, ?_, ?_, ?_⟩
  · exact congrArg SisoNode.op hbuf
  · rw [hwire.inputTopicId, ← hs]
    exact htouches.world.topic _ fun hmem ↦ hne (List.mem_singleton.mp hmem)
  · rw [hchunks, List.append_nil]
  · have hrows' : ∃ s, ((finish d.setup walk (past ++ rest) r).world.engines 0).topics
        n.outputTopicId = some s ∧ s.HoldsRows (n.answers op (log ++ new)) := by
      rw [finish]
      dsimp only
      split
      · refine hr.emitting.commitAll rfl walk ?_
        rw [hbuf]
        exact List.mem_cons_self
      · rename_i hwrote
        -- nothing was answered, and the topic is as it was
        obtain ⟨hworld, hanswers⟩ := hr.idle (by simpa using hwrote)
        rw [hworld, hanswers]
        exact ⟨o, ho, hrows⟩
    rw [hwire.outputTopicId, answers, hwire.outputKind]
    exact hrows'
  · rw [List.map_append, h.samples, hnew, h.unseen_eq, List.flatMap_append, hwire.inputKind]
  · exact (maxSeen_le_iff.mp le_rfl).2
  · exact fun chunk hchunk ↦ absurd hchunk List.not_mem_nil
  · have hpos := hd.numbered.pos
    have hold := h.below
    have hmax : r.node.maxSeen (past ++ rest) ≤ d.world.nextChunkId - 1 := by
      refine maxSeen_le_iff.mpr ⟨?_, fun chunk hchunk ↦ ?_⟩
      · rw [hr.lastProcessedChunkId]
        omega
      · have hlt := hbelow chunk hchunk
        omega
    refine lt_of_lt_of_le (Nat.lt_of_le_of_lt hmax ?_) hadvances.counter
    omega

end SisoNode

end PlotJuggler
