import PlotJugglerCore.Derived.Events
import PlotJugglerCore.Derived.Incremental
import PlotJugglerCore.Lib.InnerJoin

/-!
# A join goes on where it left off

`run_mimo_incremental` looks at the rows behind the last timestamp it has joined and joins those. The
streams are in time order and a join is known by its timestamps, so that is the part of the join of
everything that lies behind the watermark (`InnerJoin.joined_filter`), and the node has called its
transform for a beginning of that join, each timestamp once and in order. Rows that come later are
harmless as long as they lie behind the watermark too: what has been joined is joined, with the last
rows there were then.
-/

namespace PlotJuggler

open TopicChunkBuilder (CellCall rowCell)

/-! ## Transforms -/

namespace MimoTransform

variable {op : MimoTransform} {inputs outputs : ℕ} {samples samples' : List (Timestamp × List VarValue)}

/-- A transform as a transducer, with a buffer of the size of its outputs. -/
def answer (op : MimoTransform) (outputs : ℕ) (s : op.State) (sample : Timestamp × List VarValue) :
    op.State × Option (Timestamp × List VarValue) :=
  let r := op.calculate s sample.1 sample.2 (0, List.replicate outputs default)
  (r.1, if r.2.1 then some r.2.2 else none)

/-- A transform that is registered in its first state for so many inputs and outputs: `reset` brings
it back there, it fills the buffer and leaves its size, an answer does not depend on what the places
held, and strictly ascending samples are answered in time order. -/
structure Contract (inputs outputs : ℕ) (op : MimoTransform) : Prop where
  reset : ∀ s, op.reset s = op.state
  size : ∀ s t xs out, xs.length = inputs → out.2.length = outputs →
    (op.calculate s t xs out).2.2.2.length = outputs
  places : ∀ s t xs out, xs.length = inputs → out.2.length = outputs →
    op.answer outputs s (t, xs) = ((op.calculate s t xs out).1,
      if (op.calculate s t xs out).2.1 then some (op.calculate s t xs out).2.2 else none)
  ordered : ∀ l : List (Timestamp × List VarValue), (∀ x ∈ l, x.2.length = inputs) →
    (l.map Prod.fst).Pairwise (· < ·) →
      ((Transducer.run (op.answer outputs) op.state l).2.map Prod.fst).Pairwise (· ≤ ·)

/-- The answers to a list of samples, from a reset on. -/
def batch (op : MimoTransform) (outputs : ℕ) (samples : List (Timestamp × List VarValue)) :
    List (Timestamp × List VarValue) :=
  (Transducer.run (op.answer outputs) (op.reset op.state) samples).2

/-- The transform behind a list of samples. -/
def after (op : MimoTransform) (outputs : ℕ) (samples : List (Timestamp × List VarValue)) :
    MimoTransform :=
  { op with state := (Transducer.run (op.answer outputs) op.state samples).1 }

theorem Contract.batch_after (h : op.Contract inputs outputs) :
    (op.after outputs samples).batch outputs samples'
      = (Transducer.run (op.answer outputs) op.state samples').2 := by
  have hreset : (op.after outputs samples).reset (op.after outputs samples).state = op.state :=
    h.reset _
  rw [batch, hreset]
  rfl

/-- The next answer comes behind the answers before it. -/
theorem Contract.le_next (h : op.Contract inputs outputs) {sample b : Timestamp × List VarValue}
    (hlength : ∀ x ∈ samples ++ [sample], x.2.length = inputs)
    (hstrict : ((samples ++ [sample]).map Prod.fst).Pairwise (· < ·))
    (hb : (op.answer outputs (Transducer.run (op.answer outputs) op.state samples).1 sample).2 = some b) :
    ∀ b' ∈ (Transducer.run (op.answer outputs) op.state samples).2, b'.1 ≤ b.1 := by
  intro b' hb'
  have hout := h.ordered _ hlength hstrict
  rw [Transducer.run_concat_of_some hb, List.map_append] at hout
  exact (List.pairwise_append.mp hout).2.2 _ (List.mem_map_of_mem hb') _ List.mem_cons_self

end MimoTransform

/-! ## Rows for several outputs -/

theorem TopicView.Emitting.congr {u v : TopicView} {rows : List Row} (h : v.Emitting rows)
    (hs : u.storage = v.storage) (hw : u.writer = v.writer) : u.Emitting rows := by
  obtain ⟨s, w, k⟩ := u
  obtain rfl : s = v.storage := hs
  obtain rfl : w = v.writer := hw
  exact ⟨h.fits, h.storage, h.writer, h.line, h.idle, h.last⟩

namespace World

variable {S : Setup} {W W' : World} {τ σ : ℕ} {rows : List Row} {t : Timestamp} {val : VarValue}
  {kind : StorageKind} {err : Option DerivedError}

/-- A call about another topic changes nothing. -/
theorem Emitting.topicCall_of_ne (h : W.Emitting S σ rows) (hne : σ ≠ τ) {c : TopicCall}
    {out : Outcome} (hcall : W.topicCall S 0 τ c = some (W', out)) : W'.Emitting S σ rows := by
  rcases topicCall_eq_some hcall with ⟨-, rfl⟩ | ⟨u, v', -, -, rfl⟩
  · exact h
  · obtain ⟨v, hv, hemitting⟩ := h
    obtain ⟨hs, hw, -⟩ := view_eq_some hv
    refine ⟨⟨v.storage, v.writer, v'.nextChunkId⟩, ?_, hemitting.congr rfl rfl⟩
    rw [view, putView_engines_self, Engine.mapTopic_of_ne hne, hs, putView_writers,
      setWriter_of_ne fun heq ↦ hne heq.2, ← hw]
    rfl

theorem Emitting.emitRow_of_ne (h : W.Emitting S σ rows) (hne : σ ≠ τ)
    (hemit : W.emitRow S τ t val kind = some (W', err)) : W'.Emitting S σ rows := by
  obtain ⟨⟨W₁, out⟩, hbegin, hrest⟩ := Option.bind_eq_some_iff.mp hemit
  have h₁ := h.topicCall_of_ne hne hbegin
  dsimp only at hrest
  split at hrest
  · obtain ⟨rfl, -⟩ := Prod.mk.inj (Option.some.inj hrest)
    exact h₁
  · obtain ⟨W₂, hset, hrest⟩ := Option.bind_eq_some_iff.mp hrest
    have h₂ : W₂.Emitting S σ rows := by
      rw [writeVarValue] at hset
      split at hset
      · obtain ⟨⟨W₃, out⟩, hcall, rfl⟩ := Option.map_eq_some_iff.mp hset
        exact h₁.topicCall_of_ne hne hcall
      · obtain rfl := Option.some.inj hset
        exact h₁
    obtain ⟨⟨W₃, out⟩, hfinish, heq⟩ := Option.map_eq_some_iff.mp hrest
    have h₃ := h₂.topicCall_of_ne hne hfinish
    dsimp only at heq
    split at heq
    all_goals
      obtain ⟨rfl, -⟩ := Prod.mk.inj heq
      exact h₃

/-- One row for each output, all at one time. -/
theorem emitting_emitOutputs {answer : List VarValue} {outs : List ((ℕ × StorageKind) × ℕ)}
    {rows : (ℕ × StorageKind) × ℕ → List Row} (hnodup : (outs.map (·.1.1)).Nodup)
    (h : ∀ out ∈ outs, W.Emitting S out.1.1 (rows out))
    (ht : ∀ out ∈ outs, ∀ row ∈ rows out, row.1 ≤ t)
    (hrun : Loop.run (MimoNode.emitOutput S t answer) outs W = some (W', err)) :
    err = none ∧ ∀ out ∈ outs, W'.Emitting S out.1.1
      (rows out ++ [VarValue.row out.1.2 (t, answer.getD out.2 default)]) := by
  have hother : ∀ {outs : List ((ℕ × StorageKind) × ℕ)} {W W' : World} {err : Option DerivedError}
      {σ : ℕ} {rows : List Row}, σ ∉ outs.map (·.1.1) → W.Emitting S σ rows →
      Loop.run (MimoNode.emitOutput S t answer) outs W = some (W', err) → W'.Emitting S σ rows := by
    intro outs W W' err σ rows hσ hemitting hloop
    refine Loop.run_induction (I := fun V ↦ V.Emitting S σ rows) ?_ hloop hemitting
    intro out hout V V' e hbody hV
    obtain ⟨val, -, hemit⟩ := Option.bind_eq_some_iff.mp hbody
    exact hV.emitRow_of_ne (fun heq ↦ hσ (heq ▸ List.mem_map_of_mem hout)) hemit
  induction outs generalizing W with
  | nil =>
    obtain ⟨rfl, rfl⟩ := Prod.mk.inj (Option.some.inj hrun)
    exact ⟨rfl, fun out hout ↦ absurd hout List.not_mem_nil⟩
  | cons out outs ih =>
    rw [List.map_cons, List.nodup_cons] at hnodup
    obtain ⟨hfirst, hrest⟩ := List.forall_mem_cons.mp h
    obtain ⟨htfirst, htrest⟩ := List.forall_mem_cons.mp ht
    rcases Loop.run_cons_eq_some hrun with ⟨e, hfail, -⟩ | ⟨V, hgo, hloop⟩
    · -- no write is refused
      obtain ⟨val, -, hemit⟩ := Option.bind_eq_some_iff.mp hfail
      cases (hfirst.emitRow htfirst hemit).1
    · obtain ⟨val, hval, hemit⟩ := Option.bind_eq_some_iff.mp hgo
      obtain ⟨-, hV⟩ := hfirst.emitRow htfirst hemit
      have hkept : ∀ out' ∈ outs, V.Emitting S out'.1.1 (rows out') := fun out' hout' ↦
        (hrest out' hout').emitRow_of_ne
          (fun heq ↦ hnodup.1 (List.mem_map.mpr ⟨out', hout', heq⟩)) hemit
      obtain ⟨rfl, hall⟩ := ih hnodup.2 hkept htrest hloop
      refine ⟨rfl, List.forall_mem_cons.mpr ⟨?_, hall⟩⟩
      rw [List.getD_eq_getElem?_getD, hval, Option.getD_some]
      exact hother hnodup.1 hV hloop

end World

/-! ## A run in progress -/

namespace MimoNode

variable {S : Setup} {op : MimoTransform} {W₀ : World} {n : MimoNode}
  {log log₀ : List (Timestamp × List VarValue)} {r r' : MimoRun} {err : Option DerivedError}
  {samples : List (List SampleLoc)} {t : Timestamp} {d d' : DataEngine}

/-- The rows of an output behind the samples `log`. -/
def answers (n : MimoNode) (op : MimoTransform) (log : List (Timestamp × List VarValue))
    (out : (ℕ × StorageKind) × ℕ) : List Row :=
  (Transducer.run (op.answer n.outputs.length) op.state log).2.map fun a ↦
    VarValue.row out.1.2 (a.1, a.2.getD out.2 default)

/-- A run that began in world `W₀` behind the samples `log₀`, and has come to `log`. -/
structure Answering (S : Setup) (op : MimoTransform) (W₀ : World)
    (log₀ : List (Timestamp × List VarValue)) (n : MimoNode)
    (log : List (Timestamp × List VarValue)) (r : MimoRun) : Prop where
  node : ∃ buf, buf.length = n.outputs.length ∧
    r.node = { n with op := op.after n.outputs.length log, outBuf := buf }
  sized : ∀ x ∈ log, x.2.length = n.inputs.length
  emitting : ∀ out ∈ n.outputs.zipIdx, r.world.Emitting S out.1.1 (n.answers op log out)
  idle : r.wroteAny = false → r.world = W₀ ∧ n.answers op log = n.answers op log₀

theorem length_decodeInputs {inputs : List ((ℕ × StorageKind) × List SampleLoc)}
    {xs : List VarValue} (h : decodeInputs t inputs = some xs) : xs.length = inputs.length := by
  induction inputs generalizing xs with
  | nil =>
    obtain rfl := Option.some.inj h
    rfl
  | cons input inputs ih =>
    obtain ⟨s, -, hrest⟩ := Option.bind_eq_some_iff.mp h
    obtain ⟨v, -, hrest⟩ := Option.bind_eq_some_iff.mp hrest
    obtain ⟨xs', hxs, rfl⟩ := Option.map_eq_some_iff.mp hrest
    rw [List.length_cons, List.length_cons, ih hxs]

theorem topics_zipIdx (n : MimoNode) : n.outputs.zipIdx.map (·.1.1) = n.outputs.map Prod.fst := by
  have hfst := congrArg (List.map Prod.fst) (List.zipIdx_map_fst 0 n.outputs)
  rwa [List.map_map] at hfst

/-- A sample is decoded and answered, and the answer is written to all outputs. -/
theorem Answering.runJoin (hop : op.Contract n.inputs.length n.outputs.length)
    (h : n.Answering S op W₀ log₀ log r) (hnodup : (n.outputs.map Prod.fst).Nodup)
    (hsize : samples.length = n.inputs.length)
    (hstrict : (log.map Prod.fst ++ [t]).Pairwise (· < ·))
    (hrun : MimoNode.runJoin S samples r t = some (r', err)) :
    err = none ∧ ∃ xs, decodeInputs t (n.inputs.zip samples) = some xs ∧
      n.Answering S op W₀ log₀ (log ++ [(t, xs)]) r' := by
  obtain ⟨buf, hbuf, hn⟩ := h.node
  obtain ⟨xs, hxs, hrest⟩ := Option.bind_eq_some_iff.mp hrun
  rw [hn] at hxs hrest
  dsimp only at hxs hrest
  have hlength : xs.length = n.inputs.length := by
    rw [length_decodeInputs hxs, List.length_zip, hsize, min_self]
  have hsized : ∀ x ∈ log ++ [(t, xs)], x.2.length = n.inputs.length :=
    List.forall_mem_append.mpr ⟨h.sized, List.forall_mem_singleton.mpr hlength⟩
  have hplaces := hop.places (Transducer.run (op.answer n.outputs.length) op.state log).1 t xs
    (t, buf) hlength hbuf
  have hbuf' := hop.size (Transducer.run (op.answer n.outputs.length) op.state log).1 t xs
    (t, buf) hlength hbuf
  have hcalc : (op.after n.outputs.length log).calculate (op.after n.outputs.length log).state t xs
      (t, buf) = op.calculate (Transducer.run (op.answer n.outputs.length) op.state log).1 t xs
        (t, buf) := rfl
  rw [hcalc] at hrest
  rcases hq : op.calculate (Transducer.run (op.answer n.outputs.length) op.state log).1 t xs
    (t, buf) with ⟨s', answered, t', x'⟩
  rw [hq] at hplaces hbuf' hrest
  have hafter : op.after n.outputs.length (log ++ [(t, xs)]) = { op with state := s' } := by
    rw [MimoTransform.after, Transducer.run_concat, hplaces]
  rcases answered with _ | _
  · obtain ⟨rfl, rfl⟩ := Prod.mk.inj (Option.some.inj hrest)
    have hsame : n.answers op (log ++ [(t, xs)]) = n.answers op log :=
      funext fun out ↦ congrArg (List.map _)
        (Transducer.run_concat_of_none (congrArg Prod.snd hplaces))
    refine ⟨rfl, xs, hxs, ⟨x', hbuf', ?_⟩, hsized, hsame ▸ h.emitting, hsame ▸ h.idle⟩
    rw [hafter]
    rfl
  · obtain ⟨⟨W', e⟩, hemit, heq⟩ := Option.map_eq_some_iff.mp hrest
    have hanswer := Transducer.run_concat_of_some (congrArg Prod.snd hplaces)
    have hbehind : ∀ out ∈ n.outputs.zipIdx, ∀ row ∈ n.answers op log out, row.1 ≤ t' := by
      intro out hout row hrow
      obtain ⟨b, hb, rfl⟩ := List.mem_map.mp hrow
      refine hop.le_next hsized ?_ (congrArg Prod.snd hplaces) b hb
      rwa [List.map_append]
    obtain ⟨rfl, hall⟩ := World.emitting_emitOutputs (n.topics_zipIdx ▸ hnodup) h.emitting hbehind
      hemit
    obtain ⟨rfl, rfl⟩ := Prod.mk.inj heq
    refine ⟨rfl, xs, hxs, ⟨x', hbuf', ?_⟩, hsized, fun out hout ↦ ?_, fun hidle ↦ by cases hidle⟩
    · rw [hafter]
      rfl
    · rw [answers, hanswer, List.map_append]
      exact hall out hout

theorem Answering.runJoins (hop : op.Contract n.inputs.length n.outputs.length)
    (h : n.Answering S op W₀ log₀ log r) (hnodup : (n.outputs.map Prod.fst).Nodup)
    (hsize : samples.length = n.inputs.length) {joined : List Timestamp}
    (hstrict : (log.map Prod.fst ++ joined).Pairwise (· < ·))
    (hrun : Loop.run (MimoNode.runJoin S samples) joined r = some (r', err)) :
    err = none ∧ ∃ new, n.Answering S op W₀ log₀ (log ++ new) r' ∧
      new.map (fun p ↦ (p.1, some p.2)) =
        joined.map fun t ↦ (t, decodeInputs t (n.inputs.zip samples)) := by
  induction joined generalizing r log with
  | nil =>
    obtain ⟨rfl, rfl⟩ := Prod.mk.inj (Option.some.inj hrun)
    exact ⟨rfl, [], by rwa [List.append_nil], rfl⟩
  | cons t joined ih =>
    rw [List.append_cons] at hstrict
    rcases Loop.run_cons_eq_some hrun with ⟨e, hfail, -⟩ | ⟨r₁, hgo, hrest⟩
    · -- no write is refused
      cases (h.runJoin hop hnodup hsize (List.pairwise_append.mp hstrict).1 hfail).1
    · obtain ⟨-, xs, hxs, hr₁⟩ := h.runJoin hop hnodup hsize (List.pairwise_append.mp hstrict).1 hgo
      obtain ⟨rfl, new, hr', hnew⟩ := ih hr₁ (by rwa [List.map_append]) hrest
      rw [List.append_assoc] at hr'
      refine ⟨rfl, _, hr', ?_⟩
      rw [List.map_cons, hxs, ← hnew]
      rfl

/-! ## The whole of the inputs -/

/-- All samples of some chunks. -/
def allSamples (chunks : List TopicChunk) : List SampleLoc :=
  chunks.flatMap fun chunk ↦
    (List.range chunk.stats.rowCount).map fun r ↦ ⟨chunk.readTimestamp r, chunk, r⟩

/-- The samples that the inputs have. -/
def history (d : DataEngine) (n : MimoNode) : List (List SampleLoc) :=
  n.inputs.map fun input ↦ allSamples (d.chunks input.1)

/-- The timestamps that all inputs have. -/
def joinable (d : DataEngine) (n : MimoNode) : List Timestamp :=
  InnerJoin.joined SampleLoc.ts (n.history d)

/-- The values of all inputs at a timestamp, each from the last sample there is at it. -/
def valuesAt (d : DataEngine) (n : MimoNode) (t : Timestamp) : Option (List VarValue) :=
  decodeInputs t (n.inputs.zip (n.history d))

/-- A call that was made, as a timestamp that was decoded. -/
def asJoin (p : Timestamp × List VarValue) : Timestamp × Option (List VarValue) := (p.1, some p.2)

theorem map_ts_allSamples (chunks : List TopicChunk) :
    (allSamples chunks).map SampleLoc.ts = chunks.flatMap SisoNode.rowTimes := by
  rw [allSamples, List.map_flatMap]
  refine List.flatMap_congr fun chunk _ ↦ ?_
  rw [List.map_map]
  rfl

theorem sorted_allSamples {chunks : List TopicChunk} (h : ChunksInOrder chunks) :
    ((allSamples chunks).map SampleLoc.ts).Pairwise (· ≤ ·) := by
  rw [map_ts_allSamples]
  exact SisoNode.sorted_rowTimes h

/-- The chunks that are passed over have nothing behind the watermark. -/
theorem newSamples_eq {chunks : List TopicChunk} (h : ChunksInOrder chunks) (lastTs : Timestamp) :
    newSamples lastTs chunks = (allSamples chunks).filter fun s ↦ decide (lastTs < s.ts) := by
  rw [newSamples, allSamples, List.filter_flatMap]
  refine List.flatMap_congr fun chunk hchunk ↦ ?_
  rw [List.filter_map]
  split_ifs with hold
  · refine (List.map_eq_nil_iff.mpr (List.filter_eq_nil_iff.mpr fun r hr hlate ↦ ?_)).symm
    have hmem := readTimestamp_mem (h.counted chunk hchunk) (List.mem_range.mp hr)
    have hle := ((h.ordered chunk hchunk).le_tMax hmem).trans hold
    exact absurd (of_decide_eq_true hlate) (not_lt.mpr hle)
  · rfl

theorem joinedTs_eq (ls : List (List SampleLoc)) : joinedTs ls = InnerJoin.joined SampleLoc.ts ls := by
  cases ls <;> rfl

/-- A run gets the parts of all inputs behind the watermark, unless one has none. -/
theorem collectSamples_cases (lastTs : Timestamp) {inputs : List (ℕ × StorageKind)}
    (h : ∀ input ∈ inputs, ∃ s, d.getTopicStorage input.1 = some s) :
    (collectSamples d lastTs inputs = .error none ∧
      ∃ input ∈ inputs, newSamples lastTs (d.chunks input.1) = []) ∨
    collectSamples d lastTs inputs =
      .ok (inputs.map fun input ↦ newSamples lastTs (d.chunks input.1)) := by
  induction inputs with
  | nil => exact .inr rfl
  | cons input inputs ih =>
    obtain ⟨⟨s, hs⟩, hrest⟩ := List.forall_mem_cons.mp h
    rw [collectSamples, hs]
    dsimp only
    rw [← DataEngine.chunks_of_some hs]
    split_ifs with hnone
    · exact .inl ⟨rfl, input, List.mem_cons_self, List.isEmpty_iff.mp hnone⟩
    · rcases ih hrest with ⟨herr, input', hmem, hnone'⟩ | hok
      · rw [herr]
        exact .inl ⟨rfl, input', List.mem_cons_of_mem _ hmem, hnone'⟩
      · rw [hok]
        exact .inr rfl

/-- What is decoded at a timestamp depends on the samples at it only. -/
theorem decodeInputs_filter {p : Timestamp → Bool} (ht : p t = true)
    (inputs : List (ℕ × StorageKind)) (ls : List (List SampleLoc)) :
    decodeInputs t (inputs.zip (ls.map fun l ↦ l.filter fun s ↦ p s.ts)) =
      decodeInputs t (inputs.zip ls) := by
  induction inputs generalizing ls with
  | nil => rfl
  | cons input inputs ih =>
    cases ls with
    | nil => rfl
    | cons l ls =>
      have hlookup : lookupSample (l.filter fun s ↦ p s.ts) t = lookupSample l t :=
        InnerJoin.lookupLast_filter ht
      rw [List.map_cons, List.zip_cons_cons, List.zip_cons_cons, decodeInputs, decodeInputs, hlookup,
        ih]

/-! ## A whole run -/

/-- The node has called its transform for the timestamps up to its watermark that all inputs have, and
has written the answers. -/
structure Behind (op : MimoTransform) (log : List (Timestamp × List VarValue)) (d : DataEngine)
    (n : MimoNode) : Prop where
  contract : op.Contract n.inputs.length n.outputs.length
  node : n.op = op.after n.outputs.length log
  reads : n.inputs ≠ []
  inputs : ∀ input ∈ n.inputs, ∃ s, d.getTopicStorage input.1 = some s
  nodup : (n.outputs.map Prod.fst).Nodup
  outputs : ∀ out ∈ n.outputs.zipIdx, ∃ s, d.getTopicStorage out.1.1 = some s ∧
    s.HoldsRows (n.answers op log out)
  samples : log.map asJoin = ((n.joinable d).filter fun t ↦
    decide (Int64.minValue < t ∧ t ≤ n.lastTs)).map fun t ↦ (t, n.valuesAt d t)

variable {T : Setup} {walk : WalkOrder} {n' : MimoNode}

theorem sorted_history (hd : d.Sound T) (hin : ∀ input ∈ n.inputs, ∃ s,
    d.getTopicStorage input.1 = some s) : ∀ l ∈ n.history d, (l.map SampleLoc.ts).Pairwise (· ≤ ·) := by
  refine List.forall_mem_map.mpr fun input hinput ↦ ?_
  obtain ⟨s, hs⟩ := hin input hinput
  rw [DataEngine.chunks_of_some hs]
  exact sorted_allSamples (hd.chunksInOrder hs)

theorem Behind.strict (h : n.Behind op log d) (hd : d.Sound T) :
    (n.joinable d).Pairwise (· < ·) :=
  InnerJoin.joined_strict (sorted_history hd h.inputs)

/-- A timestamp is joinable if all inputs have it. -/
theorem mem_joinable (hreads : n.inputs ≠ []) : t ∈ n.joinable d ↔
    ∀ input ∈ n.inputs, ∃ s ∈ allSamples (d.chunks input.1), s.ts = t := by
  rw [joinable, history]
  rcases hn : n.inputs with _ | ⟨input, inputs⟩
  · exact absurd hn hreads
  · rw [List.map_cons, InnerJoin.mem_joined, List.forall_mem_cons, List.forall_mem_map,
      List.forall_mem_cons]

theorem map_fst_asJoin (log : List (Timestamp × List VarValue)) :
    (log.map asJoin).map Prod.fst = log.map Prod.fst := by
  rw [List.map_map]
  rfl

/-- The samples are known by the timestamps. -/
theorem map_fst_of_asJoin {ts : List Timestamp} {f : Timestamp → Option (List VarValue)}
    (h : log.map asJoin = ts.map fun t ↦ (t, f t)) : log.map Prod.fst = ts := by
  rw [← map_fst_asJoin, h, List.map_map]
  exact List.map_id _

theorem asJoin_injective : Function.Injective asJoin := by
  rintro ⟨t, x⟩ ⟨t', x'⟩ heq
  obtain ⟨ht, hx⟩ := Prod.mk.inj heq
  exact Prod.ext ht (Option.some.inj hx)

/-- The part of a strictly ascending list up to one of its elements is the part up to a smaller bound
with what lies in between. -/
theorem filter_le_eq_append {ts : List Timestamp} {last next : Timestamp}
    (hts : ts.Pairwise (· < ·)) (hnext : (ts.filter fun t ↦ decide (last < t)).getLast? = some next) :
    (ts.filter fun t ↦ decide (Int64.minValue < t ∧ t ≤ next)) =
      (ts.filter fun t ↦ decide (Int64.minValue < t ∧ t ≤ last)) ++
        ts.filter fun t ↦ decide (last < t) := by
  have hlast := List.mem_filter.mp (List.mem_of_getLast? hnext)
  have hlt : last < next := of_decide_eq_true hlast.2
  have hle : ∀ t ∈ ts.filter fun t ↦ decide (last < t), t ≤ next := by
    obtain ⟨init, hinit⟩ := List.getLast?_eq_some_iff.mp hnext
    have hsorted := hts.sublist (List.filter_sublist (p := fun t ↦ decide (last < t)))
    rw [hinit] at hsorted ⊢
    exact List.forall_mem_append.mpr ⟨fun t ht ↦
      ((List.pairwise_append.mp hsorted).2.2 t ht next List.mem_cons_self).le,
      List.forall_mem_singleton.mpr le_rfl⟩
  refine (hts.sublist List.filter_sublist).eq_of_mem_iff ?_ fun t ↦ ?_
  · refine List.pairwise_append.mpr ⟨hts.sublist List.filter_sublist,
      hts.sublist List.filter_sublist, fun t ht u hu ↦ ?_⟩
    have ht' := of_decide_eq_true (List.mem_filter.mp ht).2
    have hu' := of_decide_eq_true (List.mem_filter.mp hu).2
    exact ht'.2.trans_lt hu'
  · simp only [List.mem_append, List.mem_filter, decide_eq_true_eq]
    constructor
    · rintro ⟨ht, hmin, hle'⟩
      rcases le_or_gt t last with hold | hnew
      · exact .inl ⟨ht, hmin, hold⟩
      · exact .inr ⟨ht, hnew⟩
    · rintro (⟨ht, hmin, hold⟩ | ⟨ht, hnew⟩)
      · exact ⟨ht, hmin, hold.trans hlt.le⟩
      · exact ⟨ht, (Int64.minValue_le last).trans_lt hnew,
          hle t (List.mem_filter.mpr ⟨ht, decide_eq_true hnew⟩)⟩

theorem allSamples_append (chunks new : List TopicChunk) :
    allSamples (chunks ++ new) = allSamples chunks ++ allSamples new := List.flatMap_append

/-- A chunk whose rows the node has not joined: they lie behind its watermark, or it has joined
nothing. -/
def Awaits (n : MimoNode) (chunk : TopicChunk) : Prop :=
  n.lastTs = Int64.minValue ∨ n.lastTs < chunk.stats.tMin

instance (n : MimoNode) : DecidablePred n.Awaits := fun chunk ↦
  inferInstanceAs (Decidable (n.lastTs = Int64.minValue ∨ n.lastTs < chunk.stats.tMin))

/-- In such chunks there is nothing up to the watermark. -/
theorem past_allSamples {new : List TopicChunk} (hordered : ∀ chunk ∈ new, chunk.Ordered)
    (hcounted : ∀ chunk ∈ new, chunk.stats.rowCount = chunk.timestamps.length)
    (hnew : ∀ chunk ∈ new, n.Awaits chunk) :
    ((allSamples new).filter fun s ↦ decide (Int64.minValue < s.ts ∧ s.ts ≤ n.lastTs)) = [] := by
  refine List.filter_eq_nil_iff.mpr fun s hs hpast ↦ ?_
  obtain ⟨hmin, hle⟩ := of_decide_eq_true hpast
  obtain ⟨chunk, hchunk, hs⟩ := List.mem_flatMap.mp hs
  obtain ⟨row, hrow, rfl⟩ := List.mem_map.mp hs
  have hmem := readTimestamp_mem (hcounted chunk hchunk) (List.mem_range.mp hrow)
  rcases hnew chunk hchunk with hnone | hlate
  · exact absurd (hmin.trans_le (hnone ▸ hle)) (lt_irrefl _)
  · exact absurd ((hordered chunk hchunk).tMin_le hmem) (not_le.mpr (hle.trans_lt hlate))

/-- Chunks come to the inputs whose rows have not been joined, and the outputs are left alone. -/
theorem Behind.more {new : ℕ → List TopicChunk} (h : n.Behind op log d) (hd : d.Sound T)
    (hd' : d'.Sound T) (hin : ∀ input ∈ n.inputs, d.Brings input.1 (new input.1) d')
    (hnew : ∀ input ∈ n.inputs, ∀ chunk ∈ new input.1, n.Awaits chunk)
    (hout : ∀ out ∈ n.outputs, d.Brings out.1 [] d') : n.Behind op log d' := by
  have hinputs : ∀ input ∈ n.inputs, ∃ s, d'.getTopicStorage input.1 = some s := by
    intro input hinput
    obtain ⟨s, hs⟩ := h.inputs input hinput
    exact (hin input hinput s hs).imp fun _ hs' ↦ hs'.1
  refine ⟨h.contract, h.node, h.reads, hinputs, h.nodup, fun out hmem ↦ ?_, ?_⟩
  · obtain ⟨s, hs, hrows⟩ := h.outputs out hmem
    obtain ⟨s', hs', hchunks⟩ := hout out.1 (List.fst_mem_of_mem_zipIdx hmem) s hs
    rw [List.append_nil] at hchunks
    refine ⟨s', hs', ?_⟩
    rwa [TopicStorage.HoldsRows, hchunks]
  · have hpast : (n.history d').map (fun l ↦ l.filter fun s ↦
          decide (Int64.minValue < s.ts ∧ s.ts ≤ n.lastTs)) =
        (n.history d).map fun l ↦ l.filter fun s ↦
          decide (Int64.minValue < s.ts ∧ s.ts ≤ n.lastTs) := by
      rw [history, history, List.map_map, List.map_map]
      refine List.map_congr_left fun input hinput ↦ ?_
      obtain ⟨s, hs⟩ := h.inputs input hinput
      obtain ⟨s', hs', hchunks⟩ := hin input hinput s hs
      have horder := hd'.chunksInOrder hs'
      have hsub : ∀ chunk ∈ new input.1, chunk ∈ s'.sealedChunks := fun chunk hchunk ↦
        hchunks ▸ List.mem_append_right _ hchunk
      rw [Function.comp_apply, Function.comp_apply, DataEngine.chunks_of_some hs,
        DataEngine.chunks_of_some hs', hchunks, allSamples_append, List.filter_append,
        past_allSamples (fun chunk hchunk ↦ horder.ordered chunk (hsub chunk hchunk))
          (fun chunk hchunk ↦ horder.counted chunk (hsub chunk hchunk)) (hnew input hinput),
        List.append_nil]
    rw [h.samples, joinable, joinable,
      ← InnerJoin.joined_filter (sorted_history hd h.inputs)
        fun t ↦ decide (Int64.minValue < t ∧ t ≤ n.lastTs),
      ← InnerJoin.joined_filter (sorted_history hd' hinputs)
        fun t ↦ decide (Int64.minValue < t ∧ t ≤ n.lastTs), hpast]
    refine List.map_congr_left fun t ht ↦ ?_
    have hp : decide (Int64.minValue < t ∧ t ≤ n.lastTs) = true := by
      rw [InnerJoin.joined_filter (sorted_history hd h.inputs)
        fun t ↦ decide (Int64.minValue < t ∧ t ≤ n.lastTs)] at ht
      exact (List.mem_filter.mp ht).2
    have hvalues := decodeInputs_filter (p := fun t ↦ decide (Int64.minValue < t ∧ t ≤ n.lastTs)) hp
    rw [valuesAt, valuesAt, ← hvalues n.inputs (n.history d), ← hvalues n.inputs (n.history d'), hpast]

theorem length_resized (buf : List VarValue) (k : ℕ) : (resized buf k).length = k := by
  rw [resized, List.length_append, List.length_take, List.length_replicate]
  omega

theorem length_history (d : DataEngine) (n : MimoNode) : (n.history d).length = n.inputs.length :=
  List.length_map _

/-- The samples have a value for each input. -/
theorem Behind.sized (h : n.Behind op log d) : ∀ x ∈ log, x.2.length = n.inputs.length := by
  intro x hx
  have hmem : asJoin x ∈ log.map asJoin := List.mem_map_of_mem hx
  rw [h.samples] at hmem
  obtain ⟨t, -, heq⟩ := List.mem_map.mp hmem
  obtain ⟨-, hvalues⟩ := Prod.mk.inj heq
  rw [length_decodeInputs hvalues, List.length_zip, length_history, min_self]

/-- What a run collects behind the watermark. -/
theorem Behind.collected (h : n.Behind op log d) (hd : d.Sound T) :
    (n.inputs.map fun input ↦ newSamples n.lastTs (d.chunks input.1)) =
      (n.history d).map fun l ↦ l.filter fun s ↦ decide (n.lastTs < s.ts) := by
  rw [history, List.map_map]
  refine List.map_congr_left fun input hinput ↦ ?_
  obtain ⟨s, hs⟩ := h.inputs input hinput
  rw [Function.comp_apply, DataEngine.chunks_of_some hs]
  exact newSamples_eq (hd.chunksInOrder hs) n.lastTs

/-- Nothing of the inputs is left behind the watermark. -/
def Joined (d : DataEngine) (n : MimoNode) : Prop := ∀ t ∈ n.joinable d, t ≤ n.lastTs

/-- A run over something that can be joined. -/
theorem Behind.runJoined (h : n.Behind op log d) (hd : d.Sound T)
    (hapart : ∀ input ∈ n.inputs, input.1 ∉ n.outputs.map Prod.fst) {next : Timestamp}
    (hnext : ((n.joinable d).filter fun t ↦ decide (n.lastTs < t)).getLast? = some next)
    (hrun : n.runJoined walk d
      ((n.history d).map fun l ↦ l.filter fun s ↦ decide (n.lastTs < s.ts))
      ((n.joinable d).filter fun t ↦ decide (n.lastTs < t)) = some (d', n', err)) :
    err = none ∧ ∃ log', n'.Behind op log' d' ∧ n'.Joined d' := by
  obtain ⟨htouches, hwire⟩ := runJoined_frame hrun
  have hparts := filter_le_eq_append (h.strict hd) hnext
  have htimes := map_fst_of_asJoin h.samples
  have hstart : n.Answering d.setup op (DataEngine.createWriter d.world) log log
      { world := DataEngine.createWriter d.world,
        node := { n with outBuf := resized n.outBuf n.outputs.length } } := by
    refine ⟨⟨_, length_resized _ _, by rw [← h.node]⟩, h.sized, fun out hout ↦ ?_, fun _ ↦ ⟨rfl, rfl⟩⟩
    obtain ⟨o, ho, hrows⟩ := h.outputs out hout
    exact World.emitting_createWriter rfl ho (hd.ordered.engines 0 _ o ho) hrows
  obtain ⟨⟨W, b⟩, hbody, heq⟩ := Option.map_eq_some_iff.mp hrun
  obtain ⟨hdata, rfl⟩ := Prod.mk.inj heq
  obtain ⟨⟨r, e⟩, hloop, heq'⟩ := Option.map_eq_some_iff.mp hbody
  obtain ⟨rfl, new, hr, hnew⟩ := hstart.runJoins h.contract h.nodup
    (by rw [List.length_map, length_history]) (by
      rw [htimes, ← hparts]
      exact (h.strict hd).sublist List.filter_sublist) hloop
  obtain ⟨hworld, hnode⟩ := Prod.mk.inj heq'
  obtain ⟨hn', rfl⟩ := Prod.mk.inj hnode
  obtain ⟨buf, -, hbuf⟩ := hr.node
  have hlast : n'.lastTs = next := by
    rw [← hn', hnext]
    rfl
  have hinput : ∀ input ∈ n.inputs, d'.getTopicStorage input.1 = d.getTopicStorage input.1 :=
    fun input hmem ↦ htouches.world.topic _ (hapart input hmem)
  have hhistory : n'.history d' = n.history d := by
    rw [history, history, hwire.inputs]
    refine List.map_congr_left fun input hmem ↦ ?_
    rw [DataEngine.chunks, hinput input hmem, DataEngine.chunks]
  have hjoinable : n'.joinable d' = n.joinable d := by rw [joinable, hhistory, joinable]
  refine ⟨rfl, log ++ new, ⟨?_, ?_, hwire.inputs ▸ h.reads, ?_, hwire.outputs ▸ h.nodup, ?_, ?_⟩, ?_⟩
  · rw [hwire.inputs, hwire.outputs]
    exact h.contract
  · rw [← hn', hbuf]
  · rw [hwire.inputs]
    exact fun input hmem ↦ hinput input hmem ▸ h.inputs input hmem
  · rw [hwire.outputs]
    intro out hout
    have hrows : ∃ s, (W.engines 0).topics out.1.1 = some s ∧
        s.HoldsRows (n.answers op (log ++ new) out) := by
      rw [← hworld]
      split
      · exact (hr.emitting out hout).commitAll rfl walk
          (List.mem_map_of_mem (List.fst_mem_of_mem_zipIdx hout))
      · rename_i hwrote
        -- nothing was answered, and the topic is as it was
        obtain ⟨hsame, hanswers⟩ := hr.idle (by simpa using hwrote)
        obtain ⟨o, ho, hrows⟩ := h.outputs out hout
        have hanswers' : n.answers op (log ++ new) = n.answers op log := hanswers
        rw [hsame, hanswers']
        exact ⟨o, ho, hrows⟩
    rw [← hdata, answers, hwire.outputs]
    exact hrows
  · rw [hjoinable, hlast, hparts, List.map_append, List.map_append, h.samples]
    have hsame : ∀ t, n'.valuesAt d' t = n.valuesAt d t := by
      intro t
      rw [valuesAt, hhistory, hwire.inputs, valuesAt]
    simp only [hsame]
    refine congrArg _ (hnew.trans (List.map_congr_left fun t ht ↦ ?_))
    rw [decodeInputs_filter (p := fun t ↦ decide (n.lastTs < t)) (List.mem_filter.mp ht).2, valuesAt]
  · intro t ht
    rw [hjoinable] at ht
    rw [hlast]
    have hle : ∀ t ∈ (n.joinable d).filter fun t ↦ decide (Int64.minValue < t ∧ t ≤ next), t ≤ next :=
      fun t ht ↦ (of_decide_eq_true (List.mem_filter.mp ht).2).2
    rw [hparts] at hle
    rcases le_or_gt t n.lastTs with hold | hlate
    · have hmem := (List.mem_filter.mp (List.mem_of_getLast? hnext)).2
      exact hold.trans (of_decide_eq_true hmem).le
    · exact hle t (List.mem_append_right _ (List.mem_filter.mpr ⟨ht, decide_eq_true hlate⟩))

/-- A run of a node goes through, and the node catches up. -/
theorem Behind.runIncremental (h : n.Behind op log d) (hd : d.Sound T)
    (hapart : ∀ input ∈ n.inputs, input.1 ∉ n.outputs.map Prod.fst)
    (hrun : n.runIncremental walk d = some (d', n', err)) :
    err = none ∧ ∃ log', n'.Behind op log' d' ∧ n'.Joined d' := by
  have hsorted := sorted_history hd h.inputs
  have hcollected := h.collected hd
  rw [MimoNode.runIncremental] at hrun
  rcases collectSamples_cases n.lastTs h.inputs with ⟨hstop, input, hinput, hnone⟩ | hok
  · rw [hstop] at hrun
    obtain ⟨rfl, hnode⟩ := Prod.mk.inj (Option.some.inj hrun)
    obtain ⟨rfl, rfl⟩ := Prod.mk.inj hnode
    refine ⟨rfl, log, h, fun t ht ↦ ?_⟩
    obtain ⟨s, hs⟩ := h.inputs input hinput
    obtain ⟨loc, hloc, rfl⟩ := (mem_joinable h.reads).mp ht input hinput
    rw [DataEngine.chunks_of_some hs] at hnone hloc
    rw [newSamples_eq (hd.chunksInOrder hs)] at hnone
    exact not_lt.mp fun hlate ↦ List.filter_eq_nil_iff.mp hnone loc hloc (decide_eq_true hlate)
  · rw [hok, hcollected] at hrun
    dsimp only at hrun
    have hjoined : joinedTs ((n.history d).map fun l ↦ l.filter fun s ↦ decide (n.lastTs < s.ts)) =
        (n.joinable d).filter fun t ↦ decide (n.lastTs < t) := by
      rw [joinedTs_eq, joinable]
      exact InnerJoin.joined_filter hsorted fun t ↦ decide (n.lastTs < t)
    rw [hjoined] at hrun
    split_ifs at hrun with hnone
    · obtain ⟨rfl, hnode⟩ := Prod.mk.inj (Option.some.inj hrun)
      obtain ⟨rfl, rfl⟩ := Prod.mk.inj hnode
      refine ⟨rfl, log, h, fun t ht ↦ ?_⟩
      exact not_lt.mp fun hlate ↦ List.filter_eq_nil_iff.mp hnone t ht (decide_eq_true hlate)
    · obtain ⟨next, hnext⟩ := Option.ne_none_iff_exists'.mp
        (fun hnil ↦ hnone (List.getLast?_eq_none_iff.mp hnil))
      exact h.runJoined hd hapart hnext hrun

/-! ## From the start -/

/-- A node before everything. -/
theorem behind_fresh (hop : op.Contract n.inputs.length n.outputs.length) (hn : n.op = op)
    (hlast : n.lastTs = Int64.minValue) (hreads : n.inputs ≠ [])
    (hin : ∀ input ∈ n.inputs, ∃ s, d.getTopicStorage input.1 = some s)
    (hnodup : (n.outputs.map Prod.fst).Nodup)
    (hout : ∀ out ∈ n.outputs, ∃ s, d.getTopicStorage out.1 = some s ∧ s.sealedChunks = []) :
    n.Behind op [] d := by
  refine ⟨hop, hn, hreads, hin, hnodup, fun out hmem ↦ ?_, ?_⟩
  · obtain ⟨s, hs, hempty⟩ := hout out.1 (List.fst_mem_of_mem_zipIdx hmem)
    exact ⟨s, hs, [], rfl, hempty ▸ .nil⟩
  · rw [List.filter_eq_nil_iff.mpr fun t _ ht ↦ ?_]
    · rfl
    · obtain ⟨hmin, hle⟩ := of_decide_eq_true ht
      exact absurd (hmin.trans_le (hlast ▸ hle)) (lt_irrefl _)

/-- Recomputed, a node has joined all there is. -/
theorem Behind.replay (h : n.Behind op log d) (hd : d.Sound T)
    (hapart : ∀ input ∈ n.inputs, input.1 ∉ n.outputs.map Prod.fst)
    (hrun : n.reset.runIncremental walk (d.clearAll (n.outputs.map Prod.fst)) = some (d', n', err)) :
    err = none ∧ ∃ log', n'.Behind op log' d' ∧ n'.Joined d' ∧ n'.history d' = n.history d := by
  have hsound := (DataEngine.sound_clearAll (n.outputs.map Prod.fst) hd).1
  have hcleared : ∀ input ∈ n.inputs, (d.clearAll (n.outputs.map Prod.fst)).getTopicStorage input.1 =
      d.getTopicStorage input.1 := fun input hinput ↦
    (DerivedEngine.touches_clearChunks (n.outputs.map Prod.fst) d).world.topic _ (hapart input hinput)
  have hop : n.reset.op = op := by
    rw [MimoNode.reset, h.node]
    exact congrArg (fun s ↦ ({ op with state := s } : MimoTransform)) (h.contract.reset _)
  have hfresh : n.reset.Behind op [] (d.clearAll (n.outputs.map Prod.fst)) := by
    refine behind_fresh h.contract hop rfl h.reads (fun input hinput ↦ ?_) h.nodup fun out hout ↦ ?_
    · exact (hcleared input hinput).symm ▸ h.inputs input hinput
    · obtain ⟨k, hk, rfl⟩ := List.mem_iff_getElem.mp hout
      obtain ⟨s, hs, -⟩ := h.outputs (n.outputs[k], k) (List.mem_zipIdx_iff_getElem?.mpr
        (List.getElem?_eq_getElem hk))
      exact DataEngine.exists_clearAll (List.mem_map_of_mem hout) hs
  obtain ⟨rfl, log', hbehind, hjoined⟩ := hfresh.runIncremental hsound hapart hrun
  obtain ⟨htouches, hwire⟩ := runIncremental_frame hrun
  have hin : n'.inputs = n.inputs := hwire.inputs
  refine ⟨rfl, log', hbehind, hjoined, ?_⟩
  rw [history, history, hin]
  refine List.map_congr_left fun input hinput ↦ ?_
  have hkept : d'.getTopicStorage input.1 = d.getTopicStorage input.1 :=
    (htouches.world.topic _ (hapart input hinput)).trans (hcleared input hinput)
  rw [DataEngine.chunks, hkept, DataEngine.chunks]

/-- A node that has joined all there is has called its transform for all timestamps that the inputs
have, but the smallest of the type. -/
theorem Behind.samples_of_joined (h : n.Behind op log d) (hjoined : n.Joined d) :
    log.map asJoin = ((n.joinable d).filter fun t ↦ decide (Int64.minValue < t)).map fun t ↦
      (t, n.valuesAt d t) := by
  rw [h.samples]
  refine congrArg _ (List.filter_congr fun t ht ↦ ?_)
  rw [decide_eq_decide, and_iff_left (hjoined t ht)]

end MimoNode

end PlotJuggler
