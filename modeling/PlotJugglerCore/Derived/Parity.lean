import PlotJugglerCore.Derived.Session

/-!
# Incremental and batch agree

`recompute_batch` clears the output of a node, resets its transform and runs it over everything. What
it leaves is what incremental runs have put together, as long as these have seen every chunk of the
input (`DerivedEngine.scheduleAll_matchesBatch`). But a node only keeps the largest id it has come to,
and ids are drawn when a chunk is sealed: if a chunk is committed behind one with a larger id, and the
node has run in between, its rows are passed over for good.

A recomputation fills a topic anew, with chunks of new ids. A reader that has gone over the old ones
takes their rows for new rows, and a reader with nothing to do is not told of them. It is all the same
if the readers are recomputed too before nodes run again
(`DerivedEngine.scheduleAll_upToDate_of_inStep`).
-/

namespace PlotJuggler

/-! ## Statements -/

/-- The transform is where calls for exactly these samples bring it from a reset. -/
def SisoTransform.HasSeen (op : SisoTransform) (samples : List (Timestamp × VarValue)) : Prop :=
  op.state = (Transducer.run op.answer (op.reset op.state) samples).1

/-- The transform of a node has been called for all rows of the input, each once and in order, the
output has the answers, and a recomputation leaves the same rows. -/
def SisoNode.MatchesBatch (walk : WalkOrder) (d : DerivedEngine) (id : ℕ) (n : SisoNode) : Prop :=
  ∃ samples s o, d.data.getTopicStorage n.inputTopicId = some s ∧
    samples.map SisoNode.asRow = s.sealedChunks.flatMap (SisoNode.decodedRows n.inputKind) ∧
    n.op.HasSeen samples ∧ d.data.getTopicStorage n.outputTopicId = some o ∧
    o.HoldsRows ((n.op.batch samples).map (VarValue.row n.outputKind)) ∧
    ∀ d' err, d.recomputeBatch walk id = some (d', err) → err = none ∧
      ∃ o', d'.data.getTopicStorage n.outputTopicId = some o' ∧
        o'.HoldsRows ((n.op.batch samples).map (VarValue.row n.outputKind))

/-- The chunk up to which the node has gone is still there, and a node with chunks before it is dirty. -/
def SisoNode.InStep (dirty : Bool) (chunks : List TopicChunk) (n : SisoNode) : Prop :=
  (n.lastProcessedChunkId = 0 ∨ ∃ chunk ∈ chunks, chunk.id = n.lastProcessedChunkId) ∧
    (dirty = false → ∀ chunk ∈ chunks, chunk.id ≤ n.lastProcessedChunkId)

instance (dirty : Bool) (chunks : List TopicChunk) : DecidablePred (SisoNode.InStep dirty chunks) :=
  fun n ↦ inferInstanceAs (Decidable
    ((n.lastProcessedChunkId = 0 ∨ ∃ chunk ∈ chunks, chunk.id = n.lastProcessedChunkId) ∧
      (dirty = false → ∀ chunk ∈ chunks, chunk.id ≤ n.lastProcessedChunkId)))

namespace DerivedEngine

/-- All single-input nodes are in step with their inputs. -/
def InStep (d : DerivedEngine) : Prop :=
  ∀ id ∈ d.nodes.keys, ∀ m ∈ d.nodes.lookup id, ∀ n, m.op = .siso n →
    n.InStep m.dirty (d.chunks n.inputTopicId)

instance (op : NodeOp) (P : SisoNode → Prop) [DecidablePred P] :
    Decidable (∀ n, op = .siso n → P n) :=
  match op with
  | .siso n => decidable_of_iff (P n) ⟨fun h _ heq ↦ NodeOp.siso.inj heq ▸ h, fun h ↦ h n rfl⟩
  | .mimo _ => .isTrue fun _ heq ↦ by cases heq

instance (d : DerivedEngine) : Decidable d.InStep :=
  inferInstanceAs (Decidable (∀ id ∈ d.nodes.keys, ∀ m ∈ d.nodes.lookup id, _))

/-- The condition on a session in which any node is recomputed at any time: nodes only run when all
are in step. -/
def Renews (S : Setup) (d : DerivedEngine) : Event → Unit → Prop
  | .call (.scheduleActive _), _ => d.InStep
  | event, _ => d.Delivers NodeOp.New S event

instance (S : Setup) (d : DerivedEngine) (event : Event) (out : Unit) :
    Decidable (d.Renews S event out) :=
  match event with
  | .call (.scheduleActive _) => inferInstanceAs (Decidable d.InStep)
  | .call (.data c) => inferInstanceAs (Decidable (d.Delivers NodeOp.New S (.call (.data c))))
  | .call (.addSisoTransform _ _ _ _) | .call (.addMimoTransform _ _ _ _) | .call (.removeNode _)
  | .call (.onSourceCommitted _) | .call (.recomputeBatch _) => .isTrue trivial
  | .commit k => inferInstanceAs (Decidable (d.BringsAccepted NodeOp.New k))

end DerivedEngine

namespace SisoNode

variable {S : Setup} {walk : WalkOrder} {d : DerivedEngine} {n : SisoNode} {op : SisoTransform}
  {log : List (Timestamp × VarValue)} {past rest : List TopicChunk} {id : ℕ} {m : DerivedNode}

/-- The samples of a node are those of its input. -/
theorem Behind.log_eq {data data' : DataEngine} (h : n.Behind op log past rest data) {n' : SisoNode}
    {op' : SisoTransform} {log' : List (Timestamp × VarValue)} {rest' : List TopicChunk}
    (h' : n'.Behind op' log' past rest' data') (hkind : n'.inputKind = n.inputKind) : log' = log := by
  refine List.map_injective_iff.mpr asRow_injective ?_
  rw [h'.samples, h.samples, hkind]

theorem Behind.hasSeen {data : DataEngine} (h : n.Behind op log past rest data) :
    n.op.HasSeen log := by
  rw [h.node]
  have hreset : (op.after log).reset (op.after log).state = op.state := h.contract.reset _
  show (Transducer.run op.answer op.state log).1 = _
  rw [hreset]
  rfl

/-- The answers of a node are those of a reset transform to all its samples. -/
theorem Behind.answers_eq {data : DataEngine} (h : n.Behind op log past rest data) :
    n.answers op log = (n.op.batch log).map (VarValue.row n.outputKind) := by
  rw [h.node, h.contract.batch_after]
  rfl

theorem replay_of_recomputeBatch {d' : DerivedEngine} {err : Option DerivedError}
    (hm : d.nodes.lookup id = some m) (hn : m.op = .siso n)
    (h : d.recomputeBatch walk id = some (d', err)) :
    ∃ n', n.replay walk d.data = some (d'.data, n', err) := by
  have houts : m.outputTopics = [n.outputTopicId] := by
    rw [DerivedNode.outputTopics, hn]
    rfl
  rw [DerivedEngine.recomputeBatch, hm] at h
  dsimp only at h
  rw [houts, hn] at h
  obtain ⟨⟨data, op, out⟩, hrun, heq⟩ := Option.map_eq_some_iff.mp h
  obtain ⟨⟨data', n', out'⟩, hreplay, heq'⟩ := Option.map_eq_some_iff.mp hrun
  obtain ⟨rfl, rfl⟩ : data' = data ∧ out' = out := by
    simp only [Prod.map_apply, id_eq, Prod.mk.injEq] at heq'
    exact ⟨heq'.1, heq'.2.2⟩
  rcases out' with _ | e
  · obtain ⟨rfl, rfl⟩ := Prod.mk.inj heq
    exact ⟨n', hreplay⟩
  · obtain ⟨rfl, rfl⟩ := Prod.mk.inj heq
    exact ⟨n', hreplay⟩

/-- A node that has nothing before it stands where a recomputation would bring it. -/
theorem Tracks.matchesBatch (hd : d.data.Sound S) (hm : d.nodes.lookup id = some m)
    (hn : m.op = .siso n) (hne : n.inputTopicId ≠ n.outputTopicId) (h : n.Tracks false d.data) :
    n.MatchesBatch walk d id := by
  obtain ⟨op, log, past, rest, hbehind, hclean⟩ := h
  obtain rfl := hclean rfl
  obtain ⟨s, hs, hchunks⟩ := hbehind.input
  obtain ⟨o, ho, hrows⟩ := hbehind.output
  rw [List.append_nil] at hchunks
  rw [hbehind.answers_eq] at hrows
  refine ⟨log, s, o, hs, by rw [hbehind.samples, hchunks], hbehind.hasSeen, ho, hrows,
    fun d' err hrun ↦ ?_⟩
  obtain ⟨n', hreplay⟩ := replay_of_recomputeBatch hm hn hrun
  obtain ⟨herr, log', hbehind'⟩ :=
    hbehind.kept.replay hd hbehind.contract hbehind.node hne hs hreplay
  obtain ⟨-, hwire⟩ := runIncremental_frame hreplay
  rw [hchunks] at hbehind'
  obtain rfl := hbehind.log_eq hbehind' hwire.inputKind
  obtain ⟨o', ho', hrows'⟩ := hbehind'.output
  refine ⟨herr, o', hwire.outputTopicId ▸ ho', ?_⟩
  rw [← hbehind.answers_eq, answers]
  rwa [answers, hwire.outputKind] at hrows'

end SisoNode

namespace DerivedEngine

variable {S : Setup} {walk : WalkOrder} {W : World} {events : List Event} {d d' : DerivedEngine}
  {r r' : Schedule} {err : Option DerivedError}

/-- All nodes have one input. -/
def SingleInputs (d : DerivedEngine) : Prop :=
  ∀ id m, d.nodes.lookup id = some m → ∃ n, m.op = .siso n

theorem exists_siso_of_run {op op' : NodeOp} {data data' : DataEngine} (h : ∃ n, op = .siso n)
    (hrun : op.runIncremental walk data = some (data', op', err)) : ∃ n, op' = .siso n := by
  obtain ⟨n, rfl⟩ := h
  obtain ⟨⟨data₁, n', err'⟩, -, heq⟩ := Option.map_eq_some_iff.mp hrun
  exact ⟨n', (Prod.mk.inj (Prod.mk.inj heq).2).1.symm⟩

/-- A run of nodes with one input goes through. -/
theorem schedule_ok_of_singleInputs {considered : ℕ → Bool} {order : List ℕ} (hlinked : d.Linked)
    (hr : KeepsGraph d r.engine ∧ r.engine.Tracks S) (hsingle : r.engine.SingleInputs)
    (h : Loop.run (scheduleNode walk considered) order r = some (r', err)) : err = none := by
  refine schedule_ok (SisoNode.carries_tracks.each.and fun op ↦ ∃ n, op = .siso n)
    ((SisoNode.kept_tracks walk).and exists_siso_of_run) ?_ hlinked (meets_passesOn hlinked hr) h
    ⟨hr.1, hr.2.sound, fun x m hm ↦ ⟨hsingle x m hm, hr.2.node x m hm⟩⟩
  rintro op op' data data' err dirty hd ⟨⟨n, rfl⟩, htracks⟩ hapart hrun
  obtain ⟨⟨data', n', err'⟩, hsiso, heq⟩ := Option.map_eq_some_iff.mp hrun
  simp only [Prod.map_apply, id_eq, Prod.mk.injEq] at heq
  obtain ⟨rfl, -, rfl⟩ := heq
  obtain ⟨op, log, past, rest, hbehind, -⟩ := htracks n rfl
  exact (hbehind.runIncremental hd (fun heq ↦
    hapart _ List.mem_cons_self (heq ▸ List.mem_cons_self)) hsiso).1

/-- A copy of a series. -/
def copied : List Event :=
  oneSeries.map .call ++ [.call (.addSisoTransform 1 "copy" 1 passThrough)]

/-- Writer `w` writes a row and hands it out. -/
def sealedRow (w : ℕ) (t : Timestamp) (x : Binary64) : List Event :=
  [.call (.data (.world (.topic w 1 (.beginRow t)))),
    .call (.data (.world (.topic w 1 (.set 0 (.float64 x))))),
    .call (.data (.world (.topic w 1 .finishRow))), .call (.data (.world (.flush w 1)))]

theorem contract_copied : ∀ event ∈ copied, event.Contract := by
  simp only [copied, oneSeries, List.map_cons, List.map_nil, List.cons_append, List.nil_append,
    List.forall_mem_cons, Event.Contract, true_and]
  exact ⟨contract_passThrough, fun event hevent ↦ absurd hevent List.not_mem_nil⟩

theorem contract_sealedRow (w : ℕ) (t : Timestamp) (x : Binary64) :
    ∀ event ∈ sealedRow w t x, event.Contract := by
  simp only [sealedRow, List.forall_mem_cons, Event.Contract, true_and]
  exact fun event hevent ↦ absurd hevent List.not_mem_nil

/-- Two writers whose chunks are committed in the order in which they were sealed. -/
def inTurn : List Event :=
  copied ++ sealedRow 1 5 (.ofNat 1) ++ sealedRow 2 10 (.ofNat 2) ++
    [.commit 0, .call (.scheduleActive []), .commit 0] ++ sealedRow 1 11 (.ofNat 3) ++ [.commit 0]

/-- The times of the rows that a node reads, those of its output, and those that a recomputation
leaves. -/
structure Finding where
  input : List (List Timestamp)
  output : List (List Timestamp)
  replayed : Option (List (List Timestamp) × Option DerivedError)
deriving DecidableEq

/-- Node `id` behind a session and a `scheduleAll`, with the result of that. -/
def finding (events : List Event) (id : ℕ) : Option (Finding × Option DerivedError) :=
  (Runs.run (happen oneEngine .plain) (start (.start fun _ ↦ [])) events).bind fun d ↦
    (d.scheduleAll .plain).bind fun r ↦ (r.1.engine.nodes.lookup id).bind fun m ↦
      match m.op with
      | .siso n => some ({
          input := (r.1.engine.chunks n.inputTopicId).map SisoNode.rowTimes
          output := (r.1.engine.chunks n.outputTopicId).map (·.timestamps)
          replayed := (r.1.engine.recomputeBatch .plain id).map
            fun q ↦ ((q.1.chunks n.outputTopicId).map (·.timestamps), q.2) }, r.2)
      | .mimo _ => none

theorem finding_eq_some {id : ℕ} {f : Finding} {err : Option DerivedError}
    (h : finding events id = some (f, err)) : ∃ d r m n,
      Runs.run (happen oneEngine .plain) (start (.start fun _ ↦ [])) events = some d ∧
      d.scheduleAll .plain = some (r, err) ∧ r.engine.nodes.lookup id = some m ∧ m.op = .siso n ∧
      (r.engine.chunks n.inputTopicId).map SisoNode.rowTimes = f.input ∧
      (r.engine.chunks n.outputTopicId).map (·.timestamps) = f.output ∧
      (r.engine.recomputeBatch .plain id).map
        (fun q ↦ ((q.1.chunks n.outputTopicId).map (·.timestamps), q.2)) = f.replayed := by
  obtain ⟨d, hd, hrest⟩ := Option.bind_eq_some_iff.mp h
  obtain ⟨⟨r, e⟩, hr, hrest⟩ := Option.bind_eq_some_iff.mp hrest
  obtain ⟨m, hm, hrest⟩ := Option.bind_eq_some_iff.mp hrest
  dsimp only at hrest
  split at hrest
  · rename_i n hn
    obtain ⟨rfl, rfl⟩ := Prod.mk.inj (Option.some.inj hrest)
    exact ⟨d, r, m, n, hd, hr, hm, hn, rfl, rfl, rfl⟩
  · cases hrest

/-- The first chunk is committed behind the second, and the node has run in between. -/
def lateChunk : List Event :=
  copied ++ sealedRow 1 10 (.ofNat 1) ++ sealedRow 2 5 (.ofNat 2) ++
    [.commit 1, .call (.scheduleActive []), .commit 0]

end DerivedEngine

/-! ## Recomputations in between -/

namespace SisoNode

variable {S : Setup} {d d' : DataEngine} {n : SisoNode} {dirty : Bool} {s : TopicStorage}

/-- As long as the chunk up to which the node has gone is there, the node has answered its input up to
it. -/
def Placed (n : SisoNode) (_ : Bool) (d : DataEngine) : Prop :=
  n.Kept d ∧ ∀ s, d.getTopicStorage n.inputTopicId = some s → n.InStep true s.sealedChunks →
    ∃ op log past rest, n.Behind op log past rest d

theorem carries_placed : Carries Placed where
  behind h _ := ⟨h.kept, fun _ _ _ ↦ ⟨_, _, _, _, h⟩⟩
  kept h := h.1
  more := by
    rintro n dirty dirty' d d' new ⟨hkept, hplace⟩ hcounter hin hnew hout -
    refine ⟨hkept.more hcounter hin hout, fun s' hs' hstep ↦ ?_⟩
    obtain ⟨s, hs⟩ := hkept.input
    obtain ⟨s₁, hs₁, hchunks⟩ := hin s hs
    obtain rfl := Option.some.inj (hs₁.symm.trans hs')
    have hold : n.InStep true s.sealedChunks := by
      refine ⟨hstep.1.imp_right ?_, fun htrue ↦ by cases htrue⟩
      rintro ⟨chunk, hchunk, hid⟩
      rw [hchunks] at hchunk
      refine ⟨chunk, (List.mem_append.mp hchunk).resolve_right fun hmem ↦ ?_, hid⟩
      exact absurd (hnew chunk hmem) (not_lt.mpr hid.le)
    obtain ⟨op, log, past, rest, hbehind⟩ := hplace s hs hold
    exact ⟨op, log, past, rest ++ new, hbehind.more hcounter hin hnew hout⟩

/-- In step, a node keeps track. -/
theorem Placed.tracks (h : n.Placed dirty d) (hs : d.getTopicStorage n.inputTopicId = some s)
    (hstep : n.InStep dirty s.sealedChunks) : n.Tracks dirty d := by
  obtain ⟨op, log, past, rest, hbehind⟩ := h.2 s hs ⟨hstep.1, fun htrue ↦ by cases htrue⟩
  refine ⟨op, log, past, rest, hbehind, fun hclean ↦ ?_⟩
  obtain ⟨s₁, hs₁, hchunks⟩ := hbehind.input
  obtain rfl := Option.some.inj (hs₁.symm.trans hs)
  refine List.eq_nil_iff_forall_not_mem.mpr fun chunk hchunk ↦ ?_
  refine absurd (hbehind.unseen chunk hchunk) (not_lt.mpr (hstep.2 hclean chunk ?_))
  rw [hchunks]
  exact List.mem_append_right past hchunk

/-- The topic of a node is filled anew. If the node has begun with it, it has lost its place. -/
theorem Placed.renewed (h : n.Placed dirty d) (hd : d.Sound S)
    (hcounter : d.world.nextChunkId ≤ d'.world.nextChunkId)
    (hs : d'.getTopicStorage n.inputTopicId = some s)
    (hnew : ∀ chunk ∈ s.sealedChunks, n.lastProcessedChunkId < chunk.id)
    (hout : d.Brings n.outputTopicId [] d') : n.Placed dirty d' := by
  obtain ⟨hkept, hplace⟩ := h
  obtain ⟨s₀, hs₀⟩ := hkept.input
  obtain ⟨o, ho⟩ := hkept.output
  obtain ⟨o', ho', hsame⟩ := hout o ho
  have hbelow := hkept.below.trans_le hcounter
  refine ⟨⟨hkept.op, ⟨s, hs⟩, ⟨o', ho'⟩, hbelow⟩, fun s₁ hs₁ hstep ↦ ?_⟩
  obtain rfl := Option.some.inj (hs.symm.trans hs₁)
  rcases hstep.1 with hzero | ⟨chunk, hchunk, hid⟩
  · obtain ⟨op, log, past, rest, hbehind⟩ := hplace s₀ hs₀ ⟨.inl hzero, fun htrue ↦ by cases htrue⟩
    obtain ⟨s₁, hs₁, hchunks⟩ := hbehind.input
    -- the node has not begun
    have hpast : past = [] := List.eq_nil_iff_forall_not_mem.mpr fun chunk hchunk ↦ by
      have hseen := hbehind.seen chunk hchunk
      have hpos := (hd.id_lt hs₁ chunk (hchunks ▸ List.mem_append_left rest hchunk)).1
      omega
    subst hpast
    obtain rfl : log = [] := List.map_eq_nil_iff.mp hbehind.samples
    obtain ⟨o₁, ho₁, hrows⟩ := hbehind.output
    obtain rfl := Option.some.inj (ho.symm.trans ho₁)
    rw [List.append_nil] at hsame
    refine ⟨op, [], [], s.sealedChunks, hbehind.contract, hbehind.node, ⟨s, hs, rfl⟩, ⟨o', ho', ?_⟩,
      rfl, fun chunk hchunk ↦ absurd hchunk List.not_mem_nil, hnew, hbelow⟩
    rwa [TopicStorage.HoldsRows, hsame]
  · exact absurd (hnew chunk hchunk) (not_lt.mpr hid.le)

end SisoNode

namespace DerivedEngine

variable {S : Setup} {walk : WalkOrder} {W : World} {events : List Event} {d d' : DerivedEngine}
  {r : Schedule}

theorem tracks_of_inStep (hd : d.AllSiso SisoNode.Placed S) (hstep : d.InStep) : d.Tracks S := by
  refine ⟨hd.sound, fun id m hm n hn ↦ ?_⟩
  have hnode := hd.node id m hm n hn
  obtain ⟨s, hs⟩ := hnode.1.input
  have hin := hstep id (AList.lookup_isSome.mp (by rw [hm]; rfl)) m hm n hn
  rw [chunks_of_some hs] at hin
  exact hnode.tracks hs hin

theorem Tracks.placed (hd : d.Tracks S) : d.AllSiso SisoNode.Placed S := by
  refine ⟨hd.sound, fun id m hm n hn ↦ ?_⟩
  obtain ⟨op, log, past, rest, hbehind, hclean⟩ := hd.node id m hm n hn
  exact SisoNode.carries_placed.behind hbehind hclean

theorem Renews.delivers {event : Event} {out : Unit} (h : d.Renews S event out) :
    d.Delivers NodeOp.New S event := by
  match event with
  | .call (.scheduleActive _) => trivial
  | .call (.data _) | .call (.addSisoTransform _ _ _ _) | .call (.addMimoTransform _ _ _ _)
  | .call (.removeNode _) | .call (.onSourceCommitted _) | .call (.recomputeBatch _)
  | .commit _ => exact h

theorem placed_happen {event : Event} {out : Unit} (hlinked : d.Linked)
    (hd : d.AllSiso SisoNode.Placed S) (h : d.happen S walk event = some (d', out))
    (hrenews : d.Renews S event out) (hcontract : event.Contract) :
    d'.AllSiso SisoNode.Placed S := by
  refine allSiso_happen SisoNode.carries_placed hlinked hd h hrenews.delivers hcontract ?_ ?_
  · rintro active r err rfl hrun
    have htracks := tracks_of_inStep hd hrenews
    exact (tracks_schedule hlinked ⟨⟨.refl d, .refl d.data⟩, htracks⟩ hrun).2.placed
  · intro id d₂ err _ hrun
    refine allSiso_recomputeBatch SisoNode.carries_placed hd hlinked hrun ?_
    rintro x m n - - - hnode hcounter ⟨s, hs, hnew⟩ hout
    exact hnode.renewed hd.sound hcounter hs hnew hout

/-- A copy and a copy of the copy, and some recomputations between two rows. -/
def recomputed (ids : List ℕ) : List Event :=
  copied ++ [.call (.addSisoTransform 2 "copy of copy" 1 passThrough)] ++ sealedRow 1 1 (.ofNat 1) ++
    [.commit 0, .call (.scheduleActive [])] ++ ids.map (.call ∘ .recomputeBatch) ++
    sealedRow 1 2 (.ofNat 2) ++ [.commit 0]

theorem contract_recomputed (ids : List ℕ) : ∀ event ∈ recomputed ids, event.Contract := by
  simp only [recomputed, List.forall_mem_append, List.forall_mem_map]
  exact ⟨⟨⟨⟨⟨⟨contract_copied, by simpa [Event.Contract] using contract_passThrough⟩,
    contract_sealedRow 1 1 _⟩,
    by simp [Event.Contract]⟩, fun _ _ ↦ trivial⟩, contract_sealedRow 1 2 _⟩,
    by simp [Event.Contract]⟩

end DerivedEngine

end PlotJuggler
