import PlotJugglerCore.Derived.Events
import PlotJugglerCore.Derived.Incremental

/-!
# Incremental runs give what one run over everything gives

Between two runs a node with one input has some chunks of its input behind it and others before it. It
is dirty if there are any before it (`DerivedEngine.Tracks`), because a chunk comes with a commit, and
then the node was named by `topicToNodes`, or from a node upstream, and then it was named by
`downstreamOf`.

When `scheduleAll` has gone through, nothing is dirty, and every node with one input has in its output
the answers to the whole of its input, as one run from a reset would give them.
-/

namespace PlotJuggler

/-! ## Statements -/

/-- The output has the answers to all samples of the input. -/
def SisoNode.UpToDate (d : DataEngine) (n : SisoNode) : Prop :=
  ∃ samples s o, d.getTopicStorage n.inputTopicId = some s ∧
    samples.map SisoNode.asRow = s.sealedChunks.flatMap (SisoNode.decodedRows n.inputKind) ∧
    d.getTopicStorage n.outputTopicId = some o ∧
      o.HoldsRows ((n.op.batch samples).map (VarValue.row n.outputKind))

/-- A node with one input has not come to the chunk yet. -/
def NodeOp.New (op : NodeOp) (chunk : TopicChunk) : Prop :=
  match op with
  | .siso n => n.lastProcessedChunkId < chunk.id
  | .mimo _ => True

instance (op : NodeOp) (chunk : TopicChunk) : Decidable (op.New chunk) :=
  match op with
  | .siso n => inferInstanceAs (Decidable (n.lastProcessedChunkId < chunk.id))
  | .mimo _ => .isTrue trivial

namespace DerivedEngine

/-- The condition on a session: what a commit brings is new to the readers of the topic, and a node is
only recomputed when nobody reads from it. -/
def Admits (S : Setup) (d : DerivedEngine) : Event → Unit → Prop
  | .call (.recomputeBatch id), _ => ∀ τ ∈ d.outputTopics id, entry d.topicToNodes τ = []
  | event, _ => d.Delivers NodeOp.New S event

instance (S : Setup) (d : DerivedEngine) (event : Event) (out : Unit) :
    Decidable (d.Admits S event out) :=
  match event with
  | .call (.recomputeBatch id) =>
    inferInstanceAs (Decidable (∀ τ ∈ d.outputTopics id, entry d.topicToNodes τ = []))
  | .call (.data c) => inferInstanceAs (Decidable (d.Delivers NodeOp.New S (.call (.data c))))
  | .call (.addSisoTransform _ _ _ _) | .call (.addMimoTransform _ _ _ _) | .call (.removeNode _)
  | .call (.onSourceCommitted _) | .call (.scheduleActive _) => .isTrue trivial
  | .commit k => inferInstanceAs (Decidable (d.BringsAccepted NodeOp.New k))

/-- The transform that is added keeps to its contract. -/
def Event.Contract : Event → Prop
  | .call (.addSisoTransform _ _ _ op) => op.Contract
  | _ => True

end DerivedEngine

/-! ## Nodes between their runs -/

namespace SisoNode

variable {S : Setup} {walk : WalkOrder} {d d' : DataEngine} {n : SisoNode} {op : SisoTransform}
  {log : List (Timestamp × VarValue)} {past rest new : List TopicChunk} {dirty dirty' : Bool}

/-- Chunks that the node has not seen come to its input, and its output is left alone. -/
theorem Behind.more (h : n.Behind op log past rest d)
    (hcounter : d.world.nextChunkId ≤ d'.world.nextChunkId) (hin : d.Brings n.inputTopicId new d')
    (hnew : ∀ chunk ∈ new, n.lastProcessedChunkId < chunk.id)
    (hout : d.Brings n.outputTopicId [] d') : n.Behind op log past (rest ++ new) d' := by
  refine ⟨h.contract, h.node, ?_, ?_, h.samples, h.seen,
    List.forall_mem_append.mpr ⟨h.unseen, hnew⟩, h.below.trans_le hcounter⟩
  · obtain ⟨s, hs, hchunks⟩ := h.input
    obtain ⟨s', hs', hchunks'⟩ := hin s hs
    exact ⟨s', hs', by rw [hchunks', hchunks, List.append_assoc]⟩
  · obtain ⟨s, hs, hrows⟩ := h.output
    obtain ⟨s', hs', hchunks'⟩ := hout s hs
    rw [List.append_nil] at hchunks'
    refine ⟨s', hs', ?_⟩
    rwa [TopicStorage.HoldsRows, hchunks']

/-- The node has answered a beginning of its input, and all of it if it is not dirty. -/
def Tracks (n : SisoNode) (dirty : Bool) (d : DataEngine) : Prop :=
  ∃ op log past rest, n.Behind op log past rest d ∧ (dirty = false → rest = [])

theorem Tracks.more (h : n.Tracks dirty d)
    (hcounter : d.world.nextChunkId ≤ d'.world.nextChunkId) (hin : d.Brings n.inputTopicId new d')
    (hnew : ∀ chunk ∈ new, n.lastProcessedChunkId < chunk.id)
    (hout : d.Brings n.outputTopicId [] d') (hdirty : dirty' = false → dirty = false ∧ new = []) :
    n.Tracks dirty' d' := by
  obtain ⟨op, log, past, rest, hbehind, hclean⟩ := h
  refine ⟨op, log, past, rest ++ new, hbehind.more hcounter hin hnew hout, fun hdirty' ↦ ?_⟩
  obtain ⟨hwas, rfl⟩ := hdirty hdirty'
  rw [hclean hwas, List.append_nil]

/-- The transform has kept to its contract, and the topics are there. -/
structure Kept (d : DataEngine) (n : SisoNode) : Prop where
  op : ∃ op log, SisoTransform.Contract op ∧ n.op = op.after log
  input : ∃ s, d.getTopicStorage n.inputTopicId = some s
  output : ∃ o, d.getTopicStorage n.outputTopicId = some o
  below : n.lastProcessedChunkId < d.world.nextChunkId

theorem Behind.kept (h : n.Behind op log past rest d) : n.Kept d :=
  ⟨⟨op, log, h.contract, h.node⟩, h.input.imp fun _ hs ↦ hs.1, h.output.imp fun _ ho ↦ ho.1, h.below⟩

theorem Kept.more (h : n.Kept d) (hcounter : d.world.nextChunkId ≤ d'.world.nextChunkId)
    (hin : d.Brings n.inputTopicId new d') (hout : d.Brings n.outputTopicId [] d') : n.Kept d' := by
  obtain ⟨s, hs⟩ := h.input
  obtain ⟨o, ho⟩ := h.output
  exact ⟨h.op, (hin s hs).imp fun _ hs' ↦ hs'.1, (hout o ho).imp fun _ ho' ↦ ho'.1,
    h.below.trans_le hcounter⟩

/-- What can be said of a node, with its flag, when it has answered a beginning of its input, and goes
on to be true as long as chunks come that the node has not seen. -/
structure Carries (Q : SisoNode → Bool → DataEngine → Prop) : Prop where
  behind : ∀ {n op log past rest d dirty}, n.Behind op log past rest d → (dirty = false → rest = []) →
    Q n dirty d
  kept : ∀ {n dirty d}, Q n dirty d → n.Kept d
  more : ∀ {n dirty dirty' d d' new}, Q n dirty d →
    d.world.nextChunkId ≤ d'.world.nextChunkId → d.Brings n.inputTopicId new d' →
    (∀ chunk ∈ new, n.lastProcessedChunkId < chunk.id) → d.Brings n.outputTopicId [] d' →
    (dirty' = false → dirty = false ∧ new = []) → Q n dirty' d'

theorem carries_tracks : Carries Tracks where
  behind h hclean := ⟨_, _, _, _, h, hclean⟩
  kept := fun ⟨_, _, _, _, h, _⟩ ↦ h.kept
  more h := h.more

/-- `Q` holds of a node if it has one input. -/
def Each (Q : SisoNode → Bool → DataEngine → Prop) (op : NodeOp) (dirty : Bool) (d : DataEngine) :
    Prop :=
  ∀ n, op = .siso n → Q n dirty d

/-- A node that is not dirty is up to date. -/
theorem Tracks.upToDate (h : n.Tracks false d) : n.UpToDate d := by
  obtain ⟨op, log, past, rest, hbehind, hclean⟩ := h
  obtain rfl := hclean rfl
  obtain ⟨s, hs, hchunks⟩ := hbehind.input
  obtain ⟨o, ho, hrows⟩ := hbehind.output
  refine ⟨log, s, o, hs, ?_, ho, ?_⟩
  · rw [hbehind.samples, hchunks, List.append_nil]
  · rw [hbehind.node, hbehind.contract.batch_after]
    exact hrows

/-- A node before everything. -/
theorem behind_fresh {s o : TopicStorage} (hd : d.Sound S) (hop : op.Contract) (hn : n.op = op)
    (hlast : n.lastProcessedChunkId = 0) (hs : d.getTopicStorage n.inputTopicId = some s)
    (ho : d.getTopicStorage n.outputTopicId = some o) (hempty : o.sealedChunks = []) :
    n.Behind op [] [] s.sealedChunks d where
  contract := hop
  node := hn
  input := ⟨s, hs, rfl⟩
  output := ⟨o, ho, [], rfl, hempty ▸ .nil⟩
  samples := rfl
  seen _ hchunk := absurd hchunk List.not_mem_nil
  unseen chunk hchunk := hlast ▸ (hd.id_lt hs chunk hchunk).1
  below := hlast ▸ hd.numbered.pos

/-- Recomputed, a node has everything behind it. -/
theorem Kept.replay {s : TopicStorage} (hd : d.Sound S) (h : n.Kept d) (hop : op.Contract)
    (hn : n.op = op.after log) (hne : n.inputTopicId ≠ n.outputTopicId)
    (hs : d.getTopicStorage n.inputTopicId = some s) {n' : SisoNode} {err : Option DerivedError}
    (hrun : n.replay walk d = some (d', n', err)) :
    err = none ∧ ∃ log', n'.Behind op log' s.sealedChunks [] d' := by
  obtain ⟨o, ho⟩ := h.output
  have hsound : (d.mapTopic n.outputTopicId (·.clearChunks)).Sound S :=
    hd.mapTopic (f := (·.clearChunks)) (fun _ ↦ rfl) fun _ ↦ List.nil_suffix
  have hreset : n.reset.op = op := by
    rw [SisoNode.reset, hn]
    exact congrArg (fun s ↦ ({ op with state := s } : SisoTransform)) (hop.reset _)
  have hfresh : n.reset.Behind op [] [] s.sealedChunks
      (d.mapTopic n.outputTopicId (·.clearChunks)) := by
    refine behind_fresh (o := o.clearChunks) hsound hop hreset rfl ?_ ?_ rfl
    · exact (DataEngine.getTopicStorage_mapTopic_of_ne hne.symm).trans hs
    · show (d.mapTopic n.outputTopicId (·.clearChunks)).engine.topics n.outputTopicId = _
      rw [DataEngine.mapTopic, DataEngine.engine, World.setEngine_self, Engine.mapTopic_self]
      exact congrArg (Option.map _) ho
  have hrun' : n.reset.runIncremental walk (d.mapTopic n.outputTopicId (·.clearChunks)) =
      some (d', n', err) := hrun
  have hne' : n.reset.inputTopicId ≠ n.reset.outputTopicId := hne
  have hran := Behind.runIncremental hsound hfresh hne' hrun'
  exact hran

/-- So it is true of a node that is new, and goes on to be true. -/
theorem Carries.each {Q : SisoNode → Bool → DataEngine → Prop} (hQ : Carries Q) :
    NodeOp.Carries (fun op ↦ ∀ n, op = .siso n → n.op.Contract) NodeOp.New (Each Q) where
  fresh := by
    rintro S op d hd hgood hfresh n rfl
    obtain ⟨s, hs⟩ := hfresh.inputs n.inputTopicId List.mem_cons_self
    obtain ⟨o, ho, hempty⟩ := hfresh.outputs n.outputTopicId List.mem_cons_self
    exact hQ.behind (behind_fresh hd (hgood n rfl) rfl hfresh.unstarted hs ho hempty)
      fun hclean ↦ by cases hclean
  more := by
    rintro S op dirty dirty' d d' new h - - hcounter hin hout hdirty n rfl
    obtain ⟨hbrings, hnew⟩ := hin n.inputTopicId List.mem_cons_self
    exact hQ.more (h n rfl) hcounter hbrings hnew (hout _ List.mem_cons_self)
      fun hclean ↦ (hdirty hclean).imp_right (· _ List.mem_cons_self)

theorem kept_tracks (walk : WalkOrder) : NodeOp.KeptByRuns walk (Each Tracks) := by
  rintro S op op' d d' err dirty hd h hapart hrun dirty' n' rfl
  rcases op with n | n
  · obtain ⟨⟨data', n₁, err'⟩, hsiso, heq⟩ := Option.map_eq_some_iff.mp hrun
    simp only [Prod.map_apply, id_eq, Prod.mk.injEq, NodeOp.siso.injEq] at heq
    obtain ⟨rfl, rfl, rfl⟩ := heq
    obtain ⟨op, log, past, rest, hbehind, -⟩ := h n rfl
    have hne : n.inputTopicId ≠ n.outputTopicId := fun heq ↦
      hapart _ List.mem_cons_self (heq ▸ List.mem_cons_self)
    obtain ⟨-, log', hbehind'⟩ := hbehind.runIncremental hd hne hsiso
    exact ⟨op, log', past ++ rest, [], hbehind', fun _ ↦ rfl⟩
  · obtain ⟨⟨data', n₁, err'⟩, -, heq⟩ := Option.map_eq_some_iff.mp hrun
    cases (Prod.mk.inj (Prod.mk.inj heq).2).1

end SisoNode

/-! ## Engines -/

namespace DerivedEngine

variable {S : Setup} {walk : WalkOrder} {d d' : DerivedEngine} {id : ℕ} {m : DerivedNode}
  {err : Option DerivedError}

theorem Linked.input_ne_output (hd : d.Linked) {n : SisoNode} (hm : d.nodes.lookup id = some m)
    (hn : m.op = .siso n) : n.inputTopicId ≠ n.outputTopicId := by
  have hapart := hd.apart hm
  rw [hn] at hapart
  exact fun heq ↦ hapart _ List.mem_cons_self (heq ▸ List.mem_cons_self)

/-- `Q` holds of all single-input nodes. -/
abbrev AllSiso (Q : SisoNode → Bool → DataEngine → Prop) : Setup → DerivedEngine → Prop :=
  AllNodes (SisoNode.Each Q)

/-- All single-input nodes keep track. -/
def Tracks (S : Setup) (d : DerivedEngine) : Prop := d.AllSiso SisoNode.Tracks S

/-- A node is recomputed. Its readers find their topics filled anew. -/
theorem allSiso_recomputeBatch {Q : SisoNode → Bool → DataEngine → Prop} (hQ : SisoNode.Carries Q)
    (hd : d.AllSiso Q S) (hlinked : d.Linked) (h : d.recomputeBatch walk id = some (d', err))
    (hreader : ∀ x m n, d.nodes.lookup x = some m → m.op = .siso n →
      n.inputTopicId ∈ d.outputTopics id → Q n m.dirty d.data →
      d.data.world.nextChunkId ≤ d'.data.world.nextChunkId →
      (∃ s, d'.data.getTopicStorage n.inputTopicId = some s ∧
        ∀ chunk ∈ s.sealedChunks, n.lastProcessedChunkId < chunk.id) →
      d.data.Brings n.outputTopicId [] d'.data → Q n m.dirty d'.data) : d'.AllSiso Q S := by
  refine allNodes_recomputeBatch hQ.each hd hlinked h ?_ ?_
  · rintro m op hm hrun dirty n' rfl
    rcases hn : m.op with n | n
    · rw [hn] at hrun
      obtain ⟨⟨data', n₁, err'⟩, hreplay, heq⟩ := Option.map_eq_some_iff.mp hrun
      simp only [Prod.map_apply, id_eq, Prod.mk.injEq, NodeOp.siso.injEq] at heq
      obtain ⟨rfl, rfl, -⟩ := heq
      have hkept := hQ.kept (hd.node _ m hm n hn)
      obtain ⟨s, hs⟩ := hkept.input
      obtain ⟨op, log, hop, hlog⟩ := hkept.op
      obtain ⟨-, log', hbehind⟩ := hkept.replay hd.sound hop hlog (hlinked.input_ne_output hm hn) hs
        hreplay
      exact hQ.behind hbehind fun _ ↦ rfl
    · rw [hn] at hrun
      obtain ⟨⟨data', n₁, err'⟩, -, heq⟩ := Option.map_eq_some_iff.mp hrun
      cases (Prod.mk.inj (Prod.mk.inj heq).2).1
  · rintro x m hm ⟨τ, hτ, hmem⟩ hcounter hanew hout n hn
    rw [hn] at hτ hanew hout
    obtain rfl := List.mem_singleton.mp hτ
    have hnode := hd.node x m hm n hn
    obtain ⟨s, hs⟩ := (hQ.kept hnode).input
    obtain ⟨s', hs', hnew⟩ := hanew _ hτ hmem s hs
    exact hreader x m n hm hn hmem hnode hcounter
      ⟨s', hs', fun chunk hchunk ↦ (hQ.kept hnode).below.trans_le (hnew chunk hchunk)⟩
      (hout _ List.mem_cons_self)

/-- What holds of all nodes, an event keeps, if runs and recomputations of nodes do. -/
theorem allSiso_happen {Q : SisoNode → Bool → DataEngine → Prop} (hQ : SisoNode.Carries Q)
    {event : Event} {out : Unit} (hlinked : d.Linked) (hd : d.AllSiso Q S)
    (h : d.happen S walk event = some (d', out)) (hdelivers : d.Delivers NodeOp.New S event)
    (hcontract : event.Contract)
    (hrun : ∀ active r err, event = .call (.scheduleActive active) →
      d.scheduleActive walk active = some (r, err) → r.engine.AllSiso Q S)
    (hrecompute : ∀ id d' err, event = .call (.recomputeBatch id) →
      d.recomputeBatch walk id = some (d', err) → d'.AllSiso Q S) : d'.AllSiso Q S := by
  refine allNodes_happen hQ.each hlinked hd h hdelivers (fun op hadds n hn ↦ ?_) hrun hrecompute
  subst hn
  rcases event with (_ | ⟨τ, name, datasetId, op⟩ | _ | _ | _ | _ | _) | _
  · cases hadds
  · obtain rfl : n.op = op := hadds
    exact hcontract
  all_goals cases hadds

/-! ### Nodes run -/

/-- What a node puts on its outputs is new to their readers: its chunks have new ids. -/
theorem Tracks.passesOn {considered : ℕ → Bool} {r r' : Schedule} (hr : r.engine.Tracks S)
    (hlinked : r.engine.Linked) (h : scheduleNode walk considered r id = some (r', err)) :
    r.engine.PassesOn NodeOp.New id r'.engine := by
  intro τ _ chunk hchunk x hx m hm
  have hadvances : r.engine.data.Advances S
      (fun chunk ↦ r.engine.data.world.nextChunkId ≤ chunk.id) r'.engine.data := by
    rcases scheduleNode_cases h with
      _ | _ | ⟨m, data, op, e, -, -, -, hrun⟩ | ⟨m, data, op, -, -, -, hrun⟩
    · exact .refl hr.sound
    · exact .refl hr.sound
    · exact (NodeOp.runIncremental_advances hr.sound hrun).mono fun _ hnew ↦ hnew.2
    · exact (NodeOp.runIncremental_advances hr.sound hrun).mono fun _ hnew ↦ hnew.2
  rcases hop : m.op with n | n
  · have hτ := hlinked.mem_consumers.mp hx
    rw [(topics_of_lookup hm).1, hop] at hτ
    obtain rfl := List.mem_singleton.mp hτ
    have hkept := SisoNode.carries_tracks.kept (hr.node x m hm n hop)
    obtain ⟨s, hs⟩ := hkept.input
    obtain ⟨new, hbrings, hnew⟩ := hadvances.brings n.inputTopicId
    rw [hbrings.gained_eq hs] at hchunk
    exact hkept.below.trans_le (hnew chunk hchunk).2
  · trivial

/-- So nodes always pass on what is new. -/
theorem meets_passesOn {considered : ℕ → Bool} {order : List ℕ} {r : Schedule} (hlinked : d.Linked)
    (hr : KeepsGraph d r.engine ∧ r.engine.Tracks S) :
    Loop.Meets (scheduleNode walk considered)
      (fun r id r' ↦ r.engine.PassesOn NodeOp.New id r'.engine) order r := by
  refine Loop.meets_of_induction (I := fun r ↦ KeepsGraph d r.engine ∧ r.engine.Tracks S) ?_ hr
  intro id r r' err hround hr
  have hpasses := hr.2.passesOn (hlinked.congr hr.1.1 hr.1.2) hround
  exact ⟨hpasses, allNodes_round SisoNode.carries_tracks.each (SisoNode.kept_tracks walk) hlinked hr
    hpasses hround⟩

theorem tracks_schedule {considered : ℕ → Bool} {order : List ℕ} {r r' : Schedule}
    (hlinked : d.Linked) (hr : KeepsGraph d r.engine ∧ r.engine.Tracks S)
    (h : Loop.run (scheduleNode walk considered) order r = some (r', err)) :
    KeepsGraph d r'.engine ∧ r'.engine.Tracks S :=
  allNodes_schedule SisoNode.carries_tracks.each (SisoNode.kept_tracks walk) hlinked
    (meets_passesOn hlinked hr) h hr

/-! ### Sessions -/

theorem Admits.delivers {event : Event} {out : Unit} (h : d.Admits S event out) :
    d.Delivers NodeOp.New S event := by
  match event with
  | .call (.recomputeBatch _) => trivial
  | .call (.data _) | .call (.addSisoTransform _ _ _ _) | .call (.addMimoTransform _ _ _ _)
  | .call (.removeNode _) | .call (.onSourceCommitted _) | .call (.scheduleActive _)
  | .commit _ => exact h

theorem tracks_happen {event : Event} {out : Unit} (hlinked : d.Linked) (hd : d.Tracks S)
    (h : d.happen S walk event = some (d', out)) (hadmits : d.Admits S event out)
    (hcontract : event.Contract) : d'.Tracks S := by
  refine allSiso_happen SisoNode.carries_tracks hlinked hd h hadmits.delivers hcontract ?_ ?_
  · exact fun _ r err _ hrun ↦ (tracks_schedule hlinked ⟨⟨.refl d, .refl d.data⟩, hd⟩ hrun).2
  · rintro id d₂ err rfl hrun
    refine allSiso_recomputeBatch SisoNode.carries_tracks hd hlinked hrun ?_
    intro x m n hm hop hreads
    -- nobody reads from the node
    have hin : n.inputTopicId ∈ m.op.inputTopics := by
      rw [hop]
      exact List.mem_cons_self
    have hconsumer := hlinked.mem_consumers_input hm hin
    rw [hadmits _ hreads] at hconsumer
    exact absurd hconsumer List.not_mem_nil

end DerivedEngine

/-! ## Whole sessions -/

namespace DerivedEngine

variable {S : Setup} {walk : WalkOrder} {W : World} {events : List Event} {d : DerivedEngine}

/-- A session in which the transforms keep to their contract. -/
theorem run_tracks (hinit : W.Initial S) (hpos : 1 ≤ W.nextChunkId)
    (hcontract : ∀ event ∈ events, event.Contract)
    (hmeets : Runs.Meets (happen S walk) (Admits S) (start W) events)
    (h : Runs.run (happen S walk) (start W) events = some d) : d.Linked ∧ d.Tracks S := by
  have hstart : (start W).Linked ∧ (start W).Tracks S :=
    ⟨linked_start W, DataEngine.sound_start hinit hpos, fun id m hm ↦ by cases hm⟩
  refine Runs.run_induction (I := fun d ↦ d.Linked ∧ d.Tracks S) ?_
    (hmeets.and_forall hcontract) h hstart
  intro d event d' out hd hstep hP
  exact ⟨linked_happen hd.1 hstep, tracks_happen hd.1 hd.2 hstep hP.1 hP.2⟩

/-- No node is dirty then. -/
theorem Tracks.upToDate_of_scheduleAll {r : Schedule} (hlinked : d.Linked) (htracks : d.Tracks S)
    (hall : d.scheduleAll walk = some (r, none)) {id : ℕ} {m : DerivedNode} {n : SisoNode}
    (hm : r.engine.nodes.lookup id = some m) (hn : m.op = .siso n) : n.UpToDate r.engine.data := by
  have hr := (tracks_schedule hlinked ⟨⟨.refl d, .refl d.data⟩, htracks⟩ hall).2
  have hclean : m.dirty = false := by
    have hnone := hlinked.scheduleAll_clean hall id
    rwa [isDirty, hm] at hnone
  have hnode := hr.node id m hm n hn
  rw [hclean] at hnode
  exact hnode.upToDate

theorem contract_passThrough : passThrough.Contract where
  reset _ := rfl
  places _ _ _ _ := rfl
  ordered l hl := hl.sublist
    (Transducer.map_run_sublist (fun _ _ _ hb ↦ congrArg Prod.fst (Option.some.inj hb).symm) _ l)

/-- A copy and a copy of the copy, which run behind each of two commits, the second time by
themselves. -/
def twoCommits : List Event :=
  oneSeries.map .call ++ [.call (.addSisoTransform 1 "copy" 1 passThrough)] ++ oneRow 3 ++
    [.call (.data (.world (.flush 1 1))), .commit 0, .call (.scheduleActive [1]),
      .call (.addSisoTransform 2 "copy of copy" 1 passThrough)] ++ oneRow 5 ++
    [.call (.data (.world (.flush 1 1))), .commit 0]

end DerivedEngine

end PlotJuggler
