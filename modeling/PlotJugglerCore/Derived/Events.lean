import PlotJugglerCore.Derived.Appending
import PlotJugglerCore.Derived.Registration
import PlotJugglerCore.Derived.Schedule
import PlotJugglerCore.Lib.Runs

/-!
# Sessions

`engine.hpp` says how the two engines go together:
`derived.onSourceCommitted(engine.commitChunks(writer.flushAll()))`. In a session every commit to the
engine is made like that. Between the commits other parts of the program write, create topics, add and
remove nodes, recompute some and let the scheduler run over whatever they like.

What can be said of every node at any time is a statement about its transform, its flag and the
topics around it. An event touches one node at most, and all that the others see of it is that chunks
come to their inputs. A statement that bears this (`NodeOp.Carries`) and is true of a node that was
just added is true of all nodes at all times, if runs and recomputations of nodes keep it.
-/

namespace PlotJuggler

/-! ## Chunks that come -/

namespace DataEngine

variable {S : Setup} {P : TopicChunk → Prop} {d d' : DataEngine} {τ : ℕ} {new : List TopicChunk}

/-- The chunks of a topic. -/
def chunks (d : DataEngine) (τ : ℕ) : List TopicChunk :=
  (d.getTopicStorage τ).elim [] (·.sealedChunks)

theorem chunks_of_some {s : TopicStorage} (hs : d.getTopicStorage τ = some s) :
    d.chunks τ = s.sealedChunks := by
  rw [chunks, hs]
  rfl

/-- The chunks by which a topic has grown. -/
def gained (d d' : DataEngine) (τ : ℕ) : List TopicChunk := (d'.chunks τ).drop (d.chunks τ).length

/-- The chunks `new` have come to a topic. -/
def Brings (τ : ℕ) (new : List TopicChunk) (d d' : DataEngine) : Prop :=
  ∀ s, d.getTopicStorage τ = some s →
    ∃ s', d'.getTopicStorage τ = some s' ∧ s'.sealedChunks = s.sealedChunks ++ new

theorem brings_of_eq (h : d'.getTopicStorage τ = d.getTopicStorage τ) : d.Brings τ [] d' :=
  fun s hs ↦ ⟨s, h.trans hs, (List.append_nil _).symm⟩

/-- What has come to a topic that was there. -/
theorem Brings.gained_eq {s : TopicStorage} (h : d.Brings τ new d')
    (hs : d.getTopicStorage τ = some s) : d.gained d' τ = new := by
  obtain ⟨s', hs', hchunks⟩ := h s hs
  rw [gained, chunks_of_some hs, chunks_of_some hs', hchunks, List.drop_left]

theorem Advances.brings (h : d.Advances S P d') (τ : ℕ) :
    ∃ new, d.Brings τ new d' ∧ ∀ chunk ∈ new, chunk ∈ d.gained d' τ ∧ P chunk := by
  rcases hs : d.getTopicStorage τ with _ | s
  · refine ⟨[], fun s hs' ↦ ?_, fun chunk hchunk ↦ absurd hchunk List.not_mem_nil⟩
    cases hs.symm.trans hs'
  · obtain ⟨s', new, hs', hchunks, hnew⟩ := h.grows τ s hs
    have hbrings : d.Brings τ new d' := by
      intro s₁ hs₁
      obtain rfl := Option.some.inj (hs.symm.trans hs₁)
      exact ⟨s', hs', hchunks⟩
    exact ⟨new, hbrings, fun chunk hchunk ↦ ⟨hbrings.gained_eq hs ▸ hchunk, hnew chunk hchunk⟩⟩

theorem Advances.brings_nil (h : d.Advances S (fun _ ↦ False) d') (τ : ℕ) : d.Brings τ [] d' := by
  obtain ⟨new, hbrings, hnew⟩ := h.brings τ
  rwa [List.eq_nil_iff_forall_not_mem.mpr fun chunk hchunk ↦ (hnew chunk hchunk).2] at hbrings

end DataEngine

/-! ## Events -/

namespace DerivedEngine

/-- `derived.onSourceCommitted(engine.commitChunks(batch))`, for batch `k` of those in flight. -/
def commit (S : Setup) (walk : WalkOrder) (d : DerivedEngine) (k : ℕ) : Option DerivedEngine :=
  (d.data.step S walk (.world (.commitChunks 0 k))).map fun data ↦
    ({ d with data := data } : DerivedEngine).onSourceCommitted
      (d.data.engine.changedTopics (d.data.world.inFlight.getD k []))

/-- What happens in a session. -/
inductive Event
  | call (c : Call)
  | commit (k : ℕ)

def happen (S : Setup) (walk : WalkOrder) (d : DerivedEngine) : Event → Option (DerivedEngine × Unit)
  | .call c => (d.step S walk c).map (·, ())
  | .commit k => (d.commit S walk k).map (·, ())

/-- The node as an event adds it. -/
def Event.Adds : Event → NodeOp → Prop
  | .call (.addSisoTransform _ _ _ op), .siso n => n.op = op
  | .call (.addMimoTransform inputs names _ op), .mimo n =>
    op = some n.op ∧ n.inputs.length = inputs.length ∧ n.outputs.length = names.length
  | _, _ => False

/-- The chunks of a topic. -/
def chunks (d : DerivedEngine) (τ : ℕ) : List TopicChunk := d.data.chunks τ

/-- The chunks that the commit of batch `k` puts behind those of a topic. -/
def gained (d : DerivedEngine) (k τ : ℕ) : List TopicChunk :=
  (((d.data.engine.commitChunks (d.data.world.inFlight.getD k [])).topics τ).elim []
    (·.sealedChunks)).drop (d.chunks τ).length

section

variable (Takes : NodeOp → TopicChunk → Prop)

/-- All readers of a topic take the chunk. -/
def Accepts (d : DerivedEngine) (τ : ℕ) (chunk : TopicChunk) : Prop :=
  ∀ id ∈ entry d.topicToNodes τ, ∀ m ∈ d.nodes.lookup id, Takes m.op chunk

/-- The chunks that the commit of batch `k` puts behind those of a topic are not on an output, and the
readers of the topic take them. -/
def BringsAccepted (d : DerivedEngine) (k : ℕ) : Prop :=
  ∀ p ∈ d.data.world.inFlight.getD k [], ∀ chunk ∈ d.gained k p.1,
    p.1 ∉ d.outputTopicToNode ∧ d.Accepts Takes p.1 chunk

/-- Chunks come to the engine by commits only, and stay there, batches do not go back in time, and
what a commit brings is taken. -/
def Delivers (S : Setup) (d : DerivedEngine) : Event → Prop
  | .call (.data c) => c.Spares ∧ d.data.InOrder S c
  | .call _ => True
  | .commit k => d.BringsAccepted Takes k

/-- The readers of the outputs of node `id` take what comes to these. -/
def PassesOn (d : DerivedEngine) (id : ℕ) (d' : DerivedEngine) : Prop :=
  ∀ τ ∈ d.outputTopics id, ∀ chunk ∈ d.data.gained d'.data τ, d.Accepts Takes τ chunk

/-- The same for every node that the scheduler runs. -/
def PassesAlong (walk : WalkOrder) (d : DerivedEngine) (active : List ℕ) : Prop :=
  Loop.Meets (scheduleNode walk fun id ↦ active.isEmpty || decide (id ∈ d.upstreamOf active))
    (fun r id r' ↦ r.engine.PassesOn Takes id r'.engine) d.topologicalOrder ⟨d, []⟩

section

variable [∀ op chunk, Decidable (Takes op chunk)]

instance (d : DerivedEngine) (τ : ℕ) (chunk : TopicChunk) : Decidable (d.Accepts Takes τ chunk) :=
  inferInstanceAs (Decidable (∀ id ∈ entry d.topicToNodes τ, ∀ m ∈ d.nodes.lookup id, _))

instance (d : DerivedEngine) (k : ℕ) : Decidable (d.BringsAccepted Takes k) :=
  inferInstanceAs (Decidable (∀ p ∈ d.data.world.inFlight.getD k [], ∀ chunk ∈ d.gained k p.1,
    p.1 ∉ d.outputTopicToNode ∧ d.Accepts Takes p.1 chunk))

instance (S : Setup) (d : DerivedEngine) (event : Event) : Decidable (d.Delivers Takes S event) :=
  match event with
  | .call (.data c) => inferInstanceAs (Decidable (c.Spares ∧ d.data.InOrder S c))
  | .call (.recomputeBatch _) | .call (.addSisoTransform _ _ _ _)
  | .call (.addMimoTransform _ _ _ _) | .call (.removeNode _) | .call (.onSourceCommitted _)
  | .call (.scheduleActive _) => .isTrue trivial
  | .commit k => inferInstanceAs (Decidable (d.BringsAccepted Takes k))

instance (d : DerivedEngine) (id : ℕ) (d' : DerivedEngine) : Decidable (d.PassesOn Takes id d') :=
  inferInstanceAs (Decidable (∀ τ ∈ d.outputTopics id, ∀ chunk ∈ d.data.gained d'.data τ,
    d.Accepts Takes τ chunk))

instance (walk : WalkOrder) (d : DerivedEngine) (active : List ℕ) :
    Decidable (d.PassesAlong Takes walk active) :=
  inferInstanceAs (Decidable (Loop.Meets _ _ _ _))

end

end

/-- Batches do not go back in time. -/
def InTime (S : Setup) (d : DerivedEngine) : Event → Unit → Prop
  | .call (.data c), _ => d.data.InOrder S c
  | _, _ => True

instance (S : Setup) (d : DerivedEngine) (event : Event) (out : Unit) :
    Decidable (d.InTime S event out) :=
  match event with
  | .call (.data c) => inferInstanceAs (Decidable (d.data.InOrder S c))
  | .call (.recomputeBatch _) | .call (.addSisoTransform _ _ _ _)
  | .call (.addMimoTransform _ _ _ _) | .call (.removeNode _) | .call (.onSourceCommitted _)
  | .call (.scheduleActive _) | .commit _ => .isTrue trivial

end DerivedEngine

/-! ## What can be said of a node -/

namespace NodeOp

/-- A node that has not run. -/
def Unstarted : NodeOp → Prop
  | .siso n => n.lastProcessedChunkId = 0
  | .mimo n => n.lastTs = Int64.minValue

/-- A node before everything. -/
structure Fresh (op : NodeOp) (d : DataEngine) : Prop where
  unstarted : op.Unstarted
  reads : op.inputTopics ≠ []
  inputs : ∀ τ ∈ op.inputTopics, ∃ s, d.getTopicStorage τ = some s
  outputs : ∀ τ ∈ op.outputTopics, ∃ s, d.getTopicStorage τ = some s ∧ s.sealedChunks = []
  nodup : op.outputTopics.Nodup

/-- What can be said of a node, with its flag, when it is new and `Good`, and goes on to be true as long
as it takes the chunks that come to its inputs and its outputs are left alone. -/
structure Carries (Good : NodeOp → Prop) (Takes : NodeOp → TopicChunk → Prop)
    (Q : NodeOp → Bool → DataEngine → Prop) : Prop where
  fresh : ∀ {S op d}, d.Sound S → Good op → op.Fresh d → Q op true d
  more : ∀ {S op dirty dirty' d d'} (new : ℕ → List TopicChunk), Q op dirty d → d.Sound S →
    d'.Sound S → d.world.nextChunkId ≤ d'.world.nextChunkId →
    (∀ τ ∈ op.inputTopics, d.Brings τ (new τ) d' ∧ ∀ chunk ∈ new τ, Takes op chunk) →
    (∀ τ ∈ op.outputTopics, d.Brings τ [] d') →
    (dirty' = false → dirty = false ∧ ∀ τ ∈ op.inputTopics, new τ = []) → Q op dirty' d'

/-- A run of the node keeps it, whatever the flag is then. -/
def KeptByRuns (walk : WalkOrder) (Q : NodeOp → Bool → DataEngine → Prop) : Prop :=
  ∀ ⦃S op op' d d' err dirty⦄, d.Sound S → Q op dirty d → (∀ τ ∈ op.inputTopics, τ ∉ op.outputTopics) →
    op.runIncremental walk d = some (d', op', err) → ∀ dirty', Q op' dirty' d'

variable {S : Setup} {walk : WalkOrder} {Good : NodeOp → Prop} {Takes : NodeOp → TopicChunk → Prop}
  {Q : NodeOp → Bool → DataEngine → Prop} {op op' : NodeOp} {d d' : DataEngine} {dirty dirty' : Bool}
  {err : Option DerivedError}

/-- The same with a property of the transform alone. -/
theorem Carries.and (hQ : Carries Good Takes Q) (P : NodeOp → Prop) :
    Carries (fun op ↦ P op ∧ Good op) Takes fun op dirty d ↦ P op ∧ Q op dirty d where
  fresh hd hgood hfresh := ⟨hgood.1, hQ.fresh hd hgood.2 hfresh⟩
  more new h hd hd' hcounter hin hout hdirty :=
    ⟨h.1, hQ.more new h.2 hd hd' hcounter hin hout hdirty⟩

theorem KeptByRuns.and (hQ : KeptByRuns walk Q) {P : NodeOp → Prop}
    (hP : ∀ {op op' d d' err}, P op → op.runIncremental walk d = some (d', op', err) → P op') :
    KeptByRuns walk fun op dirty d ↦ P op ∧ Q op dirty d :=
  fun _ _ _ _ _ _ _ hd h hapart hrun dirty' ↦ ⟨hP h.1 hrun, hQ hd h.2 hapart hrun dirty'⟩

/-- Nothing comes, and the flag is not taken back. -/
theorem Carries.same (hQ : Carries Good Takes Q) (h : Q op dirty d) (hd : d.Sound S) (hd' : d'.Sound S)
    (hcounter : d.world.nextChunkId ≤ d'.world.nextChunkId) (hsame : ∀ τ, d.Brings τ [] d')
    (hdirty : dirty' = false → dirty = false) : Q op dirty' d' :=
  hQ.more (fun _ ↦ []) h hd hd' hcounter
    (fun τ _ ↦ ⟨hsame τ, fun _ hchunk ↦ absurd hchunk List.not_mem_nil⟩) (fun τ _ ↦ hsame τ)
    fun hclean ↦ ⟨hdirty hclean, fun _ _ ↦ rfl⟩

end NodeOp

/-- The topics without their chunks. -/
def DataEngine.clearAll (d : DataEngine) (topics : List ℕ) : DataEngine :=
  topics.foldl (fun d τ ↦ d.mapTopic τ (·.clearChunks)) d

namespace DataEngine

variable {S : Setup} {d : DataEngine} {topics : List ℕ} {τ σ : ℕ} {s : TopicStorage}

theorem sound_clearAll (topics : List ℕ) (hd : d.Sound S) :
    (d.clearAll topics).Sound S ∧ (d.clearAll topics).world.nextChunkId = d.world.nextChunkId := by
  induction topics generalizing d with
  | nil => exact ⟨hd, rfl⟩
  | cons τ topics ih =>
    exact ih (hd.mapTopic (f := (·.clearChunks)) (fun _ ↦ rfl) fun _ ↦ List.nil_suffix)

/-- A topic that is cleared has no chunks. -/
theorem exists_clearAll (hτ : τ ∈ topics) (hs : d.getTopicStorage τ = some s) :
    ∃ s', (d.clearAll topics).getTopicStorage τ = some s' ∧ s'.sealedChunks = [] := by
  have hself : ∀ {d : DataEngine} {s : TopicStorage}, d.getTopicStorage τ = some s →
      (d.mapTopic τ (·.clearChunks)).getTopicStorage τ = some s.clearChunks := by
    intro d s hs
    rw [getTopicStorage, DataEngine.mapTopic, engine, World.setEngine_self, Engine.mapTopic_self]
    exact congrArg (Option.map _) hs
  -- a topic that is cleared stays so
  have hstays : ∀ (l : List ℕ) (d : DataEngine) (s : TopicStorage), d.getTopicStorage τ = some s →
      s.sealedChunks = [] →
      ∃ s', (d.clearAll l).getTopicStorage τ = some s' ∧ s'.sealedChunks = [] := by
    intro l
    induction l with
    | nil => exact fun d s hs hnil ↦ ⟨s, hs, hnil⟩
    | cons σ l ih =>
      intro d s hs hnil
      by_cases hσ : σ = τ
      · subst hσ
        exact ih _ _ (hself hs) rfl
      · exact ih _ s ((getTopicStorage_mapTopic_of_ne hσ).trans hs) hnil
  induction topics generalizing d s with
  | nil => exact absurd hτ List.not_mem_nil
  | cons σ topics ih =>
    by_cases hσ : σ = τ
    · subst hσ
      exact hstays topics _ _ (hself hs) rfl
    · exact ih ((List.mem_cons.mp hτ).resolve_left (Ne.symm hσ)) ((getTopicStorage_mapTopic_of_ne hσ).trans hs)

end DataEngine

/-! ## What can be said of all nodes -/

namespace DerivedEngine

variable {S : Setup} {walk : WalkOrder} {d d' : DerivedEngine} {data : DataEngine} {id : ℕ}
  {m : DerivedNode} {err : Option DerivedError}

theorem chunks_of_some {τ : ℕ} {s : TopicStorage} (hs : d.data.getTopicStorage τ = some s) :
    d.chunks τ = s.sealedChunks :=
  DataEngine.chunks_of_some hs

theorem topics_of_lookup (hm : d.nodes.lookup id = some m) :
    d.inputTopicsOf id = m.op.inputTopics ∧ d.outputTopics id = m.op.outputTopics := by
  rw [inputTopicsOf, outputTopics, hm]
  exact ⟨rfl, rfl⟩

/-- No node reads its own output. -/
theorem Linked.apart (hd : d.Linked) (hm : d.nodes.lookup id = some m) :
    ∀ τ ∈ m.op.inputTopics, τ ∉ m.op.outputTopics := by
  obtain ⟨hin, hout⟩ := topics_of_lookup hm
  exact fun τ hτ hmem ↦ Nat.lt_irrefl id (hd.forward id id ⟨τ, hout ▸ hmem, hin ▸ hτ⟩)

theorem Linked.mem_consumers (hd : d.Linked) {τ : ℕ} :
    id ∈ entry d.topicToNodes τ ↔ τ ∈ d.inputTopicsOf id := by
  rw [← List.count_pos_iff, hd.consumers, List.count_pos_iff]

/-- A node is among the readers of its inputs. -/
theorem Linked.mem_consumers_input (hd : d.Linked) (hm : d.nodes.lookup id = some m) {τ : ℕ}
    (hτ : τ ∈ m.op.inputTopics) : id ∈ entry d.topicToNodes τ :=
  hd.mem_consumers.mpr ((topics_of_lookup hm).1 ▸ hτ)

/-- A topic is the output of one node. -/
theorem Linked.output_not_mem (hd : d.Linked) {x τ : ℕ} (hm : d.nodes.lookup x = some m)
    (hτ : τ ∈ m.op.outputTopics) (hx : x ≠ id) : τ ∉ d.outputTopics id := by
  intro hmem
  have hproducer := (hd.producer _ x).mpr ((topics_of_lookup hm).2 ▸ hτ)
  exact hx (Option.some.inj (hproducer.symm.trans ((hd.producer _ id).mpr hmem)))

/-- `Q` holds of all nodes. -/
structure AllNodes (Q : NodeOp → Bool → DataEngine → Prop) (S : Setup) (d : DerivedEngine) :
    Prop where
  sound : d.data.Sound S
  node : ∀ id m, d.nodes.lookup id = some m → Q m.op m.dirty d.data

section

variable {Good : NodeOp → Prop} {Takes : NodeOp → TopicChunk → Prop}
  {Q : NodeOp → Bool → DataEngine → Prop}

/-- Topics come, and a node is entered. -/
theorem AllNodes.insert (hQ : NodeOp.Carries Good Takes Q) (hd : d.AllNodes Q S)
    (h : d.data.Advances S (fun _ ↦ False) data) (hm : Q m.op m.dirty data)
    (hdata : d'.data = data) (hnodes : d'.nodes = d.nodes.insert id m) : d'.AllNodes Q S := by
  subst hdata
  refine ⟨h.sound, fun x m' hm' ↦ ?_⟩
  rw [hnodes] at hm'
  by_cases hx : x = id
  · rw [hx, AList.lookup_insert] at hm'
    obtain rfl := Option.some.inj hm'
    exact hm
  · rw [AList.lookup_insert_ne hx] at hm'
    exact hQ.same (hd.node x m' hm') hd.sound h.sound h.counter h.brings_nil fun hclean ↦ hclean

/-- Topics come, and the nodes are the same. -/
theorem AllNodes.advance (hQ : NodeOp.Carries Good Takes Q) (hd : d.AllNodes Q S)
    (h : d.data.Advances S (fun _ ↦ False) d'.data) (hnodes : d'.nodes = d.nodes) :
    d'.AllNodes Q S :=
  ⟨h.sound, fun x m hm ↦ hQ.same (hd.node x m (hnodes ▸ hm)) hd.sound h.sound h.counter h.brings_nil
    fun hclean ↦ hclean⟩

/-- Flags are set. -/
theorem AllNodes.mark (hQ : NodeOp.Carries Good Takes Q) (hd : d.AllNodes Q S) (ids : List ℕ) :
    ({ d with nodes := ids.foldl markDirty d.nodes } : DerivedEngine).AllNodes Q S := by
  refine ⟨hd.sound, fun x m hm ↦ ?_⟩
  dsimp only at hm
  rw [lookup_foldl_markDirty] at hm
  obtain ⟨m, hm₀, rfl⟩ := Option.map_eq_some_iff.mp hm
  refine hQ.same (hd.node x m hm₀) hd.sound hd.sound le_rfl (fun τ ↦ DataEngine.brings_of_eq rfl)
    fun hclean ↦ ?_
  exact (Bool.or_eq_false_iff.mp hclean).1

/-! ### Nodes come and go -/

theorem advances_createOutputs (hd : data.Sound S) (walk : WalkOrder) (datasetId nodeId : ℕ)
    (outputs : List ((String × StorageKind) × ℕ)) :
    data.Advances S (fun _ ↦ False) (createOutputs walk datasetId nodeId data outputs).1 := by
  induction outputs generalizing data with
  | nil => exact .refl hd
  | cons output outputs ih =>
    obtain ⟨⟨name, kind⟩, k⟩ := output
    have hfirst : data.Advances S (fun _ ↦ False) _ := DataEngine.advances_createOutput hd walk
      datasetId name ("derived_mimo_" ++ toString nodeId ++ "_" ++ toString k) kind
    rw [createOutputs]
    split
    · rename_i heq
      rw [heq] at hfirst
      exact hfirst
    · rename_i heq
      rw [heq] at hfirst
      exact hfirst.trans (ih hfirst.sound)

/-- The topic of a new output has no chunks. -/
theorem exists_createOutput {datasetId out : ℕ} {name schemaName : String} {kind : StorageKind}
    {data' : DataEngine} (hbelow : data.Below)
    (h : data.createOutput walk datasetId name schemaName kind = (data', .ok out)) :
    ∃ s, data'.getTopicStorage out = some s ∧ s.sealedChunks = [] := by
  rw [DataEngine.createOutput] at h
  split at h
  · cases (Prod.mk.inj h).2
  · rename_i reg schemaId hreg
    obtain ⟨rfl, -⟩ := Prod.mk.inj hreg
    rw [DataEngine.createTopic] at h
    split_ifs at h
    · cases (Prod.mk.inj h).2
    · obtain ⟨rfl, hout⟩ := Prod.mk.inj h
      obtain rfl := Except.ok.inj hout
      exact ⟨_, (DataEngine.getTopicStorage_addTopic hbelow _ _).trans (if_pos rfl), rfl⟩
    · cases (Prod.mk.inj h).2

/-- The topics of new outputs are different ones without chunks, as many as were asked for. -/
theorem createOutputs_eq_ok {datasetId nodeId : ℕ} {outputs : List ((String × StorageKind) × ℕ)}
    {outs : List ℕ} (hd : data.Sound S) (hbelow : data.Below)
    (h : (createOutputs walk datasetId nodeId data outputs).2 = .ok outs) :
    outs.length = outputs.length ∧ outs.Nodup ∧ ∀ out ∈ outs, ∃ s,
      (createOutputs walk datasetId nodeId data outputs).1.getTopicStorage out = some s ∧
        s.sealedChunks = [] := by
  induction outputs generalizing data outs with
  | nil =>
    obtain rfl := Except.ok.inj h
    exact ⟨rfl, .nil, fun out hout ↦ absurd hout List.not_mem_nil⟩
  | cons output outputs ih =>
    obtain ⟨⟨name, kind⟩, k⟩ := output
    have hfirst : data.Advances S (fun _ ↦ False) _ := DataEngine.advances_createOutput hd walk
      datasetId name ("derived_mimo_" ++ toString nodeId ++ "_" ++ toString k) kind
    have hextends := data.extends_createOutput walk datasetId name
      ("derived_mimo_" ++ toString nodeId ++ "_" ++ toString k) kind
    rw [createOutputs] at h ⊢
    split at h
    · cases h
    · rename_i data₁ out heq
      rw [heq] at hfirst hextends
      dsimp only at hfirst hextends h ⊢
      obtain ⟨s, hs, hempty⟩ := exists_createOutput hbelow heq
      obtain ⟨rfl, hnext⟩ := DataEngine.createOutput_eq_ok heq
      rcases hrest : (createOutputs walk datasetId nodeId data₁ outputs).2 with e | rest
      · rw [hrest] at h
        cases h
      · rw [hrest] at h
        obtain rfl := Except.ok.inj h
        obtain ⟨hlength, hnodup, hall⟩ := ih hfirst.sound (hextends.below hbelow) hrest
        have hadvances := advances_createOutputs hfirst.sound walk datasetId nodeId outputs
        refine ⟨by rw [List.length_cons, List.length_cons, hlength], ?_, ?_⟩
        · refine List.nodup_cons.mpr ⟨fun hmem ↦ ?_, hnodup⟩
          -- the others were created later
          have hle := ((createOutputs_spec walk datasetId nodeId outputs data₁).2 rest hrest _ hmem).1
          omega
        · refine List.forall_mem_cons.mpr ⟨?_, hall⟩
          obtain ⟨s', hs', hchunks⟩ := hadvances.brings_nil _ s hs
          exact ⟨s', hs', by rw [hchunks, hempty, List.nil_append]⟩

theorem allNodes_addSisoTransform (hQ : NodeOp.Carries Good Takes Q) (hd : d.AllNodes Q S)
    (hlinked : d.Linked) {op : SisoTransform} (hgood : ∀ n : SisoNode, n.op = op → Good (.siso n))
    (τ : ℕ) (name : String) (datasetId : ℕ) :
    (d.addSisoTransform walk τ name datasetId op).1.AllNodes Q S := by
  rw [addSisoTransform]
  split
  · exact hd
  · rename_i kinds hcheck
    have hadvances : d.data.Advances S (fun _ ↦ False) _ :=
      DataEngine.advances_createOutput hd.sound walk datasetId name
        ("derived_siso_" ++ name ++ "_" ++ toString d.nextNodeId) kinds.2
    split
    · rename_i data e heq
      rw [heq] at hadvances
      exact hd.advance hQ hadvances rfl
    · rename_i data out heq
      rw [heq] at hadvances
      refine hd.insert hQ hadvances (m := { id := d.nextNodeId, op := .siso _ }) ?_ rfl rfl
      obtain ⟨s, hs⟩ := checkSiso_eq_ok hcheck
      obtain ⟨s', hs', -⟩ := hadvances.brings_nil τ s hs
      obtain ⟨o, ho, hempty⟩ := exists_createOutput hlinked.below heq
      refine hQ.fresh hadvances.sound (hgood _ rfl)
        ⟨rfl, List.cons_ne_nil _ _, ?_, ?_, List.nodup_singleton _⟩
      · exact List.forall_mem_singleton.mpr ⟨s', hs'⟩
      · exact List.forall_mem_singleton.mpr ⟨o, ho, hempty⟩

theorem allNodes_addMimoTransform (hQ : NodeOp.Carries Good Takes Q) (hd : d.AllNodes Q S)
    (hlinked : d.Linked) {inputs : List ℕ} {names : List String} {op : Option MimoTransform}
    (hgood : ∀ n : MimoNode, op = some n.op → n.inputs.length = inputs.length →
      n.outputs.length = names.length → Good (.mimo n)) (datasetId : ℕ) :
    (d.addMimoTransform walk inputs names datasetId op).1.AllNodes Q S := by
  rw [addMimoTransform]
  split
  · exact hd
  · rename_i op' inKinds outKinds hcheck
    have hadvances : d.data.Advances S (fun _ ↦ False) _ :=
      advances_createOutputs hd.sound walk datasetId d.nextNodeId (names.zip outKinds).zipIdx
    split
    · rename_i heq
      rw [heq] at hadvances
      exact hd.advance hQ hadvances rfl
    · rename_i data outs heq
      rw [heq] at hadvances
      refine hd.insert hQ hadvances (m := { id := d.nextNodeId, op := .mimo _ }) ?_ rfl rfl
      obtain ⟨hlength, hnodup, hempty⟩ := createOutputs_eq_ok hd.sound hlinked.below
        (congrArg Prod.snd heq)
      rw [heq] at hempty
      obtain ⟨-, hin, rfl, hne⟩ := checkMimo_kinds hcheck
      obtain ⟨-, hout, -⟩ := checkMimo_names hcheck
      dsimp only at hin hout
      rw [List.length_zipIdx, List.length_zip, hout, min_self] at hlength
      have hinputs : (inputs.zip inKinds).map Prod.fst = inputs := List.map_fst_zip hin.ge
      have houtputs : (outs.zip outKinds).map Prod.fst = outs :=
        List.map_fst_zip (hlength.trans hout.symm).le
      refine hQ.fresh hadvances.sound (hgood _ rfl ?_ ?_) ⟨rfl, ?_, ?_, ?_, ?_⟩
      · rw [List.length_zip, hin, min_self]
      · rw [List.length_zip, hlength, hout, min_self]
      · rw [NodeOp.inputTopics, hinputs]
        exact hne
      · rw [NodeOp.inputTopics, hinputs]
        intro τ hτ
        obtain ⟨s, hs⟩ := checkMimo_eq_ok hcheck τ hτ
        exact (hadvances.brings_nil τ s hs).imp fun _ hs' ↦ hs'.1
      · rw [NodeOp.outputTopics, houtputs]
        exact hempty
      · rw [NodeOp.outputTopics, houtputs]
        exact hnodup

theorem allNodes_removeNode (hd : d.AllNodes Q S) (id : ℕ) : (d.removeNode id).1.AllNodes Q S := by
  rw [removeNode]
  split
  · exact hd
  · refine ⟨hd.sound, fun x m hm ↦ hd.node x m ?_⟩
    by_cases hx : x = id
    · rw [hx] at hm
      dsimp only at hm
      rw [AList.lookup_erase] at hm
      cases hm
    · rwa [← AList.lookup_erase_ne hx]

/-! ### Recomputation -/

/-- What a recomputation does to a node that is there. -/
theorem recomputeBatch_eq_some (hlinked : d.Linked) (hm : d.nodes.lookup id = some m)
    (h : d.recomputeBatch walk id = some (d', err)) : ∃ op dirty,
      m.op.reset.runIncremental walk (d.data.clearAll m.op.outputTopics) = some (d'.data, op, err) ∧
        d'.nodes = d.nodes.insert id { m with op := op, dirty := dirty } := by
  obtain rfl := hlinked.id_eq id m hm
  rw [recomputeBatch, hm] at h
  obtain ⟨⟨data, op, out⟩, hrun, heq⟩ := Option.map_eq_some_iff.mp h
  rcases out with _ | e
  all_goals
    obtain ⟨rfl, rfl⟩ := Prod.mk.inj heq
    exact ⟨op, _, hrun, rfl⟩

/-- A node is recomputed. Its readers find their topics filled anew. -/
theorem allNodes_recomputeBatch (hQ : NodeOp.Carries Good Takes Q) (hd : d.AllNodes Q S)
    (hlinked : d.Linked) (h : d.recomputeBatch walk id = some (d', err))
    (hself : ∀ m op, d.nodes.lookup id = some m →
      m.op.reset.runIncremental walk (d.data.clearAll m.op.outputTopics) = some (d'.data, op, err) →
      ∀ dirty, Q op dirty d'.data)
    (hreader : ∀ x m, d.nodes.lookup x = some m →
      (∃ τ ∈ m.op.inputTopics, τ ∈ d.outputTopics id) →
      d.data.world.nextChunkId ≤ d'.data.world.nextChunkId →
      (∀ τ ∈ m.op.inputTopics, τ ∈ d.outputTopics id → ∀ s, d.data.getTopicStorage τ = some s →
        ∃ s', d'.data.getTopicStorage τ = some s' ∧
          ∀ chunk ∈ s'.sealedChunks, d.data.world.nextChunkId ≤ chunk.id) →
      (∀ τ ∈ m.op.outputTopics, d.data.Brings τ [] d'.data) → Q m.op m.dirty d'.data) :
    d'.AllNodes Q S := by
  rcases hm : d.nodes.lookup id with _ | m
  · rw [recomputeBatch, hm] at h
    obtain ⟨rfl, -⟩ := Prod.mk.inj (Option.some.inj h)
    exact hd
  obtain ⟨op, dirty, hrun, hnodes⟩ := recomputeBatch_eq_some hlinked hm h
  have houts := (topics_of_lookup hm).2
  obtain ⟨hsound, hcounter⟩ := DataEngine.sound_clearAll m.op.outputTopics hd.sound
  have hadvances := NodeOp.runIncremental_advances hsound hrun
  have hkept : ∀ τ ∉ d.outputTopics id, d.data.Brings τ [] d'.data := by
    intro τ hτ
    rw [houts] at hτ
    exact DataEngine.brings_of_eq
      (((NodeOp.runIncremental_frame hrun).1.world.topic τ (m.op.reset_wiring.2 ▸ hτ)).trans
        ((touches_clearChunks m.op.outputTopics d.data).world.topic τ hτ))
  have hgrows : d.data.world.nextChunkId ≤ d'.data.world.nextChunkId := by
    rw [← hcounter]
    exact hadvances.counter
  refine ⟨hadvances.sound, fun x m' hm' ↦ ?_⟩
  rw [hnodes] at hm'
  by_cases hx : x = id
  · rw [hx, AList.lookup_insert] at hm'
    obtain rfl := Option.some.inj hm'
    exact hself m op hm hrun dirty
  · rw [AList.lookup_insert_ne hx] at hm'
    have hout : ∀ τ ∈ m'.op.outputTopics, d.data.Brings τ [] d'.data := fun τ hτ ↦
      hkept τ (hlinked.output_not_mem hm' hτ hx)
    by_cases hreads : ∃ τ ∈ m'.op.inputTopics, τ ∈ d.outputTopics id
    · refine hreader x m' hm' hreads hgrows (fun τ _ hτ s hs ↦ ?_) hout
      obtain ⟨s₀, hs₀, hnil⟩ := DataEngine.exists_clearAll (houts ▸ hτ) hs
      obtain ⟨s', new, hs', hchunks, hnew⟩ := hadvances.grows _ s₀ hs₀
      rw [hnil, List.nil_append] at hchunks
      refine ⟨s', hs', fun chunk hchunk ↦ ?_⟩
      have hlate := (hnew chunk (hchunks ▸ hchunk)).2
      rwa [hcounter] at hlate
    · refine hQ.more (fun _ ↦ []) (hd.node x m' hm') hd.sound hadvances.sound hgrows
        (fun τ hτ ↦ ⟨hkept τ fun hmem ↦ hreads ⟨τ, hτ, hmem⟩, ?_⟩) hout
        fun hclean ↦ ⟨hclean, fun _ _ ↦ rfl⟩
      exact fun _ hchunk ↦ absurd hchunk List.not_mem_nil

/-! ### Commits -/

theorem commit_eq_some {k : ℕ} (h : d.commit S walk k = some d') :
    ∃ data, d.data.step S walk (.world (.commitChunks 0 k)) = some data ∧
      data.engine = d.data.engine.commitChunks (d.data.world.inFlight.getD k []) ∧
      data.world.nextChunkId = d.data.world.nextChunkId ∧
      d' = { d with
        data := data
        nodes := ((d.data.engine.changedTopics (d.data.world.inFlight.getD k [])).flatMap
          (entry d.topicToNodes)).foldl markDirty d.nodes } := by
  obtain ⟨data, hstep, rfl⟩ := Option.map_eq_some_iff.mp h
  have hengine : (d.data.world.setEngine 0 (d.data.engine.commitChunks
      (d.data.world.inFlight.getD k []))).engines 0
        = d.data.engine.commitChunks (d.data.world.inFlight.getD k []) := World.setEngine_self
  obtain rfl := Option.some.inj hstep
  exact ⟨_, hstep, hengine, rfl, rfl⟩

/-- What a commit brings to a topic is taken by its readers, and nothing comes to an output. -/
theorem brings_commit {k : ℕ} (hnew : d.BringsAccepted Takes k)
    (hengine : data.engine = d.data.engine.commitChunks (d.data.world.inFlight.getD k [])) (τ : ℕ) :
    ∃ new, d.data.Brings τ new data ∧
      (∀ chunk ∈ new, τ ∉ d.outputTopicToNode ∧ d.Accepts Takes τ chunk) ∧
      (new ≠ [] → τ ∈ d.data.engine.changedTopics (d.data.world.inFlight.getD k [])) := by
  rcases hs : d.data.getTopicStorage τ with _ | s
  · refine ⟨[], fun s hs' ↦ ?_, fun chunk hchunk ↦ absurd hchunk List.not_mem_nil,
      fun hne ↦ absurd rfl hne⟩
    cases hs.symm.trans hs'
  obtain ⟨s', new, hs', hchunks, hbatch⟩ := Engine.exists_commitChunks
    (d.data.world.inFlight.getD k []) hs
  have hgained : d.gained k τ = new := by
    rw [gained, hs', chunks_of_some hs, Option.elim_some, hchunks, List.drop_left]
  refine ⟨new, fun s₁ hs₁ ↦ ⟨s', ?_, ?_⟩, fun chunk hchunk ↦ ?_, fun hne ↦ ?_⟩
  · rw [DataEngine.getTopicStorage, hengine]
    exact hs'
  · obtain rfl := Option.some.inj (hs.symm.trans hs₁)
    exact hchunks
  · exact hnew _ (hbatch chunk hchunk) chunk (hgained ▸ hchunk)
  · refine Engine.mem_changedTopics.mpr ⟨s, s', hs, hs', ?_⟩
    rw [hchunks, List.length_append]
    exact Nat.lt_add_of_pos_right (List.length_pos_of_ne_nil hne)

theorem allNodes_commit {k : ℕ} (hQ : NodeOp.Carries Good Takes Q) (hd : d.AllNodes Q S)
    (hlinked : d.Linked) (hnew : d.BringsAccepted Takes k) (h : d.commit S walk k = some d') :
    d'.AllNodes Q S := by
  obtain ⟨data, hstep, hengine, hcounter, rfl⟩ := commit_eq_some h
  have hsound : data.Sound S := (DataEngine.sound_step hd.sound hstep fun _ _ _ ↦ trivial).1
  refine ⟨hsound, fun x m hm ↦ ?_⟩
  dsimp only at hm ⊢
  rw [lookup_foldl_markDirty] at hm
  obtain ⟨m, hm₀, rfl⟩ := Option.map_eq_some_iff.mp hm
  choose new hbrings haccepted hgains using brings_commit hnew hengine
  refine hQ.more new (hd.node x m hm₀) hd.sound hsound hcounter.ge (fun τ hτ ↦ ?_)
    (fun τ hτ ↦ ?_) fun hclean ↦ ?_
  · exact ⟨hbrings τ, fun chunk hchunk ↦
      (haccepted τ chunk hchunk).2 x (hlinked.mem_consumers_input hm₀ hτ) m hm₀⟩
  · have hproducer := (hlinked.producer τ x).mpr ((topics_of_lookup hm₀).2 ▸ hτ)
    have hnil : new τ = [] := List.eq_nil_iff_forall_not_mem.mpr fun chunk hchunk ↦
      (haccepted τ chunk hchunk).1 (AList.lookup_isSome.mp (by rw [hproducer]; rfl))
    exact hnil ▸ hbrings τ
  · obtain ⟨hwas, hnot⟩ := Bool.or_eq_false_iff.mp hclean
    refine ⟨hwas, fun τ hτ ↦ by_contra fun hne ↦ ?_⟩
    -- a chunk that has come has marked the node
    exact of_decide_eq_false hnot
      (List.mem_flatMap.mpr ⟨τ, hgains τ hne, hlinked.mem_consumers_input hm₀ hτ⟩)

/-! ### Nodes run -/

/-- A node runs, and what comes to its outputs its consumers take and are told of. -/
theorem AllNodes.ran (hQ : NodeOp.Carries Good Takes Q) (hruns : NodeOp.KeptByRuns walk Q)
    (hd : d.AllNodes Q S) (hlinked : d.Linked) (hm : d.nodes.lookup id = some m) {op : NodeOp}
    (hrun : m.op.runIncremental walk d.data = some (d'.data, op, err))
    (htakes : d.PassesOn Takes id d')
    (hself : ∀ m', d'.nodes.lookup id = some m' → m'.op = op)
    (hother : ∀ x m', x ≠ id → d'.nodes.lookup x = some m' → ∃ m, d.nodes.lookup x = some m ∧
      m'.op = m.op ∧ (m'.dirty = false → m.dirty = false ∧ (err = none → ¬d.Feeds id x))) :
    d'.AllNodes Q S := by
  have hadvances := NodeOp.runIncremental_advances hd.sound hrun
  have houts := (topics_of_lookup hm).2
  have hkept : ∀ τ, τ ∉ d.outputTopics id → d.data.Brings τ [] d'.data := fun τ hτ ↦
    DataEngine.brings_of_eq ((NodeOp.runIncremental_frame hrun).1.world.topic τ (houts ▸ hτ))
  have hbrings : ∀ τ, ∃ new, d.data.Brings τ new d'.data ∧
      (∀ chunk ∈ new, τ ∈ d.outputTopics id ∧ chunk ∈ d.data.gained d'.data τ) ∧
      (err ≠ none ∨ τ ∉ d.outputTopics id → new = []) := by
    intro τ
    by_cases hτ : τ ∈ d.outputTopics id
    · obtain ⟨new, hnew, hall⟩ := hadvances.brings τ
      refine ⟨new, hnew, fun chunk hchunk ↦ ⟨hτ, (hall chunk hchunk).1⟩, fun hwhy ↦ ?_⟩
      -- a run that fails commits nothing
      exact List.eq_nil_iff_forall_not_mem.mpr fun chunk hchunk ↦
        hwhy.elim (· (hall chunk hchunk).2.1) (· hτ)
    · exact ⟨[], hkept τ hτ, fun chunk hchunk ↦ absurd hchunk List.not_mem_nil, fun _ ↦ rfl⟩
  choose new hnew hgained hnil using hbrings
  refine ⟨hadvances.sound, fun x m' hm' ↦ ?_⟩
  by_cases hx : x = id
  · subst hx
    rw [hself m' hm']
    exact hruns hd.sound (hd.node x m hm) (hlinked.apart hm) hrun m'.dirty
  · obtain ⟨m₀, hm₀, hsame, hdirty⟩ := hother x m' hx hm'
    rw [hsame]
    refine hQ.more new (hd.node x m₀ hm₀) hd.sound hadvances.sound hadvances.counter
      (fun τ hτ ↦ ⟨hnew τ, fun chunk hchunk ↦ ?_⟩) (fun τ hτ ↦ ?_) fun hclean ↦ ?_
    · obtain ⟨hout, hmem⟩ := hgained τ chunk hchunk
      exact htakes τ hout chunk hmem x (hlinked.mem_consumers_input hm₀ hτ) m₀ hm₀
    · exact hkept τ (hlinked.output_not_mem hm₀ hτ hx)
    · refine ⟨(hdirty hclean).1, fun τ hτ ↦ hnil τ ?_⟩
      by_cases herr : err = none
      · refine .inr fun hout ↦ (hdirty hclean).2 herr ⟨τ, hout, ?_⟩
        exact (topics_of_lookup hm₀).1 ▸ hτ
      · exact .inl herr

/-- A round of the scheduler. -/
theorem AllNodes.round {considered : ℕ → Bool} {r r' : Schedule} (hQ : NodeOp.Carries Good Takes Q)
    (hruns : NodeOp.KeptByRuns walk Q) (hr : r.engine.AllNodes Q S) (hlinked : r.engine.Linked)
    (htakes : r.engine.PassesOn Takes id r'.engine)
    (h : scheduleNode walk considered r id = some (r', err)) : r'.engine.AllNodes Q S := by
  rcases scheduleNode_cases h with
    _ | _ | ⟨m, data, op, e, -, hm, -, hrun⟩ | ⟨m, data, op, -, hm, -, hrun⟩
  · exact hr
  · exact hr
  · obtain rfl := hlinked.id_eq id m hm
    refine hr.ran hQ hruns hlinked hm hrun htakes (fun m' hm' ↦ ?_) fun x m' hx hm' ↦ ?_
    all_goals
      rw [DerivedEngine.afterFailure] at hm'
      dsimp only at hm'
    · rw [AList.lookup_insert] at hm'
      obtain rfl := Option.some.inj hm'
      rfl
    · rw [AList.lookup_insert_ne hx] at hm'
      exact ⟨m', hm', rfl, fun hclean ↦ ⟨hclean, fun herr ↦ by cases herr⟩⟩
  · obtain rfl := hlinked.id_eq id m hm
    refine hr.ran hQ hruns hlinked hm hrun htakes (fun m' hm' ↦ ?_) fun x m' hx hm' ↦ ?_
    all_goals
      rw [DerivedEngine.afterRun] at hm'
      dsimp only at hm'
      rw [lookup_foldl_markDirty] at hm'
      obtain ⟨m₀, hm₀, rfl⟩ := Option.map_eq_some_iff.mp hm'
    · rw [AList.lookup_insert] at hm₀
      obtain rfl := Option.some.inj hm₀
      rfl
    · rw [AList.lookup_insert_ne hx] at hm₀
      refine ⟨m₀, hm₀, rfl, fun hclean ↦ ?_⟩
      obtain ⟨hwas, hnot⟩ := Bool.or_eq_false_iff.mp hclean
      exact ⟨hwas, fun _ hfeeds ↦ of_decide_eq_false hnot ((hlinked.mem_downstream _ x).mpr hfeeds)⟩

/-- Rounds leave the graph as it is. -/
theorem allNodes_round {considered : ℕ → Bool} {r r' : Schedule} (hQ : NodeOp.Carries Good Takes Q)
    (hruns : NodeOp.KeptByRuns walk Q) (hlinked : d.Linked)
    (hr : KeepsGraph d r.engine ∧ r.engine.AllNodes Q S)
    (htakes : r.engine.PassesOn Takes id r'.engine)
    (h : scheduleNode walk considered r id = some (r', err)) :
    KeepsGraph d r'.engine ∧ r'.engine.AllNodes Q S := by
  obtain ⟨hgraph, hall⟩ := hr
  have hlinked' : r.engine.Linked := hlinked.congr hgraph.1 hgraph.2
  obtain ⟨hgraph', hdata⟩ := keepsGraph_round hlinked' h
  exact ⟨⟨hgraph.1.trans hgraph', hgraph.2.trans hdata⟩, hall.round hQ hruns hlinked' htakes h⟩

/-- A run of the scheduler whose nodes pass on what their readers take. -/
theorem allNodes_schedule {considered : ℕ → Bool} {order : List ℕ} {r r' : Schedule}
    (hQ : NodeOp.Carries Good Takes Q) (hruns : NodeOp.KeptByRuns walk Q) (hlinked : d.Linked)
    (hmeets : Loop.Meets (scheduleNode walk considered)
      (fun r id r' ↦ r.engine.PassesOn Takes id r'.engine) order r)
    (h : Loop.run (scheduleNode walk considered) order r = some (r', err))
    (hr : KeepsGraph d r.engine ∧ r.engine.AllNodes Q S) :
    KeepsGraph d r'.engine ∧ r'.engine.AllNodes Q S := by
  refine Loop.run_induction_of_meets (I := fun r ↦ KeepsGraph d r.engine ∧ r.engine.AllNodes Q S) ?_
    hmeets h hr
  exact fun _ _ _ _ hround htakes hr ↦ allNodes_round hQ hruns hlinked hr htakes hround

/-- A round fails because the run of a node does. -/
theorem exists_of_round_failed {considered : ℕ → Bool} {r r' : Schedule} {e : DerivedError}
    (h : scheduleNode walk considered r id = some (r', some e)) : ∃ m data op,
      r.engine.nodes.lookup id = some m ∧
        m.op.runIncremental walk r.engine.data = some (data, op, some e) := by
  rcases scheduleNode_cases h with _ | _ | ⟨m, data, op, _, -, hm, -, hrun⟩
  exact ⟨m, data, op, hm, hrun⟩

/-- It goes through if the runs of the nodes do. -/
theorem schedule_ok {considered : ℕ → Bool} {order : List ℕ} {r r' : Schedule}
    (hQ : NodeOp.Carries Good Takes Q) (hruns : NodeOp.KeptByRuns walk Q)
    (hok : ∀ ⦃op op' data data' err dirty⦄, data.Sound S → Q op dirty data →
      (∀ τ ∈ op.inputTopics, τ ∉ op.outputTopics) →
      op.runIncremental walk data = some (data', op', err) → err = none)
    (hlinked : d.Linked)
    (hmeets : Loop.Meets (scheduleNode walk considered)
      (fun r id r' ↦ r.engine.PassesOn Takes id r'.engine) order r)
    (h : Loop.run (scheduleNode walk considered) order r = some (r', err))
    (hr : KeepsGraph d r.engine ∧ r.engine.AllNodes Q S) : err = none := by
  rcases err with _ | e
  · rfl
  have hkeeps : ∀ id r r', scheduleNode walk considered r id = some (r', none) →
      r.engine.PassesOn Takes id r'.engine → KeepsGraph d r.engine ∧ r.engine.AllNodes Q S →
      KeepsGraph d r'.engine ∧ r'.engine.AllNodes Q S := fun _ _ _ hround htakes hr ↦
    allNodes_round hQ hruns hlinked hr htakes hround
  obtain ⟨id, t, ⟨hgraph, hall⟩, hround⟩ := Loop.exists_of_run_eq_error hkeeps hmeets h hr
  obtain ⟨m, data, op, hm, hrun⟩ := exists_of_round_failed hround
  cases hok hall.sound (hall.node id m hm) ((hlinked.congr hgraph.1 hgraph.2).apart hm) hrun

/-! ### Events -/

theorem linked_happen {event : Event} {out : Unit} (hd : d.Linked)
    (h : d.happen S walk event = some (d', out)) : d'.Linked := by
  rcases event with c | k
  · obtain ⟨d₁, hstep, heq⟩ := Option.map_eq_some_iff.mp h
    obtain ⟨rfl, -⟩ := Prod.mk.inj heq
    exact linked_step hd hstep
  · rw [happen] at h
    obtain ⟨d₁, hcommit, heq⟩ := Option.map_eq_some_iff.mp h
    obtain ⟨rfl, -⟩ := Prod.mk.inj heq
    obtain ⟨data, hstep, -, -, rfl⟩ := commit_eq_some hcommit
    have hlinked : ({ d with data := data } : DerivedEngine).Linked :=
      linked_step (c := .data (.world (.commitChunks 0 k))) hd (by rw [step, hstep, Option.map_some])
    exact hlinked.congr (sameGraph_foldl_markDirty _) (.refl data)

/-- What holds of all nodes, an event keeps, if runs and recomputations of nodes do. -/
theorem allNodes_happen (hQ : NodeOp.Carries Good Takes Q) {event : Event} {out : Unit}
    (hlinked : d.Linked) (hd : d.AllNodes Q S) (h : d.happen S walk event = some (d', out))
    (hdelivers : d.Delivers Takes S event) (hgood : ∀ op, event.Adds op → Good op)
    (hrun : ∀ active r err, event = .call (.scheduleActive active) →
      d.scheduleActive walk active = some (r, err) → r.engine.AllNodes Q S)
    (hrecompute : ∀ id d' err, event = .call (.recomputeBatch id) →
      d.recomputeBatch walk id = some (d', err) → d'.AllNodes Q S) : d'.AllNodes Q S := by
  rcases event with c | k
  · obtain ⟨d₁, hstep, heq⟩ := Option.map_eq_some_iff.mp h
    obtain ⟨rfl, -⟩ := Prod.mk.inj heq
    rcases c with c | ⟨τ, name, datasetId, op⟩ | ⟨inputs, names, datasetId, op⟩ | id | changed |
      active | id
    · obtain ⟨data, hdata, rfl⟩ := Option.map_eq_some_iff.mp hstep
      exact hd.advance hQ (DataEngine.advances_step hd.sound hdata hdelivers.2 hdelivers.1) rfl
    · obtain rfl := Option.some.inj hstep
      exact allNodes_addSisoTransform hQ hd hlinked (fun n hn ↦ hgood (.siso n) hn) τ name datasetId
    · obtain rfl := Option.some.inj hstep
      exact allNodes_addMimoTransform hQ hd hlinked
        (fun n hop hin hout ↦ hgood (.mimo n) ⟨hop, hin, hout⟩) datasetId
    · obtain rfl := Option.some.inj hstep
      exact allNodes_removeNode hd id
    · obtain rfl := Option.some.inj hstep
      exact hd.mark hQ _
    · obtain ⟨⟨r, err⟩, hrun', rfl⟩ := Option.map_eq_some_iff.mp hstep
      exact hrun active r err rfl hrun'
    · obtain ⟨⟨d₂, err⟩, hrun', rfl⟩ := Option.map_eq_some_iff.mp hstep
      exact hrecompute id d₂ err rfl hrun'
  · rw [happen] at h
    obtain ⟨d₁, hcommit, heq⟩ := Option.map_eq_some_iff.mp h
    obtain ⟨rfl, -⟩ := Prod.mk.inj heq
    exact allNodes_commit hQ hd hlinked hdelivers hcommit

end

/-! ### What holds at all times -/

theorem sound_addSisoTransform (hd : d.data.Sound S) (τ : ℕ) (name : String) (datasetId : ℕ)
    (op : SisoTransform) : (d.addSisoTransform walk τ name datasetId op).1.data.Sound S := by
  rw [addSisoTransform]
  split
  · exact hd
  · rename_i kinds _
    have hadvances : d.data.Advances S (fun _ ↦ False) _ :=
      DataEngine.advances_createOutput hd walk datasetId name
        ("derived_siso_" ++ name ++ "_" ++ toString d.nextNodeId) kinds.2
    split
    all_goals
      rename_i heq
      rw [heq] at hadvances
      exact hadvances.sound

theorem sound_addMimoTransform (hd : d.data.Sound S) (inputs : List ℕ) (names : List String)
    (datasetId : ℕ) (op : Option MimoTransform) :
    (d.addMimoTransform walk inputs names datasetId op).1.data.Sound S := by
  rw [addMimoTransform]
  split
  · exact hd
  · rename_i op' inKinds outKinds _
    have hadvances : d.data.Advances S (fun _ ↦ False) _ :=
      advances_createOutputs hd walk datasetId d.nextNodeId (names.zip outKinds).zipIdx
    split
    all_goals
      rename_i heq
      rw [heq] at hadvances
      exact hadvances.sound

theorem sound_schedule {considered : ℕ → Bool} {order : List ℕ} {r r' : Schedule}
    (hr : r.engine.data.Sound S)
    (h : Loop.run (scheduleNode walk considered) order r = some (r', err)) :
    r'.engine.data.Sound S := by
  refine Loop.run_induction (I := fun r ↦ r.engine.data.Sound S) ?_ h hr
  intro id _ r r' err hround hr
  rcases scheduleNode_cases hround with
    _ | _ | ⟨n, data, op, e, -, -, -, hrun⟩ | ⟨n, data, op, -, -, -, hrun⟩
  · exact hr
  · exact hr
  · exact (NodeOp.runIncremental_advances hr hrun).sound
  · exact (NodeOp.runIncremental_advances hr hrun).sound

theorem sound_recomputeBatch (hd : d.data.Sound S) (h : d.recomputeBatch walk id = some (d', err)) :
    d'.data.Sound S := by
  rw [recomputeBatch] at h
  split at h
  · obtain ⟨rfl, -⟩ := Prod.mk.inj (Option.some.inj h)
    exact hd
  · rename_i m _
    obtain ⟨⟨data, op, out⟩, hrun, heq⟩ := Option.map_eq_some_iff.mp h
    have hsound := (NodeOp.runIncremental_advances (DataEngine.sound_clearAll m.outputTopics hd).1 hrun).sound
    rcases out with _ | e
    all_goals
      obtain ⟨rfl, -⟩ := Prod.mk.inj heq
      exact hsound

/-- An event keeps the order and the numbering, whatever the transforms answer. -/
theorem sound_happen {event : Event} {out : Unit} (hd : d.data.Sound S)
    (h : d.happen S walk event = some (d', out)) (htime : d.InTime S event out) :
    d'.data.Sound S := by
  rcases event with c | k
  · obtain ⟨d₁, hstep, heq⟩ := Option.map_eq_some_iff.mp h
    obtain ⟨rfl, -⟩ := Prod.mk.inj heq
    rcases c with c | ⟨τ, name, datasetId, op⟩ | ⟨inputs, names, datasetId, op⟩ | id | changed |
      active | id
    · obtain ⟨data, hdata, rfl⟩ := Option.map_eq_some_iff.mp hstep
      exact (DataEngine.sound_step hd hdata htime).1
    · obtain rfl := Option.some.inj hstep
      exact sound_addSisoTransform hd τ name datasetId op
    · obtain rfl := Option.some.inj hstep
      exact sound_addMimoTransform hd inputs names datasetId op
    · obtain rfl := Option.some.inj hstep
      rw [removeNode]
      split
      · exact hd
      · exact hd
    · obtain rfl := Option.some.inj hstep
      exact hd
    · obtain ⟨⟨r, err⟩, hrun, rfl⟩ := Option.map_eq_some_iff.mp hstep
      exact sound_schedule hd hrun
    · obtain ⟨⟨d₂, err⟩, hrun, rfl⟩ := Option.map_eq_some_iff.mp hstep
      exact sound_recomputeBatch hd hrun
  · rw [happen] at h
    obtain ⟨d₁, hcommit, heq⟩ := Option.map_eq_some_iff.mp h
    obtain ⟨rfl, -⟩ := Prod.mk.inj heq
    obtain ⟨data, hstep, -, -, rfl⟩ := commit_eq_some hcommit
    exact (DataEngine.sound_step hd hstep fun _ _ _ ↦ trivial).1

end DerivedEngine

/-! ## Whole sessions -/

namespace World

/-- A new engine `0` in a world with nothing in it. -/
theorem Initial.setEngine_create {S : Setup} {W : World} (hW : W.Initial S) :
    (W.setEngine 0 (.create [])).Initial S := by
  have hnone : ∀ τ s, (Engine.create []).topics τ ≠ some s := by
    intro τ s hs
    obtain ⟨d, hd, -⟩ := Engine.create_topics hs
    cases hd
  have hall : ∀ {P : TopicStorage → Prop}, (∀ e, (W.engines e).All P) →
      ∀ e, ((W.setEngine 0 (.create [])).engines e).All P := by
    intro P hP e
    by_cases he : e = 0
    · subst he
      rw [setEngine_self]
      exact fun τ s hs ↦ absurd hs (hnone τ s)
    · rw [setEngine_of_ne he]
      exact hP e
  refine ⟨hall hW.chunks, hall hW.layout, hW.builder, hW.pending, fun w τ ↦ ?_, hW.inFlight⟩
  rcases hW.columns w τ with hnil | hsame
  · exact .inl hnil
  · refine .inr fun s hs ↦ ?_
    by_cases he : S.home w = 0
    · rw [he, setEngine_self] at hs
      exact absurd hs (hnone τ s)
    · rw [setEngine_of_ne he] at hs
      exact hsame s hs

end World

theorem DataEngine.sound_start {S : Setup} {W : World} (hinit : W.Initial S)
    (hpos : 1 ≤ W.nextChunkId) : (DerivedEngine.start W).data.Sound S := by
  have hstart := hinit.setEngine_create
  refine ⟨hstart.fits, fun w τ hb ↦ absurd (hinit.builder w τ) hb, hstart.ordered,
    hstart.numbered hpos⟩

namespace DerivedEngine

variable {S : Setup} {walk : WalkOrder} {W : World} {events : List Event} {d : DerivedEngine}

theorem run_sound (hinit : W.Initial S) (hpos : 1 ≤ W.nextChunkId)
    (hmeets : Runs.Meets (happen S walk) (InTime S) (start W) events)
    (h : Runs.run (happen S walk) (start W) events = some d) : d.data.Sound S := by
  refine Runs.run_induction (I := fun d ↦ d.data.Sound S) ?_ hmeets h
    (DataEngine.sound_start hinit hpos)
  intro d event d' out hd hstep htime
  exact sound_happen hd hstep htime

/-- Whatever the transforms answer and however the calls, commits and runs of nodes follow each
other, every topic of the engine, outputs of nodes among them, is in time order, and its chunks have
ids that the counter has handed out. -/
theorem run_chunksInOrder (hinit : W.Initial S) (hpos : 1 ≤ W.nextChunkId)
    (hmeets : Runs.Meets (happen S walk) (InTime S) (start W) events)
    (h : Runs.run (happen S walk) (start W) events = some d) (τ : ℕ) (s : TopicStorage)
    (hs : d.data.getTopicStorage τ = some s) :
    ChunksInOrder s.sealedChunks ∧
      ∀ chunk ∈ s.sealedChunks, 1 ≤ chunk.id ∧ chunk.id < d.data.world.nextChunkId := by
  have hd := run_sound hinit hpos hmeets h
  exact ⟨hd.chunksInOrder hs, hd.id_lt hs⟩

/-- Gives every sample back at the opposite time. -/
def mirrored : SisoTransform where
  State := Unit
  state := ()
  reset _ := ()
  outputKind kind := kind
  calculate _ t v _ := ((), true, -t, v)

/-- A row with one value. -/
def valueRow (t : Timestamp) (x : Binary64) : List Event :=
  [.call (.data (.world (.topic 1 1 (.beginRow t)))),
    .call (.data (.world (.topic 1 1 (.set 0 (.float64 x))))),
    .call (.data (.world (.topic 1 1 .finishRow)))]

def oneRow (t : Timestamp) : List Event := valueRow t .zero

/-- A row, a commit and a run, twice. -/
def mirroredRows : List Event :=
  oneSeries.map .call ++ [.call (.addSisoTransform 1 "mirrored" 1 mirrored)] ++
    [3, 5].flatMap fun t ↦ oneRow t ++
      [.call (.data (.world (.flush 1 1))), .commit 0, .call (.scheduleActive [])]

/-- The second answer comes before the first, and its chunk is refused. -/
theorem run_chunksInOrder_mirroredRows : ∃ d s,
    Runs.run (happen oneEngine .plain) (start (.start fun _ ↦ [])) mirroredRows = some d ∧
      d.data.getTopicStorage 2 = some s ∧ s.sealedChunks.map (·.timestamps) = [[-3]] ∧
      ChunksInOrder s.sealedChunks ∧
        ∀ chunk ∈ s.sealedChunks, 1 ≤ chunk.id ∧ chunk.id < d.data.world.nextChunkId := by
  have htimes : ((Runs.run (happen oneEngine .plain) (start (.start fun _ ↦ [])) mirroredRows).bind
      fun d ↦ (d.data.getTopicStorage 2).map fun s ↦ s.sealedChunks.map (·.timestamps))
        = some [[-3]] := by
    decide +kernel
  obtain ⟨d, hd, hs⟩ := Option.bind_eq_some_iff.mp htimes
  obtain ⟨s, hs, htimes⟩ := Option.map_eq_some_iff.mp hs
  exact ⟨d, s, hd, hs, htimes, run_chunksInOrder (World.start_initial _) (by decide)
    (by decide +kernel) hd 2 s hs⟩

end DerivedEngine

end PlotJuggler
