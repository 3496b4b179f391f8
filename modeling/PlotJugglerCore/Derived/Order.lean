import PlotJugglerCore.Derived.Graph

/-!
# The order of the derived graph

The loop of `topologicalOrder` counts edges over the whole of `downstreamOf` and gives no sign when it
leaves nodes out. In a graph whose maps are in step (`Linked`) the counts are the true ones, since
every list belongs to a live node and names live nodes only, so the loop takes every node and none
before its producers.

Scheduling, recomputation and commits change transforms and flags and leave the graph alone, so all
of this holds in every state a run of calls can reach.
-/

namespace PlotJuggler

open Relation

namespace DerivedEngine

variable {d d' : DerivedEngine}

/-! ## Kahn's loop on the maps -/

theorem Linked.liveDownstream_eq (hd : d.Linked) (p : ℕ) :
    d.liveDownstream p = entry d.downstreamOf p := by
  rw [liveDownstream, List.filter_eq_self]
  intro c hc
  obtain ⟨τ, -, hin⟩ := (hd.mem_downstream p c).mp hc
  exact decide_eq_true (mem_nodes_of_inputTopicsOf hin)

theorem inDegree_eq_sum_keys (id : ℕ) :
    d.inDegree id = (d.downstreamOf.keys.map fun p ↦ (entry d.downstreamOf p).count id).sum := by
  rw [inDegree, AList.keys, List.keys, List.map_map]
  refine congrArg List.sum (List.map_congr_left fun p hp ↦ ?_)
  have hlookup : d.downstreamOf.lookup p.1 = some p.2 := AList.mem_lookup_iff.mpr hp
  rw [Function.comp_apply, entry, hlookup, Option.getD_some]

/-- The counts the loop starts with. -/
theorem Linked.inDegree_eq (hd : d.Linked) (id : ℕ) :
    d.inDegree id = Kahn.inDegree d.liveDownstream d.nodes.keys id := by
  have hsub : d.downstreamOf.keys.toFinset ⊆ d.nodes.keys.toFinset := fun p hp ↦
    List.mem_toFinset.mpr (hd.downstream_live p (List.mem_toFinset.mp hp))
  rw [inDegree_eq_sum_keys, Kahn.inDegree, ← List.sum_toFinset _ d.downstreamOf.keys_nodup,
    ← List.sum_toFinset _ d.nodes.keys_nodup]
  simp only [hd.liveDownstream_eq]
  refine Finset.sum_subset hsub fun p _ hp ↦ ?_
  have hnone : p ∉ d.downstreamOf := fun hmem ↦ hp (List.mem_toFinset.mpr hmem)
  rw [entry, AList.lookup_eq_none.mpr hnone]
  rfl

theorem Linked.kahn_invariant (hd : d.Linked) :
    Kahn.Invariant d.liveDownstream d.nodes.keys
      ((d.nodes.keys.filter (d.inDegree · = 0)).insertionSort (· ≤ ·)) fun id ↦ d.inDegree id where
  nodup := d.nodes.keys_nodup
  nodup_queue := (List.perm_insertionSort _ _).nodup_iff.mpr (d.nodes.keys_nodup.filter _)
  deg_eq id _ := by rw [hd.inDegree_eq]
  mem_queue id := by
    rw [(List.perm_insertionSort _ _).mem_iff, List.mem_filter, decide_eq_true_eq, Nat.cast_eq_zero]
  closed p _ c hc := by
    rw [hd.liveDownstream_eq] at hc
    obtain ⟨τ, -, hin⟩ := (hd.mem_downstream p c).mp hc
    exact mem_nodes_of_inputTopicsOf hin

theorem Linked.topologicalOrder_spec (hd : d.Linked) :
    d.topologicalOrder.Perm d.nodes.keys ∧
      d.topologicalOrder.Pairwise fun a b ↦ a ∉ d.liveDownstream b := by
  refine Kahn.order_spec (fun l ↦ List.perm_insertionSort _ l) id ?_ hd.kahn_invariant
    (Nat.le_refl _)
  intro p c hc
  rw [hd.liveDownstream_eq] at hc
  exact hd.forward p c ((hd.mem_downstream p c).mp hc)

theorem Linked.mem_topologicalOrder (hd : d.Linked) {id : ℕ} :
    id ∈ d.topologicalOrder ↔ id ∈ d.nodes := hd.topologicalOrder_spec.1.mem_iff

theorem Linked.nodup_topologicalOrder (hd : d.Linked) : d.topologicalOrder.Nodup :=
  hd.topologicalOrder_spec.1.nodup_iff.mpr d.nodes.keys_nodup

theorem Linked.sublist_topologicalOrder (hd : d.Linked) {p c : ℕ} (h : d.Feeds p c) :
    [p, c].Sublist d.topologicalOrder := by
  obtain ⟨τ, hout, hin⟩ := h
  refine Kahn.sublist_of_mem_succ hd.topologicalOrder_spec.2
    (hd.mem_topologicalOrder.mpr (mem_nodes_of_outputTopics hout))
    (hd.mem_topologicalOrder.mpr (mem_nodes_of_inputTopicsOf hin))
    (hd.forward p c ⟨τ, hout, hin⟩).ne ?_
  rw [hd.liveDownstream_eq]
  exact (hd.mem_downstream p c).mpr ⟨τ, hout, hin⟩

theorem Linked.sublist_topologicalOrder_of_transGen (hd : d.Linked) {p c : ℕ}
    (h : TransGen d.Feeds p c) : [p, c].Sublist d.topologicalOrder := by
  induction h with
  | single h => exact hd.sublist_topologicalOrder h
  | tail _ h ih =>
    exact Kahn.pair_sublist_trans hd.nodup_topologicalOrder ih (hd.sublist_topologicalOrder h)

theorem Linked.acyclic (hd : d.Linked) (id : ℕ) : ¬TransGen d.Feeds id id := by
  have hlt : ∀ a b, TransGen d.Feeds a b → a < b := by
    intro a b h
    induction h with
    | single h => exact hd.forward _ _ h
    | tail _ h ih => exact ih.trans (hd.forward _ _ h)
  exact fun h ↦ Nat.lt_irrefl id (hlt id id h)

/-! ## Nodes that stay in place -/

theorem SameGraph.refl (d : DerivedEngine) : SameGraph d d :=
  ⟨Nat.le_refl _, rfl, rfl, rfl, fun _ ↦ rfl⟩

theorem SameGraph.trans {d'' : DerivedEngine} (h : SameGraph d d') (h' : SameGraph d' d'') :
    SameGraph d d'' where
  nextNodeId := h.nextNodeId.trans h'.nextNodeId
  downstreamOf := h'.downstreamOf.trans h.downstreamOf
  topicToNodes := h'.topicToNodes.trans h.topicToNodes
  outputTopicToNode := h'.outputTopicToNode.trans h.outputTopicToNode
  nodes id := (h'.nodes id).trans (h.nodes id)

theorem lookup_markDirty (nodes : AList fun _ : ℕ ↦ DerivedNode) (id x : ℕ) :
    (markDirty nodes id).lookup x =
      (nodes.lookup x).map fun n ↦ { n with dirty := n.dirty || decide (x = id) } := by
  rw [markDirty]
  by_cases hx : x = id
  · subst hx
    rcases hn : nodes.lookup x with _ | n
    · simpa using hn
    · simp
  · have hsame : ∀ m : AList fun _ : ℕ ↦ DerivedNode,
        (m.lookup x).map (fun n ↦ { n with dirty := n.dirty || decide (x = id) }) = m.lookup x := by
      intro m
      rcases m.lookup x with _ | n
      · rfl
      · simp [hx]
    rw [hsame]
    split
    · exact AList.lookup_insert_ne hx
    · rfl

/-- A whole list of nodes is marked. -/
theorem lookup_foldl_markDirty (ids : List ℕ) (nodes : AList fun _ : ℕ ↦ DerivedNode) (x : ℕ) :
    (ids.foldl markDirty nodes).lookup x =
      (nodes.lookup x).map fun n ↦ { n with dirty := n.dirty || decide (x ∈ ids) } := by
  induction ids generalizing nodes with
  | nil =>
    rcases hn : nodes.lookup x with _ | n
    · simpa using hn
    · simpa using hn
  | cons id ids ih =>
    rw [List.foldl_cons, ih, lookup_markDirty, Option.map_map]
    refine congrArg (Option.map · _) (funext fun n ↦ ?_)
    simp [Bool.or_assoc]

theorem sameGraph_foldl_markDirty (ids : List ℕ) :
    SameGraph d { d with nodes := ids.foldl markDirty d.nodes } := by
  refine ⟨Nat.le_refl _, rfl, rfl, rfl, fun id ↦ ?_⟩
  dsimp only
  rw [lookup_foldl_markDirty, Option.map_map]
  rfl

/-- A node is put back with the wiring it had. -/
theorem sameGraph_insert {n n' : DerivedNode} {data : DataEngine}
    (hn : d.nodes.lookup n.id = some n) (hid : n'.id = n.id)
    (hin : n'.inputTopics = n.inputTopics) (hout : n'.outputTopics = n.outputTopics) :
    SameGraph d { d with data := data, nodes := d.nodes.insert n.id n' } := by
  refine ⟨Nat.le_refl _, rfl, rfl, rfl, fun id ↦ ?_⟩
  by_cases heq : id = n.id
  · subst heq
    dsimp only
    rw [AList.lookup_insert, hn, Option.map_some, Option.map_some, hid, hin, hout]
  · dsimp only
    rw [AList.lookup_insert_ne heq]

/-! ## Calls that run nodes -/

variable {walk : WalkOrder}

/-- The data engine after a node ran, and the graph with the node put back. -/
theorem run_keeps {n : DerivedNode} {op op' : NodeOp} {data data' : DataEngine}
    {err : Option DerivedError} (hn : d.nodes.lookup n.id = some n)
    (hin : op.inputTopics = n.inputTopics) (hout : op.outputTopics = n.outputTopics)
    (hrun : op.runIncremental walk data = some (data', op', err)) (dirty : Bool) :
    data.Touches n.outputTopics data' ∧ SameGraph d
      { d with data := data', nodes := d.nodes.insert n.id { n with op := op', dirty := dirty } } := by
  obtain ⟨htouch, hin', hout'⟩ := NodeOp.runIncremental_frame hrun
  exact ⟨hout ▸ htouch, sameGraph_insert hn rfl (hin'.trans hin) (hout'.trans hout)⟩

/-- What one round of the scheduler does. -/
inductive Round (walk : WalkOrder) (considered : ℕ → Bool) (r : Schedule) (id : ℕ) :
    Schedule → Option DerivedError → Prop
  | skipped (h : considered id = false) : Round walk considered r id r none
  | clean (n : DerivedNode) (hn : r.engine.nodes.lookup id = some n) (h : n.dirty = false) :
    Round walk considered r id r none
  | failed (n : DerivedNode) (data : DataEngine) (op : NodeOp) (e : DerivedError)
    (hconsidered : considered id = true) (hn : r.engine.nodes.lookup id = some n)
    (h : n.dirty = true) (hrun : n.op.runIncremental walk r.engine.data = some (data, op, some e)) :
    Round walk considered r id ⟨r.engine.afterFailure data n op, r.ran ++ [id]⟩ (some e)
  | ran (n : DerivedNode) (data : DataEngine) (op : NodeOp) (hconsidered : considered id = true)
    (hn : r.engine.nodes.lookup id = some n) (h : n.dirty = true)
    (hrun : n.op.runIncremental walk r.engine.data = some (data, op, none)) :
    Round walk considered r id ⟨r.engine.afterRun data n op, r.ran ++ [id]⟩ none

theorem scheduleNode_cases {considered : ℕ → Bool} {r r' : Schedule} {id : ℕ}
    {err : Option DerivedError} (h : scheduleNode walk considered r id = some (r', err)) :
    Round walk considered r id r' err := by
  rw [scheduleNode] at h
  split at h
  · rename_i hconsidered
    obtain ⟨n, hn, hrest⟩ := Option.bind_eq_some_iff.mp h
    split at hrest
    · rename_i hdirty
      obtain ⟨⟨data, op, out⟩, hrun, heq⟩ := Option.map_eq_some_iff.mp hrest
      match out with
      | some e =>
        obtain ⟨rfl, rfl⟩ := Prod.mk.inj heq
        exact .failed n data op e hconsidered hn hdirty hrun
      | none =>
        obtain ⟨rfl, rfl⟩ := Prod.mk.inj heq
        exact .ran n data op hconsidered hn hdirty hrun
    · rename_i hdirty
      obtain ⟨rfl, rfl⟩ := Prod.mk.inj (Option.some.inj hrest)
      exact .clean n hn (Bool.eq_false_iff.mpr hdirty)
  · rename_i hconsidered
    obtain ⟨rfl, rfl⟩ := Prod.mk.inj (Option.some.inj h)
    exact .skipped (Bool.eq_false_iff.mpr hconsidered)

/-- Same graph, and a data engine with no fewer topics. -/
def KeepsGraph (d d' : DerivedEngine) : Prop := SameGraph d d' ∧ d.data.Extends d'.data

theorem keepsGraph_afterRun {n : DerivedNode} {op : NodeOp} {data : DataEngine}
    {err : Option DerivedError} (hn : d.nodes.lookup n.id = some n)
    (hrun : n.op.runIncremental walk d.data = some (data, op, err)) :
    KeepsGraph d (d.afterRun data n op) := by
  obtain ⟨htouch, hgraph⟩ := run_keeps hn rfl rfl hrun false
  exact ⟨hgraph.trans (sameGraph_foldl_markDirty _), htouch.extends⟩

theorem keepsGraph_afterFailure {n : DerivedNode} {op op' : NodeOp} {data data' : DataEngine}
    {err : Option DerivedError} (hn : d.nodes.lookup n.id = some n)
    (hin : op.inputTopics = n.inputTopics) (hout : op.outputTopics = n.outputTopics)
    (hdata : d.data.Extends data) (hrun : op.runIncremental walk data = some (data', op', err)) :
    KeepsGraph d (d.afterFailure data' n op') := by
  obtain ⟨htouch, hgraph⟩ := run_keeps hn hin hout hrun n.dirty
  exact ⟨hgraph, hdata.trans htouch.extends⟩

theorem keepsGraph_round {considered : ℕ → Bool} {r r' : Schedule} {id : ℕ}
    {err : Option DerivedError} (hr : r.engine.Linked)
    (h : scheduleNode walk considered r id = some (r', err)) : KeepsGraph r.engine r'.engine := by
  have hid : ∀ n, r.engine.nodes.lookup id = some n → r.engine.nodes.lookup n.id = some n :=
    fun n hn ↦ by rwa [hr.id_eq id n hn]
  cases scheduleNode_cases h with
  | skipped _ => exact ⟨.refl _, .refl _⟩
  | clean _ _ _ => exact ⟨.refl _, .refl _⟩
  | failed n data op e _ hn _ hrun => exact keepsGraph_afterFailure (hid n hn) rfl rfl (.refl _) hrun
  | ran n data op _ hn _ hrun => exact keepsGraph_afterRun (hid n hn) hrun

theorem keepsGraph_schedule {considered : ℕ → Bool} {order : List ℕ} {r r' : Schedule}
    {err : Option DerivedError} (hd : d.Linked) (hr : KeepsGraph d r.engine)
    (h : Loop.run (scheduleNode walk considered) order r = some (r', err)) :
    KeepsGraph d r'.engine := by
  refine Loop.run_induction (I := fun r ↦ KeepsGraph d r.engine) ?_ h hr
  intro id _ r r' err hround hr
  obtain ⟨hgraph, hdata⟩ := keepsGraph_round (hd.congr hr.1 hr.2) hround
  exact ⟨hr.1.trans hgraph, hr.2.trans hdata⟩

theorem touches_clearChunks (topics : List ℕ) (data : DataEngine) :
    data.Touches topics (topics.foldl (fun data τ ↦ data.mapTopic τ (·.clearChunks)) data) := by
  suffices h : ∀ (l : List ℕ) (data' : DataEngine), l ⊆ topics → data.Touches topics data' →
      data.Touches topics (l.foldl (fun data τ ↦ data.mapTopic τ (·.clearChunks)) data') from
    h topics data (fun _ hτ ↦ hτ) (.refl topics data)
  intro l
  induction l with
  | nil => exact fun _ _ h ↦ h
  | cons τ l ih =>
    intro data' hl h
    exact ih _ (fun σ hσ ↦ hl (List.mem_cons_of_mem τ hσ)) (h.mapTopic (hl List.mem_cons_self))

theorem keepsGraph_recomputeBatch {id : ℕ} {err : Option DerivedError} (hd : d.Linked)
    (h : d.recomputeBatch walk id = some (d', err)) : KeepsGraph d d' := by
  rw [recomputeBatch] at h
  split at h
  · obtain ⟨rfl, -⟩ := Prod.mk.inj (Option.some.inj h)
    exact ⟨.refl d, .refl d.data⟩
  · rename_i n hn
    obtain rfl : n.id = id := hd.id_eq id n hn
    obtain ⟨⟨data, op, out⟩, hrun, heq⟩ := Option.map_eq_some_iff.mp h
    obtain ⟨hin, hout⟩ := n.op.reset_wiring
    have hclear := (touches_clearChunks n.outputTopics d.data).extends
    match out with
    | some e =>
      obtain ⟨rfl, -⟩ := Prod.mk.inj heq
      exact keepsGraph_afterFailure hn hin hout hclear hrun
    | none =>
      obtain ⟨rfl, -⟩ := Prod.mk.inj heq
      obtain ⟨htouch, hgraph⟩ := run_keeps hn hin hout hrun false
      exact ⟨hgraph, hclear.trans htouch.extends⟩

/-! ## Runs -/

variable {S : Setup}

theorem linked_step {c : Call} (hd : d.Linked) (h : d.step S walk c = some d') : d'.Linked := by
  match c with
  | .data c =>
    obtain ⟨data, hstep, rfl⟩ := Option.map_eq_some_iff.mp h
    exact hd.congr ⟨Nat.le_refl _, rfl, rfl, rfl, fun _ ↦ rfl⟩ (DataEngine.extends_step hstep)
  | .addSisoTransform τ name datasetId op =>
    obtain rfl := Option.some.inj h
    exact linked_addSisoTransform hd walk τ name datasetId op
  | .addMimoTransform inputs names datasetId op =>
    obtain rfl := Option.some.inj h
    exact linked_addMimoTransform hd walk inputs names datasetId op
  | .removeNode id =>
    obtain rfl := Option.some.inj h
    exact linked_removeNode hd id
  | .onSourceCommitted changed =>
    obtain rfl := Option.some.inj h
    exact hd.congr (sameGraph_foldl_markDirty _) (.refl d.data)
  | .scheduleActive active =>
    obtain ⟨⟨r, err⟩, hrun, rfl⟩ := Option.map_eq_some_iff.mp h
    obtain ⟨hgraph, hdata⟩ := keepsGraph_schedule hd ⟨.refl d, .refl d.data⟩ hrun
    exact hd.congr hgraph hdata
  | .recomputeBatch id =>
    obtain ⟨⟨d₁, err⟩, hrun, rfl⟩ := Option.map_eq_some_iff.mp h
    obtain ⟨hgraph, hdata⟩ := keepsGraph_recomputeBatch hd hrun
    exact hd.congr hgraph hdata

theorem linked_start (W : World) : (start W).Linked where
  below τ hτ := by
    rw [start, DataEngine.engine, World.setEngine_self] at hτ
    exact absurd hτ List.not_mem_nil
  id_eq _ _ hn := nomatch hn
  id_lt _ hid := nomatch hid
  input_lt _ _ hτ := nomatch hτ
  output_lt _ _ hτ := nomatch hτ
  forward _ _ h := nomatch h
  producer _ _ := ⟨(nomatch ·), (nomatch ·)⟩
  consumers _ _ := rfl
  downstream_nodup _ := List.nodup_nil
  mem_downstream _ _ := ⟨(nomatch ·), (nomatch ·)⟩
  downstream_live _ hp := nomatch hp

theorem linked_run {calls : List Call} (hd : d.Linked) (h : d.run S walk calls = some d') :
    d'.Linked := by
  induction calls generalizing d with
  | nil =>
    obtain rfl := Option.some.inj h
    exact hd
  | cons c calls ih =>
    obtain ⟨d₁, hstep, hrest⟩ := Option.bind_eq_some_iff.mp h
    exact ih (linked_step hd hstep) hrest

/-! ## The graph of every reachable state -/

/-- The maps agree with the live nodes, there is no cycle, and the order is topological. -/
structure GraphSound (d : DerivedEngine) : Prop where
  downstream_nodup : ∀ p ∈ d.nodes, (entry d.downstreamOf p).Nodup
  mem_downstream : ∀ p ∈ d.nodes, ∀ c, c ∈ entry d.downstreamOf p ↔ d.Feeds p c
  count_topicToNodes : ∀ τ id, (entry d.topicToNodes τ).count id = (d.inputTopicsOf id).count τ
  outputTopicToNode : ∀ τ id, d.outputTopicToNode.lookup τ = some id ↔ τ ∈ d.outputTopics id
  acyclic : ∀ id, ¬TransGen d.Feeds id id
  order_perm : d.topologicalOrder.Perm d.nodes.keys
  producers_first : ∀ p c, d.Feeds p c → [p, c].Sublist d.topologicalOrder

theorem run_graphSound {W : World} {calls : List Call}
    (h : (start W).run S walk calls = some d) : d.GraphSound := by
  have hd : d.Linked := linked_run (linked_start W) h
  exact ⟨fun p _ ↦ hd.downstream_nodup p, fun p _ c ↦ hd.mem_downstream p c, hd.consumers,
    hd.producer, hd.acyclic, hd.topologicalOrder_spec.1, fun _ _ ↦ hd.sublist_topologicalOrder⟩

/-! ### A diamond that loses a producer -/

/-- Gives every sample back. -/
def passThrough : SisoTransform where
  State := Unit
  state := ()
  reset _ := ()
  outputKind kind := kind
  calculate _ t v _ := ((), true, t, v)

/-- Gives the first of its inputs back. -/
def firstInput : MimoTransform where
  State := Unit
  state := ()
  reset _ := ()
  outputKinds kinds := kinds.take 1
  calculate _ t vs _ := ((), true, t, vs.take 1)

/-- All writers belong to engine `0`, and the other engines know no schemas. -/
def oneEngine : Setup := ⟨fun _ ↦ 0, fun _ _ ↦ none⟩

/-- A series on topic `1`. -/
def oneSeries : List Call :=
  [.data (.createDataset true), .data (.createTopic 1 { name := "speed" }),
    .data (.world (.topic 1 1 (.ensureColumn "value" .float64)))]

/-- Node `2` joins the series with the output of node `1`, which goes and comes back as node `3`. -/
def diamond : List Call :=
  oneSeries ++ [.addSisoTransform 1 "copy" 1 passThrough,
    .addMimoTransform [1, 2, 1] ["joined"] 1 (some firstInput), .removeNode 1,
    .addSisoTransform 1 "copy" 1 passThrough]

theorem run_graphSound_diamond : ∃ d : DerivedEngine,
    (start (.start fun _ ↦ [])).run oneEngine .plain diamond = some d ∧ d.GraphSound := by
  have hsome : ((start (.start fun _ ↦ [])).run oneEngine .plain diamond).isSome = true := by
    decide +kernel
  obtain ⟨d, hd⟩ := Option.isSome_iff_exists.mp hsome
  exact ⟨d, hd, run_graphSound hd⟩

/-- Without node `1` nothing holds the other two together. -/
example : ((start (.start fun _ ↦ [])).run oneEngine .plain diamond).map topologicalOrder =
    some [2, 3] := by
  decide +kernel

end DerivedEngine

end PlotJuggler
