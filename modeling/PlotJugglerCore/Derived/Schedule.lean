import PlotJugglerCore.Derived.Order

/-!
# What a scheduling run touches

`scheduleActive` walks the topological order and runs what is dirty among the nodes it considers. The
nodes to consider come from a search up `outputTopicToNode`, dirt spreads down `downstreamOf`, and the
two describe the same edges. A node is reached after all its producers, so when it is reached its flag
is what it was before, or set by a producer that ran; and once it has run, nothing behind it can make
it dirty again. `Progress` is this for the part of the order that has been walked.

The header says that only the given nodes and what lies upstream of them run. The empty set is the
exception: it means all nodes.
-/

namespace PlotJuggler

open Relation

namespace DerivedEngine

variable {d d' : DerivedEngine} {walk : WalkOrder}

def isDirty (d : DerivedEngine) (id : ℕ) : Bool := (d.nodes.lookup id).any (·.dirty)

/-- A live node of the set, or one that such a node depends on. -/
def Upstream (d : DerivedEngine) (active : List ℕ) (id : ℕ) : Prop :=
  ∃ s ∈ active, s ∈ d.nodes ∧ ReflTransGen d.Feeds id s

instance (d : DerivedEngine) (p c : ℕ) : Decidable (d.Feeds p c) :=
  inferInstanceAs (Decidable (∃ τ ∈ d.outputTopics p, τ ∈ d.inputTopicsOf c))

/-! ## The search upstream -/

theorem Linked.mem_producersOf (hd : d.Linked) {p c : ℕ} : p ∈ d.producersOf c ↔ d.Feeds p c := by
  rw [producersOf, List.mem_filterMap, Feeds]
  constructor
  · rintro ⟨τ, hin, hprod⟩
    exact ⟨τ, (hd.producer τ p).mp hprod, hin⟩
  · rintro ⟨τ, hout, hin⟩
    exact ⟨τ, hin, (hd.producer τ p).mpr hout⟩

theorem Linked.mem_upstreamOf (hd : d.Linked) {active : List ℕ} {id : ℕ} :
    id ∈ d.upstreamOf active ↔ d.Upstream active id := by
  have hnext : ∀ c ∈ d.nodes.keys, d.producersOf c ⊆ d.nodes.keys := by
    intro c _ p hp
    obtain ⟨τ, hout, -⟩ := hd.mem_producersOf.mp hp
    exact mem_nodes_of_outputTopics hout
  have hseeds : active.filter (· ∈ d.nodes) ⊆ d.nodes.keys := by
    intro s hs
    have hlive : s ∈ d.nodes := by simpa using (List.mem_filter.mp hs).2
    exact hlive
  have hswap : ∀ s, ReflTransGen (fun a b ↦ b ∈ d.producersOf a) s id ↔
      ReflTransGen d.Feeds id s := by
    intro s
    rw [← reflTransGen_swap]
    refine iff_of_eq (congrArg (fun r ↦ ReflTransGen r id s) ?_)
    funext a b
    exact propext hd.mem_producersOf
  rw [upstreamOf, Explore.mem_closure hnext hseeds, Upstream]
  simp only [List.mem_filter, decide_eq_true_eq, hswap, and_assoc]

/-! ## The walk along the order -/

/-- The run `r` that started at `d`, with the nodes `done` behind it. -/
structure Progress (d : DerivedEngine) (considered : ℕ → Bool) (done : List ℕ) (r : Schedule) :
    Prop where
  graph : SameGraph d r.engine
  data : d.data.Touches (r.ran.flatMap d.outputTopics) r.engine.data
  sublist : r.ran.Sublist done
  mem_ran : ∀ id ∈ done, id ∈ r.ran ↔
    considered id = true ∧ (d.isDirty id = true ∨ ∃ p ∈ r.ran, d.Feeds p id)
  kept : ∀ id ∉ r.ran, r.engine.nodes.lookup id = (d.nodes.lookup id).map fun n ↦
    { n with dirty := n.dirty || decide (∃ p ∈ r.ran, d.Feeds p id) }
  clean : ∀ id ∈ r.ran, r.engine.isDirty id = false

namespace Progress

variable {considered : ℕ → Bool} {done todo : List ℕ} {r r' : Schedule} {id : ℕ}

theorem start : Progress d considered [] ⟨d, []⟩ where
  graph := .refl d
  data := .refl _ d.data
  sublist := List.Sublist.refl []
  mem_ran _ hid := absurd hid List.not_mem_nil
  kept id _ := by
    rcases hn : d.nodes.lookup id with _ | n
    · rfl
    · simp
  clean _ hid := absurd hid List.not_mem_nil

/-- The flag of a node that has not run. -/
theorem isDirty_iff (h : Progress d considered done r) (hid : id ∉ r.ran) :
    r.engine.isDirty id = true ↔ id ∈ d.nodes ∧
      (d.isDirty id = true ∨ ∃ p ∈ r.ran, d.Feeds p id) := by
  rw [isDirty, h.kept id hid, isDirty, ← AList.lookup_isSome]
  rcases d.nodes.lookup id with _ | n
  · simp
  · simp

/-- A node that is passed over: it is not considered, or not dirty. -/
theorem pass (h : Progress d considered done r) (hid : id ∉ done)
    (hnot : ¬(considered id = true ∧ (d.isDirty id = true ∨ ∃ p ∈ r.ran, d.Feeds p id))) :
    Progress d considered (done ++ [id]) r where
  graph := h.graph
  data := h.data
  sublist := h.sublist.trans (List.sublist_append_left done [id])
  mem_ran x hx := by
    rcases List.mem_append.mp hx with hx | hx
    · exact h.mem_ran x hx
    · rw [List.mem_singleton.mp hx]
      exact ⟨fun hran ↦ absurd (h.sublist.subset hran) hid, fun hc ↦ absurd hc hnot⟩
  kept := h.kept
  clean := h.clean

theorem outputTopics_eq (h : Progress d considered done r) {n : DerivedNode}
    (hn : r.engine.nodes.lookup id = some n) : n.outputTopics = d.outputTopics id := by
  rw [← h.graph.outputTopics, outputTopics, hn]
  rfl

/-- The nodes behind a run, in terms of those before it. -/
theorem lookup_afterRun (hd : d.Linked) (h : Progress d considered done r) {n : DerivedNode}
    {data : DataEngine} {op : NodeOp} (hid : n.id = id) (x : ℕ) :
    (r.engine.afterRun data n op).nodes.lookup x =
      ((r.engine.nodes.insert id { n with op := op, dirty := false }).lookup x).map fun m ↦
        { m with dirty := m.dirty || decide (d.Feeds id x) } := by
  subst hid
  rw [afterRun]
  dsimp only
  rw [lookup_foldl_markDirty, h.graph.downstreamOf]
  refine congrArg (Option.map · _) (funext fun m ↦ ?_)
  simp only [hd.mem_downstream]

theorem ran_cons (hd : d.Linked) (h : Progress d considered done r)
    (hfresh : id ∉ done) (hlate : ∀ x ∈ done ++ [id], ¬d.Feeds id x) {n : DerivedNode}
    {data : DataEngine} {op : NodeOp} (hconsidered : considered id = true)
    (hn : r.engine.nodes.lookup id = some n) (hdirty : n.dirty = true)
    (hrun : n.op.runIncremental walk r.engine.data = some (data, op, none)) :
    Progress d considered (done ++ [id]) ⟨r.engine.afterRun data n op, r.ran ++ [id]⟩ := by
  have hlinked : r.engine.Linked := hd.congr h.graph h.data.extends
  obtain rfl : n.id = id := hlinked.id_eq id n hn
  have hnotran : n.id ∉ r.ran := fun hran ↦ hfresh (h.sublist.subset hran)
  have hself : ¬d.Feeds n.id n.id := hlate n.id (List.mem_append_right done List.mem_cons_self)
  have hfeeds : ∀ x, (∃ p ∈ r.ran ++ [n.id], d.Feeds p x) ↔
      (∃ p ∈ r.ran, d.Feeds p x) ∨ d.Feeds n.id x := by
    intro x
    simp only [List.mem_append, List.mem_singleton, or_and_right, exists_or, exists_eq_left]
  refine ⟨h.graph.trans (keepsGraph_afterRun hn hrun).1, ?_, ?_, ?_, ?_, ?_⟩
  · obtain ⟨htouch, -⟩ := run_keeps hn rfl rfl hrun false
    rw [h.outputTopics_eq hn] at htouch
    rw [List.flatMap_append, List.flatMap_singleton]
    exact (h.data.mono (List.subset_append_left _ _)).trans
      (htouch.mono (List.subset_append_right _ _))
  · exact h.sublist.append (List.Sublist.refl [n.id])
  · intro x hx
    rw [hfeeds, or_iff_left (hlate x hx)]
    rcases List.mem_append.mp hx with hx | hx
    · have hne : x ≠ n.id := fun heq ↦ hfresh (heq ▸ hx)
      rw [← h.mem_ran x hx, List.mem_append, List.mem_singleton, or_iff_left hne]
    · obtain rfl := List.mem_singleton.mp hx
      have hwas : r.engine.isDirty n.id = true := by
        rw [isDirty, hn]
        exact hdirty
      refine ⟨fun _ ↦ ⟨hconsidered, ((h.isDirty_iff hnotran).mp hwas).2⟩, fun _ ↦ ?_⟩
      exact List.mem_append_right _ List.mem_cons_self
  · intro x hx
    rw [List.mem_append, List.mem_singleton, not_or] at hx
    rw [lookup_afterRun hd h rfl, AList.lookup_insert_ne hx.2, h.kept x hx.1, Option.map_map]
    refine congrArg (Option.map · _) (funext fun m ↦ ?_)
    simp only [Function.comp_apply, hfeeds, Bool.decide_or, Bool.or_assoc]
  · intro x hx
    rw [isDirty, lookup_afterRun hd h rfl]
    rcases List.mem_append.mp hx with hx | hx
    · -- a node that ran earlier is not fed by this one
      have hne : x ≠ n.id := fun heq ↦ hnotran (heq ▸ hx)
      have hclean := h.clean x hx
      rw [isDirty] at hclean
      rw [AList.lookup_insert_ne hne]
      rcases hx' : r.engine.nodes.lookup x with _ | m
      · rfl
      · rw [hx'] at hclean
        have hnot : ¬d.Feeds n.id x := hlate x (List.mem_append_left _ (h.sublist.subset hx))
        simpa [hnot] using hclean
    · obtain rfl := List.mem_singleton.mp hx
      rw [AList.lookup_insert]
      simp [hself]

theorem round (hd : d.Linked) (h : Progress d considered done r)
    (hfresh : id ∉ done) (hlate : ∀ x ∈ done ++ [id], ¬d.Feeds id x)
    (hround : Round walk considered r id r' none) :
    Progress d considered (done ++ [id]) r' := by
  have hnotran : id ∉ r.ran := fun hran ↦ hfresh (h.sublist.subset hran)
  cases hround with
  | skipped hskip =>
    refine h.pass hfresh fun hc ↦ ?_
    rw [hskip] at hc
    exact Bool.false_ne_true hc.1
  | clean n hn hclean =>
    refine h.pass hfresh fun hc ↦ ?_
    have hlive : id ∈ d.nodes := h.graph.mem_nodes.mp (AList.lookup_isSome.mp (by rw [hn]; rfl))
    have hdirty := (h.isDirty_iff hnotran).mpr ⟨hlive, hc.2⟩
    rw [isDirty, hn] at hdirty
    exact Bool.false_ne_true (hclean.symm.trans hdirty)
  | ran n data op hconsidered hn hdirty hrun =>
    exact h.ran_cons hd hfresh hlate hconsidered hn hdirty hrun

/-- The walk over what is left of the order. -/
theorem walk_along (hd : d.Linked) (horder : done ++ todo = d.topologicalOrder)
    (h : Progress d considered done r)
    (hrun : Loop.run (scheduleNode walk considered) todo r = some (r', none)) :
    Progress d considered d.topologicalOrder r' := by
  induction todo generalizing done r with
  | nil =>
    obtain ⟨rfl, -⟩ := Prod.mk.inj (Option.some.inj hrun)
    rw [← horder, List.append_nil]
    exact h
  | cons id todo ih =>
    rcases Loop.run_cons_eq_some hrun with ⟨e, -, herr⟩ | ⟨t, hround, hrest⟩
    · cases herr
    · have hnodup : (done ++ id :: todo).Nodup := horder ▸ hd.nodup_topologicalOrder
      have hfresh : id ∉ done := fun hid ↦
        (List.nodup_append.mp hnodup).2.2 id hid id List.mem_cons_self rfl
      have hlate : ∀ x ∈ done ++ [id], ¬d.Feeds id x := by
        intro x hx hfeeds
        rcases List.mem_append.mp hx with hx | hx
        · -- `x` stands before `id`, so `id` does not feed it
          have hpair := horder ▸ hd.topologicalOrder_spec.2
          have hnot := (List.pairwise_append.mp hpair).2.2 x hx id List.mem_cons_self
          rw [hd.liveDownstream_eq] at hnot
          exact hnot ((hd.mem_downstream id x).mpr hfeeds)
        · rw [List.mem_singleton.mp hx] at hfeeds
          exact Nat.lt_irrefl id (hd.forward id id hfeeds)
      refine ih ?_ (h.round hd hfresh hlate (scheduleNode_cases hround)) hrest
      rw [List.append_assoc]
      exact horder

end Progress

theorem Linked.progress (hd : d.Linked) {active : List ℕ} {r : Schedule}
    (h : d.scheduleActive walk active = some (r, none)) :
    Progress d (fun id ↦ active.isEmpty || decide (id ∈ d.upstreamOf active))
      d.topologicalOrder r :=
  Progress.start.walk_along hd (List.nil_append _) h

/-! ## The contract -/

/-- The run `r` touched the part of the graph that `active` asks for and nothing else. -/
structure RunsExactly (d : DerivedEngine) (active : List ℕ) (r : Schedule) : Prop where
  sublist : r.ran.Sublist d.topologicalOrder
  nodup : r.ran.Nodup
  upstream_first : ∀ p ∈ r.ran, ∀ c ∈ r.ran, TransGen d.Feeds p c → [p, c].Sublist r.ran
  mem_ran : ∀ id, id ∈ r.ran ↔
    d.Upstream active id ∧ (d.isDirty id = true ∨ ∃ p ∈ r.ran, d.Feeds p id)
  /-- A node that did not run is the same but for its flag, and that is set by producers only. -/
  kept : ∀ id ∉ r.ran, r.engine.nodes.lookup id = (d.nodes.lookup id).map fun n ↦
    { n with dirty := n.dirty || decide (∃ p ∈ r.ran, d.Feeds p id) }
  topic : ∀ τ, (∀ id ∈ r.ran, τ ∉ d.outputTopics id) →
    r.engine.data.getTopicStorage τ = d.data.getTopicStorage τ
  clean : ∀ id, d.Upstream active id → r.engine.isDirty id = false

namespace Progress

variable {considered : ℕ → Bool} {r : Schedule}

/-- A node that is considered is clean in the end. -/
theorem isDirty_eq_false (hd : d.Linked) (h : Progress d considered d.topologicalOrder r) {id : ℕ}
    (hid : considered id = true) : r.engine.isDirty id = false := by
  by_cases hran : id ∈ r.ran
  · exact h.clean id hran
  · refine Bool.eq_false_iff.mpr fun hdirty ↦ hran ?_
    obtain ⟨hlive, hwhy⟩ := (h.isDirty_iff hran).mp hdirty
    exact (h.mem_ran id (hd.mem_topologicalOrder.mpr hlive)).mpr ⟨hid, hwhy⟩

/-- Whatever the nodes considered are, those of `active` and upstream of it must be the ones among
them that run. -/
theorem runsExactly (hd : d.Linked) (h : Progress d considered d.topologicalOrder r)
    {active : List ℕ} (hmem : ∀ id, d.Upstream active id → considered id = true)
    (hran : ∀ id ∈ r.ran, d.Upstream active id) : d.RunsExactly active r where
  sublist := h.sublist
  nodup := hd.nodup_topologicalOrder.sublist h.sublist
  upstream_first p hp c hc hfeeds :=
    Kahn.pair_sublist_of_sublist hd.nodup_topologicalOrder h.sublist
      (hd.sublist_topologicalOrder_of_transGen hfeeds) hp hc
  mem_ran id := by
    constructor
    · intro hid
      exact ⟨hran id hid, ((h.mem_ran id (h.sublist.subset hid)).mp hid).2⟩
    · rintro ⟨hup, hwhy⟩
      have hlive : id ∈ d.nodes := by
        obtain ⟨s, -, hs, hreach⟩ := hup
        rcases hreach.cases_head with rfl | ⟨c, ⟨τ, hout, -⟩, -⟩
        · exact hs
        · exact mem_nodes_of_outputTopics hout
      exact (h.mem_ran id (hd.mem_topologicalOrder.mpr hlive)).mpr ⟨hmem id hup, hwhy⟩
  kept := h.kept
  topic τ hτ := by
    refine h.data.world.topic τ fun hout ↦ ?_
    obtain ⟨id, hid, hmem⟩ := List.mem_flatMap.mp hout
    exact hτ id hid hmem
  clean id hup := h.isDirty_eq_false hd (hmem id hup)

/-- Where nothing is dirty, nothing runs: the first node to run would need a producer before it. -/
theorem ran_eq_nil (hd : d.Linked) (h : Progress d considered d.topologicalOrder r)
    (hclean : ∀ id, d.isDirty id = false) : r.ran = [] := by
  refine List.eq_nil_iff_forall_not_mem.mpr fun id ↦ ?_
  induction id using Nat.strong_induction_on with
  | _ id ih =>
    intro hid
    obtain ⟨-, hdirty | ⟨p, hp, hfeeds⟩⟩ := (h.mem_ran id (h.sublist.subset hid)).mp hid
    · exact Bool.false_ne_true ((hclean id).symm.trans hdirty)
    · exact ih p (hd.forward p id hfeeds) hp

end Progress

theorem Linked.runsExactly_iff (hd : d.Linked) {active : List ℕ} {r : Schedule}
    (h : d.scheduleActive walk active = some (r, none)) :
    d.RunsExactly active r ↔ active ≠ [] ∨ ∀ id, d.isDirty id = false := by
  have hprogress := hd.progress h
  by_cases hactive : active = []
  · subst hactive
    have hnone : ∀ id, ¬d.Upstream [] id := fun id ⟨s, hs, _⟩ ↦ absurd hs List.not_mem_nil
    rw [or_iff_right (not_not_intro rfl)]
    constructor
    · intro hexact id
      refine Bool.eq_false_iff.mpr fun hdirty ↦ hnone id ?_
      have hlive : id ∈ d.nodes := by
        rw [isDirty] at hdirty
        rcases hn : d.nodes.lookup id with _ | n
        · rw [hn] at hdirty
          cases hdirty
        · exact AList.lookup_isSome.mp (by rw [hn]; rfl)
      have hran := (hprogress.mem_ran id (hd.mem_topologicalOrder.mpr hlive)).mpr
        ⟨rfl, .inl hdirty⟩
      exact ((hexact.mem_ran id).mp hran).1
    · intro hclean
      refine hprogress.runsExactly hd (fun id hup ↦ absurd hup (hnone id)) fun id hid ↦ ?_
      rw [hprogress.ran_eq_nil hd hclean] at hid
      exact absurd hid List.not_mem_nil
  · have hconsidered : ∀ id, (active.isEmpty || decide (id ∈ d.upstreamOf active)) = true ↔
        d.Upstream active id := by
      intro id
      rw [Bool.or_eq_true, List.isEmpty_iff, or_iff_right hactive, decide_eq_true_eq,
        hd.mem_upstreamOf]
    refine iff_of_true ?_ (.inl hactive)
    refine hprogress.runsExactly hd (fun id hup ↦ (hconsidered id).mpr hup) fun id hid ↦ ?_
    exact (hconsidered id).mp ((hprogress.mem_ran id (hprogress.sublist.subset hid)).mp hid).1

theorem Linked.scheduleAll_clean (hd : d.Linked) {r : Schedule}
    (h : d.scheduleAll walk = some (r, none)) (id : ℕ) : r.engine.isDirty id = false :=
  (hd.progress h).isDirty_eq_false hd rfl

/-- In every reachable state, a scheduling run without errors touches exactly what it was asked for,
unless it was asked for nothing while something was dirty. -/
theorem scheduleActive_runsExactly_iff {S : Setup} {W : World} {calls : List Call}
    (h : (DerivedEngine.start W).run S walk calls = some d) :
    (∀ active r, d.scheduleActive walk active = some (r, none) →
      (d.RunsExactly active r ↔ active ≠ [] ∨ ∀ id, d.isDirty id = false)) ∧
    ∀ r, d.scheduleAll walk = some (r, none) → ∀ id, r.engine.isDirty id = false := by
  have hd : d.Linked := linked_run (linked_start W) h
  exact ⟨fun _ _ hrun ↦ hd.runsExactly_iff hrun, fun _ hrun ↦ hd.scheduleAll_clean hrun⟩

/-- Node `2` hangs on node `1`, node `3` on the series alone. -/
def twoBranches : List Call :=
  oneSeries ++ [.addSisoTransform 1 "copy" 1 passThrough,
    .addSisoTransform 2 "copy of copy" 1 passThrough,
    .addSisoTransform 1 "other copy" 1 passThrough]

theorem scheduleActive_runsExactly_twoBranches : ∃ (d : DerivedEngine) (r : Schedule),
    (DerivedEngine.start (.start fun _ ↦ [])).run oneEngine .plain twoBranches = some d ∧
      d.scheduleActive .plain [2] = some (r, none) ∧ d.RunsExactly [2] r := by
  have hsome : (((DerivedEngine.start (.start fun _ ↦ [])).run oneEngine .plain twoBranches).bind
      fun d ↦ (d.scheduleActive .plain [2]).filter (·.2.isNone)).isSome = true := by
    decide +kernel
  obtain ⟨⟨r, err⟩, hr⟩ := Option.isSome_iff_exists.mp hsome
  obtain ⟨d, hd, hrun⟩ := Option.bind_eq_some_iff.mp hr
  obtain ⟨hrun, herr⟩ := Option.filter_eq_some_iff.mp hrun
  obtain rfl : err = none := Option.isNone_iff_eq_none.mp herr
  refine ⟨d, r, hd, hrun, ?_⟩
  exact ((scheduleActive_runsExactly_iff hd).1 [2] r hrun).mpr (.inl (by decide))

/-- Asked for nothing, the scheduler runs the one node there is. -/
theorem scheduleActive_not_runsExactly : ¬∀ (S : Setup) (walk : WalkOrder) (W : World)
    (calls : List Call) (d : DerivedEngine) (active : List ℕ) (r : Schedule),
    (DerivedEngine.start W).run S walk calls = some d →
      d.scheduleActive walk active = some (r, none) → d.RunsExactly active r := by
  intro hall
  have hran : ((DerivedEngine.start (.start fun _ ↦ [])).run oneEngine .plain
      (oneSeries ++ [.addSisoTransform 1 "copy" 1 passThrough])).bind
        (fun d ↦ (d.scheduleActive .plain []).map fun r ↦ (r.1.ran, r.2)) = some ([1], none) := by
    decide +kernel
  obtain ⟨d, hd, hrun⟩ := Option.bind_eq_some_iff.mp hran
  obtain ⟨⟨r, err⟩, hsched, heq⟩ := Option.map_eq_some_iff.mp hrun
  obtain ⟨hone, rfl⟩ := Prod.mk.inj heq
  have hexact := hall oneEngine .plain _ _ d [] r hd hsched
  have hmem : 1 ∈ r.ran := by
    rw [hone]
    exact List.mem_cons_self
  obtain ⟨⟨s, hs, -⟩, -⟩ := (hexact.mem_ran 1).mp hmem
  exact absurd hs List.not_mem_nil

end DerivedEngine

end PlotJuggler
