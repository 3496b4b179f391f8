import Mathlib.Algebra.BigOperators.Group.Finset.Basic
import PlotJugglerCore.Derived.Frame

/-!
# The derived graph

Three calls change the graph, and each keeps four maps in step by hand. `Linked` says what the maps
hold: `outputTopicToNode` inverts the outputs of the live nodes, `topicToNodes` lists the consumers
of a topic as often as they name it, and `downstreamOf` lists the consumers of a live producer, each
once, and nothing for a node that is gone.

Nothing checks for cycles, as `checkCycle` is called without outputs and finds nothing. There are none
all the same: inputs exist before a node is added and its outputs do not, so edges lead from smaller
node ids to larger ones. That makes the ids a rank, and Kahn's loop takes every node.
-/

namespace PlotJuggler

/-! ## The maps -/

namespace DerivedEngine

section Maps

variable {m : AList fun _ : ℕ ↦ List ℕ} {key key' x : ℕ}

theorem entry_insert_self {l : List ℕ} : entry (m.insert key l) key = l := by
  rw [entry, AList.lookup_insert, Option.getD_some]

theorem entry_insert_of_ne {l : List ℕ} (h : key' ≠ key) :
    entry (m.insert key l) key' = entry m key' := by
  rw [entry, AList.lookup_insert_ne h, entry]

theorem entry_push : entry (push m key x) key' =
    entry m key' ++ if key' = key then [x] else [] := by
  rw [push]
  by_cases h : key' = key
  · subst h
    rw [entry_insert_self, if_pos rfl]
  · rw [entry_insert_of_ne h, if_neg h, List.append_nil]

/-- The consumers of a topic after a node with these inputs was entered. -/
theorem count_entry_foldl_push {κ : Type*} (t : κ → ℕ) (inputs : List κ) (id τ : ℕ) :
    (entry (inputs.foldl (fun m input ↦ push m (t input) id) m) τ).count x =
      (entry m τ).count x + if x = id then (inputs.map t).count τ else 0 := by
  induction inputs generalizing m with
  | nil => simp
  | cons input inputs ih =>
    rw [List.foldl_cons, ih, entry_push, List.count_append, List.map_cons, List.count_cons]
    by_cases hx : x = id
    · subst hx
      by_cases hτ : τ = t input
      · subst hτ
        simp
        omega
      · simp [hτ, Ne.symm hτ]
    · by_cases hτ : τ = t input
      · simp [hτ, hx, Ne.symm hx]
      · simp [hτ, hx]

/-- The consumers of a producer after a new node was entered. -/
theorem entry_foldl_addDownstream {κ : Type*} (t : κ → ℕ) (producers : AList fun _ : ℕ ↦ ℕ)
    (inputs : List κ) (id p : ℕ) :
    entry (inputs.foldl (fun m input ↦ addDownstream producers id m (t input)) m) p =
      entry m p ++ if id ∉ entry m p ∧ ∃ τ ∈ inputs.map t, producers.lookup τ = some p
        then [id] else [] := by
  induction inputs generalizing m with
  | nil => simp
  | cons input inputs ih =>
    rw [List.foldl_cons, ih]
    rcases hprod : producers.lookup (t input) with _ | q
    · simp [addDownstream, hprod]
    · by_cases hq : p = q
      · -- the first input from this producer makes the edge, the others find it there
        subst hq
        by_cases hid : id ∈ entry m p
        · simp [addDownstream, hprod, hid]
        · simp [addDownstream, hprod, hid, entry_push]
      · have hother : entry (if id ∈ entry m q then m else push m q id) p = entry m p := by
          split
          · rfl
          · rw [entry_push, if_neg hq, List.append_nil]
        simp only [addDownstream, hother, List.map_cons, List.mem_cons, exists_eq_or_imp, hprod,
          Option.some.injEq, Ne.symm hq, false_or]

theorem mem_foldl_addDownstream {κ : Type*} (t : κ → ℕ) {producers : AList fun _ : ℕ ↦ ℕ}
    (inputs : List κ) {id p : ℕ}
    (h : p ∈ inputs.foldl (fun m input ↦ addDownstream producers id m (t input)) m) :
    p ∈ m ∨ ∃ τ ∈ inputs.map t, producers.lookup τ = some p := by
  induction inputs generalizing m with
  | nil => exact .inl h
  | cons input inputs ih =>
    rw [List.foldl_cons] at h
    rcases ih h with h | ⟨i, hi, hp⟩
    · rw [addDownstream] at h
      split at h
      · rename_i q hq
        split at h
        · exact .inl h
        · rcases (AList.mem_insert m).mp h with rfl | h
          · exact .inr ⟨t input, List.mem_cons_self, hq⟩
          · exact .inl h
      · exact .inl h
    · exact .inr ⟨i, List.mem_cons_of_mem (t input) hi, hp⟩

theorem lookup_foldl_insert {κ : Type*} {producers : AList fun _ : ℕ ↦ ℕ} (t : κ → ℕ)
    (outputs : List κ) (id τ : ℕ) :
    (outputs.foldl (fun m out ↦ m.insert (t out) id) producers).lookup τ =
      if τ ∈ outputs.map t then some id else producers.lookup τ := by
  induction outputs generalizing producers with
  | nil => simp
  | cons out outputs ih =>
    rw [List.foldl_cons, ih, List.map_cons]
    by_cases hτ : τ = t out
    · subst hτ
      simp
    · simp [AList.lookup_insert_ne hτ, hτ]

/-! ### Removal -/

theorem lookup_foldl_erase {producers : AList fun _ : ℕ ↦ ℕ} (outputs : List ℕ) (τ : ℕ) :
    (outputs.foldl (fun m τ ↦ m.erase τ) producers).lookup τ =
      if τ ∈ outputs then none else producers.lookup τ := by
  induction outputs generalizing producers with
  | nil => simp
  | cons out outputs ih =>
    rw [List.foldl_cons, ih]
    by_cases hτ : τ = out
    · subst hτ
      simp
    · simp [AList.lookup_erase_ne hτ, hτ]

theorem entry_foldl_filter (inputs : List ℕ) (id τ : ℕ) :
    entry (inputs.foldl (fun m τ ↦ m.insert τ ((entry m τ).filter (· ≠ id))) m) τ =
      if τ ∈ inputs then (entry m τ).filter (· ≠ id) else entry m τ := by
  induction inputs generalizing m with
  | nil => simp
  | cons input inputs ih =>
    rw [List.foldl_cons, ih]
    by_cases hτ : τ = input
    · subst hτ
      simp [entry_insert_self]
    · simp [entry_insert_of_ne hτ, hτ]

theorem entry_dropNode (node : ℕ) :
    entry (dropNode node m) key = (entry m key).filter (· ≠ node) := by
  have hlookup : (dropNode node m).lookup key = (m.lookup key).map (·.filter (· ≠ node)) :=
    List.dlookup_map₂ key
  rw [entry, hlookup, entry]
  rcases m.lookup key with _ | l
  · rfl
  · rfl

theorem mem_dropNode {node : ℕ} : key ∈ dropNode node m ↔ key ∈ m := by
  rw [AList.mem_keys, AList.mem_keys, AList.keys, dropNode, List.map₂_keys]
  rfl

theorem entry_erase_of_ne (h : key' ≠ key) : entry (m.erase key) key' = entry m key' := by
  rw [entry, AList.lookup_erase_ne h, entry]

end Maps

/-! ## The invariant -/

variable {d d' : DerivedEngine}

/-- `outputTopics`: nothing for a node that is not there. -/
def outputTopics (d : DerivedEngine) (id : ℕ) : List ℕ :=
  ((d.nodes.lookup id).map (·.outputTopics)).getD []

/-- An output of `p` is an input of `c`. -/
def Feeds (d : DerivedEngine) (p c : ℕ) : Prop := ∃ τ ∈ d.outputTopics p, τ ∈ d.inputTopicsOf c

/-- What the maps hold. -/
structure Linked (d : DerivedEngine) : Prop where
  below : d.data.Below
  id_eq : ∀ id n, d.nodes.lookup id = some n → n.id = id
  id_lt : ∀ id ∈ d.nodes, id < d.nextNodeId
  input_lt : ∀ id, ∀ τ ∈ d.inputTopicsOf id, τ < d.data.nextTopicId
  output_lt : ∀ id, ∀ τ ∈ d.outputTopics id, τ < d.data.nextTopicId
  forward : ∀ p c, d.Feeds p c → p < c
  producer : ∀ τ id, d.outputTopicToNode.lookup τ = some id ↔ τ ∈ d.outputTopics id
  consumers : ∀ τ id, (entry d.topicToNodes τ).count id = (d.inputTopicsOf id).count τ
  downstream_nodup : ∀ p, (entry d.downstreamOf p).Nodup
  mem_downstream : ∀ p c, c ∈ entry d.downstreamOf p ↔ d.Feeds p c
  downstream_live : ∀ p ∈ d.downstreamOf, p ∈ d.nodes

theorem mem_nodes_of_inputTopicsOf {id τ : ℕ} (h : τ ∈ d.inputTopicsOf id) : id ∈ d.nodes := by
  by_contra hid
  rw [inputTopicsOf, AList.lookup_eq_none.mpr hid] at h
  exact List.not_mem_nil h

theorem mem_nodes_of_outputTopics {id τ : ℕ} (h : τ ∈ d.outputTopics id) : id ∈ d.nodes := by
  by_contra hid
  rw [outputTopics, AList.lookup_eq_none.mpr hid] at h
  exact List.not_mem_nil h

/-! ### Calls that leave the graph alone -/

/-- Same maps, and nodes that differ in their transforms and flags only. -/
structure SameGraph (d d' : DerivedEngine) : Prop where
  nextNodeId : d.nextNodeId ≤ d'.nextNodeId
  downstreamOf : d'.downstreamOf = d.downstreamOf
  topicToNodes : d'.topicToNodes = d.topicToNodes
  outputTopicToNode : d'.outputTopicToNode = d.outputTopicToNode
  nodes : ∀ id, (d'.nodes.lookup id).map (fun n ↦ (n.id, n.inputTopics, n.outputTopics)) =
    (d.nodes.lookup id).map fun n ↦ (n.id, n.inputTopics, n.outputTopics)

namespace SameGraph

theorem inputTopicsOf (h : SameGraph d d') (id : ℕ) : d'.inputTopicsOf id = d.inputTopicsOf id := by
  have := congrArg (Option.map fun w : ℕ × List ℕ × List ℕ ↦ w.2.1) (h.nodes id)
  rw [Option.map_map, Option.map_map] at this
  exact congrArg (Option.getD · []) this

theorem outputTopics (h : SameGraph d d') (id : ℕ) : d'.outputTopics id = d.outputTopics id := by
  have := congrArg (Option.map fun w : ℕ × List ℕ × List ℕ ↦ w.2.2) (h.nodes id)
  rw [Option.map_map, Option.map_map] at this
  exact congrArg (Option.getD · []) this

theorem mem_nodes (h : SameGraph d d') {id : ℕ} : id ∈ d'.nodes ↔ id ∈ d.nodes := by
  rw [← AList.lookup_isSome, ← AList.lookup_isSome, ← Option.isSome_map, h.nodes, Option.isSome_map]

theorem feeds (h : SameGraph d d') {p c : ℕ} : d'.Feeds p c ↔ d.Feeds p c := by
  rw [Feeds, Feeds, h.outputTopics, h.inputTopicsOf]

end SameGraph

theorem Linked.congr (hd : d.Linked) (h : SameGraph d d') (hdata : d.data.Extends d'.data) :
    d'.Linked where
  below := hdata.below hd.below
  id_eq id n hn := by
    have hwire := h.nodes id
    rw [hn] at hwire
    obtain ⟨m, hm, heq⟩ := Option.map_eq_some_iff.mp hwire.symm
    rw [← (Prod.mk.inj heq).1, hd.id_eq id m hm]
  id_lt id hid := (hd.id_lt id (h.mem_nodes.mp hid)).trans_le h.nextNodeId
  input_lt id τ hτ := (hd.input_lt id τ (h.inputTopicsOf id ▸ hτ)).trans_le hdata.le
  output_lt id τ hτ := (hd.output_lt id τ (h.outputTopics id ▸ hτ)).trans_le hdata.le
  forward p c hpc := hd.forward p c (h.feeds.mp hpc)
  producer τ id := by
    rw [h.outputTopicToNode, h.outputTopics]
    exact hd.producer τ id
  consumers τ id := by
    rw [h.topicToNodes, h.inputTopicsOf]
    exact hd.consumers τ id
  downstream_nodup p := h.downstreamOf ▸ hd.downstream_nodup p
  mem_downstream p c := by
    rw [h.downstreamOf, h.feeds]
    exact hd.mem_downstream p c
  downstream_live p hp := h.mem_nodes.mpr (hd.downstream_live p (h.downstreamOf ▸ hp))

/-! ### Adding a node -/

/-- The engine `d'` behind an `add` that entered the node `n` under the id `nextNodeId`. -/
structure Adds (d : DerivedEngine) (n : DerivedNode) (d' : DerivedEngine) : Prop where
  id_eq : n.id = d.nextNodeId
  data : d.data.Extends d'.data
  nextNodeId : d'.nextNodeId = d.nextNodeId + 1
  nodes : d'.nodes = d.nodes.insert d.nextNodeId n
  input_lt : ∀ τ ∈ n.inputTopics, τ < d.data.nextTopicId
  output_ge : ∀ τ ∈ n.outputTopics, d.data.nextTopicId ≤ τ
  output_lt : ∀ τ ∈ n.outputTopics, τ < d'.data.nextTopicId
  producer : ∀ τ, d'.outputTopicToNode.lookup τ =
    if τ ∈ n.outputTopics then some d.nextNodeId else d.outputTopicToNode.lookup τ
  consumers : ∀ τ x, (entry d'.topicToNodes τ).count x =
    (entry d.topicToNodes τ).count x + if x = d.nextNodeId then n.inputTopics.count τ else 0
  downstream : ∀ p, entry d'.downstreamOf p = entry d.downstreamOf p ++
    if d.nextNodeId ∉ entry d.downstreamOf p ∧
      ∃ τ ∈ n.inputTopics, d'.outputTopicToNode.lookup τ = some p then [d.nextNodeId] else []
  downstream_mem : ∀ p ∈ d'.downstreamOf, p ∈ d.downstreamOf ∨
    ∃ τ ∈ n.inputTopics, d'.outputTopicToNode.lookup τ = some p

namespace Adds

variable {n : DerivedNode}

theorem inputTopicsOf_self (h : Adds d n d') : d'.inputTopicsOf d.nextNodeId = n.inputTopics := by
  rw [inputTopicsOf, h.nodes, AList.lookup_insert]
  rfl

theorem inputTopicsOf_of_ne (h : Adds d n d') {id : ℕ} (hid : id ≠ d.nextNodeId) :
    d'.inputTopicsOf id = d.inputTopicsOf id := by
  rw [inputTopicsOf, h.nodes, AList.lookup_insert_ne hid, inputTopicsOf]

theorem outputTopics_self (h : Adds d n d') : d'.outputTopics d.nextNodeId = n.outputTopics := by
  rw [DerivedEngine.outputTopics, h.nodes, AList.lookup_insert]
  rfl

theorem outputTopics_of_ne (h : Adds d n d') {id : ℕ} (hid : id ≠ d.nextNodeId) :
    d'.outputTopics id = d.outputTopics id := by
  rw [DerivedEngine.outputTopics, h.nodes, AList.lookup_insert_ne hid, DerivedEngine.outputTopics]

/-- The inputs of the new node have the producers they had. -/
theorem producer_input (h : Adds d n d') {τ : ℕ} (hτ : τ ∈ n.inputTopics) :
    d'.outputTopicToNode.lookup τ = d.outputTopicToNode.lookup τ := by
  rw [h.producer, if_neg fun hout ↦ ?_]
  exact absurd (h.input_lt τ hτ) (Nat.not_lt.mpr (h.output_ge τ hout))

/-- Edges are the old ones and those into the new node. -/
theorem feeds_iff (h : Adds d n d') (hd : d.Linked) {p c : ℕ} : d'.Feeds p c ↔ d.Feeds p c ∨
    c = d.nextNodeId ∧ ∃ τ ∈ n.inputTopics, d.outputTopicToNode.lookup τ = some p := by
  have hgone : d.nextNodeId ∉ d.nodes := fun hid ↦ absurd (hd.id_lt _ hid) (Nat.lt_irrefl _)
  by_cases hp : p = d.nextNodeId
  · -- nobody can have asked for the outputs of the new node yet
    subst hp
    constructor
    · rintro ⟨τ, hout, hin⟩
      rw [h.outputTopics_self] at hout
      have hge := h.output_ge τ hout
      by_cases hc : c = d.nextNodeId
      · subst hc
        rw [h.inputTopicsOf_self] at hin
        exact absurd (h.input_lt τ hin) (Nat.not_lt.mpr hge)
      · rw [h.inputTopicsOf_of_ne hc] at hin
        exact absurd (hd.input_lt c τ hin) (Nat.not_lt.mpr hge)
    · rintro (⟨τ, hout, -⟩ | ⟨-, τ, -, hprod⟩)
      · exact absurd (mem_nodes_of_outputTopics hout) hgone
      · exact absurd (mem_nodes_of_outputTopics ((hd.producer τ _).mp hprod)) hgone
  · rw [Feeds, h.outputTopics_of_ne hp]
    by_cases hc : c = d.nextNodeId
    · subst hc
      have hold : ¬d.Feeds p d.nextNodeId := fun ⟨τ, _, hin⟩ ↦ hgone (mem_nodes_of_inputTopicsOf hin)
      rw [h.inputTopicsOf_self]
      constructor
      · rintro ⟨τ, hout, hin⟩
        exact .inr ⟨rfl, τ, hin, (hd.producer τ p).mpr hout⟩
      · rintro (hfeeds | ⟨-, τ, hin, hprod⟩)
        · exact absurd hfeeds hold
        · exact ⟨τ, (hd.producer τ p).mp hprod, hin⟩
    · rw [h.inputTopicsOf_of_ne hc]
      constructor
      · exact .inl
      · rintro (hfeeds | ⟨heq, -⟩)
        · exact hfeeds
        · exact absurd heq hc

theorem nextNodeId_notMem (hd : d.Linked) : d.nextNodeId ∉ d.nodes :=
  fun hid ↦ absurd (hd.id_lt _ hid) (Nat.lt_irrefl _)

theorem mem_nodes_iff (h : Adds d n d') {id : ℕ} :
    id ∈ d'.nodes ↔ id = d.nextNodeId ∨ id ∈ d.nodes := by
  rw [h.nodes, AList.mem_insert]

theorem mem_nodes_of_producer (h : Adds d n d') (hd : d.Linked) {p : ℕ}
    (hp : ∃ τ ∈ n.inputTopics, d'.outputTopicToNode.lookup τ = some p) : p ∈ d.nodes := by
  obtain ⟨τ, hτ, hprod⟩ := hp
  rw [h.producer_input hτ] at hprod
  exact mem_nodes_of_outputTopics ((hd.producer τ p).mp hprod)

theorem producer_iff (h : Adds d n d') (hd : d.Linked) (τ id : ℕ) :
    d'.outputTopicToNode.lookup τ = some id ↔ τ ∈ d'.outputTopics id := by
  rw [h.producer]
  by_cases hτ : τ ∈ n.outputTopics
  · rw [if_pos hτ, Option.some.injEq]
    by_cases hid : id = d.nextNodeId
    · subst hid
      rw [h.outputTopics_self]
      exact ⟨fun _ ↦ hτ, fun _ ↦ rfl⟩
    · rw [h.outputTopics_of_ne hid]
      constructor
      · exact fun heq ↦ absurd heq.symm hid
      · exact fun hout ↦ absurd (hd.output_lt id τ hout) (Nat.not_lt.mpr (h.output_ge τ hτ))
  · rw [if_neg hτ, hd.producer]
    by_cases hid : id = d.nextNodeId
    · subst hid
      rw [h.outputTopics_self]
      constructor
      · exact fun hout ↦ absurd (mem_nodes_of_outputTopics hout) (nextNodeId_notMem hd)
      · exact fun hout ↦ absurd hout hτ
    · rw [h.outputTopics_of_ne hid]

theorem count_consumers (h : Adds d n d') (hd : d.Linked) (τ id : ℕ) :
    (entry d'.topicToNodes τ).count id = (d'.inputTopicsOf id).count τ := by
  rw [h.consumers, hd.consumers]
  by_cases hid : id = d.nextNodeId
  · subst hid
    have hnone : d.inputTopicsOf d.nextNodeId = [] := List.eq_nil_iff_forall_not_mem.mpr
      fun σ hσ ↦ nextNodeId_notMem hd (mem_nodes_of_inputTopicsOf hσ)
    rw [if_pos rfl, h.inputTopicsOf_self, hnone, List.count_nil, Nat.zero_add]
  · rw [if_neg hid, h.inputTopicsOf_of_ne hid, Nat.add_zero]

theorem notMem_downstream (hd : d.Linked) (p : ℕ) : d.nextNodeId ∉ entry d.downstreamOf p := by
  intro hp
  obtain ⟨τ, -, hin⟩ := (hd.mem_downstream p _).mp hp
  exact nextNodeId_notMem hd (mem_nodes_of_inputTopicsOf hin)

theorem mem_downstream_iff (h : Adds d n d') (hd : d.Linked) (p c : ℕ) :
    c ∈ entry d'.downstreamOf p ↔ d'.Feeds p c := by
  have hproducer : (∃ τ ∈ n.inputTopics, d'.outputTopicToNode.lookup τ = some p) ↔
      ∃ τ ∈ n.inputTopics, d.outputTopicToNode.lookup τ = some p := by
    refine exists_congr fun τ ↦ and_congr_right fun hτ ↦ ?_
    rw [h.producer_input hτ]
  rw [h.downstream, h.feeds_iff hd, List.mem_append, hd.mem_downstream, ← hproducer]
  refine or_congr_right ?_
  by_cases hprod : ∃ τ ∈ n.inputTopics, d'.outputTopicToNode.lookup τ = some p
  · rw [if_pos ⟨notMem_downstream hd p, hprod⟩, List.mem_singleton]
    exact ⟨fun heq ↦ ⟨heq, hprod⟩, fun hc ↦ hc.1⟩
  · rw [if_neg fun hc ↦ hprod hc.2]
    exact ⟨fun hc ↦ absurd hc List.not_mem_nil, fun hc ↦ absurd hc.2 hprod⟩

end Adds

theorem Linked.add {n : DerivedNode} (hd : d.Linked) (h : Adds d n d') : d'.Linked where
  below := h.data.below hd.below
  id_eq id m hm := by
    rw [h.nodes] at hm
    by_cases hid : id = d.nextNodeId
    · subst hid
      rw [AList.lookup_insert] at hm
      rw [← Option.some.inj hm, h.id_eq]
    · rw [AList.lookup_insert_ne hid] at hm
      exact hd.id_eq id m hm
  id_lt id hid := by
    rw [h.nextNodeId]
    rcases h.mem_nodes_iff.mp hid with rfl | hid
    · exact Nat.lt_succ_self _
    · exact (hd.id_lt id hid).trans (Nat.lt_succ_self _)
  input_lt id τ hτ := by
    refine Nat.lt_of_lt_of_le ?_ h.data.le
    by_cases hid : id = d.nextNodeId
    · subst hid
      exact h.input_lt τ (h.inputTopicsOf_self ▸ hτ)
    · exact hd.input_lt id τ (h.inputTopicsOf_of_ne hid ▸ hτ)
  output_lt id τ hτ := by
    by_cases hid : id = d.nextNodeId
    · subst hid
      exact h.output_lt τ (h.outputTopics_self ▸ hτ)
    · exact (hd.output_lt id τ (h.outputTopics_of_ne hid ▸ hτ)).trans_le h.data.le
  forward p c hpc := by
    rcases (h.feeds_iff hd).mp hpc with hpc | ⟨rfl, τ, -, hprod⟩
    · exact hd.forward p c hpc
    · exact hd.id_lt p (mem_nodes_of_outputTopics ((hd.producer τ p).mp hprod))
  producer := h.producer_iff hd
  consumers := h.count_consumers hd
  downstream_nodup p := by
    rw [h.downstream]
    split
    · exact List.nodup_append_comm.mp
        (List.nodup_cons.mpr ⟨Adds.notMem_downstream hd p, hd.downstream_nodup p⟩)
    · rw [List.append_nil]
      exact hd.downstream_nodup p
  mem_downstream := h.mem_downstream_iff hd
  downstream_live p hp := by
    rw [h.mem_nodes_iff]
    rcases h.downstream_mem p hp with hp | hp
    · exact .inr (hd.downstream_live p hp)
    · exact .inr (h.mem_nodes_of_producer hd hp)

/-! ### The two ways to add -/

/-- Without outputs to look for, the search finds nothing. -/
theorem cycleSearch_nil (fuel : ℕ) (stack visited : List ℕ) :
    d.cycleSearch [] fuel stack visited = none := by
  induction fuel generalizing stack visited with
  | zero => rfl
  | succ fuel ih =>
    match stack with
    | [] => rfl
    | τ :: stack =>
      rw [cycleSearch]
      split
      · exact ih _ _
      · rw [if_neg List.not_mem_nil]
        split
        · exact ih _ _
        · exact ih _ _

theorem checkSiso_eq_ok {τ : ℕ} {name : String} {datasetId : ℕ} {op : SisoTransform}
    {kinds : StorageKind × StorageKind} (h : d.checkSiso τ name datasetId op = .ok kinds) :
    ∃ s, d.data.getTopicStorage τ = some s := by
  rw [checkSiso] at h
  split at h
  · cases h
  · exact ⟨_, by assumption⟩

theorem inputKinds_eq_ok {inputs : List ℕ} {kinds : List StorageKind}
    (h : d.inputKinds inputs = .ok kinds) :
    ∀ τ ∈ inputs, ∃ s, d.data.getTopicStorage τ = some s := by
  induction inputs generalizing kinds with
  | nil => exact fun τ hτ ↦ absurd hτ List.not_mem_nil
  | cons σ inputs ih =>
    rw [inputKinds] at h
    split at h
    · cases h
    · rename_i s hs
      split at h
      · cases h
      · cases h
      · rcases hrest : d.inputKinds inputs with e | rest
        · rw [hrest] at h
          cases h
        · intro τ hτ
          rcases List.mem_cons.mp hτ with rfl | hτ
          · exact ⟨s, hs⟩
          · exact ih hrest τ hτ
      · cases h

theorem checkMimo_eq_ok {inputs : List ℕ} {names : List String} {datasetId : ℕ}
    {op : Option MimoTransform} {r : MimoTransform × List StorageKind × List StorageKind}
    (h : d.checkMimo inputs names datasetId op = .ok r) :
    ∀ τ ∈ inputs, ∃ s, d.data.getTopicStorage τ = some s := by
  rw [checkMimo.eq_def] at h
  split_ifs at h
  split at h
  · cases h
  · split at h
    · cases h
    · rename_i hkinds
      exact inputKinds_eq_ok hkinds

theorem createOutputs_spec (walk : WalkOrder) (datasetId nodeId : ℕ)
    (outputs : List ((String × StorageKind) × ℕ)) (data : DataEngine) :
    data.Extends (createOutputs walk datasetId nodeId data outputs).1 ∧
      ∀ outs, (createOutputs walk datasetId nodeId data outputs).2 = .ok outs → ∀ τ ∈ outs,
        data.nextTopicId ≤ τ ∧ τ < (createOutputs walk datasetId nodeId data outputs).1.nextTopicId := by
  induction outputs generalizing data with
  | nil =>
    refine ⟨.refl data, fun outs houts τ hτ ↦ ?_⟩
    obtain rfl := Except.ok.inj houts
    exact absurd hτ List.not_mem_nil
  | cons output outputs ih =>
    obtain ⟨⟨name, kind⟩, k⟩ := output
    have hfirst := data.extends_createOutput walk datasetId name
      ("derived_mimo_" ++ toString nodeId ++ "_" ++ toString k) kind
    rw [createOutputs]
    split
    · rename_i data' e heq
      rw [heq] at hfirst
      exact ⟨hfirst, fun outs houts ↦ nomatch houts⟩
    · rename_i data' out heq
      rw [heq] at hfirst
      obtain ⟨rfl, hnext⟩ := DataEngine.createOutput_eq_ok heq
      obtain ⟨hrest, hbounds⟩ := ih data'
      refine ⟨hfirst.trans hrest, fun outs houts τ hτ ↦ ?_⟩
      rcases hok : (createOutputs walk datasetId nodeId data' outputs).2 with e | rest
      · dsimp only at houts
        rw [hok] at houts
        cases houts
      · dsimp only at houts
        rw [hok] at houts
        obtain rfl := Except.ok.inj houts
        have hle : data'.nextTopicId ≤ _ := hrest.le
        rcases List.mem_cons.mp hτ with rfl | hτ
        · exact ⟨Nat.le_refl _, Nat.lt_of_lt_of_le (by rw [hnext]; exact Nat.lt_succ_self _) hle⟩
        · exact ⟨hfirst.le.trans (hbounds rest hok τ hτ).1, (hbounds rest hok τ hτ).2⟩

/-- A node with one input makes its edge without looking whether it is there. It never is. -/
theorem downstreamOf_registerSiso (hd : d.Linked) (data : DataEngine) (name : String)
    (datasetId : ℕ) (n : SisoNode) :
    (registerSiso { d with data := data } name datasetId n).downstreamOf =
      addDownstream (d.outputTopicToNode.insert n.outputTopicId d.nextNodeId) d.nextNodeId
        d.downstreamOf n.inputTopicId := by
  rw [registerSiso, addDownstream]
  dsimp only
  split
  · rw [if_neg (Adds.notMem_downstream hd _)]
  · rfl

theorem linked_addSisoTransform (hd : d.Linked) (walk : WalkOrder) (τ : ℕ) (name : String)
    (datasetId : ℕ) (op : SisoTransform) :
    (d.addSisoTransform walk τ name datasetId op).1.Linked := by
  rw [addSisoTransform]
  split
  · exact hd
  · rename_i kinds hcheck
    have hext := d.data.extends_createOutput walk datasetId name
      ("derived_siso_" ++ name ++ "_" ++ toString d.nextNodeId) kinds.2
    split
    · rename_i data e heq
      rw [heq] at hext
      exact hd.congr ⟨Nat.le_refl _, rfl, rfl, rfl, fun _ ↦ rfl⟩ hext
    · rename_i data out heq
      rw [heq] at hext
      obtain ⟨rfl, hnext⟩ := DataEngine.createOutput_eq_ok heq
      obtain ⟨s, hs⟩ := checkSiso_eq_ok hcheck
      have hin : τ < d.data.nextTopicId := hd.below.lt_of_getTopicStorage hs
      refine hd.add (n := { id := d.nextNodeId, op := .siso _ })
        ⟨rfl, hext, rfl, rfl, ?_, ?_, ?_, ?_, ?_, ?_, ?_⟩
      · exact fun σ hσ ↦ List.mem_singleton.mp hσ ▸ hin
      · exact fun σ hσ ↦ (List.mem_singleton.mp hσ).ge
      · intro σ hσ
        rw [List.mem_singleton.mp hσ]
        exact hnext ▸ Nat.lt_succ_self _
      · exact fun σ ↦ lookup_foldl_insert (fun σ ↦ σ) [d.data.nextTopicId] d.nextNodeId σ
      · exact fun σ x ↦ count_entry_foldl_push (fun σ ↦ σ) [τ] d.nextNodeId σ
      · intro p
        rw [downstreamOf_registerSiso hd]
        exact entry_foldl_addDownstream (fun σ ↦ σ) _ [τ] d.nextNodeId p
      · intro p hp
        rw [downstreamOf_registerSiso hd] at hp
        exact mem_foldl_addDownstream (fun σ ↦ σ) [τ] hp

theorem linked_addMimoTransform (hd : d.Linked) (walk : WalkOrder) (inputs : List ℕ)
    (names : List String) (datasetId : ℕ) (op : Option MimoTransform) :
    (d.addMimoTransform walk inputs names datasetId op).1.Linked := by
  rw [addMimoTransform]
  split
  · exact hd
  · rename_i op' inKinds outKinds hcheck
    obtain ⟨hext, hbounds⟩ :=
      createOutputs_spec walk datasetId d.nextNodeId (names.zip outKinds).zipIdx d.data
    split
    · rename_i data e heq
      rw [heq] at hext
      exact hd.congr ⟨Nat.le_succ _, rfl, rfl, rfl, fun _ ↦ rfl⟩ hext
    · rename_i data outs heq
      rw [heq] at hext hbounds
      have hout : ∀ σ ∈ (outs.zip outKinds).map Prod.fst,
          d.data.nextTopicId ≤ σ ∧ σ < data.nextTopicId := by
        intro σ hσ
        obtain ⟨out, hmem, rfl⟩ := List.mem_map.mp hσ
        exact hbounds outs rfl out.1 (List.of_mem_zip hmem).1
      refine hd.add (n := { id := d.nextNodeId, op := .mimo _ })
        ⟨rfl, hext, rfl, rfl, ?_, fun σ hσ ↦ (hout σ hσ).1, fun σ hσ ↦ (hout σ hσ).2, ?_, ?_, ?_, ?_⟩
      · intro σ hσ
        obtain ⟨input, hmem, rfl⟩ := List.mem_map.mp hσ
        obtain ⟨s, hs⟩ := checkMimo_eq_ok hcheck input.1 (List.of_mem_zip hmem).1
        exact hd.below.lt_of_getTopicStorage hs
      · exact fun σ ↦ lookup_foldl_insert Prod.fst _ d.nextNodeId σ
      · exact fun σ x ↦ count_entry_foldl_push Prod.fst _ d.nextNodeId σ
      · exact fun p ↦ entry_foldl_addDownstream Prod.fst _ _ d.nextNodeId p
      · exact fun p hp ↦ mem_foldl_addDownstream Prod.fst _ hp

/-! ### Removing a node -/

section Removal

variable {id : ℕ} {n : DerivedNode}

theorem nodes_removeNode (hn : d.nodes.lookup id = some n) :
    (d.removeNode id).1.nodes = d.nodes.erase id := by
  rw [removeNode, hn]

theorem inputTopicsOf_removeNode (hn : d.nodes.lookup id = some n) (x : ℕ) :
    (d.removeNode id).1.inputTopicsOf x = if x = id then [] else d.inputTopicsOf x := by
  rw [inputTopicsOf, nodes_removeNode hn]
  split
  · rename_i hx
    rw [hx, AList.lookup_erase]
    rfl
  · rename_i hx
    rw [AList.lookup_erase_ne hx, inputTopicsOf]

theorem outputTopics_removeNode (hn : d.nodes.lookup id = some n) (x : ℕ) :
    (d.removeNode id).1.outputTopics x = if x = id then [] else d.outputTopics x := by
  rw [outputTopics, nodes_removeNode hn]
  split
  · rename_i hx
    rw [hx, AList.lookup_erase]
    rfl
  · rename_i hx
    rw [AList.lookup_erase_ne hx, outputTopics]

theorem feeds_removeNode (hn : d.nodes.lookup id = some n) (p c : ℕ) :
    (d.removeNode id).1.Feeds p c ↔ d.Feeds p c ∧ p ≠ id ∧ c ≠ id := by
  rw [Feeds, outputTopics_removeNode hn, inputTopicsOf_removeNode hn]
  by_cases hp : p = id
  · simp [hp]
  · by_cases hc : c = id
    · simp [hc]
    · simp [hp, hc, Feeds]

theorem downstreamOf_removeNode (hn : d.nodes.lookup id = some n) :
    (d.removeNode id).1.downstreamOf = dropNode id (d.downstreamOf.erase id) := by
  rw [removeNode, hn]

theorem entry_downstreamOf_removeNode (hn : d.nodes.lookup id = some n) (p : ℕ) :
    entry (d.removeNode id).1.downstreamOf p =
      if p = id then [] else (entry d.downstreamOf p).filter (· ≠ id) := by
  rw [downstreamOf_removeNode hn, entry_dropNode]
  split
  · rename_i hp
    rw [hp, entry, AList.lookup_erase]
    rfl
  · rename_i hp
    rw [entry_erase_of_ne hp]

theorem producer_removeNode (hd : d.Linked) (hn : d.nodes.lookup id = some n) (τ x : ℕ) :
    (d.removeNode id).1.outputTopicToNode.lookup τ = some x ↔
      τ ∈ (d.removeNode id).1.outputTopics x := by
  have hself : d.outputTopics id = n.outputTopics := by
    rw [outputTopics, hn]
    rfl
  have hmap : (d.removeNode id).1.outputTopicToNode =
      n.outputTopics.foldl (fun m τ ↦ m.erase τ) d.outputTopicToNode := by
    rw [removeNode, hn]
  rw [hmap, lookup_foldl_erase, outputTopics_removeNode hn, ← hself]
  by_cases hx : x = id
  · -- an entry that still leads to the removed node would be one of its outputs
    subst hx
    by_cases hτ : τ ∈ d.outputTopics x
    · simp [hτ]
    · simp [hτ, hd.producer]
  · by_cases hτ : τ ∈ d.outputTopics id
    · have hother : τ ∉ d.outputTopics x := fun hout ↦ hx
        (Option.some.inj (((hd.producer τ x).mpr hout).symm.trans ((hd.producer τ id).mpr hτ)))
      simp [hτ, hx, hother]
    · simp [hτ, hx, hd.producer]

theorem consumers_removeNode (hd : d.Linked) (hn : d.nodes.lookup id = some n) (τ x : ℕ) :
    (entry (d.removeNode id).1.topicToNodes τ).count x =
      ((d.removeNode id).1.inputTopicsOf x).count τ := by
  have hself : d.inputTopicsOf id = n.inputTopics := by
    rw [inputTopicsOf, hn]
    rfl
  have hmap : (d.removeNode id).1.topicToNodes = n.inputTopics.foldl
      (fun m τ ↦ m.insert τ ((entry m τ).filter (· ≠ id))) d.topicToNodes := by
    rw [removeNode, hn]
  rw [hmap, entry_foldl_filter, inputTopicsOf_removeNode hn, ← hself]
  by_cases hx : x = id
  · subst hx
    rw [if_pos rfl, List.count_nil]
    by_cases hτ : τ ∈ d.inputTopicsOf x
    · rw [if_pos hτ]
      exact List.count_eq_zero.mpr fun hmem ↦ by simp at hmem
    · rw [if_neg hτ, hd.consumers]
      exact List.count_eq_zero.mpr hτ
  · rw [if_neg hx, ← hd.consumers]
    by_cases hτ : τ ∈ d.inputTopicsOf id
    · rw [if_pos hτ, List.count_filter (by simpa using hx)]
    · rw [if_neg hτ]

end Removal

theorem linked_removeNode (hd : d.Linked) (id : ℕ) : (d.removeNode id).1.Linked := by
  rcases hn : d.nodes.lookup id with _ | n
  · rw [removeNode, hn]
    exact hd
  have hmem : ∀ x, x ∈ (d.removeNode id).1.nodes ↔ x ≠ id ∧ x ∈ d.nodes := fun x ↦ by
    rw [nodes_removeNode hn, AList.mem_erase]
  have hdata : (d.removeNode id).1.data = d.data := by rw [removeNode, hn]
  have hnext : (d.removeNode id).1.nextNodeId = d.nextNodeId := by rw [removeNode, hn]
  refine ⟨hdata ▸ hd.below, ?_, ?_, ?_, ?_, ?_, producer_removeNode hd hn,
    consumers_removeNode hd hn, ?_, ?_, ?_⟩
  · intro x m hm
    rw [nodes_removeNode hn] at hm
    by_cases hx : x = id
    · rw [hx, AList.lookup_erase] at hm
      cases hm
    · rw [AList.lookup_erase_ne hx] at hm
      exact hd.id_eq x m hm
  · exact fun x hx ↦ hnext ▸ hd.id_lt x ((hmem x).mp hx).2
  · intro x τ hτ
    rw [inputTopicsOf_removeNode hn] at hτ
    split at hτ
    · exact absurd hτ List.not_mem_nil
    · exact hdata ▸ hd.input_lt x τ hτ
  · intro x τ hτ
    rw [outputTopics_removeNode hn] at hτ
    split at hτ
    · exact absurd hτ List.not_mem_nil
    · exact hdata ▸ hd.output_lt x τ hτ
  · exact fun p c hpc ↦ hd.forward p c ((feeds_removeNode hn p c).mp hpc).1
  · intro p
    rw [entry_downstreamOf_removeNode hn]
    split
    · exact List.nodup_nil
    · exact (hd.downstream_nodup p).filter _
  · intro p c
    rw [entry_downstreamOf_removeNode hn, feeds_removeNode hn]
    by_cases hp : p = id
    · simp [hp]
    · simp [hp, hd.mem_downstream]
  · intro p hp
    rw [downstreamOf_removeNode hn, mem_dropNode, AList.mem_erase] at hp
    exact (hmem p).mpr ⟨hp.1, hd.downstream_live p hp.2⟩

end DerivedEngine

end PlotJuggler
