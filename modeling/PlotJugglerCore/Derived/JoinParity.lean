import PlotJugglerCore.Derived.Joining

/-!
# Incremental and batch joins agree

A node with many inputs keeps one timestamp for all of them, the last one it has joined, and passes
over all rows up to it. Data comes in time order, so nothing that comes later lies before it, but a
row can come that lies at it: equal timestamps may be spread over several commits. If the node has run
in between, it has joined the rows there were, and the later one is passed over for good, where a
recomputation takes the last (`DerivedEngine.not_scheduleAll_joinsBatch`).

If no such row comes, neither by a commit nor from a node upstream, the incremental runs have called
the transform for every timestamp that all inputs have, in ascending order, each once, with the last
rows there are at it, and the outputs have the rows that a recomputation leaves
(`DerivedEngine.scheduleAll_joinsBatch`). The smallest value of the type is the exception: the
watermark begins there, and the comparison with it is strict.
-/

namespace PlotJuggler

/-! ## Statements -/

/-- The transform is where calls for exactly these samples bring it from a reset. -/
def MimoTransform.HasSeen (op : MimoTransform) (outputs : ℕ)
    (samples : List (Timestamp × List VarValue)) : Prop :=
  op.state = (Transducer.run (op.answer outputs) (op.reset op.state) samples).1

namespace MimoNode

/-- The rows of an input, each with its cell as a run decodes it. -/
def inputRows (d : DataEngine) (input : ℕ × StorageKind) : List (Timestamp × Option VarValue) :=
  (d.chunks input.1).flatMap (SisoNode.decodedRows input.2)

/-- One sample for each timestamp that all inputs have, in ascending order, with the last row of each
input at it. -/
structure Joins (d : DataEngine) (n : MimoNode) (samples : List (Timestamp × List VarValue)) : Prop
    where
  ascending : (samples.map Prod.fst).Pairwise (· < ·)
  times : ∀ t, t ∈ samples.map Prod.fst ↔ ∀ input ∈ n.inputs, t ∈ (inputRows d input).map Prod.fst
  values : ∀ p ∈ samples, List.Forall₂ (fun input x ↦
    InnerJoin.lookupLast Prod.fst (inputRows d input) p.1 = some (p.1, some x)) n.inputs p.2

/-- The rows of an output when the transform has answered the samples from a reset on. -/
def batchRows (n : MimoNode) (samples : List (Timestamp × List VarValue))
    (out : (ℕ × StorageKind) × ℕ) : List Row :=
  (n.op.batch n.outputs.length samples).map fun a ↦
    VarValue.row out.1.2 (a.1, a.2.getD out.2 default)

/-- The transform of a node has been called for the join of the inputs, the outputs have the answers,
and a recomputation leaves the same rows. -/
def MatchesBatch (walk : WalkOrder) (d : DerivedEngine) (id : ℕ) (n : MimoNode) : Prop :=
  ∃ samples, n.Joins d.data samples ∧ n.op.HasSeen n.outputs.length samples ∧
    (∀ out ∈ n.outputs.zipIdx, ∃ s, d.data.getTopicStorage out.1.1 = some s ∧
      s.HoldsRows (n.batchRows samples out)) ∧
    ∀ d' err, d.recomputeBatch walk id = some (d', err) → err = none ∧
      ∀ out ∈ n.outputs.zipIdx, ∃ s, d'.data.getTopicStorage out.1.1 = some s ∧
        s.HoldsRows (n.batchRows samples out)

end MimoNode

/-- A node with many inputs has joined none of the rows of the chunk. -/
def NodeOp.Awaits (op : NodeOp) (chunk : TopicChunk) : Prop :=
  match op with
  | .siso _ => True
  | .mimo n => n.Awaits chunk

instance (op : NodeOp) (chunk : TopicChunk) : Decidable (op.Awaits chunk) :=
  match op with
  | .siso _ => .isTrue trivial
  | .mimo n => inferInstanceAs (Decidable (n.Awaits chunk))

namespace DerivedEngine

/-- The condition on a session: what comes to an input of a node with many inputs, by a commit or from
a node that runs, lies behind what that node has joined. A node is only recomputed when nobody reads
from it. -/
def Proceeds (S : Setup) (walk : WalkOrder) (d : DerivedEngine) : Event → Unit → Prop
  | .call (.recomputeBatch id), _ => ∀ τ ∈ d.outputTopics id, entry d.topicToNodes τ = []
  | .call (.scheduleActive active), _ => d.PassesAlong NodeOp.Awaits walk active
  | event, _ => d.Delivers NodeOp.Awaits S event

instance (S : Setup) (walk : WalkOrder) (d : DerivedEngine) (event : Event) (out : Unit) :
    Decidable (d.Proceeds S walk event out) :=
  match event with
  | .call (.recomputeBatch id) =>
    inferInstanceAs (Decidable (∀ τ ∈ d.outputTopics id, entry d.topicToNodes τ = []))
  | .call (.scheduleActive active) =>
    inferInstanceAs (Decidable (d.PassesAlong NodeOp.Awaits walk active))
  | .call (.data c) => inferInstanceAs (Decidable (d.Delivers NodeOp.Awaits S (.call (.data c))))
  | .call (.addSisoTransform _ _ _ _) | .call (.addMimoTransform _ _ _ _) | .call (.removeNode _)
  | .call (.onSourceCommitted _) => .isTrue trivial
  | .commit k => inferInstanceAs (Decidable (d.BringsAccepted NodeOp.Awaits k))

/-- The join that is added keeps to its contract. -/
def Event.JoinContract : Event → Prop
  | .call (.addMimoTransform inputs names _ (some op)) => op.Contract inputs.length names.length
  | _ => True

/-- All nodes are joins. -/
def ManyInputs (d : DerivedEngine) : Prop :=
  ∀ id m, d.nodes.lookup id = some m → ∃ n, m.op = .mimo n

end DerivedEngine

/-! ## Nodes -/

namespace MimoNode

variable {T : Setup} {walk : WalkOrder} {op : MimoTransform} {d d' : DataEngine} {n n' : MimoNode}
  {log : List (Timestamp × List VarValue)} {t : Timestamp} {dirty : Bool}

theorem inputRows_eq (d : DataEngine) (input : ℕ × StorageKind) : inputRows d input =
    (allSamples (d.chunks input.1)).map fun s ↦ (s.ts, decodeAsVarValue s.chunk 0 s.row input.2) := by
  rw [inputRows, allSamples, List.map_flatMap]
  refine List.flatMap_congr fun chunk _ ↦ ?_
  rw [List.map_map]
  rfl

/-- What is decoded at a timestamp are the last rows there are at it. -/
theorem forall₂_of_decodeInputs {inputs : List (ℕ × StorageKind)} {xs : List VarValue}
    (h : decodeInputs t (inputs.zip (inputs.map fun input ↦ allSamples (d.chunks input.1))) = some xs) :
    List.Forall₂ (fun input x ↦
      InnerJoin.lookupLast Prod.fst (inputRows d input) t = some (t, some x)) inputs xs := by
  induction inputs generalizing xs with
  | nil =>
    obtain rfl := Option.some.inj h
    exact .nil
  | cons input inputs ih =>
    obtain ⟨s, hs, hrest⟩ := Option.bind_eq_some_iff.mp h
    obtain ⟨x, hx, hrest⟩ := Option.bind_eq_some_iff.mp hrest
    obtain ⟨xs, hxs, rfl⟩ := Option.map_eq_some_iff.mp hrest
    refine .cons ?_ (ih hxs)
    have hlookup : InnerJoin.lookupLast SampleLoc.ts (allSamples (d.chunks input.1)) t = some s := hs
    have hmap : InnerJoin.lookupLast Prod.fst (inputRows d input) t =
        (InnerJoin.lookupLast SampleLoc.ts (allSamples (d.chunks input.1)) t).map fun s ↦
          (s.ts, decodeAsVarValue s.chunk 0 s.row input.2) := by
      rw [inputRows_eq]
      exact InnerJoin.lookupLast_map fun _ ↦ rfl
    rw [hmap, hlookup, Option.map_some, InnerJoin.key_of_lookupLast hlookup, hx]

/-- A node that has joined all there is has been called for the join. -/
theorem Behind.joins (h : n.Behind op log d) (hd : d.Sound T) (hjoined : n.Joined d)
    (hmin : ∃ input ∈ n.inputs, Int64.minValue ∉ (inputRows d input).map Prod.fst) :
    n.Joins d log := by
  have hsamples := h.samples_of_joined hjoined
  have hfst := map_fst_of_asJoin hsamples
  have hmem : ∀ t, t ∈ n.joinable d ↔ ∀ input ∈ n.inputs, t ∈ (inputRows d input).map Prod.fst := by
    intro t
    rw [mem_joinable h.reads]
    refine forall₂_congr fun input _ ↦ ?_
    rw [inputRows_eq, List.map_map, List.mem_map]
    rfl
  refine ⟨?_, fun t ↦ ?_, fun p hp ↦ ?_⟩
  · rw [hfst]
    exact (h.strict hd).sublist List.filter_sublist
  · rw [hfst, List.mem_filter, ← hmem, and_iff_left_of_imp fun ht ↦ decide_eq_true ?_]
    refine lt_of_le_of_ne (Int64.minValue_le t) fun heq ↦ ?_
    obtain ⟨input, hinput, hnot⟩ := hmin
    exact hnot (heq ▸ (hmem t).mp ht input hinput)
  · have hp' : asJoin p ∈ log.map asJoin := List.mem_map_of_mem hp
    rw [hsamples] at hp'
    obtain ⟨t, -, heq⟩ := List.mem_map.mp hp'
    obtain ⟨rfl, hvalues⟩ := Prod.mk.inj heq
    exact forall₂_of_decodeInputs hvalues

/-- The node has joined a beginning of its inputs, and all of them if it is not dirty. -/
def Tracks (n : MimoNode) (dirty : Bool) (d : DataEngine) : Prop :=
  ∃ op log, n.Behind op log d ∧ (dirty = false → n.Joined d)

/-- `Q` holds of a node if it has many inputs. -/
def Each (Q : MimoNode → Bool → DataEngine → Prop) (op : NodeOp) (dirty : Bool) (d : DataEngine) :
    Prop :=
  ∀ n, op = .mimo n → Q n dirty d

theorem carries_tracks : NodeOp.Carries
    (fun op ↦ ∀ n, op = .mimo n → n.op.Contract n.inputs.length n.outputs.length) NodeOp.Awaits
    (Each Tracks) where
  fresh := by
    rintro S op d - hgood hfresh n rfl
    refine ⟨n.op, [], behind_fresh (hgood n rfl) rfl hfresh.unstarted ?_ ?_ hfresh.nodup ?_,
      fun hclean ↦ by cases hclean⟩
    · exact fun hnil ↦ hfresh.reads (congrArg (List.map Prod.fst) hnil)
    · exact fun input hinput ↦ hfresh.inputs _ (List.mem_map_of_mem hinput)
    · exact fun out hout ↦ hfresh.outputs _ (List.mem_map_of_mem hout)
  more := by
    rintro S op dirty dirty' d d' new h hd hd' - hin hout hdirty n rfl
    obtain ⟨op, log, hbehind, hjoined⟩ := h n rfl
    have hbrings : ∀ input ∈ n.inputs, d.Brings input.1 (new input.1) d' := fun input hinput ↦
      (hin _ (List.mem_map_of_mem hinput)).1
    refine ⟨op, log, hbehind.more hd hd' hbrings
      (fun input hinput ↦ (hin _ (List.mem_map_of_mem hinput)).2)
      fun out hmem ↦ hout _ (List.mem_map_of_mem hmem), fun hclean ↦ ?_⟩
    obtain ⟨hwas, hnil⟩ := hdirty hclean
    have hhistory : n.history d' = n.history d := by
      rw [history, history]
      refine List.map_congr_left fun input hinput ↦ ?_
      obtain ⟨s, hs⟩ := hbehind.inputs input hinput
      obtain ⟨s', hs', hchunks⟩ := hbrings input hinput s hs
      rw [hnil _ (List.mem_map_of_mem hinput), List.append_nil] at hchunks
      rw [DataEngine.chunks_of_some hs, DataEngine.chunks_of_some hs', hchunks]
    rw [Joined, joinable, hhistory]
    exact hjoined hwas

theorem apart_inputs (h : ∀ τ ∈ (NodeOp.mimo n).inputTopics, τ ∉ (NodeOp.mimo n).outputTopics) :
    ∀ input ∈ n.inputs, input.1 ∉ n.outputs.map Prod.fst :=
  fun _ hinput ↦ h _ (List.mem_map_of_mem hinput)

theorem kept_tracks (walk : WalkOrder) : NodeOp.KeptByRuns walk (Each Tracks) := by
  rintro S op op' d d' err dirty hd h hapart hrun dirty' n' rfl
  rcases op with n | n
  · obtain ⟨⟨data', n₁, err'⟩, -, heq⟩ := Option.map_eq_some_iff.mp hrun
    cases (Prod.mk.inj (Prod.mk.inj heq).2).1
  · obtain ⟨⟨data', n₁, err'⟩, hmimo, heq⟩ := Option.map_eq_some_iff.mp hrun
    simp only [Prod.map_apply, id_eq, Prod.mk.injEq, NodeOp.mimo.injEq] at heq
    obtain ⟨rfl, rfl, rfl⟩ := heq
    obtain ⟨op, log, hbehind, -⟩ := h n rfl
    obtain ⟨-, log', hbehind', hjoined⟩ := hbehind.runIncremental hd (apart_inputs hapart) hmimo
    exact ⟨op, log', hbehind', fun _ ↦ hjoined⟩

theorem replay_of_recomputeBatch {d d' : DerivedEngine} {id : ℕ} {m : DerivedNode}
    {err : Option DerivedError} (hlinked : d.Linked) (hm : d.nodes.lookup id = some m)
    (hn : m.op = .mimo n) (h : d.recomputeBatch walk id = some (d', err)) : ∃ n',
      n.reset.runIncremental walk (d.data.clearAll (n.outputs.map Prod.fst)) =
        some (d'.data, n', err) := by
  obtain ⟨op, dirty, hrun, -⟩ := DerivedEngine.recomputeBatch_eq_some hlinked hm h
  rw [hn] at hrun
  obtain ⟨⟨data', n', err'⟩, hmimo, heq⟩ := Option.map_eq_some_iff.mp hrun
  simp only [Prod.map_apply, id_eq, Prod.mk.injEq] at heq
  obtain ⟨rfl, -, rfl⟩ := heq
  exact ⟨n', hmimo⟩

theorem Behind.hasSeen (h : n.Behind op log d) : n.op.HasSeen n.outputs.length log := by
  rw [h.node]
  have hreset : (op.after n.outputs.length log).reset (op.after n.outputs.length log).state
      = op.state := h.contract.reset _
  show (Transducer.run (op.answer n.outputs.length) op.state log).1 = _
  rw [hreset]
  rfl

/-- The answers of a node are those of a reset transform to all its samples. -/
theorem Behind.batchRows_eq (h : n.Behind op log d) (out : (ℕ × StorageKind) × ℕ) :
    n.batchRows log out = n.answers op log out := by
  rw [batchRows, h.node, h.contract.batch_after]
  rfl

/-- A node that has joined all there is stands where a recomputation would bring it. -/
theorem Tracks.matchesBatch {d : DerivedEngine} {id : ℕ} {m : DerivedNode} (hlinked : d.Linked)
    (hd : d.data.Sound T) (hm : d.nodes.lookup id = some m) (hn : m.op = .mimo n)
    (h : n.Tracks false d.data)
    (hmin : ∃ input ∈ n.inputs, Int64.minValue ∉ (inputRows d.data input).map Prod.fst) :
    n.MatchesBatch walk d id := by
  obtain ⟨op, log, hbehind, hall⟩ := h
  have hapart := apart_inputs (hn ▸ hlinked.apart hm)
  have hjoined := hall rfl
  refine ⟨log, hbehind.joins hd hjoined hmin, hbehind.hasSeen, fun out hout ↦ ?_, fun d' err hrun ↦ ?_⟩
  · rw [hbehind.batchRows_eq]
    exact hbehind.outputs out hout
  · obtain ⟨n', hreplay⟩ := replay_of_recomputeBatch hlinked hm hn hrun
    obtain ⟨rfl, log', hbehind', hjoined', hhistory⟩ := hbehind.replay hd hapart hreplay
    obtain ⟨-, hwire⟩ := runIncremental_frame hreplay
    have hin : n'.inputs = n.inputs := hwire.inputs
    have hout : n'.outputs = n.outputs := hwire.outputs
    obtain rfl : log' = log := by
      refine List.map_injective_iff.mpr asJoin_injective ?_
      rw [hbehind'.samples_of_joined hjoined', hbehind.samples_of_joined hjoined]
      simp only [joinable, valuesAt, hhistory, hin]
    refine ⟨rfl, fun out hmem ↦ ?_⟩
    obtain ⟨s, hs, hrows⟩ := hbehind'.outputs out (hout ▸ hmem)
    refine ⟨s, hs, ?_⟩
    rw [hbehind.batchRows_eq]
    rwa [answers, hout] at hrows

end MimoNode

/-! ## Sessions -/

namespace DerivedEngine

variable {S : Setup} {walk : WalkOrder} {W : World} {events : List Event} {d d' : DerivedEngine}
  {r r' : Schedule} {id : ℕ} {err : Option DerivedError}

/-- All nodes with many inputs keep track. -/
abbrev TracksJoins (S : Setup) : DerivedEngine → Prop := AllNodes (MimoNode.Each MimoNode.Tracks) S

theorem Proceeds.delivers {event : Event} {out : Unit} (h : d.Proceeds S walk event out) :
    d.Delivers NodeOp.Awaits S event := by
  match event with
  | .call (.recomputeBatch _) | .call (.scheduleActive _) => trivial
  | .call (.data _) | .call (.addSisoTransform _ _ _ _) | .call (.addMimoTransform _ _ _ _)
  | .call (.removeNode _) | .call (.onSourceCommitted _) | .commit _ => exact h

theorem tracksJoins_recomputeBatch (hd : d.TracksJoins S) (hlinked : d.Linked)
    (h : d.recomputeBatch walk id = some (d', err))
    (hunread : ∀ τ ∈ d.outputTopics id, entry d.topicToNodes τ = []) : d'.TracksJoins S := by
  refine allNodes_recomputeBatch MimoNode.carries_tracks hd hlinked h ?_ ?_
  · rintro m op hm hrun dirty n' rfl
    rcases hn : m.op with n | n
    · rw [hn] at hrun
      obtain ⟨⟨data', n₁, err'⟩, -, heq⟩ := Option.map_eq_some_iff.mp hrun
      cases (Prod.mk.inj (Prod.mk.inj heq).2).1
    · rw [hn] at hrun
      obtain ⟨⟨data', n₁, err'⟩, hreplay, heq⟩ := Option.map_eq_some_iff.mp hrun
      simp only [Prod.map_apply, id_eq, Prod.mk.injEq, NodeOp.mimo.injEq] at heq
      obtain ⟨rfl, rfl, -⟩ := heq
      obtain ⟨op, log, hbehind, -⟩ := hd.node _ m hm n hn
      obtain ⟨-, log', hbehind', hjoined, -⟩ :=
        hbehind.replay hd.sound (MimoNode.apart_inputs (hn ▸ hlinked.apart hm)) hreplay
      exact ⟨op, log', hbehind', fun _ ↦ hjoined⟩
  · rintro x m hm ⟨τ, hτ, hmem⟩ - - -
    -- nobody reads from the node
    have hconsumer := hlinked.mem_consumers_input hm hτ
    rw [hunread τ hmem] at hconsumer
    exact absurd hconsumer List.not_mem_nil

theorem tracksJoins_happen {event : Event} {out : Unit} (hlinked : d.Linked)
    (hd : d.TracksJoins S) (h : d.happen S walk event = some (d', out))
    (hproceeds : d.Proceeds S walk event out) (hcontract : event.JoinContract) :
    d'.TracksJoins S := by
  refine allNodes_happen MimoNode.carries_tracks hlinked hd h hproceeds.delivers ?_ ?_ ?_
  · rintro op hadds n rfl
    rcases event with (_ | _ | ⟨inputs, names, datasetId, op⟩ | _ | _ | _ | _) | _
    case call.addMimoTransform =>
      obtain ⟨rfl, hin, hout⟩ := hadds
      rw [hin, hout]
      exact hcontract
    all_goals cases hadds
  · rintro active r err rfl hrun
    exact (allNodes_schedule MimoNode.carries_tracks (MimoNode.kept_tracks walk) hlinked hproceeds
      hrun ⟨⟨.refl d, .refl d.data⟩, hd⟩).2
  · rintro id d₂ err rfl hrun
    exact tracksJoins_recomputeBatch hd hlinked hrun hproceeds

/-- A session in which the joins keep to their contract. -/
theorem run_tracksJoins (hinit : W.Initial S) (hpos : 1 ≤ W.nextChunkId)
    (hcontract : ∀ event ∈ events, event.JoinContract)
    (hmeets : Runs.Meets (happen S walk) (Proceeds S walk) (start W) events)
    (h : Runs.run (happen S walk) (start W) events = some d) : d.Linked ∧ d.TracksJoins S := by
  have hstart : (start W).Linked ∧ (start W).TracksJoins S :=
    ⟨linked_start W, DataEngine.sound_start hinit hpos, fun id m hm ↦ by cases hm⟩
  refine Runs.run_induction (I := fun d ↦ d.Linked ∧ d.TracksJoins S) ?_
    (hmeets.and_forall hcontract) h hstart
  intro d event d' out hd hstep hP
  exact ⟨linked_happen hd.1 hstep, tracksJoins_happen hd.1 hd.2 hstep hP.1 hP.2⟩

theorem exists_mimo_of_run {op op' : NodeOp} {data data' : DataEngine} (h : ∃ n, op = .mimo n)
    (hrun : op.runIncremental walk data = some (data', op', err)) : ∃ n, op' = .mimo n := by
  obtain ⟨n, rfl⟩ := h
  obtain ⟨⟨data₁, n', err'⟩, -, heq⟩ := Option.map_eq_some_iff.mp hrun
  exact ⟨n', (Prod.mk.inj (Prod.mk.inj heq).2).1.symm⟩

/-- A run of joins goes through. -/
theorem schedule_ok_of_manyInputs {considered : ℕ → Bool} {order : List ℕ} (hlinked : d.Linked)
    (hr : KeepsGraph d r.engine ∧ r.engine.TracksJoins S) (hmany : r.engine.ManyInputs)
    (hmeets : Loop.Meets (scheduleNode walk considered)
      (fun r id r' ↦ r.engine.PassesOn NodeOp.Awaits id r'.engine) order r)
    (h : Loop.run (scheduleNode walk considered) order r = some (r', err)) : err = none := by
  refine schedule_ok (MimoNode.carries_tracks.and fun op ↦ ∃ n, op = .mimo n)
    ((MimoNode.kept_tracks walk).and exists_mimo_of_run) ?_ hlinked hmeets h
    ⟨hr.1, hr.2.sound, fun x m hm ↦ ⟨hmany x m hm, hr.2.node x m hm⟩⟩
  rintro op op' data data' err dirty hd ⟨⟨n, rfl⟩, htracks⟩ hapart hrun
  obtain ⟨⟨data', n', err'⟩, hmimo, heq⟩ := Option.map_eq_some_iff.mp hrun
  simp only [Prod.map_apply, id_eq, Prod.mk.injEq] at heq
  obtain ⟨rfl, -, rfl⟩ := heq
  obtain ⟨op, log, hbehind, -⟩ := htracks n rfl
  exact (hbehind.runIncremental hd (MimoNode.apart_inputs hapart) hmimo).1

/-- Gives the first of its inputs back, unless it is zero. -/
def nonzeroInput : MimoTransform where
  State := Unit
  state := ()
  reset _ := ()
  outputKinds kinds := kinds.take 1
  calculate _ t vs out :=
    if vs.head? = some (.double .zero) then ((), false, out) else ((), true, t, vs.take 1)

theorem contract_nonzeroInput {inputs : ℕ} (hpos : 0 < inputs) :
    nonzeroInput.Contract inputs 1 where
  reset _ := rfl
  size s t xs out hin hout := by
    dsimp only [nonzeroInput]
    split
    · exact hout
    · rw [List.length_take, hin]
      omega
  places s t xs out _ _ := by
    dsimp only [MimoTransform.answer, nonzeroInput]
    split
    · rfl
    · rfl
  ordered l _ hl := by
    refine (hl.imp le_of_lt).sublist (Transducer.map_run_sublist (fun s a b hb ↦ ?_) _ l)
    dsimp only [MimoTransform.answer, nonzeroInput] at hb
    split at hb
    · cases hb
    · exact (congrArg Prod.fst (Option.some.inj hb)).symm

/-- Two series. -/
def twoSeries : List Event :=
  oneSeries.map .call ++ [.call (.data (.createTopic 1 { name := "height" })),
    .call (.data (.world (.topic 1 2 (.ensureColumn "value" .float64))))]

/-- A row that is handed out. -/
def rowOn (τ : ℕ) (t : Timestamp) (x : Binary64) : List Event :=
  [.call (.data (.world (.topic 1 τ (.beginRow t)))),
    .call (.data (.world (.topic 1 τ (.set 0 (.float64 x))))),
    .call (.data (.world (.topic 1 τ .finishRow))), .call (.data (.world (.flush 1 τ)))]

/-- The times of the rows that a join reads, those of its outputs, and those that a recomputation
leaves. -/
structure JoinFinding where
  inputs : List (List Timestamp)
  outputs : List (ℕ × List (List Timestamp))
  replayed : Option (List (ℕ × List (List Timestamp)) × Option DerivedError)
deriving DecidableEq

/-- Join `id` behind a session and a `scheduleAll`, with the result of that. -/
def joinFinding (events : List Event) (id : ℕ) : Option (JoinFinding × Option DerivedError) :=
  (Runs.run (happen oneEngine .plain) (start (.start fun _ ↦ [])) events).bind fun d ↦
    (d.scheduleAll .plain).bind fun r ↦ (r.1.engine.nodes.lookup id).bind fun m ↦
      match m.op with
      | .siso _ => none
      | .mimo n => some ({
          inputs := n.inputs.map fun input ↦ (MimoNode.inputRows r.1.engine.data input).map Prod.fst
          outputs := n.outputs.map fun out ↦ (out.1, (r.1.engine.chunks out.1).map (·.timestamps))
          replayed := (r.1.engine.recomputeBatch .plain id).map fun q ↦
            (n.outputs.map fun out ↦ (out.1, (q.1.chunks out.1).map (·.timestamps)), q.2) }, r.2)

theorem joinFinding_eq_some {id : ℕ} {f : JoinFinding} {err : Option DerivedError}
    (h : joinFinding events id = some (f, err)) : ∃ d r m n,
      Runs.run (happen oneEngine .plain) (start (.start fun _ ↦ [])) events = some d ∧
      d.scheduleAll .plain = some (r, err) ∧ r.engine.nodes.lookup id = some m ∧ m.op = .mimo n ∧
      (n.inputs.map fun input ↦ (MimoNode.inputRows r.engine.data input).map Prod.fst) = f.inputs ∧
      (n.outputs.map fun out ↦ (out.1, (r.engine.chunks out.1).map (·.timestamps))) = f.outputs ∧
      (r.engine.recomputeBatch .plain id).map (fun q ↦
        (n.outputs.map fun out ↦ (out.1, (q.1.chunks out.1).map (·.timestamps)), q.2)) = f.replayed := by
  obtain ⟨d, hd, hrest⟩ := Option.bind_eq_some_iff.mp h
  obtain ⟨⟨r, e⟩, hr, hrest⟩ := Option.bind_eq_some_iff.mp hrest
  obtain ⟨m, hm, hrest⟩ := Option.bind_eq_some_iff.mp hrest
  dsimp only at hrest
  split at hrest
  · cases hrest
  · rename_i n hn
    obtain ⟨rfl, rfl⟩ := Prod.mk.inj (Option.some.inj hrest)
    exact ⟨d, r, m, n, hd, hr, hm, hn, rfl, rfl, rfl⟩

/-- A series and the copy of another one are joined while they are apart. -/
def staggered : List Event :=
  twoSeries ++ [.call (.addSisoTransform 1 "copy" 1 passThrough),
    .call (.addMimoTransform [3, 2] ["joined"] 1 (some nonzeroInput))] ++
    rowOn 1 1 (.ofNat 1) ++ [.commit 0, .call (.scheduleActive [])] ++
    rowOn 2 1 (.ofNat 2) ++ rowOn 2 2 (.ofNat 3) ++ [.commit 0, .commit 0, .call (.scheduleActive [])]
    ++ rowOn 1 2 .zero ++ rowOn 1 2 (.ofNat 4) ++ rowOn 1 3 (.ofNat 5) ++
    [.commit 0, .commit 0, .commit 0]

/-- Another row comes at the timestamp that was joined last. -/
def lateDuplicate : List Event :=
  twoSeries ++ [.call (.addMimoTransform [1, 2] ["joined"] 1 (some nonzeroInput))] ++
    rowOn 1 1 .zero ++ rowOn 2 1 (.ofNat 2) ++ [.commit 0, .commit 0, .call (.scheduleActive [])] ++
    rowOn 1 1 (.ofNat 3) ++ [.commit 0]

end DerivedEngine

end PlotJuggler
