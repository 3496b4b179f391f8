import PlotJugglerCore.Derived.Engine

/-!
# What a run of a node leaves alone

A node writes to its output topics and to nothing else: other topics, other engines, the writers of
the world and the batches in flight are what they were, no topic comes or goes, and the node keeps
its wiring. `World.Touches` says so of a world and is put together call by call; the commit at the
end stays inside because a writer hands out chunks only for the topics it was asked about.

Topics are never taken away, and those that come have ids nobody has seen (`DataEngine.Below`): no
call on the world changes which topics there are, and `createTopic` counts up.
-/

namespace PlotJuggler

/-! ## Worlds -/

/-- The two worlds differ in writer `0` and the given topics of engine `0` at most. -/
structure World.Touches (topics : List ℕ) (W W' : World) : Prop where
  order : (W'.engines 0).order = (W.engines 0).order
  topic : ∀ τ ∉ topics, (W'.engines 0).topics τ = (W.engines 0).topics τ
  engine : ∀ e ≠ 0, W'.engines e = W.engines e
  writer : ∀ w ≠ 0, W'.writers w = W.writers w
  inFlight : W'.inFlight = W.inFlight

/-- The same of data engines, which lend writer `0` and get it back. -/
structure DataEngine.Touches (topics : List ℕ) (d d' : DataEngine) : Prop where
  world : d.world.Touches topics d'.world
  writer : d'.world.writers 0 = d.world.writers 0
  schemas : d'.schemas = d.schemas
  datasets : d'.datasets = d.datasets
  nextTopicId : d'.nextTopicId = d.nextTopicId

namespace World

variable {S : Setup} {W W' W'' : World} {topics : List ℕ} {τ : ℕ}

namespace Touches

theorem refl (topics : List ℕ) (W : World) : Touches topics W W :=
  ⟨rfl, fun _ _ ↦ rfl, fun _ _ ↦ rfl, fun _ _ ↦ rfl, rfl⟩

theorem trans (h : Touches topics W W') (h' : Touches topics W' W'') : Touches topics W W'' where
  order := h'.order.trans h.order
  topic σ hσ := (h'.topic σ hσ).trans (h.topic σ hσ)
  engine e he := (h'.engine e he).trans (h.engine e he)
  writer w hw := (h'.writer w hw).trans (h.writer w hw)
  inFlight := h'.inFlight.trans h.inFlight

theorem mono {topics' : List ℕ} (h : Touches topics W W') (hsub : topics ⊆ topics') :
    Touches topics' W W' :=
  ⟨h.order, fun τ hτ ↦ h.topic τ fun hmem ↦ hτ (hsub hmem), h.engine, h.writer, h.inFlight⟩

theorem setWriter (h : Touches topics W W') {tw : TopicWriter} :
    Touches topics W (W'.setWriter 0 τ tw) where
  order := h.order
  topic := h.topic
  engine := h.engine
  writer w hw := (Function.update_of_ne hw _ _).trans (h.writer w hw)
  inFlight := h.inFlight

/-- A change of one of the topics. -/
theorem mapTopic (h : Touches topics W W') (hτ : τ ∈ topics) {f : TopicStorage → TopicStorage} :
    Touches topics W (W'.setEngine 0 ((W'.engines 0).mapTopic τ f)) where
  order := by
    rw [setEngine_self]
    exact h.order
  topic σ hσ := by
    have hne : σ ≠ τ := fun heq ↦ hσ (heq ▸ hτ)
    rw [setEngine_self, Engine.mapTopic_of_ne hne]
    exact h.topic σ hσ
  engine e he := (setEngine_of_ne he).trans (h.engine e he)
  writer := h.writer
  inFlight := h.inFlight

theorem putView (hS : S.home 0 = 0) (h : Touches topics W W') (hτ : τ ∈ topics) {v : TopicView} :
    Touches topics W (W'.putView S 0 τ v) := by
  have h₁ : Touches topics W (W'.setWriter 0 τ v.writer) := h.setWriter
  have h' := h₁.mapTopic hτ (f := fun _ ↦ v.storage)
  rw [World.putView, hS]
  exact ⟨h'.order, h'.topic, h'.engine, h'.writer, h'.inFlight⟩

theorem topicCall (hS : S.home 0 = 0) (h : Touches topics W W') (hτ : τ ∈ topics) {c : TopicCall}
    {out : Outcome} (hcall : W'.topicCall S 0 τ c = some (W'', out)) : Touches topics W W'' := by
  rcases topicCall_eq_some hcall with ⟨-, rfl⟩ | ⟨v, v', -, -, rfl⟩
  · exact h
  · exact h.putView hS hτ

/-! ### The commit at the end -/

theorem flushTopic (hS : S.home 0 = 0) (h : Touches topics W W') (hτ : τ ∈ topics) :
    Touches topics W (W'.flushTopic S 0 τ).1 ∧ ∀ p ∈ (W'.flushTopic S 0 τ).2, p.1 ∈ topics := by
  rcases hv : W'.view S 0 τ with _ | v
  · rw [flushTopic_of_none hv]
    exact ⟨h, fun p hp ↦ absurd hp List.not_mem_nil⟩
  · rw [flushTopic_of_some hv]
    refine ⟨h.putView hS hτ, fun p hp ↦ ?_⟩
    obtain ⟨chunk, -, rfl⟩ := List.mem_map.mp hp
    exact hτ

theorem takePending (h : Touches topics W W') (hτ : τ ∈ topics) :
    Touches topics W (W'.takePending 0 τ).1 ∧ ∀ p ∈ (W'.takePending 0 τ).2, p.1 ∈ topics := by
  refine ⟨h.setWriter, fun p hp ↦ ?_⟩
  obtain ⟨chunk, -, rfl⟩ := List.mem_map.mp hp
  exact hτ

theorem collect {f : World → ℕ → World × List (ℕ × TopicChunk)}
    (hf : ∀ W' τ, τ ∈ topics → Touches topics W W' →
      Touches topics W (f W' τ).1 ∧ ∀ p ∈ (f W' τ).2, p.1 ∈ topics)
    {order : List ℕ} (horder : order ⊆ topics) (h : Touches topics W W') :
    Touches topics W (World.collect f W' order).1 ∧
      ∀ p ∈ (World.collect f W' order).2, p.1 ∈ topics := by
  induction order generalizing W' with
  | nil => exact ⟨h, fun p hp ↦ absurd hp List.not_mem_nil⟩
  | cons τ order ih =>
    obtain ⟨h₁, hp₁⟩ := hf W' τ (horder List.mem_cons_self) h
    obtain ⟨h₂, hp₂⟩ := ih (fun σ hσ ↦ horder (List.mem_cons_of_mem τ hσ)) h₁
    exact ⟨h₂, fun p hp ↦ (List.mem_append.mp hp).elim (hp₁ p) (hp₂ p)⟩

theorem commitChunks (h : Touches topics W W') {batch : List (ℕ × TopicChunk)}
    (hbatch : ∀ p ∈ batch, p.1 ∈ topics) :
    Touches topics W (W'.setEngine 0 ((W'.engines 0).commitChunks batch)) := by
  induction batch generalizing W' with
  | nil =>
    have hsame : W'.setEngine 0 ((W'.engines 0).commitChunks []) = W' := by
      rw [Engine.commitChunks, List.foldl_nil, setEngine, Function.update_eq_self]
    rwa [hsame]
  | cons p batch ih =>
    have h₁ : Touches topics W (W'.setEngine 0 ((W'.engines 0).commitChunk p.1 p.2)) :=
      h.mapTopic (hbatch p List.mem_cons_self)
    have h₂ := ih h₁ fun q hq ↦ hbatch q (List.mem_cons_of_mem p hq)
    rwa [setEngine_self, setEngine, setEngine, Function.update_idem] at h₂

theorem commitAll (hS : S.home 0 = 0) (h : Touches topics W W') (walk : WalkOrder) :
    Touches topics W (DataEngine.commitAll S walk W' topics) := by
  have hsub : walk.arrange topics ⊆ topics := fun τ hτ ↦ (walk.perm topics).mem_iff.mp hτ
  obtain ⟨h₁, hp₁⟩ := Touches.collect (fun _ _ hτ h ↦ h.takePending hτ) hsub h
  obtain ⟨h₂, hp₂⟩ := Touches.collect (fun _ _ hτ h ↦ h.flushTopic hS hτ) hsub h₁
  exact h₂.commitChunks fun p hp ↦ (List.mem_append.mp hp).elim (hp₁ p) (hp₂ p)

/-! ### Rows -/

theorem writeVarValue (hS : S.home 0 = 0) (h : Touches topics W W') (hτ : τ ∈ topics)
    {val : VarValue} {kind : StorageKind} (hwrite : W'.writeVarValue S τ val kind = some W'') :
    Touches topics W W'' := by
  rw [World.writeVarValue] at hwrite
  split at hwrite
  · obtain ⟨r, hr, rfl⟩ := Option.map_eq_some_iff.mp hwrite
    exact h.topicCall hS hτ hr
  · obtain rfl := Option.some.inj hwrite
    exact h

theorem emitRow (hS : S.home 0 = 0) (h : Touches topics W W') (hτ : τ ∈ topics) {t : Timestamp}
    {val : VarValue} {kind : StorageKind} {err : Option DerivedError}
    (hemit : W'.emitRow S τ t val kind = some (W'', err)) : Touches topics W W'' := by
  obtain ⟨⟨W₁, out⟩, hbegin, hrest⟩ := Option.bind_eq_some_iff.mp hemit
  have h₁ := h.topicCall hS hτ hbegin
  split at hrest
  · obtain ⟨rfl, -⟩ := Prod.mk.inj (Option.some.inj hrest)
    exact h₁
  · obtain ⟨W₂, hset, hrest⟩ := Option.bind_eq_some_iff.mp hrest
    obtain ⟨⟨W₃, out'⟩, hfinish, heq⟩ := Option.map_eq_some_iff.mp hrest
    have h₃ := (h₁.writeVarValue hS hτ hset).topicCall hS hτ hfinish
    split at heq
    all_goals
      obtain ⟨rfl, -⟩ := Prod.mk.inj heq
      exact h₃

end Touches

end World

/-! ## Data engines -/

namespace DataEngine

variable {d d' d'' : DataEngine} {topics : List ℕ}

theorem Touches.refl (topics : List ℕ) (d : DataEngine) : Touches topics d d :=
  ⟨World.Touches.refl topics d.world, rfl, rfl, rfl, rfl⟩

theorem Touches.trans (h : Touches topics d d') (h' : Touches topics d' d'') :
    Touches topics d d'' where
  world := h.world.trans h'.world
  writer := h'.writer.trans h.writer
  schemas := h'.schemas.trans h.schemas
  datasets := h'.datasets.trans h.datasets
  nextTopicId := h'.nextTopicId.trans h.nextTopicId

theorem Touches.mono {topics' : List ℕ} (h : Touches topics d d') (hsub : topics ⊆ topics') :
    Touches topics' d d' :=
  ⟨h.world.mono hsub, h.writer, h.schemas, h.datasets, h.nextTopicId⟩

theorem Touches.mapTopic (h : Touches topics d d') {τ : ℕ} (hτ : τ ∈ topics)
    {f : TopicStorage → TopicStorage} : Touches topics d (d'.mapTopic τ f) :=
  ⟨h.world.mapTopic hτ, h.writer, h.schemas, h.datasets, h.nextTopicId⟩

theorem getTopicStorage_mapTopic_of_ne {f : TopicStorage → TopicStorage} {τ σ : ℕ} (h : τ ≠ σ) :
    (d.mapTopic τ f).getTopicStorage σ = d.getTopicStorage σ := by
  have hengine : (d.mapTopic τ f).engine = d.engine.mapTopic τ f := World.setEngine_self
  rw [getTopicStorage, hengine]
  exact Engine.mapTopic_of_ne h.symm

/-- A body that stays within the topics, run with a writer of its own. -/
theorem touches_withWriter {β : Type*} {body : World → Option (World × β)} {b : β}
    {P : β → Prop} (hbody : ∀ W W' b, body W = some (W', b) → W.Touches topics W' ∧ P b)
    (h : d.withWriter body = some (d', b)) : Touches topics d d' ∧ P b := by
  obtain ⟨⟨W', b'⟩, hrun, heq⟩ := Option.map_eq_some_iff.mp h
  obtain ⟨rfl, rfl⟩ := Prod.mk.inj heq
  obtain ⟨hW, hb⟩ := hbody _ _ _ hrun
  refine ⟨?_, hb⟩
  refine ⟨⟨hW.order, hW.topic, hW.engine, fun w hw ↦ ?_, hW.inFlight⟩, ?_, rfl, rfl, rfl⟩
  · have hnew : (createWriter d.world).writers w = d.world.writers w := Function.update_of_ne hw ..
    rw [← hnew, ← hW.writer w hw]
    exact Function.update_of_ne hw ..
  · exact Function.update_self 0 (d.world.writers 0) W'.writers

end DataEngine

/-! ## Nodes -/

namespace SisoNode

variable {S : Setup} {W : World} {n n' : SisoNode}

/-- The parts of a node that are fixed when it is added. -/
structure SameWiring (n n' : SisoNode) : Prop where
  inputTopicId : n'.inputTopicId = n.inputTopicId
  inputKind : n'.inputKind = n.inputKind
  outputKind : n'.outputKind = n.outputKind
  outputTopicId : n'.outputTopicId = n.outputTopicId

theorem SameWiring.refl (n : SisoNode) : SameWiring n n := ⟨rfl, rfl, rfl, rfl⟩

/-- A run of node `n` that started in world `W`. -/
def Within (W : World) (n : SisoNode) (r : SisoRun) : Prop :=
  W.Touches [n.outputTopicId] r.world ∧ SameWiring n r.node

theorem Within.runRow (hS : S.home 0 = 0) {chunk : TopicChunk} {r r' : SisoRun} {i : ℕ}
    {err : Option DerivedError} (hr : Within W n r)
    (h : runRow S chunk r i = some (r', err)) : Within W n r' := by
  obtain ⟨input, -, hrest⟩ := Option.bind_eq_some_iff.mp h
  obtain ⟨hW, hwire⟩ := hr
  split at hrest
  · rename_i m outTs hcalc
    obtain ⟨rfl, -⟩ := Prod.mk.inj (Option.some.inj hrest)
    obtain ⟨rfl, -⟩ := Prod.mk.inj hcalc
    exact ⟨hW, hwire.1, hwire.2, hwire.3, hwire.4⟩
  · rename_i m outTs hcalc
    obtain ⟨rfl, -⟩ := Prod.mk.inj hcalc
    obtain ⟨⟨W', out⟩, hemit, heq⟩ := Option.map_eq_some_iff.mp hrest
    have hW' := hW.emitRow hS (List.mem_singleton.mpr hwire.outputTopicId) hemit
    split at heq
    all_goals
      obtain ⟨rfl, -⟩ := Prod.mk.inj heq
      exact ⟨hW', hwire.1, hwire.2, hwire.3, hwire.4⟩

theorem Within.runChunk (hS : S.home 0 = 0) {chunk : TopicChunk} {r r' : SisoRun}
    {err : Option DerivedError} (hr : Within W n r)
    (h : runChunk S r chunk = some (r', err)) : Within W n r' := by
  rw [SisoNode.runChunk] at h
  split at h
  · obtain ⟨rfl, -⟩ := Prod.mk.inj (Option.some.inj h)
    exact hr
  · exact Loop.run_induction (fun _ _ _ _ _ hbody hr ↦ hr.runRow hS hbody) h hr

theorem runIncremental_frame {walk : WalkOrder} {d d' : DataEngine} {err : Option DerivedError}
    (h : n.runIncremental walk d = some (d', n', err)) :
    d.Touches [n.outputTopicId] d' ∧ SameWiring n n' := by
  rw [runIncremental] at h
  split at h
  · simp only [Option.some.injEq, Prod.mk.injEq] at h
    obtain ⟨rfl, rfl, -⟩ := h
    exact ⟨DataEngine.Touches.refl _ d, SameWiring.refl n⟩
  · rename_i s _
    refine DataEngine.touches_withWriter (P := fun b ↦ SameWiring n b.1) (fun W W' b hrun ↦ ?_) h
    obtain ⟨⟨r, out⟩, hloop, heq⟩ := Option.map_eq_some_iff.mp hrun
    obtain ⟨hW, hwire⟩ : Within W n r :=
      Loop.run_induction (fun _ _ _ _ _ hbody hr ↦ hr.runChunk rfl hbody) hloop
        ⟨World.Touches.refl _ W, SameWiring.refl n⟩
    cases out with
    | some e =>
      obtain ⟨rfl, rfl⟩ := Prod.mk.inj heq
      exact ⟨hW, hwire⟩
    | none =>
      obtain ⟨rfl, rfl⟩ := Prod.mk.inj heq
      refine ⟨?_, hwire.1, hwire.2, hwire.3, hwire.4⟩
      rw [finish]
      dsimp only
      split
      · rw [hwire.outputTopicId]
        exact hW.commitAll rfl walk
      · exact hW

end SisoNode

namespace MimoNode

variable {S : Setup} {W : World} {n n' : MimoNode}

structure SameWiring (n n' : MimoNode) : Prop where
  inputs : n'.inputs = n.inputs
  outputs : n'.outputs = n.outputs

theorem SameWiring.refl (n : MimoNode) : SameWiring n n := ⟨rfl, rfl⟩

def Within (W : World) (n : MimoNode) (r : MimoRun) : Prop :=
  W.Touches (n.outputs.map Prod.fst) r.world ∧ SameWiring n r.node

theorem touches_emitOutputs (hS : S.home 0 = 0) {t : Timestamp} {answer : List VarValue}
    {W' W'' : World} {err : Option DerivedError} {topics : List ℕ} {outs : List (ℕ × StorageKind)}
    (houts : ∀ out ∈ outs, out.1 ∈ topics) (hW : W.Touches topics W')
    (h : Loop.run (emitOutput S t answer) outs.zipIdx W' = some (W'', err)) :
    W.Touches topics W'' := by
  refine Loop.run_induction (I := fun V ↦ W.Touches topics V) ?_ h hW
  intro out hout V V' err' hbody hV
  obtain ⟨val, -, hemit⟩ := Option.bind_eq_some_iff.mp hbody
  exact hV.emitRow hS (houts out.1 (List.fst_mem_of_mem_zipIdx hout)) hemit

theorem Within.runJoin (hS : S.home 0 = 0) {samples : List (List SampleLoc)} {r r' : MimoRun}
    {t : Timestamp} {err : Option DerivedError} (hr : Within W n r)
    (h : runJoin S samples r t = some (r', err)) : Within W n r' := by
  obtain ⟨input, -, hrest⟩ := Option.bind_eq_some_iff.mp h
  obtain ⟨hW, hin, hout⟩ := hr
  dsimp only at hrest
  split at hrest
  · obtain ⟨⟨W', out⟩, hloop, heq⟩ := Option.map_eq_some_iff.mp hrest
    have hW' := touches_emitOutputs hS (fun out ho ↦ List.mem_map_of_mem (hout ▸ ho)) hW hloop
    dsimp only at heq
    split at heq
    all_goals
      obtain ⟨rfl, -⟩ := Prod.mk.inj heq
      exact ⟨hW', hin, hout⟩
  · obtain ⟨rfl, -⟩ := Prod.mk.inj (Option.some.inj hrest)
    exact ⟨hW, hin, hout⟩

theorem runJoined_frame {walk : WalkOrder} {d d' : DataEngine} {samples : List (List SampleLoc)}
    {joined : List Timestamp} {err : Option DerivedError}
    (h : n.runJoined walk d samples joined = some (d', n', err)) :
    d.Touches (n.outputs.map Prod.fst) d' ∧ SameWiring n n' := by
  refine DataEngine.touches_withWriter (P := fun b ↦ SameWiring n b.1) (fun W W' b hrun ↦ ?_) h
  obtain ⟨⟨r, out⟩, hloop, heq⟩ := Option.map_eq_some_iff.mp hrun
  obtain ⟨hW, hin, hout⟩ : Within W n r :=
    Loop.run_induction (fun _ _ _ _ _ hbody hr ↦ hr.runJoin rfl hbody) hloop
      ⟨World.Touches.refl _ W, rfl, rfl⟩
  cases out with
  | some e =>
    obtain ⟨rfl, rfl⟩ := Prod.mk.inj heq
    exact ⟨hW, hin, hout⟩
  | none =>
    obtain ⟨rfl, rfl⟩ := Prod.mk.inj heq
    refine ⟨?_, hin, hout⟩
    dsimp only
    split
    · exact hW.commitAll rfl walk
    · exact hW

theorem runIncremental_frame {walk : WalkOrder} {d d' : DataEngine} {err : Option DerivedError}
    (h : n.runIncremental walk d = some (d', n', err)) :
    d.Touches (n.outputs.map Prod.fst) d' ∧ SameWiring n n' := by
  rw [runIncremental] at h
  split at h
  · simp only [Option.some.injEq, Prod.mk.injEq] at h
    obtain ⟨rfl, rfl, -⟩ := h
    exact ⟨DataEngine.Touches.refl _ d, SameWiring.refl n⟩
  · split at h
    · simp only [Option.some.injEq, Prod.mk.injEq] at h
      obtain ⟨rfl, rfl, -⟩ := h
      exact ⟨DataEngine.Touches.refl _ d, SameWiring.refl n⟩
    · exact runJoined_frame h

end MimoNode

namespace NodeOp

variable {op op' : NodeOp}

/-- A run writes to the outputs of the node and keeps its wiring. -/
theorem runIncremental_frame {walk : WalkOrder} {d d' : DataEngine} {err : Option DerivedError}
    (h : op.runIncremental walk d = some (d', op', err)) :
    d.Touches op.outputTopics d' ∧ op'.inputTopics = op.inputTopics ∧
      op'.outputTopics = op.outputTopics := by
  cases op with
  | siso n =>
    obtain ⟨⟨d₁, n', err'⟩, hrun, heq⟩ := Option.map_eq_some_iff.mp h
    simp only [Prod.map_apply, id_eq, Prod.mk.injEq] at heq
    obtain ⟨rfl, rfl, -⟩ := heq
    obtain ⟨hd, hwire⟩ := SisoNode.runIncremental_frame hrun
    exact ⟨hd, congrArg (fun τ ↦ [τ]) hwire.inputTopicId, congrArg (fun τ ↦ [τ]) hwire.outputTopicId⟩
  | mimo n =>
    obtain ⟨⟨d₁, n', err'⟩, hrun, heq⟩ := Option.map_eq_some_iff.mp h
    simp only [Prod.map_apply, id_eq, Prod.mk.injEq] at heq
    obtain ⟨rfl, rfl, -⟩ := heq
    obtain ⟨hd, hin, hout⟩ := MimoNode.runIncremental_frame hrun
    exact ⟨hd, congrArg (List.map Prod.fst) hin, congrArg (List.map Prod.fst) hout⟩

theorem reset_wiring (op : NodeOp) :
    op.reset.inputTopics = op.inputTopics ∧ op.reset.outputTopics = op.outputTopics := by
  match op with
  | .siso n => exact ⟨rfl, rfl⟩
  | .mimo n => exact ⟨rfl, rfl⟩

end NodeOp

/-! ## Topics only come -/

namespace World

variable {S : Setup} {W W' : World}

theorem order_setEngine {e : ℕ} {engine : Engine} (h : engine.order = (W.engines e).order) (e' : ℕ) :
    ((W.setEngine e engine).engines e').order = (W.engines e').order := by
  by_cases he : e' = e
  · subst he
    rw [setEngine_self, h]
  · rw [setEngine_of_ne he]

theorem order_mapTopic (e τ : ℕ) (f : TopicStorage → TopicStorage) :
    ((W.engines e).mapTopic τ f).order = (W.engines e).order := rfl

theorem order_putView {w τ : ℕ} {v : TopicView} (e : ℕ) :
    ((W.putView S w τ v).engines e).order = (W.engines e).order :=
  order_setEngine (order_mapTopic (S.home w) τ fun _ ↦ v.storage) e

theorem order_flushTopic {w τ : ℕ} (e : ℕ) :
    ((W.flushTopic S w τ).1.engines e).order = (W.engines e).order := by
  rcases hv : W.view S w τ with _ | v
  · rw [flushTopic_of_none hv]
  · rw [flushTopic_of_some hv]
    exact order_putView e

theorem order_foldl_mapTopic {κ : Type*} {t : κ → ℕ} {g : κ → TopicStorage → TopicStorage}
    (ks : List κ) (e : Engine) :
    (ks.foldl (fun e k ↦ e.mapTopic (t k) (g k)) e).order = e.order := by
  induction ks generalizing e with
  | nil => rfl
  | cons k ks ih => exact ih (e.mapTopic (t k) (g k))

theorem order_foldl_moveChunks (plan : List (ℕ × ℕ)) (p : Engine × Engine) :
    (plan.foldl Engine.moveChunks p).1.order = p.1.order ∧
      (plan.foldl Engine.moveChunks p).2.order = p.2.order := by
  induction plan generalizing p with
  | nil => exact ⟨rfl, rfl⟩
  | cons m plan ih => exact ih (Engine.moveChunks p m)

/-- No call on a world creates a topic or takes one away. -/
theorem step_order {c : Call} {out : Outcome} (h : W.step S c = some (W', out)) (e : ℕ) :
    (W'.engines e).order = (W.engines e).order := by
  match c with
  | .topic w τ c =>
    rcases topicCall_eq_some h with ⟨-, rfl⟩ | ⟨v, v', -, -, rfl⟩
    · rfl
    · exact order_putView e
  | .flush w τ =>
    obtain ⟨rfl, -⟩ := Prod.mk.inj (Option.some.inj h)
    exact order_flushTopic e
  | .flushAll w order order' =>
    obtain ⟨rfl, -⟩ := Prod.mk.inj (Option.some.inj h)
    exact (flushAll_induction (I := fun V ↦ (V.engines e).order = (W.engines e).order)
      (P := fun _ ↦ True) (fun _ _ hV ↦ ⟨hV, fun _ _ ↦ trivial⟩) order order'
      (fun _ _ _ hV ↦ ⟨(order_flushTopic e).trans hV, fun _ _ ↦ trivial⟩) rfl).1
  | .commitChunks e' k =>
    obtain ⟨rfl, -⟩ := Prod.mk.inj (Option.some.inj h)
    exact order_setEngine (order_foldl_mapTopic _ _) e
  | .evictBefore e' τ t =>
    obtain ⟨rfl, -⟩ := Prod.mk.inj (Option.some.inj h)
    exact order_setEngine (order_mapTopic e' τ _) e
  | .enforceRetention e' window =>
    obtain ⟨rfl, -⟩ := Prod.mk.inj (Option.some.inj h)
    exact order_setEngine (order_foldl_mapTopic _ _) e
  | .clearChunks e' τ =>
    obtain ⟨rfl, -⟩ := Prod.mk.inj (Option.some.inj h)
    exact order_setEngine (order_mapTopic e' τ _) e
  | .flushTo e₁ e₂ =>
    rcases flushTo_eq_some h with rfl | ⟨hne, plan, -, -, rfl⟩
    · rfl
    · obtain ⟨h₁, h₂⟩ := order_foldl_moveChunks plan (W.engines e₁, W.engines e₂)
      refine (order_setEngine ?_ e).trans (order_setEngine h₁ e)
      rw [setEngine_of_ne (Ne.symm hne)]
      exact h₂

end World

namespace DataEngine

variable {d d' : DataEngine}

/-- Topic ids are handed out once. -/
def Below (d : DataEngine) : Prop := ∀ τ ∈ d.engine.order, τ < d.nextTopicId

theorem Below.lt_of_getTopicStorage (h : d.Below) {τ : ℕ} {s : TopicStorage}
    (hs : d.getTopicStorage τ = some s) : τ < d.nextTopicId :=
  h τ ((d.engine.mem_order τ).mpr (by rw [← getTopicStorage, hs]; rfl))

theorem Touches.below {topics : List ℕ} (h : Touches topics d d') (hd : d.Below) : d'.Below := by
  intro τ hτ
  rw [h.nextTopicId]
  exact hd τ (h.world.order ▸ hτ)

/-- What a call that may create topics does to the counter. -/
structure Extends (d d' : DataEngine) : Prop where
  le : d.nextTopicId ≤ d'.nextTopicId
  below : d.Below → d'.Below

theorem Extends.refl (d : DataEngine) : Extends d d := ⟨Nat.le_refl _, id⟩

theorem Extends.trans {d'' : DataEngine} (h : Extends d d') (h' : Extends d' d'') :
    Extends d d'' :=
  ⟨h.le.trans h'.le, fun hd ↦ h'.below (h.below hd)⟩

theorem Touches.extends {topics : List ℕ} (h : Touches topics d d') : Extends d d' :=
  ⟨h.nextTopicId.ge, h.below⟩

theorem extends_addTopic (walk : WalkOrder) (datasetId : ℕ) (desc : TopicDescriptor) :
    Extends d (d.addTopic walk datasetId desc) := by
  refine ⟨Nat.le_succ _, fun hd τ hτ ↦ Nat.lt_succ_iff.mpr ?_⟩
  rw [engine, addTopic, World.setEngine_self, Engine.emplace] at hτ
  split at hτ
  · exact (hd τ hτ).le
  · rcases List.mem_append.mp ((walk.perm _).mem_iff.mp hτ) with hτ | hτ
    · exact (hd τ hτ).le
    · exact (List.mem_singleton.mp hτ).le

theorem extends_createTopic (walk : WalkOrder) (datasetId : ℕ) (desc : TopicDescriptor) :
    Extends d (d.createTopic walk datasetId desc).1 := by
  rw [createTopic]
  split_ifs
  · exact Extends.refl d
  · exact extends_addTopic walk datasetId desc
  · exact Extends.refl d

theorem createTopic_eq_ok {walk : WalkOrder} {datasetId out : ℕ} {desc : TopicDescriptor}
    (h : (d.createTopic walk datasetId desc).2 = .ok out) :
    out = d.nextTopicId ∧ (d.createTopic walk datasetId desc).1.nextTopicId = out + 1 := by
  rw [createTopic] at h ⊢
  split_ifs at h ⊢
  obtain rfl := Except.ok.inj h
  exact ⟨rfl, rfl⟩

theorem extends_createOutput (walk : WalkOrder) (datasetId : ℕ) (name schemaName : String)
    (kind : StorageKind) : Extends d (d.createOutput walk datasetId name schemaName kind).1 := by
  rw [createOutput]
  split
  · rename_i heq
    obtain ⟨rfl, -⟩ := Prod.mk.inj heq
    exact ⟨Nat.le_refl _, id⟩
  · rename_i heq
    obtain ⟨rfl, -⟩ := Prod.mk.inj heq
    obtain ⟨hle, hbelow⟩ := extends_createTopic (d := (d.registerOrGet schemaName _).1) walk datasetId _
    exact ⟨hle, hbelow⟩

/-- A new output is a topic nobody has seen. -/
theorem createOutput_eq_ok {walk : WalkOrder} {datasetId out : ℕ} {name schemaName : String}
    {kind : StorageKind} (h : d.createOutput walk datasetId name schemaName kind = (d', .ok out)) :
    out = d.nextTopicId ∧ d'.nextTopicId = out + 1 := by
  rw [createOutput] at h
  split at h
  · cases (Prod.mk.inj h).2
  · rename_i heq
    obtain ⟨rfl, -⟩ := Prod.mk.inj heq
    obtain ⟨rfl, hok⟩ := Prod.mk.inj h
    exact createTopic_eq_ok hok

/-- Calls from outside keep the counter ahead of the topics. -/
theorem extends_step {S : Setup} {walk : WalkOrder} {c : Call} (h : d.step S walk c = some d') :
    Extends d d' := by
  match c with
  | .world c =>
    obtain ⟨⟨W, out⟩, hstep, rfl⟩ := Option.map_eq_some_iff.mp h
    refine ⟨Nat.le_refl _, fun hd τ hτ ↦ hd τ ?_⟩
    rw [engine] at hτ ⊢
    exact World.step_order hstep 0 ▸ hτ
  | .createDataset _ =>
    obtain rfl := Option.some.inj h
    exact ⟨Nat.le_refl _, id⟩
  | .createTopic datasetId desc =>
    obtain rfl := Option.some.inj h
    exact extends_createTopic walk datasetId desc
  | .registerSchema _ _ | .registerOrGet _ _ | .evolveSchema _ _ =>
    obtain rfl := Option.some.inj h
    exact ⟨Nat.le_refl _, id⟩

end DataEngine

end PlotJuggler
