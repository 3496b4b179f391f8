import PlotJugglerCore.Derived.Frame
import PlotJugglerCore.Store.Committing
import PlotJugglerCore.Store.Numbers
import PlotJugglerCore.Store.Query

/-!
# Chunks only come

What a topic of the engine holds, other calls and runs of nodes leave there: they put chunks behind
it, and those that a run puts there were sealed in it, so their ids are ones that the counter had not
come to before (`NodeOp.runIncremental_advances`). A run that fails puts nothing anywhere. The time
order of all topics, the numbering of the chunks and the room in the builders are kept all the while
(`DataEngine.Sound`), whatever transforms answer.
-/

namespace PlotJuggler

/-! ## Engines -/

namespace Engine

variable {P Q : TopicChunk → Prop} {e e' e'' : Engine} {τ : ℕ}

/-- A new topic changes none that is there. -/
theorem emplace_topics {walk : WalkOrder} {s : TopicStorage} {σ : ℕ} (hσ : (e.topics σ).isSome) :
    (e.emplace walk τ s).topics σ = e.topics σ := by
  rw [emplace]
  split_ifs with hτ
  · rfl
  · have hne : σ ≠ τ := fun heq ↦ hτ (heq ▸ (e.mem_order σ).mpr hσ)
    exact Function.update_of_ne hne ..

theorem Grows.emplace (h : e.Grows P e') {walk : WalkOrder} {s : TopicStorage} :
    e.Grows P (e'.emplace walk τ s) := by
  refine h.trans fun σ s' hs' ↦ ?_
  refine ⟨s', [], ?_, (List.append_nil _).symm, fun chunk hchunk ↦ absurd hchunk List.not_mem_nil⟩
  rw [emplace_topics (hs' ▸ rfl), hs']

theorem All.emplace {Q : TopicStorage → Prop} {walk : WalkOrder} {s : TopicStorage} (he : e.All Q)
    (hs : Q s) : (e.emplace walk τ s).All Q := by
  intro σ s' hs'
  rw [Engine.emplace] at hs'
  split_ifs at hs'
  · exact he σ s' hs'
  · dsimp only at hs'
    by_cases hσ : σ = τ
    · rw [hσ, Function.update_self] at hs'
      obtain rfl := Option.some.inj hs'
      exact hs
    · rw [Function.update_of_ne hσ] at hs'
      exact he σ s' hs'

theorem mem_order_emplace {walk : WalkOrder} {s : TopicStorage} {σ : ℕ} (hσ : σ ∈ e.order) :
    σ ∈ (e.emplace walk τ s).order := by
  rw [Engine.emplace]
  split_ifs
  · exact hσ
  · exact (walk.perm _).mem_iff.mpr (List.mem_append_left _ hσ)

end Engine

/-! ## Writers -/

namespace World

variable {S : Setup} {W₀ W W' : World} {P : TopicChunk → Prop} {w τ : ℕ} {v v' : TopicView}

/-- A builder has a topic to build for. -/
def Housed (S : Setup) (W : World) : Prop :=
  ∀ w τ, (W.writers w τ).builder ≠ none → τ ∈ (W.engines (S.home w)).order

/-- The builders of one writer have room. -/
def FitsWriter (S : Setup) (w : ℕ) (W : World) : Prop :=
  ∀ τ d b, (W.engines (S.home w)).descriptor τ = some d → (W.writers w τ).builder = some b →
    b.Fits d.maxChunkRows

theorem FitsWriter.view (hW : W.FitsWriter S w) (hv : W.view S w τ = some v) : v.Fits := by
  obtain ⟨hs, hw, -⟩ := view_eq_some hv
  intro b hb
  refine hW τ v.storage.descriptor b ?_ (by rw [hw, hb])
  rw [Engine.descriptor, hs, Option.map_some]

theorem FitsWriter.putView (hW : W.FitsWriter S w) (hv : W.view S w τ = some v)
    (hd : v'.storage.descriptor = v.storage.descriptor) (hv' : v'.Fits) :
    (W.putView S w τ v').FitsWriter S w := by
  intro σ d b hdesc hb
  rw [putView_descriptor hv hd] at hdesc
  rw [putView_writers] at hb
  by_cases hσ : σ = τ
  · subst hσ
    rw [setWriter_self] at hb
    rw [Engine.descriptor, (view_eq_some hv).1] at hdesc
    obtain rfl := Option.some.inj hdesc
    show b.Fits v.storage.descriptor.maxChunkRows
    rw [← hd]
    exact hv' b hb
  · rw [setWriter_of_ne fun heq ↦ hσ heq.2] at hb
    exact hW σ d b hdesc hb

theorem descriptor_setEngine {e : ℕ} {engine : Engine}
    (hd : engine.descriptor = (W.engines e).descriptor) (e' : ℕ) :
    ((W.setEngine e engine).engines e').descriptor = (W.engines e').descriptor := by
  by_cases he : e' = e
  · subst he
    rw [setEngine_self, hd]
  · rw [setEngine_of_ne he]

theorem grows_putView {e : ℕ} (hv : W.view S w τ = some v)
    (hchunks : v'.storage.sealedChunks = v.storage.sealedChunks) :
    (W.engines e).Grows P ((W.putView S w τ v').engines e) := by
  by_cases he : e = S.home w
  · subst he
    rw [putView_engines_self]
    refine (Engine.Grows.refl P _).mapTopic_of_sealedChunks fun s hs ↦ ?_
    obtain rfl : s = v.storage := Option.some.inj (hs.symm.trans (view_eq_some hv).1)
    exact hchunks
  · rw [putView_engines_of_ne he]
    exact .refl P _

theorem grows_flushTopic {e : ℕ} :
    (W.engines e).Grows P ((W.flushTopic S w τ).1.engines e) := by
  rcases hv : W.view S w τ with _ | v
  · rw [flushTopic_of_none hv]
    exact .refl P _
  · rw [flushTopic_of_some hv]
    exact grows_putView hv (congrArg _ TopicView.flush_storage)

/-! ### Calls -/

/-- The call leaves the chunks of engine `e` alone. -/
def Spares (e : ℕ) : Call → Prop
  | .topic _ _ _ | .flush _ _ | .flushAll _ _ _ => True
  | .commitChunks e' _ | .evictBefore e' _ _ | .enforceRetention e' _ | .clearChunks e' _ => e' ≠ e
  | .flushTo e₁ e₂ => e₁ ≠ e ∧ e₂ ≠ e

instance (e : ℕ) : DecidablePred (Spares e)
  | .topic _ _ _ | .flush _ _ | .flushAll _ _ _ => .isTrue trivial
  | .commitChunks e' _ | .evictBefore e' _ _ | .enforceRetention e' _ | .clearChunks e' _ =>
    inferInstanceAs (Decidable (e' ≠ e))
  | .flushTo e₁ e₂ => inferInstanceAs (Decidable (e₁ ≠ e ∧ e₂ ≠ e))

theorem grows_step {e : ℕ} {c : Call} {out : Outcome} (hfits : W.Fits S) (hc : Spares e c)
    (h : W.step S c = some (W', out)) : (W.engines e).Grows P (W'.engines e) := by
  have hother : ∀ {e' : ℕ} {engine : Engine}, e' ≠ e →
      (W.engines e).Grows P ((W.setEngine e' engine).engines e) := by
    intro e' engine hne
    rw [setEngine_of_ne hne.symm]
    exact .refl P _
  match c with
  | .topic w τ c =>
    rcases topicCall_eq_some h with ⟨-, rfl⟩ | ⟨v, v', hv, hcall, rfl⟩
    · exact .refl P _
    · exact grows_putView hv (TopicView.call_storage (hfits.view hv) hcall).2.2
  | .flush w τ =>
    obtain ⟨rfl, -⟩ := Prod.mk.inj (Option.some.inj h)
    exact grows_flushTopic
  | .flushAll w order order' =>
    obtain ⟨rfl, -⟩ := Prod.mk.inj (Option.some.inj h)
    exact (flushAll_induction (I := fun V ↦ (W.engines e).Grows P (V.engines e))
      (P := fun _ ↦ True) (fun _ _ hV ↦ ⟨hV, fun _ _ ↦ trivial⟩) order order'
      (fun _ _ _ hV ↦ ⟨hV.trans grows_flushTopic, fun _ _ ↦ trivial⟩) (.refl P _)).1
  | .commitChunks e' k | .evictBefore e' τ t | .enforceRetention e' window | .clearChunks e' τ =>
    obtain ⟨rfl, -⟩ := Prod.mk.inj (Option.some.inj h)
    exact hother hc
  | .flushTo e₁ e₂ =>
    rcases flushTo_eq_some h with rfl | ⟨-, plan, -, -, rfl⟩
    · exact .refl P _
    · rw [setEngine_of_ne hc.2.symm]
      exact hother hc.1

theorem housed_step {c : Call} {out : Outcome} (hW : W.Housed S)
    (h : W.step S c = some (W', out)) : W'.Housed S := by
  have horder : ∀ e, (W'.engines e).order = (W.engines e).order := step_order h
  have hbuilders : (∀ w τ, (W'.writers w τ).builder = none ∨
      (W'.writers w τ).builder = (W.writers w τ).builder) → W'.Housed S := by
    intro hsame w τ hb
    rw [horder]
    exact hW w τ ((hsame w τ).resolve_left hb ▸ hb)
  match c with
  | .topic w τ c =>
    rcases topicCall_eq_some h with ⟨-, rfl⟩ | ⟨v, v', hv, -, rfl⟩
    · exact hW
    · intro w' τ' hb
      rw [horder]
      by_cases hsame : w' = w ∧ τ' = τ
      · -- the topic is there, as the writer has seen it
        obtain ⟨rfl, rfl⟩ := hsame
        exact (Engine.mem_order _ _).mpr ((view_eq_some hv).1 ▸ rfl)
      · rw [putView_writers, setWriter_of_ne hsame] at hb
        exact hW w' τ' hb
  | .flush w τ =>
    obtain ⟨rfl, -⟩ := Prod.mk.inj (Option.some.inj h)
    exact hbuilders (builder_flushTopic W w τ)
  | .flushAll w order order' =>
    obtain ⟨rfl, -⟩ := Prod.mk.inj (Option.some.inj h)
    refine hbuilders (flushAll_induction (I := fun V ↦ ∀ w τ, (V.writers w τ).builder = none ∨
      (V.writers w τ).builder = (W.writers w τ).builder) (P := fun _ ↦ True)
      (fun V σ hV ↦ ⟨fun w' τ' ↦ ?_, fun _ _ ↦ trivial⟩) order order'
      (fun V σ _ hV ↦ ⟨fun w' τ' ↦ ?_, fun _ _ ↦ trivial⟩) fun _ _ ↦ .inr rfl).1
    · rw [builder_takePending]
      exact hV w' τ'
    · rcases builder_flushTopic (S := S) V w σ w' τ' with hnone | hsame
      · exact .inl hnone
      · exact hsame ▸ hV w' τ'
  | .commitChunks e' k | .evictBefore e' τ t | .enforceRetention e' window | .clearChunks e' τ =>
    obtain ⟨rfl, -⟩ := Prod.mk.inj (Option.some.inj h)
    exact hbuilders fun _ _ ↦ .inr rfl
  | .flushTo e₁ e₂ =>
    rcases flushTo_eq_some h with rfl | ⟨-, plan, -, -, rfl⟩
    · exact hW
    · exact hbuilders fun _ _ ↦ .inr rfl

/-! ## A world in the middle of a run -/

/-- Writer `0` is new since world `W₀`, and nothing has come to the topics of engine `0` but chunks
with the property `P`. -/
structure Running (S : Setup) (P : TopicChunk → Prop) (W₀ W : World) : Prop where
  fits : W.FitsWriter S 0
  descriptor : ∀ e, (W.engines e).descriptor = (W₀.engines e).descriptor
  ordered : W.Ordered
  drafts : W.Drafts 0 W₀.nextChunkId
  grows : (W₀.engines 0).Grows P (W.engines 0)

namespace Running

theorem putView (h : Running S P W₀ W) (hv : W.view S 0 τ = some v)
    (hchunks : v'.storage.sealedChunks = v.storage.sealedChunks)
    (hd : v'.storage.descriptor = v.storage.descriptor) (hfits : v'.Fits)
    (hordered : v'.writer.Ordered) (hdrafts : (W.putView S 0 τ v').Drafts 0 W₀.nextChunkId) :
    Running S P W₀ (W.putView S 0 τ v') where
  fits := h.fits.putView hv hd hfits
  descriptor e := (putView_descriptor hv hd e).trans (h.descriptor e)
  ordered := h.ordered.putView hv hchunks hordered
  drafts := hdrafts
  grows := h.grows.trans (grows_putView hv hchunks)

/-- A call that is no batch. -/
theorem topicCall (h : Running S P W₀ W) {c : TopicCall} {out : Outcome} (hc : c.Sorted)
    (hcall : W.topicCall S 0 τ c = some (W', out)) : Running S P W₀ W' := by
  have hdrafts := (h.drafts.topicCall (fun v hv ↦ h.fits.view hv) hcall).1
  rcases topicCall_eq_some hcall with ⟨-, rfl⟩ | ⟨v, v', hv, hvcall, rfl⟩
  · exact h
  · have hfit := h.fits.view hv
    have hwriter : v.writer.Ordered := (view_eq_some hv).2.1 ▸ h.ordered.writers 0 τ
    obtain ⟨-, hd, hchunks⟩ := TopicView.call_storage hfit hvcall
    exact h.putView hv hchunks hd (TopicView.call_fits hfit hvcall)
      (TopicView.call_ordered (fun _ ↦ hc) hfit hwriter hvcall) hdrafts

theorem emitRow (h : Running S P W₀ W) {t : Timestamp} {val : VarValue} {kind : StorageKind}
    {err : Option DerivedError} (hemit : W.emitRow S τ t val kind = some (W', err)) :
    Running S P W₀ W' := by
  obtain ⟨⟨W₁, out⟩, hbegin, hrest⟩ := Option.bind_eq_some_iff.mp hemit
  have h₁ := h.topicCall (c := .beginRow t) trivial hbegin
  split at hrest
  · obtain ⟨rfl, -⟩ := Prod.mk.inj (Option.some.inj hrest)
    exact h₁
  · obtain ⟨W₂, hset, hrest⟩ := Option.bind_eq_some_iff.mp hrest
    have h₂ : Running S P W₀ W₂ := by
      rw [writeVarValue] at hset
      split at hset
      · rename_i x _
        obtain ⟨r, hr, rfl⟩ := Option.map_eq_some_iff.mp hset
        exact h₁.topicCall (c := .set 0 x) trivial hr
      · obtain rfl := Option.some.inj hset
        exact h₁
    obtain ⟨⟨W₃, out'⟩, hfinish, heq⟩ := Option.map_eq_some_iff.mp hrest
    have h₃ := h₂.topicCall (c := .finishRow) trivial hfinish
    split at heq
    all_goals
      obtain ⟨rfl, -⟩ := Prod.mk.inj heq
      exact h₃

theorem flushTopic (h : Running S P W₀ W) (τ : ℕ) : Running S P W₀ (W.flushTopic S 0 τ).1 where
  fits := by
    rcases hv : W.view S 0 τ with _ | v
    · rw [flushTopic_of_none hv]
      exact h.fits
    · rw [flushTopic_of_some hv]
      refine h.fits.putView hv (congrArg _ TopicView.flush_storage) fun b hb ↦ ?_
      rcases v.flush_cases with ⟨b', -, -, hnone, -⟩ | ⟨-, hsame, -⟩
      · cases hnone.symm.trans hb
      · rw [TopicView.flush_storage]
        exact h.fits.view hv b (hsame ▸ hb)
  descriptor e := by
    rcases hv : W.view S 0 τ with _ | v
    · rw [flushTopic_of_none hv]
      exact h.descriptor e
    · rw [flushTopic_of_some hv]
      exact (putView_descriptor hv (congrArg _ TopicView.flush_storage) e).trans (h.descriptor e)
  ordered := (h.ordered.flushTopic 0 τ).1
  drafts := (h.drafts.flushTopic τ).1
  grows := h.grows.trans grows_flushTopic

theorem takePending (h : Running S P W₀ W) (τ : ℕ) : Running S P W₀ (W.takePending 0 τ).1 where
  fits σ d b hdesc hb := by
    rw [builder_takePending] at hb
    exact h.fits σ d b hdesc hb
  descriptor := h.descriptor
  ordered := (h.ordered.takePending 0 τ).1
  drafts := (h.drafts.takePending τ).1
  grows := h.grows

/-- The commit at the end brings chunks that were sealed in the run. -/
theorem commitAll (h : Running S P W₀ W)
    (hP : ∀ chunk : TopicChunk, W₀.nextChunkId ≤ chunk.id → P chunk) (walk : WalkOrder)
    (topics : List ℕ) : Running S P W₀ (DataEngine.commitAll S walk W topics) := by
  have hout := (h.drafts.flushAll (S := S) (walk.arrange topics) (walk.arrange topics)).2.2
  obtain ⟨hrun, hordered⟩ := flushAll_induction (S := S) (w := 0) (I := Running S P W₀)
    (P := fun p ↦ p.2.Ordered)
    (fun V τ hV ↦ ⟨hV.takePending τ, (hV.ordered.takePending 0 τ).2⟩) (walk.arrange topics)
    (walk.arrange topics) (fun V τ _ hV ↦ ⟨hV.flushTopic τ, (hV.ordered.flushTopic 0 τ).2⟩) h
  have hdesc := Engine.descriptor_commitChunks
    (e := (W.flushAll S 0 (walk.arrange topics) (walk.arrange topics)).1.engines 0)
    (W.flushAll S 0 (walk.arrange topics) (walk.arrange topics)).2
  have hsame := descriptor_setEngine hdesc
  refine ⟨fun τ d b hd hb ↦ hrun.fits τ d b (hsame (S.home 0) ▸ hd) hb,
    fun e ↦ (hsame e).trans (hrun.descriptor e),
    hrun.ordered.setEngine ((hrun.ordered.engines 0).commitChunks hordered), ?_, ?_⟩
  · exact ⟨⟨hrun.drafts.pos, hrun.drafts.chunks.commitChunks fun p hp ↦
      (hout p hp).mono h.drafts.from_one le_rfl, hrun.drafts.counted⟩, hrun.drafts.from_one,
      hrun.drafts.le, hrun.drafts.drafted⟩
  · rw [DataEngine.commitAll, setEngine_self]
    exact hrun.grows.commitChunks fun p hp ↦ hP p.2 (hout p hp).le

end Running

end World

/-! ## Data engines -/

namespace DataEngine

variable {S : Setup} {P Q : TopicChunk → Prop} {d d' d'' : DataEngine} {walk : WalkOrder}

/-- What holds of the world at all times. -/
structure Sound (S : Setup) (d : DataEngine) : Prop where
  fits : d.world.Fits S
  housed : d.world.Housed S
  ordered : d.world.Ordered
  numbered : d.world.Numbered

theorem Sound.chunksInOrder (hd : d.Sound S) {τ : ℕ} {s : TopicStorage}
    (hs : d.getTopicStorage τ = some s) : ChunksInOrder s.sealedChunks where
  ordered := (hd.ordered.engines 0 τ s hs).chunks
  counted chunk hchunk := (hd.numbered.chunks.engines 0 τ s hs chunk hchunk).counted
  chain := (hd.ordered.engines 0 τ s hs).chain

theorem Sound.id_lt (hd : d.Sound S) {τ : ℕ} {s : TopicStorage}
    (hs : d.getTopicStorage τ = some s) :
    ∀ chunk ∈ s.sealedChunks, 1 ≤ chunk.id ∧ chunk.id < d.world.nextChunkId := by
  intro chunk hchunk
  obtain ⟨hle, hlt, -⟩ := hd.numbered.chunks.engines 0 τ s hs chunk hchunk
  exact ⟨hle, hlt⟩

/-- That is kept, the counter does not go back, and no topic loses anything. -/
structure Advances (S : Setup) (P : TopicChunk → Prop) (d d' : DataEngine) : Prop where
  sound : d'.Sound S
  counter : d.world.nextChunkId ≤ d'.world.nextChunkId
  grows : d.engine.Grows P d'.engine

theorem Advances.refl (hd : d.Sound S) : Advances S P d d := ⟨hd, le_rfl, .refl P _⟩

theorem Advances.trans (h : Advances S P d d') (h' : Advances S P d' d'') : Advances S P d d'' :=
  ⟨h'.sound, h.counter.trans h'.counter, h.grows.trans h'.grows⟩

theorem Advances.mono (h : Advances S P d d') (hPQ : ∀ chunk, P chunk → Q chunk) :
    Advances S Q d d' :=
  ⟨h.sound, h.counter, h.grows.mono hPQ⟩

/-! ### Runs of nodes -/

theorem running_createWriter (P : TopicChunk → Prop) (hd : d.Sound S) :
    World.Running d.setup P (createWriter d.world) (createWriter d.world) := by
  have hnew : ∀ τ, (createWriter d.world).writers 0 τ = {} := by
    intro τ
    rw [createWriter]
    dsimp only
    rw [Function.update_self]
  have hwriters : ∀ {Q : TopicWriter → Prop}, Q {} → (∀ w τ, Q (d.world.writers w τ)) →
      ∀ w τ, Q ((createWriter d.world).writers w τ) := by
    intro Q hempty hQ w τ
    by_cases hw : w = 0
    · rw [hw, hnew]
      exact hempty
    · rw [createWriter]
      dsimp only
      rw [Function.update_of_ne hw]
      exact hQ w τ
  have hpending : ∀ {P : TopicChunk → Prop}, ∀ chunk ∈ ({} : TopicWriter).pending, P chunk :=
    fun chunk hchunk ↦ absurd hchunk List.not_mem_nil
  refine ⟨fun τ _ b _ hb ↦ ?_, fun _ ↦ rfl, ?_, ?_, .refl P _⟩
  · rw [hnew] at hb
    cases hb
  · exact ⟨hd.ordered.engines, hwriters ⟨fun b hb ↦ (by cases hb), hpending⟩ hd.ordered.writers,
      hd.ordered.inFlight⟩
  · refine ⟨⟨hd.numbered.pos, ⟨hd.numbered.chunks.engines,
      hwriters (Q := fun tw ↦ ∀ chunk ∈ tw.pending, chunk.SealedIn 1 d.world.nextChunkId)
        hpending hd.numbered.chunks.pending, hd.numbered.chunks.inFlight⟩,
      hwriters (TopicWriter.counted_of_none rfl) hd.numbered.counted⟩, hd.numbered.pos, le_rfl,
      fun τ ↦ ?_⟩
    rw [hnew]
    exact hpending

/-- A run that keeps to its topics and hands writer `0` back. -/
theorem advances_withWriter {β : Type*} {body : World → Option (World × β)} {b : β}
    {topics : List ℕ} (hd : d.Sound S) (htouches : d.Touches topics d')
    (h : d.withWriter body = some (d', b))
    (hbody : ∀ W', body (createWriter d.world) = some (W', b) →
      World.Running d.setup P (createWriter d.world) W') : Advances S P d d' := by
  obtain ⟨⟨W', b'⟩, hrun, heq⟩ := Option.map_eq_some_iff.mp h
  obtain ⟨rfl, rfl⟩ := Prod.mk.inj heq
  have hW := hbody W' hrun
  have hwriters : ∀ w, Function.update W'.writers 0 (d.world.writers 0) w = d.world.writers w := by
    intro w
    by_cases hw : w = 0
    · rw [hw, Function.update_self]
    · exact htouches.world.writer w hw
  have hall : ∀ {Q : ℕ → ℕ → TopicWriter → Prop}, (∀ w τ, Q w τ (d.world.writers w τ)) →
      ∀ w τ, Q w τ (Function.update W'.writers 0 (d.world.writers 0) w τ) := by
    intro Q hQ w τ
    rw [hwriters]
    exact hQ w τ
  refine ⟨⟨?_, ?_, ⟨hW.ordered.engines, hall hd.ordered.writers, hW.ordered.inFlight⟩, ?_⟩,
    hW.drafts.le, hW.grows⟩
  · exact hd.fits.congr hW.descriptor fun w τ b hb ↦ .inl (congrFun (hwriters w) τ ▸ hb)
  · intro w τ hb
    have horder : (W'.engines (S.home w)).order = (d.world.engines (S.home w)).order := by
      by_cases he : S.home w = 0
      · rw [he]
        exact htouches.world.order
      · exact congrArg _ (htouches.world.engine _ he)
    show τ ∈ (W'.engines (S.home w)).order
    rw [horder]
    exact hd.housed w τ (congrFun (hwriters w) τ ▸ hb)
  · refine ⟨hW.drafts.pos, ⟨hW.drafts.chunks.engines, hall (Q := fun _ _ tw ↦ ∀ chunk ∈ tw.pending,
      chunk.SealedIn 1 W'.nextChunkId) fun w τ chunk hchunk ↦ ?_, hW.drafts.chunks.inFlight⟩,
      hall (Q := fun _ _ tw ↦ tw.Counted) hd.numbered.counted⟩
    exact (hd.numbered.chunks.pending w τ chunk hchunk).mono le_rfl hW.drafts.le

/-! ### Calls from outside -/

theorem Sound.congr (hd : d.Sound S) (h : d'.world = d.world) : d'.Sound S :=
  ⟨h ▸ hd.fits, h ▸ hd.housed, h ▸ hd.ordered, h ▸ hd.numbered⟩

theorem Advances.of_world (hd : d.Sound S) (h : d'.world = d.world) : Advances S P d d' :=
  ⟨hd.congr h, h ▸ le_rfl, Engine.grows_of_topics (congrArg (fun W ↦ (W.engines 0).topics) h)⟩

/-- The chunks of a topic are a suffix of those there were. -/
theorem Sound.mapTopic (hd : d.Sound S) {τ : ℕ} {f : TopicStorage → TopicStorage}
    (hdesc : ∀ s, (f s).descriptor = s.descriptor)
    (hchunks : ∀ s, (f s).sealedChunks <:+ s.sealedChunks) : (d.mapTopic τ f).Sound S := by
  have hsame := World.descriptor_setEngine (W := d.world) (e := 0)
    (Engine.descriptor_mapTopic fun s (_ : d.engine.topics τ = some s) ↦ hdesc s)
  refine ⟨hd.fits.congr hsame fun _ _ _ hb ↦ .inl hb, fun w σ hb ↦ ?_,
    hd.ordered.setEngine ((hd.ordered.engines 0).mapTopic fun s _ hs ↦ hs.suffix (hchunks s)),
    hd.numbered.pos, hd.numbered.chunks.setEngine ((hd.numbered.chunks.engines 0).mapTopic
      fun s _ hs chunk hchunk ↦ hs chunk ((hchunks s).mem hchunk)), hd.numbered.counted⟩
  have horder := World.order_setEngine (W := d.world) (e := 0)
    (World.order_mapTopic 0 τ f) (S.home w)
  exact horder ▸ hd.housed w σ hb

theorem engine_addTopic (datasetId : ℕ) (desc : TopicDescriptor) :
    (d.addTopic walk datasetId desc).engine = d.engine.emplace walk d.nextTopicId
      { topicId := d.nextTopicId, descriptor := { desc with datasetId := datasetId } } :=
  World.setEngine_self

theorem fits_addTopic (hfits : d.world.Fits S) (hhoused : d.world.Housed S) (datasetId : ℕ)
    (desc : TopicDescriptor) : (d.addTopic walk datasetId desc).world.Fits S := by
  intro w τ dτ b hdesc hb
  refine hfits w τ dτ b ?_ hb
  have hmem := hhoused w τ fun hnone ↦ Option.some_ne_none b (hb.symm.trans hnone)
  by_cases he : S.home w = 0
  · rw [he] at hmem hdesc ⊢
    rw [← engine, engine_addTopic, Engine.descriptor,
      Engine.emplace_topics ((d.engine.mem_order τ).mp hmem)] at hdesc
    exact hdesc
  · rwa [addTopic, World.setEngine_of_ne he] at hdesc

theorem housed_addTopic (hhoused : d.world.Housed S) (datasetId : ℕ) (desc : TopicDescriptor) :
    (d.addTopic walk datasetId desc).world.Housed S := by
  intro w τ hb
  have hmem := hhoused w τ hb
  by_cases he : S.home w = 0
  · rw [he] at hmem ⊢
    rw [← engine, engine_addTopic]
    exact Engine.mem_order_emplace hmem
  · rwa [addTopic, World.setEngine_of_ne he]

theorem advances_addTopic (hd : d.Sound S) (walk : WalkOrder) (datasetId : ℕ) (desc : TopicDescriptor) :
    Advances S P d (d.addTopic walk datasetId desc) := by
  have hnil : ∀ {Q : TopicChunk → Prop}, ∀ chunk ∈ ([] : List TopicChunk), Q chunk :=
    fun chunk hchunk ↦ absurd hchunk List.not_mem_nil
  refine ⟨⟨fits_addTopic hd.fits hd.housed datasetId desc, housed_addTopic hd.housed datasetId desc,
    ?_, hd.numbered.pos, ?_, hd.numbered.counted⟩, le_rfl, ?_⟩
  · exact hd.ordered.setEngine ((hd.ordered.engines 0).emplace ⟨hnil, List.isChain_nil⟩)
  · exact hd.numbered.chunks.setEngine ((hd.numbered.chunks.engines 0).emplace hnil)
  · rw [engine_addTopic]
    exact (Engine.Grows.refl P _).emplace

theorem advances_createTopic (hd : d.Sound S) (walk : WalkOrder) (datasetId : ℕ) (desc : TopicDescriptor) :
    Advances S P d (d.createTopic walk datasetId desc).1 := by
  rw [createTopic]
  split_ifs
  · exact .refl hd
  · exact advances_addTopic hd walk datasetId desc
  · exact .refl hd

theorem advances_createOutput (hd : d.Sound S) (walk : WalkOrder) (datasetId : ℕ) (name schemaName : String)
    (kind : StorageKind) :
    Advances S P d (d.createOutput walk datasetId name schemaName kind).1 := by
  rw [createOutput]
  split
  · rename_i heq
    obtain ⟨rfl, -⟩ := Prod.mk.inj heq
    exact .of_world hd rfl
  · rename_i heq
    obtain ⟨rfl, -⟩ := Prod.mk.inj heq
    have hreg : Advances S P d
        (d.registerOrGet schemaName (makePrimitive "value" (storageKindToPrimitive kind))).1 :=
      .of_world hd rfl
    exact hreg.trans (advances_createTopic hreg.sound walk datasetId _)

/-- No batch of a call goes back in time, and no flush between engines does. -/
def InOrder (S : Setup) (d : DataEngine) : Call → Prop
  | .world c => ∀ r ∈ d.world.step (d.outerSetup S) c, d.world.InOrder c r.2
  | _ => True

instance (S : Setup) (d : DataEngine) : DecidablePred (d.InOrder S)
  | .world c => Option.decidableForallMem (d.world.step (d.outerSetup S) c)
  | .createDataset _ | .createTopic _ _ | .registerSchema _ _ | .registerOrGet _ _
  | .evolveSchema _ _ => .isTrue trivial

/-- A call on the world keeps what holds at all times. -/
theorem sound_worldStep {c : PlotJuggler.Call} {r : World × Outcome} (hd : d.Sound S)
    (h : d.world.step (d.outerSetup S) c = some r) (hc : d.world.InOrder c r.2) :
    ({ d with world := r.1 } : DataEngine).Sound S ∧ d.world.nextChunkId ≤ r.1.nextChunkId := by
  have hfits : d.world.Fits (d.outerSetup S) := hd.fits
  have hhoused : d.world.Housed (d.outerSetup S) := hd.housed
  have hfits' : r.1.Fits (d.outerSetup S) := (World.step_keeps hfits h).2
  have hhoused' : r.1.Housed (d.outerSetup S) := World.housed_step hhoused h
  obtain ⟨hnumbered, hle⟩ := World.step_numbered hfits hd.numbered h
  exact ⟨⟨hfits', hhoused', World.step_ordered hfits hd.ordered h hc, hnumbered⟩, hle⟩

theorem sound_step {c : Call} (hd : d.Sound S) (h : d.step S walk c = some d')
    (hc : d.InOrder S c) : d'.Sound S ∧ d.world.nextChunkId ≤ d'.world.nextChunkId := by
  match c with
  | .world c =>
    obtain ⟨r, hr, rfl⟩ := Option.map_eq_some_iff.mp h
    exact sound_worldStep hd hr (hc r hr)
  | .createTopic datasetId desc =>
    obtain rfl := Option.some.inj h
    have hadvances : Advances S (fun _ ↦ False) d _ :=
      advances_createTopic hd walk datasetId desc
    exact ⟨hadvances.sound, hadvances.counter⟩
  | .createDataset _ | .registerSchema _ _ | .registerOrGet _ _ | .evolveSchema _ _ =>
    obtain rfl := Option.some.inj h
    exact ⟨hd.congr rfl, le_rfl⟩

/-- A call that leaves the chunks of the engine alone. -/
def Call.Spares : Call → Prop
  | .world c => World.Spares 0 c
  | _ => True

instance : DecidablePred Call.Spares
  | .world c => inferInstanceAs (Decidable (World.Spares 0 c))
  | .createDataset _ | .createTopic _ _ | .registerSchema _ _ | .registerOrGet _ _
  | .evolveSchema _ _ => .isTrue trivial

theorem advances_step {c : Call} (hd : d.Sound S) (h : d.step S walk c = some d')
    (hc : d.InOrder S c) (hspares : c.Spares) : Advances S P d d' := by
  obtain ⟨hsound, hcounter⟩ := sound_step hd h hc
  refine ⟨hsound, hcounter, ?_⟩
  match c with
  | .world c =>
    obtain ⟨r, hr, rfl⟩ := Option.map_eq_some_iff.mp h
    have hfits : d.world.Fits (d.outerSetup S) := hd.fits
    exact World.grows_step hfits hspares hr
  | .createTopic datasetId desc =>
    obtain rfl := Option.some.inj h
    exact (advances_createTopic hd walk datasetId desc).grows
  | .createDataset _ | .registerSchema _ _ | .registerOrGet _ _ | .evolveSchema _ _ =>
    obtain rfl := Option.some.inj h
    exact .refl P _

end DataEngine

/-! ## Nodes -/

section Nodes

variable {S : Setup} {P : TopicChunk → Prop} {d d' : DataEngine} {walk : WalkOrder}
  {err : Option DerivedError}

namespace SisoNode

variable {T : Setup} {n n' : SisoNode} {W₀ : World} {r r' : SisoRun}

theorem running_runRow {chunk : TopicChunk} {i : ℕ} (hr : World.Running T P W₀ r.world)
    (h : runRow T chunk r i = some (r', err)) : World.Running T P W₀ r'.world := by
  obtain ⟨input, -, hrest⟩ := Option.bind_eq_some_iff.mp h
  split at hrest
  · obtain ⟨rfl, -⟩ := Prod.mk.inj (Option.some.inj hrest)
    exact hr
  · obtain ⟨⟨W', out⟩, hemit, heq⟩ := Option.map_eq_some_iff.mp hrest
    have hW' := hr.emitRow hemit
    split at heq
    all_goals
      obtain ⟨rfl, -⟩ := Prod.mk.inj heq
      exact hW'

theorem running_runChunk {chunk : TopicChunk} (hr : World.Running T P W₀ r.world)
    (h : runChunk T r chunk = some (r', err)) : World.Running T P W₀ r'.world := by
  rw [runChunk] at h
  split at h
  · obtain ⟨rfl, -⟩ := Prod.mk.inj (Option.some.inj h)
    exact hr
  · exact Loop.run_induction (I := fun r ↦ World.Running T P W₀ r.world)
      (fun _ _ _ _ _ hbody hr ↦ running_runRow hr hbody) h hr

theorem running_runChunks {chunks : List TopicChunk} (hr : World.Running T P W₀ r.world)
    (h : Loop.run (runChunk T) chunks r = some (r', err)) : World.Running T P W₀ r'.world :=
  Loop.run_induction (I := fun r ↦ World.Running T P W₀ r.world)
    (fun _ _ _ _ _ hbody hr ↦ running_runChunk hr hbody) h hr

theorem runIncremental_advances (hd : d.Sound S) (h : n.runIncremental walk d = some (d', n', err)) :
    d.Advances S (fun chunk ↦ err = none ∧ d.world.nextChunkId ≤ chunk.id) d' := by
  have htouches := (runIncremental_frame h).1
  rw [runIncremental] at h
  split at h
  · simp only [Option.some.injEq, Prod.mk.injEq] at h
    obtain ⟨rfl, -, -⟩ := h
    exact .refl hd
  · refine DataEngine.advances_withWriter hd htouches h fun W' hrun ↦ ?_
    obtain ⟨⟨r, out⟩, hloop, heq⟩ := Option.map_eq_some_iff.mp hrun
    have hr := fun P ↦ running_runChunks (DataEngine.running_createWriter P hd) hloop
    rcases out with _ | e
    · obtain ⟨rfl, hnode⟩ := Prod.mk.inj heq
      obtain ⟨-, rfl⟩ := Prod.mk.inj hnode
      rw [finish]
      dsimp only
      split
      · exact (hr _).commitAll (fun _ hid ↦ ⟨rfl, hid⟩) walk _
      · exact hr _
    · obtain ⟨rfl, -⟩ := Prod.mk.inj heq
      exact hr _

end SisoNode

namespace MimoNode

variable {T : Setup} {n n' : MimoNode} {W₀ : World} {r r' : MimoRun}

theorem running_runJoin {samples : List (List SampleLoc)} {t : Timestamp}
    (hr : World.Running T P W₀ r.world) (h : runJoin T samples r t = some (r', err)) :
    World.Running T P W₀ r'.world := by
  obtain ⟨input, -, hrest⟩ := Option.bind_eq_some_iff.mp h
  dsimp only at hrest
  split at hrest
  · obtain ⟨⟨W', out⟩, hloop, heq⟩ := Option.map_eq_some_iff.mp hrest
    have hW' := Loop.run_induction (I := World.Running T P W₀) (fun out _ V V' err' hbody hV ↦ by
      obtain ⟨val, -, hemit⟩ := Option.bind_eq_some_iff.mp hbody
      exact hV.emitRow hemit) hloop hr
    dsimp only at heq
    split at heq
    all_goals
      obtain ⟨rfl, -⟩ := Prod.mk.inj heq
      exact hW'
  · obtain ⟨rfl, -⟩ := Prod.mk.inj (Option.some.inj hrest)
    exact hr

theorem running_runJoins {samples : List (List SampleLoc)} {joined : List Timestamp}
    (hr : World.Running T P W₀ r.world)
    (h : Loop.run (runJoin T samples) joined r = some (r', err)) :
    World.Running T P W₀ r'.world :=
  Loop.run_induction (I := fun r ↦ World.Running T P W₀ r.world)
    (fun _ _ _ _ _ hbody hr ↦ running_runJoin hr hbody) h hr

theorem runJoined_advances {samples : List (List SampleLoc)} {joined : List Timestamp}
    (hd : d.Sound S) (h : n.runJoined walk d samples joined = some (d', n', err)) :
    d.Advances S (fun chunk ↦ err = none ∧ d.world.nextChunkId ≤ chunk.id) d' := by
  refine DataEngine.advances_withWriter hd (runJoined_frame h).1 h fun W' hrun ↦ ?_
  obtain ⟨⟨r, out⟩, hloop, heq⟩ := Option.map_eq_some_iff.mp hrun
  have hr := fun P ↦ running_runJoins (DataEngine.running_createWriter P hd) hloop
  rcases out with _ | e
  · obtain ⟨rfl, hnode⟩ := Prod.mk.inj heq
    obtain ⟨-, rfl⟩ := Prod.mk.inj hnode
    dsimp only
    split
    · exact (hr _).commitAll (fun _ hid ↦ ⟨rfl, hid⟩) walk _
    · exact hr _
  · obtain ⟨rfl, -⟩ := Prod.mk.inj heq
    exact hr _

theorem runIncremental_advances (hd : d.Sound S) (h : n.runIncremental walk d = some (d', n', err)) :
    d.Advances S (fun chunk ↦ err = none ∧ d.world.nextChunkId ≤ chunk.id) d' := by
  rw [runIncremental] at h
  split at h
  · simp only [Option.some.injEq, Prod.mk.injEq] at h
    obtain ⟨rfl, -, -⟩ := h
    exact .refl hd
  · split at h
    · simp only [Option.some.injEq, Prod.mk.injEq] at h
      obtain ⟨rfl, -, -⟩ := h
      exact .refl hd
    · exact runJoined_advances hd h

end MimoNode

/-- A run of a node brings chunks that it has sealed, and none if it fails. -/
theorem NodeOp.runIncremental_advances {op op' : NodeOp} (hd : d.Sound S)
    (h : op.runIncremental walk d = some (d', op', err)) :
    d.Advances S (fun chunk ↦ err = none ∧ d.world.nextChunkId ≤ chunk.id) d' := by
  rcases op with n | n
  · obtain ⟨⟨d₁, n', err'⟩, hrun, heq⟩ := Option.map_eq_some_iff.mp h
    simp only [Prod.map_apply, id_eq, Prod.mk.injEq] at heq
    obtain ⟨rfl, -, rfl⟩ := heq
    exact n.runIncremental_advances hd hrun
  · obtain ⟨⟨d₁, n', err'⟩, hrun, heq⟩ := Option.map_eq_some_iff.mp h
    simp only [Prod.map_apply, id_eq, Prod.mk.injEq] at heq
    obtain ⟨rfl, -, rfl⟩ := heq
    exact n.runIncremental_advances hd hrun

end Nodes

end PlotJuggler
