import PlotJugglerCore.Store.TimeOrder

/-!
# Chunk ids

One counter numbers the chunks of a process. A writer gives the next number to every chunk that it
seals, whatever engine and topic the chunk is for, and a chunk keeps its number on its way. So the
ids of the chunks there are lie below the counter (`World.Numbered`), and what a writer seals from
now on gets a larger one (`World.Drafts`). A chunk also keeps the row count of its builder, which
goes along with the timestamps, whatever else a call does.
-/

namespace PlotJuggler

/-- The chunk was sealed when the counter had come to `lo`, and before it came to `hi`. -/
structure TopicChunk.SealedIn (lo hi : ℕ) (chunk : TopicChunk) : Prop where
  le : lo ≤ chunk.id
  lt : chunk.id < hi
  counted : chunk.stats.rowCount = chunk.timestamps.length

theorem TopicChunk.SealedIn.mono {chunk : TopicChunk} {lo lo' hi hi' : ℕ}
    (h : chunk.SealedIn lo hi) (hlo : lo' ≤ lo) (hhi : hi ≤ hi') : chunk.SealedIn lo' hi' :=
  ⟨hlo.trans h.le, h.lt.trans_le hhi, h.counted⟩

/-- The rows of the builder have their timestamps. -/
def TopicWriter.Counted (tw : TopicWriter) : Prop :=
  ∀ b, tw.builder = some b → b.rowCount = b.timestamps.length

theorem TopicWriter.counted_of_none {tw : TopicWriter} (h : tw.builder = none) : tw.Counted :=
  fun b hb ↦ absurd (hb.symm.trans h) (Option.some_ne_none b)

theorem TopicWriter.counted_of_some {tw : TopicWriter} {b : TopicChunkBuilder}
    (h : tw.builder = some b) (hb : b.rowCount = b.timestamps.length) : tw.Counted :=
  fun _ hb' ↦ Option.some.inj (h.symm.trans hb') ▸ hb

/-! ## A writer -/

namespace TopicView

variable {schema : Option TypeTreeNode} {v v₀ v' : TopicView} {c : TopicCall} {lo : ℕ}

/-- What is pending was sealed since the counter stood at `lo`. -/
structure Drafts (lo : ℕ) (v : TopicView) : Prop where
  le : lo ≤ v.nextChunkId
  pending : ∀ chunk ∈ v.writer.pending, chunk.SealedIn lo v.nextChunkId
  counted : v.writer.Counted

theorem drafts_stage {b : TopicChunkBuilder} (h : v.Drafts lo)
    (hb : b.rowCount = b.timestamps.length) : (v.stage b).Drafts lo := by
  refine ⟨Nat.le_succ_of_le h.le, fun chunk hchunk ↦ ?_, TopicWriter.counted_of_none rfl⟩
  rcases List.mem_append.mp hchunk with hchunk | hchunk
  · exact (h.pending chunk hchunk).mono le_rfl (Nat.le_succ _)
  · rw [List.mem_singleton.mp hchunk]
    exact ⟨h.le, Nat.lt_succ_self _, hb⟩

theorem drafts_setBuilder {b : TopicChunkBuilder} (h : v.Drafts lo)
    (hb : b.rowCount = b.timestamps.length) : (v.setBuilder b).Drafts lo :=
  ⟨h.le, h.pending, TopicWriter.counted_of_some rfl hb⟩

theorem drafts_putBack {b : TopicChunkBuilder} (h : v.Drafts lo)
    (hb : b.rowCount = b.timestamps.length) :
    (v.putBack b).Drafts lo ∧ v.nextChunkId ≤ (v.putBack b).nextChunkId := by
  rw [putBack_eq]
  split_ifs
  · exact ⟨drafts_stage h hb, Nat.le_succ _⟩
  · exact ⟨drafts_setBuilder h hb, le_rfl⟩

theorem Micro.drafts (h : Micro schema v₀ c v v') (hfit : v.Fits) (hv : v.Drafts lo) :
    v'.Drafts lo ∧ v.nextChunkId ≤ v'.nextChunkId := by
  cases h with
  | load =>
    rw [ensureColsLoaded]
    split_ifs <;> exact ⟨⟨hv.le, hv.pending, hv.counted⟩, le_rfl⟩
  | create => exact ⟨drafts_setBuilder hv rfl, le_rfl⟩
  | beginRow hb h =>
    have hcounted := hv.counted _ hb
    obtain ⟨-, -, rfl⟩ := TopicChunkBuilder.beginRow_eq_some h
    exact ⟨drafts_setBuilder hv hcounted, le_rfl⟩
  | cell hb h =>
    have hcounted := hv.counted _ hb
    obtain ⟨-, c, c', -, -, rfl⟩ := TopicChunkBuilder.runCellCall_eq_some h
    exact ⟨drafts_setBuilder hv hcounted, le_rfl⟩
  | finishRow hb h =>
    obtain ⟨-, rfl⟩ := TopicChunkBuilder.finishRow_eq_some h
    refine drafts_putBack hv ?_
    simpa using hv.counted _ hb
  | batch _ _ hb h =>
    obtain ⟨hafter, -, -⟩ := TopicChunkBuilder.runBatch_eq_some (hfit _ hb).pending h
    refine drafts_putBack hv ?_
    rw [hafter.frame]
    simpa using hv.counted _ hb
  | close =>
    rw [sealBeforeLayoutChange]
    split
    · split_ifs
      · exact ⟨drafts_stage hv (hv.counted _ (by assumption)), Nat.le_succ _⟩
      · exact ⟨⟨hv.le, hv.pending, TopicWriter.counted_of_none rfl⟩, le_rfl⟩
    · exact ⟨hv, le_rfl⟩
  | grow | note => exact ⟨⟨hv.le, hv.pending, hv.counted⟩, le_rfl⟩

theorem call_drafts {out : Outcome} (hfit : v.Fits) (hv : v.Drafts lo)
    (h : v.call schema c = some (v', out)) : v'.Drafts lo ∧ v.nextChunkId ≤ v'.nextChunkId :=
  ((call_path hfit h).induction (I := fun u ↦ u.Fits ∧ u.Drafts lo ∧ v.nextChunkId ≤ u.nextChunkId)
    (fun _ _ hstep hu ↦ ⟨hstep.fits hu.1, (hstep.drafts hu.1 hu.2.1).1,
      hu.2.2.trans (hstep.drafts hu.1 hu.2.1).2⟩) ⟨hfit, hv, le_rfl⟩).2

/-- A flush hands out what was pending and at most one chunk more. -/
theorem flush_drafts (hv : v.Drafts lo) : v.flush.1.Drafts lo ∧
    v.nextChunkId ≤ v.flush.1.nextChunkId ∧
      ∀ chunk ∈ v.flush.2, chunk.SealedIn lo v.flush.1.nextChunkId := by
  have hnil : ∀ {n : ℕ}, ∀ chunk ∈ ([] : List TopicChunk), chunk.SealedIn lo n :=
    fun chunk hchunk ↦ absurd hchunk List.not_mem_nil
  rw [flush]
  split
  · rename_i b hb
    split_ifs
    · refine ⟨⟨Nat.le_succ_of_le hv.le, hnil, TopicWriter.counted_of_none rfl⟩, Nat.le_succ _,
        List.forall_mem_append.mpr ⟨?_, ?_⟩⟩
      · exact fun chunk hchunk ↦ (hv.pending chunk hchunk).mono le_rfl (Nat.le_succ _)
      · exact List.forall_mem_singleton.mpr ⟨hv.le, Nat.lt_succ_self _, hv.counted b hb⟩
    · exact ⟨⟨hv.le, hnil, hv.counted⟩, le_rfl, hv.pending⟩
  · exact ⟨⟨hv.le, hnil, hv.counted⟩, le_rfl, hv.pending⟩

end TopicView

/-! ## The world -/

namespace World

variable {S : Setup} {W W' : World} {w τ lo : ℕ} {v : TopicView}

/-- All chunks there are have a property: those of the topics, those pending and those in flight. -/
structure Chunks (P : TopicChunk → Prop) (W : World) : Prop where
  engines : ∀ e, (W.engines e).All (·.Chunks P)
  pending : ∀ w τ, ∀ chunk ∈ (W.writers w τ).pending, P chunk
  inFlight : ∀ batch ∈ W.inFlight, ∀ p ∈ batch, P p.2

/-- The counter starts at one, and all ids there are have been handed out. -/
structure Numbered (W : World) : Prop where
  pos : 1 ≤ W.nextChunkId
  chunks : W.Chunks (·.SealedIn 1 W.nextChunkId)
  counted : ∀ w τ, (W.writers w τ).Counted

namespace Chunks

variable {P Q : TopicChunk → Prop}

theorem mono (h : W.Chunks P) (hPQ : ∀ chunk, P chunk → Q chunk) : W.Chunks Q where
  engines e τ s hs chunk hchunk := hPQ chunk (h.engines e τ s hs chunk hchunk)
  pending w τ chunk hchunk := hPQ chunk (h.pending w τ chunk hchunk)
  inFlight batch hbatch p hp := hPQ p.2 (h.inFlight batch hbatch p hp)

theorem setEngine (h : W.Chunks P) {e : ℕ} {engine : Engine} (he : engine.All (·.Chunks P)) :
    (W.setEngine e engine).Chunks P :=
  ⟨all_setEngine h.engines he, h.pending, h.inFlight⟩

theorem setWriter (h : W.Chunks P) {tw : TopicWriter} (htw : ∀ chunk ∈ tw.pending, P chunk) :
    (W.setWriter w τ tw).Chunks P :=
  ⟨h.engines, writers_setWriter (P := fun _ _ tw ↦ ∀ chunk ∈ tw.pending, P chunk) h.pending htw,
    h.inFlight⟩

theorem putView (h : W.Chunks P) (hv : W.view S w τ = some v) {v' : TopicView}
    (hchunks : v'.storage.sealedChunks = v.storage.sealedChunks)
    (hpending : ∀ chunk ∈ v'.writer.pending, P chunk) : (W.putView S w τ v').Chunks P := by
  obtain ⟨-, hwriters, hinFlight⟩ := h.setWriter (w := w) (τ := τ) hpending
  refine ⟨all_putView h.engines hv fun hs chunk hchunk ↦ hs chunk ?_, hwriters, hinFlight⟩
  exact hchunks ▸ hchunk

theorem handOut {p : World × List (ℕ × TopicChunk)} (h : p.1.Chunks P)
    (hp : ∀ q ∈ p.2, P q.2) : (handOut p).Chunks P := by
  refine ⟨h.engines, h.pending, fun batch hbatch ↦ ?_⟩
  rcases List.mem_append.mp hbatch with hbatch | hbatch
  · exact h.inFlight batch hbatch
  · rwa [List.mem_singleton.mp hbatch]

theorem commitChunks (h : W.Chunks P) {e : ℕ} {batch : List (ℕ × TopicChunk)}
    (hbatch : ∀ p ∈ batch, P p.2) :
    (W.setEngine e ((W.engines e).commitChunks batch)).Chunks P :=
  h.setEngine ((h.engines e).foldl_mapTopic (t := Prod.fst)
    fun p hp _ hs ↦ hs.appendSealedChunk (hbatch p hp))

end Chunks

/-- Writer `w` has sealed what it has pending since the counter stood at `lo`. -/
structure Drafts (w lo : ℕ) (W : World) : Prop extends Numbered W where
  from_one : 1 ≤ lo
  le : lo ≤ W.nextChunkId
  drafted : ∀ τ, ∀ chunk ∈ (W.writers w τ).pending, lo ≤ chunk.id

theorem Numbered.drafts (h : W.Numbered) (w : ℕ) : W.Drafts w 1 :=
  ⟨h, le_rfl, h.pos, fun τ chunk hchunk ↦ (h.chunks.pending w τ chunk hchunk).le⟩

namespace Drafts

theorem view (h : W.Drafts w lo) (hv : W.view S w τ = some v) : v.Drafts lo := by
  obtain ⟨-, hwriter, hnext⟩ := view_eq_some hv
  refine ⟨hnext ▸ h.le, fun chunk hchunk ↦ ?_, hwriter ▸ h.counted w τ⟩
  rw [← hwriter] at hchunk
  obtain ⟨-, hlt, hcount⟩ := h.chunks.pending w τ chunk hchunk
  exact ⟨h.drafted τ chunk hchunk, hnext ▸ hlt, hcount⟩

theorem putView (h : W.Drafts w lo) (hv : W.view S w τ = some v) {v' : TopicView}
    (hchunks : v'.storage.sealedChunks = v.storage.sealedChunks) (hv' : v'.Drafts lo)
    (hle : v.nextChunkId ≤ v'.nextChunkId) : (W.putView S w τ v').Drafts w lo := by
  have hnext : W.nextChunkId ≤ v'.nextChunkId := (view_eq_some hv).2.2.trans_le hle
  -- the ids that were handed out before are below the counter still
  have hold : W.Chunks (·.SealedIn 1 v'.nextChunkId) :=
    h.chunks.mono fun _ hchunk ↦ hchunk.mono le_rfl hnext
  refine ⟨⟨h.from_one.trans hv'.le, hold.putView hv hchunks fun chunk hchunk ↦ ?_,
    writers_setWriter (P := fun _ _ tw ↦ tw.Counted) h.counted hv'.counted⟩, h.from_one, hv'.le,
    fun τ' ↦ ?_⟩
  · exact (hv'.pending chunk hchunk).mono h.from_one le_rfl
  · rw [putView_writers]
    by_cases hτ : τ' = τ
    · subst hτ
      rw [setWriter_self]
      exact fun chunk hchunk ↦ (hv'.pending chunk hchunk).le
    · rw [setWriter_of_ne fun heq ↦ hτ heq.2]
      exact h.drafted τ'

theorem topicCall {c : TopicCall} {out : Outcome} (h : W.Drafts w lo)
    (hfits : ∀ v, W.view S w τ = some v → v.Fits)
    (hcall : W.topicCall S w τ c = some (W', out)) :
    W'.Drafts w lo ∧ W.nextChunkId ≤ W'.nextChunkId := by
  rcases topicCall_eq_some hcall with ⟨-, rfl⟩ | ⟨v, v', hv, hvcall, rfl⟩
  · exact ⟨h, le_rfl⟩
  · obtain ⟨hdrafts, hle⟩ := TopicView.call_drafts (hfits v hv) (h.view hv) hvcall
    exact ⟨h.putView hv (TopicView.call_storage (hfits v hv) hvcall).2.2 hdrafts hle,
      (view_eq_some hv).2.2.trans_le hle⟩

theorem flushTopic (h : W.Drafts w lo) (τ : ℕ) : (W.flushTopic S w τ).1.Drafts w lo ∧
    W.nextChunkId ≤ (W.flushTopic S w τ).1.nextChunkId ∧
      ∀ p ∈ (W.flushTopic S w τ).2, p.2.SealedIn lo (W.flushTopic S w τ).1.nextChunkId := by
  rcases hv : W.view S w τ with _ | v
  · rw [flushTopic_of_none hv]
    exact ⟨h, le_rfl, fun p hp ↦ absurd hp List.not_mem_nil⟩
  · rw [flushTopic_of_some hv]
    obtain ⟨hdrafts, hle, hout⟩ := TopicView.flush_drafts (h.view hv)
    exact ⟨h.putView hv (congrArg _ TopicView.flush_storage) hdrafts hle,
      (view_eq_some hv).2.2.trans_le hle, List.forall_mem_map.mpr hout⟩

theorem takePending (h : W.Drafts w lo) (τ : ℕ) : (W.takePending w τ).1.Drafts w lo ∧
    ∀ p ∈ (W.takePending w τ).2, p.2.SealedIn lo W.nextChunkId := by
  refine ⟨⟨⟨h.pos, h.chunks.setWriter fun _ hchunk ↦ absurd hchunk List.not_mem_nil,
    writers_setWriter (P := fun _ _ tw ↦ tw.Counted) h.counted (h.counted w τ)⟩, h.from_one, h.le,
    fun τ' chunk hchunk ↦ ?_⟩, List.forall_mem_map.mpr fun chunk hchunk ↦ ?_⟩
  · rw [World.takePending] at hchunk
    by_cases hτ : τ' = τ
    · subst hτ
      rw [setWriter_self] at hchunk
      exact absurd hchunk List.not_mem_nil
    · rw [setWriter_of_ne fun heq ↦ hτ heq.2] at hchunk
      exact h.drafted τ' chunk hchunk
  · obtain ⟨-, hlt, hcount⟩ := h.chunks.pending w τ chunk hchunk
    exact ⟨h.drafted τ chunk hchunk, hlt, hcount⟩

theorem flushAll (h : W.Drafts w lo) (order order' : List ℕ) :
    (W.flushAll S w order order').1.Drafts w lo ∧
      W.nextChunkId ≤ (W.flushAll S w order order').1.nextChunkId ∧
      ∀ p ∈ (W.flushAll S w order order').2,
        p.2.SealedIn lo (W.flushAll S w order order').1.nextChunkId := by
  refine flushAll_rule (S := S) (w := w) (I := fun V out ↦ V.Drafts w lo ∧
    W.nextChunkId ≤ V.nextChunkId ∧ ∀ p ∈ out, p.2.SealedIn lo V.nextChunkId)
    (fun V out τ hV ↦ ?_) order order' (fun V out τ _ hV ↦ ?_) []
    ⟨h, le_rfl, fun p hp ↦ absurd hp List.not_mem_nil⟩
  · obtain ⟨hdrafts, hle, hout⟩ := hV
    obtain ⟨hdrafts', hout'⟩ := hdrafts.takePending τ
    exact ⟨hdrafts', hle, List.forall_mem_append.mpr ⟨hout, hout'⟩⟩
  · obtain ⟨hdrafts, hle, hout⟩ := hV
    obtain ⟨hdrafts', hle', hout'⟩ := hdrafts.flushTopic (S := S) τ
    exact ⟨hdrafts', hle.trans hle', List.forall_mem_append.mpr
      ⟨fun p hp ↦ (hout p hp).mono le_rfl hle', hout'⟩⟩

end Drafts

/-! ### Steps -/

theorem step_numbered {c : Call} {out : Outcome} (hfits : W.Fits S) (hW : W.Numbered)
    (h : W.step S c = some (W', out)) : W'.Numbered ∧ W.nextChunkId ≤ W'.nextChunkId := by
  have hengine : ∀ e (engine : Engine),
      engine.All (·.Chunks (·.SealedIn 1 W.nextChunkId)) → (W.setEngine e engine).Numbered :=
    fun e engine he ↦ ⟨hW.pos, hW.chunks.setEngine he, hW.counted⟩
  cases c with
  | topic w τ c =>
    obtain ⟨hdrafts, hle⟩ := (hW.drafts w).topicCall (fun v hv ↦ hfits.view hv) h
    exact ⟨hdrafts.toNumbered, hle⟩
  | flush w τ =>
    obtain ⟨rfl, -⟩ := Prod.mk.inj (Option.some.inj h)
    obtain ⟨hdrafts, hle, hout⟩ := (hW.drafts w).flushTopic (S := S) τ
    exact ⟨⟨hdrafts.pos, hdrafts.chunks.handOut fun q hq ↦ (hout q hq).mono le_rfl le_rfl,
      hdrafts.counted⟩, hle⟩
  | flushAll w order order' =>
    obtain ⟨rfl, -⟩ := Prod.mk.inj (Option.some.inj h)
    obtain ⟨hdrafts, hle, hout⟩ := (hW.drafts w).flushAll (S := S) order order'
    exact ⟨⟨hdrafts.pos, hdrafts.chunks.handOut fun q hq ↦ (hout q hq).mono le_rfl le_rfl,
      hdrafts.counted⟩, hle⟩
  | commitChunks e k =>
    obtain ⟨rfl, -⟩ := Prod.mk.inj (Option.some.inj h)
    obtain ⟨h₁, h₂, h₃⟩ := hW.chunks.commitChunks (e := e)
      (forall_mem_getD_inFlight hW.chunks.inFlight k)
    exact ⟨⟨hW.pos, ⟨h₁, h₂, fun batch hb ↦ h₃ batch (List.mem_of_mem_eraseIdx hb)⟩, hW.counted⟩,
      le_rfl⟩
  | evictBefore e τ t =>
    obtain ⟨rfl, -⟩ := Prod.mk.inj (Option.some.inj h)
    exact ⟨hengine e _ ((hW.chunks.engines e).mapTopic fun _ _ hs ↦ hs.evictBefore t), le_rfl⟩
  | enforceRetention e window =>
    obtain ⟨rfl, -⟩ := Prod.mk.inj (Option.some.inj h)
    exact ⟨hengine e _ ((hW.chunks.engines e).foldl_mapTopic (t := id)
      fun _ _ _ hs ↦ hs.retain window), le_rfl⟩
  | clearChunks e τ =>
    obtain ⟨rfl, -⟩ := Prod.mk.inj (Option.some.inj h)
    exact ⟨hengine e _ ((hW.chunks.engines e).mapTopic fun s _ _ ↦ s.chunks_clearChunks _), le_rfl⟩
  | flushTo e e' =>
    rcases flushTo_eq_some h with rfl | ⟨-, plan, -, -, rfl⟩
    · exact ⟨hW, le_rfl⟩
    · obtain ⟨h₁, h₂⟩ := Engine.chunks_foldl_moveChunks plan (p := (W.engines e, W.engines e'))
        (hW.chunks.engines e) (hW.chunks.engines e')
      exact ⟨⟨hW.pos, (hW.chunks.setEngine h₁).setEngine h₂, hW.counted⟩, le_rfl⟩

theorem Initial.numbered (hW : W.Initial S) (hpos : 1 ≤ W.nextChunkId) : W.Numbered where
  pos := hpos
  chunks.engines e τ s hs chunk hchunk := by
    rw [hW.chunks e τ s hs] at hchunk
    exact absurd hchunk List.not_mem_nil
  chunks.pending w τ chunk hchunk := by
    rw [hW.pending w τ] at hchunk
    exact absurd hchunk List.not_mem_nil
  chunks.inFlight batch hbatch := by
    rw [hW.inFlight] at hbatch
    exact absurd hbatch List.not_mem_nil
  counted w τ := TopicWriter.counted_of_none (hW.builder w τ)

end World

end PlotJuggler
