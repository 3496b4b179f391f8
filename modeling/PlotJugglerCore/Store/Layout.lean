import PlotJugglerCore.Store.Expansion

/-!
# Ids are positions

A writer that has no columns yet takes the list stored with the topic, or flattens the schema, or
looks at the first chunk, and a call then addresses a column by its id as if that were its position.
It is: ids count up from zero in every list and every chunk of every world that a run reaches. This
needs no condition on the run, not even that writers agree on the columns.
-/

namespace PlotJuggler

/-- Ids count up from zero. -/
def Dense (cols : List ColumnDescriptor) : Prop :=
  ∀ (i : ℕ) (col : ColumnDescriptor), cols[i]? = some col → col.fieldId = i

theorem dense_nil : Dense [] := fun i col hcol ↦ by simp at hcol

/-- The columns a chunk was made with. -/
abbrev TopicChunk.descriptors (chunk : TopicChunk) : List ColumnDescriptor :=
  chunk.columns.map (·.descriptor)

theorem TopicChunkBuilder.descriptors_sealChunk (b : TopicChunkBuilder) (id : ℕ) :
    (b.sealChunk id).descriptors = b.descriptors := by
  rw [TopicChunk.descriptors, sealChunk, List.map_map]
  rfl

theorem TopicChunkBuilder.descriptors_of_new (topicId schemaId : ℕ) (cols : List ColumnDescriptor)
    (maxRows : ℕ) : (new topicId schemaId cols maxRows).descriptors = cols := by
  rw [descriptors, new, List.map_map]
  exact List.map_id _

theorem dense_buildColumnDescriptors (root : TypeTreeNode) :
    Dense (buildColumnDescriptors root) := by
  intro i col hcol
  rw [buildColumnDescriptors] at hcol
  split_ifs at hcol
  · rw [TopicView.fieldId_numberFrom hcol, Nat.zero_add]
  · obtain ⟨hi, rfl⟩ := List.getElem?_eq_some_iff.mp hcol
    have hzero : i = 0 := Nat.lt_one_iff.mp hi
    subst hzero
    rfl

/-! ## One topic -/

structure TopicStorage.Dense (s : TopicStorage) : Prop where
  stored : PlotJuggler.Dense s.columnDescriptors
  chunks : ∀ chunk ∈ s.sealedChunks, PlotJuggler.Dense chunk.descriptors

structure TopicWriter.Dense (tw : TopicWriter) : Prop where
  columns : PlotJuggler.Dense tw.columns
  builder : ∀ b, tw.builder = some b → PlotJuggler.Dense b.descriptors
  pending : ∀ chunk ∈ tw.pending, PlotJuggler.Dense chunk.descriptors

theorem TopicStorage.Dense.loadColumns {s : TopicStorage} (hs : s.Dense)
    (schema : Option TypeTreeNode) : PlotJuggler.Dense (TopicView.loadColumns schema s) := by
  rw [TopicView.loadColumns.eq_def]
  split_ifs
  · exact hs.stored
  · cases schema with
    | some root => exact dense_buildColumnDescriptors root
    | none =>
      rcases hchunks : s.sealedChunks with _ | ⟨first, rest⟩
      · exact dense_nil
      · exact hs.chunks first (hchunks ▸ List.mem_cons_self)

namespace TopicView

variable {schema : Option TypeTreeNode} {v v' v₀ : TopicView} {c : TopicCall}

/-- All the lists a call on the topic can meet. -/
structure Dense (v : TopicView) : Prop where
  storage : v.storage.Dense
  writer : v.writer.Dense

theorem Dense.setBuilder (hv : v.Dense) {b : TopicChunkBuilder}
    (hb : PlotJuggler.Dense b.descriptors) : (v.setBuilder b).Dense :=
  ⟨hv.storage, hv.writer.columns, fun _ heq ↦ Option.some.inj heq ▸ hb, hv.writer.pending⟩

theorem Dense.stage (hv : v.Dense) {b : TopicChunkBuilder}
    (hb : PlotJuggler.Dense b.descriptors) : (v.stage b).Dense := by
  refine ⟨hv.storage, hv.writer.columns, by simp, fun chunk hchunk ↦ ?_⟩
  rw [stage_pending] at hchunk
  rcases List.mem_append.mp hchunk with hchunk | hchunk
  · exact hv.writer.pending chunk hchunk
  · rw [List.mem_singleton.mp hchunk, TopicChunkBuilder.descriptors_sealChunk]
    exact hb

theorem Dense.putBack (hv : v.Dense) {b : TopicChunkBuilder}
    (hb : PlotJuggler.Dense b.descriptors) : (v.putBack b).Dense := by
  rw [TopicView.putBack_eq]
  split_ifs
  · exact hv.stage hb
  · exact hv.setBuilder hb

/-- The list the next call works with. -/
theorem Dense.columnList (hv : v.Dense) : PlotJuggler.Dense (columnList schema v) := by
  rw [TopicView.columnList, ensureColsLoaded_columns]
  split_ifs
  · exact hv.writer.columns
  · exact hv.storage.loadColumns schema

theorem Micro.dense (h : Micro schema v₀ c v v') (hfits : v.Fits) (hv : v.Dense) : v'.Dense := by
  cases h with
  | load =>
    refine ⟨?_, hv.columnList, ?_, ?_⟩
    · rw [ensureColsLoaded_storage]
      exact hv.storage
    · rw [ensureColsLoaded_builder]
      exact hv.writer.builder
    · rw [ensureColsLoaded_pending]
      exact hv.writer.pending
  | create hb =>
    apply hv.setBuilder
    rw [newBuilder, TopicChunkBuilder.descriptors_of_new]
    exact hv.writer.columns
  | beginRow hb h =>
    obtain ⟨-, -, rfl⟩ := TopicChunkBuilder.beginRow_eq_some h
    have hold := hv.writer.builder _ hb
    exact hv.setBuilder hold
  | cell hb h =>
    apply hv.setBuilder
    rw [TopicChunkBuilder.descriptors_runCellCall h]
    exact hv.writer.builder _ hb
  | finishRow hb h =>
    apply hv.putBack
    rw [TopicChunkBuilder.descriptors_finishRow h]
    exact hv.writer.builder _ hb
  | batch hc hne hb h =>
    apply hv.putBack
    rw [TopicChunkBuilder.descriptors_runBatch (hfits _ hb).pending h]
    exact hv.writer.builder _ hb
  | close hrow =>
    rw [sealBeforeLayoutChange]
    split
    · rename_i b hb
      split_ifs
      · exact hv.stage (hv.writer.builder b hb)
      · exact ⟨hv.storage, hv.writer.columns, by simp, hv.writer.pending⟩
    · exact hv
  | grow hb hcols hstored hgrows =>
    have hnew := dense_of_grows hv.writer.columns hgrows
    exact ⟨⟨hnew, hv.storage.chunks⟩, hnew, hv.writer.builder, hv.writer.pending⟩
  | note hf =>
    refine ⟨⟨?_, fun chunk hchunk ↦ ?_⟩, hv.writer⟩
    · rw [mapStorage, (hf v.storage).columnDescriptors]
      exact hv.storage.stored
    · rw [mapStorage, (hf v.storage).sealedChunks] at hchunk
      exact hv.storage.chunks chunk hchunk

theorem Path.dense (h : Path schema v₀ c v v') (hfits : v.Fits) (hv : v.Dense) : v'.Dense :=
  (h.induction (I := fun u ↦ u.Fits ∧ u.Dense)
    (fun _ _ hstep hu ↦ ⟨hstep.fits hu.1, hstep.dense hu.1 hu.2⟩) ⟨hfits, hv⟩).2

theorem Dense.flush (hv : v.Dense) :
    v.flush.1.Dense ∧ ∀ chunk ∈ v.flush.2, PlotJuggler.Dense chunk.descriptors := by
  have hstorage : v.flush.1.storage.Dense := by
    rw [flush_storage]
    exact hv.storage
  have hcolumns : PlotJuggler.Dense v.flush.1.writer.columns := by
    rw [flush_columns]
    exact hv.writer.columns
  rcases v.flush_cases with ⟨b, hb, -, hnone, hout⟩ | ⟨-, hsame, hout⟩
  · refine ⟨⟨hstorage, hcolumns, by simp [hnone], by simp⟩, fun chunk hchunk ↦ ?_⟩
    rw [hout] at hchunk
    rcases List.mem_append.mp hchunk with hchunk | hchunk
    · exact hv.writer.pending chunk hchunk
    · rw [List.mem_singleton.mp hchunk, TopicChunkBuilder.descriptors_sealChunk]
      exact hv.writer.builder b hb
  · refine ⟨⟨hstorage, hcolumns, hsame ▸ hv.writer.builder, by simp⟩, ?_⟩
    rw [hout]
    exact hv.writer.pending

end TopicView

/-! ## The world -/

namespace World

variable {S : Setup} {W W' : World} {w τ : ℕ} {v v' : TopicView}

/-- Every list and every chunk. A writer's own list counts for topics that exist. -/
structure Dense (S : Setup) (W : World) : Prop where
  engines : ∀ e, (W.engines e).All TopicStorage.Dense
  columns : ∀ w τ, ((W.engines (S.home w)).descriptor τ).isSome →
    PlotJuggler.Dense (W.writers w τ).columns
  builder : ∀ w τ b, (W.writers w τ).builder = some b → PlotJuggler.Dense b.descriptors
  pending : ∀ w τ, ∀ chunk ∈ (W.writers w τ).pending, PlotJuggler.Dense chunk.descriptors
  inFlight : ∀ batch ∈ W.inFlight, ∀ p ∈ batch, PlotJuggler.Dense p.2.descriptors

theorem Dense.view (hW : W.Dense S) (hv : W.view S w τ = some v) : v.Dense := by
  obtain ⟨hs, hw, -⟩ := view_eq_some hv
  have hexists : ((W.engines (S.home w)).descriptor τ).isSome := by
    rw [Engine.descriptor, hs]
    rfl
  refine ⟨hW.engines _ τ _ hs, ?_, ?_, ?_⟩
  · exact hw ▸ hW.columns w τ hexists
  · exact hw ▸ hW.builder w τ
  · exact hw ▸ hW.pending w τ

theorem Initial.dense (hW : W.Initial S) : W.Dense S where
  engines e τ s hs := ⟨hW.layout e τ s hs, fun chunk hchunk ↦ by
    rw [hW.chunks e τ s hs] at hchunk
    exact absurd hchunk List.not_mem_nil⟩
  columns w τ hexists := by
    obtain ⟨d, hd⟩ := Option.isSome_iff_exists.mp hexists
    obtain ⟨s, hs, -⟩ := Option.map_eq_some_iff.mp hd
    rcases hW.columns w τ with hnil | hcopy
    · rw [hnil]
      exact dense_nil
    · rw [hcopy s hs]
      exact hW.layout _ τ s hs
  builder w τ b hb := by
    rw [hW.builder w τ] at hb
    cases hb
  pending w τ chunk hchunk := by
    rw [hW.pending w τ] at hchunk
    exact absurd hchunk List.not_mem_nil
  inFlight batch hbatch := by
    rw [hW.inFlight] at hbatch
    exact absurd hbatch List.not_mem_nil

theorem Dense.setEngine (hW : W.Dense S) {e : ℕ} {engine : Engine}
    (hd : engine.descriptor = (W.engines e).descriptor) (he : engine.All TopicStorage.Dense) :
    (W.setEngine e engine).Dense S := by
  have hsame : ∀ e', ((W.setEngine e engine).engines e').descriptor = (W.engines e').descriptor := by
    intro e'
    by_cases h : e' = e
    · subst h
      rw [setEngine_self, hd]
    · rw [setEngine_of_ne h]
  exact ⟨all_setEngine hW.engines he, fun w τ h ↦ hW.columns w τ (hsame (S.home w) ▸ h), hW.builder,
    hW.pending, hW.inFlight⟩

theorem Dense.setWriter (hW : W.Dense S) {tw : TopicWriter}
    (hcolumns : ((W.engines (S.home w)).descriptor τ).isSome → PlotJuggler.Dense tw.columns)
    (hbuilder : ∀ b, tw.builder = some b → PlotJuggler.Dense b.descriptors)
    (hpending : ∀ chunk ∈ tw.pending, PlotJuggler.Dense chunk.descriptors) :
    (W.setWriter w τ tw).Dense S where
  engines := hW.engines
  columns := writers_setWriter (P := fun w τ tw ↦ ((W.engines (S.home w)).descriptor τ).isSome →
    PlotJuggler.Dense tw.columns) hW.columns hcolumns
  builder := writers_setWriter (P := fun _ _ tw ↦ ∀ b, tw.builder = some b →
    PlotJuggler.Dense b.descriptors) hW.builder hbuilder
  pending := writers_setWriter (P := fun _ _ tw ↦ ∀ chunk ∈ tw.pending,
    PlotJuggler.Dense chunk.descriptors) hW.pending hpending
  inFlight := hW.inFlight

theorem Dense.putView (hW : W.Dense S) (hv : W.view S w τ = some v)
    (hd : v'.storage.descriptor = v.storage.descriptor) (hv' : v'.Dense) :
    (W.putView S w τ v').Dense S := by
  obtain ⟨-, hcolumns, hbuilder, hpending, hinFlight⟩ := hW.setWriter (w := w) (τ := τ)
    (fun _ ↦ hv'.writer.columns) hv'.writer.builder hv'.writer.pending
  refine ⟨all_putView hW.engines hv fun _ ↦ hv'.storage, fun w' τ' h ↦ ?_, hbuilder, hpending,
    hinFlight⟩
  rw [putView_descriptor hv hd] at h
  exact hcolumns w' τ' h

theorem Dense.flushTopic (hW : W.Dense S) (w τ : ℕ) : (W.flushTopic S w τ).1.Dense S ∧
    ∀ p ∈ (W.flushTopic S w τ).2, PlotJuggler.Dense p.2.descriptors := by
  rcases hv : W.view S w τ with _ | v
  · rw [flushTopic_of_none hv]
    exact ⟨hW, by simp⟩
  · rw [flushTopic_of_some hv]
    obtain ⟨hflush, hout⟩ := (hW.view hv).flush
    refine ⟨hW.putView hv (by rw [TopicView.flush_storage]) hflush, fun p hp ↦ ?_⟩
    obtain ⟨chunk, hchunk, rfl⟩ := List.mem_map.mp hp
    exact hout chunk hchunk

theorem Dense.takePending (hW : W.Dense S) (w τ : ℕ) : (W.takePending w τ).1.Dense S ∧
    ∀ p ∈ (W.takePending w τ).2, PlotJuggler.Dense p.2.descriptors := by
  refine ⟨hW.setWriter (hW.columns w τ) (hW.builder w τ) (by simp), fun p hp ↦ ?_⟩
  obtain ⟨chunk, hchunk, rfl⟩ := List.mem_map.mp hp
  exact hW.pending w τ chunk hchunk

theorem Dense.handOut {p : World × List (ℕ × TopicChunk)} (hW : p.1.Dense S)
    (hp : ∀ q ∈ p.2, PlotJuggler.Dense q.2.descriptors) : (handOut p).Dense S := by
  refine ⟨hW.engines, hW.columns, hW.builder, hW.pending, fun batch hbatch ↦ ?_⟩
  rcases List.mem_append.mp hbatch with hbatch | hbatch
  · exact hW.inFlight batch hbatch
  · rwa [List.mem_singleton.mp hbatch]

end World

/-! ### The engine's own operations -/

namespace TopicStorage

variable {s s' : TopicStorage}

/-- Chunks that come from dense topics, and the same stored list. -/
theorem Dense.congr (hs : s.Dense) (hcolumns : s'.columnDescriptors = s.columnDescriptors)
    (hchunks : ∀ chunk ∈ s'.sealedChunks, PlotJuggler.Dense chunk.descriptors) : s'.Dense :=
  ⟨hcolumns ▸ hs.stored, hchunks⟩

theorem Dense.appendSealedChunk (hs : s.Dense) {chunk : TopicChunk}
    (hchunk : PlotJuggler.Dense chunk.descriptors) :
    ((s.appendSealedChunk chunk).getD s).Dense := by
  refine hs.congr ?_ (Chunks.appendSealedChunk hs.chunks hchunk)
  rw [TopicStorage.appendSealedChunk]
  split_ifs <;> rfl

theorem Dense.evictBefore (hs : s.Dense) (t : Timestamp) : (s.evictBefore t).Dense :=
  hs.congr rfl (Chunks.evictBefore hs.chunks t)

theorem Dense.retain (hs : s.Dense) (window : Timestamp) : (s.retain window).Dense := by
  rw [TopicStorage.retain]
  split_ifs
  · exact hs
  · exact hs.evictBefore _

end TopicStorage

theorem Engine.dense_foldl_moveChunks (plan : List (ℕ × ℕ)) {p : Engine × Engine}
    (hsrc : p.1.All TopicStorage.Dense) (hdst : p.2.All TopicStorage.Dense) :
    (plan.foldl moveChunks p).1.All TopicStorage.Dense ∧
      (plan.foldl moveChunks p).2.All TopicStorage.Dense := by
  induction plan generalizing p with
  | nil => exact ⟨hsrc, hdst⟩
  | cons m plan ih =>
    refine ih (hsrc.mapTopic fun s _ hs ↦ hs.congr rfl (s.chunks_clearChunks _))
      (hdst.mapTopic fun d _ hd ↦ hd.congr rfl fun chunk hchunk ↦ ?_)
    rcases List.mem_append.mp hchunk with hchunk | hchunk
    · exact hd.chunks chunk hchunk
    · rcases hs : p.1.topics m.1 with _ | s
      · simp [hs] at hchunk
      · rw [hs] at hchunk
        exact (hsrc m.1 s hs).chunks chunk hchunk

namespace World

variable {S : Setup} {W W' : World}

theorem step_dense {c : Call} {out : Outcome} (hfits : W.Fits S) (hW : W.Dense S)
    (h : W.step S c = some (W', out)) : W'.Dense S := by
  cases c with
  | topic w τ c =>
    rcases topicCall_eq_some h with ⟨-, rfl⟩ | ⟨v, v', hv, hcall, rfl⟩
    · exact hW
    · have hfit := hfits.view hv
      exact hW.putView hv (TopicView.call_storage hfit hcall).2.1
        ((TopicView.call_path hfit hcall).dense hfit (hW.view hv))
  | flush w τ =>
    obtain ⟨rfl, -⟩ := Prod.mk.inj (Option.some.inj h)
    exact (hW.flushTopic w τ).1.handOut (hW.flushTopic w τ).2
  | flushAll w order order' =>
    obtain ⟨rfl, -⟩ := Prod.mk.inj (Option.some.inj h)
    obtain ⟨h₁, h₂⟩ := flushAll_induction (S := S) (w := w) (I := fun W ↦ W.Dense S)
      (P := fun p ↦ PlotJuggler.Dense p.2.descriptors) (fun _ τ hW ↦ hW.takePending w τ)
      order order' (fun _ τ _ hW ↦ hW.flushTopic w τ) hW
    exact h₁.handOut h₂
  | commitChunks e k =>
    obtain ⟨rfl, -⟩ := Prod.mk.inj (Option.some.inj h)
    have hengine : ((W.engines e).commitChunks (W.inFlight.getD k [])).All TopicStorage.Dense :=
      (hW.engines e).foldl_mapTopic (t := Prod.fst) fun p hp _ hs ↦
        hs.appendSealedChunk (forall_mem_getD_inFlight hW.inFlight k p hp)
    obtain ⟨h₁, h₂, h₃, h₄, h₅⟩ := hW.setEngine (Engine.descriptor_commitChunks _) hengine
    exact ⟨h₁, h₂, h₃, h₄, fun batch hb ↦ h₅ batch (List.mem_of_mem_eraseIdx hb)⟩
  | evictBefore e τ t =>
    obtain ⟨rfl, -⟩ := Prod.mk.inj (Option.some.inj h)
    exact hW.setEngine (Engine.descriptor_mapTopic fun _ _ ↦ rfl)
      ((hW.engines e).mapTopic fun _ _ hs ↦ hs.evictBefore t)
  | enforceRetention e window =>
    obtain ⟨rfl, -⟩ := Prod.mk.inj (Option.some.inj h)
    exact hW.setEngine (Engine.descriptor_enforceRetention window)
      ((hW.engines e).foldl_mapTopic (t := id) fun _ _ _ hs ↦ hs.retain window)
  | clearChunks e τ =>
    obtain ⟨rfl, -⟩ := Prod.mk.inj (Option.some.inj h)
    exact hW.setEngine (Engine.descriptor_mapTopic fun _ _ ↦ rfl)
      ((hW.engines e).mapTopic fun s _ hs ↦ hs.congr rfl (s.chunks_clearChunks _))
  | flushTo e e' =>
    rcases flushTo_eq_some h with rfl | ⟨hne, plan, -, -, rfl⟩
    · exact hW
    · obtain ⟨hd, hd'⟩ := Engine.descriptor_foldl_moveChunks plan (W.engines e, W.engines e')
      obtain ⟨h₁, h₂⟩ := Engine.dense_foldl_moveChunks plan
        (p := (W.engines e, W.engines e')) (hW.engines e) (hW.engines e')
      refine (hW.setEngine hd h₁).setEngine ?_ h₂
      rw [setEngine_of_ne (Ne.symm hne)]
      exact hd'

end World

end PlotJuggler
