import PlotJugglerCore.Store.Calls

/-!
# Runs of the world

What one step of the world leaves alone. A call of writer `w` on topic `τ` replaces the view of that
pair; flushes move chunks from the writer to the batch they hand out; the engine's own operations
never touch a writer. An invariant of runs is proved step by step, under a condition that each step
of the run meets where it starts (`World.run_induction`).
-/

namespace PlotJuggler

/-! ## Topics -/

namespace TopicStorage

/-- All chunks of a topic have a property. -/
def Chunks (P : TopicChunk → Prop) (s : TopicStorage) : Prop := ∀ chunk ∈ s.sealedChunks, P chunk

variable {P : TopicChunk → Prop} {s : TopicStorage}

theorem Chunks.appendSealedChunk (hs : s.Chunks P) {chunk : TopicChunk} (hchunk : P chunk) :
    ((s.appendSealedChunk chunk).getD s).Chunks P := by
  rw [TopicStorage.appendSealedChunk]
  split_ifs
  · exact List.forall_mem_append.mpr ⟨hs, List.forall_mem_singleton.mpr hchunk⟩
  · exact hs

theorem Chunks.evictBefore (hs : s.Chunks P) (t : Timestamp) : (s.evictBefore t).Chunks P :=
  fun chunk hchunk ↦ hs chunk ((List.dropWhile_sublist _).subset hchunk)

theorem Chunks.retain (hs : s.Chunks P) (window : Timestamp) : (s.retain window).Chunks P := by
  rw [TopicStorage.retain]
  split_ifs
  · exact hs
  · exact hs.evictBefore _

theorem chunks_clearChunks (P : TopicChunk → Prop) (s : TopicStorage) : s.clearChunks.Chunks P :=
  fun _ hchunk ↦ absurd hchunk List.not_mem_nil

end TopicStorage

/-! ## Engines -/

namespace Engine

/-- `createTopic` for each descriptor in turn: ids count from one. -/
def create (descs : List TopicDescriptor) : Engine where
  order := List.range' 1 descs.length
  topics τ := (descs[τ - 1]?.map fun d ↦ { topicId := τ, descriptor := d }).filter fun _ ↦ 0 < τ
  nodup := List.nodup_range'
  mem_order τ := by
    rw [List.mem_range'_1, Option.isSome_filter]
    cases τ with
    | zero => simp
    | succ τ => simp [Nat.add_comm 1]

theorem create_topics {descs : List TopicDescriptor} {τ : ℕ} {s : TopicStorage}
    (h : (create descs).topics τ = some s) :
    ∃ d, descs[τ - 1]? = some d ∧ s = { topicId := τ, descriptor := d } := by
  obtain ⟨hs, -⟩ := Option.filter_eq_some_iff.mp h
  obtain ⟨d, hd, rfl⟩ := Option.map_eq_some_iff.mp hs
  exact ⟨d, hd, rfl⟩

variable {e : Engine} {τ σ : ℕ} {f : TopicStorage → TopicStorage}

theorem mapTopic_self : (e.mapTopic τ f).topics τ = (e.topics τ).map f := Function.update_self ..

theorem mapTopic_of_ne (h : σ ≠ τ) : (e.mapTopic τ f).topics σ = e.topics σ :=
  Function.update_of_ne h ..

/-- All topics of an engine have a property. -/
def All (P : TopicStorage → Prop) (e : Engine) : Prop := ∀ τ s, e.topics τ = some s → P s

theorem All.mapTopic {P : TopicStorage → Prop} (he : e.All P)
    (hf : ∀ s, e.topics τ = some s → P s → P (f s)) : (e.mapTopic τ f).All P := by
  intro σ s hs
  by_cases hσ : σ = τ
  · subst hσ
    rw [mapTopic_self] at hs
    obtain ⟨s₀, hs₀, rfl⟩ := Option.map_eq_some_iff.mp hs
    exact hf s₀ hs₀ (he σ s₀ hs₀)
  · rw [mapTopic_of_ne hσ] at hs
    exact he σ s hs

theorem All.foldl_mapTopic {P : TopicStorage → Prop} {κ : Type*} {t : κ → ℕ}
    {g : κ → TopicStorage → TopicStorage} {ks : List κ} (he : e.All P)
    (hg : ∀ k ∈ ks, ∀ s, P s → P (g k s)) :
    (ks.foldl (fun e k ↦ e.mapTopic (t k) (g k)) e).All P := by
  induction ks generalizing e with
  | nil => exact he
  | cons k ks ih =>
    exact ih (he.mapTopic fun s _ ↦ hg k List.mem_cons_self s)
      fun k' hk' ↦ hg k' (List.mem_cons_of_mem k hk')

/-- What the topics are, apart from what they hold. -/
def descriptor (e : Engine) (τ : ℕ) : Option TopicDescriptor := (e.topics τ).map (·.descriptor)

theorem descriptor_mapTopic (hf : ∀ s, e.topics τ = some s → (f s).descriptor = s.descriptor) :
    (e.mapTopic τ f).descriptor = e.descriptor := by
  funext σ
  by_cases hσ : σ = τ
  · subst hσ
    rw [descriptor, mapTopic_self, descriptor]
    rcases hs : e.topics σ with _ | s
    · rfl
    · exact congrArg some (hf s hs)
  · rw [descriptor, mapTopic_of_ne hσ, descriptor]

theorem descriptor_foldl_mapTopic {κ : Type*} {t : κ → ℕ}
    {g : κ → TopicStorage → TopicStorage} (hg : ∀ k s, (g k s).descriptor = s.descriptor)
    (ks : List κ) (e : Engine) :
    (ks.foldl (fun e k ↦ e.mapTopic (t k) (g k)) e).descriptor = e.descriptor := by
  induction ks generalizing e with
  | nil => rfl
  | cons k ks ih => rw [List.foldl_cons, ih, descriptor_mapTopic fun s _ ↦ hg k s]

theorem descriptor_commitChunks (batch : List (ℕ × TopicChunk)) :
    (e.commitChunks batch).descriptor = e.descriptor := by
  refine descriptor_foldl_mapTopic (t := Prod.fst) (fun p s ↦ ?_) batch e
  rw [TopicStorage.appendSealedChunk]
  split_ifs <;> rfl

theorem descriptor_enforceRetention (window : Timestamp) :
    (e.enforceRetention window).descriptor = e.descriptor := by
  refine descriptor_foldl_mapTopic (t := id) (fun p s ↦ ?_) e.order e
  rw [TopicStorage.retain]
  split_ifs <;> rfl

theorem descriptor_moveChunks (p : Engine × Engine) (m : ℕ × ℕ) :
    (moveChunks p m).1.descriptor = p.1.descriptor ∧
      (moveChunks p m).2.descriptor = p.2.descriptor :=
  ⟨descriptor_mapTopic fun _ _ ↦ rfl, descriptor_mapTopic fun _ _ ↦ rfl⟩

theorem descriptor_foldl_moveChunks (plan : List (ℕ × ℕ)) (p : Engine × Engine) :
    (plan.foldl moveChunks p).1.descriptor = p.1.descriptor ∧
      (plan.foldl moveChunks p).2.descriptor = p.2.descriptor := by
  induction plan generalizing p with
  | nil => exact ⟨rfl, rfl⟩
  | cons m plan ih =>
    obtain ⟨h₁, h₂⟩ := ih (moveChunks p m)
    obtain ⟨h₁', h₂'⟩ := descriptor_moveChunks p m
    exact ⟨h₁.trans h₁', h₂.trans h₂'⟩

theorem chunks_foldl_moveChunks {P : TopicChunk → Prop} (plan : List (ℕ × ℕ)) {p : Engine × Engine}
    (hsrc : p.1.All (·.Chunks P)) (hdst : p.2.All (·.Chunks P)) :
    (plan.foldl moveChunks p).1.All (·.Chunks P) ∧ (plan.foldl moveChunks p).2.All (·.Chunks P) := by
  induction plan generalizing p with
  | nil => exact ⟨hsrc, hdst⟩
  | cons m plan ih =>
    refine ih (hsrc.mapTopic fun s _ _ ↦ s.chunks_clearChunks P)
      (hdst.mapTopic fun d _ hd ↦ List.forall_mem_append.mpr ⟨hd, fun chunk hchunk ↦ ?_⟩)
    rcases hs : p.1.topics m.1 with _ | s
    · simp [hs] at hchunk
    · rw [hs] at hchunk
      exact hsrc m.1 s hs chunk hchunk

theorem flushTo_eq_ok {src dst : Engine} {p : Engine × Engine} (h : src.flushTo dst = .ok p) :
    ∃ plan, flushPlan src dst src.order = .ok plan ∧ p = plan.foldl moveChunks (src, dst) := by
  rw [flushTo] at h
  rcases hplan : flushPlan src dst src.order with err | plan
  · rw [hplan] at h
    cases h
  · rw [hplan] at h
    exact ⟨plan, rfl, (Except.ok.inj h).symm⟩

end Engine

/-! ## Flushing a view -/

namespace TopicView

variable {v : TopicView}

@[simp] theorem flush_storage : v.flush.1.storage = v.storage := by
  rw [flush]
  split
  · split_ifs <;> rfl
  · rfl

@[simp] theorem flush_columns : v.flush.1.writer.columns = v.writer.columns := by
  rw [flush]
  split
  · split_ifs <;> rfl
  · rfl

@[simp] theorem flush_pending : v.flush.1.writer.pending = [] := by
  rw [flush]
  split
  · split_ifs <;> rfl
  · rfl

/-- A flush seals a builder with rows and leaves one without. -/
theorem flush_cases (v : TopicView) :
    (∃ b, v.writer.builder = some b ∧ 0 < b.rowCount ∧ v.flush.1.writer.builder = none ∧
      v.flush.2 = v.writer.pending ++ [b.sealChunk v.nextChunkId]) ∨
    (∀ b, v.writer.builder = some b → b.rowCount = 0) ∧
      v.flush.1.writer.builder = v.writer.builder ∧ v.flush.2 = v.writer.pending := by
  rcases hb : v.writer.builder with _ | b
  · have hflush : v.flush = ({ v with writer := { v.writer with pending := [] } },
        v.writer.pending) := by rw [flush, hb]
    rw [hflush]
    exact .inr ⟨by simp, hb, rfl⟩
  · by_cases hrows : 0 < b.rowCount
    · refine .inl ⟨b, rfl, hrows, ?_, ?_⟩ <;> rw [flush, hb] <;> simp [hrows]
    · have hflush : v.flush = ({ v with writer := { v.writer with pending := [] } },
          v.writer.pending) := by
        rw [flush, hb]
        exact if_neg hrows
      rw [hflush]
      refine .inr ⟨fun b' hb' ↦ ?_, hb, rfl⟩
      obtain rfl := Option.some.inj hb'
      exact Nat.eq_zero_of_not_pos hrows

end TopicView

/-! ## Worlds -/

namespace World

variable {S : Setup} {W W' : World} {w τ : ℕ} {v : TopicView}

@[simp] theorem setEngine_self {e : ℕ} {engine : Engine} :
    (W.setEngine e engine).engines e = engine := Function.update_self ..

theorem setEngine_of_ne {e e' : ℕ} {engine : Engine} (h : e' ≠ e) :
    (W.setEngine e engine).engines e' = W.engines e' := Function.update_of_ne h ..

@[simp] theorem setWriter_self {tw : TopicWriter} : (W.setWriter w τ tw).writers w τ = tw := by
  simp [setWriter]

theorem setWriter_of_ne {w' τ' : ℕ} {tw : TopicWriter} (h : ¬(w' = w ∧ τ' = τ)) :
    (W.setWriter w τ tw).writers w' τ' = W.writers w' τ' := by
  rw [setWriter]
  by_cases hw : w' = w
  · subst hw
    have hτ : τ' ≠ τ := fun hτ ↦ h ⟨rfl, hτ⟩
    simp [hτ]
  · simp [hw]

theorem view_eq_some (h : W.view S w τ = some v) :
    (W.engines (S.home w)).topics τ = some v.storage ∧ W.writers w τ = v.writer ∧
      W.nextChunkId = v.nextChunkId := by
  obtain ⟨s, hs, rfl⟩ := Option.map_eq_some_iff.mp h
  exact ⟨hs, rfl, rfl⟩

@[simp] theorem putView_writers :
    (W.putView S w τ v).writers = (W.setWriter w τ v.writer).writers := rfl

@[simp] theorem putView_inFlight : (W.putView S w τ v).inFlight = W.inFlight := rfl

theorem putView_engines_self : (W.putView S w τ v).engines (S.home w)
    = (W.engines (S.home w)).mapTopic τ fun _ ↦ v.storage := Function.update_self ..

theorem putView_engines_of_ne {e : ℕ} (h : e ≠ S.home w) :
    (W.putView S w τ v).engines e = W.engines e := Function.update_of_ne h ..

theorem putView_descriptor {v' : TopicView} (hv : W.view S w τ = some v)
    (hd : v'.storage.descriptor = v.storage.descriptor) (e : ℕ) :
    ((W.putView S w τ v').engines e).descriptor = (W.engines e).descriptor := by
  by_cases he : e = S.home w
  · subst he
    rw [putView_engines_self]
    apply Engine.descriptor_mapTopic
    intro s hs
    obtain rfl : s = v.storage := Option.some.inj (hs.symm.trans (view_eq_some hv).1)
    exact hd
  · rw [putView_engines_of_ne he]

/-- What all topics have, they keep when one engine changes. -/
theorem all_setEngine {P : TopicStorage → Prop} (hW : ∀ e, (W.engines e).All P) {e : ℕ}
    {engine : Engine} (he : engine.All P) (e' : ℕ) : ((W.setEngine e engine).engines e').All P := by
  by_cases h : e' = e
  · subst h
    rwa [setEngine_self]
  · rw [setEngine_of_ne h]
    exact hW e'

theorem all_putView {P : TopicStorage → Prop} (hW : ∀ e, (W.engines e).All P)
    (hv : W.view S w τ = some v) {v' : TopicView} (hP : P v.storage → P v'.storage) (e : ℕ) :
    ((W.putView S w τ v').engines e).All P := by
  refine all_setEngine (W := W) hW ((hW (S.home w)).mapTopic fun s hs hPs ↦ ?_) e
  obtain rfl : s = v.storage := Option.some.inj (hs.symm.trans (view_eq_some hv).1)
  exact hP hPs

/-! ### Steps -/

theorem topicCall_eq_some {c : TopicCall} {out : Outcome}
    (h : W.topicCall S w τ c = some (W', out)) :
    (W.view S w τ = none ∧ W' = W) ∨ ∃ v v', W.view S w τ = some v ∧
      v.call (schemaOf S w v) c = some (v', out) ∧ W' = W.putView S w τ v' := by
  rw [topicCall.eq_def] at h
  rcases hv : W.view S w τ with _ | v
  · rw [hv] at h
    obtain ⟨out', -, heq⟩ := Option.map_eq_some_iff.mp h
    exact .inl ⟨rfl, (Prod.mk.inj heq).1.symm⟩
  · rw [hv] at h
    obtain ⟨⟨v', out'⟩, hcall, heq⟩ := Option.map_eq_some_iff.mp h
    obtain ⟨rfl, rfl⟩ := Prod.mk.inj heq
    exact .inr ⟨v, v', rfl, hcall, rfl⟩

theorem flushTo_eq_some {e e' : ℕ} {out : Outcome}
    (h : W.step S (.flushTo e e') = some (W', out)) :
    W' = W ∨ e ≠ e' ∧ ∃ plan,
      Engine.flushPlan (W.engines e) (W.engines e') (W.engines e).order = .ok plan ∧ out = .ok ∧
        W' = (W.setEngine e (plan.foldl Engine.moveChunks (W.engines e, W.engines e')).1).setEngine
          e' (plan.foldl Engine.moveChunks (W.engines e, W.engines e')).2 := by
  rw [step] at h
  split_ifs at h with hne
  · exact .inl (Prod.mk.inj (Option.some.inj h)).1.symm
  · rcases hflush : (W.engines e).flushTo (W.engines e') with err | p
    · rw [hflush] at h
      exact .inl (Prod.mk.inj (Option.some.inj h)).1.symm
    · rw [hflush] at h
      obtain ⟨rfl, rfl⟩ := Prod.mk.inj (Option.some.inj h)
      obtain ⟨plan, hplan, rfl⟩ := Engine.flushTo_eq_ok hflush
      exact .inr ⟨hne, plan, hplan, rfl, rfl⟩

/-- The chunks of a batch in flight, of one that is there or not. -/
theorem forall_mem_getD_inFlight {P : ℕ × TopicChunk → Prop}
    (h : ∀ batch ∈ W.inFlight, ∀ p ∈ batch, P p) (k : ℕ) : ∀ p ∈ W.inFlight.getD k [], P p := by
  intro p hp
  rw [List.getD_eq_getElem?_getD] at hp
  rcases hk : W.inFlight[k]? with _ | batch
  · simp [hk] at hp
  · rw [hk] at hp
    exact h batch (List.mem_of_getElem? hk) p hp

/-! ### Flushing -/

theorem flushTopic_of_none (hv : W.view S w τ = none) : W.flushTopic S w τ = (W, []) := by
  rw [flushTopic, hv]

theorem flushTopic_of_some (hv : W.view S w τ = some v) :
    W.flushTopic S w τ = (W.putView S w τ v.flush.1, v.flush.2.map (τ, ·)) := by
  rw [flushTopic, hv]

/-- Flushing leaves the builder of a writer as it is, or takes it away. -/
theorem builder_flushTopic (W : World) (w τ w' τ' : ℕ) :
    ((W.flushTopic S w τ).1.writers w' τ').builder = none ∨
      ((W.flushTopic S w τ).1.writers w' τ').builder = (W.writers w' τ').builder := by
  rcases hv : W.view S w τ with _ | v
  · rw [flushTopic_of_none hv]
    exact .inr rfl
  · rw [flushTopic_of_some hv, putView_writers]
    by_cases h : w' = w ∧ τ' = τ
    · obtain ⟨rfl, rfl⟩ := h
      rw [setWriter_self, (view_eq_some hv).2.1]
      exact v.flush_cases.imp (fun h ↦ h.elim fun b hb ↦ hb.2.2.1) fun h ↦ h.2.1
    · rw [setWriter_of_ne h]
      exact .inr rfl

theorem builder_takePending (W : World) (w τ w' τ' : ℕ) :
    ((W.takePending w τ).1.writers w' τ').builder = (W.writers w' τ').builder := by
  rw [takePending]
  by_cases h : w' = w ∧ τ' = τ
  · obtain ⟨rfl, rfl⟩ := h
    rw [setWriter_self]
  · rw [setWriter_of_ne h]

/-- The rule for going through topics one by one, with the chunks collected so far. -/
theorem collect_rule {f : World → ℕ → World × List (ℕ × TopicChunk)}
    {I : World → List (ℕ × TopicChunk) → Prop} (order : List ℕ)
    (hf : ∀ W out, ∀ τ ∈ order, I W out → I (f W τ).1 (out ++ (f W τ).2))
    {out : List (ℕ × TopicChunk)} (hW : I W out) :
    I (collect f W order).1 (out ++ (collect f W order).2) := by
  induction order generalizing W out with
  | nil =>
    rw [collect, List.append_nil]
    exact hW
  | cons τ order ih =>
    have hrest := ih (fun W out τ' hτ' ↦ hf W out τ' (List.mem_cons_of_mem τ hτ'))
      (hf W out τ List.mem_cons_self hW)
    rwa [List.append_assoc] at hrest

theorem flushAll_rule {I : World → List (ℕ × TopicChunk) → Prop}
    (htake : ∀ W out τ, I W out → I (takePending W w τ).1 (out ++ (takePending W w τ).2))
    (order order' : List ℕ)
    (hflush : ∀ W out, ∀ τ ∈ order', I W out →
      I (flushTopic S W w τ).1 (out ++ (flushTopic S W w τ).2))
    (out : List (ℕ × TopicChunk)) (hW : I W out) :
    I (flushAll S W w order order').1 (out ++ (flushAll S W w order order').2) := by
  have htaken := collect_rule order (fun W out τ _ ↦ htake W out τ) hW
  have hflushed := collect_rule order' hflush htaken
  rwa [List.append_assoc] at hflushed

theorem flushAll_induction {I : World → Prop} {P : ℕ × TopicChunk → Prop}
    (htake : ∀ W τ, I W → I (takePending W w τ).1 ∧ ∀ p ∈ (takePending W w τ).2, P p)
    (order order' : List ℕ)
    (hflush : ∀ W, ∀ τ ∈ order', I W →
      I (flushTopic S W w τ).1 ∧ ∀ p ∈ (flushTopic S W w τ).2, P p) (hW : I W) :
    I (flushAll S W w order order').1 ∧ ∀ p ∈ (flushAll S W w order order').2, P p := by
  have hadd : ∀ {W W' : World} {out new : List (ℕ × TopicChunk)}, (I W ∧ ∀ p ∈ out, P p) →
      (I W → I W' ∧ ∀ p ∈ new, P p) → I W' ∧ ∀ p ∈ out ++ new, P p := fun hI hstep ↦
    ⟨(hstep hI.1).1, List.forall_mem_append.mpr ⟨hI.2, (hstep hI.1).2⟩⟩
  exact flushAll_rule (I := fun W out ↦ I W ∧ ∀ p ∈ out, P p)
    (fun W _ τ hI ↦ hadd hI (htake W τ)) order order'
    (fun W _ τ hτ hI ↦ hadd hI (hflush W τ hτ)) [] ⟨hW, fun p hp ↦ absurd hp List.not_mem_nil⟩

/-! ### Runs -/

/-- Every step of a run meets `P` where it starts. -/
def RunMeets (S : Setup) (P : World → Call → Outcome → Prop) : World → List Call → Prop
  | _, [] => True
  | W, c :: calls => ∀ r, W.step S c = some r → P W c r.2 ∧ RunMeets S P r.1 calls

instance decidableRunMeets (S : Setup) (P : World → Call → Outcome → Prop)
    [∀ W c out, Decidable (P W c out)] : ∀ W calls, Decidable (RunMeets S P W calls)
  | _, [] => .isTrue trivial
  | W, c :: calls =>
    match h : W.step S c with
    | none => .isTrue fun r hr ↦ by rw [h] at hr; cases hr
    | some r =>
      have := decidableRunMeets S P r.1 calls
      decidable_of_iff (P W c r.2 ∧ RunMeets S P r.1 calls)
        ⟨fun hr r' hr' ↦ Option.some.inj (h.symm.trans hr') ▸ hr, fun hr ↦ hr r h⟩

/-- Where runs start: no rows anywhere. A scalar series has a stored layout of one column from the
start, and its writer a copy of it. -/
structure Initial (S : Setup) (W : World) : Prop where
  chunks : ∀ e, (W.engines e).All fun s ↦ s.sealedChunks = []
  layout : ∀ e, (W.engines e).All fun s ↦
    ∀ (i : ℕ) (col : ColumnDescriptor), s.columnDescriptors[i]? = some col → col.fieldId = i
  builder : ∀ w τ, (W.writers w τ).builder = none
  pending : ∀ w τ, (W.writers w τ).pending = []
  columns : ∀ w τ, (W.writers w τ).columns = [] ∨
    ∀ s, (W.engines (S.home w)).topics τ = some s → (W.writers w τ).columns = s.columnDescriptors
  inFlight : W.inFlight = []

/-- Engines with new topics, and writers that have done nothing. -/
def start (topics : ℕ → List TopicDescriptor) : World where
  engines e := .create (topics e)
  writers _ _ := {}

theorem start_initial (topics : ℕ → List TopicDescriptor) : (start topics).Initial S where
  chunks e τ s hs := by
    obtain ⟨d, -, rfl⟩ := Engine.create_topics hs
    rfl
  layout e τ s hs i col hcol := by
    obtain ⟨d, -, rfl⟩ := Engine.create_topics hs
    simp at hcol
  builder _ _ := rfl
  pending _ _ := rfl
  columns _ _ := .inl rfl
  inFlight := rfl

/-- The rule for runs: an invariant that every step under the condition keeps. -/
theorem run_induction {P : World → Call → Outcome → Prop} {I : World → Prop}
    (hstep : ∀ W c W' out, I W → W.step S c = some (W', out) → P W c out → I W')
    {calls : List Call} (hmeets : RunMeets S P W calls) (h : W.run S calls = some W') (hW : I W) :
    I W' := by
  induction calls generalizing W with
  | nil =>
    obtain rfl := Option.some.inj h
    exact hW
  | cons c calls ih =>
    obtain ⟨r, hr, hrest⟩ := Option.bind_eq_some_iff.mp h
    obtain ⟨hP, hmeets'⟩ := hmeets r hr
    exact ih hmeets' hrest (hstep W c r.1 r.2 hW hr hP)

/-! ### Room in the builders -/

def Fits (S : Setup) (W : World) : Prop :=
  ∀ w τ d b, (W.engines (S.home w)).descriptor τ = some d → (W.writers w τ).builder = some b →
    b.Fits d.maxChunkRows

theorem Fits.view (hW : W.Fits S) (hv : W.view S w τ = some v) : v.Fits := by
  obtain ⟨hs, hw, -⟩ := view_eq_some hv
  intro b hb
  refine hW w τ v.storage.descriptor b ?_ (by rw [hw, hb])
  rw [Engine.descriptor, hs, Option.map_some]

theorem Initial.fits (hW : W.Initial S) : W.Fits S := by
  intro w τ d b _ hb
  rw [hW.builder] at hb
  cases hb

/-- A step that keeps the descriptors and changes builders only to fitting ones. -/
theorem Fits.congr (hW : W.Fits S) (hd : ∀ e, (W'.engines e).descriptor = (W.engines e).descriptor)
    (hb : ∀ w τ b, (W'.writers w τ).builder = some b → (W.writers w τ).builder = some b ∨
      ∀ d, (W.engines (S.home w)).descriptor τ = some d → b.Fits d.maxChunkRows) :
    W'.Fits S := by
  intro w τ d b hdesc hbuilder
  rw [hd] at hdesc
  rcases hb w τ b hbuilder with h | h
  · exact hW w τ d b hdesc h
  · exact h d hdesc

/-- The writers of a world after writer `w` put a view of topic `τ` back. -/
theorem Fits.putView {v' : TopicView} (hW : W.Fits S) (hv : W.view S w τ = some v)
    (hd : v'.storage.descriptor = v.storage.descriptor) (hv' : v'.Fits) :
    (W.putView S w τ v').Fits S := by
  refine hW.congr (putView_descriptor hv hd) fun w' τ' b hb ↦ ?_
  by_cases hsame : w' = w ∧ τ' = τ
  · obtain ⟨rfl, rfl⟩ := hsame
    rw [putView_writers, setWriter_self] at hb
    refine .inr fun d hdesc ↦ ?_
    rw [Engine.descriptor, (view_eq_some hv).1] at hdesc
    obtain rfl := Option.some.inj hdesc
    show b.Fits v.storage.descriptor.maxChunkRows
    rw [← hd]
    exact hv' b hb
  · rw [putView_writers, setWriter_of_ne hsame] at hb
    exact .inl hb

/-- Same descriptors as in `W₀`, and room in the builders. -/
def Keeps (S : Setup) (W₀ W : World) : Prop :=
  (∀ e, (W.engines e).descriptor = (W₀.engines e).descriptor) ∧ W.Fits S

theorem Keeps.flushTopic {W₀ : World} (hW : Keeps S W₀ W) (w τ : ℕ) :
    Keeps S W₀ (W.flushTopic S w τ).1 := by
  rcases hv : W.view S w τ with _ | v
  · rw [flushTopic_of_none hv]
    exact hW
  · rw [flushTopic_of_some hv]
    have hfits : v.flush.1.Fits := by
      rcases v.flush_cases with ⟨b, -, -, hnone, -⟩ | ⟨-, hsame, -⟩
      · exact TopicView.fits_of_builder_eq_none hnone
      · intro b hb
        rw [TopicView.flush_storage]
        exact hW.2.view hv b (hsame ▸ hb)
    exact ⟨fun e ↦ (putView_descriptor hv (by simp) e).trans (hW.1 e),
      hW.2.putView hv (by simp) hfits⟩

theorem Keeps.takePending {W₀ : World} (hW : Keeps S W₀ W) (w τ : ℕ) :
    Keeps S W₀ (W.takePending w τ).1 := by
  refine ⟨hW.1, hW.2.congr (fun _ ↦ rfl) fun w' τ' b hb ↦ .inl ?_⟩
  rw [World.takePending] at hb
  by_cases hsame : w' = w ∧ τ' = τ
  · obtain ⟨rfl, rfl⟩ := hsame
    simpa using hb
  · rwa [setWriter_of_ne hsame] at hb

theorem Keeps.flushAll {W₀ : World} (hW : Keeps S W₀ W) (w : ℕ) (order order' : List ℕ) :
    Keeps S W₀ (W.flushAll S w order order').1 :=
  (flushAll_induction (P := fun _ ↦ True) (fun _ τ hW ↦ ⟨hW.takePending w τ, fun _ _ ↦ trivial⟩)
    order order' (fun _ τ _ hW ↦ ⟨hW.flushTopic w τ, fun _ _ ↦ trivial⟩) hW).1

theorem Keeps.setEngine {W₀ : World} (hW : Keeps S W₀ W) {e : ℕ} {engine : Engine}
    (hd : engine.descriptor = (W.engines e).descriptor) : Keeps S W₀ (W.setEngine e engine) := by
  have hsame : ∀ e', ((W.setEngine e engine).engines e').descriptor = (W.engines e').descriptor := by
    intro e'
    by_cases he : e' = e
    · subst he
      rw [setEngine_self, hd]
    · rw [setEngine_of_ne he]
  exact ⟨fun e' ↦ (hsame e').trans (hW.1 e'), hW.2.congr hsame fun _ _ _ hb ↦ .inl hb⟩

theorem step_keeps {c : Call} {out : Outcome} (hW : W.Fits S)
    (h : W.step S c = some (W', out)) : Keeps S W W' := by
  have hrefl : Keeps S W W := ⟨fun _ ↦ rfl, hW⟩
  cases c with
  | topic w τ c =>
    rcases topicCall_eq_some h with ⟨-, rfl⟩ | ⟨v, v', hv, hcall, rfl⟩
    · exact hrefl
    · have hfit := hW.view hv
      have hd := (TopicView.call_storage hfit hcall).2.1
      exact ⟨putView_descriptor hv hd, hW.putView hv hd (TopicView.call_fits hfit hcall)⟩
  | flush w τ =>
    obtain ⟨rfl, -⟩ := Prod.mk.inj (Option.some.inj h)
    exact hrefl.flushTopic w τ
  | flushAll w order order' =>
    obtain ⟨rfl, -⟩ := Prod.mk.inj (Option.some.inj h)
    exact hrefl.flushAll w order order'
  | commitChunks e k =>
    obtain ⟨rfl, -⟩ := Prod.mk.inj (Option.some.inj h)
    exact hrefl.setEngine (Engine.descriptor_commitChunks _)
  | evictBefore e τ t =>
    obtain ⟨rfl, -⟩ := Prod.mk.inj (Option.some.inj h)
    exact hrefl.setEngine (Engine.descriptor_mapTopic fun _ _ ↦ rfl)
  | enforceRetention e window =>
    obtain ⟨rfl, -⟩ := Prod.mk.inj (Option.some.inj h)
    exact hrefl.setEngine (Engine.descriptor_enforceRetention window)
  | clearChunks e τ =>
    obtain ⟨rfl, -⟩ := Prod.mk.inj (Option.some.inj h)
    exact hrefl.setEngine (Engine.descriptor_mapTopic fun _ _ ↦ rfl)
  | flushTo e e' =>
    rcases flushTo_eq_some h with rfl | ⟨hne, plan, -, -, rfl⟩
    · exact hrefl
    · obtain ⟨h₁, h₂⟩ := Engine.descriptor_foldl_moveChunks plan (W.engines e, W.engines e')
      refine (hrefl.setEngine h₁).setEngine ?_
      rw [setEngine_of_ne (Ne.symm hne)]
      exact h₂

/-! ### Invariants of the writers -/

section Writers

variable {P : ℕ → ℕ → TopicWriter → Prop}

theorem writers_setWriter {tw : TopicWriter} (hW : ∀ w τ, P w τ (W.writers w τ)) (htw : P w τ tw) :
    ∀ w' τ', P w' τ' ((W.setWriter w τ tw).writers w' τ') := by
  intro w' τ'
  by_cases h : w' = w ∧ τ' = τ
  · obtain ⟨rfl, rfl⟩ := h
    rwa [setWriter_self]
  · rw [setWriter_of_ne h]
    exact hW w' τ'

/-- Only the calls of a writer and the flushes change what it keeps. -/
theorem writers_step {c : Call} {out : Outcome} (hfits : W.Fits S)
    (hW : ∀ w τ, P w τ (W.writers w τ))
    (hcall : ∀ w τ tc, c = .topic w τ tc → ∀ (schema : Option TypeTreeNode)
      (v v' : TopicView), v.Fits → P w τ v.writer → v.call schema tc = some (v', out) →
        P w τ v'.writer)
    (hflush : ∀ w τ, ∀ v : TopicView, P w τ v.writer → P w τ v.flush.1.writer)
    (htake : ∀ w τ, ∀ tw : TopicWriter, P w τ tw → P w τ { tw with pending := [] })
    (h : W.step S c = some (W', out)) : ∀ w τ, P w τ (W'.writers w τ) := by
  have hflushTopic : ∀ (W : World) (w τ : ℕ), (∀ w τ, P w τ (W.writers w τ)) →
      ∀ w' τ', P w' τ' ((W.flushTopic S w τ).1.writers w' τ') := by
    intro W w τ hW
    rcases hv : W.view S w τ with _ | v
    · rw [flushTopic_of_none hv]
      exact hW
    · rw [flushTopic_of_some hv, putView_writers]
      exact writers_setWriter hW (hflush w τ v ((view_eq_some hv).2.1 ▸ hW w τ))
  cases c with
  | topic w τ tc =>
    rcases topicCall_eq_some h with ⟨-, rfl⟩ | ⟨v, v', hv, hcall', rfl⟩
    · exact hW
    · rw [putView_writers]
      exact writers_setWriter hW
        (hcall w τ tc rfl _ v v' (hfits.view hv) ((view_eq_some hv).2.1 ▸ hW w τ) hcall')
  | flush w τ =>
    obtain ⟨rfl, -⟩ := Prod.mk.inj (Option.some.inj h)
    exact hflushTopic W w τ hW
  | flushAll w order order' =>
    obtain ⟨rfl, -⟩ := Prod.mk.inj (Option.some.inj h)
    exact (flushAll_induction (S := S) (w := w) (I := fun W ↦ ∀ w τ, P w τ (W.writers w τ))
      (P := fun _ ↦ True)
      (fun W τ hW ↦ ⟨writers_setWriter hW (htake w τ _ (hW w τ)), fun _ _ ↦ trivial⟩) order order'
      (fun W τ _ hW ↦ ⟨hflushTopic W w τ hW, fun _ _ ↦ trivial⟩) hW).1
  | commitChunks e k =>
    obtain ⟨rfl, -⟩ := Prod.mk.inj (Option.some.inj h)
    exact hW
  | evictBefore e τ t =>
    obtain ⟨rfl, -⟩ := Prod.mk.inj (Option.some.inj h)
    exact hW
  | enforceRetention e window =>
    obtain ⟨rfl, -⟩ := Prod.mk.inj (Option.some.inj h)
    exact hW
  | clearChunks e τ =>
    obtain ⟨rfl, -⟩ := Prod.mk.inj (Option.some.inj h)
    exact hW
  | flushTo e e' =>
    rcases flushTo_eq_some h with rfl | ⟨-, plan, -, -, rfl⟩
    · exact hW
    · exact hW

end Writers

end World

end PlotJuggler
