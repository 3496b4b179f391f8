import PlotJugglerCore.Store.TimeOrder

/-!
# Moving everything to another engine

`DataEngine::flushTo` checks every source topic against the destination as it is before the first
move. A step of the plan appends the chunks of its source topic, and the topics of one dataset and
name all lead to the same place, so the second of them is appended behind the first without a check.
Nothing is lost this way, and an error changes nothing; only the order of the chunks can break. It
holds exactly if the source topics of one name follow each other in time, in the order the map is
walked.
-/

namespace PlotJuggler

namespace TopicStorage

/-- What `flushTo` matches topics by. -/
def key (s : TopicStorage) : ℕ × String := (s.descriptor.datasetId, s.descriptor.name)

/-- No chunk starts before the one in front of it ends. -/
def Chained (s : TopicStorage) : Prop := s.sealedChunks.IsChain TopicChunk.Follows

end TopicStorage

namespace Engine

variable {src dst : Engine} {plan : List (ℕ × ℕ)}

/-- The topics in the order the map is walked. -/
def storages (e : Engine) : List TopicStorage := e.order.filterMap e.topics

/-- The topics of one dataset and name that hold chunks. -/
def withKey (e : Engine) (key : ℕ × String) : List TopicStorage :=
  e.storages.filter fun s ↦ s.isEmpty = false ∧ s.key = key

/-- Topics of one dataset and name follow each other in time. -/
def KeysChained (e : Engine) : Prop :=
  ∀ s ∈ e.storages, (e.withKey s.key).IsChain fun s s' ↦ s.timeMax ≤ s'.timeMin

instance (e : Engine) : Decidable e.KeysChained := inferInstanceAs (Decidable (∀ s ∈ e.storages, _))

theorem mem_storages {e : Engine} {s : TopicStorage} :
    s ∈ e.storages ↔ ∃ τ, e.topics τ = some s := by
  rw [storages, List.mem_filterMap]
  constructor
  · rintro ⟨τ, -, hs⟩
    exact ⟨τ, hs⟩
  · rintro ⟨τ, hs⟩
    exact ⟨τ, (e.mem_order τ).mpr (by rw [hs]; rfl), hs⟩

/-! ## The plan -/

/-- The topic finds one of its name, and does not start before that one ends. -/
def Admits (dst : Engine) (s : TopicStorage) : Prop :=
  ∃ σ d, dst.findMatch s = some σ ∧ dst.topics σ = some d ∧
    (d.isEmpty = false → d.timeMax ≤ s.timeMin)

instance (dst : Engine) (s : TopicStorage) : Decidable (dst.Admits s) :=
  decidable_of_iff (∃ σ ∈ dst.findMatch s, ∃ d ∈ dst.topics σ,
      (d.isEmpty = false → d.timeMax ≤ s.timeMin)) <| by
    simp only [Option.mem_def, Admits]
    constructor
    · rintro ⟨σ, hmatch, d, hd, hlate⟩
      exact ⟨σ, d, hmatch, hd, hlate⟩
    · rintro ⟨σ, d, hmatch, hd, hlate⟩
      exact ⟨σ, hmatch, d, hd, hlate⟩

/-- The step for a source topic. -/
def planned (src dst : Engine) (τ : ℕ) : Option (ℕ × ℕ) :=
  (src.topics τ).bind fun s ↦ if s.isEmpty then none else (dst.findMatch s).map (τ, ·)

theorem findMatch_some {s : TopicStorage} {σ : ℕ} (h : dst.findMatch s = some σ) :
    ∃ d, dst.topics σ = some d ∧ d.key = s.key := by
  obtain ⟨d, hd, hid, hname⟩ := findMatch_eq_some h
  exact ⟨d, hd, Prod.ext hid hname⟩

theorem late_eq_false {s d : TopicStorage} {σ : ℕ} (hd : dst.topics σ = some d) :
    ((dst.topics σ).any fun d ↦ !d.isEmpty && decide (s.timeMin < d.timeMax)) = false ↔
      (d.isEmpty = false → d.timeMax ≤ s.timeMin) := by
  rw [hd]
  cases hempty : d.isEmpty <;> simp [hempty]

theorem flushPlan_of_admits {order : List ℕ}
    (h : ∀ τ ∈ order, ∀ s, src.topics τ = some s → s.isEmpty = false → dst.Admits s) :
    flushPlan src dst order = .ok (order.filterMap (planned src dst)) := by
  induction order with
  | nil => rfl
  | cons τ order ih =>
    have hrest := ih fun τ' hτ' ↦ h τ' (List.mem_cons_of_mem τ hτ')
    rw [flushPlan.eq_def, List.filterMap_cons, planned]
    simp only
    cases hs : src.topics τ with
    | none => exact hrest
    | some s =>
      rw [Option.bind_some]
      by_cases hempty : s.isEmpty
      · rw [if_pos hempty]
        simp only [hempty, if_true]
        exact hrest
      · obtain ⟨σ, d, hmatch, hd, hlate⟩ :=
          h τ List.mem_cons_self s hs (Bool.eq_false_iff.mpr hempty)
        rw [← late_eq_false hd] at hlate
        simp only [hempty, hmatch, hlate, hrest, Bool.false_eq_true, if_false, Option.map_some]
        rfl

theorem admits_of_flushPlan {order : List ℕ} (h : flushPlan src dst order = .ok plan) {τ : ℕ}
    (hτ : τ ∈ order) {s : TopicStorage} (hs : src.topics τ = some s) (hne : s.isEmpty = false) :
    dst.Admits s := by
  induction order generalizing plan with
  | nil => exact absurd hτ List.not_mem_nil
  | cons τ' order ih =>
    rw [flushPlan.eq_def] at h
    simp only at h
    rcases hs' : src.topics τ' with _ | s'
    · rw [hs'] at h
      rcases List.mem_cons.mp hτ with rfl | hτ
      · exact absurd (hs.symm.trans hs') (Option.some_ne_none s)
      · exact ih h hτ
    · simp only [hs'] at h
      split_ifs at h with hempty
      · rcases List.mem_cons.mp hτ with rfl | hτ
        · obtain rfl := Option.some.inj (hs.symm.trans hs')
          exact absurd hempty (Bool.eq_false_iff.mp hne)
        · exact ih h hτ
      · rcases hmatch : dst.findMatch s' with _ | σ
        · simp [hmatch] at h
        · simp only [hmatch] at h
          split_ifs at h with hlate
          rcases List.mem_cons.mp hτ with rfl | hτ
          · obtain rfl := Option.some.inj (hs.symm.trans hs')
            obtain ⟨d, hd, -⟩ := findMatch_some hmatch
            exact ⟨σ, d, hmatch, hd, (late_eq_false hd).mp (Bool.eq_false_iff.mpr hlate)⟩
          · rcases hrest : flushPlan src dst order with e | rest
            · rw [hrest] at h
              cases h
            · exact ih hrest hτ

/-- Either some source topic is refused, or the plan has a step for every topic with chunks. -/
theorem flushPlan_cases (src dst : Engine) :
    ((∃ s ∈ src.storages, s.isEmpty = false ∧ ¬ dst.Admits s) ∧
      ∃ err, flushPlan src dst src.order = .error err) ∨
    ((∀ s ∈ src.storages, s.isEmpty = false → dst.Admits s) ∧
      flushPlan src dst src.order = .ok (src.order.filterMap (planned src dst))) := by
  by_cases h : ∀ s ∈ src.storages, s.isEmpty = false → dst.Admits s
  · exact .inr ⟨h, flushPlan_of_admits fun τ _ s hs ↦ h s (mem_storages.mpr ⟨τ, hs⟩)⟩
  · push Not at h
    refine .inl ⟨h, ?_⟩
    obtain ⟨s, hs, hne, hnot⟩ := h
    obtain ⟨τ, hτ⟩ := mem_storages.mp hs
    rcases hplan : flushPlan src dst src.order with err | plan
    · exact ⟨err, rfl⟩
    · have hmem : τ ∈ src.order := (src.mem_order τ).mpr (by rw [hτ]; rfl)
      exact absurd (admits_of_flushPlan hplan hmem hτ hne) hnot

theorem planned_fst {τ : ℕ} {m : ℕ × ℕ} (h : planned src dst τ = some m) : m.1 = τ := by
  obtain ⟨s, -, hs⟩ := Option.bind_eq_some_iff.mp h
  split_ifs at hs
  obtain ⟨σ, -, rfl⟩ := Option.map_eq_some_iff.mp hs
  rfl

theorem nodup_planned (src dst : Engine) :
    ((src.order.filterMap (planned src dst)).map Prod.fst).Nodup := by
  refine src.nodup.sublist ?_
  generalize src.order = order
  induction order with
  | nil => exact .slnil
  | cons τ order ih =>
    rw [List.filterMap_cons]
    split
    · exact ih.cons τ
    · rename_i m hm
      rw [List.map_cons, planned_fst hm]
      exact ih.cons_cons τ

/-! ## The moves -/

/-- The chunks of a topic. -/
def chunksOf (e : Engine) (τ : ℕ) : List TopicChunk := ((e.topics τ).map (·.sealedChunks)).getD []

theorem foldl_moveChunks_src (plan : List (ℕ × ℕ)) (m : Engine × Engine) (τ : ℕ) :
    (plan.foldl moveChunks m).1.topics τ =
      if τ ∈ plan.map Prod.fst then (m.1.topics τ).map (·.clearChunks) else m.1.topics τ := by
  induction plan generalizing m with
  | nil => rfl
  | cons st plan ih =>
    rw [List.foldl_cons, ih, List.map_cons]
    by_cases hτ : τ = st.1
    · subst hτ
      rw [if_pos List.mem_cons_self, moveChunks, mapTopic_self, Option.map_map]
      split_ifs <;> rfl
    · rw [moveChunks, mapTopic_of_ne hτ]
      simp only [List.mem_cons, hτ, false_or]

theorem foldl_moveChunks_dst (plan : List (ℕ × ℕ)) (m : Engine × Engine) (σ : ℕ)
    (hnodup : (plan.map Prod.fst).Nodup) :
    (plan.foldl moveChunks m).2.topics σ = (m.2.topics σ).map fun d ↦
      { d with sealedChunks :=
          d.sealedChunks ++ (plan.filter (·.2 = σ)).flatMap fun st ↦ m.1.chunksOf st.1 } := by
  induction plan generalizing m with
  | nil =>
    simp only [List.foldl_nil, List.filter_nil, List.flatMap_nil, List.append_nil]
    exact Option.map_id'.symm
  | cons st plan ih =>
    obtain ⟨hfresh, hnodup'⟩ := List.nodup_cons.mp hnodup
    -- the steps that remain find their chunks where they were
    have hchunks : ((plan.filter (·.2 = σ)).flatMap fun st' ↦ (moveChunks m st).1.chunksOf st'.1) =
        (plan.filter (·.2 = σ)).flatMap fun st' ↦ m.1.chunksOf st'.1 := by
      refine List.flatMap_congr fun st' hst' ↦ ?_
      have hne : st'.1 ≠ st.1 := fun heq ↦
        hfresh (heq ▸ List.mem_map_of_mem (List.mem_of_mem_filter hst'))
      rw [chunksOf, chunksOf, moveChunks, mapTopic_of_ne hne]
    rw [List.foldl_cons, ih _ hnodup', hchunks]
    by_cases hσ : σ = st.2
    · subst hσ
      rw [moveChunks, mapTopic_self, Option.map_map, List.filter_cons_of_pos (by simp),
        List.flatMap_cons]
      congr 1
      funext d
      simp [chunksOf]
    · rw [moveChunks, mapTopic_of_ne hσ, List.filter_cons_of_neg (by simpa using Ne.symm hσ)]

/-- The chunks that go to topic `σ` of the destination: those of all source topics that find it, in
the order the map is walked. -/
def chunksFor (src dst : Engine) (σ : ℕ) : List TopicChunk :=
  (src.storages.filter fun s ↦ dst.findMatch s = some σ).flatMap (·.sealedChunks)

theorem flatMap_planned (src dst : Engine) (σ : ℕ) :
    (((src.order.filterMap (planned src dst)).filter (·.2 = σ)).flatMap fun st ↦
      src.chunksOf st.1) = src.chunksFor dst σ := by
  rw [chunksFor, storages]
  induction src.order with
  | nil => rfl
  | cons τ order ih =>
    rw [List.filterMap_cons, List.filterMap_cons, planned]
    cases hs : src.topics τ with
    | none => exact ih
    | some s =>
      rw [Option.bind_some]
      by_cases hempty : s.isEmpty
      · -- an empty topic has no step, and no chunks
        simp only [hempty, if_true]
        rw [ih, List.filter_cons]
        split_ifs
        · rw [List.flatMap_cons, List.isEmpty_iff.mp hempty, List.nil_append]
        · rfl
      · simp only [hempty, Bool.false_eq_true, if_false]
        have hchunks : src.chunksOf τ = s.sealedChunks := by rw [chunksOf, hs]; rfl
        cases hmatch : dst.findMatch s with
        | none => simpa [hmatch] using ih
        | some σ' =>
          by_cases hσ : σ' = σ
          · simp [hmatch, hσ, hchunks, ih]
          · simp [hmatch, hσ, ih]

/-- What a move leaves of the two engines, but for the order of the chunks: every source topic is
empty, every chunk is in the topic its own topic matches, which has the same dataset and name, behind
the chunks that were there, and nothing else is. -/
structure Moved (src dst src' dst' : Engine) : Prop where
  emptied : ∀ τ, src'.topics τ = (src.topics τ).map (·.clearChunks)
  matched : ∀ s ∈ src.storages, s.isEmpty = false →
    ∃ σ d, dst.findMatch s = some σ ∧ dst.topics σ = some d ∧ d.key = s.key
  received : ∀ σ, dst'.topics σ = (dst.topics σ).map fun d ↦
    { d with sealedChunks := d.sealedChunks ++ src.chunksFor dst σ }

theorem moved_foldl (h : ∀ s ∈ src.storages, s.isEmpty = false → dst.Admits s) :
    Moved src dst ((src.order.filterMap (planned src dst)).foldl moveChunks (src, dst)).1
      ((src.order.filterMap (planned src dst)).foldl moveChunks (src, dst)).2 := by
  refine ⟨fun τ ↦ ?_, fun s hs hne ↦ ?_, fun σ ↦ ?_⟩
  · rw [foldl_moveChunks_src]
    split_ifs with hτ
    · rfl
    · -- a topic without a step is empty already
      cases hs : src.topics τ with
      | none => rfl
      | some s =>
        have hempty : s.sealedChunks = [] := by
          by_contra hne
          have hne' : s.isEmpty = false := by simpa [TopicStorage.isEmpty] using hne
          obtain ⟨σ, d, hmatch, -⟩ := h s (mem_storages.mpr ⟨τ, hs⟩) hne'
          refine hτ (List.mem_map.mpr ⟨(τ, σ), List.mem_filterMap.mpr ⟨τ, ?_, ?_⟩, rfl⟩)
          · exact (src.mem_order τ).mpr (by rw [hs]; rfl)
          · simp [planned, hs, hne', hmatch]
        rw [Option.map_some, TopicStorage.clearChunks, ← hempty]
  · obtain ⟨σ, d, hmatch, hd, -⟩ := h s hs hne
    obtain ⟨d', hd', hkey⟩ := findMatch_some hmatch
    exact ⟨σ, d', hmatch, hd', hkey⟩
  · rw [foldl_moveChunks_dst _ _ _ (nodup_planned src dst), flatMap_planned]

/-! ## The order of the chunks -/

theorem findMatch_congr {s s' : TopicStorage} (h : s.key = s'.key) :
    dst.findMatch s = dst.findMatch s' := by
  obtain ⟨hid, hname⟩ := Prod.mk.inj h
  rw [findMatch, findMatch, hid, hname]

/-- The topics that lead to one place are the topics of one dataset and name. -/
theorem filter_findMatch {s : TopicStorage} {σ : ℕ} (hs : dst.findMatch s = some σ) :
    (src.storages.filter fun s' ↦ s'.isEmpty = false ∧ dst.findMatch s' = some σ) =
      src.withKey s.key := by
  refine List.filter_congr fun s' _ ↦ ?_
  have hiff : dst.findMatch s' = some σ ↔ s'.key = s.key := by
    constructor
    · intro hs'
      obtain ⟨d, hd, hkey⟩ := findMatch_some hs
      obtain ⟨d', hd', hkey'⟩ := findMatch_some hs'
      obtain rfl := Option.some.inj (hd.symm.trans hd')
      exact hkey'.symm.trans hkey
    · intro hkey
      rw [findMatch_congr hkey, hs]
  exact decide_eq_decide.mpr (and_congr_right fun _ ↦ hiff)

theorem exists_head_getLast {s : TopicStorage} (h : s.isEmpty = false) :
    (∃ first, s.sealedChunks.head? = some first ∧ first.stats.tMin = s.timeMin) ∧
      ∃ last, s.sealedChunks.getLast? = some last ∧ last.stats.tMax = s.timeMax := by
  have hne : s.sealedChunks ≠ [] := by simpa [TopicStorage.isEmpty] using h
  have hhead := List.head?_eq_some_head hne
  have hlast := List.getLast?_eq_some_getLast hne
  exact ⟨⟨_, hhead, (head_sealedChunks hhead).symm⟩, _, hlast, (getLast_sealedChunks hlast).symm⟩

/-- The chunks of topics that hold chunks are in order if the topics are, and each in itself. -/
theorem isChain_flatMap {topics : List TopicStorage} (hne : ∀ s ∈ topics, s.isEmpty = false)
    (hchained : ∀ s ∈ topics, s.Chained) :
    (topics.flatMap (·.sealedChunks)).IsChain TopicChunk.Follows ↔
      topics.IsChain fun s s' ↦ s.timeMax ≤ s'.timeMin := by
  induction topics with
  | nil => simp
  | cons s rest ih =>
    obtain ⟨hs, hrest⟩ := List.forall_mem_cons.mp hne
    obtain ⟨hschain, hrestchain⟩ := List.forall_mem_cons.mp hchained
    obtain ⟨-, last, hlast, htMax⟩ := exists_head_getLast hs
    have hseam : (∀ x ∈ s.sealedChunks.getLast?, ∀ y ∈ (rest.flatMap (·.sealedChunks)).head?,
        x.Follows y) ↔ ∀ s' ∈ rest.head?, s.timeMax ≤ s'.timeMin := by
      cases rest with
      | nil => simp
      | cons s' rest =>
        obtain ⟨⟨first, hfirst, htMin⟩, -⟩ := exists_head_getLast (hrest s' List.mem_cons_self)
        rw [List.flatMap_cons, List.head?_append, hfirst, hlast, ← htMax, List.head?_cons]
        simp only [Option.some_or, Option.mem_def, Option.some.injEq, forall_eq']
        rw [TopicChunk.Follows, htMin]
    rw [List.flatMap_cons, List.isChain_append, ih hrest hrestchain, List.isChain_cons, hseam]
    exact ⟨fun h ↦ ⟨h.2.2, h.2.1⟩, fun h ↦ ⟨hschain, h.2, h.1⟩⟩

/-- The chunks for a topic, without the topics that contribute none. -/
theorem chunksFor_eq (src dst : Engine) (σ : ℕ) :
    src.chunksFor dst σ = (src.storages.filter fun s ↦
      s.isEmpty = false ∧ dst.findMatch s = some σ).flatMap (·.sealedChunks) := by
  rw [chunksFor]
  induction src.storages with
  | nil => rfl
  | cons s rest ih =>
    by_cases hmatch : dst.findMatch s = some σ
    · by_cases hempty : s.isEmpty
      · have hnil : s.sealedChunks = [] := List.isEmpty_iff.mp hempty
        simp [hmatch, hempty, hnil, ih]
      · simp [hmatch, hempty, ih]
    · simp [hmatch, ih]

/-- A topic of the destination is in order behind a move exactly if the topics that lead to it
are. -/
theorem chained_received (hsrc : src.All TopicStorage.Chained)
    (hadmits : ∀ s ∈ src.storages, s.isEmpty = false → dst.Admits s) {σ : ℕ} {d : TopicStorage}
    (hd : dst.topics σ = some d) (hchained : d.Chained) :
    (d.sealedChunks ++ src.chunksFor dst σ).IsChain TopicChunk.Follows ↔
      (src.storages.filter fun s ↦ s.isEmpty = false ∧ dst.findMatch s = some σ).IsChain
        fun s s' ↦ s.timeMax ≤ s'.timeMin := by
  have hmem : ∀ s ∈ src.storages.filter fun s ↦ s.isEmpty = false ∧ dst.findMatch s = some σ,
      s ∈ src.storages ∧ s.isEmpty = false ∧ dst.findMatch s = some σ := by
    intro s hs
    simpa using hs
  rw [List.isChain_append, chunksFor_eq, isChain_flatMap (fun s hs ↦ (hmem s hs).2.1)]
  · refine ⟨fun h ↦ h.2.1, fun h ↦ ⟨hchained, h, fun a ha b hb ↦ ?_⟩⟩
    -- the first of them was checked against the end of the topic
    generalize (src.storages.filter fun s ↦ s.isEmpty = false ∧ dst.findMatch s = some σ) = topics
      at hmem hb
    cases topics with
    | nil => exact absurd hb nofun
    | cons s rest =>
      obtain ⟨hs, hne, hmatch⟩ := hmem s List.mem_cons_self
      obtain ⟨σ', d', hmatch', hd', hlate⟩ := hadmits s hs hne
      obtain rfl := Option.some.inj (hmatch.symm.trans hmatch')
      obtain rfl := Option.some.inj (hd.symm.trans hd')
      obtain ⟨⟨first, hfirst, htMin⟩, -⟩ := exists_head_getLast hne
      rw [List.flatMap_cons, List.head?_append, hfirst] at hb
      obtain rfl := Option.some.inj hb
      rw [TopicChunk.Follows, htMin, ← getLast_sealedChunks ha]
      refine hlate ?_
      rw [TopicStorage.isEmpty, List.isEmpty_eq_false_iff]
      exact List.ne_nil_of_mem (List.mem_of_getLast? ha)
  · intro s hs
    obtain ⟨τ, hτ⟩ := mem_storages.mp (hmem s hs).1
    exact hsrc τ s hτ

/-- All topics of the destination stay in order exactly if the source topics of one dataset and name
follow each other. -/
theorem Moved.chained_iff {src' dst' : Engine} (h : Moved src dst src' dst')
    (hsrc : src.All TopicStorage.Chained) (hdst : dst.All TopicStorage.Chained)
    (hadmits : ∀ s ∈ src.storages, s.isEmpty = false → dst.Admits s) :
    dst'.All TopicStorage.Chained ↔ src.KeysChained := by
  constructor
  · intro hall s₀ _
    by_cases hnone : src.withKey s₀.key = []
    · rw [hnone]
      exact .nil
    · obtain ⟨s, hs⟩ := List.exists_mem_of_ne_nil _ hnone
      obtain ⟨hs, hne, hkey⟩ : s ∈ src.storages ∧ s.isEmpty = false ∧ s.key = s₀.key := by
        simpa [withKey] using hs
      obtain ⟨σ, d, hmatch, hd, -⟩ := hadmits s hs hne
      rw [← hkey, ← filter_findMatch hmatch, ← chained_received hsrc hadmits hd (hdst σ d hd)]
      exact hall σ _ (by rw [h.received, hd]; rfl)
  · intro hkeys σ d' hd'
    rw [h.received] at hd'
    obtain ⟨d, hd, rfl⟩ := Option.map_eq_some_iff.mp hd'
    show (d.sealedChunks ++ src.chunksFor dst σ).IsChain TopicChunk.Follows
    rw [chained_received hsrc hadmits hd (hdst σ d hd)]
    by_cases hmatch : ∃ s ∈ src.storages, dst.findMatch s = some σ
    · obtain ⟨s, hs, hmatch⟩ := hmatch
      rw [filter_findMatch hmatch]
      exact hkeys s hs
    · rw [List.filter_eq_nil_iff.mpr fun s hs ↦ by simpa using fun _ hm ↦ hmatch ⟨s, hs, hm⟩]
      exact .nil

/-! ## Reachable engines -/

/-- Engines as the public interface leaves them, whatever chunks it is given, as long as every move
between two of them found the topics of one name in order. A new topic may change the order of the
map. -/
inductive Reachable : (ℕ → Engine) → Prop
  | init {E : ℕ → Engine} (h : ∀ e, (E e).All fun s ↦ s.sealedChunks = []) : Reachable E
  | createTopic {E : ℕ → Engine} (hE : Reachable E) (e τ : ℕ) (d : TopicDescriptor)
    (engine : Engine) (hfresh : (E e).topics τ = none)
    (h : engine.topics = Function.update (E e).topics τ
      (some { topicId := τ, descriptor := d })) : Reachable (Function.update E e engine)
  | note {E : ℕ → Engine} (hE : Reachable E) (e τ : ℕ) (f : TopicStorage → TopicStorage)
    (hf : ∀ s, (E e).topics τ = some s → (f s).sealedChunks = s.sealedChunks) :
    Reachable (Function.update E e ((E e).mapTopic τ f))
  | commitChunks {E : ℕ → Engine} (hE : Reachable E) (e : ℕ) (batch : List (ℕ × TopicChunk)) :
    Reachable (Function.update E e ((E e).commitChunks batch))
  | evictBefore {E : ℕ → Engine} (hE : Reachable E) (e τ : ℕ) (t : Timestamp) :
    Reachable (Function.update E e ((E e).mapTopic τ (·.evictBefore t)))
  | enforceRetention {E : ℕ → Engine} (hE : Reachable E) (e : ℕ) (window : Timestamp) :
    Reachable (Function.update E e ((E e).enforceRetention window))
  | clearChunks {E : ℕ → Engine} (hE : Reachable E) (e τ : ℕ) :
    Reachable (Function.update E e ((E e).mapTopic τ (·.clearChunks)))
  | flushTo {E : ℕ → Engine} (hE : Reachable E) {e e' : ℕ} (hne : e ≠ e')
    (hkeys : (E e).KeysChained) {p : Engine × Engine} (h : (E e).flushTo (E e') = .ok p) :
    Reachable (Function.update (Function.update E e p.1) e' p.2)

theorem all_update {P : TopicStorage → Prop} {E : ℕ → Engine} (hE : ∀ e, (E e).All P) {e : ℕ}
    {engine : Engine} (h : engine.All P) : ∀ i, (Function.update E e engine i).All P :=
  (Function.forall_update_iff E fun _ ↦ Engine.All P).mpr ⟨h, fun i _ ↦ hE i⟩

theorem Chained.appendSealedChunk {s : TopicStorage} (hs : s.Chained) (chunk : TopicChunk) :
    ((s.appendSealedChunk chunk).getD s).Chained := by
  rw [TopicStorage.appendSealedChunk]
  split_ifs with haccept
  · refine List.isChain_append.mpr ⟨hs, List.isChain_singleton chunk, fun a ha b hb ↦ ?_⟩
    obtain rfl := Option.some.inj hb
    rw [TopicStorage.accepts, ha] at haccept
    simpa [TopicChunk.Follows] using haccept
  · exact hs

theorem chained_retain {s : TopicStorage} (hs : s.Chained) (window : Timestamp) :
    (s.retain window).Chained := by
  rw [TopicStorage.retain]
  split_ifs
  · exact hs
  · exact hs.suffix (List.dropWhile_suffix _)

theorem flushTo_of_admits (h : ∀ s ∈ src.storages, s.isEmpty = false → dst.Admits s) :
    src.flushTo dst =
      .ok ((src.order.filterMap (planned src dst)).foldl moveChunks (src, dst)) := by
  rw [flushTo, flushPlan_of_admits fun τ _ s hs ↦ h s (mem_storages.mpr ⟨τ, hs⟩)]
  rfl

/-- Both engines behind a successful move. -/
theorem flushTo_ok {p : Engine × Engine} (h : src.flushTo dst = .ok p) :
    (∀ s ∈ src.storages, s.isEmpty = false → dst.Admits s) ∧ Moved src dst p.1 p.2 := by
  obtain ⟨plan, hplan, rfl⟩ := flushTo_eq_ok h
  rcases flushPlan_cases src dst with ⟨-, err, herr⟩ | ⟨hadmits, hok⟩
  · exact absurd (herr.symm.trans hplan) nofun
  · obtain rfl := Except.ok.inj (hok.symm.trans hplan)
    exact ⟨hadmits, moved_foldl hadmits⟩

theorem Moved.chained_src {src' dst' : Engine} (h : Moved src dst src' dst') :
    src'.All TopicStorage.Chained := by
  intro τ s hs
  rw [h.emptied] at hs
  obtain ⟨s', -, rfl⟩ := Option.map_eq_some_iff.mp hs
  exact .nil

theorem Reachable.chained {E : ℕ → Engine} (h : Reachable E) :
    ∀ e, (E e).All TopicStorage.Chained := by
  induction h with
  | init h =>
    intro e τ s hs
    rw [TopicStorage.Chained, h e τ s hs]
    exact .nil
  | createTopic _ e τ d engine _ htopics ih =>
    refine all_update ih fun σ s hs ↦ ?_
    rw [htopics] at hs
    by_cases hσ : σ = τ
    · subst hσ
      rw [Function.update_self] at hs
      obtain rfl := Option.some.inj hs
      exact .nil
    · rw [Function.update_of_ne hσ] at hs
      exact ih e σ s hs
  | note _ e τ f hf ih =>
    refine all_update ih ((ih e).mapTopic fun s hs hchained ↦ ?_)
    rw [TopicStorage.Chained, hf s hs]
    exact hchained
  | commitChunks _ e batch ih =>
    exact all_update ih ((ih e).foldl_mapTopic (t := Prod.fst)
      fun p _ _ hs ↦ Chained.appendSealedChunk hs p.2)
  | evictBefore _ e τ t ih =>
    exact all_update ih ((ih e).mapTopic fun s _ hs ↦ hs.suffix (List.dropWhile_suffix _))
  | enforceRetention _ e window ih =>
    exact all_update ih ((ih e).foldl_mapTopic (t := id) fun _ _ _ hs ↦ chained_retain hs window)
  | clearChunks _ e τ ih => exact all_update ih ((ih e).mapTopic fun _ _ _ ↦ .nil)
  | @flushTo E _ e e' _ hkeys p hflush ih =>
    obtain ⟨hadmits, hmoved⟩ := flushTo_ok hflush
    exact all_update (all_update ih hmoved.chained_src)
      ((hmoved.chained_iff (ih e) (ih e') hadmits).mpr hkeys)

end Engine

/-! ## The call -/

namespace World

open Engine

variable {S : Setup} {W W' : World}

/-- What `flushTo` promises: an error changes nothing; otherwise everything is moved, and the topics
of the destination are in order. -/
def FlushContract (S : Setup) (W : World) (e e' : ℕ) : Prop :=
  ∃ W' out, W.step S (.flushTo e e') = some (W', out) ∧
    (out.isOk = false → W'.engines = W.engines) ∧
    (out.isOk = true → Moved (W.engines e) (W.engines e') (W'.engines e) (W'.engines e') ∧
      (∀ i, i ≠ e → i ≠ e' → W'.engines i = W.engines i) ∧
      (W'.engines e').All TopicStorage.Chained)

theorem step_flushTo_of_ok {e e' : ℕ} {p : Engine × Engine} (hne : e ≠ e')
    (h : (W.engines e).flushTo (W.engines e') = .ok p) :
    ∃ W', W.step S (.flushTo e e') = some (W', .ok) ∧ W'.engines e = p.1 ∧ W'.engines e' = p.2 ∧
      ∀ i, i ≠ e → i ≠ e' → W'.engines i = W.engines i := by
  refine ⟨(W.setEngine e p.1).setEngine e' p.2, ?_, ?_, setEngine_self, fun i hi hi' ↦ ?_⟩
  · rw [step, if_neg hne, h]
  · rw [setEngine_of_ne hne, setEngine_self]
  · rw [setEngine_of_ne hi', setEngine_of_ne hi]

/-- The condition under which a move does what it promises. -/
def InTurn (W : World) (e e' : ℕ) : Prop :=
  e = e' ∨ (∃ s ∈ (W.engines e).storages, s.isEmpty = false ∧ ¬ (W.engines e').Admits s) ∨
    (W.engines e).KeysChained

instance (W : World) (e e' : ℕ) : Decidable (W.InTurn e e') :=
  inferInstanceAs (Decidable (_ ∨ _ ∨ _))

theorem flushContract_of_refused {e e' : ℕ} (hne : e ≠ e')
    (h : ∃ s ∈ (W.engines e).storages, s.isEmpty = false ∧ ¬ (W.engines e').Admits s) :
    FlushContract S W e e' := by
  rcases flushPlan_cases (W.engines e) (W.engines e') with ⟨-, err, herr⟩ | ⟨hadmits, -⟩
  · refine ⟨W, .flushFailed err, ?_, fun _ ↦ rfl, nofun⟩
    rw [step, if_neg hne, Engine.flushTo, herr]
    rfl
  · obtain ⟨s, hs, hempty, hnot⟩ := h
    exact absurd (hadmits s hs hempty) hnot

/-- Where nothing is refused, the order of the source topics decides. -/
theorem flushContract_iff_of_admits (hW : Reachable W.engines) {e e' : ℕ} (hne : e ≠ e')
    (hadmits : ∀ s ∈ (W.engines e).storages, s.isEmpty = false → (W.engines e').Admits s) :
    FlushContract S W e e' ↔ (W.engines e).KeysChained := by
  have hmoved := moved_foldl hadmits
  obtain ⟨W', hstep, he, he', hothers⟩ :=
    step_flushTo_of_ok (S := S) hne (flushTo_of_admits hadmits)
  rw [← he, ← he'] at hmoved
  have hchained := hmoved.chained_iff (hW.chained e) (hW.chained e') hadmits
  constructor
  · rintro ⟨W'', out, hstep', -, hcontract⟩
    obtain ⟨rfl, rfl⟩ := Prod.mk.inj (Option.some.inj (hstep.symm.trans hstep'))
    exact hchained.mp (hcontract rfl).2.2
  · intro hkeys
    exact ⟨W', .ok, hstep, nofun, fun _ ↦ ⟨hmoved, hothers, hchained.mpr hkeys⟩⟩

/-- A move between reachable engines does what it promises exactly if it finds the topics of one name
in turn, or has nothing to do. -/
theorem flushContract_iff (hW : Reachable W.engines) (e e' : ℕ) :
    FlushContract S W e e' ↔ W.InTurn e e' := by
  by_cases hne : e = e'
  · refine iff_of_true ⟨W, .flushFailed .sameEngine, ?_, fun _ ↦ rfl, nofun⟩ (.inl hne)
    rw [step, if_pos hne]
  · by_cases hrefused : ∃ s ∈ (W.engines e).storages, s.isEmpty = false ∧ ¬ (W.engines e').Admits s
    · exact iff_of_true (flushContract_of_refused hne hrefused) (.inr (.inl hrefused))
    · have hadmits : ∀ s ∈ (W.engines e).storages, s.isEmpty = false → (W.engines e').Admits s := by
        push Not at hrefused
        exact hrefused
      rw [flushContract_iff_of_admits hW hne hadmits, InTurn]
      simp [hne, hrefused]

/-! ### Runs of the world reach such engines -/

/-- The condition on a step of a run. -/
def MovesInTurn (W : World) (c : Call) (out : Outcome) : Prop :=
  out.isOk → match c with
    | .flushTo e _ => (W.engines e).KeysChained
    | _ => True

instance (W : World) (c : Call) (out : Outcome) : Decidable (W.MovesInTurn c out) :=
  match c with
  | .flushTo e _ => inferInstanceAs (Decidable (out.isOk → (W.engines e).KeysChained))
  | .topic _ _ _ | .flush _ _ | .flushAll _ _ _ | .commitChunks _ _ | .evictBefore _ _ _
  | .enforceRetention _ _ | .clearChunks _ _ => .isTrue fun _ ↦ trivial

theorem reachable_putView {w τ : ℕ} {v v' : TopicView} (hW : Reachable W.engines)
    (hv : W.view S w τ = some v) (hchunks : v'.storage.sealedChunks = v.storage.sealedChunks) :
    Reachable (W.putView S w τ v').engines := by
  refine hW.note (S.home w) τ (fun _ ↦ v'.storage) fun s hs ↦ ?_
  obtain rfl := Option.some.inj (hs.symm.trans (view_eq_some hv).1)
  exact hchunks

theorem reachable_flushTopic (hW : Reachable W.engines) (w τ : ℕ) :
    Reachable (W.flushTopic S w τ).1.engines := by
  rcases hv : W.view S w τ with _ | v
  · rw [flushTopic_of_none hv]
    exact hW
  · rw [flushTopic_of_some hv]
    exact reachable_putView hW hv (by rw [TopicView.flush_storage])

theorem step_reachable {c : Call} {out : Outcome} (hfits : W.Fits S) (hW : Reachable W.engines)
    (h : W.step S c = some (W', out)) (hc : W.MovesInTurn c out) : Reachable W'.engines := by
  cases c with
  | topic w τ c =>
    rcases topicCall_eq_some h with ⟨-, rfl⟩ | ⟨v, v', hv, hcall, rfl⟩
    · exact hW
    · exact reachable_putView hW hv (TopicView.call_storage (hfits.view hv) hcall).2.2
  | flush w τ =>
    obtain ⟨rfl, -⟩ := Prod.mk.inj (Option.some.inj h)
    exact reachable_flushTopic hW w τ
  | flushAll w order order' =>
    obtain ⟨rfl, -⟩ := Prod.mk.inj (Option.some.inj h)
    exact (flushAll_induction (S := S) (w := w) (P := fun _ ↦ True)
      (I := fun W ↦ Reachable W.engines) (fun _ _ hW ↦ ⟨hW, fun _ _ ↦ trivial⟩) order order'
      (fun _ τ _ hW ↦ ⟨reachable_flushTopic hW w τ, fun _ _ ↦ trivial⟩) hW).1
  | commitChunks e k =>
    obtain ⟨rfl, -⟩ := Prod.mk.inj (Option.some.inj h)
    exact hW.commitChunks e _
  | evictBefore e τ t =>
    obtain ⟨rfl, -⟩ := Prod.mk.inj (Option.some.inj h)
    exact hW.evictBefore e τ t
  | enforceRetention e window =>
    obtain ⟨rfl, -⟩ := Prod.mk.inj (Option.some.inj h)
    exact hW.enforceRetention e window
  | clearChunks e τ =>
    obtain ⟨rfl, -⟩ := Prod.mk.inj (Option.some.inj h)
    exact hW.clearChunks e τ
  | flushTo e e' =>
    rcases flushTo_eq_some h with rfl | ⟨hne, plan, hplan, rfl, rfl⟩
    · exact hW
    · exact hW.flushTo hne (hc rfl) (show (W.engines e).flushTo (W.engines e') = .ok _ by
        rw [Engine.flushTo, hplan]; rfl)

theorem run_reachable {calls : List Call} (hinit : W.Initial S)
    (hmeets : RunMeets S MovesInTurn W calls) (h : W.run S calls = some W') :
    Reachable W'.engines := by
  have hinv : W'.Fits S ∧ Reachable W'.engines := by
    refine run_induction (I := fun W ↦ W.Fits S ∧ Reachable W.engines) ?_ hmeets h
      ⟨hinit.fits, .init hinit.chunks⟩
    intro W c W' out hW hstep hc
    exact ⟨(step_keeps hW.1 hstep).2, step_reachable hW.1 hW.2 hstep hc⟩
  exact hinv.2

/-- What can be said of the world a run ends in. -/
theorem exists_run (S : Setup) (W : World) (calls : List Call) (P : World → Prop) [DecidablePred P]
    (h : (W.run S calls).any (fun W' ↦ decide (P W')) = true) :
    ∃ W', W.run S calls = some W' ∧ P W' := by
  rcases hrun : W.run S calls with _ | W'
  · rw [hrun] at h
    cases h
  · rw [hrun] at h
    exact ⟨W', rfl, of_decide_eq_true h⟩

/-- A chunk with one row for each of two topics, the later one in the first. -/
def twoChunks : List Call :=
  [.topic 0 1 (.ensureColumn "x" .int32), .topic 0 2 (.ensureColumn "x" .int32),
    .topic 0 1 (.appendColumns [5] [{ colIndex := 0, data := .int32 [7] }]),
    .topic 0 2 (.appendColumns [1] [{ colIndex := 0, data := .int32 [8] }]),
    .flush 0 1, .commitChunks 0 0, .flush 0 2, .commitChunks 0 0]

/-- Topics of different names are moved as promised. -/
theorem flushContract_iff_differentNames : ∃ W',
    (start fun _ ↦ [{ name := "imu" }, { name := "gps" }]).run schemaless twoChunks = some W' ∧
      FlushContract schemaless W' 0 1 := by
  obtain ⟨W', hrun, hturn⟩ := exists_run schemaless (start fun _ ↦ [{ name := "imu" },
    { name := "gps" }]) twoChunks (fun W' ↦ W'.InTurn 0 1) (by decide +kernel)
  have hreach := run_reachable (start_initial _) (by decide +kernel) hrun
  exact ⟨W', hrun, (flushContract_iff hreach 0 1).mpr hturn⟩

/-- Two topics of one name break the order: the second is only checked against the destination as it
was. -/
theorem not_flushContract_sameName : ∃ W',
    (start fun _ ↦ [{ name := "imu" }, { name := "imu" }]).run schemaless twoChunks = some W' ∧
      ¬ FlushContract schemaless W' 0 1 := by
  obtain ⟨W', hrun, hadmits, hkeys⟩ := exists_run schemaless (start fun _ ↦ [{ name := "imu" },
    { name := "imu" }]) twoChunks (fun W' ↦ (∀ s ∈ (W'.engines 0).storages, s.isEmpty = false →
      (W'.engines 1).Admits s) ∧ ¬ (W'.engines 0).KeysChained) (by decide +kernel)
  have hreach := run_reachable (start_initial _) (by decide +kernel) hrun
  exact ⟨W', hrun, fun h ↦ hkeys ((flushContract_iff_of_admits hreach (by decide) hadmits).mp h)⟩

end World

end PlotJuggler
