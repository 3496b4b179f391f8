import PlotJugglerCore.Lib.SortUnique
import PlotJugglerCore.Store.Runs

/-!
# What a commit reports

`commitChunks` returns the topics that have changed, for `onSourceCommitted`. The loop notes the
topic of every chunk that is accepted, unless it has just noted it, and the list is sorted and freed
of repetitions at the end. A chunk for a topic that is not there and a chunk that comes out of order
are passed over without a word.
-/

namespace PlotJuggler

open SortUnique (sortUnique note)

namespace Engine

variable {P Q : TopicChunk → Prop} {e e' e'' : Engine} {τ : ℕ} {batch : List (ℕ × TopicChunk)}

/-! ## Growth -/

/-- No topic has lost anything, and the chunks that have come have a property. -/
def Grows (P : TopicChunk → Prop) (e e' : Engine) : Prop :=
  ∀ τ s, e.topics τ = some s → ∃ s' new, e'.topics τ = some s' ∧
    s'.sealedChunks = s.sealedChunks ++ new ∧ ∀ chunk ∈ new, P chunk

theorem grows_of_topics (h : e'.topics = e.topics) : e.Grows P e' := by
  intro τ s hs
  refine ⟨s, [], h ▸ hs, (List.append_nil _).symm, fun chunk hchunk ↦ ?_⟩
  exact absurd hchunk List.not_mem_nil

theorem Grows.refl (P : TopicChunk → Prop) (e : Engine) : e.Grows P e := grows_of_topics rfl

theorem Grows.trans (h : e.Grows P e') (h' : e'.Grows P e'') : e.Grows P e'' := by
  intro τ s hs
  obtain ⟨s', new, hs', hchunks, hnew⟩ := h τ s hs
  obtain ⟨s'', new', hs'', hchunks', hnew'⟩ := h' τ s' hs'
  refine ⟨s'', new ++ new', hs'', ?_, List.forall_mem_append.mpr ⟨hnew, hnew'⟩⟩
  rw [hchunks', hchunks, List.append_assoc]

theorem Grows.mono (h : e.Grows P e') (hPQ : ∀ chunk, P chunk → Q chunk) : e.Grows Q e' := by
  intro τ s hs
  obtain ⟨s', new, hs', hchunks, hnew⟩ := h τ s hs
  exact ⟨s', new, hs', hchunks, fun chunk hchunk ↦ hPQ chunk (hnew chunk hchunk)⟩

theorem Grows.mapTopic (h : e.Grows P e') {f : TopicStorage → TopicStorage}
    (hf : ∀ s, e'.topics τ = some s → ∃ new,
      (f s).sealedChunks = s.sealedChunks ++ new ∧ ∀ chunk ∈ new, P chunk) :
    e.Grows P (e'.mapTopic τ f) := by
  refine h.trans fun σ s hs ↦ ?_
  by_cases hσ : σ = τ
  · subst hσ
    obtain ⟨new, hchunks, hnew⟩ := hf s hs
    exact ⟨f s, new, by rw [mapTopic_self, hs, Option.map_some], hchunks, hnew⟩
  · obtain ⟨s', new, hs', hrest⟩ := Grows.refl P e' σ s hs
    exact ⟨s', new, by rw [mapTopic_of_ne hσ, hs'], hrest⟩

/-- A change that leaves the chunks alone. -/
theorem Grows.mapTopic_of_sealedChunks (h : e.Grows P e') {f : TopicStorage → TopicStorage}
    (hf : ∀ s, e'.topics τ = some s → (f s).sealedChunks = s.sealedChunks) :
    e.Grows P (e'.mapTopic τ f) := by
  refine h.mapTopic fun s hs ↦ ⟨[], ?_, fun chunk hchunk ↦ absurd hchunk List.not_mem_nil⟩
  rw [hf s hs, List.append_nil]

/-- A chunk is put behind the others, or refused. -/
theorem Grows.commitChunks (h : e.Grows P e') {batch : List (ℕ × TopicChunk)}
    (hbatch : ∀ p ∈ batch, P p.2) : e.Grows P (e'.commitChunks batch) := by
  induction batch generalizing e' with
  | nil => exact h
  | cons p batch ih =>
    obtain ⟨hp, hrest⟩ := List.forall_mem_cons.mp hbatch
    refine ih (h.mapTopic fun s hs ↦ ?_) hrest
    rw [TopicStorage.appendSealedChunk]
    split_ifs
    · exact ⟨[p.2], rfl, List.forall_mem_singleton.mpr hp⟩
    · refine ⟨[], (List.append_nil _).symm, fun chunk hchunk ↦ absurd hchunk List.not_mem_nil⟩

/-! ## The report -/

/-- The body of the loop of `commitChunks`: the engine, and `changed`. -/
def commitAndNote (r : Engine × List ℕ) (p : ℕ × TopicChunk) : Engine × List ℕ :=
  (r.1.commitChunk p.1 p.2,
    if (r.1.topics p.1).any (·.accepts p.2) then note r.2 p.1 else r.2)

/-- What `commitChunks` returns. -/
def changedTopics (e : Engine) (batch : List (ℕ × TopicChunk)) : List ℕ :=
  sortUnique (batch.foldl commitAndNote (e, [])).2

/-- One chunk more, or none. -/
theorem topics_commitChunk (e : Engine) (p : ℕ × TopicChunk) (τ : ℕ) :
    (e.commitChunk p.1 p.2).topics τ =
      if p.1 = τ ∧ (e.topics p.1).any (·.accepts p.2) then
        (e.topics τ).map fun s ↦ { s with sealedChunks := s.sealedChunks ++ [p.2] }
      else e.topics τ := by
  by_cases hτ : p.1 = τ
  · subst hτ
    rw [commitChunk, mapTopic_self]
    rcases e.topics p.1 with _ | s
    · simp
    · by_cases haccepts : s.accepts p.2
      · simp [TopicStorage.appendSealedChunk, haccepts]
      · simp [TopicStorage.appendSealedChunk, haccepts]
  · rw [if_neg fun h ↦ hτ h.1, commitChunk, mapTopic_of_ne (Ne.symm hτ)]

/-- The topic has got a chunk. -/
def Gains (τ : ℕ) (e e' : Engine) : Prop :=
  ∃ s s', e.topics τ = some s ∧ e'.topics τ = some s' ∧
    s.sealedChunks.length < s'.sealedChunks.length

/-- A chunk that is accepted stays, whatever comes behind it. -/
theorem gains_of_accepts {p : ℕ × TopicChunk} (h : (e.topics p.1).any (·.accepts p.2)) :
    Gains p.1 e ((e.commitChunk p.1 p.2).commitChunks batch) := by
  have htopics := topics_commitChunk e p p.1
  rw [if_pos ⟨rfl, h⟩] at htopics
  rcases hs : e.topics p.1 with _ | s
  · rw [hs] at h
    cases h
  · rw [hs, Option.map_some] at htopics
    have hgrows : (e.commitChunk p.1 p.2).Grows (fun _ ↦ True)
        ((e.commitChunk p.1 p.2).commitChunks batch) :=
      (Grows.refl _ _).commitChunks fun _ _ ↦ trivial
    obtain ⟨s', new, hs', hchunks, -⟩ := hgrows _ _ htopics
    refine ⟨s, s', hs, hs', ?_⟩
    rw [hchunks]
    simp

/-- What comes to a topic was meant for it. -/
theorem exists_commitChunks (batch : List (ℕ × TopicChunk)) {s : TopicStorage} (hs : e.topics τ = some s) :
    ∃ s' new, (e.commitChunks batch).topics τ = some s' ∧
      s'.sealedChunks = s.sealedChunks ++ new ∧ ∀ chunk ∈ new, (τ, chunk) ∈ batch := by
  induction batch generalizing e s with
  | nil => exact ⟨s, [], hs, (List.append_nil _).symm, fun chunk hchunk ↦ absurd hchunk List.not_mem_nil⟩
  | cons p batch ih =>
    have htopics := topics_commitChunk e p τ
    split_ifs at htopics with haccepts
    · rw [hs, Option.map_some] at htopics
      obtain ⟨s', new, hs', hchunks, hnew⟩ := ih htopics
      refine ⟨s', p.2 :: new, hs', hchunks.trans (List.append_assoc ..),
        List.forall_mem_cons.mpr ⟨?_, fun chunk hchunk ↦ List.mem_cons_of_mem p (hnew chunk hchunk)⟩⟩
      rw [← haccepts.1]
      exact List.mem_cons_self
    · obtain ⟨s', new, hs', hchunks, hnew⟩ := ih (htopics.trans hs)
      exact ⟨s', new, hs', hchunks, fun chunk hchunk ↦ List.mem_cons_of_mem p (hnew chunk hchunk)⟩

/-- A topic gets a chunk, or nothing happens to it. -/
theorem gains_or_eq (e : Engine) (batch : List (ℕ × TopicChunk)) (τ : ℕ) :
    Gains τ e (e.commitChunks batch) ∨ (e.commitChunks batch).topics τ = e.topics τ := by
  induction batch generalizing e with
  | nil => exact .inr rfl
  | cons p batch ih =>
    by_cases haccepts : p.1 = τ ∧ (e.topics p.1).any (·.accepts p.2)
    · obtain ⟨rfl, hany⟩ := haccepts
      exact .inl (gains_of_accepts hany)
    · have htopics := topics_commitChunk e p τ
      rw [if_neg haccepts] at htopics
      have hrest := ih (e.commitChunk p.1 p.2)
      rwa [Gains, htopics] at hrest

theorem mem_foldl_commitAndNote (batch : List (ℕ × TopicChunk)) (r : Engine × List ℕ) (τ : ℕ) :
    τ ∈ (batch.foldl commitAndNote r).2 ↔ τ ∈ r.2 ∨ Gains τ r.1 (r.1.commitChunks batch) := by
  induction batch generalizing r with
  | nil =>
    refine (or_iff_left ?_).symm
    rintro ⟨s, s', hs, hs', hlt⟩
    obtain rfl := Option.some.inj (hs.symm.trans hs')
    exact Nat.lt_irrefl _ hlt
  | cons p batch ih =>
    have hnoted : τ ∈ (commitAndNote r p).2 ↔
        τ ∈ r.2 ∨ p.1 = τ ∧ (r.1.topics p.1).any (·.accepts p.2) := by
      rw [commitAndNote]
      split_ifs with haccepts
      · simp [haccepts, eq_comm]
      · simp [haccepts]
    rw [List.foldl_cons, ih, hnoted, or_assoc]
    refine or_congr_right ?_
    show _ ∨ Gains τ (r.1.commitChunk p.1 p.2) ((r.1.commitChunk p.1 p.2).commitChunks batch) ↔
      Gains τ r.1 ((r.1.commitChunk p.1 p.2).commitChunks batch)
    by_cases haccepts : p.1 = τ ∧ (r.1.topics p.1).any (·.accepts p.2)
    · obtain ⟨rfl, hany⟩ := haccepts
      exact iff_of_true (.inl ⟨rfl, hany⟩) (gains_of_accepts hany)
    · have htopics := topics_commitChunk r.1 p τ
      rw [if_neg haccepts] at htopics
      rw [or_iff_right haccepts, Gains, htopics, Gains]

theorem mem_changedTopics {batch : List (ℕ × TopicChunk)} :
    τ ∈ e.changedTopics batch ↔ Gains τ e (e.commitChunks batch) := by
  rw [changedTopics, SortUnique.mem_sortUnique, mem_foldl_commitAndNote]
  exact or_iff_right List.not_mem_nil

/-- The report of a commit names the topics that have got a chunk, ascending and each once, and all
other topics are what they were. -/
theorem changedTopics_spec (e : Engine) (batch : List (ℕ × TopicChunk)) :
    (e.changedTopics batch).Pairwise (· < ·) ∧ ∀ τ,
      (τ ∈ e.changedTopics batch ↔ Gains τ e (e.commitChunks batch)) ∧
        (τ ∉ e.changedTopics batch → (e.commitChunks batch).topics τ = e.topics τ) := by
  refine ⟨SortUnique.pairwise_lt_sortUnique _, fun τ ↦ ⟨mem_changedTopics, fun hτ ↦ ?_⟩⟩
  exact (gains_or_eq e batch τ).resolve_left fun hgains ↦ hτ (mem_changedTopics.mpr hgains)

end Engine

end PlotJuggler
