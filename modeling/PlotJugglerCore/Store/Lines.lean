import PlotJugglerCore.Store.Alignment

/-!
# The only writer of a topic

For the only writer of a topic, whose batches are committed in the order of the flushes, all chunks
stand in one line: those of the topic, those in flight, those pending, and then the builder. What is
said about this line is a `LineInvariant`, and `LineRule` says what it has to keep up with: the calls
of the writer, the chunks that it hands out, and a commit, which may refuse the first chunk in
flight. What happens elsewhere in the world does not change the line, so such an invariant holds
after whole runs (`Books.run_onlyLine`).
-/

namespace PlotJuggler

/-! ## Statements -/

/-- The last chunk ends at `t` or before. -/
def EndsBy (chunks : List TopicChunk) (t : Timestamp) : Prop :=
  ∀ last ∈ chunks.getLast?, last.stats.tMax ≤ t

instance (chunks : List TopicChunk) (t : Timestamp) : Decidable (EndsBy chunks t) :=
  inferInstanceAs (Decidable (∀ last ∈ chunks.getLast?, _))

/-- The chunks of one topic among those in flight. -/
def chunksOf (τ : ℕ) (flight : List (ℕ × TopicChunk)) : List TopicChunk :=
  (flight.filter fun p ↦ p.1 = τ).map Prod.snd

/-- Writer `w` is the only one that writes topic `τ`, nothing else happens to the topic, and batches
are committed in the order of their flushes. -/
def OnlyWriter (S : Setup) (w τ : ℕ) : Call → Prop
  | .topic w' τ' _ => S.home w' = S.home w ∧ (τ' = τ → w' = w)
  | .flush w' _ => S.home w' = S.home w
  | .flushAll w' _ _ => S.home w' = S.home w
  | .commitChunks e k => e = S.home w ∧ k = 0
  | _ => False

instance (S : Setup) (w τ : ℕ) (c : Call) : Decidable (OnlyWriter S w τ c) :=
  match c with
  | .topic w' τ' _ => inferInstanceAs (Decidable (S.home w' = S.home w ∧ (τ' = τ → w' = w)))
  | .flush w' _ | .flushAll w' _ _ => inferInstanceAs (Decidable (S.home w' = S.home w))
  | .commitChunks e k => inferInstanceAs (Decidable (e = S.home w ∧ k = 0))
  | .evictBefore _ _ _ | .enforceRetention _ _ | .clearChunks _ _ | .flushTo _ _ =>
    inferInstanceAs (Decidable False)

/-- The calls of writer `w` on topic `τ` fill the columns of their rows, and no flush seals cells of
an open row. -/
def Books.Fills (S : Setup) (w τ : ℕ) (B : Books) (c : Call) (out : Outcome) : Prop :=
  match c with
  | .topic w' τ' c => w' = w ∧ τ' = τ → ∀ v ∈ B.world.view S w τ,
    v.Aligns (World.schemaOf S w v) (B.ledger w τ) c out
  | .flush w' τ' => w' = w ∧ τ' = τ → (B.world.writers w τ).MayFlush (B.ledger w τ)
  | .flushAll w' _ order => w' = w ∧ τ ∈ order → (B.world.writers w τ).MayFlush (B.ledger w τ)
  | _ => True

instance (S : Setup) (w τ : ℕ) (B : Books) (c : Call) (out : Outcome) :
    Decidable (B.Fills S w τ c out) :=
  match c with
  | .topic w' τ' c => inferInstanceAs (Decidable (w' = w ∧ τ' = τ → ∀ v ∈ B.world.view S w τ,
    v.Aligns (World.schemaOf S w v) (B.ledger w τ) c out))
  | .flush w' τ' => inferInstanceAs
    (Decidable (w' = w ∧ τ' = τ → (B.world.writers w τ).MayFlush (B.ledger w τ)))
  | .flushAll w' _ order => inferInstanceAs
    (Decidable (w' = w ∧ τ ∈ order → (B.world.writers w τ).MayFlush (B.ledger w τ)))
  | .commitChunks _ _ | .evictBefore _ _ _ | .enforceRetention _ _ | .clearChunks _ _
  | .flushTo _ _ => .isTrue trivial

/-- A condition on a call that sees the chunks in front of the writer. -/
abbrev CallCondition := Option TypeTreeNode → TopicView → Ledger → List TopicChunk → TopicCall →
  Outcome → Prop

/-- The calls of writer `w` on topic `τ` meet `C`. -/
def Books.Calls (C : CallCondition) (S : Setup) (w τ : ℕ) (B : Books) (c : Call) (out : Outcome) :
    Prop :=
  match c with
  | .topic w' τ' c => w' = w ∧ τ' = τ → ∀ v ∈ B.world.view S w τ,
    C (World.schemaOf S w v) v (B.ledger w τ)
      (v.storage.sealedChunks ++ chunksOf τ B.world.inFlight.flatten) c out
  | _ => True

instance (C : CallCondition) [∀ schema v l front c out, Decidable (C schema v l front c out)]
    (S : Setup) (w τ : ℕ) (B : Books) (c : Call) (out : Outcome) :
    Decidable (B.Calls C S w τ c out) :=
  match c with
  | .topic w' τ' c => inferInstanceAs (Decidable (w' = w ∧ τ' = τ → ∀ v ∈ B.world.view S w τ,
    C (World.schemaOf S w v) v (B.ledger w τ)
      (v.storage.sealedChunks ++ chunksOf τ B.world.inFlight.flatten) c out))
  | .flush _ _ | .flushAll _ _ _ | .commitChunks _ _ | .evictBefore _ _ _ | .enforceRetention _ _
  | .clearChunks _ _ | .flushTo _ _ => .isTrue trivial

/-! ## The rule -/

/-- What is said about the chunks of the topic, those in flight, the writer and its ledger. -/
abbrev LineInvariant := List TopicChunk → List TopicChunk → TopicWriter → Ledger → Prop

/-- The invariant is kept by calls that fill their rows and meet `C`, by handing out and by commits. -/
structure LineRule (C : CallCondition) (P : LineInvariant) : Prop where
  call : ∀ {schema : Option TypeTreeNode} {v v' : TopicView} {sealed flying : List TopicChunk}
    {l : Ledger} {c : TopicCall} {out : Outcome}, v.Fits → v.Aligns schema l c out →
    C schema v l (sealed ++ flying) c out → v.call schema c = some (v', out) →
    P sealed flying v.writer l → P sealed flying v'.writer (l.after c out)
  takePending : ∀ {sealed flying : List TopicChunk} {tw : TopicWriter} {l : Ledger},
    P sealed flying tw l → P sealed (flying ++ tw.pending) { tw with pending := [] } l
  flush : ∀ {v : TopicView} {sealed flying : List TopicChunk} {l : Ledger}, v.writer.MayFlush l →
    P sealed flying v.writer l → P sealed (flying ++ v.flush.2) v.flush.1.writer l
  commitChunk : ∀ {s : TopicStorage} {chunk : TopicChunk} {flying : List TopicChunk}
    {tw : TopicWriter} {l : Ledger}, P s.sealedChunks (chunk :: flying) tw l →
    P ((s.appendSealedChunk chunk).getD s).sealedChunks flying tw l

theorem LineRule.and {C : CallCondition} {P Q : LineInvariant} (hP : LineRule C P)
    (hQ : LineRule C Q) :
    LineRule C fun sealed flying tw l ↦ P sealed flying tw l ∧ Q sealed flying tw l where
  call hv haligns hc hcall h :=
    ⟨hP.call hv haligns hc hcall h.1, hQ.call hv haligns hc hcall h.2⟩
  takePending h := ⟨hP.takePending h.1, hQ.takePending h.2⟩
  flush hmay h := ⟨hP.flush hmay h.1, hQ.flush hmay h.2⟩
  commitChunk h := ⟨hP.commitChunk h.1, hQ.commitChunk h.2⟩

theorem endsBy_concat {chunks : List TopicChunk} {chunk : TopicChunk} {t : Timestamp} :
    EndsBy (chunks ++ [chunk]) t ↔ chunk.stats.tMax ≤ t := by
  simp [EndsBy]

theorem EndsBy.min {chunks : List TopicChunk} {t u : Timestamp} (ht : EndsBy chunks t)
    (hu : EndsBy chunks u) : EndsBy chunks (min t u) :=
  fun last hlast ↦ le_min (ht last hlast) (hu last hlast)

/-! ## The world -/

theorem chunksOf_append (τ : ℕ) (flight flight' : List (ℕ × TopicChunk)) :
    chunksOf τ (flight ++ flight') = chunksOf τ flight ++ chunksOf τ flight' := by
  rw [chunksOf, List.filter_append, List.map_append]
  rfl

theorem chunksOf_cons (τ : ℕ) (p : ℕ × TopicChunk) (flight : List (ℕ × TopicChunk)) :
    chunksOf τ (p :: flight) = if p.1 = τ then p.2 :: chunksOf τ flight else chunksOf τ flight := by
  rw [chunksOf, chunksOf, List.filter_cons]
  by_cases hp : p.1 = τ <;> simp [hp]

theorem chunksOf_map_self (τ : ℕ) (chunks : List TopicChunk) :
    chunksOf τ (chunks.map (τ, ·)) = chunks := by
  rw [chunksOf, List.filter_eq_self.mpr (by simp), List.map_map]
  exact List.map_id chunks

theorem chunksOf_map_of_ne {τ τ' : ℕ} (h : τ' ≠ τ) (chunks : List TopicChunk) :
    chunksOf τ (chunks.map (τ', ·)) = [] := by
  rw [chunksOf, List.filter_eq_nil_iff.mpr (by simpa using fun _ _ ↦ h)]
  rfl

namespace World

variable {S : Setup} {W W' : World} {w τ w' τ' : ℕ} {l : Ledger} {flight : List (ℕ × TopicChunk)}
  {v v' : TopicView} {C : CallCondition} {P : LineInvariant}

/-- The line of writer `w` on topic `τ`, with `flight` between topic and writer. -/
def Line (P : LineInvariant) (S : Setup) (w τ : ℕ) (l : Ledger) (flight : List (ℕ × TopicChunk))
    (W : World) : Prop :=
  ∃ s, (W.engines (S.home w)).topics τ = some s ∧
    P s.sealedChunks (chunksOf τ flight) (W.writers w τ) l

/-- Writer `w` is the only one that has anything of topic `τ`, and `P` holds of its line. -/
structure OnlyLine (P : LineInvariant) (S : Setup) (w τ : ℕ) (l : Ledger)
    (flight : List (ℕ × TopicChunk)) (W : World) : Prop where
  others : ∀ w', w' ≠ w → S.home w' = S.home w →
    (W.writers w' τ).builder = none ∧ (W.writers w' τ).pending = []
  line : W.Line P S w τ l flight

/-! ### The line of a writer -/

/-- What happens on other topics is of no importance. -/
theorem Line.congr (h : W.Line P S w τ l flight) {flight' : List (ℕ × TopicChunk)}
    (hwriter : W'.writers w τ = W.writers w τ)
    (htopics : (W'.engines (S.home w)).topics τ = (W.engines (S.home w)).topics τ)
    (hflight : chunksOf τ flight' = chunksOf τ flight) : W'.Line P S w τ l flight' := by
  obtain ⟨s, hs, hline⟩ := h
  refine ⟨s, htopics.trans hs, ?_⟩
  rwa [hwriter, hflight]

/-- A view of the topic, put back. -/
theorem Line.putView_self (h : W.Line P S w τ l flight) (hv : W.view S w τ = some v)
    {l' : Ledger} {flight' : List (ℕ × TopicChunk)}
    (hline : P v.storage.sealedChunks (chunksOf τ flight) v.writer l →
      P v'.storage.sealedChunks (chunksOf τ flight') v'.writer l') :
    (W.putView S w τ v').Line P S w τ l' flight' := by
  obtain ⟨s, hs, hin⟩ := h
  obtain ⟨hs', hw, -⟩ := view_eq_some hv
  obtain rfl : s = v.storage := Option.some.inj (hs.symm.trans hs')
  refine ⟨v'.storage, ?_, ?_⟩
  · rw [putView_engines_self, Engine.mapTopic_self, hs]
    rfl
  · rw [putView_writers, setWriter_self]
    exact hline (hw ▸ hin)

theorem Line.putView_of_ne (h : W.Line P S w τ l flight) (hhome : S.home w' = S.home w)
    (hne : τ' ≠ τ) {flight' : List (ℕ × TopicChunk)}
    (hflight : chunksOf τ flight' = chunksOf τ flight) :
    (W.putView S w' τ' v').Line P S w τ l flight' := by
  refine h.congr ?_ ?_ hflight
  · rw [putView_writers, setWriter_of_ne fun heq ↦ hne heq.2.symm]
  · rw [← hhome, putView_engines_self, Engine.mapTopic_of_ne hne.symm]

theorem inFlight_flushTopic : (W.flushTopic S w' τ').1.inFlight = W.inFlight := by
  rw [World.flushTopic]
  split <;> rfl

theorem Line.flushTopic (hP : LineRule C P) (h : W.Line P S w τ l flight) (τ' : ℕ)
    (hmay : τ' = τ → (W.writers w τ).MayFlush l) :
    (W.flushTopic S w τ').1.Line P S w τ l (flight ++ (W.flushTopic S w τ').2) := by
  rcases hv : W.view S w τ' with _ | v
  · rw [flushTopic_of_none hv, List.append_nil]
    exact h
  · rw [flushTopic_of_some hv]
    by_cases hτ : τ' = τ
    · subst hτ
      have hwriter := (view_eq_some hv).2.1
      refine h.putView_self hv fun hline ↦ ?_
      rw [chunksOf_append, chunksOf_map_self, TopicView.flush_storage]
      exact hP.flush (hwriter ▸ hmay rfl) hline
    · refine h.putView_of_ne rfl hτ ?_
      rw [chunksOf_append, chunksOf_map_of_ne hτ, List.append_nil]

theorem Line.takePending (hP : LineRule C P) (h : W.Line P S w τ l flight) (τ' : ℕ) :
    (W.takePending w τ').1.Line P S w τ l (flight ++ (W.takePending w τ').2) := by
  obtain ⟨s, hs, hline⟩ := h
  rw [World.takePending]
  dsimp only
  by_cases hτ : τ' = τ
  · subst hτ
    refine ⟨s, hs, ?_⟩
    rw [setWriter_self, chunksOf_append, chunksOf_map_self]
    exact hP.takePending hline
  · refine Line.congr ⟨s, hs, hline⟩ ?_ rfl ?_
    · rw [setWriter_of_ne fun heq ↦ hτ heq.2.symm]
    · rw [chunksOf_append, chunksOf_map_of_ne hτ, List.append_nil]

/-- Each flush of a topic adds its chunks behind those in flight. -/
theorem Line.flushAll (hP : LineRule C P) (h : W.Line P S w τ l flight) (order order' : List ℕ)
    (hmay : τ ∈ order' → (W.writers w τ).MayFlush l) :
    (W.flushAll S w order order').1.Line P S w τ l (flight ++ (W.flushAll S w order order').2) := by
  refine (flushAll_rule (S := S) (w := w) (I := fun V chunks ↦ V.Line P S w τ l (flight ++ chunks) ∧
    (τ ∈ order' → (V.writers w τ).MayFlush l)) (fun V chunks σ hV ↦ ?_) order order'
    (fun V chunks σ hσ hV ↦ ?_) [] ⟨by rwa [List.append_nil], hmay⟩).1
  · rw [← List.append_assoc]
    exact ⟨hV.1.takePending hP σ, fun hτ ↦ (hV.2 hτ).of_builder
      (.inr (builder_takePending V w σ w τ))⟩
  · rw [← List.append_assoc]
    exact ⟨hV.1.flushTopic hP σ fun heq ↦ hV.2 (heq ▸ hσ), fun hτ ↦ (hV.2 hτ).of_builder
      (builder_flushTopic V w σ w τ)⟩

/-- A batch that is committed moves to the topic, chunk by chunk. -/
theorem Line.commitBatch (hP : LineRule C P) {batch : List (ℕ × TopicChunk)} {engine : Engine}
    {s : TopicStorage} {tw : TopicWriter} (hs : engine.topics τ = some s)
    (h : P s.sealedChunks (chunksOf τ (batch ++ flight)) tw l) :
    ∃ s', (engine.commitChunks batch).topics τ = some s' ∧
      P s'.sealedChunks (chunksOf τ flight) tw l := by
  induction batch generalizing engine s with
  | nil => exact ⟨s, hs, h⟩
  | cons p batch ih =>
    rw [Engine.commitChunks, List.foldl_cons]
    rw [List.cons_append, chunksOf_cons] at h
    split_ifs at h with hτ
    · refine ih (s := (s.appendSealedChunk p.2).getD s) ?_ (hP.commitChunk h)
      rw [Engine.commitChunk, hτ, Engine.mapTopic_self, hs, Option.map_some]
    · refine ih (s := s) ?_ h
      rw [Engine.commitChunk, Engine.mapTopic_of_ne (Ne.symm hτ), hs]

/-! ### The only writer -/

/-- What happens on other topics is of no importance. -/
theorem OnlyLine.congr (h : W.OnlyLine P S w τ l flight) {flight' : List (ℕ × TopicChunk)}
    (hwriters : ∀ w', W'.writers w' τ = W.writers w' τ)
    (htopics : (W'.engines (S.home w)).topics τ = (W.engines (S.home w)).topics τ)
    (hflight : chunksOf τ flight' = chunksOf τ flight) : W'.OnlyLine P S w τ l flight' := by
  refine ⟨fun w' hne hhome ↦ ?_, h.line.congr (hwriters w) htopics hflight⟩
  rw [hwriters]
  exact h.others w' hne hhome

/-- A step of the writer itself. -/
theorem OnlyLine.own (h : W.OnlyLine P S w τ l flight) {l' : Ledger}
    {flight' : List (ℕ × TopicChunk)} (hwriters : ∀ w' ≠ w, W'.writers w' τ = W.writers w' τ)
    (hline : W'.Line P S w τ l' flight') : W'.OnlyLine P S w τ l' flight' := by
  refine ⟨fun w' hne hhome ↦ ?_, hline⟩
  rw [hwriters w' hne]
  exact h.others w' hne hhome

theorem putView_writers_of_ne {w'' : ℕ} (h : w'' ≠ w') (τ'' : ℕ) :
    (W.putView S w' τ' v').writers w'' τ'' = W.writers w'' τ'' := by
  rw [putView_writers, setWriter_of_ne fun heq ↦ h heq.1]

theorem flushTopic_writers_of_ne {w'' : ℕ} (h : w'' ≠ w') (τ'' : ℕ) :
    (W.flushTopic S w' τ').1.writers w'' τ'' = W.writers w'' τ'' := by
  rcases hv : W.view S w' τ' with _ | v
  · rw [flushTopic_of_none hv]
  · rw [flushTopic_of_some hv]
    exact putView_writers_of_ne h τ''

/-- A writer that has nothing of the topic hands nothing out. -/
theorem flush_of_nothing (hb : v.writer.builder = none) (hp : v.writer.pending = []) :
    v.flush = (v, []) := by
  rw [TopicView.flush, hb, hp]
  simp only
  rw [← hp]

theorem OnlyLine.flushTopic (hP : LineRule C P) (h : W.OnlyLine P S w τ l flight)
    (hhome : S.home w' = S.home w) (hmay : τ' = τ → w' = w → (W.writers w τ).MayFlush l) :
    (W.flushTopic S w' τ').1.OnlyLine P S w τ l (flight ++ (W.flushTopic S w' τ').2) := by
  by_cases hw : w' = w
  · subst hw
    exact h.own (fun w'' hne ↦ flushTopic_writers_of_ne hne τ)
      (h.line.flushTopic hP τ' fun hτ ↦ hmay hτ rfl)
  rcases hv : W.view S w' τ' with _ | v
  · rw [flushTopic_of_none hv, List.append_nil]
    exact h
  · rw [flushTopic_of_some hv]
    dsimp only
    by_cases hτ : τ' = τ
    · -- the other writer
      subst hτ
      obtain ⟨hs, hwriter, -⟩ := view_eq_some hv
      obtain ⟨hb, hp⟩ := h.others w' hw hhome
      rw [flush_of_nothing (hwriter ▸ hb) (hwriter ▸ hp), List.map_nil, List.append_nil]
      refine h.congr (fun w'' ↦ ?_) ?_ rfl
      · rw [putView_writers]
        by_cases heq : w'' = w'
        · subst heq
          rw [setWriter_self, hwriter]
        · rw [setWriter_of_ne fun hpair ↦ heq hpair.1]
      · rw [← hhome, putView_engines_self, Engine.mapTopic_self, hs]
        rfl
    · refine h.congr (fun w'' ↦ ?_) ?_ ?_
      · rw [putView_writers, setWriter_of_ne fun heq ↦ hτ heq.2.symm]
      · rw [← hhome, putView_engines_self, Engine.mapTopic_of_ne (Ne.symm hτ)]
      · rw [chunksOf_append, chunksOf_map_of_ne hτ, List.append_nil]

theorem OnlyLine.takePending (hP : LineRule C P) (h : W.OnlyLine P S w τ l flight)
    (hhome : S.home w' = S.home w) (τ' : ℕ) :
    (W.takePending w' τ').1.OnlyLine P S w τ l (flight ++ (W.takePending w' τ').2) := by
  by_cases hw : w' = w
  · subst hw
    exact h.own (fun w'' hne ↦ setWriter_of_ne fun heq ↦ hne heq.1) (h.line.takePending hP τ')
  rw [World.takePending]
  by_cases hτ : τ' = τ
  · -- the other writer
    subst hτ
    have hp := (h.others w' hw hhome).2
    rw [hp, List.map_nil, List.append_nil]
    refine h.congr (fun w'' ↦ ?_) rfl rfl
    by_cases heq : w'' = w'
    · subst heq
      rw [setWriter_self, ← hp]
    · rw [setWriter_of_ne fun hpair ↦ heq hpair.1]
  · refine h.congr (fun w'' ↦ ?_) rfl ?_
    · rw [setWriter_of_ne fun heq ↦ hτ heq.2.symm]
    · rw [chunksOf_append, chunksOf_map_of_ne hτ, List.append_nil]

end World

/-! ## Steps -/

/-- Nothing of the topic is left with the writer. -/
structure TopicWriter.Emptied (tw : TopicWriter) : Prop where
  builder : ∀ b, tw.builder = some b → b.rowCount = 0
  pending : tw.pending = []

theorem TopicWriter.HasRows.eq_nil {tw : TopicWriter} {rows : List Row} (h : tw.HasRows rows)
    (hempty : tw.Emptied) : rows = [] := by
  obtain ⟨parts, opened, rfl, hparts, hopened⟩ := h
  rw [hempty.pending] at hparts
  obtain rfl := List.forall₂_nil_right_iff.mp hparts
  rw [TopicWriter.Holds] at hopened
  split at hopened
  · rename_i b hb
    obtain ⟨cols, -, hrows⟩ := hopened
    have hcount : opened.length = 0 := hrows.rowCount.symm.trans (hempty.builder b hb)
    exact List.eq_nil_of_length_eq_zero hcount
  · exact hopened

theorem TopicWriter.Keeps.rows_eq_nil {tw : TopicWriter} {l : Ledger} (h : tw.Keeps l)
    (hempty : tw.Emptied) : l.rows = [] := by
  cases h with
  | idle h => exact h.eq_nil hempty
  | inRow hb hrow hnodup h =>
    refine h.eq_nil ⟨fun b' hb' ↦ ?_, hempty.pending⟩
    obtain rfl := Option.some.inj hb'
    rw [← TopicChunkBuilder.rowCount_openRow hrow]
    exact hempty.builder _ hb

theorem TopicView.emptied_flush (v : TopicView) : v.flush.1.writer.Emptied := by
  refine ⟨fun b hb ↦ ?_, TopicView.flush_pending⟩
  rcases v.flush_cases with ⟨-, -, -, hnone, -⟩ | ⟨hrows, hsame, -⟩
  · rw [hnone] at hb
    cases hb
  · exact hrows b (hsame ▸ hb)

namespace Books

variable {S : Setup} {B B' : Books} {c : Call} {out : Outcome} {w τ : ℕ} {C : CallCondition}
  {P : LineInvariant}

/-- The invariant of the line of writer `w` on topic `τ`. -/
def OnlyLine (P : LineInvariant) (S : Setup) (w τ : ℕ) (B : Books) : Prop :=
  B.world.OnlyLine P S w τ (B.ledger w τ) B.world.inFlight.flatten

theorem flatten_handOut (p : World × List (ℕ × TopicChunk)) :
    (World.handOut p).inFlight.flatten = p.1.inFlight.flatten ++ p.2 := by
  simp [World.handOut]

theorem run_commits {n e : ℕ}
    (h : Runs.run (step S) B (List.replicate n (.commitChunks e 0)) = some B') :
    B'.world.writers = B.world.writers ∧ B'.ledger = B.ledger := by
  induction n generalizing B with
  | zero =>
    obtain rfl := Option.some.inj h
    exact ⟨rfl, rfl⟩
  | succ n ih =>
    obtain ⟨⟨B₁, out⟩, hstep, hrest⟩ := Option.bind_eq_some_iff.mp h
    obtain ⟨hW, hledger⟩ := step_eq_some hstep
    obtain ⟨hworld, -⟩ := Prod.mk.inj (Option.some.inj hW)
    obtain ⟨hwriters, hrows⟩ := ih hrest
    exact ⟨hwriters.trans (hworld ▸ rfl), hrows.trans hledger⟩

theorem OnlyLine.of_handOut {p : World × List (ℕ × TopicChunk)} {l : Ledger}
    {flight : List (ℕ × TopicChunk)} (h : p.1.OnlyLine P S w τ l flight) :
    (World.handOut p).OnlyLine P S w τ l flight :=
  ⟨h.others, h.line⟩

/-- A call of the writer itself, which may lead to another invariant. -/
theorem OnlyLine.call {Q : LineInvariant} {tc : TopicCall} {v : TopicView} (hfits : B.world.Fits S)
    (hB : B.OnlyLine P S w τ) (h : B.step S (.topic w τ tc) = some (B', out))
    (hv : B.world.view S w τ = some v)
    (hQ : ∀ v', v.call (World.schemaOf S w v) tc = some (v', out) →
      P v.storage.sealedChunks (chunksOf τ B.world.inFlight.flatten) v.writer (B.ledger w τ) →
      Q v.storage.sealedChunks (chunksOf τ B.world.inFlight.flatten) v'.writer
        ((B.ledger w τ).after tc out)) : B'.OnlyLine Q S w τ := by
  obtain ⟨hW, hledger⟩ := step_eq_some h
  rw [World.step, World.topicCall.eq_def, hv] at hW
  obtain ⟨⟨v', out'⟩, hcall, heq⟩ := Option.map_eq_some_iff.mp hW
  obtain ⟨hsame, rfl⟩ := Prod.mk.inj heq
  rw [OnlyLine, hledger, ← hsame, enter_self]
  obtain ⟨hothers, s, hs, hline⟩ := hB
  obtain ⟨hs', hwriter, -⟩ := World.view_eq_some hv
  obtain rfl : s = v.storage := Option.some.inj (hs.symm.trans hs')
  refine ⟨fun w' hne hhome ↦ ?_, v'.storage, ?_, ?_⟩
  · rw [World.putView_writers_of_ne hne]
    exact hothers w' hne hhome
  · rw [World.putView_engines_self, Engine.mapTopic_self, hs]
    rfl
  · rw [World.putView_writers, World.setWriter_self,
      (TopicView.call_storage (hfits.view hv) hcall).2.2]
    exact hQ v' hcall (hwriter ▸ hline)

theorem onlyLine_topicCall (hP : LineRule C P) {w' τ' : ℕ} {tc : TopicCall}
    (hfits : B.world.Fits S) (hB : B.OnlyLine P S w τ)
    (h : B.step S (.topic w' τ' tc) = some (B', out)) (hhome : S.home w' = S.home w)
    (honly : τ' = τ → w' = w) (hfills : B.Fills S w τ (.topic w' τ' tc) out)
    (hc : B.Calls C S w τ (.topic w' τ' tc) out) : B'.OnlyLine P S w τ := by
  rcases hv : B.world.view S w' τ' with _ | v
  · obtain ⟨hW, hledger⟩ := step_eq_some h
    rw [World.step, World.topicCall.eq_def, hv] at hW
    obtain ⟨out', hout, heq⟩ := Option.map_eq_some_iff.mp hW
    obtain ⟨hsame, rfl⟩ := Prod.mk.inj heq
    rw [OnlyLine, hledger, ← hsame]
    by_cases hself : w = w' ∧ τ = τ'
    · obtain ⟨rfl, rfl⟩ := hself
      rw [enter_self, Ledger.after, if_neg (by simp [TopicCall.isOk_onMissingTopic hout])]
      exact hB
    · rw [enter_of_ne hself]
      exact hB
  · by_cases hτ : τ' = τ
    · obtain rfl := honly hτ
      subst hτ
      exact hB.call hfits h hv fun v' hcall ↦
        hP.call (hfits.view hv) (hfills ⟨rfl, rfl⟩ v hv) (hc ⟨rfl, rfl⟩ v hv) hcall
    · obtain ⟨hW, hledger⟩ := step_eq_some h
      rw [World.step, World.topicCall.eq_def, hv] at hW
      obtain ⟨⟨v', out'⟩, hcall, heq⟩ := Option.map_eq_some_iff.mp hW
      obtain ⟨hsame, rfl⟩ := Prod.mk.inj heq
      rw [OnlyLine, hledger, ← hsame, enter_of_ne fun heq ↦ hτ heq.2.symm]
      refine World.OnlyLine.congr hB (fun w'' ↦ ?_) ?_ rfl
      · rw [World.putView_writers, World.setWriter_of_ne fun heq ↦ hτ heq.2.symm]
      · rw [← hhome, World.putView_engines_self, Engine.mapTopic_of_ne (Ne.symm hτ)]

theorem step_onlyLine (hP : LineRule C P) (hfits : B.world.Fits S) (hB : B.OnlyLine P S w τ)
    (h : B.step S c = some (B', out)) (honly : OnlyWriter S w τ c) (hfills : B.Fills S w τ c out)
    (hc : B.Calls C S w τ c out) : B'.OnlyLine P S w τ := by
  cases c with
  | topic w' τ' tc => exact onlyLine_topicCall hP hfits hB h honly.1 honly.2 hfills hc
  | flush w' τ' =>
    obtain ⟨hW, hledger⟩ := step_eq_some h
    obtain ⟨hworld, -⟩ := Prod.mk.inj (Option.some.inj hW)
    rw [OnlyLine, hledger, ← hworld, flatten_handOut, World.inFlight_flushTopic]
    exact OnlyLine.of_handOut
      (World.OnlyLine.flushTopic hP hB honly fun hτ hw ↦ hfills ⟨hw, hτ⟩)
  | flushAll w' order order' =>
    obtain ⟨hW, hledger⟩ := step_eq_some h
    obtain ⟨hworld, -⟩ := Prod.mk.inj (Option.some.inj hW)
    rw [OnlyLine, hledger, ← hworld, flatten_handOut]
    -- each flush of a topic adds its chunks behind those in flight
    obtain ⟨hline, hflight, -⟩ := World.flushAll_rule (S := S) (w := w')
      (I := fun W chunks ↦ W.OnlyLine P S w τ (B.ledger w τ) (B.world.inFlight.flatten ++ chunks) ∧
        W.inFlight = B.world.inFlight ∧
        (w' = w ∧ τ ∈ order' → (W.writers w τ).MayFlush (B.ledger w τ)))
      (fun W chunks σ hI ↦ by
        obtain ⟨hline, hflight, hmay⟩ := hI
        refine ⟨?_, hflight, fun hw ↦ (hmay hw).of_builder
          (.inr (World.builder_takePending W w' σ w τ))⟩
        rw [← List.append_assoc]
        exact hline.takePending hP honly σ)
      order order'
      (fun W chunks σ hσ hI ↦ by
        obtain ⟨hline, hflight, hmay⟩ := hI
        refine ⟨?_, World.inFlight_flushTopic.trans hflight, fun hw ↦ (hmay hw).of_builder
          (World.builder_flushTopic W w' σ w τ)⟩
        rw [← List.append_assoc]
        exact hline.flushTopic hP honly fun hτ hw ↦ hmay ⟨hw, hτ ▸ hσ⟩)
      [] ⟨by rwa [List.append_nil], rfl, hfills⟩
    rw [hflight]
    exact OnlyLine.of_handOut hline
  | commitChunks e k =>
    obtain ⟨hW, hledger⟩ := step_eq_some h
    obtain ⟨hworld, -⟩ := Prod.mk.inj (Option.some.inj hW)
    obtain ⟨rfl, rfl⟩ := honly
    rw [OnlyLine, hledger, ← hworld]
    obtain ⟨hothers, s, hs, hline⟩ := hB
    have hflatten : B.world.inFlight.flatten
        = B.world.inFlight.getD 0 [] ++ (B.world.inFlight.eraseIdx 0).flatten := by
      rcases B.world.inFlight with _ | ⟨batch, rest⟩ <;> rfl
    rw [hflatten] at hline
    obtain ⟨s', hs', hline'⟩ := World.Line.commitBatch hP hs hline
    exact ⟨hothers, s', (congrArg (·.topics τ) World.setEngine_self).trans hs', hline'⟩
  | evictBefore e τ t => exact honly.elim
  | enforceRetention e window => exact honly.elim
  | clearChunks e τ => exact honly.elim
  | flushTo e e' => exact honly.elim

theorem onlyLine_start {W : World}
    (hP : ∀ {tw : TopicWriter}, tw.builder = none → tw.pending = [] → P [] [] tw {})
    (hinit : W.Initial S) (htopic : ((W.engines (S.home w)).topics τ).isSome) :
    OnlyLine P S w τ { world := W } := by
  obtain ⟨s, hs⟩ := Option.isSome_iff_exists.mp htopic
  refine ⟨fun w' _ _ ↦ ⟨hinit.builder w' τ, hinit.pending w' τ⟩, s, hs, ?_⟩
  rw [hinit.chunks _ τ s hs, hinit.inFlight]
  exact hP (hinit.builder w τ) (hinit.pending w τ)

/-- The rule for runs. -/
theorem run_onlyLine (hP : LineRule C P) (hfits : B.world.Fits S) (hB : B.OnlyLine P S w τ)
    {calls : List Call} (hmeets : Runs.Meets (step S) (fun B c out ↦
      OnlyWriter S w τ c ∧ B.Fills S w τ c out ∧ B.Calls C S w τ c out) B calls)
    (h : Runs.run (step S) B calls = some B') : B'.world.Fits S ∧ B'.OnlyLine P S w τ := by
  refine Runs.run_induction (I := fun B ↦ B.world.Fits S ∧ B.OnlyLine P S w τ) ?_ hmeets h
    ⟨hfits, hB⟩
  intro B c B' out hB hstep hc
  exact ⟨(World.step_keeps hB.1 (step_eq_some hstep).1).2,
    step_onlyLine hP hB.1 hB.2 hstep hc.1 hc.2.1 hc.2.2⟩

theorem calls_true : B.Calls (fun _ _ _ _ _ _ ↦ True) S w τ c out := by
  cases c with
  | topic w' τ' tc => exact fun _ _ _ ↦ trivial
  | _ => exact trivial

/-! ### The end of a run -/

theorem OnlyLine.isSome (hB : B.OnlyLine P S w τ) :
    ((B.world.engines (S.home w)).topics τ).isSome := by
  obtain ⟨-, s, hs, -⟩ := hB
  exact Option.isSome_of_eq_some hs

/-- A last flush leaves nothing with the writer. -/
theorem emptied_of_commits {n e : ℕ}
    (h : Runs.run (step S) B (.flush w τ :: List.replicate n (.commitChunks e 0)) = some B')
    (htopic : ((B.world.engines (S.home w)).topics τ).isSome) :
    (B'.world.writers w τ).Emptied := by
  obtain ⟨⟨B₁, out⟩, hflush, hcommits⟩ := Option.bind_eq_some_iff.mp h
  obtain ⟨hW, -⟩ := step_eq_some hflush
  obtain ⟨hworld, -⟩ := Prod.mk.inj (Option.some.inj hW)
  obtain ⟨s, hs⟩ := Option.isSome_iff_exists.mp htopic
  have hv : B.world.view S w τ = some ⟨s, B.world.writers w τ, B.world.nextChunkId⟩ := by
    rw [World.view, hs, Option.map_some]
  rw [(run_commits hcommits).1, ← hworld, World.flushTopic_of_some hv]
  simpa [World.handOut] using
    TopicView.emptied_flush ⟨s, B.world.writers w τ, B.world.nextChunkId⟩

/-- So does the last flush of a run, and commits behind it change nothing. -/
theorem run_emptied {W : World} {calls : List Call} {n : ℕ} (hinit : W.Initial S)
    (htopic : ((W.engines (S.home w)).topics τ).isSome)
    (hmeets : Runs.Meets (step S) (fun B c out ↦ OnlyWriter S w τ c ∧ B.Fills S w τ c out)
      { world := W } (calls ++ .flush w τ :: List.replicate n (.commitChunks (S.home w) 0)))
    (h : run S W (calls ++ .flush w τ :: List.replicate n (.commitChunks (S.home w) 0)) = some B) :
    (B.world.writers w τ).Emptied := by
  -- the topic is there before the flush
  have htrivial : LineRule (fun _ _ _ _ _ _ ↦ True) fun _ _ _ _ ↦ True :=
    ⟨fun _ _ _ _ _ ↦ trivial, fun _ ↦ trivial, fun _ _ ↦ trivial, fun _ ↦ trivial⟩
  obtain ⟨B₁, hbefore, hlast⟩ := Option.bind_eq_some_iff.mp ((Runs.run_append ..).symm.trans h)
  obtain ⟨-, hline⟩ := run_onlyLine htrivial hinit.fits
    (onlyLine_start (fun _ _ ↦ trivial) hinit htopic)
    (hmeets.of_append.mono fun B c out hc ↦ ⟨hc.1, hc.2, calls_true⟩) hbefore
  exact emptied_of_commits hlast hline.isSome

end Books

end PlotJuggler
