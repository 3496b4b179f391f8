import PlotJugglerCore.Store.Ledger

/-!
# The columns of a chunk stay in step

The number of rows is kept once for the chunk, once for the timestamps and once for each column, and
nothing compares them when a chunk is sealed. A row pads the columns it was given nothing for; a
batch does not, and only a column with fewer rows than the batch is noticed. A flush in the middle of
a row seals the cells the row has so far, without the row.

Where neither happens, every chunk that a run produces consists of accepted rows that lie behind each
other, and each of its columns has all of them, with a null where the row has no cell.
-/

namespace PlotJuggler

open TopicChunkBuilder (CellCall)

/-! ## Statements -/

/-- The chunk has `rows`, and so has each of its columns, with a null where a row has no cell. -/
structure TopicChunk.InStep (chunk : TopicChunk) (rows : List Row) : Prop where
  timestamps : chunk.timestamps = rows.map Prod.fst
  rowCount : chunk.stats.rowCount = rows.length
  columns : ∀ col ∈ chunk.columns, col.rowCount = rows.length
  isNull : ∀ (i : ℕ) (col : Column), chunk.columns[i]? = some col → ∀ (j : ℕ) (row : Row),
    rows[j]? = some row → (col.isNull j = true ↔ row.2 i = none)
  outside : ∀ row ∈ rows, ∀ i, chunk.columns.length ≤ i → row.2 i = none

/-- The chunk consists of rows that were accepted behind each other. -/
def Ledger.Accounts (l : Ledger) (chunk : TopicChunk) : Prop :=
  ∃ rows, rows <:+: l.rows ∧ chunk.InStep rows

/-- Every chunk there is consists of accepted rows. -/
structure Books.InStep (B : Books) : Prop where
  pending : ∀ w τ, ∀ chunk ∈ (B.world.writers w τ).pending, (B.ledger w τ).Accounts chunk
  inFlight : ∀ batch ∈ B.world.inFlight, ∀ p ∈ batch, ∃ w, (B.ledger w p.1).Accounts p.2
  engines : ∀ e, (B.world.engines e).All (·.Chunks fun chunk ↦ ∃ w τ, (B.ledger w τ).Accounts chunk)

/-- The condition on a step: no column is set twice in a row, a batch has data for all columns, and
no flush seals cells of an open row. -/
def Books.Aligns (S : Setup) (B : Books) (c : Call) (out : Outcome) : Prop :=
  match c with
  | .topic w τ c => ∀ v ∈ B.world.view S w τ, v.Aligns (World.schemaOf S w v) (B.ledger w τ) c out
  | .flush w τ => (B.world.writers w τ).MayFlush (B.ledger w τ)
  | .flushAll w _ order => ∀ τ ∈ order, (B.world.writers w τ).MayFlush (B.ledger w τ)
  | _ => True

instance (n : ℕ) (batch : List ColumnData) : Decidable (Complete n batch) :=
  decidable_of_iff ((batch.map (·.colIndex)).Perm (List.range n) ∧ ∀ col ∈ batch, col.data.WellFormed)
    ⟨fun h ↦ ⟨h.1, h.2⟩, fun h ↦ ⟨h.once, h.wellFormed⟩⟩

instance (schema : Option TypeTreeNode) (v : TopicView) (n : ℕ) (batch : List ColumnData) :
    Decidable (TopicView.Completes schema v n batch) :=
  decidable_of_iff (Complete (v.currentBuilder schema).columns.length batch ∧
      ((v.currentBuilder schema).remainingCapacity < n →
        Complete (TopicView.columnList schema v).length batch))
    ⟨fun h ↦ ⟨h.1, h.2⟩, fun h ↦ ⟨h.current, h.later⟩⟩

instance (schema : Option TypeTreeNode) (v : TopicView) (l : Ledger) (c : TopicCall)
    (out : Outcome) : Decidable (v.Aligns schema l c out) :=
  match c with
  | .set i _ | .setNull i =>
    inferInstanceAs (Decidable (i ∉ l.cells.map CellCall.col))
  | .appendColumns ts batch => inferInstanceAs
    (Decidable (out.isOk → ts ≠ [] → TopicView.Completes schema v ts.length batch))
  | .beginRow _ | .finishRow | .resolveField _ | .ensureColumn _ _ | .expandArray _ _ _ =>
    .isTrue trivial

instance (S : Setup) (B : Books) (c : Call) (out : Outcome) : Decidable (B.Aligns S c out) :=
  match c with
  | .topic w τ c => inferInstanceAs (Decidable (∀ v ∈ B.world.view S w τ,
    v.Aligns (World.schemaOf S w v) (B.ledger w τ) c out))
  | .flush w τ => inferInstanceAs (Decidable ((B.world.writers w τ).MayFlush (B.ledger w τ)))
  | .flushAll w _ order => inferInstanceAs
    (Decidable (∀ τ ∈ order, (B.world.writers w τ).MayFlush (B.ledger w τ)))
  | .commitChunks _ _ | .evictBefore _ _ _ | .enforceRetention _ _ | .clearChunks _ _
  | .flushTo _ _ => .isTrue trivial

/-! ## Chunks -/

theorem TopicChunk.HasRows.inStep {chunk : TopicChunk} {columns : List ColumnDescriptor}
    {rows : List Row} (h : chunk.HasRows columns rows) : chunk.InStep rows := by
  obtain ⟨b, id, cols, rfl, -, hb⟩ := h
  obtain ⟨hist, al, hcells⟩ := hb.aligned
  have hcolumn : ∀ (i : ℕ) (col : Column), (b.sealChunk id).columns[i]? = some col →
      ∃ c d, cols[i]? = some d ∧ ColumnBuilder.Tracks d (hist i) c ∧ col = c.sealColumn := by
    intro i col hcol
    rw [TopicChunkBuilder.sealChunk, List.getElem?_map] at hcol
    obtain ⟨c, hc, rfl⟩ := Option.map_eq_some_iff.mp hcol
    obtain ⟨d, hd, t⟩ := al.tracks.exists_descriptor hc
    exact ⟨c, d, hd, t, rfl⟩
  have hlength : ∀ i d, cols[i]? = some d → (hist i).length = rows.length := by
    intro i d hd
    simpa using congrArg List.length (hcells i d hd)
  refine ⟨al.timestamps, hb.rowCount, fun col hcol ↦ ?_, fun i col hcol j row hrow ↦ ?_,
    fun row hrow i hi ↦ hb.outside row hrow i ?_⟩
  · obtain ⟨i, hi⟩ := List.mem_iff_getElem?.mp hcol
    obtain ⟨c, d, hd, t, rfl⟩ := hcolumn i col hi
    rw [ColumnBuilder.rowCount_sealColumn t.holds, List.length_map, hlength i d hd]
  · obtain ⟨c, d, hd, t, rfl⟩ := hcolumn i col hcol
    have hj : j < (hist i).length := by
      rw [hlength i d hd]
      exact (List.getElem?_eq_some_iff.mp hrow).1
    have he : (hist i)[j]? = some (hist i)[j] := List.getElem?_eq_getElem hj
    have hcell : (hist i)[j].cell d.kind = row.2 i := by
      have hat := congrArg (·[j]?) (hcells i d hd)
      simp only [List.getElem?_map, he, hrow, Option.map_some] at hat
      exact Option.some.inj hat
    rw [ColumnBuilder.isNull_sealColumn t.holds (ColumnBuilder.getElem?_map_slot he), ← hcell,
      Entry.cell, Entry.slot]
    cases (hist i)[j].valid <;> simp
  · rwa [TopicChunkBuilder.sealChunk, List.length_map, al.tracks.length] at hi

theorem Ledger.Accounts.mono {l l' : Ledger} {chunk : TopicChunk} (h : l.Accounts chunk)
    (hrows : l.rows <+: l'.rows) : l'.Accounts chunk := by
  obtain ⟨rows, hin, hstep⟩ := h
  exact ⟨rows, hin.trans hrows.isInfix, hstep⟩

/-- Parts in a row are behind each other. -/
theorem isInfix_flatten {parts : List (List Row)} {part : List Row} (h : part ∈ parts)
    (rest : List Row) : part <:+: parts.flatten ++ rest := by
  obtain ⟨before, after, rfl⟩ := List.append_of_mem h
  refine ⟨before.flatten, after.flatten ++ rest, ?_⟩
  simp

/-! ## Writers -/

/-- The writer keeps the last rows of the ledger: it has handed out those in front of them. -/
def TopicWriter.KeepsRest (tw : TopicWriter) (l : Ledger) : Prop :=
  ∃ rows l', l = l'.behind rows ∧ tw.Keeps l'

namespace TopicWriter

variable {tw tw' : TopicWriter} {l : Ledger} {chunks : List TopicChunk}

theorem accounts_of_forall₂ {parts : List (List Row)} {columns : List ColumnDescriptor}
    {rest : List Row} (hrows : l.rows = parts.flatten ++ rest)
    (h : List.Forall₂ (fun part chunk ↦ chunk.HasRows columns part) parts chunks) :
    ∀ chunk ∈ chunks, l.Accounts chunk := by
  intro chunk hchunk
  obtain ⟨i, hi⟩ := List.mem_iff_getElem?.mp hchunk
  obtain ⟨hlt, rfl⟩ := List.getElem?_eq_some_iff.mp hi
  have hlt' : i < parts.length := h.length_eq ▸ hlt
  refine ⟨parts[i], ?_, (h.get hlt' hlt).inStep⟩
  rw [hrows]
  exact isInfix_flatten (List.getElem_mem hlt') rest

/-- The pending chunks of a writer consist of rows of its ledger. -/
theorem KeepsRest.pending (h : tw.KeepsRest l) : ∀ chunk ∈ tw.pending, l.Accounts chunk := by
  obtain ⟨rows, l', rfl, hkeeps⟩ := h
  have hall : ∀ chunk ∈ tw.pending, l'.Accounts chunk := by
    cases hkeeps with
    | idle h =>
      obtain ⟨parts, opened, hrows, hparts, -⟩ := h
      exact accounts_of_forall₂ hrows hparts
    | inRow hb hrow hnodup h =>
      obtain ⟨parts, opened, hrows, hparts, -⟩ := h
      exact accounts_of_forall₂ hrows hparts
  intro chunk hchunk
  obtain ⟨part, hin, hstep⟩ := hall chunk hchunk
  exact ⟨part, hin.trans (List.suffix_append rows l'.rows).isInfix, hstep⟩

/-- What is handed out consists of rows of the ledger. -/
theorem KeepsRest.handOut (h : tw.KeepsRest l)
    (hout : ∀ l', tw.Keeps l' → l'.cells = l.cells → tw.HandsOut l' chunks tw') :
    tw'.KeepsRest l ∧ ∀ chunk ∈ chunks, l.Accounts chunk := by
  obtain ⟨rows, l', rfl, hkeeps⟩ := h
  obtain ⟨parts, rest, rfl, hparts, hrest⟩ := hout l' hkeeps rfl
  refine ⟨⟨rows ++ parts.flatten, rest, Ledger.behind_behind, hrest⟩, fun chunk hchunk ↦ ?_⟩
  obtain ⟨part, hin, hstep⟩ := accounts_of_forall₂ (l := rest.behind parts.flatten) rfl hparts
    chunk hchunk
  exact ⟨part, hin.trans (List.suffix_append _ _).isInfix, hstep⟩

end TopicWriter

/-! ## The world -/

namespace World

variable {S : Setup} {W W' : World} {ledger : ℕ → ℕ → Ledger} {w τ : ℕ}

/-- Writers keep the last rows of their ledgers, and the chunks they have handed out consist of
rows that are in front. -/
structure Kept (ledger : ℕ → ℕ → Ledger) (W : World) : Prop where
  writers : ∀ w τ, (W.writers w τ).KeepsRest (ledger w τ)
  inFlight : ∀ batch ∈ W.inFlight, ∀ p ∈ batch, ∃ w, (ledger w p.1).Accounts p.2
  engines : ∀ e, (W.engines e).All (·.Chunks fun chunk ↦ ∃ w τ, (ledger w τ).Accounts chunk)

theorem Kept.setEngine (hW : W.Kept ledger) {e : ℕ} {engine : Engine}
    (he : engine.All (·.Chunks fun chunk ↦ ∃ w τ, (ledger w τ).Accounts chunk)) :
    (W.setEngine e engine).Kept ledger :=
  ⟨hW.writers, hW.inFlight, all_setEngine hW.engines he⟩

theorem Kept.setWriter (hW : W.Kept ledger) {tw : TopicWriter} (htw : tw.KeepsRest (ledger w τ)) :
    (W.setWriter w τ tw).Kept ledger :=
  ⟨writers_setWriter (P := fun w τ tw ↦ tw.KeepsRest (ledger w τ)) hW.writers htw, hW.inFlight,
    hW.engines⟩

theorem Kept.putView (hW : W.Kept ledger) {v v' : TopicView} (hv : W.view S w τ = some v)
    (hchunks : v'.storage.sealedChunks = v.storage.sealedChunks)
    (hw : v'.writer.KeepsRest (ledger w τ)) : (W.putView S w τ v').Kept ledger := by
  obtain ⟨hwriters, hinFlight, -⟩ := hW.setWriter hw
  refine ⟨hwriters, hinFlight, all_putView hW.engines hv fun hall ↦ ?_⟩
  rwa [TopicStorage.Chunks, hchunks]

/-- A flush of a topic hands out rows of its ledger. -/
theorem Kept.flushTopic (hW : W.Kept ledger) (hmay : (W.writers w τ).MayFlush (ledger w τ)) :
    (W.flushTopic S w τ).1.Kept ledger ∧
      ∀ p ∈ (W.flushTopic S w τ).2, ∃ w, (ledger w p.1).Accounts p.2 := by
  rcases hv : W.view S w τ with _ | v
  · rw [flushTopic_of_none hv]
    exact ⟨hW, fun p hp ↦ absurd hp List.not_mem_nil⟩
  · have hwriter := (view_eq_some hv).2.1
    obtain ⟨hrest, hchunks⟩ := (hwriter ▸ hW.writers w τ).handOut
      fun l' hkeeps hcells ↦ TopicView.keeps_flush hkeeps fun b hb ↦ hcells ▸ hmay b (hwriter ▸ hb)
    rw [flushTopic_of_some hv]
    refine ⟨hW.putView hv (by simp) hrest, fun p hp ↦ ?_⟩
    obtain ⟨chunk, hchunk, rfl⟩ := List.mem_map.mp hp
    exact ⟨w, hchunks chunk hchunk⟩

theorem Kept.takePending (hW : W.Kept ledger) (w τ : ℕ) : (W.takePending w τ).1.Kept ledger ∧
    ∀ p ∈ (W.takePending w τ).2, ∃ w, (ledger w p.1).Accounts p.2 := by
  obtain ⟨hrest, hchunks⟩ := (hW.writers w τ).handOut fun l' hkeeps _ ↦ hkeeps.takePending
  refine ⟨hW.setWriter hrest, fun p hp ↦ ?_⟩
  obtain ⟨chunk, hchunk, rfl⟩ := List.mem_map.mp hp
  exact ⟨w, hchunks chunk hchunk⟩

theorem Kept.handOut {p : World × List (ℕ × TopicChunk)} (hW : p.1.Kept ledger)
    (hp : ∀ q ∈ p.2, ∃ w, (ledger w q.1).Accounts q.2) : (handOut p).Kept ledger := by
  refine ⟨hW.writers, fun batch hbatch ↦ ?_, hW.engines⟩
  rcases List.mem_append.mp hbatch with h | h
  · exact hW.inFlight batch h
  · rwa [List.mem_singleton.mp h]

/-- A call of a writer may change the writers and let the ledgers grow. -/
theorem Kept.call {ledger' : ℕ → ℕ → Ledger} (hW : W.Kept ledger)
    (hrows : ∀ w τ, (ledger w τ).rows <+: (ledger' w τ).rows)
    (hwriters : ∀ w τ, (W'.writers w τ).KeepsRest (ledger' w τ))
    (hinFlight : W'.inFlight = W.inFlight)
    (hengines : ∀ P, (∀ e, (W.engines e).All (·.Chunks P)) → ∀ e, (W'.engines e).All (·.Chunks P)) :
    W'.Kept ledger' := by
  refine ⟨hwriters, fun batch hbatch p hp ↦ ?_, hengines _ fun e τ s hs chunk hchunk ↦ ?_⟩
  · obtain ⟨w, h⟩ := hW.inFlight batch (hinFlight ▸ hbatch) p hp
    exact ⟨w, h.mono (hrows w p.1)⟩
  · obtain ⟨w, τ', h⟩ := hW.engines e τ s hs chunk hchunk
    exact ⟨w, τ', h.mono (hrows w τ')⟩

theorem Initial.kept (hW : W.Initial S) : W.Kept fun _ _ ↦ {} where
  writers w τ := ⟨[], {}, rfl, .idle (TopicWriter.hasRows_empty (hW.builder w τ) (hW.pending w τ))⟩
  inFlight batch hbatch := by
    rw [hW.inFlight] at hbatch
    exact absurd hbatch List.not_mem_nil
  engines e τ s hs chunk hchunk := by
    rw [hW.chunks e τ s hs] at hchunk
    exact absurd hchunk List.not_mem_nil

end World

/-! ## Steps -/

/-- A topic that is not there accepts nothing. -/
theorem TopicCall.isOk_onMissingTopic {τ : ℕ} {c : TopicCall} {out : Outcome}
    (h : c.onMissingTopic τ = some out) : out.isOk = false := by
  cases c with
  | set => cases h
  | setNull => cases h
  | resolveField => cases h
  | _ =>
    obtain rfl := Option.some.inj h
    rfl

namespace Books

variable {S : Setup} {B B' : Books} {c : Call} {out : Outcome} {w τ : ℕ}

theorem keepsRest_after {schema : Option TypeTreeNode} {v v' : TopicView} {l : Ledger}
    {tc : TopicCall} (hv : v.Fits) (h : v.writer.KeepsRest l) (hc : v.Aligns schema l tc out)
    (hcall : v.call schema tc = some (v', out)) : v'.writer.KeepsRest (l.after tc out) := by
  obtain ⟨rows, l', rfl, hkeeps⟩ := h
  -- the condition is about the open row, and that is the same in both ledgers
  have hc' : v.Aligns schema l' tc out := by
    cases tc <;> exact hc
  exact ⟨rows, l'.after tc out, Ledger.after_behind, TopicView.keeps_call hv hkeeps hc' hcall⟩

theorem kept_topicCall {tc : TopicCall} (hfits : B.world.Fits S) (hB : B.world.Kept B.ledger)
    (h : B.step S (.topic w τ tc) = some (B', out)) (hc : B.Aligns S (.topic w τ tc) out) :
    B'.world.Kept B'.ledger := by
  obtain ⟨hW, hledger⟩ := step_eq_some h
  have hrows := rows_prefix_enter B.ledger (.topic w τ tc) out
  rw [hledger]
  rw [World.step, World.topicCall.eq_def] at hW
  rcases hv : B.world.view S w τ with _ | v
  · rw [hv] at hW
    obtain ⟨out', hout, heq⟩ := Option.map_eq_some_iff.mp hW
    obtain ⟨hsame, rfl⟩ := Prod.mk.inj heq
    refine hB.call hrows (fun w' τ' ↦ ?_) (hsame ▸ rfl) fun P hP ↦ hsame ▸ hP
    rw [← hsame]
    by_cases heq : w' = w ∧ τ' = τ
    · obtain ⟨rfl, rfl⟩ := heq
      rw [enter_self, Ledger.after, if_neg (by simp [TopicCall.isOk_onMissingTopic hout])]
      exact hB.writers w' τ'
    · rw [enter_of_ne heq]
      exact hB.writers w' τ'
  · obtain ⟨-, hwriter, -⟩ := World.view_eq_some hv
    rw [hv] at hW
    obtain ⟨⟨v', out'⟩, hcall, heq⟩ := Option.map_eq_some_iff.mp hW
    obtain ⟨hsame, rfl⟩ := Prod.mk.inj heq
    have hfit := hfits.view hv
    rw [← hsame]
    refine hB.call hrows (fun w' τ' ↦ ?_) rfl fun P hP ↦ World.all_putView hP hv fun hs ↦ ?_
    · rw [World.putView_writers]
      by_cases heq : w' = w ∧ τ' = τ
      · obtain ⟨rfl, rfl⟩ := heq
        rw [World.setWriter_self, enter_self]
        exact keepsRest_after hfit (hwriter ▸ hB.writers w' τ') (hc v hv) hcall
      · rw [World.setWriter_of_ne heq, enter_of_ne heq]
        exact hB.writers w' τ'
    · rwa [TopicStorage.Chunks, (TopicView.call_storage hfit hcall).2.2]

theorem step_kept (hfits : B.world.Fits S) (hB : B.world.Kept B.ledger)
    (h : B.step S c = some (B', out)) (hc : B.Aligns S c out) : B'.world.Kept B'.ledger := by
  cases c with
  | topic w τ tc => exact kept_topicCall hfits hB h hc
  | flush w τ =>
    obtain ⟨hW, hledger⟩ := step_eq_some h
    obtain ⟨hworld, -⟩ := Prod.mk.inj (Option.some.inj hW)
    rw [hledger, ← hworld]
    obtain ⟨hkept, hout⟩ := hB.flushTopic (S := S) hc
    exact hkept.handOut hout
  | flushAll w order order' =>
    obtain ⟨hW, hledger⟩ := step_eq_some h
    obtain ⟨hworld, -⟩ := Prod.mk.inj (Option.some.inj hW)
    rw [hledger, ← hworld]
    obtain ⟨⟨hkept, -⟩, hout⟩ := World.flushAll_induction (S := S) (w := w)
      (I := fun W ↦ W.Kept B.ledger ∧ ∀ τ ∈ order', (W.writers w τ).MayFlush (B.ledger w τ))
      (P := fun p ↦ ∃ w, (B.ledger w p.1).Accounts p.2)
      (fun W τ hI ↦ by
        obtain ⟨hW, hmay⟩ := hI
        obtain ⟨hkept, hout⟩ := hW.takePending w τ
        exact ⟨⟨hkept, fun σ hσ ↦ (hmay σ hσ).of_builder
          (.inr (World.builder_takePending W w τ w σ))⟩, hout⟩)
      order order'
      (fun W τ hτ hI ↦ by
        obtain ⟨hW, hmay⟩ := hI
        obtain ⟨hkept, hout⟩ := hW.flushTopic (S := S) (hmay τ hτ)
        exact ⟨⟨hkept, fun σ hσ ↦ (hmay σ hσ).of_builder
          (World.builder_flushTopic W w τ w σ)⟩, hout⟩) ⟨hB, hc⟩
    exact hkept.handOut hout
  | commitChunks e k =>
    obtain ⟨hW, hledger⟩ := step_eq_some h
    obtain ⟨hworld, -⟩ := Prod.mk.inj (Option.some.inj hW)
    rw [hledger, ← hworld]
    have hengine := (hB.engines e).foldl_mapTopic (t := Prod.fst)
      (g := fun (p : ℕ × TopicChunk) s ↦ (s.appendSealedChunk p.2).getD s)
      fun p (hp : p ∈ B.world.inFlight.getD k []) s hs ↦ by
        obtain ⟨w, hw⟩ := World.forall_mem_getD_inFlight hB.inFlight k p hp
        exact hs.appendSealedChunk ⟨w, p.1, hw⟩
    obtain ⟨h₁, h₂, h₃⟩ := hB.setEngine hengine
    exact ⟨h₁, fun batch hb ↦ h₂ batch (List.mem_of_mem_eraseIdx hb), h₃⟩
  | evictBefore e τ t =>
    obtain ⟨hW, hledger⟩ := step_eq_some h
    obtain ⟨hworld, -⟩ := Prod.mk.inj (Option.some.inj hW)
    rw [hledger, ← hworld]
    exact hB.setEngine ((hB.engines e).mapTopic fun _ _ hs ↦ hs.evictBefore t)
  | enforceRetention e window =>
    obtain ⟨hW, hledger⟩ := step_eq_some h
    obtain ⟨hworld, -⟩ := Prod.mk.inj (Option.some.inj hW)
    rw [hledger, ← hworld]
    exact hB.setEngine ((hB.engines e).foldl_mapTopic (t := id) fun _ _ _ hs ↦ hs.retain window)
  | clearChunks e τ =>
    obtain ⟨hW, hledger⟩ := step_eq_some h
    obtain ⟨hworld, -⟩ := Prod.mk.inj (Option.some.inj hW)
    rw [hledger, ← hworld]
    exact hB.setEngine ((hB.engines e).mapTopic fun s _ _ ↦ s.chunks_clearChunks _)
  | flushTo e e' =>
    obtain ⟨hW, hledger⟩ := step_eq_some h
    rw [hledger]
    rcases World.flushTo_eq_some hW with hsame | ⟨-, plan, -, -, hsame⟩
    · rwa [hsame]
    · rw [hsame]
      obtain ⟨h₁, h₂⟩ := Engine.chunks_foldl_moveChunks plan
        (p := (B.world.engines e, B.world.engines e')) (hB.engines e) (hB.engines e')
      exact (hB.setEngine h₁).setEngine h₂

/-- Every chunk that a run produces has its rows in all columns. -/
theorem run_inStep {W : World} {calls : List Call} (hinit : W.Initial S)
    (hmeets : Runs.Meets (step S) (Aligns S) { world := W } calls) (h : run S W calls = some B) :
    B.InStep := by
  have hinv : B.world.Fits S ∧ B.world.Kept B.ledger := by
    refine Runs.run_induction (I := fun B ↦ B.world.Fits S ∧ B.world.Kept B.ledger) ?_ hmeets h
      ⟨hinit.fits, hinit.kept⟩
    intro B c B' out hB hstep hc
    exact ⟨(World.step_keeps hB.1 (step_eq_some hstep).1).2, step_kept hB.1 hB.2 hstep hc⟩
  exact ⟨fun w τ ↦ (hinv.2.writers w τ).pending, hinv.2.inFlight, hinv.2.engines⟩

/-- Rows and a batch over chunks of two rows, a row that a flush drops, and new columns between. -/
def sparseRun : List Call :=
  [.topic 0 1 (.ensureColumn "x" .int32), .topic 0 1 (.ensureColumn "y" .float64),
    .topic 0 1 (.beginRow 1), .topic 0 1 (.set 1 (.float64 .zero)), .topic 0 1 .finishRow,
    .topic 0 1 (.appendColumns [2, 2]
      [{ colIndex := 1, data := .float64 [.zero, .zero] }, { colIndex := 0, data := .int32 [7, 8] }]),
    .topic 0 1 (.beginRow 4), .flush 0 1, .topic 0 1 (.ensureColumn "z" .bool),
    .topic 0 1 (.beginRow 3), .topic 0 1 (.set 2 (.bool true)), .flushAll 0 [1] [1],
    .topic 0 1 .finishRow, .flush 0 1, .commitChunks 0 0, .commitChunks 0 0, .commitChunks 0 0]

/-- What a run leaves of a topic, as the timestamps of its chunks and the lengths of its columns. -/
def shapeAfter (S : Setup) (W : World) (calls : List Call) (e τ : ℕ) :
    Option (List (List Timestamp × List ℕ)) :=
  ((run S W calls).bind fun B ↦ (B.world.engines e).topics τ).map
    fun s ↦ s.sealedChunks.map fun chunk ↦ (chunk.timestamps, chunk.columns.map (·.rowCount))

theorem shapeAfter_eq_some {W : World} {calls : List Call} {e : ℕ}
    {shape : List (List Timestamp × List ℕ)} (h : shapeAfter S W calls e τ = some shape) :
    ∃ B s, run S W calls = some B ∧ (B.world.engines e).topics τ = some s ∧
      s.sealedChunks.map (fun chunk ↦ (chunk.timestamps, chunk.columns.map (·.rowCount))) = shape := by
  obtain ⟨s, hs, hshape⟩ := Option.map_eq_some_iff.mp h
  obtain ⟨B, hrun, htopic⟩ := Option.bind_eq_some_iff.mp hs
  exact ⟨B, s, hrun, htopic, hshape⟩

theorem run_inStep_sparseRun : ∃ B s,
    run World.schemaless World.twoEngines sparseRun = some B ∧
      (B.world.engines 0).topics 1 = some s ∧
      s.sealedChunks.map (fun chunk ↦ (chunk.timestamps, chunk.columns.map (·.rowCount)))
        = [([1, 2], [2, 2]), ([2], [1, 1]), ([3], [1, 1, 1])] ∧ B.InStep := by
  have hshape : shapeAfter World.schemaless World.twoEngines sparseRun 0 1
      = some [([1, 2], [2, 2]), ([2], [1, 1]), ([3], [1, 1, 1])] := by
    decide +kernel
  obtain ⟨B, s, hrun, hs, hchunks⟩ := shapeAfter_eq_some hshape
  exact ⟨B, s, hrun, hs, hchunks, run_inStep (World.start_initial _) (by decide +kernel) hrun⟩

/-- What the interface allows: calls that go through, each column at most once in a row or a
batch. -/
def Permitted (B : Books) (c : Call) (out : Outcome) : Prop :=
  out.isOk ∧ match c with
    | .topic w τ (.set i _) => i ∉ (B.ledger w τ).cells.map CellCall.col
    | .topic w τ (.setNull i) => i ∉ (B.ledger w τ).cells.map CellCall.col
    | .topic _ _ (.appendColumns _ batch) =>
      (batch.map (·.colIndex)).Nodup ∧ ∀ col ∈ batch, col.data.WellFormed
    | _ => True

instance (B : Books) (c : Call) (out : Outcome) : Decidable (B.Permitted c out) :=
  match c with
  | .topic w τ (.set i _) | .topic w τ (.setNull i) => inferInstanceAs
    (Decidable (out.isOk ∧ i ∉ (B.ledger w τ).cells.map CellCall.col))
  | .topic _ _ (.appendColumns _ batch) => inferInstanceAs (Decidable (out.isOk ∧
    (batch.map (·.colIndex)).Nodup ∧ ∀ col ∈ batch, col.data.WellFormed))
  | .topic _ _ (.beginRow _) | .topic _ _ .finishRow | .topic _ _ (.resolveField _)
  | .topic _ _ (.ensureColumn _ _) | .topic _ _ (.expandArray _ _ _) | .flush _ _ | .flushAll _ _ _
  | .commitChunks _ _ | .evictBefore _ _ _ | .enforceRetention _ _ | .clearChunks _ _
  | .flushTo _ _ => inferInstanceAs (Decidable (out.isOk ∧ True))

/-- A row with two cells, and a batch for one of the columns behind it. -/
def shortColumn : List Call :=
  [.topic 0 1 (.ensureColumn "x" .int32), .topic 0 1 (.ensureColumn "y" .int32),
    .topic 0 1 (.beginRow 1), .topic 0 1 (.set 0 (.int32 5)), .topic 0 1 (.set 1 (.int32 6)),
    .topic 0 1 .finishRow,
    .topic 0 1 (.appendColumns [2] [{ colIndex := 0, data := .int32 [7] }]),
    .flush 0 1, .commitChunks 0 0]

theorem run_not_inStep : ¬∀ (S : Setup) (W : World) (calls : List Call) (B : Books), W.Initial S →
    Runs.Meets (step S) Permitted { world := W } calls → run S W calls = some B → B.InStep := by
  intro hall
  have hshape : shapeAfter World.schemaless World.twoEngines shortColumn 0 1
      = some [([1, 2], [2, 1])] := by
    decide +kernel
  obtain ⟨B, s, hrun, hs, hchunks⟩ := shapeAfter_eq_some hshape
  have hstep := hall World.schemaless World.twoEngines shortColumn B (World.start_initial _)
    (by decide +kernel) hrun
  obtain ⟨chunk, hchunk, hlengths⟩ := List.mem_map.mp (hchunks ▸ List.mem_singleton_self _)
  obtain ⟨w, τ, rows, -, hin⟩ := hstep.engines 0 1 s hs chunk hchunk
  obtain ⟨hstamps, hcounts⟩ := Prod.mk.inj hlengths
  -- both rows have a timestamp, and column `y` has one of them
  have htwo : rows.length = 2 := by
    rw [← List.length_map Prod.fst, ← hin.timestamps, hstamps]
    rfl
  obtain ⟨col, hcol, hone⟩ := List.mem_map.mp
    (hcounts ▸ List.mem_cons_of_mem 2 (List.mem_singleton_self 1) :
      1 ∈ chunk.columns.map (·.rowCount))
  rw [hin.columns col hcol, htwo] at hone
  cases hone

end Books

end PlotJuggler
