import PlotJugglerCore.Derived.Frame
import PlotJugglerCore.Store.Acceptance
import PlotJugglerCore.Store.Numbers
import PlotJugglerCore.Store.Records

/-!
# What a run of a node writes

A node writes its answers row by row through a writer that is new when the run begins, and that
hands everything out and commits it at the end. Rows that do not go back in time are all accepted,
and then the chunks of an output hold what they held before and these rows behind it
(`World.Emitting`). Whatever the answers are, a run only puts chunks behind those of its outputs, in
order and with ids that were not there when it began (`DataEngine.Grows`).
-/

namespace PlotJuggler

open TopicChunkBuilder (CellCall rowCell)

/-! ## A row -/

/-- The row that is written for an answer: its value in the first column, if there is one. -/
def VarValue.row (kind : StorageKind) (answer : Timestamp × VarValue) : Row :=
  (answer.1, rowCell ((answer.2.coerce kind).map (CellCall.set 0)).toList)

namespace InOneLine

variable {sealed flying : List TopicChunk} {tw : TopicWriter} {l : Ledger}

theorem accounts_of_shows {parts : List (List Row)} {chunks : List TopicChunk} {before after : List Row}
    (hrows : l.rows = before ++ parts.flatten ++ after) (h : Shows parts chunks) :
    ∀ chunk ∈ chunks, l.Accounts chunk := by
  intro chunk hchunk
  obtain ⟨i, hi⟩ := List.mem_iff_getElem?.mp hchunk
  obtain ⟨hlt, rfl⟩ := List.getElem?_eq_some_iff.mp hi
  have hlt' : i < parts.length := h.length_eq ▸ hlt
  refine ⟨parts[i], ?_, (h.get hlt' hlt).2⟩
  rw [hrows, List.append_assoc]
  exact (isInfix_flatten (List.getElem_mem hlt') after).trans (List.suffix_append before _).isInfix

/-- The chunks of a line consist of rows of the ledger. -/
theorem accounts (h : InOneLine sealed flying tw l) :
    ∀ chunk ∈ sealed ++ flying ++ tw.pending, l.Accounts chunk := by
  obtain ⟨parts, flown, rest, rfl, hparts, hflown, hkeeps, -⟩ := h
  intro chunk hchunk
  rcases List.mem_append.mp hchunk with hchunk | hchunk
  · rcases List.mem_append.mp hchunk with hchunk | hchunk
    · have hrows : (rest.behind (parts.flatten ++ flown.flatten)).rows
          = [] ++ parts.flatten ++ (flown.flatten ++ rest.rows) := List.append_assoc ..
      exact accounts_of_shows hrows hparts chunk hchunk
    · exact accounts_of_shows rfl hflown chunk hchunk
  · exact TopicWriter.KeepsRest.pending ⟨_, rest, rfl, hkeeps⟩ chunk hchunk

/-- So the line ends where its rows do. -/
theorem endsBy {t : Timestamp} (h : InOneLine sealed flying tw l)
    (hordered : ∀ chunk ∈ sealed ++ flying ++ tw.pending, chunk.Ordered)
    (hrows : ∀ row ∈ l.rows, row.1 ≤ t) : EndsBy (sealed ++ flying ++ tw.pending) t := by
  intro last hlast
  have hmem := List.mem_of_getLast? hlast
  obtain ⟨rows, hin, hstep⟩ := h.accounts last hmem
  have htMax := List.mem_of_getLast? (hordered last hmem).last
  rw [hstep.timestamps] at htMax
  obtain ⟨row, hrow, heq⟩ := List.mem_map.mp htMax
  rw [← heq]
  exact hrows row (hin.subset hrow)

end InOneLine

/-! ## A writer that writes row by row -/

namespace TopicView

variable {schema : Option TypeTreeNode} {v v' : TopicView} {rows : List Row} {t : Timestamp}
  {cells : List CellCall} {out : Outcome}

/-- All rows of the topic, together with those the writer has, are `rows`, and the last one that
lies in the builder was not begun later. -/
structure Emitting (rows : List Row) (v : TopicView) : Prop where
  fits : v.Fits
  storage : v.storage.Ordered
  writer : v.writer.Ordered
  line : ∃ l, l.rows = rows ∧ PlotJuggler.InOneLine v.storage.sealedChunks [] v.writer l
  idle : ∀ b, v.writer.builder = some b → b.rowInProgress = false
  last : ∀ b, v.writer.builder = some b → 0 < b.rowCount → ∃ row ∈ rows, b.lastTimestamp ≤ row.1

/-- The same with an open row. -/
structure InRow (rows : List Row) (t : Timestamp) (cells : List CellCall) (v : TopicView) :
    Prop where
  fits : v.Fits
  storage : v.storage.Ordered
  writer : v.writer.Ordered
  line : ∃ l, l.rows = rows ∧ l.timestamp = t ∧ l.cells = cells ∧
    PlotJuggler.InOneLine v.storage.sealedChunks [] v.writer l
  builder : ∃ b, v.writer.builder = some b ∧ b.lastTimestamp = t
  le : ∀ row ∈ rows, row.1 ≤ t

theorem InRow.ordered (h : v.InRow rows t cells) :
    ∀ chunk ∈ v.storage.sealedChunks ++ [] ++ v.writer.pending, chunk.Ordered := by
  rw [List.append_nil]
  exact List.forall_mem_append.mpr ⟨h.storage.chunks, h.writer.pending⟩

theorem Emitting.beginRow (h : v.Emitting rows) (ht : ∀ row ∈ rows, row.1 ≤ t)
    (hcall : v.call schema (.beginRow t) = some (v', out)) : out = .ok ∧ v'.InRow rows t [] := by
  obtain ⟨l, rfl, hline⟩ := h.line
  have hstorage := TopicView.call_storage h.fits hcall
  obtain ⟨⟨u, r⟩, hp, heq⟩ := Option.map_eq_some_iff.mp hcall
  obtain ⟨rfl, rfl⟩ := Prod.mk.inj heq
  have hok : r = .ok () := by
    rw [TopicView.beginRow] at hp
    split_ifs at hp with hrefused
    · -- the last row of the builder is one of the rows, and they come before `t`
      obtain ⟨hcount, hlt⟩ := hrefused
      rcases hb : v.writer.builder with _ | b
      · rw [currentBuilder, hb] at hcount
        exact absurd hcount (Nat.lt_irrefl 0)
      · rw [currentBuilder, hb] at hcount hlt
        obtain ⟨row, hrow, hle⟩ := h.last b hb hcount
        exact absurd (hle.trans (ht row hrow)) (not_le.mpr hlt)
    · obtain ⟨b, -, heq⟩ := Option.map_eq_some_iff.mp hp
      exact (Prod.mk.inj heq).2.symm
  subst hok
  have hsorted : TopicCall.Sorted (.beginRow t) := trivial
  refine ⟨rfl, TopicView.call_fits h.fits hcall, ?_, TopicView.call_ordered (fun _ ↦ hsorted) h.fits
    h.writer hcall, ⟨l.enter (.beginRow t), rfl, rfl, rfl, ?_⟩, ?_, ht⟩
  · exact h.storage.suffix (hstorage.2.2 ▸ List.suffix_rfl)
  · have hline' := hline.call (c := .beginRow t) h.fits trivial trivial hcall
    rwa [hstorage.2.2]
  · rcases beginRow_eq_some hp with ⟨e, herr, -⟩ | ⟨-, b, hb, rfl⟩
    · cases herr
    · obtain ⟨-, -, rfl⟩ := TopicChunkBuilder.beginRow_eq_some hb
      exact ⟨_, rfl, rfl⟩

theorem InRow.set {i : ℕ} {x : Value} (h : v.InRow rows t cells) (hi : i ∉ cells.map CellCall.col)
    (hcall : v.call schema (.set i x) = some (v', out)) : v'.InRow rows t (cells ++ [.set i x]) := by
  obtain ⟨l, rfl, rfl, rfl, hline⟩ := h.line
  obtain ⟨b, hb, hlast⟩ := h.builder
  have hsealed := (TopicView.call_storage h.fits hcall).2.2
  have hsorted : TopicCall.Sorted (.set i x) := trivial
  have hline' := hline.call (c := .set i x) h.fits hi trivial hcall
  obtain ⟨u, hu, heq⟩ := Option.map_eq_some_iff.mp hcall
  obtain ⟨rfl, rfl⟩ := Prod.mk.inj heq
  refine ⟨TopicView.call_fits h.fits hcall, h.storage.suffix (hsealed ▸ List.suffix_rfl),
    TopicView.call_ordered (fun _ ↦ hsorted) h.fits h.writer hcall,
    ⟨l.enter (.set i x), rfl, rfl, rfl, hsealed ▸ hline'⟩, ?_, h.le⟩
  obtain ⟨b₁, hb₁, hset⟩ := Option.bind_eq_some_iff.mp hu
  obtain ⟨b', hb', rfl⟩ := Option.map_eq_some_iff.mp hset
  obtain rfl := Option.some.inj (hb.symm.trans hb₁)
  obtain ⟨-, c, c', -, -, rfl⟩ := TopicChunkBuilder.runCellCall_eq_some (k := .set i x) hb'
  exact ⟨_, rfl, hlast⟩

theorem eq_of_builder_putBack {b b' : TopicChunkBuilder}
    (h : (v.putBack b).writer.builder = some b') : b' = b := by
  rw [putBack_eq] at h
  split_ifs at h
  · cases h
  · exact (Option.some.inj h).symm

theorem InRow.finishRow (h : v.InRow rows t cells)
    (hcall : v.call schema .finishRow = some (v', out)) :
    out = .ok ∧ v'.Emitting (rows ++ [(t, rowCell cells)]) := by
  obtain ⟨l, rfl, rfl, rfl, hline⟩ := h.line
  obtain ⟨b, hb, hlast⟩ := h.builder
  have hsealed := (TopicView.call_storage h.fits hcall).2.2
  have hsorted : TopicCall.Sorted .finishRow := trivial
  have hline' := hline.call (c := .finishRow) h.fits trivial
    (fun _ ↦ hline.endsBy h.ordered h.le) hcall
  obtain ⟨⟨u, r⟩, hp, heq⟩ := Option.map_eq_some_iff.mp hcall
  obtain ⟨rfl, rfl⟩ := Prod.mk.inj heq
  rcases TopicView.finishRow_eq_some hp with ⟨e, rfl, -⟩ | ⟨rfl, b₁, b', hb₁, hb', rfl⟩
  · -- there is a builder
    rw [TopicView.finishRow, hb] at hp
    obtain ⟨b₁, -, heq⟩ := Option.map_eq_some_iff.mp hp
    cases (Prod.mk.inj heq).2
  · obtain rfl := Option.some.inj (hb.symm.trans hb₁)
    obtain ⟨-, rfl⟩ := TopicChunkBuilder.finishRow_eq_some hb'
    refine ⟨rfl, TopicView.call_fits h.fits hcall, h.storage.suffix (hsealed ▸ List.suffix_rfl),
      TopicView.call_ordered (fun _ ↦ hsorted) h.fits h.writer hcall,
      ⟨l.enter .finishRow, rfl, hsealed ▸ hline'⟩, ?_, ?_⟩
    · intro b₁ hb₁
      rw [eq_of_builder_putBack hb₁]
    · intro b₁ hb₁ _
      rw [eq_of_builder_putBack hb₁]
      exact ⟨_, List.mem_append_right _ List.mem_cons_self, hlast.le⟩

end TopicView

namespace World

variable {S : Setup} {W W' : World} {τ σ : ℕ} {v : TopicView} {rows : List Row} {t : Timestamp}
  {val : VarValue} {kind : StorageKind} {err : Option DerivedError}

theorem topicCall_of_view {w : ℕ} {c : TopicCall} {out : Outcome} (hv : W.view S w τ = some v)
    (h : W.topicCall S w τ c = some (W', out)) :
    ∃ v', v.call (schemaOf S w v) c = some (v', out) ∧ W' = W.putView S w τ v' := by
  rcases topicCall_eq_some h with ⟨hnone, -⟩ | ⟨u, v', hu, hcall, rfl⟩
  · cases hv.symm.trans hnone
  · obtain rfl := Option.some.inj (hu.symm.trans hv)
    exact ⟨v', hcall, rfl⟩

/-- Writer `0` is writing the last ones of `rows` to topic `τ`, and is not in a row. -/
def Emitting (S : Setup) (τ : ℕ) (rows : List Row) (W : World) : Prop :=
  ∃ v, W.view S 0 τ = some v ∧ v.Emitting rows

/-- A row that does not go back in time is written. -/
theorem Emitting.emitRow (h : W.Emitting S τ rows) (ht : ∀ row ∈ rows, row.1 ≤ t)
    (hemit : W.emitRow S τ t val kind = some (W', err)) :
    err = none ∧ W'.Emitting S τ (rows ++ [VarValue.row kind (t, val)]) := by
  obtain ⟨v, hv, hv₀⟩ := h
  obtain ⟨⟨W₁, out⟩, hbegin, hrest⟩ := Option.bind_eq_some_iff.mp hemit
  obtain ⟨v₁, hcall, rfl⟩ := topicCall_of_view hv hbegin
  obtain ⟨rfl, hv₁⟩ := hv₀.beginRow ht hcall
  obtain ⟨W₂, hset, hrest⟩ := Option.bind_eq_some_iff.mp hrest
  have hopen : ∃ v₂, W₂.view S 0 τ = some v₂ ∧
      v₂.InRow rows t ((val.coerce kind).map (CellCall.set 0)).toList := by
    rw [writeVarValue] at hset
    split at hset
    · rename_i x hx
      obtain ⟨⟨W₃, out⟩, hx₃, rfl⟩ := Option.map_eq_some_iff.mp hset
      obtain ⟨v₂, hcall₂, rfl⟩ := topicCall_of_view (view_putView hv) hx₃
      rw [hx]
      exact ⟨v₂, view_putView (view_putView hv), hv₁.set List.not_mem_nil hcall₂⟩
    · rename_i hx
      obtain rfl := Option.some.inj hset
      rw [hx]
      exact ⟨v₁, view_putView hv, hv₁⟩
  obtain ⟨v₂, hview₂, hv₂⟩ := hopen
  obtain ⟨⟨W₃, out⟩, hfinish, heq⟩ := Option.map_eq_some_iff.mp hrest
  obtain ⟨v₃, hcall₃, rfl⟩ := topicCall_of_view hview₂ hfinish
  obtain ⟨rfl, hv₃⟩ := hv₂.finishRow hcall₃
  obtain ⟨rfl, rfl⟩ := Prod.mk.inj heq
  exact ⟨rfl, v₃, view_putView hview₂, hv₃⟩

/-! ### The commit at the end -/

/-- A flush of a topic that is there leaves nothing of it with the writer, and a flush of another
one brings nothing back. -/
theorem emptied_flushTopic {w : ℕ} (hτ : ((W.engines (S.home w)).topics τ).isSome)
    (h : σ = τ ∨ (W.writers w τ).Emptied) : ((W.flushTopic S w σ).1.writers w τ).Emptied := by
  by_cases hσ : σ = τ
  · subst hσ
    obtain ⟨s, hs⟩ := Option.isSome_iff_exists.mp hτ
    have hv : W.view S w σ = some ⟨s, W.writers w σ, W.nextChunkId⟩ := by
      rw [view, hs, Option.map_some]
    rw [flushTopic_of_some hv, putView_writers, setWriter_self]
    exact TopicView.emptied_flush _
  · rcases hv : W.view S w σ with _ | v
    · rw [flushTopic_of_none hv]
      exact h.resolve_left hσ
    · rw [flushTopic_of_some hv, putView_writers, setWriter_of_ne fun heq ↦ hσ heq.2.symm]
      exact h.resolve_left hσ

theorem emptied_flushTopics {w : ℕ} {order : List ℕ}
    (hτ : ((W.engines (S.home w)).topics τ).isSome) (h : τ ∈ order ∨ (W.writers w τ).Emptied) :
    ((collect (fun W σ ↦ W.flushTopic S w σ) W order).1.writers w τ).Emptied := by
  induction order generalizing W with
  | nil => exact h.resolve_left List.not_mem_nil
  | cons σ order ih =>
    refine ih ?_ ?_
    · rw [← Engine.mem_order, order_flushTopic, Engine.mem_order]
      exact hτ
    · rw [List.mem_cons, or_assoc] at h
      rcases h with hσ | hmem | hempty
      · exact .inr (emptied_flushTopic hτ (.inl hσ.symm))
      · exact .inl hmem
      · exact .inr (emptied_flushTopic hτ (.inr hempty))

theorem engines_takePendings {w : ℕ} {order : List ℕ} :
    (collect (fun W σ ↦ W.takePending w σ) W order).1.engines = W.engines := by
  induction order generalizing W with
  | nil => rfl
  | cons σ order ih => exact ih

/-- Then the topic has all rows. -/
theorem Emitting.commitAll (h : W.Emitting S τ rows) (hS : S.home 0 = 0) (walk : WalkOrder)
    {topics : List ℕ} (hτ : τ ∈ topics) :
    ∃ s, ((DataEngine.commitAll S walk W topics).engines 0).topics τ = some s ∧
      s.HoldsRows rows := by
  obtain ⟨v, hv, hemit⟩ := h
  obtain ⟨l, rfl, hline⟩ := hemit.line
  obtain ⟨hs, hwriter, -⟩ := view_eq_some hv
  have hmay : (W.writers 0 τ).MayFlush l := by
    intro b hb hrow
    rw [hwriter] at hb
    exact absurd hrow (Bool.eq_false_iff.mp (hemit.idle b hb))
  have hstart : W.Line InOneLine S 0 τ l [] := ⟨v.storage, hs, hwriter ▸ hline⟩
  have hflushed := hstart.flushAll InOneLine.rule (walk.arrange topics) (walk.arrange topics)
    fun _ ↦ hmay
  rw [List.nil_append] at hflushed
  obtain ⟨s, hs', hin⟩ := hflushed
  rw [hS] at hs'
  rw [← List.append_nil (W.flushAll S 0 _ _).2] at hin
  obtain ⟨s', hs'', hin'⟩ := Line.commitBatch InOneLine.rule hs' hin
  refine ⟨s', (congrArg (·.topics τ) setEngine_self).trans hs'', hin'.holdsRows ?_⟩
  refine emptied_flushTopics ?_ (.inl ((walk.perm topics).mem_iff.mpr hτ))
  rw [engines_takePendings, hs]
  rfl

/-! ### The beginning -/

theorem view_createWriter {s : TopicStorage} (hS : S.home 0 = 0)
    (hs : (W.engines 0).topics τ = some s) :
    (DataEngine.createWriter W).view S 0 τ = some ⟨s, {}, W.nextChunkId⟩ := by
  have hwriter : (DataEngine.createWriter W).writers 0 τ = {} := by
    rw [DataEngine.createWriter]
    dsimp only
    rw [Function.update_self]
  rw [view, hS, hwriter]
  exact congrArg (Option.map _) hs

/-- A new writer begins with the rows the topic has. -/
theorem emitting_createWriter {s : TopicStorage} (hS : S.home 0 = 0)
    (hs : (W.engines 0).topics τ = some s) (hordered : s.Ordered) (hrows : s.HoldsRows rows) :
    (DataEngine.createWriter W).Emitting S τ rows := by
  obtain ⟨parts, rfl, hparts⟩ := hrows
  refine ⟨_, view_createWriter hS hs, TopicView.fits_of_builder_eq_none rfl, hordered,
    ⟨fun b hb ↦ (by cases hb), fun chunk hchunk ↦ absurd hchunk List.not_mem_nil⟩,
    ⟨({} : Ledger).behind (parts.flatten ++ ([] : List (List Row)).flatten), ?_, parts, [], {}, rfl,
      hparts, .nil, .idle (TopicWriter.hasRows_empty rfl rfl), ?_⟩,
    fun b hb ↦ (by cases hb), fun b hb ↦ (by cases hb)⟩
  · simp
  · have hline : InLine s.sealedChunks none := ⟨hordered.chain, fun b hb ↦ by cases hb⟩
    simpa using hline

end World

end PlotJuggler
