import PlotJugglerCore.Lib.Runs
import PlotJugglerCore.Store.HeldRows

/-!
# What a caller has been told

A `Ledger` is the account of the calls of one writer on one topic: the rows that have been accepted,
and the row that was begun last, with the calls for its cells. It is written from the calls and from
what they return, never from what the writer does with them. `Books` are a world with a ledger for
each writer and topic.

`TopicWriter.Keeps` ties the two together. Behind every call a writer keeps the rows of its ledger,
except those that it has handed out, and an open row lies on top of a builder that was between two
rows. A call keeps that up if it sets no column twice in a row and leaves no column of a batch out;
a flush does if it does not seal the cells of an open row.
-/

namespace PlotJuggler

open TopicChunkBuilder (CellCall rowCell)

/-! ## Ledgers -/

structure Ledger where
  /-- The rows accepted so far. -/
  rows : List Row := []
  /-- The timestamp of the row begun last. -/
  timestamp : Timestamp := 0
  /-- The calls for its cells. -/
  cells : List CellCall := []

namespace Ledger

/-- A call that went through. -/
def enter (l : Ledger) : TopicCall → Ledger
  | .beginRow t => { l with timestamp := t, cells := [] }
  | .set i x => { l with cells := l.cells ++ [.set i x] }
  | .setNull i => { l with cells := l.cells ++ [.setNull i] }
  | .finishRow => { l with rows := l.rows ++ [(l.timestamp, rowCell l.cells)] }
  | .appendColumns ts batch => { l with rows := l.rows ++ batchRows ts batch }
  | _ => l

def after (l : Ledger) (c : TopicCall) (out : Outcome) : Ledger :=
  if out.isOk then l.enter c else l

/-- Rows in front that are out of the writer's hands. -/
def behind (l : Ledger) (rows : List Row) : Ledger := { l with rows := rows ++ l.rows }

variable {l : Ledger} {rows rows' : List Row} {c : TopicCall} {out : Outcome}

@[simp] theorem behind_rows : (l.behind rows).rows = rows ++ l.rows := rfl

@[simp] theorem behind_cells : (l.behind rows).cells = l.cells := rfl

@[simp] theorem behind_nil : l.behind [] = l := rfl

theorem behind_behind : (l.behind rows).behind rows' = l.behind (rows' ++ rows) := by
  exact congrArg (fun r ↦ (⟨r, l.timestamp, l.cells⟩ : Ledger)) (List.append_assoc ..).symm

theorem after_behind : (l.behind rows).after c out = (l.after c out).behind rows := by
  rw [after, after]
  split_ifs
  · cases c with
    | finishRow =>
      exact congrArg (fun r ↦ (⟨r, l.timestamp, l.cells⟩ : Ledger)) (List.append_assoc ..)
    | appendColumns ts batch =>
      exact congrArg (fun r ↦ (⟨r, l.timestamp, l.cells⟩ : Ledger)) (List.append_assoc ..)
    | _ => rfl
  · rfl

theorem after_of_enter (h : l.enter c = l) : l.after c out = l := by
  rw [after, h, ite_self]

/-- Accepted rows stay. -/
theorem rows_prefix_after (l : Ledger) (c : TopicCall) (out : Outcome) :
    l.rows <+: (l.after c out).rows := by
  rw [after]
  split_ifs
  · cases c with
    | finishRow => exact List.prefix_append _ _
    | appendColumns ts batch => exact List.prefix_append _ _
    | _ => exact List.prefix_rfl
  · exact List.prefix_rfl

end Ledger

/-! ## Books -/

structure Books where
  world : World
  ledger : ℕ → ℕ → Ledger := fun _ _ ↦ {}

namespace Books

/-- The ledgers behind a call. -/
def enter (ledger : ℕ → ℕ → Ledger) (c : Call) (out : Outcome) : ℕ → ℕ → Ledger :=
  match c with
  | .topic w τ c =>
    Function.update ledger w (Function.update (ledger w) τ ((ledger w τ).after c out))
  | _ => ledger

def step (S : Setup) (B : Books) (c : Call) : Option (Books × Outcome) :=
  (B.world.step S c).map fun r ↦ (⟨r.1, enter B.ledger c r.2⟩, r.2)

/-- Calls one after the other, in a world where nothing has been accepted. -/
def run (S : Setup) (W : World) (calls : List Call) : Option Books :=
  Runs.run (step S) { world := W } calls

variable {S : Setup} {B B' : Books} {c : Call} {out : Outcome} {w τ : ℕ} {tc : TopicCall}

theorem step_eq_some (h : B.step S c = some (B', out)) :
    B.world.step S c = some (B'.world, out) ∧ B'.ledger = enter B.ledger c out := by
  obtain ⟨⟨W, out'⟩, hW, heq⟩ := Option.map_eq_some_iff.mp h
  obtain ⟨rfl, rfl⟩ := Prod.mk.inj heq
  exact ⟨hW, rfl⟩

theorem enter_self {ledger : ℕ → ℕ → Ledger} :
    enter ledger (.topic w τ tc) out w τ = (ledger w τ).after tc out := by
  simp [enter]

theorem enter_of_ne {ledger : ℕ → ℕ → Ledger} {w' τ' : ℕ} (h : ¬(w' = w ∧ τ' = τ)) :
    enter ledger (.topic w τ tc) out w' τ' = ledger w' τ' := by
  rw [enter]
  by_cases hw : w' = w
  · subst hw
    have hτ : τ' ≠ τ := fun hτ ↦ h ⟨rfl, hτ⟩
    simp [hτ]
  · simp [hw]

theorem rows_prefix_enter (ledger : ℕ → ℕ → Ledger) (c : Call) (out : Outcome) (w τ : ℕ) :
    (ledger w τ).rows <+: (enter ledger c out w τ).rows := by
  cases c with
  | topic w' τ' tc =>
    by_cases h : w = w' ∧ τ = τ'
    · obtain ⟨rfl, rfl⟩ := h
      rw [enter_self]
      exact Ledger.rows_prefix_after _ tc out
    · rw [enter_of_ne h]
  | _ => exact List.prefix_rfl

end Books

/-! ## Keeping the rows of a ledger -/

/-- A builder with an open row. -/
def TopicChunkBuilder.openRow (b : TopicChunkBuilder) (t : Timestamp) (calls : List CellCall) :
    Option TopicChunkBuilder :=
  (b.beginRow t).bind fun b ↦ calls.foldlM TopicChunkBuilder.runCellCall b

/-- The writer keeps the rows of the ledger, and an open row is the one begun last. -/
inductive TopicWriter.Keeps (tw : TopicWriter) (l : Ledger) : Prop
  | idle (h : tw.HasRows l.rows)
  | inRow {b₀ b : TopicChunkBuilder} (hb : tw.builder = some b)
    (hrow : b₀.openRow l.timestamp l.cells = some b) (hnodup : (l.cells.map CellCall.col).Nodup)
    (h : ({ tw with builder := some b₀ } : TopicWriter).HasRows l.rows)

/-- A flush seals no cell of an open row. -/
def TopicWriter.MayFlush (tw : TopicWriter) (l : Ledger) : Prop :=
  ∀ b ∈ tw.builder, b.rowInProgress = true → 0 < b.rowCount → l.cells = []

instance (tw : TopicWriter) (l : Ledger) : Decidable (tw.MayFlush l) :=
  inferInstanceAs (Decidable (∀ b ∈ tw.builder, _))

namespace TopicChunkBuilder

variable {b b' : TopicChunkBuilder} {t : Timestamp} {calls : List CellCall}

theorem openRow_eq_some (h : b.openRow t calls = some b') : b.rowInProgress = false ∧
    b' = { b with
      columns := b'.columns
      rowInProgress := true
      currentTimestamp := t
      lastTimestamp := t } := by
  obtain ⟨b₁, hbegin, hcalls⟩ := Option.bind_eq_some_iff.mp h
  obtain ⟨hidle, -, rfl⟩ := beginRow_eq_some hbegin
  rw [foldlM_runCellCall rfl] at hcalls
  exact ⟨hidle, (foldlM_updateColumn hcalls).1⟩

theorem rowInProgress_openRow (h : b.openRow t calls = some b') : b'.rowInProgress = true := by
  rw [(openRow_eq_some h).2]

theorem rowCount_openRow (h : b.openRow t calls = some b') : b'.rowCount = b.rowCount := by
  rw [(openRow_eq_some h).2]

/-- A row without cells leaves nothing in a chunk. -/
theorem sealChunk_openRow (h : b.openRow t [] = some b') (id : ℕ) :
    b'.sealChunk id = b.sealChunk id := by
  obtain ⟨b₁, hbegin, hcalls⟩ := Option.bind_eq_some_iff.mp h
  obtain ⟨-, -, rfl⟩ := beginRow_eq_some hbegin
  obtain rfl := Option.some.inj hcalls
  rfl

theorem openRow_append {k : CellCall} (h : b.openRow t calls = some b') :
    b.openRow t (calls ++ [k]) = b'.runCellCall k := by
  obtain ⟨b₁, hbegin, hcalls⟩ := Option.bind_eq_some_iff.mp h
  rw [openRow, hbegin, Option.bind_some, List.foldlM_append, hcalls]
  exact bind_pure (b'.runCellCall k)

end TopicChunkBuilder

theorem TopicWriter.Keeps.currentTimestamp {tw : TopicWriter} {l : Ledger} {b : TopicChunkBuilder}
    (h : tw.Keeps l) (hb : tw.builder = some b) (hrow : b.rowInProgress = true) :
    b.currentTimestamp = l.timestamp := by
  cases h with
  | idle h =>
    rw [h.idle hb] at hrow
    cases hrow
  | inRow hb' hopen hnodup h =>
    obtain rfl := Option.some.inj (hb.symm.trans hb')
    rw [(TopicChunkBuilder.openRow_eq_some hopen).2]

namespace TopicView

variable {schema : Option TypeTreeNode} {v v' : TopicView} {b : TopicChunkBuilder} {l : Ledger}
  {ts : List Timestamp} {batch : List ColumnData}

/-! ### Calls inside a row -/

/-- No batch goes in while a row is open. -/
theorem appendLoop_of_inRow (hv : v.Fits) (hb : v.writer.builder = some b)
    (hrow : b.rowInProgress = true) {fuel o : ℕ} (ho : o < ts.length) :
    appendLoop schema ts batch fuel o v = none := by
  have hcurrent : v.currentBuilder schema = b := by rw [currentBuilder, hb, Option.getD_some]
  rcases fuel with _ | fuel
  · rw [appendLoop, if_pos ho]
  · have hslice : v.appendSlice schema ts batch o (v.batchSize schema ts.length o) = none := by
      rw [appendSlice, Option.map_eq_none_iff, hcurrent, Option.eq_none_iff_forall_ne_some]
      intro b' hb'
      obtain ⟨hafter, -, -⟩ := TopicChunkBuilder.runBatch_eq_some (hv b hb).pending hb'
      rw [hafter.notInProgress] at hrow
      cases hrow
    rw [appendLoop, if_pos ho, hslice, Option.bind_none]

/-! ### Keeping -/

theorem keeps_getOrCreateBuilder (h : v.writer.Keeps l) :
    (v.getOrCreateBuilder schema).writer.Keeps l := by
  cases h with
  | idle h => exact .idle (hasRows_getOrCreateBuilder h)
  | inRow hb hrow hnodup h =>
    rw [getOrCreateBuilder_of_some hb]
    exact .inRow hb hrow hnodup h

theorem keeps_beginRow {t : Timestamp} {r : Except WriteError Unit} (h : v.writer.Keeps l)
    (hcall : v.beginRow schema t = some (v', r)) :
    v'.writer.Keeps (l.after (.beginRow t) (.ofUnit r)) := by
  rcases beginRow_eq_some hcall with ⟨e, rfl, rfl⟩ | ⟨rfl, b, hb, rfl⟩
  · exact keeps_getOrCreateBuilder h
  · cases h with
    | idle h =>
      have hopen : TopicChunkBuilder.openRow (v.currentBuilder schema) t [] = some b :=
        Option.bind_eq_some_iff.mpr ⟨b, hb, rfl⟩
      exact .inRow rfl hopen List.nodup_nil
        ((hasRows_getOrCreateBuilder h).mono getOrCreateBuilder_builder.symm rfl List.prefix_rfl)
    | inRow hb' hrow hnodup h =>
      -- a second row cannot be begun
      rw [currentBuilder, hb', Option.getD_some] at hb
      have hidle := (TopicChunkBuilder.beginRow_eq_some hb).1
      rw [TopicChunkBuilder.rowInProgress_openRow hrow] at hidle
      cases hidle

theorem keeps_cell {k : CellCall} (h : v.writer.Keeps l)
    (hnew : k.col ∉ l.cells.map CellCall.col)
    (hcall : (v.writer.builder.bind fun b ↦ (b.runCellCall k).map v.setBuilder) = some v') :
    v'.writer.Keeps { l with cells := l.cells ++ [k] } := by
  obtain ⟨b, hb, hk⟩ := Option.bind_eq_some_iff.mp hcall
  obtain ⟨b', hb', rfl⟩ := Option.map_eq_some_iff.mp hk
  cases h with
  | idle h =>
    have hrow := (TopicChunkBuilder.runCellCall_eq_some hb').1
    rw [h.idle hb] at hrow
    cases hrow
  | inRow hb₁ hrow hnodup h =>
    obtain rfl := Option.some.inj (hb.symm.trans hb₁)
    refine .inRow rfl ((TopicChunkBuilder.openRow_append hrow).trans hb') ?_ h
    rw [List.map_append, List.map_singleton]
    exact hnodup.append (List.nodup_singleton _) (List.disjoint_singleton.mpr hnew)

theorem keeps_finishRow {r : Except WriteError Unit} (h : v.writer.Keeps l)
    (hcall : v.finishRow = some (v', r)) : v'.writer.Keeps (l.after .finishRow (.ofUnit r)) := by
  rcases finishRow_eq_some hcall with ⟨e, rfl, rfl⟩ | ⟨rfl, b, b', hb, hb', rfl⟩
  · exact h
  · cases h with
    | idle h =>
      have hrow := (TopicChunkBuilder.finishRow_eq_some hb').1
      rw [h.idle hb] at hrow
      cases hrow
    | inRow hb₁ hrow hnodup h =>
      obtain rfl := Option.some.inj (hb.symm.trans hb₁)
      rename_i b₀
      have hrun : b₀.runRow l.timestamp l.cells = some b' :=
        Option.bind_eq_some_iff.mpr ⟨b, hrow, hb'⟩
      have hrows : ((v.setBuilder b₀).setBuilder b').writer.HasRows
          (l.rows ++ [(l.timestamp, rowCell l.cells)]) :=
        hasRows_setBuilder h rfl fun cols opened _ hopened ↦ hopened.runRow hnodup hrun
      exact .idle (hasRows_putBack hrows)

theorem keeps_appendColumns {r : Except WriteError Unit} (hv : v.Fits) (h : v.writer.Keeps l)
    (hbatch : r = .ok () → ts ≠ [] → Completes schema v ts.length batch)
    (hcall : v.appendColumns schema ts batch = some (v', r)) :
    v'.writer.Keeps (l.after (.appendColumns ts batch) (.ofUnit r)) := by
  cases h with
  | idle h =>
    rcases hasRows_appendColumns hv h hcall with ⟨e, rfl, h'⟩ | ⟨rfl, h'⟩
    · exact .idle h'
    · exact .idle (h' (hbatch rfl))
  | inRow hb hrow hnodup h =>
    have hsame : v.getOrCreateBuilder schema = v := getOrCreateBuilder_of_some hb
    rcases appendColumns_eq_some hcall with ⟨e, rfl, hv'⟩ | ⟨rfl, rfl, rfl⟩ | ⟨rfl, hne, -, hloop⟩
    · obtain rfl : v' = v := hv'.elim id (hsame ▸ ·)
      exact .inRow hb hrow hnodup h
    · refine .inRow hb hrow hnodup ?_
      show TopicWriter.HasRows _ (l.rows ++ batchRows [] batch)
      rwa [batchRows, List.zipIdx_nil, List.map_nil, List.append_nil]
    · rw [hsame, appendLoop_of_inRow hv hb (TopicChunkBuilder.rowInProgress_openRow hrow)
        (List.length_pos_iff.mpr hne)] at hloop
      cases hloop

theorem keptByGrowth_keeps (schema : Option TypeTreeNode) (l : Ledger) :
    KeptByGrowth schema fun v ↦ v.writer.Keeps l where
  load v h := by
    cases h with
    | idle h => exact .idle (hasRows_ensureColsLoaded schema h)
    | inRow hb hrow hnodup h =>
      refine .inRow (by rw [ensureColsLoaded_builder, hb]) hrow hnodup ?_
      exact h.mono rfl ensureColsLoaded_pending (prefix_ensureColsLoaded schema v)
  close v hidle h := by
    cases h with
    | idle h => exact .idle (hasRows_sealBeforeLayoutChange h)
    | inRow hb hrow hnodup h =>
      rw [isRowInProgress, hb] at hidle
      exact absurd (TopicChunkBuilder.rowInProgress_openRow hrow) (Bool.eq_false_iff.mp hidle)
  grow v cols hcols h := by
    cases h with
    | idle h => exact .idle (hasRows_growColumns h hcols)
    | inRow hb hrow hnodup h => exact .inRow hb hrow hnodup (h.mono rfl rfl hcols)
  note _ _ _ h := h

/-- The condition on a call: it sets no column twice in a row, and a batch has all columns. -/
def Aligns (schema : Option TypeTreeNode) (v : TopicView) (l : Ledger) (c : TopicCall)
    (out : Outcome) : Prop :=
  match c with
  | .set i _ => i ∉ l.cells.map CellCall.col
  | .setNull i => i ∉ l.cells.map CellCall.col
  | .appendColumns ts batch => out.isOk → ts ≠ [] → Completes schema v ts.length batch
  | _ => True

theorem keeps_call {c : TopicCall} {out : Outcome} (hv : v.Fits) (h : v.writer.Keeps l)
    (hc : v.Aligns schema l c out) (hcall : v.call schema c = some (v', out)) :
    v'.writer.Keeps (l.after c out) := by
  cases c with
  | beginRow t =>
    obtain ⟨p, hp, heq⟩ := Option.map_eq_some_iff.mp hcall
    obtain ⟨rfl, rfl⟩ := Prod.mk.inj heq
    exact keeps_beginRow h hp
  | set i x =>
    obtain ⟨u, hu, heq⟩ := Option.map_eq_some_iff.mp hcall
    obtain ⟨rfl, rfl⟩ := Prod.mk.inj heq
    exact keeps_cell (k := .set i x) h hc hu
  | setNull i =>
    obtain ⟨u, hu, heq⟩ := Option.map_eq_some_iff.mp hcall
    obtain ⟨rfl, rfl⟩ := Prod.mk.inj heq
    exact keeps_cell (k := .setNull i) h hc hu
  | finishRow =>
    obtain ⟨p, hp, heq⟩ := Option.map_eq_some_iff.mp hcall
    obtain ⟨rfl, rfl⟩ := Prod.mk.inj heq
    exact keeps_finishRow h hp
  | appendColumns ts batch =>
    obtain ⟨⟨u, r⟩, hp, heq⟩ := Option.map_eq_some_iff.mp hcall
    obtain ⟨rfl, rfl⟩ := Prod.mk.inj heq
    exact keeps_appendColumns hv h (fun hok ↦ hc (by rw [hok]; rfl)) hp
  | resolveField path =>
    obtain ⟨rfl, rfl⟩ := Prod.mk.inj (Option.some.inj hcall)
    rw [Ledger.after_of_enter rfl]
    exact keeps_getOrCreateBuilder h
  | ensureColumn path type =>
    obtain ⟨p, hp, heq⟩ := Option.map_eq_some_iff.mp hcall
    obtain ⟨rfl, rfl⟩ := Prod.mk.inj heq
    rw [Ledger.after_of_enter rfl]
    exact (keptByGrowth_keeps _ l).ensureColumn hp h
  | expandArray path n type =>
    obtain ⟨p, hp, heq⟩ := Option.map_eq_some_iff.mp hcall
    obtain ⟨rfl, rfl⟩ := Prod.mk.inj heq
    rw [Ledger.after_of_enter rfl]
    exact (keptByGrowth_keeps _ l).expandArray hp h

end TopicView

/-! ### Handing out -/

/-- Writer `tw` has handed out `chunks` and is `tw'` now: the rows in the chunks were the first of
those it kept. -/
def TopicWriter.HandsOut (tw : TopicWriter) (l : Ledger) (chunks : List TopicChunk)
    (tw' : TopicWriter) : Prop :=
  ∃ parts l', l = l'.behind parts.flatten ∧
    List.Forall₂ (fun part chunk ↦ chunk.HasRows tw.columns part) parts chunks ∧ tw'.Keeps l'

namespace TopicWriter

variable {tw tw' : TopicWriter} {l : Ledger}

theorem MayFlush.of_builder (h : tw.MayFlush l)
    (hb : tw'.builder = none ∨ tw'.builder = tw.builder) : tw'.MayFlush l := by
  intro b hb'
  rcases hb with hb | hb <;> rw [hb] at hb'
  · cases hb'
  · exact h b hb'

theorem Keeps.takePending (h : tw.Keeps l) : tw.HandsOut l tw.pending { tw with pending := [] } := by
  cases h with
  | idle h =>
    obtain ⟨parts, rest, hrows, hparts, hrest⟩ := h.takePending
    refine ⟨parts, { l with rows := rest }, ?_, hparts, .idle hrest⟩
    rw [Ledger.behind, ← hrows]
  | inRow hb hrow hnodup h =>
    obtain ⟨parts, rest, hrows, hparts, hrest⟩ := h.takePending
    refine ⟨parts, { l with rows := rest }, ?_, hparts, .inRow hb hrow hnodup hrest⟩
    rw [Ledger.behind, ← hrows]

end TopicWriter

theorem TopicView.keeps_flush {v : TopicView} {l : Ledger} (h : v.writer.Keeps l)
    (hmay : v.writer.MayFlush l) : v.writer.HandsOut l v.flush.2 v.flush.1.writer := by
  cases h with
  | idle h =>
    obtain ⟨parts, rest, hrows, hparts, hrest⟩ := TopicView.hasRows_flush h
    refine ⟨parts, { l with rows := rest }, ?_, hparts, .idle hrest⟩
    rw [Ledger.behind, ← hrows]
  | inRow hb hrow hnodup h =>
    rename_i b₀ b
    rcases v.flush_cases with ⟨b', hb', hpos, hnone, hout⟩ | ⟨-, hsame, hout⟩
    · -- the open row has no cells, so the chunk is the one of the builder before it
      obtain rfl := Option.some.inj (hb.symm.trans hb')
      have hcells := hmay b hb (TopicChunkBuilder.rowInProgress_openRow hrow) hpos
      rw [hcells] at hrow
      have hpos₀ : 0 < b₀.rowCount := TopicChunkBuilder.rowCount_openRow hrow ▸ hpos
      obtain ⟨parts, rest, hrows, hparts, hrest⟩ :=
        TopicView.hasRows_flush (v := v.setBuilder b₀) h
      have hflush : (v.setBuilder b₀).flush.2 = v.flush.2 := by
        rw [hout, TopicChunkBuilder.sealChunk_openRow hrow, TopicView.flush]
        simp [TopicView.setBuilder, hpos₀]
      have hbuilder : (v.setBuilder b₀).flush.1.writer.builder = none := by
        rw [TopicView.flush]
        simp [TopicView.setBuilder, hpos₀]
      rw [hflush] at hparts
      refine ⟨parts, { l with rows := rest }, ?_, hparts, .idle ?_⟩
      · rw [Ledger.behind, ← hrows]
      · refine hrest.mono (hnone.trans hbuilder.symm) ?_ ?_
        · rw [TopicView.flush_pending, TopicView.flush_pending]
        · rw [TopicView.flush_columns, TopicView.flush_columns]
          exact List.prefix_rfl
    · obtain ⟨parts, rest, hrows, hparts, hrest⟩ := h.takePending
      refine ⟨parts, { l with rows := rest }, ?_, hout ▸ hparts,
        .inRow (hsame.trans hb) hrow hnodup ?_⟩
      · rw [Ledger.behind, ← hrows]
      · refine hrest.mono rfl TopicView.flush_pending ?_
        rw [TopicView.flush_columns]

end PlotJuggler
