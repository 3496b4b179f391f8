import PlotJugglerCore.Store.Expansion
import PlotJugglerCore.Store.Splitting

/-!
# The rows a writer holds

A row has a timestamp and, by position, its cells. What a writer has accepted and not handed out yet
lies in its pending chunks and in its builder (`TopicWriter.HasRows`): behind `finishRow` and behind
a batch with all columns there are more rows, and whatever else a writer does moves rows from the
builder to a chunk at most.
-/

namespace PlotJuggler

open TopicChunkBuilder (CellCall BulkCall)

/-! ## Rows -/

/-- A row: its timestamp, and its cells by position. -/
abbrev Row := Timestamp × (ℕ → Option Value)

/-- The cells a batch has for column `i`. -/
def givenCells (batch : List ColumnData) (i : ℕ) : List (Option Value) :=
  ((batch.find? fun col ↦ col.colIndex = i).map fun col ↦ batchCells col.data col.bitmap).getD []

/-- The rows of a batch. -/
def batchRows (ts : List Timestamp) (batch : List ColumnData) : List Row :=
  ts.zipIdx.map fun p ↦ (p.1, fun i ↦ (givenCells batch i)[p.2]?.join)

/-- A batch with data for each of `n` columns once, in any order. -/
structure Complete (n : ℕ) (batch : List ColumnData) : Prop where
  once : (batch.map (·.colIndex)).Perm (List.range n)
  wellFormed : ∀ col ∈ batch, col.data.WellFormed

/-- The builder holds `rows`, in the columns `cols`. -/
structure TopicChunkBuilder.HasRows (b : TopicChunkBuilder) (cols : List ColumnDescriptor)
    (rows : List Row) : Prop where
  aligned : ∃ hist, b.Aligned cols hist (rows.map Prod.fst) ∧
    ∀ i d, cols[i]? = some d → (hist i).map (Entry.cell d.kind) = rows.map (·.2 i)
  outside : ∀ row ∈ rows, ∀ i, cols.length ≤ i → row.2 i = none

/-- The chunk was sealed with `rows`, in columns the writer has. -/
def TopicChunk.HasRows (chunk : TopicChunk) (columns : List ColumnDescriptor) (rows : List Row) :
    Prop :=
  ∃ (b : TopicChunkBuilder) (id : ℕ) (cols : List ColumnDescriptor),
    chunk = b.sealChunk id ∧ cols <+: columns ∧ b.HasRows cols rows

/-- The open builder holds `rows`. -/
def TopicWriter.Holds (tw : TopicWriter) (rows : List Row) : Prop :=
  match tw.builder with
  | some b => ∃ cols, cols <+: tw.columns ∧ b.HasRows cols rows
  | none => rows = []

/-- The writer holds `rows`: those of its pending chunks, and then those of the builder. -/
def TopicWriter.HasRows (tw : TopicWriter) (rows : List Row) : Prop :=
  ∃ parts opened, rows = parts.flatten ++ opened ∧
    List.Forall₂ (fun part chunk ↦ chunk.HasRows tw.columns part) parts tw.pending ∧
    tw.Holds opened

theorem map_fst_batchRows (ts : List Timestamp) (batch : List ColumnData) :
    (batchRows ts batch).map Prod.fst = ts := by
  rw [batchRows, List.map_map]
  exact List.zipIdx_map_fst 0 ts

theorem map_cell_batchRows {ts : List Timestamp} {batch : List ColumnData} {i : ℕ}
    (h : (givenCells batch i).length = ts.length) :
    (batchRows ts batch).map (·.2 i) = givenCells batch i := by
  apply List.ext_getElem
  · simp [batchRows, h]
  · intro j hj hj'
    simp [batchRows, hj']

namespace Complete

variable {n : ℕ} {batch : List ColumnData}

theorem nodup (h : Complete n batch) : (batch.map (·.colIndex)).Nodup :=
  h.once.nodup_iff.mpr List.nodup_range

theorem givenCells_of_le (h : Complete n batch) {i : ℕ} (hi : n ≤ i) :
    givenCells batch i = [] := by
  have hnone : batch.find? (fun col ↦ col.colIndex = i) = none := by
    rw [List.find?_eq_none]
    intro col hcol
    have hlt := List.mem_range.mp (h.once.mem_iff.mp (List.mem_map_of_mem hcol))
    simp only [decide_eq_true_eq]
    omega
  rw [givenCells, hnone]
  rfl

/-- What a checked batch has for a column, and the calls of a round for it. -/
theorem exists_supplies (h : Complete n batch) {total o m : ℕ}
    (hcheck : TopicView.checkColumns total batch = none) (ho : o + m ≤ total) {i : ℕ} (hi : i < n) :
    ∃ col : ColumnData, givenCells batch i = batchCells col.data col.bitmap ∧
      col.data.rowCount = total ∧ (∀ s ∈ col.bitmap, s.bitLength = total) ∧
      TopicChunkBuilder.Supplies (TopicView.sliceCalls batch o m) m i (col.data.subspan o m)
        (col.bitmap.map (·.subspan o m)) := by
  have hmem : i ∈ batch.map (·.colIndex) := h.once.mem_iff.mpr (List.mem_range.mpr hi)
  obtain ⟨col, hcol, rfl⟩ := List.mem_map.mp hmem
  obtain ⟨hrows, hbits⟩ := TopicView.of_checkColumns hcheck col hcol
  refine ⟨col, ?_, hrows, hbits, ?_, ColumnSpan.wellFormed_subspan (h.wellFormed col hcol),
    ColumnSpan.rowCount_subspan (hrows.symm ▸ ho), fun s hs ↦ ?_⟩
  · rw [givenCells, find?_colIndex h.nodup hcol]
    rfl
  · rw [TopicView.filter_sliceCalls, TopicView.filter_colIndex_eq h.nodup hcol,
      List.flatMap_singleton, TopicView.columnCalls]
  · obtain ⟨s₀, -, rfl⟩ := Option.map_eq_some_iff.mp hs
    rfl

end Complete

namespace TopicChunkBuilder

variable {b b' : TopicChunkBuilder} {cols : List ColumnDescriptor} {rows : List Row}

theorem hasRows_new (topicId schemaId : ℕ) (cols : List ColumnDescriptor) (maxRows : ℕ) :
    (new topicId schemaId cols maxRows).HasRows cols [] :=
  ⟨⟨fun _ ↦ [], aligned_new topicId schemaId cols maxRows, fun _ _ _ ↦ rfl⟩,
    fun _ hrow ↦ absurd hrow List.not_mem_nil⟩

theorem HasRows.rowCount (h : b.HasRows cols rows) : b.rowCount = rows.length := by
  obtain ⟨hist, al, -⟩ := h.aligned
  rw [al.rowCount, List.length_map]

theorem HasRows.idle (h : b.HasRows cols rows) : b.rowInProgress = false := by
  obtain ⟨hist, al, -⟩ := h.aligned
  exact al.idle

/-- Updates that go through are about columns that are there. -/
theorem col_lt_of_foldlM {κ : Type*} {col : κ → ℕ} {f : κ → ColumnBuilder → Option ColumnBuilder}
    {calls : List κ} {b b' : TopicChunkBuilder}
    (h : calls.foldlM (fun b k ↦ b.updateColumn (col k) (f k)) b = some b') :
    ∀ k ∈ calls, col k < b.columns.length := by
  induction calls generalizing b with
  | nil => exact fun k hk ↦ absurd hk List.not_mem_nil
  | cons k calls ih =>
    obtain ⟨b₁, hstep, hrest⟩ := Option.bind_eq_some_iff.mp h
    obtain ⟨c, c', hc, -, rfl⟩ := updateColumn_eq_some hstep
    refine List.forall_mem_cons.mpr ⟨(List.getElem?_eq_some_iff.mp hc).1, fun k' hk' ↦ ?_⟩
    simpa using ih hrest k' hk'

theorem col_lt_of_runRow {t : Timestamp} {calls : List CellCall} (h : b.runRow t calls = some b') :
    ∀ k ∈ calls, k.col < b.columns.length := by
  obtain ⟨b₂, hmid, -⟩ := Option.bind_eq_some_iff.mp h
  obtain ⟨b₁, hbegin, hcalls⟩ := Option.bind_eq_some_iff.mp hmid
  obtain ⟨-, -, rfl⟩ := beginRow_eq_some hbegin
  rw [foldlM_runCellCall rfl] at hcalls
  have hlt := col_lt_of_foldlM hcalls
  exact hlt

/-- A row behind the rows there are. -/
theorem HasRows.runRow (h : b.HasRows cols rows) {t : Timestamp} {calls : List CellCall}
    (hnodup : (calls.map CellCall.col).Nodup) (hrun : b.runRow t calls = some b') :
    b'.HasRows cols (rows ++ [(t, rowCell calls)]) := by
  obtain ⟨hist, al, hcells⟩ := h.aligned
  obtain ⟨al', hnew⟩ := al.append (a := .row t calls) hnodup hrun
  refine ⟨⟨_, by simpa [Append.stamps] using al', fun i d hd ↦ ?_⟩, fun row hrow i hi ↦ ?_⟩
  · rw [List.map_append, hcells i d hd, hnew i d hd, List.map_append]
    rfl
  · rcases List.mem_append.mp hrow with hrow | hrow
    · exact h.outside row hrow i hi
    · rw [List.mem_singleton.mp hrow]
      -- no call is about a column that is not there
      have hnone : calls.find? (fun k ↦ k.col = i) = none := by
        rw [List.find?_eq_none]
        intro k hk
        have hlt := col_lt_of_runRow hrun k hk
        rw [al.tracks.length] at hlt
        simp only [decide_eq_true_eq]
        omega
      exact congrArg (·.bind CellCall.cell) hnone

/-- A slice of a batch behind the rows there are. -/
theorem HasRows.runBatch (h : b.HasRows cols rows) {ts : List Timestamp} {batch : List ColumnData}
    (hbatch : Complete cols.length batch) (hcheck : TopicView.checkColumns ts.length batch = none)
    {o n : ℕ} (ho : o + n ≤ ts.length)
    (hrun : b.runBatch ((ts.drop o).take n) (TopicView.sliceCalls batch o n) = some b') :
    b'.HasRows cols (rows ++ ((batchRows ts batch).drop o).take n) := by
  obtain ⟨hist, al, hcells⟩ := h.aligned
  have hn : ((ts.drop o).take n).length = n := by
    rw [List.length_take, List.length_drop]
    omega
  have hsup := fun i (hi : i < cols.length) ↦ hbatch.exists_supplies hcheck ho hi
  have hwf : TopicChunkBuilder.Append.WellFormed cols.length
      (.batch ((ts.drop o).take n) (TopicView.sliceCalls batch o n)) := by
    intro i hi
    obtain ⟨col, -, -, -, hs⟩ := hsup i hi
    rw [hn]
    exact ⟨_, _, hs⟩
  obtain ⟨al', hnew⟩ := al.append hwf hrun
  have hstamps : (((batchRows ts batch).drop o).take n).map Prod.fst = (ts.drop o).take n := by
    rw [List.map_take, List.map_drop, map_fst_batchRows]
  refine ⟨⟨_, by rw [List.map_append, hstamps]; exact al', fun i d hd ↦ ?_⟩, fun row hrow i hi ↦ ?_⟩
  · obtain ⟨col, hcol, hrows, hbits, hs⟩ := hsup i (List.getElem?_eq_some_iff.mp hd).1
    have hcells' : TopicChunkBuilder.Append.cells (.batch ((ts.drop o).take n)
        (TopicView.sliceCalls batch o n)) i = ((givenCells batch i).drop o).take n := by
      rw [hcol]
      exact hs.suppliedCells.trans (batchCells_subspan (hrows.symm ▸ ho)
        fun s hs ↦ (hbits s hs).trans hrows.symm)
    have hlength : (givenCells batch i).length = ts.length := by
      rw [hcol, ← map_cell_batchEntries, List.length_map,
        ColumnBuilder.length_batchEntries fun s hs ↦ (hbits s hs).trans hrows.symm, hrows]
    rw [List.map_append, hcells i d hd, hnew i d hd, hcells', List.map_append, List.map_take,
      List.map_drop, map_cell_batchRows hlength]
  · rcases List.mem_append.mp hrow with hrow | hrow
    · exact h.outside row hrow i hi
    · obtain ⟨p, -, rfl⟩ := List.mem_map.mp (List.mem_of_mem_drop (List.mem_of_mem_take hrow))
      show (givenCells batch i)[p.2]?.join = none
      rw [hbatch.givenCells_of_le hi]
      rfl

end TopicChunkBuilder

/-! ### The rows of a writer -/

namespace TopicWriter

variable {tw tw' : TopicWriter} {rows : List Row}

theorem hasRows_empty (hb : tw.builder = none) (hp : tw.pending = []) : tw.HasRows [] := by
  refine ⟨[], [], rfl, by rw [hp]; exact .nil, ?_⟩
  rw [Holds, hb]

/-- More columns make no difference to the rows. -/
theorem HasRows.mono (h : tw.HasRows rows) (hb : tw'.builder = tw.builder)
    (hp : tw'.pending = tw.pending) (hcols : tw.columns <+: tw'.columns) : tw'.HasRows rows := by
  obtain ⟨parts, opened, rfl, hparts, hopened⟩ := h
  refine ⟨parts, opened, rfl, ?_, ?_⟩
  · rw [hp]
    exact hparts.imp fun part chunk ⟨b, id, cols, hchunk, hpre, hb⟩ ↦
      ⟨b, id, cols, hchunk, hpre.trans hcols, hb⟩
  · rw [Holds, hb]
    rw [Holds] at hopened
    split at hopened
    · obtain ⟨cols, hpre, hrows⟩ := hopened
      exact ⟨cols, hpre.trans hcols, hrows⟩
    · exact hopened

theorem HasRows.idle (h : tw.HasRows rows) {b : TopicChunkBuilder} (hb : tw.builder = some b) :
    b.rowInProgress = false := by
  obtain ⟨parts, opened, -, -, hopened⟩ := h
  rw [Holds, hb] at hopened
  obtain ⟨cols, -, hrows⟩ := hopened
  exact hrows.idle

/-- Handing out the pending chunks leaves the rows of the builder. -/
theorem HasRows.takePending (h : tw.HasRows rows) :
    ∃ parts rest, rows = parts.flatten ++ rest ∧
      List.Forall₂ (fun part chunk ↦ chunk.HasRows tw.columns part) parts tw.pending ∧
      ({ tw with pending := [] } : TopicWriter).HasRows rest := by
  obtain ⟨parts, opened, rfl, hparts, hopened⟩ := h
  exact ⟨parts, opened, rfl, hparts, [], opened, rfl, .nil, hopened⟩

end TopicWriter

namespace TopicView

variable {schema : Option TypeTreeNode} {v v' : TopicView} {b b' : TopicChunkBuilder}
  {rows : List Row}

theorem isRowInProgress_of_hasRows (h : v.writer.HasRows rows) : v.isRowInProgress = false := by
  rw [isRowInProgress]
  rcases hb : v.writer.builder with _ | b
  · rfl
  · exact h.idle hb

theorem prefix_ensureColsLoaded (schema : Option TypeTreeNode) (v : TopicView) :
    v.writer.columns <+: (v.ensureColsLoaded schema).writer.columns := by
  rw [ensureColsLoaded_columns]
  split_ifs with h
  · exact List.prefix_rfl
  · rw [not_not.mp h]
    exact List.nil_prefix

theorem hasRows_ensureColsLoaded (schema : Option TypeTreeNode) (h : v.writer.HasRows rows) :
    (v.ensureColsLoaded schema).writer.HasRows rows :=
  h.mono ensureColsLoaded_builder ensureColsLoaded_pending (prefix_ensureColsLoaded schema v)

/-- The builder there is, with the rows it holds, in place of the one of `v`. -/
theorem hasRows_setBuilder {new : List Row} (h : v.writer.HasRows rows)
    (hb : v.writer.builder = some b)
    (hnew : ∀ cols opened, cols <+: v.writer.columns → b.HasRows cols opened →
      b'.HasRows cols (opened ++ new)) :
    (v.setBuilder b').writer.HasRows (rows ++ new) := by
  obtain ⟨parts, opened, rfl, hparts, hopened⟩ := h
  rw [TopicWriter.Holds, hb] at hopened
  obtain ⟨cols, hpre, hrows⟩ := hopened
  exact ⟨parts, opened ++ new, List.append_assoc _ _ _, hparts, cols, hpre,
    hnew cols opened hpre hrows⟩

theorem hasRows_stage (h : (v.setBuilder b).writer.HasRows rows) :
    (v.stage b).writer.HasRows rows := by
  obtain ⟨parts, opened, rfl, hparts, cols, hpre, hrows⟩ := h
  refine ⟨parts ++ [opened], [], by simp, ?_, rfl⟩
  rw [stage_pending]
  exact List.rel_append hparts (.cons ⟨b, v.nextChunkId, cols, rfl, hpre, hrows⟩ .nil)

theorem hasRows_putBack (h : (v.setBuilder b).writer.HasRows rows) :
    (v.putBack b).writer.HasRows rows := by
  rw [putBack_eq]
  split_ifs
  · exact hasRows_stage h
  · exact h

theorem hasRows_getOrCreateBuilder (h : v.writer.HasRows rows) :
    (v.getOrCreateBuilder schema).writer.HasRows rows := by
  rcases hb : v.writer.builder with _ | b
  · rw [getOrCreateBuilder_of_none hb]
    obtain ⟨parts, opened, rfl, hparts, hopened⟩ := hasRows_ensureColsLoaded schema h
    rw [TopicWriter.Holds, ensureColsLoaded_builder, hb] at hopened
    exact ⟨parts, opened, rfl, hparts, _, List.prefix_rfl,
      hopened ▸ TopicChunkBuilder.hasRows_new _ _ _ _⟩
  · rw [getOrCreateBuilder_of_some hb]
    exact h

/-- A builder that is closed for new columns keeps its rows in a chunk. -/
theorem hasRows_sealBeforeLayoutChange (h : v.writer.HasRows rows) :
    v.sealBeforeLayoutChange.writer.HasRows rows := by
  rw [sealBeforeLayoutChange]
  split
  · rename_i b hb
    split_ifs with hpos
    · refine hasRows_stage ?_
      rw [← List.append_nil rows]
      exact hasRows_setBuilder h hb fun cols opened _ hrows ↦ by rwa [List.append_nil]
    · -- there are no rows in it
      obtain ⟨parts, opened, rfl, hparts, hopened⟩ := h
      rw [TopicWriter.Holds, hb] at hopened
      obtain ⟨cols, -, hrows⟩ := hopened
      rw [hrows.rowCount, Nat.not_lt, Nat.le_zero, List.length_eq_zero_iff] at hpos
      exact ⟨parts, opened, rfl, hparts, hpos⟩
  · exact h

/-! ### More columns -/

theorem hasRows_growColumns {cols : List ColumnDescriptor} (h : v.writer.HasRows rows)
    (hcols : v.writer.columns <+: cols) : (v.growColumns cols).writer.HasRows rows :=
  h.mono rfl rfl hcols

theorem keptByGrowth_hasRows (schema : Option TypeTreeNode) (rows : List Row) :
    KeptByGrowth schema fun v ↦ v.writer.HasRows rows where
  load _ h := hasRows_ensureColsLoaded schema h
  close _ _ h := hasRows_sealBeforeLayoutChange h
  grow _ _ hcols h := hasRows_growColumns h hcols
  note _ _ _ h := h

/-! ### Batches -/

variable {ts : List Timestamp} {batch : List ColumnData}

/-- The batch has data for all columns of the builder it goes into, and of those behind it if it has
more rows than there is room for. -/
structure Completes (schema : Option TypeTreeNode) (v : TopicView) (n : ℕ)
    (batch : List ColumnData) : Prop where
  current : Complete (v.currentBuilder schema).columns.length batch
  later : (v.currentBuilder schema).remainingCapacity < n →
    Complete (columnList schema v).length batch

theorem hasRows_appendSlice (h : v.writer.HasRows rows)
    (hbatch : Complete (v.currentBuilder schema).columns.length batch)
    (hcheck : checkColumns ts.length batch = none) {o n : ℕ} (ho : o + n ≤ ts.length)
    (hrun : (v.currentBuilder schema).runBatch ((ts.drop o).take n) (sliceCalls batch o n)
      = some b) :
    ((v.getOrCreateBuilder schema).putBack b).writer.HasRows
      (rows ++ ((batchRows ts batch).drop o).take n) := by
  apply hasRows_putBack
  apply hasRows_setBuilder (hasRows_getOrCreateBuilder h) getOrCreateBuilder_builder
  intro cols opened _ hrows
  obtain ⟨hist, al, -⟩ := hrows.aligned
  exact hrows.runBatch (al.tracks.length ▸ hbatch) hcheck ho hrun

/-- A round that leaves rows over has taken all the room there was. -/
theorem isFull_of_lt (hv : v.Fits)
    (hrun : (v.currentBuilder schema).runBatch ((ts.drop o).take (v.batchSize schema ts.length o))
      (sliceCalls batch o (v.batchSize schema ts.length o)) = some b)
    (hmore : o + v.batchSize schema ts.length o < ts.length) :
    v.batchSize schema ts.length o = (v.currentBuilder schema).remainingCapacity ∧
      b.isFull = true := by
  have hfit : (v.currentBuilder schema).Fits v.storage.descriptor.maxChunkRows := hv.currentBuilder
  obtain ⟨hafter, -, -⟩ := TopicChunkBuilder.runBatch_eq_some hfit.pending hrun
  have hsize : v.batchSize schema ts.length o = (v.currentBuilder schema).remainingCapacity := by
    rw [batchSize] at hmore ⊢
    omega
  refine ⟨hsize, ?_⟩
  rw [TopicChunkBuilder.isFull, hafter.frame, decide_eq_true_eq]
  dsimp only
  rw [List.length_take, List.length_drop, Nat.min_eq_left (by omega), hsize,
    TopicChunkBuilder.remainingCapacity]
  omega

/-- A round that leaves rows over has filled the builder, and the next one is new. -/
theorem Completes.round (h : Completes schema v (ts.length - o) batch) (hv : v.Fits)
    (hrun : (v.currentBuilder schema).runBatch ((ts.drop o).take (v.batchSize schema ts.length o))
      (sliceCalls batch o (v.batchSize schema ts.length o)) = some b)
    (hmore : o + v.batchSize schema ts.length o < ts.length) :
    Completes schema ((v.getOrCreateBuilder schema).putBack b)
      (ts.length - (o + v.batchSize schema ts.length o)) batch := by
  obtain ⟨hsize, hfull⟩ := isFull_of_lt hv hrun hmore
  have hlist : columnList schema ((v.getOrCreateBuilder schema).putBack b) = columnList schema v :=
    ((onlyLoads_getOrCreateBuilder v).trans (onlyLoads_putBack b)).keepsColumns.columnList
  have hall : Complete (columnList schema v).length batch := h.later (by omega)
  refine ⟨?_, fun _ ↦ hlist ▸ hall⟩
  have hnone : ((v.getOrCreateBuilder schema).putBack b).writer.builder = none := by
    rw [putBack_eq, if_pos hfull]
    rfl
  have hcolumns : (((v.getOrCreateBuilder schema).putBack b).currentBuilder schema).columns.length
      = (columnList schema ((v.getOrCreateBuilder schema).putBack b)).length := by
    rw [currentBuilder_of_none hnone, newBuilder, TopicChunkBuilder.new, List.length_map]
    rfl
  rw [hcolumns, hlist]
  exact hall

theorem hasRows_appendColumns (hv : v.Fits) (h : v.writer.HasRows rows) {r : Except WriteError Unit}
    (happ : v.appendColumns schema ts batch = some (v', r)) :
    (∃ e, r = .error e ∧ v'.writer.HasRows rows) ∨
      r = .ok () ∧ ((ts ≠ [] → Completes schema v ts.length batch) →
        v'.writer.HasRows (rows ++ batchRows ts batch)) := by
  rcases appendColumns_eq_some happ with ⟨e, rfl, rfl | rfl⟩ | ⟨rfl, rfl, rfl⟩ |
    ⟨rfl, hne, hcheck, hloop⟩
  · exact .inl ⟨e, rfl, h⟩
  · exact .inl ⟨e, rfl, hasRows_getOrCreateBuilder h⟩
  · exact .inr ⟨rfl, fun _ ↦ by rwa [batchRows, List.zipIdx_nil, List.map_nil, List.append_nil]⟩
  · refine .inr ⟨rfl, fun hcompletes ↦ ?_⟩
    have hlength : (batchRows ts batch).length = ts.length := by simp [batchRows]
    suffices hdone : v'.writer.HasRows (rows ++ (batchRows ts batch).take ts.length) by
      rwa [List.take_of_length_le hlength.le] at hdone
    refine (appendLoop_induction (I := fun o u ↦
      u.writer.HasRows (rows ++ (batchRows ts batch).take o) ∧
        (o < ts.length → Completes schema u (ts.length - o) batch)) ?_
      (fits_getOrCreateBuilder hv) (Nat.zero_le _) ⟨?_, fun _ ↦ ?_⟩ hloop).2.1
    · rintro o n u b ⟨hrows, hleft⟩ hu ho rfl - hb
      have hle : u.batchSize schema ts.length o ≤ ts.length - o := min_le_left _ _
      refine ⟨?_, fun hmore ↦ (hleft ho).round hu hb hmore⟩
      have hslice := hasRows_appendSlice hrows (hleft ho).current hcheck (by omega) hb
      rwa [List.append_assoc, ← List.take_add] at hslice
    · rw [List.take_zero, List.append_nil]
      exact hasRows_getOrCreateBuilder h
    · obtain ⟨hcurrent, hlater⟩ := hcompletes hne
      refine ⟨?_, ?_⟩ <;> rw [currentBuilder_getOrCreateBuilder]
      · exact hcurrent
      · rw [(onlyLoads_getOrCreateBuilder v).keepsColumns.columnList]
        exact hlater

/-! ### Flushing -/

/-- A flush hands out the rows of the pending chunks, and those of the builder if it is sealed. -/
theorem hasRows_flush (h : v.writer.HasRows rows) :
    ∃ parts rest, rows = parts.flatten ++ rest ∧
      List.Forall₂ (fun part chunk ↦ chunk.HasRows v.writer.columns part) parts v.flush.2 ∧
      v.flush.1.writer.HasRows rest := by
  obtain ⟨parts, opened, rfl, hparts, hopened⟩ := h
  rcases v.flush_cases with ⟨b, hb, -, hnone, hout⟩ | ⟨-, hsame, hout⟩
  · rw [TopicWriter.Holds, hb] at hopened
    obtain ⟨cols, hpre, hrows⟩ := hopened
    refine ⟨parts ++ [opened], [], by simp, ?_, TopicWriter.hasRows_empty hnone flush_pending⟩
    rw [hout]
    exact List.rel_append hparts (.cons ⟨b, v.nextChunkId, cols, rfl, hpre, hrows⟩ .nil)
  · refine ⟨parts, opened, rfl, hout ▸ hparts, [], opened, rfl, ?_, ?_⟩
    · rw [flush_pending]
      exact .nil
    · rw [TopicWriter.Holds, hsame, flush_columns]
      exact hopened

end TopicView

end PlotJuggler
