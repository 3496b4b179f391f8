import PlotJugglerCore.Store.Rows
import PlotJugglerCore.Store.Runs

/-!
# Filling a topic in batches

`appendColumns` called again and again on a topic of one's own, each batch with data for every
column. Such a call never fails: a batch that is well formed and of the right kinds passes every
assertion (`TopicChunkBuilder.Aligned.exists_runBatch`), and the loop ends as long as a chunk may
hold a row. And how the rows were cut into batches leaves no trace in the chunks: a chunk is sealed
exactly when it holds `maxChunkRows` rows, so chunk `k` is `block k` of everything appended.

`TopicView.Filled` is that invariant, `TopicView.appendColumns_filled` its step and
`TopicView.Filled.flush` what it says about the chunks that come out.
-/

namespace PlotJuggler

open TypedColumnBuffer (Slot batchSlots)

/-! ## Data the buffers take -/

namespace ColumnSpan

variable {d : ColumnSpan} {o n : ℕ}

theorem inBounds_subspan (h : d.InBounds) : (d.subspan o n).InBounds := by
  cases d with
  | strings offsets values =>
    exact ⟨fun x hx ↦ h.1 x (List.mem_of_mem_drop (List.mem_of_mem_take hx)), h.2⟩
  | _ => trivial

theorem kind_subspan (d : ColumnSpan) (o n : ℕ) : (d.subspan o n).kind = d.kind := by
  cases d <;> rfl

theorem raws_subspan (d : ColumnSpan) (o n : ℕ) :
    (d.subspan o n).raws = (d.raws.drop o).take n := by
  cases d with
  | strings offsets values => simp only [subspan, raws, slices_take, slices_drop]
  | _ => simp only [subspan, raws, List.map_take, List.map_drop]

end ColumnSpan

/-! ## Batches that go in -/

namespace TopicChunkBuilder

variable {b : TopicChunkBuilder} {cols : List ColumnDescriptor} {hist hist' : ℕ → List Entry}
  {stamps : List Timestamp}

/-- Alignment looks at the histories of the columns there are. -/
theorem Aligned.congr (al : b.Aligned cols hist stamps)
    (h : ∀ i, i < cols.length → hist' i = hist i) : b.Aligned cols hist' stamps where
  tracks := ⟨al.tracks.length, fun i d c hd hc ↦
    h i (List.getElem?_eq_some_iff.mp hd).1 ▸ al.tracks.column i d c hd hc⟩
  idle := al.idle
  pending := al.pending
  rowCount := al.rowCount
  timestamps := al.timestamps
  length i hi := by rw [h i hi, al.length i hi]

/-- Updates of columns that are there go through when they go through column by column. -/
theorem exists_foldlM_updateColumn {κ : Type*} {col : κ → ℕ}
    {f : κ → ColumnBuilder → Option ColumnBuilder} {calls : List κ} {b : TopicChunkBuilder}
    (hcol : ∀ k ∈ calls, col k < b.columns.length)
    (hf : ∀ i c, b.columns[i]? = some c →
      ∃ c', (calls.filter fun k ↦ col k = i).foldlM (fun c k ↦ f k c) c = some c') :
    ∃ b', calls.foldlM (fun b k ↦ b.updateColumn (col k) (f k)) b = some b' := by
  induction calls generalizing b with
  | nil => exact ⟨b, rfl⟩
  | cons k calls ih =>
    have hk : col k < b.columns.length := hcol k List.mem_cons_self
    -- the first call, seen from its own column
    obtain ⟨c', hc'⟩ := hf (col k) _ (List.getElem?_eq_getElem hk)
    rw [List.filter_cons_of_pos (by simp), List.foldlM_cons] at hc'
    obtain ⟨c₁, hc₁, hrest⟩ := Option.bind_eq_some_iff.mp hc'
    have hstep : b.updateColumn (col k) (f k) = some { b with columns := b.columns.set (col k) c₁ } := by
      rw [updateColumn, List.getElem?_eq_getElem hk, Option.bind_some, hc₁, Option.map_some]
    rw [List.foldlM_cons, hstep]
    refine ih (fun k' hk' ↦ ?_) fun i c hc ↦ ?_
    · rw [List.length_set]
      exact hcol k' (List.mem_cons_of_mem k hk')
    · by_cases hi : col k = i
      · subst hi
        obtain rfl : c₁ = c := Option.some.inj ((List.getElem?_set_self hk).symm.trans hc)
        exact ⟨c', hrest⟩
      · obtain ⟨c'', hc''⟩ := hf i c ((List.getElem?_set_ne hi).symm.trans hc)
        exact ⟨c'', by rwa [List.filter_cons_of_neg (by simpa using hi)] at hc''⟩

theorem exists_mapM {α β : Type*} {f : α → Option β} {l : List α}
    (h : ∀ a ∈ l, ∃ b, f a = some b) : ∃ l', l.mapM f = some l' := by
  induction l with
  | nil => exact ⟨[], rfl⟩
  | cons a l ih =>
    obtain ⟨b, hb⟩ := h a List.mem_cons_self
    obtain ⟨l', hl'⟩ := ih fun x hx ↦ h x (List.mem_cons_of_mem a hx)
    exact ⟨b :: l', by rw [List.mapM_cons, hb, hl']; rfl⟩

/-- Rows are the rows of some history. -/
theorem exists_entries (slots : List Slot) : ∃ h : List Entry, h.map Entry.slot = slots :=
  ⟨slots.map fun s ↦ ⟨true, s.valid, s.raw⟩, by rw [List.map_map]; exact List.map_id _⟩

/-- A batch with data of the right kind for every column passes all assertions. -/
theorem exists_runBatch {ts : List Timestamp} {calls : List BulkCall}
    (hidle : b.rowInProgress = false) (hpending : b.bulkPendingRows = 0)
    (horder : ∀ t ∈ ts.head?, b.lastTimestamp ≤ t) (hcol : ∀ k ∈ calls, k.col < b.columns.length)
    (hsup : ∀ i c, b.columns[i]? = some c → ∃ slots data v, c.buffer.Holds slots ∧
      Supplies calls ts.length i data v ∧ data.kind = c.kind ∧ data.InBounds) :
    ∃ b', b.runBatch ts calls = some b' := by
  -- each column takes its data and, if there is one, its bitmap
  have hcolumn : ∀ i c, b.columns[i]? = some c → ∃ c', ts.length ≤ c'.buffer.rowCount ∧
      (calls.filter fun k ↦ k.col = i).foldlM (fun c k ↦ k.apply c) c = some c' := by
    intro i c hc
    obtain ⟨slots, data, v, hslots, hs, hk, hin⟩ := hsup i c hc
    obtain ⟨h, rfl⟩ := exists_entries slots
    obtain ⟨buf, hbuf⟩ := TypedColumnBuffer.exists_appendBulk hk hin
    have hbits : ∀ s ∈ v, s.bitLength = data.rowCount := fun s hs' ↦ by rw [hs.2.2.1, hs.2.2.2 s hs']
    have hholds := ColumnBuilder.holds_batch hslots hs.2.1 hbits hbuf
    refine ⟨{ c with buffer := v.elim buf buf.appendValidityBulk }, ?_, ?_⟩
    · rw [hholds.rowCount, List.length_map, List.length_append,
        ColumnBuilder.length_batchEntries hbits, hs.2.2.1]
      exact Nat.le_add_left _ _
    · rw [hs.1, List.foldlM_cons, BulkCall.apply, hbuf]
      cases v <;> rfl
  have hstamps : ∃ b₀, b.appendTimestamps ts = some b₀ ∧ b₀.columns = b.columns ∧
      b₀.rowInProgress = false ∧ b₀.bulkPendingRows = ts.length := by
    rw [appendTimestamps.eq_def, if_neg (by simp [hidle])]
    rcases ts with _ | ⟨first, rest⟩
    · exact ⟨b, rfl, rfl, hidle, hpending⟩
    · simp only [if_pos (horder first rfl)]
      exact ⟨_, rfl, rfl, hidle, rfl⟩
  obtain ⟨b₀, hb₀, hsame, hidle₀, hpending₀⟩ := hstamps
  obtain ⟨b₁, hb₁⟩ := exists_foldlM_updateColumn (f := BulkCall.apply)
    (fun k hk ↦ hsame ▸ hcol k hk) fun i c hc ↦ by
      obtain ⟨c', -, hc'⟩ := hcolumn i c (hsame ▸ hc)
      exact ⟨c', hc'⟩
  obtain ⟨hframe, hlen₁, hcols₁⟩ := foldlM_updateColumn hb₁
  -- and then has at least the rows the statistics walk over
  have hfin : ∃ b₂, b₁.finishBulkAppend = some b₂ := by
    rw [finishBulkAppend, hframe, if_neg (by simp [hidle₀])]
    split_ifs with hzero
    · exact ⟨_, rfl⟩
    · obtain ⟨l, hl⟩ := exists_mapM (f := (ColumnBuilder.finishBulk · b₀.bulkPendingRows))
        (l := b₁.columns) fun c hc ↦ by
          obtain ⟨i, hi⟩ := List.mem_iff_getElem?.mp hc
          have hlt : i < b₀.columns.length := hlen₁ ▸ (List.getElem?_eq_some_iff.mp hi).1
          obtain ⟨c₁, hc₁, hfold⟩ := hcols₁ i _ (List.getElem?_eq_getElem hlt)
          obtain rfl : c₁ = c := Option.some.inj (hc₁.symm.trans hi)
          obtain ⟨c', hrows, hfold'⟩ := hcolumn i b₀.columns[i] (by
            rw [← hsame, List.getElem?_eq_getElem hlt])
          obtain rfl : c₁ = c' := Option.some.inj (hfold.symm.trans hfold')
          simp only [ColumnBuilder.finishBulk]
          rw [if_pos (hpending₀ ▸ hrows)]
          split_ifs <;> exact ⟨_, rfl⟩
      exact ⟨_, congrArg (Option.map _) hl⟩
  obtain ⟨b₂, hb₂⟩ := hfin
  refine ⟨b₂, ?_⟩
  rw [runBatch, hb₀, Option.bind_some, runBulkCall_eq, hb₁, Option.bind_some, hb₂]

theorem Aligned.exists_runBatch (al : b.Aligned cols hist stamps) {ts : List Timestamp}
    {calls : List BulkCall} (horder : ∀ t ∈ ts.head?, b.lastTimestamp ≤ t)
    (hcol : ∀ k ∈ calls, k.col < cols.length)
    (hsup : ∀ i d, cols[i]? = some d → ∃ data v, Supplies calls ts.length i data v ∧
      data.kind = d.kind ∧ data.InBounds) : ∃ b', b.runBatch ts calls = some b' := by
  refine TopicChunkBuilder.exists_runBatch al.idle al.pending horder
    (fun k hk ↦ al.tracks.length ▸ hcol k hk) fun i c hc ↦ ?_
  obtain ⟨d, hd, tc⟩ := al.tracks.exists_descriptor hc
  obtain ⟨data, v, hs, hk, hin⟩ := hsup i d hd
  exact ⟨_, data, v, tc.holds, hs, hk.trans tc.kind.symm, hin⟩

end TopicChunkBuilder

/-! ## Batches that cover every column -/

namespace ColumnData

/-- The bitmap, if the column comes with one. -/
def bitmap (col : ColumnData) : Option BitSpan :=
  if col.validity.isEmpty then none else some col.validity

/-- The rows a column of a batch adds. -/
def entries (col : ColumnData) : List Entry := batchEntries col.data col.bitmap

/-- Data for `n` rows of a column of kind `k`. -/
structure Supplies (k : StorageKind) (n : ℕ) (col : ColumnData) : Prop where
  kind : col.data.kind = k
  rowCount : col.data.rowCount = n
  wellFormed : col.data.WellFormed
  inBounds : col.data.InBounds
  bits : ∀ s ∈ col.bitmap, s.bitLength = n ∧ s.bitOffset + s.bitLength ≤ s.bytes.length * 8

variable {k : StorageKind} {n : ℕ} {col : ColumnData}

theorem bitmap_eq_some {s : BitSpan} (h : col.bitmap = some s) :
    s = col.validity ∧ col.validity.isEmpty = false := by
  rw [bitmap] at h
  split_ifs at h with hempty
  exact ⟨(Option.some.inj h).symm, by simpa using hempty⟩

theorem Supplies.length_entries (h : col.Supplies k n) : col.entries.length = n := by
  rw [entries, ColumnBuilder.length_batchEntries fun s hs ↦ by rw [(h.bits s hs).1, h.rowCount],
    h.rowCount]

/-- The rows of a slice are a slice of the rows. -/
theorem Supplies.batchEntries_subspan (h : col.Supplies k n) {o m : ℕ} (hm : o + m ≤ n) :
    batchEntries (col.data.subspan o m) (col.bitmap.map (·.subspan o m))
      = (col.entries.drop o).take m := by
  have hbits := batchBits_subspan (v := col.bitmap) (h.rowCount ▸ hm)
    fun s hs ↦ by rw [(h.bits s hs).1, h.rowCount]
  rw [entries, batchEntries, batchEntries, batchSlots, batchSlots, hbits, ColumnSpan.raws_subspan,
    ← List.take_zipWith, ← List.drop_zipWith, List.map_take, List.map_drop]

end ColumnData

/-- Data for `n` rows in every column passes the checks of `appendColumns`. -/
theorem checkColumns_of_supplies {n : ℕ} {batch : List ColumnData}
    (hall : ∀ col ∈ batch, ∃ k, col.Supplies k n) : TopicView.checkColumns n batch = none := by
  induction batch with
  | nil => rfl
  | cons col batch ih =>
    obtain ⟨k, hs⟩ := hall col List.mem_cons_self
    have hrest := ih fun c hc ↦ hall c (List.mem_cons_of_mem col hc)
    rw [TopicView.checkColumns, if_neg (not_not.mpr hs.rowCount)]
    split_ifs with hempty hlength hroom
    · exact hrest
    · exact absurd (hs.bits col.validity (if_neg hempty)).1 hlength
    · exact absurd (hs.bits col.validity (if_neg hempty)).2 (by omega)
    · exact hrest

/-- Data for `n` rows of every column, in the order of the columns. -/
structure Covers (cols : List ColumnDescriptor) (n : ℕ) (batch : List ColumnData) : Prop where
  length : batch.length = cols.length
  index : ∀ (i : ℕ) (col : ColumnData), batch[i]? = some col → col.colIndex = i
  supplies : ∀ (i : ℕ) (d : ColumnDescriptor) (col : ColumnData), cols[i]? = some d →
    batch[i]? = some col → col.Supplies d.kind n

namespace Covers

variable {cols : List ColumnDescriptor} {n : ℕ} {batch : List ColumnData}

theorem exists_column (h : Covers cols n batch) {i : ℕ} {d : ColumnDescriptor}
    (hd : cols[i]? = some d) :
    ∃ col, batch[i]? = some col ∧ col.colIndex = i ∧ col.Supplies d.kind n := by
  have hi : i < batch.length := h.length ▸ (List.getElem?_eq_some_iff.mp hd).1
  have hcol := List.getElem?_eq_getElem hi
  exact ⟨_, hcol, h.index i _ hcol, h.supplies i d _ hd hcol⟩

theorem exists_descriptor (h : Covers cols n batch) {col : ColumnData} (hcol : col ∈ batch) :
    ∃ d, cols[col.colIndex]? = some d ∧ col.Supplies d.kind n := by
  obtain ⟨i, hi⟩ := List.mem_iff_getElem?.mp hcol
  have hlt : i < cols.length := h.length ▸ (List.getElem?_eq_some_iff.mp hi).1
  have hd := List.getElem?_eq_getElem hlt
  rw [h.index i col hi]
  exact ⟨_, hd, h.supplies i _ col hd hi⟩

theorem nodup (h : Covers cols n batch) : (batch.map (·.colIndex)).Nodup := by
  have hrange : batch.map (·.colIndex) = List.range batch.length := by
    apply List.ext_getElem
    · simp
    · intro i hi hi'
      have hlt : i < batch.length := by simpa using hi'
      simpa using h.index i _ (List.getElem?_eq_getElem hlt)
  rw [hrange]
  exact List.nodup_range

/-- The batch passes the checks of `appendColumns`. -/
theorem checkColumns (h : Covers cols n batch) : TopicView.checkColumns n batch = none :=
  checkColumns_of_supplies fun _ hcol ↦ by
    obtain ⟨d, -, hs⟩ := h.exists_descriptor hcol
    exact ⟨_, hs⟩

end Covers

namespace TopicView

/-- The calls a column of a batch makes for one round. -/
def columnCalls (o m : ℕ) (col : ColumnData) : List TopicChunkBuilder.BulkCall :=
  .column col.colIndex (col.data.subspan o m) ::
    (col.bitmap.map (·.subspan o m)).toList.map (.validity col.colIndex)

theorem sliceCalls_eq (batch : List ColumnData) (o m : ℕ) :
    sliceCalls batch o m = batch.flatMap (columnCalls o m) := by
  rw [sliceCalls]
  congr 1
  funext col
  rw [columnCalls, ColumnData.bitmap]
  split_ifs <;> rfl

theorem col_of_mem_columnCalls {o m : ℕ} {col : ColumnData} {k : TopicChunkBuilder.BulkCall}
    (hk : k ∈ columnCalls o m col) : k.col = col.colIndex := by
  rcases List.mem_cons.mp hk with rfl | hk
  · rfl
  · obtain ⟨s, -, rfl⟩ := List.mem_map.mp hk
    rfl

/-- The calls of a round that name a column are those of the batch columns that name it. -/
theorem filter_sliceCalls (batch : List ColumnData) (o m i : ℕ) :
    ((sliceCalls batch o m).filter fun k ↦ k.col = i)
      = (batch.filter fun col ↦ col.colIndex = i).flatMap (columnCalls o m) := by
  rw [sliceCalls_eq, List.filter_flatMap]
  induction batch with
  | nil => rfl
  | cons col batch ih =>
    rw [List.flatMap_cons, ih, List.filter_cons]
    by_cases hc : col.colIndex = i
    · have hall : (columnCalls o m col).filter (fun k ↦ k.col = i) = columnCalls o m col := by
        rw [List.filter_eq_self]
        exact fun k hk ↦ by simpa [col_of_mem_columnCalls hk] using hc
      rw [hall, if_pos (by simpa using hc), List.flatMap_cons]
    · have hnone : (columnCalls o m col).filter (fun k ↦ k.col = i) = [] := by
        rw [List.filter_eq_nil_iff]
        exact fun k hk ↦ by simpa [col_of_mem_columnCalls hk] using hc
      rw [hnone, if_neg (by simpa using hc), List.nil_append]

/-- With one batch column for each index, a search for the index finds it. -/
theorem filter_colIndex_eq {batch : List ColumnData} (hnodup : (batch.map (·.colIndex)).Nodup)
    {col : ColumnData} (hcol : col ∈ batch) :
    (batch.filter fun c ↦ c.colIndex = col.colIndex) = [col] := by
  have hfind : batch.find? (fun c ↦ c.colIndex = col.colIndex) = some col := by
    rcases hf : batch.find? (fun c ↦ c.colIndex = col.colIndex) with _ | c
    · exact absurd (List.find?_eq_none.mp hf col hcol) (by simp)
    · have hindex : c.colIndex = col.colIndex := by simpa using List.find?_some hf
      have hsame := List.inj_on_of_nodup_map hnodup (List.mem_of_find?_eq_some hf) hcol hindex
      exact hf.trans (congrArg some hsame)
  exact TopicChunkBuilder.filter_key_eq hnodup hfind

/-- A round of the loop supplies its slice to a column that the batch names once. -/
theorem supplies_sliceCalls {batch : List ColumnData} (hnodup : (batch.map (·.colIndex)).Nodup)
    {col : ColumnData} (hcol : col ∈ batch) {k : StorageKind} {n o m : ℕ} (hs : col.Supplies k n)
    (hm : o + m ≤ n) : TopicChunkBuilder.Supplies (sliceCalls batch o m) m col.colIndex
      (col.data.subspan o m) (col.bitmap.map (·.subspan o m)) := by
  refine ⟨?_, ColumnSpan.wellFormed_subspan hs.wellFormed,
    ColumnSpan.rowCount_subspan (hs.rowCount.symm ▸ hm), ?_⟩
  · rw [filter_sliceCalls, filter_colIndex_eq hnodup hcol, List.flatMap_singleton, columnCalls]
  · intro s hs'
    obtain ⟨s₀, -, rfl⟩ := Option.map_eq_some_iff.mp hs'
    rfl

theorem supplies_sliceCalls_of_covers {cols : List ColumnDescriptor} {n o m i : ℕ}
    {batch : List ColumnData} (h : Covers cols n batch) (hm : o + m ≤ n) {d : ColumnDescriptor}
    (hd : cols[i]? = some d) {col : ColumnData} (hcol : batch[i]? = some col) :
    TopicChunkBuilder.Supplies (sliceCalls batch o m) m i (col.data.subspan o m)
      (col.bitmap.map (·.subspan o m)) := by
  have hs := TopicView.supplies_sliceCalls h.nodup (List.mem_of_getElem? hcol)
    (h.supplies i d col hd hcol) hm
  rwa [h.index i col hcol] at hs

end TopicView

/-! ## Filling -/

/-- Rows `k * size` to `(k + 1) * size` of a column. -/
def block {α : Type*} (size k : ℕ) (l : List α) : List α := (l.drop (k * size)).take size

theorem map_block {α β : Type*} (f : α → β) (size k : ℕ) (l : List α) :
    (block size k l).map f = block size k (l.map f) := by
  rw [block, block, List.map_take, List.map_drop]

/-- A full block does not change when more rows come. -/
theorem block_append {α : Type*} {size k : ℕ} {l : List α} (h : (k + 1) * size ≤ l.length)
    (l' : List α) : block size k (l ++ l') = block size k l := by
  rw [Nat.add_mul, Nat.one_mul] at h
  rw [block, block, List.drop_append_of_le_length (by omega),
    List.take_append_of_le_length (by rw [List.length_drop]; omega)]

/-- A chunk is the seal of a builder with these rows. -/
def TopicChunk.Holds (chunk : TopicChunk) (cols : List ColumnDescriptor) (hist : ℕ → List Entry)
    (stamps : List Timestamp) : Prop :=
  ∃ (b : TopicChunkBuilder) (id : ℕ), chunk = b.sealChunk id ∧ b.Aligned cols hist stamps

/-- The rows a batch adds to column `i`. -/
def batchColumn (batch : List ColumnData) (i : ℕ) : List Entry :=
  (batch[i]?.map ColumnData.entries).getD []

theorem Covers.length_batchColumn {cols : List ColumnDescriptor} {n i : ℕ} {batch : List ColumnData}
    (h : Covers cols n batch) (hi : i < cols.length) : (batchColumn batch i).length = n := by
  obtain ⟨col, hcol, -, hs⟩ := h.exists_column (List.getElem?_eq_getElem hi)
  rw [batchColumn, hcol]
  exact hs.length_entries

namespace TopicView

variable {schema : Option TypeTreeNode} {v : TopicView} {cols : List ColumnDescriptor}
  {stamps : List Timestamp} {hist : ℕ → List Entry}

/-- The writer holds `stamps` and `hist`, in full chunks and a builder that is not full. -/
structure Filled (schema : Option TypeTreeNode) (v : TopicView) (cols : List ColumnDescriptor)
    (stamps : List Timestamp) (hist : ℕ → List Entry) : Prop where
  columns : (v.ensureColsLoaded schema).writer.columns = cols
  fits : v.Fits
  length : ∀ i, i < cols.length → (hist i).length = stamps.length
  pending : ∀ (k : ℕ) (chunk : TopicChunk), v.writer.pending[k]? = some chunk →
    chunk.Holds cols (fun i ↦ block v.storage.descriptor.maxChunkRows k (hist i))
      (block v.storage.descriptor.maxChunkRows k stamps)
  full : v.writer.pending.length * v.storage.descriptor.maxChunkRows ≤ stamps.length
  builder : (v.currentBuilder schema).Aligned cols
    (fun i ↦ (hist i).drop (v.writer.pending.length * v.storage.descriptor.maxChunkRows))
    (stamps.drop (v.writer.pending.length * v.storage.descriptor.maxChunkRows))
  last : (v.currentBuilder schema).lastTimestamp = Int64.minValue ∨
    (v.currentBuilder schema).lastTimestamp ∈ stamps

theorem currentBuilder_of_some {b : TopicChunkBuilder} (hb : v.writer.builder = some b) :
    v.currentBuilder schema = b := by
  rw [currentBuilder, hb, Option.getD_some]

theorem currentBuilder_of_none (hb : v.writer.builder = none) :
    v.currentBuilder schema = (v.ensureColsLoaded schema).newBuilder := by
  rw [currentBuilder, hb, Option.getD_none]

/-- A writer that has nothing. -/
theorem filled_empty (hb : v.writer.builder = none) (hp : v.writer.pending = []) :
    Filled schema v (v.ensureColsLoaded schema).writer.columns [] fun _ ↦ [] where
  columns := rfl
  fits := fits_of_builder_eq_none hb
  length _ _ := rfl
  pending k chunk hk := by simp [hp] at hk
  full := by simp [hp]
  builder := by
    rw [currentBuilder_of_none hb]
    simp only [List.drop_nil]
    exact TopicChunkBuilder.aligned_new _ _ _ _
  last := .inl (by rw [currentBuilder_of_none hb]; rfl)

theorem Filled.congr (h : Filled schema v cols stamps hist) {hist' : ℕ → List Entry}
    (heq : ∀ i, i < cols.length → hist' i = hist i) : Filled schema v cols stamps hist' where
  columns := h.columns
  fits := h.fits
  length i hi := by rw [heq i hi, h.length i hi]
  pending k chunk hk := by
    obtain ⟨b, id, hb, al⟩ := h.pending k chunk hk
    exact ⟨b, id, hb, al.congr fun i hi ↦ by rw [heq i hi]⟩
  full := h.full
  builder := h.builder.congr fun i hi ↦ by rw [heq i hi]
  last := h.last

theorem getOrCreateBuilder_pending :
    (v.getOrCreateBuilder schema).writer.pending = v.writer.pending := by
  rcases hb : v.writer.builder with _ | b
  · rw [getOrCreateBuilder_of_none hb, setBuilder_pending, ensureColsLoaded_pending]
  · rw [getOrCreateBuilder_of_some hb]

/-- Loading the columns a second time changes nothing. -/
theorem columns_getOrCreateBuilder {v' : TopicView} (hs : v'.storage = v.storage)
    (hc : v'.writer.columns = (v.getOrCreateBuilder schema).writer.columns) :
    (v'.ensureColsLoaded schema).writer.columns = (v.ensureColsLoaded schema).writer.columns := by
  rw [ensureColsLoaded_columns, hs, hc]
  rcases hb : v.writer.builder with _ | b
  · rw [getOrCreateBuilder_of_none hb, setBuilder_columns, ensureColsLoaded_columns]
    split_ifs <;> simp_all
  · rw [getOrCreateBuilder_of_some hb, ensureColsLoaded_columns]

/-- The rows a round of the loop takes, behind those the builder has. -/
theorem Filled.aligned_slice (h : Filled schema v cols stamps hist) {ts : List Timestamp}
    {batch : List ColumnData} (hc : Covers cols ts.length batch) {o m : ℕ} (hm : o + m ≤ ts.length)
    (horder : ∀ t ∈ ((ts.drop o).take m).head?, (v.currentBuilder schema).lastTimestamp ≤ t) :
    ∃ b, (v.currentBuilder schema).runBatch ((ts.drop o).take m) (sliceCalls batch o m) = some b ∧
      b.Aligned cols
        (fun i ↦ (hist i ++ ((batchColumn batch i).drop o).take m).drop
          (v.writer.pending.length * v.storage.descriptor.maxChunkRows))
        ((stamps ++ (ts.drop o).take m).drop
          (v.writer.pending.length * v.storage.descriptor.maxChunkRows)) := by
  have hlen : ((ts.drop o).take m).length = m := by
    rw [List.length_take, List.length_drop]
    omega
  have hsup : ∀ i d, cols[i]? = some d → ∃ col, batch[i]? = some col ∧
      TopicChunkBuilder.Supplies (sliceCalls batch o m) ((ts.drop o).take m).length i
        (col.data.subspan o m) (col.bitmap.map (·.subspan o m)) ∧ col.Supplies d.kind ts.length := by
    intro i d hd
    obtain ⟨col, hcol, -, hs⟩ := hc.exists_column hd
    exact ⟨col, hcol, hlen.symm ▸ supplies_sliceCalls_of_covers hc hm hd hcol, hs⟩
  obtain ⟨b, hb⟩ : ∃ b, (v.currentBuilder schema).runBatch ((ts.drop o).take m)
      (sliceCalls batch o m) = some b := by
    refine h.builder.exists_runBatch horder (fun k hk ↦ ?_) fun i d hd ↦ ?_
    · rw [sliceCalls_eq] at hk
      obtain ⟨col, hcol, hk⟩ := List.mem_flatMap.mp hk
      obtain ⟨d, hd, -⟩ := hc.exists_descriptor hcol
      rw [col_of_mem_columnCalls hk]
      exact (List.getElem?_eq_some_iff.mp hd).1
    · obtain ⟨col, -, hsup, hs⟩ := hsup i d hd
      exact ⟨_, _, hsup, (ColumnSpan.kind_subspan _ _ _).trans hs.kind,
        ColumnSpan.inBounds_subspan hs.inBounds⟩
  refine ⟨b, hb, ?_⟩
  obtain ⟨al, -⟩ := h.builder.append (a := .batch ((ts.drop o).take m) (sliceCalls batch o m))
    (fun i hi ↦ by
      obtain ⟨col, -, hsup, -⟩ := hsup i _ (List.getElem?_eq_getElem hi)
      exact ⟨_, _, hsup⟩) hb
  have hfull := h.full
  rw [List.drop_append_of_le_length hfull]
  refine al.congr fun i hi ↦ ?_
  obtain ⟨col, hcol, hsup, hs⟩ := hsup i _ (List.getElem?_eq_getElem hi)
  rw [List.drop_append_of_le_length (by rw [h.length i hi]; exact hfull)]
  simp only [TopicChunkBuilder.Append.history, hsup.batchHistory, hs.batchEntries_subspan hm,
    batchColumn, hcol, Option.map_some, Option.getD_some]

section Extend

variable {b : TopicChunkBuilder} {new : List Timestamp} {newHist : ℕ → List Entry}

/-- Full chunks keep their blocks when rows come in behind them. -/
theorem Filled.holds_append (h : Filled schema v cols stamps hist) {k : ℕ} {chunk : TopicChunk}
    (hk : v.writer.pending[k]? = some chunk) :
    chunk.Holds cols
      (fun i ↦ block v.storage.descriptor.maxChunkRows k (hist i ++ newHist i))
      (block v.storage.descriptor.maxChunkRows k (stamps ++ new)) := by
  obtain ⟨b₀, id, hchunk, al₀⟩ := h.pending k chunk hk
  have hk' : (k + 1) * v.storage.descriptor.maxChunkRows ≤ stamps.length :=
    (Nat.mul_le_mul_right _ (List.getElem?_eq_some_iff.mp hk).1).trans h.full
  refine ⟨b₀, id, hchunk, ?_⟩
  rw [block_append hk']
  exact al₀.congr fun i hi ↦ block_append (by rw [h.length i hi]; exact hk') _

theorem Filled.columns_eq (h : Filled schema v cols stamps hist) {v' : TopicView}
    (hs : v'.storage = v.storage)
    (hc : v'.writer.columns = (v.getOrCreateBuilder schema).writer.columns) :
    (v'.ensureColsLoaded schema).writer.columns = cols :=
  (columns_getOrCreateBuilder hs hc).trans h.columns

/-- A builder that is full now: its rows are the next block. -/
theorem Filled.stage (h : Filled schema v cols stamps hist)
    (hlen : ∀ i, i < cols.length → (newHist i).length = new.length)
    (al : b.Aligned cols
      (fun i ↦ (hist i ++ newHist i).drop
        (v.writer.pending.length * v.storage.descriptor.maxChunkRows))
      ((stamps ++ new).drop (v.writer.pending.length * v.storage.descriptor.maxChunkRows)))
    (hexact : stamps.length + new.length =
      v.writer.pending.length * v.storage.descriptor.maxChunkRows
        + v.storage.descriptor.maxChunkRows) :
    Filled schema ((v.getOrCreateBuilder schema).stage b) cols (stamps ++ new)
      fun i ↦ hist i ++ newHist i := by
  have hpending : ((v.getOrCreateBuilder schema).stage b).writer.pending
      = v.writer.pending ++ [b.sealChunk (v.getOrCreateBuilder schema).nextChunkId] := by
    rw [stage_pending, getOrCreateBuilder_pending]
  have hrows : ((v.getOrCreateBuilder schema).stage b).writer.pending.length *
      v.storage.descriptor.maxChunkRows = stamps.length + new.length := by
    rw [hpending, List.length_append, List.length_singleton, Nat.add_mul, Nat.one_mul, hexact]
  have hlength : ∀ i, i < cols.length → (hist i ++ newHist i).length = stamps.length + new.length :=
    fun i hi ↦ by rw [List.length_append, h.length i hi, hlen i hi]
  have htake : ∀ {α : Type} (l : List α), l.length = stamps.length + new.length →
      block v.storage.descriptor.maxChunkRows v.writer.pending.length l
        = l.drop (v.writer.pending.length * v.storage.descriptor.maxChunkRows) := by
    intro α l hl
    rw [block, List.take_of_length_le]
    rw [List.length_drop]
    omega
  have hcolumns : (((v.getOrCreateBuilder schema).stage b).ensureColsLoaded schema).writer.columns
      = cols := h.columns_eq (by simp) (by simp)
  refine ⟨hcolumns, fits_of_builder_eq_none rfl,
    fun i hi ↦ (hlength i hi).trans List.length_append.symm, ?_, ?_, ?_,
    .inl (by rw [currentBuilder_of_none rfl]; rfl)⟩
  · intro k chunk hk
    rw [stage_storage, getOrCreateBuilder_storage]
    rw [hpending, List.getElem?_append] at hk
    split_ifs at hk with hlt
    · exact h.holds_append hk
    · obtain ⟨hk0, hchunk⟩ := List.getElem?_eq_some_iff.mp hk
      obtain rfl : k = v.writer.pending.length := by
        rw [List.length_singleton] at hk0
        omega
      refine ⟨b, _, by simpa using hchunk.symm, ?_⟩
      rw [htake _ List.length_append]
      exact al.congr fun i hi ↦ htake _ (hlength i hi)
  · rw [stage_storage, getOrCreateBuilder_storage, hrows, List.length_append]
  · -- nothing is left for the next builder
    rw [stage_storage, getOrCreateBuilder_storage, hrows, currentBuilder_of_none rfl,
      List.drop_of_length_le List.length_append.le, newBuilder, hcolumns]
    exact (TopicChunkBuilder.aligned_new _ _ _ _).congr fun i hi ↦
      List.drop_of_length_le (hlength i hi).le

/-- A builder that is not full yet. -/
theorem Filled.setBuilder (h : Filled schema v cols stamps hist)
    (hlen : ∀ i, i < cols.length → (newHist i).length = new.length)
    (al : b.Aligned cols
      (fun i ↦ (hist i ++ newHist i).drop
        (v.writer.pending.length * v.storage.descriptor.maxChunkRows))
      ((stamps ++ new).drop (v.writer.pending.length * v.storage.descriptor.maxChunkRows)))
    (hfits : ((v.getOrCreateBuilder schema).setBuilder b).Fits)
    (hlast : b.lastTimestamp = Int64.minValue ∨ b.lastTimestamp ∈ stamps ++ new) :
    Filled schema ((v.getOrCreateBuilder schema).setBuilder b) cols (stamps ++ new)
      fun i ↦ hist i ++ newHist i where
  columns := h.columns_eq (by simp) (by simp)
  fits := hfits
  length i hi := by rw [List.length_append, List.length_append, h.length i hi, hlen i hi]
  pending k chunk hk := by
    rw [setBuilder_storage, getOrCreateBuilder_storage]
    rw [setBuilder_pending, getOrCreateBuilder_pending] at hk
    exact h.holds_append hk
  full := by
    rw [setBuilder_storage, getOrCreateBuilder_storage, setBuilder_pending,
      getOrCreateBuilder_pending, List.length_append]
    exact h.full.trans (Nat.le_add_right _ _)
  builder := by
    rw [setBuilder_storage, getOrCreateBuilder_storage, setBuilder_pending,
      getOrCreateBuilder_pending, currentBuilder_of_some setBuilder_builder]
    exact al
  last := by
    rw [currentBuilder_of_some setBuilder_builder]
    exact hlast

end Extend

/-- One round of the loop. -/
theorem Filled.round (h : Filled schema v cols stamps hist) {ts : List Timestamp}
    {batch : List ColumnData} (hc : Covers cols ts.length batch) {o m : ℕ} (hm : o + m ≤ ts.length)
    (hcap : m ≤ (v.currentBuilder schema).remainingCapacity)
    (horder : ∀ t ∈ ((ts.drop o).take m).head?, (v.currentBuilder schema).lastTimestamp ≤ t) :
    ∃ v', v.appendSlice schema ts batch o m = some v' ∧ v'.storage = v.storage ∧
      Filled schema v' cols (stamps ++ (ts.drop o).take m)
        fun i ↦ hist i ++ ((batchColumn batch i).drop o).take m := by
  obtain ⟨b, hb, al⟩ := h.aligned_slice hc hm horder
  have hlen : ((ts.drop o).take m).length = m := by
    rw [List.length_take, List.length_drop]
    omega
  have hnew : ∀ i, i < cols.length →
      (((batchColumn batch i).drop o).take m).length = ((ts.drop o).take m).length := by
    intro i hi
    rw [List.length_take, List.length_drop, hc.length_batchColumn hi, List.length_take,
      List.length_drop]
  have hfit : (v.currentBuilder schema).Fits _ := h.fits.currentBuilder
  obtain ⟨hafter, -, -⟩ := TopicChunkBuilder.runBatch_eq_some h.builder.pending hb
  -- the builder ends with at most a chunk's worth of rows
  have hcount : stamps.length + m
      = v.writer.pending.length * v.storage.descriptor.maxChunkRows + b.rowCount := by
    have hfull := h.full
    rw [al.rowCount, List.length_drop, List.length_append, hlen]
    omega
  have hle : b.rowCount ≤ v.storage.descriptor.maxChunkRows := by
    have hbefore : b.rowCount = (v.currentBuilder schema).rowCount + m := by
      rw [hafter.frame, hlen]
    rw [TopicChunkBuilder.remainingCapacity, hfit.maxRows] at hcap
    rcases hfit.room with hroom | hroom <;> omega
  have hlast : b.lastTimestamp = Int64.minValue ∨
      b.lastTimestamp ∈ stamps ++ (ts.drop o).take m := by
    rw [hafter.frame]
    rcases hnil : (ts.drop o).take m with _ | ⟨t, rest⟩
    · simpa using h.last
    · right
      simp only [List.getLastD_cons]
      rw [← List.getLast_eq_getLastD (List.cons_ne_nil t rest)]
      exact List.mem_append_right _ (List.getLast_mem _)
  have hfits : ((v.getOrCreateBuilder schema).putBack b).Fits := fits_putBack_batch h.fits hb
  refine ⟨(v.getOrCreateBuilder schema).putBack b, by rw [appendSlice, hb]; rfl, by simp, ?_⟩
  rw [putBack_eq] at hfits ⊢
  split_ifs at hfits ⊢ with hisFull
  · refine h.stage hnew al ?_
    have hbmax : b.maxRows = v.storage.descriptor.maxChunkRows := by
      rw [hafter.frame]
      exact hfit.maxRows
    rw [TopicChunkBuilder.isFull, decide_eq_true_eq, hbmax] at hisFull
    omega
  · exact h.setBuilder hnew al hfits hlast

/-- No timestamp to come lies before the last one of the builder. -/
theorem Filled.last_le (h : Filled schema v cols stamps hist) {ts : List Timestamp}
    (hsorted : (stamps ++ ts).Pairwise (· ≤ ·)) {t : Timestamp} (ht : t ∈ ts) :
    (v.currentBuilder schema).lastTimestamp ≤ t := by
  rcases h.last with hmin | hmem
  · rw [hmin]
    exact Int64.minValue_le t
  · exact (List.pairwise_append.mp hsorted).2.2 _ hmem t ht

/-- The loop has taken everything. -/
theorem Filled.of_take {ts : List Timestamp} {batch : List ColumnData}
    (hc : Covers cols ts.length batch) {o : ℕ} (ho : ts.length ≤ o)
    (h : Filled schema v cols (stamps ++ ts.take o)
      fun i ↦ hist i ++ (batchColumn batch i).take o) :
    Filled schema v cols (stamps ++ ts) fun i ↦ hist i ++ batchColumn batch i := by
  rw [List.take_of_length_le ho] at h
  refine h.congr fun i hi ↦ ?_
  rw [List.take_of_length_le (by rw [hc.length_batchColumn hi]; exact ho)]

/-- The loop of `appendColumns`, from any round on. -/
theorem Filled.appendLoop {ts : List Timestamp} {batch : List ColumnData}
    (hc : Covers cols ts.length batch) (hsorted : (stamps ++ ts).Pairwise (· ≤ ·)) {fuel o : ℕ}
    (hfuel : ts.length ≤ o + fuel) (hrows : 0 < v.storage.descriptor.maxChunkRows)
    (h : Filled schema v cols (stamps ++ ts.take o)
      fun i ↦ hist i ++ (batchColumn batch i).take o) :
    ∃ v', TopicView.appendLoop schema ts batch fuel o v = some v' ∧ v'.storage = v.storage ∧
      Filled schema v' cols (stamps ++ ts) fun i ↦ hist i ++ batchColumn batch i := by
  induction fuel generalizing v o with
  | zero => exact ⟨v, by rw [TopicView.appendLoop, if_neg (by omega)], rfl, h.of_take hc hfuel⟩
  | succ fuel ih =>
    by_cases ho : o < ts.length
    · set m := v.batchSize schema ts.length o with hm
      have hfit : (v.currentBuilder schema).Fits _ := h.fits.currentBuilder
      have hpos : 0 < m := by
        rw [hm, batchSize, TopicChunkBuilder.remainingCapacity, hfit.maxRows]
        rcases hfit.room with hroom | hroom <;> omega
      have hle : o + m ≤ ts.length := by
        have := Nat.min_le_left (ts.length - o) (v.currentBuilder schema).remainingCapacity
        rw [batchSize] at hm
        omega
      have htake : ∀ {α : Type} (l : List α), l.take o ++ (l.drop o).take m = l.take (o + m) :=
        fun l ↦ List.take_add.symm
      rw [← List.take_append_drop o ts, ← List.append_assoc] at hsorted
      obtain ⟨v₁, hslice, hstorage, h₁⟩ := h.round hc hle (hm ▸ Nat.min_le_right _ _)
        fun t ht ↦ h.last_le hsorted (List.mem_of_mem_take (List.mem_of_mem_head? ht))
      simp only [List.append_assoc, htake] at h₁
      rw [List.append_assoc, List.take_append_drop] at hsorted
      obtain ⟨v', hloop, hstorage', h'⟩ := ih (by omega) (hstorage ▸ hrows) h₁
      refine ⟨v', ?_, hstorage'.trans hstorage, h'⟩
      rw [TopicView.appendLoop, if_pos ho, ← hm, hslice, Option.bind_some, hloop]
    · exact ⟨v, by rw [TopicView.appendLoop, if_neg ho], rfl, h.of_take hc (by omega)⟩

theorem Filled.getOrCreateBuilder (h : Filled schema v cols stamps hist) :
    Filled schema (v.getOrCreateBuilder schema) cols stamps hist where
  columns := (columns_getOrCreateBuilder getOrCreateBuilder_storage rfl).trans h.columns
  fits := fits_getOrCreateBuilder h.fits
  length := h.length
  pending := by
    rw [getOrCreateBuilder_pending, getOrCreateBuilder_storage]
    exact h.pending
  full := by
    rw [getOrCreateBuilder_pending, getOrCreateBuilder_storage]
    exact h.full
  builder := by
    rw [getOrCreateBuilder_pending, getOrCreateBuilder_storage, currentBuilder_getOrCreateBuilder]
    exact h.builder
  last := by
    rw [currentBuilder_getOrCreateBuilder]
    exact h.last

/-- A batch that covers the columns and does not go back in time is accepted, and its rows stand
behind those there were. -/
theorem appendColumns_filled (h : Filled schema v cols stamps hist) {ts : List Timestamp}
    {batch : List ColumnData} (hc : Covers cols ts.length batch)
    (hsorted : (stamps ++ ts).Pairwise (· ≤ ·)) (hrows : 0 < v.storage.descriptor.maxChunkRows) :
    ∃ v', v.appendColumns schema ts batch = some (v', .ok ()) ∧ v'.storage = v.storage ∧
      Filled schema v' cols (stamps ++ ts) fun i ↦ hist i ++ batchColumn batch i := by
  rw [appendColumns.eq_def, hc.checkColumns]
  rcases ts with _ | ⟨first, rest⟩
  · refine ⟨v, rfl, rfl, ?_⟩
    rw [List.append_nil]
    refine h.congr fun i hi ↦ ?_
    rw [List.length_eq_zero_iff.mp (hc.length_batchColumn hi), List.append_nil]
  · have hfirst : ¬ (0 < (v.currentBuilder schema).rowCount ∧
        first < (v.currentBuilder schema).lastTimestamp) := by
      rintro ⟨-, hlt⟩
      exact absurd hlt (not_lt.mpr (h.last_le hsorted List.mem_cons_self))
    have hstart : Filled schema (v.getOrCreateBuilder schema) cols
        (stamps ++ (first :: rest).take 0) fun i ↦ hist i ++ (batchColumn batch i).take 0 := by
      simpa using h.getOrCreateBuilder
    obtain ⟨v', hloop, hstorage, h'⟩ := hstart.appendLoop hc hsorted (Nat.zero_add _).ge
      (by rw [getOrCreateBuilder_storage]; exact hrows)
    refine ⟨v', ?_, hstorage.trans getOrCreateBuilder_storage, h'⟩
    simp only [if_neg hfirst, hloop, Option.map_some]

/-- The chunks a flush hands out: chunk `k` holds block `k`, and together they hold every row. -/
theorem Filled.flush (h : Filled schema v cols stamps hist)
    (hrows : 0 < v.storage.descriptor.maxChunkRows) :
    v.flush.2.length = (stamps.length + v.storage.descriptor.maxChunkRows - 1) /
        v.storage.descriptor.maxChunkRows ∧
      ∀ (k : ℕ) (chunk : TopicChunk), v.flush.2[k]? = some chunk →
        chunk.Holds cols (fun i ↦ block v.storage.descriptor.maxChunkRows k (hist i))
          (block v.storage.descriptor.maxChunkRows k stamps) := by
  set size := v.storage.descriptor.maxChunkRows with hsize
  have hfull := h.full
  have hcount := h.builder.rowCount
  rw [List.length_drop, ← hsize] at hcount
  rw [← hsize] at hfull
  rcases v.flush_cases with ⟨b, hb, hpos, -, hchunks⟩ | ⟨hzero, -, hchunks⟩
  · -- the builder has rows, but not enough for a chunk
    have hbuilder : v.currentBuilder schema = b := currentBuilder_of_some hb
    have hroom := (h.fits b hb).room
    rw [← hsize] at hroom
    have hal := h.builder
    rw [hbuilder] at hcount hal
    have hlt : stamps.length < v.writer.pending.length * size + size := by omega
    have htake : ∀ {α : Type} (l : List α), l.length = stamps.length →
        block size v.writer.pending.length l = l.drop (v.writer.pending.length * size) := by
      intro α l hl
      rw [block, List.take_of_length_le]
      rw [List.length_drop]
      omega
    rw [hchunks]
    refine ⟨?_, fun k chunk hk ↦ ?_⟩
    · rw [List.length_append, List.length_singleton]
      refine (Nat.div_eq_of_lt_le ?_ ?_).symm
      · rw [Nat.add_mul]
        omega
      · rw [Nat.add_mul, Nat.add_mul]
        omega
    · rw [List.getElem?_append] at hk
      split_ifs at hk with hlt'
      · exact h.pending k chunk hk
      · obtain ⟨hk0, hchunk⟩ := List.getElem?_eq_some_iff.mp hk
        obtain rfl : k = v.writer.pending.length := by
          rw [List.length_singleton] at hk0
          omega
        refine ⟨b, _, by simpa using hchunk.symm, ?_⟩
        rw [htake stamps rfl]
        exact hal.congr fun i hi ↦ htake _ (h.length i hi)
  · have hempty : (v.currentBuilder schema).rowCount = 0 := by
      rcases hb : v.writer.builder with _ | b
      · rw [currentBuilder_of_none hb]
        rfl
      · rw [currentBuilder_of_some hb]
        exact hzero b hb
    rw [hchunks]
    refine ⟨(Nat.div_eq_of_lt_le ?_ ?_).symm, h.pending⟩
    · omega
    · rw [Nat.add_mul]
      omega

end TopicView

/-! ## What the chunks show -/

/-- A chunk shows a table of `n` columns: it reads back, and the values of float columns come back
as doubles. -/
def TopicChunk.Shows (chunk : TopicChunk) (n : ℕ) (cells : ℕ → List (Option Value)) : Prop :=
  chunk.RoundTrips n cells ∧ ∀ i, i < n → ∀ (row : ℕ) (v : Value), (cells i)[row]? = some (some v) →
    (v.kind = .float32 ∨ v.kind = .float64) → chunk.readNumericAsDouble i row = some v.toDouble

/-- What has to hold of the rows of a chunk for a column to come back. Strings must be addressable
with 32 bits. The kinds that trust the statistics become a constant when all their values are the
same double, and then all of them have to be what lies in the first row, null or not. -/
structure Storable (k : StorageKind) (h : List Entry) : Prop where
  addressable : k = .string → TypedColumnBuffer.byteCount (h.map Entry.slot) < 2 ^ 32
  constant : k = .uint64 ∨ k = .bool ∨ k = .float32 ∨ k = .float64 →
    ((h.filter (·.valid)).Pairwise fun a b ↦ Binary64.eq (b.double k) (a.double k) = true) →
    ∀ e₀ ∈ h.head?, ∀ e ∈ h, e.valid = true → k.decode e.raw = k.decode e₀.raw

theorem pairwise_of_sameDouble {k : StorageKind} {v : Binary64} {h : List Entry}
    (hs : sameDouble k v h) :
    (h.filter (·.valid)).Pairwise fun a b ↦ Binary64.eq (b.double k) (a.double k) = true := by
  refine List.pairwise_of_forall_mem_list fun a ha b hb ↦ ?_
  obtain ⟨hmem, hvalid⟩ := List.mem_filter.mp ha
  obtain ⟨hmem', hvalid'⟩ := List.mem_filter.mp hb
  exact Binary64.eq_trans (hs b hmem' hvalid') (Binary64.eq_symm (hs a hmem hvalid))

/-- Filled in bulk, a column seems constant only if all its values are the same double. -/
theorem pairwise_of_seenConstant {k : StorageKind} {h : List Entry}
    (hbulk : ∀ e ∈ h, e.bulk = true) (hs : seenConstant k h) :
    (h.filter (·.valid)).Pairwise fun a b ↦ Binary64.eq (b.double k) (a.double k) = true := by
  have hfirst : ∀ {e : Entry} {h : List Entry}, e.valid = true → sameDouble k (e.double k) h →
      ((e :: h).filter (·.valid)).Pairwise
        fun a b ↦ Binary64.eq (b.double k) (a.double k) = true := by
    intro e h hv hs
    rw [List.filter_cons_of_pos hv, List.pairwise_cons]
    refine ⟨fun b hb ↦ ?_, pairwise_of_sameDouble hs⟩
    obtain ⟨hmem, hvalid⟩ := List.mem_filter.mp hb
    exact hs b hmem hvalid
  have hafter : ∀ h : List Entry, (∀ e ∈ h, e.bulk = true) → seenConstantAfterNull k .zero h →
      (h.filter (·.valid)).Pairwise fun a b ↦ Binary64.eq (b.double k) (a.double k) = true := by
    intro h hbulk hs
    induction h with
    | nil => exact List.Pairwise.nil
    | cons e h ih =>
      obtain ⟨he, hbulk'⟩ := List.forall_mem_cons.mp hbulk
      rw [seenConstantAfterNull, if_pos he] at hs
      split_ifs at hs with hv
      · exact hfirst hv hs
      · rw [List.filter_cons_of_neg (by simpa using hv)]
        exact ih hbulk' hs
  rcases h with _ | ⟨e, h⟩
  · exact List.Pairwise.nil
  · rw [seenConstant] at hs
    split_ifs at hs with hv
    · exact hfirst hv hs
    · rw [List.filter_cons_of_neg (by simpa using hv)]
      exact hafter h (List.forall_mem_cons.mp hbulk).2 hs

/-- A chunk filled in bulk whose columns can be stored shows them. -/
theorem TopicChunk.Holds.shows {chunk : TopicChunk} {cols : List ColumnDescriptor}
    {hist : ℕ → List Entry} {stamps : List Timestamp} (h : chunk.Holds cols hist stamps)
    (hbulk : ∀ i d, cols[i]? = some d → ∀ e ∈ hist i, e.bulk = true)
    (hstore : ∀ i d, cols[i]? = some d → Storable d.kind (hist i)) {cells : ℕ → List (Option Value)}
    (hcells : ∀ i d, cols[i]? = some d → (hist i).map (Entry.cell d.kind) = cells i) :
    chunk.stats.rowCount = stamps.length ∧ chunk.columns.length = cols.length ∧
      chunk.timestamps = stamps ∧ chunk.Shows cols.length cells := by
  obtain ⟨b, id, rfl, al⟩ := h
  have hcolumn : ∀ i, i < cols.length → ∃ d c, cols[i]? = some d ∧
      (b.sealChunk id).columns[i]? = some c.sealColumn ∧ ColumnBuilder.Tracks d (hist i) c := by
    intro i hi
    obtain ⟨c, hc, tc⟩ := al.tracks.exists_column (List.getElem?_eq_getElem hi)
    refine ⟨_, c, List.getElem?_eq_getElem hi, ?_, tc⟩
    rw [TopicChunkBuilder.sealChunk, List.getElem?_map, hc, Option.map_some]
  have hlen : (b.sealChunk id).columns.length = cols.length :=
    (List.length_map _).trans al.tracks.length
  refine ⟨al.rowCount, hlen, al.timestamps, ?_, ?_⟩
  · rw [TopicChunk.roundTrips_iff hlen]
    intro i col hcol row cell hcell
    obtain ⟨d, c, hd, hc, tc⟩ := hcolumn i (hlen ▸ (List.getElem?_eq_some_iff.mp hcol).1)
    obtain rfl : c.sealColumn = col := Option.some.inj (hc.symm.trans hcol)
    have hs := hstore i d hd
    rw [← hcells i d hd, List.getElem?_map, Option.map_eq_some_iff] at hcell
    obtain ⟨e, he, rfl⟩ := hcell
    refine (tc.readsCell_iff hs.addressable).mpr (fun hk hseen ↦ ?_) row e he
    exact hs.constant (hk.imp_right .inl) (pairwise_of_seenConstant (hbulk i d hd) hseen)
  · intro i hi row v hv hk
    obtain ⟨d, c, hd, hc, tc⟩ := hcolumn i hi
    have hs := hstore i d hd
    rw [← hcells i d hd, List.getElem?_map, Option.map_eq_some_iff] at hv
    obtain ⟨e, he, hcell⟩ := hv
    rw [Entry.cell] at hcell
    split_ifs at hcell with hvalid
    obtain rfl := Option.some.inj hcell
    rw [StorageKind.decode_kind] at hk
    obtain ⟨e₀, he₀⟩ : ∃ e₀, (hist i)[0]? = some e₀ :=
      ⟨_, List.getElem?_eq_getElem (Nat.zero_lt_of_lt (List.getElem?_eq_some_iff.mp he).1)⟩
    have hdouble : ∀ raw, (d.kind.decode raw).asDouble = (d.kind.decode raw).toDouble := by
      intro raw
      rcases hk with hk | hk <;> rw [hk] <;> rfl
    rw [TopicChunk.readNumericAsDouble, hc, Option.map_some, tc.readNumericAsDouble hk he he₀,
      hdouble]
    split_ifs with hseen
    · rw [hs.constant (.inr (.inr hk)) (pairwise_of_seenConstant (hbulk i d hd) hseen) e₀
        (by simpa [List.head?_eq_getElem?] using he₀) e (List.mem_of_getElem? he) hvalid]
    · rfl

end PlotJuggler
