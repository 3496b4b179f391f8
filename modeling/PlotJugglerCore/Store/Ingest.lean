import PlotJugglerCore.Store.Arrow

/-!
# The rows of an Arrow import

What `makeColumnData` hands to `appendColumns` are the slots of the array, provided the bitmap is
not dropped, the offsets of strings are the 32-bit ones and the batch starts at its first row
(`ArrowArrayView.Readable`). With timestamps that go on from one batch to the next, an import then
fills the topic with the rows of the table, and how the table was cut into batches makes no
difference (`Nanoarrow.ingestBatchesFromStream_shows`).

`Importable` lists what this takes, and every item is a way to fail: a batch without a timestamp
column counts its rows from zero again, so a second batch goes back in time.
-/

namespace PlotJuggler

open LittleEndian (element)

/-! ## Reading an array -/

namespace ArrowArrayView

variable {view : ArrowArrayView} {n : ℕ}

theorem word_lt (view : ArrowArrayView) (size i : ℕ) : view.word size i < 256 ^ size := by
  refine (LittleEndian.value_lt _).trans_le (Nat.pow_le_pow_right (by decide) ?_)
  rw [element, List.length_take]
  exact Nat.min_le_left _ _

/-- An array the importer reads right: the bitmap counts, or there is nothing in it, and strings
have 32-bit offsets. -/
structure Readable (view : ArrowArrayView) (n : ℕ) : Prop where
  valid : view.Valid
  rows : n ≤ view.length
  nulls : view.nullCount = -1 → ∀ i, i < n → view.isValid i = true
  offsets : view.storageType ≠ .largeString

/-- Without a positive null count there are no nulls. -/
theorem Readable.isValid (h : view.Readable n) (hcount : ¬ 0 < view.nullCount) {i : ℕ}
    (hi : i < n) : view.isValid i = true := by
  rcases h.valid.nullCount with hnone | hexact
  · exact h.nulls hnone i hi
  · have hzero : view.nulls = 0 := by omega
    have := List.countP_eq_zero.mp hzero i (List.mem_range.mpr (hi.trans_le h.rows))
    simpa using this

theorem map_isValid (h : ∀ i, i < n → view.isValid i = true) :
    (List.range n).map view.isValid = List.replicate n true := by
  rw [List.eq_replicate_iff]
  refine ⟨by simp, fun b hb ↦ ?_⟩
  obtain ⟨i, hi, rfl⟩ := List.mem_map.mp hb
  exact h i (List.mem_range.mp hi)

/-- Either the importer passes the bitmap on, or it passes none and there are no nulls. -/
theorem Readable.bitmap (h : view.Readable n) (hn : 0 < n) {col : ColumnData}
    (hv : col.validity = Nanoarrow.validityView view n) :
    (col.bitmap = none ∧ ∀ i, i < n → view.isValid i = true) ∨
      ∃ bytes, view.validity = some bytes ∧
        col.bitmap = some ⟨bytes.take ((view.offset + n + 7) / 8), view.offset, n⟩ := by
  rw [ColumnData.bitmap, hv, Nanoarrow.validityView]
  rcases hbytes : view.validity with _ | bytes
  · exact .inl ⟨rfl, fun i _ ↦ by simp [ArrowArrayView.isValid, hbytes]⟩
  · by_cases hcount : 0 < view.nullCount
    · refine .inr ⟨bytes, rfl, ?_⟩
      simp only [if_pos hcount]
      exact if_neg (by simpa [BitSpan.isEmpty] using hn.ne')
    · refine .inl ⟨?_, fun i hi ↦ h.isValid hcount hi⟩
      simp only [if_neg hcount]
      rfl

/-- The bits of the rows are those of the array. -/
theorem Readable.batchBits (h : view.Readable n) (hn : 0 < n) {col : ColumnData}
    (hv : col.validity = Nanoarrow.validityView view n) (hrows : col.data.rowCount = n) :
    batchBits col.data col.bitmap = (List.range n).map view.isValid := by
  rcases h.bitmap hn hv with ⟨hnone, hall⟩ | ⟨bytes, hbytes, hsome⟩
  · rw [hnone, PlotJuggler.batchBits, hrows, map_isValid hall]
  · rw [hsome, PlotJuggler.batchBits, BitSpan.bits]
    refine List.map_congr_left fun i hi ↦ ?_
    have hi' : i < n := List.mem_range.mp hi
    simp only [BitSpan.test, ArrowArrayView.isValid, hbytes, Option.all_some]
    exact Bits.get_take (by omega) bytes

/-- Offsets that never step back, over a stretch of slots. -/
theorem word_mono {size : ℕ}
    (h : ∀ i, i < view.length → view.word size i ≤ view.word size (i + 1)) {i j : ℕ} (hij : i ≤ j)
    (hj : j ≤ view.length) : view.word size i ≤ view.word size j := by
  induction j, hij using Nat.le_induction with
  | base => exact le_rfl
  | succ j _ ih => exact (ih (by omega)).trans (h j (by omega))

theorem slices_map_range (values : List UInt8) (f : ℕ → UInt32) (n : ℕ) :
    ColumnSpan.slices values ((List.range (n + 1)).map f)
      = (List.range n).map fun i ↦
          (values.drop (f i).toNat).take ((f (i + 1)).toNat - (f i).toNat) := by
  induction n generalizing f with
  | zero => rfl
  | succ n ih =>
    rw [List.range_succ_eq_map, List.map_cons, List.map_map, List.range_succ_eq_map,
      List.map_cons, ColumnSpan.slices, ← List.map_cons, ← List.range_succ_eq_map, ih,
      List.range_succ_eq_map, List.map_cons, List.map_map]
    rfl

/-- What the array has to be for the type it is mapped to. -/
theorem rowCount_columnSpan (N : Nanoarrow) (view : ArrowArrayView) (n : ℕ) (p : PrimitiveType) :
    (N.columnSpan view n p).rowCount = n := by
  cases p <;> simp [Nanoarrow.columnSpan, ColumnSpan.rowCount]

theorem kind_columnSpan (N : Nanoarrow) (view : ArrowArrayView) (n : ℕ) (p : PrimitiveType) :
    (N.columnSpan view n p).kind = storageKindOf p := by
  cases p <;> rfl

/-- The offsets of a readable array of strings. -/
theorem Readable.strings (h : view.Readable n) (hn : 0 < n) (ht : view.storageType = .string) :
    (∀ i, i < view.length → view.word 4 i ≤ view.word 4 (i + 1)) ∧
      view.word 4 view.length = view.chars.length ∧ view.chars.length < 2 ^ 31 := by
  have hfits := h.valid.buffers (hn.trans_le h.rows)
  have hsize : view.offsetSize = 4 := by rw [offsetSize, ht]; rfl
  rw [FitsBuffers, ht, hsize] at hfits
  exact ⟨hfits.2.1, hfits.2.2.1, hfits.2.2.2 rfl⟩

theorem toNat_ofNat_word (view : ArrowArrayView) (i : ℕ) :
    (UInt32.ofNat (view.word 4 i)).toNat = view.word 4 i :=
  UInt32.toNat_ofNat_of_lt' (view.word_lt 4 i)

theorem ofInt_word (view : ArrowArrayView) (i : ℕ) :
    UInt64.ofInt (view.word 8 i) = UInt64.ofNat (view.word 8 i) := by
  have hlt : view.word 8 i < 2 ^ 64 := view.word_lt 8 i
  rw [UInt64.ofInt]
  congr 1
  omega

/-- The data the importer passes on: well formed, in bounds, and the bytes of the slots. -/
theorem Readable.columnSpan {N : Nanoarrow} (hN : N.Documented) (h : view.Readable n) (hn : 0 < n)
    {p : PrimitiveType} (hp : nanoarrowTypeToPrimitive view.storageType = some p) :
    (N.columnSpan view n p).WellFormed ∧ (N.columnSpan view n p).InBounds ∧
      (N.columnSpan view n p).raws = (List.range n).map fun i ↦ (view.value i).bytes := by
  have hlt : ∀ i ∈ List.range n, i < view.length := fun i hi ↦
    (List.mem_range.mp hi).trans_le h.rows
  have hne := h.offsets
  cases ht : view.storageType with
  | string =>
    rw [ht] at hp
    obtain rfl := Option.some.inj hp
    obtain ⟨hmono, hlast, hsize⟩ := h.strings hn ht
    refine ⟨?_, ⟨?_, by omega⟩, ?_⟩
    · rw [Nanoarrow.columnSpan, ColumnSpan.WellFormed, List.pairwise_map]
      refine List.pairwise_le_range.imp_of_mem fun {i j} _ hj hij ↦ ?_
      rw [UInt32.le_iff_toNat_le, toNat_ofNat_word, toNat_ofNat_word]
      rw [List.mem_range] at hj
      exact word_mono hmono hij (by have := h.rows; omega)
    · intro o ho
      obtain ⟨i, hi, rfl⟩ := List.mem_map.mp ho
      rw [toNat_ofNat_word, ← hlast]
      rw [List.mem_range] at hi
      exact word_mono hmono (by have := h.rows; omega) le_rfl
    · rw [Nanoarrow.columnSpan, ColumnSpan.raws, slices_map_range]
      refine List.map_congr_left fun i _ ↦ ?_
      simp only [toNat_ofNat_word, value, ht, offsetSize, Value.bytes]
      rfl
  | largeString => exact absurd ht hne
  | other code => rw [ht] at hp; cases hp
  | bool =>
    rw [ht] at hp
    obtain rfl := Option.some.inj hp
    refine ⟨trivial, trivial, ?_⟩
    simp only [Nanoarrow.columnSpan, ColumnSpan.raws, List.map_map]
    refine List.map_congr_left fun i hi ↦ ?_
    have hbit := hN.getBool view i h.valid (hlt i hi) ht
    simp only [Function.comp_apply, value, ht, Value.bytes]
    congr 1
    exact if_congr hbit rfl rfl
  | int8 | int16 =>
    rw [ht] at hp
    obtain rfl := Option.some.inj hp
    refine ⟨trivial, trivial, ?_⟩
    simp only [Nanoarrow.columnSpan, ColumnSpan.raws, List.map_map]
    refine List.map_congr_left fun i hi ↦ ?_
    rw [Function.comp_apply, hN.getInt view i h.valid (hlt i hi) (by simp [ht]), value, ht]
  | uint8 | uint16 | uint32 =>
    rw [ht] at hp
    obtain rfl := Option.some.inj hp
    refine ⟨trivial, trivial, ?_⟩
    simp only [Nanoarrow.columnSpan, ColumnSpan.raws, List.map_map]
    refine List.map_congr_left fun i hi ↦ ?_
    rw [Function.comp_apply, hN.getUInt view i h.valid (hlt i hi) (by simp [ht]), value, ht]
  | _ =>
    -- the values lie in the buffer as they are
    rw [ht] at hp
    obtain rfl := Option.some.inj hp
    refine ⟨trivial, trivial, ?_⟩
    simp only [Nanoarrow.columnSpan, ColumnSpan.raws, List.map_map]
    refine List.map_congr_left fun i hi ↦ ?_
    simp only [Function.comp_apply, value, ht, integer, Int32.ofInt_toInt, Int64.ofInt_toInt,
      ofInt_word]

/-- A column of a batch: it supplies its rows, and they are the slots of the array. -/
theorem Readable.supplies {N : Nanoarrow} (hN : N.Documented) (h : view.Readable n) (hn : 0 < n)
    {m : ArrowColumnMapping} (hp : nanoarrowTypeToPrimitive view.storageType = some m.pjType) :
    (N.makeColumnData view m n).Supplies (storageKindOf m.pjType) n ∧
      (N.makeColumnData view m n).entries = (List.range n).map view.slot := by
  obtain ⟨hwf, hin, hraws⟩ := h.columnSpan hN hn hp
  have hrows := rowCount_columnSpan N view n m.pjType
  have hbits : PlotJuggler.batchBits (N.makeColumnData view m n).data
      (N.makeColumnData view m n).bitmap = _ := h.batchBits hn rfl hrows
  have hbitmap : (N.makeColumnData view m n).bitmap = none ∧ _ ∨ _ := h.bitmap hn rfl
  refine ⟨⟨kind_columnSpan N view n m.pjType, hrows, hwf, hin, fun s hs ↦ ?_⟩, ?_⟩
  · rcases hbitmap with ⟨hnone, -⟩ | ⟨bytes, hbytes, hsome⟩
    · rw [hnone] at hs
      cases hs
    · rw [hsome] at hs
      obtain rfl := Option.some.inj hs
      have hroom := h.valid.bitmap bytes hbytes
      have := h.rows
      simp only [List.length_take, true_and]
      omega
  · rw [ColumnData.entries, batchEntries, hbits]
    simp only [Nanoarrow.makeColumnData, hraws, TypedColumnBuffer.batchSlots, List.zipWith_map,
      List.zipWith_self, List.map_map]
    rfl

end ArrowArrayView

/-! ## The schema and its columns -/

theorem mappingsFrom_getElem? {i j p : ℕ} {fields : List ArrowField} {m : ArrowColumnMapping}
    (h : (mappingsFrom i j fields)[p]? = some m) :
    m.pjColumnIndex = j + p ∧ ∃ q field t, m.arrowColumnIndex = i + q ∧
      fields[q]? = some field ∧ field.Maps t m.pjType := by
  induction fields generalizing i j p with
  | nil => simp [mappingsFrom] at h
  | cons field fields ih =>
    rw [mappingsFrom] at h
    rcases htype : field.type.bind nanoarrowTypeToPrimitive with _ | t
    · rw [htype] at h
      obtain ⟨hindex, q, field', t, hq, hfield, hmaps⟩ := ih h
      exact ⟨hindex, q + 1, field', t, by omega, hfield, hmaps⟩
    · rw [htype] at h
      rcases p with _ | p
      · obtain rfl := Option.some.inj h
        obtain ⟨a, ha, hp⟩ := Option.bind_eq_some_iff.mp htype
        exact ⟨rfl, 0, field, a, rfl, rfl, ha, hp⟩
      · obtain ⟨hindex, q, field', t', hq, hfield, hmaps⟩ := ih h
        exact ⟨by omega, q + 1, field', t', by omega, hfield, hmaps⟩

theorem mappingsFromSchema_eq_ok {fields : List ArrowField} {tree : TypeTreeNode}
    {mappings : List ArrowColumnMapping} (h : mappingsFromSchema fields = .ok (tree, mappings)) :
    mappings = mappingsFrom 0 0 fields ∧ mappings ≠ [] ∧
      tree = makeStruct "arrow_row" (mappings.map fun m ↦ makePrimitive m.fieldName m.pjType) := by
  rw [mappingsFromSchema] at h
  split_ifs at h with hne
  obtain ⟨rfl, rfl⟩ := Prod.mk.inj (Except.ok.inj h)
  exact ⟨rfl, hne, rfl⟩

/-- The columns of a topic made from the mappings: one for each, in their order. -/
def arrowColumns (mappings : List ArrowColumnMapping) : List ColumnDescriptor :=
  numberFrom 0 (mappings.map fun m ↦ (m.fieldName, m.pjType))

theorem buildColumnDescriptors_makeStruct (mappings : List ArrowColumnMapping) :
    buildColumnDescriptors
        (makeStruct "arrow_row" (mappings.map fun m ↦ makePrimitive m.fieldName m.pjType))
      = arrowColumns mappings := by
  have hleaves : ∀ l : List ArrowColumnMapping,
      flattenChildren (l.map fun m ↦ makePrimitive m.fieldName m.pjType) ""
        = l.map fun m ↦ (m.fieldName, m.pjType) := by
    intro l
    induction l with
    | nil => rfl
    | cons m l ih => rw [List.map_cons, flattenChildren, ih]; rfl
  rw [buildColumnDescriptors, arrowColumns, ← hleaves]
  exact if_pos rfl

theorem length_arrowColumns (mappings : List ArrowColumnMapping) :
    (arrowColumns mappings).length = mappings.length := by
  rw [arrowColumns, length_numberFrom, List.length_map]

theorem arrowColumns_getElem? {mappings : List ArrowColumnMapping} {i : ℕ} {d : ColumnDescriptor}
    (h : (arrowColumns mappings)[i]? = some d) :
    ∃ m, mappings[i]? = some m ∧ d.kind = storageKindOf m.pjType := by
  rw [arrowColumns, getElem?_numberFrom, List.getElem?_map, Option.map_map] at h
  obtain ⟨m, hm, rfl⟩ := Option.map_eq_some_iff.mp h
  exact ⟨m, hm, rfl⟩

/-- A topic that was just created: nothing written and nothing committed. -/
structure TopicView.Fresh (v : TopicView) : Prop where
  writer : v.writer = {}
  sealedChunks : v.storage.sealedChunks = []
  columnDescriptors : v.storage.columnDescriptors = []

theorem TopicView.Fresh.columns {v : TopicView} (h : v.Fresh)
    (mappings : List ArrowColumnMapping) :
    (v.ensureColsLoaded (some (makeStruct "arrow_row"
      (mappings.map fun m ↦ makePrimitive m.fieldName m.pjType)))).writer.columns
      = arrowColumns mappings := by
  rw [TopicView.ensureColsLoaded_columns, h.writer, if_neg (not_not.mpr rfl), TopicView.loadColumns,
    h.columnDescriptors, if_neg (not_not.mpr rfl)]
  exact buildColumnDescriptors_makeStruct mappings

theorem TopicView.Fresh.flush {v : TopicView} (h : v.Fresh) : v.flush.2 = [] := by
  rw [TopicView.flush, h.writer]

/-! ## One batch -/

namespace Nanoarrow

variable {N : Nanoarrow} {fields : List ArrowField} {mappings : List ArrowColumnMapping}
  {timestampColumn : ℤ} {batch : RecordBatch}

/-- A batch the importer reads right: its rows are the first rows of its columns, and these can be
read. -/
structure ReadableBatch (mappings : List ArrowColumnMapping) (batch : RecordBatch) : Prop where
  offset : batch.offset = 0
  column : ∀ m ∈ mappings, ∃ view, batch.children[m.arrowColumnIndex]? = some view ∧
    view.Readable batch.length ∧ nanoarrowTypeToPrimitive view.storageType = some m.pjType

/-- The slots of the column that mapping `i` is about. -/
def slotColumn (mappings : List ArrowColumnMapping) (batch : RecordBatch) (i : ℕ) : List Entry :=
  (mappings[i]?.map fun m ↦ batch.rowsOf ArrowArrayView.slot m.arrowColumnIndex).getD []

/-- The columns of a readable batch cover the topic with the slots of the arrays. -/
theorem columns_covers (hN : N.Documented) (hm : mappings = mappingsFrom 0 0 fields)
    (h : ReadableBatch mappings batch) (hn : 0 < batch.length) :
    ∃ cols, N.columns batch mappings = .ok cols ∧
      Covers (arrowColumns mappings) batch.length cols ∧
      ∀ i, batchColumn cols i = slotColumn mappings batch i := by
  have hcolumns : ∀ l : List ArrowColumnMapping, (∀ m ∈ l, m ∈ mappings) →
      ∃ cols, N.columns batch l = .ok cols ∧ cols.length = l.length ∧
        ∀ (i : ℕ) m, l[i]? = some m → ∃ view, batch.children[m.arrowColumnIndex]? = some view ∧
          cols[i]? = some (N.makeColumnData view m batch.length) := by
    intro l hl
    induction l with
    | nil => exact ⟨[], rfl, rfl, fun i m hi ↦ by simp at hi⟩
    | cons m l ih =>
      obtain ⟨view, hview, -, -⟩ := h.column m (hl m List.mem_cons_self)
      obtain ⟨cols, hcols, hlen, hget⟩ := ih fun m' hm' ↦ hl m' (List.mem_cons_of_mem m hm')
      refine ⟨N.makeColumnData view m batch.length :: cols, ?_, by simp [hlen], ?_⟩
      · rw [columns, hview, hcols]
      · rintro (_ | i) m' hi
        · obtain rfl := Option.some.inj hi
          exact ⟨view, hview, rfl⟩
        · exact hget i m' hi
  obtain ⟨cols, hcols, hlen, hget⟩ := hcolumns mappings fun _ hm' ↦ hm'
  have hsupplies : ∀ (i : ℕ) m, mappings[i]? = some m → ∃ col, cols[i]? = some col ∧
      col.colIndex = i ∧ col.Supplies (storageKindOf m.pjType) batch.length ∧
      col.entries = slotColumn mappings batch i := by
    intro i m hi
    obtain ⟨view, hview, hcol⟩ := hget i m hi
    obtain ⟨view', hview', hread, hp⟩ := h.column m (List.mem_of_getElem? hi)
    obtain rfl := Option.some.inj (hview.symm.trans hview')
    obtain ⟨hs, hentries⟩ := hread.supplies hN hn hp
    refine ⟨_, hcol, ?_, hs, ?_⟩
    · obtain ⟨hindex, -⟩ := mappingsFrom_getElem? (hm ▸ hi)
      exact hindex.trans (Nat.zero_add i)
    · rw [hentries, slotColumn, hi, Option.map_some, Option.getD_some, RecordBatch.rowsOf, hview,
        Option.map_some, Option.getD_some, h.offset]
      simp only [Nat.zero_add]
  refine ⟨cols, hcols, ⟨hlen.trans (length_arrowColumns mappings).symm, ?_, ?_⟩, fun i ↦ ?_⟩
  · intro i col hcol
    have hi : i < mappings.length := hlen ▸ (List.getElem?_eq_some_iff.mp hcol).1
    obtain ⟨col', hcol', hindex, -, -⟩ := hsupplies i _ (List.getElem?_eq_getElem hi)
    rwa [Option.some.inj (hcol.symm.trans hcol')]
  · intro i d col hd hcol
    obtain ⟨m, hi, hk⟩ := arrowColumns_getElem? hd
    obtain ⟨col', hcol', -, hs, -⟩ := hsupplies i m hi
    rw [Option.some.inj (hcol.symm.trans hcol'), hk]
    exact hs
  · rw [batchColumn]
    rcases hi : mappings[i]? with _ | m
    · have hnone : cols[i]? = none := by
        rw [List.getElem?_eq_none_iff, hlen]
        exact List.getElem?_eq_none_iff.mp hi
      rw [hnone, slotColumn, hi]
      rfl
    · obtain ⟨col, hcol, -, -, hentries⟩ := hsupplies i m hi
      rw [hcol]
      exact hentries

/-! ## The stream -/

theorem slotColumn_of_length_eq_zero (h : batch.length = 0) (i : ℕ) :
    slotColumn mappings batch i = [] := by
  rw [slotColumn]
  rcases mappings[i]? with _ | m
  · rfl
  · rw [Option.map_some, Option.getD_some, RecordBatch.rowsOf, h]
    rcases batch.children[m.arrowColumnIndex]? with _ | view <;> rfl

/-- The loop over a stream of readable batches whose timestamps go on from one to the next. -/
theorem ingestLoop_filled (hN : N.Documented) (hm : mappings = mappingsFrom 0 0 fields)
    {schema : Option TypeTreeNode} {v : TopicView} {stamps : List Timestamp}
    {hist : ℕ → List Entry} (h : v.Filled schema (arrowColumns mappings) stamps hist)
    (hrows : 0 < v.storage.descriptor.maxChunkRows) {batches : List RecordBatch}
    (hconforms : ∀ batch ∈ batches, batch.Conforms fields)
    (hread : ∀ batch ∈ batches, 0 < batch.length → ReadableBatch mappings batch)
    {stampsOf : RecordBatch → List Timestamp}
    (hlength : ∀ batch ∈ batches, (stampsOf batch).length = batch.length)
    (hstamps : ∀ batch ∈ batches, 0 < batch.length →
      timestamps batch timestampColumn = .ok (stampsOf batch))
    (hsorted : (stamps ++ batches.flatMap stampsOf).Pairwise (· ≤ ·)) :
    ∃ v', N.ingestLoop fields mappings timestampColumn schema (batches.map .ok) v
        = some (v', .ok ()) ∧ v'.storage = v.storage ∧
      v'.Filled schema (arrowColumns mappings) (stamps ++ batches.flatMap stampsOf)
        fun i ↦ hist i ++ batches.flatMap (slotColumn mappings · i) := by
  induction batches generalizing v stamps hist with
  | nil => exact ⟨v, rfl, rfl, by simpa using h⟩
  | cons batch batches ih =>
    obtain ⟨hconform, hconforms⟩ := List.forall_mem_cons.mp hconforms
    obtain ⟨hread₁, hread⟩ := List.forall_mem_cons.mp hread
    obtain ⟨hlength₁, hlength⟩ := List.forall_mem_cons.mp hlength
    obtain ⟨hstamps₁, hstamps⟩ := List.forall_mem_cons.mp hstamps
    rw [List.flatMap_cons, ← List.append_assoc] at hsorted ⊢
    rw [List.map_cons, ingestLoop]
    split_ifs with hzero
    · -- an empty batch is skipped, and adds nothing
      have hnil : stampsOf batch = [] := List.length_eq_zero_iff.mp (hlength₁.trans hzero)
      rw [hnil, List.append_nil] at hsorted ⊢
      simp only [List.flatMap_cons, slotColumn_of_length_eq_zero hzero, List.nil_append]
      exact ih h hrows hconforms hread hlength hstamps hsorted
    · have hn : 0 < batch.length := Nat.pos_of_ne_zero hzero
      obtain ⟨cols, hcols, hcovers, hslots⟩ := columns_covers hN hm (hread₁ hn) hn
      rw [← hlength₁] at hcovers
      obtain ⟨v₁, hcall, hstorage, h₁⟩ := TopicView.appendColumns_filled h hcovers
        (List.pairwise_append.mp hsorted).1 hrows
      have hingest : N.ingestBatch fields mappings timestampColumn schema v batch
          = some (v₁, .ok ()) := by
        rw [ingestBatch, if_pos (hN.setArray fields batch hconform), hstamps₁ hn, hcols]
        simp only [hcall, Option.map_some]
        rfl
      simp only [hslots] at h₁
      obtain ⟨v', hloop, hstorage', h'⟩ :=
        ih h₁ (hstorage ▸ hrows) hconforms hread hlength hstamps hsorted
      refine ⟨v', ?_, hstorage'.trans hstorage, ?_⟩
      · rw [hingest]
        exact hloop
      · simpa only [List.flatMap_cons, List.append_assoc] using h'

/-- Empty batches are skipped. -/
theorem ingestLoop_empty (N : Nanoarrow) {schema : Option TypeTreeNode} {v : TopicView}
    {batches : List RecordBatch} (hempty : ∀ batch ∈ batches, batch.length = 0) :
    N.ingestLoop fields mappings timestampColumn schema (batches.map .ok) v = some (v, .ok ()) := by
  induction batches with
  | nil => rfl
  | cons batch batches ih =>
    obtain ⟨hzero, hempty⟩ := List.forall_mem_cons.mp hempty
    rw [List.map_cons, ingestLoop, if_pos hzero]
    exact ih hempty

end Nanoarrow

/-! ## Timestamps -/

section Timestamps

variable {view : ArrowArrayView} {n : ℕ}

/-- The timestamp column is of a type whose integers are read as timestamps. -/
def ArrowArrayView.StampsReadable (view : ArrowArrayView) (n : ℕ) : Prop :=
  view.storageType = .int64 ∨ view.storageType = .int32 ∨
    view.storageType = .uint64 ∧ ∀ r, r < n → view.word 8 r < 2 ^ 63

theorem toInt_extractTimestamps (h : view.StampsReadable n) :
    (Nanoarrow.extractTimestamps view n).map Int64.toInt = (List.range n).map view.integer := by
  rcases h with ht | ht | ⟨ht, hlt⟩
  · simp only [Nanoarrow.extractTimestamps, ht, List.map_map]
    refine List.map_congr_left fun i _ ↦ ?_
    simp only [Function.comp_apply, ArrowArrayView.integer, ht]
  · simp only [Nanoarrow.extractTimestamps, ht, List.map_map]
    refine List.map_congr_left fun i _ ↦ ?_
    simp only [Function.comp_apply, ArrowArrayView.integer, ht, Int32.toInt_toInt64]
  · simp only [Nanoarrow.extractTimestamps, ht, List.map_map]
    refine List.map_congr_left fun i hi ↦ ?_
    simp only [Function.comp_apply, ArrowArrayView.integer, ht]
    exact Int64.toInt_ofNat_of_lt (hlt i (List.mem_range.mp hi))

theorem length_extractTimestamps (view : ArrowArrayView) (n : ℕ) :
    (Nanoarrow.extractTimestamps view n).length = n := by
  rw [Nanoarrow.extractTimestamps]
  split <;> rw [List.length_map, List.length_range]

theorem toInt_generateSequentialTimestamps (h : n < 2 ^ 63) :
    (Nanoarrow.generateSequentialTimestamps n).map Int64.toInt = (List.range n).map Int.ofNat := by
  rw [Nanoarrow.generateSequentialTimestamps, List.map_map]
  refine List.map_congr_left fun i hi ↦ ?_
  rw [List.mem_range] at hi
  exact Int64.toInt_ofNat_of_lt (hi.trans h)

theorem pairwise_of_toInt {l : List Timestamp} (h : (l.map Int64.toInt).Pairwise (· ≤ ·)) :
    l.Pairwise (· ≤ ·) :=
  (List.pairwise_map.mp h).imp fun hab ↦ Int64.le_iff_toInt_le.mpr hab

/-- Where at most one batch has rows, the row numbers of the batches are those of the table. -/
theorem flatMap_range_length {batches : List RecordBatch}
    (h : (batches.filter fun batch ↦ 0 < batch.length).length ≤ 1) :
    (batches.flatMap fun batch ↦ List.range batch.length)
      = List.range (batches.map (·.length)).sum := by
  induction batches with
  | nil => rfl
  | cons batch batches ih =>
    rw [List.flatMap_cons, List.map_cons, List.sum_cons]
    rcases Nat.eq_zero_or_pos batch.length with hzero | hpos
    · rw [List.filter_cons_of_neg (by simp [hzero])] at h
      rw [ih h, hzero, List.range_zero, List.nil_append, Nat.zero_add]
    · -- all batches behind this one are empty
      rw [List.filter_cons_of_pos (by simpa using hpos), List.length_cons] at h
      have hnil : batches.filter (fun batch ↦ 0 < batch.length) = [] :=
        List.length_eq_zero_iff.mp (by omega)
      have hsum : (batches.map (·.length)).sum = 0 := by
        rw [List.sum_eq_zero_iff_forall_eq_nat]
        intro n hn
        obtain ⟨b, hb, rfl⟩ := List.mem_map.mp hn
        simpa using List.filter_eq_nil_iff.mp hnil b hb
      rw [ih (by rw [hnil]; exact Nat.zero_le 1), hsum, List.range_zero, List.append_nil,
        Nat.add_zero]

end Timestamps

/-! ## The import -/

/-- The cells of the column that mapping `i` is about. -/
def ArrowTable.column (table : ArrowTable) (mappings : List ArrowColumnMapping) (i : ℕ) :
    List (Option Value) :=
  (mappings[i]?.map fun m ↦ table.cells m.arrowColumnIndex).getD []

/-- The chunks are the table, cut into blocks of `size` rows: as many as it takes, and chunk `k`
shows the rows of block `k` and their timestamps. -/
def ArrowTable.ShownBy (table : ArrowTable) (mappings : List ArrowColumnMapping) (size : ℕ)
    (chunks : List TopicChunk) : Prop :=
  chunks.length = (table.rowCount + size - 1) / size ∧
    ∀ (k : ℕ) (chunk : TopicChunk), chunks[k]? = some chunk →
      chunk.stats.rowCount = (block size k table.stamps).length ∧
      chunk.columns.length = mappings.length ∧
      chunk.timestamps.map Int64.toInt = block size k table.stamps ∧
      chunk.Shows mappings.length fun i ↦ block size k (table.column mappings i)

theorem ArrowTable.shownBy_nil {table : ArrowTable} {mappings : List ArrowColumnMapping} {size : ℕ}
    (h : table.rowCount = 0) : table.ShownBy mappings size [] := by
  refine ⟨?_, fun k chunk hk ↦ by cases hk⟩
  rcases Nat.eq_zero_or_pos size with rfl | hsize
  · rw [Nat.div_zero, List.length_nil]
  · rw [h, Nat.div_eq_of_lt (by omega), List.length_nil]

/-- What a stream has to be like for the import to be right: chunks may hold the rows there are;
without a timestamp column only one batch has any; batches start at their first row; the timestamps
are of a type that is read as such and small enough; an array whose nulls were not counted has none;
strings have 32-bit offsets; and no column is stored wrongly in a chunk it ends up in. -/
structure Importable (size : ℕ) (mappings : List ArrowColumnMapping) (timestampColumn : ℤ)
    (batches : List RecordBatch) : Prop where
  capacity : ∀ batch ∈ batches, 0 < batch.length → 0 < size
  single : timestampColumn < 0 → (batches.filter fun batch ↦ 0 < batch.length).length ≤ 1
  offset : ∀ batch ∈ batches, 0 < batch.length → batch.offset = 0
  stamps : 0 ≤ timestampColumn → ∀ batch ∈ batches, 0 < batch.length →
    ∀ view ∈ batch.children[timestampColumn.toNat]?, view.StampsReadable batch.length
  nulls : ∀ batch ∈ batches, 0 < batch.length → ∀ m ∈ mappings,
    ∀ view ∈ batch.children[m.arrowColumnIndex]?, view.nullCount = -1 →
      ∀ i, i < batch.length → view.isValid i = true
  strings : ∀ batch ∈ batches, 0 < batch.length → ∀ m ∈ mappings,
    ∀ view ∈ batch.children[m.arrowColumnIndex]?, view.storageType ≠ .largeString
  storable : ∀ m ∈ mappings, ∀ k, Storable (storageKindOf m.pjType)
    (block size k (batches.flatMap (RecordBatch.rowsOf ArrowArrayView.slot m.arrowColumnIndex)))

/-- A batch with rows, read under these conditions. -/
theorem Importable.readableBatch {size : ℕ} {mappings : List ArrowColumnMapping}
    {timestampColumn : ℤ} {batches : List RecordBatch} {fields : List ArrowField}
    (h : Importable size mappings timestampColumn batches) (hm : mappings = mappingsFrom 0 0 fields)
    {batch : RecordBatch} (hmem : batch ∈ batches) (hconforms : batch.Conforms fields)
    (hn : 0 < batch.length) : Nanoarrow.ReadableBatch mappings batch where
  offset := h.offset batch hmem hn
  column m hm' := by
    obtain ⟨p, hp⟩ := List.mem_iff_getElem?.mp hm'
    obtain ⟨-, c, field, t, hc, hfield, hmaps⟩ := mappingsFrom_getElem? (hm ▸ hp)
    rw [Nat.zero_add] at hc
    subst hc
    have hlt : m.arrowColumnIndex < batch.children.length :=
      hconforms.children ▸ (List.getElem?_eq_some_iff.mp hfield).1
    have hview := List.getElem?_eq_getElem hlt
    obtain ⟨htype, hvalid⟩ := hconforms.child _ field _ t _ hfield hview hmaps
    refine ⟨_, hview, ⟨hvalid, ?_, ?_, ?_⟩, ?_⟩
    · have := hconforms.rows _ (List.mem_of_getElem? hview)
      omega
    · exact h.nulls batch hmem hn m hm' _ hview
    · exact h.strings batch hmem hn m hm' _ hview
    · rw [htype]
      exact hmaps.2

/-- The cell of a slot is its value, unless it is null. -/
theorem ArrowArrayView.cell_slot {view : ArrowArrayView} {p : PrimitiveType}
    (hp : nanoarrowTypeToPrimitive view.storageType = some p) (i : ℕ) :
    Entry.cell (storageKindOf p) (view.slot i) = view.cell i := by
  have hkind : (view.value i).kind = storageKindOf p := by
    rw [value.eq_def]
    cases ht : view.storageType <;> rw [ht] at hp <;> cases hp <;> rfl
  rw [Entry.cell, slot, cell, ← hkind]
  simp only [Value.decode_bytes]

/-- What a timestamp column gives, batch by batch. -/
def stampsOf (timestampColumn : ℤ) (batch : RecordBatch) : List Timestamp :=
  if 0 ≤ timestampColumn then
    (batch.children[timestampColumn.toNat]?.map fun view ↦
      Nanoarrow.extractTimestamps view batch.length).getD []
  else Nanoarrow.generateSequentialTimestamps batch.length

namespace ArrowTable.Cut

variable {table : ArrowTable} {fields : List ArrowField} {timestampColumn : ℤ}
  {batches : List RecordBatch} {batch : RecordBatch}

/-- The timestamp column is there. -/
theorem exists_view (h : table.Cut fields timestampColumn batches) (hmem : batch ∈ batches)
    (hcol : 0 ≤ timestampColumn) : ∃ view, batch.children[timestampColumn.toNat]? = some view := by
  obtain ⟨field, t, p, hfield, -⟩ := h.stamps hcol
  have hlt : timestampColumn.toNat < batch.children.length :=
    (h.conforms batch hmem).children ▸ (List.getElem?_eq_some_iff.mp hfield).1
  exact ⟨_, List.getElem?_eq_getElem hlt⟩

theorem timestamps_eq (h : table.Cut fields timestampColumn batches) (hmem : batch ∈ batches) :
    Nanoarrow.timestamps batch timestampColumn = .ok (stampsOf timestampColumn batch) := by
  rw [Nanoarrow.timestamps, stampsOf]
  split_ifs with hcol
  · obtain ⟨view, hview⟩ := h.exists_view hmem hcol
    rw [hview]
    rfl
  · rfl

theorem length_stampsOf (h : table.Cut fields timestampColumn batches) (hmem : batch ∈ batches) :
    (stampsOf timestampColumn batch).length = batch.length := by
  rw [stampsOf]
  split_ifs with hcol
  · obtain ⟨view, hview⟩ := h.exists_view hmem hcol
    rw [hview]
    exact length_extractTimestamps view batch.length
  · rw [Nanoarrow.generateSequentialTimestamps, List.length_map, List.length_range]

/-- The timestamps handed over are those of the table. -/
theorem toInt_stampsOf (h : table.Cut fields timestampColumn batches) {size : ℕ}
    {mappings : List ArrowColumnMapping} (hi : Importable size mappings timestampColumn batches) :
    (batches.flatMap (stampsOf timestampColumn)).map Int64.toInt = table.stamps := by
  by_cases hcol : 0 ≤ timestampColumn
  · obtain ⟨field, t, p, -, -, -, hstamps⟩ := h.stamps hcol
    apply List.map_injective_iff.mpr (Option.some_injective ℤ)
    rw [← hstamps, List.map_map, List.map_flatMap]
    refine List.flatMap_congr fun batch hmem ↦ ?_
    obtain ⟨view, hview⟩ := h.exists_view hmem hcol
    rw [stampsOf, if_pos hcol, RecordBatch.rowsOf, hview, Option.map_some, Option.getD_some,
      Option.map_some, Option.getD_some, ← List.map_map]
    rcases Nat.eq_zero_or_pos batch.length with hzero | hn
    · rw [hzero]
      rw [List.length_eq_zero_iff.mp (length_extractTimestamps view 0)]
      rfl
    · rw [toInt_extractTimestamps (hi.stamps hcol batch hmem hn view hview), List.map_map,
        hi.offset batch hmem hn]
      refine List.map_congr_left fun r hr ↦ ?_
      -- no row of the timestamp column is null
      have hrow : (if view.isValid (0 + r) then some (view.integer (0 + r)) else none)
          ∈ table.stamps.map some := by
        rw [← hstamps]
        refine List.mem_flatMap.mpr ⟨batch, hmem, ?_⟩
        rw [RecordBatch.rowsOf, hview, Option.map_some, Option.getD_some, hi.offset batch hmem hn]
        exact List.mem_map_of_mem hr
      obtain ⟨x, -, hx⟩ := List.mem_map.mp hrow
      rw [← hx]
      split_ifs at hx with hvalid
      rw [hx, Function.comp_apply, Nat.zero_add]
  · have hneg : timestampColumn < 0 := not_le.mp hcol
    rw [h.sequential hneg, List.map_flatMap, ← h.rowCount, ← flatMap_range_length (hi.single hneg),
      List.map_flatMap]
    refine List.flatMap_congr fun batch hmem ↦ ?_
    rw [stampsOf, if_neg hcol]
    exact toInt_generateSequentialTimestamps (h.conforms batch hmem).length

/-- The cells of the slots handed over are those of the table. -/
theorem cell_slotColumn (h : table.Cut fields timestampColumn batches)
    {mappings : List ArrowColumnMapping} (hm : mappings = mappingsFrom 0 0 fields) {i : ℕ}
    {m : ArrowColumnMapping} (hi : mappings[i]? = some m) :
    (batches.flatMap (Nanoarrow.slotColumn mappings · i)).map (Entry.cell (storageKindOf m.pjType))
      = table.column mappings i := by
  obtain ⟨-, c, field, t, hc, hfield, hmaps⟩ := mappingsFrom_getElem? (hm ▸ hi)
  rw [Nat.zero_add] at hc
  rw [ArrowTable.column, hi, Option.map_some, Option.getD_some, hc,
    ← h.cells c field t m.pjType hfield hmaps, List.map_flatMap]
  refine List.flatMap_congr fun batch hmem ↦ ?_
  have hlt : c < batch.children.length :=
    (h.conforms batch hmem).children ▸ (List.getElem?_eq_some_iff.mp hfield).1
  have hview := List.getElem?_eq_getElem hlt
  obtain ⟨htype, -⟩ := (h.conforms batch hmem).child c field _ t m.pjType hfield hview hmaps
  rw [Nanoarrow.slotColumn, hi, Option.map_some, Option.getD_some, hc, RecordBatch.rowsOf,
    RecordBatch.rowsOf, hview, Option.map_some, Option.getD_some, Option.map_some,
    Option.getD_some, List.map_map]
  exact List.map_congr_left fun r _ ↦ ArrowArrayView.cell_slot (htype ▸ hmaps.2) _

end ArrowTable.Cut

namespace Nanoarrow

/-- An import into a fresh topic shows the table, however it was cut into batches, as long as the
stream avoids what the importer gets wrong. -/
theorem ingestBatchesFromStream_shows {N : Nanoarrow} (hN : N.Documented) {fields : List ArrowField}
    {tree : TypeTreeNode} {mappings : List ArrowColumnMapping} {timestampColumn : ℤ}
    {table : ArrowTable} {batches : List RecordBatch} {v : TopicView}
    (hm : mappingsFromSchema fields = .ok (tree, mappings)) (hv : v.Fresh)
    (hcut : table.Cut fields timestampColumn batches) (hsorted : table.stamps.Pairwise (· ≤ ·))
    (h : Importable v.storage.descriptor.maxChunkRows mappings timestampColumn batches) :
    ∃ v', N.ingestBatchesFromStream fields mappings timestampColumn (some tree) v (batches.map .ok)
        = some (v', .ok ()) ∧
      table.ShownBy mappings v.storage.descriptor.maxChunkRows v'.flush.2 := by
  obtain ⟨hmappings, -, rfl⟩ := mappingsFromSchema_eq_ok hm
  by_cases hrows : ∀ batch ∈ batches, batch.length = 0
  · -- nothing to import
    refine ⟨v, ?_, ?_⟩
    · rw [ingestBatchesFromStream, if_pos (hN.initFromSchema fields hcut.types)]
      exact N.ingestLoop_empty hrows
    · rw [hv.flush]
      refine ArrowTable.shownBy_nil ?_
      rw [← hcut.rowCount, List.sum_eq_zero_iff_forall_eq_nat, List.forall_mem_map]
      exact hrows
  obtain ⟨full, hfull, hne⟩ : ∃ batch ∈ batches, batch.length ≠ 0 := by
    simpa only [not_forall, exists_prop] using hrows
  have hcapacity := h.capacity full hfull (Nat.pos_of_ne_zero hne)
  have hempty : v.Filled (some (makeStruct "arrow_row"
      (mappings.map fun m ↦ makePrimitive m.fieldName m.pjType))) _ [] fun _ ↦ [] :=
    TopicView.filled_empty (by rw [hv.writer]) (by rw [hv.writer])
  rw [hv.columns mappings] at hempty
  have hstamps := hcut.toInt_stampsOf h
  obtain ⟨v', hloop, hstorage, hfilled⟩ := ingestLoop_filled hN hmappings hempty hcapacity
    hcut.conforms (fun batch hmem hn ↦ h.readableBatch hmappings hmem (hcut.conforms batch hmem) hn)
    (fun batch hmem ↦ hcut.length_stampsOf hmem) (fun batch hmem _ ↦ hcut.timestamps_eq hmem)
    (pairwise_of_toInt (by rw [List.nil_append, hstamps]; exact hsorted))
  refine ⟨v', ?_, ?_⟩
  · rw [ingestBatchesFromStream, if_pos (hN.initFromSchema fields hcut.types)]
    exact hloop
  have hlength : (batches.flatMap (stampsOf timestampColumn)).length = table.rowCount := by
    rw [List.length_flatMap, ← hcut.rowCount]
    congr 1
    exact List.map_congr_left fun batch hmem ↦ hcut.length_stampsOf hmem
  obtain ⟨hcount, hchunks⟩ := hfilled.flush (hstorage ▸ hcapacity)
  rw [hstorage] at hcount hchunks
  simp only [List.nil_append] at hcount hchunks
  refine ⟨hcount.trans (by rw [hlength]), fun k chunk hk ↦ ?_⟩
  -- the column of mapping `i`, in the rows of the chunk
  have hcolumn : ∀ i d, (arrowColumns mappings)[i]? = some d → ∃ m, mappings[i]? = some m ∧
      d.kind = storageKindOf m.pjType ∧
      ∀ batch, slotColumn mappings batch i
        = batch.rowsOf ArrowArrayView.slot m.arrowColumnIndex := by
    intro i d hd
    obtain ⟨m, hi, hk⟩ := arrowColumns_getElem? hd
    exact ⟨m, hi, hk, fun batch ↦ by rw [slotColumn, hi]; rfl⟩
  have hbulk : ∀ i d, (arrowColumns mappings)[i]? = some d →
      ∀ e ∈ block v.storage.descriptor.maxChunkRows k (batches.flatMap (slotColumn mappings · i)),
        e.bulk = true := by
    intro i d hd e he
    obtain ⟨m, -, -, hslots⟩ := hcolumn i d hd
    obtain ⟨batch, -, he⟩ := List.mem_flatMap.mp (List.mem_of_mem_drop (List.mem_of_mem_take he))
    rw [hslots, RecordBatch.rowsOf] at he
    rcases hview : batch.children[m.arrowColumnIndex]? with _ | view
    · simp [hview] at he
    · rw [hview, Option.map_some, Option.getD_some] at he
      obtain ⟨r, -, rfl⟩ := List.mem_map.mp he
      rfl
  have hstore : ∀ i d, (arrowColumns mappings)[i]? = some d → Storable d.kind
      (block v.storage.descriptor.maxChunkRows k (batches.flatMap (slotColumn mappings · i))) := by
    intro i d hd
    obtain ⟨m, hi, hkind, hslots⟩ := hcolumn i d hd
    simp only [hkind, hslots]
    exact h.storable m (List.mem_of_getElem? hi) k
  have hcells : ∀ i d, (arrowColumns mappings)[i]? = some d →
      (block v.storage.descriptor.maxChunkRows k (batches.flatMap (slotColumn mappings · i))).map
          (Entry.cell d.kind)
        = block v.storage.descriptor.maxChunkRows k (table.column mappings i) := by
    intro i d hd
    obtain ⟨m, hi, hkind, -⟩ := hcolumn i d hd
    rw [hkind, map_block, hcut.cell_slotColumn hmappings hi]
  obtain ⟨hrows, hcols, hts, hshows⟩ := (hchunks k chunk hk).shows hbulk hstore hcells
  refine ⟨?_, hcols.trans (length_arrowColumns mappings), ?_, length_arrowColumns mappings ▸ hshows⟩
  · rw [hrows, ← hstamps, ← map_block, List.length_map]
  · rw [hts, map_block, hstamps]

/-- A nanoarrow that does what it is documented to do. -/
def reference : Nanoarrow where
  initFromSchema _ := true
  setArray _ _ := true
  getIntUnsafe view i :=
    if view.storageType = .bool then if Bits.get view.data (view.offset + i) then 1 else 0
    else .ofInt (view.integer i)
  getUIntUnsafe view i := .ofInt (view.integer i)

theorem reference_documented : reference.Documented where
  initFromSchema _ _ := rfl
  setArray _ _ _ := rfl
  getInt view i _ _ ht := by
    have hne : view.storageType ≠ .bool := by rcases ht with ht | ht <;> rw [ht] <;> decide
    exact if_neg hne
  getBool view i _ _ ht := by
    simp only [reference, if_pos ht]
    split_ifs with hbit <;> simp [hbit]
  getUInt _ _ _ _ _ := rfl

/-- A column of 64-bit integers without nulls. -/
def int64View (offset length : ℕ) (values : List ℕ) : ArrowArrayView where
  storageType := .int64
  length := length
  offset := offset
  nullCount := 0
  validity := none
  data := values.flatMap (LittleEndian.bytes 8)

theorem int64View_valid {offset length : ℕ} {values : List ℕ}
    (h : offset + length = values.length) : (int64View offset length values).Valid where
  nullCount := by
    refine .inr (Int.ofNat_inj.mpr ?_)
    rw [ArrowArrayView.nulls, eq_comm, List.countP_eq_zero]
    exact fun i _ ↦ by simp [int64View, ArrowArrayView.isValid]
  bitmap _ h := nomatch h
  buffers _ := by
    have hdata : (values.flatMap (LittleEndian.bytes 8)).length = values.length * 8 := by
      simp [List.length_flatMap]
    change (offset + length) * 8 ≤ (values.flatMap (LittleEndian.bytes 8)).length
    rw [hdata, h]

/-- Batches of one column of 64-bit integers conform to the schema. -/
theorem int64View_conforms {name : String} {offset length : ℕ} {values : List ℕ}
    (h : offset + length = values.length) (hlt : length < 2 ^ 63) :
    RecordBatch.Conforms [⟨some name, some .int64⟩]
      ⟨length, 0, [int64View offset length values]⟩ where
  length := hlt
  children := rfl
  rows view hview := by
    obtain rfl := List.mem_singleton.mp hview
    exact (Nat.zero_add length).le
  child c field view t p hfield hview hmaps := by
    obtain rfl := List.mem_singleton.mp (List.mem_of_getElem? hview)
    obtain rfl := List.mem_singleton.mp (List.mem_of_getElem? hfield)
    exact ⟨Option.some.inj hmaps.1, int64View_valid h⟩

/-- A topic nobody has written to. -/
def freshView : TopicView := { storage := { topicId := 1, descriptor := { name := "imported" } } }

theorem freshView_fresh : freshView.Fresh := ⟨rfl, rfl, rfl⟩

/-- Two batches of timestamps, the second one behind an offset. -/
def stampBatches : List RecordBatch :=
  [⟨2, 0, [int64View 0 2 [5, 7]]⟩, ⟨1, 0, [int64View 1 1 [0, 9]]⟩]

theorem stampBatches_conforms :
    ∀ batch ∈ stampBatches, batch.Conforms [⟨some "t", some .int64⟩] := by
  simp only [stampBatches, List.forall_mem_cons]
  exact ⟨int64View_conforms rfl (by decide), int64View_conforms rfl (by decide), by simp⟩

theorem stampBatches_cells (c : ℕ) (field : ArrowField) (t : ArrowType) (p : PrimitiveType)
    (hfield : [(⟨some "t", some .int64⟩ : ArrowField)][c]? = some field) (_ : field.Maps t p) :
    stampBatches.flatMap (RecordBatch.rowsOf ArrowArrayView.cell c)
      = [some (.int64 5), some (.int64 7), some (.int64 9)] := by
  obtain ⟨hc, -⟩ := List.getElem?_eq_some_iff.mp hfield
  obtain rfl : c = 0 := Nat.lt_one_iff.mp hc
  decide +kernel

theorem stampBatches_views {batch : RecordBatch} (hbatch : batch ∈ stampBatches) {c : ℕ}
    {view : ArrowArrayView} (hview : view ∈ batch.children[c]?) :
    view.storageType = .int64 ∧ view.nullCount = 0 := by
  have hall : ∀ batch ∈ stampBatches, ∀ view ∈ batch.children,
      view.storageType = .int64 ∧ view.nullCount = 0 := by decide
  exact hall batch hbatch view (List.mem_of_getElem? hview)

theorem ingestBatchesFromStream_shows_stampBatches :
    ∃ v', reference.ingestBatchesFromStream [⟨some "t", some .int64⟩] [⟨0, 0, .int64, "t"⟩] 0
        (some (makeStruct "arrow_row" [makePrimitive "t" .int64])) freshView
        (stampBatches.map .ok) = some (v', .ok ()) ∧
      ArrowTable.ShownBy ⟨3, [5, 7, 9], fun _ ↦ [some (.int64 5), some (.int64 7), some (.int64 9)]⟩
        [⟨0, 0, .int64, "t"⟩] 1024 v'.flush.2 := by
  refine ingestBatchesFromStream_shows reference_documented rfl freshView_fresh ?_ (by decide) ?_
  · refine ⟨by simp, stampBatches_conforms, rfl, stampBatches_cells, fun _ ↦ ?_,
      fun h ↦ absurd h (by decide)⟩
    exact ⟨_, .int64, .int64, rfl, ⟨rfl, rfl⟩, rfl, by decide +kernel⟩
  · constructor
    · exact fun _ _ _ ↦ by decide
    · exact fun h ↦ absurd h (by decide)
    · decide
    · exact fun _ batch hbatch _ view hview ↦ .inl (stampBatches_views hbatch hview).1
    · intro batch hbatch _ m _ view hview hcount
      rw [(stampBatches_views hbatch hview).2] at hcount
      exact absurd hcount (by decide)
    · intro batch hbatch _ m _ view hview
      rw [(stampBatches_views hbatch hview).1]
      decide
    · intro m hm k
      obtain rfl := List.mem_singleton.mp hm
      exact ⟨fun h ↦ absurd h (by decide), fun h ↦ absurd h (by decide)⟩

/-- Without a timestamp column the second batch counts from zero again and is refused. -/
theorem ingestBatchesFromStream_not_shows :
    ¬ ∀ (N : Nanoarrow), N.Documented → ∀ (fields : List ArrowField) (tree : TypeTreeNode)
      (mappings : List ArrowColumnMapping) (timestampColumn : ℤ) (table : ArrowTable)
      (batches : List RecordBatch) (v : TopicView),
      mappingsFromSchema fields = .ok (tree, mappings) → v.Fresh →
      0 < v.storage.descriptor.maxChunkRows →
      table.Cut fields timestampColumn batches → table.stamps.Pairwise (· ≤ ·) →
      ∃ v', N.ingestBatchesFromStream fields mappings timestampColumn (some tree) v
          (batches.map .ok) = some (v', .ok ()) ∧
        table.ShownBy mappings v.storage.descriptor.maxChunkRows v'.flush.2 := by
  intro hall
  have hcut : ArrowTable.Cut ⟨3, [0, 1, 2], fun _ ↦ [some (.int64 5), some (.int64 7),
      some (.int64 9)]⟩ [⟨some "t", some .int64⟩] (-1) stampBatches :=
    ⟨by simp, stampBatches_conforms, rfl, stampBatches_cells, fun h ↦ absurd h (by decide),
      fun _ ↦ rfl⟩
  have hrefused : (reference.ingestBatchesFromStream [⟨some "t", some .int64⟩]
      [⟨0, 0, .int64, "t"⟩] (-1) (some (makeStruct "arrow_row" [makePrimitive "t" .int64]))
      freshView (stampBatches.map .ok)).map Prod.snd
        = some (.error (.write (.outOfOrder 0 1))) := by
    decide +kernel
  obtain ⟨v', hv', -⟩ := hall reference reference_documented [⟨some "t", some .int64⟩]
    (makeStruct "arrow_row" [makePrimitive "t" .int64]) [⟨0, 0, .int64, "t"⟩] (-1) _ stampBatches
    freshView rfl freshView_fresh (by decide) hcut (by decide)
  rw [hv'] at hrefused
  cases hrefused

end Nanoarrow

end PlotJuggler
