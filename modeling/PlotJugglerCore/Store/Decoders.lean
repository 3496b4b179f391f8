import PlotJugglerCore.Store.RoundTrip

/-!
# The decoders of a sealed chunk

Two properties of the encodings as `seal` uses them. Frame of reference is lossless for every list
whose offsets are narrower than the values, and `seal` hands it no other list. And
`readColumnAsDoubles`, which decodes a range with a dispatch and an offset arithmetic of its own,
agrees with `readNumericAsDouble` cell by cell, except for a `bool` column in constant form: the
constant does not know that it stands for bools.
-/

namespace PlotJuggler

open LittleEndian
open ColumnBuilder (foldl_min_le le_foldl_max)
open TypedColumnBuffer (Slot)

/-! ## Frame of reference -/

/-- `m` and `M` are the exact minimum and maximum of `vs`. -/
structure IsRange (vs : List Int64) (m M : Int64) : Prop where
  min_mem : m ∈ vs
  min_le : ∀ v ∈ vs, m ≤ v
  max_mem : M ∈ vs
  le_max : ∀ v ∈ vs, v ≤ M

theorem foldl_min_mem (vs : List Int64) (a : Int64) : vs.foldl min a ∈ a :: vs := by
  induction vs generalizing a with
  | nil => exact List.mem_singleton_self a
  | cons v vs ih =>
    rcases List.mem_cons.mp (ih (min a v)) with h | h
    · rw [List.foldl_cons, h]
      rcases min_choice a v with e | e <;> simp [e]
    · exact List.mem_cons_of_mem a (List.mem_cons_of_mem v h)

theorem foldl_max_mem (vs : List Int64) (a : Int64) : vs.foldl max a ∈ a :: vs := by
  induction vs generalizing a with
  | nil => exact List.mem_singleton_self a
  | cons v vs ih =>
    rcases List.mem_cons.mp (ih (max a v)) with h | h
    · rw [List.foldl_cons, h]
      rcases max_choice a v with e | e <;> simp [e]
    · exact List.mem_cons_of_mem a (List.mem_cons_of_mem v h)

/-- The scan of `seal` starts from the ends of `int64_t`, which bound every value, so what it finds
in a column with rows is one of the values. -/
theorem isRange_foldl {vs : List Int64} (hne : vs ≠ []) :
    IsRange vs (vs.foldl min Int64.maxValue) (vs.foldl max Int64.minValue) := by
  obtain ⟨x, hx⟩ := List.exists_mem_of_ne_nil vs hne
  refine ⟨?_, fun v ↦ foldl_min_le vs _ v, ?_, fun v ↦ le_foldl_max vs _ v⟩
  · rcases List.mem_cons.mp (foldl_min_mem vs Int64.maxValue) with h | h
    · have hle := foldl_min_le vs Int64.maxValue x hx
      rw [h] at hle
      have hxmax : x = Int64.maxValue := Int64.le_antisymm x.le_maxValue hle
      rwa [h, ← hxmax]
    · exact h
  · rcases List.mem_cons.mp (foldl_max_mem vs Int64.minValue) with h | h
    · have hle := le_foldl_max vs Int64.minValue x hx
      rw [h] at hle
      have hxmin : x = Int64.minValue := Int64.le_antisymm hle x.minValue_le
      rwa [h, ← hxmin]
    · exact h

/-- Below the escape width the unsigned difference is the true range, and fits four bytes. -/
theorem IsRange.lt_of_offsetBytesFor {vs : List Int64} {m M : Int64} (h : IsRange vs m M)
    (hbytes : offsetBytesFor (M - m).toUInt64 < 8) : M.toInt - m.toInt < 2 ^ 32 := by
  have hwidth : offsetWidth (offsetBytesFor (M - m).toUInt64) ≤ 4 := by
    rw [offsetBytesFor]
    split_ifs <;> decide
  have hlt : (M - m).toUInt64.toNat < 256 ^ 4 :=
    (lt_offsetWidth hbytes).trans_le (Nat.pow_le_pow_right (by decide) hwidth)
  have htrue := Int64.toNat_toUInt64_sub (h.min_le M h.max_mem)
  omega

theorem forDecode_forEncode_raws {d : ColumnSpan} (hk : d.kind ≠ .string) {vs : List Int64}
    (hvs : vs = d.values.map Value.asInt64) {m M : Int64} (h : IsRange vs m M)
    (hbytes : offsetBytesFor (M - m).toUInt64 < 8) {r : ℕ} (hr : r < vs.length) :
    forDecodeOneAsInt64 (forEncode d.raws.flatten d.kind vs.length m M) r = vs[r] := by
  have hread : readInteger d.raws.flatten d.kind r = vs[r] := by
    have hsize : ∀ p ∈ d.raws, p.length = storageKindSize d.kind := fun p hp ↦
      ColumnSpan.length_of_mem_raws hk hp
    have hvalue : (d.raws.map d.kind.decode).map Value.asInt64 = vs := by
      rw [hvs, ColumnSpan.map_decode_raws]
    have hlen : r < d.raws.length := by simpa [← hvalue] using hr
    rw [readInteger, element_flatten hsize, List.getD_eq_getElem _ _ hlen]
    simp only [← hvalue, List.getElem_map]
  have hmem : readInteger d.raws.flatten d.kind r ∈ vs := hread ▸ List.getElem_mem hr
  rw [forDecodeOneAsInt64_forEncode hr (h.min_le _ hmem) (h.le_max _ hmem) hbytes, hread]

/-- Every list of integers whose offsets are narrower than its values comes back, and `seal`
encodes only lists whose true range is below `2 ^ 32`. -/
theorem frameOfReference_lossless :
    (∀ (d : List Int32) (m M : Int64), IsRange (d.map Int32.toInt64) m M →
      offsetBytesFor (M - m).toUInt64 < storageKindSize .int32 →
      ∀ (r : ℕ) (hr : r < d.length), forDecodeOneAsInt64
        (forEncode (ColumnSpan.int32 d).raws.flatten .int32 d.length m M) r = d[r].toInt64) ∧
    (∀ (d : List Int64) (m M : Int64), IsRange d m M →
      offsetBytesFor (M - m).toUInt64 < storageKindSize .int64 →
      ∀ (r : ℕ) (hr : r < d.length), forDecodeOneAsInt64
        (forEncode (ColumnSpan.int64 d).raws.flatten .int64 d.length m M) r = d[r]) ∧
    ∀ c : ColumnBuilder, c.kind = .int32 ∨ c.kind = .int64 →
      (∃ m M, IsRange ((List.range c.buffer.rowCount).map (readInteger c.buffer.values c.kind)) m M ∧
        M.toInt - m.toInt < 2 ^ 32 ∧ c.encode = .frameOfReference
          (forEncode c.buffer.values c.kind c.buffer.rowCount m M)) ∨
      c.encode = .constant (constantEncode c.buffer.values c.kind c.buffer.rowCount) ∨
      c.encode = .raw c.buffer.values := by
  refine ⟨fun d m M h hbytes r hr ↦ ?_, fun d m M h hbytes r hr ↦ ?_, fun c hk ↦ ?_⟩
  · have hvs : d.map Int32.toInt64 = (ColumnSpan.int32 d).values.map Value.asInt64 := by
      rw [ColumnSpan.values, List.map_map]
      rfl
    have := forDecode_forEncode_raws (d := .int32 d) (r := r) (by simp [ColumnSpan.kind])
      hvs h (hbytes.trans (by decide)) (by rwa [List.length_map])
    simpa [List.length_map, ColumnSpan.kind] using this
  · have hvs : d = (ColumnSpan.int64 d).values.map Value.asInt64 := by
      rw [ColumnSpan.values, List.map_map]
      exact (List.map_id d).symm
    exact forDecode_forEncode_raws (d := .int64 d) (by simp [ColumnSpan.kind]) hvs h hbytes hr
  · have hencode : c.encode = ColumnBuilder.encodeInteger c.buffer := by
      rw [ColumnBuilder.encode]
      rcases hk with hk | hk <;> rw [hk]
    have hsize : storageKindSize c.buffer.kind ≤ 8 := by
      rcases hk with hk | hk <;> rw [ColumnBuilder.kind] at hk <;> rw [hk] <;> decide
    rw [hencode, ColumnBuilder.encodeInteger, ColumnBuilder.encodeInteger.encodeValues]
    split_ifs with hconst hfor
    · exact .inr (.inl rfl)
    · have hne : (List.range c.buffer.rowCount).map (readInteger c.buffer.values c.kind) ≠ [] := by
        rw [ne_eq, List.map_eq_nil_iff, List.range_eq_nil]
        exact hfor.1.ne'
      have hrange := isRange_foldl hne
      exact .inl ⟨_, _, hrange, hrange.lt_of_offsetBytesFor (hfor.2.trans_le hsize), rfl⟩
    · exact .inr (.inr rfl)

/-- A minimum at the lower end of the range, and offsets of one byte. -/
theorem frameOfReference_lossless_minValue :
    forDecodeOneAsInt64 (forEncode
      (ColumnSpan.int64 [Int64.minValue, Int64.minValue + 255]).raws.flatten .int64 2
        Int64.minValue (Int64.minValue + 255)) 1 = Int64.minValue + 255 :=
  frameOfReference_lossless.2.1 [Int64.minValue, Int64.minValue + 255] _ _
    ⟨by simp, by simp, by simp, by simp⟩ (by decide) 1 (by decide)

/-! ## Reading a range -/

/-- The offsets of the range start `row_start` widths into the buffer. -/
def forDecodeRangeAsDoubles (enc : FrameOfReferenceEncoded) (rowStart count : ℕ) : List Binary64 :=
  (List.range count).map fun i ↦ .ofInt ((Binary64.ofInt enc.reference.toInt).truncate +
    (Binary64.ofNat (forReadOffset (enc.offsets.drop (rowStart * offsetWidth enc.offsetBytes)) i
      enc.offsetBytes).toNat).truncate)

namespace Column

/-- The first half of `readColumnAsDoubles`: decode, whatever is null. -/
def decodeRange (c : Column) (rowStart count : ℕ) : List Binary64 :=
  match c.data with
  | .constant enc => List.replicate count enc.value.asDouble
  | .frameOfReference enc => forDecodeRangeAsDoubles enc rowStart count
  | .raw buf =>
    match c.descriptor.kind with
    | .bool => List.replicate count .quietNaN
    | .string => List.replicate count .quietNaN
    | k => (List.range count).map fun i ↦
        (k.decode (element (buf.drop (rowStart * storageKindSize k)) (storageKindSize k) i)).asDouble
  | _ => List.replicate count .quietNaN

/-- The second half writes NaN over the nulls. -/
def readColumnAsDoubles (c : Column) (rowStart count : ℕ) : List Binary64 :=
  match c.validityBitmap with
  | none => c.decodeRange rowStart count
  | some bm => (c.decodeRange rowStart count).mapIdx fun i x ↦
      if bm.isValid (rowStart + i) then x else .quietNaN

/-- What a range read is to write for one cell. -/
def cellAsDouble (c : Column) (row : ℕ) : Binary64 :=
  if c.isNull row = true ∨ c.descriptor.kind = .bool ∨ c.descriptor.kind = .string then .quietNaN
  else c.readNumericAsDouble row

/-- A column in constant form that stands for bools. -/
def IsConstantBool (c : Column) : Prop :=
  c.descriptor.kind = .bool ∧ ∃ enc, c.data = .constant enc

end Column

/-- `TopicChunk::readColumnAsDoubles`, `none` when there is no such column. -/
def TopicChunk.readColumnAsDoubles (chunk : TopicChunk) (col rowStart count : ℕ) :
    Option (List Binary64) :=
  chunk.columns[col]?.map (·.readColumnAsDoubles rowStart count)

theorem element_drop (buf : List UInt8) (size start i : ℕ) :
    element (buf.drop (start * size)) size i = element buf size (start + i) := by
  rw [element, element, List.drop_drop, Nat.add_mul]

/-- The offset arithmetic of the range read is that of the reads of its rows. -/
theorem forDecodeRangeAsDoubles_eq (enc : FrameOfReferenceEncoded) (rowStart count : ℕ) :
    forDecodeRangeAsDoubles enc rowStart count
      = (List.range count).map fun i ↦ forDecodeOneAsDouble enc (rowStart + i) := by
  rw [forDecodeRangeAsDoubles]
  refine List.map_congr_left fun i _ ↦ ?_
  rw [forDecodeOneAsDouble, forReadOffset, forReadOffset, element_drop]

namespace Column

variable {c : Column} {rowStart count : ℕ}

/-- What the first half writes for one row. -/
def decodeRow (c : Column) (row : ℕ) : Binary64 :=
  match c.data with
  | .constant _ => c.readNumericAsDouble row
  | .frameOfReference _ => c.readNumericAsDouble row
  | .raw _ =>
    if c.descriptor.kind = .bool ∨ c.descriptor.kind = .string then .quietNaN
    else c.readNumericAsDouble row
  | _ => .quietNaN

theorem map_range_const {α : Type*} (n : ℕ) (x : α) :
    (List.range n).map (fun _ ↦ x) = List.replicate n x := by
  rw [List.map_const', List.length_range]

theorem decodeRange_eq (c : Column) (rowStart count : ℕ) :
    c.decodeRange rowStart count = (List.range count).map fun i ↦ c.decodeRow (rowStart + i) := by
  simp only [decodeRange, decodeRow, readNumericAsDouble]
  cases hdata : c.data with
  | raw buf =>
    simp only
    rcases hk : c.descriptor.kind <;>
      simp only [reduceCtorEq, or_self, or_true, true_or, if_true, if_false, element_drop,
        map_range_const]
  | constant enc => exact (map_range_const count _).symm
  | frameOfReference enc => exact forDecodeRangeAsDoubles_eq enc rowStart count
  | dictionary enc => exact (map_range_const count _).symm
  | packedBools enc => exact (map_range_const count _).symm

/-- With a bitmap that is not empty both halves see the same nulls. -/
theorem readColumnAsDoubles_eq (hbm : ∀ bm ∈ c.validityBitmap, bm.isEmpty = false)
    (rowStart count : ℕ) : c.readColumnAsDoubles rowStart count = (List.range count).map fun i ↦
      if c.isNull (rowStart + i) = true then .quietNaN else c.decodeRow (rowStart + i) := by
  rw [readColumnAsDoubles, decodeRange_eq]
  rcases hv : c.validityBitmap with _ | bm
  · simp [isNull, hv]
  · refine List.ext_getElem (by simp) fun i hi hi' ↦ ?_
    simp only [List.getElem_mapIdx, List.getElem_map, List.getElem_range, isNull, hv,
      hbm bm hv, Bool.not_false, Bool.true_and]
    cases bm.isValid (rowStart + i) <;> simp

end Column

namespace ColumnBuilder

variable {c : ColumnBuilder} {slots : List Slot}

/-- `seal` hands over a bitmap only with a null in it, and then the bitmap has bits. -/
theorem isEmpty_validityBitmap (hb : c.buffer.Holds slots) :
    ∀ bm ∈ c.sealColumn.validityBitmap, bm.isEmpty = false := by
  intro bm hbm
  rw [sealColumn] at hbm
  split_ifs at hbm with hnulls
  · obtain rfl := Option.some.inj hbm
    obtain ⟨s, hs, hinvalid⟩ := hb.hasNulls.mp hnulls
    have hbits := hb.validity
    split_ifs at hbits with hinit
    · rw [BitVector.isEmpty, hbits.bitCount, List.length_map, beq_eq_false_iff_ne]
      exact (List.length_pos_of_mem hs).ne'
    · rw [hbits s hs] at hinvalid
      exact absurd hinvalid (by decide)
  · exact absurd hbm (by simp)

/-- Of the columns of bools and strings only the constant ones decode to anything but NaN. -/
theorem decodeRow_sealColumn (hc : ¬ c.sealColumn.IsConstantBool) (row : ℕ) :
    c.sealColumn.decodeRow row =
      if c.kind = .bool ∨ c.kind = .string then .quietNaN
      else c.sealColumn.readNumericAsDouble row := by
  have hdesc : c.sealColumn.descriptor.kind = c.kind := rfl
  rw [Column.IsConstantBool, hdesc] at hc
  rw [Column.decodeRow, hdesc]
  rcases hk : c.kind
  case bool =>
    have hpacked : c.sealColumn.data = .packedBools (packBools (c.buffer.values.take
        c.buffer.rowCount)) := by
      have hencode : c.sealColumn.data = c.encode := rfl
      rw [hencode, encode, hk] at hc ⊢
      simp only at hc ⊢
      split_ifs at hc ⊢ with hconst
      · exact absurd ⟨trivial, _, rfl⟩ hc
      · rfl
    rw [hpacked]
    rfl
  case string =>
    have hdict : ∃ enc, c.sealColumn.data = .dictionary enc := ⟨_, by
      have hencode : c.sealColumn.data = c.encode := rfl
      rw [hencode, encode, hk]⟩
    obtain ⟨enc, hdict⟩ := hdict
    rw [hdict]
    rfl
  all_goals
    have hencode : c.sealColumn.data = c.encode := rfl
    rw [Column.readNumericAsDouble, hencode, encode, hk]
    simp only [encodeInteger, encodeInteger.encodeValues]
    split_ifs <;> simp_all

/-- The zero a constant of bools decodes to is a number. -/
theorem decodeRow_of_isConstantBool (hc : c.sealColumn.IsConstantBool) (row : ℕ) :
    c.sealColumn.decodeRow row = .zero := by
  obtain ⟨hk, enc, henc⟩ := hc
  have hkind : c.kind = .bool := hk
  have hdata := henc
  have hencode : c.sealColumn.data = c.encode := rfl
  rw [hencode, encode, hkind] at hdata
  simp only at hdata
  split_ifs at hdata
  · obtain rfl := EncodedData.constant.inj hdata
    rw [Column.decodeRow, henc, Column.readNumericAsDouble, henc]
    rfl

end ColumnBuilder

namespace TopicChunkBuilder

/-- A range read writes what the cell reads say, unless it meets a value of a `bool` column that
was stored in constant form. -/
theorem readColumnAsDoubles_iff {topicId schemaId maxRows id : ℕ} {cols : List ColumnDescriptor}
    {run : List Append} {b : TopicChunkBuilder} (hwf : ∀ a ∈ run, a.WellFormed cols.length)
    (hrun : run.foldlM Append.run (new topicId schemaId cols maxRows) = some b)
    {i : ℕ} {col : Column} (hcol : (b.sealChunk id).columns[i]? = some col) (rowStart count : ℕ) :
    (b.sealChunk id).readColumnAsDoubles i rowStart count
        = some ((List.range count).map fun k ↦ col.cellAsDouble (rowStart + k))
      ↔ ¬(col.IsConstantBool ∧ ∃ k < count, col.isNull (rowStart + k) = false) := by
  obtain ⟨al, -⟩ := (aligned_new topicId schemaId cols maxRows).run hwf hrun
  rw [TopicChunk.readColumnAsDoubles, hcol, Option.map_some, Option.some_inj]
  rw [sealChunk, List.getElem?_map] at hcol
  obtain ⟨c, hc, rfl⟩ := Option.map_eq_some_iff.mp hcol
  obtain ⟨d, hd, -⟩ := al.tracks.exists_descriptor hc
  have hholds := (al.tracks.column i d c hd hc).holds
  rw [Column.readColumnAsDoubles_eq (ColumnBuilder.isEmpty_validityBitmap hholds)]
  by_cases hbool : c.sealColumn.IsConstantBool
  · -- the constant decodes to zero, so the range has to be null throughout
    have hcell : ∀ row, c.sealColumn.cellAsDouble row = .quietNaN := by
      intro row
      rw [Column.cellAsDouble, if_pos (.inr (.inl hbool.1))]
    simp only [hcell, ColumnBuilder.decodeRow_of_isConstantBool hbool, hbool, true_and,
      List.map_inj_left, List.mem_range, not_exists, not_and, Bool.not_eq_false]
    refine forall₂_congr fun k _ ↦ ?_
    cases c.sealColumn.isNull (rowStart + k)
    · simp only [Bool.false_eq_true, if_false, iff_false]
      decide
    · simp
  · refine iff_of_true (List.map_congr_left fun k _ ↦ ?_) fun h ↦ hbool h.1
    rw [Column.cellAsDouble, ColumnBuilder.decodeRow_sealColumn hbool]
    have hdesc : c.sealColumn.descriptor.kind = c.kind := rfl
    rw [hdesc]
    cases c.sealColumn.isNull (rowStart + k) <;> simp

/-- Integers around a null, from the second row on. -/
theorem readColumnAsDoubles_integers :
    ∃ b, [Append.row 10 [.set 0 (.int32 7)], .row 20 [.setNull 0], .row 30 [.set 0 (.int32 9)]].foldlM
        Append.run (new 1 0 [⟨0, .int32, "count"⟩] 1024) = some b ∧
      ∃ col, (b.sealChunk 1).columns[0]? = some col ∧
        (b.sealChunk 1).readColumnAsDoubles 0 1 2
          = some ((List.range 2).map fun k ↦ col.cellAsDouble (1 + k)) := by
  have hkind : ((List.foldlM Append.run (new 1 0 [⟨0, .int32, "count"⟩] 1024)
      [.row 10 [.set 0 (.int32 7)], .row 20 [.setNull 0], .row 30 [.set 0 (.int32 9)]]).bind
        fun b ↦ (b.sealChunk 1).columns[0]?.map (·.descriptor.kind)) = some .int32 := by
    decide +kernel
  obtain ⟨b, hrun, hcol⟩ := Option.bind_eq_some_iff.mp hkind
  obtain ⟨col, hcol, hk⟩ := Option.map_eq_some_iff.mp hcol
  refine ⟨b, hrun, col, hcol, (readColumnAsDoubles_iff ?_ hrun hcol
    1 2).mpr fun h ↦ ?_⟩
  · simp [Append.WellFormed]
  · exact absurd (hk.symm.trans h.1.1) (by decide)

/-- One row that is true: the range read writes a zero. -/
theorem readColumnAsDoubles_not_cellAsDouble :
    ¬ ∀ (cols : List ColumnDescriptor) (run : List Append) (b : TopicChunkBuilder) (id i : ℕ)
      (col : Column) (rowStart count : ℕ), (∀ a ∈ run, a.WellFormed cols.length) →
      run.foldlM Append.run (new 1 0 cols 1024) = some b →
      (b.sealChunk id).columns[i]? = some col → rowStart + count ≤ (b.sealChunk id).stats.rowCount →
      (b.sealChunk id).readColumnAsDoubles i rowStart count
        = some ((List.range count).map fun k ↦ col.cellAsDouble (rowStart + k)) := by
  intro hall
  have hread : (List.foldlM Append.run (new 1 0 [⟨0, .bool, "flag"⟩] 1024)
      [.row 10 [.set 0 (.bool true)]]).bind (fun b ↦ (b.sealChunk 1).columns[0]?.map fun col ↦
        ((b.sealChunk 1).stats.rowCount, (b.sealChunk 1).readColumnAsDoubles 0 0 1,
          col.cellAsDouble 0)) = some (1, some [.zero], .quietNaN) := by
    decide +kernel
  obtain ⟨b, hrun, hcol⟩ := Option.bind_eq_some_iff.mp hread
  obtain ⟨col, hcol, hvalues⟩ := Option.map_eq_some_iff.mp hcol
  obtain ⟨hrows, hvalues⟩ := Prod.mk.inj hvalues
  obtain ⟨hzero, hnan⟩ := Prod.mk.inj hvalues
  have hshown := hall [⟨0, .bool, "flag"⟩] _ b 1 0 col 0 1 (by simp [Append.WellFormed]) hrun hcol
    hrows.ge
  have hcells : (List.range 1).map (fun k ↦ col.cellAsDouble (0 + k)) = [.quietNaN] := by
    rw [← hnan]
    rfl
  rw [hzero, hcells] at hshown
  exact absurd hshown (by decide)

end TopicChunkBuilder

end PlotJuggler
