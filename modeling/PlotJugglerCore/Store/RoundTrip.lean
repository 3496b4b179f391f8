import PlotJugglerCore.Store.Builder

/-!
# What a sealed chunk reads back

`seal` chooses the encoding of each column, and the typed readers undo it. Nulls always come back,
and so do the values of `int32` and `int64` columns, whose constancy `seal` decides by an exact
scan, and of string columns, which always get a dictionary. A `uint64` or `bool` column is encoded
as a constant when its statistics say so, and a constant stands for the bytes of row zero. The
statistics compare doubles, and row zero may be null, so there the column reads back only if a
column that *seems* constant really repeats what lies in row zero. `seenConstant` is the closed form
of "seems constant", and `sealChunk_roundTrips_iff` says that this is the whole difference.
-/

namespace PlotJuggler

open LittleEndian
open TypedColumnBuffer (Slot byteCount)

/-! ## Columns that seem constant -/

/-- Every value behind the first one is the same double. -/
def sameDouble (k : StorageKind) (v : Binary64) (h : List Entry) : Prop :=
  ∀ e ∈ h, e.valid = true → Binary64.eq (e.double k) v = true

/-- After a null in row zero: the row path compares with `v`, the last value a column starts with,
until the bulk path stores a value without comparing it and a run of equal doubles begins. -/
def seenConstantAfterNull (k : StorageKind) (v : Binary64) : List Entry → Prop
  | [] => True
  | e :: h =>
    if e.valid = true then
      if e.bulk = true then sameDouble k (e.double k) h
      else Binary64.eq (e.double k) v = true ∧ seenConstantAfterNull k v h
    else seenConstantAfterNull k v h

/-- The statistics of a column with this history say that it is constant. -/
def seenConstant (k : StorageKind) : List Entry → Prop
  | [] => True
  | e :: h =>
    if e.valid = true then sameDouble k (e.double k) h
    else seenConstantAfterNull k .zero h

instance decidableSameDouble (k : StorageKind) (v : Binary64) (h : List Entry) :
    Decidable (sameDouble k v h) := by
  unfold sameDouble
  infer_instance

instance decidableSeenConstantAfterNull (k : StorageKind) (v : Binary64) :
    ∀ h : List Entry, Decidable (seenConstantAfterNull k v h)
  | [] => isTrue trivial
  | e :: h => by
    unfold seenConstantAfterNull
    have := decidableSeenConstantAfterNull k v h
    infer_instance

instance (k : StorageKind) : ∀ h : List Entry, Decidable (seenConstant k h)
  | [] => isTrue trivial
  | e :: h => by
    unfold seenConstant
    infer_instance

theorem sameDouble_cons (k : StorageKind) (v : Binary64) (e : Entry) (h : List Entry) :
    sameDouble k v (e :: h)
      ↔ (e.valid = true → Binary64.eq (e.double k) v = true) ∧ sameDouble k v h :=
  List.forall_mem_cons

theorem sameDouble_congr {k : StorageKind} {v w : Binary64} (hvw : Binary64.eq v w)
    (h : List Entry) : sameDouble k v h ↔ sameDouble k w h := by
  constructor
  · exact fun hs e he hv ↦ Binary64.eq_trans (hs e he hv) hvw
  · exact fun hs e he hv ↦ Binary64.eq_trans (hs e he hv) (Binary64.eq_symm hvw)

theorem seenConstantAfterNull_congr {k : StorageKind} {v w : Binary64} (hvw : Binary64.eq v w)
    (h : List Entry) : seenConstantAfterNull k v h ↔ seenConstantAfterNull k w h := by
  have hiff : ∀ x, Binary64.eq x v = true ↔ Binary64.eq x w = true := fun x ↦
    ⟨fun hx ↦ Binary64.eq_trans hx hvw, fun hx ↦ Binary64.eq_trans hx (Binary64.eq_symm hvw)⟩
  induction h with
  | nil => rfl
  | cons e h ih => simp only [seenConstantAfterNull, hiff, ih]

/-- Once a run was counted, the scan compares every value with the one before, and chained
comparisons are comparisons with the first. -/
theorem isConstant_of_started (k : StorageKind) (h : List Entry) (s : Scan)
    (hs : s.started = true) (hrow : s.row ≠ 0) :
    (h.foldl (Scan.step k) s).isConstant = true
      ↔ s.isConstant = true ∧ sameDouble k s.last h := by
  induction h generalizing s with
  | nil => simp [sameDouble]
  | cons e h ih =>
    rw [List.foldl_cons, Scan.step]
    by_cases hv : e.valid = true
    · have hcompare : ∀ t : Scan, t.started = true → t.row ≠ 0 → t.last = e.double k →
          t.isConstant = (s.isConstant && Binary64.eq (e.double k) s.last) →
          ((h.foldl (Scan.step k) t).isConstant = true
            ↔ s.isConstant = true ∧ sameDouble k s.last (e :: h)) := by
        intro t ht hrow' hlast hconst
        rw [ih t ht hrow', hlast, hconst, Bool.and_eq_true, and_assoc]
        apply and_congr_right'
        rw [sameDouble_cons]
        constructor
        · exact fun hp ↦ ⟨fun _ ↦ hp.1, (sameDouble_congr hp.1 h).mp hp.2⟩
        · exact fun hp ↦ ⟨hp.1 hv, (sameDouble_congr (hp.1 hv) h).mpr hp.2⟩
      by_cases hb : e.bulk = true
      · simpa [hv, hb, hs] using hcompare _ rfl (Nat.succ_ne_zero _) rfl (by simp)
      · simpa [hv, hb, hs, hrow] using hcompare _ rfl (Nat.succ_ne_zero _) rfl (by simp)
    · have := ih { s with row := s.row + 1 } hs (Nat.succ_ne_zero _)
      simpa [hv, sameDouble_cons] using this

theorem isConstant_of_not_started (k : StorageKind) (h : List Entry) (s : Scan)
    (hs : s.started = false) (hrow : s.row ≠ 0) :
    (h.foldl (Scan.step k) s).isConstant = true
      ↔ s.isConstant = true ∧ seenConstantAfterNull k s.last h := by
  induction h generalizing s with
  | nil => simp [seenConstantAfterNull]
  | cons e h ih =>
    rw [List.foldl_cons, Scan.step, seenConstantAfterNull]
    by_cases hv : e.valid = true
    · by_cases hb : e.bulk = true
      · rw [isConstant_of_started]
        · simp [hv, hb, hs]
        · simp [hv, hb]
        · simp [hv, hb]
      · by_cases heq : Binary64.eq (e.double k) s.last = true
        · have := ih ⟨s.isConstant, false, e.double k, s.row + 1⟩ rfl (Nat.succ_ne_zero _)
          rw [seenConstantAfterNull_congr heq] at this
          simpa [hv, hb, hs, hrow, heq] using this
        · rw [isConstant_of_started]
          · simp [hv, hb, hrow, heq]
          · simp [hv, hb, hrow, heq]
          · simp [hv, hb, hrow]
    · have := ih { s with row := s.row + 1 } hs (Nat.succ_ne_zero _)
      simpa [hv] using this

/-- The belief about constancy in closed form. -/
theorem scan_isConstant (k : StorageKind) (h : List Entry) :
    (scan k h).isConstant = true ↔ seenConstant k h := by
  cases h with
  | nil => simp [scan, seenConstant]
  | cons e h =>
    rw [scan, List.foldl_cons, seenConstant]
    by_cases hv : e.valid = true
    · rw [isConstant_of_started]
      · by_cases hb : e.bulk = true <;> simp [Scan.step, hv, hb]
      · by_cases hb : e.bulk = true <;> simp [Scan.step, hv, hb]
      · by_cases hb : e.bulk = true <;> simp [Scan.step, hv, hb]
    · rw [isConstant_of_not_started]
      · simp [Scan.step, hv]
      · simp [Scan.step, hv]
      · simp [Scan.step, hv]

/-! ## Reading a sealed column -/

namespace Column

/-- The typed read of a row returns the value. Float columns have no typed reader of their own. -/
def ReadsBack (col : Column) (row : ℕ) : Value → Prop
  | .int32 v => col.readNumericAsInt64 row = v.toInt64
  | .int64 v => col.readNumericAsInt64 row = v
  | .uint64 v => col.readNumericAsUint64 row = v
  | .bool v => col.readBool row = v
  | .string v => col.readString row = some v
  | .float32 _ => True
  | .float64 _ => True

/-- Null reads as null, and a value as itself. -/
def ReadsCell (col : Column) (row : ℕ) : Option Value → Prop
  | none => col.isNull row = true
  | some v => col.isNull row = false ∧ col.ReadsBack row v

end Column

namespace ColumnBuilder

variable {d : ColumnDescriptor} {h : List Entry} {c : ColumnBuilder} {slots : List Slot} {row : ℕ}
  {s s₀ : Slot}

theorem getElem?_map_slot {e : Entry} (he : h[row]? = some e) :
    (h.map Entry.slot)[row]? = some e.slot := by
  rw [List.getElem?_map, he, Option.map_some]

theorem isNull_sealColumn (hb : c.buffer.Holds slots) (hs : slots[row]? = some s) :
    c.sealColumn.isNull row = !s.valid := by
  have hrow : row < slots.length := (List.getElem?_eq_some_iff.mp hs).1
  have hvalid := hb.isValid hrow
  rw [List.getD_eq_getElem?_getD, List.getElem?_map, hs] at hvalid
  rw [Column.isNull, sealColumn]
  by_cases hn : c.buffer.hasNulls
  · have hinit : c.buffer.validityInitialized = true := by
      obtain ⟨s', hs', hfalse⟩ := hb.hasNulls.mp hn
      by_contra hne
      have := hb.validity
      rw [if_neg hne] at this
      simp [this s' hs'] at hfalse
    have hbits := hb.validity
    rw [if_pos hinit] at hbits
    have hne : c.buffer.validity.isEmpty = false := by
      rw [BitVector.isEmpty, hbits.bitCount, List.length_map]
      simp only [beq_eq_false_iff_ne]
      omega
    rw [TypedColumnBuffer.isValid, hinit] at hvalid
    simp only [if_pos hn, hne]
    simpa using hvalid
  · have hall : s.valid = true := by
      by_contra hne
      exact hn (hb.hasNulls.mpr ⟨s, List.mem_of_getElem? hs, by simpa using hne⟩)
    simp [hn, hall]

/-- The bytes of a row of a fixed-size column. -/
theorem element_values (hb : c.buffer.Holds slots) (hk : c.kind ≠ .string)
    (hs : slots[row]? = some s) :
    LittleEndian.element c.buffer.values (storageKindSize c.kind) row = s.raw := by
  have := hb.readFixed hk row
  rw [TypedColumnBuffer.readFixed, List.getD_eq_getElem?_getD, List.getElem?_map, hs] at this
  exact this

/-- A column with rows holds at least one element. -/
theorem size_le_values (hb : c.buffer.Holds slots) (hk : c.kind ≠ .string)
    (hs : slots[row]? = some s) : storageKindSize c.kind ≤ c.buffer.values.length := by
  obtain ⟨s₁, slots', rfl⟩ :=
    List.exists_cons_of_ne_nil (List.ne_nil_of_mem (List.mem_of_getElem? hs))
  have hsize : s₁.raw.length = storageKindSize c.kind := hb.size hk s₁ List.mem_cons_self
  rw [hb.values, List.map_cons, List.flatten_cons, List.length_append, hsize]
  exact Nat.le_add_right _ _

theorem rowCount_pos (hb : c.buffer.Holds slots) (hs : slots[row]? = some s) :
    0 < c.buffer.rowCount := by
  rw [hb.rowCount]
  exact Nat.zero_lt_of_lt (List.getElem?_eq_some_iff.mp hs).1

/-- A constant stands for what lies in row zero. -/
theorem value_constantEncode_values (hb : c.buffer.Holds slots) (hk : c.kind ≠ .string)
    (hs₀ : slots[0]? = some s₀) :
    (constantEncode c.buffer.values c.kind c.buffer.rowCount).value = c.kind.decode s₀.raw := by
  rw [value_constantEncode hk (rowCount_pos hb hs₀) (size_le_values hb hk hs₀),
    element_values hb hk hs₀]

/-! ### Integers -/

theorem foldl_min_le (vs : List Int64) (a : Int64) : ∀ v ∈ vs, vs.foldl min a ≤ v := by
  have hstart : ∀ (vs : List Int64) (a : Int64), vs.foldl min a ≤ a := by
    intro vs
    induction vs with
    | nil => exact fun a ↦ le_refl a
    | cons x vs ih => exact fun a ↦ (ih (min a x)).trans (min_le_left a x)
  induction vs generalizing a with
  | nil => simp
  | cons x vs ih =>
    intro v hv
    rcases List.mem_cons.mp hv with rfl | hv
    · exact (hstart vs _).trans (min_le_right a v)
    · exact ih _ v hv

theorem le_foldl_max (vs : List Int64) (a : Int64) : ∀ v ∈ vs, v ≤ vs.foldl max a := by
  have hstart : ∀ (vs : List Int64) (a : Int64), a ≤ vs.foldl max a := by
    intro vs
    induction vs with
    | nil => exact fun a ↦ le_refl a
    | cons x vs ih => exact fun a ↦ (le_max_left a x).trans (ih (max a x))
  induction vs generalizing a with
  | nil => simp
  | cons x vs ih =>
    intro v hv
    rcases List.mem_cons.mp hv with rfl | hv
    · exact (le_max_right a v).trans (hstart vs _)
    · exact ih _ v hv

/-- Whatever the integer branch of `seal` chooses decodes to the integers of the buffer. -/
theorem readNumericAsInt64_encodeInteger {b : TypedColumnBuffer}
    (hk : b.kind = .int32 ∨ b.kind = .int64)
    (hsize : 0 < b.rowCount → storageKindSize b.kind ≤ b.values.length) (bitmap : Option BitVector)
    {row : ℕ} (hrow : row < b.rowCount) :
    (Column.mk (encodeInteger b) bitmap b.descriptor).readNumericAsInt64 row
      = readInteger b.values b.kind row := by
  set vs := (List.range b.rowCount).map (readInteger b.values b.kind) with hvs
  have hmem : readInteger b.values b.kind row ∈ vs :=
    List.mem_map_of_mem (List.mem_range.mpr hrow)
  have hpos : 0 < b.rowCount := Nat.zero_lt_of_lt hrow
  have hne : b.kind ≠ .string := by rcases hk with hk | hk <;> rw [hk] <;> decide
  rw [Column.readNumericAsInt64, encodeInteger, ← hvs, encodeInteger.encodeValues]
  split_ifs with hconst hfor
  · -- constant: every value is the first one
    have hall : ∀ v ∈ vs, v = vs.headD 0 := fun v hv ↦
      of_decide_eq_true (List.all_eq_true.mp (Bool.and_eq_true_iff.mp hconst).1 v hv)
    have hhead : vs.headD 0 = readInteger b.values b.kind 0 := by
      rw [hvs]
      obtain ⟨n, hn⟩ : ∃ n, b.rowCount = n + 1 := ⟨b.rowCount - 1, by omega⟩
      rw [hn, List.range_succ_eq_map]
      rfl
    simp only [constantDecodeAsInt64]
    rw [PlotJuggler.value_constantEncode hne hpos (hsize hpos), hall _ hmem, hhead]
    rfl
  · have hrange : storageKindSize b.kind ≤ 8 := by rcases hk with hk | hk <;> rw [hk] <;> decide
    exact forDecodeOneAsInt64_forEncode hrow (foldl_min_le vs _ _ hmem) (le_foldl_max vs _ _ hmem)
      (lt_of_lt_of_le hfor.2 hrange)
  · rfl

theorem readsBack_integer (hb : c.buffer.Holds slots) (hk : c.kind = .int32 ∨ c.kind = .int64)
    (hs : slots[row]? = some s) : c.sealColumn.ReadsBack row (c.kind.decode s.raw) := by
  have hne : c.kind ≠ .string := by rcases hk with hk | hk <;> rw [hk] <;> decide
  have hrow : row < c.buffer.rowCount := hb.rowCount ▸ (List.getElem?_eq_some_iff.mp hs).1
  have hdata : c.encode = encodeInteger c.buffer := by
    rw [encode]
    rcases hk with hk | hk <;> rw [hk]
  have hread := readNumericAsInt64_encodeInteger (b := c.buffer) hk
    (fun _ ↦ size_le_values hb hne hs) c.sealColumn.validityBitmap hrow
  have helement := element_values hb hne hs
  rw [kind] at helement
  rw [readInteger, helement] at hread
  have hseal : c.sealColumn = ⟨encodeInteger c.buffer, c.sealColumn.validityBitmap,
      c.buffer.descriptor⟩ := by
    rw [sealColumn, hdata]
  rw [← hseal] at hread
  rw [kind] at hk ⊢
  rcases hk with hk | hk <;> rw [hk] at hread ⊢ <;> exact hread

theorem Tracks.readsBack_integer (t : Tracks d h c) (hk : d.kind = .int32 ∨ d.kind = .int64)
    {e : Entry} (he : h[row]? = some e) : c.sealColumn.ReadsBack row (d.kind.decode e.raw) := by
  rw [← t.kind] at hk ⊢
  exact ColumnBuilder.readsBack_integer t.holds hk (getElem?_map_slot he)

/-! ### Strings -/

theorem readsBack_string (hb : c.buffer.Holds slots) (hk : c.kind = .string)
    (hbytes : byteCount slots < 2 ^ 32) (hs : slots[row]? = some s) :
    c.sealColumn.ReadsBack row (.string s.raw) := by
  have hrow : row < slots.length := (List.getElem?_eq_some_iff.mp hs).1
  have hkeys : (List.range c.buffer.rowCount).map (stringAt c.buffer.offsets c.buffer.values)
      = slots.map Slot.raw := by
    rw [hb.rowCount]
    apply List.ext_getElem
    · simp
    intro i hi hi'
    have hlt : i < slots.length := by simpa using hi'
    have := hb.readString hk hbytes hlt
    rw [List.getD_eq_getElem?_getD, List.getElem?_map, List.getElem?_eq_getElem hlt] at this
    simp only [List.getElem_map, List.getElem_range]
    exact this
  have hdata : c.encode = .dictionary (encodeKeys (slots.map Slot.raw)) := by
    rw [encode, hk]
    simp only
    rw [dictionaryEncodeStrings_eq _ _ (by rw [hb.rowCount]; omega), hkeys]
  simp only [Column.ReadsBack, Column.readString, sealColumn, hdata]
  rw [dictionaryLookup_encodeKeys (by simpa using hrow) hbytes, List.getD_eq_getElem?_getD,
    List.getElem?_map, hs]
  rfl

theorem Tracks.readsBack_string (t : Tracks d h c) (hk : d.kind = .string)
    (hbytes : byteCount (h.map Entry.slot) < 2 ^ 32) {e : Entry} (he : h[row]? = some e) :
    c.sealColumn.ReadsBack row (d.kind.decode e.raw) := by
  rw [hk]
  exact ColumnBuilder.readsBack_string t.holds (t.kind.trans hk) hbytes (getElem?_map_slot he)

/-! ### Columns that trust the statistics -/

/-- A `uint64` column decodes row zero when its statistics say that it is constant, and every row
otherwise. -/
theorem readNumericAsUint64_sealColumn (hb : c.buffer.Holds slots) (hk : c.kind = .uint64)
    (hs : slots[row]? = some s) (hs₀ : slots[0]? = some s₀) :
    c.sealColumn.readNumericAsUint64 row
      = (c.kind.decode (if c.stats.isConstant then s₀.raw else s.raw)).asUint64 := by
  have hne : c.kind ≠ .string := by rw [hk]; decide
  have hpos := rowCount_pos hb hs₀
  have hdata : c.encode = if c.stats.isConstant && decide (0 < c.buffer.rowCount) then
      .constant (constantEncode c.buffer.values c.kind c.buffer.rowCount)
      else .raw c.buffer.values := by
    rw [encode, hk]
  rw [Column.readNumericAsUint64, sealColumn, hdata]
  by_cases hc : c.stats.isConstant
  · simp only [hc, hpos, decide_true, Bool.and_self, if_true, constantDecodeAsUint64,
      value_constantEncode_values hb hne hs₀]
  · have hdesc : c.buffer.descriptor.kind = c.kind := rfl
    simp only [hc, Bool.false_and, Bool.false_eq_true, if_false, hdesc, element_values hb hne hs]

/-- A `bool` column likewise. -/
theorem readBool_sealColumn (hb : c.buffer.Holds slots) (hk : c.kind = .bool)
    (hs : slots[row]? = some s) (hs₀ : slots[0]? = some s₀) :
    c.sealColumn.readBool row
      = ((if c.stats.isConstant then s₀.raw else s.raw).headD 0 != 0) := by
  have hne : c.kind ≠ .string := by rw [hk]; decide
  have hrow : row < c.buffer.rowCount := hb.rowCount ▸ (List.getElem?_eq_some_iff.mp hs).1
  have hpos := rowCount_pos hb hs₀
  -- the first byte of an element of size one
  have hbyte : ∀ {i : ℕ} {s : Slot}, slots[i]? = some s →
      c.buffer.values.getD i 0 = s.raw.headD 0 := by
    intro i s hs
    have := element_values hb hne hs
    rw [hk] at this
    rw [← this, LittleEndian.element, storageKindSize, Nat.mul_one, List.headD_eq_head?_getD,
      List.head?_take, if_neg (by decide), List.head?_drop, List.getD_eq_getElem?_getD]
  have hdata : c.encode = if c.stats.isConstant && decide (0 < c.buffer.rowCount) then
      .constant (constantEncode c.buffer.values .bool c.buffer.rowCount)
      else .packedBools (packBools (c.buffer.values.take c.buffer.rowCount)) := by
    rw [encode, hk]
  rw [Column.readBool, sealColumn, hdata]
  by_cases hc : c.stats.isConstant
  · have hhead : (constantEncode c.buffer.values .bool c.buffer.rowCount).valueBytes.headD 0
        = c.buffer.values.getD 0 0 := by
      rw [constantEncode, if_pos ⟨by decide, hpos⟩]
      rcases hv : c.buffer.values with _ | ⟨x, xs⟩ <;> rfl
    simp only [hc, hpos, decide_true, Bool.and_self, if_true, hhead, hbyte hs₀]
  · have htake : (c.buffer.values.take c.buffer.rowCount).getD row 0 = s.raw.headD 0 := by
      rw [← hbyte hs, List.getD_eq_getElem?_getD, List.getD_eq_getElem?_getD,
        List.getElem?_take_of_lt hrow]
    simp only [hc, Bool.false_and, Bool.false_eq_true, if_false, unpackBool_packBools, htake]

/-- And a float column, read as doubles. -/
theorem readNumericAsDouble_sealColumn (hb : c.buffer.Holds slots)
    (hk : c.kind = .float32 ∨ c.kind = .float64) (hs : slots[row]? = some s)
    (hs₀ : slots[0]? = some s₀) :
    c.sealColumn.readNumericAsDouble row
      = (c.kind.decode (if c.stats.isConstant then s₀.raw else s.raw)).asDouble := by
  have hne : c.kind ≠ .string := by rcases hk with hk | hk <;> rw [hk] <;> decide
  have hpos := rowCount_pos hb hs₀
  have hdata : c.encode = if c.stats.isConstant && decide (0 < c.buffer.rowCount) then
      .constant (constantEncode c.buffer.values c.kind c.buffer.rowCount)
      else .raw c.buffer.values := by
    rw [encode]
    rcases hk with hk | hk <;> rw [hk]
  rw [Column.readNumericAsDouble, sealColumn, hdata]
  by_cases hc : c.stats.isConstant
  · simp only [hc, hpos, decide_true, Bool.and_self, if_true,
      value_constantEncode_values hb hne hs₀]
  · have hdesc : c.buffer.descriptor.kind = c.kind := rfl
    simp only [hc, Bool.false_and, Bool.false_eq_true, if_false, hdesc, element_values hb hne hs]

section Tracks

variable {e e₀ : Entry}

theorem Tracks.isConstant_iff (t : Tracks d h c) (hne : d.kind ≠ .string) :
    c.stats.isConstant = true ↔ seenConstant d.kind h := by
  rw [← scan_isConstant, t.scan hne]
  rfl

/-- Row zero for a column that seems constant. -/
theorem Tracks.ite_isConstant (t : Tracks d h c) (hne : d.kind ≠ .string) :
    (if c.stats.isConstant then e₀.slot.raw else e.slot.raw)
      = if seenConstant d.kind h then e₀.raw else e.raw :=
  if_congr (t.isConstant_iff hne) rfl rfl

theorem Tracks.readNumericAsUint64 (t : Tracks d h c) (hk : d.kind = .uint64)
    (he : h[row]? = some e) (he₀ : h[0]? = some e₀) :
    c.sealColumn.readNumericAsUint64 row
      = (d.kind.decode (if seenConstant d.kind h then e₀.raw else e.raw)).asUint64 := by
  rw [readNumericAsUint64_sealColumn t.holds (t.kind.trans hk) (getElem?_map_slot he)
    (getElem?_map_slot he₀), t.ite_isConstant (by rw [hk]; decide), t.kind]

theorem Tracks.readBool (t : Tracks d h c) (hk : d.kind = .bool)
    (he : h[row]? = some e) (he₀ : h[0]? = some e₀) :
    c.sealColumn.readBool row
      = ((if seenConstant d.kind h then e₀.raw else e.raw).headD 0 != 0) := by
  rw [readBool_sealColumn t.holds (t.kind.trans hk) (getElem?_map_slot he) (getElem?_map_slot he₀),
    t.ite_isConstant (by rw [hk]; decide)]

theorem Tracks.readNumericAsDouble (t : Tracks d h c) (hk : d.kind = .float32 ∨ d.kind = .float64)
    (he : h[row]? = some e) (he₀ : h[0]? = some e₀) :
    c.sealColumn.readNumericAsDouble row
      = (d.kind.decode (if seenConstant d.kind h then e₀.raw else e.raw)).asDouble := by
  rw [readNumericAsDouble_sealColumn t.holds (t.kind ▸ hk) (getElem?_map_slot he)
    (getElem?_map_slot he₀), t.ite_isConstant (by rcases hk with hk | hk <;> rw [hk] <;> decide), t.kind]

end Tracks

/-- What has to hold of a column for its values to come back: a `uint64` or `bool` column that seems
constant repeats what lies in row zero. -/
def ConstantIsTrue (k : StorageKind) (h : List Entry) : Prop :=
  (k = .uint64 ∨ k = .bool) → seenConstant k h →
    ∀ e₀ ∈ h.head?, ∀ e ∈ h, e.valid = true → k.decode e.raw = k.decode e₀.raw

/-- In a column that trusts the statistics, a row comes back if it is row zero's value or the
column does not seem constant. -/
theorem Tracks.readsBack_iff (t : Tracks d h c) (hk : d.kind = .uint64 ∨ d.kind = .bool) {row : ℕ}
    {e e₀ : Entry} (he : h[row]? = some e) (he₀ : h[0]? = some e₀) :
    c.sealColumn.ReadsBack row (d.kind.decode e.raw)
      ↔ (seenConstant d.kind h → d.kind.decode e.raw = d.kind.decode e₀.raw) := by
  rcases hk with hk | hk
  · have hread := t.readNumericAsUint64 hk he he₀
    rw [hk] at hread ⊢
    simp only [StorageKind.decode, Column.ReadsBack, hread, Value.asUint64, Value.uint64.injEq]
    split_ifs with hs
    · simp [hs, eq_comm]
    · simp [hs]
  · have hread := t.readBool hk he he₀
    rw [hk] at hread ⊢
    simp only [StorageKind.decode, Column.ReadsBack, hread, Value.bool.injEq]
    split_ifs with hs
    · simp only [hs, true_imp_iff]
      exact eq_comm
    · simp [hs]

/-- A sealed column reads back every cell exactly when its constancy is true. -/
theorem Tracks.readsCell_iff (t : Tracks d h c)
    (hbytes : d.kind = .string → byteCount (h.map Entry.slot) < 2 ^ 32) :
    (∀ row e, h[row]? = some e → c.sealColumn.ReadsCell row (e.cell d.kind))
      ↔ ConstantIsTrue d.kind h := by
  have hcell : ∀ row e, h[row]? = some e → (c.sealColumn.ReadsCell row (e.cell d.kind)
      ↔ (e.valid = true → c.sealColumn.ReadsBack row (d.kind.decode e.raw))) := by
    intro row e he
    have hnull : c.sealColumn.isNull row = !e.valid :=
      isNull_sealColumn t.holds (getElem?_map_slot he)
    by_cases hv : e.valid = true
    · simp [Entry.cell, hv, Column.ReadsCell, hnull]
    · simp [Entry.cell, hv, Column.ReadsCell, hnull]
  by_cases hk : d.kind = .uint64 ∨ d.kind = .bool
  · constructor
    · intro hread _ hs e₀ he₀ e he hv
      obtain ⟨row, hrow⟩ := List.mem_iff_getElem?.mp he
      have hzero : h[0]? = some e₀ := by simpa [List.head?_eq_getElem?] using he₀
      exact (t.readsBack_iff hk hrow hzero).mp ((hcell row e hrow).mp (hread row e hrow) hv) hs
    · intro hconst row e he
      rw [hcell row e he]
      intro hv
      obtain ⟨e₀, hzero⟩ : ∃ e₀, h[0]? = some e₀ :=
        ⟨_, List.getElem?_eq_getElem (Nat.zero_lt_of_lt (List.getElem?_eq_some_iff.mp he).1)⟩
      rw [t.readsBack_iff hk he hzero]
      exact fun hs ↦ hconst hk hs e₀ (by simpa [List.head?_eq_getElem?] using hzero) e
        (List.mem_of_getElem? he) hv
  · refine iff_of_true (fun row e he ↦ (hcell row e he).mpr fun _ ↦ ?_) fun hk' ↦ absurd hk' hk
    by_cases hint : d.kind = .int32 ∨ d.kind = .int64
    · exact t.readsBack_integer hint he
    by_cases hstr : d.kind = .string
    · exact t.readsBack_string hstr (hbytes hstr) he
    · cases hd : d.kind <;> simp_all [StorageKind.decode, Column.ReadsBack]

end ColumnBuilder

/-! ## Chunks -/

namespace TopicChunk

/-- The typed read of row `row` of column `i` returns the value. -/
def ReadsBack (chunk : TopicChunk) (i row : ℕ) : Value → Prop
  | .int32 v => chunk.readNumericAsInt64 i row = some v.toInt64
  | .int64 v => chunk.readNumericAsInt64 i row = some v
  | .uint64 v => chunk.readNumericAsUint64 i row = some v
  | .bool v => chunk.readBool i row = some v
  | .string v => chunk.readString i row = some v
  | .float32 _ => True
  | .float64 _ => True

/-- A chunk gives back a table of `n` columns: `isNull` holds exactly at the null cells, and at the
others the typed read returns the value. -/
def RoundTrips (chunk : TopicChunk) (n : ℕ) (cells : ℕ → List (Option Value)) : Prop :=
  ∀ i, i < n → ∀ row cell, (cells i)[row]? = some cell →
    match cell with
    | none => chunk.isNull i row = some true
    | some v => chunk.isNull i row = some false ∧ chunk.ReadsBack i row v

theorem readsBack_iff {chunk : TopicChunk} {i : ℕ} {col : Column} (h : chunk.columns[i]? = some col)
    (row : ℕ) (v : Value) : chunk.ReadsBack i row v ↔ col.ReadsBack row v := by
  cases v <;> simp [ReadsBack, Column.ReadsBack, readNumericAsInt64, readNumericAsUint64, readBool,
    readString, h]

theorem roundTrips_iff {chunk : TopicChunk} {n : ℕ} {cells : ℕ → List (Option Value)}
    (hlen : chunk.columns.length = n) :
    chunk.RoundTrips n cells ↔ ∀ i col, chunk.columns[i]? = some col →
      ∀ row cell, (cells i)[row]? = some cell → col.ReadsCell row cell := by
  have hcell : ∀ i col, chunk.columns[i]? = some col → ∀ row cell,
      ((match cell with
        | none => chunk.isNull i row = some true
        | some v => chunk.isNull i row = some false ∧ chunk.ReadsBack i row v)
        ↔ col.ReadsCell row cell) := by
    intro i col hcol row cell
    cases cell with
    | none => simp [isNull, hcol, Column.ReadsCell]
    | some v => simp [isNull, hcol, Column.ReadsCell, readsBack_iff hcol]
  constructor
  · intro hr i col hcol row cell hc
    have hi : i < n := hlen ▸ (List.getElem?_eq_some_iff.mp hcol).1
    exact (hcell i col hcol row cell).mp (hr i hi row cell hc)
  · intro hr i hi row cell hc
    have hcol := List.getElem?_eq_getElem (hlen ▸ hi : i < chunk.columns.length)
    exact (hcell i _ hcol row cell).mpr (hr i _ hcol row cell hc)

end TopicChunk

namespace TopicChunkBuilder

/-- The number of string bytes a run puts into column `i`. -/
def stringBytes (cols : List ColumnDescriptor) (run : List Append) (i : ℕ) : ℕ :=
  byteCount ((runHistory cols run i).map Entry.slot)

/-- A chunk sealed after any run of rows and batches gives its table back exactly when every
`uint64` and `bool` column that seems constant is. -/
theorem sealChunk_roundTrips_iff {topicId schemaId maxRows id : ℕ} {cols : List ColumnDescriptor}
    {run : List Append} {b : TopicChunkBuilder} (hwf : ∀ a ∈ run, a.WellFormed cols.length)
    (hrun : run.foldlM Append.run (new topicId schemaId cols maxRows) = some b)
    (hbytes : ∀ i d, cols[i]? = some d → d.kind = .string → stringBytes cols run i < 2 ^ 32) :
    (b.sealChunk id).RoundTrips cols.length (runCells run)
      ↔ ∀ i d, cols[i]? = some d → ColumnBuilder.ConstantIsTrue d.kind (runHistory cols run i) := by
  obtain ⟨al, hcells⟩ := (aligned_new topicId schemaId cols maxRows).run hwf hrun
  have hlen : (b.sealChunk id).columns.length = cols.length :=
    (List.length_map _).trans al.tracks.length
  -- column by column, through the history of the column
  have hcolumn : ∀ i d c, cols[i]? = some d → b.columns[i]? = some c →
      ((∀ row cell, (runCells run i)[row]? = some cell → c.sealColumn.ReadsCell row cell)
        ↔ ColumnBuilder.ConstantIsTrue d.kind (runHistory cols run i)) := by
    intro i d c hd hc
    have tc := al.tracks.column i d c hd hc
    rw [List.nil_append] at tc
    rw [← tc.readsCell_iff (hbytes i d hd), ← hcells i d hd]
    simp only [List.getElem?_map, Option.map_eq_some_iff]
    exact ⟨fun hr row e he ↦ hr row _ ⟨e, he, rfl⟩,
      fun hr row cell ⟨e, he, hcell⟩ ↦ hcell ▸ hr row e he⟩
  rw [TopicChunk.roundTrips_iff hlen]
  constructor
  · intro hr i d hd
    obtain ⟨c, hc, -⟩ := al.tracks.exists_column hd
    exact (hcolumn i d c hd hc).mp
      (hr i c.sealColumn (by rw [sealChunk, List.getElem?_map, hc, Option.map_some]))
  · intro hr i col hcol
    rw [sealChunk, List.getElem?_map] at hcol
    obtain ⟨c, hc, rfl⟩ := Option.map_eq_some_iff.mp hcol
    obtain ⟨d, hd, -⟩ := al.tracks.exists_descriptor hc
    exact (hcolumn i d c hd hc).mpr (hr i d hd)

/-- A `uint64` column that repeats one value around a null comes back. -/
theorem sealChunk_roundTrips_repeat :
    ∃ (run : List Append) (b : TopicChunkBuilder), runCells run 0
        = [some (.uint64 7), none, some (.uint64 7), some (.uint64 7)] ∧
      run.foldlM Append.run (new 1 0 [⟨0, .uint64, "count"⟩] 1024) = some b ∧
      (b.sealChunk 1).RoundTrips 1 (runCells run) := by
  set cols : List ColumnDescriptor := [⟨0, .uint64, "count"⟩] with hcols
  set run : List Append := [.row 10 [.set 0 (.uint64 7)], .row 20 [.setNull 0],
    .batch [20, 30] [.column 0 (.uint64 [7, 7])]] with hrundef
  have hwf : ∀ a ∈ run, a.WellFormed cols.length := by
    simp only [hrundef, List.forall_mem_cons]
    refine ⟨by simp [Append.WellFormed], by simp [Append.WellFormed], fun i hi ↦ ?_, by simp⟩
    obtain rfl : i = 0 := by simpa [hcols] using hi
    exact ⟨.uint64 [7, 7], none, by decide, trivial, rfl, by simp⟩
  have hsome : (run.foldlM Append.run (new 1 0 cols 1024)).isSome = true := by decide +kernel
  obtain ⟨b, hrun⟩ := Option.isSome_iff_exists.mp hsome
  refine ⟨run, b, by decide +kernel, hrun, (sealChunk_roundTrips_iff hwf hrun ?_).mpr ?_⟩
  · rintro i d hd hk
    obtain rfl := List.mem_singleton.mp (List.mem_of_getElem? hd)
    exact absurd hk (by decide)
  · intro i d hd _ _ e₀ he₀ e he hv
    obtain ⟨hi, rfl⟩ := List.getElem?_eq_some_iff.mp hd
    obtain rfl : i = 0 := by simpa [hcols] using hi
    have hall : ∀ e₀ ∈ (runHistory cols run 0).head?, ∀ e ∈ runHistory cols run 0,
        e.valid = true → StorageKind.uint64.decode e.raw = StorageKind.uint64.decode e₀.raw := by
      decide +kernel
    exact hall e₀ he₀ e he hv

/-- Two values that share a double: the second one reads as the first. -/
theorem sealChunk_not_roundTrips :
    ¬ ∀ (cols : List ColumnDescriptor) (run : List Append) (b : TopicChunkBuilder) (id : ℕ),
      (∀ a ∈ run, a.WellFormed cols.length) →
      run.foldlM Append.run (new 1 0 cols 1024) = some b →
      (b.sealChunk id).RoundTrips cols.length (runCells run) := by
  intro hall
  have hread : (List.foldlM Append.run (new 1 0 [⟨0, .uint64, "count"⟩] 1024)
      [.row 10 [.set 0 (.uint64 9007199254740992)],
        .row 20 [.set 0 (.uint64 9007199254740993)]]).map
        (fun b ↦ (b.sealChunk 1).readNumericAsUint64 0 1) = some (some 9007199254740992) := by
    decide +kernel
  obtain ⟨b, hrun, hvalue⟩ := Option.map_eq_some_iff.mp hread
  have hwf : ∀ a ∈ [Append.row 10 [.set 0 (.uint64 9007199254740992)],
      .row 20 [.set 0 (.uint64 9007199254740993)]], a.WellFormed 1 := by
    simp [Append.WellFormed, CellCall.col]
  have hback : (b.sealChunk 1).readNumericAsUint64 0 1 = some 9007199254740993 :=
    (hall _ _ b 1 hwf hrun 0 Nat.zero_lt_one 1 (some (.uint64 9007199254740993)) rfl).2
  rw [hvalue] at hback
  exact absurd hback (by decide)

end TopicChunkBuilder

end PlotJuggler
