import PlotJugglerCore.Store.Arrow
import PlotJugglerCore.Store.Decoders
import PlotJugglerCore.Store.Flatteners
import PlotJugglerCore.Store.Query

/-!
# The series a plugin reads

`readSeriesArrow` of `plugin_data_host.cpp`: one field of a topic, written row by row into an Arrow
array. It does not use the readers of the chunks but a decoder of its own, `decodeNumericExact`,
instantiated at the logical type of the field. That type can be narrower than what is stored: an
`int8` column is stored as `int64`. The decoder then loads the low bytes of a constant, and casts
what it finds in the other encodings; either way the value is cut off modulo the size of the type,
which does no harm to a value in the range of the type.

The array is built by nanoarrow, which is not part of this code. `ArrowAppender` holds the calls, and
`ArrowAppender.Documented` says that they append what they are given.
-/

namespace PlotJuggler

open LittleEndian (element)

/-! ## The decoder of the host -/

/-- What `decodeNumericExact` uses of its type argument: how many bytes `loadFromBytes` copies, the
value with these bytes, and `static_cast` from the stored types. -/
structure NumericType (T : Type) where
  size : ℕ
  load : ℕ → T
  ofInt : ℤ → T
  ofFloat : Binary32 → T
  ofDouble : Binary64 → T

/-- An integer type of `size` bytes. Its values are integers. -/
structure IntegerType where
  size : ℕ
  signed : Bool
  deriving DecidableEq, Repr

namespace IntegerType

/-- The integer a cast to the type leaves. -/
def wrap (T : IntegerType) (z : ℤ) : ℤ :=
  if T.signed then z.bmod (256 ^ T.size) else z % (256 ^ T.size : ℕ)

/-- The integers that are values of the type. -/
def InRange (T : IntegerType) (z : ℤ) : Prop :=
  if T.signed then -(256 ^ T.size / 2 : ℕ) ≤ z ∧ z < (256 ^ T.size / 2 : ℕ)
  else 0 ≤ z ∧ z < (256 ^ T.size : ℕ)

instance (T : IntegerType) (z : ℤ) : Decidable (T.InRange z) :=
  inferInstanceAs (Decidable (if T.signed then
    -(256 ^ T.size / 2 : ℕ) ≤ z ∧ z < (256 ^ T.size / 2 : ℕ) else 0 ≤ z ∧ z < (256 ^ T.size : ℕ)))

def numeric (T : IntegerType) : NumericType ℤ where
  size := T.size
  load n := T.wrap n
  ofInt := T.wrap
  ofFloat x := T.wrap (Binary64.truncate (.ofBinary32 x))
  ofDouble x := T.wrap (Binary64.truncate x)

def int8 : IntegerType := ⟨1, true⟩
def int16 : IntegerType := ⟨2, true⟩
def int32 : IntegerType := ⟨4, true⟩
def int64 : IntegerType := ⟨8, true⟩
def uint8 : IntegerType := ⟨1, false⟩
def uint16 : IntegerType := ⟨2, false⟩
def uint32 : IntegerType := ⟨4, false⟩
def uint64 : IntegerType := ⟨8, false⟩

end IntegerType

namespace NumericType

def float : NumericType Binary32 where
  size := 4
  load := UInt32.ofNat
  ofInt := Binary64.singleOfInt
  ofFloat x := x
  ofDouble := Binary64.toBinary32

def double : NumericType Binary64 where
  size := 8
  load := UInt64.ofNat
  ofInt := Binary64.ofInt
  ofFloat := Binary64.ofBinary32
  ofDouble x := x

variable {T : Type} (N : NumericType T)

def loadFromBytes (data : List UInt8) : T := N.load (LittleEndian.value (data.take N.size))

end NumericType

def readForOffset (enc : FrameOfReferenceEncoded) (row : ℕ) : UInt64 :=
  match enc.offsetBytes with
  | 1 => UInt64.ofNat (LittleEndian.value (element enc.offsets 1 row))
  | 2 => UInt64.ofNat (LittleEndian.value (element enc.offsets 2 row))
  | _ => UInt64.ofNat (LittleEndian.value (element enc.offsets 4 row))

/-- The host's decoder for one column. -/
def Column.decodeNumericExact {T : Type} (N : NumericType T) (c : Column) (row : ℕ) : T :=
  match c.data with
  | .constant enc => N.loadFromBytes enc.valueBytes
  | .frameOfReference enc => N.ofInt (enc.reference + (readForOffset enc row).toInt64).toInt
  | .raw buf =>
    match c.descriptor.kind.decode (element buf (storageKindSize c.descriptor.kind) row) with
    | .float32 v => N.ofFloat v
    | .float64 v => N.ofDouble v
    | .int32 v => N.ofInt v.toInt
    | .int64 v => N.ofInt v.toInt
    | .uint64 v => N.ofInt v.toNat
    | .bool _ => N.ofInt (if c.readBool row then 1 else 0)
    | .string _ => N.ofInt 0
  | _ => N.ofInt 0

/-! ## The array -/

/-- What is appended to a child: the argument of `ArrowArrayAppendInt`, `ArrowArrayAppendUInt`,
`ArrowArrayAppendDouble` or `ArrowArrayAppendString`, or a null. -/
inductive ArrowCell
  | null
  | int (v : Int64)
  | uint (v : UInt64)
  | double (v : Binary64)
  | string (v : List UInt8)
  deriving DecidableEq, Repr

/-- The two children of the struct array. -/
inductive SeriesChild
  | timestamp | value
  deriving DecidableEq, Repr

/-- The calls to nanoarrow. -/
structure ArrowAppender (A : Type) where
  /-- `ArrowSchemaSetTypeStruct`. -/
  setTypeStruct : Bool
  /-- `ArrowSchemaSetType` and `ArrowSchemaSetName` for a child. -/
  setChild : SeriesChild → ArrowType → String → Bool
  /-- `ArrowArrayInitFromSchema`, for the type of the value child, or its message. -/
  initFromSchema : ArrowType → Except String A
  startAppending : A → Option A
  append : A → SeriesChild → ArrowCell → Option A
  finishElement : A → Option A
  finishBuildingDefault : A → Except String A

/-! ## Reading a series -/

/-- The type of the value child. -/
def seriesArrowType : PrimitiveType → ArrowType
  | .float32 => .float
  | .float64 => .double
  | .int8 => .int8
  | .int16 => .int16
  | .int32 => .int32
  | .int64 => .int64
  | .uint8 => .uint8
  | .uint16 => .uint16
  | .uint32 => .uint32
  | .uint64 => .uint64
  | .bool => .bool
  | .string => .string
  -- `NANOARROW_TYPE_NA`
  | .unspecified => .other 1

/-- The columns the host shows for a topic. -/
def effectiveColumns (typeTree : Option TypeTreeNode) (storage : TopicStorage) :
    List ColumnDescriptor :=
  if storage.columnDescriptors ≠ [] then storage.columnDescriptors
  else
    match typeTree with
    | some root => PluginDataHost.buildSchemaColumns root
    | none => (storage.sealedChunks.head?.map fun chunk ↦ chunk.columns.map (·.descriptor)).getD []

def findFieldDescriptor (columns : List ColumnDescriptor) (fieldId : ℕ) : Option ColumnDescriptor :=
  columns.find? (·.fieldId = fieldId)

/-- The column of a chunk with the field id. -/
def TopicChunk.fieldColumn (chunk : TopicChunk) (fieldId : ℕ) : Option Column :=
  chunk.columns.find? (·.descriptor.fieldId = fieldId)

/-- What is appended for a row that is not null. A column in another form than a dictionary throws
when it is read as a string. -/
def Column.seriesCell (logicalType : PrimitiveType) (c : Column) (row : ℕ) : Option ArrowCell :=
  match logicalType with
  | .float32 => some (.double (.ofBinary32 (c.decodeNumericExact .float row)))
  | .float64 => some (.double (c.decodeNumericExact .double row))
  | .int8 => some (.int (.ofInt (c.decodeNumericExact IntegerType.int8.numeric row)))
  | .int16 => some (.int (.ofInt (c.decodeNumericExact IntegerType.int16.numeric row)))
  | .int32 => some (.int (.ofInt (c.decodeNumericExact IntegerType.int32.numeric row)))
  | .int64 => some (.int (.ofInt (c.decodeNumericExact IntegerType.int64.numeric row)))
  | .uint8 => some (.uint (.ofNat (c.decodeNumericExact IntegerType.uint8.numeric row).toNat))
  | .uint16 => some (.uint (.ofNat (c.decodeNumericExact IntegerType.uint16.numeric row).toNat))
  | .uint32 => some (.uint (.ofNat (c.decodeNumericExact IntegerType.uint32.numeric row).toNat))
  | .uint64 => some (.uint (.ofNat (c.decodeNumericExact IntegerType.uint64.numeric row).toNat))
  | .bool => some (.int (if c.readBool row then 1 else 0))
  | .string => (c.readString row).map .string
  | .unspecified => some .null

namespace ArrowAppender

variable {A : Type} (N : ArrowAppender A)

/-- The body of the loop over the rows. -/
def appendRow (logicalType : PrimitiveType) (chunk : TopicChunk) (c : Column) (a : A) (row : ℕ) :
    Except String A :=
  match N.append a .timestamp (.int (chunk.readTimestamp row)) with
  | none => .error "readSeriesArrow: timestamp append failed"
  | some a =>
    if c.isNull row then
      match N.append a .value .null with
      | none => .error "readSeriesArrow: null append failed"
      | some a => finishRow a
    else
      match c.seriesCell logicalType row with
      | none => .error "std::get: wrong index for variant"
      | some cell =>
        match N.append a .value cell with
        | none => .error "readSeriesArrow: value append failed"
        | some a => finishRow a
where
  finishRow (a : A) : Except String A :=
    match N.finishElement a with
    | none => .error "readSeriesArrow: ArrowArrayFinishElement failed"
    | some a => .ok a

/-- The body of the loop over the chunks. -/
def appendChunk (logicalType : PrimitiveType) (fieldId : ℕ) (a : A) (chunk : TopicChunk) :
    Except String A :=
  match chunk.fieldColumn fieldId with
  | none => .ok a
  | some c => (List.range chunk.stats.rowCount).foldlM (N.appendRow logicalType chunk c) a

/-- The array that is handed out, or the error that is set. `storage` is what the engine has for the
topic, `typeTree` what the registry has for its schema. -/
def readSeriesArrow (topicId fieldId : ℕ) (storage : Option TopicStorage)
    (typeTree : Option TypeTreeNode) : Except String A :=
  match storage with
  | none => .error ("topic " ++ toString topicId ++ " not found")
  | some storage =>
    match findFieldDescriptor (effectiveColumns typeTree storage) fieldId with
    | none =>
      .error ("field " ++ toString fieldId ++ " not found in topic " ++ toString topicId)
    | some desc =>
      if !N.setTypeStruct then .error "readSeriesArrow: ArrowSchemaSetTypeStruct failed"
      else if !N.setChild .timestamp .int64 "timestamp" then
        .error "readSeriesArrow: failed to set timestamp child schema"
      else if !N.setChild .value (seriesArrowType desc.logicalType) desc.fieldPath then
        .error "readSeriesArrow: failed to set value child schema"
      else
        match N.initFromSchema (seriesArrowType desc.logicalType) with
        | .error e => .error ("readSeriesArrow: ArrowArrayInitFromSchema failed: " ++ e)
        | .ok a =>
          match N.startAppending a with
          | none => .error "readSeriesArrow: ArrowArrayStartAppending failed"
          | some a =>
            match storage.sealedChunks.foldlM (N.appendChunk desc.logicalType fieldId) a with
            | .error e => .error e
            | .ok a =>
              match N.finishBuildingDefault a with
              | .error e => .error ("readSeriesArrow: finish building failed: " ++ e)
              | .ok a => .ok a

end ArrowAppender

/-! ## The low bytes -/

namespace IntegerType

variable {T : IntegerType} {z z' : ℤ}

/-- A cast looks at the integer modulo the size of the type. -/
theorem wrap_congr (h : z % (256 ^ T.size : ℕ) = z' % (256 ^ T.size : ℕ)) : T.wrap z = T.wrap z' := by
  rw [wrap, wrap, h]
  split_ifs
  · rw [← Int.emod_bmod, h, Int.emod_bmod]
  · rfl

theorem wrap_of_inRange (h : T.InRange z) : T.wrap z = z := by
  have hpos : 0 < 256 ^ T.size := Nat.pow_pos (by decide)
  rw [InRange] at h
  rw [wrap]
  split_ifs at h ⊢
  · exact Int.bmod_eq_of_le (by omega) (by omega)
  · exact Int.emod_eq_of_lt h.1 h.2

theorem inRange_wrap (hsize : 0 < T.size) (z : ℤ) : T.InRange (T.wrap z) := by
  have hpos : 0 < 256 ^ T.size := Nat.pow_pos (by decide)
  have heven : 256 ^ T.size % 2 = 0 := by
    obtain ⟨n, hn⟩ := Nat.exists_eq_succ_of_ne_zero hsize.ne'
    rw [hn, pow_succ]
    omega
  rw [InRange, wrap]
  split_ifs
  · have hle := Int.le_bmod (x := z) hpos
    have hlt := Int.bmod_lt (x := z) hpos
    omega
  · exact ⟨Int.emod_nonneg _ (by omega), Int.emod_lt_of_pos _ (by omega)⟩

end IntegerType

/-- The integer types among the logical types. -/
def PrimitiveType.integerType : PrimitiveType → Option IntegerType
  | .int8 => some .int8
  | .int16 => some .int16
  | .int32 => some .int32
  | .int64 => some .int64
  | .uint8 => some .uint8
  | .uint16 => some .uint16
  | .uint32 => some .uint32
  | .uint64 => some .uint64
  | _ => none

/-- The integer a column stores for a row, as the engine's reader for the kind returns it. -/
def Column.storedInteger (c : Column) (row : ℕ) : ℤ :=
  if c.descriptor.kind = .uint64 then (c.readNumericAsUint64 row).toNat
  else (c.readNumericAsInt64 row).toInt

/-- What the engine's readers return for a row. -/
def Column.exactCell (c : Column) (row : ℕ) : ArrowCell :=
  if c.isNull row then .null
  else if c.descriptor.kind = .uint64 then .uint (c.readNumericAsUint64 row)
  else .int (c.readNumericAsInt64 row)

/-! ## One column -/

section Column

variable {t : PrimitiveType} {T : IntegerType}

/-- The kinds that integers are stored in. -/
def StorageKind.IsInteger (k : StorageKind) : Prop := k = .int32 ∨ k = .int64 ∨ k = .uint64

theorem isInteger_of_integerType (hT : t.integerType = some T) :
    (storageKindOf t).IsInteger ∧ 0 < T.size ∧ T.size ≤ storageKindSize (storageKindOf t) ∧
      T.size ≤ 8 ∧ (T.signed = false ↔ storageKindOf t = .uint64) := by
  rw [StorageKind.IsInteger]
  match t, hT with
  | .int8, rfl | .int16, rfl | .int32, rfl | .int64, rfl | .uint8, rfl | .uint16, rfl
  | .uint32, rfl | .uint64, rfl => decide

/-- The value of an integer as an integer. -/
def Value.toInteger : Value → ℤ
  | .int32 v => v.toInt
  | .int64 v => v.toInt
  | .uint64 v => v.toNat
  | _ => 0

/-- Modulo its size an integer is its bytes. -/
theorem toInteger_decode {k : StorageKind} (hk : k.IsInteger) (raw : List UInt8) :
    (k.decode raw).toInteger % (256 ^ storageKindSize k : ℕ)
      = (LittleEndian.value raw : ℤ) % (256 ^ storageKindSize k : ℕ) := by
  rcases hk with rfl | rfl | rfl
  · change ((UInt32.ofNat _).toBitVec.toInt : ℤ) % (2 ^ 32 : ℕ) = _
    rw [BitVec.toInt_eq_toNat_bmod, Int.bmod_emod]
    simp [storageKindSize]
  · change ((UInt64.ofNat _).toBitVec.toInt : ℤ) % (2 ^ 64 : ℕ) = _
    rw [BitVec.toInt_eq_toNat_bmod, Int.bmod_emod]
    simp [storageKindSize]
  · change ((UInt64.ofNat _).toNat : ℤ) % (2 ^ 64 : ℕ) = _
    simp [storageKindSize]

/-- The forms in which `seal` keeps integers. -/
theorem ColumnBuilder.encode_integer {c : ColumnBuilder} (hk : c.kind.IsInteger) :
    (∃ n, c.encode = .constant (constantEncode c.buffer.values c.kind n)) ∨
      (c.kind ≠ .uint64 ∧ ∃ enc, c.encode = .frameOfReference enc) ∨
      ∃ buf, c.encode = .raw buf := by
  rw [encode]
  rcases hk with hk | hk | hk
  · rw [hk]
    simp only [encodeInteger, encodeInteger.encodeValues]
    rw [show c.buffer.kind = .int32 from hk]
    split_ifs
    · exact .inl ⟨_, rfl⟩
    · exact .inr (.inl ⟨by decide, _, rfl⟩)
    · exact .inr (.inr ⟨_, rfl⟩)
  · rw [hk]
    simp only [encodeInteger, encodeInteger.encodeValues]
    rw [show c.buffer.kind = .int64 from hk]
    split_ifs
    · exact .inl ⟨_, rfl⟩
    · exact .inr (.inl ⟨by decide, _, rfl⟩)
    · exact .inr (.inr ⟨_, rfl⟩)
  · rw [hk]
    simp only
    split_ifs
    · exact .inl ⟨_, rfl⟩
    · exact .inr (.inr ⟨_, rfl⟩)

theorem readForOffset_eq (enc : FrameOfReferenceEncoded) (row : ℕ) :
    readForOffset enc row = forReadOffset enc.offsets row enc.offsetBytes := by
  rw [readForOffset, forReadOffset]
  split <;> rename_i h
  · rw [h]; rfl
  · rw [h]; rfl
  · rw [offsetWidth]
    · exact fun h1 ↦ absurd h1 ‹_›
    · exact h

/-- The casts of an integer to the width the readers return. -/
theorem Value.toInteger_eq {v : Value} (hk : v.kind.IsInteger) :
    v.toInteger = if v.kind = .uint64 then (v.asUint64.toNat : ℤ) else v.asInt64.toInt := by
  match v, hk with
  | .int32 v, _ => exact (Int32.toInt_toInt64 v).symm
  | .int64 v, _ | .uint64 v, _ => rfl

/-- A column that was sealed as integers: the host's decoder at a type no wider than what is stored
cuts off the stored integer. -/
theorem decodeNumericExact_sealColumn {c : ColumnBuilder} (hk : c.kind.IsInteger)
    (hsize : T.size ≤ storageKindSize c.kind) (row : ℕ) :
    c.sealColumn.decodeNumericExact T.numeric row = T.wrap (c.sealColumn.storedInteger row) := by
  have hdata : c.sealColumn.data = c.encode := rfl
  have hdesc : c.sealColumn.descriptor.kind = c.kind := rfl
  have hvalue : ∀ raw, (c.kind.decode raw).toInteger
      = if c.kind = .uint64 then ((c.kind.decode raw).asUint64.toNat : ℤ)
        else (c.kind.decode raw).asInt64.toInt := by
    intro raw
    rw [Value.toInteger_eq (by rwa [StorageKind.decode_kind]), StorageKind.decode_kind]
  rcases ColumnBuilder.encode_integer hk with ⟨n, henc⟩ | ⟨hne, enc, henc⟩ | ⟨buf, henc⟩
  · -- the low bytes of the constant
    set bytes := (constantEncode c.buffer.values c.kind n).valueBytes with hbytes
    have hstored : c.sealColumn.storedInteger row
        = (c.kind.decode (bytes.take (storageKindSize c.kind))).toInteger := by
      rw [hvalue, Column.storedInteger, hdesc, Column.readNumericAsUint64,
        Column.readNumericAsInt64, hdata, henc]
      rfl
    rw [Column.decodeNumericExact, hdata, henc, hstored]
    refine IntegerType.wrap_congr ?_
    have hmod := toInteger_decode hk (bytes.take (storageKindSize c.kind))
    have hdvd : ((256 ^ T.size : ℕ) : ℤ) ∣ (256 ^ storageKindSize c.kind : ℕ) :=
      Int.natCast_dvd_natCast.mpr (Nat.pow_dvd_pow 256 hsize)
    calc (LittleEndian.value (bytes.take T.size) : ℤ) % (256 ^ T.size : ℕ)
        = (LittleEndian.value (bytes.take (storageKindSize c.kind)) : ℤ) % (256 ^ T.size : ℕ) := by
          rw [LittleEndian.value_take, LittleEndian.value_take, Int.natCast_mod, Int.emod_emod,
            Int.natCast_mod, Int.emod_emod_of_dvd _ hdvd]
      _ = (LittleEndian.value (bytes.take (storageKindSize c.kind)) : ℤ)
            % (256 ^ storageKindSize c.kind : ℕ) % (256 ^ T.size : ℕ) :=
          (Int.emod_emod_of_dvd _ hdvd).symm
      _ = (c.kind.decode (bytes.take (storageKindSize c.kind))).toInteger
            % (256 ^ storageKindSize c.kind : ℕ) % (256 ^ T.size : ℕ) := by rw [hmod]
      _ = (c.kind.decode (bytes.take (storageKindSize c.kind))).toInteger % (256 ^ T.size : ℕ) :=
          Int.emod_emod_of_dvd _ hdvd
  · rw [Column.decodeNumericExact, hdata, henc, Column.storedInteger, hdesc, if_neg hne,
      Column.readNumericAsInt64, hdata, henc]
    simp only [forDecodeOneAsInt64, readForOffset_eq]
    rfl
  · have hstored : c.sealColumn.storedInteger row
        = (c.kind.decode (element buf (storageKindSize c.kind) row)).toInteger := by
      rw [hvalue, Column.storedInteger, hdesc, Column.readNumericAsUint64,
        Column.readNumericAsInt64, hdata, henc]
      rfl
    rw [Column.decodeNumericExact, hdata, henc, hstored, hdesc]
    rcases hk with hk | hk | hk <;> rw [hk] <;> rfl

/-- Whatever form a column is in, the decoder ends with a cast to its type. -/
theorem exists_decodeNumericExact (T : IntegerType) (c : Column) (row : ℕ) :
    ∃ z, c.decodeNumericExact T.numeric row = T.wrap z := by
  rw [Column.decodeNumericExact]
  split
  · exact ⟨_, rfl⟩
  · exact ⟨_, rfl⟩
  · split <;> exact ⟨_, rfl⟩
  · exact ⟨_, rfl⟩

/-- The argument of the append call for a value of the type. -/
def IntegerType.cell (T : IntegerType) (z : ℤ) : ArrowCell :=
  if T.signed then .int (.ofInt z) else .uint (.ofNat z.toNat)

theorem seriesCell_eq (hT : t.integerType = some T) (c : Column) (row : ℕ) :
    c.seriesCell t row = some (T.cell (c.decodeNumericExact T.numeric row)) := by
  match t, hT with
  | .int8, rfl | .int16, rfl | .int32, rfl | .int64, rfl | .uint8, rfl | .uint16, rfl
  | .uint32, rfl | .uint64, rfl => rfl

/-- The appended cell is the one the readers of the engine give. -/
theorem cell_storedInteger (hT : t.integerType = some T) {col : Column}
    (htype : col.descriptor.logicalType = t) {row : ℕ} (hrow : col.isNull row = false) :
    T.cell (col.storedInteger row) = col.exactCell row := by
  obtain ⟨-, -, -, -, hsigned⟩ := isInteger_of_integerType hT
  have hkind : col.descriptor.kind = storageKindOf t := by rw [ColumnDescriptor.kind, htype]
  rw [Column.exactCell, hrow, IntegerType.cell, Column.storedInteger, hkind]
  by_cases hu : storageKindOf t = .uint64
  · rw [hsigned.mpr hu]
    simp [hu]
  · have hs : T.signed = true := by simpa using hsigned.not.mpr hu
    simp [hu, hs]

end Column

/-! ## What nanoarrow does -/

/-- The cells that the type of a child can hold. -/
def ArrowType.Accepts : ArrowType → ArrowCell → Prop
  | _, .null => True
  | .int8, .int v => IntegerType.int8.InRange v.toInt
  | .int16, .int v => IntegerType.int16.InRange v.toInt
  | .int32, .int v => IntegerType.int32.InRange v.toInt
  | .int64, .int _ => True
  | .uint8, .uint v => IntegerType.uint8.InRange v.toNat
  | .uint16, .uint v => IntegerType.uint16.InRange v.toNat
  | .uint32, .uint v => IntegerType.uint32.InRange v.toNat
  | .uint64, .uint _ => True
  | .float, .double v => ∃ x : Binary32, v = .ofBinary32 x
  | .double, .double _ => True
  | .bool, .int v => v = 0 ∨ v = 1
  | .string, .string _ => True
  | _, _ => False

/-- An array under construction, as its reader sees it. -/
structure SeriesArray where
  valueType : ArrowType
  timestamps : List ArrowCell := []
  values : List ArrowCell := []
  deriving DecidableEq, Repr

namespace SeriesArray

def childType (s : SeriesArray) : SeriesChild → ArrowType
  | .timestamp => .int64
  | .value => s.valueType

def append (s : SeriesArray) (cell : ArrowCell) : SeriesChild → SeriesArray
  | .timestamp => { s with timestamps := s.timestamps ++ [cell] }
  | .value => { s with values := s.values ++ [cell] }

def Balanced (s : SeriesArray) : Prop := s.timestamps.length = s.values.length

def addRows (s : SeriesArray) (rows : List (ArrowCell × ArrowCell)) : SeriesArray :=
  { s with
    timestamps := s.timestamps ++ rows.map Prod.fst
    values := s.values ++ rows.map Prod.snd }

variable {s : SeriesArray} {rows rows' : List (ArrowCell × ArrowCell)}

@[simp] theorem addRows_nil : s.addRows [] = s := by simp [addRows]

@[simp] theorem addRows_addRows : (s.addRows rows).addRows rows' = s.addRows (rows ++ rows') := by
  simp [addRows]

theorem Balanced.addRows (h : s.Balanced) : (s.addRows rows).Balanced := by
  rw [Balanced] at h
  simp [Balanced, SeriesArray.addRows, h]

end SeriesArray

/-- The calls succeed and append what they are given, as long as the type of the child can hold it;
`view` is what a reader sees of an array. -/
structure ArrowAppender.Documented {A : Type} (N : ArrowAppender A) (view : A → SeriesArray) :
    Prop where
  setTypeStruct : N.setTypeStruct = true
  setChild : ∀ child t name, N.setChild child t name = true
  initFromSchema : ∀ t, ∃ a, N.initFromSchema t = .ok a ∧ view a = { valueType := t }
  startAppending : ∀ a, ∃ a', N.startAppending a = some a' ∧ view a' = view a
  append : ∀ a child cell, ((view a).childType child).Accepts cell →
    ∃ a', N.append a child cell = some a' ∧ view a' = (view a).append cell child
  finishElement : ∀ a, (view a).Balanced → ∃ a', N.finishElement a = some a' ∧ view a' = view a
  finishBuildingDefault : ∀ a, (view a).Balanced →
    ∃ a', N.finishBuildingDefault a = .ok a' ∧ view a' = view a

/-- The rows that a chunk adds: its timestamps, and the cells of the column with the field id. -/
def TopicChunk.seriesRows (t : PrimitiveType) (fieldId : ℕ) (chunk : TopicChunk) :
    List (ArrowCell × ArrowCell) :=
  match chunk.fieldColumn fieldId with
  | none => []
  | some c => (List.range chunk.stats.rowCount).map fun row ↦ (.int (chunk.readTimestamp row),
      if c.isNull row then .null else (c.seriesCell t row).getD .null)

namespace ArrowAppender

variable {A : Type} {N : ArrowAppender A} {view : A → SeriesArray} {t : PrimitiveType}
  {T : IntegerType}

/-- A cell of an integer type fits the child that was made for the type. -/
theorem accepts_cell (hT : t.integerType = some T) (z : ℤ) :
    (seriesArrowType t).Accepts (T.cell (T.wrap z)) := by
  obtain ⟨-, hpos, -, -, -⟩ := isInteger_of_integerType hT
  have hrange := IntegerType.inRange_wrap hpos z
  match t, hT with
  | .int64, rfl | .uint64, rfl => exact trivial
  | .int8, rfl | .int16, rfl | .int32, rfl =>
    rw [IntegerType.InRange] at hrange
    change IntegerType.InRange _ (Int64.ofInt _).toInt
    rw [Int64.toInt_ofInt_of_le, IntegerType.InRange]
    all_goals simp [IntegerType.int8, IntegerType.int16, IntegerType.int32] at hrange ⊢; omega
  | .uint8, rfl | .uint16, rfl | .uint32, rfl =>
    rw [IntegerType.InRange] at hrange
    change IntegerType.InRange _ (UInt64.ofNat _).toNat
    rw [UInt64.toNat_ofNat_of_lt', IntegerType.InRange]
    all_goals
      simp [IntegerType.uint8, IntegerType.uint16, IntegerType.uint32, UInt64.size] at hrange ⊢
      omega

/-- One row of an integer field. -/
theorem appendRow_eq (hN : N.Documented view) (hT : t.integerType = some T) (chunk : TopicChunk)
    (c : Column) (row : ℕ) {a : A} (ha : (view a).Balanced)
    (ht : (view a).valueType = seriesArrowType t) :
    ∃ a', N.appendRow t chunk c a row = .ok a' ∧ view a' = (view a).addRows
      [(.int (chunk.readTimestamp row),
        if c.isNull row then .null else (c.seriesCell t row).getD .null)] := by
  obtain ⟨a₁, h₁, hv₁⟩ := hN.append a .timestamp (.int (chunk.readTimestamp row)) trivial
  have htype : (view a₁).childType .value = seriesArrowType t := by rw [hv₁]; exact ht
  have hfinish : ∀ cell, (seriesArrowType t).Accepts cell → ∃ a₂, N.append a₁ .value cell = some a₂ ∧
      ∃ a', appendRow.finishRow N a₂ = .ok a' ∧
        view a' = (view a).addRows [(.int (chunk.readTimestamp row), cell)] := by
    intro cell hcell
    obtain ⟨a₂, h₂, hv₂⟩ := hN.append a₁ .value cell (htype ▸ hcell)
    have hview : view a₂ = (view a).addRows [(.int (chunk.readTimestamp row), cell)] := by
      rw [hv₂, hv₁]
      rfl
    obtain ⟨a', h', hv'⟩ := hN.finishElement a₂ (hview ▸ ha.addRows)
    exact ⟨a₂, h₂, a', by rw [appendRow.finishRow, h'], hv'.trans hview⟩
  rw [appendRow, h₁]
  simp only
  by_cases hnull : c.isNull row
  · obtain ⟨a₂, h₂, a', h', hview⟩ := hfinish .null (by rw [ArrowType.Accepts.eq_def]; trivial)
    refine ⟨a', ?_, ?_⟩
    · rw [if_pos hnull, h₂]
      exact h'
    · rw [if_pos hnull, hview]
  · obtain ⟨z, hz⟩ := exists_decodeNumericExact T c row
    have hcell := accepts_cell hT z
    obtain ⟨a₂, h₂, a', h', hview⟩ := hfinish _ hcell
    rw [seriesCell_eq hT, hz]
    refine ⟨a', ?_, ?_⟩
    · rw [if_neg hnull]
      simp only [h₂]
      exact h'
    · rw [if_neg hnull, hview]
      rfl

/-- Rounds that each add rows. -/
theorem foldlM_addRows {α : Type} {l : List α} {body : A → α → Except String A}
    {rows : α → List (ArrowCell × ArrowCell)}
    (hbody : ∀ x ∈ l, ∀ a, (view a).Balanced → (view a).valueType = seriesArrowType t →
      ∃ a', body a x = .ok a' ∧ view a' = (view a).addRows (rows x)) {a : A}
    (ha : (view a).Balanced) (ht : (view a).valueType = seriesArrowType t) :
    ∃ a', l.foldlM body a = .ok a' ∧ view a' = (view a).addRows (l.flatMap rows) := by
  induction l generalizing a with
  | nil => exact ⟨a, rfl, by simp⟩
  | cons x l ih =>
    obtain ⟨a₁, h₁, hv₁⟩ := hbody x List.mem_cons_self a ha ht
    obtain ⟨a', h', hv'⟩ := ih (fun y hy ↦ hbody y (List.mem_cons_of_mem x hy))
      (hv₁ ▸ ha.addRows) (by rw [hv₁]; exact ht)
    refine ⟨a', ?_, ?_⟩
    · rw [List.foldlM_cons, h₁]
      exact h'
    · rw [hv', hv₁, SeriesArray.addRows_addRows, List.flatMap_cons]

theorem appendChunk_eq (hN : N.Documented view) (hT : t.integerType = some T) (fieldId : ℕ)
    (chunk : TopicChunk) {a : A} (ha : (view a).Balanced)
    (ht : (view a).valueType = seriesArrowType t) :
    ∃ a', N.appendChunk t fieldId a chunk = .ok a' ∧
      view a' = (view a).addRows (chunk.seriesRows t fieldId) := by
  rw [appendChunk, TopicChunk.seriesRows]
  rcases chunk.fieldColumn fieldId with _ | c
  · exact ⟨a, rfl, by simp⟩
  · obtain ⟨a', h', hv'⟩ := foldlM_addRows (t := t) (l := List.range chunk.stats.rowCount)
      (fun row _ a ha ht ↦ appendRow_eq hN hT chunk c row ha ht) ha ht
    exact ⟨a', h', by rw [hv', ← List.map_eq_flatMap]⟩

end ArrowAppender

namespace ArrowAppender

/-- Arrays that are what a reader sees of them. -/
def reference : ArrowAppender SeriesArray where
  setTypeStruct := true
  setChild _ _ _ := true
  initFromSchema t := .ok { valueType := t }
  startAppending := some
  append s child cell := some (s.append cell child)
  finishElement s := if s.timestamps.length = s.values.length then some s else none
  finishBuildingDefault s :=
    if s.timestamps.length = s.values.length then .ok s else .error "children of different lengths"

theorem reference_documented : reference.Documented id where
  setTypeStruct := rfl
  setChild _ _ _ := rfl
  initFromSchema _ := ⟨_, rfl, rfl⟩
  startAppending a := ⟨a, rfl, rfl⟩
  append _ _ _ _ := ⟨_, rfl, rfl⟩
  finishElement a ha := ⟨a, if_pos ha, rfl⟩
  finishBuildingDefault a ha := ⟨a, if_pos ha, rfl⟩

end ArrowAppender

/-- Two rows of an `int8` field that are equal: a constant of eight bytes. -/
def gearChunk : TopicChunk :=
  (([.row 10 [.set 0 (.int64 (-3))], .row 20 [.set 0 (.int64 (-3))]].foldlM
    TopicChunkBuilder.Append.run (.new 1 0 [⟨0, .int8, "gear"⟩] 1024)).getD
      (.new 1 0 [⟨0, .int8, "gear"⟩] 1024)).sealChunk 1

def gearStorage : TopicStorage where
  topicId := 1
  descriptor := { name := "engine" }
  sealedChunks := [gearChunk]

end PlotJuggler
