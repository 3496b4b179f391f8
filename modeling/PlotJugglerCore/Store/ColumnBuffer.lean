import PlotJugglerCore.Lib.Binary64
import PlotJugglerCore.Lib.Bits
import PlotJugglerCore.Lib.LittleEndian

/-!
# The column buffer

`column_buffer.cpp` with the `BitVector` of `buffer.cpp`: one column of a chunk while it is being
written. Fixed-size values lie back to back in the value buffer, strings lie back to back with an
offsets table beside them, and the validity bitmap comes into being with the first null.

`TypedColumnBuffer.Holds` says which slots a buffer stands for, a slot being the bytes of one row
and whether they count. It is the only thing the later files know about the buffer: every append
extends the list of slots, and every read of a row is a read of its slot. Under a null the row path
writes zero bytes, while the bulk path keeps whatever bytes the caller handed over, so a slot has
bytes even where it is null.
-/

namespace PlotJuggler

open LittleEndian

/-! ## Types and values -/

inductive PrimitiveType
  | float32 | float64 | int8 | int16 | int32 | int64 | uint8 | uint16 | uint32 | uint64 | bool
  | string | unspecified
  deriving DecidableEq, Repr

/-- The physical storage category of a column. -/
inductive StorageKind
  | float32 | float64 | int32 | int64 | uint64 | bool | string
  deriving DecidableEq, Repr

def storageKindOf : PrimitiveType → StorageKind
  | .float32 => .float32
  | .float64 => .float64
  | .int8 | .int16 => .int64
  | .int32 => .int32
  | .int64 => .int64
  | .uint8 | .uint16 | .uint32 | .uint64 => .uint64
  | .bool => .bool
  | .string => .string
  | .unspecified => .float64

def storageKindSize : StorageKind → ℕ
  | .float32 => 4
  | .float64 => 8
  | .int32 => 4
  | .int64 => 8
  | .uint64 => 8
  | .bool => 1
  | .string => 0

structure ColumnDescriptor where
  fieldId : ℕ
  logicalType : PrimitiveType
  fieldPath : String
  deriving DecidableEq, Repr

def ColumnDescriptor.kind (d : ColumnDescriptor) : StorageKind := storageKindOf d.logicalType

/-- A value of one of the seven types `set<T>` is instantiated at. -/
inductive Value
  | float32 (v : Binary32)
  | float64 (v : Binary64)
  | int32 (v : Int32)
  | int64 (v : Int64)
  | uint64 (v : UInt64)
  | bool (v : Bool)
  | string (v : List UInt8)
  deriving DecidableEq, Repr

def Value.kind : Value → StorageKind
  | .float32 _ => .float32
  | .float64 _ => .float64
  | .int32 _ => .int32
  | .int64 _ => .int64
  | .uint64 _ => .uint64
  | .bool _ => .bool
  | .string _ => .string

/-- The bytes of a value in the value buffer. -/
def Value.bytes : Value → List UInt8
  | .float32 v => LittleEndian.bytes 4 v.toNat
  | .float64 v => LittleEndian.bytes 8 v.toNat
  | .int32 v => LittleEndian.bytes 4 v.toUInt32.toNat
  | .int64 v => LittleEndian.bytes 8 v.toUInt64.toNat
  | .uint64 v => LittleEndian.bytes 8 v.toNat
  | .bool v => [if v then 1 else 0]
  | .string v => v

/-- The value a slot of the given kind holds. A bool is any byte that is not zero. -/
def StorageKind.decode : StorageKind → List UInt8 → Value
  | .float32, raw => .float32 (UInt32.ofNat (value raw))
  | .float64, raw => .float64 (UInt64.ofNat (value raw))
  | .int32, raw => .int32 (UInt32.ofNat (value raw)).toInt32
  | .int64, raw => .int64 (UInt64.ofNat (value raw)).toInt64
  | .uint64, raw => .uint64 (UInt64.ofNat (value raw))
  | .bool, raw => .bool (raw.headD 0 != 0)
  | .string, raw => .string raw

@[simp] theorem StorageKind.decode_kind (k : StorageKind) (raw : List UInt8) :
    (k.decode raw).kind = k := by
  cases k <;> rfl

@[simp] theorem Value.decode_bytes (v : Value) : v.kind.decode v.bytes = v := by
  cases v with
  | float32 v =>
    rw [Value.kind, Value.bytes, StorageKind.decode, value_bytes_of_lt v.toNat_lt, UInt32.ofNat_toNat]
  | float64 v =>
    rw [Value.kind, Value.bytes, StorageKind.decode, value_bytes_of_lt v.toNat_lt, UInt64.ofNat_toNat]
  | int32 v =>
    rw [Value.kind, Value.bytes, StorageKind.decode, value_bytes_of_lt v.toUInt32.toNat_lt,
      UInt32.ofNat_toNat]
    simp
  | int64 v =>
    rw [Value.kind, Value.bytes, StorageKind.decode, value_bytes_of_lt v.toUInt64.toNat_lt,
      UInt64.ofNat_toNat]
    simp
  | uint64 v =>
    rw [Value.kind, Value.bytes, StorageKind.decode, value_bytes_of_lt v.toNat_lt, UInt64.ofNat_toNat]
  | bool v => cases v <;> rfl
  | string v => rfl

theorem Value.length_bytes (v : Value) (h : v.kind ≠ .string) :
    v.bytes.length = storageKindSize v.kind := by
  cases v with
  | string v => exact absurd rfl h
  | bool v => rfl
  | _ => exact LittleEndian.length_bytes _ _

/-- `static_cast<double>` of a stored value, `value ? 1.0 : 0.0` for a bool, and the NaN of
`readAsDouble` for a string. -/
def Value.toDouble : Value → Binary64
  | .float32 v => .ofBinary32 v
  | .float64 v => v
  | .int32 v => .ofInt v.toInt
  | .int64 v => .ofInt v.toInt
  | .uint64 v => .ofNat v.toNat
  | .bool v => if v then .one else .zero
  | .string _ => 0x7FF8000000000000

/-! ## Bit vectors -/

/-- `BitVector`: bit `i` set means that row `i` is valid. -/
structure BitVector where
  bytes : List UInt8 := []
  bitCount : ℕ := 0
  deriving DecidableEq, Repr

/-- `BitSpan`: a view of `bitLength` bits starting at `bitOffset`. -/
structure BitSpan where
  bytes : List UInt8
  bitOffset : ℕ
  bitLength : ℕ
  deriving DecidableEq, Repr

def BitSpan.isEmpty (s : BitSpan) : Bool := s.bitLength == 0

def BitSpan.test (s : BitSpan) (i : ℕ) : Bool := Bits.get s.bytes (s.bitOffset + i)

def BitSpan.subspan (s : BitSpan) (offset count : ℕ) : BitSpan :=
  ⟨s.bytes, s.bitOffset + offset, count⟩

/-- The bits of a view, in order. -/
def BitSpan.bits (s : BitSpan) : List Bool := (List.range s.bitLength).map s.test

namespace BitVector

def bytesForBits (numBits : ℕ) : ℕ := (numBits + 7) / 8

def isEmpty (v : BitVector) : Bool := v.bitCount == 0

def isValid (v : BitVector) (i : ℕ) : Bool := Bits.get v.bytes i

/-- All of the first `numBits` bits valid. -/
def initValid (numBits : ℕ) : BitVector := ⟨List.replicate (bytesForBits numBits) 0xFF, numBits⟩

/-- New bytes are zero; the bit count never shrinks. -/
def ensureSize (v : BitVector) (numBits : ℕ) : BitVector where
  bytes := v.bytes ++ List.replicate (bytesForBits numBits - v.bytes.length) 0
  bitCount := max v.bitCount numBits

/-- `setValid` or `setNull` at one position. -/
def write (v : BitVector) (i : ℕ) (valid : Bool) : BitVector where
  bytes := if valid then Bits.set v.bytes i else Bits.clear v.bytes i
  bitCount := v.bitCount

/-- The loop that writes one bit after the other from `start` on. -/
def writeAll (v : BitVector) (start : ℕ) : List Bool → BitVector
  | [] => v
  | b :: bs => writeAll (v.write start b) (start + 1) bs

/-- Bit vector `v` has room for `bits` and its first bits are those. -/
structure Holds (v : BitVector) (bits : List Bool) : Prop where
  bitCount : v.bitCount = bits.length
  room : bits.length ≤ 8 * v.bytes.length
  valid : ∀ i, i < bits.length → v.isValid i = bits.getD i true

theorem holds_initValid (n : ℕ) : (initValid n).Holds (List.replicate n true) where
  bitCount := by simp [initValid]
  room := by simp [initValid, bytesForBits]; omega
  valid i hi := by
    rw [List.length_replicate] at hi
    have hroom : i / 8 < bytesForBits n := by rw [bytesForBits]; omega
    rw [isValid, initValid, Bits.get_replicate_full hroom]
    simp [List.getD_eq_getElem?_getD, hi]

/-- Growing keeps the bits there are. What the new ones read is left open: the last old byte may
have been filled with ones. -/
theorem Holds.ensureSize {v : BitVector} {bits : List Bool} (h : v.Holds bits) (k : ℕ) :
    ∃ fresh : List Bool,
      fresh.length = k ∧ (v.ensureSize (bits.length + k)).Holds (bits ++ fresh) := by
  refine ⟨(List.range k).map fun i ↦ v.isValid (bits.length + i), by simp, ?_, ?_, ?_⟩
  · simp [BitVector.ensureSize, h.bitCount]
  · simp only [BitVector.ensureSize, bytesForBits, List.length_append, List.length_map,
      List.length_range, List.length_replicate]
    omega
  · intro i hi
    have hold : (v.ensureSize (bits.length + k)).isValid i = v.isValid i :=
      Bits.get_append_zero _ _ _
    rw [hold]
    rcases Nat.lt_or_ge i bits.length with hlt | hge
    · rw [h.valid i hlt, List.getD_append _ _ _ _ hlt]
    · have hk : i - bits.length < k := by simp at hi; omega
      rw [List.getD_append_right _ _ _ _ hge, List.getD_eq_getElem?_getD, List.getElem?_map,
        List.getElem?_range hk, Option.map_some, Option.getD_some, Nat.add_sub_cancel' hge]

theorem Holds.write {v : BitVector} {pre post : List Bool} {old : Bool}
    (h : v.Holds (pre ++ old :: post)) (b : Bool) :
    (v.write pre.length b).Holds (pre ++ b :: post) := by
  have hroom : pre.length / 8 < v.bytes.length := by
    have := h.room
    simp only [List.length_append, List.length_cons] at this
    omega
  refine ⟨by simpa [BitVector.write] using h.bitCount, ?_, ?_⟩
  · have hlen : (v.write pre.length b).bytes.length = v.bytes.length := by
      rw [BitVector.write]
      split_ifs <;> simp
    simpa [hlen] using h.room
  · intro i hi
    have hi' : i < (pre ++ old :: post).length := by simpa using hi
    have hbit : (v.write pre.length b).isValid i = if pre.length = i then b else v.isValid i := by
      rw [isValid, BitVector.write]
      cases b with
      | true => rw [if_pos rfl, Bits.get_set hroom]; split_ifs with e <;> simp [e, isValid]
      | false =>
        rw [if_neg (by decide), Bits.get_clear hroom]
        split_ifs with e <;> simp [e, isValid]
    rw [hbit]
    split_ifs with e
    · rw [List.getD_append_right _ _ _ _ (by omega)]
      simp [← e]
    · rw [h.valid i hi']
      simp only [List.getD_eq_getElem?_getD, List.getElem?_append]
      split_ifs with hlt
      · rfl
      · obtain ⟨j, hj⟩ : ∃ j, i - pre.length = j + 1 := ⟨i - pre.length - 1, by omega⟩
        rw [hj, List.getElem?_cons_succ, List.getElem?_cons_succ]

/-- The write loop replaces the bits it walks over. -/
theorem Holds.writeAll {v : BitVector} {pre old new : List Bool} (h : v.Holds (pre ++ old))
    (hlen : old.length = new.length) : (v.writeAll pre.length new).Holds (pre ++ new) := by
  induction new generalizing v pre old with
  | nil =>
    rw [List.length_nil, List.length_eq_zero_iff] at hlen
    rw [hlen] at h
    exact h
  | cons b new ih =>
    obtain ⟨o, old, rfl⟩ := List.exists_cons_of_length_eq_add_one hlen
    have hstep : (v.write pre.length b).Holds ((pre ++ [b]) ++ old) := by
      simpa using h.write b
    have := ih hstep (by simpa using hlen)
    rw [List.length_append, List.length_singleton] at this
    simpa [BitVector.writeAll] using this

/-- `ensureSize` and the write loop together append. -/
theorem Holds.append {v : BitVector} {bits : List Bool} (h : v.Holds bits) (new : List Bool) :
    ((v.ensureSize (bits.length + new.length)).writeAll bits.length new).Holds (bits ++ new) := by
  obtain ⟨fresh, hlen, hfresh⟩ := h.ensureSize new.length
  exact hfresh.writeAll hlen

end BitVector

/-! ## Bulk data -/

/-- `ColumnData::data`: what one `appendColumn` or `appendColumnStrings` call is given. -/
inductive ColumnSpan
  | float32 (d : List Binary32)
  | float64 (d : List Binary64)
  | int32 (d : List Int32)
  | int64 (d : List Int64)
  | uint64 (d : List UInt64)
  | bool (d : List UInt8)
  | strings (offsets : List UInt32) (values : List UInt8)
  deriving DecidableEq, Repr

namespace ColumnSpan

def kind : ColumnSpan → StorageKind
  | .float32 _ => .float32
  | .float64 _ => .float64
  | .int32 _ => .int32
  | .int64 _ => .int64
  | .uint64 _ => .uint64
  | .bool _ => .bool
  | .strings _ _ => .string

def rowCount : ColumnSpan → ℕ
  | .float32 d => d.length
  | .float64 d => d.length
  | .int32 d => d.length
  | .int64 d => d.length
  | .uint64 d => d.length
  | .bool d => d.length
  | .strings offsets _ => offsets.length - 1

/-- The strings between consecutive offsets. -/
def slices (values : List UInt8) : List UInt32 → List (List UInt8)
  | [] => []
  | [_] => []
  | a :: b :: rest =>
    (values.drop a.toNat).take (b.toNat - a.toNat) :: slices values (b :: rest)

/-- The bytes of each row. -/
def raws : ColumnSpan → List (List UInt8)
  | .float32 d => d.map fun v ↦ (Value.float32 v).bytes
  | .float64 d => d.map fun v ↦ (Value.float64 v).bytes
  | .int32 d => d.map fun v ↦ (Value.int32 v).bytes
  | .int64 d => d.map fun v ↦ (Value.int64 v).bytes
  | .uint64 d => d.map fun v ↦ (Value.uint64 v).bytes
  | .bool d => d.map fun v ↦ [v]
  | .strings offsets values => slices values offsets

/-- The values of the rows: a bool is any byte that is not zero. -/
def values : ColumnSpan → List Value
  | .float32 d => d.map .float32
  | .float64 d => d.map .float64
  | .int32 d => d.map .int32
  | .int64 d => d.map .int64
  | .uint64 d => d.map .uint64
  | .bool d => d.map fun v ↦ .bool (v != 0)
  | .strings offsets values => (slices values offsets).map .string

/-- `subspan(offset, count)` of the data, with one offset more for strings. -/
def subspan (offset count : ℕ) : ColumnSpan → ColumnSpan
  | .float32 d => .float32 ((d.drop offset).take count)
  | .float64 d => .float64 ((d.drop offset).take count)
  | .int32 d => .int32 ((d.drop offset).take count)
  | .int64 d => .int64 ((d.drop offset).take count)
  | .uint64 d => .uint64 ((d.drop offset).take count)
  | .bool d => .bool ((d.drop offset).take count)
  | .strings offsets values => .strings ((offsets.drop offset).take (count + 1)) values

/-- The layout a string batch has to have: offsets that never step back. That they stay inside the
data is asserted by `appendStringsBulk`. -/
def WellFormed : ColumnSpan → Prop
  | .strings offsets _ => offsets.Pairwise (· ≤ ·)
  | _ => True

instance (d : ColumnSpan) : Decidable d.WellFormed := by
  cases d <;> unfold WellFormed <;> infer_instance

/-- The offsets of strings stay inside data that 32-bit offsets can address. -/
def InBounds : ColumnSpan → Prop
  | .strings offsets values => (∀ o ∈ offsets, o.toNat ≤ values.length) ∧ values.length < 2 ^ 32
  | _ => True

-- offsets are of a finite type, and would be tried one by one
instance : DecidablePred InBounds
  | .strings offsets values =>
    have : Decidable (∀ o ∈ offsets, o.toNat ≤ values.length) := List.decidableBAll _ _
    inferInstanceAs (Decidable (_ ∧ values.length < 2 ^ 32))
  | .float32 _ | .float64 _ | .int32 _ | .int64 _ | .uint64 _ | .bool _ => .isTrue trivial

theorem length_slices (values : List UInt8) (offsets : List UInt32) :
    (slices values offsets).length = offsets.length - 1 := by
  induction offsets with
  | nil => rfl
  | cons a rest ih =>
    cases rest with
    | nil => rfl
    | cons b rest => simpa [slices] using ih

@[simp] theorem length_raws (d : ColumnSpan) : d.raws.length = d.rowCount := by
  cases d with
  | strings offsets values => exact length_slices values offsets
  | _ => exact List.length_map _

/-- The bytes of the rows decode to their values. -/
theorem map_decode_raws (d : ColumnSpan) : d.raws.map d.kind.decode = d.values := by
  have hfixed {α : Type} (f : α → Value) {k : StorageKind} (hk : ∀ v, (f v).kind = k) (d : List α) :
      (d.map fun v ↦ (f v).bytes).map k.decode = d.map f := by
    rw [List.map_map]
    exact List.map_congr_left fun v _ ↦ by rw [Function.comp_apply, ← hk v, Value.decode_bytes]
  cases d with
  | float32 d => exact hfixed .float32 (fun _ ↦ rfl) d
  | float64 d => exact hfixed .float64 (fun _ ↦ rfl) d
  | int32 d => exact hfixed .int32 (fun _ ↦ rfl) d
  | int64 d => exact hfixed .int64 (fun _ ↦ rfl) d
  | uint64 d => exact hfixed .uint64 (fun _ ↦ rfl) d
  | bool d => rw [raws, List.map_map]; rfl
  | strings offsets values => rfl

theorem length_of_mem_raws {d : ColumnSpan} {raw : List UInt8} (h : d.kind ≠ .string)
    (hraw : raw ∈ d.raws) : raw.length = storageKindSize d.kind := by
  cases d with
  | strings offsets values => exact absurd rfl h
  | bool d =>
    obtain ⟨v, -, rfl⟩ := List.mem_map.mp hraw
    rfl
  | _ =>
    obtain ⟨v, -, rfl⟩ := List.mem_map.mp hraw
    exact LittleEndian.length_bytes _ _

end ColumnSpan

/-! ## The buffer -/

/-- `TypedColumnBuffer`. The offsets buffer is kept as the table of `uint32_t` it is read as. -/
structure TypedColumnBuffer where
  descriptor : ColumnDescriptor
  values : List UInt8 := []
  validity : BitVector := {}
  offsets : List UInt32 := []
  rowCount : ℕ := 0
  nullCount : ℕ := 0
  validityInitialized : Bool := false
  deriving DecidableEq, Repr

namespace TypedColumnBuffer

def kind (b : TypedColumnBuffer) : StorageKind := b.descriptor.kind

def hasNulls (b : TypedColumnBuffer) : Bool := 0 < b.nullCount

def isValid (b : TypedColumnBuffer) (row : ℕ) : Bool :=
  !b.validityInitialized || b.validity.isValid row

def ensureValidityInitialized (b : TypedColumnBuffer) : TypedColumnBuffer :=
  if b.validityInitialized then b
  else { b with validity := .initValid b.rowCount, validityInitialized := true }

/-- Mark `count` further rows valid, if there is a bitmap to mark them in, and count them. -/
def addValidRows (b : TypedColumnBuffer) (count : ℕ) : TypedColumnBuffer :=
  { b with
    validity := if b.validityInitialized then
        (b.validity.ensureSize (b.rowCount + count)).writeAll b.rowCount (List.replicate count true)
      else b.validity
    rowCount := b.rowCount + count }

def appendFixed (b : TypedColumnBuffer) (raw : List UInt8) : TypedColumnBuffer :=
  { b with values := b.values ++ raw }.addValidRows 1

/-- The offsets table before an append: the first row also writes the initial offset. -/
def startOffsets (b : TypedColumnBuffer) : List UInt32 :=
  if b.rowCount = 0 then b.offsets ++ [0] else b.offsets

def appendString (b : TypedColumnBuffer) (s : List UInt8) : TypedColumnBuffer :=
  { b with
    values := b.values ++ s
    offsets := b.startOffsets ++ [UInt32.ofNat (b.values ++ s).length] }.addValidRows 1

/-- `appendFloat32` to `appendString`: each asserts that the column has its kind. -/
def append (b : TypedColumnBuffer) (v : Value) : Option TypedColumnBuffer :=
  if v.kind = b.kind then
    match v with
    | .string s => some (b.appendString s)
    | v => some (b.appendFixed v.bytes)
  else none

def appendNull (b : TypedColumnBuffer) : TypedColumnBuffer :=
  { b.ensureValidityInitialized with
    validity := (b.ensureValidityInitialized.validity.ensureSize (b.rowCount + 1)).writeAll
      b.rowCount [false]
    values := b.values ++ List.replicate (storageKindSize b.kind) 0
    offsets := if b.kind = .string then b.startOffsets ++ [UInt32.ofNat b.values.length]
      else b.offsets
    rowCount := b.rowCount + 1
    nullCount := b.nullCount + 1 }

def appendFixedBulk (b : TypedColumnBuffer) (raws : List (List UInt8)) : TypedColumnBuffer :=
  if raws = [] then b else { b with values := b.values ++ raws.flatten }.addValidRows raws.length

def appendStringsBulk (b : TypedColumnBuffer) (offsets : List UInt32) (data : List UInt8) :
    Option TypedColumnBuffer :=
  match offsets with
  | [] => some b
  | first :: rest =>
    if rest = [] then some b
    -- the two assertions on the ends of the offsets table
    else if first ≤ UInt32.ofNat data.length ∧ rest.getLastD first ≤ UInt32.ofNat data.length then
      some ({ b with
        values := b.values ++ (data.drop first.toNat).take (rest.getLastD first - first).toNat
        offsets := b.startOffsets ++
          rest.map fun o ↦ UInt32.ofNat b.values.length + (o - first) }.addValidRows rest.length)
    else none

/-- `appendFloat32Bulk` to `appendStringsBulk`: each asserts that the column has its kind. -/
def appendBulk (b : TypedColumnBuffer) (d : ColumnSpan) : Option TypedColumnBuffer :=
  if d.kind = b.kind then
    match d with
    | .strings offsets values => b.appendStringsBulk offsets values
    | d => some (b.appendFixedBulk d.raws)
  else none

/-- The bits cover the rows appended last. -/
def appendValidityBulk (b : TypedColumnBuffer) (v : BitSpan) : TypedColumnBuffer :=
  if v.bitLength = 0 then b
  else
    { b.ensureValidityInitialized with
      validity := (b.ensureValidityInitialized.validity.ensureSize b.rowCount).writeAll
        (b.rowCount - v.bitLength) v.bits
      nullCount := b.nullCount + v.bits.count false }

/-- The bytes of one row of a fixed-size column. -/
def readFixed (b : TypedColumnBuffer) (row : ℕ) : List UInt8 :=
  element b.values (storageKindSize b.kind) row

def readString (b : TypedColumnBuffer) (row : ℕ) : List UInt8 :=
  (b.values.drop (b.offsets.getD row 0).toNat).take
    (b.offsets.getD (row + 1) 0 - b.offsets.getD row 0).toNat

/-- `readAsDouble` for the fixed-size kinds. -/
def readAsDouble (b : TypedColumnBuffer) (row : ℕ) : Binary64 :=
  (b.kind.decode (b.readFixed row)).toDouble

theorem kind_of_append {b b' : TypedColumnBuffer} {v : Value} (h : b.append v = some b') :
    v.kind = b.kind := by
  cases v <;> simp only [append] at h <;> split_ifs at h with hk <;> exact hk

theorem kind_of_appendBulk {b b' : TypedColumnBuffer} {d : ColumnSpan}
    (h : b.appendBulk d = some b') : d.kind = b.kind := by
  cases d <;> simp only [appendBulk] at h <;> split_ifs at h with hk <;> exact hk

/-- A call that is given values of the column's kind goes through. -/
theorem exists_append {b : TypedColumnBuffer} {v : Value} (hk : v.kind = b.kind) :
    ∃ b', b.append v = some b' := by
  rw [append.eq_def, if_pos hk]
  cases v <;> exact ⟨_, rfl⟩

theorem exists_appendBulk {b : TypedColumnBuffer} {d : ColumnSpan}
    (hk : d.kind = b.kind) (hin : d.InBounds) : ∃ b', b.appendBulk d = some b' := by
  rw [appendBulk.eq_def, if_pos hk]
  cases d with
  | strings offsets values =>
    obtain ⟨hoffsets, hsize⟩ := hin
    -- an offset inside the data passes the assertion, because the size does not wrap
    have hle : ∀ x ∈ offsets, x ≤ UInt32.ofNat values.length := by
      intro x hx
      rw [UInt32.le_iff_toNat_le, UInt32.toNat_ofNat_of_lt' hsize]
      exact hoffsets x hx
    rcases offsets with _ | ⟨first, rest⟩
    · exact ⟨b, rfl⟩
    · simp only [appendStringsBulk]
      by_cases hrest : rest = []
      · exact ⟨b, if_pos hrest⟩
      · have hlast : rest.getLastD first ∈ first :: rest := by
          rw [← List.getLast_eq_getLastD (List.cons_ne_nil first rest)]
          exact List.getLast_mem _
        rw [if_neg hrest, if_pos ⟨hle first List.mem_cons_self, hle _ hlast⟩]
        exact ⟨_, rfl⟩
  | _ => exact ⟨_, rfl⟩

/-! ### The descriptor never changes -/

theorem append_descriptor {b b' : TypedColumnBuffer} {v : Value} (h : b.append v = some b') :
    b'.descriptor = b.descriptor := by
  cases v <;> simp only [append] at h <;> split_ifs at h <;> cases h <;> rfl

@[simp] theorem ensureValidityInitialized_descriptor (b : TypedColumnBuffer) :
    b.ensureValidityInitialized.descriptor = b.descriptor := by
  rw [ensureValidityInitialized]
  split_ifs <;> rfl

@[simp] theorem appendNull_descriptor (b : TypedColumnBuffer) :
    b.appendNull.descriptor = b.descriptor := by
  simp [appendNull]

theorem appendBulk_descriptor {b b' : TypedColumnBuffer} {d : ColumnSpan}
    (h : b.appendBulk d = some b') : b'.descriptor = b.descriptor := by
  have hfixed (raws : List (List UInt8)) : (b.appendFixedBulk raws).descriptor = b.descriptor := by
    rw [appendFixedBulk]
    split_ifs <;> rfl
  cases d with
  | strings offsets values =>
    simp only [appendBulk] at h
    cases offsets with
    | nil => split_ifs at h; cases h; rfl
    | cons first rest =>
      simp only [appendStringsBulk] at h
      split_ifs at h <;> cases h <;> rfl
  | _ =>
    simp only [appendBulk] at h
    split_ifs at h
    cases h
    exact hfixed _

@[simp] theorem appendValidityBulk_descriptor (b : TypedColumnBuffer) (v : BitSpan) :
    (b.appendValidityBulk v).descriptor = b.descriptor := by
  rw [appendValidityBulk]
  split_ifs
  · rfl
  · exact ensureValidityInitialized_descriptor b

/-! ### The slots of a buffer -/

/-- One row of a column: its bytes, and whether they count. -/
structure Slot where
  valid : Bool
  raw : List UInt8
  deriving DecidableEq, Repr

/-- The end offset of each string of a list that starts at byte `start`. -/
def endOffsets (start : ℕ) : List (List UInt8) → List UInt32
  | [] => []
  | s :: ss => UInt32.ofNat (start + s.length) :: endOffsets (start + s.length) ss

/-- Buffer `b` stands for the given rows. -/
structure Holds (b : TypedColumnBuffer) (slots : List Slot) : Prop where
  rowCount : b.rowCount = slots.length
  nullCount : b.nullCount = (slots.map Slot.valid).count false
  values : b.values = (slots.map Slot.raw).flatten
  size : b.kind ≠ .string → ∀ s ∈ slots, s.raw.length = storageKindSize b.kind
  offsets : b.kind = .string →
    b.offsets = if slots = [] then [] else 0 :: endOffsets 0 (slots.map Slot.raw)
  validity : if b.validityInitialized then b.validity.Holds (slots.map Slot.valid)
    else ∀ s ∈ slots, s.valid = true

variable {b b' : TypedColumnBuffer} {slots : List Slot}

theorem holds_new (d : ColumnDescriptor) : Holds { descriptor := d } [] where
  rowCount := rfl
  nullCount := rfl
  values := rfl
  size _ _ hs := absurd hs List.not_mem_nil
  offsets _ := rfl
  validity _ hs := absurd hs List.not_mem_nil

theorem endOffsets_append (start : ℕ) (l m : List (List UInt8)) :
    endOffsets start (l ++ m) = endOffsets start l ++ endOffsets (start + l.flatten.length) m := by
  induction l generalizing start with
  | nil => simp [endOffsets]
  | cons s l ih =>
    rw [List.cons_append, endOffsets, ih, endOffsets, List.flatten_cons, List.length_append,
      Nat.add_assoc, List.cons_append]

theorem getElem?_endOffsets (start : ℕ) {l : List (List UInt8)} {r : ℕ} (h : r < l.length) :
    (endOffsets start l)[r]? = some (UInt32.ofNat (start + (l.take (r + 1)).flatten.length)) := by
  induction l generalizing start r with
  | nil => exact absurd h (Nat.not_lt_zero r)
  | cons s l ih =>
    cases r with
    | zero => simp [endOffsets]
    | succ r =>
      rw [endOffsets, List.getElem?_cons_succ, ih _ (by simpa using h), List.take_succ_cons,
        List.flatten_cons, List.length_append, Nat.add_assoc]

/-- Entry `r` of the offsets table is the number of bytes before row `r`. -/
theorem Holds.getD_offsets (h : b.Holds slots) (hk : b.kind = .string) {r : ℕ}
    (hr : r ≤ slots.length) :
    b.offsets.getD r 0 = UInt32.ofNat ((slots.take r).map Slot.raw).flatten.length := by
  rw [h.offsets hk]
  cases r with
  | zero => split_ifs <;> rfl
  | succ r =>
    have hne : slots ≠ [] := by rintro rfl; simp at hr
    rw [if_neg hne, List.getD_cons_succ, List.getD_eq_getElem?_getD,
      getElem?_endOffsets 0 (by simpa using Nat.lt_of_succ_le hr), ← List.map_take]
    simp

theorem Holds.startOffsets (h : b.Holds slots) (hk : b.kind = .string) :
    b.startOffsets = 0 :: endOffsets 0 (slots.map Slot.raw) := by
  rw [TypedColumnBuffer.startOffsets, h.rowCount, h.offsets hk]
  by_cases hs : slots = []
  · simp [hs, endOffsets]
  · simp [hs]

/-- The append all others come down to: `raws.length` valid rows, with the offsets table that
belongs to them. -/
theorem Holds.addRows (h : b.Holds slots) (raws : List (List UInt8))
    (hsize : b.kind ≠ .string → ∀ raw ∈ raws, raw.length = storageKindSize b.kind)
    (offsets : List UInt32) (hoffsets : b.kind = .string → offsets =
      if slots ++ raws.map (Slot.mk true) = [] then []
      else 0 :: endOffsets 0 (slots.map Slot.raw ++ raws)) :
    ({ b with values := b.values ++ raws.flatten, offsets := offsets }.addValidRows
      raws.length).Holds (slots ++ raws.map (Slot.mk true)) := by
  have hvalid : (raws.map (Slot.mk true)).map Slot.valid = List.replicate raws.length true := by
    simp [Function.comp_def]
  have hraw : (raws.map (Slot.mk true)).map Slot.raw = raws := by simp [Function.comp_def]
  refine ⟨?_, ?_, ?_, ?_, ?_, ?_⟩
  · simp [addValidRows, h.rowCount]
  · rw [List.map_append, hvalid, List.count_append, List.count_replicate]
    simpa [addValidRows] using h.nullCount
  · rw [List.map_append, hraw, List.flatten_append, ← h.values]
    rfl
  · intro hk s hs
    rcases List.mem_append.mp hs with hs | hs
    · exact h.size hk s hs
    · obtain ⟨raw, hmem, rfl⟩ := List.mem_map.mp hs
      exact hsize hk raw hmem
  · intro hk
    rw [List.map_append, hraw]
    exact hoffsets hk
  · have hval := h.validity
    simp only [addValidRows]
    split_ifs with hinit
    · rw [if_pos hinit] at hval
      rw [List.map_append, hvalid, h.rowCount]
      simpa using hval.append (List.replicate raws.length true)
    · rw [if_neg hinit] at hval
      intro s hs
      rcases List.mem_append.mp hs with hs | hs
      · exact hval s hs
      · obtain ⟨raw, -, rfl⟩ := List.mem_map.mp hs
        rfl

theorem Holds.appendFixed (h : b.Holds slots) (hk : b.kind ≠ .string) {raw : List UInt8}
    (hraw : raw.length = storageKindSize b.kind) :
    (b.appendFixed raw).Holds (slots ++ [⟨true, raw⟩]) := by
  have := h.addRows [raw] (fun _ ↦ by simpa using hraw) b.offsets (fun e ↦ absurd e hk)
  simpa [TypedColumnBuffer.appendFixed] using this

theorem Holds.appendString (h : b.Holds slots) (hk : b.kind = .string) (s : List UInt8) :
    (b.appendString s).Holds (slots ++ [⟨true, s⟩]) := by
  have hoffsets : b.startOffsets ++ [UInt32.ofNat (b.values ++ s).length]
      = 0 :: endOffsets 0 (slots.map Slot.raw ++ [s]) := by
    rw [h.startOffsets hk, endOffsets_append, h.values, List.length_append]
    simp [endOffsets]
  have := h.addRows [s] (fun e ↦ absurd hk e) _ (fun _ ↦ by rw [if_neg (by simp), ← hoffsets])
  simpa [TypedColumnBuffer.appendString] using this

theorem Holds.append (h : b.Holds slots) {v : Value} (hb : b.append v = some b') :
    b'.Holds (slots ++ [⟨true, v.bytes⟩]) := by
  cases v with
  | string s =>
    rw [TypedColumnBuffer.append] at hb
    split_ifs at hb with hk
    obtain rfl := Option.some.inj hb
    exact h.appendString hk.symm s
  | _ =>
    simp only [TypedColumnBuffer.append] at hb
    split_ifs at hb with hk
    obtain rfl := Option.some.inj hb
    refine h.appendFixed (fun e ↦ by simp [Value.kind, e] at hk) ?_
    rw [← hk]
    exact Value.length_bytes _ (by simp [Value.kind])

theorem Holds.ensureValidityInitialized (h : b.Holds slots) :
    b.ensureValidityInitialized.validity.Holds (slots.map Slot.valid) := by
  have hval := h.validity
  rw [TypedColumnBuffer.ensureValidityInitialized]
  split_ifs at hval ⊢ with hinit
  · exact hval
  · have hall : slots.map Slot.valid = List.replicate b.rowCount true := by
      rw [h.rowCount, List.eq_replicate_iff]
      exact ⟨List.length_map _, by simpa using hval⟩
    rw [hall]
    exact BitVector.holds_initValid b.rowCount

@[simp] theorem ensureValidityInitialized_initialized (b : TypedColumnBuffer) :
    b.ensureValidityInitialized.validityInitialized = true := by
  rw [TypedColumnBuffer.ensureValidityInitialized]
  split_ifs with h <;> simp [h]

/-- The bytes under a null of the row path. -/
def nullRaw (k : StorageKind) : List UInt8 := List.replicate (storageKindSize k) 0

theorem Holds.appendNull (h : b.Holds slots) :
    b.appendNull.Holds (slots ++ [⟨false, nullRaw b.kind⟩]) := by
  have hkind : b.appendNull.kind = b.kind := by simp [TypedColumnBuffer.appendNull, kind]
  refine ⟨?_, ?_, ?_, ?_, ?_, ?_⟩
  · simp [TypedColumnBuffer.appendNull, h.rowCount]
  · simp [TypedColumnBuffer.appendNull, h.nullCount]
  · simp [TypedColumnBuffer.appendNull, h.values, nullRaw]
  · rw [hkind]
    intro hk s hs
    rcases List.mem_append.mp hs with hs | hs
    · exact h.size hk s hs
    · obtain rfl := List.mem_singleton.mp hs
      exact List.length_replicate
  · rw [hkind]
    intro hk
    have hraw : nullRaw b.kind = [] := by rw [hk]; rfl
    have htable : b.appendNull.offsets = b.startOffsets ++ [UInt32.ofNat b.values.length] := by
      rw [TypedColumnBuffer.appendNull, if_pos hk]
    rw [htable, if_neg (by simp), h.startOffsets hk, List.map_append, endOffsets_append, hraw,
      h.values]
    simp [endOffsets]
  · have := h.ensureValidityInitialized.append [false]
    simpa [TypedColumnBuffer.appendNull, h.rowCount] using this

/-! ### Bulk appends -/

theorem Holds.appendFixedBulk (h : b.Holds slots) (hk : b.kind ≠ .string)
    {raws : List (List UInt8)} (hraw : ∀ raw ∈ raws, raw.length = storageKindSize b.kind) :
    (b.appendFixedBulk raws).Holds (slots ++ raws.map (Slot.mk true)) := by
  rw [TypedColumnBuffer.appendFixedBulk]
  split_ifs with he
  · simpa [he] using h
  · exact h.addRows raws (fun _ ↦ hraw) b.offsets (fun e ↦ absurd e hk)

theorem le_getLastD {first : UInt32} {rest : List UInt32}
    (hmono : (first :: rest).Pairwise (· ≤ ·)) : first ≤ rest.getLastD first := by
  rcases List.eq_nil_or_concat rest with rfl | ⟨l, x, rfl⟩
  · exact UInt32.le_refl first
  · rw [List.concat_eq_append, List.getLastD_concat]
    exact (List.pairwise_cons.mp hmono).1 x (by simp)

/-- The slices of a well-formed table lie back to back between its ends. -/
theorem flatten_slices {data : List UInt8} {first : UInt32} {rest : List UInt32}
    (hmono : (first :: rest).Pairwise (· ≤ ·))
    (hlast : (rest.getLastD first).toNat ≤ data.length) :
    (ColumnSpan.slices data (first :: rest)).flatten
      = (data.drop first.toNat).take ((rest.getLastD first).toNat - first.toNat) := by
  induction rest generalizing first with
  | nil => simp [ColumnSpan.slices]
  | cons a rest ih =>
    obtain ⟨hfirst, hrest⟩ := List.pairwise_cons.mp hmono
    have hfa : first.toNat ≤ a.toNat := hfirst a List.mem_cons_self
    have hlast' : (rest.getLastD a).toNat ≤ data.length := by rwa [List.getLastD_cons] at hlast
    have hal : a.toNat ≤ (rest.getLastD a).toNat := le_getLastD hrest
    have hsplit : (rest.getLastD a).toNat - first.toNat
        = (a.toNat - first.toNat) + ((rest.getLastD a).toNat - a.toNat) := by omega
    rw [ColumnSpan.slices, List.flatten_cons, ih hrest hlast', List.getLastD_cons, hsplit,
      List.take_add, List.drop_drop, Nat.add_sub_cancel' hfa]

/-- Rebasing the offsets of a well-formed table gives the end offsets of its slices. -/
theorem endOffsets_slices {data : List UInt8} {first : UInt32} {rest : List UInt32}
    (hmono : (first :: rest).Pairwise (· ≤ ·))
    (hlast : (rest.getLastD first).toNat ≤ data.length) (base : ℕ) :
    endOffsets base (ColumnSpan.slices data (first :: rest))
      = rest.map fun o ↦ UInt32.ofNat base + (o - first) := by
  induction rest generalizing first base with
  | nil => rfl
  | cons a rest ih =>
    obtain ⟨hfirst, hrest⟩ := List.pairwise_cons.mp hmono
    have hfa : first ≤ a := hfirst a List.mem_cons_self
    have hlast' : (rest.getLastD a).toNat ≤ data.length := by rwa [List.getLastD_cons] at hlast
    have hal : a.toNat ≤ data.length := le_trans (le_getLastD hrest) hlast'
    have hlen : ((data.drop first.toNat).take (a.toNat - first.toNat)).length
        = a.toNat - first.toNat := by simp; omega
    have hbase : UInt32.ofNat (base + (a.toNat - first.toNat))
        = UInt32.ofNat base + (a - first) := by
      rw [UInt32.ofNat_add, ← UInt32.toNat_sub_of_le _ _ hfa, UInt32.ofNat_toNat]
    rw [ColumnSpan.slices, endOffsets, hlen, ih hrest hlast', hbase, List.map_cons]
    congr 1
    apply List.map_congr_left
    intro o _
    grind

theorem Holds.appendStringsBulk (h : b.Holds slots) (hk : b.kind = .string)
    {offsets : List UInt32} {data : List UInt8} (hmono : offsets.Pairwise (· ≤ ·))
    (hb : b.appendStringsBulk offsets data = some b') :
    b'.Holds (slots ++ (ColumnSpan.slices data offsets).map (Slot.mk true)) := by
  cases offsets with
  | nil =>
    obtain rfl := Option.some.inj hb
    simpa [ColumnSpan.slices] using h
  | cons first rest =>
    rw [TypedColumnBuffer.appendStringsBulk] at hb
    split_ifs at hb with hrest hends
    · obtain rfl := Option.some.inj hb
      simpa [hrest, ColumnSpan.slices] using h
    · obtain rfl := Option.some.inj hb
      have hlast : (rest.getLastD first).toNat ≤ data.length := by
        refine (UInt32.le_iff_toNat_le.mp hends.2).trans ?_
        rw [UInt32.toNat_ofNat']
        exact Nat.mod_le _ _
      have hlen : (ColumnSpan.slices data (first :: rest)).length = rest.length := by
        rw [ColumnSpan.length_slices]; rfl
      have hne : ColumnSpan.slices data (first :: rest) ≠ [] := by
        rw [← List.length_pos_iff, hlen, List.length_pos_iff]
        exact hrest
      have := h.addRows (ColumnSpan.slices data (first :: rest)) (fun e ↦ absurd hk e)
        (b.startOffsets ++ rest.map fun o ↦ UInt32.ofNat b.values.length + (o - first))
        (fun _ ↦ by
          rw [if_neg (by simp [hne]), h.startOffsets hk, endOffsets_append,
            ← endOffsets_slices hmono hlast, h.values, List.cons_append, Nat.zero_add])
      rw [flatten_slices hmono hlast, hlen, ← UInt32.toNat_sub_of_le _ _ (le_getLastD hmono)] at this
      exact this

theorem Holds.appendBulk (h : b.Holds slots) {d : ColumnSpan} (hd : d.WellFormed)
    (hb : b.appendBulk d = some b') : b'.Holds (slots ++ d.raws.map (Slot.mk true)) := by
  cases d with
  | strings offsets data =>
    rw [TypedColumnBuffer.appendBulk] at hb
    split_ifs at hb with hk
    exact h.appendStringsBulk hk.symm hd hb
  | _ =>
    simp only [TypedColumnBuffer.appendBulk] at hb
    split_ifs at hb with hk
    obtain rfl := Option.some.inj hb
    refine h.appendFixedBulk (fun e ↦ by simp [ColumnSpan.kind, e] at hk) fun raw hraw ↦ ?_
    rw [← hk]
    exact ColumnSpan.length_of_mem_raws (by simp [ColumnSpan.kind]) hraw

/-- The slots of a batch: its bytes under its bits. -/
def batchSlots (bits : List Bool) (raws : List (List UInt8)) : List Slot :=
  List.zipWith Slot.mk bits raws

theorem valid_batchSlots {bits : List Bool} {raws : List (List UInt8)}
    (h : bits.length = raws.length) : (batchSlots bits raws).map Slot.valid = bits := by
  rw [batchSlots, ← List.map_uncurry_zip_eq_zipWith, List.map_map]
  exact List.map_fst_zip h.le

theorem raw_batchSlots {bits : List Bool} {raws : List (List UInt8)}
    (h : bits.length = raws.length) : (batchSlots bits raws).map Slot.raw = raws := by
  rw [batchSlots, ← List.map_uncurry_zip_eq_zipWith, List.map_map]
  exact List.map_snd_zip h.ge

theorem batchSlots_replicate_true (raws : List (List UInt8)) :
    batchSlots (List.replicate raws.length true) raws = raws.map (Slot.mk true) := by
  rw [batchSlots]
  induction raws with
  | nil => rfl
  | cons raw raws ih => rw [List.length_cons, List.replicate_succ, List.zipWith_cons_cons, ih,
      List.map_cons]

/-- The bitmap of a batch is laid over the rows just appended. -/
theorem Holds.appendValidityBulk {raws : List (List UInt8)}
    (h : b.Holds (slots ++ raws.map (Slot.mk true))) {v : BitSpan} (hv : v.bitLength = raws.length) :
    (b.appendValidityBulk v).Holds (slots ++ batchSlots v.bits raws) := by
  have hbits : v.bits.length = raws.length := by simp [BitSpan.bits, hv]
  have hvalid := valid_batchSlots hbits
  have hraw := raw_batchSlots hbits
  have hlen : (batchSlots v.bits raws).length = raws.length := by simp [batchSlots, hbits]
  have hraw' : (raws.map (Slot.mk true)).map Slot.raw = raws := by simp [Function.comp_def]
  rw [TypedColumnBuffer.appendValidityBulk]
  split_ifs with hzero
  · -- an empty bitmap: no rows either
    have hnil : raws = [] := List.length_eq_zero_iff.mp (by omega)
    subst hnil
    simpa [batchSlots] using h
  have hkind : b.ensureValidityInitialized.kind = b.kind := by simp [kind]
  have hfields : b.ensureValidityInitialized.rowCount = b.rowCount ∧
      b.ensureValidityInitialized.values = b.values ∧
      b.ensureValidityInitialized.offsets = b.offsets := by
    rw [TypedColumnBuffer.ensureValidityInitialized]
    split_ifs <;> exact ⟨rfl, rfl, rfl⟩
  refine ⟨?_, ?_, ?_, ?_, ?_, ?_⟩
  · simp [hfields.1, h.rowCount, hlen]
  · have hcount : ((raws.map (Slot.mk true)).map Slot.valid).count false = 0 := by
      simp [List.count_eq_zero]
    rw [List.map_append, List.count_append, hvalid]
    simp only [h.nullCount, List.map_append, List.count_append, hcount, Nat.add_zero]
  · simp only [hfields.2.1, h.values, List.map_append, hraw, hraw']
  · intro hk s hs
    have hk' : b.kind ≠ .string := hkind ▸ hk
    change s.raw.length = storageKindSize b.ensureValidityInitialized.kind
    rw [hkind]
    rcases List.mem_append.mp hs with hs | hs
    · exact h.size hk' s (List.mem_append_left _ hs)
    · have hmem : s.raw ∈ raws := hraw ▸ List.mem_map_of_mem hs
      exact h.size hk' ⟨true, s.raw⟩ (List.mem_append_right _ (List.mem_map_of_mem hmem))
  · intro hk
    have hk' : b.kind = .string := hkind ▸ hk
    have hiff : slots ++ batchSlots v.bits raws = [] ↔ slots ++ raws.map (Slot.mk true) = [] := by
      rw [List.append_eq_nil_iff, List.append_eq_nil_iff, List.map_eq_nil_iff,
        ← List.length_eq_zero_iff (l := batchSlots v.bits raws), hlen, List.length_eq_zero_iff]
    have hold := h.offsets hk'
    rw [List.map_append, hraw'] at hold
    simp only [hfields.2.2, hold, List.map_append, hraw, hiff]
  · rw [if_pos (by simp)]
    obtain ⟨fresh, hfresh, hroom⟩ := h.ensureValidityInitialized.ensureSize 0
    obtain rfl := List.length_eq_zero_iff.mp hfresh
    have hrows : b.rowCount = ((slots ++ raws.map (Slot.mk true)).map Slot.valid).length := by
      rw [h.rowCount, List.length_map]
    have hstart : b.rowCount - v.bitLength = (slots.map Slot.valid).length := by
      rw [h.rowCount, hv]
      simp
    rw [Nat.add_zero, ← hrows, List.append_nil, List.map_append] at hroom
    have hlength : ((raws.map (Slot.mk true)).map Slot.valid).length = v.bits.length := by
      simp [hbits]
    have := hroom.writeAll hlength
    rw [List.map_append, hvalid]
    rw [← hstart] at this
    exact this

/-! ### Reads -/

theorem Holds.readFixed (h : b.Holds slots) (hk : b.kind ≠ .string) (row : ℕ) :
    b.readFixed row = (slots.map Slot.raw).getD row [] := by
  rw [TypedColumnBuffer.readFixed, h.values]
  refine element_flatten ?_ row
  intro p hp
  obtain ⟨s, hs, rfl⟩ := List.mem_map.mp hp
  exact h.size hk s hs

/-- The number of bytes in the strings of a column. -/
def byteCount (slots : List Slot) : ℕ := (slots.map Slot.raw).flatten.length

theorem Holds.readString (h : b.Holds slots) (hk : b.kind = .string)
    (hbytes : byteCount slots < 2 ^ 32) {row : ℕ} (hrow : row < slots.length) :
    b.readString row = (slots.map Slot.raw).getD row [] := by
  have hsplit : (slots.map Slot.raw).flatten = ((slots.take row).map Slot.raw).flatten ++
      slots[row].raw ++ ((slots.drop (row + 1)).map Slot.raw).flatten := by
    conv_lhs => rw [← List.take_append_drop row slots, List.drop_eq_getElem_cons hrow]
    rw [List.map_append, List.flatten_append, List.map_cons, List.flatten_cons, List.append_assoc]
  have hnext : ((slots.take (row + 1)).map Slot.raw).flatten
      = ((slots.take row).map Slot.raw).flatten ++ slots[row].raw := by
    rw [List.take_succ_eq_append_getElem hrow, List.map_append, List.flatten_append,
      List.map_singleton, List.flatten_singleton]
  have htotal : ((slots.take row).map Slot.raw).flatten.length + slots[row].raw.length < 2 ^ 32 := by
    have hle := hbytes
    rw [byteCount, hsplit, List.length_append, List.length_append] at hle
    omega
  have hlen : (UInt32.ofNat ((slots.take (row + 1)).map Slot.raw).flatten.length -
      UInt32.ofNat ((slots.take row).map Slot.raw).flatten.length).toNat = slots[row].raw.length := by
    rw [hnext, List.length_append, UInt32.ofNat_add]
    have hcancel : ∀ x y : UInt32, x + y - x = y := by intro x y; grind
    rw [hcancel, UInt32.toNat_ofNat_of_lt' (by rw [UInt32.size]; omega)]
  rw [TypedColumnBuffer.readString, h.getD_offsets hk hrow.le, h.getD_offsets hk hrow, hlen,
    UInt32.toNat_ofNat_of_lt' (by rw [UInt32.size]; omega), h.values, hsplit, List.append_assoc,
    List.drop_left, List.take_left, List.getD_eq_getElem?_getD, List.getElem?_map, List.getElem?_eq_getElem hrow]
  rfl

theorem Holds.isValid (h : b.Holds slots) {row : ℕ} (hrow : row < slots.length) :
    b.isValid row = (slots.map Slot.valid).getD row true := by
  have hval := h.validity
  rw [TypedColumnBuffer.isValid]
  split_ifs at hval with hinit
  · rw [hinit, Bool.not_true, Bool.false_or, hval.valid row (by simpa using hrow)]
  · have hall := hval slots[row] (List.getElem_mem hrow)
    simp [hinit, List.getD_eq_getElem?_getD, hrow, hall]

theorem Holds.hasNulls (h : b.Holds slots) : b.hasNulls = true ↔ ∃ s ∈ slots, s.valid = false := by
  rw [TypedColumnBuffer.hasNulls, h.nullCount, decide_eq_true_eq, List.count_pos_iff]
  simp

end TypedColumnBuffer

end PlotJuggler
