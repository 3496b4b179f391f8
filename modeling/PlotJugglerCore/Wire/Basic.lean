import Mathlib.Data.List.Infix
import PlotJugglerCore.Lib.LittleEndian

/-!
# The protobuf wire primitives

`protobuf_wire.hpp`: the `Writer` methods as the bytes they append, and the `Reader` methods as
functions of the bytes still ahead of the cursor. A reader is represented by exactly those bytes,
so a null reader and a reader at its end are the same empty list, and "the cursor stays inside the
buffer" is the statement that every operation returns a suffix.

Every reading operation returns the cursor *also when it fails*. That is not bookkeeping: after a
failed read the field loop calls `skip` from wherever the cursor stands, so where a failed read
leaves it decides what is accepted.
-/

namespace PlotJuggler

open LittleEndian

/-! ## Tags -/

/-- The wire types. `invalid` stands for the codes 3, 4, 6 and 7, which `readTag` casts to the
enumeration without a check and `skip` refuses. -/
inductive WireType
  | varint
  | fixed64
  | lengthDelimited
  | fixed32
  | invalid
  deriving DecidableEq, Repr

/-- `static_cast<WireType>(raw & 0x7)`. -/
def WireType.ofCode : ℕ → WireType
  | 0 => .varint
  | 1 => .fixed64
  | 2 => .lengthDelimited
  | 5 => .fixed32
  | _ => .invalid

/-- The code of a wire type. The writer never writes `invalid`. -/
def WireType.code : WireType → ℕ
  | .varint => 0
  | .fixed64 => 1
  | .lengthDelimited => 2
  | .fixed32 => 5
  | .invalid => 7

@[simp] theorem WireType.ofCode_code (t : WireType) : WireType.ofCode t.code = t := by
  cases t <;> rfl

theorem WireType.code_lt (t : WireType) : t.code < 8 := by
  cases t <;> decide

structure Tag where
  field : ℕ
  type : WireType
  deriving DecidableEq, Repr

/-! ## Writer -/

/-- `Writer::appendVarint`, on the value of the `uint64_t`. -/
def appendVarint (value : ℕ) : List UInt8 :=
  if 0x80 ≤ value then UInt8.ofNat (value % 0x80 + 0x80) :: appendVarint (value / 0x80)
  else [UInt8.ofNat value]
termination_by value
decreasing_by omega

namespace Writer

def tag (field : ℕ) (type : WireType) : List UInt8 := appendVarint (field * 8 + type.code)

def varint (field : ℕ) (value : ℕ) : List UInt8 := tag field .varint ++ appendVarint value

def fixed64 (field : ℕ) (value : UInt64) : List UInt8 :=
  tag field .fixed64 ++ bytes 8 value.toNat

def fixed32 (field : ℕ) (value : UInt32) : List UInt8 :=
  tag field .fixed32 ++ bytes 4 value.toNat

/-- Doubles travel as their bit patterns. -/
def doubleField (field : ℕ) (value : UInt64) : List UInt8 := fixed64 field value

def floatField (field : ℕ) (value : UInt32) : List UInt8 := fixed32 field value

/-- A length-delimited payload. The length is a `size_t`. -/
def lengthDelimited (field : ℕ) (data : List UInt8) : List UInt8 :=
  tag field .lengthDelimited ++ (appendVarint data.length ++ data)

def string (field : ℕ) (value : List UInt8) : List UInt8 := lengthDelimited field value

/-- A nested message: the body is built first, then written as bytes. -/
def message (field : ℕ) (body : List UInt8) : List UInt8 := lengthDelimited field body

/-- The field is left out when there is no value. -/
def packedFixed32 (field : ℕ) (values : List UInt32) : List UInt8 :=
  if values.length = 0 then []
  else tag field .lengthDelimited ++
    (appendVarint (values.length * 4) ++ values.flatMap fun v ↦ bytes 4 v.toNat)

/-- The field is left out when there is no value. -/
def packedDouble (field : ℕ) (values : List UInt64) : List UInt8 :=
  if values.length = 0 then []
  else tag field .lengthDelimited ++
    (appendVarint (values.length * 8) ++ values.flatMap fun v ↦ bytes 8 v.toNat)

theorem tag_ne_nil (field : ℕ) (type : WireType) : tag field type ≠ [] := by
  rw [tag, appendVarint]
  split_ifs <;> exact List.cons_ne_nil _ _

/-- A field that is written takes at least its tag. -/
@[simp] theorem lengthDelimited_ne_nil (field : ℕ) (data : List UInt8) :
    lengthDelimited field data ≠ [] :=
  List.append_ne_nil_of_left_ne_nil (tag_ne_nil field .lengthDelimited) _

end Writer

/-! ## Reader -/

/-- The bytes from the cursor to the end of the buffer. -/
abbrev Reader := List UInt8

/-- The loop of `readVarint`: `n` bytes may still be read, the next payload goes to bit `shift`. -/
def readVarintFrom : ℕ → ℕ → ℕ → Reader → Option ℕ × Reader
  | 0, _, _, r => (none, r)
  | _ + 1, _, _, [] => (none, [])
  | n + 1, shift, out, byte :: r =>
    if shift = 63 ∧ 1 < byte.toNat % 0x80 then (none, r)
    else if byte.toNat < 0x80 then (some (out ||| (byte.toNat % 0x80) <<< shift), r)
    else readVarintFrom n (shift + 7) (out ||| (byte.toNat % 0x80) <<< shift) r

def readVarint (r : Reader) : Option ℕ × Reader := readVarintFrom 10 0 0 r

def readTag (r : Reader) : Option Tag × Reader :=
  match readVarint r with
  | (none, r) => (none, r)
  | (some raw, r) =>
    -- `static_cast<uint32_t>(raw >> 3)`: the upper bits of an oversized field number are lost
    if raw = 0 ∨ raw / 8 % 2 ^ 32 = 0 then (none, r)
    else (some ⟨raw / 8 % 2 ^ 32, WireType.ofCode (raw % 8)⟩, r)

def readFixed64 (r : Reader) : Option UInt64 × Reader :=
  if r.length < 8 then (none, r) else (some (UInt64.ofNat (value (r.take 8))), r.drop 8)

def readFixed32 (r : Reader) : Option UInt32 × Reader :=
  if r.length < 4 then (none, r) else (some (UInt32.ofNat (value (r.take 4))), r.drop 4)

def readDouble (r : Reader) : Option UInt64 × Reader := readFixed64 r

def readFloat (r : Reader) : Option UInt32 × Reader := readFixed32 r

/-- On a length that does not fit, the cursor stays behind the length. -/
def readBytes (r : Reader) : Option (List UInt8) × Reader :=
  match readVarint r with
  | (none, r) => (none, r)
  | (some len, r) => if r.length < len then (none, r) else (some (r.take len), r.drop len)

def readString (r : Reader) : Option (List UInt8) × Reader := readBytes r

def readMessage (r : Reader) : Option Reader × Reader := readBytes r

def skipBytes (size : ℕ) (r : Reader) : Bool × Reader :=
  if r.length < size then (false, r) else (true, r.drop size)

def skip (type : WireType) (r : Reader) : Bool × Reader :=
  match type with
  | .varint => ((readVarint r).1.isSome, (readVarint r).2)
  | .fixed64 => skipBytes 8 r
  | .lengthDelimited => ((readBytes r).1.isSome, (readBytes r).2)
  | .fixed32 => skipBytes 4 r
  | .invalid => (false, r)

/-! ## Bounds and progress -/

theorem readVarintFrom_suffix (n shift out : ℕ) (r : Reader) :
    (readVarintFrom n shift out r).2 <:+ r := by
  induction n generalizing shift out r with
  | zero => exact List.suffix_refl r
  | succ n ih =>
    cases r with
    | nil => exact List.suffix_refl []
    | cons b r =>
      have hr : r <:+ b :: r := List.suffix_cons b r
      rw [readVarintFrom]
      split_ifs with h₁ h₂
      · exact hr
      · exact hr
      · exact (ih _ _ r).trans hr

theorem readVarint_suffix (r : Reader) : (readVarint r).2 <:+ r :=
  readVarintFrom_suffix 10 0 0 r

/-- A varint that was read took at least one byte. -/
theorem readVarintFrom_length_lt {n shift out : ℕ} {r r' : Reader} {v : ℕ}
    (h : readVarintFrom n shift out r = (some v, r')) : r'.length < r.length := by
  cases n with
  | zero => simp [readVarintFrom] at h
  | succ n =>
    cases r with
    | nil => simp [readVarintFrom] at h
    | cons b r =>
      have hle : r'.length ≤ r.length := by
        rw [readVarintFrom] at h
        split_ifs at h with h₁ h₂
        · simp at h
        · simp only [Prod.mk.injEq] at h
          rw [h.2]
        · have hle := (readVarintFrom_suffix n (shift + 7)
            (out ||| (b.toNat % 0x80) <<< shift) r).length_le
          rwa [h] at hle
      exact Nat.lt_succ_of_le hle

theorem readVarint_length_lt {r r' : Reader} {v : ℕ} (h : readVarint r = (some v, r')) :
    r'.length < r.length := readVarintFrom_length_lt h

theorem readTag_length_lt {r r' : Reader} {t : Tag} (h : readTag r = (some t, r')) :
    r'.length < r.length := by
  rw [readTag] at h
  split at h
  · simp at h
  · rename_i raw r₁ hv
    split_ifs at h with h₁
    · simp at h
    · simp only [Prod.mk.injEq] at h
      rw [← h.2]
      exact readVarint_length_lt hv

theorem readFixed64_suffix (r : Reader) : (readFixed64 r).2 <:+ r := by
  rw [readFixed64]
  split_ifs
  · exact List.suffix_refl r
  · exact List.drop_suffix 8 r

theorem readFixed64_length_lt {r r' : Reader} {v : UInt64} (h : readFixed64 r = (some v, r')) :
    r'.length < r.length := by
  rw [readFixed64] at h
  split_ifs at h with hshort
  · simp at h
  · simp only [Prod.mk.injEq] at h
    rw [← h.2, List.length_drop]
    omega

theorem readFixed32_length_lt {r r' : Reader} {v : UInt32} (h : readFixed32 r = (some v, r')) :
    r'.length < r.length := by
  rw [readFixed32] at h
  split_ifs at h with hshort
  · simp at h
  · simp only [Prod.mk.injEq] at h
    rw [← h.2, List.length_drop]
    omega

theorem readFixed32_suffix (r : Reader) : (readFixed32 r).2 <:+ r := by
  rw [readFixed32]
  split_ifs
  · exact List.suffix_refl r
  · exact List.drop_suffix 4 r

theorem readBytes_suffix (r : Reader) : (readBytes r).2 <:+ r := by
  have hv := readVarint_suffix r
  rw [readBytes]
  split
  · rename_i r₁ h₁
    rwa [h₁] at hv
  · rename_i len r₁ h₁
    rw [h₁] at hv
    split_ifs
    · exact hv
    · exact (List.drop_suffix len r₁).trans hv

/-- A payload that was read took at least the byte of its length. -/
theorem readBytes_length_lt {r r' : Reader} {data : List UInt8}
    (h : readBytes r = (some data, r')) : r'.length < r.length := by
  rw [readBytes] at h
  split at h
  · simp at h
  · rename_i len r₁ hlen
    have hlt : r₁.length < r.length := readVarint_length_lt hlen
    split_ifs at h with hshort
    · simp at h
    · simp only [Prod.mk.injEq] at h
      rw [← h.2, List.length_drop]
      omega

theorem skip_suffix (t : WireType) (r : Reader) : (skip t r).2 <:+ r := by
  cases t with
  | varint => exact readVarint_suffix r
  | fixed64 =>
    rw [skip, skipBytes]
    split_ifs
    · exact List.suffix_refl r
    · exact List.drop_suffix 8 r
  | lengthDelimited => exact readBytes_suffix r
  | fixed32 =>
    rw [skip, skipBytes]
    split_ifs
    · exact List.suffix_refl r
    · exact List.drop_suffix 4 r
  | invalid => exact List.suffix_refl r

/-! ## Reading back what was written -/

theorem appendVarint_of_lt {v : ℕ} (h : v < 0x80) : appendVarint v = [UInt8.ofNat v] := by
  rw [appendVarint, if_neg (by omega)]

theorem appendVarint_of_le {v : ℕ} (h : 0x80 ≤ v) :
    appendVarint v = UInt8.ofNat (v % 0x80 + 0x80) :: appendVarint (v / 0x80) := by
  rw [appendVarint, if_pos h]

/-- The loop reads back the rest of a number, whatever the accumulator holds. The bound on `v`
shrinks with the shift, so at shift 63 the payload is at most one. -/
theorem readVarintFrom_append {n shift : ℕ} (hn : 0 < n) (hshift : shift + 7 * n = 70)
    {v : ℕ} (hv : v < 2 ^ (64 - shift)) (out : ℕ) (rest : Reader) :
    readVarintFrom n shift out (appendVarint v ++ rest) = (some (out ||| v <<< shift), rest) := by
  induction n generalizing shift v out with
  | zero => omega
  | succ n ih =>
    by_cases hsmall : v < 0x80
    · have hbyte : (UInt8.ofNat v).toNat = v := by
        rw [UInt8.toNat_ofNat']
        omega
      have hpay : ¬ (shift = 63 ∧ 1 < v) := by
        rintro ⟨rfl, h⟩
        omega
      rw [appendVarint_of_lt hsmall, List.singleton_append, readVarintFrom, hbyte,
        Nat.mod_eq_of_lt hsmall, if_neg hpay, if_pos hsmall]
    · have hbyte : (UInt8.ofNat (v % 0x80 + 0x80)).toNat = v % 0x80 + 0x80 := by
        rw [UInt8.toNat_ofNat']
        omega
      have hpay : (v % 0x80 + 0x80) % 0x80 = v % 0x80 := by omega
      -- a number with a second byte is not at the last position
      have hn' : 0 < n := by
        rcases Nat.eq_zero_or_pos n with rfl | h
        · have : shift = 63 := by omega
          subst this
          omega
        · exact h
      have hv' : v / 0x80 < 2 ^ (64 - (shift + 7)) := by
        have hpow : 2 ^ (64 - shift) = 2 ^ (64 - (shift + 7)) * 2 ^ 7 := by
          rw [← pow_add]
          congr 1
          omega
        rw [hpow] at hv
        omega
      have hlow : v % 0x80 < 2 ^ 7 := Nat.mod_lt v (by decide)
      have hsplit : v % 0x80 + 2 ^ 7 * (v / 0x80) = v := Nat.mod_add_div v 0x80
      rw [appendVarint_of_le (by omega), List.cons_append, readVarintFrom, hbyte, hpay,
        if_neg (by omega), if_neg (by omega), ih hn' (by omega) hv', or_shiftLeft_digit hlow,
        hsplit]

/-- A varint is read back, and exactly its own bytes are consumed. -/
@[simp] theorem readVarint_append {v : ℕ} (hv : v < 2 ^ 64) (rest : Reader) :
    readVarint (appendVarint v ++ rest) = (some v, rest) := by
  rw [readVarint, readVarintFrom_append (by decide) (by decide) (by simpa using hv)]
  simp

theorem readTag_append {field : ℕ} (hpos : 0 < field) (hlt : field < 2 ^ 32) (type : WireType)
    (rest : Reader) :
    readTag (Writer.tag field type ++ rest) = (some ⟨field, type⟩, rest) := by
  have hcode := type.code_lt
  have hdiv : (field * 8 + type.code) / 8 = field := by omega
  have hmod : (field * 8 + type.code) % 8 = type.code := by omega
  rw [readTag, Writer.tag, readVarint_append (by omega)]
  simp only [hdiv, hmod, Nat.mod_eq_of_lt hlt, WireType.ofCode_code]
  rw [if_neg (by omega)]

theorem readFixed64_append (v : UInt64) (rest : Reader) :
    readFixed64 (bytes 8 v.toNat ++ rest) = (some v, rest) := by
  have hlen : (bytes 8 v.toNat).length = 8 := length_bytes 8 _
  have hv : value (bytes 8 v.toNat) = v.toNat := value_bytes_of_lt v.toNat_lt
  rw [readFixed64, if_neg (by rw [List.length_append, hlen]; omega), List.take_left' hlen,
    List.drop_left' hlen, hv, UInt64.ofNat_toNat]

theorem readFixed32_append (v : UInt32) (rest : Reader) :
    readFixed32 (bytes 4 v.toNat ++ rest) = (some v, rest) := by
  have hlen : (bytes 4 v.toNat).length = 4 := length_bytes 4 _
  have hv : value (bytes 4 v.toNat) = v.toNat := value_bytes_of_lt v.toNat_lt
  rw [readFixed32, if_neg (by rw [List.length_append, hlen]; omega), List.take_left' hlen,
    List.drop_left' hlen, hv, UInt32.ofNat_toNat]

theorem readBytes_append {data : List UInt8} (h : data.length < 2 ^ 64) (rest : Reader) :
    readBytes (appendVarint data.length ++ (data ++ rest)) = (some data, rest) := by
  rw [readBytes, readVarint_append h]
  simp

end PlotJuggler
