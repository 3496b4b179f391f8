import Mathlib.Data.List.Induction
import Mathlib.Data.List.Nodup
import PlotJugglerCore.Lib.MachineInt
import PlotJugglerCore.Store.ColumnBuffer

/-!
# Column encodings

`encoding.cpp`: the forms a column can take in a sealed chunk, and their decoders. Each encoding is
lossless on what it is meant for, and for each the file says on what that is: a constant stands for
its first row only, frame of reference needs the true minimum and a range that fits the offset
width, the dictionary needs fewer than `2 ^ 32` distinct strings, packed bools need nothing.

The casts of `read_raw_as` and of the constant decoders are the same casts of the same stored value,
so they are written once, on `Value`.
-/

namespace PlotJuggler

open LittleEndian

/-! ## Numeric casts -/

/-- `static_cast<int64_t>` of a numeric value; bools and strings give zero. -/
def Value.asInt64 : Value → Int64
  | .float32 v => Int64.ofInt (Binary64.truncate (.ofBinary32 v))
  | .float64 v => Int64.ofInt (Binary64.truncate v)
  | .int32 v => v.toInt64
  | .int64 v => v
  | .uint64 v => v.toInt64
  | .bool _ => 0
  | .string _ => 0

/-- `static_cast<uint64_t>` of a numeric value; bools and strings give zero. -/
def Value.asUint64 : Value → UInt64
  | .float32 v => (Int64.ofInt (Binary64.truncate (.ofBinary32 v))).toUInt64
  | .float64 v => (Int64.ofInt (Binary64.truncate v)).toUInt64
  | .int32 v => v.toInt64.toUInt64
  | .int64 v => v.toUInt64
  | .uint64 v => v
  | .bool _ => 0
  | .string _ => 0

/-- The integer an `int32` or `int64` slot is read as by the encoder. -/
def readInteger (data : List UInt8) (kind : StorageKind) (row : ℕ) : Int64 :=
  (kind.decode (element data (storageKindSize kind) row)).asInt64

/-! ## Constant -/

structure ConstantEncoded where
  valueBytes : List UInt8
  valueKind : StorageKind
  valueSize : ℕ
  count : ℕ
  deriving DecidableEq, Repr

/-- The first element, in an array of eight bytes that starts out zero. -/
def constantEncode (data : List UInt8) (kind : StorageKind) (count : ℕ) : ConstantEncoded where
  valueBytes :=
    if 0 < storageKindSize kind ∧ 0 < count then
      data.take (storageKindSize kind) ++ List.replicate (8 - storageKindSize kind) 0
    else List.replicate 8 0
  valueKind := kind
  valueSize := storageKindSize kind
  count := count

/-- The value the decoders load: as many bytes as the kind has. -/
def ConstantEncoded.value (enc : ConstantEncoded) : Value :=
  enc.valueKind.decode (enc.valueBytes.take (storageKindSize enc.valueKind))

def constantDecodeAsInt64 (enc : ConstantEncoded) : Int64 := enc.value.asInt64

def constantDecodeAsUint64 (enc : ConstantEncoded) : UInt64 := enc.value.asUint64

theorem value_constantEncode {data : List UInt8} {kind : StorageKind} {count : ℕ}
    (hkind : kind ≠ .string) (hcount : 0 < count) (hdata : storageKindSize kind ≤ data.length) :
    (constantEncode data kind count).value
      = kind.decode (element data (storageKindSize kind) 0) := by
  have hsize : 0 < storageKindSize kind := by cases kind <;> simp_all [storageKindSize]
  have hlen : (data.take (storageKindSize kind)).length = storageKindSize kind := by simpa using hdata
  rw [ConstantEncoded.value, constantEncode, if_pos ⟨hsize, hcount⟩, List.take_append_of_le_length
    hlen.ge, List.take_take, Nat.min_self, element, Nat.zero_mul, List.drop_zero]

/-! ## Frame of reference -/

structure FrameOfReferenceEncoded where
  reference : Int64
  offsetBytes : ℕ
  offsets : List UInt8
  count : ℕ
  deriving DecidableEq, Repr

def offsetBytesFor (range : UInt64) : ℕ :=
  if range < 256 then 1 else if range < 65536 then 2 else if range.toNat < 2 ^ 32 then 4 else 8

/-- The width an offset is written in: the `default` branch of both switches takes four bytes. -/
def offsetWidth : ℕ → ℕ
  | 1 => 1
  | 2 => 2
  | _ => 4

def forEncode (data : List UInt8) (kind : StorageKind) (count : ℕ) (minVal maxVal : Int64) :
    FrameOfReferenceEncoded where
  reference := minVal
  offsetBytes := offsetBytesFor (maxVal - minVal).toUInt64
  offsets := ((List.range count).map fun i ↦
    bytes (offsetWidth (offsetBytesFor (maxVal - minVal).toUInt64))
      (readInteger data kind i - minVal).toUInt64.toNat).flatten
  count := count

def forReadOffset (data : List UInt8) (row offsetBytes : ℕ) : UInt64 :=
  UInt64.ofNat (value (element data (offsetWidth offsetBytes) row))

def forDecodeOneAsInt64 (enc : FrameOfReferenceEncoded) (row : ℕ) : Int64 :=
  enc.reference + (forReadOffset enc.offsets row enc.offsetBytes).toInt64

/-- A range whose offset width is not the escape value fits that width. -/
theorem lt_offsetWidth {range : UInt64} (h : offsetBytesFor range < 8) :
    range.toNat < 256 ^ offsetWidth (offsetBytesFor range) := by
  rw [offsetBytesFor] at h ⊢
  split_ifs at h ⊢ with h1 h2 h4
  · exact UInt64.lt_iff_toNat_lt.mp h1
  · exact UInt64.lt_iff_toNat_lt.mp h2
  · exact h4
  · exact absurd h (lt_irrefl 8)

/-- Frame of reference is lossless between the bounds it was given. -/
theorem forDecodeOneAsInt64_forEncode {data : List UInt8} {kind : StorageKind}
    {count row : ℕ} {minVal maxVal : Int64} (hrow : row < count)
    (hmin : minVal ≤ readInteger data kind row) (hmax : readInteger data kind row ≤ maxVal)
    (hrange : offsetBytesFor (maxVal - minVal).toUInt64 < 8) :
    forDecodeOneAsInt64 (forEncode data kind count minVal maxVal) row
      = readInteger data kind row := by
  set width := offsetWidth (offsetBytesFor (maxVal - minVal).toUInt64) with hwidth
  have hfits : (readInteger data kind row - minVal).toUInt64.toNat < 256 ^ width :=
    (Int64.toNat_toUInt64_sub_le hmin hmax).trans_lt (lt_offsetWidth hrange)
  have hoffset : forReadOffset (forEncode data kind count minVal maxVal).offsets row
      (offsetBytesFor (maxVal - minVal).toUInt64)
        = (readInteger data kind row - minVal).toUInt64 := by
    rw [forReadOffset, forEncode, element_flatten, ← hwidth, List.getD_eq_getElem?_getD,
      List.getElem?_map, List.getElem?_range hrow, Option.map_some, Option.getD_some,
      value_bytes_of_lt hfits, UInt64.ofNat_toNat]
    intro p hp
    obtain ⟨i, -, rfl⟩ := List.mem_map.mp hp
    exact LittleEndian.length_bytes _ _
  rw [forDecodeOneAsInt64]
  change minVal + (forReadOffset (forEncode data kind count minVal maxVal).offsets row
    (offsetBytesFor (maxVal - minVal).toUInt64)).toInt64 = _
  rw [hoffset, Int64.add_toInt64_sub]

/-! ## Dictionary -/

structure DictionaryEncoded where
  dictionary : List (List UInt8)
  indices : List UInt8
  indexBytes : ℕ
  count : ℕ
  deriving DecidableEq, Repr

def indexBytesFor (dictSize : ℕ) : ℕ :=
  if dictSize ≤ 256 then 1 else if dictSize ≤ 65536 then 2 else 4

/-- Row `row` of a string column given by its offsets table and its bytes. -/
def stringAt (offsets : List UInt32) (values : List UInt8) (row : ℕ) : List UInt8 :=
  (values.drop (offsets.getD row 0).toNat).take
    (offsets.getD (row + 1) 0 - offsets.getD row 0).toNat

/-- The variables of the first pass. The hash map is a list of its entries. -/
structure DictionaryPass where
  lookup : List (List UInt8 × UInt32) := []
  dictionary : List (List UInt8) := []
  tempIndices : List UInt32 := []
  deriving DecidableEq, Repr

/-- One row: find the key, or add it to the dictionary and to the map. -/
def DictionaryPass.step (p : DictionaryPass) (key : List UInt8) : DictionaryPass :=
  match p.lookup.lookup key with
  | some index => { p with tempIndices := p.tempIndices ++ [index] }
  | none =>
    { lookup := (key, UInt32.ofNat p.dictionary.length) :: p.lookup
      dictionary := p.dictionary ++ [key]
      tempIndices := p.tempIndices ++ [UInt32.ofNat p.dictionary.length] }

/-- The indices are written once the size of the dictionary has settled their width. -/
def DictionaryPass.finish (p : DictionaryPass) (rowCount : ℕ) : DictionaryEncoded where
  dictionary := p.dictionary
  indices := (p.tempIndices.map fun i ↦
    bytes (offsetWidth (indexBytesFor p.dictionary.length)) i.toNat).flatten
  indexBytes := indexBytesFor p.dictionary.length
  count := rowCount

def dictionaryEncodeStrings (offsets : List UInt32) (values : List UInt8) (rowCount : ℕ) :
    DictionaryEncoded :=
  if rowCount = 0 then ⟨[], [], 1, 0⟩
  else (((List.range rowCount).map (stringAt offsets values)).foldl
    DictionaryPass.step {}).finish rowCount

def dictionaryLookup (enc : DictionaryEncoded) (row : ℕ) : List UInt8 :=
  enc.dictionary.getD (value (element enc.indices (offsetWidth enc.indexBytes) row)) []

/-- Find or insert, with the position in the dictionary for the hash map. -/
def intern (dict : List (List UInt8)) (key : List UInt8) : List (List UInt8) × UInt32 :=
  if key ∈ dict then (dict, UInt32.ofNat (dict.idxOf key))
  else (dict ++ [key], UInt32.ofNat dict.length)

/-- The dictionary and the index of every row. -/
def internAll (dict : List (List UInt8)) : List (List UInt8) → List (List UInt8) × List UInt32
  | [] => (dict, [])
  | key :: keys =>
    ((internAll (intern dict key).1 keys).1,
      (intern dict key).2 :: (internAll (intern dict key).1 keys).2)

/-- The encoding of a list of keys. -/
def encodeKeys (keys : List (List UInt8)) : DictionaryEncoded where
  dictionary := (internAll [] keys).1
  indices := ((internAll [] keys).2.map fun i ↦
    bytes (offsetWidth (indexBytesFor (internAll [] keys).1.length)) i.toNat).flatten
  indexBytes := indexBytesFor (internAll [] keys).1.length
  count := keys.length

/-- The hash map sends every key of the dictionary to its position, and no other key anywhere. -/
def DictionaryPass.Consistent (p : DictionaryPass) : Prop :=
  ∀ key, p.lookup.lookup key =
    if key ∈ p.dictionary then some (UInt32.ofNat (p.dictionary.idxOf key)) else none

theorem DictionaryPass.step_eq {p : DictionaryPass} (h : p.Consistent) (key : List UInt8) :
    (p.step key).dictionary = (intern p.dictionary key).1 ∧
      (p.step key).tempIndices = p.tempIndices ++ [(intern p.dictionary key).2] ∧
      (p.step key).Consistent := by
  by_cases hmem : key ∈ p.dictionary
  · rw [step, h key, if_pos hmem, intern, if_pos hmem]
    exact ⟨rfl, rfl, h⟩
  · rw [step, h key, if_neg hmem, intern, if_neg hmem]
    refine ⟨rfl, rfl, fun k ↦ ?_⟩
    rw [List.lookup_cons]
    by_cases hk : k = key
    · subst hk
      rw [beq_self_eq_true, if_pos List.mem_concat_self, List.idxOf_append_of_notMem hmem,
        List.idxOf_cons_self, Nat.add_zero]
    · rw [beq_eq_false_iff_ne.mpr hk, h k]
      have hiff : k ∈ p.dictionary ++ [key] ↔ k ∈ p.dictionary := by simp [hk]
      simp only [hiff]
      split_ifs with hold
      · rw [List.idxOf_append_of_mem hold]
      · rfl

/-- The first pass is `internAll`: the map never disagrees with the dictionary. -/
theorem DictionaryPass.foldl_step {p : DictionaryPass} (h : p.Consistent)
    (keys : List (List UInt8)) :
    (keys.foldl step p).dictionary = (internAll p.dictionary keys).1 ∧
      (keys.foldl step p).tempIndices = p.tempIndices ++ (internAll p.dictionary keys).2 := by
  induction keys generalizing p with
  | nil => exact ⟨rfl, (List.append_nil _).symm⟩
  | cons key keys ih =>
    obtain ⟨hdict, hindices, hnext⟩ := step_eq h key
    obtain ⟨h1, h2⟩ := ih hnext
    rw [List.foldl_cons, internAll]
    refine ⟨by rw [h1, hdict], ?_⟩
    rw [h2, hdict, hindices, List.append_assoc, List.singleton_append]

theorem dictionaryEncodeStrings_eq (offsets : List UInt32) (values : List UInt8) {rowCount : ℕ}
    (h : rowCount ≠ 0) : dictionaryEncodeStrings offsets values rowCount
      = encodeKeys ((List.range rowCount).map (stringAt offsets values)) := by
  obtain ⟨hdict, hindices⟩ := DictionaryPass.foldl_step (p := {}) (fun _ ↦ rfl)
    ((List.range rowCount).map (stringAt offsets values))
  rw [dictionaryEncodeStrings, if_neg h, DictionaryPass.finish, hdict, hindices, encodeKeys,
    List.nil_append, List.length_map, List.length_range]

theorem prefix_intern (dict : List (List UInt8)) (key : List UInt8) :
    dict <+: (intern dict key).1 := by
  rw [intern]
  split_ifs
  · exact List.prefix_refl dict
  · exact List.prefix_append dict [key]

theorem prefix_internAll (dict keys : List (List UInt8)) : dict <+: (internAll dict keys).1 := by
  induction keys generalizing dict with
  | nil => exact List.prefix_refl dict
  | cons key keys ih => exact (prefix_intern dict key).trans (ih _)

theorem mem_intern (dict : List (List UInt8)) (key : List UInt8) : key ∈ (intern dict key).1 := by
  rw [intern]
  split_ifs with h
  · exact h
  · simp

theorem intern_snd (dict : List (List UInt8)) (key : List UInt8) :
    (intern dict key).2 = UInt32.ofNat ((intern dict key).1.idxOf key) := by
  rw [intern]
  split_ifs with h
  · rfl
  · rw [List.idxOf_append_of_notMem h]
    simp

/-- Every key is in the final dictionary. -/
theorem mem_internAll {keys : List (List UInt8)} {key : List UInt8} (h : key ∈ keys)
    (dict : List (List UInt8)) : key ∈ (internAll dict keys).1 := by
  induction keys generalizing dict with
  | nil => exact absurd h List.not_mem_nil
  | cons k keys ih =>
    rcases List.mem_cons.mp h with rfl | h
    · exact (prefix_internAll (intern dict key).1 keys).subset (mem_intern dict key)
    · exact ih h _

/-- The index given out for a key is its position in the final dictionary: later insertions go
behind it. -/
theorem internAll_snd (dict keys : List (List UInt8)) :
    (internAll dict keys).2 = keys.map fun k ↦ UInt32.ofNat ((internAll dict keys).1.idxOf k) := by
  induction keys generalizing dict with
  | nil => rfl
  | cons key keys ih =>
    have hpos : (internAll (intern dict key).1 keys).1.idxOf key = (intern dict key).1.idxOf key := by
      obtain ⟨rest, hrest⟩ := prefix_internAll (intern dict key).1 keys
      rw [← hrest, List.idxOf_append_of_mem (mem_intern dict key)]
    rw [internAll, List.map_cons, hpos, ← intern_snd]
    exact congrArg _ (ih _)

theorem internAll_nodup {dict : List (List UInt8)} (h : dict.Nodup) (keys : List (List UInt8)) :
    (internAll dict keys).1.Nodup := by
  induction keys generalizing dict with
  | nil => exact h
  | cons key keys ih =>
    apply ih
    rw [intern]
    split_ifs with hmem
    · exact h
    · rw [← List.concat_eq_append, List.nodup_concat]
      exact ⟨hmem, h⟩

theorem length_flatten_internAll (dict keys : List (List UInt8)) :
    (internAll dict keys).1.flatten.length ≤ dict.flatten.length + keys.flatten.length := by
  induction keys generalizing dict with
  | nil => simp [internAll]
  | cons key keys ih =>
    have hstep : (intern dict key).1.flatten.length ≤ dict.flatten.length + key.length := by
      rw [intern]
      split_ifs
      · exact Nat.le_add_right _ _
      · simp
    refine (ih _).trans ?_
    rw [List.flatten_cons, List.length_append]
    omega

/-- Distinct strings need a byte each, but for the empty one. -/
theorem length_le_of_nodup {dict : List (List UInt8)} (h : dict.Nodup) :
    dict.length ≤ dict.flatten.length + 1 := by
  have hne : ∀ l : List (List UInt8), [] ∉ l → l.length ≤ l.flatten.length := by
    intro l
    induction l with
    | nil => simp
    | cons s l ih =>
      intro hmem
      have hs : s ≠ [] := fun e ↦ hmem (e ▸ List.mem_cons_self)
      have hpos : 0 < s.length := List.length_pos_iff.mpr hs
      have := ih fun hl ↦ hmem (List.mem_cons_of_mem s hl)
      rw [List.flatten_cons, List.length_append, List.length_cons]
      omega
  induction dict with
  | nil => simp
  | cons s dict ih =>
    obtain ⟨hs, hdict⟩ := List.nodup_cons.mp h
    rw [List.flatten_cons, List.length_append, List.length_cons]
    by_cases he : s = []
    · have := hne dict (he ▸ hs)
      omega
    · have hpos : 0 < s.length := List.length_pos_iff.mpr he
      have := ih hdict
      omega

theorem lt_indexWidth {index size : ℕ} (h : index < size) (hsize : size ≤ 2 ^ 32) :
    index < 256 ^ offsetWidth (indexBytesFor size) := by
  rw [indexBytesFor]
  split_ifs with h1 h2
  · exact h.trans_le h1
  · exact h.trans_le h2
  · exact h.trans_le hsize

/-- The dictionary gives every row back. -/
theorem dictionaryLookup_encodeKeys {keys : List (List UInt8)} {row : ℕ} (hrow : row < keys.length)
    (hbytes : keys.flatten.length < 2 ^ 32) :
    dictionaryLookup (encodeKeys keys) row = keys.getD row [] := by
  set dict := (internAll [] keys).1 with hdict
  have hsize : dict.length ≤ 2 ^ 32 := by
    have h1 := length_le_of_nodup (internAll_nodup List.nodup_nil keys)
    have h2 := length_flatten_internAll [] keys
    rw [← hdict] at h1 h2
    rw [List.flatten_nil, List.length_nil, Nat.zero_add] at h2
    omega
  have hmem : keys[row] ∈ dict := mem_internAll (List.getElem_mem hrow) []
  have hpos : dict.idxOf keys[row] < dict.length := List.idxOf_lt_length_iff.mpr hmem
  have hindex : (UInt32.ofNat (dict.idxOf keys[row])).toNat = dict.idxOf keys[row] :=
    UInt32.toNat_ofNat_of_lt' (by rw [UInt32.size]; omega)
  have hread : value (element (encodeKeys keys).indices
      (offsetWidth (indexBytesFor dict.length)) row) = dict.idxOf keys[row] := by
    rw [encodeKeys, element_flatten, internAll_snd, ← hdict,
      List.getD_eq_getElem?_getD, List.getElem?_map, List.getElem?_map,
      List.getElem?_eq_getElem hrow, Option.map_some, Option.map_some, Option.getD_some, hindex,
      value_bytes_of_lt (lt_indexWidth hpos hsize)]
    intro p hp
    obtain ⟨i, -, rfl⟩ := List.mem_map.mp hp
    exact LittleEndian.length_bytes _ _
  rw [dictionaryLookup]
  change dict.getD (value (element (encodeKeys keys).indices
    (offsetWidth (indexBytesFor dict.length)) row)) [] = _
  rw [hread, List.getD_eq_getElem?_getD, List.getD_eq_getElem?_getD, List.getElem?_eq_getElem hpos,
    List.getElem?_eq_getElem hrow, List.getElem_idxOf hpos]

/-! ### Order of first occurrence -/

theorem internAll_concat (dict keys : List (List UInt8)) (key : List UInt8) :
    (internAll dict (keys ++ [key])).1 = (intern (internAll dict keys).1 key).1 := by
  induction keys generalizing dict with
  | nil => rfl
  | cons k keys ih => exact ih _

theorem mem_internAll_iff {keys : List (List UInt8)} {s : List UInt8} :
    s ∈ (internAll [] keys).1 ↔ s ∈ keys := by
  refine ⟨fun h ↦ ?_, fun h ↦ mem_internAll h []⟩
  induction keys using List.reverseRecOn with
  | nil => exact h
  | append_singleton keys key ih =>
    rw [internAll_concat, intern] at h
    split_ifs at h with hmem
    · exact List.mem_append_left _ (ih h)
    · rcases List.mem_append.mp h with h | h
      · exact List.mem_append_left _ (ih h)
      · exact List.mem_append_right _ h

/-- The dictionary lists the keys in the order in which each occurs first. -/
theorem pairwise_internAll (keys : List (List UInt8)) :
    (internAll [] keys).1.Pairwise fun s t ↦ keys.idxOf s < keys.idxOf t := by
  induction keys using List.reverseRecOn with
  | nil => exact List.Pairwise.nil
  | append_singleton keys key ih =>
    -- a further key moves no first occurrence, and a new one comes behind all others
    have hold : (internAll [] keys).1.Pairwise fun s t ↦
        (keys ++ [key]).idxOf s < (keys ++ [key]).idxOf t := by
      refine List.Pairwise.imp_of_mem (fun {s t} hs ht hst ↦ ?_) ih
      rwa [List.idxOf_append_of_mem (mem_internAll_iff.mp hs),
        List.idxOf_append_of_mem (mem_internAll_iff.mp ht)]
    rw [internAll_concat, intern]
    split_ifs with hmem
    · exact hold
    · have hnew : key ∉ keys := fun h ↦ hmem (mem_internAll_iff.mpr h)
      refine List.pairwise_append.mpr ⟨hold, List.pairwise_singleton _ _, fun s hs t ht ↦ ?_⟩
      obtain rfl := List.mem_singleton.mp ht
      rw [List.idxOf_append_of_mem (mem_internAll_iff.mp hs), List.idxOf_append_of_notMem hnew,
        List.idxOf_cons_self, Nat.add_zero]
      exact List.idxOf_lt_length_of_mem (mem_internAll_iff.mp hs)

/-- The strings of `keys` lie in `values` one behind the other, between consecutive offsets. -/
structure LaidOut (keys : List (List UInt8)) (offsets : List UInt32) (values : List UInt8) :
    Prop where
  length : keys ≠ [] → offsets.length = keys.length + 1
  mono : offsets.Pairwise (· ≤ ·)
  inside : ∀ o ∈ offsets, o.toNat ≤ values.length
  slice : ∀ (r : ℕ) (h : r < keys.length), keys[r] =
    (values.drop (offsets.getD r 0).toNat).take
      ((offsets.getD (r + 1) 0).toNat - (offsets.getD r 0).toNat)

namespace LaidOut

variable {keys : List (List UInt8)} {offsets : List UInt32} {values : List UInt8}

theorem bounds (h : LaidOut keys offsets values) {r : ℕ} (hr : r < keys.length) :
    offsets.getD r 0 ≤ offsets.getD (r + 1) 0 ∧
      (offsets.getD (r + 1) 0).toNat ≤ values.length := by
  have hlen := h.length (List.ne_nil_of_length_pos (Nat.zero_lt_of_lt hr))
  rw [List.getD_eq_getElem _ _ (by omega), List.getD_eq_getElem _ _ (by omega)]
  exact ⟨List.pairwise_iff_getElem.mp h.mono r (r + 1) _ _ (Nat.lt_succ_self r),
    h.inside _ (List.getElem_mem _)⟩

theorem stringAt_eq (h : LaidOut keys offsets values) {r : ℕ} (hr : r < keys.length) :
    stringAt offsets values r = keys[r] := by
  rw [stringAt, UInt32.toNat_sub_of_le _ _ (h.bounds hr).1, h.slice r hr]

/-- The bytes of the first strings end where the next one starts. -/
theorem length_take (h : LaidOut keys offsets values) {r : ℕ} (hr : r ≤ keys.length) :
    (offsets.getD 0 0).toNat + (keys.take r).flatten.length = (offsets.getD r 0).toNat := by
  induction r with
  | zero => rfl
  | succ r ih =>
    obtain ⟨hmono, hinside⟩ := h.bounds hr
    have hle : (offsets.getD r 0).toNat ≤ (offsets.getD (r + 1) 0).toNat := hmono
    have hone : keys[r].length
        = (offsets.getD (r + 1) 0).toNat - (offsets.getD r 0).toNat := by
      rw [h.slice r hr, List.length_take, List.length_drop]
      omega
    rw [List.take_succ_eq_append_getElem hr, List.flatten_append, List.flatten_singleton,
      List.length_append, hone]
    have := ih (Nat.le_of_succ_le hr)
    omega

theorem length_flatten_lt (h : LaidOut keys offsets values) : keys.flatten.length < 2 ^ 32 := by
  have hall := h.length_take le_rfl
  rw [List.take_length] at hall
  have hlast : (offsets.getD keys.length 0).toNat < 2 ^ 32 := UInt32.toNat_lt _
  omega

/-- The encoder sees the keys. -/
theorem encode_eq (h : LaidOut keys offsets values) (hne : keys ≠ []) :
    dictionaryEncodeStrings offsets values keys.length = encodeKeys keys := by
  have hkeys : (List.range keys.length).map (stringAt offsets values) = keys := by
    refine List.ext_getElem (by simp) fun r hr hr' ↦ ?_
    rw [List.getElem_map, List.getElem_range, h.stringAt_eq hr']
  rw [dictionaryEncodeStrings_eq _ _ (fun e ↦ hne (List.length_eq_zero_iff.mp e)), hkeys]

end LaidOut

/-! ## Packed bools -/

structure PackedBools where
  bits : List UInt8
  count : ℕ
  deriving DecidableEq, Repr

/-- The loop of `packBools` from bit `i` on. -/
def packFrom (bits : List UInt8) (i : ℕ) : List UInt8 → List UInt8
  | [] => bits
  | v :: vs => packFrom (if v ≠ 0 then Bits.set bits i else bits) (i + 1) vs

def packBools (values : List UInt8) : PackedBools where
  bits := packFrom (List.replicate ((values.length + 7) / 8) 0) 0 values
  count := values.length

def unpackBool (packed : PackedBools) (index : ℕ) : Bool := Bits.get packed.bits index

theorem get_packFrom {bits : List UInt8} {i : ℕ} {values : List UInt8}
    (hroom : i + values.length ≤ 8 * bits.length) (j : ℕ) :
    Bits.get (packFrom bits i values) j
      = (Bits.get bits j || (decide (i ≤ j) && (values.getD (j - i) 0 != 0))) := by
  induction values generalizing bits i with
  | nil => simp [packFrom]
  | cons v vs ih =>
    have hbit : Bits.get (if v ≠ 0 then Bits.set bits i else bits) j
        = (Bits.get bits j || (decide (i = j) && (v != 0))) := by
      by_cases hv : v = 0
      · simp [hv]
      · have hi : i / 8 < bits.length := by
          simp only [List.length_cons] at hroom
          omega
        have hbool : (v != 0) = true := bne_iff_ne.mpr hv
        rw [if_pos hv, Bits.get_set hi, Bool.or_comm, hbool, Bool.and_true]
    have hlen : (if v ≠ 0 then Bits.set bits i else bits).length = bits.length := by
      split_ifs <;> simp
    rw [packFrom, ih (by rw [hlen]; simp only [List.length_cons] at hroom; omega), hbit]
    rcases Nat.lt_trichotomy i j with h | h | h
    · obtain ⟨k, rfl⟩ : ∃ k, j = i + 1 + k := ⟨j - i - 1, by omega⟩
      have h1 : i + 1 + k - (i + 1) = k := by omega
      have h2 : i + 1 + k - i = k + 1 := by omega
      have h3 : i ≠ i + 1 + k := by omega
      have h4 : i ≤ i + 1 + k := by omega
      simp [h1, h2, h3, h4]
    · subst h
      simp
    · have h1 : ¬ i ≤ j := by omega
      have h2 : ¬ i + 1 ≤ j := by omega
      have h3 : i ≠ j := by omega
      simp [h1, h2, h3]

theorem unpackBool_packBools (values : List UInt8) (i : ℕ) :
    unpackBool (packBools values) i = (values.getD i 0 != 0) := by
  rw [unpackBool, packBools, get_packFrom (by simp only [List.length_replicate]; omega),
    Bits.get_replicate_zero]
  simp

/-- Strings and bools come back as they were, however many distinct strings there are. -/
theorem dictionary_packedBools_lossless {keys : List (List UInt8)} {offsets : List UInt32}
    {values : List UInt8} (h : LaidOut keys offsets values) :
    (∀ (r : ℕ) (hr : r < keys.length),
      dictionaryLookup (dictionaryEncodeStrings offsets values keys.length) r = keys[r]) ∧
    (dictionaryEncodeStrings offsets values keys.length).dictionary.Nodup ∧
    (∀ s, s ∈ (dictionaryEncodeStrings offsets values keys.length).dictionary ↔ s ∈ keys) ∧
    (dictionaryEncodeStrings offsets values keys.length).dictionary.Pairwise
      (fun s t ↦ keys.idxOf s < keys.idxOf t) ∧
    ∀ (bytes : List UInt8) (i : ℕ) (hi : i < bytes.length),
      unpackBool (packBools bytes) i = true ↔ bytes[i] ≠ 0 := by
  have hbools : ∀ (bytes : List UInt8) (i : ℕ) (hi : i < bytes.length),
      unpackBool (packBools bytes) i = true ↔ bytes[i] ≠ 0 := by
    intro bytes i hi
    rw [unpackBool_packBools, List.getD_eq_getElem _ _ hi, bne_iff_ne]
  by_cases hne : keys = []
  · subst hne
    exact ⟨fun r hr ↦ absurd hr (Nat.not_lt_zero r), List.nodup_nil, fun _ ↦ Iff.rfl,
      List.Pairwise.nil, hbools⟩
  · rw [h.encode_eq hne]
    refine ⟨fun r hr ↦ ?_, internAll_nodup List.nodup_nil keys, fun s ↦ mem_internAll_iff,
      pairwise_internAll keys, hbools⟩
    rw [dictionaryLookup_encodeKeys hr h.length_flatten_lt, List.getD_eq_getElem _ _ hr]

/-- Three rows, two distinct strings. -/
theorem dictionary_packedBools_lossless_repeat :
    dictionaryLookup (dictionaryEncodeStrings [0, 1, 2, 3] [98, 97, 98] 3) 2 = [98] :=
  (@dictionary_packedBools_lossless [[98], [97], [98]] _ _
    ⟨fun _ ↦ rfl, by decide, by simp, by decide⟩).1 2 (by decide)

end PlotJuggler
