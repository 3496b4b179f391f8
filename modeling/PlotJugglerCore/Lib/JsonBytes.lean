import PlotJugglerCore.Lib.JsonPrint
import PlotJugglerCore.Lib.JsonTree

/-!
# JSON documents as bytes

A library whose texts are byte strings. An integer is written in decimal. A finite double has a
finite decimal expansion, and all of it is written, as an integer and a power of ten; read back, it
is rounded to the nearest double, which is the double it came from. Strings are written in UTF-8.

Of an escape above the ASCII characters, which the writer never makes, the reader makes nothing.
-/

namespace JsonTree

open Json

/-! ## Numbers -/

def digit (d : ℕ) : UInt8 := UInt8.ofNat (0x30 + d)

def decimal (n : ℕ) : List UInt8 :=
  if n = 0 then [digit 0] else (Nat.digits 10 n).reverse.map digit

def signedDecimal (negative : Bool) (n : ℕ) : List UInt8 :=
  if negative then 0x2D :: decimal n else decimal n

/-- `n * 10 ^ -k` -/
def scientific (negative : Bool) (n k : ℕ) : List UInt8 :=
  signedDecimal negative n ++ 0x65 :: 0x2D :: decimal k

def natOf (digits : List UInt8) : ℕ :=
  Nat.ofDigits 10 (digits.reverse.map fun b ↦ b.toNat - 0x30)

theorem digit_toNat {d : ℕ} (h : d < 10) : (digit d).toNat = 0x30 + d := by
  rw [digit, UInt8.toNat_ofNat']
  omega

theorem isDigit_digit {d : ℕ} (h : d < 10) : isDigit (digit d) := by
  simp only [isDigit, Bool.and_eq_true, decide_eq_true_eq, UInt8.le_iff_toNat_le, digit_toNat h]
  exact ⟨by simp, by simp; omega⟩

theorem isDigit_of_mem_decimal {n : ℕ} {b : UInt8} (h : b ∈ decimal n) : isDigit b := by
  rw [decimal] at h
  split_ifs at h
  · rw [List.mem_singleton.mp h]
    rfl
  · obtain ⟨d, hd, rfl⟩ := List.mem_map.mp h
    exact isDigit_digit (Nat.digits_lt_base (by decide) (List.mem_reverse.mp hd))

theorem natOf_decimal (n : ℕ) : natOf (decimal n) = n := by
  rw [decimal]
  split_ifs with hn
  · rw [hn]
    rfl
  · have hdigits : ((Nat.digits 10 n).map digit).map (fun b ↦ b.toNat - 0x30) = Nat.digits 10 n := by
      rw [List.map_map]
      refine List.map_congr_left ?_ |>.trans (List.map_id _)
      intro d hd
      simp [digit_toNat (Nat.digits_lt_base (by decide) hd)]
    rw [natOf, ← List.map_reverse, List.reverse_reverse, hdigits, Nat.ofDigits_digits]

/-! ### Reading numbers -/

/-- `n * 10 ^ k` -/
def ofDecimal (negative : Bool) (n : ℕ) (k : ℤ) : Binary64 :=
  Binary64.ofRatio negative (n * 10 ^ k.toNat) (10 ^ (-k).toNat)

/-- What does not fit an integer is a double. -/
def ofDigits (negative : Bool) (n : ℕ) : JsonTree :=
  if negative then if n ≤ 2 ^ 63 then .integer (-n) else .float (ofDecimal true n 0)
  else if n < 2 ^ 64 then .integer n else .float (ofDecimal false n 0)

/-- The power of ten behind its letter. -/
def readPower (bytes : List UInt8) : ℤ :=
  if bytes.head? = some 0x2D then -natOf bytes.tail else natOf (bytes.dropWhile (· = 0x2B))

/-- What follows the digits before the point. -/
def readFraction (negative : Bool) (whole rest : List UInt8) : JsonTree :=
  if rest = [] then ofDigits negative (natOf whole)
  else if rest.head? = some 0x2E then
    .float (ofDecimal negative (natOf (whole ++ rest.tail.takeWhile isDigit))
      (readPower (rest.tail.dropWhile isDigit).tail - (rest.tail.takeWhile isDigit).length))
  else .float (ofDecimal negative (natOf whole) (readPower rest.tail))

def readNumber (lexeme : List UInt8) : JsonTree :=
  readFraction (lexeme.head? = some 0x2D) ((unsigned lexeme).takeWhile isDigit)
    ((unsigned lexeme).dropWhile isDigit)

variable {n k : ℕ} {negative : Bool} {rest : List UInt8}

theorem decimal_ne_nil (n : ℕ) : decimal n ≠ [] := by
  rw [decimal]
  split_ifs with hn
  · exact List.cons_ne_nil _ _
  · simpa using Nat.digits_ne_nil_iff_ne_zero.mpr hn

theorem head_signedDecimal (negative : Bool) (n : ℕ) (rest : List UInt8) :
    ((signedDecimal negative n ++ rest).head? = some 0x2D ↔ negative) ∧
      unsigned (signedDecimal negative n ++ rest) = decimal n ++ rest := by
  cases negative
  · obtain ⟨b, bs, hb⟩ := List.exists_cons_of_ne_nil (decimal_ne_nil n)
    have hdigit : isDigit b := isDigit_of_mem_decimal (hb ▸ List.mem_cons_self)
    have hne : b ≠ 0x2D := by
      rintro rfl
      cases hdigit
    simp [signedDecimal, unsigned, hb, hne]
  · simp [signedDecimal, unsigned]

theorem readNumber_signedDecimal_append (hrest : rest.takeWhile isDigit = []) :
    readNumber (signedDecimal negative n ++ rest) =
      readFraction negative (decimal n) (rest.dropWhile isDigit) := by
  obtain ⟨hhead, hunsigned⟩ := head_signedDecimal negative n rest
  have hdigits : ∀ b ∈ decimal n, isDigit b := fun b ↦ isDigit_of_mem_decimal
  rw [readNumber, hunsigned, List.takeWhile_append_of_pos hdigits,
    List.dropWhile_append_of_pos hdigits, hrest, List.append_nil]
  simp only [hhead, Bool.decide_eq_true]

theorem readNumber_signedDecimal :
    readNumber (signedDecimal negative n) = ofDigits negative n := by
  have hread : readNumber (signedDecimal negative n ++ []) = _ := readNumber_signedDecimal_append rfl
  rw [List.append_nil] at hread
  rw [hread, readFraction, if_pos List.dropWhile_nil, natOf_decimal]

theorem readNumber_scientific :
    readNumber (scientific negative n k) = .float (ofDecimal negative n (-k)) := by
  rw [scientific, readNumber_signedDecimal_append rfl]
  have hdrop : (0x65 :: 0x2D :: decimal k).dropWhile isDigit = 0x65 :: 0x2D :: decimal k := rfl
  rw [hdrop, readFraction, if_neg (List.cons_ne_nil _ _), List.head?_cons,
    if_neg (by decide), natOf_decimal, List.tail_cons, readPower, List.head?_cons, if_pos rfl,
    List.tail_cons, natOf_decimal]

/-! ### Spellings -/

theorem foldlM_next_digits {ds : List UInt8} {st : Numeral}
    (hst : ∀ b, isDigit b → st.next b = some st) (h : ∀ b ∈ ds, isDigit b) :
    ds.foldlM Numeral.next st = some st := by
  induction ds with
  | nil => rfl
  | cons b ds ih =>
    rw [List.forall_mem_cons] at h
    rw [List.foldlM_cons, hst b h.1]
    exact ih h.2

theorem next_integer {b : UInt8} (hb : isDigit b) :
    Numeral.integer.next b = some .integer := if_pos hb

theorem next_power {b : UInt8} (hb : isDigit b) : Numeral.power.next b = some .power := if_pos hb

/-- No zero leads the digits but the one of zero. -/
theorem foldlM_next_decimal (n : ℕ) :
    (decimal n).foldlM Numeral.next .minus = some .zero ∨
      (decimal n).foldlM Numeral.next .minus = some .integer := by
  rw [decimal]
  split_ifs with hn
  · exact .inl rfl
  · have hne : Nat.digits 10 n ≠ [] := Nat.digits_ne_nil_iff_ne_zero.mpr hn
    set d := (Nat.digits 10 n).getLast hne with hd
    have hlt : ∀ d ∈ Nat.digits 10 n, d < 10 := fun d ↦ Nat.digits_lt_base (by decide)
    have hdlt : d < 10 := hlt d (List.getLast_mem hne)
    have hdne : d ≠ 0 := Nat.getLast_digit_ne_zero 10 hn
    have hfirst : Numeral.minus.next (digit d) = some .integer := by
      have hzero : digit d ≠ 0x30 := by
        intro h
        have htoNat := congrArg UInt8.toNat h
        rw [digit_toNat hdlt] at htoNat
        exact hdne (Nat.add_left_cancel htoNat)
      rw [Numeral.next, if_neg hzero, if_pos (isDigit_digit hdlt)]
    have hrest : ∀ b ∈ (Nat.digits 10 n).dropLast.reverse.map digit, isDigit b := by
      intro b hb
      obtain ⟨d', hd', rfl⟩ := List.mem_map.mp hb
      exact isDigit_digit (hlt d' (List.dropLast_subset _ (List.mem_reverse.mp hd')))
    rw [← List.dropLast_append_getLast hne, List.reverse_append, List.reverse_singleton,
      List.singleton_append, List.map_cons, List.foldlM_cons, ← hd, hfirst]
    exact .inr (foldlM_next_digits (fun b ↦ next_integer) hrest)

theorem foldlM_next_power (k : ℕ) :
    (decimal k).foldlM Numeral.next .sign = some .power := by
  obtain ⟨b, bs, hb⟩ := List.exists_cons_of_ne_nil (decimal_ne_nil k)
  have hall : ∀ b ∈ decimal k, isDigit b := fun b ↦ isDigit_of_mem_decimal
  rw [hb, List.forall_mem_cons] at hall
  rw [hb, List.foldlM_cons, Numeral.next, if_pos hall.1]
  exact foldlM_next_digits (fun b ↦ next_power) hall.2

theorem lexeme_signedDecimal (negative : Bool) (n : ℕ) : Lexeme (signedDecimal negative n) := by
  have hunsigned := (head_signedDecimal negative n []).2
  rw [List.append_nil, List.append_nil] at hunsigned
  rw [Lexeme, hunsigned]
  rcases foldlM_next_decimal n with h | h
  · exact ⟨.zero, h, rfl⟩
  · exact ⟨.integer, h, rfl⟩

theorem lexeme_scientific (negative : Bool) (n k : ℕ) : Lexeme (scientific negative n k) := by
  have hpower := foldlM_next_power k
  refine ⟨.power, ?_, rfl⟩
  rw [scientific, (head_signedDecimal negative n _).2, List.foldlM_append]
  rcases foldlM_next_decimal n with h | h <;> rw [h] <;> exact hpower

/-! ### Doubles -/

/-- All decimals of a finite double. -/
def printFloat (x : Binary64) : List UInt8 :=
  scientific (Binary64.isNegative x)
    (Binary64.significand x * 2 ^ (Binary64.exponent x).toNat * 5 ^ (-Binary64.exponent x).toNat)
    (-Binary64.exponent x).toNat

theorem readNumber_printFloat {x : Binary64} (hx : Binary64.isFinite x) :
    readNumber (printFloat x) = .float x := by
  rw [printFloat, readNumber_scientific, ofDecimal, Binary64.ofRatio_eq hx (by positivity)]
  have hten : ∀ k : ℕ, (10 : ℚ) ^ k = 2 ^ k * 5 ^ k := by
    intro k
    rw [← mul_pow]
    norm_num
  rw [Binary64.two_zpow_eq]
  simp only [Int.toNat_neg_natCast, neg_neg, Int.toNat_natCast, pow_zero, mul_one]
  push_cast
  rw [hten]
  field_simp

/-! ## Strings -/

def utf8 (s : String) : List UInt8 := s.toByteArray.data.toList

def ofUtf8 (bytes : List UInt8) : Option String := String.fromUTF8? ⟨bytes.toArray⟩

theorem ofUtf8_utf8 (s : String) : ofUtf8 (utf8 s) = some s :=
  dif_pos s.isValidUTF8

/-- The bytes of a text in which nothing is left as a code unit. -/
def bytesOf : Text → Option (List UInt8)
  | [] => some []
  | .byte b :: text => (bytesOf text).map (b :: ·)
  | .unit _ :: _ => none

theorem bytesOf_spelled (bytes : List UInt8) : bytesOf (spelled bytes) = some bytes := by
  induction bytes with
  | nil => rfl
  | cons b bytes ih => exact (congrArg (Option.map (b :: ·)) ih).trans rfl

def readText (text : Text) : Option String := (bytesOf text).bind ofUtf8

theorem readText_spelled (s : String) : readText (spelled (utf8 s)) = some s := by
  rw [readText, bytesOf_spelled, Option.bind_some, ofUtf8_utf8]

theorem printable_spelled (bytes : List UInt8) : ∀ x ∈ spelled bytes, x.Printable := by
  intro x hx
  obtain ⟨b, -, rfl⟩ := List.mem_map.mp hx
  trivial

/-! ## Documents -/

mutual

/-- The value that is written for a document. -/
def toValue : JsonTree → Value
  | .null => .null
  | .bool b => .bool b
  | .integer n => .number (signedDecimal (n < 0) n.natAbs)
  | .float x => if Binary64.isFinite x then .number (printFloat x) else .null
  | .string s => .string (spelled (utf8 s))
  | .array items => .array (toValues items)
  | .object ms => .object (toMembers ms)

def toValues : List JsonTree → List Value
  | [] => []
  | d :: ds => d.toValue :: toValues ds

def toMembers : List (String × JsonTree) → List (Text × Value)
  | [] => []
  | (key, d) :: ms => (spelled (utf8 key), d.toValue) :: toMembers ms

end

mutual

/-- The document that a value is read as. Of members with one key the last counts. -/
def ofValue : Value → Option JsonTree
  | .null => some .null
  | .bool b => some (.bool b)
  | .number lexeme => some (readNumber lexeme)
  | .string text => (readText text).map .string
  | .array vs => (ofValues vs).map .array
  | .object ms => (ofPairs ms).map ofMembers

def ofValues : List Value → Option (List JsonTree)
  | [] => some []
  | v :: vs => (ofValue v).bind fun d ↦ (ofValues vs).map (d :: ·)

def ofPairs : List (Text × Value) → Option (List (String × JsonTree))
  | [] => some []
  | (key, v) :: ms =>
    (readText key).bind fun k ↦ (ofValue v).bind fun d ↦ (ofPairs ms).map ((k, d) :: ·)

end

mutual

theorem printable_toValue : ∀ d : JsonTree, d.toValue.Printable
  | .null => .null
  | .bool b => .bool b
  | .integer n => .number (lexeme_signedDecimal _ _)
  | .float x => by
    rw [toValue]
    split_ifs
    · exact .number (lexeme_scientific _ _ _)
    · exact .null
  | .string s => .string (printable_spelled _)
  | .array items => .array (printable_toValues items)
  | .object ms => .object (fun m hm ↦ (printable_toMembers ms m hm).1)
    fun m hm ↦ (printable_toMembers ms m hm).2

theorem printable_toValues : ∀ items : List JsonTree, ∀ v ∈ toValues items, v.Printable
  | [] => nofun
  | d :: ds => List.forall_mem_cons.mpr ⟨printable_toValue d, printable_toValues ds⟩

theorem printable_toMembers : ∀ ms : List (String × JsonTree), ∀ m ∈ toMembers ms,
    (∀ x ∈ m.1, x.Printable) ∧ m.2.Printable
  | [] => nofun
  | (_, d) :: ms =>
    List.forall_mem_cons.mpr ⟨⟨printable_spelled _, printable_toValue d⟩, printable_toMembers ms⟩

end

theorem ofValues_toValues {items : List JsonTree}
    (h : ∀ d ∈ items, ofValue d.toValue = some d.written) :
    ofValues (toValues items) = some (writtenItems items) := by
  induction items with
  | nil => rfl
  | cons d ds ih =>
    rw [List.forall_mem_cons] at h
    rw [toValues, ofValues, h.1, Option.bind_some, ih h.2]
    rfl

theorem ofPairs_toMembers {ms : List (String × JsonTree)}
    (h : ∀ m ∈ ms, ofValue m.2.toValue = some m.2.written) :
    ofPairs (toMembers ms) = some (writtenMembers ms) := by
  induction ms with
  | nil => rfl
  | cons m ms ih =>
    obtain ⟨key, d⟩ := m
    rw [List.forall_mem_cons] at h
    rw [toMembers, ofPairs, readText_spelled, Option.bind_some, h.1, Option.bind_some, ih h.2]
    rfl

theorem ofDigits_natAbs {n : ℤ} (hmin : -2 ^ 63 ≤ n) (hmax : n < 2 ^ 64) :
    ofDigits (n < 0) n.natAbs = .integer n := by
  rw [ofDigits]
  simp only [decide_eq_true_eq]
  split_ifs <;> first | omega | exact congrArg integer (by omega)

theorem map_fst_writtenMembers (ms : List (String × JsonTree)) :
    (writtenMembers ms).map Prod.fst = ms.map Prod.fst := by
  induction ms with
  | nil => rfl
  | cons m ms ih => rw [writtenMembers, List.map_cons, ih, List.map_cons]

theorem ofValue_toValue {d : JsonTree} (h : d.WellFormed) : ofValue d.toValue = some d.written := by
  induction h with
  | null => rfl
  | bool b => rfl
  | @integer n hmin hmax =>
    rw [toValue, ofValue, readNumber_signedDecimal, ofDigits_natAbs hmin hmax, written]
  | float x =>
    rw [toValue, written]
    split_ifs with hx
    · rw [ofValue, readNumber_printFloat hx]
    · rfl
  | string s => rw [toValue, ofValue, readText_spelled, Option.map_some, written]
  | array h ih => rw [toValue, ofValue, ofValues_toValues ih, Option.map_some, written]
  | @object ms hsorted h ih =>
    have hwritten : SortedMap.Sorted (writtenMembers ms) :=
      SortedMap.sorted_iff_map_fst.mpr
        (map_fst_writtenMembers ms ▸ SortedMap.sorted_iff_map_fst.mp hsorted)
    rw [toValue, ofValue, ofPairs_toMembers ih, Option.map_some, ofMembers,
      SortedMap.foldl_put hwritten, written]

end JsonTree

/-! ## The library -/

namespace JsonText

open Json

/-- The texts are bytes, and a zero-terminated string ends before the first zero. -/
def bytes : JsonText where
  Text := List UInt8
  dump d := d.toValue.print
  parse text := (decode text).bind JsonTree.ofValue
  cString text := text.takeWhile (· ≠ 0)

theorem bytes_documented : bytes.Documented where
  parse_dump d h := by
    have hread : decode d.toValue.print = some d.toValue := decode_print d.printable_toValue
    exact (congrArg (Option.bind · JsonTree.ofValue) hread).trans (JsonTree.ofValue_toValue h)
  cString_dump d := by
    have hzero : 0 ∉ d.toValue.print := zero_notMem_of_decode (decode_print d.printable_toValue)
    refine List.takeWhile_eq_self_iff.mpr ?_
    intro b hb
    exact decide_eq_true (fun h ↦ hzero (h ▸ hb))

/-- A text with all that is escaped. -/
example : (JsonTree.object [("a", .array [.integer (-12), .float 0x4330000000000000, .null]),
      ("b", .string "\"x\n")]).toValue.print =
    JsonTree.utf8 "\x7b\"a\":[-12,4503599627370496e-0,null],\"b\":\"\\\"x\\u000a\"\x7d" := by
  decide +kernel

end JsonText
