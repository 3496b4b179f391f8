import Mathlib.Data.Finset.Max
import Mathlib.Data.List.Basic
import Mathlib.Data.List.Forall2
import Mathlib.Data.Prod.Lex

/-!
# Reading JSON byte by byte

A reader of JSON texts as a pushdown machine: the stack holds the arrays and objects that are open,
the mode says what may come next, and every step takes one byte. That the machine never looks at more
than the top of its stack is what makes a text valid in one place valid in every place
(`run_append`).

The bytes from `0x80` up stand for themselves, and an escape `\u` from `0x80` up is kept as the code
unit it names. The members of an object are kept in order and with their duplicates, and a number is
kept as it is spelled.
-/

namespace Json

/-! ## Texts and values -/

/-- A character of a decoded string. -/
inductive Symbol
  | byte (b : UInt8)
  | unit (u : ℕ)
  deriving DecidableEq, Repr

def Symbol.ofUnit (u : ℕ) : Symbol := if u < 0x80 then .byte (UInt8.ofNat u) else .unit u

abbrev Text := List Symbol

/-- The string that a list of bytes spells when nothing in it is escaped. -/
def spelled (bytes : List UInt8) : Text := bytes.map .byte

inductive Value
  | null
  | bool (b : Bool)
  | number (lexeme : List UInt8)
  | string (text : Text)
  | array (items : List Value)
  | object (members : List (Text × Value))

/-! ## The machine -/

/-- An open array, an open object that waits for a key, and one that waits for the value of a key. -/
inductive Frame
  | items (vs : List Value)
  | members (ms : List (Text × Value))
  | member (ms : List (Text × Value)) (key : Text)

inductive Escape
  | none
  | backslash
  | hex (count acc : ℕ)
  deriving DecidableEq, Repr

/-- Where in a number the reader is, named for what it has read last. -/
inductive Numeral
  | minus | zero | integer | point | fraction | exponent | sign | power
  deriving DecidableEq, Repr

inductive Word
  | null | true | false
  deriving DecidableEq, Repr

inductive Mode
  | value (first : Bool)
  | key (first : Bool)
  | colon
  | string (isKey : Bool) (text : Text) (escape : Escape)
  | number (lexeme : List UInt8) (st : Numeral)
  | word (w : Word) (count : ℕ)
  | done (v : Value)

structure State where
  stack : List Frame
  mode : Mode

def quote : UInt8 := 0x22
def backslash : UInt8 := 0x5C
def comma : UInt8 := 0x2C
def colon : UInt8 := 0x3A
def openBrace : UInt8 := 0x7B
def closeBrace : UInt8 := 0x7D
def openBracket : UInt8 := 0x5B
def closeBracket : UInt8 := 0x5D

/-- The bytes of a string that stand for themselves. -/
def Plain (b : UInt8) : Prop := b ≠ quote ∧ b ≠ backslash ∧ ¬b < 0x20

instance (b : UInt8) : Decidable (Plain b) := inferInstanceAs (Decidable (_ ∧ _ ∧ _))

def isSpace (b : UInt8) : Bool := b = 0x20 || b = 0x09 || b = 0x0A || b = 0x0D

def isDigit (b : UInt8) : Bool := 0x30 ≤ b && b ≤ 0x39

def hexDigit (b : UInt8) : Option ℕ :=
  if isDigit b then some (b.toNat - 0x30)
  else if 0x61 ≤ b ∧ b ≤ 0x66 then some (b.toNat - 0x57)
  else if 0x41 ≤ b ∧ b ≤ 0x46 then some (b.toNat - 0x37)
  else none

/-- What a backslash and one more byte stand for. -/
def unescape (b : UInt8) : Option UInt8 :=
  if b = quote ∨ b = backslash ∨ b = 0x2F then some b
  else if b = 0x62 then some 0x08
  else if b = 0x66 then some 0x0C
  else if b = 0x6E then some 0x0A
  else if b = 0x72 then some 0x0D
  else if b = 0x74 then some 0x09
  else none

namespace Numeral

def next : Numeral → UInt8 → Option Numeral
  | minus, b => if b = 0x30 then some zero else if isDigit b then some integer else none
  | zero, b => afterInteger b
  | integer, b => if isDigit b then some integer else afterInteger b
  | point, b => if isDigit b then some fraction else none
  | fraction, b => if isDigit b then some fraction else afterFraction b
  | exponent, b =>
    if isDigit b then some power else if b = 0x2B ∨ b = 0x2D then some sign else none
  | sign, b => if isDigit b then some power else none
  | power, b => if isDigit b then some power else none
where
  afterFraction (b : UInt8) : Option Numeral :=
    if b = 0x65 ∨ b = 0x45 then some exponent else none
  afterInteger (b : UInt8) : Option Numeral :=
    if b = 0x2E then some point else afterFraction b

def accepts : Numeral → Bool
  | zero | integer | fraction | power => true
  | _ => false

end Numeral

namespace Word

def bytes : Word → List UInt8
  | null => [0x6E, 0x75, 0x6C, 0x6C]
  | true => [0x74, 0x72, 0x75, 0x65]
  | false => [0x66, 0x61, 0x6C, 0x73, 0x65]

def value : Word → Value
  | null => .null
  | true => .bool Bool.true
  | false => .bool Bool.false

end Word

/-- How a value begins: what it opens, and what comes next. -/
def opening (b : UInt8) : Option (List Frame × Mode) :=
  if b = quote then some ([], .string false [] .none)
  else if b = openBrace then some ([.members []], .key true)
  else if b = openBracket then some ([.items []], .value true)
  else if b = 0x2D then some ([], .number [b] .minus)
  else if b = 0x30 then some ([], .number [b] .zero)
  else if isDigit b then some ([], .number [b] .integer)
  else if b = 0x6E then some ([], .word .null 1)
  else if b = 0x74 then some ([], .word .true 1)
  else if b = 0x66 then some ([], .word .false 1)
  else none

def startValue (stack : List Frame) (first : Bool) (b : UInt8) : Option State :=
  match opening b with
  | some (frames, mode) => some ⟨frames ++ stack, mode⟩
  | none => if first ∧ b = closeBracket then closeEmpty stack else none
where
  closeEmpty : List Frame → Option State
    | .items vs :: stack => some ⟨stack, .done (.array vs)⟩
    | _ => none

def startKey (stack : List Frame) (first : Bool) (b : UInt8) : Option State :=
  if b = quote then some ⟨stack, .string true [] .none⟩
  else if first ∧ b = closeBrace then closeEmpty stack
  else none
where
  closeEmpty : List Frame → Option State
    | .members ms :: stack => some ⟨stack, .done (.object ms)⟩
    | _ => none

/-- After a value: its place in the array or the object it is in. -/
def afterValue (stack : List Frame) (v : Value) (b : UInt8) : Option State :=
  if isSpace b then some ⟨stack, .done v⟩ else place stack
where
  place : List Frame → Option State
    | .items vs :: stack =>
      if b = comma then some ⟨.items (vs ++ [v]) :: stack, .value false⟩
      else if b = closeBracket then some ⟨stack, .done (.array (vs ++ [v]))⟩
      else none
    | .member ms k :: stack =>
      if b = comma then some ⟨.members (ms ++ [(k, v)]) :: stack, .key false⟩
      else if b = closeBrace then some ⟨stack, .done (.object (ms ++ [(k, v)]))⟩
      else none
    | _ => none

def closeString (stack : List Frame) (isKey : Bool) (text : Text) : Option State :=
  if isKey then closeKey stack else some ⟨stack, .done (.string text)⟩
where
  closeKey : List Frame → Option State
    | .members ms :: stack => some ⟨.member ms text :: stack, .colon⟩
    | _ => none

def stringStep (stack : List Frame) (isKey : Bool) (text : Text) (b : UInt8) :
    Escape → Option State
  | .none =>
    if b = quote then closeString stack isKey text
    else if b = backslash then some ⟨stack, .string isKey text .backslash⟩
    else if b < 0x20 then none
    else some ⟨stack, .string isKey (text ++ [.byte b]) .none⟩
  | .backslash =>
    if b = 0x75 then some ⟨stack, .string isKey text (.hex 0 0)⟩
    else (unescape b).map fun c ↦ ⟨stack, .string isKey (text ++ [.byte c]) .none⟩
  | .hex count acc =>
    (hexDigit b).map fun d ↦
      if count = 3 then ⟨stack, .string isKey (text ++ [.ofUnit (16 * acc + d)]) .none⟩
      else ⟨stack, .string isKey text (.hex (count + 1) (16 * acc + d))⟩

def step (s : State) (b : UInt8) : Option State :=
  match s.mode with
  | .value first => if isSpace b then some s else startValue s.stack first b
  | .key first => if isSpace b then some s else startKey s.stack first b
  | .colon =>
    if isSpace b then some s else if b = colon then some ⟨s.stack, .value false⟩ else none
  | .string isKey text escape => stringStep s.stack isKey text b escape
  | .number lexeme st =>
    match st.next b with
    | some st => some ⟨s.stack, .number (lexeme ++ [b]) st⟩
    | none => if st.accepts then afterValue s.stack (.number lexeme) b else none
  | .word w count =>
    if w.bytes[count]? = some b then
      some ⟨s.stack, if count + 1 = w.bytes.length then .done w.value else .word w (count + 1)⟩
    else none
  | .done v => afterValue s.stack v b

def run (s : State) (bytes : List UInt8) : Option State := bytes.foldlM step s

/-- The value that is complete in a mode, when the text ends here. -/
def Mode.result : Mode → Option Value
  | .done v => some v
  | .number lexeme st => if st.accepts then some (.number lexeme) else none
  | _ => none

def start : State := ⟨[], .value false⟩

def State.result (s : State) : Option Value := if s.stack.isEmpty then s.mode.result else none

/-- The value that a text spells, if it is a JSON text. -/
def decode (bytes : List UInt8) : Option Value := (run start bytes).bind State.result

@[simp] theorem run_nil (s : State) : run s [] = some s := rfl

@[simp] theorem run_cons (s : State) (b : UInt8) (bytes : List UInt8) :
    run s (b :: bytes) = (step s b).bind (run · bytes) := by
  simp [run, List.foldlM_cons]

theorem run_append (s : State) (bytes bytes' : List UInt8) :
    run s (bytes ++ bytes') = (run s bytes).bind (run · bytes') := by
  simp [run, List.foldlM_append]

theorem run_append_of_eq {s s' : State} {bytes : List UInt8} (h : run s bytes = some s')
    (bytes' : List UInt8) : run s (bytes ++ bytes') = run s' bytes' := by
  rw [run_append, h, Option.bind_some]

/-! ## A text inside another

What is open around a text does not change what the text does. -/

namespace State

/-- The state inside what is open in `base`. -/
def onto (s : State) (base : List Frame) : State := ⟨s.stack ++ base, s.mode⟩

@[simp] theorem onto_mk (stack base : List Frame) (m : Mode) :
    (State.mk stack m).onto base = ⟨stack ++ base, m⟩ := rfl

end State

variable {s s' : State} {stack base : List Frame} {b : UInt8} {v : Value}

theorem startValue_over {first : Bool} (h : startValue stack first b = some s) :
    startValue (stack ++ base) first b = some (s.onto base) := by
  rcases hb : opening b with _ | ⟨frames, mode⟩ <;> simp only [startValue, hb] at h ⊢
  · split_ifs at h ⊢
    rcases stack with _ | ⟨_ | _ | _, stack⟩ <;> cases h
    rfl
  · rw [← Option.some.inj h]
    simp

theorem startKey_over {first : Bool} (h : startKey stack first b = some s) :
    startKey (stack ++ base) first b = some (s.onto base) := by
  rw [startKey] at h ⊢
  split_ifs at h ⊢
  · exact Option.some.inj h ▸ rfl
  · rcases stack with _ | ⟨_ | _ | _, stack⟩ <;> cases h
    rfl

theorem afterValue_over (h : afterValue stack v b = some s) :
    afterValue (stack ++ base) v b = some (s.onto base) := by
  rw [afterValue] at h ⊢
  split_ifs at h ⊢
  · exact Option.some.inj h ▸ rfl
  · rcases stack with _ | ⟨_ | _ | _, stack⟩ <;>
      simp only [List.cons_append, afterValue.place, reduceCtorEq] at h ⊢ <;>
      split_ifs at h ⊢ <;> exact Option.some.inj h ▸ rfl

theorem closeString_over {isKey : Bool} {text : Text}
    (h : closeString stack isKey text = some s) :
    closeString (stack ++ base) isKey text = some (s.onto base) := by
  rw [closeString] at h ⊢
  split_ifs at h ⊢
  · rcases stack with _ | ⟨_ | _ | _, stack⟩ <;> cases h
    rfl
  · exact Option.some.inj h ▸ rfl

theorem stringStep_over {isKey : Bool} {text : Text} {escape : Escape}
    (h : stringStep stack isKey text b escape = some s) :
    stringStep (stack ++ base) isKey text b escape = some (s.onto base) := by
  rcases escape with _ | _ | ⟨count, acc⟩ <;> rw [stringStep] at h ⊢
  · split_ifs at h ⊢
    · exact closeString_over h
    iterate 2 exact Option.some.inj h ▸ rfl
  · split_ifs at h ⊢
    · exact Option.some.inj h ▸ rfl
    · obtain ⟨c, hc, rfl⟩ := Option.map_eq_some_iff.mp h
      rw [hc]
      rfl
  · obtain ⟨d, hd, rfl⟩ := Option.map_eq_some_iff.mp h
    rw [hd, Option.map_some]
    split_ifs <;> rfl

theorem step_over (h : step s b = some s') : step (s.onto base) b = some (s'.onto base) := by
  obtain ⟨stack, mode⟩ := s
  rw [State.onto_mk]
  rcases mode with first | first | _ | ⟨isKey, text, escape⟩ | ⟨lexeme, st⟩ | ⟨w, count⟩ | v <;>
    simp only [step] at h ⊢
  · split_ifs at h ⊢
    · exact Option.some.inj h ▸ rfl
    · exact startValue_over h
  · split_ifs at h ⊢
    · exact Option.some.inj h ▸ rfl
    · exact startKey_over h
  · split_ifs at h ⊢ <;> exact Option.some.inj h ▸ rfl
  · exact stringStep_over h
  · split at h
    · exact Option.some.inj h ▸ rfl
    · split_ifs at h ⊢
      exact afterValue_over h
  · split_ifs at h ⊢ <;> exact Option.some.inj h ▸ rfl
  · exact afterValue_over h

theorem run_over {bytes : List UInt8} (h : run s bytes = some s') :
    run (s.onto base) bytes = some (s'.onto base) := by
  induction bytes generalizing s with
  | nil => exact Option.some.inj h ▸ rfl
  | cons b bytes ih =>
    rw [run_cons, Option.bind_eq_some_iff] at h
    obtain ⟨s₁, hstep, hrun⟩ := h
    rw [run_cons, step_over hstep, Option.bind_some, ih hrun]

theorem decode_eq_some {bytes : List UInt8} :
    decode bytes = some v ↔ ∃ m, run start bytes = some ⟨[], m⟩ ∧ m.result = some v := by
  rw [decode, Option.bind_eq_some_iff]
  constructor
  · rintro ⟨⟨_ | _, m⟩, hrun, hresult⟩
    · exact ⟨m, hrun, hresult⟩
    · cases hresult
  · rintro ⟨m, hrun, hresult⟩
    exact ⟨_, hrun, hresult⟩

/-- A valid text where a value is due, whatever is open. -/
theorem run_value {bytes : List UInt8} (h : decode bytes = some v) (stack : List Frame) :
    ∃ m, run ⟨stack, .value false⟩ bytes = some ⟨stack, m⟩ ∧ m.result = some v := by
  obtain ⟨m, hrun, hresult⟩ := decode_eq_some.mp h
  exact ⟨m, run_over hrun, hresult⟩

/-! ## Inside and outside a string

Outside a string a quote opens one and a backslash means nothing; inside, a quote closes it. Keys are
added where a string closes, and nowhere else. -/

def Mode.Outside : Mode → Prop
  | .string .. => False
  | _ => True

theorem Mode.outside_of_result {m : Mode} (h : m.result = some v) : m.Outside := by
  rcases m with _ | _ | _ | _ | _ | _ | _
  iterate 3 trivial
  · cases h
  iterate 3 trivial

namespace Frame

/-- The keys of an open object, the one that waits for its value included. -/
def keys : Frame → List Text
  | items _ => []
  | members ms => ms.map Prod.fst
  | member ms k => ms.map Prod.fst ++ [k]

@[simp] theorem keys_items (vs : List Value) : (items vs).keys = [] := rfl
@[simp] theorem keys_members (ms : List (Text × Value)) :
    (members ms).keys = ms.map Prod.fst := rfl
@[simp] theorem keys_member (ms : List (Text × Value)) (k : Text) :
    (member ms k).keys = ms.map Prod.fst ++ [k] := rfl

end Frame

/-- The keys of everything that is open. -/
def State.keys (s : State) : List Text := s.stack.flatMap Frame.keys

@[simp] theorem State.keys_mk (stack : List Frame) (m : Mode) :
    (State.mk stack m).keys = stack.flatMap Frame.keys := rfl

theorem opening_outside {frames : List Frame} {m : Mode} (hb : b ≠ quote)
    (h : opening b = some (frames, m)) : m.Outside ∧ frames.flatMap Frame.keys = [] := by
  rw [opening, if_neg hb] at h
  split_ifs at h <;> obtain ⟨rfl, rfl⟩ := Prod.mk.inj (Option.some.inj h) <;> exact ⟨trivial, rfl⟩

theorem startValue_outside {first : Bool} (hb : b ≠ quote)
    (h : startValue stack first b = some s) :
    s.mode.Outside ∧ s.keys ⊆ stack.flatMap Frame.keys := by
  rcases hopen : opening b with _ | ⟨frames, mode⟩ <;> simp only [startValue, hopen] at h
  · split_ifs at h
    rcases stack with _ | ⟨_ | _ | _, stack⟩ <;> cases h
    exact ⟨trivial, List.Subset.refl _⟩
  · obtain ⟨hmode, hframes⟩ := opening_outside hb hopen
    rw [← Option.some.inj h]
    exact ⟨hmode, by simp [hframes]⟩

theorem startKey_outside {first : Bool} (hb : b ≠ quote) (h : startKey stack first b = some s) :
    s.mode.Outside ∧ s.keys ⊆ stack.flatMap Frame.keys := by
  rw [startKey, if_neg hb] at h
  split_ifs at h
  rcases stack with _ | ⟨_ | _ | _, stack⟩ <;> cases h
  exact ⟨trivial, by simp [List.flatMap_cons]⟩

theorem afterValue_outside (h : afterValue stack v b = some s) :
    s.mode.Outside ∧ s.keys ⊆ stack.flatMap Frame.keys := by
  rw [afterValue] at h
  split_ifs at h
  · exact Option.some.inj h ▸ ⟨trivial, List.Subset.refl _⟩
  · rcases stack with _ | ⟨_ | _ | _, stack⟩ <;>
      simp only [afterValue.place, reduceCtorEq] at h <;>
      split_ifs at h <;> exact Option.some.inj h ▸ ⟨trivial, by simp [List.flatMap_cons]⟩

theorem afterValue_quote : afterValue stack v quote = none := by
  rcases stack with _ | ⟨_ | _ | _, stack⟩ <;> rfl

theorem afterValue_backslash : afterValue stack v backslash = none := by
  rcases stack with _ | ⟨_ | _ | _, stack⟩ <;> rfl

theorem afterValue_colon : afterValue stack v colon = none := by
  rcases stack with _ | ⟨_ | _ | _, stack⟩ <;> rfl

/-- The marks of the syntax are in no number and in no word. -/
def marks : List UInt8 := [quote, backslash, comma, colon, closeBrace, closeBracket]

theorem Numeral.next_mark (hb : b ∈ marks) (st : Numeral) : st.next b = none := by
  simp only [marks, List.mem_cons, List.not_mem_nil, or_false] at hb
  rcases hb with rfl | rfl | rfl | rfl | rfl | rfl <;> cases st <;> rfl

theorem Word.getElem?_ne_mark (hb : b ∈ marks) (w : Word) (count : ℕ) :
    w.bytes[count]? ≠ some b := by
  intro h
  have hmem := List.mem_of_getElem? h
  simp only [marks, List.mem_cons, List.not_mem_nil, or_false] at hb
  rcases hb with rfl | rfl | rfl | rfl | rfl | rfl <;> cases w <;> revert hmem <;> decide

theorem step_number_mark {lexeme : List UInt8} {st : Numeral} (hb : b ∈ marks) :
    step ⟨stack, .number lexeme st⟩ b =
      if st.accepts then afterValue stack (.number lexeme) b else none := by
  simp only [step, Numeral.next_mark hb]

theorem step_word_mark {w : Word} {count : ℕ} (hb : b ∈ marks) :
    step ⟨stack, .word w count⟩ b = none := by
  simp only [step, if_neg (Word.getElem?_ne_mark hb w count)]

/-- A quote outside a string opens one. -/
theorem step_quote (hs : s.mode.Outside) (h : step s quote = some s') :
    ∃ isKey, s' = ⟨s.stack, .string isKey [] .none⟩ := by
  have hmark : quote ∈ marks := by decide
  obtain ⟨stack, mode⟩ := s
  rcases mode with first | first | _ | ⟨isKey, text, escape⟩ | ⟨lexeme, st⟩ | ⟨w, count⟩ | v
  · exact ⟨false, (Option.some.inj h).symm⟩
  · exact ⟨true, (Option.some.inj h).symm⟩
  · cases h
  · exact hs.elim
  · rw [step_number_mark hmark, afterValue_quote, ite_self] at h
    cases h
  · rw [step_word_mark hmark] at h
    cases h
  · exact absurd (afterValue_quote.symm.trans h) nofun

theorem step_backslash (hs : s.mode.Outside) : step s backslash = none := by
  have hmark : backslash ∈ marks := by decide
  obtain ⟨stack, mode⟩ := s
  rcases mode with first | first | _ | ⟨isKey, text, escape⟩ | ⟨lexeme, st⟩ | ⟨w, count⟩ | v
  · rcases stack with _ | ⟨_ | _ | _, stack⟩ <;> cases first <;> rfl
  · rcases stack with _ | ⟨_ | _ | _, stack⟩ <;> cases first <;> rfl
  · rfl
  · exact hs.elim
  · rw [step_number_mark hmark, afterValue_backslash, ite_self]
  · exact step_word_mark hmark
  · exact afterValue_backslash

/-- Anything but a quote leaves the reader outside. -/
theorem step_outside (hs : s.mode.Outside) (hb : b ≠ quote) (h : step s b = some s') :
    s'.mode.Outside ∧ s'.keys ⊆ s.keys := by
  obtain ⟨stack, mode⟩ := s
  rcases mode with first | first | _ | ⟨isKey, text, escape⟩ | ⟨lexeme, st⟩ | ⟨w, count⟩ | v <;>
    simp only [step] at h
  · split_ifs at h
    · exact Option.some.inj h ▸ ⟨trivial, List.Subset.refl _⟩
    · exact startValue_outside hb h
  · split_ifs at h
    · exact Option.some.inj h ▸ ⟨trivial, List.Subset.refl _⟩
    · exact startKey_outside hb h
  · split_ifs at h <;> exact Option.some.inj h ▸ ⟨trivial, List.Subset.refl _⟩
  · exact hs.elim
  · split at h
    · exact Option.some.inj h ▸ ⟨trivial, List.Subset.refl _⟩
    · split_ifs at h
      exact afterValue_outside h
  · split_ifs at h <;> exact Option.some.inj h ▸ ⟨trivial, List.Subset.refl _⟩
  · exact afterValue_outside h

/-- A colon outside a string comes between a key and its value. -/
theorem step_colon (hs : s.mode.Outside) (h : step s colon = some s') :
    s' = ⟨s.stack, .value false⟩ := by
  have hmark : colon ∈ marks := by decide
  obtain ⟨stack, mode⟩ := s
  rcases mode with first | first | _ | ⟨isKey, text, escape⟩ | ⟨lexeme, st⟩ | ⟨w, count⟩ | v
  · rcases stack with _ | ⟨_ | _ | _, stack⟩ <;> cases first <;> cases h
  · rcases stack with _ | ⟨_ | _ | _, stack⟩ <;> cases first <;> cases h
  · exact (Option.some.inj h).symm
  · exact hs.elim
  · rw [step_number_mark hmark, afterValue_colon, ite_self] at h
    cases h
  · rw [step_word_mark hmark] at h
    cases h
  · exact absurd (afterValue_colon.symm.trans h) nofun

/-- The object that a brace closes has the keys it had while it was open. -/
theorem keys_of_step_closeBrace (hs : s.mode.Outside) (h : step s closeBrace = some s')
    {ms : List (Text × Value)} (hms : s'.mode.result = some (.object ms)) :
    ∀ m ∈ ms, m.1 ∈ s.keys := by
  have hmark : closeBrace ∈ marks := by decide
  have hafter : ∀ {stack : List Frame} {v : Value}, afterValue stack v closeBrace = some s' →
      ∀ m ∈ ms, m.1 ∈ stack.flatMap Frame.keys := by
    intro stack v h
    rcases stack with _ | ⟨_ | _ | ⟨ms', k⟩, stack⟩ <;> cases h
    cases hms
    intro m hm
    rcases List.mem_append.mp hm with hm | hm
    · exact List.mem_append_left _ (List.mem_append_left _ (List.mem_map_of_mem hm))
    · rw [List.mem_singleton.mp hm]
      simp
  obtain ⟨stack, mode⟩ := s
  rcases mode with first | first | _ | ⟨isKey, text, escape⟩ | ⟨lexeme, st⟩ | ⟨w, count⟩ | v
  · rcases stack with _ | ⟨_ | _ | _, stack⟩ <;> cases first <;> cases h
  · rcases stack with _ | ⟨_ | ms' | _, stack⟩ <;> cases first <;> cases h
    cases hms
    intro m hm
    exact List.mem_append_left _ (List.mem_map_of_mem hm)
  · cases h
  · exact hs.elim
  · rw [step_number_mark hmark] at h
    split_ifs at h
    exact hafter h
  · rw [step_word_mark hmark] at h
    cases h
  · exact hafter h

section

variable {isKey : Bool} {text : Text}

theorem step_plain (hb : Plain b) :
    step ⟨stack, .string isKey text .none⟩ b =
      some ⟨stack, .string isKey (text ++ [.byte b]) .none⟩ := by
  simp only [step, stringStep, if_neg hb.1, if_neg hb.2.1, if_neg hb.2.2]

/-- A byte of a string that is neither a quote nor a backslash stands for itself. -/
theorem plain_of_step (hq : b ≠ quote) (hs : b ≠ backslash)
    (h : step ⟨stack, .string isKey text .none⟩ b = some s) : Plain b := by
  simp only [step, stringStep, if_neg hq, if_neg hs] at h
  split_ifs at h with hb
  exact ⟨hq, hs, hb⟩

/-- A quote that ends a string leaves the reader outside, with one more key at most. -/
theorem step_string_quote (h : step ⟨stack, .string isKey text .none⟩ quote = some s) :
    s.mode.Outside ∧ s.keys ⊆ text :: stack.flatMap Frame.keys := by
  have h : closeString stack isKey text = some s := h
  rw [closeString] at h
  split_ifs at h
  · rcases stack with _ | ⟨_ | ms | _, stack⟩ <;> cases h
    refine ⟨trivial, ?_⟩
    intro k hk
    simp only [State.keys_mk, List.flatMap_cons, Frame.keys_member, List.mem_append,
      Frame.keys_members, List.mem_cons] at hk ⊢
    tauto
  · exact Option.some.inj h ▸ ⟨trivial, List.subset_cons_self _ _⟩

theorem step_hex {count acc d : ℕ} (hd : hexDigit b = some d) :
    step ⟨stack, .string isKey text (.hex count acc)⟩ b =
      some (if count = 3 then ⟨stack, .string isKey (text ++ [.ofUnit (16 * acc + d)]) .none⟩
        else ⟨stack, .string isKey text (.hex (count + 1) (16 * acc + d))⟩) := by
  simp only [step, stringStep, hd, Option.map_some]

/-- An escape of four digits. -/
theorem run_hex {h₀ h₁ h₂ h₃ : UInt8} {d₀ d₁ d₂ d₃ : ℕ} (e₀ : hexDigit h₀ = some d₀)
    (e₁ : hexDigit h₁ = some d₁) (e₂ : hexDigit h₂ = some d₂) (e₃ : hexDigit h₃ = some d₃) :
    run ⟨stack, .string isKey text .none⟩ [backslash, 0x75, h₀, h₁, h₂, h₃] =
      some ⟨stack, .string isKey
        (text ++ [.ofUnit (16 * (16 * (16 * d₀ + d₁) + d₂) + d₃)]) .none⟩ := by
  have hslash : step ⟨stack, .string isKey text .none⟩ backslash =
    some ⟨stack, .string isKey text .backslash⟩ := rfl
  have hunit : step ⟨stack, .string isKey text .backslash⟩ 0x75 =
    some ⟨stack, .string isKey text (.hex 0 0)⟩ := rfl
  rw [run_cons, hslash, Option.bind_some, run_cons, hunit, Option.bind_some, run_cons, step_hex e₀,
    Option.bind_some, if_neg (by decide), run_cons, step_hex e₁, Option.bind_some,
    if_neg (by decide), run_cons, step_hex e₂, Option.bind_some, if_neg (by decide), run_cons,
    step_hex e₃, Option.bind_some, if_pos (by decide), run_nil, Nat.mul_zero, Nat.zero_add]

/-- An escape, when it is complete, adds one character. -/
theorem step_escape {escape : Escape} (hescape : escape ≠ .none)
    (h : step ⟨stack, .string isKey text escape⟩ b = some s) :
    (∃ escape', escape' ≠ .none ∧ s = ⟨stack, .string isKey text escape'⟩) ∨
      ∃ x, s = ⟨stack, .string isKey (text ++ [x]) .none⟩ := by
  rcases escape with _ | _ | ⟨count, acc⟩
  · exact absurd rfl hescape
  · simp only [step, stringStep] at h
    split_ifs at h
    · exact .inl ⟨.hex 0 0, nofun, (Option.some.inj h).symm⟩
    · obtain ⟨c, -, rfl⟩ := Option.map_eq_some_iff.mp h
      exact .inr ⟨_, rfl⟩
  · simp only [step, stringStep] at h
    obtain ⟨d, -, rfl⟩ := Option.map_eq_some_iff.mp h
    split_ifs
    · exact .inr ⟨_, rfl⟩
    · exact .inl ⟨.hex (count + 1) (16 * acc + d), nofun, rfl⟩

end

/-! ## An object pasted together

Members written down by pasting a key between quotes and a text behind a colon. When every text is
valid, the object is read as it was meant exactly when the keys are made of bytes that stand for
themselves. -/

/-- A key and the text of a value. -/
abbrev Fragment := List UInt8 × List UInt8

def Fragment.bytes (fragment : Fragment) : List UInt8 :=
  quote :: fragment.1 ++ quote :: colon :: fragment.2

/-- Fragments with commas between them. -/
def joined (fragments : List Fragment) : List UInt8 :=
  List.intercalate [comma] (fragments.map Fragment.bytes)

def pasted (fragments : List Fragment) : List UInt8 :=
  openBrace :: joined fragments ++ [closeBrace]

/-- A member as it was meant. -/
def Fragment.Means (fragment : Fragment) (m : Text × Value) : Prop :=
  m.1 = spelled fragment.1 ∧ decode fragment.2 = some m.2

/-- A key that can be pasted between quotes. -/
def PlainKey (key : List UInt8) : Prop := ∀ b ∈ key, Plain b

instance (key : List UInt8) : Decidable (PlainKey key) := List.decidableBAll Plain key

theorem run_plain {bytes : List UInt8} (h : PlainKey bytes) (isKey : Bool) (text : Text) :
    run ⟨stack, .string isKey text .none⟩ bytes =
      some ⟨stack, .string isKey (text ++ spelled bytes) .none⟩ := by
  induction bytes generalizing text with
  | nil => simp [spelled]
  | cons b bytes ih =>
    rw [run_cons, step_plain (h b List.mem_cons_self), Option.bind_some,
      ih (fun c hc ↦ h c (List.mem_cons_of_mem _ hc))]
    simp [spelled]

/-- A value that may be complete is complete before a comma, a brace and a bracket. -/
theorem step_of_result {m : Mode} (hm : m.result = some v) (hb : b ∈ marks) :
    step ⟨stack, m⟩ b = afterValue stack v b := by
  rcases m with first | first | _ | ⟨isKey, text, escape⟩ | ⟨lexeme, st⟩ | ⟨w, count⟩ | v'
  iterate 4 cases hm
  · rw [step_number_mark hb]
    rw [Mode.result] at hm
    split_ifs at hm ⊢
    rw [Option.some.inj hm]
  · cases hm
  · rw [← Option.some.inj hm]
    rfl

variable {fragment fragment' : Fragment} {fragments fragments' : List Fragment}
  {ms ms' : List (Text × Value)}

@[simp] theorem joined_nil : joined [] = [] := rfl

@[simp] theorem joined_singleton : joined [fragment] = fragment.bytes :=
  List.intercalate_singleton

theorem joined_cons_cons : joined (fragment :: fragment' :: fragments) =
    fragment.bytes ++ comma :: joined (fragment' :: fragments) := by
  simp [joined, List.intercalate_cons_cons]

theorem joined_eq_nil : joined fragments = [] ↔ fragments = [] := by
  constructor
  · rcases fragments with _ | ⟨fragment, _ | ⟨fragment', fragments⟩⟩
    · exact fun _ ↦ rfl
    · rw [joined_singleton]
      nofun
    · rw [joined_cons_cons]
      nofun
  · rintro rfl
    rfl

theorem joined_append (h : fragments ≠ []) (h' : fragments' ≠ []) :
    joined (fragments ++ fragments') = joined fragments ++ comma :: joined fragments' := by
  induction fragments with
  | nil => exact absurd rfl h
  | cons fragment fragments ih =>
    rcases fragments with _ | ⟨fragment₁, fragments⟩
    · obtain ⟨fragment', fragments', rfl⟩ := List.exists_cons_of_ne_nil h'
      rw [List.singleton_append, joined_cons_cons, joined_singleton]
    · rw [List.cons_append, List.cons_append, joined_cons_cons, ← List.cons_append, ih nofun,
        joined_cons_cons, List.append_assoc, List.cons_append]

theorem run_fragment (stack : List Frame) (ms : List (Text × Value))
    (hplain : PlainKey fragment.1) (hvalue : decode fragment.2 = some v) (first : Bool) :
    ∃ m, m.result = some v ∧ run ⟨.members ms :: stack, .key first⟩ fragment.bytes =
      some ⟨.member ms (spelled fragment.1) :: stack, m⟩ := by
  obtain ⟨m, hrun, hm⟩ := run_value hvalue (.member ms (spelled fragment.1) :: stack)
  refine ⟨m, hm, ?_⟩
  have hquote : step ⟨.members ms :: stack, .key first⟩ quote =
    some ⟨.members ms :: stack, .string true [] .none⟩ := rfl
  have hclose : step ⟨.members ms :: stack, .string true (spelled fragment.1) .none⟩ quote =
    some ⟨.member ms (spelled fragment.1) :: stack, .colon⟩ := rfl
  have hcolon : step ⟨.member ms (spelled fragment.1) :: stack, .colon⟩ colon =
    some ⟨.member ms (spelled fragment.1) :: stack, .value false⟩ := rfl
  rw [Fragment.bytes, List.cons_append, run_cons, hquote, Option.bind_some,
    run_append_of_eq (run_plain hplain _ _), List.nil_append, run_cons, hclose, Option.bind_some,
    run_cons, hcolon, Option.bind_some, hrun]

theorem run_fragments (h : List.Forall₂ Fragment.Means fragments ms)
    (hplain : ∀ fragment ∈ fragments, PlainKey fragment.1) (first : Bool)
    (hfirst : fragments = [] → first = true) :
    run ⟨.members ms' :: stack, .key first⟩
      (joined fragments ++ [closeBrace]) = some ⟨stack, .done (.object (ms' ++ ms))⟩ := by
  induction h generalizing first ms' with
  | nil =>
    rw [hfirst rfl, List.append_nil]
    rfl
  | @cons fragment m fragments ms hm hms ih =>
    obtain ⟨mode, hmode, hrun⟩ :=
      run_fragment stack ms' (hplain _ List.mem_cons_self) hm.2 first
    have hmember : (spelled fragment.1, m.2) = m := Prod.ext hm.1.symm rfl
    rcases hms with _ | ⟨hm', hms⟩
    · rw [joined_singleton, run_append_of_eq hrun, run_cons, step_of_result hmode (by decide),
        ← hmember]
      rfl
    · -- a comma comes before the next fragment
      have hcomma : afterValue (.member ms' (spelled fragment.1) :: stack) m.2 comma =
        some ⟨.members (ms' ++ [m]) :: stack, .key false⟩ := by
        rw [← hmember]
        rfl
      rw [joined_cons_cons, List.append_assoc, run_append_of_eq hrun, List.cons_append, run_cons,
        step_of_result hmode (by decide), hcomma, Option.bind_some,
        ih (fun fragment hfragment ↦ hplain _ (List.mem_cons_of_mem _ hfragment)) false nofun,
        List.append_assoc, List.singleton_append]

theorem exists_means (h : ∀ fragment ∈ fragments, (decode fragment.2).isSome) :
    ∃ ms, List.Forall₂ Fragment.Means fragments ms := by
  induction fragments with
  | nil => exact ⟨[], .nil⟩
  | cons fragment fragments ih =>
    obtain ⟨v, hv⟩ := Option.isSome_iff_exists.mp (h _ List.mem_cons_self)
    obtain ⟨ms, hms⟩ := ih fun fragment hfragment ↦ h _ (List.mem_cons_of_mem _ hfragment)
    exact ⟨(spelled fragment.1, v) :: ms, .cons ⟨rfl, hv⟩ hms⟩

/-- The members that were meant are those of the fragments, and no others. -/
theorem mem_iff_of_means (h : List.Forall₂ Fragment.Means fragments ms) {m : Text × Value} :
    m ∈ ms ↔ ∃ fragment ∈ fragments, fragment.Means m := by
  induction h with
  | nil => simp
  | @cons fragment m' fragments ms hm hms ih =>
    have heq : fragment.Means m ↔ m = m' := by
      constructor
      · exact fun h ↦ Prod.ext (h.1.trans hm.1.symm) (Option.some.inj (h.2.symm.trans hm.2))
      · rintro rfl
        exact hm
    rw [List.mem_cons, ih, List.exists_mem_cons_iff, heq]

/-- Plain keys and valid texts make the object that was meant. -/
theorem decode_pasted (h : List.Forall₂ Fragment.Means fragments ms)
    (hplain : ∀ fragment ∈ fragments, PlainKey fragment.1) :
    decode (pasted fragments) = some (.object ms) := by
  have hopen : step start openBrace = some ⟨[.members []], .key true⟩ := rfl
  refine decode_eq_some.mpr ⟨.done (.object ms), ?_, rfl⟩
  rw [pasted, List.cons_append, run_cons, hopen, Option.bind_some,
    run_fragments h hplain true fun _ ↦ rfl, List.nil_append]

/-! ### What a key that is not plain leads to

Read as it was meant or not, a key of the object is clean, or it comes out of an escape in one of the
pasted keys and is smaller than that key: it has fewer backslashes, or as many and fewer characters.
So the largest of the pasted keys that are not plain is no key of the object. The value texts add no
escapes: the reader goes through one either as it was meant or with inside and outside exchanged
(`Opposed`), and then a backslash is outside. -/

def slashes (text : Text) : ℕ := text.count (.byte backslash)

def Clean (text : Text) : Prop := ∀ x ∈ text, ∃ b, x = .byte b ∧ Plain b

@[simp] theorem slashes_nil : slashes [] = 0 := rfl

theorem slashes_append (text text' : Text) : slashes (text ++ text') = slashes text + slashes text' :=
  List.count_append

theorem slashes_append_le (text : Text) (x : Symbol) : slashes (text ++ [x]) ≤ slashes text + 1 := by
  rw [slashes_append]
  exact Nat.add_le_add_left (List.count_le_length (l := [x])) _

theorem slashes_append_plain (text : Text) (hb : b ≠ backslash) :
    slashes (text ++ [.byte b]) = slashes text := by
  rw [slashes_append, slashes, slashes, List.count_eq_zero_of_not_mem (l := [_])]
  · rfl
  · simpa [eq_comm] using hb

theorem clean_nil : Clean [] := nofun

theorem Clean.append_plain {text : Text} (h : Clean text) (hb : Plain b) :
    Clean (text ++ [.byte b]) := by
  intro x hx
  rcases List.mem_append.mp hx with hx | hx
  · exact h x hx
  · exact ⟨b, List.mem_singleton.mp hx, hb⟩

@[simp] theorem clean_spelled {bytes : List UInt8} : Clean (spelled bytes) ↔ PlainKey bytes := by
  simp [Clean, PlainKey, spelled]

@[simp] theorem spelled_append (bytes bytes' : List UInt8) :
    spelled (bytes ++ bytes') = spelled bytes ++ spelled bytes' := List.map_append

@[simp] theorem length_spelled (bytes : List UInt8) : (spelled bytes).length = bytes.length :=
  List.length_map _

theorem spelled_injective : Function.Injective spelled :=
  List.map_injective_iff.mpr fun _ _ h ↦ Symbol.byte.inj h

section

variable (keys : List (List UInt8))

/-- A string the reader may be in between two pasted keys. -/
def Below (text : Text) : Prop := Clean text ∨ ∃ k ∈ keys, slashes text < slashes (spelled k)

/-- A key the reader may have found. -/
def Behind (text : Text) : Prop :=
  Clean text ∨ ∃ k ∈ keys, 0 < slashes (spelled k) ∧ (slashes text < slashes (spelled k) ∨
    slashes text = slashes (spelled k) ∧ text.length < k.length)

/-- Between the keys the reader is outside, or in a string without a pending escape. -/
structure Between (s : State) : Prop where
  behind : ∀ k ∈ s.keys, Behind keys k
  mode : s.mode.Outside ∨ ∃ isKey text, s.mode = .string isKey text .none ∧ Below keys text

/-- What is in a string after a part of a key with `n` backslashes and `l` bytes. -/
structure Taken (n l : ℕ) (text : Text) (escape : Escape) : Prop where
  slashes_le : slashes text + (if escape = .none then 0 else 1) ≤ n
  length_le : text.length + (if escape = .none then 0 else 1) ≤ l
  clean : escape = .none → Clean text ∨ 0 < n ∧ text.length < l

/-- After the part `part` of a key. -/
structure Within (part : List UInt8) (s : State) : Prop where
  behind : ∀ k ∈ s.keys, Behind keys k
  mode : s.mode.Outside ∨ ∃ isKey text escape, s.mode = .string isKey text escape ∧
    Taken (slashes (spelled part)) part.length text escape

variable {keys}

theorem Below.behind {text : Text} (h : Below keys text) : Behind keys text := by
  rcases h with h | ⟨k, hk, hlt⟩
  · exact .inl h
  · exact .inr ⟨k, hk, by omega, .inl hlt⟩

theorem Below.append_plain {text : Text} (h : Below keys text) (hb : Plain b) :
    Below keys (text ++ [.byte b]) := by
  rcases h with h | ⟨k, hk, hlt⟩
  · exact .inl (h.append_plain hb)
  · exact .inr ⟨k, hk, by rwa [slashes_append_plain _ hb.2.1]⟩

theorem below_nil : Below keys [] := .inl clean_nil

theorem Taken.nil {n l : ℕ} : Taken n l [] .none :=
  ⟨Nat.zero_le _, Nat.zero_le _, fun _ ↦ .inl clean_nil⟩

/-- The keys are what they were, or there is one more. -/
theorem behind_of_subset {text : Text} {ks ks' : List Text} (hks : ∀ k ∈ ks, Behind keys k)
    (htext : Behind keys text) (hsub : ks' ⊆ text :: ks) : ∀ k ∈ ks', Behind keys k := by
  intro k hk
  rcases List.mem_cons.mp (hsub hk) with rfl | hk
  · exact htext
  · exact hks k hk

/-! #### Along a value -/

/-- Two readers of one text, one of them in a string where the other one is not. -/
def Opposed (keys : List (List UInt8)) (s t : State) : Prop :=
  s.mode.Outside ∧ (∃ isKey text, t.mode = .string isKey text .none ∧ Below keys text) ∨
    (∃ isKey text, s.mode = .string isKey text .none) ∧ t.mode.Outside

theorem Opposed.step {s s' t t' : State} (h : Opposed keys s t)
    (ht : ∀ k ∈ t.keys, Behind keys k) (hs' : Json.step s b = some s')
    (ht' : Json.step t b = some t') :
    Opposed keys s' t' ∧ ∀ k ∈ t'.keys, Behind keys k := by
  rcases h with ⟨hs, isKey, text, hmode, htext⟩ | ⟨⟨isKey, text, hmode⟩, hout⟩
  · obtain ⟨stack, _⟩ := t
    cases hmode
    by_cases hb : b = quote
    · subst hb
      obtain ⟨isKey', rfl⟩ := step_quote hs hs'
      obtain ⟨hout, hsub⟩ := step_string_quote ht'
      exact ⟨.inr ⟨⟨isKey', [], rfl⟩, hout⟩, behind_of_subset ht htext.behind hsub⟩
    · have hslash : b ≠ backslash := by
        rintro rfl
        rw [step_backslash hs] at hs'
        cases hs'
      have hplain := plain_of_step hb hslash ht'
      rw [step_plain hplain] at ht'
      cases ht'
      exact ⟨.inl ⟨(step_outside hs hb hs').1, isKey, _, rfl, htext.append_plain hplain⟩, ht⟩
  · obtain ⟨stack, _⟩ := s
    cases hmode
    by_cases hb : b = quote
    · subst hb
      obtain ⟨isKey', rfl⟩ := step_quote hout ht'
      exact ⟨.inl ⟨(step_string_quote hs').1, isKey', [], rfl, below_nil⟩, ht⟩
    · have hslash : b ≠ backslash := by
        rintro rfl
        rw [step_backslash hout] at ht'
        cases ht'
      obtain ⟨hout', hsub⟩ := step_outside hout hb ht'
      rw [step_plain (plain_of_step hb hslash hs')] at hs'
      cases hs'
      exact ⟨.inr ⟨⟨isKey, _, rfl⟩, hout'⟩, fun k hk ↦ ht k (hsub hk)⟩

theorem Opposed.run {s s' t t' : State} {bytes : List UInt8} (h : Opposed keys s t)
    (ht : ∀ k ∈ t.keys, Behind keys k) (hs' : Json.run s bytes = some s')
    (ht' : Json.run t bytes = some t') :
    Opposed keys s' t' ∧ ∀ k ∈ t'.keys, Behind keys k := by
  induction bytes generalizing s t with
  | nil =>
    cases hs'
    cases ht'
    exact ⟨h, ht⟩
  | cons b bytes ih =>
    rw [run_cons, Option.bind_eq_some_iff] at hs' ht'
    obtain ⟨s₁, hs₁, hs'⟩ := hs'
    obtain ⟨t₁, ht₁, ht'⟩ := ht'
    obtain ⟨h₁, hkeys⟩ := h.step ht hs₁ ht₁
    exact ih h₁ hkeys hs' ht'

/-- A valid text, read as it was meant or from inside a string. -/
theorem Between.run_value {bytes : List UInt8} (h : Between keys s)
    (hmode : s.mode.Outside → s.mode = .value false) (hvalue : decode bytes = some v)
    (hrun : run s bytes = some s') : Between keys s' := by
  rcases h.mode with hout | ⟨isKey, text, htext, hbelow⟩
  · obtain ⟨stack, _⟩ := s
    cases hmode hout
    obtain ⟨m, hrun', hm⟩ := Json.run_value hvalue stack
    cases hrun.symm.trans hrun'
    exact ⟨h.behind, .inl (Mode.outside_of_result hm)⟩
  · obtain ⟨m, hrun', hm⟩ := decode_eq_some.mp hvalue
    obtain ⟨hopposed, hkeys⟩ := Opposed.run (s := start) (t := s)
      (.inl ⟨trivial, isKey, text, htext, hbelow⟩) h.behind hrun' hrun
    rcases hopposed with ⟨-, hstring⟩ | ⟨⟨isKey', text', hm'⟩, -⟩
    · exact ⟨hkeys, .inr hstring⟩
    · cases hm'
      cases hm

/-! #### Along a key -/

theorem Taken.append_plain {n l : ℕ} {text : Text} (h : Taken n l text .none) (hb : Plain b) :
    Taken n (l + 1) (text ++ [.byte b]) .none where
  slashes_le := by simpa [slashes_append_plain _ hb.2.1] using h.slashes_le
  length_le := by simpa using h.length_le
  clean _ := by
    rcases h.clean rfl with hclean | ⟨hn, hlt⟩
    · exact .inl (hclean.append_plain hb)
    · exact .inr ⟨hn, by simpa using hlt⟩

/-- A backslash is behind before the character it stands for is there. -/
theorem Taken.backslash {n l : ℕ} {text : Text} (h : Taken n l text .none) :
    Taken (n + 1) (l + 1) text .backslash where
  slashes_le := by simpa using h.slashes_le
  length_le := by simpa using h.length_le
  clean := nofun

theorem Taken.pending {n l : ℕ} {text : Text} {escape escape' : Escape} (h : Taken n l text escape)
    (hescape : escape ≠ .none) (hescape' : escape' ≠ .none) : Taken n (l + 1) text escape' where
  slashes_le := by simpa [hescape, hescape'] using h.slashes_le
  length_le := by simpa [hescape, hescape'] using h.length_le.trans (Nat.le_succ l)
  clean hnone := absurd hnone hescape'

theorem Taken.complete {n l : ℕ} {text : Text} {escape : Escape} (h : Taken n l text escape)
    (hescape : escape ≠ .none) (x : Symbol) : Taken n (l + 1) (text ++ [x]) .none := by
  have hslashes := h.slashes_le
  have hlength := h.length_le
  have hle := slashes_append_le text x
  rw [if_neg hescape] at hslashes hlength
  refine ⟨by simpa using hle.trans hslashes, by simp; omega, fun _ ↦ .inr ⟨by omega, ?_⟩⟩
  rw [List.length_append, List.length_singleton]
  omega

theorem Taken.mono {n n' l l' : ℕ} {text : Text} {escape : Escape} (h : Taken n l text escape)
    (hn : n ≤ n') (hl : l ≤ l') : Taken n' l' text escape where
  slashes_le := h.slashes_le.trans hn
  length_le := h.length_le.trans hl
  clean hnone := (h.clean hnone).imp_right fun hlt ↦ ⟨hlt.1.trans_le hn, hlt.2.trans_le hl⟩

/-- What closes in a key is behind that key. -/
theorem Taken.behind {key : List UInt8} (hkey : key ∈ keys) {n l : ℕ} {text : Text}
    (h : Taken n l text .none) (hn : n ≤ slashes (spelled key)) (hl : l ≤ key.length) :
    Behind keys text := by
  have hslashes := h.slashes_le
  simp only [if_true, Nat.add_zero] at hslashes
  rcases h.clean rfl with hclean | ⟨hpos, hlt⟩
  · exact .inl hclean
  · exact .inr ⟨key, hkey, by omega, by omega⟩

theorem Within.step {key part rest : List UInt8} (hkey : key ∈ keys)
    (hpart : key = part ++ b :: rest) (h : Within keys part s) (hs : Json.step s b = some s') :
    Within keys (part ++ [b]) s' := by
  have hn : slashes (spelled part) ≤ slashes (spelled key) := by
    rw [hpart, spelled_append, slashes_append]
    exact Nat.le_add_right _ _
  have hl : part.length ≤ key.length := by simp [hpart]
  have hgrow : slashes (spelled part) ≤ slashes (spelled (part ++ [b])) := by
    rw [spelled_append, slashes_append]
    exact Nat.le_add_right _ _
  have hlength : (part ++ [b]).length = part.length + 1 := by simp
  rcases h.mode with hout | ⟨isKey, text, escape, hmode, htaken⟩
  · by_cases hb : b = quote
    · subst hb
      obtain ⟨isKey, rfl⟩ := step_quote hout hs
      exact ⟨h.behind, .inr ⟨isKey, [], .none, rfl, Taken.nil⟩⟩
    · obtain ⟨hout', hsub⟩ := step_outside hout hb hs
      exact ⟨fun k hk ↦ h.behind k (hsub hk), .inl hout'⟩
  · obtain ⟨stack, _⟩ := s
    cases hmode
    by_cases hescape : escape = .none
    · subst hescape
      by_cases hb : b = quote
      · subst hb
        obtain ⟨hout, hsub⟩ := step_string_quote hs
        exact ⟨behind_of_subset h.behind (htaken.behind hkey hn hl) hsub, .inl hout⟩
      by_cases hslash : b = backslash
      · subst hslash
        cases hs
        refine ⟨h.behind, .inr ⟨isKey, text, .backslash, rfl, ?_⟩⟩
        have hone : slashes (spelled (part ++ [backslash])) = slashes (spelled part) + 1 := by
          rw [spelled_append, slashes_append]
          rfl
        rw [hone, hlength]
        exact htaken.backslash
      · have hplain := plain_of_step hb hslash hs
        rw [step_plain hplain] at hs
        cases hs
        exact ⟨h.behind, .inr ⟨isKey, _, .none, rfl,
          (htaken.append_plain hplain).mono hgrow hlength.ge⟩⟩
    · rcases step_escape hescape hs with ⟨escape', hescape', rfl⟩ | ⟨x, rfl⟩
      · exact ⟨h.behind, .inr ⟨isKey, text, escape', rfl,
          (htaken.pending hescape hescape').mono hgrow hlength.ge⟩⟩
      · exact ⟨h.behind, .inr ⟨isKey, _, .none, rfl,
          (htaken.complete hescape x).mono hgrow hlength.ge⟩⟩

theorem Within.run {key part rest : List UInt8} (hkey : key ∈ keys) (hpart : key = part ++ rest)
    (h : Within keys part s) (hs : Json.run s rest = some s') : Within keys key s' := by
  induction rest generalizing part s with
  | nil =>
    cases hs
    rwa [hpart, List.append_nil]
  | cons b rest ih =>
    rw [run_cons, Option.bind_eq_some_iff] at hs
    obtain ⟨s₁, hs₁, hs⟩ := hs
    exact ih (by rw [hpart, List.append_assoc, List.singleton_append]) (h.step hkey hpart hs₁) hs

/-! #### Along a fragment -/

/-- The quote before a key. -/
theorem Between.quote (h : Between keys s) (hs : Json.step s quote = some s') :
    Within keys [] s' := by
  rcases h.mode with hout | ⟨isKey, text, hmode, hbelow⟩
  · obtain ⟨isKey, rfl⟩ := step_quote hout hs
    exact ⟨h.behind, .inr ⟨isKey, [], .none, rfl, Taken.nil⟩⟩
  · obtain ⟨stack, _⟩ := s
    cases hmode
    obtain ⟨hout, hsub⟩ := step_string_quote hs
    exact ⟨behind_of_subset h.behind hbelow.behind hsub, .inl hout⟩

/-- The quote after a key: a string it does not close has an escape behind it. -/
theorem Within.quote {key : List UInt8} (hkey : key ∈ keys) (h : Within keys key s)
    (hs : Json.step s quote = some s') : Between keys s' := by
  rcases h.mode with hout | ⟨isKey, text, escape, hmode, htaken⟩
  · obtain ⟨isKey, rfl⟩ := step_quote hout hs
    exact ⟨h.behind, .inr ⟨isKey, [], rfl, below_nil⟩⟩
  · obtain ⟨stack, _⟩ := s
    cases hmode
    rcases escape with _ | _ | ⟨count, acc⟩
    · obtain ⟨hout, hsub⟩ := step_string_quote hs
      exact ⟨behind_of_subset h.behind (htaken.behind hkey le_rfl le_rfl) hsub, .inl hout⟩
    · cases hs
      have hslashes := htaken.slashes_le
      rw [if_neg nofun] at hslashes
      refine ⟨h.behind, .inr ⟨isKey, _, rfl, .inr ⟨key, hkey, ?_⟩⟩⟩
      rwa [slashes_append_plain _ (by decide)]
    · cases hs

/-- A comma or a colon between the parts. -/
theorem Between.plain (h : Between keys s) (hb : Plain b) (hs : Json.step s b = some s') :
    Between keys s' := by
  rcases h.mode with hout | ⟨isKey, text, hmode, hbelow⟩
  · obtain ⟨hout', hsub⟩ := step_outside hout hb.1 hs
    exact ⟨fun k hk ↦ h.behind k (hsub hk), .inl hout'⟩
  · obtain ⟨stack, _⟩ := s
    cases hmode
    rw [step_plain hb] at hs
    cases hs
    exact ⟨h.behind, .inr ⟨isKey, _, rfl, hbelow.append_plain hb⟩⟩

theorem Between.colon (h : Between keys s) (hs : Json.step s colon = some s') :
    Between keys s' ∧ (s'.mode.Outside → s'.mode = .value false) := by
  refine ⟨h.plain (by decide) hs, ?_⟩
  rcases h.mode with hout | ⟨isKey, text, hmode, hbelow⟩
  · rw [step_colon hout hs]
    exact fun _ ↦ rfl
  · obtain ⟨stack, _⟩ := s
    cases hmode
    rw [step_plain (by decide)] at hs
    cases hs
    exact False.elim

theorem Between.run_fragment {fragment : Fragment} (h : Between keys s)
    (hkey : fragment.1 ∈ keys) (hvalue : (decode fragment.2).isSome)
    (hs : Json.run s fragment.bytes = some s') : Between keys s' := by
  obtain ⟨v, hvalue⟩ := Option.isSome_iff_exists.mp hvalue
  simp only [Fragment.bytes, List.cons_append, run_cons, run_append,
    Option.bind_eq_some_iff] at hs
  obtain ⟨s₁, hs₁, s₂, hs₂, s₃, hs₃, s₄, hs₄, hs⟩ := hs
  have h₃ := ((h.quote hs₁).run hkey (List.nil_append _).symm hs₂).quote hkey hs₃
  obtain ⟨h₄, hmode⟩ := h₃.colon hs₄
  exact h₄.run_value hmode hvalue hs

theorem Between.run_fragments {fragments : List Fragment} (h : Between keys s)
    (hkeys : ∀ fragment ∈ fragments, fragment.1 ∈ keys ∧ (decode fragment.2).isSome)
    (hs : Json.run s (joined fragments) = some s') : Between keys s' := by
  induction fragments generalizing s with
  | nil =>
    cases hs
    exact h
  | cons fragment fragments ih =>
    obtain ⟨hkey, hvalue⟩ := hkeys fragment List.mem_cons_self
    have hrest : ∀ fragment ∈ fragments, fragment.1 ∈ keys ∧ (decode fragment.2).isSome :=
      fun fragment hfragment ↦ hkeys _ (List.mem_cons_of_mem _ hfragment)
    rcases fragments with _ | ⟨fragment', fragments⟩
    · rw [joined_singleton] at hs
      exact h.run_fragment hkey hvalue hs
    · rw [joined_cons_cons, run_append, Option.bind_eq_some_iff] at hs
      obtain ⟨s₁, hs₁, hs⟩ := hs
      rw [run_cons, Option.bind_eq_some_iff] at hs
      obtain ⟨s₂, hs₂, hs⟩ := hs
      exact ih ((h.run_fragment hkey hvalue hs₁).plain (by decide) hs₂) hrest hs

end

/-- A key of an object pasted together is clean or comes out of a larger key. -/
theorem behind_of_decode_pasted {fragments : List Fragment} {ms : List (Text × Value)}
    (hvalues : ∀ fragment ∈ fragments, (decode fragment.2).isSome)
    (h : decode (pasted fragments) = some (.object ms)) :
    ∀ m ∈ ms, Behind (fragments.map Prod.fst) m.1 := by
  obtain ⟨mode, hrun, hmode⟩ := decode_eq_some.mp h
  have hopen : step start openBrace = some ⟨[.members []], .key true⟩ := rfl
  rw [pasted, List.cons_append, run_cons, hopen, Option.bind_some, run_append,
    Option.bind_eq_some_iff] at hrun
  obtain ⟨s, hs, hclose⟩ := hrun
  rw [run_cons, Option.bind_eq_some_iff] at hclose
  obtain ⟨_, hclose, hnil⟩ := hclose
  cases hnil
  have hbetween : Between (fragments.map Prod.fst) ⟨[.members []], .key true⟩ :=
    ⟨nofun, .inl trivial⟩
  have hs := hbetween.run_fragments
    (fun fragment hfragment ↦ ⟨List.mem_map_of_mem hfragment, hvalues fragment hfragment⟩) hs
  rcases hs.mode with hout | ⟨isKey, text, hstring, -⟩
  · exact fun m hm ↦ hs.behind _ (keys_of_step_closeBrace hout hclose hmode m hm)
  · -- the brace is one more character of the string
    obtain ⟨stack, _⟩ := s
    cases hstring
    rw [step_plain (by decide)] at hclose
    cases hclose
    cases hmode

/-- Only plain keys can all be keys of the object. -/
theorem plainKey_of_decode_pasted {fragments : List Fragment} {ms : List (Text × Value)}
    (hvalues : ∀ fragment ∈ fragments, (decode fragment.2).isSome)
    (h : decode (pasted fragments) = some (.object ms))
    (hkeys : ∀ fragment ∈ fragments, ∃ m ∈ ms, m.1 = spelled fragment.1) :
    ∀ fragment ∈ fragments, PlainKey fragment.1 := by
  have hbehind : ∀ key ∈ fragments.map Prod.fst, Behind (fragments.map Prod.fst) (spelled key) := by
    intro key hkey
    obtain ⟨fragment, hfragment, rfl⟩ := List.mem_map.mp hkey
    obtain ⟨m, hm, hmkey⟩ := hkeys fragment hfragment
    exact hmkey ▸ behind_of_decode_pasted hvalues h m hm
  by_contra! hnot
  obtain ⟨fragment, hfragment, hnot⟩ := hnot
  -- the largest key that is not plain, by its backslashes and then by its length
  let size : List UInt8 → ℕ ×ₗ ℕ := fun key ↦ toLex (slashes (spelled key), key.length)
  let unplain : Finset (List UInt8) := {key ∈ (fragments.map Prod.fst).toFinset | ¬PlainKey key}
  have hunplain : unplain.Nonempty :=
    ⟨fragment.1, by simpa [unplain] using ⟨⟨_, hfragment⟩, hnot⟩⟩
  obtain ⟨key, hkey, hmax⟩ := unplain.exists_max_image size hunplain
  simp only [unplain, Finset.mem_filter, List.mem_toFinset] at hkey hmax
  rcases hbehind key hkey.1 with hclean | ⟨key', hkey', hpos, hlt⟩
  · exact hkey.2 (clean_spelled.mp hclean)
  · have hnot' : ¬PlainKey key' := by
      intro hplain
      obtain ⟨b, hb, hslash⟩ := clean_spelled.mpr hplain _ (List.count_pos_iff.mp hpos)
      exact hslash.2.1 (Symbol.byte.inj hb).symm
    refine absurd (hmax key' ⟨hkey', hnot'⟩) (not_le.mpr ?_)
    rw [Prod.Lex.toLex_lt_toLex]
    simpa using hlt

end Json
