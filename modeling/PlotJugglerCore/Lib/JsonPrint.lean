import PlotJugglerCore.Lib.Json

/-!
# Writing JSON texts

The other direction of the machine: every value has a text, without any space in it, and the machine
reads it back (`decode_print`). In a string a quote and a backslash get a backslash, control
characters and code units are spelled in hexadecimal, and all other bytes stand for themselves. A
number is written as it is spelled, which asks for a spelling that is a number.

No valid text has a zero byte in it, so a text survives being handed on as a zero-terminated string.
-/

namespace Json

/-! ## Strings -/

def hexOf (d : ℕ) : UInt8 := if d < 10 then UInt8.ofNat (0x30 + d) else UInt8.ofNat (0x57 + d)

theorem hexDigit_hexOf : ∀ d < 16, hexDigit (hexOf d) = some d := by decide

/-- `\u` and four digits. -/
def unicode (u : ℕ) : List UInt8 :=
  [backslash, 0x75, hexOf (u / 4096), hexOf (u / 256 % 16), hexOf (u / 16 % 16), hexOf (u % 16)]

def Symbol.print : Symbol → List UInt8
  | .byte b =>
    if b = quote ∨ b = backslash then [backslash, b]
    else if b < 0x20 then unicode b.toNat
    else [b]
  | .unit u => unicode u

/-- The code units that an escape can name and that are not bytes. -/
def Symbol.Printable : Symbol → Prop
  | .byte _ => True
  | .unit u => 0x80 ≤ u ∧ u < 2 ^ 16

def printText (text : Text) : List UInt8 := text.flatMap Symbol.print

def quoted (text : Text) : List UInt8 := quote :: printText text ++ [quote]

variable {stack : List Frame} {isKey : Bool} {text text' : Text} {x : Symbol} {u : ℕ}

theorem run_unicode (hu : u < 2 ^ 16) : run ⟨stack, .string isKey text .none⟩ (unicode u) =
    some ⟨stack, .string isKey (text ++ [.ofUnit u]) .none⟩ := by
  have hvalue : 16 * (16 * (16 * (u / 4096) + u / 256 % 16) + u / 16 % 16) + u % 16 = u := by omega
  rw [unicode, run_hex (hexDigit_hexOf _ (by omega)) (hexDigit_hexOf _ (by omega))
    (hexDigit_hexOf _ (by omega)) (hexDigit_hexOf _ (by omega)), hvalue]

theorem run_symbol (hx : x.Printable) : run ⟨stack, .string isKey text .none⟩ x.print =
    some ⟨stack, .string isKey (text ++ [x]) .none⟩ := by
  rcases x with b | u <;> rw [Symbol.print]
  · split_ifs with hslash hcontrol
    · rcases hslash with rfl | rfl <;> rfl
    · have hlt : b.toNat < 0x20 := hcontrol
      rw [run_unicode (by omega), Symbol.ofUnit, if_pos (by omega), UInt8.ofNat_toNat]
    · rw [not_or] at hslash
      rw [run_cons, step_plain ⟨hslash.1, hslash.2, hcontrol⟩, Option.bind_some, run_nil]
  · rw [run_unicode hx.2, Symbol.ofUnit, if_neg (not_lt.mpr hx.1)]

theorem run_printText (h : ∀ x ∈ text', x.Printable) :
    run ⟨stack, .string isKey text .none⟩ (printText text') =
      some ⟨stack, .string isKey (text ++ text') .none⟩ := by
  induction text' generalizing text with
  | nil => rw [printText, List.flatMap_nil, run_nil, List.append_nil]
  | cons x text' ih =>
    rw [List.forall_mem_cons] at h
    rw [printText, List.flatMap_cons, run_append_of_eq (run_symbol h.1)]
    exact (ih h.2).trans (by rw [List.append_assoc, List.singleton_append])

/-! ## Numbers -/

/-- What is behind a minus sign, if there is one. -/
def unsigned (lexeme : List UInt8) : List UInt8 :=
  if lexeme.head? = some 0x2D then lexeme.tail else lexeme

/-- A spelling of a number: the digits behind the sign are read to an end. -/
def Lexeme (lexeme : List UInt8) : Prop :=
  ∃ st, (unsigned lexeme).foldlM Numeral.next .minus = some st ∧ st.accepts

variable {lexeme rest : List UInt8} {st st' : Numeral} {b : UInt8}

theorem run_numeral (h : rest.foldlM Numeral.next st = some st') :
    run ⟨stack, .number lexeme st⟩ rest = some ⟨stack, .number (lexeme ++ rest) st'⟩ := by
  induction rest generalizing lexeme st with
  | nil => simpa using h
  | cons b rest ih =>
    rw [List.foldlM_cons, Option.bind_eq_bind, Option.bind_eq_some_iff] at h
    obtain ⟨st₁, hnext, hrest⟩ := h
    have hstep : step ⟨stack, .number lexeme st⟩ b = some ⟨stack, .number (lexeme ++ [b]) st₁⟩ := by
      simp only [step, hnext]
    rw [run_cons, hstep, Option.bind_some, ih hrest, List.append_assoc, List.singleton_append]

theorem step_value_of_opening {first : Bool} {frames : List Frame} {m : Mode}
    (h : opening b = some (frames, m)) :
    step ⟨stack, .value first⟩ b = some ⟨frames ++ stack, m⟩ := by
  have hspace : isSpace b = false := by
    by_contra hb
    simp only [isSpace, Bool.not_eq_false, Bool.or_eq_true, decide_eq_true_eq] at hb
    rcases hb with ((rfl | rfl) | rfl) | rfl <;> cases h
  simp only [step, hspace, startValue, h, Bool.false_eq_true, if_false]

/-- A digit opens a number as it goes on behind a sign. -/
theorem opening_of_next (h : Numeral.minus.next b = some st) :
    opening b = some ([], .number [b] st) := by
  rw [Numeral.next] at h
  split_ifs at h with hzero hdigit
  · rw [← Option.some.inj h, hzero]
    rfl
  · rw [← Option.some.inj h, opening]
    have hrange : 0x30 ≤ b.toNat ∧ b.toNat ≤ 0x39 := by
      simpa [isDigit, UInt8.le_iff_toNat_le] using hdigit
    have hne : ∀ c : UInt8, ¬(0x30 ≤ c.toNat ∧ c.toNat ≤ 0x39) → b ≠ c := by
      rintro c hc rfl
      exact hc hrange
    rw [if_neg (hne quote (by decide)), if_neg (hne openBrace (by decide)),
      if_neg (hne openBracket (by decide)), if_neg (hne 0x2D (by decide)), if_neg hzero,
      if_pos hdigit]

theorem run_lexeme (h : Lexeme lexeme) (stack : List Frame) (first : Bool) :
    ∃ m, run ⟨stack, .value first⟩ lexeme = some ⟨stack, m⟩ ∧
      m.result = some (.number lexeme) := by
  obtain ⟨st, hrun, hst⟩ := h
  rcases lexeme with _ | ⟨b, rest⟩
  · cases hrun
    cases hst
  refine ⟨.number (b :: rest) st, ?_, if_pos hst⟩
  rw [unsigned, List.head?_cons, List.tail_cons] at hrun
  split_ifs at hrun with hminus
  · rw [Option.some.inj hminus, run_cons, step_value_of_opening (m := .number [0x2D] .minus) rfl]
    exact run_numeral hrun
  · rw [List.foldlM_cons, Option.bind_eq_bind, Option.bind_eq_some_iff] at hrun
    obtain ⟨st₁, hnext, hrest⟩ := hrun
    rw [run_cons, step_value_of_opening (opening_of_next hnext)]
    exact run_numeral hrest

/-! ## Values -/

mutual

def Value.print : Value → List UInt8
  | .null => Word.null.bytes
  | .bool b => if b then Word.true.bytes else Word.false.bytes
  | .number lexeme => lexeme
  | .string text => quoted text
  | .array vs => openBracket :: (printItems vs).tail ++ [closeBracket]
  | .object ms => openBrace :: (printMembers ms).tail ++ [closeBrace]

/-- A comma before every item, of which an array leaves out the first. -/
def printItems : List Value → List UInt8
  | [] => []
  | v :: vs => comma :: v.print ++ printItems vs

def printMembers : List (Text × Value) → List UInt8
  | [] => []
  | (key, v) :: ms => comma :: (quoted key ++ colon :: v.print) ++ printMembers ms

end

/-- The values that have a text. -/
inductive Value.Printable : Value → Prop
  | null : Printable .null
  | bool (b : Bool) : Printable (.bool b)
  | number {lexeme : List UInt8} (h : Lexeme lexeme) : Printable (.number lexeme)
  | string {text : Text} (h : ∀ x ∈ text, x.Printable) : Printable (.string text)
  | array {vs : List Value} (h : ∀ v ∈ vs, Printable v) : Printable (.array vs)
  | object {ms : List (Text × Value)} (hkeys : ∀ m ∈ ms, ∀ x ∈ m.1, x.Printable)
      (h : ∀ m ∈ ms, Printable m.2) : Printable (.object ms)

/-- A text of the value, wherever a value is due. -/
def Value.Reads (v : Value) : Prop := ∀ (stack : List Frame) (first : Bool),
  ∃ m, run ⟨stack, .value first⟩ v.print = some ⟨stack, m⟩ ∧ m.result = some v

variable {v : Value} {vs us : List Value} {key : Text} {ms us' : List (Text × Value)} {m : Mode}

theorem Word.run_bytes (w : Word) (stack : List Frame) (first : Bool) :
    run ⟨stack, .value first⟩ w.bytes = some ⟨stack, .done w.value⟩ := by
  cases w <;> rfl

theorem run_quoted (h : ∀ x ∈ text, x.Printable) (s : State)
    (hopen : step s quote = some ⟨stack, .string isKey [] .none⟩) :
    run s (quoted text) = closeString stack isKey text := by
  have hclose : step ⟨stack, .string isKey text .none⟩ quote = closeString stack isKey text := rfl
  rw [quoted, List.cons_append, run_cons, hopen, Option.bind_some,
    run_append_of_eq (run_printText h), List.nil_append, run_cons, hclose]
  exact Option.bind_fun_some _

theorem run_member (hkey : ∀ x ∈ key, x.Printable) {first : Bool} {s : State}
    (hrun : run ⟨.member us' key :: stack, .value false⟩ v.print = some s) :
    run ⟨.members us' :: stack, .key first⟩ (quoted key ++ colon :: v.print) = some s := by
  have hcolon : step ⟨.member us' key :: stack, .colon⟩ colon =
    some ⟨.member us' key :: stack, .value false⟩ := rfl
  have hclose : closeString (.members us' :: stack) true key =
    some ⟨.member us' key :: stack, .colon⟩ := rfl
  rw [run_append, run_quoted hkey _ rfl, hclose, Option.bind_some, run_cons, hcolon,
    Option.bind_some, hrun]

theorem run_printItems (h : ∀ v ∈ vs, v.Reads) (hm : m.result = some v) :
    run ⟨.items us :: stack, m⟩ (printItems vs ++ [closeBracket]) =
      some ⟨stack, .done (.array (us ++ v :: vs))⟩ := by
  induction vs generalizing us v m with
  | nil =>
    rw [printItems, List.nil_append, run_cons, step_of_result hm (by decide)]
    rfl
  | cons w vs ih =>
    rw [List.forall_mem_cons] at h
    obtain ⟨m', hrun, hm'⟩ := h.1 (.items (us ++ [v]) :: stack) false
    have hcomma : afterValue (.items us :: stack) v comma =
      some ⟨.items (us ++ [v]) :: stack, .value false⟩ := rfl
    rw [printItems, List.cons_append, List.cons_append, run_cons, step_of_result hm (by decide),
      hcomma, Option.bind_some, List.append_assoc, run_append_of_eq hrun, ih h.2 hm',
      List.append_assoc, List.singleton_append]

theorem run_printMembers (hkeys : ∀ m ∈ ms, ∀ x ∈ m.1, x.Printable) (h : ∀ m ∈ ms, m.2.Reads)
    (hm : m.result = some v) :
    run ⟨.member us' key :: stack, m⟩ (printMembers ms ++ [closeBrace]) =
      some ⟨stack, .done (.object (us' ++ (key, v) :: ms))⟩ := by
  induction ms generalizing us' key v m with
  | nil =>
    rw [printMembers, List.nil_append, run_cons, step_of_result hm (by decide)]
    rfl
  | cons member ms ih =>
    obtain ⟨key', w⟩ := member
    rw [List.forall_mem_cons] at hkeys h
    obtain ⟨m', hrun, hm'⟩ := h.1 (.member (us' ++ [(key, v)]) key' :: stack) false
    have hcomma : afterValue (.member us' key :: stack) v comma =
      some ⟨.members (us' ++ [(key, v)]) :: stack, .key false⟩ := rfl
    rw [printMembers, List.cons_append, List.cons_append, run_cons, step_of_result hm (by decide),
      hcomma, Option.bind_some, List.append_assoc, run_append_of_eq (run_member hkeys.1 hrun),
      ih hkeys.2 h.2 hm', List.append_assoc, List.singleton_append]

theorem Value.Printable.reads (h : v.Printable) : v.Reads := by
  induction h with
  | null => exact fun stack first ↦ ⟨_, Word.null.run_bytes stack first, rfl⟩
  | bool b =>
    cases b
    · exact fun stack first ↦ ⟨_, Word.false.run_bytes stack first, rfl⟩
    · exact fun stack first ↦ ⟨_, Word.true.run_bytes stack first, rfl⟩
  | number h => exact run_lexeme h
  | string h => exact fun stack first ↦ ⟨_, run_quoted h ⟨stack, .value first⟩ rfl, rfl⟩
  | @array vs h ih =>
    intro stack first
    refine ⟨.done (.array vs), ?_, rfl⟩
    rcases vs with _ | ⟨v, vs⟩
    · rfl
    · rw [List.forall_mem_cons] at ih
      have hopen : step ⟨stack, .value first⟩ openBracket = some ⟨.items [] :: stack, .value true⟩ :=
        rfl
      obtain ⟨m, hrun, hm⟩ := ih.1 (.items [] :: stack) true
      rw [Value.print, printItems, List.cons_append, List.cons_append, List.tail_cons, run_cons,
        hopen, Option.bind_some, List.append_assoc, run_append_of_eq hrun,
        run_printItems ih.2 hm, List.nil_append]
  | @object ms hkeys h ih =>
    intro stack first
    refine ⟨.done (.object ms), ?_, rfl⟩
    rcases ms with _ | ⟨⟨key, v⟩, ms⟩
    · rfl
    · rw [List.forall_mem_cons] at hkeys ih
      have hopen : step ⟨stack, .value first⟩ openBrace = some ⟨.members [] :: stack, .key true⟩ :=
        rfl
      obtain ⟨m, hrun, hm⟩ := ih.1 (.member [] key :: stack) false
      rw [Value.print, printMembers, List.cons_append, List.cons_append, List.tail_cons, run_cons,
        hopen, Option.bind_some, List.append_assoc, run_append_of_eq (run_member hkeys.1 hrun),
        run_printMembers hkeys.2 ih.2 hm, List.nil_append]

/-- What is written is read. -/
theorem decode_print (h : v.Printable) : decode v.print = some v := by
  obtain ⟨m, hrun, hm⟩ := h.reads [] false
  exact decode_eq_some.mpr ⟨m, hrun, hm⟩

/-! ## Zero bytes -/

theorem afterValue_zero : afterValue stack v 0 = none := by
  rcases stack with _ | ⟨_ | _ | _, stack⟩ <;> rfl

theorem step_zero (s : State) : step s 0 = none := by
  obtain ⟨stack, mode⟩ := s
  rcases mode with first | first | _ | ⟨isKey, text, escape⟩ | ⟨lexeme, st⟩ | ⟨w, count⟩ | v
  · rcases stack with _ | ⟨_ | _ | _, stack⟩ <;> cases first <;> rfl
  · rcases stack with _ | ⟨_ | _ | _, stack⟩ <;> cases first <;> rfl
  · rfl
  · rcases escape with _ | _ | _ <;> rfl
  · have hnext : st.next 0 = none := by cases st <;> rfl
    simp only [step, hnext, afterValue_zero, ite_self]
  · have hbyte : w.bytes[count]? ≠ some 0 := by
      intro h
      have hmem := List.mem_of_getElem? h
      cases w <;> revert hmem <;> decide
    simp only [step, if_neg hbyte]
  · exact afterValue_zero

theorem zero_notMem_of_run {s s' : State} {bytes : List UInt8} (h : run s bytes = some s') :
    0 ∉ bytes := by
  induction bytes generalizing s with
  | nil => exact List.not_mem_nil
  | cons b bytes ih =>
    rw [run_cons, Option.bind_eq_some_iff] at h
    obtain ⟨s₁, hstep, hrun⟩ := h
    rw [List.mem_cons, not_or]
    refine ⟨?_, ih hrun⟩
    rintro rfl
    rw [step_zero] at hstep
    cases hstep

/-- A valid text has no zero byte in it. -/
theorem zero_notMem_of_decode {bytes : List UInt8} (h : decode bytes = some v) : 0 ∉ bytes := by
  obtain ⟨m, hrun, -⟩ := decode_eq_some.mp h
  exact zero_notMem_of_run hrun

end Json
