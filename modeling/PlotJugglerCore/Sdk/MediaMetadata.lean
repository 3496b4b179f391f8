import PlotJugglerCore.Lib.Json

/-!
# The metadata of a media topic

`media_metadata.hpp`: `MediaMetadataBuilder` pastes a JSON object together by hand. The three named
keys are kept as strings and written by `build`; every call of `extra` and `extraString` is formatted
at once and appended, with a comma when something is there already.

Values are escaped or are JSON by contract, but the keys of `extra` and `extraString` are pasted as
they are. The text says what the calls meant exactly when these keys consist of characters that stand
for themselves and none of them is a named key that was last given the empty value
(`MediaMetadataBuilder.faithful_iff`).
-/

namespace PlotJuggler

open Json

/-- A byte string with the characters of a literal. -/
def bytesOf (s : String) : List UInt8 := s.toList.map fun c ↦ UInt8.ofNat c.toNat

structure MediaMetadataBuilder where
  mediaClass_ : List UInt8 := []
  encoding_ : List UInt8 := []
  schema_ : List UInt8 := []
  extras_ : List UInt8 := []

namespace MediaMetadataBuilder

/-! ## The builder -/

def kHex : List UInt8 := bytesOf "0123456789abcdef"

/-- One turn of the loop of `appendEscaped`. -/
def escapeByte (c : UInt8) : List UInt8 :=
  if c = quote then [backslash, quote]
  else if c = backslash then [backslash, backslash]
  else if c = 0x08 then [backslash, 0x62]
  else if c = 0x0C then [backslash, 0x66]
  else if c = 0x0A then [backslash, 0x6E]
  else if c = 0x0D then [backslash, 0x72]
  else if c = 0x09 then [backslash, 0x74]
  else if c < 0x20 then
    [backslash, 0x75, 0x30, 0x30, kHex.getD ((c >>> 4) &&& 0xF).toNat 0,
      kHex.getD (c &&& 0xF).toNat 0]
  else [c]

def appendEscaped (out s : List UInt8) : List UInt8 :=
  s.foldl (fun out c ↦ out ++ escapeByte c) out

def mediaClass (b : MediaMetadataBuilder) (v : List UInt8) : MediaMetadataBuilder :=
  { b with mediaClass_ := v }

def encoding (b : MediaMetadataBuilder) (v : List UInt8) : MediaMetadataBuilder :=
  { b with encoding_ := v }

def schema (b : MediaMetadataBuilder) (v : List UInt8) : MediaMetadataBuilder :=
  { b with schema_ := v }

def appendExtra (b : MediaMetadataBuilder) (key value : List UInt8) (quoted : Bool) :
    MediaMetadataBuilder :=
  let extras := if b.extras_ = [] then b.extras_ else b.extras_ ++ [comma]
  let extras := extras ++ [quote] ++ key ++ [quote, colon]
  { b with extras_ :=
      if quoted then appendEscaped (extras ++ [quote]) value ++ [quote] else extras ++ value }

def extra (b : MediaMetadataBuilder) (key valueJson : List UInt8) : MediaMetadataBuilder :=
  b.appendExtra key valueJson false

def extraString (b : MediaMetadataBuilder) (key value : List UInt8) : MediaMetadataBuilder :=
  b.appendExtra key value true

/-- The lambda of `build`, on the text and on whether it is still at its first member. -/
def kvString (out : List UInt8 × Bool) (key value : List UInt8) : List UInt8 × Bool :=
  if value = [] then out
  else
    let text := if out.2 then out.1 else out.1 ++ [comma]
    let text := text ++ [quote] ++ key ++ [quote, colon, quote]
    (appendEscaped text value ++ [quote], false)

def build (b : MediaMetadataBuilder) : List UInt8 :=
  let out := ([openBrace], true)
  let out := kvString out (bytesOf "media_class") b.mediaClass_
  let out := kvString out (bytesOf "encoding") b.encoding_
  let out := kvString out (bytesOf "schema") b.schema_
  let text :=
    if b.extras_ = [] then out.1
    else (if out.2 then out.1 else out.1 ++ [comma]) ++ b.extras_
  text ++ [closeBrace]

inductive Call
  | mediaClass (v : List UInt8)
  | encoding (v : List UInt8)
  | schema (v : List UInt8)
  | extra (key valueJson : List UInt8)
  | extraString (key value : List UInt8)
  deriving DecidableEq, Repr

def call (b : MediaMetadataBuilder) : Call → MediaMetadataBuilder
  | .mediaClass v => b.mediaClass v
  | .encoding v => b.encoding v
  | .schema v => b.schema v
  | .extra key valueJson => b.extra key valueJson
  | .extraString key value => b.extraString key value

def run (calls : List Call) : MediaMetadataBuilder := calls.foldl call {}

/-! ## What the calls mean -/

inductive NamedKey
  | mediaClass | encoding | schema
  deriving DecidableEq, Repr

namespace NamedKey

def bytes : NamedKey → List UInt8
  | mediaClass => bytesOf "media_class"
  | encoding => bytesOf "encoding"
  | schema => bytesOf "schema"

def all : List NamedKey := [mediaClass, encoding, schema]

end NamedKey

namespace Call

/-- The value that a call gives a named key. -/
def given (name : NamedKey) : Call → Option (List UInt8)
  | mediaClass v => if name = .mediaClass then some v else none
  | encoding v => if name = .encoding then some v else none
  | schema v => if name = .schema then some v else none
  | _ => none

def extraKey : Call → Option (List UInt8)
  | extra key _ => some key
  | extraString key _ => some key
  | _ => none

end Call

/-- The last value that the calls give a named key. -/
def lastGiven (name : NamedKey) (calls : List Call) : Option (List UInt8) :=
  (calls.filterMap (Call.given name)).getLast?

def extraKeys (calls : List Call) : List (List UInt8) := calls.filterMap Call.extraKey

/-- What the calls say about a named key: the last value given, nothing if that is empty, and if no
value was given only what an extra key of that name adds. -/
def Names (calls : List Call) (ms : List (Text × Value)) (name : NamedKey) : Prop :=
  match lastGiven name calls with
  | none => (∃ m ∈ ms, m.1 = spelled name.bytes) → name.bytes ∈ extraKeys calls
  | some [] => ∀ m ∈ ms, m.1 ≠ spelled name.bytes
  | some value => (spelled name.bytes, .string (spelled value)) ∈ ms

/-- The text is a JSON object that says what the calls said. -/
def Faithful (calls : List Call) : Prop :=
  ∃ ms, decode (run calls).build = some (.object ms) ∧
    (∀ key value, .extraString key value ∈ calls →
      (spelled key, .string (spelled value)) ∈ ms) ∧
    (∀ key valueJson, .extra key valueJson ∈ calls →
      ∃ v, decode valueJson = some v ∧ (spelled key, v) ∈ ms) ∧
    ∀ name, Names calls ms name

/-- The extra keys can be pasted between quotes, and none is a named key that was emptied. -/
def Separate (calls : List Call) : Prop :=
  (∀ key ∈ extraKeys calls, PlainKey key) ∧
    ∀ name : NamedKey, lastGiven name calls = some [] → name.bytes ∉ extraKeys calls

/-- The contract of `extra`. -/
def ValidExtras (calls : List Call) : Prop :=
  ∀ key valueJson, .extra key valueJson ∈ calls → (decode valueJson).isSome

/-! ## Escaping -/

variable {stack : List Frame} {isKey : Bool} {text : Text}

theorem hexDigit_kHex : ∀ n < 32,
    hexDigit (kHex.getD ((UInt8.ofNat n >>> 4) &&& 0xF).toNat 0) = some (n / 16) ∧
      hexDigit (kHex.getD (UInt8.ofNat n &&& 0xF).toNat 0) = some (n % 16) := by
  decide

/-- An escaped byte is read back as that byte. -/
theorem run_escapeByte (c : UInt8) :
    Json.run ⟨stack, .string isKey text .none⟩ (escapeByte c) =
      some ⟨stack, .string isKey (text ++ [.byte c]) .none⟩ := by
  rw [escapeByte]
  split_ifs with hquote hslash h08 h0C h0A h0D h09 hcontrol
  iterate 7
    subst c
    rfl
  · have hlt : c.toNat < 32 := hcontrol
    obtain ⟨hhigh, hlow⟩ := hexDigit_kHex c.toNat hlt
    rw [UInt8.ofNat_toNat] at hhigh hlow
    have hzero : hexDigit 0x30 = some 0 := rfl
    rw [run_hex hzero hzero hhigh hlow]
    have hunit : 16 * (16 * (16 * 0 + 0) + c.toNat / 16) + c.toNat % 16 = c.toNat := by omega
    rw [hunit, Symbol.ofUnit, if_pos (by omega), UInt8.ofNat_toNat]
  · rw [run_cons, step_plain ⟨hquote, hslash, hcontrol⟩]
    rfl

/-- A string as `appendEscaped` writes it, between its quotes. -/
def quoted (s : List UInt8) : List UInt8 := quote :: appendEscaped [] s ++ [quote]

theorem appendEscaped_eq (out s : List UInt8) : appendEscaped out s = out ++ appendEscaped [] s := by
  have h : ∀ out, appendEscaped out s = out ++ s.flatMap escapeByte := by
    intro out
    induction s generalizing out with
    | nil => simp [appendEscaped]
    | cons c s ih =>
      rw [appendEscaped, List.foldl_cons, ← appendEscaped, ih, List.flatMap_cons, List.append_assoc]
  rw [h, h [], List.nil_append]

theorem run_appendEscaped (s : List UInt8) :
    Json.run ⟨stack, .string isKey text .none⟩ (appendEscaped [] s) =
      some ⟨stack, .string isKey (text ++ spelled s) .none⟩ := by
  induction s generalizing text with
  | nil => simp [appendEscaped, spelled]
  | cons c s ih =>
    rw [appendEscaped, List.foldl_cons, ← appendEscaped, appendEscaped_eq, List.nil_append,
      run_append_of_eq (run_escapeByte c), ih]
    simp [spelled]

theorem decode_quoted (s : List UInt8) : decode (quoted s) = some (.string (spelled s)) := by
  have hopen : step start quote = some ⟨[], .string false [] .none⟩ := rfl
  refine decode_eq_some.mpr ⟨.done (.string (spelled s)), ?_, rfl⟩
  rw [quoted, List.cons_append, run_cons, hopen, Option.bind_some,
    run_append_of_eq (run_appendEscaped s), List.nil_append]
  rfl

/-! ## What is built -/

/-- The member that a call adds. -/
def Call.fragment : Call → Option Fragment
  | .extra key valueJson => some (key, valueJson)
  | .extraString key value => some (key, quoted value)
  | _ => none

def extraFragments (calls : List Call) : List Fragment := calls.filterMap Call.fragment

/-- The member of a named key, if it has a value. -/
def namedFragment (key value : List UInt8) : List Fragment :=
  if value = [] then [] else [(key, quoted value)]

def namedFragments (calls : List Call) : List Fragment :=
  NamedKey.all.flatMap fun name ↦ namedFragment name.bytes ((lastGiven name calls).getD [])

def fragments (calls : List Call) : List Fragment := namedFragments calls ++ extraFragments calls

theorem joined_append_singleton (fs : List Fragment) (f : Fragment) :
    joined (fs ++ [f]) = (if joined fs = [] then joined fs else joined fs ++ [comma]) ++ f.bytes := by
  rcases eq_or_ne fs [] with rfl | hfs
  · simp
  · rw [if_neg (mt joined_eq_nil.mp hfs), joined_append hfs (List.cons_ne_nil _ _),
      joined_singleton, List.append_assoc, List.singleton_append]

theorem appendExtra_eq {b : MediaMetadataBuilder} {fs : List Fragment} (hb : b.extras_ = joined fs)
    (key value : List UInt8) (isString : Bool) :
    b.appendExtra key value isString =
      { b with extras_ := joined (fs ++ [(key, if isString then quoted value else value)]) } := by
  have hbytes : ∀ out : List UInt8, (if isString then
      appendEscaped (out ++ [quote] ++ key ++ [quote, colon] ++ [quote]) value ++ [quote]
      else out ++ [quote] ++ key ++ [quote, colon] ++ value) =
      out ++ Fragment.bytes (key, if isString then quoted value else value) := by
    intro out
    cases isString
    · simp [Fragment.bytes]
    · rw [if_pos rfl, if_pos rfl, appendEscaped_eq]
      simp [Fragment.bytes, quoted]
  simp only [appendExtra, hbytes, hb, joined_append_singleton]

theorem run_append_singleton (calls : List Call) (c : Call) :
    run (calls ++ [c]) = (run calls).call c := by
  rw [run, List.foldl_append]
  rfl

theorem lastGiven_append (name : NamedKey) (calls : List Call) (c : Call) :
    lastGiven name (calls ++ [c]) = (c.given name).or (lastGiven name calls) := by
  rw [lastGiven, List.filterMap_append]
  rcases hc : c.given name with _ | v <;> simp [hc, lastGiven]

theorem extraFragments_append (calls : List Call) (c : Call) :
    extraFragments (calls ++ [c]) = extraFragments calls ++ c.fragment.toList := by
  rw [extraFragments, List.filterMap_append]
  rcases hc : c.fragment with _ | f <;> simp [hc, extraFragments]

/-- The state of the builder in terms of the calls. -/
theorem run_eq (calls : List Call) :
    run calls =
      { mediaClass_ := (lastGiven .mediaClass calls).getD []
        encoding_ := (lastGiven .encoding calls).getD []
        schema_ := (lastGiven .schema calls).getD []
        extras_ := joined (extraFragments calls) } := by
  induction calls using List.reverseRecOn with
  | nil => rfl
  | append_singleton calls c ih =>
    have hextras : (run calls).extras_ = joined (extraFragments calls) := by rw [ih]
    rw [run_append_singleton, extraFragments_append]
    simp only [lastGiven_append]
    rcases c with v | v | v | ⟨key, valueJson⟩ | ⟨key, value⟩
    · simp [call, mediaClass, ih, Call.given, Call.fragment]
    · simp [call, encoding, ih, Call.given, Call.fragment]
    · simp [call, schema, ih, Call.given, Call.fragment]
    · rw [call, extra, appendExtra_eq hextras]
      simp [ih, Call.given, Call.fragment]
    · rw [call, extraString, appendExtra_eq hextras]
      simp [ih, Call.given, Call.fragment]

theorem kvString_eq (fs : List Fragment) (key value : List UInt8) :
    kvString (openBrace :: joined fs, fs.isEmpty) key value =
      (openBrace :: joined (fs ++ namedFragment key value),
        (fs ++ namedFragment key value).isEmpty) := by
  have hbytes : ∀ out : List UInt8,
      appendEscaped (out ++ [quote] ++ key ++ [quote, colon, quote]) value ++ [quote] =
        out ++ Fragment.bytes (key, quoted value) := by
    intro out
    rw [appendEscaped_eq]
    simp [Fragment.bytes, quoted]
  by_cases hvalue : value = []
  · simp [kvString, namedFragment, hvalue]
  · simp only [kvString, namedFragment, if_neg hvalue, hbytes, joined_append_singleton]
    rcases eq_or_ne fs [] with rfl | hfs
    · simp
    · simp [joined_eq_nil, hfs]

/-- The text is the named keys and then the extra ones, pasted together. -/
theorem build_run (calls : List Call) : (run calls).build = pasted (fragments calls) := by
  have hstart : ([openBrace], true) =
      (openBrace :: joined ([] : List Fragment), ([] : List Fragment).isEmpty) := rfl
  have hnamed : namedFragments calls =
      [] ++ namedFragment (bytesOf "media_class") ((lastGiven .mediaClass calls).getD []) ++
        namedFragment (bytesOf "encoding") ((lastGiven .encoding calls).getD []) ++
        namedFragment (bytesOf "schema") ((lastGiven .schema calls).getD []) := by
    simp [namedFragments, NamedKey.all, NamedKey.bytes]
  simp only [build, run_eq, hstart, kvString_eq]
  rw [← hnamed, fragments, pasted]
  congr 1
  split_ifs with hextras hempty
  · rw [joined_eq_nil.mp hextras, List.append_nil]
  · rw [List.isEmpty_iff.mp hempty]
    simp
  · rw [joined_append (by simpa using hempty) (by rwa [joined_eq_nil] at hextras)]
    simp

/-! ## What is read back -/

variable {calls : List Call} {f : Fragment}

theorem NamedKey.plainKey_bytes (name : NamedKey) : PlainKey name.bytes := by
  cases name <;> decide

theorem NamedKey.bytes_injective : Function.Injective NamedKey.bytes := by
  rintro (_ | _ | _) (_ | _ | _) h <;> first | rfl | exact absurd h (by decide +kernel)

theorem NamedKey.mem_all (name : NamedKey) : name ∈ NamedKey.all := by
  cases name <;> decide

theorem mem_namedFragments : f ∈ namedFragments calls ↔
    ∃ name value, lastGiven name calls = some value ∧ value ≠ [] ∧
      f = (name.bytes, quoted value) := by
  rw [namedFragments, List.mem_flatMap]
  constructor
  · rintro ⟨name, -, hf⟩
    rw [namedFragment] at hf
    split_ifs at hf with hvalue
    · cases hf
    · rcases hlast : lastGiven name calls with _ | value
      · exact absurd (by rw [hlast, Option.getD_none]) hvalue
      · rw [hlast, Option.getD_some] at hf hvalue
        exact ⟨name, value, hlast, hvalue, List.mem_singleton.mp hf⟩
  · rintro ⟨name, value, hlast, hvalue, rfl⟩
    refine ⟨name, name.mem_all, ?_⟩
    rw [namedFragment, hlast, Option.getD_some, if_neg hvalue]
    exact List.mem_cons_self

theorem mem_extraFragments : f ∈ extraFragments calls ↔
    .extra f.1 f.2 ∈ calls ∨ ∃ value, .extraString f.1 value ∈ calls ∧ f.2 = quoted value := by
  rw [extraFragments, List.mem_filterMap]
  constructor
  · rintro ⟨c, hc, hf⟩
    rcases c with _ | _ | _ | ⟨key, valueJson⟩ | ⟨key, value⟩ <;> cases hf
    · exact .inl hc
    · exact .inr ⟨value, hc, rfl⟩
  · rintro (hc | ⟨value, hc, hf⟩)
    · exact ⟨_, hc, rfl⟩
    · exact ⟨_, hc, by rw [Call.fragment, ← hf]⟩

theorem mem_extraKeys {key : List UInt8} :
    key ∈ extraKeys calls ↔ ∃ f ∈ extraFragments calls, f.1 = key := by
  have hkey : ∀ c : Call, c.extraKey = c.fragment.map Prod.fst := by
    intro c
    cases c <;> rfl
  simp only [extraKeys, extraFragments, List.mem_filterMap, hkey, Option.map_eq_some_iff]
  tauto

theorem isSome_decode_of_mem (h : ValidExtras calls) (hf : f ∈ fragments calls) :
    (decode f.2).isSome := by
  rcases List.mem_append.mp hf with hf | hf
  · obtain ⟨name, value, -, -, rfl⟩ := mem_namedFragments.mp hf
    rw [decode_quoted, Option.isSome_some]
  · rcases mem_extraFragments.mp hf with hc | ⟨value, -, hvalue⟩
    · exact h _ _ hc
    · rw [hvalue, decode_quoted, Option.isSome_some]

/-- Keys that can be pasted are read back, all of them and nothing else. -/
theorem faithful_of_separate (h : ValidExtras calls) (hsep : Separate calls) : Faithful calls := by
  obtain ⟨ms, hms⟩ := exists_means fun f hf ↦ isSome_decode_of_mem h hf
  have hplain : ∀ f ∈ fragments calls, PlainKey f.1 := by
    intro f hf
    rcases List.mem_append.mp hf with hf | hf
    · obtain ⟨name, value, -, -, rfl⟩ := mem_namedFragments.mp hf
      exact name.plainKey_bytes
    · exact hsep.1 _ (mem_extraKeys.mpr ⟨f, hf, rfl⟩)
  -- a member under a named key is that key's own or an extra one's
  have hnamed : ∀ name : NamedKey, (∃ m ∈ ms, m.1 = spelled name.bytes) →
      (∃ value, lastGiven name calls = some value ∧ value ≠ []) ∨
        name.bytes ∈ extraKeys calls := by
    rintro name ⟨m, hm, hname⟩
    obtain ⟨f, hf, hmeans⟩ := (mem_iff_of_means hms).mp hm
    have hkey : f.1 = name.bytes := spelled_injective (hmeans.1.symm.trans hname)
    rcases List.mem_append.mp hf with hf | hf
    · obtain ⟨name', value, hlast, hvalue, rfl⟩ := mem_namedFragments.mp hf
      exact .inl ⟨value, NamedKey.bytes_injective hkey ▸ hlast, hvalue⟩
    · exact .inr (mem_extraKeys.mpr ⟨f, hf, hkey⟩)
  refine ⟨ms, build_run calls ▸ decode_pasted hms hplain, ?_, ?_, ?_⟩
  · intro key value hc
    refine (mem_iff_of_means hms).mpr ⟨(key, quoted value), ?_, rfl, decode_quoted value⟩
    exact List.mem_append_right _ (mem_extraFragments.mpr (.inr ⟨value, hc, rfl⟩))
  · intro key valueJson hc
    obtain ⟨v, hv⟩ := Option.isSome_iff_exists.mp (h key valueJson hc)
    refine ⟨v, hv, (mem_iff_of_means hms).mpr ⟨(key, valueJson), ?_, rfl, hv⟩⟩
    exact List.mem_append_right _ (mem_extraFragments.mpr (.inl hc))
  · intro name
    rw [Names]
    rcases hlast : lastGiven name calls with _ | _ | ⟨c, value⟩
    · intro hex
      refine (hnamed name hex).resolve_left ?_
      rintro ⟨value, hsome, -⟩
      exact absurd (hlast.symm.trans hsome) nofun
    · intro m hm hname
      rcases hnamed name ⟨m, hm, hname⟩ with ⟨value, hsome, hvalue⟩ | hextra
      · exact hvalue (Option.some.inj (hlast.symm.trans hsome)).symm
      · exact hsep.2 name hlast hextra
    · refine (mem_iff_of_means hms).mpr ⟨(name.bytes, quoted (c :: value)), ?_, rfl,
        decode_quoted (c :: value)⟩
      exact List.mem_append_left _ (mem_namedFragments.mpr ⟨name, _, hlast, nofun, rfl⟩)

theorem separate_of_faithful (h : ValidExtras calls) (hfaithful : Faithful calls) :
    Separate calls := by
  obtain ⟨ms, hdecode, hstrings, hextras, hnames⟩ := hfaithful
  have hmem : ∀ f ∈ extraFragments calls, ∃ m ∈ ms, m.1 = spelled f.1 := by
    intro f hf
    rcases mem_extraFragments.mp hf with hc | ⟨value, hc, -⟩
    · obtain ⟨v, -, hm⟩ := hextras _ _ hc
      exact ⟨_, hm, rfl⟩
    · exact ⟨_, hstrings _ _ hc, rfl⟩
  rw [build_run] at hdecode
  have hplain : ∀ f ∈ fragments calls, PlainKey f.1 := by
    refine plainKey_of_decode_pasted (fun f hf ↦ isSome_decode_of_mem h hf) hdecode fun f hf ↦ ?_
    rcases List.mem_append.mp hf with hf | hf
    · obtain ⟨name, value, hlast, hvalue, rfl⟩ := mem_namedFragments.mp hf
      have hname := hnames name
      rw [Names, hlast] at hname
      rcases value with _ | ⟨c, value⟩
      · exact absurd rfl hvalue
      · exact ⟨_, hname, rfl⟩
    · exact hmem f hf
  refine ⟨fun key hkey ↦ ?_, fun name hlast hkey ↦ ?_⟩
  · obtain ⟨f, hf, rfl⟩ := mem_extraKeys.mp hkey
    exact hplain f (List.mem_append_right _ hf)
  · obtain ⟨f, hf, hname⟩ := mem_extraKeys.mp hkey
    obtain ⟨m, hm, hmkey⟩ := hmem f hf
    have hnone := hnames name
    rw [Names, hlast] at hnone
    exact hnone m hm (hmkey.trans (congrArg spelled hname))

/-- The text is a JSON object that says what the calls said exactly when every extra key consists of
characters that stand for themselves and no extra key is a named key that was emptied. -/
theorem faithful_iff (calls : List Call) (h : ValidExtras calls) :
    Faithful calls ↔ Separate calls :=
  ⟨separate_of_faithful h, faithful_of_separate h⟩

/-- A class, an escaped description and a rate. -/
def cameraCalls : List Call :=
  [.mediaClass (bytesOf "image"), .extraString (bytesOf "note") [0x22, 0x5C, 0x0A, 0x01, 0xC3],
    .extra (bytesOf "fps") (bytesOf "[30, 2.5e1]")]

theorem faithful_iff_cameraCalls :
    ValidExtras cameraCalls ∧ (Faithful cameraCalls ↔ Separate cameraCalls) := by
  have hvalid : ValidExtras cameraCalls := by
    intro key valueJson hc
    simp only [cameraCalls, List.mem_cons, List.not_mem_nil, or_false, reduceCtorEq, false_or,
      Call.extra.injEq] at hc
    rw [hc.2]
    decide +kernel
  exact ⟨hvalid, faithful_iff _ hvalid⟩

/-- A quote in a key ends the key early. -/
theorem not_faithful_quoted_key :
    ValidExtras [.extraString [quote] []] ∧ ¬Faithful [.extraString [quote] []] := by
  refine ⟨nofun, ?_⟩
  rintro ⟨ms, hdecode, -⟩
  have hnone : (decode (run [.extraString [quote] []]).build).isNone := by decide +kernel
  rw [hdecode] at hnone
  cases hnone

end MediaMetadataBuilder

end PlotJuggler
