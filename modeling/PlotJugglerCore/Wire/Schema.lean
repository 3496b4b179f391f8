import PlotJugglerCore.Wire.RoundTrip

/-!
# Schemas and unknown fields

A `WireSchema` names the message types of a format, the numbers each defines and what stands under
them. It says nothing about any code. `WellFormed` is what a message of a type may look like: it
splits into fields, the ones it defines have their shape, and the ones it does not define are of a
wire type that is passed over. Inserting an unknown field, at whatever depth, leaves a message well
formed.

The decoders are connected to the schema by two facts about their loop body, `FieldBody.Follows`: it
takes every field that the type may carry, and an unknown field means nothing to it. They carry over
from the readers to the bodies, from the bodies to the decoders, and through nested messages to the
readers of the next level, so a decoder follows its schema by looking at its table.
-/

namespace PlotJuggler

open LittleEndian

variable {M σ τ α ε : Type}

/-! ## Reading from a longer buffer -/

theorem readVarintFrom_append_right {n shift out : ℕ} {r r' : Reader} {v : ℕ} (rest : Reader)
    (h : readVarintFrom n shift out r = (some v, r')) :
    readVarintFrom n shift out (r ++ rest) = (some v, r' ++ rest) := by
  induction n generalizing shift out r with
  | zero => simp [readVarintFrom] at h
  | succ n ih =>
    cases r with
    | nil => simp [readVarintFrom] at h
    | cons b r =>
      rw [readVarintFrom] at h
      rw [List.cons_append, readVarintFrom]
      split_ifs at h ⊢ with h₁ h₂
      · simp at h
      · simp only [Prod.mk.injEq] at h
        rw [h.1, h.2]
      · exact ih h

theorem readVarint_append_right {r r' : Reader} {v : ℕ} (rest : Reader)
    (h : readVarint r = (some v, r')) : readVarint (r ++ rest) = (some v, r' ++ rest) :=
  readVarintFrom_append_right rest h

theorem readTag_append_right {r r' : Reader} {tag : Tag} (rest : Reader)
    (h : readTag r = (some tag, r')) : readTag (r ++ rest) = (some tag, r' ++ rest) := by
  rw [readTag] at h
  rcases hv : readVarint r with ⟨v, r₁⟩
  cases v with
  | none => simp [hv] at h
  | some raw =>
    rw [readTag, readVarint_append_right rest hv]
    simp only [hv] at h ⊢
    split_ifs at h ⊢ with hraw
    · simp at h
    · simp only [Prod.mk.injEq] at h
      rw [h.1, h.2]

theorem readBytes_append_right {r r' : Reader} {data : List UInt8} (rest : Reader)
    (h : readBytes r = (some data, r')) : readBytes (r ++ rest) = (some data, r' ++ rest) := by
  rw [readBytes] at h
  rcases hv : readVarint r with ⟨v, r₁⟩
  cases v with
  | none => simp [hv] at h
  | some len =>
    simp only [hv] at h
    split_ifs at h with hlen
    · simp at h
    · simp only [Prod.mk.injEq, Option.some.injEq] at h
      rw [readBytes, readVarint_append_right rest hv]
      simp only [List.length_append]
      rw [if_neg (by omega), List.take_append_of_le_length (by omega),
        List.drop_append_of_le_length (by omega), h.1, h.2]

theorem readPayload_append_right {type : WireType} {r r' : Reader} {p : Payload} (rest : Reader)
    (h : readPayload type r = some (p, r')) :
    readPayload type (r ++ rest) = some (p, r' ++ rest) := by
  cases type with
  | varint =>
    simp only [readPayload, Option.map_eq_some_iff, Prod.mk.injEq] at h
    obtain ⟨v, hv, rfl, rfl⟩ := h
    rw [readPayload, readVarint_append_right rest (Prod.ext hv rfl)]
    rfl
  | fixed64 =>
    simp only [readPayload, readFixed64] at h ⊢
    split_ifs at h with hlen
    · simp at h
    · rw [List.length_append, if_neg (by omega), List.take_append_of_le_length (by omega),
        List.drop_append_of_le_length (by omega)]
      simp only [Option.map_some, Option.some.injEq, Prod.mk.injEq] at h ⊢
      exact ⟨h.1, by rw [h.2]⟩
  | lengthDelimited =>
    simp only [readPayload, Option.map_eq_some_iff, Prod.mk.injEq] at h
    obtain ⟨v, hv, rfl, rfl⟩ := h
    rw [readPayload, readBytes_append_right rest (Prod.ext hv rfl)]
    rfl
  | fixed32 =>
    simp only [readPayload, readFixed32] at h ⊢
    split_ifs at h with hlen
    · simp at h
    · rw [List.length_append, if_neg (by omega), List.take_append_of_le_length (by omega),
        List.drop_append_of_le_length (by omega)]
      simp only [Option.map_some, Option.some.injEq, Prod.mk.injEq] at h ⊢
      exact ⟨h.1, by rw [h.2]⟩
  | invalid => simp [readPayload] at h

/-! ## Splitting what is put together -/

theorem readPayload_length_le {type : WireType} {r r' : Reader} {p : Payload}
    (h : readPayload type r = some (p, r')) : r'.length ≤ r.length := by
  have hskip := (skip_eq type r).2 p r' h
  rw [← hskip]
  exact (skip_suffix type r).length_le

/-- More fuel than bytes changes nothing. -/
theorem splitFieldsFrom_eq_of_le {n m : ℕ} {r : Reader} (hn : r.length ≤ n) (hm : r.length ≤ m) :
    splitFieldsFrom n r = splitFieldsFrom m r := by
  induction n generalizing m r with
  | zero =>
    obtain rfl : r = [] := List.eq_nil_of_length_eq_zero (Nat.le_zero.mp hn)
    rw [splitFieldsFrom_nil, splitFieldsFrom_nil]
  | succ n ih =>
    cases r with
    | nil => rw [splitFieldsFrom_nil, splitFieldsFrom_nil]
    | cons b r =>
      cases m with
      | zero => simp at hm
      | succ m =>
        rw [splitFieldsFrom, splitFieldsFrom]
        split
        · rfl
        · rename_i tag r₁ htag
          have hlt : r₁.length < (b :: r).length := readTag_length_lt htag
          split
          · rfl
          · rename_i p r₂ hp
            have hle := readPayload_length_le hp
            rw [ih (m := m) (by omega) (by omega)]

@[simp] theorem splitFields_nil : splitFields [] = some [] := rfl

/-- The first field of a byte string, and the rest of it. -/
theorem splitFields_of_readTag {r r₁ r₂ : Reader} {tag : Tag} {p : Payload}
    (htag : readTag r = (some tag, r₁)) (hp : readPayload tag.type r₁ = some (p, r₂)) :
    splitFields r = (splitFields r₂).map ((tag, p) :: ·) := by
  have hlt : r₁.length < r.length := readTag_length_lt htag
  have hle := readPayload_length_le hp
  obtain ⟨n, hn⟩ : ∃ n, r.length = n + 1 := Nat.exists_eq_succ_of_ne_zero (by omega)
  rw [splitFields, hn, splitFieldsFrom_succ_of_readTag htag hp, splitFields,
    splitFieldsFrom_eq_of_le (n := n) (m := r₂.length) (by omega) (le_refl _)]

/-- A byte string that splits is empty, or a field followed by a byte string that splits. -/
theorem splitFields_cases {r : Reader} {fields : List (Tag × Payload)}
    (h : splitFields r = some fields) :
    (r = [] ∧ fields = []) ∨ ∃ tag p r₁ r₂ rest, readTag r = (some tag, r₁) ∧
      readPayload tag.type r₁ = some (p, r₂) ∧ splitFields r₂ = some rest ∧
      fields = (tag, p) :: rest := by
  cases r with
  | nil =>
    rw [splitFields_nil, Option.some.injEq] at h
    exact .inl ⟨rfl, h.symm⟩
  | cons b r =>
    right
    rcases htag : readTag (b :: r) with ⟨t, r₁⟩
    cases t with
    | none => simp [splitFields, splitFieldsFrom, htag] at h
    | some tag =>
      cases hp : readPayload tag.type r₁ with
      | none => simp [splitFields, splitFieldsFrom, htag, hp] at h
      | some next =>
        obtain ⟨p, r₂⟩ := next
        rw [splitFields_of_readTag htag hp, Option.map_eq_some_iff] at h
        obtain ⟨rest, hrest, rfl⟩ := h
        exact ⟨tag, p, r₁, r₂, rest, rfl, hp, hrest, rfl⟩

/-- What stands behind a byte string that splits is split on its own. -/
theorem splitFields_append {a : Reader} {l : List (Tag × Payload)} (h : splitFields a = some l)
    (rest : Reader) : splitFields (a ++ rest) = (splitFields rest).map (l ++ ·) := by
  induction l generalizing a with
  | nil =>
    rcases splitFields_cases h with ⟨rfl, -⟩ | ⟨_, _, _, _, _, _, _, _, hnil⟩
    · simp
    · exact absurd hnil (by simp)
  | cons f l ih =>
    rcases splitFields_cases h with ⟨-, hnil⟩ | ⟨tag, p, r₁, r₂, l', htag, hp, hl, heq⟩
    · exact absurd hnil (by simp)
    · obtain ⟨rfl, rfl⟩ := List.cons.inj heq
      rw [splitFields_of_readTag (readTag_append_right rest htag) (readPayload_append_right rest hp),
        ih hl, Option.map_map]
      rfl

theorem splitFields_append_eq_some {a rest : Reader} {l l' : List (Tag × Payload)}
    (ha : splitFields a = some l) (hrest : splitFields rest = some l') :
    splitFields (a ++ rest) = some (l ++ l') := by
  rw [splitFields_append ha, hrest, Option.map_some]

/-- The wire type a payload is complete for. -/
def Payload.type : Payload → WireType
  | .varint _ => .varint
  | .fixed64 _ => .fixed64
  | .lengthDelimited _ => .lengthDelimited
  | .fixed32 _ => .fixed32

theorem Payload.type_eq {type : WireType} {r r' : Reader} {p : Payload}
    (h : readPayload type r = some (p, r')) : type = p.type := by
  cases type with
  | invalid => simp [readPayload] at h
  | varint | fixed64 | lengthDelimited | fixed32 =>
    simp only [readPayload, Option.map_eq_some_iff, Prod.mk.injEq] at h
    obtain ⟨v, -, rfl, -⟩ := h
    rfl

theorem type_of_mem_splitFields {data : List UInt8} {fields : List (Tag × Payload)}
    (h : splitFields data = some fields) {tag : Tag} {p : Payload} (hmem : (tag, p) ∈ fields) :
    tag.type = p.type := by
  induction fields generalizing data with
  | nil => simp at hmem
  | cons f l ih =>
    rcases splitFields_cases h with ⟨-, hnil⟩ | ⟨tag', p', r₁, r₂, l', -, hp, hl, heq⟩
    · exact absurd hnil (by simp)
    · obtain ⟨rfl, rfl⟩ := List.cons.inj heq
      rcases List.mem_cons.mp hmem with heq | hmem
      · obtain ⟨rfl, rfl⟩ := Prod.mk.inj heq
        exact Payload.type_eq hp
      · exact ih hl hmem

/-! ## The fields a writer writes -/

/-- A tag and a payload written one behind the other are one field. -/
theorem splitFields_tag_append {n : ℕ} (hpos : 0 < n) (hlt : n < 2 ^ 32) {type : WireType}
    {payload : List UInt8} {p : Payload} (hp : readPayload type payload = some (p, [])) :
    splitFields (Writer.tag n type ++ payload) = some [(⟨n, type⟩, p)] := by
  rw [splitFields_of_readTag (readTag_append hpos hlt type payload) hp]
  rfl

section Writer

variable {n : ℕ} (hpos : 0 < n) (hlt : n < 2 ^ 32)

include hpos hlt

theorem splitFields_varint {v : ℕ} (hv : v < 2 ^ 64) :
    splitFields (Writer.varint n v) = some [(⟨n, .varint⟩, .varint v)] := by
  refine splitFields_tag_append hpos hlt ?_
  have h := readVarint_append hv []
  rw [List.append_nil] at h
  rw [readPayload, h]
  rfl

theorem splitFields_fixed64 (v : UInt64) :
    splitFields (Writer.fixed64 n v) = some [(⟨n, .fixed64⟩, .fixed64 v)] := by
  refine splitFields_tag_append hpos hlt ?_
  have h := readFixed64_append v []
  rw [List.append_nil] at h
  rw [readPayload, h]
  rfl

theorem splitFields_fixed32 (v : UInt32) :
    splitFields (Writer.fixed32 n v) = some [(⟨n, .fixed32⟩, .fixed32 v)] := by
  refine splitFields_tag_append hpos hlt ?_
  have h := readFixed32_append v []
  rw [List.append_nil] at h
  rw [readPayload, h]
  rfl

theorem splitFields_lengthDelimited {data : List UInt8} (hdata : data.length < 2 ^ 64) :
    splitFields (Writer.lengthDelimited n data) =
      some [(⟨n, .lengthDelimited⟩, .lengthDelimited data)] := by
  refine splitFields_tag_append hpos hlt ?_
  have h := readBytes_append hdata []
  rw [List.append_nil] at h
  rw [readPayload, h]
  rfl

end Writer

theorem length_appendVarint_mono {v w : ℕ} (h : v ≤ w) :
    (appendVarint v).length ≤ (appendVarint w).length := by
  induction w using Nat.strong_induction_on generalizing v with
  | _ w ih =>
    by_cases hv : v < 0x80
    · have hpos : 0 < (appendVarint w).length := by
        rw [appendVarint]
        split_ifs <;> simp
      rw [appendVarint_of_lt hv]
      exact hpos
    · rw [appendVarint_of_le (by omega), appendVarint_of_le (v := w) (by omega), List.length_cons,
        List.length_cons]
      exact Nat.succ_le_succ (ih (w / 0x80) (by omega) (by omega))

/-! ## Schemas -/

/-- What stands under a field number. `packed` and `packedArray` are byte strings of values of a
fixed size, any number of them or exactly `count`. -/
inductive FieldShape (M : Type)
  | varint
  | double
  | float
  | bytes
  | packed (size : ℕ)
  | packedArray (size count : ℕ)
  | message (type : M)
  deriving DecidableEq, Repr

def FieldShape.type : FieldShape M → WireType
  | .varint => .varint
  | .double => .fixed64
  | .float => .fixed32
  | .bytes | .packed _ | .packedArray _ _ | .message _ => .lengthDelimited

structure WireSchema (M : Type) where
  /-- The fields a message type defines. -/
  fields : M → List (ℕ × FieldShape M)
  /-- The wire types of unknown fields that are passed over. -/
  skips : M → WireType → Prop
  /-- What is asked of the fields taken together. -/
  finishes : M → List (Tag × Payload) → Prop
  number_ok : ∀ {T n shape}, (fields T).lookup n = some shape → 0 < n ∧ n < 2 ^ 32
  finishes_unknown : ∀ {T tag l₁ l₂} (p : Payload), (fields T).lookup tag.field = none →
    finishes T (l₁ ++ l₂) → finishes T (l₁ ++ (tag, p) :: l₂)
  finishes_message : ∀ {T U n l₁ l₂} (nested nested' : List UInt8),
    (fields T).lookup n = some (.message U) →
      finishes T (l₁ ++ (⟨n, .lengthDelimited⟩, .lengthDelimited nested) :: l₂) →
        finishes T (l₁ ++ (⟨n, .lengthDelimited⟩, .lengthDelimited nested') :: l₂)

namespace WireSchema

mutual

/-- A message of the type, as its decoder expects it. -/
inductive WellFormed (S : WireSchema M) : M → List UInt8 → Prop
  | ofFields {T : M} {data : List UInt8} {fields : List (Tag × Payload)}
      (hsplit : splitFields data = some fields)
      (hfields : ∀ f ∈ fields, S.Carries T f.1 f.2) (hfinish : S.finishes T fields) :
      WellFormed S T data

/-- A field that a message of the type may carry. -/
inductive Carries (S : WireSchema M) : M → Tag → Payload → Prop
  | unknown {T : M} {tag : Tag} (p : Payload) (h : (S.fields T).lookup tag.field = none)
      (hskip : S.skips T tag.type) : Carries S T tag p
  | known {T : M} {tag : Tag} {p : Payload} {shape : FieldShape M}
      (h : (S.fields T).lookup tag.field = some shape) (hp : S.Accepts shape p) : Carries S T tag p

/-- A payload of the shape. -/
inductive Accepts (S : WireSchema M) : FieldShape M → Payload → Prop
  | varint (v : ℕ) : Accepts S .varint (.varint v)
  | double (v : UInt64) : Accepts S .double (.fixed64 v)
  | float (v : UInt32) : Accepts S .float (.fixed32 v)
  | bytes (data : List UInt8) : Accepts S .bytes (.lengthDelimited data)
  | packed {size : ℕ} {data : List UInt8} (h : data.length % size = 0) :
      Accepts S (.packed size) (.lengthDelimited data)
  | packedArray {size count : ℕ} {data : List UInt8} (h : data.length = count * size) :
      Accepts S (.packedArray size count) (.lengthDelimited data)
  | message {U : M} {data : List UInt8} (h : S.WellFormed U data) :
      Accepts S (.message U) (.lengthDelimited data)

end

theorem Accepts.type_eq {S : WireSchema M} {shape : FieldShape M} {p : Payload}
    (h : S.Accepts shape p) : p.type = shape.type := by
  cases h <;> rfl

/-! ## Inserting an unknown field -/

/-- A complete field whose number the message type does not define. -/
structure UnknownField (S : WireSchema M) (host : M) where
  bytes : List UInt8
  tag : Tag
  payload : Payload
  split : splitFields bytes = some [(tag, payload)]
  undefined : (S.fields host).lookup tag.field = none

variable {S : WireSchema M} {host T U : M} {u : UnknownField S host} {data data' : List UInt8}

/-- The second byte string is the first with the field inserted at a field boundary of a message of
type `host`: the message itself, or one nested in it, whose length is then written anew. -/
inductive UnknownField.InsertedIn (u : UnknownField S host) :
    M → List UInt8 → List UInt8 → Prop
  | here {before after : List UInt8} (h : (splitFields before).isSome) :
      u.InsertedIn host (before ++ after) (before ++ (u.bytes ++ after))
  | inside {T U : M} {n : ℕ} {before nested nested' after : List UInt8}
      (h : (splitFields before).isSome) (hfield : (S.fields T).lookup n = some (.message U))
      (hnested : u.InsertedIn U nested nested') :
      u.InsertedIn T (before ++ (Writer.message n nested ++ after))
        (before ++ (Writer.message n nested' ++ after))

theorem UnknownField.InsertedIn.length_le (h : u.InsertedIn T data data') :
    data.length ≤ data'.length := by
  induction h with
  | here _ =>
    simp only [List.length_append]
    omega
  | inside _ _ _ ih =>
    have hmono := length_appendVarint_mono ih
    simp only [Writer.message, Writer.lengthDelimited, List.length_append]
    omega

/-- The fields around an insertion at the outermost level. -/
theorem UnknownField.splitFields_here (u : UnknownField S host) {before after : List UInt8}
    (h : (splitFields before).isSome) {fields : List (Tag × Payload)}
    (hsplit : splitFields (before ++ after) = some fields) :
    ∃ l₁ l₂, fields = l₁ ++ l₂ ∧
      splitFields (before ++ (u.bytes ++ after)) = some (l₁ ++ (u.tag, u.payload) :: l₂) := by
  obtain ⟨l₁, hl₁⟩ := Option.isSome_iff_exists.mp h
  rw [splitFields_append hl₁, Option.map_eq_some_iff] at hsplit
  obtain ⟨l₂, hl₂, rfl⟩ := hsplit
  refine ⟨l₁, l₂, rfl, ?_⟩
  exact splitFields_append_eq_some hl₁ (splitFields_append_eq_some u.split hl₂)

/-- The fields around a nested message that is replaced by another. -/
theorem splitFields_message {n : ℕ} (hn : 0 < n ∧ n < 2 ^ 32)
    {before nested nested' after : List UInt8} (h : (splitFields before).isSome)
    (hlen : nested.length < 2 ^ 64) (hlen' : nested'.length < 2 ^ 64)
    {fields : List (Tag × Payload)}
    (hsplit : splitFields (before ++ (Writer.message n nested ++ after)) = some fields) :
    ∃ l₁ l₂, fields = l₁ ++ (⟨n, .lengthDelimited⟩, .lengthDelimited nested) :: l₂ ∧
      splitFields (before ++ (Writer.message n nested' ++ after)) =
        some (l₁ ++ (⟨n, .lengthDelimited⟩, .lengthDelimited nested') :: l₂) := by
  have hold := splitFields_lengthDelimited hn.1 hn.2 hlen
  have hnew := splitFields_lengthDelimited hn.1 hn.2 hlen'
  obtain ⟨l₁, hl₁⟩ := Option.isSome_iff_exists.mp h
  rw [splitFields_append hl₁, Writer.message, splitFields_append hold, Option.map_map,
    Option.map_eq_some_iff] at hsplit
  obtain ⟨l₂, hl₂, rfl⟩ := hsplit
  refine ⟨l₁, l₂, rfl, ?_⟩
  exact splitFields_append_eq_some hl₁ (splitFields_append_eq_some hnew hl₂)

/-- A nested message is no longer than the buffer it stands in. -/
theorem length_nested_lt {n : ℕ} {before nested after : List UInt8} {bound : ℕ}
    (h : (before ++ (Writer.message n nested ++ after)).length < bound) :
    nested.length < bound := by
  simp only [Writer.message, Writer.lengthDelimited, List.length_append] at h
  omega

/-- A message stays well formed when an unknown field of a wire type that its host passes over is
inserted somewhere in it. -/
theorem WellFormed.inserted (h : u.InsertedIn T data data') (hskip : S.skips host u.tag.type)
    (hlen : data'.length < 2 ^ 64) (hdata : S.WellFormed T data) : S.WellFormed T data' := by
  induction h with
  | here h =>
    obtain ⟨hsplit, hfields, hfinish⟩ := hdata
    obtain ⟨l₁, l₂, rfl, hsplit'⟩ := u.splitFields_here h hsplit
    refine .ofFields hsplit' (fun f hf ↦ ?_) (S.finishes_unknown _ u.undefined hfinish)
    rcases List.mem_append.mp hf with hf | hf
    · exact hfields f (List.mem_append_left _ hf)
    · rcases List.mem_cons.mp hf with rfl | hf
      · exact .unknown _ u.undefined hskip
      · exact hfields f (List.mem_append_right _ hf)
  | @inside T U n before nested nested' after h hfield hnested ih =>
    obtain ⟨hsplit, hfields, hfinish⟩ := hdata
    have hlen' := length_nested_lt hlen
    obtain ⟨l₁, l₂, rfl, hsplit'⟩ := splitFields_message (S.number_ok hfield) h
      (hnested.length_le.trans_lt hlen') hlen' hsplit
    refine .ofFields hsplit' (fun f hf ↦ ?_) (S.finishes_message _ _ hfield hfinish)
    rcases List.mem_append.mp hf with hf | hf
    · exact hfields f (List.mem_append_left _ hf)
    · rcases List.mem_cons.mp hf with rfl | hf
      · -- the nested message was well formed, so by induction it still is
        have hold := hfields _ (List.mem_append_right l₁ List.mem_cons_self)
        rcases hold with ⟨_, hnone, _⟩ | ⟨hshape, hp⟩
        · rw [hfield] at hnone
          exact absurd hnone (by simp)
        · obtain rfl := Option.some.inj (hfield.symm.trans hshape)
          rcases hp with _ | _ | _ | _ | _ | _ | hwf
          exact .known hfield (.message (ih hlen' hwf))
      · exact hfields f (List.mem_append_right _ (List.mem_cons_of_mem _ hf))

/-! ## What writers write -/

/-- The bytes are fields that a message of the type may carry, unless they are too long to be
counted. -/
def Writes (S : WireSchema M) (T : M) (data : List UInt8) : Prop :=
  data.length < 2 ^ 64 → ∃ fields, splitFields data = some fields ∧
    ∀ f ∈ fields, S.Carries T f.1 f.2

theorem Writes.nil : S.Writes T [] := fun _ ↦ ⟨[], rfl, fun _ h ↦ absurd h List.not_mem_nil⟩

theorem Writes.append {d₁ d₂ : List UInt8} (h₁ : S.Writes T d₁) (h₂ : S.Writes T d₂) :
    S.Writes T (d₁ ++ d₂) := by
  intro hlen
  rw [List.length_append] at hlen
  obtain ⟨l₁, hl₁, hc₁⟩ := h₁ (by omega)
  obtain ⟨l₂, hl₂, hc₂⟩ := h₂ (by omega)
  refine ⟨l₁ ++ l₂, splitFields_append_eq_some hl₁ hl₂, fun f hf ↦ ?_⟩
  rcases List.mem_append.mp hf with hf | hf
  · exact hc₁ f hf
  · exact hc₂ f hf

theorem Writes.flatMap {write : α → List UInt8} {xs : List α}
    (h : ∀ x ∈ xs, S.Writes T (write x)) : S.Writes T (xs.flatMap write) := by
  induction xs with
  | nil => exact .nil
  | cons x xs ih =>
    rw [List.flatMap_cons]
    exact (h x List.mem_cons_self).append (ih fun y hy ↦ h y (List.mem_cons_of_mem x hy))

theorem Writes.wellFormed (h : S.Writes T data) (hlen : data.length < 2 ^ 64)
    (hfinish : ∀ fields, splitFields data = some fields → S.finishes T fields) :
    S.WellFormed T data := by
  obtain ⟨fields, hsplit, hfields⟩ := h hlen
  exact .ofFields hsplit hfields (hfinish fields hsplit)

/-- One field written under a number that the type defines. -/
theorem Writes.field {n : ℕ} {type : WireType} {p : Payload} {shape : FieldShape M}
    (hfield : (S.fields T).lookup n = some shape) (hp : data.length < 2 ^ 64 → S.Accepts shape p)
    (hsplit : 0 < n → n < 2 ^ 32 → data.length < 2 ^ 64 →
      splitFields data = some [(⟨n, type⟩, p)]) : S.Writes T data := by
  intro hlen
  obtain ⟨hpos, hlt⟩ := S.number_ok hfield
  refine ⟨_, hsplit hpos hlt hlen, fun f hf ↦ ?_⟩
  obtain rfl := List.mem_singleton.mp hf
  exact .known hfield (hp hlen)

section Fields

variable (n : ℕ)

theorem writes_varint (hfield : (S.fields T).lookup n = some .varint) {v : ℕ} (hv : v < 2 ^ 64) :
    S.Writes T (Writer.varint n v) :=
  .field hfield (fun _ ↦ .varint v) fun hpos hlt _ ↦ splitFields_varint hpos hlt hv

theorem writes_double (hfield : (S.fields T).lookup n = some .double) (v : UInt64) :
    S.Writes T (Writer.doubleField n v) :=
  .field hfield (fun _ ↦ .double v) fun hpos hlt _ ↦ splitFields_fixed64 hpos hlt v

theorem writes_float (hfield : (S.fields T).lookup n = some .float) (v : UInt32) :
    S.Writes T (Writer.floatField n v) :=
  .field hfield (fun _ ↦ .float v) fun hpos hlt _ ↦ splitFields_fixed32 hpos hlt v

theorem length_lt_of_lengthDelimited
    (h : (Writer.lengthDelimited n data).length < 2 ^ 64) : data.length < 2 ^ 64 := by
  simp only [Writer.lengthDelimited, List.length_append] at h
  omega

/-- A length-delimited field, by the shape of its payload. -/
theorem writes_lengthDelimited {shape : FieldShape M}
    (hfield : (S.fields T).lookup n = some shape)
    (h : data.length < 2 ^ 64 → S.Accepts shape (.lengthDelimited data)) :
    S.Writes T (Writer.lengthDelimited n data) :=
  .field hfield (fun hlen ↦ h (length_lt_of_lengthDelimited n hlen)) fun hpos hlt hlen ↦
    splitFields_lengthDelimited hpos hlt (length_lt_of_lengthDelimited n hlen)

theorem writes_bytes (hfield : (S.fields T).lookup n = some .bytes) (data : List UInt8) :
    S.Writes T (Writer.lengthDelimited n data) :=
  writes_lengthDelimited n hfield fun _ ↦ .bytes data

theorem writes_message (hfield : (S.fields T).lookup n = some (.message U))
    (h : data.length < 2 ^ 64 → S.WellFormed U data) : S.Writes T (Writer.message n data) :=
  writes_lengthDelimited n hfield fun hlen ↦ .message (h hlen)

theorem writes_packedFixed32 (hfield : (S.fields T).lookup n = some (.packed 4))
    (values : List UInt32) : S.Writes T (Writer.packedFixed32 n values) := by
  have hlen := length_flatMap_bytes 4 UInt32.toNat values
  rw [Writer.packedFixed32]
  split_ifs
  · exact .nil
  · rw [← hlen]
    exact writes_lengthDelimited n hfield fun _ ↦ .packed (by rw [hlen, Nat.mul_mod_left])

theorem writes_packedDouble (hfield : (S.fields T).lookup n = some (.packed 8))
    (values : List UInt64) : S.Writes T (Writer.packedDouble n values) := by
  have hlen := length_flatMap_bytes 8 UInt64.toNat values
  rw [Writer.packedDouble]
  split_ifs
  · exact .nil
  · rw [← hlen]
    exact writes_lengthDelimited n hfield fun _ ↦ .packed (by rw [hlen, Nat.mul_mod_left])

theorem writes_packedDoubleArray {k : ℕ} (hfield : (S.fields T).lookup n = some (.packedArray 8 k))
    (values : Vector UInt64 k) : S.Writes T (Writer.packedDouble n values.toList) := by
  have hlen := length_flatMap_bytes 8 UInt64.toNat values.toList
  rw [Writer.packedDouble]
  split_ifs
  · exact .nil
  · rw [← hlen]
    refine writes_lengthDelimited n hfield fun _ ↦ .packedArray ?_
    rw [hlen, Vector.length_toList]

end Fields

end WireSchema

end PlotJuggler
