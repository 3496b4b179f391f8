import PlotJugglerCore.Wire.Basic

/-!
# Field loops

Every decoder of the builtin objects is one loop: while bytes are left, read a tag and let a body
consume the field. The loop is written once, over an arbitrary body, and each decoder supplies its
own. `parseFields` is the body that asks a handler and falls back to `skip`; the hand-written
`while` loops of the batch containers are bodies of their own.

## What a complete message is

`splitFields` cuts a byte string into tags and payloads by the wire types alone: it knows no field
number and no message. It is the yardstick for the decoders above: a byte string is well formed
exactly when the cut reaches its end.

## Fuel

A tag takes at least one byte, so as many iterations as there are bytes are enough. The loop takes
that bound as an argument; `whileFields_of_readTag` is the unfolding in which it has disappeared.
-/

namespace PlotJuggler

open LittleEndian

variable {σ ε : Type}

/-! ## The loop -/

/-- At most `n` rounds of `while (!reader.eof()) { Tag tag; if (!reader.readTag(tag)) … }`. The body
returns the cursor and the value, or the error it left the loop with. -/
def fieldLoop (badTag : σ → ε) (body : Tag → Reader → σ → Except ε (Reader × σ)) :
    ℕ → Reader → σ → Except ε σ
  | _, [], s => .ok s
  | 0, _ :: _, s => .error (badTag s)
  | n + 1, b :: r, s =>
    match readTag (b :: r) with
    | (none, _) => .error (badTag s)
    | (some tag, r₁) =>
      match body tag r₁ s with
      | .error e => .error e
      | .ok (r₂, s₂) => fieldLoop badTag body n r₂ s₂

/-- The loop with enough fuel for the bytes ahead of the cursor. -/
def whileFields (badTag : σ → ε) (body : Tag → Reader → σ → Except ε (Reader × σ)) (r : Reader)
    (s : σ) : Except ε σ :=
  fieldLoop badTag body r.length r s

/-- A body never moves the cursor backwards. -/
def Advances (body : Tag → Reader → σ → Except ε (Reader × σ)) : Prop :=
  ∀ ⦃tag r s r' s'⦄, body tag r s = .ok (r', s') → r'.length ≤ r.length

section Loop

variable {badTag : σ → ε} {body : Tag → Reader → σ → Except ε (Reader × σ)}

@[simp] theorem fieldLoop_nil (n : ℕ) (s : σ) : fieldLoop badTag body n [] s = .ok s := by
  cases n <;> rfl

@[simp] theorem whileFields_nil (s : σ) : whileFields badTag body [] s = .ok s := rfl

/-- The bytes of a tag are never the empty string. -/
theorem readTag_ne_nil {r r₁ : Reader} {tag : Tag} (h : readTag r = (some tag, r₁)) : r ≠ [] := by
  rintro rfl
  exact absurd (readTag_length_lt h) (Nat.not_lt_zero _)

theorem fieldLoop_succ_of_readTag {n : ℕ} {r r₁ : Reader} {s : σ} {tag : Tag}
    (h : readTag r = (some tag, r₁)) :
    fieldLoop badTag body (n + 1) r s = match body tag r₁ s with
      | .error e => .error e
      | .ok (r₂, s₂) => fieldLoop badTag body n r₂ s₂ := by
  cases r with
  | nil => exact absurd rfl (readTag_ne_nil h)
  | cons b r => rw [fieldLoop, h]

/-- More fuel than bytes changes nothing. -/
theorem fieldLoop_eq_of_le (hbody : Advances body) {n m : ℕ} {r : Reader} (s : σ)
    (hn : r.length ≤ n) (hm : r.length ≤ m) :
    fieldLoop badTag body n r s = fieldLoop badTag body m r s := by
  induction n generalizing m r s with
  | zero =>
    have hr : r = [] := List.eq_nil_of_length_eq_zero (Nat.le_zero.mp hn)
    rw [hr, fieldLoop_nil, fieldLoop_nil]
  | succ n ih =>
    cases r with
    | nil => rw [fieldLoop_nil, fieldLoop_nil]
    | cons b r =>
      cases m with
      | zero => simp at hm
      | succ m =>
        rw [fieldLoop, fieldLoop]
        split
        · rfl
        · rename_i tag r₁ htag
          have hlt : r₁.length < (b :: r).length := readTag_length_lt htag
          split
          · rfl
          · rename_i r₂ s₂ hstep
            have hle : r₂.length ≤ r₁.length := hbody hstep
            exact ih s₂ (by omega) (by omega)

/-- One round of the loop. -/
theorem whileFields_of_readTag (hbody : Advances body) {r r₁ : Reader} {s : σ} {tag : Tag}
    (h : readTag r = (some tag, r₁)) :
    whileFields badTag body r s = match body tag r₁ s with
      | .error e => .error e
      | .ok (r₂, s₂) => whileFields badTag body r₂ s₂ := by
  have hlt : r₁.length < r.length := readTag_length_lt h
  obtain ⟨n, hn⟩ : ∃ n, r.length = n + 1 := Nat.exists_eq_succ_of_ne_zero (by omega)
  rw [whileFields, hn, fieldLoop_succ_of_readTag h]
  split
  · rfl
  · rename_i r₂ s₂ hstep
    have hle : r₂.length ≤ r₁.length := hbody hstep
    exact fieldLoop_eq_of_le hbody s₂ (by omega) (le_refl _)

end Loop

/-! ## `parseFields` -/

/-- `handler(tag, reader)`: whether the field was taken, where the cursor stands afterwards, and
the value being filled. Both are reported also when the field was not taken. -/
abbrev FieldHandler (σ : Type) := Tag → Reader → σ → Bool × Reader × σ

/-- `if (!handler(tag, reader) && !reader.skip(tag.type)) return false`. The error is the value as
the failed loop leaves it. -/
def parseFieldsBody (handler : FieldHandler σ) (tag : Tag) (r : Reader) (s : σ) :
    Except σ (Reader × σ) :=
  match handler tag r s with
  | (true, r₁, s₁) => .ok (r₁, s₁)
  | (false, r₁, s₁) =>
    match skip tag.type r₁ with
    | (true, r₂) => .ok (r₂, s₁)
    | (false, _) => .error s₁

def parseFields (handler : FieldHandler σ) (r : Reader) (s : σ) : Except σ σ :=
  whileFields id (parseFieldsBody handler) r s

theorem parseFieldsBody_advances {handler : FieldHandler σ}
    (h : ∀ tag r s, (handler tag r s).2.1 <:+ r) : Advances (parseFieldsBody handler) := by
  intro tag r s r' s' hok
  have hle := (h tag r s).length_le
  rw [parseFieldsBody] at hok
  split at hok
  · rename_i r₁ s₁ hrun
    rw [hrun] at hle
    simp only [Except.ok.injEq, Prod.mk.injEq] at hok
    rwa [← hok.1]
  · rename_i r₁ s₁ hrun
    rw [hrun] at hle
    have hskip := (skip_suffix tag.type r₁).length_le
    split at hok
    · rename_i r₂ hs
      rw [hs] at hskip
      simp only [Except.ok.injEq, Prod.mk.injEq] at hok
      rw [← hok.1]
      exact hskip.trans hle
    · simp at hok

/-! ## Splitting a byte string into fields -/

/-- A payload complete for its wire type. -/
inductive Payload
  | varint (value : ℕ)
  | fixed64 (value : UInt64)
  | lengthDelimited (data : List UInt8)
  | fixed32 (value : UInt32)
  deriving DecidableEq, Repr

/-- Reads a complete payload of the given wire type. -/
def readPayload (type : WireType) (r : Reader) : Option (Payload × Reader) :=
  match type with
  | .varint => (readVarint r).1.map fun v ↦ (.varint v, (readVarint r).2)
  | .fixed64 => (readFixed64 r).1.map fun v ↦ (.fixed64 v, (readFixed64 r).2)
  | .lengthDelimited => (readBytes r).1.map fun v ↦ (.lengthDelimited v, (readBytes r).2)
  | .fixed32 => (readFixed32 r).1.map fun v ↦ (.fixed32 v, (readFixed32 r).2)
  | .invalid => none

/-- `skip` succeeds exactly over a complete payload, and stops behind it. -/
theorem skip_eq (type : WireType) (r : Reader) :
    (skip type r).1 = (readPayload type r).isSome ∧
      ∀ p r', readPayload type r = some (p, r') → (skip type r).2 = r' := by
  cases type with
  | varint =>
    refine ⟨by simp [skip, readPayload], fun p r' h ↦ ?_⟩
    simp only [readPayload, Option.map_eq_some_iff] at h
    obtain ⟨v, -, hv⟩ := h
    exact (Prod.mk.inj hv).2
  | fixed64 =>
    by_cases hlen : r.length < 8
    · simp [skip, skipBytes, readPayload, readFixed64, hlen]
    · simp [skip, skipBytes, readPayload, readFixed64, hlen]
  | lengthDelimited =>
    refine ⟨by simp [skip, readPayload], fun p r' h ↦ ?_⟩
    simp only [readPayload, Option.map_eq_some_iff] at h
    obtain ⟨v, -, hv⟩ := h
    exact (Prod.mk.inj hv).2
  | fixed32 =>
    by_cases hlen : r.length < 4
    · simp [skip, skipBytes, readPayload, readFixed32, hlen]
    · simp [skip, skipBytes, readPayload, readFixed32, hlen]
  | invalid => simp [skip, readPayload]

theorem exists_readPayload_of_skip {type : WireType} {r r' : Reader}
    (h : skip type r = (true, r')) : ∃ p, readPayload type r = some (p, r') := by
  obtain ⟨hsome, hrest⟩ := skip_eq type r
  rw [h] at hsome hrest
  obtain ⟨⟨p, r₁⟩, hp⟩ := Option.isSome_iff_exists.mp hsome.symm
  have hr : r' = r₁ := hrest p r₁ hp
  exact ⟨p, by rw [hp, hr]⟩

theorem type_of_readPayload {type : WireType} {r r' : Reader} {data : List UInt8}
    (h : readPayload type r = some (.lengthDelimited data, r')) : type = .lengthDelimited := by
  cases type <;> simp_all [readPayload]

/-- `if (!reader.skip(tag.type)) return error;` -/
def skipOr (error : ε) (tag : Tag) (r : Reader) (s : σ) : Except ε (Reader × σ) :=
  match skip tag.type r with
  | (true, r₁) => .ok (r₁, s)
  | (false, _) => .error error

theorem readPayload_of_skipOr {error : ε} {tag : Tag} {r r' : Reader} {s s' : σ}
    (h : skipOr error tag r s = .ok (r', s')) :
    ∃ p, readPayload tag.type r = some (p, r') ∧ s' = s := by
  rw [skipOr] at h
  split at h
  · rename_i r₁ hskip
    simp only [Except.ok.injEq, Prod.mk.injEq] at h
    obtain ⟨rfl, rfl⟩ := h
    obtain ⟨p, hp⟩ := exists_readPayload_of_skip hskip
    exact ⟨p, hp, rfl⟩
  · simp at h

theorem skipOr_length_le {error : ε} {tag : Tag} {r r' : Reader} {s s' : σ}
    (h : skipOr error tag r s = .ok (r', s')) : r'.length ≤ r.length := by
  have hle := (skip_suffix tag.type r).length_le
  rw [skipOr] at h
  split at h
  · rename_i r₁ hskip
    rw [hskip] at hle
    simp only [Except.ok.injEq, Prod.mk.injEq] at h
    rwa [← h.1]
  · simp at h

/-- At most `n` fields of a byte string; `none` when it does not split completely. -/
def splitFieldsFrom : ℕ → List UInt8 → Option (List (Tag × Payload))
  | _, [] => some []
  | 0, _ :: _ => none
  | n + 1, b :: r =>
    match readTag (b :: r) with
    | (none, _) => none
    | (some tag, r₁) =>
      match readPayload tag.type r₁ with
      | none => none
      | some (p, r₂) => (splitFieldsFrom n r₂).map ((tag, p) :: ·)

/-- The fields a byte string splits into: each a tag with a non-zero field number and one of the
four wire types, then a payload complete for that wire type. -/
def splitFields (data : List UInt8) : Option (List (Tag × Payload)) :=
  splitFieldsFrom data.length data

@[simp] theorem splitFieldsFrom_nil (n : ℕ) : splitFieldsFrom n [] = some [] := by
  cases n <;> rfl

theorem splitFieldsFrom_succ_of_readTag {n : ℕ} {r r₁ r₂ : Reader} {tag : Tag} {p : Payload}
    (htag : readTag r = (some tag, r₁)) (hp : readPayload tag.type r₁ = some (p, r₂)) :
    splitFieldsFrom (n + 1) r = (splitFieldsFrom n r₂).map ((tag, p) :: ·) := by
  cases r with
  | nil => exact absurd rfl (readTag_ne_nil htag)
  | cons b r => rw [splitFieldsFrom, htag]; simp only [hp]

end PlotJuggler
