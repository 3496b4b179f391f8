import PlotJugglerCore.Wire.Fields

/-!
# Message decoders

A handler of `parseFields` says two things with one `false`: the field is not mine, and the field
is mine but I failed, possibly after moving the cursor. The loop answers both with `skip`, from
wherever the cursor then stands. When that `skip` succeeds the loop *resumes* in the middle of a
field, and what it accepts from there on need not be a message.

A `FieldBody` packages the code of one loop with what the fields mean to it and with the one fact
that holds as long as no loop resumes: a field that was passed is a complete payload, and the value
moved by its meaning. `FieldBody.sound_of_not_resumes` then carries this over whole messages. Three
kinds of loop are built this way: `parseFields` with a handler, the hand-written loops that leave
at the first failed read, and the loops over the elements of a container, which never resume
themselves but have decoders inside that may.

## Building handlers

Almost every handler is a table from field numbers to readers, each checking its own wire type
first. `FieldReader` is one entry; nested messages enter through `FieldReader.message` and
`FieldReader.element`, which is where the recursion over nesting levels happens. The timestamp
handler is not of this form and is built by hand beside its decoder.
-/

namespace PlotJuggler

open LittleEndian

variable {σ τ α ε : Type}

/-! ## Loop bodies and their meaning -/

structure FieldBody (ε σ : Type) where
  /-- The code. -/
  run : Tag → Reader → σ → Except ε (Reader × σ)
  /-- What a complete field does to the value; `none` when its payload is malformed. -/
  meaning : Tag → Payload → σ → Option σ
  /-- A loop resumes, at this field or inside it. -/
  resumes : Tag → Reader → σ → Bool
  advances : Advances run
  passed : ∀ ⦃tag r s r' s'⦄, run tag r s = .ok (r', s') → resumes tag r s = false →
    ∃ p, readPayload tag.type r = some (p, r') ∧ meaning tag p s = some s'

namespace FieldBody

/-- One round, watched: `true` is left as soon as a loop resumes. -/
def watch (b : FieldBody ε σ) (tag : Tag) (r : Reader) (s : σ) : Except Bool (Reader × σ) :=
  if b.resumes tag r s then .error true else (b.run tag r s).mapError fun _ ↦ false

/-- Some loop resumes while the message is read, at whatever nesting level. -/
def messageResumes (b : FieldBody ε σ) (r : Reader) (s : σ) : Bool :=
  match whileFields (fun _ ↦ false) b.watch r s with
  | .error resumed => resumed
  | .ok _ => false

/-- The left-to-right fold of the fields of a message that splits completely. -/
def messageMeaning (b : FieldBody ε σ) (data : List UInt8) (s : σ) : Option σ :=
  (splitFields data).bind fun fields ↦ fields.foldlM (fun s f ↦ b.meaning f.1 f.2 s) s

theorem fieldLoop_sound (b : FieldBody ε σ) {badTag : σ → ε} {n : ℕ} {r : Reader} {s s' : σ}
    (hok : fieldLoop badTag b.run n r s = .ok s')
    (hres : fieldLoop (fun _ ↦ false) b.watch n r s ≠ .error true) :
    ∃ fields, splitFieldsFrom n r = some fields ∧
      fields.foldlM (fun s f ↦ b.meaning f.1 f.2 s) s = some s' := by
  induction n generalizing r s with
  | zero =>
    cases r with
    | nil =>
      simp only [fieldLoop_nil, Except.ok.injEq] at hok
      exact ⟨[], rfl, by simp [hok]⟩
    | cons b r => simp [fieldLoop] at hok
  | succ n ih =>
    cases r with
    | nil =>
      simp only [fieldLoop_nil, Except.ok.injEq] at hok
      exact ⟨[], rfl, by simp [hok]⟩
    | cons c r =>
      rcases htag : readTag (c :: r) with ⟨t, r₁⟩
      cases t with
      | none => simp [fieldLoop, htag] at hok
      | some tag =>
        rw [fieldLoop_succ_of_readTag htag] at hok hres
        cases hrun : b.run tag r₁ s with
        | error e => simp [hrun] at hok
        | ok next =>
          obtain ⟨r₂, s₂⟩ := next
          have hthis : b.resumes tag r₁ s = false := by
            by_contra hbad
            rw [watch, if_pos (by simpa using hbad)] at hres
            exact hres rfl
          obtain ⟨p, hp, hmeaning⟩ := b.passed hrun hthis
          simp only [hrun] at hok
          simp only [watch, hthis, hrun, Except.mapError, Bool.false_eq_true, if_false] at hres
          obtain ⟨fields, hsplit, hfold⟩ := ih hok hres
          refine ⟨(tag, p) :: fields, ?_, ?_⟩
          · rw [splitFieldsFrom_succ_of_readTag htag hp, hsplit]
            rfl
          · rw [List.foldlM_cons, hmeaning]
            exact hfold

/-- A loop that accepts and nowhere resumes has read a complete message and folded its fields. -/
theorem sound_of_not_resumes (b : FieldBody ε σ) {badTag : σ → ε} {r : Reader} {s s' : σ}
    (hok : whileFields badTag b.run r s = .ok s') (hres : b.messageResumes r s = false) :
    b.messageMeaning r s = some s' := by
  have hres' : fieldLoop (fun _ ↦ false) b.watch r.length r s ≠ .error true := by
    intro hbad
    rw [messageResumes, whileFields, hbad] at hres
    simp at hres
  obtain ⟨fields, hsplit, hfold⟩ := b.fieldLoop_sound hok hres'
  rw [messageMeaning, splitFields, hsplit]
  exact hfold

end FieldBody

/-! ## The body of `parseFields` -/

/-- A handler with what its fields mean. What it takes is complete; what it leaves alone, with the
cursor where it was, means nothing to it. -/
structure Handler (σ : Type) where
  run : FieldHandler σ
  meaning : Tag → Payload → σ → Option σ
  /-- Some loop inside the field resumes. -/
  resumes : Tag → Reader → σ → Bool
  suffix : ∀ tag r s, (run tag r s).2.1 <:+ r
  taken : ∀ ⦃tag r s r' s'⦄, run tag r s = (true, r', s') → resumes tag r s = false →
    ∃ p, readPayload tag.type r = some (p, r') ∧ meaning tag p s = some s'
  declined : ∀ ⦃tag r s s' p r'⦄, run tag r s = (false, r, s') →
    readPayload tag.type r = some (p, r') → s' = s ∧ meaning tag p s = some s

/-- The handler has failed with the cursor moved, and the `skip` that follows succeeds. -/
def FieldHandler.resumesAfter (run : FieldHandler σ) (tag : Tag) (r : Reader) (s : σ) : Bool :=
  match run tag r s with
  | (true, _, _) => false
  | (false, r₁, _) => decide (r₁.length ≠ r.length) && (skip tag.type r₁).1

def FieldBody.ofHandler (h : Handler σ) : FieldBody σ σ where
  run := parseFieldsBody h.run
  meaning := h.meaning
  resumes tag r s := h.resumes tag r s || FieldHandler.resumesAfter h.run tag r s
  advances := parseFieldsBody_advances h.suffix
  passed tag r s r' s' hok hres := by
    rw [Bool.or_eq_false_iff, FieldHandler.resumesAfter] at hres
    obtain ⟨hinside, hafter⟩ := hres
    rw [parseFieldsBody] at hok
    rcases hrun : h.run tag r s with ⟨ok, r₁, s₁⟩
    cases ok with
    | true =>
      simp only [hrun, Except.ok.injEq, Prod.mk.injEq] at hok
      obtain ⟨rfl, rfl⟩ := hok
      exact h.taken hrun hinside
    | false =>
      rcases hskip : skip tag.type r₁ with ⟨skipped, r₂⟩
      cases skipped with
      | false => simp [hrun, hskip] at hok
      | true =>
        simp only [hrun, hskip, Except.ok.injEq, Prod.mk.injEq] at hok
        obtain ⟨rfl, rfl⟩ := hok
        -- the handler did not touch the field, so what was skipped is the whole payload
        have hlen : r₁.length = r.length := by simpa [hrun, hskip] using hafter
        have hsuf : r₁ <:+ r := by
          have := h.suffix tag r s
          rwa [hrun] at this
        obtain rfl : r₁ = r := hsuf.eq_of_length hlen
        obtain ⟨p, hp⟩ := exists_readPayload_of_skip hskip
        obtain ⟨rfl, hmeaning⟩ := h.declined hrun hp
        exact ⟨p, hp, hmeaning⟩

/-! ## Message decoders -/

/-- A decoder of one message into a value that may already hold something. -/
structure MessageDecoder (τ : Type) where
  /-- The code. A failed decoder reports what it left in the value. -/
  decode : Reader → τ → Except τ τ
  /-- The fold of the fields of a complete message. -/
  meaning : List UInt8 → τ → Option τ
  resumes : Reader → τ → Bool
  sound : ∀ ⦃r x x'⦄, decode r x = .ok x' → resumes r x = false → meaning r x = some x'

/-- A decoder that is nothing but its loop. -/
def MessageDecoder.ofBody (b : FieldBody τ τ) : MessageDecoder τ where
  decode := whileFields id b.run
  meaning := b.messageMeaning
  resumes := b.messageResumes
  sound _ _ _ hok hres := b.sound_of_not_resumes hok hres

/-- A decoder that fills locals and then computes the value from them; the value is untouched when
either step fails. -/
def MessageDecoder.ofLocals (d : MessageDecoder σ) (init : σ) (finish : σ → Option τ) :
    MessageDecoder τ where
  decode r x :=
    match d.decode r init with
    | .error _ => .error x
    | .ok s =>
      match finish s with
      | none => .error x
      | some x' => .ok x'
  meaning data _ := (d.meaning data init).bind finish
  resumes r _ := d.resumes r init
  sound r x x' hok hres := by
    cases hparse : d.decode r init with
    | error e => simp [hparse] at hok
    | ok s =>
      simp only [hparse] at hok
      cases hfin : finish s with
      | none => simp [hfin] at hok
      | some y =>
        simp only [hfin, Except.ok.injEq] at hok
        rw [d.sound hparse hres, Option.bind_some, hfin, hok]

/-- A decoder that assigns some fields before its loop starts. -/
def MessageDecoder.after (d : MessageDecoder τ) (prepare : τ → τ) : MessageDecoder τ where
  decode r x := d.decode r (prepare x)
  meaning data x := d.meaning data (prepare x)
  resumes r x := d.resumes r (prepare x)
  sound _ _ _ hok hres := d.sound hok hres

/-! ## Readers for one field -/

/-- What a handler does for one field number, once the wire type has been checked. -/
structure FieldReader (σ : Type) where
  type : WireType
  read : Reader → σ → Bool × Reader × σ
  meaning : Payload → σ → Option σ
  resumes : Reader → σ → Bool
  suffix : ∀ r s, (read r s).2.1 <:+ r
  taken : ∀ ⦃r s r' s'⦄, read r s = (true, r', s') → resumes r s = false →
    ∃ p, readPayload type r = some (p, r') ∧ meaning p s = some s'
  /-- A reader that fails where it started has found no complete payload there. -/
  stuck : ∀ ⦃r s s'⦄, read r s = (false, r, s') → readPayload type r = none

namespace FieldReader

/-- A field of one fixed shape: `if (!r.read…(v)) return false; out.field = v; return true`. -/
def ofPrimitive (type : WireType) (prim : Reader → Option α × Reader) (wrap : α → Payload)
    (unwrap : Payload → Option α) (hwrap : ∀ v, unwrap (wrap v) = some v)
    (hsuffix : ∀ r, (prim r).2 <:+ r)
    (hprim : ∀ r, readPayload type r = (prim r).1.map fun v ↦ (wrap v, (prim r).2))
    (set : σ → α → σ) : FieldReader σ where
  type := type
  read r s :=
    match prim r with
    | (none, r₁) => (false, r₁, s)
    | (some v, r₁) => (true, r₁, set s v)
  meaning p s := (unwrap p).map (set s)
  resumes _ _ := false
  suffix r s := by
    have := hsuffix r
    split <;> simp_all
  taken r s r' s' hok _ := by
    rcases hv : prim r with ⟨v, r₁⟩
    cases v with
    | none => simp [hv] at hok
    | some v =>
      simp only [hv, Prod.mk.injEq, true_and] at hok
      obtain ⟨rfl, rfl⟩ := hok
      exact ⟨wrap v, by simp [hprim, hv], by simp [hwrap]⟩
  stuck r s s' hno := by
    rcases hv : prim r with ⟨v, r₁⟩
    cases v with
    | none => simp [hprim, hv]
    | some v => simp [hv] at hno

def varint (set : σ → ℕ → σ) : FieldReader σ :=
  ofPrimitive .varint readVarint .varint (fun | .varint v => some v | _ => none) (fun _ ↦ rfl)
    readVarint_suffix (fun _ ↦ rfl) set

/-- `out.field = static_cast<uint32_t>(v)`. -/
def uint32 (set : σ → UInt32 → σ) : FieldReader σ := varint fun s v ↦ set s (UInt32.ofNat v)

/-- `out.field = static_cast<int32_t>(static_cast<uint32_t>(v))`. -/
def int32 (set : σ → Int32 → σ) : FieldReader σ :=
  varint fun s v ↦ set s (UInt32.ofNat v).toInt32

/-- `out.field = static_cast<int64_t>(v)`. -/
def int64 (set : σ → Int64 → σ) : FieldReader σ :=
  varint fun s v ↦ set s (UInt64.ofNat v).toInt64

/-- `out.field = (v != 0)`. -/
def bool (set : σ → Bool → σ) : FieldReader σ := varint fun s v ↦ set s (v != 0)

/-- `out.field = fromWire(v)`. -/
def enumerator (fromWire : ℕ → α) (set : σ → α → σ) : FieldReader σ :=
  varint fun s v ↦ set s (fromWire v)

def double (set : σ → UInt64 → σ) : FieldReader σ :=
  ofPrimitive .fixed64 readDouble .fixed64 (fun | .fixed64 v => some v | _ => none) (fun _ ↦ rfl)
    readFixed64_suffix (fun _ ↦ rfl) set

def float (set : σ → UInt32 → σ) : FieldReader σ :=
  ofPrimitive .fixed32 readFloat .fixed32 (fun | .fixed32 v => some v | _ => none) (fun _ ↦ rfl)
    readFixed32_suffix (fun _ ↦ rfl) set

/-- A length-delimited field whose bytes are then interpreted, possibly without success: the
cursor already stands behind the payload when the interpretation fails. -/
def delimited (interpret : List UInt8 → σ → Bool × σ) (meaning : List UInt8 → σ → Option σ)
    (resumes : List UInt8 → σ → Bool)
    (hagree : ∀ data s s', interpret data s = (true, s') → resumes data s = false →
      meaning data s = some s') : FieldReader σ where
  type := .lengthDelimited
  read r s :=
    match readBytes r with
    | (none, r₁) => (false, r₁, s)
    | (some data, r₁) => ((interpret data s).1, r₁, (interpret data s).2)
  meaning p s :=
    match p with
    | .lengthDelimited data => meaning data s
    | _ => none
  resumes r s :=
    match readBytes r with
    | (none, _) => false
    | (some data, _) => resumes data s
  suffix r s := by
    have := readBytes_suffix r
    split <;> simp_all
  taken r s r' s' hok hres := by
    rcases hdata : readBytes r with ⟨data, r₁⟩
    cases data with
    | none => simp [hdata] at hok
    | some data =>
      simp only [hdata, Prod.mk.injEq] at hok hres
      obtain ⟨hok₁, rfl, hok₂⟩ := hok
      refine ⟨.lengthDelimited data, by simp [readPayload, hdata], ?_⟩
      exact hagree data s s' (Prod.ext hok₁ hok₂) hres
  stuck r s s' hno := by
    rcases hdata : readBytes r with ⟨data, r₁⟩
    cases data with
    | none => simp [readPayload, hdata]
    | some data =>
      -- a payload that was read has moved the cursor
      simp only [hdata, Prod.mk.injEq] at hno
      obtain ⟨-, rfl, -⟩ := hno
      exact absurd (readBytes_length_lt hdata) (lt_irrefl _)

/-- A length-delimited field that is interpreted without any further loop over fields. -/
def packed (interpret : List UInt8 → σ → Bool × σ) : FieldReader σ :=
  delimited interpret
    (fun data s ↦ if (interpret data s).1 then some (interpret data s).2 else none)
    (fun _ _ ↦ false) (fun data s s' h _ ↦ by simp [h])

/-- `readString`, `readBytesInto…`: any bytes will do. -/
def bytes (set : σ → List UInt8 → σ) : FieldReader σ :=
  packed fun data s ↦ (true, set s data)

/-- `while (!sub.eof()) { if (!sub.read…(v)) return false; out.push_back(v); }` -/
def packedLoop (read : Reader → Option α × Reader) : ℕ → Reader → List α → Bool × List α
  | _, [], out => (true, out)
  | 0, _ :: _, out => (false, out)
  | n + 1, b :: r, out =>
    match read (b :: r) with
    | (none, _) => (false, out)
    | (some v, r₁) => packedLoop read n r₁ (out ++ [v])

/-- `readPackedFixed32`, `readPackedDouble`: values of `size` bytes, appended to what is there. -/
def packedValues (size : ℕ) (read : Reader → Option α × Reader) (get : σ → List α)
    (set : σ → List α → σ) : FieldReader σ :=
  packed fun data s ↦
    if data.length % size ≠ 0 then (false, s)
    else ((packedLoop read data.length data (get s)).1,
      set s (packedLoop read data.length data (get s)).2)

def packedFixed32 (get : σ → List UInt32) (set : σ → List UInt32 → σ) : FieldReader σ :=
  packedValues 4 readFixed32 get set

def packedDouble (get : σ → List UInt64) (set : σ → List UInt64 → σ) : FieldReader σ :=
  packedValues 8 readDouble get set

/-- `readPackedDoubleArray`: exactly `n` doubles. -/
def packedDoubleArray (n : ℕ) (set : σ → Vector UInt64 n → σ) : FieldReader σ :=
  packed fun data s ↦
    if data.length ≠ n * 8 then (false, s)
    else (true, set s (.ofFn fun i ↦ UInt64.ofNat (value (LittleEndian.element data 8 i))))

/-- A nested message decoded in place:
`reader.readMessage(nested) && decode…(nested, out.field)`. -/
def message (d : MessageDecoder τ) (get : σ → τ) (set : σ → τ → σ) : FieldReader σ :=
  delimited
    (fun data s ↦ match d.decode data (get s) with
      | .ok x => (true, set s x)
      | .error x => (false, set s x))
    (fun data s ↦ (d.meaning data (get s)).map (set s)) (fun data s ↦ d.resumes data (get s))
    (fun data s s' hok hres ↦ by
      cases hdec : d.decode data (get s) with
      | error x => simp [hdec] at hok
      | ok x =>
        simp only [hdec, Prod.mk.injEq, true_and] at hok
        rw [d.sound hdec hres, Option.map_some, hok])

/-- A nested message decoded into a fresh value that is stored only on success:
`readPrimitiveIntoVector` and its relatives. -/
def element (d : MessageDecoder τ) (init : τ) (push : σ → τ → σ) : FieldReader σ :=
  delimited
    (fun data s ↦ match d.decode data init with
      | .ok x => (true, push s x)
      | .error _ => (false, s))
    (fun data s ↦ (d.meaning data init).map (push s)) (fun data _ ↦ d.resumes data init)
    (fun data s s' hok hres ↦ by
      cases hdec : d.decode data init with
      | error x => simp [hdec] at hok
      | ok x =>
        simp only [hdec, Prod.mk.injEq, true_and] at hok
        rw [d.sound hdec hres, Option.map_some, hok])

end FieldReader

/-! ## Tables of readers -/

/-- `switch (tag.field) { case n: return tag.type == … && read…; … default: return false; }` -/
def fieldHandler (fields : List (ℕ × FieldReader σ)) : FieldHandler σ := fun tag r s ↦
  match fields.lookup tag.field with
  | none => (false, r, s)
  | some f => if tag.type = f.type then f.read r s else (false, r, s)

def Handler.ofFields (fields : List (ℕ × FieldReader σ)) : Handler σ where
  run := fieldHandler fields
  meaning tag p s :=
    match fields.lookup tag.field with
    | none => some s
    | some f => if tag.type = f.type then f.meaning p s else some s
  resumes tag r s :=
    match fields.lookup tag.field with
    | none => false
    | some f => if tag.type = f.type then f.resumes r s else false
  suffix tag r s := by
    rw [fieldHandler]
    split
    · exact List.suffix_refl r
    · split_ifs
      · exact FieldReader.suffix _ r s
      · exact List.suffix_refl r
  taken tag r s r' s' hok hres := by
    rw [fieldHandler] at hok
    cases hf : fields.lookup tag.field with
    | none => simp [hf] at hok
    | some f =>
      simp only [hf] at hok hres ⊢
      by_cases htype : tag.type = f.type
      · rw [if_pos htype] at hok hres
        simp only [htype, if_true]
        exact f.taken hok hres
      · rw [if_neg htype] at hok
        simp at hok
  declined tag r s s' p r' hno hp := by
    rw [fieldHandler] at hno
    cases hf : fields.lookup tag.field with
    | none =>
      simp only [hf, Prod.mk.injEq, true_and] at hno
      exact ⟨hno.symm, rfl⟩
    | some f =>
      simp only [hf] at hno ⊢
      by_cases htype : tag.type = f.type
      · rw [if_pos htype] at hno
        rw [htype, f.stuck hno] at hp
        simp at hp
      · rw [if_neg htype, Prod.mk.injEq, Prod.mk.injEq] at hno
        rw [if_neg htype]
        exact ⟨hno.2.2.symm, rfl⟩

/-- In terms of the bytes, the loop resumes at a field of the table that cannot be read, if a payload
of the same wire type can be read from where the cursor was left. -/
theorem resumesAfter_fieldHandler_iff {fields : List (ℕ × FieldReader σ)} {tag : Tag} {r : Reader}
    {s : σ} : FieldHandler.resumesAfter (fieldHandler fields) tag r s = true ↔
      ∃ f, fields.lookup tag.field = some f ∧ tag.type = f.type ∧ (f.read r s).1 = false ∧
        (readPayload tag.type (f.read r s).2.1).isSome := by
  rw [FieldHandler.resumesAfter, fieldHandler]
  rcases hf : fields.lookup tag.field with _ | f
  · simp
  by_cases htype : tag.type = f.type
  · simp only [htype, if_true, Option.some.injEq, exists_eq_left']
    rcases hread : f.read r s with ⟨_ | _, r₁, s₁⟩
    · simp only [Bool.and_eq_true, decide_eq_true_eq, true_and, (skip_eq f.type r₁).1]
      refine ⟨And.right, fun hsome ↦ ⟨fun hlength ↦ ?_, hsome⟩⟩
      -- a reader that fails where it started has no payload in front of it
      have hsuffix : r₁ <:+ r := by simpa only [hread] using f.suffix r s
      obtain rfl := hsuffix.eq_of_length hlength
      rw [f.stuck hread] at hsome
      cases hsome
    · simp
  · simp [htype]

/-- At a field of bytes it does if they cannot be read, and others can behind the length. -/
theorem resumesAfter_bytes_iff {fields : List (ℕ × FieldReader σ)} {tag : Tag} {r : Reader} {s : σ}
    {set : σ → List UInt8 → σ} (hfield : fields.lookup tag.field = some (.bytes set))
    (htype : tag.type = .lengthDelimited) :
    FieldHandler.resumesAfter (fieldHandler fields) tag r s = true ↔
      (readBytes r).1 = none ∧ (readBytes (readBytes r).2).1.isSome := by
  have hshared : (FieldReader.bytes set).type = .lengthDelimited := rfl
  simp only [resumesAfter_fieldHandler_iff, hfield, htype, hshared, Option.some.injEq,
    exists_eq_left', true_and]
  rcases hbytes : readBytes r with ⟨_ | data, r₁⟩
  · simp [FieldReader.bytes, FieldReader.packed, FieldReader.delimited, hbytes, readPayload]
  · simp [FieldReader.bytes, FieldReader.packed, FieldReader.delimited, hbytes]

/-- A decoder that is one `parseFields` over a table. -/
def MessageDecoder.ofFields (fields : List (ℕ × FieldReader τ)) : MessageDecoder τ :=
  .ofBody (.ofHandler (.ofFields fields))

/-! ## Hand-written loops -/

/-- The loops that know a field by number and wire type, leave at its first failed read, and skip
every other field. -/
def strictFieldsBody (fields : List (ℕ × FieldReader σ)) (tag : Tag) (r : Reader) (s : σ) :
    Except σ (Reader × σ) :=
  match fields.lookup tag.field with
  | none => skipOr s tag r s
  | some f =>
    if tag.type = f.type then
      match f.read r s with
      | (true, r₁, s₁) => .ok (r₁, s₁)
      | (false, _, s₁) => .error s₁
    else skipOr s tag r s

def FieldBody.ofStrictFields (fields : List (ℕ × FieldReader σ)) : FieldBody σ σ where
  run := strictFieldsBody fields
  meaning := (Handler.ofFields fields).meaning
  resumes := (Handler.ofFields fields).resumes
  advances tag r s r' s' hok := by
    rw [strictFieldsBody] at hok
    split at hok
    · exact skipOr_length_le hok
    · rename_i f hf
      split_ifs at hok
      · have hle := (f.suffix r s).length_le
        split at hok
        · rename_i r₁ s₁ hread
          rw [hread] at hle
          simp only [Except.ok.injEq, Prod.mk.injEq] at hok
          rwa [← hok.1]
        · simp at hok
      · exact skipOr_length_le hok
  passed tag r s r' s' hok hres := by
    rw [strictFieldsBody] at hok
    rw [Handler.ofFields] at hres ⊢
    cases hf : fields.lookup tag.field with
    | none =>
      simp only [hf] at hok ⊢
      obtain ⟨p, hp, rfl⟩ := readPayload_of_skipOr hok
      exact ⟨p, hp, rfl⟩
    | some f =>
      simp only [hf] at hok hres ⊢
      by_cases htype : tag.type = f.type
      · rw [if_pos htype] at hok hres
        simp only [htype, if_true]
        rcases hread : f.read r s with ⟨ok, r₁, s₁⟩
        cases ok with
        | false => simp [hread] at hok
        | true =>
          simp only [hread, Except.ok.injEq, Prod.mk.injEq] at hok
          obtain ⟨rfl, rfl⟩ := hok
          exact f.taken hread hres
      · rw [if_neg htype] at hok
        simp only [if_neg htype]
        obtain ⟨p, hp, rfl⟩ := readPayload_of_skipOr hok
        exact ⟨p, hp, rfl⟩

def MessageDecoder.ofStrictFields (fields : List (ℕ × FieldReader τ)) : MessageDecoder τ :=
  .ofBody (.ofStrictFields fields)

/-! ## Containers -/

/-- One kind of element of a container, with the name its error message uses. -/
structure Element (σ : Type) where
  name : String
  decode : Reader → σ → Option σ
  meaning : List UInt8 → σ → Option σ
  resumes : Reader → σ → Bool
  sound : ∀ ⦃r s s'⦄, decode r s = some s' → resumes r s = false → meaning r s = some s'

/-- A nested message decoded into a fresh element, which is appended on success. -/
def Element.push (name : String) (d : MessageDecoder τ) (init : τ) (append : σ → τ → σ) :
    Element σ where
  name := name
  decode r s :=
    match d.decode r init with
    | .ok x => some (append s x)
    | .error _ => none
  meaning data s := (d.meaning data init).map (append s)
  resumes r _ := d.resumes r init
  sound r s s' hok hres := by
    cases hdec : d.decode r init with
    | error x => simp [hdec] at hok
    | ok x =>
      simp only [hdec, Option.some.injEq] at hok
      rw [d.sound hdec hres, Option.map_some, hok]

/-- The body of the container loops. `name` begins every error message. -/
def containerBody (name : String) (elements : List (ℕ × Element σ)) (tag : Tag) (r : Reader)
    (s : σ) : Except String (Reader × σ) :=
  if tag.type ≠ .lengthDelimited then skipOr (name ++ " wire: skip failed") tag r s
  else
    match readMessage r with
    | (none, _) => .error (name ++ " wire: bad nested message length")
    | (some nested, r₁) =>
      match elements.lookup tag.field with
      | none => .ok (r₁, s)
      | some e =>
        match e.decode nested s with
        | none => .error (name ++ " wire: " ++ e.name ++ " decode failed")
        | some s₁ => .ok (r₁, s₁)

def FieldBody.ofElements (name : String) (elements : List (ℕ × Element σ)) :
    FieldBody String σ where
  run := containerBody name elements
  meaning tag p s :=
    match p, elements.lookup tag.field with
    | .lengthDelimited data, some e => e.meaning data s
    | _, _ => some s
  resumes tag r s :=
    match readMessage r, elements.lookup tag.field with
    | (some nested, _), some e => decide (tag.type = .lengthDelimited) && e.resumes nested s
    | _, _ => false
  advances tag r s r' s' hok := by
    rw [containerBody] at hok
    split_ifs at hok with htype
    · exact skipOr_length_le hok
    · have hle := (readBytes_suffix r).length_le
      rw [readMessage] at hok
      rcases hdata : readBytes r with ⟨data, r₁⟩
      rw [hdata] at hle
      cases data with
      | none => simp [hdata] at hok
      | some data =>
        simp only [hdata] at hok
        split at hok
        · simp only [Except.ok.injEq, Prod.mk.injEq] at hok
          rwa [← hok.1]
        · split at hok
          · simp at hok
          · simp only [Except.ok.injEq, Prod.mk.injEq] at hok
            rwa [← hok.1]
  passed tag r s r' s' hok hres := by
    rw [containerBody] at hok
    by_cases htype : tag.type = .lengthDelimited
    · rw [if_neg (not_not.mpr htype), readMessage] at hok
      rw [readMessage] at hres
      rcases hdata : readBytes r with ⟨data, r₁⟩
      cases data with
      | none => simp [hdata] at hok
      | some data =>
        have hp : readPayload tag.type r = some (.lengthDelimited data, r₁) := by
          rw [htype, readPayload, hdata]
          rfl
        cases he : elements.lookup tag.field with
        | none =>
          simp only [hdata, he, Except.ok.injEq, Prod.mk.injEq] at hok
          obtain ⟨rfl, rfl⟩ := hok
          exact ⟨_, hp, rfl⟩
        | some e =>
          simp only [hdata, he] at hok hres
          cases hdec : e.decode data s with
          | none => simp [hdec] at hok
          | some s₁ =>
            simp only [hdec, Except.ok.injEq, Prod.mk.injEq] at hok
            obtain ⟨rfl, rfl⟩ := hok
            have hres' : e.resumes data s = false := by simpa [htype] using hres
            exact ⟨_, hp, e.sound hdec hres'⟩
    · rw [if_pos htype] at hok
      obtain ⟨p, hp, rfl⟩ := readPayload_of_skipOr hok
      refine ⟨p, hp, ?_⟩
      cases p with
      | lengthDelimited data => exact absurd (type_of_readPayload hp) htype
      | varint v => rfl
      | fixed64 v => rfl
      | fixed32 v => rfl

/-! ## Whole buffers -/

/-- `deserialize…` of a message that is one `parseFields`. -/
def deserializeMessage (name : String) (d : MessageDecoder τ) (init : τ) (data : List UInt8) :
    Except String τ :=
  if data.length = 0 then .error (name ++ " wire: empty buffer")
  else
    match d.decode data init with
    | .error _ => .error (name ++ " wire: decode failed")
    | .ok x => .ok x

/-- `deserialize…` of a container. -/
def deserializeContainer (name : String) (elements : List (ℕ × Element σ)) (init : σ)
    (data : List UInt8) : Except String σ :=
  if data.length = 0 then .error (name ++ " wire: empty buffer")
  else whileFields (fun _ ↦ name ++ " wire: bad tag") (containerBody name elements) data init

theorem deserializeMessage_sound {name : String} {d : MessageDecoder τ} {init x : τ}
    {data : List UInt8} (hok : deserializeMessage name d init data = .ok x)
    (hres : d.resumes data init = false) : d.meaning data init = some x := by
  rw [deserializeMessage] at hok
  split_ifs at hok with hlen
  cases hdec : d.decode data init with
  | error e => simp [hdec] at hok
  | ok y =>
    simp only [hdec, Except.ok.injEq] at hok
    rw [d.sound hdec hres, hok]

theorem deserializeContainer_sound {name : String} {elements : List (ℕ × Element σ)} {init x : σ}
    {data : List UInt8} (hok : deserializeContainer name elements init data = .ok x)
    (hres : (FieldBody.ofElements name elements).messageResumes data init = false) :
    (FieldBody.ofElements name elements).messageMeaning data init = some x := by
  rw [deserializeContainer] at hok
  split_ifs at hok with hlen
  exact (FieldBody.ofElements name elements).sound_of_not_resumes hok hres

end PlotJuggler
