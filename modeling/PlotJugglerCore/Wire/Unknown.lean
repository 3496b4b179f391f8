import PlotJugglerCore.Wire.Schema

/-!
# Decoders that follow a schema

The connection of the decoders to `WireSchema`. A decoder follows a message type when it accepts
every well-formed message of the type, with the fold of the fields as the value, and when inserting
an unknown field does not change that fold. Both are read off the tables:
`MessageDecoder.follows_ofFields` and its relatives ask for the readers of the table to have the
shapes of the schema, one by one.

Nothing is said here about messages that are not well formed. What a decoder makes of those is not
a matter of its fields alone, because it may resume.
-/

namespace PlotJuggler

open LittleEndian WireSchema

variable {M σ τ α ε : Type} {S : WireSchema M} {T U : M}

/-! ## Loop bodies -/

/-- The body takes the field, wherever it stands, and moves the value by its meaning. -/
def FieldBody.Takes (b : FieldBody ε σ) (tag : Tag) (p : Payload) : Prop :=
  ∀ s, ∃ s', b.meaning tag p s = some s' ∧
    ∀ r r', readPayload tag.type r = some (p, r') → b.run tag r s = .ok (r', s')

/-- The body is made for messages of the type. -/
structure FieldBody.Follows (S : WireSchema M) (T : M) (b : FieldBody ε σ) : Prop where
  takes : ∀ {tag p}, S.Carries T tag p → tag.type = p.type → b.Takes tag p
  unknown : ∀ {tag} p s, (S.fields T).lookup tag.field = none → b.meaning tag p s = some s
  nested : ∀ {host U n data data'} {u : UnknownField S host},
    (S.fields T).lookup n = some (.message U) → u.InsertedIn U data data' →
      data'.length < 2 ^ 64 → S.WellFormed U data → ∀ s,
        b.meaning ⟨n, .lengthDelimited⟩ (.lengthDelimited data') s =
          b.meaning ⟨n, .lengthDelimited⟩ (.lengthDelimited data) s

namespace FieldBody

variable {b : FieldBody ε σ}

/-- A loop whose body takes every field of a piece arrives behind it. -/
theorem whileFields_append_of_takes {data : List UInt8} {fields : List (Tag × Payload)}
    (hsplit : splitFields data = some fields) (h : ∀ f ∈ fields, b.Takes f.1 f.2)
    (badTag : σ → ε) (rest : Reader) (s : σ) :
    ∃ s', fields.foldlM (fun s f ↦ b.meaning f.1 f.2 s) s = some s' ∧
      whileFields badTag b.run (data ++ rest) s = whileFields badTag b.run rest s' := by
  induction fields generalizing data s with
  | nil =>
    rcases splitFields_cases hsplit with ⟨rfl, -⟩ | ⟨_, _, _, _, _, _, _, _, hnil⟩
    · exact ⟨s, rfl, rfl⟩
    · exact absurd hnil (by simp)
  | cons f l ih =>
    rcases splitFields_cases hsplit with ⟨-, hnil⟩ | ⟨tag, p, r₁, r₂, l', htag, hp, hl, heq⟩
    · exact absurd hnil (by simp)
    · obtain ⟨rfl, rfl⟩ := List.cons.inj heq
      obtain ⟨s₁, hmeaning, hrun⟩ := h _ List.mem_cons_self s
      obtain ⟨s', hfold, hloop⟩ := ih hl (fun f hf ↦ h f (List.mem_cons_of_mem _ hf)) s₁
      refine ⟨s', ?_, ?_⟩
      · rw [List.foldlM_cons, hmeaning]
        exact hfold
      · rw [whileFields_of_readTag b.advances (readTag_append_right rest htag),
          hrun _ _ (readPayload_append_right rest hp)]
        exact hloop

theorem Follows.complete (hb : b.Follows S T) {data : List UInt8} (h : S.WellFormed T data)
    (badTag : σ → ε) (s : σ) :
    ∃ s', b.messageMeaning data s = some s' ∧ whileFields badTag b.run data s = .ok s' := by
  rcases h with @⟨_, _, fields, hsplit, hfields, -⟩
  have htakes : ∀ f ∈ fields, b.Takes f.1 f.2 := fun f hf ↦
    hb.takes (hfields f hf) (type_of_mem_splitFields hsplit hf)
  obtain ⟨s', hfold, hloop⟩ := whileFields_append_of_takes hsplit htakes badTag [] s
  rw [List.append_nil, whileFields_nil] at hloop
  refine ⟨s', ?_, hloop⟩
  rw [messageMeaning, hsplit]
  exact hfold

/-- Replacing a field by fields of the same meaning leaves the fold alone. -/
theorem foldlM_replace {meaning : σ → Tag × Payload → Option σ} (l₁ l₂ : List (Tag × Payload))
    (old new : List (Tag × Payload))
    (h : ∀ s, new.foldlM meaning s = old.foldlM meaning s) (s : σ) :
    (l₁ ++ (new ++ l₂)).foldlM meaning s = (l₁ ++ (old ++ l₂)).foldlM meaning s := by
  simp only [List.foldlM_append]
  congr 1
  funext s₁
  rw [h s₁]

theorem Follows.blind (hb : b.Follows S T) {host : M} {u : UnknownField S host}
    {data data' : List UInt8} (h : u.InsertedIn T data data') (hlen : data'.length < 2 ^ 64)
    (hdata : S.WellFormed T data) (s : σ) :
    b.messageMeaning data' s = b.messageMeaning data s := by
  obtain ⟨hsplit, hfields, -⟩ := hdata
  rcases h with @⟨before, after, h⟩ | @⟨_, U, n, before, nested, nested', after, h, hfield, hnested⟩
  · obtain ⟨l₁, l₂, rfl, hsplit'⟩ := u.splitFields_here h hsplit
    rw [messageMeaning, messageMeaning, hsplit, hsplit']
    refine foldlM_replace l₁ l₂ [] [(u.tag, u.payload)] (fun s ↦ ?_) s
    rw [List.foldlM_cons, hb.unknown _ _ u.undefined]
    rfl
  · have hlen' := length_nested_lt hlen
    obtain ⟨l₁, l₂, rfl, hsplit'⟩ := splitFields_message (S.number_ok hfield) h
      (hnested.length_le.trans_lt hlen') hlen' hsplit
    have hwf : S.WellFormed U nested := by
      rcases hfields _ (List.mem_append_right l₁ List.mem_cons_self) with ⟨_, hnone, _⟩ | ⟨hs, hp⟩
      · rw [hfield] at hnone
        exact absurd hnone (by simp)
      · obtain rfl := Option.some.inj (hfield.symm.trans hs)
        rcases hp with _ | _ | _ | _ | _ | _ | hwf
        exact hwf
    rw [messageMeaning, messageMeaning, hsplit, hsplit']
    refine foldlM_replace l₁ l₂ [(⟨n, .lengthDelimited⟩, .lengthDelimited nested)]
      [(⟨n, .lengthDelimited⟩, .lengthDelimited nested')] (fun s ↦ ?_) s
    rw [List.foldlM_cons, List.foldlM_cons, hb.nested hfield hnested hlen' hwf]

end FieldBody

/-! ## Message decoders -/

structure MessageDecoder.Follows (S : WireSchema M) (T : M) (d : MessageDecoder τ) : Prop where
  complete : ∀ {data}, S.WellFormed T data → ∀ x, ∃ y, d.meaning data x = some y ∧
    d.decode data x = .ok y
  blind : ∀ {host data data'} {u : UnknownField S host}, u.InsertedIn T data data' →
    data'.length < 2 ^ 64 → S.WellFormed T data → ∀ x, d.meaning data' x = d.meaning data x

namespace MessageDecoder

theorem follows_ofBody {b : FieldBody τ τ} (hb : b.Follows S T) :
    (MessageDecoder.ofBody b).Follows S T where
  complete h x := hb.complete h id x
  blind h hlen hdata x := hb.blind h hlen hdata x

/-- The locals of a well-formed message can be put together. -/
theorem follows_ofLocals {d : MessageDecoder σ} (hd : d.Follows S T) {init : σ}
    {finish : σ → Option τ}
    (hfinish : ∀ {data s}, S.WellFormed T data → d.meaning data init = some s →
      (finish s).isSome) : (MessageDecoder.ofLocals d init finish).Follows S T where
  complete {data} h x := by
    obtain ⟨s, hmeaning, hdecode⟩ := hd.complete h init
    obtain ⟨y, hy⟩ := Option.isSome_iff_exists.mp (hfinish h hmeaning)
    refine ⟨y, ?_, ?_⟩
    · simp only [MessageDecoder.ofLocals, hmeaning, Option.bind_some, hy]
    · simp only [MessageDecoder.ofLocals, hdecode, hy]
  blind h hlen hdata x := by
    simp only [MessageDecoder.ofLocals, hd.blind h hlen hdata]

theorem follows_after {d : MessageDecoder τ} (hd : d.Follows S T) (prepare : τ → τ) :
    (d.after prepare).Follows S T where
  complete h x := hd.complete h (prepare x)
  blind h hlen hdata x := hd.blind h hlen hdata (prepare x)

end MessageDecoder

/-! ## Readers -/

theorem readBytes_of_readPayload {r r' : Reader} {data : List UInt8}
    (h : readPayload .lengthDelimited r = some (.lengthDelimited data, r')) :
    readBytes r = (some data, r') := by
  simp only [readPayload, Option.map_eq_some_iff, Prod.mk.injEq,
    Payload.lengthDelimited.injEq] at h
  obtain ⟨v, hv, rfl, hr'⟩ := h
  exact Prod.ext hv hr'

def FieldReader.Takes (f : FieldReader σ) (p : Payload) : Prop :=
  ∀ s, ∃ s', f.meaning p s = some s' ∧
    ∀ r r', readPayload f.type r = some (p, r') → f.read r s = (true, r', s')

/-- The reader is made for fields of the shape. -/
structure FieldReader.Follows (S : WireSchema M) (shape : FieldShape M) (f : FieldReader σ) :
    Prop where
  type_eq : f.type = shape.type
  takes : ∀ {p}, S.Accepts shape p → f.Takes p
  nested : ∀ {host U data data'} {u : UnknownField S host}, shape = .message U →
    u.InsertedIn U data data' → data'.length < 2 ^ 64 → S.WellFormed U data → ∀ s,
      f.meaning (.lengthDelimited data') s = f.meaning (.lengthDelimited data) s

namespace FieldReader

theorem takes_ofPrimitive {type : WireType} {prim : Reader → Option α × Reader}
    {wrap : α → Payload} {unwrap : Payload → Option α} {hwrap : ∀ v, unwrap (wrap v) = some v}
    {hsuffix : ∀ r, (prim r).2 <:+ r}
    {hprim : ∀ r, readPayload type r = (prim r).1.map fun v ↦ (wrap v, (prim r).2)}
    (set : σ → α → σ) (v : α) :
    (ofPrimitive type prim wrap unwrap hwrap hsuffix hprim set).Takes (wrap v) := by
  intro s
  refine ⟨set s v, by simp [ofPrimitive, hwrap], fun r r' hr ↦ ?_⟩
  rw [ofPrimitive] at hr ⊢
  simp only [hprim] at hr ⊢
  rcases hv : prim r with ⟨w, r₁⟩
  cases w with
  | none => simp [hv] at hr
  | some w =>
    simp only [hv, Option.map_some, Option.some.injEq, Prod.mk.injEq] at hr
    -- the payload determines the value
    have hvw : v = w := by
      have := hwrap w
      rw [hr.1, hwrap v] at this
      exact Option.some.inj this
    rw [hvw, hr.2]

@[simp] theorem follows_varint (set : σ → ℕ → σ) : (varint set).Follows S .varint where
  type_eq := rfl
  takes h := by
    cases h
    exact takes_ofPrimitive set _
  nested h := nomatch h

@[simp] theorem follows_uint32 (set : σ → UInt32 → σ) : (uint32 set).Follows S .varint :=
  follows_varint _

@[simp] theorem follows_int32 (set : σ → Int32 → σ) : (int32 set).Follows S .varint :=
  follows_varint _

@[simp] theorem follows_int64 (set : σ → Int64 → σ) : (int64 set).Follows S .varint :=
  follows_varint _

@[simp] theorem follows_bool (set : σ → Bool → σ) : (bool set).Follows S .varint :=
  follows_varint _

@[simp] theorem follows_enumerator (fromWire : ℕ → α) (set : σ → α → σ) :
    (enumerator fromWire set).Follows S .varint := follows_varint _

@[simp] theorem follows_double (set : σ → UInt64 → σ) : (double set).Follows S .double where
  type_eq := rfl
  takes h := by
    cases h
    exact takes_ofPrimitive set _
  nested h := nomatch h

@[simp] theorem follows_float (set : σ → UInt32 → σ) : (float set).Follows S .float where
  type_eq := rfl
  takes h := by
    cases h
    exact takes_ofPrimitive set _
  nested h := nomatch h

/-- A length-delimited payload whose interpretation succeeds is taken. -/
theorem takes_delimited {interpret : List UInt8 → σ → Bool × σ}
    {meaning : List UInt8 → σ → Option σ} {resumes : List UInt8 → σ → Bool} {hagree}
    {data : List UInt8}
    (h : ∀ s, ∃ s', meaning data s = some s' ∧ interpret data s = (true, s')) :
    (delimited interpret meaning resumes hagree).Takes (.lengthDelimited data) := by
  intro s
  obtain ⟨s', hmeaning, hrun⟩ := h s
  refine ⟨s', hmeaning, fun r r' hr ↦ ?_⟩
  have hdata : readBytes r = (some data, r') := readBytes_of_readPayload hr
  simp only [delimited, hdata, hrun]

theorem takes_packed {interpret : List UInt8 → σ → Bool × σ} {data : List UInt8}
    (h : ∀ s, (interpret data s).1 = true) : (packed interpret).Takes (.lengthDelimited data) :=
  takes_delimited fun s ↦ ⟨(interpret data s).2, if_pos (h s), Prod.ext (h s) rfl⟩

@[simp] theorem follows_bytes (set : σ → List UInt8 → σ) : (bytes set).Follows S .bytes where
  type_eq := rfl
  takes h := by
    cases h
    exact takes_packed fun _ ↦ rfl
  nested h := nomatch h

/-- The loop over packed values ends without complaint when their sizes add up. -/
theorem packedLoop_of_length {size : ℕ} (hsize : 0 < size) {read : Reader → Option α × Reader}
    (hread : ∀ r, size ≤ r.length → ∃ v, read r = (some v, r.drop size)) {n : ℕ} {r : Reader}
    (hn : r.length ≤ n) (hr : r.length % size = 0) (out : List α) :
    (packedLoop read n r out).1 = true := by
  induction n generalizing r out with
  | zero =>
    obtain rfl : r = [] := List.eq_nil_of_length_eq_zero (Nat.le_zero.mp hn)
    rfl
  | succ n ih =>
    cases r with
    | nil => rfl
    | cons c r =>
      have hle : size ≤ (c :: r).length := Nat.le_of_dvd (by simp) (Nat.dvd_of_mod_eq_zero hr)
      obtain ⟨v, hv⟩ := hread (c :: r) hle
      have hdrop : ((c :: r).drop size).length = (c :: r).length - size := List.length_drop
      have hmod : ((c :: r).drop size).length % size = 0 := by
        rw [hdrop]
        exact Nat.mod_eq_zero_of_dvd (Nat.dvd_sub (Nat.dvd_of_mod_eq_zero hr) (dvd_refl size))
      simp only [packedLoop, hv]
      exact ih (by omega) hmod _

theorem follows_packedValues {size : ℕ} (hsize : 0 < size) {read : Reader → Option α × Reader}
    (hread : ∀ r, size ≤ r.length → ∃ v, read r = (some v, r.drop size)) (get : σ → List α)
    (set : σ → List α → σ) : (packedValues size read get set).Follows S (.packed size) where
  type_eq := rfl
  takes h := by
    rcases h with _ | _ | _ | _ | hmod
    refine takes_packed fun s ↦ ?_
    rw [if_neg (by simpa using hmod)]
    exact packedLoop_of_length hsize hread (le_refl _) hmod _
  nested h := nomatch h

@[simp] theorem follows_packedFixed32 (get : σ → List UInt32) (set : σ → List UInt32 → σ) :
    (packedFixed32 get set).Follows S (.packed 4) :=
  follows_packedValues (by decide)
    (fun r hr ↦ ⟨_, by rw [readFixed32, if_neg (by omega)]⟩) get set

@[simp] theorem follows_packedDouble (get : σ → List UInt64) (set : σ → List UInt64 → σ) :
    (packedDouble get set).Follows S (.packed 8) :=
  follows_packedValues (by decide)
    (fun r hr ↦ ⟨_, by rw [readDouble, readFixed64, if_neg (by omega)]⟩) get set

@[simp] theorem follows_packedDoubleArray (k : ℕ) (set : σ → Vector UInt64 k → σ) :
    (packedDoubleArray k set).Follows S (.packedArray 8 k) where
  type_eq := rfl
  takes h := by
    rcases h with _ | _ | _ | _ | _ | hlen
    refine takes_packed fun s ↦ ?_
    rw [if_neg (by simpa using hlen)]
  nested h := nomatch h

@[simp] theorem follows_message {d : MessageDecoder τ} (hd : d.Follows S U) (get : σ → τ)
    (set : σ → τ → σ) : (message d get set).Follows S (.message U) where
  type_eq := rfl
  takes h := by
    rcases h with _ | _ | _ | _ | _ | _ | hwf
    refine takes_delimited fun s ↦ ?_
    obtain ⟨y, hmeaning, hdecode⟩ := hd.complete hwf (get s)
    exact ⟨set s y, by rw [hmeaning, Option.map_some], by rw [hdecode]⟩
  nested h hins hlen hwf s := by
    obtain rfl := FieldShape.message.inj h
    exact congrArg (Option.map (set s)) (hd.blind hins hlen hwf (get s))

@[simp] theorem follows_element {d : MessageDecoder τ} (hd : d.Follows S U) (init : τ)
    (push : σ → τ → σ) : (element d init push).Follows S (.message U) where
  type_eq := rfl
  takes h := by
    rcases h with _ | _ | _ | _ | _ | _ | hwf
    refine takes_delimited fun s ↦ ?_
    obtain ⟨y, hmeaning, hdecode⟩ := hd.complete hwf init
    exact ⟨push s y, by rw [hmeaning, Option.map_some], by rw [hdecode]⟩
  nested h hins hlen hwf s := by
    obtain rfl := FieldShape.message.inj h
    exact congrArg (Option.map (push s)) (hd.blind hins hlen hwf init)

end FieldReader

/-! ## Tables -/

/-- The table has the numbers of the message type, and its entries are related to the shapes that
stand under them. -/
def TableMatches {γ : Type} (R : FieldShape M → γ → Prop) (S : WireSchema M) (T : M)
    (table : List (ℕ × γ)) : Prop :=
  List.Forall₂ (fun a b ↦ a.1 = b.1 ∧ R a.2 b.2) (S.fields T) table

theorem TableMatches.lookup {γ : Type} {R : FieldShape M → γ → Prop} {table : List (ℕ × γ)}
    (h : TableMatches R S T table) (n : ℕ) :
    ((S.fields T).lookup n = none ∧ table.lookup n = none) ∨
      ∃ a b, (S.fields T).lookup n = some a ∧ table.lookup n = some b ∧ R a b := by
  rw [TableMatches] at h
  generalize S.fields T = shapes at h ⊢
  induction h with
  | nil => exact .inl ⟨rfl, rfl⟩
  | @cons a b l₁ l₂ hab _ ih =>
    rw [List.lookup_cons, List.lookup_cons, ← hab.1]
    cases n == a.1 with
    | true => exact .inr ⟨a.2, b.2, rfl, rfl, hab.2⟩
    | false => exact ih

theorem TableMatches.lookup_eq_none {γ : Type} {R : FieldShape M → γ → Prop}
    {table : List (ℕ × γ)} (h : TableMatches R S T table) {n : ℕ}
    (hn : (S.fields T).lookup n = none) : table.lookup n = none := by
  rcases h.lookup n with ⟨-, hb⟩ | ⟨a, b, ha, -, -⟩
  · exact hb
  · rw [hn] at ha
    exact absurd ha (by simp)

theorem TableMatches.lookup_eq_some {γ : Type} {R : FieldShape M → γ → Prop}
    {table : List (ℕ × γ)} (h : TableMatches R S T table) {n : ℕ} {shape : FieldShape M}
    (hn : (S.fields T).lookup n = some shape) : ∃ b, table.lookup n = some b ∧ R shape b := by
  rcases h.lookup n with ⟨ha, -⟩ | ⟨a, b, ha, hb, hab⟩
  · rw [hn] at ha
    exact absurd ha (by simp)
  · obtain rfl := Option.some.inj (hn.symm.trans ha)
    exact ⟨b, hb, hab⟩

/-- The readers of the table are made for the fields of the message type. -/
abbrev TableFollows (S : WireSchema M) (T : M) (fields : List (ℕ × FieldReader σ)) : Prop :=
  TableMatches (fun shape f ↦ f.Follows S shape) S T fields

section Tables

variable {fields : List (ℕ × FieldReader σ)} {tag : Tag}

/-- The meaning of a table: its unknown fields mean nothing, and nested messages are blind. -/
theorem TableMatches.unknown (h : TableFollows S T fields) (p : Payload) (s : σ)
    (hn : (S.fields T).lookup tag.field = none) :
    (Handler.ofFields fields).meaning tag p s = some s := by
  simp only [Handler.ofFields, h.lookup_eq_none hn]

theorem TableMatches.nested (h : TableFollows S T fields) {host : M} {n : ℕ}
    {data data' : List UInt8} {u : UnknownField S host}
    (hn : (S.fields T).lookup n = some (.message U)) (hins : u.InsertedIn U data data')
    (hlen : data'.length < 2 ^ 64) (hwf : S.WellFormed U data) (s : σ) :
    (Handler.ofFields fields).meaning ⟨n, .lengthDelimited⟩ (.lengthDelimited data') s =
      (Handler.ofFields fields).meaning ⟨n, .lengthDelimited⟩ (.lengthDelimited data) s := by
  obtain ⟨f, hf, hfollows⟩ := h.lookup_eq_some hn
  have htype : WireType.lengthDelimited = f.type := hfollows.type_eq.symm
  simp only [Handler.ofFields, hf, if_pos htype]
  exact hfollows.nested rfl hins hlen hwf s

theorem skip_of_readPayload {type : WireType} {r r' : Reader} {p : Payload}
    (h : readPayload type r = some (p, r')) : skip type r = (true, r') := by
  obtain ⟨hsome, hrest⟩ := skip_eq type r
  refine Prod.ext ?_ (hrest p r' h)
  rw [hsome, h]
  rfl

theorem FieldBody.follows_ofFields (h : TableFollows S T fields) :
    (FieldBody.ofHandler (.ofFields fields)).Follows S T where
  takes {tag p} hc htype s := by
    rcases hc with ⟨_, hn, -⟩ | ⟨hn, hp⟩
    · refine ⟨s, h.unknown p s hn, fun r r' hr ↦ ?_⟩
      change parseFieldsBody (fieldHandler fields) tag r s = _
      simp only [parseFieldsBody, fieldHandler, h.lookup_eq_none hn, skip_of_readPayload hr]
    · obtain ⟨f, hf, hfollows⟩ := h.lookup_eq_some hn
      have htype' : tag.type = f.type := htype.trans (hp.type_eq.trans hfollows.type_eq.symm)
      obtain ⟨s', hmeaning, hread⟩ := hfollows.takes hp s
      refine ⟨s', ?_, fun r r' hr ↦ ?_⟩
      · change (Handler.ofFields fields).meaning tag p s = _
        simp only [Handler.ofFields, hf, if_pos htype', hmeaning]
      · change parseFieldsBody (fieldHandler fields) tag r s = _
        simp only [parseFieldsBody, fieldHandler, hf, if_pos htype', hread r r' (htype' ▸ hr)]
  unknown p s hn := h.unknown p s hn
  nested hn hins hlen hwf s := h.nested hn hins hlen hwf s

theorem FieldBody.follows_ofStrictFields (h : TableFollows S T fields) :
    (FieldBody.ofStrictFields fields).Follows S T where
  takes {tag p} hc htype s := by
    rcases hc with ⟨_, hn, -⟩ | ⟨hn, hp⟩
    · refine ⟨s, h.unknown p s hn, fun r r' hr ↦ ?_⟩
      change strictFieldsBody fields tag r s = _
      simp only [strictFieldsBody, h.lookup_eq_none hn, skipOr, skip_of_readPayload hr]
    · obtain ⟨f, hf, hfollows⟩ := h.lookup_eq_some hn
      have htype' : tag.type = f.type := htype.trans (hp.type_eq.trans hfollows.type_eq.symm)
      obtain ⟨s', hmeaning, hread⟩ := hfollows.takes hp s
      refine ⟨s', ?_, fun r r' hr ↦ ?_⟩
      · change (Handler.ofFields fields).meaning tag p s = _
        simp only [Handler.ofFields, hf, if_pos htype', hmeaning]
      · change strictFieldsBody fields tag r s = _
        simp only [strictFieldsBody, hf, if_pos htype', hread r r' (htype' ▸ hr)]
  unknown p s hn := h.unknown p s hn
  nested hn hins hlen hwf s := h.nested hn hins hlen hwf s

theorem MessageDecoder.follows_ofFields (h : TableFollows S T fields) :
    (MessageDecoder.ofFields fields).Follows S T :=
  follows_ofBody (FieldBody.follows_ofFields h)

theorem MessageDecoder.follows_ofStrictFields (h : TableFollows S T fields) :
    (MessageDecoder.ofStrictFields fields).Follows S T :=
  follows_ofBody (FieldBody.follows_ofStrictFields h)

end Tables

/-! ## Containers -/

/-- The element is made for nested messages of the type. -/
structure Element.Follows (S : WireSchema M) (U : M) (e : Element σ) : Prop where
  complete : ∀ {data}, S.WellFormed U data → ∀ s, ∃ s', e.meaning data s = some s' ∧
    e.decode data s = some s'
  blind : ∀ {host data data'} {u : UnknownField S host}, u.InsertedIn U data data' →
    data'.length < 2 ^ 64 → S.WellFormed U data → ∀ s, e.meaning data' s = e.meaning data s

@[simp] theorem Element.follows_push {d : MessageDecoder τ} (hd : d.Follows S U) (name : String)
    (init : τ) (append : σ → τ → σ) : (Element.push name d init append).Follows S U where
  complete hwf s := by
    obtain ⟨y, hmeaning, hdecode⟩ := hd.complete hwf init
    refine ⟨append s y, ?_, ?_⟩
    · simp only [Element.push, hmeaning, Option.map_some]
    · simp only [Element.push, hdecode]
  blind hins hlen hwf s := congrArg (Option.map (append s)) (hd.blind hins hlen hwf init)

/-- The elements of the container are the nested messages of the type, under their numbers. -/
abbrev ElementsFollow (S : WireSchema M) (T : M) (elements : List (ℕ × Element σ)) : Prop :=
  TableMatches (fun shape e ↦ ∃ U, shape = .message U ∧ e.Follows S U) S T elements

section Containers

variable {name : String} {elements : List (ℕ × Element σ)}

/-- The container loop reads a nested message before it looks at the number. -/
theorem containerBody_of_readPayload {tag : Tag} {r r' : Reader} {data : List UInt8} (s : σ)
    (htype : tag.type = .lengthDelimited)
    (hr : readPayload tag.type r = some (.lengthDelimited data, r')) :
    containerBody name elements tag r s =
      match elements.lookup tag.field with
      | none => .ok (r', s)
      | some e =>
        match e.decode data s with
        | none => .error (name ++ " wire: " ++ e.name ++ " decode failed")
        | some s₁ => .ok (r', s₁) := by
  rw [htype] at hr
  rewrite [containerBody, if_neg (by simpa using htype), readMessage, readBytes_of_readPayload hr]
  rfl

theorem FieldBody.follows_ofElements (h : ElementsFollow S T elements) :
    (FieldBody.ofElements name elements).Follows S T where
  takes {tag p} hc htype s := by
    rcases hc with ⟨_, hn, -⟩ | ⟨hn, hp⟩
    · have he := h.lookup_eq_none hn
      refine ⟨s, by cases p <;> simp [FieldBody.ofElements, he], fun r r' hr ↦ ?_⟩
      change containerBody name elements tag r s = _
      cases p with
      | lengthDelimited data => rw [containerBody_of_readPayload s htype hr, he]
      | varint v | fixed64 v | fixed32 v =>
        have hld : tag.type ≠ .lengthDelimited := by
          rw [htype]
          simp [Payload.type]
        rw [containerBody, if_pos hld, skipOr, skip_of_readPayload hr]
    · obtain ⟨e, he, U, rfl, hfollows⟩ := h.lookup_eq_some hn
      rcases hp with _ | _ | _ | _ | _ | _ | hwf
      obtain ⟨s', hmeaning, hdecode⟩ := hfollows.complete hwf s
      refine ⟨s', ?_, fun r r' hr ↦ ?_⟩
      · simp only [FieldBody.ofElements, he, hmeaning]
      · change containerBody name elements tag r s = _
        simp only [containerBody_of_readPayload s htype hr, he, hdecode]
  unknown {tag} p s hn := by
    have he := h.lookup_eq_none hn
    cases p <;> simp [FieldBody.ofElements, he]
  nested {host U n data data' u} hn hins hlen hwf s := by
    obtain ⟨e, he, U', hU, hfollows⟩ := h.lookup_eq_some hn
    obtain rfl := FieldShape.message.inj hU
    simp only [FieldBody.ofElements, he]
    exact hfollows.blind hins hlen hwf s

end Containers

/-! ## Whole buffers -/

/-- Inserting an unknown field into a well-formed message leaves the decoded value as it was, as
long as the message it is inserted into passes over fields of its wire type. -/
theorem deserializeMessage_inserted {name : String} {d : MessageDecoder τ} (hd : d.Follows S T)
    {init : τ} {host : M} {u : UnknownField S host} {data data' : List UInt8}
    (hins : u.InsertedIn T data data') (hskip : S.skips host u.tag.type)
    (hlen : data'.length < 2 ^ 64) (hwf : S.WellFormed T data) {x : τ}
    (hok : deserializeMessage name d init data = .ok x) :
    deserializeMessage name d init data' = .ok x := by
  have hle := hins.length_le
  rw [deserializeMessage] at hok ⊢
  split_ifs at hok with hempty
  rw [if_neg (by omega)]
  obtain ⟨y, hmeaning, hdecode⟩ := hd.complete hwf init
  obtain ⟨y', hmeaning', hdecode'⟩ := hd.complete (hwf.inserted hins hskip hlen) init
  have hy : y' = y := by
    rw [hd.blind hins hlen hwf, hmeaning] at hmeaning'
    exact (Option.some.inj hmeaning').symm
  simp only [hdecode, hdecode', hy] at hok ⊢
  exact hok

theorem deserializeContainer_inserted {name : String} {elements : List (ℕ × Element σ)}
    (h : ElementsFollow S T elements) {init : σ} {host : M} {u : UnknownField S host}
    {data data' : List UInt8} (hins : u.InsertedIn T data data')
    (hskip : S.skips host u.tag.type) (hlen : data'.length < 2 ^ 64) (hwf : S.WellFormed T data)
    {x : σ} (hok : deserializeContainer name elements init data = .ok x) :
    deserializeContainer name elements init data' = .ok x := by
  have hle := hins.length_le
  have hb : (FieldBody.ofElements name elements).Follows S T := FieldBody.follows_ofElements h
  rw [deserializeContainer] at hok ⊢
  split_ifs at hok with hempty
  rw [if_neg (by omega)]
  obtain ⟨y, hmeaning, hloop⟩ := hb.complete hwf (fun _ ↦ name ++ " wire: bad tag") init
  obtain ⟨y', hmeaning', hloop'⟩ :=
    hb.complete (hwf.inserted hins hskip hlen) (fun _ ↦ name ++ " wire: bad tag") init
  have hy : y' = y := by
    rw [hb.blind hins hlen hwf, hmeaning] at hmeaning'
    exact (Option.some.inj hmeaning').symm
  rw [← hok]
  exact hloop'.trans (hy ▸ hloop.symm)

end PlotJuggler
