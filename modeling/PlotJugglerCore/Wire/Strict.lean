import PlotJugglerCore.Wire.Unknown

/-!
# Strict decoders

A hand-written loop leaves at the first read that fails, so it never resumes inside a field. Such a
decoder is `Exact`: it computes the fold of the fields and accepts nothing else. Exactness carries
over from the readers to the bodies, from the bodies to the decoders, and through nested messages to
the readers of the next level.

What an exact decoder accepts depends on the wire types alone. `SplitsAll` is that condition: the
bytes split into fields, and so do the nested messages that the type knows of, recursively. A known
field of another wire type than the decoder expects is passed over like an unknown one.
-/

namespace PlotJuggler

variable {M σ τ α ε : Type}

/-! ## Exactness -/

def MessageDecoder.Exact (d : MessageDecoder τ) : Prop :=
  ∀ data x x', d.decode data x = .ok x' ↔ d.meaning data x = some x'

def FieldReader.Exact (f : FieldReader σ) : Prop :=
  ∀ r s r' s', f.read r s = (true, r', s') ↔
    ∃ p, readPayload f.type r = some (p, r') ∧ f.meaning p s = some s'

def FieldBody.Exact (b : FieldBody ε σ) : Prop :=
  ∀ tag r s r' s', b.run tag r s = .ok (r', s') ↔
    ∃ p, readPayload tag.type r = some (p, r') ∧ b.meaning tag p s = some s'

def Element.Exact (e : Element σ) : Prop :=
  ∀ data s s', e.decode data s = some s' ↔ e.meaning data s = some s'

theorem FieldBody.Exact.fieldLoop {b : FieldBody ε σ} (h : b.Exact) {badTag : σ → ε} {n : ℕ}
    {r : Reader} {s s' : σ} : fieldLoop badTag b.run n r s = .ok s' ↔
      ∃ fields, splitFieldsFrom n r = some fields ∧
        fields.foldlM (fun s f ↦ b.meaning f.1 f.2 s) s = some s' := by
  induction n generalizing r s with
  | zero =>
    cases r with
    | nil => simp [List.foldlM_nil]
    | cons c r => simp [PlotJuggler.fieldLoop, splitFieldsFrom]
  | succ n ih =>
    cases r with
    | nil => simp [List.foldlM_nil]
    | cons c r =>
      rcases htag : readTag (c :: r) with ⟨t, r₁⟩
      cases t with
      | none => simp [PlotJuggler.fieldLoop, splitFieldsFrom, htag]
      | some tag =>
        rw [fieldLoop_succ_of_readTag htag]
        constructor
        · intro hok
          rcases hrun : b.run tag r₁ s with e | ⟨r₂, s₂⟩
          · simp [hrun] at hok
          · obtain ⟨p, hp, hmeaning⟩ := (h _ _ _ _ _).mp hrun
            simp only [hrun] at hok
            obtain ⟨fields, hsplit, hfold⟩ := ih.mp hok
            refine ⟨(tag, p) :: fields, ?_, ?_⟩
            · rw [splitFieldsFrom_succ_of_readTag htag hp, hsplit, Option.map_some]
            · rw [List.foldlM_cons, hmeaning]
              exact hfold
        · rintro ⟨fields, hsplit, hfold⟩
          rcases hp : readPayload tag.type r₁ with _ | ⟨p, r₂⟩
          · simp [splitFieldsFrom, htag, hp] at hsplit
          · rw [splitFieldsFrom_succ_of_readTag htag hp, Option.map_eq_some_iff] at hsplit
            obtain ⟨rest, hrest, rfl⟩ := hsplit
            rw [List.foldlM_cons] at hfold
            obtain ⟨s₂, hmeaning, hfold⟩ := Option.bind_eq_some_iff.mp hfold
            rw [(h _ _ _ _ _).mpr ⟨p, hp, hmeaning⟩]
            exact ih.mpr ⟨rest, hrest, hfold⟩

/-- The loop of an exact body computes the fold of the fields. -/
theorem FieldBody.Exact.whileFields {b : FieldBody ε σ} (h : b.Exact) {badTag : σ → ε}
    {data : List UInt8} {s s' : σ} : whileFields badTag b.run data s = .ok s' ↔
      b.messageMeaning data s = some s' := by
  rw [PlotJuggler.whileFields, h.fieldLoop, FieldBody.messageMeaning, splitFields,
    Option.bind_eq_some_iff]

namespace FieldReader

theorem exact_ofPrimitive {type : WireType} {prim : Reader → Option α × Reader} {wrap : α → Payload}
    {unwrap : Payload → Option α} {hwrap : ∀ v, unwrap (wrap v) = some v}
    {hsuffix : ∀ r, (prim r).2 <:+ r}
    {hprim : ∀ r, readPayload type r = (prim r).1.map fun v ↦ (wrap v, (prim r).2)}
    {set : σ → α → σ} : (ofPrimitive type prim wrap unwrap hwrap hsuffix hprim set).Exact := by
  intro r s r' s'
  simp only [ofPrimitive, hprim]
  rcases hv : prim r with ⟨v, r₁⟩
  cases v with
  | none => simp
  | some v => simp [hwrap, eq_comm]

theorem exact_delimited {interpret : List UInt8 → σ → Bool × σ}
    {meaning : List UInt8 → σ → Option σ} {resumes : List UInt8 → σ → Bool} {hagree}
    (h : ∀ data s s', interpret data s = (true, s') ↔ meaning data s = some s') :
    (delimited interpret meaning resumes hagree).Exact := by
  intro r s r' s'
  simp only [delimited, readPayload]
  rcases hdata : readBytes r with ⟨data, r₁⟩
  cases data with
  | none => simp
  | some data =>
    simp only [Option.map_some, Option.some.injEq, Prod.mk.injEq]
    constructor
    · rintro ⟨hok, rfl, hs⟩
      exact ⟨_, ⟨rfl, rfl⟩, (h _ _ _).mp (Prod.ext hok hs)⟩
    · rintro ⟨p, ⟨rfl, rfl⟩, hs⟩
      have hinterpret := (h _ _ _).mpr hs
      exact ⟨congrArg Prod.fst hinterpret, rfl, congrArg Prod.snd hinterpret⟩

theorem exact_bytes {set : σ → List UInt8 → σ} : (bytes set).Exact :=
  @exact_delimited σ _ _ _ (fun _ _ _ h _ ↦ by simpa using h) fun data s s' ↦ by simp

theorem exact_message {d : MessageDecoder τ} (h : d.Exact) {get : σ → τ} {set : σ → τ → σ} :
    (message d get set).Exact := by
  refine exact_delimited fun data s s' ↦ ?_
  rw [Option.map_eq_some_iff]
  simp only [← h data (get s)]
  rcases d.decode data (get s) with x | x <;> simp

theorem exact_element {d : MessageDecoder τ} (h : d.Exact) {init : τ} {push : σ → τ → σ} :
    (element d init push).Exact := by
  refine exact_delimited fun data s s' ↦ ?_
  rw [Option.map_eq_some_iff]
  simp only [← h data init]
  rcases d.decode data init with x | x <;> simp

end FieldReader

/-- A field that is skipped is a complete payload and changes nothing. -/
theorem skipOr_eq_ok {error : ε} {tag : Tag} {r r' : Reader} {s s' : σ} :
    skipOr error tag r s = .ok (r', s') ↔
      ∃ p, readPayload tag.type r = some (p, r') ∧ some s = some s' := by
  constructor
  · intro h
    obtain ⟨p, hp, rfl⟩ := readPayload_of_skipOr h
    exact ⟨p, hp, rfl⟩
  · rintro ⟨p, hp, hs⟩
    obtain rfl := Option.some.inj hs
    obtain ⟨hsome, hrest⟩ := skip_eq tag.type r
    rw [hp, Option.isSome_some] at hsome
    have hskip : skip tag.type r = (true, r') := Prod.ext hsome (hrest p r' hp)
    rw [skipOr, hskip]

theorem FieldBody.exact_ofStrictFields {fields : List (ℕ × FieldReader σ)}
    (h : ∀ n f, fields.lookup n = some f → f.Exact) : (ofStrictFields fields).Exact := by
  intro tag r s r' s'
  simp only [ofStrictFields, strictFieldsBody, Handler.ofFields]
  match hf : fields.lookup tag.field with
  | none => exact skipOr_eq_ok
  | some f =>
    simp only
    by_cases htype : tag.type = f.type
    · simp only [htype, if_true]
      rw [← h _ f hf r s r' s']
      rcases f.read r s with ⟨ok, r₁, s₁⟩
      cases ok <;> simp
    · simp only [if_neg htype]
      exact skipOr_eq_ok

theorem FieldBody.exact_ofElements {name : String} {elements : List (ℕ × Element σ)}
    (h : ∀ n e, elements.lookup n = some e → e.Exact) : (ofElements name elements).Exact := by
  intro tag r s r' s'
  simp only [ofElements, containerBody]
  by_cases htype : tag.type = .lengthDelimited
  · rw [if_neg (not_not.mpr htype), htype, readMessage, readPayload]
    rcases hdata : readBytes r with ⟨data, r₁⟩
    match data with
    | none => simp
    | some data =>
      simp only [Option.map_some, Option.some.injEq, Prod.mk.injEq]
      match he : elements.lookup tag.field with
      | none => simp [eq_comm]
      | some e =>
        have hexact := h _ e he data s s'
        simp only
        rcases hdec : e.decode data s with _ | s₁ <;> rw [hdec] at hexact
        · refine iff_of_false (by simp) ?_
          rintro ⟨p, ⟨rfl, -⟩, hs⟩
          exact absurd (hexact.mpr hs) (by simp)
        · constructor
          · intro hok
            obtain ⟨rfl, rfl⟩ := Prod.mk.inj (Except.ok.inj hok)
            exact ⟨_, ⟨rfl, rfl⟩, hexact.mp rfl⟩
          · rintro ⟨p, ⟨rfl, rfl⟩, hs⟩
            rw [Option.some.inj (hexact.mpr hs)]
  · rw [if_pos htype, skipOr_eq_ok]
    refine exists_congr fun p ↦ and_congr_right fun hp ↦ ?_
    match p with
    | .lengthDelimited data => exact absurd (type_of_readPayload hp) htype
    | .varint _ | .fixed64 _ | .fixed32 _ => rfl

namespace MessageDecoder

theorem exact_ofBody {b : FieldBody τ τ} (h : b.Exact) : (ofBody b).Exact :=
  fun _ _ _ ↦ h.whileFields

theorem exact_ofStrictFields {fields : List (ℕ × FieldReader τ)}
    (h : ∀ n f, fields.lookup n = some f → f.Exact) : (ofStrictFields fields).Exact :=
  exact_ofBody (FieldBody.exact_ofStrictFields h)

theorem exact_after {d : MessageDecoder τ} (h : d.Exact) (prepare : τ → τ) :
    (d.after prepare).Exact := fun data x x' ↦ h data (prepare x) x'

theorem exact_ofLocals {d : MessageDecoder σ} (h : d.Exact) (init : σ) (finish : σ → Option τ) :
    (d.ofLocals init finish).Exact := by
  intro data x x'
  simp only [ofLocals, Option.bind_eq_some_iff, ← h data init]
  rcases d.decode data init with e | s
  · simp
  · rcases hfin : finish s with _ | y <;> simp [hfin]

end MessageDecoder

theorem Element.exact_push {name : String} {d : MessageDecoder τ} (h : d.Exact) {init : τ}
    {append : σ → τ → σ} : (push name d init append).Exact := by
  intro data s s'
  simp only [push, Option.map_eq_some_iff, ← h data init]
  rcases d.decode data init with e | x <;> simp

/-- A container of exact elements is empty of bytes, or the fold of its fields. -/
theorem deserializeContainer_eq_ok {name : String} {elements : List (ℕ × Element σ)} {init x : σ}
    {data : List UInt8} (h : ∀ n e, elements.lookup n = some e → e.Exact) :
    deserializeContainer name elements init data = .ok x ↔
      data ≠ [] ∧ (FieldBody.ofElements name elements).messageMeaning data init = some x := by
  have hexact : (FieldBody.ofElements name elements).Exact := FieldBody.exact_ofElements h
  rw [deserializeContainer]
  split_ifs with hlen
  · exact iff_of_false (by simp) fun hx ↦ hx.1 (List.length_eq_zero_iff.mp hlen)
  · refine hexact.whileFields.trans ?_
    exact (and_iff_right fun he ↦ hlen (List.length_eq_zero_iff.mpr he)).symm

/-! ## What is accepted -/

/-- The bytes split into fields, and so do the nested messages of the type, at every level. -/
inductive WireSchema.SplitsAll (S : WireSchema M) : M → List UInt8 → Prop
  | ofFields {T : M} {data : List UInt8} {fields : List (Tag × Payload)}
      (hsplit : splitFields data = some fields)
      (hnested : ∀ f ∈ fields, ∀ U body, (S.fields T).lookup f.1.field = some (.message U) →
        f.2 = .lengthDelimited body → S.SplitsAll U body) : S.SplitsAll T data

theorem WireSchema.splitsAll_iff {S : WireSchema M} {T : M} {data : List UInt8} :
    S.SplitsAll T data ↔ ∃ fields, splitFields data = some fields ∧
      ∀ f ∈ fields, ∀ U body, (S.fields T).lookup f.1.field = some (.message U) →
        f.2 = .lengthDelimited body → S.SplitsAll U body :=
  ⟨fun ⟨hsplit, hnested⟩ ↦ ⟨_, hsplit, hnested⟩, fun ⟨_, hsplit, hnested⟩ ↦ .ofFields hsplit hnested⟩

/-- The decoder computes the fold of the fields and accepts whatever splits. -/
structure MessageDecoder.Strict (S : WireSchema M) (T : M) (d : MessageDecoder τ) : Prop where
  exact : d.Exact
  accepts : ∀ data x, (d.meaning data x).isSome ↔ S.SplitsAll T data

structure FieldReader.Strict (S : WireSchema M) (shape : FieldShape M) (f : FieldReader σ) :
    Prop where
  exact : f.Exact
  type_eq : f.type = shape.type
  accepts : ∀ p s, p.type = shape.type → ((f.meaning p s).isSome ↔
    ∀ U body, shape = .message U → p = .lengthDelimited body → S.SplitsAll U body)

/-- A body that accepts a field whenever the nested message in it splits, if there is one. -/
structure FieldBody.Strict (S : WireSchema M) (T : M) (b : FieldBody ε σ) : Prop where
  exact : b.Exact
  accepts : ∀ tag p s, tag.type = p.type → ((b.meaning tag p s).isSome ↔
    ∀ U body, (S.fields T).lookup tag.field = some (.message U) → p = .lengthDelimited body →
      S.SplitsAll U body)

variable {S : WireSchema M} {T U : M}

theorem FieldBody.Strict.isSome_foldlM {b : FieldBody ε σ} (h : b.Strict S T)
    {fields : List (Tag × Payload)} (htype : ∀ f ∈ fields, f.1.type = f.2.type) (s : σ) :
    (fields.foldlM (fun s f ↦ b.meaning f.1 f.2 s) s).isSome ↔
      ∀ f ∈ fields, ∀ U body, (S.fields T).lookup f.1.field = some (.message U) →
        f.2 = .lengthDelimited body → S.SplitsAll U body := by
  induction fields generalizing s with
  | nil => simp [List.foldlM_nil]
  | cons f fields ih =>
    have hfirst := h.accepts f.1 f.2 s (htype f List.mem_cons_self)
    have hrest : ∀ f' ∈ fields, f'.1.type = f'.2.type := fun f' hf' ↦
      htype f' (List.mem_cons_of_mem f hf')
    rw [List.foldlM_cons, List.forall_mem_cons, ← hfirst]
    rcases b.meaning f.1 f.2 s with _ | s₁
    · simp
    · exact (ih hrest s₁).trans (and_iff_right rfl).symm

theorem FieldBody.Strict.isSome_messageMeaning {b : FieldBody ε σ} (h : b.Strict S T)
    (data : List UInt8) (s : σ) : (b.messageMeaning data s).isSome ↔ S.SplitsAll T data := by
  rw [WireSchema.splitsAll_iff, FieldBody.messageMeaning]
  rcases hsplit : splitFields data with _ | fields
  · simp
  · have htype : ∀ f ∈ fields, f.1.type = f.2.type := fun f hf ↦ type_of_mem_splitFields hsplit hf
    rw [Option.bind_some, h.isSome_foldlM htype]
    simp

namespace FieldReader

theorem strict_varint {set : σ → ℕ → σ} : (varint set).Strict S .varint where
  exact := exact_ofPrimitive
  type_eq := rfl
  accepts p s hp := by
    match p with
    | .varint v => exact iff_of_true rfl fun _ _ h ↦ absurd h (by simp)
    | .fixed64 _ | .lengthDelimited _ | .fixed32 _ => exact nomatch hp

theorem strict_double {set : σ → UInt64 → σ} : (double set).Strict S .double where
  exact := exact_ofPrimitive
  type_eq := rfl
  accepts p s hp := by
    match p with
    | .fixed64 v => exact iff_of_true rfl fun _ _ h ↦ absurd h (by simp)
    | .varint _ | .lengthDelimited _ | .fixed32 _ => exact nomatch hp

theorem strict_bytes {set : σ → List UInt8 → σ} : (bytes set).Strict S .bytes where
  exact := exact_bytes
  type_eq := rfl
  accepts p s hp := by
    match p with
    | .lengthDelimited data => exact iff_of_true rfl fun _ _ h ↦ absurd h (by simp)
    | .varint _ | .fixed64 _ | .fixed32 _ => exact nomatch hp

theorem strict_message {d : MessageDecoder τ} (h : d.Strict S U) {get : σ → τ} {set : σ → τ → σ} :
    (message d get set).Strict S (.message U) where
  exact := exact_message h.exact
  type_eq := rfl
  accepts p s hp := by
    match p with
    | .lengthDelimited data =>
      refine (Option.isSome_map ▸ (h.accepts data (get s))).trans ?_
      simp
    | .varint _ | .fixed64 _ | .fixed32 _ => exact nomatch hp

theorem strict_element {d : MessageDecoder τ} (h : d.Strict S U) {init : τ} {push : σ → τ → σ} :
    (element d init push).Strict S (.message U) where
  exact := exact_element h.exact
  type_eq := rfl
  accepts p s hp := by
    match p with
    | .lengthDelimited data =>
      refine (Option.isSome_map ▸ (h.accepts data init)).trans ?_
      simp
    | .varint _ | .fixed64 _ | .fixed32 _ => exact nomatch hp

end FieldReader

/-- The readers of the table are strict, each for the field under its number. -/
abbrev TableStrict (S : WireSchema M) (T : M) (fields : List (ℕ × FieldReader σ)) : Prop :=
  TableMatches (fun shape f ↦ f.Strict S shape) S T fields

theorem FieldBody.strict_ofStrictFields {fields : List (ℕ × FieldReader σ)}
    (h : TableStrict S T fields) : (ofStrictFields fields).Strict S T where
  exact := exact_ofStrictFields fun n f hf ↦ by
    rcases h.lookup n with ⟨-, hnone⟩ | ⟨shape, f', -, hf', hstrict⟩
    · rw [hf] at hnone
      exact absurd hnone (by simp)
    · obtain rfl := Option.some.inj (hf.symm.trans hf')
      exact hstrict.exact
  accepts tag p s htype := by
    simp only [ofStrictFields, Handler.ofFields]
    rcases h.lookup tag.field with ⟨hshape, hf⟩ | ⟨shape, f, hshape, hf, hstrict⟩
    · rw [hf, hshape]
      exact iff_of_true rfl fun _ _ h ↦ absurd h (by simp)
    · rw [hf, hshape]
      simp only [Option.some.injEq]
      by_cases hread : tag.type = f.type
      · rw [if_pos hread]
        exact hstrict.accepts p s (htype ▸ hread.trans hstrict.type_eq)
      · -- a known field of another wire type is skipped, so it holds no message for the type
        rw [if_neg hread]
        refine iff_of_true rfl fun U body hU hbody ↦ absurd ?_ hread
        rw [hstrict.type_eq, htype, hU, hbody]
        rfl

namespace MessageDecoder

theorem strict_ofStrictFields {fields : List (ℕ × FieldReader τ)} (h : TableStrict S T fields) :
    (ofStrictFields fields).Strict S T where
  exact := exact_ofBody (FieldBody.strict_ofStrictFields h).exact
  accepts := (FieldBody.strict_ofStrictFields h).isSome_messageMeaning

theorem strict_after {d : MessageDecoder τ} (h : d.Strict S T) (prepare : τ → τ) :
    (d.after prepare).Strict S T :=
  ⟨exact_after h.exact prepare, fun data x ↦ h.accepts data (prepare x)⟩

/-- A decoder of locals is strict when the value can always be computed from them. -/
theorem strict_ofLocals {d : MessageDecoder σ} (h : d.Strict S T) (init : σ) {finish : σ → τ} :
    (d.ofLocals init fun s ↦ some (finish s)).Strict S T := by
  refine ⟨exact_ofLocals h.exact init _, fun data x ↦ ?_⟩
  rw [← h.accepts data init, ofLocals]
  rcases hs : d.meaning data init with _ | s <;> simp [hs]

end MessageDecoder

structure Element.Strict (S : WireSchema M) (U : M) (e : Element σ) : Prop where
  exact : e.Exact
  accepts : ∀ data s, (e.meaning data s).isSome ↔ S.SplitsAll U data

theorem Element.strict_push {name : String} {d : MessageDecoder τ} (h : d.Strict S U) {init : τ}
    {append : σ → τ → σ} : (push name d init append).Strict S U where
  exact := exact_push h.exact
  accepts data s := by
    rw [← h.accepts data init, push, Option.isSome_map]

/-- The elements of the container are strict, each for the nested message under its number. -/
abbrev ElementsStrict (S : WireSchema M) (T : M) (elements : List (ℕ × Element σ)) : Prop :=
  TableMatches (fun shape e ↦ ∃ U, shape = .message U ∧ e.Strict S U) S T elements

theorem TableMatches.exact {elements : List (ℕ × Element σ)} (h : ElementsStrict S T elements)
    {n : ℕ} {e : Element σ} (he : elements.lookup n = some e) : e.Exact := by
  rcases h.lookup n with ⟨-, hnone⟩ | ⟨shape, e', -, he', U, -, hstrict⟩
  · rw [he] at hnone
    exact absurd hnone (by simp)
  · obtain rfl := Option.some.inj (he.symm.trans he')
    exact hstrict.exact

theorem FieldBody.strict_ofElements {name : String} {elements : List (ℕ × Element σ)}
    (h : ElementsStrict S T elements) : (ofElements name elements).Strict S T where
  exact := exact_ofElements fun _ _ ↦ h.exact
  accepts tag p s _ := by
    simp only [ofElements]
    rcases h.lookup tag.field with ⟨hshape, he⟩ | ⟨shape, e, hshape, he, U, rfl, hstrict⟩
    · rw [he, hshape]
      refine iff_of_true ?_ fun _ _ h ↦ absurd h (by simp)
      rcases p with _ | _ | _ | _ <;> rfl
    · rw [he, hshape]
      cases p with
      | lengthDelimited data =>
        refine (hstrict.accepts data s).trans ?_
        simp
      | _ => exact iff_of_true rfl (by simp)

/-- A container of strict elements accepts what is not empty and splits. -/
theorem deserializeContainer_isOk {name : String} {elements : List (ℕ × Element σ)} {init : σ}
    {data : List UInt8} (h : ElementsStrict S T elements) :
    (∃ x, deserializeContainer name elements init data = .ok x) ↔
      data ≠ [] ∧ S.SplitsAll T data := by
  have hstrict : (FieldBody.ofElements name elements).Strict S T := FieldBody.strict_ofElements h
  rw [← hstrict.isSome_messageMeaning data init, Option.isSome_iff_exists, ← exists_and_left]
  exact exists_congr fun x ↦ deserializeContainer_eq_ok fun _ _ ↦ h.exact

end PlotJuggler
