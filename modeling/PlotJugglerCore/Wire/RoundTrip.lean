import PlotJugglerCore.Wire.Message

/-!
# Reading back what a writer wrote

`b.Parses data s s'` says that the loop with body `b`, started on `data` and whatever follows it,
consumes exactly `data` and takes the value from `s` to `s'`. Such facts compose under `++`, so a
message is read back by reading back its fields one after the other, in the order the writer wrote
them.

The writer's lengths are `size_t`. The bound is part of the relation, as an assumption on the
length of `data`: a piece of a message is no longer than the message, so one bound on the whole
buffer reaches every nested payload.
-/

namespace PlotJuggler

open LittleEndian

variable {σ τ α ε : Type}

/-! ## The relation -/

def FieldBody.Parses (b : FieldBody ε σ) (data : List UInt8) (s s' : σ) : Prop :=
  data.length < 2 ^ 64 → ∀ (badTag : σ → ε) (rest : Reader),
    whileFields badTag b.run (data ++ rest) s = whileFields badTag b.run rest s'

namespace FieldBody

variable {b : FieldBody ε σ} {d₁ d₂ : List UInt8} {s s₁ s₂ : σ}

theorem Parses.nil (s : σ) : b.Parses [] s s := fun _ _ _ ↦ rfl

theorem Parses.append (h₁ : b.Parses d₁ s s₁) (h₂ : b.Parses d₂ s₁ s₂) :
    b.Parses (d₁ ++ d₂) s s₂ := by
  intro hlen badTag rest
  rw [List.length_append] at hlen
  rw [List.append_assoc, h₁ (by omega) badTag, h₂ (by omega) badTag]

/-- The whole buffer is read to its end. -/
theorem Parses.whileFields_eq (h : b.Parses d₁ s s₁) (hlen : d₁.length < 2 ^ 64)
    (badTag : σ → ε) : whileFields badTag b.run d₁ s = .ok s₁ := by
  have := h hlen badTag []
  rwa [List.append_nil, whileFields_nil] at this

/-- Equal pieces written for the elements of a list, read back one by one. -/
theorem Parses.flatMap {write : α → List UInt8} {push : σ → α → σ} {xs : List α} (s : σ)
    (h : ∀ x ∈ xs, ∀ s, b.Parses (write x) s (push s x)) :
    b.Parses (xs.flatMap write) s (xs.foldl push s) := by
  induction xs generalizing s with
  | nil => exact .nil s
  | cons x xs ih =>
    rw [List.flatMap_cons, List.foldl_cons]
    exact (h x List.mem_cons_self s).append
      (ih (push s x) fun y hy ↦ h y (List.mem_cons_of_mem x hy))

/-- Appending element after element through a lens-like pair of accessors. -/
theorem foldl_push {get : σ → List α} {set : σ → List α → σ} (hget : ∀ s l, get (set s l) = l)
    (hset : ∀ s l l', set (set s l) l' = set s l') (xs : List α) {s : σ}
    (heta : set s (get s) = s) :
    xs.foldl (fun s x ↦ set s (get s ++ [x])) s = set s (get s ++ xs) := by
  induction xs generalizing s with
  | nil => rw [List.foldl_nil, List.append_nil, heta]
  | cons x xs ih =>
    rw [List.foldl_cons, ih (by rw [hget, hset]), hget, hset, List.append_assoc,
      List.singleton_append]

/-- One field: the body consumes the payload behind the tag. -/
theorem parses_of_run {n : ℕ} (hpos : 0 < n) (hlt : n < 2 ^ 32) {type : WireType}
    {payload : List UInt8} (h : payload.length < 2 ^ 64 → ∀ rest,
      b.run ⟨n, type⟩ (payload ++ rest) s = .ok (rest, s₁)) :
    b.Parses (Writer.tag n type ++ payload) s s₁ := by
  intro hlen badTag rest
  rw [List.length_append] at hlen
  rw [List.append_assoc, whileFields_of_readTag b.advances (readTag_append hpos hlt type _),
    h (by omega) rest]

end FieldBody

/-! ## Tables -/

/-- The body lets the readers of a table take the fields that are theirs. -/
def FieldBody.Uses (b : FieldBody σ σ) (fields : List (ℕ × FieldReader σ)) : Prop :=
  ∀ ⦃n f r s r' s'⦄, fields.lookup n = some f → f.read r s = (true, r', s') →
    b.run ⟨n, f.type⟩ r s = .ok (r', s')

theorem FieldBody.uses_ofFields (fields : List (ℕ × FieldReader σ)) :
    (FieldBody.ofHandler (.ofFields fields)).Uses fields := by
  intro n f r s r' s' hf hread
  have hrun : fieldHandler fields ⟨n, f.type⟩ r s = (true, r', s') := by
    simp only [fieldHandler, hf, if_true, hread]
  change parseFieldsBody (fieldHandler fields) ⟨n, f.type⟩ r s = _
  rw [parseFieldsBody, hrun]

theorem FieldBody.uses_ofStrictFields (fields : List (ℕ × FieldReader σ)) :
    (FieldBody.ofStrictFields fields).Uses fields := by
  intro n f r s r' s' hf hread
  change strictFieldsBody fields ⟨n, f.type⟩ r s = _
  simp only [strictFieldsBody, hf, if_true, hread]

/-! ## Packed values -/

theorem length_flatMap_bytes (size : ℕ) (toNat : α → ℕ) (values : List α) :
    (values.flatMap fun v ↦ bytes size (toNat v)).length = values.length * size := by
  induction values with
  | nil => simp
  | cons v vs ih =>
    rw [List.flatMap_cons, List.length_append, ih, length_bytes, List.length_cons]
    ring

/-- The values of a packed field are read back in order, behind what was there before. -/
theorem packedLoop_flatMap {read : Reader → Option α × Reader} {write : α → List UInt8}
    (hread : ∀ v rest, read (write v ++ rest) = (some v, rest)) (hwrite : ∀ v, write v ≠ [])
    (values out : List α) {n : ℕ} (hn : values.length ≤ n) :
    FieldReader.packedLoop read n (values.flatMap write) out = (true, out ++ values) := by
  induction values generalizing n out with
  | nil => cases n <;> simp [FieldReader.packedLoop]
  | cons v vs ih =>
    obtain ⟨m, rfl⟩ : ∃ m, n = m + 1 := Nat.exists_eq_succ_of_ne_zero (by simp at hn; omega)
    rw [List.flatMap_cons]
    have hv := hread v (vs.flatMap write)
    cases hw : write v ++ vs.flatMap write with
    | nil => exact absurd (List.append_eq_nil_iff.mp hw).1 (hwrite v)
    | cons c cs =>
      rw [hw] at hv
      rw [List.length_cons, Nat.add_le_add_iff_right] at hn
      simp only [FieldReader.packedLoop, hv]
      rw [ih _ hn, List.append_assoc, List.singleton_append]

/-! ## One lemma for each way of writing a field -/

section Fields

variable {b : FieldBody σ σ} {fields : List (ℕ × FieldReader σ)} (hb : b.Uses fields)
variable (n : ℕ) {s : σ}

include hb

theorem parses_field {f : FieldReader σ} (hf : fields.lookup n = some f) {payload : List UInt8}
    {s' : σ} (h : payload.length < 2 ^ 64 → ∀ rest,
      f.read (payload ++ rest) s = (true, rest, s'))
    (hn : 0 < n ∧ n < 2 ^ 32 := by decide) :
    b.Parses (Writer.tag n f.type ++ payload) s s' :=
  FieldBody.parses_of_run hn.1 hn.2 fun hlen rest ↦ hb hf (h hlen rest)

theorem parses_varint {set : σ → ℕ → σ} (hf : fields.lookup n = some (.varint set)) {v : ℕ}
    (hv : v < 2 ^ 64)
    (hn : 0 < n ∧ n < 2 ^ 32 := by decide) :
    b.Parses (Writer.varint n v) s (set s v) := by
  refine parses_field hb n hf (fun _ rest ↦ ?_) hn
  simp only [FieldReader.varint, FieldReader.ofPrimitive, readVarint_append hv]

theorem parses_uint32 {set : σ → UInt32 → σ} (hf : fields.lookup n = some (.uint32 set))
    (v : UInt32) (hn : 0 < n ∧ n < 2 ^ 32 := by decide) :
    b.Parses (Writer.varint n v.toNat) s (set s v) := by
  have hv : v.toNat < 2 ^ 64 := v.toNat_lt.trans (by decide)
  have h := parses_varint hb n hf (s := s) hv hn
  rwa [UInt32.ofNat_toNat] at h

/-- A signed 32-bit value travels zero-extended and is reinterpreted on reading. -/
theorem parses_int32 {set : σ → Int32 → σ} (hf : fields.lookup n = some (.int32 set))
    (v : Int32) (hn : 0 < n ∧ n < 2 ^ 32 := by decide) :
    b.Parses (Writer.varint n v.toUInt32.toNat) s (set s v) := by
  have hv : v.toUInt32.toNat < 2 ^ 64 := v.toUInt32.toNat_lt.trans (by decide)
  have h := parses_varint hb n hf (s := s) hv hn
  rwa [UInt32.ofNat_toNat, Int32.toInt32_toUInt32] at h

theorem parses_int64 {set : σ → Int64 → σ} (hf : fields.lookup n = some (.int64 set))
    (v : Int64) (hn : 0 < n ∧ n < 2 ^ 32 := by decide) :
    b.Parses (Writer.varint n v.toUInt64.toNat) s (set s v) := by
  have h := parses_varint hb n hf (s := s) v.toUInt64.toNat_lt hn
  rwa [UInt64.ofNat_toNat, Int64.toInt64_toUInt64] at h

theorem parses_bool {set : σ → Bool → σ} (hf : fields.lookup n = some (.bool set)) (v : Bool)
    (hn : 0 < n ∧ n < 2 ^ 32 := by decide) :
    b.Parses (Writer.varint n (if v then 1 else 0)) s (set s v) := by
  have hv : (if v then 1 else 0) < 2 ^ 64 := by cases v <;> decide
  have h := parses_varint hb n hf (s := s) hv hn
  cases v <;> exact h

theorem parses_enumerator {fromWire : ℕ → α} {set : σ → α → σ}
    (hf : fields.lookup n = some (.enumerator fromWire set)) {v : ℕ} {e : α} (hv : v < 2 ^ 64)
    (he : fromWire v = e) (hn : 0 < n ∧ n < 2 ^ 32 := by decide) :
    b.Parses (Writer.varint n v) s (set s e) := by
  have h := parses_varint hb n hf (s := s) hv hn
  rwa [he] at h

theorem parses_double {set : σ → UInt64 → σ} (hf : fields.lookup n = some (.double set))
    (v : UInt64) (hn : 0 < n ∧ n < 2 ^ 32 := by decide) :
    b.Parses (Writer.doubleField n v) s (set s v) := by
  refine parses_field hb n hf (fun _ rest ↦ ?_) hn
  simp only [FieldReader.double, FieldReader.ofPrimitive, readDouble, readFixed64_append]

theorem parses_float {set : σ → UInt32 → σ} (hf : fields.lookup n = some (.float set))
    (v : UInt32) (hn : 0 < n ∧ n < 2 ^ 32 := by decide) :
    b.Parses (Writer.floatField n v) s (set s v) := by
  refine parses_field hb n hf (fun _ rest ↦ ?_) hn
  simp only [FieldReader.float, FieldReader.ofPrimitive, readFloat, readFixed32_append]

/-- A length-delimited field whose interpretation succeeds on the bytes written. -/
theorem parses_delimited {interpret : List UInt8 → σ → Bool × σ}
    {meaning : List UInt8 → σ → Option σ} {resumes : List UInt8 → σ → Bool} {hagree}
    (hf : fields.lookup n = some (.delimited interpret meaning resumes hagree))
    {data : List UInt8} {s' : σ} (h : data.length < 2 ^ 64 → interpret data s = (true, s'))
    (hn : 0 < n ∧ n < 2 ^ 32 := by decide) :
    b.Parses (Writer.lengthDelimited n data) s s' := by
  refine parses_field hb n hf (fun hlen rest ↦ ?_) hn
  rw [List.length_append] at hlen
  have hdata : data.length < 2 ^ 64 := by omega
  simp only [FieldReader.delimited, List.append_assoc, readBytes_append hdata, h hdata]

theorem parses_packed {interpret : List UInt8 → σ → Bool × σ}
    (hf : fields.lookup n = some (.packed interpret)) {data : List UInt8} {s' : σ}
    (h : interpret data s = (true, s'))
    (hn : 0 < n ∧ n < 2 ^ 32 := by decide) :
    b.Parses (Writer.lengthDelimited n data) s s' := by
  rw [FieldReader.packed] at hf
  exact parses_delimited hb n hf (fun _ ↦ h) hn

theorem parses_bytes {set : σ → List UInt8 → σ} (hf : fields.lookup n = some (.bytes set))
    (data : List UInt8)
    (hn : 0 < n ∧ n < 2 ^ 32 := by decide) :
    b.Parses (Writer.lengthDelimited n data) s (set s data) :=
  parses_packed hb n hf rfl hn

theorem parses_packedValues {size : ℕ} (hsize : 0 < size) {read : Reader → Option α × Reader}
    {toNat : α → ℕ} (hread : ∀ v rest, read (bytes size (toNat v) ++ rest) = (some v, rest))
    {get : σ → List α} {set : σ → List α → σ}
    (hf : fields.lookup n = some (.packedValues size read get set)) (values : List α)
    (hn : 0 < n ∧ n < 2 ^ 32 := by decide) :
    b.Parses (Writer.lengthDelimited n (values.flatMap fun v ↦ bytes size (toNat v))) s
      (set s (get s ++ values)) := by
  have hlen := length_flatMap_bytes size toNat values
  have hfuel : values.length ≤ values.length * size := Nat.le_mul_of_pos_right _ hsize
  have hne : ∀ v, bytes size (toNat v) ≠ [] := by
    intro v hv
    have := length_bytes size (toNat v)
    rw [hv, List.length_nil] at this
    omega
  refine parses_packed hb n hf ?_ hn
  rw [hlen, if_neg (by simp), packedLoop_flatMap hread hne _ _ hfuel]

theorem parses_packedFixed32 {get : σ → List UInt32} {set : σ → List UInt32 → σ}
    (hf : fields.lookup n = some (.packedFixed32 get set)) (heta : set s (get s) = s)
    (values : List UInt32)
    (hn : 0 < n ∧ n < 2 ^ 32 := by decide) :
    b.Parses (Writer.packedFixed32 n values) s (set s (get s ++ values)) := by
  rw [Writer.packedFixed32]
  split_ifs with hlen
  · rw [List.length_eq_zero_iff.mp hlen, List.append_nil, heta]
    exact .nil s
  · rw [← length_flatMap_bytes 4 UInt32.toNat]
    exact parses_packedValues hb n (by decide) readFixed32_append hf values hn

theorem parses_packedDouble {get : σ → List UInt64} {set : σ → List UInt64 → σ}
    (hf : fields.lookup n = some (.packedDouble get set)) (heta : set s (get s) = s)
    (values : List UInt64)
    (hn : 0 < n ∧ n < 2 ^ 32 := by decide) :
    b.Parses (Writer.packedDouble n values) s (set s (get s ++ values)) := by
  rw [Writer.packedDouble]
  split_ifs with hlen
  · rw [List.length_eq_zero_iff.mp hlen, List.append_nil, heta]
    exact .nil s
  · rw [← length_flatMap_bytes 8 UInt64.toNat]
    exact parses_packedValues hb n (by decide) readFixed64_append hf values hn

theorem parses_packedDoubleArray {k : ℕ} (hk : 0 < k) {set : σ → Vector UInt64 k → σ}
    (hf : fields.lookup n = some (.packedDoubleArray k set)) (values : Vector UInt64 k)
    (hn : 0 < n ∧ n < 2 ^ 32 := by decide) :
    b.Parses (Writer.packedDouble n values.toList) s (set s values) := by
  have hlen := length_flatMap_bytes 8 UInt64.toNat values.toList
  have hk' : values.toList.length = k := by simp
  rw [Writer.packedDouble, if_neg (by omega), ← hlen]
  refine parses_packed hb n hf ?_ hn
  rw [hlen, hk', if_neg (by simp)]
  congr 2
  apply Vector.ext
  intro i hi
  have hv : value (bytes 8 values[i].toNat) = values[i].toNat :=
    value_bytes_of_lt values[i].toNat_lt
  rw [Vector.getElem_ofFn, List.flatMap_def, LittleEndian.element_flatten (by simp)]
  simp only [List.getD_eq_getElem?_getD, List.getElem?_map, Vector.getElem?_toList, hi,
    Vector.getElem?_eq_getElem, Option.map_some, Option.getD_some, hv, UInt64.ofNat_toNat]

theorem parses_message {d : MessageDecoder τ} {get : σ → τ} {set : σ → τ → σ}
    (hf : fields.lookup n = some (.message d get set)) {data : List UInt8} {x : τ}
    (h : data.length < 2 ^ 64 → d.decode data (get s) = .ok x)
    (hn : 0 < n ∧ n < 2 ^ 32 := by decide) :
    b.Parses (Writer.message n data) s (set s x) :=
  parses_delimited hb n hf (fun hlen ↦ by rw [h hlen]) hn

theorem parses_element {d : MessageDecoder τ} {init : τ} {push : σ → τ → σ}
    (hf : fields.lookup n = some (.element d init push)) {data : List UInt8} {x : τ}
    (h : data.length < 2 ^ 64 → d.decode data init = .ok x)
    (hn : 0 < n ∧ n < 2 ^ 32 := by decide) :
    b.Parses (Writer.message n data) s (push s x) :=
  parses_delimited hb n hf (fun hlen ↦ by rw [h hlen]) hn

/-- `for (const auto& x : xs) writer.message(n, …)` against a reader that appends. -/
theorem parses_elements {d : MessageDecoder τ} {init : τ} (get : σ → List τ)
    (set : σ → List τ → σ)
    (hf : fields.lookup n = some (.element d init fun s x ↦ set s (get s ++ [x])))
    (hget : ∀ s l, get (set s l) = l) (hset : ∀ s l l', set (set s l) l' = set s l')
    (heta : set s (get s) = s) {write : τ → List UInt8} (xs : List τ)
    (h : ∀ x ∈ xs, (write x).length < 2 ^ 64 → d.decode (write x) init = .ok x)
    (hn : 0 < n ∧ n < 2 ^ 32 := by decide) :
    b.Parses (xs.flatMap fun x ↦ Writer.message n (write x)) s (set s (get s ++ xs)) := by
  rw [← FieldBody.foldl_push hget hset xs heta]
  exact FieldBody.Parses.flatMap s fun x hx s ↦ parses_element hb n hf (h x hx) hn

end Fields

/-! ## Whole buffers -/

theorem decode_ofFields {fields : List (ℕ × FieldReader τ)} {data : List UInt8} {x x' : τ}
    (h : (FieldBody.ofHandler (.ofFields fields)).Parses data x x') (hlen : data.length < 2 ^ 64) :
    (MessageDecoder.ofFields fields).decode data x = .ok x' :=
  h.whileFields_eq hlen id

theorem decode_ofStrictFields {fields : List (ℕ × FieldReader τ)} {data : List UInt8} {x x' : τ}
    (h : (FieldBody.ofStrictFields fields).Parses data x x') (hlen : data.length < 2 ^ 64) :
    (MessageDecoder.ofStrictFields fields).decode data x = .ok x' :=
  h.whileFields_eq hlen id

theorem decode_ofLocals {d : MessageDecoder σ} {init s : σ} {finish : σ → Option τ}
    {data : List UInt8} {x x' : τ} (h : d.decode data init = .ok s) (hfin : finish s = some x') :
    (MessageDecoder.ofLocals d init finish).decode data x = .ok x' := by
  simp only [MessageDecoder.ofLocals, h, hfin]

theorem deserializeMessage_eq {name : String} {d : MessageDecoder τ} {init x : τ}
    {data : List UInt8} (hne : data ≠ []) (h : d.decode data init = .ok x) :
    deserializeMessage name d init data = .ok x := by
  rw [deserializeMessage, if_neg (by rwa [List.length_eq_zero_iff])]
  simp only [h]

/-- The elements of one kind in a container. -/
theorem parses_containerElements {name : String} {elements : List (ℕ × Element σ)} (n : ℕ)
    {elementName : String} {d : MessageDecoder τ} {init : τ}
    (get : σ → List τ) (set : σ → List τ → σ)
    (hf : elements.lookup n =
      some (.push elementName d init fun s x ↦ set s (get s ++ [x])))
    (hget : ∀ s l, get (set s l) = l) (hset : ∀ s l l', set (set s l) l' = set s l')
    {s : σ} (heta : set s (get s) = s) {write : τ → List UInt8} (xs : List τ)
    (h : ∀ x ∈ xs, (write x).length < 2 ^ 64 → d.decode (write x) init = .ok x)
    (hn : 0 < n ∧ n < 2 ^ 32 := by decide) :
    (FieldBody.ofElements name elements).Parses
      (xs.flatMap fun x ↦ Writer.message n (write x)) s (set s (get s ++ xs)) := by
  rw [← FieldBody.foldl_push hget hset xs heta]
  refine FieldBody.Parses.flatMap s fun x hx s ↦ ?_
  refine FieldBody.parses_of_run hn.1 hn.2 fun hlen rest ↦ ?_
  rw [List.length_append] at hlen
  have hdata : (write x).length < 2 ^ 64 := by omega
  change containerBody name elements ⟨n, .lengthDelimited⟩ _ s = _
  rw [containerBody, if_neg (by simp), readMessage, List.append_assoc, readBytes_append hdata]
  simp only [hf, Element.push, h x hx hdata]

theorem deserializeContainer_eq {name : String} {elements : List (ℕ × Element σ)} {init x : σ}
    {data : List UInt8} (hne : data ≠ []) (hlen : data.length < 2 ^ 64)
    (h : (FieldBody.ofElements name elements).Parses data init x) :
    deserializeContainer name elements init data = .ok x := by
  rw [deserializeContainer, if_neg (by rwa [List.length_eq_zero_iff])]
  exact h.whileFields_eq hlen _

end PlotJuggler
