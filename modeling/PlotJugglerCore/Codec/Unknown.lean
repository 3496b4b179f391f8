import PlotJugglerCore.Codec.Schema

/-!
# Unknown fields in the builtin objects

Forward compatibility of the fourteen codecs: what a serializer wrote is read the same with an
unknown field inserted at any boundary of any nested message, unless the field is a varint and the
message a timestamp. Inside a timestamp that exception is exact: no instant survives it.

A timestamp that is rejected does not decide the fate of the object around it. The loop that called
its decoder skips from behind the timestamp and may resume, so there is no saying in general that
the whole buffer is read differently.
-/

namespace PlotJuggler

open WireSchema FieldReader MessageDecoder

namespace Builtin

/-- The message type of the object. -/
def type : Builtin → MessageType
  | log => .log
  | image => .image
  | depthImage => .depthImage
  | pointCloud => .pointCloud
  | compressedPointCloud => .compressedPointCloud
  | videoFrame => .videoFrame
  | assetVideo => .assetVideo
  | cameraInfo => .cameraInfo
  | occupancyGrid => .occupancyGrid
  | occupancyGridUpdate => .occupancyGridUpdate
  | mesh3D => .mesh3D
  | frameTransforms => .frameTransforms
  | sceneEntities => .sceneEntities
  | imageAnnotations => .imageAnnotations

theorem type_ne_timestamp (k : Builtin) : k.type ≠ .timestamp := by
  cases k <;> exact (nomatch ·)

section

variable (A : FloatArith)

/-- The bytes of an object are fields that its message type carries. -/
theorem writes_serialize (k : Builtin) (x : k.Value) (ht : k.TimestampsOk x) :
    builtinSchema.Writes k.type (k.serialize A x) := by
  cases k with
  | log =>
    exact .append (.append (.append
      (writes_message 1 rfl (wellFormed_writeTimestamp ht))
      (writes_varint 2 rfl (Log.Level.toWire_lt _)))
      (writes_bytes 3 rfl _))
      (writes_bytes 4 rfl _)
  | image =>
    exact .append (.append (.append (.append (.append (.append (.append (.append
      (writes_message 1 rfl (wellFormed_writeTimestamp ht))
      (writes_uint32 2 rfl _))
      (writes_uint32 3 rfl _))
      (writes_bytes 4 rfl _))
      (writes_uint32 5 rfl _))
      (writes_bool 6 rfl _))
      (writes_bytes 7 rfl _))
      (writes_optional fun v _ ↦ writes_float 8 rfl v))
      (writes_optional fun v _ ↦ writes_float 9 rfl v)
  | depthImage =>
    exact .append (.append (.append (.append (.append (.append (.append
      (writes_message 1 rfl (wellFormed_writeTimestamp ht))
      (writes_uint32 2 rfl _))
      (writes_uint32 3 rfl _))
      (writes_bytes 4 rfl _))
      (writes_bytes 5 rfl _))
      (writes_packedDoubleArray 6 rfl _))
      (writes_bytes 7 rfl _))
      (writes_packedDouble 8 rfl _)
  | pointCloud =>
    exact .append (.append (.append (.append (.append (.append (.append (.append (.append
      (writes_message 1 rfl (wellFormed_writeTimestamp ht))
      (writes_uint32 2 rfl _))
      (writes_uint32 3 rfl _))
      (writes_uint32 4 rfl _))
      (writes_uint32 5 rfl _))
      (writes_bool 6 rfl _))
      (writes_bool 7 rfl _))
      (.flatMap fun f _ ↦ writes_message 8 rfl (wellFormed_writePointField f)))
      (writes_bytes 9 rfl _))
      (writes_bytes 10 rfl _)
  | compressedPointCloud | videoFrame =>
    exact .append (.append (.append
      (writes_message 1 rfl (wellFormed_writeTimestamp ht))
      (writes_bytes 2 rfl _))
      (writes_bytes 3 rfl _))
      (writes_bytes 4 rfl _)
  | assetVideo =>
    exact .append (.append (.append (.append (.append (.append (.append
      (writes_optional fun t hmem ↦
        writes_message 1 rfl (wellFormed_writeTimestamp (ht t hmem)))
      (writes_bytes 3 rfl _))
      (writes_bytes 4 rfl _))
      (writes_uint32 5 rfl _))
      (writes_uint32 6 rfl _))
      (writes_double 7 rfl _))
      (writes_optional fun t _ ↦ writes_uint64 8 rfl t.toUInt64))
      (writes_optional fun t _ ↦ writes_uint64 9 rfl t.toUInt64)
  | cameraInfo =>
    exact .append (.append (.append (.append (.append (.append (.append (.append
      (writes_message 1 rfl (wellFormed_writeTimestamp ht))
      (writes_bytes 2 rfl _))
      (writes_uint32 3 rfl _))
      (writes_uint32 4 rfl _))
      (writes_bytes 5 rfl _))
      (writes_packedDouble 6 rfl _))
      (writes_packedDoubleArray 7 rfl _))
      (writes_packedDoubleArray 8 rfl _))
      (writes_packedDoubleArray 9 rfl _)
  | occupancyGrid =>
    exact .append (.append (.append (.append (.append (.append
      (writes_message 1 rfl (wellFormed_writeTimestamp ht))
      (writes_bytes 2 rfl _))
      (writes_message 3 rfl (wellFormed_writePose _)))
      (writes_double 4 rfl _))
      (writes_uint32 5 rfl _))
      (writes_uint32 6 rfl _))
      (writes_bytes 7 rfl _)
  | occupancyGridUpdate =>
    exact .append (.append (.append (.append (.append (.append
      (writes_message 1 rfl (wellFormed_writeTimestamp ht))
      (writes_bytes 2 rfl _))
      (writes_uint32 3 rfl _))
      (writes_uint32 4 rfl _))
      (writes_uint32 5 rfl _))
      (writes_uint32 6 rfl _))
      (writes_bytes 7 rfl _)
  | mesh3D =>
    exact .append (.append (.append (.append (.append (.append (.append (.append (.append
      (writes_message 1 rfl (wellFormed_writeTimestamp ht))
      (writes_bytes 2 rfl _))
      (writes_bytes 3 rfl _))
      (writes_message 4 rfl (wellFormed_writePose _)))
      (writes_message 5 rfl (wellFormed_writeVector3 _)))
      (writes_bytes 6 rfl _))
      (writes_bytes 7 rfl _))
      (writes_bytes 8 rfl _))
      (writes_message 9 rfl (wellFormed_writeColor A _)))
      (writes_bool 10 rfl _)
  | frameTransforms =>
    exact .flatMap fun t hmem ↦
      writes_message 1 rfl (wellFormed_writeFrameTransform (ht t hmem))
  | sceneEntities =>
    exact .append
      (.flatMap fun d hmem ↦
        writes_message 1 rfl (wellFormed_writeSceneEntityDeletion (ht.1 d hmem)))
      (.flatMap fun e hmem ↦
        writes_message 2 rfl (wellFormed_writeSceneEntity A (ht.2 e hmem).1 (ht.2 e hmem).2))
  | imageAnnotations =>
    exact .append (.append
      (.flatMap fun c _ ↦ writes_message 1 rfl (wellFormed_writeAnnotationCircle A c))
      (.flatMap fun p _ ↦ writes_message 2 rfl (wellFormed_writeAnnotationPoints A p)))
      (.flatMap fun t _ ↦ writes_message 3 rfl (wellFormed_writeAnnotationText A t))

theorem wellFormed_serialize {k : Builtin} {x : k.Value} (ht : k.TimestampsOk x)
    (hlen : (k.serialize A x).length < 2 ^ 64) :
    builtinSchema.WellFormed k.type (k.serialize A x) :=
  wellFormed_of_writes k.type_ne_timestamp hlen (k.writes_serialize A x ht)

/-- Well-formed messages of every object are read the same with an unknown field in them. -/
theorem deserialize_of_insertedIn {k : Builtin} {host : MessageType}
    {u : UnknownField builtinSchema host} {data data' : List UInt8} {y : k.Value}
    (hins : u.InsertedIn k.type data data') (hskip : host.Skips u.tag.type)
    (hlen : data'.length < 2 ^ 64) (hwf : builtinSchema.WellFormed k.type data)
    (hok : k.deserialize A data = .ok y) : k.deserialize A data' = .ok y := by
  cases k with
  | log =>
    exact deserializeMessage_inserted (follows_ofFields (by
      simp [TableMatches, logFields, type, MessageType.fields])) hins hskip hlen hwf hok
  | image =>
    exact deserializeMessage_inserted (follows_ofFields (by
      simp [TableMatches, imageFields, type, MessageType.fields])) hins hskip hlen hwf hok
  | depthImage =>
    exact deserializeMessage_inserted (follows_ofFields (by
      simp [TableMatches, depthImageFields, type, MessageType.fields])) hins hskip hlen hwf hok
  | pointCloud =>
    exact deserializeMessage_inserted (follows_ofFields (by
      simp [TableMatches, pointCloudFields, type, MessageType.fields])) hins hskip hlen hwf hok
  | compressedPointCloud =>
    exact deserializeMessage_inserted (follows_ofFields (by
      simp [TableMatches, compressedPointCloudFields, type, MessageType.fields]))
      hins hskip hlen hwf hok
  | videoFrame =>
    exact deserializeMessage_inserted (follows_ofFields (by
      simp [TableMatches, videoFrameFields, type, MessageType.fields])) hins hskip hlen hwf hok
  | assetVideo =>
    exact deserializeMessage_inserted (follows_ofFields (by
      simp [TableMatches, assetVideoFields, type, MessageType.fields])) hins hskip hlen hwf hok
  | cameraInfo =>
    exact deserializeMessage_inserted (follows_ofFields (by
      simp [TableMatches, cameraInfoFields, type, MessageType.fields])) hins hskip hlen hwf hok
  | occupancyGrid =>
    exact deserializeMessage_inserted (follows_ofFields (by
      simp [TableMatches, occupancyGridFields, type, MessageType.fields])) hins hskip hlen hwf hok
  | occupancyGridUpdate =>
    exact deserializeMessage_inserted (follows_ofFields (by
      simp [TableMatches, occupancyGridUpdateFields, type, MessageType.fields]))
      hins hskip hlen hwf hok
  | mesh3D =>
    exact deserializeMessage_inserted (follows_ofFields (by
      simp [TableMatches, mesh3DFields, type, MessageType.fields])) hins hskip hlen hwf hok
  | frameTransforms =>
    exact deserializeContainer_inserted (by
      simp [TableMatches, frameTransformsElements, type, MessageType.fields])
      hins hskip hlen hwf hok
  | sceneEntities =>
    exact deserializeContainer_inserted (by
      simp [TableMatches, sceneEntitiesElements, type, MessageType.fields])
      hins hskip hlen hwf hok
  | imageAnnotations =>
    exact deserializeContainer_inserted (by
      simp [TableMatches, imageAnnotationsElements, type, MessageType.fields])
      hins hskip hlen hwf hok

end

end Builtin

/-! ## Inside a timestamp

An unknown varint makes the loop skip one varint too many. What follows in a timestamp is two fields
of at most eleven bytes, few enough to follow the loop to its end: it fails, or it reads no field at
all and returns the instant zero. -/

/-- The loop of the timestamp decoder. -/
private def timestampLoop (r : Reader) (parts : TimestampParts) :
    Except TimestampParts TimestampParts :=
  whileFields id (parseFieldsBody timestampHandler) r parts

private theorem decodeTimestamp_of_loop_error {r : Reader} (old : Int64) {e : TimestampParts}
    (h : timestampLoop r {} = .error e) : decodeTimestamp.decode r old = .error old := by
  have hloop : (MessageDecoder.ofBody (.ofHandler .timestamp)).decode r {} = .error e := h
  simp only [decodeTimestamp, MessageDecoder.ofLocals, hloop]

private theorem decodeTimestamp_of_loop_ok {r : Reader} (old : Int64) {parts : TimestampParts}
    {t : Int64} (h : timestampLoop r {} = .ok parts) (ht : combineTimestamp parts = some t) :
    decodeTimestamp.decode r old = .ok t :=
  decode_ofLocals h ht

private theorem timestampLoop_of_readTag {r r₁ : Reader} {tag : Tag} (parts : TimestampParts)
    (h : readTag r = (some tag, r₁)) :
    timestampLoop r parts = match parseFieldsBody timestampHandler tag r₁ parts with
      | .error e => .error e
      | .ok (r₂, parts₂) => timestampLoop r₂ parts₂ := by
  have hbody : Advances (parseFieldsBody timestampHandler) :=
    parseFieldsBody_advances Handler.timestamp.suffix
  simp only [timestampLoop, whileFields_of_readTag hbody h]
  rcases parseFieldsBody timestampHandler tag r₁ parts with e | ⟨r₂, parts₂⟩ <;> rfl

private theorem timestampLoop_of_readTag_eq_none {r : Reader} (parts : TimestampParts)
    (hne : r ≠ []) (h : (readTag r).1 = none) : timestampLoop r parts = .error parts := by
  cases r with
  | nil => exact absurd rfl hne
  | cons c r =>
    rw [timestampLoop, whileFields, List.length_cons, fieldLoop]
    rcases htag : readTag (c :: r) with ⟨t, r₁⟩
    rw [htag] at h
    simp only at h
    subst h
    rfl

/-- A field of another wire type than varint is skipped, if it is there. -/
private theorem timestampLoop_skip {r r₁ : Reader} {tag : Tag} (parts : TimestampParts)
    (h : readTag r = (some tag, r₁)) (htype : tag.type ≠ .varint) :
    timestampLoop r parts = match skip tag.type r₁ with
      | (true, r₂) => timestampLoop r₂ parts
      | (false, _) => .error parts := by
  rw [timestampLoop_of_readTag parts h, parseFieldsBody, timestampHandler_of_ne htype]
  rcases hskip : skip tag.type r₁ with ⟨ok, r₂⟩
  cases ok <;> simp only [hskip]

/-- An unknown varint takes the varint behind it with it. -/
private theorem timestampLoop_unknown {r r₁ r₂ : Reader} {tag : Tag} {v : ℕ}
    (parts : TimestampParts) (h : readTag r = (some tag, r₁)) (htype : tag.type = .varint)
    (hv : readVarint r₁ = (some v, r₂)) (hn : tag.field ≠ 1 ∧ tag.field ≠ 2) :
    timestampLoop r parts = match readVarint r₂ with
      | (some _, r₃) => timestampLoop r₃ parts
      | (none, _) => .error parts := by
  have hhandler : timestampHandler tag r₁ parts = (false, r₂, parts) := by
    simp [timestampHandler, htype, hv, hn.1, hn.2]
  rw [timestampLoop_of_readTag parts h, parseFieldsBody, hhandler]
  simp only [htype, skip]
  rcases readVarint r₂ with ⟨w, r₃⟩
  cases w <;> rfl

/-- A known varint is taken. -/
private theorem timestampLoop_known {r r₁ r₂ : Reader} {tag : Tag} {v : ℕ}
    (parts : TimestampParts) (h : readTag r = (some tag, r₁)) (htype : tag.type = .varint)
    (hv : readVarint r₁ = (some v, r₂)) (hn : ¬ (tag.field ≠ 1 ∧ tag.field ≠ 2)) :
    ∃ parts', timestampLoop r parts = timestampLoop r₂ parts' := by
  rw [timestampLoop_of_readTag parts h, parseFieldsBody]
  by_cases hone : tag.field = 1
  · exact ⟨{ parts with seconds := (UInt64.ofNat v).toInt64 },
      by simp [timestampHandler, htype, hv, hone]⟩
  · have htwo : tag.field = 2 := by
      by_contra htwo
      exact hn ⟨hone, htwo⟩
    exact ⟨{ parts with nanos := (UInt32.ofNat v).toInt32 },
      by simp [timestampHandler, htype, hv, htwo]⟩

theorem skip_nil (type : WireType) : skip type [] = (false, []) := by
  cases type <;> rfl

/-- A number alone is no field. -/
private theorem timestampLoop_appendVarint {v : ℕ} (hv : v < 2 ^ 64) (parts : TimestampParts) :
    timestampLoop (appendVarint v) parts = .error parts := by
  have hread := readVarint_append hv []
  rw [List.append_nil] at hread
  have hne : appendVarint v ≠ [] := by
    intro h
    rw [h] at hread
    exact absurd (congrArg Prod.fst hread) (by simp [readVarint, readVarintFrom])
  by_cases htag : v = 0 ∨ v / 8 % 2 ^ 32 = 0
  · refine timestampLoop_of_readTag_eq_none parts hne ?_
    simp only [readTag, hread, if_pos htag]
  · have h : readTag (appendVarint v) = (some ⟨v / 8 % 2 ^ 32, WireType.ofCode (v % 8)⟩, []) := by
      simp only [readTag, hread, if_neg htag]
    by_cases htype : WireType.ofCode (v % 8) = .varint
    · have hhandler : timestampHandler ⟨v / 8 % 2 ^ 32, WireType.ofCode (v % 8)⟩ [] parts =
          (false, [], parts) := by
        simp [timestampHandler, htype, readVarint, readVarintFrom]
      rw [timestampLoop_of_readTag parts h, parseFieldsBody, hhandler]
      simp only [skip_nil]
    · rw [timestampLoop_skip parts h htype]
      simp only [skip_nil]

theorem drop_appendVarint (v k : ℕ) :
    (appendVarint v).drop k = [] ∨ ∃ w ≤ v, (appendVarint v).drop k = appendVarint w := by
  induction k generalizing v with
  | zero => exact .inr ⟨v, le_refl v, rfl⟩
  | succ k ih =>
    by_cases hv : v < 0x80
    · left
      rw [appendVarint_of_lt hv]
      simp
    · rw [appendVarint_of_le (by omega), List.drop_succ_cons]
      rcases ih (v / 0x80) with h | ⟨w, hw, h⟩
      · exact .inl h
      · exact .inr ⟨w, by omega, h⟩

theorem length_appendVarint_le {v k : ℕ} (h : v < 2 ^ (7 * (k + 1))) :
    (appendVarint v).length ≤ k + 1 := by
  induction k generalizing v with
  | zero =>
    rw [appendVarint_of_lt (by simpa using h)]
    rfl
  | succ k ih =>
    by_cases hv : v < 0x80
    · rw [appendVarint_of_lt hv]
      simp
    · rw [appendVarint_of_le (by omega), List.length_cons]
      have hdiv : v / 0x80 < 2 ^ (7 * (k + 1)) := by
        rw [Nat.div_lt_iff_lt_mul (by decide)]
        calc v < 2 ^ (7 * (k + 1 + 1)) := h
          _ = 2 ^ (7 * (k + 1)) * 0x80 := by
            rw [show 7 * (k + 1 + 1) = 7 * (k + 1) + 7 by ring, pow_add]
            rfl
      exact Nat.succ_le_succ (ih hdiv)

/-- With the first tag gone, the seconds stand where a tag should be. The loop fails, or it passes
over the rest without setting anything; the latter not when the seconds are zero. -/
private theorem timestampLoop_seconds {sec nanos : ℕ} (hsec : sec < 2 ^ 64) (hnanos : nanos < 2 ^ 32)
    (parts : TimestampParts) :
    (∃ e, timestampLoop (appendVarint sec ++ Writer.varint 2 nanos) parts = .error e) ∨
      (sec ≠ 0 ∧ timestampLoop (appendVarint sec ++ Writer.varint 2 nanos) parts = .ok parts) := by
  have hread := readVarint_append hsec (Writer.varint 2 nanos)
  have hlen : (appendVarint nanos).length ≤ 5 := length_appendVarint_le (by omega)
  have hrest : Writer.varint 2 nanos = appendVarint 16 ++ appendVarint nanos := rfl
  have hsixteen : readVarint (Writer.varint 2 nanos) = (some 16, appendVarint nanos) :=
    readVarint_append (by decide) _
  by_cases htag : sec = 0 ∨ sec / 8 % 2 ^ 32 = 0
  · left
    refine ⟨_, timestampLoop_of_readTag_eq_none parts ?_ ?_⟩
    · rw [hrest]
      simp [appendVarint_of_lt]
    · simp only [readTag, hread, if_pos htag]
  · have hsec0 : sec ≠ 0 := fun h ↦ htag (.inl h)
    have h : readTag (appendVarint sec ++ Writer.varint 2 nanos) =
        (some ⟨sec / 8 % 2 ^ 32, WireType.ofCode (sec % 8)⟩, Writer.varint 2 nanos) := by
      simp only [readTag, hread, if_neg htag]
    cases htype : WireType.ofCode (sec % 8) with
    | varint =>
      rw [htype] at h
      by_cases hn : sec / 8 % 2 ^ 32 ≠ 1 ∧ sec / 8 % 2 ^ 32 ≠ 2
      · -- unknown again: the nanoseconds go with it
        right
        have hlast := readVarint_append (v := nanos) (by omega) []
        rw [List.append_nil] at hlast
        rw [timestampLoop_unknown parts h rfl hsixteen hn, hlast]
        exact ⟨hsec0, rfl⟩
      · -- a known number with the value 16, and then the nanoseconds alone
        left
        obtain ⟨parts', hnext⟩ := timestampLoop_known parts h rfl hsixteen hn
        exact ⟨parts', hnext.trans (timestampLoop_appendVarint (by omega) parts')⟩
    | fixed64 =>
      left
      refine ⟨parts, ?_⟩
      rw [timestampLoop_skip parts h (by simp [htype]), htype, skip, skipBytes, if_pos]
      rw [hrest, appendVarint_of_lt (by decide), List.singleton_append, List.length_cons]
      omega
    | lengthDelimited =>
      left
      refine ⟨parts, ?_⟩
      rw [timestampLoop_skip parts h (by simp [htype]), htype, skip, readBytes, hsixteen]
      simp only
      rw [if_pos (by omega)]
      rfl
    | fixed32 =>
      rw [timestampLoop_skip parts h (by simp [htype]), htype, skip, skipBytes]
      split_ifs with hshort
      · exact .inl ⟨parts, rfl⟩
      · -- what is left is empty or the end of the nanoseconds
        rw [hrest, appendVarint_of_lt (by decide), List.singleton_append, List.drop_succ_cons]
        rcases drop_appendVarint nanos 3 with hdrop | ⟨w, hw, hdrop⟩
        · rw [hdrop]
          exact .inr ⟨hsec0, rfl⟩
        · rw [hdrop]
          exact .inl ⟨parts, timestampLoop_appendVarint (by omega) parts⟩
    | invalid =>
      left
      refine ⟨parts, ?_⟩
      rw [timestampLoop_skip parts h (by simp [htype]), htype, skip]

/-- A cut at a field boundary is in front of the first field or somewhere behind it. -/
theorem splitFields_cut {before after r rest : Reader} {tag : Tag} {p : Payload}
    (hbefore : (splitFields before).isSome)
    (htag : readTag (before ++ after) = (some tag, r))
    (hp : readPayload tag.type r = some (p, rest)) :
    before = [] ∨ ∃ before', (splitFields before').isSome ∧ before' ++ after = rest := by
  obtain ⟨l, hl⟩ := Option.isSome_iff_exists.mp hbefore
  rcases splitFields_cases hl with ⟨hnil, -⟩ | ⟨tag', p', r₁, r₂, l', htag', hp', hl', -⟩
  · exact .inl hnil
  · right
    have h := htag.symm.trans (readTag_append_right after htag')
    simp only [Prod.mk.injEq, Option.some.injEq] at h
    obtain ⟨rfl, rfl⟩ := h
    have h := hp.symm.trans (readPayload_append_right after hp')
    simp only [Option.some.injEq, Prod.mk.injEq] at h
    exact ⟨r₂, by rw [hl']; rfl, h.2.symm⟩

theorem readPayload_appendVarint {v : ℕ} (hv : v < 2 ^ 64) (rest : Reader) :
    readPayload .varint (appendVarint v ++ rest) = some (.varint v, rest) := by
  rw [readPayload, readVarint_append hv]
  rfl

/-- The three field boundaries of two varints. -/
theorem cut_varints {before after : Reader} {n m v w : ℕ} (hn : 0 < n ∧ n < 2 ^ 32)
    (hm : 0 < m ∧ m < 2 ^ 32) (hv : v < 2 ^ 64) (hw : w < 2 ^ 64)
    (hbefore : (splitFields before).isSome)
    (h : before ++ after = Writer.varint n v ++ Writer.varint m w) :
    before = [] ∨ after = Writer.varint m w ∨ after = [] := by
  have htag := readTag_append hn.1 hn.2 .varint (appendVarint v ++ Writer.varint m w)
  rw [← List.append_assoc] at htag
  rcases splitFields_cut hbefore (h ▸ htag) (readPayload_appendVarint hv _) with
    hnil | ⟨before', hbefore', h'⟩
  · exact .inl hnil
  · right
    have htag' : readTag (before' ++ after) = (some ⟨m, .varint⟩, appendVarint w) := by
      rw [h']
      exact readTag_append hm.1 hm.2 .varint (appendVarint w)
    have hp := readPayload_appendVarint hw []
    rw [List.append_nil] at hp
    rcases splitFields_cut hbefore' htag' hp with rfl | ⟨_, -, hend⟩
    · exact .inl h'
    · exact .inr (List.append_eq_nil_iff.mp hend).2

/-- An unknown varint at any boundary of a timestamp: the loop fails or returns nothing. -/
private theorem timestampLoop_inserted {t : Int64} (ht : TimestampOk t)
    {u : UnknownField builtinSchema .timestamp} (hu : u.tag.type = .varint)
    {before after : List UInt8} (hbefore : (splitFields before).isSome)
    (heq : before ++ after = writeTimestamp t)
    (hlen : (writeTimestamp t).length < 2 ^ 64) :
    (∃ e, timestampLoop (before ++ (u.bytes ++ after)) {} = .error e) ∨
      (t ≠ 0 ∧ timestampLoop (before ++ (u.bytes ++ after)) {} = .ok {}) := by
  have hsec := (splitTimestamp t).seconds.toUInt64.toNat_lt
  have hnanos := (splitTimestamp t).nanos.toUInt32.toNat_lt
  -- the fields in front are taken
  have hfront : ∃ parts, (before = [] → parts = {}) ∧
      timestampLoop (before ++ (u.bytes ++ after)) {} = timestampLoop (u.bytes ++ after) parts := by
    obtain ⟨l₁, hl₁⟩ := Option.isSome_iff_exists.mp hbefore
    have hwf := wellFormed_writeTimestamp ht hlen
    rw [← heq] at hwf
    rcases hwf with @⟨_, _, fields, hsplit, hfields, -⟩
    have htypes : ∀ f ∈ fields, f.1.type = f.2.type := fun _ hf ↦
      type_of_mem_splitFields hsplit hf
    rw [splitFields_append hl₁, Option.map_eq_some_iff] at hsplit
    obtain ⟨l₂, -, rfl⟩ := hsplit
    have htakes : ∀ f ∈ l₁, (FieldBody.ofHandler .timestamp).Takes f.1 f.2 := fun f hf ↦
      FieldBody.follows_timestamp.takes (hfields f (List.mem_append_left _ hf))
        (htypes f (List.mem_append_left _ hf))
    obtain ⟨parts, hfold, hloop⟩ :=
      FieldBody.whileFields_append_of_takes hl₁ htakes id (u.bytes ++ after) {}
    refine ⟨parts, ?_, hloop⟩
    rintro rfl
    obtain rfl := Option.some.inj hl₁
    exact (Option.some.inj hfold).symm
  obtain ⟨parts, hparts, hfront⟩ := hfront
  -- the unknown field takes the varint behind it with it
  have hunknown : timestampLoop (u.bytes ++ after) parts = match readVarint after with
      | (some _, r₃) => timestampLoop r₃ parts
      | (none, _) => .error parts := by
    rcases splitFields_cases u.split with ⟨-, hnil⟩ | ⟨tag, p, r₁, r₂, l, htag, hp, hl, heq⟩
    · exact absurd hnil (by simp)
    · obtain ⟨hf, rfl⟩ := List.cons.inj heq
      obtain ⟨rfl, rfl⟩ := Prod.mk.inj hf
      rcases splitFields_cases hl with ⟨rfl, -⟩ | ⟨_, _, _, _, _, _, _, _, hnil⟩
      · have hp' := readPayload_append_right after hp
        rw [hu, readPayload, Option.map_eq_some_iff] at hp'
        obtain ⟨v, hv, hr⟩ := hp'
        exact timestampLoop_unknown parts (readTag_append_right after htag) hu
          (Prod.ext hv (Prod.mk.inj hr).2) (timestamp_undefined.mp u.undefined)
      · exact absurd hnil (by simp)
  rw [hfront, hunknown]
  rcases cut_varints (by decide) (by decide) hsec (hnanos.trans (by decide)) hbefore heq with
    rfl | rfl | rfl
  · rw [hparts rfl, show after = writeTimestamp t from heq]
    have hfirst : readVarint (writeTimestamp t) =
        (some 8, appendVarint (splitTimestamp t).seconds.toUInt64.toNat ++
          Writer.varint 2 (splitTimestamp t).nanos.toUInt32.toNat) := by
      rw [writeTimestamp, Writer.varint, List.append_assoc]
      exact readVarint_append (by decide) _
    rw [hfirst]
    rcases timestampLoop_seconds hsec hnanos {} with herror | ⟨hsec0, hok⟩
    · exact .inl herror
    · refine .inr ⟨?_, hok⟩
      rintro rfl
      exact hsec0 rfl
  · left
    have hfirst : readVarint (Writer.varint 2 (splitTimestamp t).nanos.toUInt32.toNat) =
        (some 16, appendVarint (splitTimestamp t).nanos.toUInt32.toNat) :=
      readVarint_append (by decide) _
    rw [hfirst]
    exact ⟨parts, timestampLoop_appendVarint (hnanos.trans (by decide)) parts⟩
  · exact .inl ⟨parts, rfl⟩

/-- An instant survives an unknown field in its message exactly when the field is no varint. -/
theorem decodeTimestamp_inserted_iff {t : Int64} (ht : TimestampOk t)
    {u : UnknownField builtinSchema .timestamp} {data' : List UInt8}
    (hins : u.InsertedIn .timestamp (writeTimestamp t) data') (hlen : data'.length < 2 ^ 64)
    (old : Int64) :
    decodeTimestamp.decode data' old = .ok t ↔ MessageType.timestamp.Skips u.tag.type := by
  have hlen' := hins.length_le.trans_lt hlen
  have hwf := wellFormed_writeTimestamp ht hlen'
  constructor
  · intro hok hbad
    obtain ⟨data, hdata⟩ : ∃ data, data = writeTimestamp t := ⟨_, rfl⟩
    rw [← hdata] at hins
    rcases hins with @⟨before, after, hbefore⟩ | @⟨_, U, n, _, _, _, _, _, hfield, _⟩
    · rcases timestampLoop_inserted ht hbad.2 hbefore hdata hlen' with ⟨e, herror⟩ | ⟨ht0, hzero⟩
      · rw [decodeTimestamp_of_loop_error old herror] at hok
        exact absurd hok (by simp)
      · rw [decodeTimestamp_of_loop_ok old hzero rfl, Except.ok.injEq] at hok
        exact ht0 hok.symm
    · exact absurd (timestamp_defined hfield).1 (by simp)
  · intro hskip
    obtain ⟨y, hmeaning, hdecode⟩ := follows_timestamp.complete hwf old
    obtain ⟨y', hmeaning', hdecode'⟩ := follows_timestamp.complete (hwf.inserted hins hskip hlen) old
    rw [follows_timestamp.blind hins hlen hwf, hmeaning, Option.some.injEq] at hmeaning'
    rw [hdecode', ← hmeaning', ← hdecode, decodeTimestamp_writeTimestamp ht old hlen']

/-! ## Whole objects -/

namespace Builtin

/-- What a serializer wrote and its decoder accepts is read the same with an unknown field inserted
at any field boundary of any message in it, if the instants of the object can be put together again
and the field is not a varint inside a timestamp. Inside a timestamp the condition on the field is
exact. -/
theorem deserialize_inserted (A : FloatArith) :
    (∀ (k : Builtin) (x y : k.Value) (host : MessageType) (u : UnknownField builtinSchema host)
      (data' : List UInt8), k.TimestampsOk x → host.Skips u.tag.type →
        k.deserialize A (k.serialize A x) = .ok y →
          u.InsertedIn k.type (k.serialize A x) data' → data'.length < 2 ^ 64 →
            k.deserialize A data' = .ok y) ∧
    ∀ (t old : Int64) (u : UnknownField builtinSchema .timestamp) (data' : List UInt8),
      TimestampOk t → u.InsertedIn .timestamp (writeTimestamp t) data' →
        data'.length < 2 ^ 64 →
          (decodeTimestamp.decode data' old = .ok t ↔
            MessageType.timestamp.Skips u.tag.type) := by
  constructor
  · intro k x y host u data' ht hskip hok hins hlen
    have hwf := wellFormed_serialize A ht (hins.length_le.trans_lt hlen)
    exact deserialize_of_insertedIn A hins hskip hlen hwf hok
  · intro t old u data' ht hins hlen
    exact decodeTimestamp_inserted_iff ht hins hlen old

/-- A field number 3 of four bytes, unknown to a timestamp. -/
def unknownFixed32 : UnknownField builtinSchema .timestamp where
  bytes := [0x1d, 1, 2, 3, 4]
  tag := ⟨3, .fixed32⟩
  payload := .fixed32 0x04030201
  split := rfl
  undefined := rfl

/-- A field number 3 with the number 5, unknown to a timestamp. -/
def unknownVarint : UnknownField builtinSchema .timestamp where
  bytes := [0x18, 5]
  tag := ⟨3, .varint⟩
  payload := .varint 5
  split := rfl
  undefined := rfl

/-- The default log with bytes in front of its timestamp. -/
def logWith (bytes : List UInt8) : List UInt8 :=
  Writer.message 1 (bytes ++ writeTimestamp 0) ++
    (Writer.varint 2 0 ++ Writer.string 3 [] ++ Writer.string 4 [])

theorem writeTimestamp_zero : writeTimestamp 0 = [8, 0, 16, 0] := by
  have hseconds : (splitTimestamp 0).seconds.toUInt64.toNat = 0 := by decide
  have hnanos : (splitTimestamp 0).nanos.toUInt32.toNat = 0 := by decide
  simp [writeTimestamp, hseconds, hnanos, Writer.varint, Writer.tag, WireType.code,
    appendVarint_of_lt]

theorem logWith_eq {bytes : List UInt8} (h : bytes.length < 100) :
    logWith bytes = 0x0a :: UInt8.ofNat (bytes.length + 4) :: (bytes ++
      [8, 0, 16, 0, 16, 0, 0x1a, 0, 0x22, 0]) := by
  have hvarint : appendVarint (bytes.length + 4) = [UInt8.ofNat (bytes.length + 4)] :=
    appendVarint_of_lt (by omega)
  simp [logWith, writeTimestamp_zero, Writer.message, Writer.string, Writer.lengthDelimited,
    Writer.varint, Writer.tag, WireType.code, appendVarint_of_lt, hvarint]

theorem serialize_default_log : serializeLog {} = logWith [] := by
  simp [serializeLog, logWith, Log.Level.toWire]

theorem insertedIn_logWith (u : UnknownField builtinSchema .timestamp) :
    u.InsertedIn Builtin.log.type (serializeLog {}) (logWith u.bytes) := by
  have hhere : u.InsertedIn .timestamp ([] ++ writeTimestamp 0)
      ([] ++ (u.bytes ++ writeTimestamp 0)) := .here rfl
  have hlog : u.InsertedIn MessageType.log ([] ++ logWith []) ([] ++ logWith u.bytes) :=
    .inside rfl rfl hhere
  rw [serialize_default_log]
  exact hlog

theorem deserialize_default_log (A : FloatArith) :
    Builtin.log.deserialize A (Builtin.log.serialize A ({} : Log)) = .ok ({} : Log) := by
  change deserializeLog (serializeLog {}) = _
  rw [serialize_default_log, logWith_eq (by decide)]
  rfl

/-- Four bytes that a timestamp does not know leave the default log as it is. -/
theorem deserialize_inserted_log : deserializeLog (logWith unknownFixed32.bytes) = .ok {} := by
  refine (deserialize_inserted .binary64).1 .log ({} : Log) ({} : Log) .timestamp unknownFixed32
    (logWith unknownFixed32.bytes) (show TimestampOk 0 by decide) (by decide)
    (deserialize_default_log _) (insertedIn_logWith _) ?_
  rw [logWith_eq (by decide)]
  decide

/-- A number that a timestamp does not know makes the default log unreadable. -/
theorem deserialize_not_inserted :
    ¬ ∀ (A : FloatArith) (k : Builtin) (x y : k.Value) (host : MessageType)
      (u : UnknownField builtinSchema host) (data' : List UInt8),
        k.deserialize A (k.serialize A x) = .ok y →
          u.InsertedIn k.type (k.serialize A x) data' → data'.length < 2 ^ 64 →
            k.deserialize A data' = .ok y := by
  intro h
  have hread := h .binary64 .log ({} : Log) ({} : Log) .timestamp unknownVarint
    (logWith unknownVarint.bytes) (deserialize_default_log _) (insertedIn_logWith _)
    (by rw [logWith_eq (by decide)]; decide)
  have herror : deserializeLog (logWith unknownVarint.bytes) = .error "Log wire: decode failed" := by
    rw [logWith_eq (by decide)]
    rfl
  exact absurd (herror.symm.trans hread) (by simp)

end Builtin

end PlotJuggler
