import PlotJugglerCore.Codec.Builtin
import PlotJugglerCore.Wire.Unknown

/-!
# The schema of the builtin codecs

The message types of the fourteen codecs with the field numbers their decoders know, nested messages
included, and the forward compatibility that goes with it: a field under any other number may be
inserted at any field boundary of any message without changing what is read.

It holds with one exception. The timestamp handler reads the varint of a field before it looks at
the number, so it has consumed an unknown varint by the time it declines it, and the loop skips a
second one. The schema records this: a timestamp passes over unknown fields of every wire type but
that one.
-/

namespace PlotJuggler

open WireSchema FieldReader MessageDecoder

/-! ## Message types -/

/-- The messages of the builtin codecs. Durations share the message of the timestamps. -/
inductive MessageType
  | timestamp
  | vector3
  | point3
  | quaternion
  | pose
  | color
  | log
  | image
  | depthImage
  | pointField
  | pointCloud
  | compressedPointCloud
  | videoFrame
  | assetVideo
  | cameraInfo
  | occupancyGrid
  | occupancyGridUpdate
  | mesh3D
  | frameTransform
  | frameTransforms
  | arrowPrimitive
  | cubePrimitive
  | spherePrimitive
  | cylinderPrimitive
  | linePrimitive
  | trianglePrimitive
  | textPrimitive
  | axesPrimitive
  | modelPrimitive
  | sceneEntityDeletion
  | keyValuePair
  | sceneEntity
  | sceneEntities
  | point2
  | annotationPoints
  | annotationCircle
  | annotationText
  | imageAnnotations
  deriving DecidableEq, Repr

namespace MessageType

/-- The numbers that the decoder of the message knows, with what stands under them. -/
def fields : MessageType → List (ℕ × FieldShape MessageType)
  | timestamp => [(1, .varint), (2, .varint)]
  | vector3 | point3 => [(1, .double), (2, .double), (3, .double)]
  | quaternion | color => [(1, .double), (2, .double), (3, .double), (4, .double)]
  | pose => [(1, .message vector3), (2, .message quaternion)]
  | log => [(1, .message timestamp), (2, .varint), (3, .bytes), (4, .bytes)]
  | image =>
    [(1, .message timestamp), (2, .varint), (3, .varint), (4, .bytes), (5, .varint), (6, .varint),
      (7, .bytes), (8, .float), (9, .float)]
  | depthImage =>
    [(1, .message timestamp), (2, .varint), (3, .varint), (4, .bytes), (5, .bytes),
      (6, .packedArray 8 9), (7, .bytes), (8, .packed 8)]
  | pointField => [(1, .bytes), (2, .varint), (3, .varint), (4, .varint)]
  | pointCloud =>
    [(1, .message timestamp), (2, .varint), (3, .varint), (4, .varint), (5, .varint), (6, .varint),
      (7, .varint), (8, .message pointField), (9, .bytes), (10, .bytes)]
  | compressedPointCloud | videoFrame =>
    [(1, .message timestamp), (2, .bytes), (3, .bytes), (4, .bytes)]
  | assetVideo =>
    [(1, .message timestamp), (3, .bytes), (4, .bytes), (5, .varint), (6, .varint), (7, .double),
      (8, .varint), (9, .varint)]
  | cameraInfo =>
    [(1, .message timestamp), (2, .bytes), (3, .varint), (4, .varint), (5, .bytes), (6, .packed 8),
      (7, .packedArray 8 9), (8, .packedArray 8 9), (9, .packedArray 8 12)]
  | occupancyGrid =>
    [(1, .message timestamp), (2, .bytes), (3, .message pose), (4, .double), (5, .varint),
      (6, .varint), (7, .bytes)]
  | occupancyGridUpdate =>
    [(1, .message timestamp), (2, .bytes), (3, .varint), (4, .varint), (5, .varint), (6, .varint),
      (7, .bytes)]
  | mesh3D =>
    [(1, .message timestamp), (2, .bytes), (3, .bytes), (4, .message pose), (5, .message vector3),
      (6, .bytes), (7, .bytes), (8, .bytes), (9, .message color), (10, .varint)]
  | frameTransform =>
    [(1, .message timestamp), (2, .bytes), (3, .bytes), (4, .message vector3),
      (5, .message quaternion)]
  | frameTransforms => [(1, .message frameTransform)]
  | arrowPrimitive =>
    [(1, .message pose), (2, .double), (3, .double), (4, .double), (5, .double),
      (6, .message color)]
  | cubePrimitive | spherePrimitive =>
    [(1, .message pose), (2, .message vector3), (3, .message color)]
  | cylinderPrimitive =>
    [(1, .message pose), (2, .message vector3), (3, .double), (4, .double), (5, .message color)]
  | linePrimitive =>
    [(1, .varint), (2, .message pose), (3, .double), (4, .varint), (5, .message point3),
      (6, .message color), (7, .message color), (8, .packed 4)]
  | trianglePrimitive =>
    [(1, .message pose), (2, .message point3), (3, .message color), (4, .message color),
      (5, .packed 4)]
  | textPrimitive =>
    [(1, .message pose), (2, .varint), (3, .double), (4, .varint), (5, .message color),
      (6, .bytes)]
  | axesPrimitive => [(1, .message pose), (2, .double), (3, .double), (4, .varint)]
  | modelPrimitive =>
    [(1, .message pose), (2, .message vector3), (3, .message color), (4, .varint), (5, .bytes),
      (6, .bytes), (7, .bytes)]
  | sceneEntityDeletion => [(1, .message timestamp), (2, .varint), (3, .bytes)]
  | keyValuePair => [(1, .bytes), (2, .bytes)]
  | sceneEntity =>
    [(1, .message timestamp), (2, .bytes), (3, .bytes), (4, .message timestamp), (5, .varint),
      (6, .message keyValuePair), (7, .message arrowPrimitive), (8, .message cubePrimitive),
      (9, .message spherePrimitive), (10, .message cylinderPrimitive), (11, .message linePrimitive),
      (12, .message trianglePrimitive), (13, .message textPrimitive),
      (14, .message modelPrimitive), (15, .message axesPrimitive)]
  | sceneEntities => [(1, .message sceneEntityDeletion), (2, .message sceneEntity)]
  | point2 => [(1, .double), (2, .double)]
  | annotationPoints =>
    [(2, .varint), (3, .message point2), (4, .message color), (5, .message color),
      (6, .message color), (7, .double)]
  | annotationCircle =>
    [(2, .message point2), (3, .double), (4, .double), (5, .message color), (6, .message color)]
  | annotationText => [(2, .message point2), (3, .bytes), (4, .double), (5, .message color)]
  | imageAnnotations =>
    [(1, .message annotationCircle), (2, .message annotationPoints), (3, .message annotationText)]

/-- Unknown fields that the decoder passes over: all, but for varints in a timestamp. -/
def Skips (T : MessageType) (type : WireType) : Prop := ¬ (T = timestamp ∧ type = .varint)

instance (T : MessageType) (type : WireType) : Decidable (T.Skips type) :=
  inferInstanceAs (Decidable (¬ _))

/-- The seconds and nanoseconds of a timestamp can be put together. -/
def Finishes (T : MessageType) (fields : List (Tag × Payload)) : Prop :=
  T = timestamp →
    (combineTimestamp (fields.foldl (fun parts f ↦ timestampMeaning f.1 f.2 parts) {})).isSome

theorem number_ok {T : MessageType} {n : ℕ} {shape : FieldShape MessageType}
    (h : T.fields.lookup n = some shape) : 0 < n ∧ n < 2 ^ 32 := by
  have hall : ∀ a ∈ T.fields, 0 < a.1 ∧ a.1 < 2 ^ 32 := by cases T <;> decide
  rw [List.lookup_eq_some_iff] at h
  obtain ⟨l₁, l₂, heq, -⟩ := h
  exact hall (n, shape) (by rw [heq]; simp)

end MessageType

/-! ## Timestamps -/

theorem timestamp_undefined {n : ℕ} :
    MessageType.timestamp.fields.lookup n = none ↔ n ≠ 1 ∧ n ≠ 2 := by
  simp [MessageType.fields]

/-- What a timestamp defines is two varints. -/
theorem timestamp_defined {n : ℕ} {shape : FieldShape MessageType}
    (h : MessageType.timestamp.fields.lookup n = some shape) :
    shape = .varint ∧ (n = 1 ∨ n = 2) := by
  have hn : n = 1 ∨ n = 2 := by
    by_contra hne
    rw [not_or] at hne
    rw [timestamp_undefined.mpr hne] at h
    exact absurd h (by simp)
  refine ⟨?_, hn⟩
  rcases hn with rfl | rfl <;> exact (Option.some.inj h).symm

theorem timestampMeaning_unknown {tag : Tag} (p : Payload) (parts : TimestampParts)
    (h : MessageType.timestamp.fields.lookup tag.field = none) :
    timestampMeaning tag p parts = parts := by
  obtain ⟨h₁, h₂⟩ := timestamp_undefined.mp h
  rw [timestampMeaning.eq_def]
  split
  · exact absurd ‹tag.field = 1› h₁
  · exact absurd ‹tag.field = 2› h₂
  · rfl

def builtinSchema : WireSchema MessageType where
  fields := MessageType.fields
  skips := MessageType.Skips
  finishes := MessageType.Finishes
  number_ok := MessageType.number_ok
  finishes_unknown {T tag l₁ l₂} p hn h hT := by
    subst hT
    have h' := h rfl
    rw [List.foldl_append] at h' ⊢
    rwa [List.foldl_cons, timestampMeaning_unknown p _ hn]
  finishes_message {T U n l₁ l₂} _ _ hn _ hT := by
    subst hT
    exact absurd (timestamp_defined hn).1 (by simp)

@[simp] theorem builtinSchema_fields (T : MessageType) : builtinSchema.fields T = T.fields := rfl

/-- The timestamp handler leaves a field of another wire type where it is. -/
theorem timestampHandler_of_ne {tag : Tag} (h : tag.type ≠ .varint) (r : Reader)
    (parts : TimestampParts) : timestampHandler tag r parts = (false, r, parts) := by
  rw [timestampHandler, if_pos h]

theorem FieldBody.follows_timestamp :
    (FieldBody.ofHandler .timestamp).Follows builtinSchema .timestamp where
  takes {tag p} hc htype parts := by
    refine ⟨_, rfl, fun r r' hr ↦ ?_⟩
    change parseFieldsBody timestampHandler tag r parts = _
    rcases hc with ⟨_, hn, hskip⟩ | ⟨hn, hp⟩
    · -- an unknown field that is not a varint
      have hne : tag.type ≠ .varint := fun h ↦ hskip ⟨rfl, h⟩
      rw [parseFieldsBody, timestampHandler_of_ne hne, timestampMeaning_unknown p _ hn]
      simp only [skip_of_readPayload hr]
    · obtain ⟨rfl, hfield⟩ := timestamp_defined hn
      rcases hp with ⟨v⟩
      have hv : readVarint r = (some v, r') := by
        rw [htype, Payload.type, readPayload] at hr
        simp only [Option.map_eq_some_iff, Prod.mk.injEq, Payload.varint.injEq] at hr
        obtain ⟨w, hw, rfl, hr'⟩ := hr
        exact Prod.ext hw hr'
      have hvarint : ¬ tag.type ≠ .varint := not_not.mpr htype
      rcases hfield with hfield | hfield <;>
        simp [parseFieldsBody, timestampHandler, hvarint, hv, hfield, timestampMeaning]
  unknown p parts hn := congrArg some (timestampMeaning_unknown p parts hn)
  nested hn := absurd (timestamp_defined hn).1 (by simp)

/-- The fold of a body whose fields always mean something. -/
theorem foldlM_some {α β : Type} (f : β → α → β) (l : List α) (b : β) :
    l.foldlM (fun b a ↦ some (f b a)) b = some (l.foldl f b) := by
  induction l generalizing b with
  | nil => rfl
  | cons a l ih =>
    rw [List.foldlM_cons, List.foldl_cons]
    exact ih (f b a)

@[simp] theorem follows_timestamp : decodeTimestamp.Follows builtinSchema .timestamp := by
  refine MessageDecoder.follows_ofLocals
    (MessageDecoder.follows_ofBody FieldBody.follows_timestamp) fun hwf hmeaning ↦ ?_
  rcases hwf with @⟨_, _, fields, hsplit, -, hfinish⟩
  change FieldBody.messageMeaning _ _ _ = _ at hmeaning
  rw [FieldBody.messageMeaning, hsplit] at hmeaning
  have hfold := foldlM_some (fun parts (f : Tag × Payload) ↦ timestampMeaning f.1 f.2 parts)
    fields {}
  rw [← Option.some.inj (hfold.symm.trans hmeaning)]
  exact hfinish rfl

theorem wellFormed_writeTimestamp {t : Int64} (ht : TimestampOk t)
    (hlen : (writeTimestamp t).length < 2 ^ 64) :
    builtinSchema.WellFormed .timestamp (writeTimestamp t) := by
  have hseconds := (splitTimestamp t).seconds.toUInt64.toNat_lt
  have hnanos : (splitTimestamp t).nanos.toUInt32.toNat < 2 ^ 64 :=
    (splitTimestamp t).nanos.toUInt32.toNat_lt.trans (by decide)
  have hwrites : builtinSchema.Writes .timestamp (writeTimestamp t) :=
    .append (writes_varint 1 rfl hseconds) (writes_varint 2 rfl hnanos)
  refine hwrites.wellFormed hlen fun fields hsplit _ ↦ ?_
  have hfields := splitFields_append_eq_some
    (splitFields_varint (n := 1) (by decide) (by decide) hseconds)
    (splitFields_varint (n := 2) (by decide) (by decide) hnanos)
  rw [← Option.some.inj (hfields.symm.trans hsplit)]
  simp only [List.singleton_append, List.foldl_cons, List.foldl_nil, timestampMeaning,
    UInt64.ofNat_toNat, Int64.toInt64_toUInt64, UInt32.ofNat_toNat, Int32.toInt32_toUInt32]
  exact ht

/-! ## The decoders follow the schema

One comparison of tables for each decoder, in the order in which they call each other. -/

@[simp] theorem follows_vector3 : decodeVector3.Follows builtinSchema .vector3 :=
  follows_ofFields (by simp [TableMatches, vector3Fields, MessageType.fields])

@[simp] theorem follows_point3 : decodePoint3.Follows builtinSchema .point3 :=
  follows_ofFields (by simp [TableMatches, point3Fields, MessageType.fields])

@[simp] theorem follows_quaternion : decodeQuaternion.Follows builtinSchema .quaternion :=
  follows_ofFields (by simp [TableMatches, quaternionFields, MessageType.fields])

@[simp] theorem follows_pose : decodePose.Follows builtinSchema .pose :=
  follows_ofFields (by simp [TableMatches, poseFields, MessageType.fields])

theorem tableFollows_color : TableFollows builtinSchema .color colorFields := by
  simp [TableMatches, colorFields, MessageType.fields]

@[simp] theorem follows_color (A : FloatArith) : (decodeColor A).Follows builtinSchema .color :=
  follows_ofLocals (follows_ofFields tableFollows_color) fun _ _ ↦ rfl

@[simp] theorem follows_pointField : decodePointField.Follows builtinSchema .pointField :=
  follows_ofFields (by simp [TableMatches, pointFieldFields, MessageType.fields])

@[simp] theorem follows_frameTransform :
    decodeFrameTransform.Follows builtinSchema .frameTransform :=
  follows_ofFields (by simp [TableMatches, frameTransformFields, MessageType.fields])

@[simp] theorem follows_axesPrimitive : decodeAxesPrimitive.Follows builtinSchema .axesPrimitive :=
  follows_ofFields (by simp [TableMatches, axesPrimitiveFields, MessageType.fields])

@[simp] theorem follows_sceneEntityDeletion :
    decodeSceneEntityDeletion.Follows builtinSchema .sceneEntityDeletion :=
  follows_ofFields (by simp [TableMatches, sceneEntityDeletionFields, MessageType.fields])

@[simp] theorem follows_keyValuePair : decodeKeyValuePair.Follows builtinSchema .keyValuePair :=
  follows_ofFields (by simp [TableMatches, keyValuePairFields, MessageType.fields])

@[simp] theorem follows_point2 : decodePoint2.Follows builtinSchema .point2 :=
  follows_ofStrictFields (by simp [TableMatches, point2Fields, MessageType.fields])

section

variable (A : FloatArith)

@[simp] theorem follows_arrowPrimitive :
    (decodeArrowPrimitive A).Follows builtinSchema .arrowPrimitive :=
  follows_ofFields (by simp [TableMatches, arrowPrimitiveFields, MessageType.fields])

@[simp] theorem follows_cubePrimitive :
    (decodeCubePrimitive A).Follows builtinSchema .cubePrimitive :=
  follows_ofFields (by simp [TableMatches, cubePrimitiveFields, MessageType.fields])

@[simp] theorem follows_spherePrimitive :
    (decodeSpherePrimitive A).Follows builtinSchema .spherePrimitive :=
  follows_ofFields (by simp [TableMatches, spherePrimitiveFields, MessageType.fields])

@[simp] theorem follows_cylinderPrimitive :
    (decodeCylinderPrimitive A).Follows builtinSchema .cylinderPrimitive :=
  follows_ofFields (by simp [TableMatches, cylinderPrimitiveFields, MessageType.fields])

@[simp] theorem follows_linePrimitive :
    (decodeLinePrimitive A).Follows builtinSchema .linePrimitive :=
  follows_ofFields (by simp [TableMatches, linePrimitiveFields, MessageType.fields])

@[simp] theorem follows_trianglePrimitive :
    (decodeTrianglePrimitive A).Follows builtinSchema .trianglePrimitive :=
  follows_ofFields (by simp [TableMatches, trianglePrimitiveFields, MessageType.fields])

@[simp] theorem follows_textPrimitive :
    (decodeTextPrimitive A).Follows builtinSchema .textPrimitive :=
  follows_ofFields (by simp [TableMatches, textPrimitiveFields, MessageType.fields])

@[simp] theorem follows_modelPrimitive :
    (decodeModelPrimitive A).Follows builtinSchema .modelPrimitive :=
  follows_ofFields (by simp [TableMatches, modelPrimitiveFields, MessageType.fields])

@[simp] theorem follows_sceneEntity : (decodeSceneEntity A).Follows builtinSchema .sceneEntity :=
  follows_ofFields (by simp [TableMatches, sceneEntityFields, MessageType.fields])

@[simp] theorem follows_annotationColor :
    (decodeAnnotationColor A).Follows builtinSchema .color :=
  follows_ofLocals (follows_ofStrictFields tableFollows_color) fun _ _ ↦ rfl

@[simp] theorem follows_annotationPoints :
    (decodeAnnotationPoints A).Follows builtinSchema .annotationPoints :=
  follows_ofStrictFields (by simp [TableMatches, pointsAnnotationFields, MessageType.fields])

@[simp] theorem follows_annotationCircle :
    (decodeAnnotationCircle A).Follows builtinSchema .annotationCircle :=
  follows_after (follows_ofStrictFields (by
    simp [TableMatches, circleAnnotationFields, MessageType.fields])) _

@[simp] theorem follows_annotationText :
    (decodeAnnotationText A).Follows builtinSchema .annotationText :=
  follows_after (follows_ofStrictFields (by
    simp [TableMatches, textAnnotationFields, MessageType.fields])) _

end

/-! ## The writers write well-formed messages -/

theorem wellFormed_of_writes {T : MessageType} {data : List UInt8} (hT : T ≠ .timestamp)
    (hlen : data.length < 2 ^ 64) (h : builtinSchema.Writes T data) :
    builtinSchema.WellFormed T data :=
  h.wellFormed hlen fun _ _ hT' ↦ absurd hT' hT

theorem writes_uint32 {T : MessageType} (n : ℕ) (hfield : T.fields.lookup n = some .varint)
    (v : UInt32) : builtinSchema.Writes T (Writer.varint n v.toNat) :=
  writes_varint n hfield (v.toNat_lt.trans (by decide))

theorem writes_uint64 {T : MessageType} (n : ℕ) (hfield : T.fields.lookup n = some .varint)
    (v : UInt64) : builtinSchema.Writes T (Writer.varint n v.toNat) :=
  writes_varint n hfield v.toNat_lt

theorem writes_bool {T : MessageType} (n : ℕ) (hfield : T.fields.lookup n = some .varint)
    (v : Bool) : builtinSchema.Writes T (Writer.varint n (if v then 1 else 0)) :=
  writes_varint n hfield (by cases v <;> decide)

theorem writes_optional {α : Type} {T : MessageType} {write : α → List UInt8} {o : Option α}
    (h : ∀ v ∈ o, builtinSchema.Writes T (write v)) :
    builtinSchema.Writes T (writeOptional write o) := by
  cases o with
  | none => exact .nil
  | some v => exact h v rfl

theorem wellFormed_writeVector3 (v : Vector3) (hlen : (writeVector3 v).length < 2 ^ 64) :
    builtinSchema.WellFormed .vector3 (writeVector3 v) :=
  wellFormed_of_writes (nomatch ·) hlen <|
    .append (.append
    (writes_double 1 rfl _)
    (writes_double 2 rfl _))
    (writes_double 3 rfl _)

theorem wellFormed_writePoint3 (p : Point3) (hlen : (writePoint3 p).length < 2 ^ 64) :
    builtinSchema.WellFormed .point3 (writePoint3 p) :=
  wellFormed_of_writes (nomatch ·) hlen <|
    .append (.append
    (writes_double 1 rfl _)
    (writes_double 2 rfl _))
    (writes_double 3 rfl _)

theorem wellFormed_writeQuaternion (q : Quaternion) (hlen : (writeQuaternion q).length < 2 ^ 64) :
    builtinSchema.WellFormed .quaternion (writeQuaternion q) :=
  wellFormed_of_writes (nomatch ·) hlen <|
    .append (.append (.append
    (writes_double 1 rfl _)
    (writes_double 2 rfl _))
    (writes_double 3 rfl _))
    (writes_double 4 rfl _)

theorem wellFormed_writePose (p : Pose) (hlen : (writePose p).length < 2 ^ 64) :
    builtinSchema.WellFormed .pose (writePose p) :=
  wellFormed_of_writes (nomatch ·) hlen <|
    .append
    (writes_message 1 rfl (wellFormed_writeVector3 _))
    (writes_message 2 rfl (wellFormed_writeQuaternion _))

theorem wellFormed_writeColor (A : FloatArith) (c : ColorRGBA)
    (hlen : (writeColor A c).length < 2 ^ 64) :
    builtinSchema.WellFormed .color (writeColor A c) :=
  wellFormed_of_writes (nomatch ·) hlen <|
    .append (.append (.append
    (writes_double 1 rfl _)
    (writes_double 2 rfl _))
    (writes_double 3 rfl _))
    (writes_double 4 rfl _)

theorem wellFormed_writePointField (f : PointField) (hlen : (writePointField f).length < 2 ^ 64) :
    builtinSchema.WellFormed .pointField (writePointField f) :=
  wellFormed_of_writes (nomatch ·) hlen <|
    .append (.append (.append
    (writes_bytes 1 rfl _)
    (writes_uint32 2 rfl _))
    (writes_varint 3 rfl (datatypeToWire_lt _)))
    (writes_uint32 4 rfl _)

theorem wellFormed_writeFrameTransform {t : FrameTransform} (ht : TimestampOk t.timestamp)
    (hlen : (writeFrameTransform t).length < 2 ^ 64) :
    builtinSchema.WellFormed .frameTransform (writeFrameTransform t) :=
  wellFormed_of_writes (nomatch ·) hlen <|
    .append (.append (.append (.append
    (writes_message 1 rfl (wellFormed_writeTimestamp ht))
    (writes_bytes 2 rfl _))
    (writes_bytes 3 rfl _))
    (writes_message 4 rfl (wellFormed_writeVector3 _)))
    (writes_message 5 rfl (wellFormed_writeQuaternion _))

theorem wellFormed_writeAxesPrimitive (p : AxesPrimitive)
    (hlen : (writeAxesPrimitive p).length < 2 ^ 64) :
    builtinSchema.WellFormed .axesPrimitive (writeAxesPrimitive p) :=
  wellFormed_of_writes (nomatch ·) hlen <|
    .append (.append (.append
    (writes_message 1 rfl (wellFormed_writePose _))
    (writes_double 2 rfl _))
    (writes_double 3 rfl _))
    (writes_bool 4 rfl _)

theorem wellFormed_writeSceneEntityDeletion {d : SceneEntityDeletion} (ht : TimestampOk d.timestamp)
    (hlen : (writeSceneEntityDeletion d).length < 2 ^ 64) :
    builtinSchema.WellFormed .sceneEntityDeletion (writeSceneEntityDeletion d) :=
  wellFormed_of_writes (nomatch ·) hlen <|
    .append (.append
    (writes_message 1 rfl (wellFormed_writeTimestamp ht))
    (writes_varint 2 rfl d.type.toWire_lt))
    (writes_bytes 3 rfl _)

theorem wellFormed_writeKeyValuePair (kv : KeyValuePair)
    (hlen : (writeKeyValuePair kv).length < 2 ^ 64) :
    builtinSchema.WellFormed .keyValuePair (writeKeyValuePair kv) :=
  wellFormed_of_writes (nomatch ·) hlen <|
    .append
    (writes_bytes 1 rfl _)
    (writes_bytes 2 rfl _)

theorem wellFormed_writePoint2 (p : Point2) (hlen : (writePoint2 p).length < 2 ^ 64) :
    builtinSchema.WellFormed .point2 (writePoint2 p) :=
  wellFormed_of_writes (nomatch ·) hlen <|
    .append
    (writes_double 1 rfl _)
    (writes_double 2 rfl _)

section

variable (A : FloatArith)

theorem wellFormed_writeArrowPrimitive (p : ArrowPrimitive)
    (hlen : (writeArrowPrimitive A p).length < 2 ^ 64) :
    builtinSchema.WellFormed .arrowPrimitive (writeArrowPrimitive A p) :=
  wellFormed_of_writes (nomatch ·) hlen <|
    .append (.append (.append (.append (.append
    (writes_message 1 rfl (wellFormed_writePose _))
    (writes_double 2 rfl _))
    (writes_double 3 rfl _))
    (writes_double 4 rfl _))
    (writes_double 5 rfl _))
    (writes_message 6 rfl (wellFormed_writeColor A _))

theorem wellFormed_writeCubePrimitive (p : CubePrimitive)
    (hlen : (writeCubePrimitive A p).length < 2 ^ 64) :
    builtinSchema.WellFormed .cubePrimitive (writeCubePrimitive A p) :=
  wellFormed_of_writes (nomatch ·) hlen <|
    .append (.append
    (writes_message 1 rfl (wellFormed_writePose _))
    (writes_message 2 rfl (wellFormed_writeVector3 _)))
    (writes_message 3 rfl (wellFormed_writeColor A _))

theorem wellFormed_writeSpherePrimitive (p : SpherePrimitive)
    (hlen : (writeSpherePrimitive A p).length < 2 ^ 64) :
    builtinSchema.WellFormed .spherePrimitive (writeSpherePrimitive A p) :=
  wellFormed_of_writes (nomatch ·) hlen <|
    .append (.append
    (writes_message 1 rfl (wellFormed_writePose _))
    (writes_message 2 rfl (wellFormed_writeVector3 _)))
    (writes_message 3 rfl (wellFormed_writeColor A _))

theorem wellFormed_writeCylinderPrimitive (p : CylinderPrimitive)
    (hlen : (writeCylinderPrimitive A p).length < 2 ^ 64) :
    builtinSchema.WellFormed .cylinderPrimitive (writeCylinderPrimitive A p) :=
  wellFormed_of_writes (nomatch ·) hlen <|
    .append (.append (.append (.append
    (writes_message 1 rfl (wellFormed_writePose _))
    (writes_message 2 rfl (wellFormed_writeVector3 _)))
    (writes_double 3 rfl _))
    (writes_double 4 rfl _))
    (writes_message 5 rfl (wellFormed_writeColor A _))

theorem wellFormed_writeLinePrimitive (p : LinePrimitive)
    (hlen : (writeLinePrimitive A p).length < 2 ^ 64) :
    builtinSchema.WellFormed .linePrimitive (writeLinePrimitive A p) :=
  wellFormed_of_writes (nomatch ·) hlen <|
    .append (.append (.append (.append (.append (.append (.append
    (writes_varint 1 rfl (lineTypeToWire_lt _))
    (writes_message 2 rfl (wellFormed_writePose _)))
    (writes_double 3 rfl _))
    (writes_bool 4 rfl _))
    (.flatMap fun x _ ↦ writes_message 5 rfl (wellFormed_writePoint3 x)))
    (writes_message 6 rfl (wellFormed_writeColor A _)))
    (.flatMap fun x _ ↦ writes_message 7 rfl (wellFormed_writeColor A x)))
    (writes_packedFixed32 8 rfl _)

theorem wellFormed_writeTrianglePrimitive (p : TrianglePrimitive)
    (hlen : (writeTrianglePrimitive A p).length < 2 ^ 64) :
    builtinSchema.WellFormed .trianglePrimitive (writeTrianglePrimitive A p) :=
  wellFormed_of_writes (nomatch ·) hlen <|
    .append (.append (.append (.append
    (writes_message 1 rfl (wellFormed_writePose _))
    (.flatMap fun x _ ↦ writes_message 2 rfl (wellFormed_writePoint3 x)))
    (writes_message 3 rfl (wellFormed_writeColor A _)))
    (.flatMap fun x _ ↦ writes_message 4 rfl (wellFormed_writeColor A x)))
    (writes_packedFixed32 5 rfl _)

theorem wellFormed_writeTextPrimitive (p : TextPrimitive)
    (hlen : (writeTextPrimitive A p).length < 2 ^ 64) :
    builtinSchema.WellFormed .textPrimitive (writeTextPrimitive A p) :=
  wellFormed_of_writes (nomatch ·) hlen <|
    .append (.append (.append (.append (.append
    (writes_message 1 rfl (wellFormed_writePose _))
    (writes_bool 2 rfl _))
    (writes_double 3 rfl _))
    (writes_bool 4 rfl _))
    (writes_message 5 rfl (wellFormed_writeColor A _)))
    (writes_bytes 6 rfl _)

/-- The payload of a model is left out when there is none. -/
theorem wellFormed_writeModelPrimitive (p : ModelPrimitive)
    (hlen : (writeModelPrimitive A p).length < 2 ^ 64) :
    builtinSchema.WellFormed .modelPrimitive (writeModelPrimitive A p) := by
  have hdata : builtinSchema.Writes .modelPrimitive
      (if p.data.isEmpty then [] else Writer.lengthDelimited 7 p.data) := by
    split_ifs
    · exact .nil
    · exact writes_bytes 7 rfl _
  exact wellFormed_of_writes (nomatch ·) hlen <|
    .append (.append (.append (.append (.append (.append
    (writes_message 1 rfl (wellFormed_writePose _))
    (writes_message 2 rfl (wellFormed_writeVector3 _)))
    (writes_message 3 rfl (wellFormed_writeColor A _)))
    (writes_bool 4 rfl _))
    (writes_bytes 5 rfl _))
    (writes_bytes 6 rfl _))
    hdata

theorem wellFormed_writeSceneEntity {e : SceneEntity} (ht : TimestampOk e.timestamp)
    (hl : TimestampOk e.lifetimeNs) (hlen : (writeSceneEntity A e).length < 2 ^ 64) :
    builtinSchema.WellFormed .sceneEntity (writeSceneEntity A e) :=
  wellFormed_of_writes (nomatch ·) hlen <|
    .append (.append (.append (.append (.append (.append (.append (.append (.append (.append
    (.append (.append (.append (.append
    (writes_message 1 rfl (wellFormed_writeTimestamp ht))
    (writes_bytes 2 rfl _))
    (writes_bytes 3 rfl _))
    (writes_message 4 rfl (wellFormed_writeTimestamp hl)))
    (writes_bool 5 rfl _))
    (.flatMap fun x _ ↦ writes_message 6 rfl (wellFormed_writeKeyValuePair x)))
    (.flatMap fun x _ ↦ writes_message 7 rfl (wellFormed_writeArrowPrimitive A x)))
    (.flatMap fun x _ ↦ writes_message 8 rfl (wellFormed_writeCubePrimitive A x)))
    (.flatMap fun x _ ↦ writes_message 9 rfl (wellFormed_writeSpherePrimitive A x)))
    (.flatMap fun x _ ↦ writes_message 10 rfl (wellFormed_writeCylinderPrimitive A x)))
    (.flatMap fun x _ ↦ writes_message 11 rfl (wellFormed_writeLinePrimitive A x)))
    (.flatMap fun x _ ↦ writes_message 12 rfl (wellFormed_writeTrianglePrimitive A x)))
    (.flatMap fun x _ ↦ writes_message 13 rfl (wellFormed_writeTextPrimitive A x)))
    (.flatMap fun x _ ↦ writes_message 14 rfl (wellFormed_writeModelPrimitive A x)))
    (.flatMap fun x _ ↦ writes_message 15 rfl (wellFormed_writeAxesPrimitive x))

theorem wellFormed_writeAnnotationPoints (p : PointsAnnotation)
    (hlen : (writeAnnotationPoints A p).length < 2 ^ 64) :
    builtinSchema.WellFormed .annotationPoints (writeAnnotationPoints A p) :=
  wellFormed_of_writes (nomatch ·) hlen <|
    .append (.append (.append (.append (.append
    (writes_varint 2 rfl (topologyToEnum_lt _))
    (.flatMap fun x _ ↦ writes_message 3 rfl (wellFormed_writePoint2 x)))
    (writes_message 4 rfl (wellFormed_writeColor A _)))
    (.flatMap fun x _ ↦ writes_message 5 rfl (wellFormed_writeColor A x)))
    (writes_message 6 rfl (wellFormed_writeColor A _)))
    (writes_double 7 rfl _)

theorem wellFormed_writeAnnotationCircle (c : CircleAnnotation)
    (hlen : (writeAnnotationCircle A c).length < 2 ^ 64) :
    builtinSchema.WellFormed .annotationCircle (writeAnnotationCircle A c) :=
  wellFormed_of_writes (nomatch ·) hlen <|
    .append (.append (.append (.append
    (writes_message 2 rfl (wellFormed_writePoint2 _))
    (writes_double 3 rfl _))
    (writes_double 4 rfl _))
    (writes_message 5 rfl (wellFormed_writeColor A _)))
    (writes_message 6 rfl (wellFormed_writeColor A _))

theorem wellFormed_writeAnnotationText (t : TextAnnotation)
    (hlen : (writeAnnotationText A t).length < 2 ^ 64) :
    builtinSchema.WellFormed .annotationText (writeAnnotationText A t) :=
  wellFormed_of_writes (nomatch ·) hlen <|
    .append (.append (.append
    (writes_message 2 rfl (wellFormed_writePoint2 _))
    (writes_bytes 3 rfl _))
    (writes_double 4 rfl _))
    (writes_message 5 rfl (wellFormed_writeColor A _))

end

end PlotJuggler
