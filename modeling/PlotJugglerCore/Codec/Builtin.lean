import PlotJugglerCore.Codec.Annotations
import PlotJugglerCore.Codec.Scene

/-!
# The family of builtin codecs

The fourteen pairs of `serialize…` and `deserialize…` as one family indexed by the object, and the
two statements about it: what is written is read back, and what is read was written in full. The
second holds as long as no `parseFields` loop resumes in the middle of a field; a buffer on which
one does is at the end.
-/

namespace PlotJuggler

/-- The builtin objects with a codec. -/
inductive Builtin
  | log
  | image
  | depthImage
  | pointCloud
  | compressedPointCloud
  | videoFrame
  | assetVideo
  | cameraInfo
  | occupancyGrid
  | occupancyGridUpdate
  | mesh3D
  | frameTransforms
  | sceneEntities
  | imageAnnotations
  deriving DecidableEq, Repr

namespace Builtin

abbrev Value : Builtin → Type
  | log => Log
  | image => Image
  | depthImage => DepthImage
  | pointCloud => PointCloud
  | compressedPointCloud => CompressedPointCloud
  | videoFrame => VideoFrame
  | assetVideo => AssetVideo
  | cameraInfo => CameraInfo
  | occupancyGrid => OccupancyGrid
  | occupancyGridUpdate => OccupancyGridUpdate
  | mesh3D => Mesh3D
  | frameTransforms => FrameTransforms
  | sceneEntities => SceneEntities
  | imageAnnotations => ImageAnnotations

section

variable (A : FloatArith)

def serialize : (k : Builtin) → k.Value → List UInt8
  | log => serializeLog
  | image => serializeImage
  | depthImage => serializeDepthImage
  | pointCloud => serializePointCloud
  | compressedPointCloud => serializeCompressedPointCloud
  | videoFrame => serializeVideoFrame
  | assetVideo => serializeAssetVideo
  | cameraInfo => serializeCameraInfo
  | occupancyGrid => serializeOccupancyGrid
  | occupancyGridUpdate => serializeOccupancyGridUpdate
  | mesh3D => serializeMesh3D A
  | frameTransforms => serializeFrameTransforms
  | sceneEntities => serializeSceneEntities A
  | imageAnnotations => serializeImageAnnotations A

def deserialize : (k : Builtin) → List UInt8 → Except String k.Value
  | log => deserializeLog
  | image => deserializeImage
  | depthImage => deserializeDepthImage
  | pointCloud => deserializePointCloud
  | compressedPointCloud => deserializeCompressedPointCloud
  | videoFrame => deserializeVideoFrame
  | assetVideo => deserializeAssetVideo
  | cameraInfo => deserializeCameraInfo
  | occupancyGrid => deserializeOccupancyGrid
  | occupancyGridUpdate => deserializeOccupancyGridUpdate
  | mesh3D => deserializeMesh3D A
  | frameTransforms => deserializeFrameTransforms
  | sceneEntities => deserializeSceneEntities A
  | imageAnnotations => deserializeImageAnnotations A

/-! ## Reading back what was written -/

/-- Every instant and duration of the value that travels in two parts can be put together again. -/
def TimestampsOk : (k : Builtin) → k.Value → Prop
  | log => fun x ↦ TimestampOk x.timestampNs
  | image => fun x ↦ TimestampOk x.timestampNs
  | depthImage => fun x ↦ TimestampOk x.timestampNs
  | pointCloud => fun x ↦ TimestampOk x.timestampNs
  | compressedPointCloud => fun x ↦ TimestampOk x.timestampNs
  | videoFrame => fun x ↦ TimestampOk x.timestampNs
  | assetVideo => fun x ↦ ∀ t ∈ x.timeOriginNs, TimestampOk t
  | cameraInfo => fun x ↦ TimestampOk x.timestampNs
  | occupancyGrid => fun x ↦ TimestampOk x.timestampNs
  | occupancyGridUpdate => fun x ↦ TimestampOk x.timestampNs
  | mesh3D => fun x ↦ TimestampOk x.timestampNs
  | frameTransforms => fun x ↦ ∀ t ∈ x.transforms, TimestampOk t.timestamp
  | sceneEntities => fun x ↦ (∀ d ∈ x.deletions, TimestampOk d.timestamp) ∧
      ∀ e ∈ x.entities, TimestampOk e.timestamp ∧ TimestampOk e.lifetimeNs
  | imageAnnotations => fun _ ↦ True

/-- Doubling and halving the radii of the value's circles gives them back. -/
def RadiiExact : (k : Builtin) → k.Value → Prop
  | imageAnnotations => fun x ↦ ∀ c ∈ x.circles, A.half (A.twice c.radius) = c.radius
  | _ => fun _ ↦ True

/-- The part of the value that the wire format carries: all of it, but for image annotations. -/
def carried : (k : Builtin) → k.Value → k.Value
  | imageAnnotations => fun x ↦ x.carried
  | log | image | depthImage | pointCloud | compressedPointCloud | videoFrame | assetVideo
  | cameraInfo | occupancyGrid | occupancyGridUpdate | mesh3D | frameTransforms
  | sceneEntities => id

end

/-- There is nothing to write: the containers without elements. -/
def IsEmpty : (k : Builtin) → k.Value → Prop
  | frameTransforms => fun x ↦ x.transforms = []
  | sceneEntities => fun x ↦ x.deletions = [] ∧ x.entities = []
  | imageAnnotations => fun x ↦ x.circles = [] ∧ x.points = [] ∧ x.texts = []
  | log | image | depthImage | pointCloud | compressedPointCloud | videoFrame | assetVideo
  | cameraInfo | occupancyGrid | occupancyGridUpdate | mesh3D => fun _ ↦ False

theorem flatMap_message_eq_nil {α : Type} {field : ℕ} {write : α → List UInt8} {l : List α} :
    (l.flatMap fun a ↦ Writer.message field (write a)) = [] ↔ l = [] := by
  rw [List.flatMap_eq_nil_iff, List.eq_nil_iff_forall_not_mem]
  exact forall₂_congr fun a _ ↦ iff_false_intro (Writer.lengthDelimited_ne_nil field _)

/-- Every codec but those of the containers writes some field always. -/
theorem serialize_eq_nil_iff (A : FloatArith) {k : Builtin} {x : k.Value} :
    k.serialize A x = [] ↔ k.IsEmpty x := by
  cases k with
  | frameTransforms => exact flatMap_message_eq_nil
  | sceneEntities =>
    rw [serialize, serializeSceneEntities, List.append_eq_nil_iff, flatMap_message_eq_nil,
      flatMap_message_eq_nil, IsEmpty]
  | imageAnnotations =>
    rw [serialize, serializeImageAnnotations, List.append_eq_nil_iff, List.append_eq_nil_iff,
      flatMap_message_eq_nil, flatMap_message_eq_nil, flatMap_message_eq_nil, IsEmpty, and_assoc]
  | log => simp [serialize, serializeLog, Writer.message, IsEmpty]
  | image => simp [serialize, serializeImage, Writer.message, IsEmpty]
  | depthImage => simp [serialize, serializeDepthImage, Writer.message, IsEmpty]
  | pointCloud => simp [serialize, serializePointCloud, Writer.message, IsEmpty]
  | compressedPointCloud => simp [serialize, serializeCompressedPointCloud, Writer.message, IsEmpty]
  | videoFrame => simp [serialize, serializeVideoFrame, Writer.message, IsEmpty]
  | assetVideo => simp [serialize, serializeAssetVideo, Writer.string, IsEmpty]
  | cameraInfo => simp [serialize, serializeCameraInfo, Writer.message, IsEmpty]
  | occupancyGrid => simp [serialize, serializeOccupancyGrid, Writer.message, IsEmpty]
  | occupancyGridUpdate => simp [serialize, serializeOccupancyGridUpdate, Writer.message, IsEmpty]
  | mesh3D => simp [serialize, serializeMesh3D, Writer.message, IsEmpty]

/-- Every codec reads back what it wrote. -/
theorem deserialize_serialize (A : FloatArith) (hA : A.ColorsExact) (k : Builtin) (x : k.Value)
    (ht : k.TimestampsOk x) (hr : k.RadiiExact A x) (hne : k.serialize A x ≠ [])
    (hlen : (k.serialize A x).length < 2 ^ 64) :
    k.deserialize A (k.serialize A x) = .ok (k.carried x) := by
  cases k with
  | log => exact deserializeLog_serializeLog ht hne hlen
  | image => exact deserializeImage_serializeImage ht hne hlen
  | depthImage => exact deserializeDepthImage_serializeDepthImage ht hne hlen
  | pointCloud => exact deserializePointCloud_serializePointCloud ht hne hlen
  | compressedPointCloud =>
    exact deserializeCompressedPointCloud_serializeCompressedPointCloud ht hne hlen
  | videoFrame => exact deserializeVideoFrame_serializeVideoFrame ht hne hlen
  | assetVideo => exact deserializeAssetVideo_serializeAssetVideo ht hne hlen
  | cameraInfo => exact deserializeCameraInfo_serializeCameraInfo ht hne hlen
  | occupancyGrid => exact deserializeOccupancyGrid_serializeOccupancyGrid ht hne hlen
  | occupancyGridUpdate =>
    exact deserializeOccupancyGridUpdate_serializeOccupancyGridUpdate ht hne hlen
  | mesh3D => exact deserializeMesh3D_serializeMesh3D hA ht hne hlen
  | frameTransforms => exact deserializeFrameTransforms_serializeFrameTransforms ht hne hlen
  | sceneEntities => exact deserializeSceneEntities_serializeSceneEntities hA ht.1 ht.2 hne hlen
  | imageAnnotations =>
    exact deserializeImageAnnotations_serializeImageAnnotations hA hr hne hlen

end Builtin

/-! ## The arithmetic of doubles -/

/-- `std::clamp(value, 0.0, 1.0)`: a NaN stays what it is. -/
def clampToUnit (value : Binary64) : Binary64 :=
  if Binary64.lt value .zero then .zero else if Binary64.lt .one value then .one else value

/-- The conversions as the codecs compute them, each operation rounded on its own. The cast of a NaN
to a byte is undefined in the source; here it gives what lies in the low bits. -/
def FloatArith.binary64 : FloatArith where
  byteToUnit b := .div (.ofNat b.toNat) (.ofNat 255)
  normalizedToByte v :=
    .ofNat (Binary64.add (.mul (clampToUnit v) (.ofNat 255)) (.div .one .two)).truncate.toNat
  twice v := v.mul .two
  half v := v.mul (.div .one .two)

theorem FloatArith.binary64_colorsExact : FloatArith.binary64.ColorsExact := by
  have h : ∀ n : Fin 256, FloatArith.binary64.normalizedToByte
      (FloatArith.binary64.byteToUnit ⟨⟨n⟩⟩) = ⟨⟨n⟩⟩ := by decide +kernel
  exact fun b ↦ h b.toFin

/-- A part of a map. -/
def gridPart : OccupancyGridUpdate :=
  { timestampNs := -1, frameId := [0x6D], x := -2, y := 300, data := [0, 100] }

/-- A depth image with two coefficients. -/
def depthPart : DepthImage := { timestampNs := 1500000000, D := [Binary64.one, Binary64.two] }

/-- A circle, a part of a map before the epoch and a depth image, there and back. -/
theorem Builtin.deserialize_serialize_circleGridDepth :
    deserializeImageAnnotations .binary64
        (serializeImageAnnotations .binary64 { circles := [{}] }) = .ok { circles := [{}] } ∧
      deserializeOccupancyGridUpdate (serializeOccupancyGridUpdate gridPart) = .ok gridPart ∧
      deserializeDepthImage (serializeDepthImage depthPart) = .ok depthPart := by
  have htime : TimestampOk (-1) ∧ TimestampOk 1500000000 := by decide +kernel
  refine ⟨?_, ?_, ?_⟩
  · refine Builtin.deserialize_serialize .binary64 FloatArith.binary64_colorsExact .imageAnnotations
      { circles := [{}] } trivial ?_ ?_ (by decide +kernel)
    · intro c hc
      obtain rfl : c = {} := List.mem_singleton.mp hc
      rfl
    · exact (serialize_eq_nil_iff .binary64).not.mpr (by simp [IsEmpty])
  · exact Builtin.deserialize_serialize .binary64 FloatArith.binary64_colorsExact .occupancyGridUpdate
      gridPart htime.1 trivial ((serialize_eq_nil_iff .binary64).not.mpr not_false) (by decide +kernel)
  · exact Builtin.deserialize_serialize .binary64 FloatArith.binary64_colorsExact .depthImage
      depthPart htime.2 trivial ((serialize_eq_nil_iff .binary64).not.mpr not_false)
      (by decide +kernel)

/-! ## Accepting only what is complete -/

namespace Builtin

variable (A : FloatArith)

/-- Some `parseFields` loop of the decoder, at whatever nesting level, skips with success after a
handler that had moved the cursor and failed. -/
def resumes : (k : Builtin) → List UInt8 → Bool
  | log => fun data ↦ (MessageDecoder.ofFields logFields).resumes data {}
  | image => fun data ↦ (MessageDecoder.ofFields imageFields).resumes data {}
  | depthImage => fun data ↦ (MessageDecoder.ofFields depthImageFields).resumes data {}
  | pointCloud => fun data ↦ (MessageDecoder.ofFields pointCloudFields).resumes data {}
  | compressedPointCloud => fun data ↦ (MessageDecoder.ofFields compressedPointCloudFields).resumes data {}
  | videoFrame => fun data ↦ (MessageDecoder.ofFields videoFrameFields).resumes data {}
  | assetVideo => fun data ↦ (MessageDecoder.ofFields assetVideoFields).resumes data {}
  | cameraInfo => fun data ↦ (MessageDecoder.ofFields cameraInfoFields).resumes data {}
  | occupancyGrid => fun data ↦ (MessageDecoder.ofFields occupancyGridFields).resumes data {}
  | occupancyGridUpdate => fun data ↦ (MessageDecoder.ofFields occupancyGridUpdateFields).resumes data {}
  | mesh3D => fun data ↦ (MessageDecoder.ofFields (mesh3DFields A)).resumes data {}
  | frameTransforms => fun data ↦
    (FieldBody.ofElements "FrameTransforms" frameTransformsElements).messageResumes data {}
  | sceneEntities => fun data ↦
    (FieldBody.ofElements "SceneEntities" (sceneEntitiesElements A)).messageResumes data {}
  | imageAnnotations => fun data ↦
    (FieldBody.ofElements "ImageAnnotations" (imageAnnotationsElements A)).messageResumes data {}

/-- The fold of the known fields of a buffer that splits completely, nested messages included, over
the default value. -/
def meaning : (k : Builtin) → List UInt8 → Option k.Value
  | log => fun data ↦ (MessageDecoder.ofFields logFields).meaning data {}
  | image => fun data ↦ (MessageDecoder.ofFields imageFields).meaning data {}
  | depthImage => fun data ↦ (MessageDecoder.ofFields depthImageFields).meaning data {}
  | pointCloud => fun data ↦ (MessageDecoder.ofFields pointCloudFields).meaning data {}
  | compressedPointCloud => fun data ↦ (MessageDecoder.ofFields compressedPointCloudFields).meaning data {}
  | videoFrame => fun data ↦ (MessageDecoder.ofFields videoFrameFields).meaning data {}
  | assetVideo => fun data ↦ (MessageDecoder.ofFields assetVideoFields).meaning data {}
  | cameraInfo => fun data ↦ (MessageDecoder.ofFields cameraInfoFields).meaning data {}
  | occupancyGrid => fun data ↦ (MessageDecoder.ofFields occupancyGridFields).meaning data {}
  | occupancyGridUpdate => fun data ↦ (MessageDecoder.ofFields occupancyGridUpdateFields).meaning data {}
  | mesh3D => fun data ↦ (MessageDecoder.ofFields (mesh3DFields A)).meaning data {}
  | frameTransforms => fun data ↦
    (FieldBody.ofElements "FrameTransforms" frameTransformsElements).messageMeaning data {}
  | sceneEntities => fun data ↦
    (FieldBody.ofElements "SceneEntities" (sceneEntitiesElements A)).messageMeaning data {}
  | imageAnnotations => fun data ↦
    (FieldBody.ofElements "ImageAnnotations" (imageAnnotationsElements A)).messageMeaning data {}

theorem meaning_of_deserialize {k : Builtin} {data : List UInt8} {x : k.Value}
    (hres : k.resumes A data = false) (hok : k.deserialize A data = .ok x) :
    k.meaning A data = some x := by
  cases k with
  | log => exact deserializeMessage_sound hok hres
  | image => exact deserializeMessage_sound hok hres
  | depthImage => exact deserializeMessage_sound hok hres
  | pointCloud => exact deserializeMessage_sound hok hres
  | compressedPointCloud => exact deserializeMessage_sound hok hres
  | videoFrame => exact deserializeMessage_sound hok hres
  | assetVideo => exact deserializeMessage_sound hok hres
  | cameraInfo => exact deserializeMessage_sound hok hres
  | occupancyGrid => exact deserializeMessage_sound hok hres
  | occupancyGridUpdate => exact deserializeMessage_sound hok hres
  | mesh3D => exact deserializeMessage_sound hok hres
  | frameTransforms => exact deserializeContainer_sound hok hres
  | sceneEntities => exact deserializeContainer_sound hok hres
  | imageAnnotations => exact deserializeContainer_sound hok hres

/-- As long as no loop resumes, an accepted buffer is complete and folds to the accepted value, and
an incomplete one is rejected. -/
theorem deserialize_complete (k : Builtin) (data : List UInt8) (hres : k.resumes A data = false) :
    (∀ x, k.deserialize A data = .ok x → k.meaning A data = some x) ∧
      (k.meaning A data = none → ∃ e, k.deserialize A data = .error e) := by
  refine ⟨fun x hok ↦ meaning_of_deserialize A hres hok, fun hnone ↦ ?_⟩
  cases hdes : k.deserialize A data with
  | error e => exact ⟨e, rfl⟩
  | ok x =>
    rw [meaning_of_deserialize A hres hdes] at hnone
    exact absurd hnone (by simp)

/-- A log of one field, the text `A`, and one whose text announces five bytes and has one. -/
theorem deserialize_complete_log :
    (Builtin.log.deserialize .binary64 [0x1a, 1, 0x41] = .ok { message := [0x41] } ∧
      Builtin.log.meaning .binary64 [0x1a, 1, 0x41] = some { message := [0x41] }) ∧
    Builtin.log.meaning .binary64 [0x1a, 5, 0x41] = none ∧
      ∃ e, Builtin.log.deserialize .binary64 [0x1a, 5, 0x41] = .error e :=
  ⟨⟨rfl, (deserialize_complete .binary64 .log [0x1a, 1, 0x41] rfl).1 _ rfl⟩, rfl,
    (deserialize_complete .binary64 .log [0x1a, 5, 0x41] rfl).2 rfl⟩

/-- A log whose text announces five bytes and has two. The failed read leaves the cursor behind the
length, `skip` takes the next byte for a length of one, and the buffer is accepted. -/
theorem deserialize_not_complete :
    ¬ ∀ (A : FloatArith) (k : Builtin) (data : List UInt8) (x : k.Value),
      k.deserialize A data = .ok x → k.meaning A data = some x := by
  intro h
  have hbad := h .binary64 .log [0x1a, 5, 1, 0x41] {} rfl
  have hnone : Builtin.log.meaning .binary64 [0x1a, 5, 1, 0x41] = none := rfl
  rw [hnone] at hbad
  exact absurd hbad (by simp)

end Builtin

end PlotJuggler
