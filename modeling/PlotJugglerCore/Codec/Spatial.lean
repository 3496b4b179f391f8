import PlotJugglerCore.Codec.Objects

/-!
# Calibration, grids, meshes and frame transforms

The builtin objects with spatial content. They nest poses, vectors and colours; frame transforms
are the first container, a batch whose elements are decoded by a loop of its own.
-/

namespace PlotJuggler

/-! ## CameraInfo -/

structure CameraInfo where
  timestampNs : Int64 := 0
  frameId : List UInt8 := []
  width : UInt32 := 0
  height : UInt32 := 0
  distortionModel : List UInt8 := []
  D : List Binary64 := []
  K : Vector Binary64 9 := Vector.replicate 9 Binary64.zero
  R : Vector Binary64 9 := Vector.replicate 9 Binary64.zero
  P : Vector Binary64 12 := Vector.replicate 12 Binary64.zero
  deriving DecidableEq, Repr

def serializeCameraInfo (info : CameraInfo) : List UInt8 :=
  Writer.message 1 (writeTimestamp info.timestampNs) ++
  Writer.string 2 info.frameId ++
  Writer.varint 3 info.width.toNat ++
  Writer.varint 4 info.height.toNat ++
  Writer.string 5 info.distortionModel ++
  Writer.packedDouble 6 info.D ++
  Writer.packedDouble 7 info.K.toList ++
  Writer.packedDouble 8 info.R.toList ++
  Writer.packedDouble 9 info.P.toList

def cameraInfoFields : List (ℕ × FieldReader CameraInfo) :=
  [(1, .message decodeTimestamp (·.timestampNs) fun info v ↦ { info with timestampNs := v }),
   (2, .bytes fun info v ↦ { info with frameId := v }),
   (3, .uint32 fun info v ↦ { info with width := v }),
   (4, .uint32 fun info v ↦ { info with height := v }),
   (5, .bytes fun info v ↦ { info with distortionModel := v }),
   (6, .packedDouble (·.D) fun info v ↦ { info with D := v }),
   (7, .packedDoubleArray 9 fun info v ↦ { info with K := v }),
   (8, .packedDoubleArray 9 fun info v ↦ { info with R := v }),
   (9, .packedDoubleArray 12 fun info v ↦ { info with P := v })]

def deserializeCameraInfo (data : List UInt8) : Except String CameraInfo :=
  deserializeMessage "CameraInfo" (.ofFields cameraInfoFields) {} data

theorem deserializeCameraInfo_serializeCameraInfo {info : CameraInfo}
    (ht : TimestampOk info.timestampNs) (hne : serializeCameraInfo info ≠ [])
    (hlen : (serializeCameraInfo info).length < 2 ^ 64) :
    deserializeCameraInfo (serializeCameraInfo info) = .ok info := by
  have hb := FieldBody.uses_ofFields cameraInfoFields
  refine deserializeMessage_eq hne (decode_ofFields ?_ hlen)
  exact .append (.append (.append (.append (.append (.append (.append (.append
    (parses_message hb 1 rfl (decodeTimestamp_writeTimestamp ht _))
    (parses_bytes hb 2 rfl _))
    (parses_uint32 hb 3 rfl _))
    (parses_uint32 hb 4 rfl _))
    (parses_bytes hb 5 rfl _))
    (parses_packedDouble hb 6 rfl rfl _))
    (parses_packedDoubleArray hb 7 (by decide) rfl _))
    (parses_packedDoubleArray hb 8 (by decide) rfl _))
    (parses_packedDoubleArray hb 9 (by decide) rfl _)

/-! ## OccupancyGrid and OccupancyGridUpdate -/

structure OccupancyGrid where
  timestampNs : Int64 := 0
  frameId : List UInt8 := []
  origin : Pose := {}
  resolution : Binary64 := Binary64.zero
  width : UInt32 := 0
  height : UInt32 := 0
  data : List UInt8 := []
  deriving DecidableEq, Repr

def serializeOccupancyGrid (grid : OccupancyGrid) : List UInt8 :=
  Writer.message 1 (writeTimestamp grid.timestampNs) ++
  Writer.string 2 grid.frameId ++
  Writer.message 3 (writePose grid.origin) ++
  Writer.doubleField 4 grid.resolution ++
  Writer.varint 5 grid.width.toNat ++
  Writer.varint 6 grid.height.toNat ++
  Writer.lengthDelimited 7 grid.data

def occupancyGridFields : List (ℕ × FieldReader OccupancyGrid) :=
  [(1, .message decodeTimestamp (·.timestampNs) fun grid v ↦ { grid with timestampNs := v }),
   (2, .bytes fun grid v ↦ { grid with frameId := v }),
   (3, .message decodePose (·.origin) fun grid v ↦ { grid with origin := v }),
   (4, .double fun grid v ↦ { grid with resolution := v }),
   (5, .uint32 fun grid v ↦ { grid with width := v }),
   (6, .uint32 fun grid v ↦ { grid with height := v }),
   (7, .bytes fun grid v ↦ { grid with data := v })]

def deserializeOccupancyGrid (data : List UInt8) : Except String OccupancyGrid :=
  deserializeMessage "OccupancyGrid" (.ofFields occupancyGridFields) {} data

theorem deserializeOccupancyGrid_serializeOccupancyGrid {grid : OccupancyGrid}
    (ht : TimestampOk grid.timestampNs) (hne : serializeOccupancyGrid grid ≠ [])
    (hlen : (serializeOccupancyGrid grid).length < 2 ^ 64) :
    deserializeOccupancyGrid (serializeOccupancyGrid grid) = .ok grid := by
  have hb := FieldBody.uses_ofFields occupancyGridFields
  refine deserializeMessage_eq hne (decode_ofFields ?_ hlen)
  exact .append (.append (.append (.append (.append (.append
    (parses_message hb 1 rfl (decodeTimestamp_writeTimestamp ht _))
    (parses_bytes hb 2 rfl _))
    (parses_message hb 3 rfl (decodePose_writePose _ _)))
    (parses_double hb 4 rfl _))
    (parses_uint32 hb 5 rfl _))
    (parses_uint32 hb 6 rfl _))
    (parses_bytes hb 7 rfl _)

structure OccupancyGridUpdate where
  timestampNs : Int64 := 0
  frameId : List UInt8 := []
  x : Int32 := 0
  y : Int32 := 0
  width : UInt32 := 0
  height : UInt32 := 0
  data : List UInt8 := []
  deriving DecidableEq, Repr

def serializeOccupancyGridUpdate (update : OccupancyGridUpdate) : List UInt8 :=
  Writer.message 1 (writeTimestamp update.timestampNs) ++
  Writer.string 2 update.frameId ++
  Writer.varint 3 update.x.toUInt32.toNat ++
  Writer.varint 4 update.y.toUInt32.toNat ++
  Writer.varint 5 update.width.toNat ++
  Writer.varint 6 update.height.toNat ++
  Writer.lengthDelimited 7 update.data

def occupancyGridUpdateFields : List (ℕ × FieldReader OccupancyGridUpdate) :=
  [(1, .message decodeTimestamp (·.timestampNs) fun update v ↦ { update with timestampNs := v }),
   (2, .bytes fun update v ↦ { update with frameId := v }),
   (3, .int32 fun update v ↦ { update with x := v }),
   (4, .int32 fun update v ↦ { update with y := v }),
   (5, .uint32 fun update v ↦ { update with width := v }),
   (6, .uint32 fun update v ↦ { update with height := v }),
   (7, .bytes fun update v ↦ { update with data := v })]

def deserializeOccupancyGridUpdate (data : List UInt8) : Except String OccupancyGridUpdate :=
  deserializeMessage "OccupancyGridUpdate" (.ofFields occupancyGridUpdateFields) {} data

theorem deserializeOccupancyGridUpdate_serializeOccupancyGridUpdate {update : OccupancyGridUpdate}
    (ht : TimestampOk update.timestampNs) (hne : serializeOccupancyGridUpdate update ≠ [])
    (hlen : (serializeOccupancyGridUpdate update).length < 2 ^ 64) :
    deserializeOccupancyGridUpdate (serializeOccupancyGridUpdate update) = .ok update := by
  have hb := FieldBody.uses_ofFields occupancyGridUpdateFields
  refine deserializeMessage_eq hne (decode_ofFields ?_ hlen)
  exact .append (.append (.append (.append (.append (.append
    (parses_message hb 1 rfl (decodeTimestamp_writeTimestamp ht _))
    (parses_bytes hb 2 rfl _))
    (parses_int32 hb 3 rfl _))
    (parses_int32 hb 4 rfl _))
    (parses_uint32 hb 5 rfl _))
    (parses_uint32 hb 6 rfl _))
    (parses_bytes hb 7 rfl _)

/-! ## Mesh3D -/

structure Mesh3D where
  timestampNs : Int64 := 0
  frameId : List UInt8 := []
  id : List UInt8 := []
  pose : Pose := {}
  scale : Vector3 := ⟨Binary64.one, Binary64.one, Binary64.one⟩
  format : List UInt8 := []
  data : List UInt8 := []
  url : List UInt8 := []
  color : ColorRGBA := {}
  overrideColor : Bool := false
  deriving DecidableEq, Repr

def serializeMesh3D (A : FloatArith) (mesh : Mesh3D) : List UInt8 :=
  Writer.message 1 (writeTimestamp mesh.timestampNs) ++
  Writer.string 2 mesh.frameId ++
  Writer.string 3 mesh.id ++
  Writer.message 4 (writePose mesh.pose) ++
  Writer.message 5 (writeVector3 mesh.scale) ++
  Writer.string 6 mesh.format ++
  Writer.lengthDelimited 7 mesh.data ++
  Writer.string 8 mesh.url ++
  Writer.message 9 (writeColor A mesh.color) ++
  Writer.varint 10 (if mesh.overrideColor then 1 else 0)

def mesh3DFields (A : FloatArith) : List (ℕ × FieldReader Mesh3D) :=
  [(1, .message decodeTimestamp (·.timestampNs) fun mesh v ↦ { mesh with timestampNs := v }),
   (2, .bytes fun mesh v ↦ { mesh with frameId := v }),
   (3, .bytes fun mesh v ↦ { mesh with id := v }),
   (4, .message decodePose (·.pose) fun mesh v ↦ { mesh with pose := v }),
   (5, .message decodeVector3 (·.scale) fun mesh v ↦ { mesh with scale := v }),
   (6, .bytes fun mesh v ↦ { mesh with format := v }),
   (7, .bytes fun mesh v ↦ { mesh with data := v }),
   (8, .bytes fun mesh v ↦ { mesh with url := v }),
   (9, .message (decodeColor A) (·.color) fun mesh v ↦ { mesh with color := v }),
   (10, .bool fun mesh v ↦ { mesh with overrideColor := v })]

def deserializeMesh3D (A : FloatArith) (data : List UInt8) : Except String Mesh3D :=
  deserializeMessage "Mesh3D" (.ofFields (mesh3DFields A)) {} data

theorem deserializeMesh3D_serializeMesh3D {A : FloatArith} (hA : A.ColorsExact) {mesh : Mesh3D}
    (ht : TimestampOk mesh.timestampNs) (hne : serializeMesh3D A mesh ≠ [])
    (hlen : (serializeMesh3D A mesh).length < 2 ^ 64) :
    deserializeMesh3D A (serializeMesh3D A mesh) = .ok mesh := by
  have hb := FieldBody.uses_ofFields (mesh3DFields A)
  refine deserializeMessage_eq hne (decode_ofFields ?_ hlen)
  exact .append (.append (.append (.append (.append (.append (.append (.append (.append
    (parses_message hb 1 rfl (decodeTimestamp_writeTimestamp ht _))
    (parses_bytes hb 2 rfl _))
    (parses_bytes hb 3 rfl _))
    (parses_message hb 4 rfl (decodePose_writePose _ _)))
    (parses_message hb 5 rfl (decodeVector3_writeVector3 _ _)))
    (parses_bytes hb 6 rfl _))
    (parses_bytes hb 7 rfl _))
    (parses_bytes hb 8 rfl _))
    (parses_message hb 9 rfl (decodeColor_writeColor hA _ _)))
    (parses_bool hb 10 rfl _)

/-! ## FrameTransforms -/

structure FrameTransform where
  timestamp : Int64 := 0
  parentFrameId : List UInt8 := []
  childFrameId : List UInt8 := []
  translation : Vector3 := {}
  rotation : Quaternion := {}
  deriving DecidableEq, Repr

structure FrameTransforms where
  transforms : List FrameTransform := []
  deriving DecidableEq, Repr

def writeFrameTransform (transform : FrameTransform) : List UInt8 :=
  Writer.message 1 (writeTimestamp transform.timestamp) ++
  Writer.string 2 transform.parentFrameId ++
  Writer.string 3 transform.childFrameId ++
  Writer.message 4 (writeVector3 transform.translation) ++
  Writer.message 5 (writeQuaternion transform.rotation)

def frameTransformFields : List (ℕ × FieldReader FrameTransform) :=
  [(1, .message decodeTimestamp (·.timestamp) fun out v ↦ { out with timestamp := v }),
   (2, .bytes fun out v ↦ { out with parentFrameId := v }),
   (3, .bytes fun out v ↦ { out with childFrameId := v }),
   (4, .message decodeVector3 (·.translation) fun out v ↦ { out with translation := v }),
   (5, .message decodeQuaternion (·.rotation) fun out v ↦ { out with rotation := v })]

def decodeFrameTransform : MessageDecoder FrameTransform := .ofFields frameTransformFields

theorem decodeFrameTransform_writeFrameTransform {t : FrameTransform}
    (ht : TimestampOk t.timestamp) (old : FrameTransform)
    (hlen : (writeFrameTransform t).length < 2 ^ 64) :
    decodeFrameTransform.decode (writeFrameTransform t) old = .ok t := by
  have hb := FieldBody.uses_ofFields frameTransformFields
  exact decode_ofFields (.append (.append (.append (.append
    (parses_message hb 1 rfl (decodeTimestamp_writeTimestamp ht _))
    (parses_bytes hb 2 rfl _))
    (parses_bytes hb 3 rfl _))
    (parses_message hb 4 rfl (decodeVector3_writeVector3 _ _)))
    (parses_message hb 5 rfl (decodeQuaternion_writeQuaternion _ _))) hlen

def serializeFrameTransforms (transforms : FrameTransforms) : List UInt8 :=
  transforms.transforms.flatMap fun transform ↦ Writer.message 1 (writeFrameTransform transform)

def frameTransformsElements : List (ℕ × Element FrameTransforms) :=
  [(1, .push "FrameTransform" decodeFrameTransform {}
    fun out t ↦ { out with transforms := out.transforms ++ [t] })]

def deserializeFrameTransforms (data : List UInt8) : Except String FrameTransforms :=
  deserializeContainer "FrameTransforms" frameTransformsElements {} data

theorem deserializeFrameTransforms_serializeFrameTransforms {transforms : FrameTransforms}
    (ht : ∀ t ∈ transforms.transforms, TimestampOk t.timestamp)
    (hne : serializeFrameTransforms transforms ≠ [])
    (hlen : (serializeFrameTransforms transforms).length < 2 ^ 64) :
    deserializeFrameTransforms (serializeFrameTransforms transforms) = .ok transforms := by
  refine deserializeContainer_eq hne hlen ?_
  exact parses_containerElements 1 FrameTransforms.transforms
    (fun out v ↦ { out with transforms := v }) rfl (fun _ _ ↦ rfl) (fun _ _ _ ↦ rfl) rfl _
    fun t hmem ↦ decodeFrameTransform_writeFrameTransform (ht t hmem) _

end PlotJuggler
