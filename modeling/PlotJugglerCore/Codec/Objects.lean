import PlotJugglerCore.Codec.Geometry

/-!
# Logs, images, point clouds and video

For each object, the value the SDK declares with its defaults, the writer, the table of fields of
the decoder, and the statement that the decoder reads back what the writer wrote.

Payload bytes are owned lists here. The anchor that keeps a shared buffer alive has no wire
representation and no counterpart in the model.
-/

namespace PlotJuggler

/-! ## Log -/

inductive Log.Level
  | unknown
  | debug
  | info
  | warning
  | error
  | fatal
  deriving DecidableEq, Repr

structure Log where
  timestampNs : Int64 := 0
  level : Log.Level := .unknown
  message : List UInt8 := []
  name : List UInt8 := []
  deriving DecidableEq, Repr

/-- `static_cast<uint64_t>(log.level)`. -/
def Log.Level.toWire : Log.Level → ℕ
  | .unknown => 0
  | .debug => 1
  | .info => 2
  | .warning => 3
  | .error => 4
  | .fatal => 5

def levelFromWire : ℕ → Log.Level
  | 1 => .debug
  | 2 => .info
  | 3 => .warning
  | 4 => .error
  | 5 => .fatal
  | _ => .unknown

def serializeLog (log : Log) : List UInt8 :=
  Writer.message 1 (writeTimestamp log.timestampNs) ++
  Writer.varint 2 log.level.toWire ++
  Writer.string 3 log.message ++
  Writer.string 4 log.name

def logFields : List (ℕ × FieldReader Log) :=
  [(1, .message decodeTimestamp (·.timestampNs) fun log v ↦ { log with timestampNs := v }),
   (2, .enumerator levelFromWire fun log v ↦ { log with level := v }),
   (3, .bytes fun log v ↦ { log with message := v }),
   (4, .bytes fun log v ↦ { log with name := v })]

def deserializeLog (data : List UInt8) : Except String Log :=
  deserializeMessage "Log" (.ofFields logFields) {} data

theorem Log.Level.toWire_lt (l : Log.Level) : l.toWire < 2 ^ 64 := by cases l <;> decide

@[simp] theorem levelFromWire_toWire (l : Log.Level) : levelFromWire l.toWire = l := by
  cases l <;> rfl

theorem deserializeLog_serializeLog {log : Log} (ht : TimestampOk log.timestampNs)
    (hne : serializeLog log ≠ []) (hlen : (serializeLog log).length < 2 ^ 64) :
    deserializeLog (serializeLog log) = .ok log := by
  have hb := FieldBody.uses_ofFields logFields
  refine deserializeMessage_eq hne (decode_ofFields ?_ hlen)
  exact .append (.append (.append
    (parses_message hb 1 rfl (decodeTimestamp_writeTimestamp ht _))
    (parses_enumerator hb 2 rfl log.level.toWire_lt (levelFromWire_toWire _)))
    (parses_bytes hb 3 rfl _))
    (parses_bytes hb 4 rfl _)

/-! ## Image -/

structure Image where
  width : UInt32 := 0
  height : UInt32 := 0
  encoding : List UInt8 := []
  rowStep : UInt32 := 0
  isBigendian : Bool := false
  data : List UInt8 := []
  compressedDepthMin : Option Binary32 := none
  compressedDepthMax : Option Binary32 := none
  timestampNs : Int64 := 0
  deriving DecidableEq, Repr

/-- A field that is written only when the optional has a value. -/
def writeOptional {α : Type} (write : α → List UInt8) : Option α → List UInt8
  | none => []
  | some v => write v

def serializeImage (image : Image) : List UInt8 :=
  Writer.message 1 (writeTimestamp image.timestampNs) ++
  Writer.varint 2 image.width.toNat ++
  Writer.varint 3 image.height.toNat ++
  Writer.string 4 image.encoding ++
  Writer.varint 5 image.rowStep.toNat ++
  Writer.varint 6 (if image.isBigendian then 1 else 0) ++
  Writer.lengthDelimited 7 image.data ++
  writeOptional (Writer.floatField 8) image.compressedDepthMin ++
  writeOptional (Writer.floatField 9) image.compressedDepthMax

def imageFields : List (ℕ × FieldReader Image) :=
  [(1, .message decodeTimestamp (·.timestampNs) fun image v ↦ { image with timestampNs := v }),
   (2, .uint32 fun image v ↦ { image with width := v }),
   (3, .uint32 fun image v ↦ { image with height := v }),
   (4, .bytes fun image v ↦ { image with encoding := v }),
   (5, .uint32 fun image v ↦ { image with rowStep := v }),
   (6, .bool fun image v ↦ { image with isBigendian := v }),
   (7, .bytes fun image v ↦ { image with data := v }),
   (8, .float fun image v ↦ { image with compressedDepthMin := some v }),
   (9, .float fun image v ↦ { image with compressedDepthMax := some v })]

def deserializeImage (data : List UInt8) : Except String Image :=
  deserializeMessage "Image" (.ofFields imageFields) {} data

/-- An optional field against a reader that stores it. -/
theorem parses_optional {σ α : Type} {b : FieldBody σ σ} {write : α → List UInt8}
    (set : σ → Option α → σ) {s : σ} (hnone : set s none = s)
    (h : ∀ v, b.Parses (write v) s (set s (some v))) (o : Option α) :
    b.Parses (writeOptional write o) s (set s o) := by
  cases o with
  | none =>
    rw [hnone]
    exact .nil s
  | some v => exact h v

theorem deserializeImage_serializeImage {image : Image} (ht : TimestampOk image.timestampNs)
    (hne : serializeImage image ≠ []) (hlen : (serializeImage image).length < 2 ^ 64) :
    deserializeImage (serializeImage image) = .ok image := by
  have hb := FieldBody.uses_ofFields imageFields
  refine deserializeMessage_eq hne (decode_ofFields ?_ hlen)
  exact .append (.append (.append (.append (.append (.append (.append (.append
    (parses_message hb 1 rfl (decodeTimestamp_writeTimestamp ht _))
    (parses_uint32 hb 2 rfl _))
    (parses_uint32 hb 3 rfl _))
    (parses_bytes hb 4 rfl _))
    (parses_uint32 hb 5 rfl _))
    (parses_bool hb 6 rfl _))
    (parses_bytes hb 7 rfl _))
    (parses_optional (fun (image : Image) v ↦ { image with compressedDepthMin := v }) rfl
      (parses_float hb 8 rfl) _))
    (parses_optional (fun (image : Image) v ↦ { image with compressedDepthMax := v }) rfl
      (parses_float hb 9 rfl) _)

/-! ## DepthImage -/

structure DepthImage where
  width : UInt32 := 0
  height : UInt32 := 0
  encoding : List UInt8 := []
  data : List UInt8 := []
  K : Vector Binary64 9 := Vector.replicate 9 Binary64.zero
  distortionModel : List UInt8 := []
  D : List Binary64 := []
  timestampNs : Int64 := 0
  deriving DecidableEq, Repr

def serializeDepthImage (depth : DepthImage) : List UInt8 :=
  Writer.message 1 (writeTimestamp depth.timestampNs) ++
  Writer.varint 2 depth.width.toNat ++
  Writer.varint 3 depth.height.toNat ++
  Writer.string 4 depth.encoding ++
  Writer.lengthDelimited 5 depth.data ++
  Writer.packedDouble 6 depth.K.toList ++
  Writer.string 7 depth.distortionModel ++
  Writer.packedDouble 8 depth.D

def depthImageFields : List (ℕ × FieldReader DepthImage) :=
  [(1, .message decodeTimestamp (·.timestampNs) fun depth v ↦ { depth with timestampNs := v }),
   (2, .uint32 fun depth v ↦ { depth with width := v }),
   (3, .uint32 fun depth v ↦ { depth with height := v }),
   (4, .bytes fun depth v ↦ { depth with encoding := v }),
   (5, .bytes fun depth v ↦ { depth with data := v }),
   (6, .packedDoubleArray 9 fun depth v ↦ { depth with K := v }),
   (7, .bytes fun depth v ↦ { depth with distortionModel := v }),
   (8, .packedDouble (·.D) fun depth v ↦ { depth with D := v })]

def deserializeDepthImage (data : List UInt8) : Except String DepthImage :=
  deserializeMessage "DepthImage" (.ofFields depthImageFields) {} data

theorem deserializeDepthImage_serializeDepthImage {depth : DepthImage}
    (ht : TimestampOk depth.timestampNs) (hne : serializeDepthImage depth ≠ [])
    (hlen : (serializeDepthImage depth).length < 2 ^ 64) :
    deserializeDepthImage (serializeDepthImage depth) = .ok depth := by
  have hb := FieldBody.uses_ofFields depthImageFields
  refine deserializeMessage_eq hne (decode_ofFields ?_ hlen)
  exact .append (.append (.append (.append (.append (.append (.append
    (parses_message hb 1 rfl (decodeTimestamp_writeTimestamp ht _))
    (parses_uint32 hb 2 rfl _))
    (parses_uint32 hb 3 rfl _))
    (parses_bytes hb 4 rfl _))
    (parses_bytes hb 5 rfl _))
    (parses_packedDoubleArray hb 6 (by decide) rfl _))
    (parses_bytes hb 7 rfl _))
    (parses_packedDouble hb 8 rfl rfl _)

/-! ## PointCloud -/

inductive PointField.Datatype
  | unknown
  | int8
  | uint8
  | int16
  | uint16
  | int32
  | uint32
  | float32
  | float64
  deriving DecidableEq, Repr

structure PointField where
  name : List UInt8 := []
  offset : UInt32 := 0
  datatype : PointField.Datatype := .unknown
  count : UInt32 := 1
  deriving DecidableEq, Repr

def datatypeToWire : PointField.Datatype → ℕ
  | .unknown => 0
  | .int8 => 1
  | .uint8 => 2
  | .int16 => 3
  | .uint16 => 4
  | .int32 => 5
  | .uint32 => 6
  | .float32 => 7
  | .float64 => 8

def datatypeFromWire : ℕ → PointField.Datatype
  | 1 => .int8
  | 2 => .uint8
  | 3 => .int16
  | 4 => .uint16
  | 5 => .int32
  | 6 => .uint32
  | 7 => .float32
  | 8 => .float64
  | _ => .unknown

theorem datatypeToWire_lt (dt : PointField.Datatype) : datatypeToWire dt < 2 ^ 64 := by
  cases dt <;> decide

@[simp] theorem datatypeFromWire_toWire (dt : PointField.Datatype) :
    datatypeFromWire (datatypeToWire dt) = dt := by
  cases dt <;> rfl

def writePointField (field : PointField) : List UInt8 :=
  Writer.string 1 field.name ++
  Writer.varint 2 field.offset.toNat ++
  Writer.varint 3 (datatypeToWire field.datatype) ++
  Writer.varint 4 field.count.toNat

def pointFieldFields : List (ℕ × FieldReader PointField) :=
  [(1, .bytes fun out v ↦ { out with name := v }),
   (2, .uint32 fun out v ↦ { out with offset := v }),
   (3, .enumerator datatypeFromWire fun out v ↦ { out with datatype := v }),
   (4, .uint32 fun out v ↦ { out with count := v })]

def decodePointField : MessageDecoder PointField := .ofFields pointFieldFields

theorem decodePointField_writePointField (field old : PointField)
    (hlen : (writePointField field).length < 2 ^ 64) :
    decodePointField.decode (writePointField field) old = .ok field := by
  have hb := FieldBody.uses_ofFields pointFieldFields
  exact decode_ofFields (.append (.append (.append
    (parses_bytes hb 1 rfl _)
    (parses_uint32 hb 2 rfl _))
    (parses_enumerator hb 3 rfl (datatypeToWire_lt _) (datatypeFromWire_toWire _)))
    (parses_uint32 hb 4 rfl _)) hlen

structure PointCloud where
  width : UInt32 := 0
  height : UInt32 := 1
  pointStep : UInt32 := 0
  rowStep : UInt32 := 0
  isBigendian : Bool := false
  isDense : Bool := true
  frameId : List UInt8 := []
  fields : List PointField := []
  data : List UInt8 := []
  timestampNs : Int64 := 0
  deriving DecidableEq, Repr

def serializePointCloud (cloud : PointCloud) : List UInt8 :=
  Writer.message 1 (writeTimestamp cloud.timestampNs) ++
  Writer.varint 2 cloud.width.toNat ++
  Writer.varint 3 cloud.height.toNat ++
  Writer.varint 4 cloud.pointStep.toNat ++
  Writer.varint 5 cloud.rowStep.toNat ++
  Writer.varint 6 (if cloud.isBigendian then 1 else 0) ++
  Writer.varint 7 (if cloud.isDense then 1 else 0) ++
  (cloud.fields.flatMap fun field ↦ Writer.message 8 (writePointField field)) ++
  Writer.lengthDelimited 9 cloud.data ++
  Writer.string 10 cloud.frameId

def pointCloudFields : List (ℕ × FieldReader PointCloud) :=
  [(1, .message decodeTimestamp (·.timestampNs) fun cloud v ↦ { cloud with timestampNs := v }),
   (2, .uint32 fun cloud v ↦ { cloud with width := v }),
   (3, .uint32 fun cloud v ↦ { cloud with height := v }),
   (4, .uint32 fun cloud v ↦ { cloud with pointStep := v }),
   (5, .uint32 fun cloud v ↦ { cloud with rowStep := v }),
   (6, .bool fun cloud v ↦ { cloud with isBigendian := v }),
   (7, .bool fun cloud v ↦ { cloud with isDense := v }),
   (8, .element decodePointField {} fun cloud v ↦ { cloud with fields := cloud.fields ++ [v] }),
   (9, .bytes fun cloud v ↦ { cloud with data := v }),
   (10, .bytes fun cloud v ↦ { cloud with frameId := v })]

def deserializePointCloud (data : List UInt8) : Except String PointCloud :=
  deserializeMessage "PointCloud" (.ofFields pointCloudFields) {} data

theorem deserializePointCloud_serializePointCloud {cloud : PointCloud}
    (ht : TimestampOk cloud.timestampNs) (hne : serializePointCloud cloud ≠ [])
    (hlen : (serializePointCloud cloud).length < 2 ^ 64) :
    deserializePointCloud (serializePointCloud cloud) = .ok cloud := by
  have hb := FieldBody.uses_ofFields pointCloudFields
  refine deserializeMessage_eq hne (decode_ofFields ?_ hlen)
  exact .append (.append (.append (.append (.append (.append (.append (.append (.append
    (parses_message hb 1 rfl (decodeTimestamp_writeTimestamp ht _))
    (parses_uint32 hb 2 rfl _))
    (parses_uint32 hb 3 rfl _))
    (parses_uint32 hb 4 rfl _))
    (parses_uint32 hb 5 rfl _))
    (parses_bool hb 6 rfl _))
    (parses_bool hb 7 rfl _))
    (parses_elements hb 8 (·.fields) (fun cloud v ↦ { cloud with fields := v }) rfl
      (fun _ _ ↦ rfl) (fun _ _ _ ↦ rfl) rfl _ fun f _ ↦ decodePointField_writePointField f _))
    (parses_bytes hb 9 rfl _))
    (parses_bytes hb 10 rfl _)

/-! ## CompressedPointCloud and VideoFrame -/

structure CompressedPointCloud where
  timestampNs : Int64 := 0
  frameId : List UInt8 := []
  format : List UInt8 := []
  data : List UInt8 := []
  deriving DecidableEq, Repr

def serializeCompressedPointCloud (cloud : CompressedPointCloud) : List UInt8 :=
  Writer.message 1 (writeTimestamp cloud.timestampNs) ++
  Writer.string 2 cloud.frameId ++
  Writer.string 3 cloud.format ++
  Writer.lengthDelimited 4 cloud.data

def compressedPointCloudFields : List (ℕ × FieldReader CompressedPointCloud) :=
  [(1, .message decodeTimestamp (·.timestampNs) fun cloud v ↦ { cloud with timestampNs := v }),
   (2, .bytes fun cloud v ↦ { cloud with frameId := v }),
   (3, .bytes fun cloud v ↦ { cloud with format := v }),
   (4, .bytes fun cloud v ↦ { cloud with data := v })]

def deserializeCompressedPointCloud (data : List UInt8) : Except String CompressedPointCloud :=
  deserializeMessage "CompressedPointCloud" (.ofFields compressedPointCloudFields) {} data

theorem deserializeCompressedPointCloud_serializeCompressedPointCloud {cloud : CompressedPointCloud}
    (ht : TimestampOk cloud.timestampNs) (hne : serializeCompressedPointCloud cloud ≠ [])
    (hlen : (serializeCompressedPointCloud cloud).length < 2 ^ 64) :
    deserializeCompressedPointCloud (serializeCompressedPointCloud cloud) = .ok cloud := by
  have hb := FieldBody.uses_ofFields compressedPointCloudFields
  refine deserializeMessage_eq hne (decode_ofFields ?_ hlen)
  exact .append (.append (.append
    (parses_message hb 1 rfl (decodeTimestamp_writeTimestamp ht _))
    (parses_bytes hb 2 rfl _))
    (parses_bytes hb 3 rfl _))
    (parses_bytes hb 4 rfl _)

structure VideoFrame where
  timestampNs : Int64 := 0
  frameId : List UInt8 := []
  format : List UInt8 := []
  data : List UInt8 := []
  deriving DecidableEq, Repr

def serializeVideoFrame (frame : VideoFrame) : List UInt8 :=
  Writer.message 1 (writeTimestamp frame.timestampNs) ++
  Writer.string 2 frame.frameId ++
  Writer.string 3 frame.format ++
  Writer.lengthDelimited 4 frame.data

def videoFrameFields : List (ℕ × FieldReader VideoFrame) :=
  [(1, .message decodeTimestamp (·.timestampNs) fun frame v ↦ { frame with timestampNs := v }),
   (2, .bytes fun frame v ↦ { frame with frameId := v }),
   (3, .bytes fun frame v ↦ { frame with format := v }),
   (4, .bytes fun frame v ↦ { frame with data := v })]

def deserializeVideoFrame (data : List UInt8) : Except String VideoFrame :=
  deserializeMessage "VideoFrame" (.ofFields videoFrameFields) {} data

theorem deserializeVideoFrame_serializeVideoFrame {frame : VideoFrame}
    (ht : TimestampOk frame.timestampNs) (hne : serializeVideoFrame frame ≠ [])
    (hlen : (serializeVideoFrame frame).length < 2 ^ 64) :
    deserializeVideoFrame (serializeVideoFrame frame) = .ok frame := by
  have hb := FieldBody.uses_ofFields videoFrameFields
  refine deserializeMessage_eq hne (decode_ofFields ?_ hlen)
  exact .append (.append (.append
    (parses_message hb 1 rfl (decodeTimestamp_writeTimestamp ht _))
    (parses_bytes hb 2 rfl _))
    (parses_bytes hb 3 rfl _))
    (parses_bytes hb 4 rfl _)

/-! ## AssetVideo -/

structure AssetVideo where
  timeOriginNs : Option Int64 := none
  startNs : Option Int64 := none
  endNs : Option Int64 := none
  filePath : List UInt8 := []
  mediaType : List UInt8 := []
  width : UInt32 := 0
  height : UInt32 := 0
  frameRate : Binary64 := Binary64.zero
  deriving DecidableEq, Repr

def serializeAssetVideo (asset : AssetVideo) : List UInt8 :=
  writeOptional (fun t ↦ Writer.message 1 (writeTimestamp t)) asset.timeOriginNs ++
  Writer.string 3 asset.filePath ++
  Writer.string 4 asset.mediaType ++
  Writer.varint 5 asset.width.toNat ++
  Writer.varint 6 asset.height.toNat ++
  Writer.doubleField 7 asset.frameRate ++
  writeOptional (fun t : Int64 ↦ Writer.varint 8 t.toUInt64.toNat) asset.startNs ++
  writeOptional (fun t : Int64 ↦ Writer.varint 9 t.toUInt64.toNat) asset.endNs

def assetVideoFields : List (ℕ × FieldReader AssetVideo) :=
  [(1, .element decodeTimestamp 0 fun asset t ↦ { asset with timeOriginNs := some t }),
   (3, .bytes fun asset v ↦ { asset with filePath := v }),
   (4, .bytes fun asset v ↦ { asset with mediaType := v }),
   (5, .uint32 fun asset v ↦ { asset with width := v }),
   (6, .uint32 fun asset v ↦ { asset with height := v }),
   (7, .double fun asset v ↦ { asset with frameRate := v }),
   (8, .int64 fun asset v ↦ { asset with startNs := some v }),
   (9, .int64 fun asset v ↦ { asset with endNs := some v })]

def deserializeAssetVideo (data : List UInt8) : Except String AssetVideo :=
  deserializeMessage "AssetVideo" (.ofFields assetVideoFields) {} data

theorem deserializeAssetVideo_serializeAssetVideo {asset : AssetVideo}
    (ht : ∀ t ∈ asset.timeOriginNs, TimestampOk t) (hne : serializeAssetVideo asset ≠ [])
    (hlen : (serializeAssetVideo asset).length < 2 ^ 64) :
    deserializeAssetVideo (serializeAssetVideo asset) = .ok asset := by
  have hb := FieldBody.uses_ofFields assetVideoFields
  have horigin : (FieldBody.ofHandler (.ofFields assetVideoFields)).Parses
      (writeOptional (fun t ↦ Writer.message 1 (writeTimestamp t)) asset.timeOriginNs)
      {} { timeOriginNs := asset.timeOriginNs } := by
    cases ho : asset.timeOriginNs with
    | none => exact .nil _
    | some t =>
      exact parses_element hb 1 rfl (decodeTimestamp_writeTimestamp (ht t ho) _)
  refine deserializeMessage_eq hne (decode_ofFields ?_ hlen)
  exact .append (.append (.append (.append (.append (.append (.append horigin
    (parses_bytes hb 3 rfl _))
    (parses_bytes hb 4 rfl _))
    (parses_uint32 hb 5 rfl _))
    (parses_uint32 hb 6 rfl _))
    (parses_double hb 7 rfl _))
    (parses_optional (fun (asset : AssetVideo) v ↦ { asset with startNs := v }) rfl
      (parses_int64 hb 8 rfl) _))
    (parses_optional (fun (asset : AssetVideo) v ↦ { asset with endNs := v }) rfl
      (parses_int64 hb 9 rfl) _)

end PlotJuggler
