import PlotJugglerCore.Codec.Spatial

/-!
# Scene entities

`scene_entities_codec.cpp`: the nine primitives, the entity that bundles them, deletions, and the
batch that ships both. An entity nests primitives, primitives nest poses, points and colours, and
poses nest vectors: four levels of messages below the container loop.
-/

namespace PlotJuggler

/-! ## Line types -/

inductive LineType
  | lineStrip
  | lineLoop
  | lineList
  deriving DecidableEq, Repr

def lineTypeToWire : LineType → ℕ
  | .lineStrip => 1
  | .lineLoop => 2
  | .lineList => 3

def lineTypeFromWire : ℕ → LineType
  | 2 => .lineLoop
  | 3 => .lineList
  | _ => .lineStrip

theorem lineTypeToWire_lt (t : LineType) : lineTypeToWire t < 2 ^ 64 := by cases t <;> decide

@[simp] theorem lineTypeFromWire_toWire (t : LineType) :
    lineTypeFromWire (lineTypeToWire t) = t := by
  cases t <;> rfl

/-! ## Primitives -/

structure ArrowPrimitive where
  pose : Pose := {}
  shaftLength : Binary64 := Binary64.zero
  shaftDiameter : Binary64 := Binary64.zero
  headLength : Binary64 := Binary64.zero
  headDiameter : Binary64 := Binary64.zero
  color : ColorRGBA := {}
  deriving DecidableEq, Repr

def writeArrowPrimitive (A : FloatArith) (p : ArrowPrimitive) : List UInt8 :=
  Writer.message 1 (writePose p.pose) ++
  Writer.doubleField 2 p.shaftLength ++
  Writer.doubleField 3 p.shaftDiameter ++
  Writer.doubleField 4 p.headLength ++
  Writer.doubleField 5 p.headDiameter ++
  Writer.message 6 (writeColor A p.color)

def arrowPrimitiveFields (A : FloatArith) : List (ℕ × FieldReader ArrowPrimitive) :=
  [(1, .message decodePose (·.pose) fun out v ↦ { out with pose := v }),
   (2, .double fun out v ↦ { out with shaftLength := v }),
   (3, .double fun out v ↦ { out with shaftDiameter := v }),
   (4, .double fun out v ↦ { out with headLength := v }),
   (5, .double fun out v ↦ { out with headDiameter := v }),
   (6, .message (decodeColor A) (·.color) fun out v ↦ { out with color := v })]

def decodeArrowPrimitive (A : FloatArith) : MessageDecoder ArrowPrimitive :=
  .ofFields (arrowPrimitiveFields A)

theorem decodeArrowPrimitive_writeArrowPrimitive {A : FloatArith} (hA : A.ColorsExact)
    (p : ArrowPrimitive) (hlen : (writeArrowPrimitive A p).length < 2 ^ 64) :
    (decodeArrowPrimitive A).decode (writeArrowPrimitive A p) {} = .ok p := by
  have hb := FieldBody.uses_ofFields (arrowPrimitiveFields A)
  exact decode_ofFields (.append (.append (.append (.append (.append
    (parses_message hb 1 rfl (decodePose_writePose _ _))
    (parses_double hb 2 rfl _))
    (parses_double hb 3 rfl _))
    (parses_double hb 4 rfl _))
    (parses_double hb 5 rfl _))
    (parses_message hb 6 rfl (decodeColor_writeColor hA _ _))) hlen

structure CubePrimitive where
  pose : Pose := {}
  size : Vector3 := {}
  color : ColorRGBA := {}
  deriving DecidableEq, Repr

def writeCubePrimitive (A : FloatArith) (p : CubePrimitive) : List UInt8 :=
  Writer.message 1 (writePose p.pose) ++
  Writer.message 2 (writeVector3 p.size) ++
  Writer.message 3 (writeColor A p.color)

def cubePrimitiveFields (A : FloatArith) : List (ℕ × FieldReader CubePrimitive) :=
  [(1, .message decodePose (·.pose) fun out v ↦ { out with pose := v }),
   (2, .message decodeVector3 (·.size) fun out v ↦ { out with size := v }),
   (3, .message (decodeColor A) (·.color) fun out v ↦ { out with color := v })]

def decodeCubePrimitive (A : FloatArith) : MessageDecoder CubePrimitive :=
  .ofFields (cubePrimitiveFields A)

theorem decodeCubePrimitive_writeCubePrimitive {A : FloatArith} (hA : A.ColorsExact)
    (p : CubePrimitive) (hlen : (writeCubePrimitive A p).length < 2 ^ 64) :
    (decodeCubePrimitive A).decode (writeCubePrimitive A p) {} = .ok p := by
  have hb := FieldBody.uses_ofFields (cubePrimitiveFields A)
  exact decode_ofFields (.append (.append
    (parses_message hb 1 rfl (decodePose_writePose _ _))
    (parses_message hb 2 rfl (decodeVector3_writeVector3 _ _)))
    (parses_message hb 3 rfl (decodeColor_writeColor hA _ _))) hlen

structure SpherePrimitive where
  pose : Pose := {}
  size : Vector3 := {}
  color : ColorRGBA := {}
  deriving DecidableEq, Repr

def writeSpherePrimitive (A : FloatArith) (p : SpherePrimitive) : List UInt8 :=
  Writer.message 1 (writePose p.pose) ++
  Writer.message 2 (writeVector3 p.size) ++
  Writer.message 3 (writeColor A p.color)

def spherePrimitiveFields (A : FloatArith) : List (ℕ × FieldReader SpherePrimitive) :=
  [(1, .message decodePose (·.pose) fun out v ↦ { out with pose := v }),
   (2, .message decodeVector3 (·.size) fun out v ↦ { out with size := v }),
   (3, .message (decodeColor A) (·.color) fun out v ↦ { out with color := v })]

def decodeSpherePrimitive (A : FloatArith) : MessageDecoder SpherePrimitive :=
  .ofFields (spherePrimitiveFields A)

theorem decodeSpherePrimitive_writeSpherePrimitive {A : FloatArith} (hA : A.ColorsExact)
    (p : SpherePrimitive) (hlen : (writeSpherePrimitive A p).length < 2 ^ 64) :
    (decodeSpherePrimitive A).decode (writeSpherePrimitive A p) {} = .ok p := by
  have hb := FieldBody.uses_ofFields (spherePrimitiveFields A)
  exact decode_ofFields (.append (.append
    (parses_message hb 1 rfl (decodePose_writePose _ _))
    (parses_message hb 2 rfl (decodeVector3_writeVector3 _ _)))
    (parses_message hb 3 rfl (decodeColor_writeColor hA _ _))) hlen

structure CylinderPrimitive where
  pose : Pose := {}
  size : Vector3 := {}
  bottomScale : Binary64 := Binary64.one
  topScale : Binary64 := Binary64.one
  color : ColorRGBA := {}
  deriving DecidableEq, Repr

def writeCylinderPrimitive (A : FloatArith) (p : CylinderPrimitive) : List UInt8 :=
  Writer.message 1 (writePose p.pose) ++
  Writer.message 2 (writeVector3 p.size) ++
  Writer.doubleField 3 p.bottomScale ++
  Writer.doubleField 4 p.topScale ++
  Writer.message 5 (writeColor A p.color)

def cylinderPrimitiveFields (A : FloatArith) : List (ℕ × FieldReader CylinderPrimitive) :=
  [(1, .message decodePose (·.pose) fun out v ↦ { out with pose := v }),
   (2, .message decodeVector3 (·.size) fun out v ↦ { out with size := v }),
   (3, .double fun out v ↦ { out with bottomScale := v }),
   (4, .double fun out v ↦ { out with topScale := v }),
   (5, .message (decodeColor A) (·.color) fun out v ↦ { out with color := v })]

def decodeCylinderPrimitive (A : FloatArith) : MessageDecoder CylinderPrimitive :=
  .ofFields (cylinderPrimitiveFields A)

theorem decodeCylinderPrimitive_writeCylinderPrimitive {A : FloatArith} (hA : A.ColorsExact)
    (p : CylinderPrimitive) (hlen : (writeCylinderPrimitive A p).length < 2 ^ 64) :
    (decodeCylinderPrimitive A).decode (writeCylinderPrimitive A p) {} = .ok p := by
  have hb := FieldBody.uses_ofFields (cylinderPrimitiveFields A)
  exact decode_ofFields (.append (.append (.append (.append
    (parses_message hb 1 rfl (decodePose_writePose _ _))
    (parses_message hb 2 rfl (decodeVector3_writeVector3 _ _)))
    (parses_double hb 3 rfl _))
    (parses_double hb 4 rfl _))
    (parses_message hb 5 rfl (decodeColor_writeColor hA _ _))) hlen

structure LinePrimitive where
  type : LineType := .lineStrip
  pose : Pose := {}
  thickness : Binary64 := Binary64.zero
  scaleInvariant : Bool := false
  points : List Point3 := []
  color : ColorRGBA := {}
  colors : List ColorRGBA := []
  indices : List UInt32 := []
  deriving DecidableEq, Repr

def writeLinePrimitive (A : FloatArith) (p : LinePrimitive) : List UInt8 :=
  Writer.varint 1 (lineTypeToWire p.type) ++
  Writer.message 2 (writePose p.pose) ++
  Writer.doubleField 3 p.thickness ++
  Writer.varint 4 (if p.scaleInvariant then 1 else 0) ++
  (p.points.flatMap fun point ↦ Writer.message 5 (writePoint3 point)) ++
  Writer.message 6 (writeColor A p.color) ++
  (p.colors.flatMap fun color ↦ Writer.message 7 (writeColor A color)) ++
  Writer.packedFixed32 8 p.indices

def linePrimitiveFields (A : FloatArith) : List (ℕ × FieldReader LinePrimitive) :=
  [(1, .enumerator lineTypeFromWire fun out v ↦ { out with type := v }),
   (2, .message decodePose (·.pose) fun out v ↦ { out with pose := v }),
   (3, .double fun out v ↦ { out with thickness := v }),
   (4, .bool fun out v ↦ { out with scaleInvariant := v }),
   (5, .element decodePoint3 {} fun out v ↦ { out with points := out.points ++ [v] }),
   (6, .message (decodeColor A) (·.color) fun out v ↦ { out with color := v }),
   (7, .element (decodeColor A) {} fun out v ↦ { out with colors := out.colors ++ [v] }),
   (8, .packedFixed32 (·.indices) fun out v ↦ { out with indices := v })]

def decodeLinePrimitive (A : FloatArith) : MessageDecoder LinePrimitive :=
  .ofFields (linePrimitiveFields A)

theorem decodeLinePrimitive_writeLinePrimitive {A : FloatArith} (hA : A.ColorsExact)
    (p : LinePrimitive) (hlen : (writeLinePrimitive A p).length < 2 ^ 64) :
    (decodeLinePrimitive A).decode (writeLinePrimitive A p) {} = .ok p := by
  have hb := FieldBody.uses_ofFields (linePrimitiveFields A)
  exact decode_ofFields (.append (.append (.append (.append (.append (.append (.append
    (parses_enumerator hb 1 rfl (lineTypeToWire_lt _) (lineTypeFromWire_toWire _))
    (parses_message hb 2 rfl (decodePose_writePose _ _)))
    (parses_double hb 3 rfl _))
    (parses_bool hb 4 rfl _))
    (parses_elements hb 5 LinePrimitive.points (fun out v ↦ { out with points := v })
      rfl (fun _ _ ↦ rfl) (fun _ _ _ ↦ rfl) rfl _ fun _ _ ↦ decodePoint3_writePoint3 _ _))
    (parses_message hb 6 rfl (decodeColor_writeColor hA _ _)))
    (parses_elements hb 7 LinePrimitive.colors (fun out v ↦ { out with colors := v })
      rfl (fun _ _ ↦ rfl) (fun _ _ _ ↦ rfl) rfl _ fun _ _ ↦ decodeColor_writeColor hA _ _))
    (parses_packedFixed32 hb 8 rfl rfl _)) hlen

structure TrianglePrimitive where
  pose : Pose := {}
  points : List Point3 := []
  color : ColorRGBA := {}
  colors : List ColorRGBA := []
  indices : List UInt32 := []
  deriving DecidableEq, Repr

def writeTrianglePrimitive (A : FloatArith) (p : TrianglePrimitive) : List UInt8 :=
  Writer.message 1 (writePose p.pose) ++
  (p.points.flatMap fun point ↦ Writer.message 2 (writePoint3 point)) ++
  Writer.message 3 (writeColor A p.color) ++
  (p.colors.flatMap fun color ↦ Writer.message 4 (writeColor A color)) ++
  Writer.packedFixed32 5 p.indices

def trianglePrimitiveFields (A : FloatArith) : List (ℕ × FieldReader TrianglePrimitive) :=
  [(1, .message decodePose (·.pose) fun out v ↦ { out with pose := v }),
   (2, .element decodePoint3 {} fun out v ↦ { out with points := out.points ++ [v] }),
   (3, .message (decodeColor A) (·.color) fun out v ↦ { out with color := v }),
   (4, .element (decodeColor A) {} fun out v ↦ { out with colors := out.colors ++ [v] }),
   (5, .packedFixed32 (·.indices) fun out v ↦ { out with indices := v })]

def decodeTrianglePrimitive (A : FloatArith) : MessageDecoder TrianglePrimitive :=
  .ofFields (trianglePrimitiveFields A)

theorem decodeTrianglePrimitive_writeTrianglePrimitive {A : FloatArith} (hA : A.ColorsExact)
    (p : TrianglePrimitive) (hlen : (writeTrianglePrimitive A p).length < 2 ^ 64) :
    (decodeTrianglePrimitive A).decode (writeTrianglePrimitive A p) {} = .ok p := by
  have hb := FieldBody.uses_ofFields (trianglePrimitiveFields A)
  exact decode_ofFields (.append (.append (.append (.append
    (parses_message hb 1 rfl (decodePose_writePose _ _))
    (parses_elements hb 2 TrianglePrimitive.points
      (fun out v ↦ { out with points := v }) rfl (fun _ _ ↦ rfl) (fun _ _ _ ↦ rfl) rfl _
      fun _ _ ↦ decodePoint3_writePoint3 _ _))
    (parses_message hb 3 rfl (decodeColor_writeColor hA _ _)))
    (parses_elements hb 4 TrianglePrimitive.colors
      (fun out v ↦ { out with colors := v }) rfl (fun _ _ ↦ rfl) (fun _ _ _ ↦ rfl) rfl _
      fun _ _ ↦ decodeColor_writeColor hA _ _))
    (parses_packedFixed32 hb 5 rfl rfl _)) hlen

structure TextPrimitive where
  pose : Pose := {}
  billboard : Bool := false
  fontSize : Binary64 := Binary64.zero
  scaleInvariant : Bool := false
  color : ColorRGBA := {}
  text : List UInt8 := []
  deriving DecidableEq, Repr

def writeTextPrimitive (A : FloatArith) (p : TextPrimitive) : List UInt8 :=
  Writer.message 1 (writePose p.pose) ++
  Writer.varint 2 (if p.billboard then 1 else 0) ++
  Writer.doubleField 3 p.fontSize ++
  Writer.varint 4 (if p.scaleInvariant then 1 else 0) ++
  Writer.message 5 (writeColor A p.color) ++
  Writer.string 6 p.text

def textPrimitiveFields (A : FloatArith) : List (ℕ × FieldReader TextPrimitive) :=
  [(1, .message decodePose (·.pose) fun out v ↦ { out with pose := v }),
   (2, .bool fun out v ↦ { out with billboard := v }),
   (3, .double fun out v ↦ { out with fontSize := v }),
   (4, .bool fun out v ↦ { out with scaleInvariant := v }),
   (5, .message (decodeColor A) (·.color) fun out v ↦ { out with color := v }),
   (6, .bytes fun out v ↦ { out with text := v })]

def decodeTextPrimitive (A : FloatArith) : MessageDecoder TextPrimitive :=
  .ofFields (textPrimitiveFields A)

theorem decodeTextPrimitive_writeTextPrimitive {A : FloatArith} (hA : A.ColorsExact)
    (p : TextPrimitive) (hlen : (writeTextPrimitive A p).length < 2 ^ 64) :
    (decodeTextPrimitive A).decode (writeTextPrimitive A p) {} = .ok p := by
  have hb := FieldBody.uses_ofFields (textPrimitiveFields A)
  exact decode_ofFields (.append (.append (.append (.append (.append
    (parses_message hb 1 rfl (decodePose_writePose _ _))
    (parses_bool hb 2 rfl _))
    (parses_double hb 3 rfl _))
    (parses_bool hb 4 rfl _))
    (parses_message hb 5 rfl (decodeColor_writeColor hA _ _)))
    (parses_bytes hb 6 rfl _)) hlen

structure AxesPrimitive where
  pose : Pose := {}
  length : Binary64 := Binary64.zero
  thickness : Binary64 := Binary64.zero
  scaleInvariant : Bool := false
  deriving DecidableEq, Repr

def writeAxesPrimitive (p : AxesPrimitive) : List UInt8 :=
  Writer.message 1 (writePose p.pose) ++
  Writer.doubleField 2 p.length ++
  Writer.doubleField 3 p.thickness ++
  Writer.varint 4 (if p.scaleInvariant then 1 else 0)

def axesPrimitiveFields : List (ℕ × FieldReader AxesPrimitive) :=
  [(1, .message decodePose (·.pose) fun out v ↦ { out with pose := v }),
   (2, .double fun out v ↦ { out with length := v }),
   (3, .double fun out v ↦ { out with thickness := v }),
   (4, .bool fun out v ↦ { out with scaleInvariant := v })]

def decodeAxesPrimitive : MessageDecoder AxesPrimitive := .ofFields axesPrimitiveFields

theorem decodeAxesPrimitive_writeAxesPrimitive
    (p : AxesPrimitive) (hlen : (writeAxesPrimitive p).length < 2 ^ 64) :
    decodeAxesPrimitive.decode (writeAxesPrimitive p) {} = .ok p := by
  have hb := FieldBody.uses_ofFields axesPrimitiveFields
  exact decode_ofFields (.append (.append (.append
    (parses_message hb 1 rfl (decodePose_writePose _ _))
    (parses_double hb 2 rfl _))
    (parses_double hb 3 rfl _))
    (parses_bool hb 4 rfl _)) hlen

structure ModelPrimitive where
  pose : Pose := {}
  scale : Vector3 := {}
  color : ColorRGBA := {}
  overrideColor : Bool := false
  url : List UInt8 := []
  mediaType : List UInt8 := []
  data : List UInt8 := []
  deriving DecidableEq, Repr

def writeModelPrimitive (A : FloatArith) (p : ModelPrimitive) : List UInt8 :=
  Writer.message 1 (writePose p.pose) ++
  Writer.message 2 (writeVector3 p.scale) ++
  Writer.message 3 (writeColor A p.color) ++
  Writer.varint 4 (if p.overrideColor then 1 else 0) ++
  Writer.string 5 p.url ++
  Writer.string 6 p.mediaType ++
  (if p.data.isEmpty then [] else Writer.lengthDelimited 7 p.data)

def modelPrimitiveFields (A : FloatArith) : List (ℕ × FieldReader ModelPrimitive) :=
  [(1, .message decodePose (·.pose) fun out v ↦ { out with pose := v }),
   (2, .message decodeVector3 (·.scale) fun out v ↦ { out with scale := v }),
   (3, .message (decodeColor A) (·.color) fun out v ↦ { out with color := v }),
   (4, .bool fun out v ↦ { out with overrideColor := v }),
   (5, .bytes fun out v ↦ { out with url := v }),
   (6, .bytes fun out v ↦ { out with mediaType := v }),
   (7, .bytes fun out v ↦ { out with data := v })]

def decodeModelPrimitive (A : FloatArith) : MessageDecoder ModelPrimitive :=
  .ofFields (modelPrimitiveFields A)

/-- Bytes that are left out when there are none. -/
theorem parses_nonempty {σ : Type} {b : FieldBody σ σ} {fields : List (ℕ × FieldReader σ)}
    (hb : b.Uses fields) (n : ℕ) (set : σ → List UInt8 → σ)
    (hf : fields.lookup n = some (.bytes set)) {s : σ} (hempty : set s [] = s)
    (data : List UInt8) (hn : 0 < n ∧ n < 2 ^ 32 := by decide) :
    b.Parses (if data.isEmpty then [] else Writer.lengthDelimited n data) s (set s data) := by
  cases data with
  | nil =>
    rw [hempty]
    exact .nil s
  | cons c cs => exact parses_bytes hb n hf (c :: cs) hn

theorem decodeModelPrimitive_writeModelPrimitive {A : FloatArith} (hA : A.ColorsExact)
    (p : ModelPrimitive) (hlen : (writeModelPrimitive A p).length < 2 ^ 64) :
    (decodeModelPrimitive A).decode (writeModelPrimitive A p) {} = .ok p := by
  have hb := FieldBody.uses_ofFields (modelPrimitiveFields A)
  exact decode_ofFields (.append (.append (.append (.append (.append (.append
    (parses_message hb 1 rfl (decodePose_writePose _ _))
    (parses_message hb 2 rfl (decodeVector3_writeVector3 _ _)))
    (parses_message hb 3 rfl (decodeColor_writeColor hA _ _)))
    (parses_bool hb 4 rfl _))
    (parses_bytes hb 5 rfl _))
    (parses_bytes hb 6 rfl _))
    (parses_nonempty hb 7 (fun out v ↦ { out with data := v }) rfl rfl _)) hlen

/-! ## Deletions and metadata -/

inductive SceneEntityDeletion.Kind
  | matchingId
  | all
  deriving DecidableEq, Repr

structure SceneEntityDeletion where
  type : SceneEntityDeletion.Kind := .matchingId
  timestamp : Int64 := 0
  id : List UInt8 := []
  deriving DecidableEq, Repr

/-- `static_cast<uint64_t>(d.type)`. -/
def SceneEntityDeletion.Kind.toWire : SceneEntityDeletion.Kind → ℕ
  | .matchingId => 0
  | .all => 1

/-- `(v == 1) ? kAll : kMatchingId`. -/
def deletionTypeFromWire (v : ℕ) : SceneEntityDeletion.Kind := if v = 1 then .all else .matchingId

theorem SceneEntityDeletion.Kind.toWire_lt (t : SceneEntityDeletion.Kind) :
    t.toWire < 2 ^ 64 := by
  cases t <;> decide

@[simp] theorem deletionTypeFromWire_toWire (t : SceneEntityDeletion.Kind) :
    deletionTypeFromWire t.toWire = t := by
  cases t <;> rfl

def writeSceneEntityDeletion (d : SceneEntityDeletion) : List UInt8 :=
  Writer.message 1 (writeTimestamp d.timestamp) ++
  Writer.varint 2 d.type.toWire ++
  Writer.string 3 d.id

def sceneEntityDeletionFields : List (ℕ × FieldReader SceneEntityDeletion) :=
  [(1, .message decodeTimestamp (·.timestamp) fun out v ↦ { out with timestamp := v }),
   (2, .enumerator deletionTypeFromWire fun out v ↦ { out with type := v }),
   (3, .bytes fun out v ↦ { out with id := v })]

def decodeSceneEntityDeletion : MessageDecoder SceneEntityDeletion :=
  .ofFields sceneEntityDeletionFields

theorem decodeSceneEntityDeletion_writeSceneEntityDeletion {d : SceneEntityDeletion}
    (ht : TimestampOk d.timestamp) (hlen : (writeSceneEntityDeletion d).length < 2 ^ 64) :
    decodeSceneEntityDeletion.decode (writeSceneEntityDeletion d) {} = .ok d := by
  have hb := FieldBody.uses_ofFields sceneEntityDeletionFields
  exact decode_ofFields (.append (.append
    (parses_message hb 1 rfl (decodeTimestamp_writeTimestamp ht _))
    (parses_enumerator hb 2 rfl d.type.toWire_lt (deletionTypeFromWire_toWire _)))
    (parses_bytes hb 3 rfl _)) hlen

structure KeyValuePair where
  key : List UInt8 := []
  value : List UInt8 := []
  deriving DecidableEq, Repr

def writeKeyValuePair (kv : KeyValuePair) : List UInt8 :=
  Writer.string 1 kv.key ++ Writer.string 2 kv.value

def keyValuePairFields : List (ℕ × FieldReader KeyValuePair) :=
  [(1, .bytes fun out v ↦ { out with key := v }),
   (2, .bytes fun out v ↦ { out with value := v })]

def decodeKeyValuePair : MessageDecoder KeyValuePair := .ofFields keyValuePairFields

theorem decodeKeyValuePair_writeKeyValuePair (kv : KeyValuePair)
    (hlen : (writeKeyValuePair kv).length < 2 ^ 64) :
    decodeKeyValuePair.decode (writeKeyValuePair kv) {} = .ok kv := by
  have hb := FieldBody.uses_ofFields keyValuePairFields
  exact decode_ofFields (.append
    (parses_bytes hb 1 rfl _)
    (parses_bytes hb 2 rfl _)) hlen

/-! ## Entities -/

structure SceneEntity where
  timestamp : Int64 := 0
  frameId : List UInt8 := []
  id : List UInt8 := []
  lifetimeNs : Int64 := 0
  frameLocked : Bool := false
  metadata : List KeyValuePair := []
  arrows : List ArrowPrimitive := []
  cubes : List CubePrimitive := []
  spheres : List SpherePrimitive := []
  cylinders : List CylinderPrimitive := []
  lines : List LinePrimitive := []
  triangles : List TrianglePrimitive := []
  texts : List TextPrimitive := []
  models : List ModelPrimitive := []
  axes : List AxesPrimitive := []
  deriving DecidableEq, Repr

/-- A lifetime is a duration, which shares the wire shape of a timestamp. -/
def writeSceneEntity (A : FloatArith) (e : SceneEntity) : List UInt8 :=
  Writer.message 1 (writeTimestamp e.timestamp) ++
  Writer.string 2 e.frameId ++
  Writer.string 3 e.id ++
  Writer.message 4 (writeTimestamp e.lifetimeNs) ++
  Writer.varint 5 (if e.frameLocked then 1 else 0) ++
  (e.metadata.flatMap fun x ↦ Writer.message 6 (writeKeyValuePair x)) ++
  (e.arrows.flatMap fun x ↦ Writer.message 7 (writeArrowPrimitive A x)) ++
  (e.cubes.flatMap fun x ↦ Writer.message 8 (writeCubePrimitive A x)) ++
  (e.spheres.flatMap fun x ↦ Writer.message 9 (writeSpherePrimitive A x)) ++
  (e.cylinders.flatMap fun x ↦ Writer.message 10 (writeCylinderPrimitive A x)) ++
  (e.lines.flatMap fun x ↦ Writer.message 11 (writeLinePrimitive A x)) ++
  (e.triangles.flatMap fun x ↦ Writer.message 12 (writeTrianglePrimitive A x)) ++
  (e.texts.flatMap fun x ↦ Writer.message 13 (writeTextPrimitive A x)) ++
  (e.models.flatMap fun x ↦ Writer.message 14 (writeModelPrimitive A x)) ++
  (e.axes.flatMap fun x ↦ Writer.message 15 (writeAxesPrimitive x))

def sceneEntityFields (A : FloatArith) : List (ℕ × FieldReader SceneEntity) :=
  [(1, .message decodeTimestamp (·.timestamp) fun out v ↦ { out with timestamp := v }),
   (2, .bytes fun out v ↦ { out with frameId := v }),
   (3, .bytes fun out v ↦ { out with id := v }),
   (4, .message decodeTimestamp (·.lifetimeNs) fun out v ↦ { out with lifetimeNs := v }),
   (5, .bool fun out v ↦ { out with frameLocked := v }),
   (6, .element decodeKeyValuePair {}
     fun out v ↦ { out with metadata := out.metadata ++ [v] }),
   (7, .element (decodeArrowPrimitive A) {}
     fun out v ↦ { out with arrows := out.arrows ++ [v] }),
   (8, .element (decodeCubePrimitive A) {}
     fun out v ↦ { out with cubes := out.cubes ++ [v] }),
   (9, .element (decodeSpherePrimitive A) {}
     fun out v ↦ { out with spheres := out.spheres ++ [v] }),
   (10, .element (decodeCylinderPrimitive A) {}
     fun out v ↦ { out with cylinders := out.cylinders ++ [v] }),
   (11, .element (decodeLinePrimitive A) {}
     fun out v ↦ { out with lines := out.lines ++ [v] }),
   (12, .element (decodeTrianglePrimitive A) {}
     fun out v ↦ { out with triangles := out.triangles ++ [v] }),
   (13, .element (decodeTextPrimitive A) {}
     fun out v ↦ { out with texts := out.texts ++ [v] }),
   (14, .element (decodeModelPrimitive A) {}
     fun out v ↦ { out with models := out.models ++ [v] }),
   (15, .element decodeAxesPrimitive {}
     fun out v ↦ { out with axes := out.axes ++ [v] })]

def decodeSceneEntity (A : FloatArith) : MessageDecoder SceneEntity :=
  .ofFields (sceneEntityFields A)

theorem decodeSceneEntity_writeSceneEntity {A : FloatArith} (hA : A.ColorsExact) {e : SceneEntity}
    (ht : TimestampOk e.timestamp) (hl : TimestampOk e.lifetimeNs)
    (hlen : (writeSceneEntity A e).length < 2 ^ 64) :
    (decodeSceneEntity A).decode (writeSceneEntity A e) {} = .ok e := by
  have hb := FieldBody.uses_ofFields (sceneEntityFields A)
  exact decode_ofFields (.append (.append (.append (.append (.append (.append (.append (.append
    (.append (.append (.append (.append (.append (.append
    (parses_message hb 1 rfl (decodeTimestamp_writeTimestamp ht _))
    (parses_bytes hb 2 rfl _))
    (parses_bytes hb 3 rfl _))
    (parses_message hb 4 rfl (decodeTimestamp_writeTimestamp hl _)))
    (parses_bool hb 5 rfl _))
    (parses_elements hb 6 SceneEntity.metadata (fun out v ↦ { out with metadata := v })
      rfl (fun _ _ ↦ rfl) (fun _ _ _ ↦ rfl) rfl _
      fun x _ ↦ decodeKeyValuePair_writeKeyValuePair x))
    (parses_elements hb 7 SceneEntity.arrows (fun out v ↦ { out with arrows := v })
      rfl (fun _ _ ↦ rfl) (fun _ _ _ ↦ rfl) rfl _
      fun x _ ↦ decodeArrowPrimitive_writeArrowPrimitive hA x))
    (parses_elements hb 8 SceneEntity.cubes (fun out v ↦ { out with cubes := v })
      rfl (fun _ _ ↦ rfl) (fun _ _ _ ↦ rfl) rfl _
      fun x _ ↦ decodeCubePrimitive_writeCubePrimitive hA x))
    (parses_elements hb 9 SceneEntity.spheres (fun out v ↦ { out with spheres := v })
      rfl (fun _ _ ↦ rfl) (fun _ _ _ ↦ rfl) rfl _
      fun x _ ↦ decodeSpherePrimitive_writeSpherePrimitive hA x))
    (parses_elements hb 10 SceneEntity.cylinders (fun out v ↦ { out with cylinders := v })
      rfl (fun _ _ ↦ rfl) (fun _ _ _ ↦ rfl) rfl _
      fun x _ ↦ decodeCylinderPrimitive_writeCylinderPrimitive hA x))
    (parses_elements hb 11 SceneEntity.lines (fun out v ↦ { out with lines := v })
      rfl (fun _ _ ↦ rfl) (fun _ _ _ ↦ rfl) rfl _
      fun x _ ↦ decodeLinePrimitive_writeLinePrimitive hA x))
    (parses_elements hb 12 SceneEntity.triangles (fun out v ↦ { out with triangles := v })
      rfl (fun _ _ ↦ rfl) (fun _ _ _ ↦ rfl) rfl _
      fun x _ ↦ decodeTrianglePrimitive_writeTrianglePrimitive hA x))
    (parses_elements hb 13 SceneEntity.texts (fun out v ↦ { out with texts := v })
      rfl (fun _ _ ↦ rfl) (fun _ _ _ ↦ rfl) rfl _
      fun x _ ↦ decodeTextPrimitive_writeTextPrimitive hA x))
    (parses_elements hb 14 SceneEntity.models (fun out v ↦ { out with models := v })
      rfl (fun _ _ ↦ rfl) (fun _ _ _ ↦ rfl) rfl _
      fun x _ ↦ decodeModelPrimitive_writeModelPrimitive hA x))
    (parses_elements hb 15 SceneEntity.axes (fun out v ↦ { out with axes := v })
      rfl (fun _ _ ↦ rfl) (fun _ _ _ ↦ rfl) rfl _
      fun x _ ↦ decodeAxesPrimitive_writeAxesPrimitive x)) hlen

/-! ## The batch -/

structure SceneEntities where
  entities : List SceneEntity := []
  deletions : List SceneEntityDeletion := []
  deriving DecidableEq, Repr

def serializeSceneEntities (A : FloatArith) (entities : SceneEntities) : List UInt8 :=
  (entities.deletions.flatMap fun d ↦ Writer.message 1 (writeSceneEntityDeletion d)) ++
  (entities.entities.flatMap fun e ↦ Writer.message 2 (writeSceneEntity A e))

def sceneEntitiesElements (A : FloatArith) : List (ℕ × Element SceneEntities) :=
  [(1, .push "SceneEntityDeletion" decodeSceneEntityDeletion {}
     fun out v ↦ { out with deletions := out.deletions ++ [v] }),
   (2, .push "SceneEntity" (decodeSceneEntity A) {}
     fun out v ↦ { out with entities := out.entities ++ [v] })]

def deserializeSceneEntities (A : FloatArith) (data : List UInt8) : Except String SceneEntities :=
  deserializeContainer "SceneEntities" (sceneEntitiesElements A) {} data

theorem deserializeSceneEntities_serializeSceneEntities {A : FloatArith} (hA : A.ColorsExact)
    {entities : SceneEntities} (hd : ∀ d ∈ entities.deletions, TimestampOk d.timestamp)
    (he : ∀ e ∈ entities.entities, TimestampOk e.timestamp ∧ TimestampOk e.lifetimeNs)
    (hne : serializeSceneEntities A entities ≠ [])
    (hlen : (serializeSceneEntities A entities).length < 2 ^ 64) :
    deserializeSceneEntities A (serializeSceneEntities A entities) = .ok entities := by
  refine deserializeContainer_eq hne hlen ?_
  exact .append
    (parses_containerElements 1 SceneEntities.deletions
      (fun out v ↦ { out with deletions := v }) rfl (fun _ _ ↦ rfl) (fun _ _ _ ↦ rfl) rfl _
      fun d hmem ↦ decodeSceneEntityDeletion_writeSceneEntityDeletion (hd d hmem))
    (parses_containerElements 2 SceneEntities.entities
      (fun out v ↦ { out with entities := v }) rfl (fun _ _ ↦ rfl) (fun _ _ _ ↦ rfl) rfl _
      fun e hmem ↦ decodeSceneEntity_writeSceneEntity hA (he e hmem).1 (he e hmem).2)

end PlotJuggler
