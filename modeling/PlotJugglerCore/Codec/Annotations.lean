import PlotJugglerCore.Codec.Geometry

/-!
# Image annotations

`image_annotations_codec.cpp`. This codec does not use `parseFields`: each of its decoders is a
loop that leaves at the first failed read, so it cannot resume inside a field. It carries the
circles, point sets and texts; the timestamp and the image topic of the value have no field on the
wire.

A circle has a radius in the program and a diameter on the wire.
-/

namespace PlotJuggler

inductive AnnotationTopology
  | points
  | lineList
  | lineStrip
  | lineLoop
  deriving DecidableEq, Repr

def topologyToEnum : AnnotationTopology → ℕ
  | .points => 1
  | .lineLoop => 2
  | .lineStrip => 3
  | .lineList => 4

def mapTopology : ℕ → AnnotationTopology
  | 2 => .lineLoop
  | 3 => .lineStrip
  | 4 => .lineList
  | _ => .points

theorem topologyToEnum_lt (t : AnnotationTopology) : topologyToEnum t < 2 ^ 64 := by
  cases t <;> decide

@[simp] theorem mapTopology_topologyToEnum (t : AnnotationTopology) :
    mapTopology (topologyToEnum t) = t := by
  cases t <;> rfl

/-! ## Points and colours -/

structure Point2 where
  x : Binary64 := Binary64.zero
  y : Binary64 := Binary64.zero
  deriving DecidableEq, Repr

def writePoint2 (point : Point2) : List UInt8 :=
  Writer.doubleField 1 point.x ++ Writer.doubleField 2 point.y

def point2Fields : List (ℕ × FieldReader Point2) :=
  [(1, .double fun out v ↦ { out with x := v }),
   (2, .double fun out v ↦ { out with y := v })]

def decodePoint2 : MessageDecoder Point2 := .ofStrictFields point2Fields

theorem decodePoint2_writePoint2 (p old : Point2) (hlen : (writePoint2 p).length < 2 ^ 64) :
    decodePoint2.decode (writePoint2 p) old = .ok p := by
  have hb := FieldBody.uses_ofStrictFields point2Fields
  exact decode_ofStrictFields (.append
    (parses_double hb 1 rfl _)
    (parses_double hb 2 rfl _)) hlen

/-- The colour decoder of this codec: here a missing alpha channel is opaque. -/
def decodeAnnotationColor (A : FloatArith) : MessageDecoder ColorRGBA :=
  .ofLocals (.ofStrictFields colorFields)
    ⟨Binary64.zero, Binary64.zero, Binary64.zero, Binary64.one⟩ fun c ↦ some (toColorRGBA A c)

theorem decodeAnnotationColor_writeColor {A : FloatArith} (hA : A.ColorsExact) (c old : ColorRGBA)
    (hlen : (writeColor A c).length < 2 ^ 64) :
    (decodeAnnotationColor A).decode (writeColor A c) old = .ok c :=
  decode_ofLocals
    (decode_ofStrictFields (parses_color (FieldBody.uses_ofStrictFields colorFields) c _) hlen)
    (congrArg some (toColorRGBA_byteToUnit hA c))

/-! ## PointsAnnotation -/

structure PointsAnnotation where
  topology : AnnotationTopology := .points
  points : List Point2 := []
  thickness : Binary64 := Binary64.two
  color : ColorRGBA := ⟨0, 255, 0, 255⟩
  colors : List ColorRGBA := []
  fillColor : ColorRGBA := ⟨0, 0, 0, 0⟩
  deriving DecidableEq, Repr

/-- `writePointsAnnotation`. -/
def writeAnnotationPoints (A : FloatArith) (points : PointsAnnotation) : List UInt8 :=
  Writer.varint 2 (topologyToEnum points.topology) ++
  (points.points.flatMap fun point ↦ Writer.message 3 (writePoint2 point)) ++
  Writer.message 4 (writeColor A points.color) ++
  (points.colors.flatMap fun color ↦ Writer.message 5 (writeColor A color)) ++
  Writer.message 6 (writeColor A points.fillColor) ++
  Writer.doubleField 7 points.thickness

def pointsAnnotationFields (A : FloatArith) : List (ℕ × FieldReader PointsAnnotation) :=
  [(2, .enumerator mapTopology fun out v ↦ { out with topology := v }),
   (3, .element decodePoint2 {} fun out v ↦ { out with points := out.points ++ [v] }),
   (4, .message (decodeAnnotationColor A) (·.color) fun out v ↦ { out with color := v }),
   (5, .element (decodeAnnotationColor A) {} fun out v ↦ { out with colors := out.colors ++ [v] }),
   (6, .message (decodeAnnotationColor A) (·.fillColor) fun out v ↦ { out with fillColor := v }),
   (7, .double fun out v ↦ { out with thickness := v })]

/-- `decodePointsAnnotation`. -/
def decodeAnnotationPoints (A : FloatArith) : MessageDecoder PointsAnnotation :=
  .ofStrictFields (pointsAnnotationFields A)

theorem decodeAnnotationPoints_writeAnnotationPoints {A : FloatArith} (hA : A.ColorsExact)
    (p : PointsAnnotation) (hlen : (writeAnnotationPoints A p).length < 2 ^ 64) :
    (decodeAnnotationPoints A).decode (writeAnnotationPoints A p) {} = .ok p := by
  have hb := FieldBody.uses_ofStrictFields (pointsAnnotationFields A)
  exact decode_ofStrictFields (.append (.append (.append (.append (.append
    (parses_enumerator hb 2 rfl (topologyToEnum_lt _) (mapTopology_topologyToEnum _))
    (parses_elements hb 3 PointsAnnotation.points (fun out v ↦ { out with points := v })
      rfl (fun _ _ ↦ rfl) (fun _ _ _ ↦ rfl) rfl _ fun _ _ ↦ decodePoint2_writePoint2 _ _))
    (parses_message hb 4 rfl (decodeAnnotationColor_writeColor hA _ _)))
    (parses_elements hb 5 PointsAnnotation.colors (fun out v ↦ { out with colors := v })
      rfl (fun _ _ ↦ rfl) (fun _ _ _ ↦ rfl) rfl _
      fun _ _ ↦ decodeAnnotationColor_writeColor hA _ _))
    (parses_message hb 6 rfl (decodeAnnotationColor_writeColor hA _ _)))
    (parses_double hb 7 rfl _)) hlen

/-! ## CircleAnnotation -/

structure CircleAnnotation where
  center : Point2 := {}
  radius : Binary64 := Binary64.one
  thickness : Binary64 := Binary64.two
  color : ColorRGBA := ⟨0, 255, 0, 255⟩
  fillColor : ColorRGBA := ⟨0, 0, 0, 0⟩
  deriving DecidableEq, Repr

/-- `writeCircleAnnotation`. -/
def writeAnnotationCircle (A : FloatArith) (circle : CircleAnnotation) : List UInt8 :=
  Writer.message 2 (writePoint2 circle.center) ++
  Writer.doubleField 3 (A.twice circle.radius) ++
  Writer.doubleField 4 circle.thickness ++
  Writer.message 5 (writeColor A circle.fillColor) ++
  Writer.message 6 (writeColor A circle.color)

def circleAnnotationFields (A : FloatArith) : List (ℕ × FieldReader CircleAnnotation) :=
  [(2, .message decodePoint2 (·.center) fun out v ↦ { out with center := v }),
   (3, .double fun out diameter ↦ { out with radius := A.half diameter }),
   (4, .double fun out v ↦ { out with thickness := v }),
   (5, .message (decodeAnnotationColor A) (·.fillColor) fun out v ↦ { out with fillColor := v }),
   (6, .message (decodeAnnotationColor A) (·.color) fun out v ↦ { out with color := v })]

/-- `decodeCircleAnnotation`. -/
def decodeAnnotationCircle (A : FloatArith) : MessageDecoder CircleAnnotation :=
  (MessageDecoder.ofStrictFields (circleAnnotationFields A)).after fun out ↦
    { out with
      color := ⟨0, 255, 0, 255⟩, fillColor := ⟨0, 0, 0, 0⟩,
      thickness := Binary64.two, radius := Binary64.one }

theorem decodeAnnotationCircle_writeAnnotationCircle {A : FloatArith} (hA : A.ColorsExact)
    {c : CircleAnnotation} (hradius : A.half (A.twice c.radius) = c.radius)
    (hlen : (writeAnnotationCircle A c).length < 2 ^ 64) :
    (decodeAnnotationCircle A).decode (writeAnnotationCircle A c) {} = .ok c := by
  have hb := FieldBody.uses_ofStrictFields (circleAnnotationFields A)
  have h : (FieldBody.ofStrictFields (circleAnnotationFields A)).Parses
      (writeAnnotationCircle A c) {} { c with radius := A.half (A.twice c.radius) } :=
    .append (.append (.append (.append
      (parses_message hb 2 rfl (decodePoint2_writePoint2 _ _))
      (parses_double hb 3 rfl _))
      (parses_double hb 4 rfl _))
      (parses_message hb 5 rfl (decodeAnnotationColor_writeColor hA _ _)))
      (parses_message hb 6 rfl (decodeAnnotationColor_writeColor hA _ _))
  rw [hradius] at h
  exact decode_ofStrictFields h hlen

/-! ## TextAnnotation -/

structure TextAnnotation where
  position : Point2 := {}
  fontSize : Binary64 := Binary64.fourteen
  color : ColorRGBA := ⟨255, 255, 255, 255⟩
  text : List UInt8 := []
  deriving DecidableEq, Repr

/-- `writeTextAnnotation`. -/
def writeAnnotationText (A : FloatArith) (text : TextAnnotation) : List UInt8 :=
  Writer.message 2 (writePoint2 text.position) ++
  Writer.string 3 text.text ++
  Writer.doubleField 4 text.fontSize ++
  Writer.message 5 (writeColor A text.color)

def textAnnotationFields (A : FloatArith) : List (ℕ × FieldReader TextAnnotation) :=
  [(2, .message decodePoint2 (·.position) fun out v ↦ { out with position := v }),
   (3, .bytes fun out v ↦ { out with text := v }),
   (4, .double fun out v ↦ { out with fontSize := v }),
   (5, .message (decodeAnnotationColor A) (·.color) fun out v ↦ { out with color := v })]

/-- `decodeTextAnnotation`. -/
def decodeAnnotationText (A : FloatArith) : MessageDecoder TextAnnotation :=
  (MessageDecoder.ofStrictFields (textAnnotationFields A)).after fun out ↦
    { out with color := ⟨255, 255, 255, 255⟩, fontSize := Binary64.fourteen }

theorem decodeAnnotationText_writeAnnotationText {A : FloatArith} (hA : A.ColorsExact)
    (t : TextAnnotation) (hlen : (writeAnnotationText A t).length < 2 ^ 64) :
    (decodeAnnotationText A).decode (writeAnnotationText A t) {} = .ok t := by
  have hb := FieldBody.uses_ofStrictFields (textAnnotationFields A)
  exact decode_ofStrictFields (.append (.append (.append
    (parses_message hb 2 rfl (decodePoint2_writePoint2 _ _))
    (parses_bytes hb 3 rfl _))
    (parses_double hb 4 rfl _))
    (parses_message hb 5 rfl (decodeAnnotationColor_writeColor hA _ _))) hlen

/-! ## ImageAnnotations -/

structure ImageAnnotations where
  timestamp : Int64 := 0
  imageTopic : List UInt8 := []
  points : List PointsAnnotation := []
  circles : List CircleAnnotation := []
  texts : List TextAnnotation := []
  deriving DecidableEq, Repr

def serializeImageAnnotations (A : FloatArith) (annotations : ImageAnnotations) : List UInt8 :=
  (annotations.circles.flatMap fun circle ↦ Writer.message 1 (writeAnnotationCircle A circle)) ++
  (annotations.points.flatMap fun points ↦ Writer.message 2 (writeAnnotationPoints A points)) ++
  (annotations.texts.flatMap fun text ↦ Writer.message 3 (writeAnnotationText A text))

def imageAnnotationsElements (A : FloatArith) : List (ℕ × Element ImageAnnotations) :=
  [(1, .push "CircleAnnotation" (decodeAnnotationCircle A) {}
     fun out v ↦ { out with circles := out.circles ++ [v] }),
   (2, .push "PointsAnnotation" (decodeAnnotationPoints A) {}
     fun out v ↦ { out with points := out.points ++ [v] }),
   (3, .push "TextAnnotation" (decodeAnnotationText A) {}
     fun out v ↦ { out with texts := out.texts ++ [v] })]

def deserializeImageAnnotations (A : FloatArith) (data : List UInt8) :
    Except String ImageAnnotations :=
  deserializeContainer "ImageAnnotations" (imageAnnotationsElements A) {} data

/-- The part of the value that the wire format carries. -/
def ImageAnnotations.carried (annotations : ImageAnnotations) : ImageAnnotations :=
  { annotations with timestamp := 0, imageTopic := [] }

theorem deserializeImageAnnotations_serializeImageAnnotations {A : FloatArith}
    (hA : A.ColorsExact) {annotations : ImageAnnotations}
    (hradius : ∀ c ∈ annotations.circles, A.half (A.twice c.radius) = c.radius)
    (hne : serializeImageAnnotations A annotations ≠ [])
    (hlen : (serializeImageAnnotations A annotations).length < 2 ^ 64) :
    deserializeImageAnnotations A (serializeImageAnnotations A annotations) =
      .ok annotations.carried := by
  refine deserializeContainer_eq hne hlen ?_
  exact .append (.append
    (parses_containerElements 1 ImageAnnotations.circles
      (fun out v ↦ { out with circles := v }) rfl (fun _ _ ↦ rfl) (fun _ _ _ ↦ rfl) rfl _
      fun c hmem ↦ decodeAnnotationCircle_writeAnnotationCircle hA (hradius c hmem))
    (parses_containerElements 2 ImageAnnotations.points
      (fun out v ↦ { out with points := v }) rfl (fun _ _ ↦ rfl) (fun _ _ _ ↦ rfl) rfl _
      fun p _ ↦ decodeAnnotationPoints_writeAnnotationPoints hA p))
    (parses_containerElements 3 ImageAnnotations.texts
      (fun out v ↦ { out with texts := v }) rfl (fun _ _ ↦ rfl) (fun _ _ _ ↦ rfl) rfl _
      fun t _ ↦ decodeAnnotationText_writeAnnotationText hA t)

end PlotJuggler
