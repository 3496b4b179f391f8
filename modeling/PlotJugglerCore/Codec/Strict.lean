import PlotJugglerCore.Codec.Unknown
import PlotJugglerCore.Wire.Strict

/-!
# What the image annotations decoder accepts

All decoders of `image_annotations_codec.cpp` are strict, so a buffer is accepted exactly when it is
not empty and splits, with the nested messages it carries. An accepted buffer is the fold of its
fields, and a field touches one of three lists or nothing, so fields of different lists may change
places.
-/

namespace PlotJuggler

variable {A : FloatArith}

open FieldReader MessageDecoder

/-! ## The tables -/

@[simp] theorem strict_point2 : decodePoint2.Strict builtinSchema .point2 :=
  strict_ofStrictFields (by
    simp [TableMatches, point2Fields, MessageType.fields, strict_double])

@[simp] theorem strict_annotationColor :
    (decodeAnnotationColor A).Strict builtinSchema .color :=
  strict_ofLocals (strict_ofStrictFields (by
    simp [TableMatches, colorFields, MessageType.fields, strict_double])) _

@[simp] theorem strict_annotationPoints :
    (decodeAnnotationPoints A).Strict builtinSchema .annotationPoints :=
  strict_ofStrictFields (by
    simp [TableMatches, pointsAnnotationFields, MessageType.fields, strict_double, enumerator,
      strict_varint, strict_message, strict_element])

@[simp] theorem strict_annotationCircle :
    (decodeAnnotationCircle A).Strict builtinSchema .annotationCircle :=
  strict_after (strict_ofStrictFields (by
    simp [TableMatches, circleAnnotationFields, MessageType.fields, strict_double,
      strict_message])) _

@[simp] theorem strict_annotationText :
    (decodeAnnotationText A).Strict builtinSchema .annotationText :=
  strict_after (strict_ofStrictFields (by
    simp [TableMatches, textAnnotationFields, MessageType.fields, strict_double, strict_bytes,
      strict_message])) _

theorem strict_imageAnnotations :
    ElementsStrict builtinSchema .imageAnnotations (imageAnnotationsElements A) := by
  simp [TableMatches, imageAnnotationsElements, MessageType.fields, Element.strict_push]

/-! ## The order of the fields -/

/-- A field that is an element of the list with number `n`. -/
def isElement (n : ℕ) (f : Tag × Payload) : Bool :=
  f.1.field = n ∧ f.2.type = .lengthDelimited

/-- The fields of the second list are those of the first in another order, but for the circles, the
point sets and the texts, which each keep their order. -/
structure Reordered (l l' : List (Tag × Payload)) : Prop where
  perm : l.Perm l'
  kept : ∀ n ∈ [1, 2, 3], l.filter (isElement n) = l'.filter (isElement n)

/-- What a circle, a point set or a text adds to its list. -/
def addedElement {τ : Type} (d : MessageDecoder τ) (init : τ) (f : Tag × Payload) : List τ :=
  match f.2 with
  | .lengthDelimited data => (d.meaning data init).toList
  | _ => []

/-- What one field of the container does to the value. -/
theorem meaning_imageAnnotations {name : String} {f : Tag × Payload} {s s₁ : ImageAnnotations}
    (h : (FieldBody.ofElements name (imageAnnotationsElements A)).meaning f.1 f.2 s = some s₁) :
    s₁ = { s with
      circles := s.circles ++
        if isElement 1 f then addedElement (decodeAnnotationCircle A) {} f else []
      points := s.points ++
        if isElement 2 f then addedElement (decodeAnnotationPoints A) {} f else []
      texts := s.texts ++
        if isElement 3 f then addedElement (decodeAnnotationText A) {} f else [] } := by
  obtain ⟨⟨n, type⟩, p⟩ := f
  simp only [FieldBody.ofElements] at h
  cases p with
  | lengthDelimited data =>
    rcases n with _ | _ | _ | _ | n
    · obtain rfl := Option.some.inj h
      simp [isElement]
    · obtain ⟨v, hv, rfl⟩ := Option.map_eq_some_iff.mp h
      simp [isElement, Payload.type, addedElement, hv]
    · obtain ⟨v, hv, rfl⟩ := Option.map_eq_some_iff.mp h
      simp [isElement, Payload.type, addedElement, hv]
    · obtain ⟨v, hv, rfl⟩ := Option.map_eq_some_iff.mp h
      simp [isElement, Payload.type, addedElement, hv]
    · obtain rfl := Option.some.inj h
      simp [isElement]
  | _ =>
    obtain rfl := Option.some.inj h
    simp [isElement, Payload.type]

/-- The fold of the fields: three lists, each of its own fields in their order. The timestamp and
the topic have no field. -/
theorem foldlM_imageAnnotations {name : String} {l : List (Tag × Payload)} {s x : ImageAnnotations}
    (h : l.foldlM (fun s f ↦ (FieldBody.ofElements name (imageAnnotationsElements A)).meaning
      f.1 f.2 s) s = some x) :
    x = { s with
      circles := s.circles ++
        (l.filter (isElement 1)).flatMap (addedElement (decodeAnnotationCircle A) {})
      points := s.points ++
        (l.filter (isElement 2)).flatMap (addedElement (decodeAnnotationPoints A) {})
      texts := s.texts ++
        (l.filter (isElement 3)).flatMap (addedElement (decodeAnnotationText A) {}) } := by
  induction l generalizing s with
  | nil =>
    obtain rfl := Option.some.inj h
    simp
  | cons f l ih =>
    rw [List.foldlM_cons] at h
    obtain ⟨s₁, hs₁, hrest⟩ := Option.bind_eq_some_iff.mp h
    rw [ih hrest, meaning_imageAnnotations hs₁]
    simp only [List.filter_cons, List.append_assoc]
    split_ifs <;> simp

/-- Exactly the buffers that are not empty and split are accepted, and the value does not depend on
how the circles, the point sets and the texts are interleaved. -/
theorem deserializeImageAnnotations_strict (A : FloatArith) :
    (∀ data, (∃ x, deserializeImageAnnotations A data = .ok x) ↔
      data ≠ [] ∧ builtinSchema.SplitsAll .imageAnnotations data) ∧
    ∀ data data' l l' x x', splitFields data = some l → splitFields data' = some l' →
      Reordered l l' → deserializeImageAnnotations A data = .ok x →
      deserializeImageAnnotations A data' = .ok x' → x = x' := by
  refine ⟨fun data ↦ deserializeContainer_isOk strict_imageAnnotations, ?_⟩
  intro data data' l l' x x' hl hl' h hx hx'
  have hfold : ∀ {data l x}, splitFields data = some l →
      deserializeImageAnnotations A data = .ok x →
      l.foldlM (fun s f ↦ (FieldBody.ofElements "ImageAnnotations"
        (imageAnnotationsElements A)).meaning f.1 f.2 s) {} = some x := by
    intro data l x hl hok
    obtain ⟨-, hmeaning⟩ :=
      (deserializeContainer_eq_ok fun _ _ ↦ strict_imageAnnotations.exact).mp hok
    rwa [FieldBody.messageMeaning, hl, Option.bind_some] at hmeaning
  rw [foldlM_imageAnnotations (hfold hl hx), foldlM_imageAnnotations (hfold hl' hx'),
    h.kept 1 (by simp), h.kept 2 (by simp), h.kept 3 (by simp)]

/-- A circle with a line one pixel wide. -/
def thinCircle : List UInt8 := [0x21, 0, 0, 0, 0, 0, 0, 0xf0, 0x3f]

/-- The text `A`. -/
def letterText : List UInt8 := [0x1a, 1, 0x41]

/-- Of two circles and a text, the text comes in the middle or first. -/
theorem deserializeImageAnnotations_strict_swapped :
    deserializeImageAnnotations .binary64
        (10 :: 9 :: thinCircle ++ 26 :: 3 :: letterText ++ [10, 0])
      = .ok { circles := [{ thickness := .one }, {}], texts := [{ text := [0x41] }] } ∧
    deserializeImageAnnotations .binary64
        (26 :: 3 :: letterText ++ 10 :: 9 :: thinCircle ++ [10, 0])
      = .ok { circles := [{ thickness := .one }, {}], texts := [{ text := [0x41] }] } := by
  have hx : deserializeImageAnnotations .binary64
      (10 :: 9 :: thinCircle ++ 26 :: 3 :: letterText ++ [10, 0])
        = .ok { circles := [{ thickness := .one }, {}], texts := [{ text := [0x41] }] } := by
    decide +kernel
  obtain ⟨x', hx'⟩ : ∃ x', deserializeImageAnnotations .binary64
      (26 :: 3 :: letterText ++ 10 :: 9 :: thinCircle ++ [10, 0]) = .ok x' := ⟨_, rfl⟩
  have heq := (deserializeImageAnnotations_strict .binary64).2 _ _
    [(⟨1, .lengthDelimited⟩, .lengthDelimited thinCircle),
      (⟨3, .lengthDelimited⟩, .lengthDelimited letterText),
      (⟨1, .lengthDelimited⟩, .lengthDelimited [])]
    [(⟨3, .lengthDelimited⟩, .lengthDelimited letterText),
      (⟨1, .lengthDelimited⟩, .lengthDelimited thinCircle),
      (⟨1, .lengthDelimited⟩, .lengthDelimited [])]
    _ x' rfl rfl ⟨.swap _ _ _, by decide⟩ hx hx'
  exact ⟨hx, heq ▸ hx'⟩

end PlotJuggler
