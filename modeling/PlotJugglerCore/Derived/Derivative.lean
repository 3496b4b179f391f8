import PlotJugglerCore.Derived.Session

/-!
# The derivative

`builtin_transforms.cpp`: a transform that remembers the sample before and answers with the slope
between the two, in units per second. Two samples with one time have the slope zero, and the first
sample has none. Nothing depends on how doubles are rounded, so their arithmetic is a parameter;
`DoubleArith.binary64` rounds to the nearest.
-/

namespace PlotJuggler

structure DoubleArith where
  sub : Binary64 → Binary64 → Binary64
  mul : Binary64 → Binary64 → Binary64
  div : Binary64 → Binary64 → Binary64

def DoubleArith.binary64 : DoubleArith := ⟨Binary64.sub, Binary64.mul, Binary64.div⟩

/-- `1e-9` -/
def nanosecond : Binary64 := 0x3E112E0BE826D695

structure DerivativeTransform where
  prevTime : Timestamp := 0
  prevValue : Binary64 := .zero
  hasPrev : Bool := false
  deriving DecidableEq, Repr

namespace DerivativeTransform

variable (A : DoubleArith)

def reset (_ : DerivativeTransform) : DerivativeTransform := {}

def outputKind (_ : StorageKind) : StorageKind := .float64

def calculate (self : DerivativeTransform) (time : Timestamp) (input : VarValue)
    (out : Timestamp × VarValue) : DerivativeTransform × Bool × Timestamp × VarValue :=
  let v := input.toDouble
  if !self.hasPrev then (⟨time, v, true⟩, false, out)
  else
    -- the difference of the times may wrap
    let dt := A.mul (.ofInt (time - self.prevTime).toInt) nanosecond
    (⟨time, v, true⟩, true, time,
      .double (if Binary64.lt .zero dt then A.div (A.sub v self.prevValue) dt else .zero))

def transform (self : DerivativeTransform) : SisoTransform where
  State := DerivativeTransform
  state := self
  reset := reset
  outputKind := outputKind
  calculate := calculate A

/-! ## Slopes -/

/-- The slope between two samples, at the time of the second. -/
def slope (p q : Timestamp × VarValue) : Timestamp × VarValue :=
  let dt := A.mul (.ofInt (q.1 - p.1).toInt) nanosecond
  (q.1, .double
    (if Binary64.lt .zero dt then A.div (A.sub q.2.toDouble p.2.toDouble) dt else .zero))

def slopes (samples : List (Timestamp × VarValue)) : List (Timestamp × VarValue) :=
  Transducer.consecutive (slope A) samples

theorem run_answer (samples : List (Timestamp × VarValue)) :
    (Transducer.run (transform A {}).answer {} samples).2 = slopes A samples := by
  rcases samples with _ | ⟨first, samples⟩
  · rfl
  · -- the first sample is remembered and not answered
    have hstep : ∀ p q : Timestamp × VarValue,
        (transform A {}).answer ⟨p.1, p.2.toDouble, true⟩ q =
          (⟨q.1, q.2.toDouble, true⟩, some (slope A p q)) :=
      fun _ _ ↦ rfl
    exact Transducer.run_remembering _ hstep first samples

/-- Whatever it has seen before, a transform that is reset gives the slopes. -/
theorem batch_transform (self : DerivativeTransform) (samples : List (Timestamp × VarValue)) :
    (transform A self).batch samples = slopes A samples :=
  run_answer A samples

theorem map_fst_slopes (samples : List (Timestamp × VarValue)) :
    (slopes A samples).map Prod.fst = (samples.map Prod.fst).tail := by
  rw [slopes, Transducer.consecutive, List.map_zipWith, ← List.map_tail]
  refine List.ext_getElem? fun i ↦ ?_
  rw [List.getElem?_zipWith, List.getElem?_map, List.getElem?_tail]
  rcases h : samples[i + 1]? with _ | q
  · rcases samples[i]? with _ | p <;> rfl
  · have hlt : i < samples.length := by
      have := (List.getElem?_eq_some_iff.mp h).1
      omega
    rw [List.getElem?_eq_getElem hlt]
    rfl

theorem contract_transform : (transform A {}).Contract where
  reset _ := rfl
  places self t x out := by
    obtain ⟨prevTime, prevValue, _ | _⟩ : DerivativeTransform := self
    · rfl
    · rfl
  ordered samples hsorted := by
    show ((Transducer.run (transform A {}).answer {} samples).2.map Prod.fst).Pairwise (· ≤ ·)
    rw [run_answer, map_fst_slopes]
    exact hsorted.sublist (List.tail_sublist _)

end DerivativeTransform

/-! ## In a session -/

/-- If the node has a derivative, in whatever state, its output has the slopes between the samples of
its input. -/
def SisoNode.Slopes (A : DoubleArith) (d : DataEngine) (n : SisoNode) : Prop :=
  ∀ self : DerivativeTransform, n.op = self.transform A →
    ∃ samples s o, d.getTopicStorage n.inputTopicId = some s ∧
      samples.map SisoNode.asRow = s.sealedChunks.flatMap (SisoNode.decodedRows n.inputKind) ∧
      d.getTopicStorage n.outputTopicId = some o ∧
        o.HoldsRows ((DerivativeTransform.slopes A samples).map (VarValue.row n.outputKind))

namespace DerivedEngine

variable {S : Setup} {walk : WalkOrder} {W : World} {events : List Event} {d : DerivedEngine}

/-- Three samples of a series whose derivative runs behind each commit. -/
def derivedRows : List Event :=
  oneSeries.map .call ++
    [.call (.addSisoTransform 1 "speed/dt" 1 (DerivativeTransform.transform .binary64 {}))] ++
    [(1000000000, 2), (3000000000, 8), (3500000000, 5)].flatMap fun p ↦
      valueRow p.1 (.ofNat p.2) ++
        [.call (.data (.world (.flush 1 1))), .commit 0, .call (.scheduleActive [1])]

end DerivedEngine

end PlotJuggler
