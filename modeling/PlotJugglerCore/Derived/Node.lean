import PlotJugglerCore.Derived.DataEngine
import PlotJugglerCore.Lib.Loop

/-!
# Transforms and the nodes that run them

The first half of `derived_engine.cpp`. A transform is an object with state: `calculate` gets a
sample and two places to put its answer in, which hold what the last call left there. A node reads
the chunks of its inputs, hands every sample it has not seen to its transform, and writes the
answers through a writer of its own, which is flushed and committed at the end of the run.

A run returns an error with everything it has done up to then still in effect: the state of the
transform has moved on and the watermark has not. `none` stands for an assertion, a read of a column
that a chunk does not have, or an answer the transform has shrunk.
-/

namespace PlotJuggler

/-- A value on its way through a transform. The default of the variant is a signed zero. -/
inductive VarValue
  | int64 (v : Int64)
  | uint64 (v : UInt64)
  | double (v : Binary64)
  | string (v : List UInt8)
  deriving DecidableEq, Repr

instance : Inhabited VarValue := ⟨.int64 0⟩

/-! ## Reading and writing values -/

/-- `decode_as_varvalue`. -/
def decodeAsVarValue (chunk : TopicChunk) (col row : ℕ) : StorageKind → Option VarValue
  | .float32 => (chunk.readNumericAsDouble col row).map .double
  | .float64 => (chunk.readNumericAsDouble col row).map .double
  | .int32 => (chunk.readNumericAsInt64 col row).map .int64
  | .int64 => (chunk.readNumericAsInt64 col row).map .int64
  | .uint64 => (chunk.readNumericAsUint64 col row).map .uint64
  | .bool => (chunk.readBool col row).map fun b ↦ .int64 (if b then 1 else 0)
  | .string => (chunk.readString col row).map .string

/-- The fallback of `write_varvalue`: by way of a double, and a string counts as zero. -/
def VarValue.toDouble : VarValue → Binary64
  | .int64 v => .ofInt v.toInt
  | .uint64 v => .ofNat v.toNat
  | .double v => v
  | .string _ => .zero

/-- The value `write_varvalue` sets, if it sets one: a string column takes strings only. Integers go
to integer columns without the detour. -/
def VarValue.coerce (val : VarValue) : StorageKind → Option Value
  | .string =>
    match val with
    | .string s => some (.string s)
    | _ => none
  | .uint64 =>
    match val with
    | .uint64 u => some (.uint64 u)
    | .int64 i => some (.uint64 i.toUInt64)
    | _ => some (.uint64 (Int64.ofInt val.toDouble.truncate).toUInt64)
  | .int64 =>
    match val with
    | .int64 i => some (.int64 i)
    | .uint64 u => some (.int64 u.toInt64)
    | _ => some (.int64 (Int64.ofInt val.toDouble.truncate))
  | .int32 =>
    match val with
    | .int64 i => some (.int32 i.toInt32)
    | .uint64 u => some (.int32 u.toInt64.toInt32)
    | _ => some (.int32 (Int32.ofInt val.toDouble.truncate))
  | .float32 => some (.float32 val.toDouble.toBinary32)
  | .float64 => some (.float64 val.toDouble)
  | .bool => some (.bool (!val.toDouble.eq .zero))

namespace World

variable (S : Setup)

/-- `write_varvalue` into the row that writer `0` has open. -/
def writeVarValue (W : World) (τ : ℕ) (val : VarValue) (kind : StorageKind) : Option World :=
  match val.coerce kind with
  | some v => (W.topicCall S 0 τ (.set 0 v)).map Prod.fst
  | none => some W

/-- A row with one value. -/
def emitRow (W : World) (τ : ℕ) (t : Timestamp) (val : VarValue) (kind : StorageKind) :
    Option (World × Option DerivedError) :=
  (W.topicCall S 0 τ (.beginRow t)).bind fun r ↦
    match r.2 with
    | .failed e => some (r.1, some (.write e))
    | _ => (writeVarValue S r.1 τ val kind).bind fun W' ↦
      (W'.topicCall S 0 τ .finishRow).map fun r' ↦
        match r'.2 with
        | .failed e => (r'.1, some (.write e))
        | _ => (r'.1, none)

end World

/-! ## Single input, single output -/

/-- `ISISOTransform`: an object with its member variables. `calculate` is given what the two output
places hold and returns what they hold then. -/
structure SisoTransform where
  State : Type
  state : State
  reset : State → State
  outputKind : StorageKind → StorageKind
  calculate : State → Timestamp → VarValue → Timestamp × VarValue →
    State × Bool × Timestamp × VarValue

/-- The fields of a node with one input. -/
structure SisoNode where
  inputTopicId : ℕ
  inputKind : StorageKind
  outputKind : StorageKind
  outputTopicId : ℕ
  op : SisoTransform
  lastProcessedChunkId : ℕ := 0
  outValBuf : VarValue := .double .zero

/-- A node in the middle of a run: the world with the writer in it, and `out_ts`. -/
structure SisoRun where
  world : World
  node : SisoNode
  outTs : Timestamp := 0
  wroteAny : Bool := false

namespace SisoNode

/-- Hand one sample to the transform. -/
def calculate (n : SisoNode) (t : Timestamp) (input : VarValue) (outTs : Timestamp) :
    SisoNode × Bool × Timestamp :=
  let r := n.op.calculate n.op.state t input (outTs, n.outValBuf)
  ({ n with op := { n.op with state := r.1 }, outValBuf := r.2.2.2 }, r.2.1, r.2.2.1)

/-- The body of the loop over the rows of a chunk. -/
def runRow (S : Setup) (chunk : TopicChunk) (r : SisoRun) (i : ℕ) :
    Option (SisoRun × Option DerivedError) :=
  (decodeAsVarValue chunk 0 i r.node.inputKind).bind fun input ↦
    match r.node.calculate (chunk.timestamps.getD i 0) input r.outTs with
    | (n, false, outTs) => some ({ r with node := n, outTs := outTs }, none)
    | (n, true, outTs) =>
      (r.world.emitRow S n.outputTopicId outTs n.outValBuf n.outputKind).map fun q ↦
        match q.2 with
        | none => (⟨q.1, n, outTs, true⟩, none)
        | some e => (⟨q.1, n, outTs, r.wroteAny⟩, some e)

/-- The body of the loop over the chunks. -/
def runChunk (S : Setup) (r : SisoRun) (chunk : TopicChunk) :
    Option (SisoRun × Option DerivedError) :=
  if chunk.id ≤ r.node.lastProcessedChunkId then some (r, none)
  else Loop.run (runRow S chunk) (List.range chunk.stats.rowCount) r

/-- The largest id among the chunks and the watermark. -/
def maxSeen (n : SisoNode) (chunks : List TopicChunk) : ℕ :=
  chunks.foldl (fun seen chunk ↦ if chunk.id ≤ n.lastProcessedChunkId then seen else max seen chunk.id)
    n.lastProcessedChunkId

/-- The end of a run: commit if there is something, and move the watermark. -/
def finish (S : Setup) (walk : WalkOrder) (chunks : List TopicChunk) (r : SisoRun) : SisoRun :=
  { r with
    world := if r.wroteAny then DataEngine.commitAll S walk r.world [r.node.outputTopicId]
      else r.world
    node := { r.node with lastProcessedChunkId := r.node.maxSeen chunks } }

/-- `run_siso_incremental`. -/
def runIncremental (walk : WalkOrder) (d : DataEngine) (n : SisoNode) :
    Option (DataEngine × SisoNode × Option DerivedError) :=
  match d.getTopicStorage n.inputTopicId with
  | none => some (d, n, some (.runSisoInputNotFound n.inputTopicId))
  | some s =>
    d.withWriter fun W ↦
      (Loop.run (runChunk d.setup) s.sealedChunks { world := W, node := n }).map fun q ↦
        match q.2 with
        | some e => (q.1.world, q.1.node, some e)
        | none =>
          ((finish d.setup walk s.sealedChunks q.1).world,
            (finish d.setup walk s.sealedChunks q.1).node, none)

/-- The part of `recompute_batch` about the node. -/
def reset (n : SisoNode) : SisoNode :=
  { n with op := { n.op with state := n.op.reset n.op.state }, lastProcessedChunkId := 0 }

end SisoNode

/-! ## Many inputs, many outputs -/

/-- `IMIMOTransform`. The answer is a vector that the transform may resize. -/
structure MimoTransform where
  State : Type
  state : State
  reset : State → State
  outputKinds : List StorageKind → List StorageKind
  calculate : State → Timestamp → List VarValue → Timestamp × List VarValue →
    State × Bool × Timestamp × List VarValue

structure MimoNode where
  /-- The inputs with their kinds. -/
  inputs : List (ℕ × StorageKind)
  /-- The outputs with their kinds. -/
  outputs : List (ℕ × StorageKind)
  op : MimoTransform
  lastTs : Timestamp := Int64.minValue
  outBuf : List VarValue := []

/-- `SampleLoc`: where a sample lies. -/
structure SampleLoc where
  ts : Timestamp
  chunk : TopicChunk
  row : ℕ

structure MimoRun where
  world : World
  node : MimoNode
  wroteAny : Bool := false

namespace MimoNode

/-- The samples of a topic behind the watermark. A chunk that ends at or before it is passed over. -/
def newSamples (lastTs : Timestamp) (chunks : List TopicChunk) : List SampleLoc :=
  chunks.flatMap fun chunk ↦
    if chunk.stats.tMax ≤ lastTs then []
    else ((List.range chunk.stats.rowCount).filter fun r ↦
      decide (lastTs < chunk.timestamps.getD r 0)).map fun r ↦ ⟨chunk.timestamps.getD r 0, chunk, r⟩

/-- The samples of every input, or the reason to stop: an input that is not there, or `none` when
one has nothing new. -/
def collectSamples (d : DataEngine) (lastTs : Timestamp) :
    List (ℕ × StorageKind) → Except (Option DerivedError) (List (List SampleLoc))
  | [] => .ok []
  | (τ, _) :: inputs =>
    match d.getTopicStorage τ with
    | none => .error (some (.runMimoInputNotFound τ))
    | some s =>
      if (newSamples lastTs s.sealedChunks).isEmpty then .error none
      else (collectSamples d lastTs inputs).map (newSamples lastTs s.sealedChunks :: ·)

/-- The timestamps of the first input that all others have, with runs of equal ones cut to one. -/
def joinedTs : List (List SampleLoc) → List Timestamp
  | [] => []
  | first :: others =>
    (others.foldl (fun joined samples ↦
      joined.filter fun t ↦ samples.any fun s ↦ s.ts = t) (first.map SampleLoc.ts)).destutter (· ≠ ·)

/-- The last sample at a timestamp. -/
def lookupSample (samples : List SampleLoc) (t : Timestamp) : Option SampleLoc :=
  samples.reverse.find? fun s ↦ s.ts = t

/-- The values of all inputs at a timestamp. -/
def decodeInputs (t : Timestamp) : List ((ℕ × StorageKind) × List SampleLoc) → Option (List VarValue)
  | [] => some []
  | ((_, kind), samples) :: rest =>
    (lookupSample samples t).bind fun s ↦ (decodeAsVarValue s.chunk 0 s.row kind).bind fun v ↦
      (decodeInputs t rest).map (v :: ·)

/-- `resize`. -/
def resized (buf : List VarValue) (n : ℕ) : List VarValue :=
  buf.take n ++ List.replicate (n - buf.length) default

/-- The body of the loop over the outputs: output `k` of the answer. -/
def emitOutput (S : Setup) (t : Timestamp) (answer : List VarValue) (W : World)
    (out : (ℕ × StorageKind) × ℕ) : Option (World × Option DerivedError) :=
  answer[out.2]?.bind fun val ↦ W.emitRow S out.1.1 t val out.1.2

/-- The body of the loop over the joined timestamps. -/
def runJoin (S : Setup) (samples : List (List SampleLoc)) (r : MimoRun) (t : Timestamp) :
    Option (MimoRun × Option DerivedError) :=
  (decodeInputs t (r.node.inputs.zip samples)).bind fun inputs ↦
    let a := r.node.op.calculate r.node.op.state t inputs (t, r.node.outBuf)
    let n := { r.node with op := { r.node.op with state := a.1 }, outBuf := a.2.2.2 }
    if a.2.1 then
      (Loop.run (emitOutput S a.2.2.1 n.outBuf) n.outputs.zipIdx r.world).map fun q ↦
        match q.2 with
        | none => (⟨q.1, n, true⟩, none)
        | some e => (⟨q.1, n, r.wroteAny⟩, some e)
    else some ({ r with node := n }, none)

/-- The run behind the join: only when something is joined. -/
def runJoined (walk : WalkOrder) (d : DataEngine) (n : MimoNode) (samples : List (List SampleLoc))
    (joined : List Timestamp) : Option (DataEngine × MimoNode × Option DerivedError) :=
  d.withWriter fun W ↦
    (Loop.run (runJoin d.setup samples) joined
      { world := W, node := { n with outBuf := resized n.outBuf n.outputs.length } }).map fun q ↦
        match q.2 with
        | some e => (q.1.world, q.1.node, some e)
        | none =>
          (if q.1.wroteAny then
              DataEngine.commitAll d.setup walk q.1.world (n.outputs.map Prod.fst)
            else q.1.world,
            { q.1.node with lastTs := joined.getLast?.getD n.lastTs }, none)

/-- `run_mimo_incremental`. -/
def runIncremental (walk : WalkOrder) (d : DataEngine) (n : MimoNode) :
    Option (DataEngine × MimoNode × Option DerivedError) :=
  match collectSamples d n.lastTs n.inputs with
  | .error err => some (d, n, err)
  | .ok samples =>
    if joinedTs samples = [] then some (d, n, none)
    else runJoined walk d n samples (joinedTs samples)

/-- The part of `recompute_batch` about the node. -/
def reset (n : MimoNode) : MimoNode :=
  { n with op := { n.op with state := n.op.reset n.op.state }, lastTs := Int64.minValue }

end MimoNode

/-! ## Nodes -/

inductive NodeOp
  | siso (n : SisoNode)
  | mimo (n : MimoNode)

namespace NodeOp

/-- `all_input_topic_ids`. -/
def inputTopics : NodeOp → List ℕ
  | siso n => [n.inputTopicId]
  | mimo n => n.inputs.map Prod.fst

/-- `output_topic_ids`. -/
def outputTopics : NodeOp → List ℕ
  | siso n => [n.outputTopicId]
  | mimo n => n.outputs.map Prod.fst

def runIncremental (walk : WalkOrder) (d : DataEngine) :
    NodeOp → Option (DataEngine × NodeOp × Option DerivedError)
  | siso n => (n.runIncremental walk d).map (Prod.map id (Prod.map siso id))
  | mimo n => (n.runIncremental walk d).map (Prod.map id (Prod.map mimo id))

def reset : NodeOp → NodeOp
  | siso n => siso n.reset
  | mimo n => mimo n.reset

end NodeOp

/-- `DerivedNode`. The buffers that are filled before they are read are left out. -/
structure DerivedNode where
  id : ℕ
  op : NodeOp
  dirty : Bool := true

namespace DerivedNode

def inputTopics (n : DerivedNode) : List ℕ := n.op.inputTopics

def outputTopics (n : DerivedNode) : List ℕ := n.op.outputTopics

end DerivedNode

end PlotJuggler
