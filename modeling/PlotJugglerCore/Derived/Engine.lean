import Mathlib.Data.List.AList
import Mathlib.Data.List.Sort
import PlotJugglerCore.Derived.Node
import PlotJugglerCore.Lib.Explore
import PlotJugglerCore.Lib.TopologicalOrder

/-!
# The derived engine

The second half of `derived_engine.cpp`: the graph of nodes and its four index maps, the two ways to
add a node, removal, the topological order and the scheduler. The maps are kept apart as in the
source, and each function uses the map it uses there: the order and the spreading of dirt follow
`downstreamOf`, the search upstream follows `outputTopicToNode`, and commits follow `topicToNodes`.

A failing call can leave traces, so every call returns the engine behind it next to its result. The
scheduler also returns the nodes it ran, in order, which the program does not keep.
-/

namespace PlotJuggler

/-! ## Layout of an input -/

mutual

/-- `find_first_leaf`. -/
def findFirstLeaf : TypeTreeNode → Option PrimitiveType
  | .mk _ kind primitiveType children elementType _ =>
    match kind with
    | .struct => findFirstLeafOfChildren children
    | .array => findFirstLeafOfElement elementType
    | _ => primitiveType

def findFirstLeafOfChildren : List TypeTreeNode → Option PrimitiveType
  | [] => none
  | child :: children =>
    match findFirstLeaf child with
    | some type => some type
    | none => findFirstLeafOfChildren children

def findFirstLeafOfElement : Option TypeTreeNode → Option PrimitiveType
  | none => none
  | some element => findFirstLeaf element

end

/-- `storage_kind_to_primitive`. -/
def storageKindToPrimitive : StorageKind → PrimitiveType
  | .float32 => .float32
  | .float64 => .float64
  | .int32 => .int32
  | .int64 => .int64
  | .uint64 => .uint64
  | .bool => .bool
  | .string => .string

namespace DataEngine

/-- The number of columns of an input and the type of the first: from the schema, from the stored
layout, or from the first chunk. A source that finds no column gives way to the next. -/
def layoutOf (d : DataEngine) (s : TopicStorage) : ℕ × Option PrimitiveType :=
  match (d.schemas.lookup s.descriptor.schemaId).filter (countLeafFields · ≠ 0) with
  | some root => (countLeafFields root, findFirstLeaf root)
  | none =>
    match s.columnDescriptors with
    | col :: cols => (cols.length + 1, some col.logicalType)
    | [] =>
      match s.sealedChunks.head?.map (·.columns) with
      | some (col :: cols) => (cols.length + 1, some col.descriptor.logicalType)
      | _ => (0, none)

/-- An output: a schema with a single column, and a topic of it. -/
def createOutput (d : DataEngine) (walk : WalkOrder) (datasetId : ℕ) (name schemaName : String)
    (kind : StorageKind) : DataEngine × Except DerivedError ℕ :=
  match d.registerOrGet schemaName (makePrimitive "value" (storageKindToPrimitive kind)) with
  | (d', .error e) => (d', .error e)
  | (d', .ok id) =>
    d'.createTopic walk datasetId { name := name, schemaId := id, datasetId := datasetId }

end DataEngine

/-! ## The engine -/

/-- `nextNodeId` is a natural number: the wrap of a thirty-two bit `NodeId` is not modelled. -/
structure DerivedEngine where
  data : DataEngine
  nextNodeId : ℕ := 1
  nodes : AList fun _ : ℕ ↦ DerivedNode := ∅
  downstreamOf : AList fun _ : ℕ ↦ List ℕ := ∅
  topicToNodes : AList fun _ : ℕ ↦ List ℕ := ∅
  outputTopicToNode : AList fun _ : ℕ ↦ ℕ := ∅
  registeredOutputNames : AList fun _ : ℕ × String ↦ ℕ := ∅

namespace DerivedEngine

/-- `map[key]` where a missing entry counts as an empty list. -/
def entry (m : AList fun _ : ℕ ↦ List ℕ) (key : ℕ) : List ℕ := (m.lookup key).getD []

/-- `map[key].push_back(x)`. -/
def push (m : AList fun _ : ℕ ↦ List ℕ) (key x : ℕ) : AList fun _ : ℕ ↦ List ℕ :=
  m.insert key (entry m key ++ [x])

def inputTopicsOf (d : DerivedEngine) (id : ℕ) : List ℕ :=
  ((d.nodes.lookup id).map (·.inputTopics)).getD []

/-! ### Cycles -/

/-- The search of `check_cycle`, with the top of the stack first. -/
def cycleSearch (d : DerivedEngine) (outputs : List ℕ) : ℕ → List ℕ → List ℕ → Option ℕ
  | 0, _, _ => none
  | _ + 1, [], _ => none
  | fuel + 1, τ :: stack, visited =>
    if τ ∈ visited then cycleSearch d outputs fuel stack visited
    else if τ ∈ outputs then some τ
    else
      match d.outputTopicToNode.lookup τ with
      | none => cycleSearch d outputs fuel stack (τ :: visited)
      | some producer =>
        cycleSearch d outputs fuel
          (((d.inputTopicsOf producer).filter (· ∉ τ :: visited)).reverse ++ stack) (τ :: visited)

/-- Every topic is visited once and then puts the inputs of its producer on the stack. -/
def checkCycle (d : DerivedEngine) (inputs outputs : List ℕ) : Option ℕ :=
  d.cycleSearch outputs
    (inputs.length + (d.outputTopicToNode.entries.map fun p ↦ (d.inputTopicsOf p.2).length).sum)
    inputs.reverse []

/-! ### Adding a node with one input -/

/-- Everything `addSisoTransform` checks: the kinds of input and output. -/
def checkSiso (d : DerivedEngine) (τ : ℕ) (name : String) (datasetId : ℕ) (op : SisoTransform) :
    Except DerivedError (StorageKind × StorageKind) :=
  match d.data.getTopicStorage τ with
  | none => .error (.sisoInputNotFound τ)
  | some s =>
    match d.data.layoutOf s with
    | (0, _) => .error (.sisoNoLayout τ)
    | (1, none) => .error .sisoNoPrimitive
    | (1, some type) =>
      if (datasetId, name) ∈ d.registeredOutputNames then .error (.sisoNameTaken name datasetId)
      else
        match d.checkCycle [τ] [] with
        | some σ => .error (.cycle σ)
        | none => .ok (storageKindOf type, op.outputKind (storageKindOf type))
    | (n, _) => .error (.sisoNotSingleColumn n)

/-- Enter the node into the maps. -/
def registerSiso (d : DerivedEngine) (name : String) (datasetId : ℕ) (n : SisoNode) :
    DerivedEngine :=
  { d with
    nextNodeId := d.nextNodeId + 1
    registeredOutputNames := d.registeredOutputNames.insert (datasetId, name) n.outputTopicId
    topicToNodes := push d.topicToNodes n.inputTopicId d.nextNodeId
    outputTopicToNode := d.outputTopicToNode.insert n.outputTopicId d.nextNodeId
    downstreamOf :=
      match (d.outputTopicToNode.insert n.outputTopicId d.nextNodeId).lookup n.inputTopicId with
      | some producer => push d.downstreamOf producer d.nextNodeId
      | none => d.downstreamOf
    nodes := d.nodes.insert d.nextNodeId { id := d.nextNodeId, op := .siso n } }

def addSisoTransform (d : DerivedEngine) (walk : WalkOrder) (τ : ℕ) (name : String) (datasetId : ℕ)
    (op : SisoTransform) : DerivedEngine × Except DerivedError ℕ :=
  match d.checkSiso τ name datasetId op with
  | .error e => (d, .error e)
  | .ok kinds =>
    match d.data.createOutput walk datasetId name
        ("derived_siso_" ++ name ++ "_" ++ toString d.nextNodeId) kinds.2 with
    | (data, .error e) => ({ d with data := data }, .error e)
    | (data, .ok out) =>
      (registerSiso { d with data := data } name datasetId
        { inputTopicId := τ, inputKind := kinds.1, outputKind := kinds.2, outputTopicId := out,
          op := op }, .ok d.nextNodeId)

/-! ### Adding a node with many inputs -/

/-- The kinds of the inputs. -/
def inputKinds (d : DerivedEngine) : List ℕ → Except DerivedError (List StorageKind)
  | [] => .ok []
  | τ :: inputs =>
    match d.data.getTopicStorage τ with
    | none => .error (.mimoInputNotFound τ)
    | some s =>
      match d.data.layoutOf s with
      | (0, _) => .error (.mimoNoLayout τ)
      | (1, none) => .error (.mimoNoPrimitive τ)
      | (1, some type) => (d.inputKinds inputs).map (storageKindOf type :: ·)
      | (n, _) => .error (.mimoNotSingleColumn τ n)

/-- Everything `addMimoTransform` checks: the kinds of inputs and outputs. -/
def checkMimo (d : DerivedEngine) (inputs : List ℕ) (names : List String) (datasetId : ℕ)
    (op : Option MimoTransform) :
    Except DerivedError (MimoTransform × List StorageKind × List StorageKind) :=
  if inputs = [] then .error .mimoNoInputs
  else if names = [] then .error .mimoNoOutputs
  else
    match op with
    | none => .error .mimoNullOp
    | some op =>
      match d.inputKinds inputs with
      | .error e => .error e
      | .ok kinds =>
        match names.find? fun name ↦ (datasetId, name) ∈ d.registeredOutputNames with
        | some name => .error (.mimoNameTaken name datasetId)
        | none =>
          match d.checkCycle inputs [] with
          | some σ => .error (.cycle σ)
          | none =>
            if (op.outputKinds kinds).length ≠ names.length then
              .error (.mimoKindCount (op.outputKinds kinds).length names.length)
            else .ok (op, kinds, op.outputKinds kinds)

/-- A topic for every output. What was created before a failure stays. -/
def createOutputs (walk : WalkOrder) (datasetId nodeId : ℕ) :
    DataEngine → List ((String × StorageKind) × ℕ) → DataEngine × Except DerivedError (List ℕ)
  | data, [] => (data, .ok [])
  | data, ((name, kind), k) :: outputs =>
    match data.createOutput walk datasetId name
        ("derived_mimo_" ++ toString nodeId ++ "_" ++ toString k) kind with
    | (data, .error e) => (data, .error e)
    | (data, .ok out) =>
      ((createOutputs walk datasetId nodeId data outputs).1,
        (createOutputs walk datasetId nodeId data outputs).2.map (out :: ·))

/-- An edge from the producer of a topic, unless it is there. -/
def addDownstream (producers : AList fun _ : ℕ ↦ ℕ) (id : ℕ) (m : AList fun _ : ℕ ↦ List ℕ)
    (τ : ℕ) : AList fun _ : ℕ ↦ List ℕ :=
  match producers.lookup τ with
  | some producer => if id ∈ entry m producer then m else push m producer id
  | none => m

/-- Enter the node into the maps. -/
def registerMimo (d : DerivedEngine) (id : ℕ) (names : List String) (datasetId : ℕ)
    (n : MimoNode) : DerivedEngine :=
  let producers := n.outputs.foldl (fun m out ↦ m.insert out.1 id) d.outputTopicToNode
  { d with
    registeredOutputNames := (names.zip n.outputs).foldl
      (fun m p ↦ m.insert (datasetId, p.1) p.2.1) d.registeredOutputNames
    topicToNodes := n.inputs.foldl (fun m input ↦ push m input.1 id) d.topicToNodes
    outputTopicToNode := producers
    downstreamOf := n.inputs.foldl (fun m input ↦ addDownstream producers id m input.1)
      d.downstreamOf
    nodes := d.nodes.insert id { id := id, op := .mimo n } }

/-- The node id is used up before the outputs are created. -/
def addMimoTransform (d : DerivedEngine) (walk : WalkOrder) (inputs : List ℕ) (names : List String)
    (datasetId : ℕ) (op : Option MimoTransform) : DerivedEngine × Except DerivedError ℕ :=
  match d.checkMimo inputs names datasetId op with
  | .error e => (d, .error e)
  | .ok (op, inKinds, outKinds) =>
    match createOutputs walk datasetId d.nextNodeId d.data (names.zip outKinds).zipIdx with
    | (data, .error e) => ({ d with data := data, nextNodeId := d.nextNodeId + 1 }, .error e)
    | (data, .ok outs) =>
      (registerMimo { d with data := data, nextNodeId := d.nextNodeId + 1 } d.nextNodeId names
        datasetId { inputs := inputs.zip inKinds, outputs := outs.zip outKinds, op := op },
        .ok d.nextNodeId)

/-! ### Removing a node -/

/-- Erase the entry that holds the topic. -/
def eraseName (m : AList fun _ : ℕ × String ↦ ℕ) (τ : ℕ) : AList fun _ : ℕ × String ↦ ℕ :=
  match m.entries.find? fun p ↦ p.2 = τ with
  | some p => m.erase p.1
  | none => m

/-- Every list of a map without the node. -/
def dropNode (node : ℕ) (m : AList fun _ : ℕ ↦ List ℕ) : AList fun _ : ℕ ↦ List ℕ :=
  ⟨m.entries.map (Sigma.map id fun _ l ↦ l.filter (· ≠ node)), m.nodupKeys.map₂ _⟩

def removeNode (d : DerivedEngine) (id : ℕ) : DerivedEngine × Option DerivedError :=
  match d.nodes.lookup id with
  | none => (d, some (.removeNotFound id))
  | some n =>
    ({ d with
      topicToNodes := n.inputTopics.foldl
        (fun m τ ↦ m.insert τ ((entry m τ).filter (· ≠ id))) d.topicToNodes
      outputTopicToNode := n.outputTopics.foldl (fun m τ ↦ m.erase τ) d.outputTopicToNode
      registeredOutputNames := n.outputTopics.foldl eraseName d.registeredOutputNames
      downstreamOf := dropNode id (d.downstreamOf.erase id)
      nodes := d.nodes.erase id }, none)

/-! ### Order -/

/-- The edges into a node, counted over the whole of `downstreamOf`. -/
def inDegree (d : DerivedEngine) (id : ℕ) : ℕ :=
  (d.downstreamOf.entries.map fun p ↦ p.2.count id).sum

/-- The live nodes that the loop visits from a node. -/
def liveDownstream (d : DerivedEngine) (id : ℕ) : List ℕ :=
  (entry d.downstreamOf id).filter (· ∈ d.nodes)

def topologicalOrder (d : DerivedEngine) : List ℕ :=
  Kahn.order d.liveDownstream (List.insertionSort (· ≤ ·)) d.nodes.keys.length
    (fun id ↦ d.inDegree id) ((d.nodes.keys.filter (d.inDegree · = 0)).insertionSort (· ≤ ·))

/-! ### Dirt -/

def markDirty (nodes : AList fun _ : ℕ ↦ DerivedNode) (id : ℕ) : AList fun _ : ℕ ↦ DerivedNode :=
  match nodes.lookup id with
  | some n => nodes.insert id { n with dirty := true }
  | none => nodes

def onSourceCommitted (d : DerivedEngine) (changed : List ℕ) : DerivedEngine :=
  { d with nodes := (changed.flatMap (entry d.topicToNodes)).foldl markDirty d.nodes }

/-! ### Scheduling -/

/-- The nodes that produce the inputs of a node. -/
def producersOf (d : DerivedEngine) (id : ℕ) : List ℕ :=
  (d.inputTopicsOf id).filterMap fun τ ↦ d.outputTopicToNode.lookup τ

/-- `filter`: the live nodes among the given ones and all nodes upstream of them. -/
def upstreamOf (d : DerivedEngine) (active : List ℕ) : List ℕ :=
  Explore.closure d.producersOf d.nodes.keys.length (active.filter (· ∈ d.nodes))

/-- A scheduling run in progress: the engine, and the nodes that have run. -/
structure Schedule where
  engine : DerivedEngine
  ran : List ℕ := []

/-- The engine behind a successful run of a node: the node is clean and its consumers are dirty. -/
def afterRun (d : DerivedEngine) (data : DataEngine) (n : DerivedNode) (op : NodeOp) :
    DerivedEngine :=
  { d with
    data := data
    nodes := (entry d.downstreamOf n.id).foldl markDirty
      (d.nodes.insert n.id { n with op := op, dirty := false }) }

/-- The engine behind a failed run: the node is still dirty. -/
def afterFailure (d : DerivedEngine) (data : DataEngine) (n : DerivedNode) (op : NodeOp) :
    DerivedEngine :=
  { d with data := data, nodes := d.nodes.insert n.id { n with op := op } }

/-- The body of the loop over the order. -/
def scheduleNode (walk : WalkOrder) (considered : ℕ → Bool) (r : Schedule) (id : ℕ) :
    Option (Schedule × Option DerivedError) :=
  if considered id then
    (r.engine.nodes.lookup id).bind fun n ↦
      if n.dirty then
        (n.op.runIncremental walk r.engine.data).map fun q ↦
          match q.2.2 with
          | some e => (⟨r.engine.afterFailure q.1 n q.2.1, r.ran ++ [id]⟩, some e)
          | none => (⟨r.engine.afterRun q.1 n q.2.1, r.ran ++ [id]⟩, none)
      else some (r, none)
  else some (r, none)

/-- An empty set stands for all nodes. -/
def scheduleActive (d : DerivedEngine) (walk : WalkOrder) (active : List ℕ) :
    Option (Schedule × Option DerivedError) :=
  Loop.run (scheduleNode walk fun id ↦ active.isEmpty || decide (id ∈ d.upstreamOf active))
    d.topologicalOrder ⟨d, []⟩

def scheduleAll (d : DerivedEngine) (walk : WalkOrder) : Option (Schedule × Option DerivedError) :=
  d.scheduleActive walk []

/-! ### Recomputation -/

def recomputeBatch (d : DerivedEngine) (walk : WalkOrder) (id : ℕ) :
    Option (DerivedEngine × Option DerivedError) :=
  match d.nodes.lookup id with
  | none => some (d, some (.recomputeNotFound id))
  | some n =>
    let data := n.outputTopics.foldl (fun data τ ↦ data.mapTopic τ (·.clearChunks)) d.data
    (n.op.reset.runIncremental walk data).map fun q ↦
      match q.2.2 with
      | some e => (d.afterFailure q.1 n q.2.1, some e)
      | none => ({ d with
          data := q.1
          nodes := d.nodes.insert id { n with op := q.2.1, dirty := false } }, none)

/-! ### Runs -/

/-- A call of the derived engine's interface, or one of the data engine's. -/
inductive Call
  | data (c : DataEngine.Call)
  | addSisoTransform (τ : ℕ) (name : String) (datasetId : ℕ) (op : SisoTransform)
  | addMimoTransform (inputs : List ℕ) (names : List String) (datasetId : ℕ)
    (op : Option MimoTransform)
  | removeNode (id : ℕ)
  | onSourceCommitted (changed : List ℕ)
  | scheduleActive (active : List ℕ)
  | recomputeBatch (id : ℕ)

def step (S : Setup) (walk : WalkOrder) (d : DerivedEngine) : Call → Option DerivedEngine
  | .data c => (d.data.step S walk c).map fun data ↦ { d with data := data }
  | .addSisoTransform τ name datasetId op =>
    some (d.addSisoTransform walk τ name datasetId op).1
  | .addMimoTransform inputs names datasetId op =>
    some (d.addMimoTransform walk inputs names datasetId op).1
  | .removeNode id => some (d.removeNode id).1
  | .onSourceCommitted changed => some (d.onSourceCommitted changed)
  | .scheduleActive active => (d.scheduleActive walk active).map (·.1.engine)
  | .recomputeBatch id => (d.recomputeBatch walk id).map Prod.fst

def run (S : Setup) (walk : WalkOrder) (d : DerivedEngine) : List Call → Option DerivedEngine
  | [] => some d
  | c :: calls => (d.step S walk c).bind fun d' ↦ run S walk d' calls

/-- A new data engine in some world, and a derived engine over it. -/
def start (W : World) : DerivedEngine where
  data := { world := W.setEngine 0 (.create []) }

end DerivedEngine

end PlotJuggler
