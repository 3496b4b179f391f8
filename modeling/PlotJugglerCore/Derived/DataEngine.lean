import PlotJugglerCore.Store.Flatteners
import PlotJugglerCore.Store.Runs

/-!
# The data engine behind the derived one

`engine.cpp` and `type_registry.cpp`, as far as a derived engine depends on them: datasets, topics
that are created while a program runs, and the registry of schemas. The engine is engine `0` of a
world, so other engines, all writers and the batches they have in flight go on working beside it.

A derived node writes through a writer that lives for one run of the node. It takes the place of
writer `0` of the world while the run lasts, and that writer is put back afterwards: what a writer
knows is its own, and a run meets the others only in the topics.
-/

namespace PlotJuggler

/-- The order in which a hash map is walked, given its keys in the order they went in. -/
structure WalkOrder where
  arrange : List ℕ → List ℕ
  perm : ∀ keys, (arrange keys).Perm keys

/-- Keys in the order they went in. -/
def WalkOrder.plain : WalkOrder := ⟨id, fun _ ↦ List.Perm.refl _⟩

/-- A topic map with one more entry. An entry that is there is not replaced. -/
def Engine.emplace (e : Engine) (walk : WalkOrder) (τ : ℕ) (s : TopicStorage) : Engine :=
  if h : τ ∈ e.order then e
  else
    { order := walk.arrange (e.order ++ [τ])
      topics := Function.update e.topics τ (some s)
      nodup := by
        rw [(walk.perm _).nodup_iff]
        exact List.nodup_append_comm.mp (List.nodup_cons.mpr ⟨h, e.nodup⟩)
      mem_order := fun σ ↦ by
        rw [(walk.perm _).mem_iff, List.mem_append, List.mem_singleton, e.mem_order]
        by_cases hσ : σ = τ
        · simp [hσ]
        · simp [hσ] }

/-! ## Schemas -/

/-- What the derived engine's calls report. -/
inductive DerivedError
  | datasetNotFound (datasetId : ℕ)
  | schemaNotFound (schemaId : ℕ)
  | schemaRegistered (name : String)
  | fieldRemoved (path : String)
  | fieldChangedType (path : String)
  | sisoInputNotFound (topicId : ℕ)
  | sisoNoLayout (topicId : ℕ)
  | sisoNotSingleColumn (columns : ℕ)
  | sisoNoPrimitive
  | sisoNameTaken (name : String) (datasetId : ℕ)
  | mimoNoInputs
  | mimoNoOutputs
  | mimoNullOp
  | mimoInputNotFound (topicId : ℕ)
  | mimoNoLayout (topicId : ℕ)
  | mimoNotSingleColumn (topicId columns : ℕ)
  | mimoNoPrimitive (topicId : ℕ)
  | mimoNameTaken (name : String) (datasetId : ℕ)
  | mimoKindCount (kinds names : ℕ)
  | cycle (topicId : ℕ)
  | removeNotFound (nodeId : ℕ)
  | recomputeNotFound (nodeId : ℕ)
  | runSisoInputNotFound (topicId : ℕ)
  | runMimoInputNotFound (topicId : ℕ)
  | write (e : WriteError)
  deriving DecidableEq, Repr

/-- Schemas with their names. Ids count from one and nothing is ever taken out. A `SchemaId` of the
source has thirty-two bits; here it is a natural number, and its wrap is not modelled. -/
abbrev TypeRegistry := List (String × TypeTreeNode)

namespace TypeRegistry

def lookup (r : TypeRegistry) : ℕ → Option TypeTreeNode
  | 0 => none
  | id + 1 => r[id]?.map Prod.snd

def findByName (r : TypeRegistry) (name : String) : Option ℕ :=
  (r.findIdx? fun p ↦ p.1 = name).map (· + 1)

def registerSchema (r : TypeRegistry) (name : String) (tree : TypeTreeNode) :
    TypeRegistry × Except DerivedError ℕ :=
  if (r.findByName name).isSome then (r, .error (.schemaRegistered name))
  else (r ++ [(name, tree)], .ok (r.length + 1))

/-- A name that is known gives its schema, whatever the tree is. -/
def registerOrGet (r : TypeRegistry) (name : String) (tree : TypeTreeNode) :
    TypeRegistry × Except DerivedError ℕ :=
  match r.findByName name with
  | some id => (r, .ok id)
  | none => r.registerSchema name tree

mutual

/-- `flatten_leaf_types_impl`. -/
def leafTypes : TypeTreeNode → String → List Leaf
  | .mk name kind primitiveType children elementType _, path =>
    match kind with
    | .struct => leafTypesOfChildren children (joinPath path name)
    | .array =>
      ((elementType.bind TypeTreeNode.primitiveType).map (joinPath path name, ·)).toList
    | _ => (primitiveType.map (joinPath path name, ·)).toList

def leafTypesOfChildren : List TypeTreeNode → String → List Leaf
  | [], _ => []
  | child :: children, path => leafTypes child path ++ leafTypesOfChildren children path

end

def flattenLeafTypes (root : TypeTreeNode) : List Leaf :=
  if root.kind = .struct then leafTypesOfChildren root.children ""
  else (root.primitiveType.map (root.name, ·)).toList

/-- Every old leaf must be there in the new tree with the same type. -/
def checkLeaves (new : List Leaf) : List Leaf → Option DerivedError
  | [] => none
  | (path, type) :: old =>
    match new.find? fun leaf ↦ leaf.1 = path with
    | none => some (.fieldRemoved path)
    | some leaf => if leaf.2 ≠ type then some (.fieldChangedType path) else checkLeaves new old

def evolveSchema (r : TypeRegistry) (id : ℕ) (tree : TypeTreeNode) :
    TypeRegistry × Option DerivedError :=
  match r.lookup id with
  | none => (r, some (.schemaNotFound id))
  | some old =>
    match checkLeaves (flattenLeafTypes tree) (flattenLeafTypes old) with
    | some e => (r, some e)
    | none => (r.modify (id - 1) fun p ↦ (p.1, tree), none)

end TypeRegistry

/-! ## The engine -/

/-- The counters of datasets and topics are natural numbers: the source keeps them in thirty-two
bits, and what happens after their wrap is not modelled. -/
structure DataEngine where
  world : World
  schemas : TypeRegistry := []
  datasets : List ℕ := []
  nextDatasetId : ℕ := 1
  nextTopicId : ℕ := 1

namespace DataEngine

def engine (d : DataEngine) : Engine := d.world.engines 0

def getTopicStorage (d : DataEngine) (τ : ℕ) : Option TopicStorage := d.engine.topics τ

def mapTopic (d : DataEngine) (τ : ℕ) (f : TopicStorage → TopicStorage) : DataEngine :=
  { d with world := d.world.setEngine 0 (d.engine.mapTopic τ f) }

/-- An id is used up even if the time domain is not known. -/
def createDataset (d : DataEngine) (domainKnown : Bool) : DataEngine :=
  { d with
    datasets := if domainKnown then d.datasets ++ [d.nextDatasetId] else d.datasets
    nextDatasetId := d.nextDatasetId + 1 }

/-- The engine behind a successful `createTopic`. -/
def addTopic (d : DataEngine) (walk : WalkOrder) (datasetId : ℕ) (desc : TopicDescriptor) :
    DataEngine :=
  { d with
    world := d.world.setEngine 0 (d.engine.emplace walk d.nextTopicId
      { topicId := d.nextTopicId, descriptor := { desc with datasetId := datasetId } })
    nextTopicId := d.nextTopicId + 1 }

def createTopic (d : DataEngine) (walk : WalkOrder) (datasetId : ℕ) (desc : TopicDescriptor) :
    DataEngine × Except DerivedError ℕ :=
  if datasetId ∉ d.datasets then (d, .error (.datasetNotFound datasetId))
  else if desc.schemaId ≠ 0 ∧ (d.schemas.lookup desc.schemaId).isNone then
    (d, .error (.schemaNotFound desc.schemaId))
  else (d.addTopic walk datasetId desc, .ok d.nextTopicId)

/-- `typeRegistry().registerOrGet`. -/
def registerOrGet (d : DataEngine) (name : String) (tree : TypeTreeNode) :
    DataEngine × Except DerivedError ℕ :=
  ({ d with schemas := (d.schemas.registerOrGet name tree).1 },
    (d.schemas.registerOrGet name tree).2)

/-! ### Calls from outside -/

/-- A call that some other part of the program makes. The world's own calls run with the schemas the
registry holds at that moment. -/
inductive Call
  | world (c : PlotJuggler.Call)
  | createDataset (domainKnown : Bool)
  | createTopic (datasetId : ℕ) (desc : TopicDescriptor)
  | registerSchema (name : String) (tree : TypeTreeNode)
  | registerOrGet (name : String) (tree : TypeTreeNode)
  | evolveSchema (id : ℕ) (tree : TypeTreeNode)

/-- The world's setup with the registry of this engine in it. -/
def outerSetup (S : Setup) (d : DataEngine) : Setup :=
  { S with schema := Function.update S.schema 0 d.schemas.lookup }

def step (S : Setup) (walk : WalkOrder) (d : DataEngine) : Call → Option DataEngine
  | .world c => (d.world.step (d.outerSetup S) c).map fun r ↦ { d with world := r.1 }
  | .createDataset domainKnown => some (d.createDataset domainKnown)
  | .createTopic datasetId desc => some (d.createTopic walk datasetId desc).1
  | .registerSchema name tree =>
    some { d with schemas := (d.schemas.registerSchema name tree).1 }
  | .registerOrGet name tree => some (d.registerOrGet name tree).1
  | .evolveSchema id tree => some { d with schemas := (d.schemas.evolveSchema id tree).1 }

/-! ### The writer of a run -/

/-- What the writer of a run sees: it belongs to engine `0`. -/
def setup (d : DataEngine) : Setup := ⟨fun _ ↦ 0, fun _ ↦ d.schemas.lookup⟩

def createWriter (W : World) : World :=
  { W with writers := Function.update W.writers 0 fun _ ↦ {} }

/-- Do something with a new writer. -/
def withWriter {β : Type*} (d : DataEngine) (body : World → Option (World × β)) :
    Option (DataEngine × β) :=
  (body (createWriter d.world)).map fun r ↦
    ({ d with
      world := { r.1 with writers := Function.update r.1.writers 0 (d.world.writers 0) } }, r.2)

/-- `commitChunks(writer.flushAll())` for a writer that has touched the given topics. -/
def commitAll (S : Setup) (walk : WalkOrder) (W : World) (topics : List ℕ) : World :=
  (W.flushAll S 0 (walk.arrange topics) (walk.arrange topics)).1.setEngine 0
    (((W.flushAll S 0 (walk.arrange topics) (walk.arrange topics)).1.engines 0).commitChunks
      (W.flushAll S 0 (walk.arrange topics) (walk.arrange topics)).2)

end DataEngine

end PlotJuggler
