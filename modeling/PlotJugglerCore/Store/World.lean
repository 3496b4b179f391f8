import PlotJugglerCore.Store.Writer

/-!
# Engines, writers and the chunks between them

`engine.cpp`, and the system it is part of: engines with their topics, writers that each belong to
an engine, and batches of chunks that a flush has handed out and nobody has committed yet. A step is
one call of the public interface. The order in which a hash map is walked is a parameter wherever it
can be observed: `Engine.order` for the topics of an engine, and two arguments of `flushAll`.

Writers only meet in the storage of a topic and in the counter of chunk ids, and a batch can be
committed at any time after its flush and in any order with others: the interleavings are the runs
of `World.step`.
-/

namespace PlotJuggler

/-! ## Engines -/

/-- The topics of an engine, and the order the map is walked in: every topic once. -/
structure Engine where
  order : List ℕ
  topics : ℕ → Option TopicStorage
  nodup : order.Nodup
  mem_order : ∀ τ, τ ∈ order ↔ (topics τ).isSome

namespace Engine

def mapTopic (e : Engine) (τ : ℕ) (f : TopicStorage → TopicStorage) : Engine where
  order := e.order
  topics := Function.update e.topics τ ((e.topics τ).map f)
  nodup := e.nodup
  mem_order σ := by
    rw [e.mem_order σ]
    by_cases hσ : σ = τ
    · subst hσ
      rw [Function.update_self, Option.isSome_map]
    · rw [Function.update_of_ne hσ]

/-- One chunk of `commitChunks`: a refused chunk is dropped. -/
def commitChunk (e : Engine) (τ : ℕ) (chunk : TopicChunk) : Engine :=
  e.mapTopic τ fun s ↦ (s.appendSealedChunk chunk).getD s

def commitChunks (e : Engine) (batch : List (ℕ × TopicChunk)) : Engine :=
  batch.foldl (fun e p ↦ e.commitChunk p.1 p.2) e

def enforceRetention (e : Engine) (window : Timestamp) : Engine :=
  e.order.foldl (fun e τ ↦ e.mapTopic τ (·.retain window)) e

/-! ### Moving everything to another engine -/

inductive FlushError
  | sameEngine
  | noTopic (name : String) (datasetId : ℕ)
  | monotonicity (name : String)
  deriving DecidableEq, Repr

/-- The first topic, in map order, with the same dataset and name. -/
def findMatch (dst : Engine) (s : TopicStorage) : Option ℕ :=
  dst.order.find? fun σ ↦ (dst.topics σ).any fun d ↦
    d.descriptor.datasetId = s.descriptor.datasetId ∧ d.descriptor.name = s.descriptor.name

/-- The first phase of `flushTo`: where each source topic with chunks goes. -/
def flushPlan (src dst : Engine) : List ℕ → Except FlushError (List (ℕ × ℕ))
  | [] => .ok []
  | τ :: rest =>
    match src.topics τ with
    | none => flushPlan src dst rest
    | some s =>
      if s.isEmpty then flushPlan src dst rest
      else
        match dst.findMatch s with
        | none => .error (.noTopic s.descriptor.name s.descriptor.datasetId)
        | some σ =>
          if (dst.topics σ).any fun d ↦ !d.isEmpty && decide (s.timeMin < d.timeMax) then
            .error (.monotonicity s.descriptor.name)
          else (flushPlan src dst rest).map ((τ, σ) :: ·)

/-- One step of the second phase: the chunks of `τ` go behind those of `σ`. -/
def moveChunks (p : Engine × Engine) (step : ℕ × ℕ) : Engine × Engine :=
  (p.1.mapTopic step.1 (·.clearChunks),
   p.2.mapTopic step.2 fun d ↦
    { d with sealedChunks := d.sealedChunks ++ ((p.1.topics step.1).map (·.sealedChunks)).getD [] })

def flushTo (src dst : Engine) : Except FlushError (Engine × Engine) :=
  (flushPlan src dst src.order).map fun plan ↦ plan.foldl moveChunks (src, dst)

end Engine

/-! ## Calls -/

/-- A call of a writer on one topic. A scalar is appended by the three calls of a row
(`TopicView.appendScalar_eq_some`). -/
inductive TopicCall
  | beginRow (t : Timestamp)
  | set (i : ℕ) (v : Value)
  | setNull (i : ℕ)
  | finishRow
  | appendColumns (ts : List Timestamp) (cols : List ColumnData)
  | resolveField (path : String)
  | ensureColumn (path : String) (type : PrimitiveType)
  | expandArray (path : String) (newLength : ℕ) (type : PrimitiveType)
  deriving DecidableEq, Repr

/-- What a call returns. -/
inductive Outcome
  | ok
  | number (n : ℕ)
  | failed (e : WriteError)
  | flushFailed (e : Engine.FlushError)
  deriving DecidableEq, Repr

def Outcome.ofUnit : Except WriteError Unit → Outcome
  | .ok _ => .ok
  | .error e => .failed e

def Outcome.ofNat : Except WriteError ℕ → Outcome
  | .ok n => .number n
  | .error e => .failed e

def Outcome.isOk : Outcome → Bool
  | .ok => true
  | .number _ => true
  | .failed _ => false
  | .flushFailed _ => false

def TopicView.call (schema : Option TypeTreeNode) (v : TopicView) :
    TopicCall → Option (TopicView × Outcome)
  | .beginRow t => (v.beginRow schema t).map (Prod.map id .ofUnit)
  | .set i x => (v.set i x).map (·, .ok)
  | .setNull i => (v.setNull i).map (·, .ok)
  | .finishRow => v.finishRow.map (Prod.map id .ofUnit)
  | .appendColumns ts cols => (v.appendColumns schema ts cols).map (Prod.map id .ofUnit)
  | .resolveField path => some (Prod.map id .ofNat (v.resolveField schema path))
  | .ensureColumn path type => (v.ensureColumn schema path type).map (Prod.map id .ofNat)
  | .expandArray path n type => (v.expandArray schema path n type).map (Prod.map id .ofNat)

/-- A topic that does not exist: an error, or an assertion. -/
def TopicCall.onMissingTopic (τ : ℕ) : TopicCall → Option Outcome
  | .set _ _ => none
  | .setNull _ => none
  | .resolveField _ => none
  | .finishRow => some (.failed (.noActiveRow τ))
  | _ => some (.failed (.topicNotFound τ))

inductive Call
  | topic (w τ : ℕ) (c : TopicCall)
  | flush (w τ : ℕ)
  | flushAll (w : ℕ) (pendingOrder builderOrder : List ℕ)
  /-- Commit batch `k` of those in flight to engine `e`. -/
  | commitChunks (e k : ℕ)
  | evictBefore (e τ : ℕ) (t : Timestamp)
  | enforceRetention (e : ℕ) (window : Timestamp)
  | clearChunks (e τ : ℕ)
  | flushTo (e e' : ℕ)
  deriving DecidableEq, Repr

/-! ## The world -/

/-- What stays the same: the engine of each writer and the schemas of each engine. -/
structure Setup where
  home : ℕ → ℕ
  schema : ℕ → ℕ → Option TypeTreeNode

structure World where
  engines : ℕ → Engine
  writers : ℕ → ℕ → TopicWriter
  inFlight : List (List (ℕ × TopicChunk)) := []
  nextChunkId : ℕ := 1

namespace World

variable (S : Setup)

def setEngine (W : World) (e : ℕ) (engine : Engine) : World :=
  { W with engines := Function.update W.engines e engine }

/-- What writer `w` sees of topic `τ`. -/
def view (W : World) (w τ : ℕ) : Option TopicView :=
  ((W.engines (S.home w)).topics τ).map fun s ↦ ⟨s, W.writers w τ, W.nextChunkId⟩

def setWriter (W : World) (w τ : ℕ) (tw : TopicWriter) : World :=
  { W with writers := Function.update W.writers w (Function.update (W.writers w) τ tw) }

/-- The world after a call of writer `w` on topic `τ` left the view `v`. -/
def putView (W : World) (w τ : ℕ) (v : TopicView) : World :=
  { (W.setWriter w τ v.writer).setEngine (S.home w)
      ((W.engines (S.home w)).mapTopic τ fun _ ↦ v.storage) with
    nextChunkId := v.nextChunkId }

/-- The schema a writer finds for a topic. -/
def schemaOf (w : ℕ) (v : TopicView) : Option TypeTreeNode :=
  S.schema (S.home w) v.storage.descriptor.schemaId

def topicCall (W : World) (w τ : ℕ) (c : TopicCall) : Option (World × Outcome) :=
  match W.view S w τ with
  | none => (c.onMissingTopic τ).map (W, ·)
  | some v => (v.call (schemaOf S w v) c).map fun r ↦ (W.putView S w τ r.1, r.2)

/-- Flush one topic: the world behind, and the chunks. -/
def flushTopic (W : World) (w τ : ℕ) : World × List (ℕ × TopicChunk) :=
  match W.view S w τ with
  | none => (W, [])
  | some v => (W.putView S w τ v.flush.1, v.flush.2.map (τ, ·))

/-- The first pass of `flushAll`: hand out what is pending. -/
def takePending (W : World) (w τ : ℕ) : World × List (ℕ × TopicChunk) :=
  (W.setWriter w τ { W.writers w τ with pending := [] }, (W.writers w τ).pending.map (τ, ·))

/-- Do `f` topic by topic and collect the chunks. -/
def collect (f : World → ℕ → World × List (ℕ × TopicChunk)) :
    World → List ℕ → World × List (ℕ × TopicChunk)
  | W, [] => (W, [])
  | W, τ :: order =>
    ((collect f (f W τ).1 order).1, (f W τ).2 ++ (collect f (f W τ).1 order).2)

/-- All pending chunks first, then a chunk from every builder with rows. The two maps are walked in
their own orders. -/
def flushAll (W : World) (w : ℕ) (pendingOrder builderOrder : List ℕ) :
    World × List (ℕ × TopicChunk) :=
  addBatch (collect (fun W τ ↦ W.takePending w τ) W pendingOrder)
where
  addBatch (p : World × List (ℕ × TopicChunk)) : World × List (ℕ × TopicChunk) :=
    ((collect (fun W τ ↦ W.flushTopic S w τ) p.1 builderOrder).1,
     p.2 ++ (collect (fun W τ ↦ W.flushTopic S w τ) p.1 builderOrder).2)

/-- Hand a batch over to the caller. -/
def handOut (p : World × List (ℕ × TopicChunk)) : World :=
  { p.1 with inFlight := p.1.inFlight ++ [p.2] }

def step (W : World) : Call → Option (World × Outcome)
  | .topic w τ c => W.topicCall S w τ c
  | .flush w τ => some (handOut (W.flushTopic S w τ), .ok)
  | .flushAll w order order' => some (handOut (W.flushAll S w order order'), .ok)
  | .commitChunks e k =>
    some ({ W.setEngine e ((W.engines e).commitChunks (W.inFlight.getD k [])) with
      inFlight := W.inFlight.eraseIdx k }, .ok)
  | .evictBefore e τ t =>
    some (W.setEngine e ((W.engines e).mapTopic τ (·.evictBefore t)), .ok)
  | .enforceRetention e window =>
    some (W.setEngine e ((W.engines e).enforceRetention window), .ok)
  | .clearChunks e τ => some (W.setEngine e ((W.engines e).mapTopic τ (·.clearChunks)), .ok)
  | .flushTo e e' =>
    if e = e' then some (W, .flushFailed .sameEngine)
    else
      match (W.engines e).flushTo (W.engines e') with
      | .error err => some (W, .flushFailed err)
      | .ok p => some ((W.setEngine e p.1).setEngine e' p.2, .ok)

/-- A run: every call behind the other. -/
def run (W : World) : List Call → Option World
  | [] => some W
  | c :: calls => (W.step S c).bind fun r ↦ run r.1 calls

end World

end PlotJuggler
