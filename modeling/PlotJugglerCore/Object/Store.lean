import Mathlib
import PlotJugglerCore.Lib.MachineInt
import PlotJugglerCore.Lib.PartitionPoint

/-!
# The object store

`object_store.cpp`: topics of opaque payloads, each a series of entries beside a vector of their
timestamps, a running count of the bytes it owns, and a retention budget. A payload is owned, and
then counted, or lazy: a callback of an arbitrary type `L`, run on every read.

Topics are found by walking a vector, so a pointer to a series is its position. The ids come from a
32-bit counter that nothing checks; the count of bytes is an unsigned difference that would wrap if an
entry were larger than the count. Both are modelled as they are. The mutexes are not: every operation
here runs alone.
-/

namespace PlotJuggler

namespace ObjectStore

structure Descriptor where
  datasetId : ℕ
  topicName : String
  metadataJson : String := ""
  deriving DecidableEq, Repr

/-- What a topic is found by. -/
def Descriptor.key (d : Descriptor) : ℕ × String := (d.datasetId, d.topicName)

/-- `std::variant<SharedBuffer, LazyCallback>`. -/
inductive Payload (L : Type*)
  | owned (bytes : List UInt8)
  | deferred (fetch : L)
  deriving DecidableEq, Repr

structure Entry (L : Type*) where
  timestamp : Int64
  payload : Payload L
  deriving DecidableEq, Repr

/-- The bytes an entry counts for. -/
def Entry.ownedSize {L : Type*} (e : Entry L) : ℕ :=
  match e.payload with
  | .owned bytes => bytes.length
  | .deferred _ => 0

structure RetentionBudget where
  timeWindowNs : Int64 := 0
  maxMemoryBytes : ℕ := 0
  deriving DecidableEq, Repr

structure Series (L : Type*) where
  descriptor : Descriptor
  entries : List (Entry L) := []
  entryTimestamps : List Int64 := []
  budget : RetentionBudget := {}
  memoryBytes : ℕ := 0
  deriving DecidableEq, Repr

namespace Series

variable {L : Type*}

/-- The difference of two `size_t`. -/
def subSize (m n : ℕ) : ℕ := if n ≤ m then m - n else m + 2 ^ 64 - n

def evictFront (s : Series L) : Series L :=
  match s.entries with
  | [] => s
  | front :: rest =>
    { s with
      entries := rest
      entryTimestamps := s.entryTimestamps.tail
      memoryBytes := subSize s.memoryBytes front.ownedSize }

/-- `while (!entries.empty() && cond) evictFront()`: every round removes an entry. -/
def evictWhile (cond : Series L → Bool) : ℕ → Series L → Series L
  | 0, s => s
  | n + 1, s => if !s.entries.isEmpty && cond s then evictWhile cond n s.evictFront else s

def evictWhileAll (cond : Series L → Bool) (s : Series L) : Series L :=
  evictWhile cond s.entries.length s

def evictBefore (s : Series L) (threshold : Int64) : Series L :=
  s.evictWhileAll fun s ↦ decide (s.entryTimestamps.headD 0 < threshold)

/-- `applyRetention`: first by time, then by memory. -/
def applyRetention (s : Series L) (newest : Int64) : Series L :=
  byMemory (if 0 < s.budget.timeWindowNs then s.evictBefore (newest - s.budget.timeWindowNs) else s)
where
  byMemory (s : Series L) : Series L :=
    if 0 < s.budget.maxMemoryBytes then
      s.evictWhileAll fun s ↦ decide (s.budget.maxMemoryBytes < s.memoryBytes)
    else s

/-- A timestamp that goes back is refused. -/
def refuses (s : Series L) (t : Int64) : Bool := s.entryTimestamps.getLast?.any (t < ·)

/-- `pushOwned` and `pushLazy` behind the checks. -/
def push (s : Series L) (t : Int64) (payload : Payload L) : Series L :=
  ({ s with
    entries := s.entries ++ [⟨t, payload⟩]
    entryTimestamps := s.entryTimestamps ++ [t]
    memoryBytes := s.memoryBytes + Entry.ownedSize (⟨t, payload⟩ : Entry L) } : Series L).applyRetention t

/-- How many entries do not lie behind `t`, by `std::upper_bound`. -/
def countUpTo (s : Series L) (t : Int64) : ℕ :=
  partitionPoint (fun u ↦ !decide (t < u)) s.entryTimestamps

def indexAt (s : Series L) (t : Int64) : Option ℕ :=
  match s.countUpTo t with
  | 0 => none
  | i + 1 => some i

/-- All entries gone, and nothing counted. -/
def clear (s : Series L) : Series L :=
  { s with entries := [], entryTimestamps := [], memoryBytes := 0 }

/-- The entries of `src` behind those of `s`. -/
def absorb (s src : Series L) : Series L :=
  { s with
    entries := s.entries ++ src.entries
    entryTimestamps := s.entryTimestamps ++ src.entryTimestamps
    memoryBytes := s.memoryBytes + src.memoryBytes }

/-- What a move leaves of the destination series. -/
def receive (s src : Series L) : Series L :=
  (s.absorb src).applyRetention ((s.absorb src).entryTimestamps.getLastD 0)

end Series

inductive StoreError
  | alreadyRegistered (name : String)
  | unknownTopic
  | notMonotonic
  | sameStore
  | noTopic (name : String) (datasetId : ℕ)
  | monotonicityViolation (name : String)
  deriving DecidableEq, Repr

end ObjectStore

open ObjectStore

structure ObjectStore (L : Type*) where
  topics : List (UInt32 × Series L) := []
  nextId : UInt32 := 1
  deriving DecidableEq, Repr

namespace ObjectStore

variable {L : Type*}

/-! ## Operations on one store -/

def registerTopic (st : ObjectStore L) (d : Descriptor) :
    ObjectStore L × Except StoreError UInt32 :=
  if st.topics.any fun p ↦ p.2.descriptor.key = d.key then
    (st, .error (.alreadyRegistered d.topicName))
  else
    ({ topics := st.topics ++ [(st.nextId, { descriptor := d })], nextId := st.nextId + 1 },
      .ok st.nextId)

/-- The position of the first topic with an id. -/
def position (st : ObjectStore L) (id : UInt32) : Option ℕ :=
  st.topics.findIdx? fun p ↦ p.1 = id

def findSeries (st : ObjectStore L) (id : UInt32) : Option (Series L) :=
  (st.topics.find? fun p ↦ p.1 = id).map Prod.snd

/-- Change the series at a position. -/
def modifyAt (st : ObjectStore L) (i : ℕ) (f : Series L → Series L) : ObjectStore L :=
  { st with topics := st.topics.modify i (Prod.map id f) }

/-- Change the series of a topic, if there is one. -/
def modifySeries (st : ObjectStore L) (id : UInt32) (f : Series L → Series L) : ObjectStore L :=
  match st.position id with
  | some i => st.modifyAt i f
  | none => st

def push (st : ObjectStore L) (id : UInt32) (t : Int64) (payload : Payload L) :
    ObjectStore L × Except StoreError Unit :=
  match st.findSeries id with
  | none => (st, .error .unknownTopic)
  | some s =>
    if s.refuses t then (st, .error .notMonotonic)
    else (st.modifySeries id (·.push t payload), .ok ())

def pushOwned (st : ObjectStore L) (id : UInt32) (t : Int64) (payload : List UInt8) :
    ObjectStore L × Except StoreError Unit :=
  st.push id t (.owned payload)

def pushLazy (st : ObjectStore L) (id : UInt32) (t : Int64) (fetch : L) :
    ObjectStore L × Except StoreError Unit :=
  st.push id t (.deferred fetch)

def setRetentionBudget (st : ObjectStore L) (id : UInt32) (budget : RetentionBudget) :
    ObjectStore L :=
  st.modifySeries id fun s ↦ { s with budget := budget }

def evictBefore (st : ObjectStore L) (id : UInt32) (threshold : Int64) : ObjectStore L :=
  st.modifySeries id (·.evictBefore threshold)

def evictAllBefore (st : ObjectStore L) (threshold : Int64) : ObjectStore L :=
  { st with topics := st.topics.map (Prod.map id (·.evictBefore threshold)) }

def removeTopic (st : ObjectStore L) (id : UInt32) : ObjectStore L :=
  { st with topics := st.topics.eraseP fun p ↦ p.1 = id }

def clear (_ : ObjectStore L) : ObjectStore L := {}

/-! ## Reading -/

def indexAt (st : ObjectStore L) (id : UInt32) (t : Int64) : Option ℕ :=
  (st.findSeries id).bind (·.indexAt t)

/-- `resolveEntry`, with `fetch` to run a callback. -/
def resolveEntry (fetch : L → List UInt8) (e : Entry L) : Int64 × List UInt8 :=
  (e.timestamp,
    match e.payload with
    | .owned bytes => bytes
    | .deferred f => fetch f)

def latestAt (fetch : L → List UInt8) (st : ObjectStore L) (id : UInt32) (t : Int64) :
    Option (Int64 × List UInt8) :=
  (st.findSeries id).bind fun s ↦ (s.indexAt t).bind fun i ↦
    s.entries[i]?.map (resolveEntry fetch)

/-! ## Moving everything to another store -/

/-- The position of the destination topic of a series. -/
def findMatch (dst : ObjectStore L) (s : Series L) : Option ℕ :=
  dst.topics.findIdx? fun p ↦ p.2.descriptor.key = s.descriptor.key

/-- The entries of `s` start before the newest one of the topic at position `j`. -/
def violates (dst : ObjectStore L) (j : ℕ) (s : Series L) : Bool :=
  dst.topics[j]?.any fun p ↦ p.2.entryTimestamps.getLast?.any fun last ↦
    s.entryTimestamps.headD 0 < last

/-- The first phase, over the source topics from position `i` on. -/
def plan (dst : ObjectStore L) : ℕ → List (UInt32 × Series L) →
    Except StoreError (List (ℕ × ℕ))
  | _, [] => .ok []
  | i, (_, s) :: rest =>
    if s.entryTimestamps.isEmpty then plan dst (i + 1) rest
    else
      match dst.findMatch s with
      | none => .error (.noTopic s.descriptor.topicName s.descriptor.datasetId)
      | some j =>
        if dst.violates j s then .error (.monotonicityViolation s.descriptor.topicName)
        else (plan dst (i + 1) rest).map ((i, j) :: ·)

/-- One step of the second phase. -/
def moveEntries (p : ObjectStore L × ObjectStore L) (step : ℕ × ℕ) : ObjectStore L × ObjectStore L :=
  match p.1.topics[step.1]? with
  | none => p
  | some (_, s) => (p.1.modifyAt step.1 Series.clear, p.2.modifyAt step.2 (·.receive s))

/-- `flushTo` on two different stores. -/
def flushTo (src dst : ObjectStore L) :
    (ObjectStore L × ObjectStore L) × Except StoreError Unit :=
  match plan dst 0 src.topics with
  | .error e => ((src, dst), .error e)
  | .ok steps => (steps.foldl moveEntries (src, dst), .ok ())

end ObjectStore

/-! ## Runs -/

namespace ObjectStore

/-- A call on store `k` of a family of stores. -/
inductive Call (L : Type*)
  | registerTopic (k : ℕ) (d : Descriptor)
  | pushOwned (k : ℕ) (id : UInt32) (t : Int64) (payload : List UInt8)
  | pushLazy (k : ℕ) (id : UInt32) (t : Int64) (fetch : L)
  | setRetentionBudget (k : ℕ) (id : UInt32) (budget : RetentionBudget)
  | evictBefore (k : ℕ) (id : UInt32) (threshold : Int64)
  | evictAllBefore (k : ℕ) (threshold : Int64)
  | flushTo (k k' : ℕ)
  | removeTopic (k : ℕ) (id : UInt32)
  | clear (k : ℕ)
  deriving DecidableEq, Repr

/-- The stores of a program. -/
abbrev Stores (L : Type*) := ℕ → ObjectStore L

variable {L : Type*}

/-- The stores behind a call, and the error it returned if it did. -/
def step (W : Stores L) : Call L → Stores L × Option StoreError
  | .registerTopic k d =>
    (Function.update W k ((W k).registerTopic d).1, errorOf ((W k).registerTopic d).2)
  | .pushOwned k id t payload =>
    (Function.update W k ((W k).pushOwned id t payload).1, errorOf ((W k).pushOwned id t payload).2)
  | .pushLazy k id t fetch =>
    (Function.update W k ((W k).pushLazy id t fetch).1, errorOf ((W k).pushLazy id t fetch).2)
  | .setRetentionBudget k id budget =>
    (Function.update W k ((W k).setRetentionBudget id budget), none)
  | .evictBefore k id threshold => (Function.update W k ((W k).evictBefore id threshold), none)
  | .evictAllBefore k threshold => (Function.update W k ((W k).evictAllBefore threshold), none)
  | .flushTo k k' =>
    if k = k' then (W, some .sameStore)
    else
      (Function.update (Function.update W k ((W k).flushTo (W k')).1.1) k'
        ((W k).flushTo (W k')).1.2, errorOf ((W k).flushTo (W k')).2)
  | .removeTopic k id => (Function.update W k ((W k).removeTopic id), none)
  | .clear k => (Function.update W k (W k).clear, none)
where
  errorOf {α : Type} : Except StoreError α → Option StoreError
    | .ok _ => none
    | .error e => some e

/-- The stores behind a sequence of calls. -/
def run (W : Stores L) (calls : List (Call L)) : Stores L := calls.foldl (fun W c ↦ (step W c).1) W

end ObjectStore

end PlotJuggler
