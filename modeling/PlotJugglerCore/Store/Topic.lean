import PlotJugglerCore.Store.Chunk

/-!
# Topic storage

`topic_storage.cpp`: the sealed chunks of one topic in the order they were committed, and beside them
the column layout and the expansion counts that all writers of the topic share. The order check of
`appendSealedChunk` is the only one that guards the sequence of chunks: a chunk that starts before
the last one ends is refused.
-/

namespace PlotJuggler

structure TopicDescriptor where
  name : String
  schemaId : ℕ := 0
  datasetId : ℕ := 0
  maxChunkRows : ℕ := 1024
  arrayExpansionLimit : ℕ := 64
  deriving DecidableEq, Repr

/-- Ids and the counters of arrays are natural numbers, thirty-two bits in the source. The wrap of
none of them is modelled. -/
structure TopicStorage where
  topicId : ℕ
  descriptor : TopicDescriptor
  sealedChunks : List TopicChunk := []
  columnDescriptors : List ColumnDescriptor := []
  maxObservedArrayLength : ℕ := 0
  truncatedSampleCount : ℕ := 0
  /-- The entries of the map from array paths to expansion counts. -/
  arrayExpansionCounts : List (String × ℕ) := []
  deriving DecidableEq, Repr

namespace TopicStorage

def isEmpty (s : TopicStorage) : Bool := s.sealedChunks.isEmpty

def timeMin (s : TopicStorage) : Timestamp := (s.sealedChunks.head?.map (·.stats.tMin)).getD 0

def timeMax (s : TopicStorage) : Timestamp := (s.sealedChunks.getLast?.map (·.stats.tMax)).getD 0

/-- A chunk goes in unless it starts before the last one ends. -/
def accepts (s : TopicStorage) (chunk : TopicChunk) : Bool :=
  s.sealedChunks.getLast?.all fun last ↦ decide (last.stats.tMax ≤ chunk.stats.tMin)

def appendSealedChunk (s : TopicStorage) (chunk : TopicChunk) : Option TopicStorage :=
  if s.accepts chunk then some { s with sealedChunks := s.sealedChunks ++ [chunk] } else none

def evictBefore (s : TopicStorage) (keepMin : Timestamp) : TopicStorage :=
  { s with sealedChunks := s.sealedChunks.dropWhile fun c ↦ decide (c.stats.tMax < keepMin) }

def clearChunks (s : TopicStorage) : TopicStorage := { s with sealedChunks := [] }

def setColumnDescriptors (s : TopicStorage) (descs : List ColumnDescriptor) : TopicStorage :=
  { s with columnDescriptors := descs }

def updateMaxObservedArrayLength (s : TopicStorage) (observed : ℕ) : TopicStorage :=
  { s with maxObservedArrayLength := max s.maxObservedArrayLength observed }

def incrementTruncatedSampleCount (s : TopicStorage) : TopicStorage :=
  { s with truncatedSampleCount := s.truncatedSampleCount + 1 }

def arrayExpansionCount (s : TopicStorage) (path : String) : ℕ :=
  ((s.arrayExpansionCounts.find? fun p ↦ p.1 = path).map Prod.snd).getD 0

def setArrayExpansionCount (s : TopicStorage) (path : String) (count : ℕ) : TopicStorage :=
  { s with
    arrayExpansionCounts := (path, count) :: s.arrayExpansionCounts.filter fun p ↦ p.1 ≠ path }

/-- The part of `enforceRetention` about one topic. The difference wraps like the machine's. -/
def retain (s : TopicStorage) (window : Timestamp) : TopicStorage :=
  if s.isEmpty then s else s.evictBefore (s.timeMax - window)

end TopicStorage

end PlotJuggler
