import PlotJugglerCore.Store.Calls

/-!
# Calls that add columns

`ensureColumn` and `expandArray` change the column list of a topic. Both check their arguments first,
and `expandArray` says that it does so before it touches any state. By then it has raised the longest
length ever seen, and it counts a truncated sample before it finds that a row is in progress
(`grow_noTrace_iff`).
-/

namespace PlotJuggler

/-- A call that may add columns. -/
inductive GrowthCall
  | ensureColumn (path : String) (type : PrimitiveType)
  | expandArray (path : String) (newLength : ℕ) (type : PrimitiveType)

namespace TopicView

variable {schema : Option TypeTreeNode} {v v' : TopicView}

def grow (schema : Option TypeTreeNode) (v : TopicView) :
    GrowthCall → Option (TopicView × Except WriteError ℕ)
  | .ensureColumn path type => v.ensureColumn schema path type
  | .expandArray path newLength type => v.expandArray schema path newLength type

/-! ## Calls that fail -/

/-- All that others see of the topic, and all that the writer holds of its rows. -/
structure NoTrace (v v' : TopicView) : Prop where
  columnDescriptors : v'.storage.columnDescriptors = v.storage.columnDescriptors
  arrayExpansionCounts : v'.storage.arrayExpansionCounts = v.storage.arrayExpansionCounts
  maxObservedArrayLength : v'.storage.maxObservedArrayLength = v.storage.maxObservedArrayLength
  truncatedSampleCount : v'.storage.truncatedSampleCount = v.storage.truncatedSampleCount
  sealedChunks : v'.storage.sealedChunks = v.storage.sealedChunks
  builder : v'.writer.builder = v.writer.builder
  pending : v'.writer.pending = v.writer.pending

/-- The length moves no counter: it was reached before, and it is within the limit unless the array
is refused. -/
def NothingToCount (schema : Option TypeTreeNode) (v : TopicView) : GrowthCall → Prop
  | .ensureColumn _ _ => True
  | .expandArray path newLength _ =>
    newLength ≤ v.storage.maxObservedArrayLength ∧
      ∀ node, checkArray schema path = .ok node →
        newLength ≤ v.storage.descriptor.arrayExpansionLimit

theorem noTrace_ensureColumn {path : String} {type : PrimitiveType} {e : WriteError}
    (h : v.ensureColumn schema path type = some (v', .error e)) : NoTrace v v' := by
  -- an error leaves the loaded list behind and no more
  have hloaded : v' = v.ensureColsLoaded schema := by
    rw [ensureColumn] at h
    split at h
    · split_ifs at h
      · exact (Prod.mk.inj (Option.some.inj h)).1.symm
      · cases (Prod.mk.inj (Option.some.inj h)).2
    · split_ifs at h
      · exact (Prod.mk.inj (Option.some.inj h)).1.symm
      · cases (Prod.mk.inj (Option.some.inj h)).2
  rw [hloaded]
  constructor <;> simp

theorem noteTruncation_cases (v : TopicView) (newLength : ℕ) :
    (v.storage.descriptor.arrayExpansionLimit < newLength ∧
      v.noteTruncation newLength = v.mapStorage (·.incrementTruncatedSampleCount)) ∨
    (newLength ≤ v.storage.descriptor.arrayExpansionLimit ∧ v.noteTruncation newLength = v) := by
  rw [noteTruncation]
  split_ifs with hlong
  · exact .inl ⟨hlong, rfl⟩
  · exact .inr ⟨Nat.le_of_not_lt hlong, rfl⟩

/-- How `expandArray` fails: at the check of the array, or inside a row once the counters have
moved. -/
theorem expandArray_eq_error {path : String} {newLength : ℕ} {type : PrimitiveType} {e : WriteError}
    (h : v.expandArray schema path newLength type = some (v', .error e)) :
    (checkArray schema path = .error e ∧
      v' = v.mapStorage (·.updateMaxObservedArrayLength newLength)) ∨
    (∃ node, checkArray schema path = .ok node) ∧
      v' = (v.mapStorage (·.updateMaxObservedArrayLength newLength)).noteTruncation newLength := by
  rw [expandArray.eq_def] at h
  split_ifs at h
  · cases (Prod.mk.inj (Option.some.inj h)).2
  · rcases hcheck : checkArray schema path with e' | node
    · rw [hcheck] at h
      obtain ⟨rfl, herror⟩ := Prod.mk.inj (Option.some.inj h)
      exact .inl ⟨congrArg Except.error (Except.error.inj herror), rfl⟩
    · rw [hcheck] at h
      dsimp only at h
      rw [expandClamped] at h
      split_ifs at h
      · cases (Prod.mk.inj (Option.some.inj h)).2
      · exact .inr ⟨⟨node, rfl⟩, (Prod.mk.inj (Option.some.inj h)).1.symm⟩
      · rw [expandTo] at h
        split_ifs at h
        cases (Prod.mk.inj (Option.some.inj h)).2

/-- A call that fails leaves no trace exactly if its length moves no counter. -/
theorem grow_noTrace_iff {c : GrowthCall} {e : WriteError}
    (h : v.grow schema c = some (v', .error e)) : NoTrace v v' ↔ NothingToCount schema v c := by
  match c with
  | .ensureColumn path type => exact iff_of_true (noTrace_ensureColumn h) trivial
  | .expandArray path newLength type =>
    have hmax : max v.storage.maxObservedArrayLength newLength = v.storage.maxObservedArrayLength ↔
        newLength ≤ v.storage.maxObservedArrayLength := max_eq_left_iff
    rcases expandArray_eq_error h with ⟨hcheck, rfl⟩ | ⟨⟨node, hcheck⟩, rfl⟩
    · constructor
      · intro htrace
        refine ⟨hmax.mp htrace.maxObservedArrayLength, fun node hok ↦ ?_⟩
        rw [hcheck] at hok
        cases hok
      · rintro ⟨hseen, -⟩
        exact ⟨rfl, rfl, hmax.mpr hseen, rfl, rfl, rfl, rfl⟩
    · constructor
      · intro htrace
        rcases noteTruncation_cases (v.mapStorage (·.updateMaxObservedArrayLength newLength))
          newLength with ⟨-, hcount⟩ | ⟨hlimit, hsame⟩
        · rw [hcount] at htrace
          exact absurd htrace.truncatedSampleCount (Nat.succ_ne_self _)
        · rw [hsame] at htrace
          exact ⟨hmax.mp htrace.maxObservedArrayLength, fun _ _ ↦ hlimit⟩
      · rintro ⟨hseen, hlimit⟩
        have hshort : (v.mapStorage (·.updateMaxObservedArrayLength newLength)).noteTruncation
            newLength = v.mapStorage (·.updateMaxObservedArrayLength newLength) :=
          if_neg (Nat.not_lt.mpr (hlimit node hcheck))
        rw [hshort]
        exact ⟨rfl, rfl, hmax.mpr hseen, rfl, rfl, rfl, rfl⟩

/-- A topic with one array of points. -/
def cloudSchema : TypeTreeNode :=
  makeStruct "cloud" [.mk "points" .array none [] (some (makeStruct ""
    [makePrimitive "x" .float64, makePrimitive "y" .float64])) none]

def cloudView (seen : ℕ) : TopicView :=
  { storage :=
    { topicId := 1, descriptor := { name := "cloud", schemaId := 1 },
      maxObservedArrayLength := seen } }

theorem grow_noTrace_cloud : ∃ v' e, (cloudView 5).grow (some cloudSchema)
    (.expandArray "missing" 5 .float64) = some (v', .error e) ∧ NoTrace (cloudView 5) v' := by
  have h : (cloudView 5).grow (some cloudSchema) (.expandArray "missing" 5 .float64) =
    some ((cloudView 5).mapStorage (·.updateMaxObservedArrayLength 5),
      .error (.fieldNotFound "missing")) := rfl
  exact ⟨_, _, h, (grow_noTrace_iff h).mpr ⟨Nat.le_refl 5, fun _ hok ↦ nomatch hok⟩⟩

/-- An array that is not in the schema still counts as seen. -/
theorem not_noTrace : ∃ v' e,
    (cloudView 0).grow (some cloudSchema) (.expandArray "missing" 5 .float64) =
      some (v', .error e) ∧ ¬NoTrace (cloudView 0) v' := by
  refine ⟨_, .fieldNotFound "missing", rfl, fun h ↦ ?_⟩
  exact absurd h.maxObservedArrayLength (by decide)

end TopicView

end PlotJuggler
