import Mathlib.Logic.Relation
import PlotJugglerCore.Store.World

/-!
# What a call does, step by step

Every call of a writer on a topic is a path of micro steps: load the column list, open a builder,
one operation of the builder, seal it, grow the layout, write a counter. An invariant of the view is
proved for each micro step and then holds behind every call (`TopicView.call_path`).

The loop of `appendColumns` needs an invariant of its own. A builder that a writer keeps has room for
another row, or the topic allows no rows at all: `Fits`. In the first case every round takes a row,
and in the second the loop never ends, so whatever a loop that ends has appended came in slices
with rows in them.
-/

namespace PlotJuggler

/-! ## Room in the builder -/

/-- A builder as a writer keeps it: nothing half appended, and not full unless it was full from the
start. -/
structure TopicChunkBuilder.Fits (limit : ℕ) (b : TopicChunkBuilder) : Prop where
  maxRows : b.maxRows = limit
  pending : b.bulkPendingRows = 0
  room : b.rowCount < limit ∨ b.rowCount = 0

/-- Equal but for the counters of array lengths. -/
structure TopicStorage.SameContents (s s' : TopicStorage) : Prop where
  topicId : s'.topicId = s.topicId
  descriptor : s'.descriptor = s.descriptor
  sealedChunks : s'.sealedChunks = s.sealedChunks
  columnDescriptors : s'.columnDescriptors = s.columnDescriptors

namespace TopicView

def Fits (v : TopicView) : Prop :=
  ∀ b, v.writer.builder = some b → b.Fits v.storage.descriptor.maxChunkRows

variable {schema : Option TypeTreeNode} {v v' : TopicView} {b b' : TopicChunkBuilder}

/-! ### The helpers -/

@[simp] theorem setBuilder_builder : (v.setBuilder b).writer.builder = some b := rfl

@[simp] theorem setBuilder_columns : (v.setBuilder b).writer.columns = v.writer.columns := rfl

@[simp] theorem setBuilder_pending : (v.setBuilder b).writer.pending = v.writer.pending := rfl

@[simp] theorem setBuilder_storage : (v.setBuilder b).storage = v.storage := rfl

@[simp] theorem stage_builder : (v.stage b).writer.builder = none := rfl

@[simp] theorem stage_columns : (v.stage b).writer.columns = v.writer.columns := rfl

@[simp] theorem stage_storage : (v.stage b).storage = v.storage := rfl

@[simp] theorem stage_pending :
    (v.stage b).writer.pending = v.writer.pending ++ [b.sealChunk v.nextChunkId] := rfl

@[simp] theorem ensureColsLoaded_storage : (v.ensureColsLoaded schema).storage = v.storage := by
  rw [ensureColsLoaded]
  split_ifs <;> rfl

@[simp] theorem ensureColsLoaded_builder :
    (v.ensureColsLoaded schema).writer.builder = v.writer.builder := by
  rw [ensureColsLoaded]
  split_ifs <;> rfl

@[simp] theorem ensureColsLoaded_pending :
    (v.ensureColsLoaded schema).writer.pending = v.writer.pending := by
  rw [ensureColsLoaded]
  split_ifs <;> rfl

theorem ensureColsLoaded_columns : (v.ensureColsLoaded schema).writer.columns
    = if v.writer.columns ≠ [] then v.writer.columns else loadColumns schema v.storage := by
  rw [ensureColsLoaded]
  split_ifs <;> rfl

theorem getOrCreateBuilder_of_some (hb : v.writer.builder = some b) :
    v.getOrCreateBuilder schema = v := by
  rw [getOrCreateBuilder, hb]

theorem getOrCreateBuilder_of_none (hb : v.writer.builder = none) :
    v.getOrCreateBuilder schema
      = (v.ensureColsLoaded schema).setBuilder (v.ensureColsLoaded schema).newBuilder := by
  rw [getOrCreateBuilder, hb]

@[simp] theorem getOrCreateBuilder_builder :
    (v.getOrCreateBuilder schema).writer.builder = some (v.currentBuilder schema) := by
  rcases hb : v.writer.builder with _ | b
  · rw [getOrCreateBuilder_of_none hb, currentBuilder, hb]
    rfl
  · rw [getOrCreateBuilder_of_some hb, currentBuilder, hb]
    rfl

@[simp] theorem getOrCreateBuilder_storage :
    (v.getOrCreateBuilder schema).storage = v.storage := by
  rcases hb : v.writer.builder with _ | b
  · rw [getOrCreateBuilder_of_none hb, setBuilder_storage, ensureColsLoaded_storage]
  · rw [getOrCreateBuilder_of_some hb]

theorem currentBuilder_getOrCreateBuilder :
    (v.getOrCreateBuilder schema).currentBuilder schema = v.currentBuilder schema := by
  rw [currentBuilder, getOrCreateBuilder_builder]
  rfl

@[simp] theorem putBack_storage : (v.putBack b).storage = v.storage := by
  rw [putBack_eq]
  split_ifs <;> rfl

@[simp] theorem putBack_columns : (v.putBack b).writer.columns = v.writer.columns := by
  rw [putBack_eq]
  split_ifs <;> rfl

@[simp] theorem sealBeforeLayoutChange_storage : v.sealBeforeLayoutChange.storage = v.storage := by
  rw [sealBeforeLayoutChange]
  split
  · split_ifs <;> rfl
  · rfl

@[simp] theorem sealBeforeLayoutChange_columns :
    v.sealBeforeLayoutChange.writer.columns = v.writer.columns := by
  rw [sealBeforeLayoutChange]
  split
  · split_ifs <;> rfl
  · rfl

@[simp] theorem sealBeforeLayoutChange_builder : v.sealBeforeLayoutChange.writer.builder = none := by
  rw [sealBeforeLayoutChange]
  split
  · split_ifs <;> rfl
  · assumption

/-! ### Fitting -/

theorem Fits.currentBuilder (hv : v.Fits) :
    (v.currentBuilder schema).Fits v.storage.descriptor.maxChunkRows := by
  rcases hb : v.writer.builder with _ | b
  · rw [TopicView.currentBuilder, hb]
    exact ⟨by simp [newBuilder, TopicChunkBuilder.new], rfl, .inr rfl⟩
  · rw [TopicView.currentBuilder, hb]
    exact hv b hb

theorem fits_setBuilder (hb : b.Fits v.storage.descriptor.maxChunkRows) :
    (v.setBuilder b).Fits := by
  rintro b' hb'
  obtain rfl := Option.some.inj hb'
  exact hb

theorem fits_of_builder_eq_none (hb : v.writer.builder = none) : v.Fits := by
  intro b hb'
  rw [hb] at hb'
  cases hb'

theorem fits_getOrCreateBuilder (hv : v.Fits) : (v.getOrCreateBuilder schema).Fits := by
  intro b hb
  rw [getOrCreateBuilder_builder] at hb
  obtain rfl := Option.some.inj hb
  rw [getOrCreateBuilder_storage]
  exact hv.currentBuilder

theorem fits_putBack (hmax : b.maxRows = v.storage.descriptor.maxChunkRows)
    (hpending : b.bulkPendingRows = 0) : (v.putBack b).Fits := by
  rw [putBack_eq]
  split_ifs with hfull
  · exact fits_of_builder_eq_none rfl
  · refine fits_setBuilder ⟨hmax, hpending, .inl ?_⟩
    rw [TopicChunkBuilder.isFull, hmax, decide_eq_true_eq] at hfull
    exact Nat.lt_of_not_le hfull

/-! ## The loop of `appendColumns` -/

variable {ts : List Timestamp} {cols : List ColumnData}

theorem fits_putBack_batch (hv : v.Fits) {calls : List TopicChunkBuilder.BulkCall}
    (h : (v.currentBuilder schema).runBatch ts calls = some b) :
    ((v.getOrCreateBuilder schema).putBack b).Fits := by
  have hfit : (v.currentBuilder schema).Fits v.storage.descriptor.maxChunkRows := hv.currentBuilder
  obtain ⟨hafter, -, -⟩ := TopicChunkBuilder.runBatch_eq_some hfit.pending h
  apply fits_putBack
  · rw [hafter.frame, getOrCreateBuilder_storage]
    exact hfit.maxRows
  · rw [hafter.frame]
    exact hfit.pending

/-- A topic whose chunks may hold no row: the loop does not end. -/
theorem appendLoop_eq_none (hv : v.Fits) (hzero : v.storage.descriptor.maxChunkRows = 0)
    {fuel o : ℕ} (ho : o < ts.length) : appendLoop schema ts cols fuel o v = none := by
  induction fuel generalizing v with
  | zero => rw [appendLoop, if_pos ho]
  | succ fuel ih =>
    have hbatch : v.batchSize schema ts.length o = 0 := by
      rw [batchSize, TopicChunkBuilder.remainingCapacity, hv.currentBuilder.maxRows, hzero]
      simp
    rw [appendLoop, if_pos ho, hbatch, Option.bind_eq_none_iff]
    intro v₁ hslice
    obtain ⟨b, hb, rfl⟩ := Option.map_eq_some_iff.mp hslice
    apply ih (fits_putBack_batch hv hb)
    rw [putBack_storage, getOrCreateBuilder_storage, hzero]

/-- A loop that ends takes at least one row in every round. -/
theorem batchSize_pos (hv : v.Fits) {fuel o : ℕ} (ho : o < ts.length)
    (h : appendLoop schema ts cols fuel o v = some v') : 0 < v.batchSize schema ts.length o := by
  have hfit : (v.currentBuilder schema).Fits v.storage.descriptor.maxChunkRows := hv.currentBuilder
  rw [batchSize, TopicChunkBuilder.remainingCapacity, hfit.maxRows, lt_min_iff]
  refine ⟨by omega, ?_⟩
  by_contra hle
  have hzero : v.storage.descriptor.maxChunkRows = 0 := by
    rcases hfit.room with hroom | hroom <;> omega
  rw [appendLoop_eq_none hv hzero ho] at h
  cases h

/-- The rule for the loop: an invariant of the offset and the view that every slice keeps. -/
theorem appendLoop_induction {I : ℕ → TopicView → Prop}
    (hstep : ∀ o n v b, I o v → v.Fits → o < ts.length → n = v.batchSize schema ts.length o →
      0 < n → (v.currentBuilder schema).runBatch ((ts.drop o).take n) (sliceCalls cols o n) = some b →
      I (o + n) ((v.getOrCreateBuilder schema).putBack b))
    {fuel o : ℕ} (hv : v.Fits) (ho : o ≤ ts.length) (hI : I o v)
    (h : appendLoop schema ts cols fuel o v = some v') : v'.Fits ∧ I ts.length v' := by
  induction fuel generalizing v o with
  | zero =>
    rw [appendLoop] at h
    split_ifs at h with hlt
    obtain rfl := Option.some.inj h
    obtain rfl : o = ts.length := by omega
    exact ⟨hv, hI⟩
  | succ fuel ih =>
    by_cases hlt : o < ts.length
    · have hpos := batchSize_pos hv hlt h
      have hle : v.batchSize schema ts.length o ≤ ts.length - o := min_le_left _ _
      rw [appendLoop, if_pos hlt] at h
      obtain ⟨v₁, hslice, hrest⟩ := Option.bind_eq_some_iff.mp h
      obtain ⟨b, hb, rfl⟩ := Option.map_eq_some_iff.mp hslice
      exact ih (fits_putBack_batch hv hb) (by omega)
        (hstep o _ v b hI hv hlt rfl hpos hb) hrest
    · rw [appendLoop, if_neg hlt] at h
      obtain rfl := Option.some.inj h
      obtain rfl : o = ts.length := by omega
      exact ⟨hv, hI⟩

/-! ## Micro steps -/

/-- New columns behind the old ones, each with its position as its id. -/
def Grows (old new : List ColumnDescriptor) : Prop :=
  old <+: new ∧ ∀ i col, old.length ≤ i → new[i]? = some col → col.fieldId = i

/-- A micro step of call `c` from view `v₀`. -/
inductive Micro (schema : Option TypeTreeNode) (v₀ : TopicView) (c : TopicCall) :
    TopicView → TopicView → Prop
  | load (v : TopicView) : Micro schema v₀ c v (v.ensureColsLoaded schema)
  | create {v : TopicView} (hb : v.writer.builder = none) :
    Micro schema v₀ c v (v.setBuilder v.newBuilder)
  | beginRow {v : TopicView} {b b' : TopicChunkBuilder} {t : Timestamp}
    (hb : v.writer.builder = some b) (h : b.beginRow t = some b') :
    Micro schema v₀ c v (v.setBuilder b')
  | cell {v : TopicView} {b b' : TopicChunkBuilder} {k : TopicChunkBuilder.CellCall}
    (hb : v.writer.builder = some b) (h : b.runCellCall k = some b') :
    Micro schema v₀ c v (v.setBuilder b')
  | finishRow {v : TopicView} {b b' : TopicChunkBuilder} (hb : v.writer.builder = some b)
    (h : b.finishRow = some b') : Micro schema v₀ c v (v.putBack b')
  | batch {v : TopicView} {b b' : TopicChunkBuilder} {ts : List Timestamp} {cols : List ColumnData}
    {o n : ℕ} (hc : c = .appendColumns ts cols) (hne : (ts.drop o).take n ≠ [])
    (hb : v.writer.builder = some b)
    (h : b.runBatch ((ts.drop o).take n) (sliceCalls cols o n) = some b') :
    Micro schema v₀ c v (v.putBack b')
  | close {v : TopicView} (hrow : v.isRowInProgress = false) :
    Micro schema v₀ c v v.sealBeforeLayoutChange
  | grow {v : TopicView} {cols : List ColumnDescriptor} (hb : v.writer.builder = none)
    (hcols : v.writer.columns = (v₀.ensureColsLoaded schema).writer.columns)
    (hstored : v.storage.columnDescriptors = v₀.storage.columnDescriptors)
    (hgrows : Grows v.writer.columns cols) : Micro schema v₀ c v (v.growColumns cols)
  | note {v : TopicView} {f : TopicStorage → TopicStorage} (hf : ∀ s : TopicStorage, s.SameContents (f s)) :
    Micro schema v₀ c v (v.mapStorage f)

/-- The path of a call. -/
abbrev Path (schema : Option TypeTreeNode) (v₀ : TopicView) (c : TopicCall) :
    TopicView → TopicView → Prop :=
  Relation.ReflTransGen (Micro schema v₀ c)

/-! ### Growing -/

theorem Grows.refl (cols : List ColumnDescriptor) : Grows cols cols := by
  refine ⟨List.prefix_rfl, fun i col hi hcol ↦ ?_⟩
  rw [List.getElem?_eq_none hi] at hcol
  cases hcol

theorem Grows.trans {a b c : List ColumnDescriptor} (hab : Grows a b) (hbc : Grows b c) :
    Grows a c := by
  refine ⟨hab.1.trans hbc.1, fun i col hi hcol ↦ ?_⟩
  by_cases hib : b.length ≤ i
  · exact hbc.2 i col hib hcol
  · -- a column of the list between: its prefix has it too
    have hlt : i < b.length := Nat.lt_of_not_le hib
    rw [List.prefix_iff_getElem?.mp hbc.1 i hlt, ← List.getElem?_eq_getElem hlt] at hcol
    exact hab.2 i col hi hcol

theorem fieldId_numberFrom {next : ℕ} {leaves : List Leaf} {i : ℕ} {col : ColumnDescriptor}
    (h : (numberFrom next leaves)[i]? = some col) : col.fieldId = next + i := by
  rw [getElem?_numberFrom] at h
  obtain ⟨leaf, -, rfl⟩ := Option.map_eq_some_iff.mp h
  rfl

theorem grows_numberFrom (cols : List ColumnDescriptor) (leaves : List Leaf) :
    Grows cols (cols ++ numberFrom cols.length leaves) := by
  refine ⟨List.prefix_append _ _, fun i col hi hcol ↦ ?_⟩
  rw [List.getElem?_append_right hi] at hcol
  rw [fieldId_numberFrom hcol]
  omega

theorem grows_growSchemaless (path : String) (type : PrimitiveType) (cols : List ColumnDescriptor)
    (i : ℕ) : Grows cols (growSchemaless path type cols i) := by
  rw [growSchemaless]
  split_ifs
  · exact .refl cols
  · exact grows_numberFrom cols [(elementPath path i, type)]

theorem grows_growTyped (path : String) (element : Option TypeTreeNode)
    (cols : List ColumnDescriptor) (i : ℕ) : Grows cols (growTyped path element cols i) := by
  rw [growTyped]
  split_ifs
  · exact .refl cols
  · exact grows_numberFrom cols _

theorem grows_foldl {f : List ColumnDescriptor → ℕ → List ColumnDescriptor}
    (hf : ∀ cols i, Grows cols (f cols i)) (is : List ℕ) (cols : List ColumnDescriptor) :
    Grows cols (is.foldl f cols) := by
  induction is generalizing cols with
  | nil => exact .refl cols
  | cons i is ih => exact (hf cols i).trans (ih (f cols i))

theorem grows_expandedColumns (path : String) (type : PrimitiveType) (node : Option TypeTreeNode)
    (current actual : ℕ) (cols : List ColumnDescriptor) :
    Grows cols (expandedColumns path type node current actual cols) := by
  rw [expandedColumns.eq_def]
  cases node with
  | none => exact grows_foldl (grows_growSchemaless path type) _ cols
  | some node => exact grows_foldl (grows_growTyped path node.elementType) _ cols

/-! ### The path of each call -/

variable {c : TopicCall} {v₀ : TopicView}

theorem path_getOrCreateBuilder (v : TopicView) :
    Path schema v₀ c v (v.getOrCreateBuilder schema) := by
  rcases hb : v.writer.builder with _ | b
  · rw [getOrCreateBuilder_of_none hb]
    exact (Relation.ReflTransGen.single (.load v)).tail (.create (by simpa using hb))
  · rw [getOrCreateBuilder_of_some hb]

/-- `beginRow` opens a row, or refuses the timestamp because of a row before it in the builder. -/
theorem beginRow_eq_some {t : Timestamp} {r : Except WriteError Unit}
    (h : v.beginRow schema t = some (v', r)) :
    (∃ e, r = .error e ∧ v' = v.getOrCreateBuilder schema) ∨
      r = .ok () ∧ ∃ b, (v.currentBuilder schema).beginRow t = some b ∧
        v' = (v.getOrCreateBuilder schema).setBuilder b := by
  rw [beginRow] at h
  split_ifs at h
  · obtain ⟨rfl, rfl⟩ := Prod.mk.inj (Option.some.inj h)
    exact .inl ⟨_, rfl, rfl⟩
  · obtain ⟨b, hb, heq⟩ := Option.map_eq_some_iff.mp h
    obtain ⟨rfl, rfl⟩ := Prod.mk.inj heq
    exact .inr ⟨rfl, b, hb, rfl⟩

theorem finishRow_eq_some {r : Except WriteError Unit} (h : v.finishRow = some (v', r)) :
    (∃ e, r = .error e ∧ v' = v) ∨
      r = .ok () ∧ ∃ b b', v.writer.builder = some b ∧ b.finishRow = some b' ∧
        v' = v.putBack b' := by
  rw [finishRow] at h
  rcases hb : v.writer.builder with _ | b
  · rw [hb] at h
    obtain ⟨rfl, rfl⟩ := Prod.mk.inj (Option.some.inj h)
    exact .inl ⟨_, rfl, rfl⟩
  · rw [hb] at h
    obtain ⟨b', hb', heq⟩ := Option.map_eq_some_iff.mp h
    obtain ⟨rfl, rfl⟩ := Prod.mk.inj heq
    exact .inr ⟨rfl, b, b', rfl, hb', rfl⟩

/-- `appendColumns` refuses the batch, or has nothing to do, or runs the loop. -/
theorem appendColumns_eq_some {r : Except WriteError Unit}
    (h : v.appendColumns schema ts cols = some (v', r)) :
    (∃ e, r = .error e ∧ (v' = v ∨ v' = v.getOrCreateBuilder schema)) ∨
      r = .ok () ∧ ts = [] ∧ v' = v ∨
      r = .ok () ∧ ts ≠ [] ∧ checkColumns ts.length cols = none ∧
        appendLoop schema ts cols ts.length 0 (v.getOrCreateBuilder schema) = some v' := by
  rw [appendColumns.eq_def] at h
  rcases hcheck : checkColumns ts.length cols with _ | e
  · rw [hcheck] at h
    cases ts with
    | nil =>
      obtain ⟨rfl, rfl⟩ := Prod.mk.inj (Option.some.inj h)
      exact .inr (.inl ⟨rfl, rfl, rfl⟩)
    | cons first rest =>
      simp only at h
      split_ifs at h
      · obtain ⟨rfl, rfl⟩ := Prod.mk.inj (Option.some.inj h)
        exact .inl ⟨_, rfl, .inr rfl⟩
      · obtain ⟨v₁, hloop, heq⟩ := Option.map_eq_some_iff.mp h
        obtain ⟨rfl, rfl⟩ := Prod.mk.inj heq
        exact .inr (.inr ⟨rfl, List.cons_ne_nil _ _, rfl, hloop⟩)
  · rw [hcheck] at h
    obtain ⟨rfl, rfl⟩ := Prod.mk.inj (Option.some.inj h)
    exact .inl ⟨e, rfl, .inl rfl⟩

theorem path_beginRow {t : Timestamp} {r : Except WriteError Unit}
    (h : v.beginRow schema t = some (v', r)) : Path schema v₀ c v v' := by
  rcases beginRow_eq_some h with ⟨-, -, rfl⟩ | ⟨-, b, hb, rfl⟩
  · exact path_getOrCreateBuilder v
  · exact (path_getOrCreateBuilder v).tail (.beginRow getOrCreateBuilder_builder hb)

theorem path_cell {k : TopicChunkBuilder.CellCall}
    (h : (v.writer.builder.bind fun b ↦ (b.runCellCall k).map v.setBuilder) = some v') :
    Path schema v₀ c v v' := by
  obtain ⟨b, hb, hk⟩ := Option.bind_eq_some_iff.mp h
  obtain ⟨b', hb', rfl⟩ := Option.map_eq_some_iff.mp hk
  exact .single (.cell hb hb')

theorem path_finishRow {r : Except WriteError Unit} (h : v.finishRow = some (v', r)) :
    Path schema v₀ c v v' := by
  rcases finishRow_eq_some h with ⟨-, -, rfl⟩ | ⟨-, b, b', hb, hb', rfl⟩
  · exact .refl
  · exact .single (.finishRow hb hb')

theorem path_appendColumns {r : Except WriteError Unit} (hv : v.Fits)
    (hc : c = .appendColumns ts cols) (h : v.appendColumns schema ts cols = some (v', r)) :
    Path schema v₀ c v v' := by
  rcases appendColumns_eq_some h with ⟨-, -, rfl | rfl⟩ | ⟨-, -, rfl⟩ | ⟨-, -, -, hloop⟩
  · exact .refl
  · exact path_getOrCreateBuilder v
  · exact .refl
  · refine (appendLoop_induction (I := fun _ u ↦ Path schema v₀ c v u) ?_
      (fits_getOrCreateBuilder hv) (Nat.zero_le _) (path_getOrCreateBuilder v) hloop).2
    intro o n u b hu _ ho _ hn hb
    refine (hu.trans (path_getOrCreateBuilder u)).tail (.batch hc ?_ getOrCreateBuilder_builder hb)
    rw [← List.length_pos_iff, List.length_take, List.length_drop]
    omega

theorem path_ensureColumn {path : String} {type : PrimitiveType} {r : Except WriteError ℕ}
    (h : v.ensureColumn schema path type = some (v', r)) : Path schema v c v v' := by
  have hload : Path schema v c v (v.ensureColsLoaded schema) := .single (.load v)
  rw [ensureColumn] at h
  split at h
  · split_ifs at h <;>
    · obtain ⟨rfl, -⟩ := Prod.mk.inj (Option.some.inj h)
      exact hload
  · split_ifs at h with hrow
    · obtain ⟨rfl, -⟩ := Prod.mk.inj (Option.some.inj h)
      exact hload
    · obtain ⟨rfl, -⟩ := Prod.mk.inj (Option.some.inj h)
      refine (hload.tail (.close ?_)).tail (.grow ?_ ?_ ?_ ?_)
      · rw [isRowInProgress, ensureColsLoaded_builder]
        exact Bool.eq_false_iff.mpr hrow
      · exact sealBeforeLayoutChange_builder
      · exact sealBeforeLayoutChange_columns
      · rw [sealBeforeLayoutChange_storage, ensureColsLoaded_storage]
      · rw [sealBeforeLayoutChange_columns]
        exact grows_numberFrom _ [(path, type)]

theorem loadColumns_congr {s s' : TopicStorage} (h : s.SameContents s') :
    loadColumns schema s' = loadColumns schema s := by
  rw [loadColumns.eq_def, loadColumns.eq_def, h.columnDescriptors, h.sealedChunks]

theorem path_expandTo {path : String} {type : PrimitiveType} {node : Option TypeTreeNode}
    {current actual : ℕ} {r : Except WriteError ℕ} (hrow : v.isRowInProgress = false)
    (hwriter : v.writer = v₀.writer) (hstorage : v₀.storage.SameContents v.storage)
    (h : v.expandTo schema path type node current actual = some (v', r)) :
    Path schema v₀ c v v' := by
  rw [expandTo] at h
  split_ifs at h
  obtain ⟨rfl, -⟩ := Prod.mk.inj (Option.some.inj h)
  have hloaded : Path schema v₀ c v (v.sealBeforeLayoutChange.ensureColsLoaded schema) :=
    (Relation.ReflTransGen.single (.close hrow)).tail (.load _)
  refine (hloaded.tail (.grow ?_ ?_ ?_ (grows_expandedColumns path type node current actual _))).tail
    (.note fun s ↦ ⟨rfl, rfl, rfl, rfl⟩)
  · rw [ensureColsLoaded_builder, sealBeforeLayoutChange_builder]
  · rw [ensureColsLoaded_columns, ensureColsLoaded_columns, sealBeforeLayoutChange_columns,
      sealBeforeLayoutChange_storage, hwriter, loadColumns_congr hstorage]
  · rw [ensureColsLoaded_storage, sealBeforeLayoutChange_storage, hstorage.columnDescriptors]

theorem path_expandClamped {path : String} {newLength : ℕ} {type : PrimitiveType}
    {node : Option TypeTreeNode} {r : Except WriteError ℕ} (hwriter : v.writer = v₀.writer)
    (hstorage : v₀.storage.SameContents v.storage)
    (h : v.expandClamped schema path newLength type node = some (v', r)) :
    Path schema v₀ c v v' := by
  rw [expandClamped] at h
  split_ifs at h with _ hrow
  · obtain ⟨rfl, -⟩ := Prod.mk.inj (Option.some.inj h)
    exact .refl
  · obtain ⟨rfl, -⟩ := Prod.mk.inj (Option.some.inj h)
    exact .refl
  · exact path_expandTo (Bool.eq_false_iff.mpr hrow) hwriter hstorage h

theorem path_noteTruncation (v : TopicView) (newLength : ℕ) :
    Path schema v₀ c v (v.noteTruncation newLength) ∧
      (v.noteTruncation newLength).writer = v.writer ∧
      v.storage.SameContents (v.noteTruncation newLength).storage := by
  rw [noteTruncation]
  split_ifs
  · exact ⟨.single (.note fun s ↦ ⟨rfl, rfl, rfl, rfl⟩), rfl, ⟨rfl, rfl, rfl, rfl⟩⟩
  · exact ⟨.refl, rfl, ⟨rfl, rfl, rfl, rfl⟩⟩

theorem path_expandArray {path : String} {newLength : ℕ} {type : PrimitiveType}
    {r : Except WriteError ℕ} (h : v.expandArray schema path newLength type = some (v', r)) :
    Path schema v c v v' := by
  have hnote : Path schema v c v (v.mapStorage (·.updateMaxObservedArrayLength newLength)) :=
    .single (.note fun s ↦ ⟨rfl, rfl, rfl, rfl⟩)
  rw [expandArray.eq_def] at h
  split_ifs at h
  · obtain ⟨rfl, -⟩ := Prod.mk.inj (Option.some.inj h)
    exact hnote
  · rcases hcheck : checkArray schema path with e | node
    · rw [hcheck] at h
      obtain ⟨rfl, -⟩ := Prod.mk.inj (Option.some.inj h)
      exact hnote
    · -- the counters first, then the growth itself from a view with the same contents
      rw [hcheck] at h
      obtain ⟨htrunc, hwriter, hstorage⟩ := @path_noteTruncation schema c v
        (v.mapStorage (·.updateMaxObservedArrayLength newLength)) newLength
      refine (hnote.trans htrunc).trans (path_expandClamped hwriter ?_ h)
      exact ⟨hstorage.topicId, hstorage.descriptor, hstorage.sealedChunks,
        hstorage.columnDescriptors⟩

/-- What the steps keep that `ensureColumn` and `expandArray` are made of: loading the columns,
closing the builder between two rows, more columns, and the counters of array lengths. -/
structure KeptByGrowth (schema : Option TypeTreeNode) (I : TopicView → Prop) : Prop where
  load : ∀ v, I v → I (v.ensureColsLoaded schema)
  close : ∀ v, v.isRowInProgress = false → I v → I v.sealBeforeLayoutChange
  grow : ∀ v cols, v.writer.columns <+: cols → I v → I (v.growColumns cols)
  note : ∀ v f, (∀ s : TopicStorage, s.SameContents (f s)) → I v → I (v.mapStorage f)

theorem KeptByGrowth.ensureColumn {I : TopicView → Prop} (hI : KeptByGrowth schema I)
    {path : String} {type : PrimitiveType} {r : Except WriteError ℕ}
    (h : v.ensureColumn schema path type = some (v', r)) (hv : I v) : I v' := by
  have hload : I (v.ensureColsLoaded schema) := hI.load v hv
  rw [TopicView.ensureColumn] at h
  split at h
  · split_ifs at h <;>
    · obtain ⟨rfl, -⟩ := Prod.mk.inj (Option.some.inj h)
      exact hload
  · split_ifs at h with hrow
    · obtain ⟨rfl, -⟩ := Prod.mk.inj (Option.some.inj h)
      exact hload
    · obtain ⟨rfl, -⟩ := Prod.mk.inj (Option.some.inj h)
      refine hI.grow _ _ ?_ (hI.close _ ?_ hload)
      · rw [sealBeforeLayoutChange_columns]
        exact List.prefix_append _ _
      · rw [isRowInProgress, ensureColsLoaded_builder]
        exact Bool.eq_false_iff.mpr hrow

theorem KeptByGrowth.expandArray {I : TopicView → Prop} (hI : KeptByGrowth schema I)
    {path : String} {newLength : ℕ} {type : PrimitiveType} {r : Except WriteError ℕ}
    (h : v.expandArray schema path newLength type = some (v', r)) (hv : I v) : I v' := by
  have hnote : I (v.mapStorage (·.updateMaxObservedArrayLength newLength)) :=
    hI.note v _ (fun s ↦ ⟨rfl, rfl, rfl, rfl⟩) hv
  rw [expandArray.eq_def] at h
  split_ifs at h
  · obtain ⟨rfl, -⟩ := Prod.mk.inj (Option.some.inj h)
    exact hnote
  · rcases hcheck : checkArray schema path with e | node
    · rw [hcheck] at h
      obtain ⟨rfl, -⟩ := Prod.mk.inj (Option.some.inj h)
      exact hnote
    · rw [hcheck] at h
      dsimp only at h
      have htrunc : I ((v.mapStorage (·.updateMaxObservedArrayLength newLength)).noteTruncation
          newLength) := by
        rw [noteTruncation]
        split_ifs
        · exact hI.note _ _ (fun s ↦ ⟨rfl, rfl, rfl, rfl⟩) hnote
        · exact hnote
      rw [expandClamped] at h
      split_ifs at h with _ hrow
      · obtain ⟨rfl, -⟩ := Prod.mk.inj (Option.some.inj h)
        exact htrunc
      · obtain ⟨rfl, -⟩ := Prod.mk.inj (Option.some.inj h)
        exact htrunc
      · rw [expandTo] at h
        split_ifs at h
        obtain ⟨rfl, -⟩ := Prod.mk.inj (Option.some.inj h)
        refine hI.note _ _ (fun s ↦ ⟨rfl, rfl, rfl, rfl⟩) (hI.grow _ _ ?_ ?_)
        · exact (grows_expandedColumns path type node _ _ _).1
        · exact hI.load _ (hI.close _ (Bool.eq_false_iff.mpr hrow) htrunc)

theorem call_path {out : Outcome} (hv : v.Fits) (h : v.call schema c = some (v', out)) :
    Path schema v c v v' := by
  cases c with
  | beginRow t =>
    obtain ⟨p, hp, heq⟩ := Option.map_eq_some_iff.mp h
    obtain ⟨rfl, -⟩ := Prod.mk.inj heq
    exact path_beginRow hp
  | set i x =>
    obtain ⟨u, hu, heq⟩ := Option.map_eq_some_iff.mp h
    obtain ⟨rfl, -⟩ := Prod.mk.inj heq
    exact path_cell (k := .set i x) hu
  | setNull i =>
    obtain ⟨u, hu, heq⟩ := Option.map_eq_some_iff.mp h
    obtain ⟨rfl, -⟩ := Prod.mk.inj heq
    exact path_cell (k := .setNull i) hu
  | finishRow =>
    obtain ⟨p, hp, heq⟩ := Option.map_eq_some_iff.mp h
    obtain ⟨rfl, -⟩ := Prod.mk.inj heq
    exact path_finishRow hp
  | appendColumns ts cols =>
    obtain ⟨p, hp, heq⟩ := Option.map_eq_some_iff.mp h
    obtain ⟨rfl, -⟩ := Prod.mk.inj heq
    exact path_appendColumns hv rfl hp
  | resolveField path =>
    obtain ⟨rfl, -⟩ := Prod.mk.inj (Option.some.inj h)
    exact path_getOrCreateBuilder v
  | ensureColumn path type =>
    obtain ⟨p, hp, heq⟩ := Option.map_eq_some_iff.mp h
    obtain ⟨rfl, -⟩ := Prod.mk.inj heq
    exact path_ensureColumn hp
  | expandArray path n type =>
    obtain ⟨p, hp, heq⟩ := Option.map_eq_some_iff.mp h
    obtain ⟨rfl, -⟩ := Prod.mk.inj heq
    exact path_expandArray hp

/-! ### What every micro step keeps -/

theorem Path.induction {I : TopicView → Prop} (hstep : ∀ u u', Micro schema v₀ c u u' → I u → I u')
    (h : Path schema v₀ c v v') (hv : I v) : I v' := by
  induction h with
  | refl => exact hv
  | tail _ hlast ih => exact hstep _ _ hlast ih

/-- A call never commits a chunk, and a topic keeps its descriptor. -/
theorem Micro.storage (h : Micro schema v₀ c v v') :
    v'.storage.topicId = v.storage.topicId ∧ v'.storage.descriptor = v.storage.descriptor ∧
      v'.storage.sealedChunks = v.storage.sealedChunks := by
  cases h with
  | load => simp
  | create => simp
  | beginRow => simp
  | cell => simp
  | finishRow => simp
  | batch => simp
  | close => simp
  | grow => exact ⟨rfl, rfl, rfl⟩
  | note hf => exact ⟨(hf _).topicId, (hf _).descriptor, (hf _).sealedChunks⟩

theorem Micro.fits (h : Micro schema v₀ c v v') (hv : v.Fits) : v'.Fits := by
  cases h with
  | load =>
    intro b hb
    rw [ensureColsLoaded_storage]
    exact hv b (by simpa using hb)
  | create => exact fits_setBuilder ⟨rfl, rfl, .inr rfl⟩
  | beginRow hb h =>
    obtain ⟨-, -, rfl⟩ := TopicChunkBuilder.beginRow_eq_some h
    have hfit := hv _ hb
    exact fits_setBuilder ⟨hfit.maxRows, hfit.pending, hfit.room⟩
  | cell hb h =>
    obtain ⟨-, c₁, c₂, -, -, rfl⟩ := TopicChunkBuilder.runCellCall_eq_some h
    have hfit := hv _ hb
    exact fits_setBuilder ⟨hfit.maxRows, hfit.pending, hfit.room⟩
  | finishRow hb h =>
    obtain ⟨-, rfl⟩ := TopicChunkBuilder.finishRow_eq_some h
    have hfit := hv _ hb
    exact fits_putBack hfit.maxRows hfit.pending
  | batch hc hne hb h =>
    have hfit := hv _ hb
    obtain ⟨hafter, -, -⟩ := TopicChunkBuilder.runBatch_eq_some hfit.pending h
    apply fits_putBack <;> rw [hafter.frame]
    · exact hfit.maxRows
    · exact hfit.pending
  | close => exact fits_of_builder_eq_none sealBeforeLayoutChange_builder
  | grow hb => exact fits_of_builder_eq_none hb
  | note hf =>
    intro b hb
    rw [show (v.mapStorage _).storage.descriptor = _ from (hf v.storage).descriptor]
    exact hv b hb

theorem call_fits {out : Outcome} (hv : v.Fits) (h : v.call schema c = some (v', out)) : v'.Fits :=
  (call_path hv h).induction (fun _ _ ↦ Micro.fits) hv

theorem call_storage {out : Outcome} (hv : v.Fits) (h : v.call schema c = some (v', out)) :
    v'.storage.topicId = v.storage.topicId ∧ v'.storage.descriptor = v.storage.descriptor ∧
      v'.storage.sealedChunks = v.storage.sealedChunks := by
  refine (call_path hv h).induction (I := fun u ↦ u.storage.topicId = v.storage.topicId ∧
    u.storage.descriptor = v.storage.descriptor ∧ u.storage.sealedChunks = v.storage.sealedChunks)
    (fun u u' hstep hu ↦ ?_) ⟨rfl, rfl, rfl⟩
  obtain ⟨hid, hdesc, hchunks⟩ := hstep.storage
  exact ⟨hid.trans hu.1, hdesc.trans hu.2.1, hchunks.trans hu.2.2⟩

end TopicView

end PlotJuggler
