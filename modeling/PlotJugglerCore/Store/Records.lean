import PlotJugglerCore.Store.HeldRows
import PlotJugglerCore.Store.Layout
import PlotJugglerCore.Store.WriteCore

/-!
# What a record leaves behind

`appendRecord` and `appendBoundRecord` look at all fields before they begin a row, so a record that
is refused adds no row. A named one may still have added columns: `ensureField` adds the column of a
new field at once, and a field behind it can fail. Then the record is gone and the columns stay.

A record that goes through is one row in the columns it named. The ids that a core has cached decide
which columns these are.
-/

namespace PlotJuggler

open TopicChunkBuilder (CellCall)

namespace TopicView

variable {schema : Option TypeTreeNode} {v v' : TopicView} {b b' : TopicChunkBuilder}
  {rows : List Row}

/-! ## Positions -/

/-- The id of the column with a path. Ids are positions. -/
def columnIndex (cols : List ColumnDescriptor) (path : String) : Option ℕ :=
  (cols.find? fun col ↦ col.fieldPath = path).map (·.fieldId)

theorem columnIndex_append {cols new : List ColumnDescriptor} {path : String} {i : ℕ}
    (h : columnIndex cols path = some i) : columnIndex (cols ++ new) path = some i := by
  obtain ⟨col, hcol, hi⟩ := Option.map_eq_some_iff.mp h
  rw [columnIndex, List.find?_append, hcol]
  exact congrArg some hi

theorem columnIndex_inj {cols : List ColumnDescriptor} (hcols : PlotJuggler.Dense cols)
    {path path' : String} {i : ℕ} (h : columnIndex cols path = some i)
    (h' : columnIndex cols path' = some i) : path = path' := by
  have hat : ∀ {path}, columnIndex cols path = some i →
      ∃ col, cols[i]? = some col ∧ col.fieldPath = path := by
    intro path h
    obtain ⟨col, hcol, rfl⟩ := Option.map_eq_some_iff.mp h
    obtain ⟨j, hj⟩ := List.mem_iff_getElem?.mp (List.mem_of_find?_eq_some hcol)
    exact ⟨col, hcols j col hj ▸ hj, by simpa using List.find?_some hcol⟩
  obtain ⟨col, hcol, hpath⟩ := hat h
  obtain ⟨col', hcol', hpath'⟩ := hat h'
  obtain rfl := Option.some.inj (hcol.symm.trans hcol')
  exact hpath.symm.trans hpath'

/-! ## Resolving fields -/

/-- Columns with the paths `new` have been added at most: rows may have moved to a chunk, and then
there is no builder. -/
structure Resolved (schema : Option TypeTreeNode) (v v' : TopicView) (new : List String) :
    Prop where
  columns : ∃ cols, columnList schema v' = columnList schema v ++ cols ∧
    cols.map (·.fieldPath) = new
  stored : new = [] → v'.storage.columnDescriptors = v.storage.columnDescriptors
  grown : new ≠ [] → v'.storage.columnDescriptors = columnList schema v'
  builder : new ≠ [] ∨ v.writer.builder = none → v'.writer.builder = none
  rows : ∀ rows, v.writer.HasRows rows → v'.writer.HasRows rows
  topicId : v'.storage.topicId = v.storage.topicId
  descriptor : v'.storage.descriptor = v.storage.descriptor
  sealedChunks : v'.storage.sealedChunks = v.storage.sealedChunks
  fits : v.Fits → v'.Fits
  dense : v.Fits → v.Dense → v'.Dense

theorem Resolved.refl (v : TopicView) : Resolved schema v v [] where
  columns := ⟨[], (List.append_nil _).symm, rfl⟩
  stored _ := rfl
  grown h := absurd rfl h
  builder h := h.resolve_left (not_not_intro rfl)
  rows _ h := h
  topicId := rfl
  descriptor := rfl
  sealedChunks := rfl
  fits h := h
  dense _ h := h

theorem Resolved.trans {v'' : TopicView} {new new' : List String} (h : Resolved schema v v' new)
    (h' : Resolved schema v' v'' new') : Resolved schema v v'' (new ++ new') where
  columns := by
    obtain ⟨cols, hcols, rfl⟩ := h.columns
    obtain ⟨cols', hcols', rfl⟩ := h'.columns
    exact ⟨cols ++ cols', by rw [hcols', hcols, List.append_assoc], List.map_append⟩
  stored hnil := by
    obtain ⟨hnew, hnew'⟩ := List.append_eq_nil_iff.mp hnil
    exact (h'.stored hnew').trans (h.stored hnew)
  grown hne := by
    by_cases hnew' : new' = []
    · -- the second part adds nothing to the list of the first
      obtain ⟨cols', hcols', hpaths'⟩ := h'.columns
      rw [hnew', List.map_eq_nil_iff] at hpaths'
      rw [hnew', List.append_nil] at hne
      rw [h'.stored hnew', h.grown hne, hcols', hpaths', List.append_nil]
    · exact h'.grown hnew'
  builder hnone := by
    apply h'.builder
    by_cases hnew' : new' = []
    · rw [hnew', List.append_nil] at hnone
      exact .inr (h.builder hnone)
    · exact .inl hnew'
  rows rows hrows := h'.rows rows (h.rows rows hrows)
  topicId := h'.topicId.trans h.topicId
  descriptor := h'.descriptor.trans h.descriptor
  sealedChunks := h'.sealedChunks.trans h.sealedChunks
  fits hv := h'.fits (h.fits hv)
  dense hv hd := h'.dense (h.fits hv) (h.dense hv hd)

theorem Resolved.columnIndex {new : List String} (h : Resolved schema v v' new) {path : String}
    {i : ℕ} (hi : TopicView.columnIndex (columnList schema v) path = some i) :
    TopicView.columnIndex (columnList schema v') path = some i := by
  obtain ⟨cols, hcols, -⟩ := h.columns
  rw [hcols]
  exact columnIndex_append hi

theorem resolved_ensureColsLoaded (schema : Option TypeTreeNode) (v : TopicView) :
    Resolved schema v (v.ensureColsLoaded schema) [] where
  columns := ⟨[], by rw [columnList_ensureColsLoaded, List.append_nil], rfl⟩
  stored _ := by rw [ensureColsLoaded_storage]
  grown h := absurd rfl h
  builder h := by
    rw [ensureColsLoaded_builder]
    exact h.resolve_left (not_not_intro rfl)
  rows _ h := hasRows_ensureColsLoaded schema h
  topicId := by rw [ensureColsLoaded_storage]
  descriptor := by rw [ensureColsLoaded_storage]
  sealedChunks := by rw [ensureColsLoaded_storage]
  fits h := (Micro.load v : Micro schema v (.resolveField "") v _).fits h
  dense hv h := (Micro.load v : Micro schema v (.resolveField "") v _).dense hv h

/-- The id `ensureColumn` returns is that of the path, and the path is the only new one. -/
theorem ensureColumn_spec {path : String} {type : PrimitiveType} {r : Except WriteError ℕ}
    (h : v.ensureColumn schema path type = some (v', r)) :
    (∃ e, r = .error e ∧ Resolved schema v v' []) ∨
      ∃ i new, r = .ok i ∧ Resolved schema v v' new ∧ new.Sublist [path] ∧
        columnIndex (columnList schema v') path = some i := by
  have hpath := path_ensureColumn (c := .ensureColumn path type) h
  have hrows := fun rows (hv : v.writer.HasRows rows) ↦ (keptByGrowth_hasRows schema rows).ensureColumn h hv
  have hlist : (v.ensureColsLoaded schema).writer.columns = columnList schema v := rfl
  rw [ensureColumn] at h
  split at h
  · rename_i col hfind
    have hloaded := resolved_ensureColsLoaded schema v
    split_ifs at h
    · obtain ⟨rfl, rfl⟩ := Prod.mk.inj (Option.some.inj h)
      exact .inl ⟨_, rfl, hloaded⟩
    · obtain ⟨rfl, rfl⟩ := Prod.mk.inj (Option.some.inj h)
      refine .inr ⟨_, [], rfl, hloaded, List.nil_sublist _, ?_⟩
      rw [columnList_ensureColsLoaded, columnIndex, ← hlist, hfind]
      rfl
  · rename_i hfind
    split_ifs at h
    · obtain ⟨rfl, rfl⟩ := Prod.mk.inj (Option.some.inj h)
      exact .inl ⟨_, rfl, resolved_ensureColsLoaded schema v⟩
    · obtain ⟨rfl, rfl⟩ := Prod.mk.inj (Option.some.inj h)
      rw [hlist] at hfind hpath hrows ⊢
      set u := (v.ensureColsLoaded schema).sealBeforeLayoutChange.growColumns
        (columnList schema v ++ [⟨(columnList schema v).length, type, path⟩]) with hu
      have hcolumns : columnList schema u
          = columnList schema v ++ [⟨(columnList schema v).length, type, path⟩] := by
        apply columnList_growColumns
        rw [columnList_sealBeforeLayoutChange, columnList_ensureColsLoaded]
        exact List.prefix_append _ _
      have hstorage : u.storage = v.storage.setColumnDescriptors
          (columnList schema v ++ [⟨(columnList schema v).length, type, path⟩]) := by
        rw [hu, growColumns]
        dsimp only
        rw [sealBeforeLayoutChange_storage, ensureColsLoaded_storage]
      refine .inr ⟨_, [path], rfl, ?_, List.Sublist.refl _, ?_⟩
      · exact
          { columns := ⟨_, hcolumns, rfl⟩
            stored := fun h ↦ absurd h (List.cons_ne_nil _ _)
            grown := fun _ ↦ by rw [hcolumns, hstorage]; rfl
            builder := fun _ ↦ sealBeforeLayoutChange_builder
            rows := hrows
            topicId := by rw [hstorage]; rfl
            descriptor := by rw [hstorage]; rfl
            sealedChunks := by rw [hstorage]; rfl
            fits := fun hv ↦ hpath.induction (fun _ _ ↦ Micro.fits) hv
            dense := fun hv hd ↦ hpath.dense hv hd }
      · rw [hcolumns, columnIndex, List.find?_append, hfind]
        simp

/-! ## Writing a row -/

/-- The call a resolved field makes. -/
def cellCall (p : ℕ × Option ScalarValue) : CellCall :=
  match p.2.bind ScalarValue.stored with
  | some x => .set p.1 x
  | none => .setNull p.1

@[simp] theorem col_cellCall (p : ℕ × Option ScalarValue) : (cellCall p).col = p.1 := by
  rw [cellCall]
  split <;> rfl

@[simp] theorem cell_cellCall (p : ℕ × Option ScalarValue) :
    (cellCall p).cell = p.2.bind ScalarValue.stored := by
  rw [cellCall]
  split
  · rename_i x hx
    exact hx.symm
  · rename_i hnone
    exact hnone.symm

/-- The value has a type. -/
def Typed (p : ℕ × Option ScalarValue) : Prop := ∀ value, p.2 = some value → value.stored.isSome

theorem setField_eq {p : ℕ × Option ScalarValue} (hp : Typed p)
    (hb : v.writer.builder = some b) :
    v.setField p = (b.runCellCall (cellCall p)).map v.setBuilder := by
  rcases p with ⟨i, _ | value⟩
  · rw [setField, setNull, hb, Option.bind_some]
    rfl
  · obtain ⟨x, hx⟩ := Option.isSome_iff_exists.mp (hp value rfl)
    have hcall : cellCall (i, some value) = .set i x := by
      rw [cellCall, Option.bind_some, hx]
    rw [hcall, setField]
    dsimp only
    rw [setFieldValue.eq_def, hx]
    dsimp only
    rw [set, hb, Option.bind_some]
    rfl

theorem foldlM_setField {cells : List (ℕ × Option ScalarValue)} (hcells : ∀ p ∈ cells, Typed p)
    (v : TopicView) (b : TopicChunkBuilder) : cells.foldlM setField (v.setBuilder b) =
      ((cells.map cellCall).foldlM TopicChunkBuilder.runCellCall b).map v.setBuilder := by
  induction cells generalizing b with
  | nil => rfl
  | cons p cells ih =>
    rw [List.foldlM_cons, List.map_cons, List.foldlM_cons,
      setField_eq (hcells p List.mem_cons_self) setBuilder_builder]
    rcases b.runCellCall (cellCall p) with _ | b'
    · rfl
    · exact ih (fun q hq ↦ hcells q (List.mem_cons_of_mem p hq)) b'

theorem putBack_setBuilder (v : TopicView) (b b' : TopicChunkBuilder) :
    (v.setBuilder b).putBack b' = v.putBack b' := by
  rw [putBack_eq, putBack_eq]
  split_ifs <;> rfl

/-- A row is refused before anything happens, or it is there at the end. -/
theorem writeRow_eq_some {t : Timestamp} {cells : List (ℕ × Option ScalarValue)}
    (hcells : ∀ p ∈ cells, Typed p) {r : Except WriteError Unit}
    (h : v.writeRow schema t cells = some (v', r)) :
    (∃ e, r = .error e ∧ v' = v ∧ v.writer.builder ≠ none) ∨
      r = .ok () ∧ ∃ b, (v.currentBuilder schema).runRow t (cells.map cellCall) = some b ∧
        v' = (v.getOrCreateBuilder schema).putBack b := by
  obtain ⟨⟨v₁, r₁⟩, hbegin, hrest⟩ := Option.bind_eq_some_iff.mp h
  rw [beginRow] at hbegin
  split_ifs at hbegin with hlate
  · obtain ⟨rfl, rfl⟩ := Prod.mk.inj (Option.some.inj hbegin)
    obtain ⟨rfl, rfl⟩ := Prod.mk.inj (Option.some.inj hrest)
    -- a new builder takes any timestamp
    rcases hb : v.writer.builder with _ | b
    · rw [currentBuilder_of_none hb] at hlate
      exact absurd hlate.1 (lt_irrefl 0)
    · exact .inl ⟨_, rfl, getOrCreateBuilder_of_some hb, by simp⟩
  · obtain ⟨b₁, hb₁, heq⟩ := Option.map_eq_some_iff.mp hbegin
    obtain ⟨rfl, rfl⟩ := Prod.mk.inj heq
    obtain ⟨v₂, hv₂, hfinish⟩ := Option.bind_eq_some_iff.mp hrest
    rw [foldlM_setField hcells] at hv₂
    obtain ⟨b₂, hb₂, rfl⟩ := Option.map_eq_some_iff.mp hv₂
    rw [finishRow, setBuilder_builder] at hfinish
    obtain ⟨b₃, hb₃, heq⟩ := Option.map_eq_some_iff.mp hfinish
    obtain ⟨rfl, rfl⟩ := Prod.mk.inj heq
    refine .inr ⟨rfl, b₃, ?_, putBack_setBuilder _ b₂ b₃⟩
    rw [TopicChunkBuilder.runRow, hb₁, Option.bind_some, hb₂, Option.bind_some, hb₃]

end TopicView

/-! ## Resolving a record -/

theorem ScalarValue.isSome_stored {value : ScalarValue} {type : PrimitiveType}
    (h : fromAbiType value.type = .ok type) : value.stored.isSome := by
  cases value with
  | untyped tag =>
    have herror : fromAbiType (12 + tag.toNat) = .error (.unsupportedType (12 + tag.toNat)) := by
      rw [Nat.add_comm]
      rfl
    cases herror.symm.trans h
  | _ => rfl

namespace WriteCore

variable {schema : Option TypeTreeNode} {c c' : WriteCore} {name : String}

/-- What the core knows of a name it knows of the column too. -/
def Paired (c : WriteCore) : Prop := ∀ p ∈ c.fieldCache, (c.cachedType p.2).isSome

/-- Where the core has cached an id for the name, it is the column with that path. -/
def Trusts (schema : Option TypeTreeNode) (c : WriteCore) (name : String) : Prop :=
  ∀ id, c.cachedField name = some id →
    TopicView.columnIndex (TopicView.columnList schema c.view) name = some id

instance (schema : Option TypeTreeNode) (c : WriteCore) (name : String) :
    Decidable (c.Trusts schema name) :=
  decidable_of_iff
    ((c.cachedField name).all fun id ↦
      TopicView.columnIndex (TopicView.columnList schema c.view) name = some id)
    (by rw [Trusts, Option.all_eq_true]; simp)

theorem cachedType_cons (c : WriteCore) (view : TopicView) (fieldCache : List (String × ℕ))
    (id id' : ℕ) (type : PrimitiveType) :
    ({ view := view, fieldCache := fieldCache, fieldTypes := (id, type) :: c.fieldTypes } :
      WriteCore).cachedType id' = if id = id' then some type else c.cachedType id' := by
  rw [cachedType, List.find?_cons]
  split_ifs with h
  · simp [h]
  · simp [h, cachedType]

/-- A new entry in both caches keeps them paired. -/
theorem Paired.cons (hc : c.Paired) (view : TopicView) (name : String) (id : ℕ)
    (type : PrimitiveType) : Paired
      { view := view
        fieldCache := (name, id) :: c.fieldCache
        fieldTypes := (id, type) :: c.fieldTypes } := by
  refine List.forall_mem_cons.mpr ⟨?_, fun p hp ↦ ?_⟩
  · rw [cachedType_cons, if_pos rfl]
    rfl
  · rw [cachedType_cons]
    split_ifs
    · rfl
    · exact hc p hp

theorem Paired.setView (hc : c.Paired) (view : TopicView) : Paired { c with view := view } := hc

/-- The type of a field that is in the cache is there as well. -/
theorem lookupFieldType_of_cachedField (schema : Option TypeTreeNode) (hc : c.Paired) {id : ℕ}
    (h : c.cachedField name = some id) : ∃ type, c.lookupFieldType schema id = (c, .ok type) := by
  obtain ⟨p, hp, rfl⟩ := Option.map_eq_some_iff.mp h
  obtain ⟨type, htype⟩ := Option.isSome_iff_exists.mp (hc p (List.mem_of_find?_eq_some hp))
  exact ⟨type, by rw [lookupFieldType, htype]⟩

/-- A lookup never changes the topic. -/
theorem lookupFieldType_spec (schema : Option TypeTreeNode) (hc : c.Paired) (id : ℕ) :
    (c.lookupFieldType schema id).1.view = c.view ∧ (c.lookupFieldType schema id).1.Paired := by
  rw [lookupFieldType]
  split
  · exact ⟨rfl, hc⟩
  · split
    · exact ⟨rfl, hc⟩
    · exact ⟨rfl, hc.cons c.view _ id _⟩

/-- What is behind a field with a name: the columns that are new, and caches that agree with the
topic about the name as they did about all others. -/
structure FieldStep (schema : Option TypeTreeNode) (c c' : WriteCore) (name : String)
    (new : List String) : Prop where
  view : TopicView.Resolved schema c.view c'.view new
  new : new.Sublist [name]
  others : ∀ other, other ≠ name → c'.cachedField other = c.cachedField other
  trusts : c'.Trusts schema name
  paired : c'.Paired

theorem FieldStep.refl (hc : c.Paired) (ht : c.Trusts schema name) : FieldStep schema c c name [] :=
  ⟨.refl c.view, List.nil_sublist _, fun _ _ ↦ rfl, ht, hc⟩

/-- Trust in other names outlives the step. -/
theorem FieldStep.trusts_of {new : List String} (h : FieldStep schema c c' name new)
    {other : String} (ht : c.Trusts schema other) : c'.Trusts schema other := by
  by_cases hother : other = name
  · rw [hother]
    exact h.trusts
  · intro id hid
    rw [h.others other hother] at hid
    exact h.view.columnIndex (ht id hid)

/-- An id from the cache, or a call of the writer. -/
theorem ensureField_cases (hc : c.Paired) {abiType : ℕ} {r : Except HostError ℕ}
    (h : c.ensureField schema name abiType = some (c', r)) :
    (∃ e, r = .error e ∧ c' = c) ∨ (∃ id, c.cachedField name = some id ∧ r = .ok id ∧ c' = c) ∨
      c.cachedField name = none ∧ ∃ type v r', c.view.ensureColumn schema name type = some (v, r') ∧
        ((∃ e, r' = .error e ∧ r = .error (.write e) ∧ c' = { c with view := v }) ∨
          ∃ id, r' = .ok id ∧ r = .ok id ∧
            c' = ⟨v, (name, id) :: c.fieldCache, (id, type) :: c.fieldTypes⟩) := by
  rw [ensureField.eq_def] at h
  split at h
  · obtain ⟨rfl, rfl⟩ := Prod.mk.inj (Option.some.inj h)
    exact .inl ⟨_, rfl, rfl⟩
  · rename_i type htype
    split at h
    · rename_i id hid
      obtain ⟨existing, hexisting⟩ := lookupFieldType_of_cachedField schema hc hid
      rw [hexisting] at h
      dsimp only at h
      split_ifs at h
      · obtain ⟨rfl, rfl⟩ := Prod.mk.inj (Option.some.inj h)
        exact .inl ⟨_, rfl, rfl⟩
      · obtain ⟨rfl, rfl⟩ := Prod.mk.inj (Option.some.inj h)
        exact .inr (.inl ⟨id, hid, rfl, rfl⟩)
    · rename_i hnone
      obtain ⟨⟨v, r'⟩, hcall, heq⟩ := Option.map_eq_some_iff.mp h
      refine .inr (.inr ⟨hnone, type, v, r', hcall, ?_⟩)
      rcases r' with e | id
      · obtain ⟨rfl, rfl⟩ := Prod.mk.inj heq
        exact .inl ⟨e, rfl, rfl, rfl⟩
      · obtain ⟨rfl, rfl⟩ := Prod.mk.inj heq
        exact .inr ⟨id, rfl, rfl, rfl⟩

theorem ensureField_spec (hc : c.Paired) (ht : c.Trusts schema name) {abiType : ℕ}
    {r : Except HostError ℕ} (h : c.ensureField schema name abiType = some (c', r)) :
    (∃ e, r = .error e ∧ FieldStep schema c c' name []) ∨
      ∃ id new, r = .ok id ∧ FieldStep schema c c' name new ∧
        TopicView.columnIndex (TopicView.columnList schema c'.view) name = some id := by
  have hrefl := FieldStep.refl hc ht
  rcases ensureField_cases hc h with ⟨e, rfl, rfl⟩ | ⟨id, hid, rfl, rfl⟩ |
    ⟨hnone, type, v, r', hcall, hresult⟩
  · exact .inl ⟨e, rfl, hrefl⟩
  · exact .inr ⟨id, [], rfl, hrefl, ht id hid⟩
  · rcases TopicView.ensureColumn_spec hcall with ⟨e, rfl, hview⟩ | ⟨id, new, rfl, hview, hnew, hid⟩
    · obtain ⟨_, -, rfl, rfl⟩ | ⟨_, heq, -, -⟩ := hresult
      · refine .inl ⟨_, rfl, hview, List.nil_sublist _, fun _ _ ↦ rfl, fun id hid ↦ ?_,
          hc.setView v⟩
        exact absurd (hnone.symm.trans hid) (by simp)
      · cases heq
    · obtain ⟨_, heq, -, -⟩ | ⟨id', heq, rfl, rfl⟩ := hresult
      · cases heq
      obtain rfl := Except.ok.inj heq
      refine .inr ⟨id, new, rfl, ⟨hview, hnew, fun other hother ↦ ?_, fun id' hid' ↦ ?_,
        hc.cons v name id _⟩, hid⟩
      · rw [cachedField, List.find?_cons_of_neg (by simpa using Ne.symm hother)]
        rfl
      · rw [cachedField, List.find?_cons_of_pos (by simp)] at hid'
        exact hid.trans hid'

/-- Whether the cached id is right does not matter to the topic. -/
theorem resolved_ensureField (hc : c.Paired) {abiType : ℕ} {r : Except HostError ℕ}
    (h : c.ensureField schema name abiType = some (c', r)) :
    c'.Paired ∧ ∃ new, TopicView.Resolved schema c.view c'.view new := by
  rcases ensureField_cases hc h with ⟨-, -, rfl⟩ | ⟨-, -, -, rfl⟩ |
    ⟨-, type, v, r', hcall, hresult⟩
  · exact ⟨hc, [], .refl _⟩
  · exact ⟨hc, [], .refl _⟩
  · have hview : ∃ new, TopicView.Resolved schema c.view v new := by
      rcases TopicView.ensureColumn_spec hcall with ⟨-, -, hview⟩ | ⟨-, new, -, hview, -, -⟩
      · exact ⟨[], hview⟩
      · exact ⟨new, hview⟩
    rcases hresult with ⟨-, -, -, rfl⟩ | ⟨id, -, -, rfl⟩
    · exact ⟨hc.setView v, hview⟩
    · exact ⟨hc.cons v name id type, hview⟩

/-- What a field that was resolved asks for in a column has a type. -/
theorem resolveField_spec (hc : c.Paired) {f : NamedField} (ht : c.Trusts schema f.name)
    {r : Except HostError (Option ℕ)} (h : c.resolveField schema f = some (c', r)) :
    (∃ e, r = .error e ∧ FieldStep schema c c' f.name []) ∨
      (r = .ok none ∧ f.isNull = true ∧ FieldStep schema c c' f.name []) ∨
      ∃ id new, r = .ok (some id) ∧ FieldStep schema c c' f.name new ∧
        TopicView.columnIndex (TopicView.columnList schema c'.view) f.name = some id ∧
        TopicView.Typed (id, f.cell) := by
  have hrefl := FieldStep.refl hc ht
  rw [resolveField.eq_def] at h
  split_ifs at h with hnull
  · have htyped : ∀ id : ℕ, TopicView.Typed (id, f.cell) := fun id value hvalue ↦ by
      rw [NamedField.cell, if_pos hnull] at hvalue
      cases hvalue
    split at h
    · split at h
      · obtain ⟨⟨c₁, r'⟩, hcall, heq⟩ := Option.map_eq_some_iff.mp h
        obtain ⟨rfl, rfl⟩ := Prod.mk.inj heq
        rcases ensureField_spec hc ht hcall with ⟨e, rfl, hstep⟩ | ⟨id, new, rfl, hstep, hid⟩
        · exact .inl ⟨e, rfl, hstep⟩
        · exact .inr (.inr ⟨id, new, rfl, hstep, hid, htyped id⟩)
      · obtain ⟨rfl, rfl⟩ := Prod.mk.inj (Option.some.inj h)
        exact .inr (.inl ⟨rfl, hnull, hrefl⟩)
    · rename_i id hid
      obtain ⟨type, htype⟩ := lookupFieldType_of_cachedField schema hc hid
      rw [htype] at h
      obtain ⟨rfl, rfl⟩ := Prod.mk.inj (Option.some.inj h)
      exact .inr (.inr ⟨id, [], rfl, hrefl, ht id hid, htyped id⟩)
  · split at h
    · obtain ⟨rfl, rfl⟩ := Prod.mk.inj (Option.some.inj h)
      exact .inl ⟨_, rfl, hrefl⟩
    · rename_i type htype
      have htyped : ∀ id : ℕ, TopicView.Typed (id, f.cell) := fun id value hvalue ↦ by
        rw [NamedField.cell, if_neg hnull] at hvalue
        obtain rfl := Option.some.inj hvalue
        exact ScalarValue.isSome_stored htype
      -- the value has its own type
      have hvalid : validateScalar f.value type "appendRecord" = .ok () := by
        rw [validateScalar, htype]
        exact if_neg (not_not_intro rfl)
      obtain ⟨⟨c₁, r'⟩, hcall, heq⟩ := Option.map_eq_some_iff.mp h
      rcases ensureField_spec hc ht hcall with ⟨e, rfl, hstep⟩ | ⟨id, new, rfl, hstep, hid⟩
      · obtain ⟨rfl, rfl⟩ := Prod.mk.inj heq
        exact .inl ⟨e, rfl, hstep⟩
      · dsimp only at heq
        rw [hvalid] at heq
        obtain ⟨rfl, rfl⟩ := Prod.mk.inj heq
        exact .inr (.inr ⟨id, new, rfl, hstep, hid, htyped id⟩)

/-! ### All fields -/

/-- The cells a record asks for, `given` being its fields by position, with no position for a field
that has no column. -/
structure CellsOf (given : List (Option ℕ × Option ScalarValue))
    (cells : List (ℕ × Option ScalarValue)) : Prop where
  sound : ∀ p ∈ cells, (some p.1, p.2) ∈ given
  complete : ∀ q ∈ given, ∀ value, q.2 = some value → ∃ id, q.1 = some id ∧ (id, q.2) ∈ cells
  nodup : (cells.map Prod.fst).Nodup
  typed : ∀ p ∈ cells, TopicView.Typed p

/-- A field of a named record, by position. -/
def namedCell (cols : List ColumnDescriptor) (f : NamedField) : Option ℕ × Option ScalarValue :=
  (TopicView.columnIndex cols f.name, f.cell)

def boundCell (f : BoundField) : Option ℕ × Option ScalarValue := (some f.id, f.cell)

theorem CellsOf.nil : CellsOf [] [] := ⟨by simp, by simp, List.nodup_nil, by simp⟩

/-- One more field with a column. -/
theorem CellsOf.cons {given : List (Option ℕ × Option ScalarValue)}
    {cells : List (ℕ × Option ScalarValue)} (h : CellsOf given cells) {id : ℕ}
    {cell : Option ScalarValue} (hnew : ∀ p ∈ cells, p.1 ≠ id)
    (htyped : TopicView.Typed (id, cell)) :
    CellsOf ((some id, cell) :: given) ((id, cell) :: cells) where
  sound p hp := by
    rcases List.mem_cons.mp hp with rfl | hp
    · exact List.mem_cons_self
    · exact List.mem_cons_of_mem _ (h.sound p hp)
  complete q hq value hvalue := by
    rcases List.mem_cons.mp hq with rfl | hq
    · exact ⟨id, rfl, List.mem_cons_self⟩
    · obtain ⟨id', hid', hmem⟩ := h.complete q hq value hvalue
      exact ⟨id', hid', List.mem_cons_of_mem _ hmem⟩
  nodup := by
    rw [List.map_cons, List.nodup_cons]
    refine ⟨fun hmem ↦ ?_, h.nodup⟩
    obtain ⟨p, hp, heq⟩ := List.mem_map.mp hmem
    exact hnew p hp heq
  typed := List.forall_mem_cons.mpr ⟨htyped, h.typed⟩

/-- One more field that is passed over. -/
theorem CellsOf.skip {given : List (Option ℕ × Option ScalarValue)}
    {cells : List (ℕ × Option ScalarValue)} (h : CellsOf given cells) (index : Option ℕ) :
    CellsOf ((index, none) :: given) cells where
  sound p hp := List.mem_cons_of_mem _ (h.sound p hp)
  complete q hq value hvalue := by
    rcases List.mem_cons.mp hq with rfl | hq
    · cases hvalue
    · exact h.complete q hq value hvalue
  nodup := h.nodup
  typed := h.typed

/-- A named record is resolved, or it fails with columns for fields in front of the one at fault. -/
theorem resolveNamed_spec {fields : List NamedField} {seen : List String} (hc : c.Paired)
    (hfits : c.view.Fits) (hdense : c.view.Dense) (ht : ∀ f ∈ fields, c.Trusts schema f.name)
    {r : Except HostError (List (ℕ × Option ScalarValue))}
    (h : c.resolveNamed schema seen fields = some (c', r)) : c'.Paired ∧
      ((∃ e new, r = .error e ∧ TopicView.Resolved schema c.view c'.view new ∧
          new.Sublist (fields.map (·.name)).dropLast) ∨
        ∃ cells new, r = .ok cells ∧ TopicView.Resolved schema c.view c'.view new ∧
          new.Sublist (fields.map (·.name)) ∧ (∀ f ∈ fields, f.name ∉ seen) ∧
          CellsOf (fields.map (namedCell (TopicView.columnList schema c'.view))) cells) := by
  induction fields generalizing c seen r with
  | nil =>
    obtain ⟨rfl, rfl⟩ := Prod.mk.inj (Option.some.inj h)
    exact ⟨hc, .inr ⟨[], [], rfl, .refl c.view, List.nil_sublist _, by simp, .nil⟩⟩
  | cons f fields ih =>
    rw [resolveNamed] at h
    split_ifs at h with hseen
    · obtain ⟨rfl, rfl⟩ := Prod.mk.inj (Option.some.inj h)
      exact ⟨hc, .inl ⟨_, [], rfl, .refl c.view, List.nil_sublist _⟩⟩
    obtain ⟨⟨c₁, r₁⟩, hfield, hrest⟩ := Option.bind_eq_some_iff.mp h
    rcases resolveField_spec hc (ht f List.mem_cons_self) hfield with ⟨e, rfl, hstep⟩ | hresolved
    · obtain ⟨rfl, rfl⟩ := Prod.mk.inj (Option.some.inj hrest)
      exact ⟨hstep.paired, .inl ⟨e, [], rfl, hstep.view, List.nil_sublist _⟩⟩
    · -- the field is resolved, with a column or without
      obtain ⟨handle, new₁, rfl, hstep, hhandle⟩ : ∃ handle new₁, r₁ = .ok handle ∧
          FieldStep schema c c₁ f.name new₁ ∧ (handle = none ∧ f.isNull = true ∨
            ∃ id, handle = some id ∧
              TopicView.columnIndex (TopicView.columnList schema c₁.view) f.name = some id ∧
              TopicView.Typed (id, f.cell)) := by
        rcases hresolved with ⟨rfl, hnull, hstep⟩ | ⟨id, new₁, rfl, hstep, hid, htyped⟩
        · exact ⟨none, [], rfl, hstep, .inl ⟨rfl, hnull⟩⟩
        · exact ⟨some id, new₁, rfl, hstep, .inr ⟨id, rfl, hid, htyped⟩⟩
      obtain ⟨⟨c₂, r₂⟩, htail, heq⟩ := Option.map_eq_some_iff.mp hrest
      obtain ⟨rfl, rfl⟩ := Prod.mk.inj heq
      obtain ⟨hc₂, hcases⟩ := ih hstep.paired (hstep.view.fits hfits)
        (hstep.view.dense hfits hdense)
        (fun g hg ↦ hstep.trusts_of (ht g (List.mem_cons_of_mem f hg))) htail
      refine ⟨hc₂, ?_⟩
      rcases hcases with ⟨e, new, rfl, hview, hnew⟩ | ⟨cells, new, rfl, hview, hnew, hnames, hcells⟩
      · refine .inl ⟨e, new₁ ++ new, rfl, hstep.view.trans hview, ?_⟩
        have hne : fields ≠ [] := by
          rintro rfl
          cases (Prod.mk.inj (Option.some.inj htail)).2
        have hlast : ((f :: fields).map (·.name)).dropLast
            = [f.name] ++ (fields.map (·.name)).dropLast := by
          rw [List.map_cons, List.dropLast_cons_of_ne_nil (by simpa using hne)]
          rfl
        rw [hlast]
        exact hstep.new.append hnew
      · refine .inr ⟨_, new₁ ++ new, rfl, hstep.view.trans hview, hstep.new.append hnew, ?_, ?_⟩
        · refine List.forall_mem_cons.mpr ⟨hseen, fun g hg hmem ↦ ?_⟩
          exact hnames g hg (List.mem_cons_of_mem _ hmem)
        rw [List.map_cons]
        rcases hhandle with ⟨rfl, hnull⟩ | ⟨id, rfl, hid, htyped⟩
        · rw [namedCell, NamedField.cell, if_pos hnull]
          exact hcells.skip _
        · have hid₂ := hview.columnIndex hid
          rw [namedCell, hid₂]
          refine hcells.cons (fun p hp heq ↦ ?_) htyped
          -- a second field for the column would have the same name
          obtain ⟨g, hg, hcell⟩ := List.mem_map.mp (hcells.sound p hp)
          have hgid : TopicView.columnIndex (TopicView.columnList schema c₂.view) g.name
              = some id := (Prod.mk.inj hcell).1.trans (congrArg some heq)
          have hdense₂ : PlotJuggler.Dense (TopicView.columnList schema c₂.view) :=
            (hview.dense (hstep.view.fits hfits) (hstep.view.dense hfits hdense)).columnList
          have hname := TopicView.columnIndex_inj hdense₂ hgid hid₂
          exact hnames g hg (hname ▸ List.mem_cons_self)

/-- A bound record changes nothing before its row. -/
theorem resolveBound_spec {fields : List BoundField} {seen : List ℕ} (hc : c.Paired)
    {r : Except HostError (List (ℕ × Option ScalarValue))}
    (h : c.resolveBound schema seen fields = (c', r)) : c'.Paired ∧ c'.view = c.view ∧
      ∀ cells, r = .ok cells → (∀ f ∈ fields, f.id ∉ seen) ∧
        CellsOf (fields.map boundCell) cells := by
  induction fields generalizing c seen r with
  | nil =>
    obtain ⟨rfl, rfl⟩ := Prod.mk.inj h
    refine ⟨hc, rfl, fun cells hcells ↦ ?_⟩
    obtain rfl := Except.ok.inj hcells
    exact ⟨by simp, .nil⟩
  | cons f fields ih =>
    rw [resolveBound] at h
    by_cases htopic : f.topic ≠ c.view.storage.topicId
    · rw [if_pos htopic] at h
      obtain ⟨rfl, rfl⟩ := Prod.mk.inj h
      exact ⟨hc, rfl, by simp⟩
    by_cases hseen : f.id ∈ seen
    · rw [if_neg htopic, if_pos hseen] at h
      obtain ⟨rfl, rfl⟩ := Prod.mk.inj h
      exact ⟨hc, rfl, by simp⟩
    · rw [if_neg htopic, if_neg hseen] at h
      obtain ⟨hview, hpaired⟩ := lookupFieldType_spec schema hc f.id
      rcases hlookup : c.lookupFieldType schema f.id with ⟨c₁, e | type⟩
      · rw [hlookup] at h hview hpaired
        obtain ⟨rfl, rfl⟩ := Prod.mk.inj h
        exact ⟨hpaired, hview, by simp⟩
      · rw [hlookup] at h hview hpaired
        dsimp only at h
        split at h
        · obtain ⟨rfl, rfl⟩ := Prod.mk.inj h
          exact ⟨hpaired, hview, by simp⟩
        · rename_i hvalid
          rcases htail : c₁.resolveBound schema (f.id :: seen) fields with ⟨c₂, r₂⟩
          rw [htail] at h
          obtain ⟨rfl, rfl⟩ := Prod.mk.inj h
          obtain ⟨hc₂, hview₂, hok⟩ := ih hpaired htail
          refine ⟨hc₂, hview₂.trans hview, fun cells hcells ↦ ?_⟩
          rcases r₂ with e | cells₂
          · cases hcells
          obtain rfl := Except.ok.inj hcells
          obtain ⟨hids, hcells₂⟩ := hok cells₂ rfl
          refine ⟨List.forall_mem_cons.mpr ⟨hseen, fun g hg hmem ↦ ?_⟩, ?_⟩
          · exact hids g hg (List.mem_cons_of_mem _ hmem)
          refine hcells₂.cons (fun p hp heq ↦ ?_) fun value hvalue ↦ ?_
          · obtain ⟨g, hg, hcell⟩ := List.mem_map.mp (hcells₂.sound p hp)
            have hgid : g.id = p.1 := Option.some.inj (Prod.mk.inj hcell).1
            exact hids g hg (hgid.trans heq ▸ List.mem_cons_self)
          · -- a value was compared with the type of its field
            rw [BoundField.cell] at hvalue
            split_ifs at hvalue with hnull
            obtain rfl := Option.some.inj hvalue
            rw [if_neg hnull, validateScalar] at hvalid
            split at hvalid
            · cases hvalid
            · rename_i actual hactual
              exact ScalarValue.isSome_stored hactual

end WriteCore

/-! ## What a record does to its topic -/

/-- The row holds the values a record gives, and is null everywhere else. -/
structure RowHolds (t : Timestamp) (given : List (Option ℕ × Option ScalarValue)) (row : Row) :
    Prop where
  stamp : row.1 = t
  values : ∀ q ∈ given, ∀ value, q.2 = some value →
    ∃ i x, q.1 = some i ∧ value.stored = some x ∧ row.2 i = some x
  nulls : ∀ i, (∀ value, (some i, some value) ∉ given) → row.2 i = none

theorem WriteCore.CellsOf.rowHolds {given : List (Option ℕ × Option ScalarValue)}
    {cells : List (ℕ × Option ScalarValue)} (h : CellsOf given cells) (t : Timestamp) :
    RowHolds t given (t, TopicChunkBuilder.rowCell (cells.map TopicView.cellCall)) where
  stamp := rfl
  values q hq value hvalue := by
    obtain ⟨id, hid, hmem⟩ := h.complete q hq value hvalue
    obtain ⟨x, hx⟩ := Option.isSome_iff_exists.mp (h.typed _ hmem value hvalue)
    refine ⟨id, x, hid, hx, ?_⟩
    -- the call for the column is the only one
    have hcols : (cells.map TopicView.cellCall).map CellCall.col = cells.map Prod.fst := by
      rw [List.map_map]
      exact List.map_congr_left fun p _ ↦ TopicView.col_cellCall p
    have hfind : (cells.map TopicView.cellCall).find? (fun k ↦ k.col = id)
        = some (TopicView.cellCall (id, q.2)) := by
      rcases hf : (cells.map TopicView.cellCall).find? (fun k ↦ k.col = id) with _ | k
      · have hnone := List.find?_eq_none.mp hf _ (List.mem_map_of_mem hmem)
        simp at hnone
      · have hk : k.col = id := by simpa using List.find?_some hf
        have hsame := List.inj_on_of_nodup_map (hcols ▸ h.nodup) (List.mem_of_find?_eq_some hf)
          (List.mem_map_of_mem hmem) (hk.trans (TopicView.col_cellCall (id, q.2)).symm)
        rw [hf, hsame]
    show TopicChunkBuilder.rowCell _ id = some x
    rw [TopicChunkBuilder.rowCell, hfind, Option.bind_some, TopicView.cell_cellCall, hvalue]
    exact hx
  nulls i hi := by
    show TopicChunkBuilder.rowCell _ i = none
    rw [TopicChunkBuilder.rowCell]
    rcases hf : (cells.map TopicView.cellCall).find? (fun k ↦ k.col = i) with _ | k
    · rw [hf]
      rfl
    · obtain ⟨p, hp, rfl⟩ := List.mem_map.mp (List.mem_of_find?_eq_some hf)
      have hcol : p.1 = i := by simpa using List.find?_some hf
      rw [hf, Option.bind_some, TopicView.cell_cellCall]
      rcases hvalue : p.2 with _ | value
      · rfl
      · exact absurd (hcol ▸ hvalue ▸ h.sound p hp) (hi value)

namespace TopicView

variable {schema : Option TypeTreeNode} {v v' v₀ : TopicView} {c : TopicCall}

theorem path_setField {p : ℕ × Option ScalarValue} (h : v.setField p = some v') :
    Path schema v₀ c v v' := by
  rcases p with ⟨i, _ | value⟩
  · exact path_cell (k := .setNull i) h
  · rw [setField] at h
    dsimp only at h
    rw [setFieldValue.eq_def] at h
    split at h
    · rename_i x hx
      exact path_cell (k := .set i x) h
    · obtain rfl := Option.some.inj h
      exact .refl

theorem path_foldlM_setField {cells : List (ℕ × Option ScalarValue)}
    (h : cells.foldlM setField v = some v') : Path schema v₀ c v v' := by
  induction cells generalizing v with
  | nil =>
    obtain rfl := Option.some.inj h
    exact .refl
  | cons p cells ih =>
    obtain ⟨v₁, hstep, hrest⟩ := Option.bind_eq_some_iff.mp h
    exact (path_setField hstep).trans (ih hrest)

theorem path_writeRow {t : Timestamp} {cells : List (ℕ × Option ScalarValue)}
    {r : Except WriteError Unit} (h : v.writeRow schema t cells = some (v', r)) :
    Path schema v₀ c v v' := by
  obtain ⟨⟨v₁, r₁⟩, hbegin, hrest⟩ := Option.bind_eq_some_iff.mp h
  have hbegun : Path schema v₀ c v v₁ := path_beginRow hbegin
  rcases r₁ with e | u
  · obtain ⟨rfl, -⟩ := Prod.mk.inj (Option.some.inj hrest)
    exact hbegun
  · obtain ⟨v₂, hcells, hfinish⟩ := Option.bind_eq_some_iff.mp hrest
    exact (hbegun.trans (path_foldlM_setField hcells)).trans (path_finishRow hfinish)

/-- The writer has the columns of the topic as they are. -/
def KnowsColumns (schema : Option TypeTreeNode) (v : TopicView) : Prop :=
  columnList schema v = loadColumns schema v.storage

/-- What a call that is refused leaves behind: the same rows, and more columns at most, with paths
among `names` and never with the last of them. A writer that has the columns of the topic as they are
leaves them where they were, and the new ones come behind. -/
structure Refused (schema : Option TypeTreeNode) (v v' : TopicView) (names : List String) :
    Prop where
  rows : ∀ rows, v.writer.HasRows rows → v'.writer.HasRows rows
  sealedChunks : v'.storage.sealedChunks = v.storage.sealedChunks
  columns : ∃ new, columnList schema v' = columnList schema v ++ new ∧
    (new.map (·.fieldPath)).Sublist names.dropLast ∧
    (new = [] → v'.storage.columnDescriptors = v.storage.columnDescriptors) ∧
    (KnowsColumns schema v → loadColumns schema v'.storage = loadColumns schema v.storage ++ new)

/-- One row has been added. -/
structure Added (schema : Option TypeTreeNode) (v v' : TopicView) (t : Timestamp)
    (given : List (Option ℕ × Option ScalarValue)) : Prop where
  row : ∃ row, RowHolds t given row ∧
    ∀ rows, v.writer.HasRows rows → v'.writer.HasRows (rows ++ [row])
  sealedChunks : v'.storage.sealedChunks = v.storage.sealedChunks
  columns : columnList schema v <+: columnList schema v'

theorem Resolved.loadColumns_eq {new : List String} (h : Resolved schema v v' new)
    {cols : List ColumnDescriptor} (hcols : columnList schema v' = columnList schema v ++ cols)
    (hpaths : cols.map (·.fieldPath) = new) (hknows : KnowsColumns schema v) :
    loadColumns schema v'.storage = loadColumns schema v.storage ++ cols := by
  rcases eq_or_ne cols [] with rfl | hne
  · rw [List.append_nil, loadColumns.eq_def, loadColumns.eq_def, h.stored hpaths.symm, h.sealedChunks]
  · have hnew : new ≠ [] := by
      rw [← hpaths]
      exact fun hnil ↦ hne (List.map_eq_nil_iff.mp hnil)
    rw [loadColumns.eq_def, h.grown hnew, hcols,
      if_pos (List.append_ne_nil_of_right_ne_nil _ hne), hknows]

theorem Resolved.refused {new names : List String} (h : Resolved schema v v' new)
    (hnew : new.Sublist names.dropLast) : Refused schema v v' names := by
  obtain ⟨cols, hcols, hpaths⟩ := h.columns
  exact ⟨h.rows, h.sealedChunks, cols, hcols, hpaths ▸ hnew,
    fun hnil ↦ h.stored (by rw [← hpaths, hnil]; rfl), h.loadColumns_eq hcols hpaths⟩

/-- Behind the fields comes the row. A builder refuses its timestamp only if no column was added. -/
theorem writeRow_spec {v₁ : TopicView} {new : List String} (names : List String)
    (h : Resolved schema v v₁ new)
    {given : List (Option ℕ × Option ScalarValue)} {cells : List (ℕ × Option ScalarValue)}
    (hcells : WriteCore.CellsOf given cells) {t : Timestamp} {r : Except WriteError Unit}
    (hrow : v₁.writeRow schema t cells = some (v', r)) :
    (∃ e, r = .error e ∧ v' = v₁ ∧ Refused schema v v' names) ∨
      r = .ok () ∧ columnList schema v' = columnList schema v₁ ∧ Added schema v v' t given := by
  rcases writeRow_eq_some hcells.typed hrow with ⟨e, rfl, rfl, hne⟩ | ⟨rfl, b, hb, rfl⟩
  · refine .inl ⟨e, rfl, rfl, h.refused ?_⟩
    have hnil : new = [] := by
      by_contra hnew
      exact hne (h.builder (.inl hnew))
    exact hnil ▸ List.nil_sublist _
  · have hlist : columnList schema ((v₁.getOrCreateBuilder schema).putBack b)
        = columnList schema v₁ :=
      ((onlyLoads_getOrCreateBuilder v₁).trans (onlyLoads_putBack b)).keepsColumns.columnList
    refine .inr ⟨rfl, hlist, ⟨_, hcells.rowHolds t, fun rows hrows ↦ ?_⟩, ?_, ?_⟩
    · apply hasRows_putBack
      apply hasRows_setBuilder (hasRows_getOrCreateBuilder (h.rows rows hrows))
        getOrCreateBuilder_builder
      intro cols opened _ hopened
      refine hopened.runRow ?_ hb
      rw [List.map_map]
      exact (List.map_congr_left fun p _ ↦ col_cellCall p).symm ▸ hcells.nodup
    · rw [putBack_storage, getOrCreateBuilder_storage, h.sealedChunks]
    · obtain ⟨cols, hcols, -⟩ := h.columns
      rw [hlist, hcols]
      exact List.prefix_append _ _

end TopicView

namespace Record

def stamp : Record → Timestamp
  | .named t _ => t
  | .bound t _ => t

/-- The names a record may add columns for. -/
def names : Record → List String
  | .named _ fields => fields.map (·.name)
  | .bound _ _ => []

/-- The fields by position, in a topic with the columns `cols`. -/
def given (cols : List ColumnDescriptor) : Record → List (Option ℕ × Option ScalarValue)
  | .named _ fields => fields.map (WriteCore.namedCell cols)
  | .bound _ fields => fields.map WriteCore.boundCell

end Record

namespace WriteCore

variable {schema : Option TypeTreeNode} {c c' : WriteCore}

/-- What a record leaves behind if the core trusts its names. -/
theorem append_spec {record : Record} (hc : c.Paired) (hfits : c.view.Fits) (hdense : c.view.Dense)
    (ht : ∀ name ∈ record.names, c.Trusts schema name) {r : Except HostError Unit}
    (h : c.append schema record = some (c', r)) :
    c'.Paired ∧ c'.view.Fits ∧ c'.view.Dense ∧
      c'.view.storage.descriptor = c.view.storage.descriptor ∧
      ((∃ e, r = .error e ∧ TopicView.Refused schema c.view c'.view record.names) ∨
        r = .ok () ∧ TopicView.Added schema c.view c'.view record.stamp
          (record.given (TopicView.columnList schema c'.view))) := by
  -- both kinds of record end with the row
  have hend : ∀ {c₁ : WriteCore} {new : List String} {cells : List (ℕ × Option ScalarValue)},
      c₁.Paired → TopicView.Resolved schema c.view c₁.view new →
      CellsOf (record.given (TopicView.columnList schema c₁.view)) cells →
      c₁.writeRow schema record.stamp cells = some (c', r) →
      c'.Paired ∧ c'.view.Fits ∧ c'.view.Dense ∧
        c'.view.storage.descriptor = c.view.storage.descriptor ∧
        ((∃ e, r = .error e ∧ TopicView.Refused schema c.view c'.view record.names) ∨
          r = .ok () ∧ TopicView.Added schema c.view c'.view record.stamp
            (record.given (TopicView.columnList schema c'.view))) := by
    intro c₁ new cells hc₁ hview hcells hwrite
    obtain ⟨⟨v', r'⟩, hrow, heq⟩ := Option.map_eq_some_iff.mp hwrite
    have hpath : TopicView.Path schema c₁.view .finishRow c₁.view v' :=
      TopicView.path_writeRow hrow
    have hfits₁ := hview.fits hfits
    have hafter := hpath.induction (I := fun u ↦ u.Fits ∧ u.Dense ∧
      u.storage.descriptor = c₁.view.storage.descriptor) (fun u u' hstep hu ↦
        ⟨hstep.fits hu.1, hstep.dense hu.1 hu.2.1, hstep.storage.2.1.trans hu.2.2⟩)
      ⟨hfits₁, hview.dense hfits hdense, rfl⟩
    obtain ⟨hfits', hdense', hdesc'⟩ := hafter
    rcases TopicView.writeRow_spec record.names hview hcells hrow with
      ⟨e, rfl, rfl, hrefused⟩ | ⟨rfl, hlist, hadded⟩
    · obtain ⟨rfl, rfl⟩ := Prod.mk.inj heq
      exact ⟨hc₁.setView _, hfits', hdense', hview.descriptor, .inl ⟨_, rfl, hrefused⟩⟩
    · obtain ⟨rfl, rfl⟩ := Prod.mk.inj heq
      refine ⟨hc₁.setView _, hfits', hdense', hdesc'.trans hview.descriptor, .inr ⟨rfl, ?_⟩⟩
      dsimp only
      rw [hlist]
      exact hadded
  cases record with
  | named t fields =>
    obtain ⟨⟨c₁, r₁⟩, hfields, hrest⟩ := Option.bind_eq_some_iff.mp h
    have htrust : ∀ f ∈ fields, c.Trusts schema f.name :=
      fun f hf ↦ ht f.name (List.mem_map_of_mem hf)
    obtain ⟨hc₁, ⟨e, new, rfl, hview, hnew⟩ | ⟨cells, new, rfl, hview, -, -, hcells⟩⟩ :=
      resolveNamed_spec hc hfits hdense htrust hfields
    · obtain ⟨rfl, rfl⟩ := Prod.mk.inj (Option.some.inj hrest)
      exact ⟨hc₁, hview.fits hfits, hview.dense hfits hdense, hview.descriptor,
        .inl ⟨e, rfl, hview.refused hnew⟩⟩
    · exact hend hc₁ hview hcells hrest
  | bound t fields =>
    rw [append, appendBoundRecord] at h
    rcases hfields : c.resolveBound schema [] fields with ⟨c₁, r₁⟩
    obtain ⟨hc₁, hsame, hok⟩ := resolveBound_spec hc hfields
    have hview : TopicView.Resolved schema c.view c₁.view [] := by
      rw [hsame]
      exact .refl c.view
    rw [hfields] at h
    rcases r₁ with e | cells
    · obtain ⟨rfl, rfl⟩ := Prod.mk.inj (Option.some.inj h)
      exact ⟨hc₁, hview.fits hfits, hview.dense hfits hdense, hview.descriptor,
        .inl ⟨e, rfl, hview.refused (List.nil_sublist _)⟩⟩
    · exact hend hc₁ hview (hok cells rfl).2 h

end WriteCore

/-! ## Runs -/

/-- A writer finds the view it put back. -/
theorem World.view_putView {S : Setup} {W : World} {w τ : ℕ} {v v' : TopicView}
    (h : W.view S w τ = some v) : (W.putView S w τ v').view S w τ = some v' := by
  rw [view, putView_engines_self, Engine.mapTopic_self, (view_eq_some h).1, putView_writers,
    setWriter_self]
  rfl

namespace Host

variable {S : Setup} {w τ : ℕ} {H H' : Host}

/-- A core trusts the names of the records it is given, and a batch has data for all columns. -/
def Meets (S : Setup) (w τ : ℕ) (H : Host) : HostCall → Prop
  | .append record => ∀ c, H.core S w τ = some c →
    ∀ name ∈ record.names, c.Trusts (World.schemaOf S w c.view) name
  | .appendColumns ts batch => ∀ v, H.world.view S w τ = some v → ts ≠ [] →
    v.Completes (World.schemaOf S w v) ts.length batch
  | _ => True

/-- Every step of a run meets this where it starts. -/
def RunMeets (S : Setup) (w τ : ℕ) : Host → List HostCall → Prop
  | _, [] => True
  | H, c :: calls => H.Meets S w τ c ∧ ∀ H', H.step S w τ c = some H' → RunMeets S w τ H' calls

/-- What holds between the calls. -/
structure Sound (S : Setup) (w τ : ℕ) (H : Host) : Prop where
  fits : H.world.Fits S
  dense : H.world.Dense S
  rows : ∃ rows, (H.world.writers w τ).HasRows rows
  paired : ∀ p ∈ H.fieldCache, (H.fieldTypes.find? fun q ↦ q.1 = p.2).isSome

theorem sound_initial {W : World} (hW : W.Initial S) : Sound S w τ { world := W } where
  fits := hW.fits
  dense := hW.dense
  rows := ⟨[], TopicWriter.hasRows_empty (hW.builder w τ) (hW.pending w τ)⟩
  paired := by simp

theorem core_eq_some {c : WriteCore} (h : H.core S w τ = some c) :
    H.world.view S w τ = some c.view ∧ c.fieldCache = H.fieldCache ∧
      c.fieldTypes = H.fieldTypes := by
  obtain ⟨v, hv, rfl⟩ := Option.map_eq_some_iff.mp h
  exact ⟨hv, rfl, rfl⟩

theorem Sound.core (hH : H.Sound S w τ) {c : WriteCore} (h : H.core S w τ = some c) :
    c.Paired ∧ c.view.Fits ∧ c.view.Dense ∧ ∃ rows, c.view.writer.HasRows rows := by
  obtain ⟨hv, hnames, htypes⟩ := core_eq_some h
  refine ⟨fun p hp ↦ ?_, hH.fits.view hv, hH.dense.view hv, ?_⟩
  · rw [WriteCore.cachedType, htypes, Option.isSome_map]
    exact hH.paired p (hnames ▸ hp)
  · rw [← (World.view_eq_some hv).2.1]
    exact hH.rows

theorem Sound.putCore (hH : H.Sound S w τ) {c c' : WriteCore} (h : H.core S w τ = some c)
    (hdesc : c'.view.storage.descriptor = c.view.storage.descriptor) (hpaired : c'.Paired)
    (hfits : c'.view.Fits) (hdense : c'.view.Dense)
    (hrows : ∃ rows, c'.view.writer.HasRows rows) : (H.putCore S w τ c').Sound S w τ := by
  obtain ⟨hv, -, -⟩ := core_eq_some h
  refine ⟨hH.fits.putView hv hdesc hfits, hH.dense.putView hv hdesc hdense, ?_, fun p hp ↦ ?_⟩
  · show ∃ rows, ((H.world.putView S w τ c'.view).writers w τ).HasRows rows
    rw [World.putView_writers, World.setWriter_self]
    exact hrows
  · have hp' := hpaired p hp
    rwa [WriteCore.cachedType, Option.isSome_map] at hp'

/-- What others do leaves the rows of the core's writer alone, but for those a flush hands out. -/
theorem Sound.others (hH : H.Sound S w τ) {c : Call} (hc : ¬c.IsOn w τ)
    (h : H.worldStep S c = some H') : H'.Sound S w τ := by
  obtain ⟨⟨W', out⟩, hstep, rfl⟩ := Option.map_eq_some_iff.mp h
  refine ⟨(World.step_keeps hH.fits hstep).2, World.step_dense hH.fits hH.dense hstep, ?_,
    hH.paired⟩
  refine World.writers_step (P := fun w' τ' tw ↦ w' = w ∧ τ' = τ → ∃ rows, tw.HasRows rows)
    hH.fits (fun w' τ' hsame ↦ ?_) ?_ ?_ ?_ hstep w τ ⟨rfl, rfl⟩
  · rw [hsame.1, hsame.2]
    exact hH.rows
  · rintro w' τ' tc rfl schema v v' - - - hsame
    exact absurd hsame hc
  · rintro w' τ' v hv hsame
    obtain ⟨rows, hrows⟩ := hv hsame
    obtain ⟨-, rest, -, -, hrest⟩ := TopicView.hasRows_flush hrows
    exact ⟨rest, hrest⟩
  · rintro w' τ' tw hv hsame
    obtain ⟨rows, hrows⟩ := hv hsame
    obtain ⟨-, rest, -, -, hrest⟩ := hrows.takePending
    exact ⟨rest, hrest⟩

theorem Sound.appendColumns (hH : H.Sound S w τ) {ts : List Timestamp} {batch : List ColumnData}
    (hm : H.Meets S w τ (.appendColumns ts batch))
    (h : H.worldStep S (.topic w τ (.appendColumns ts batch)) = some H') : H'.Sound S w τ := by
  obtain ⟨⟨W', out⟩, hstep, rfl⟩ := Option.map_eq_some_iff.mp h
  refine ⟨(World.step_keeps hH.fits hstep).2, World.step_dense hH.fits hH.dense hstep, ?_,
    hH.paired⟩
  rcases World.topicCall_eq_some hstep with ⟨-, rfl⟩ | ⟨v, v', hv, hcall, rfl⟩
  · exact hH.rows
  · obtain ⟨⟨v₁, r⟩, happ, heq⟩ := Option.map_eq_some_iff.mp hcall
    obtain ⟨rfl, -⟩ := Prod.mk.inj heq
    obtain ⟨rows, hrows⟩ := hH.rows
    rw [(World.view_eq_some hv).2.1] at hrows
    show ∃ rows, ((H.world.putView S w τ v₁).writers w τ).HasRows rows
    rw [World.putView_writers, World.setWriter_self]
    rcases TopicView.hasRows_appendColumns (hH.fits.view hv) hrows happ with
      ⟨-, -, hsame⟩ | ⟨-, hmore⟩
    · exact ⟨rows, hsame⟩
    · exact ⟨_, hmore (hm v hv)⟩

theorem Sound.ensureField (hH : H.Sound S w τ) {name : String} {abiType : ℕ}
    {r : Except HostError ℕ} (h : H.ensureField S w τ name abiType = some (H', r)) :
    H'.Sound S w τ := by
  rw [Host.ensureField.eq_def] at h
  rcases hc : H.core S w τ with _ | c
  · rw [hc] at h
    obtain ⟨rfl, -⟩ := Prod.mk.inj (Option.some.inj h)
    exact hH
  · rw [hc] at h
    obtain ⟨⟨c', r'⟩, hcall, heq⟩ := Option.map_eq_some_iff.mp h
    obtain ⟨rfl, -⟩ := Prod.mk.inj heq
    obtain ⟨hpaired, hfits, hdense, rows, hrows⟩ := hH.core hc
    obtain ⟨hpaired', new, hview⟩ := WriteCore.resolved_ensureField hpaired hcall
    exact hH.putCore hc hview.descriptor hpaired' (hview.fits hfits) (hview.dense hfits hdense)
      ⟨rows, hview.rows rows hrows⟩

/-- What a record call leaves behind: nothing if the topic is missing, and else no row in progress,
and a row for an answer of `true` only. -/
def Leaves (S : Setup) (w τ : ℕ) (H H' : Host) (record : Record) (r : Except HostError Unit) :
    Prop :=
  (H.core S w τ = none ∧ H' = H ∧ r = .error (.topicNotFound τ)) ∨
    ∃ v v', H.world.view S w τ = some v ∧ H'.world.view S w τ = some v' ∧
      (∃ rows, v.writer.HasRows rows) ∧ v'.isRowInProgress = false ∧
      ((∃ e, r = .error e ∧ TopicView.Refused (World.schemaOf S w v) v v' record.names) ∨
        r = .ok () ∧ TopicView.Added (World.schemaOf S w v) v v' record.stamp
          (record.given (TopicView.columnList (World.schemaOf S w v) v')))

theorem Sound.append (hH : H.Sound S w τ) {record : Record} (hm : H.Meets S w τ (.append record))
    {r : Except HostError Unit} (h : H.append S w τ record = some (H', r)) :
    H'.Sound S w τ ∧ Leaves S w τ H H' record r := by
  rw [Host.append.eq_def] at h
  rcases hc : H.core S w τ with _ | c
  · rw [hc] at h
    obtain ⟨rfl, rfl⟩ := Prod.mk.inj (Option.some.inj h)
    exact ⟨hH, .inl ⟨hc, rfl, rfl⟩⟩
  · rw [hc] at h
    obtain ⟨⟨c', r'⟩, hcall, heq⟩ := Option.map_eq_some_iff.mp h
    obtain ⟨rfl, rfl⟩ := Prod.mk.inj heq
    obtain ⟨hpaired, hfits, hdense, rows, hrows⟩ := hH.core hc
    obtain ⟨hpaired', hfits', hdense', hdesc, hcases⟩ :=
      WriteCore.append_spec hpaired hfits hdense (hm c hc) hcall
    have hrows' : ∃ rows', c'.view.writer.HasRows rows' := by
      rcases hcases with ⟨-, -, hrefused⟩ | ⟨-, ⟨row, -, hadded⟩, -, -⟩
      · exact ⟨rows, hrefused.rows rows hrows⟩
      · exact ⟨_, hadded rows hrows⟩
    refine ⟨hH.putCore hc hdesc hpaired' hfits' hdense' hrows', .inr ⟨c.view, c'.view,
      (core_eq_some hc).1, World.view_putView (core_eq_some hc).1, ⟨rows, hrows⟩, ?_, hcases⟩⟩
    obtain ⟨rows', hrows'⟩ := hrows'
    exact TopicView.isRowInProgress_of_hasRows hrows'

/-- Every step keeps what holds between the calls. -/
theorem Sound.step (hH : H.Sound S w τ) {c : HostCall} (hm : H.Meets S w τ c)
    (h : H.step S w τ c = some H') : H'.Sound S w τ := by
  cases c with
  | ensureField name abiType =>
    obtain ⟨⟨H₁, r⟩, hcall, rfl⟩ := Option.map_eq_some_iff.mp h
    exact hH.ensureField hcall
  | append record =>
    obtain ⟨⟨H₁, r⟩, hcall, rfl⟩ := Option.map_eq_some_iff.mp h
    exact (hH.append hm hcall).1
  | appendColumns ts batch => exact hH.appendColumns hm h
  | world c =>
    rw [Host.step] at h
    split_ifs at h with hc
    exact hH.others hc h

theorem Sound.run (hH : H.Sound S w τ) {calls : List HostCall} (hm : RunMeets S w τ H calls)
    (h : run S w τ H calls = some H') : H'.Sound S w τ := by
  induction calls generalizing H with
  | nil =>
    obtain rfl := Option.some.inj h
    exact hH
  | cons c calls ih =>
    obtain ⟨H₁, hstep, hrest⟩ := Option.bind_eq_some_iff.mp h
    exact ih (hH.step hm.1 hstep) (hm.2 H₁ hstep) hrest

/-- A value and a typed null: both columns are new. -/
def recordXY : Record :=
  .named 5 [{ name := "x", value := .float64 .one },
    { name := "y", isNull := true, value := .bool 0 }]

/-- A value for the first column. -/
def recordX : Record := .bound 7 [{ topic := 1, id := 0, value := .float64 .one }]

/-- The same name twice. -/
def recordXX : Record :=
  .named 5 [{ name := "x", value := .float64 .one }, { name := "x", value := .float64 .one }]

end Host

end PlotJuggler
