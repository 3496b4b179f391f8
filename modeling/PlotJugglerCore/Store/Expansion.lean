import Mathlib.Data.List.Induction
import PlotJugglerCore.Lib.GroupedGrowth
import PlotJugglerCore.Store.Growth
import PlotJugglerCore.Store.Runs

/-!
# The columns of one writer

Columns are only ever added, and the two calls that add them look for the path first. For an element
that is a struct this is a look for any column below its path: one that `ensureColumn` has put there
by hand is taken for all of them, and the rest of the element never comes. Apart from that, and from
structs that name a field twice, the list of a writer that has its topic to itself is sound after any
run of calls (`run_growsSoundly_iff`).

The paths of two elements never meet, since the index ends at a bracket, so one element's columns
are never taken for another's and `expandArray` has a closed form (`paths_growAll`).
-/

namespace PlotJuggler

/-! ## Paths of elements -/

theorem toList_elementPath (path : String) (i : ℕ) :
    (elementPath path i).toList = path.toList ++ '[' :: (Nat.toDigits 10 i ++ [']']) := by
  simp [elementPath, String.toList_append]

theorem elementPath_ne_empty (path : String) (i : ℕ) : elementPath path i ≠ "" := by
  intro h
  have hlist := congrArg String.toList h
  rw [toList_elementPath] at hlist
  exact absurd hlist (by simp)

/-- The digits of an index can be read off in front of the bracket. -/
theorem index_eq_of_append_eq {i j : ℕ} {rest rest' : List Char}
    (h : Nat.toDigits 10 i ++ ']' :: rest = Nat.toDigits 10 j ++ ']' :: rest') : i = j := by
  have hdigits : ∀ (k : ℕ) (r : List Char),
      (Nat.toDigits 10 k ++ ']' :: r).takeWhile Char.isDigit = Nat.toDigits 10 k := by
    intro k r
    rw [List.takeWhile_append_of_pos fun c hc ↦ Nat.isDigit_of_mem_toDigits (by decide) (by decide) hc]
    simp
  have heq := congrArg (List.takeWhile Char.isDigit) h
  rw [hdigits, hdigits] at heq
  have hparsed := congrArg (fun digits ↦ Nat.ofDigitChars 10 digits 0) heq
  simpa using hparsed

/-- The path `p` is the one of the element or lies below it. -/
def LiesAt (path : String) (i : ℕ) (p : String) : Prop :=
  p = elementPath path i ∨ p.startsWith (elementPath path i ++ ".") = true

instance (path : String) (i : ℕ) (p : String) : Decidable (LiesAt path i p) :=
  inferInstanceAs (Decidable (_ ∨ _))

theorem LiesAt.toList {path p : String} {i : ℕ} (h : LiesAt path i p) :
    ∃ rest, p.toList = path.toList ++ '[' :: (Nat.toDigits 10 i ++ ']' :: rest) := by
  rcases h with rfl | h
  · exact ⟨[], toList_elementPath path i⟩
  · obtain ⟨rest, hrest⟩ := String.startsWith_string_iff.mp h
    refine ⟨'.' :: rest, ?_⟩
    rw [← hrest, String.toList_append, toList_elementPath]
    simp

/-- No path lies at two elements. -/
theorem LiesAt.index_eq {path p : String} {i j : ℕ} (h : LiesAt path i p) (h' : LiesAt path j p) :
    i = j := by
  obtain ⟨rest, hrest⟩ := h.toList
  obtain ⟨rest', hrest'⟩ := h'.toList
  have heq := List.append_cancel_left (hrest.symm.trans hrest')
  exact index_eq_of_append_eq (List.cons.inj heq).2

/-! ### Paths below a path -/

theorem toList_joinPath_of_ne {path : String} (h : path ≠ "") (name : String) :
    (joinPath path name).toList = path.toList ++ '.' :: name.toList := by
  rw [joinPath, if_neg (by simpa using h), String.toList_append, String.toList_append]
  simp

theorem joinPath_ne_empty {path : String} (h : path ≠ "") (name : String) :
    joinPath path name ≠ "" := by
  intro heq
  have hlist := congrArg String.toList heq
  rw [toList_joinPath_of_ne h] at hlist
  exact absurd hlist (by simp)

mutual

theorem prefix_of_mem_flattenColumns (node : TypeTreeNode) {path : String} (hpath : path ≠ "")
    {leaf : Leaf} (h : leaf ∈ flattenColumns node path) :
    (path.toList ++ ['.']) <+: leaf.1.toList := by
  obtain ⟨name, kind, primitiveType, children, elementType, fixedArraySize⟩ := node
  have hjoin : (path.toList ++ ['.']) <+: (joinPath path name).toList := by
    rw [toList_joinPath_of_ne hpath]
    exact ⟨name.toList, by simp⟩
  cases kind with
  | struct =>
    rw [flattenColumns] at h
    exact (hjoin.trans (List.prefix_append _ _)).trans
      (prefix_of_mem_flattenChildren children (joinPath_ne_empty hpath name) h)
  | array =>
    rw [flattenColumns.eq_def] at h
    cases fixedArraySize with
    | none => exact absurd h List.not_mem_nil
    | some n =>
      obtain ⟨i, -, hi⟩ := List.mem_flatMap.mp h
      have hindex : (joinPath path name).toList <+:
          (elementPath (joinPath path name) i).toList := by
        rw [toList_elementPath]
        exact List.prefix_append _ _
      rcases path_of_mem_flattenOptionalElement elementType
        (elementPath_ne_empty (joinPath path name) i) hi with heq | hbelow
      · rw [heq]
        exact hjoin.trans hindex
      · exact (hjoin.trans hindex).trans ((List.prefix_append _ _).trans hbelow)
  | primitive =>
    rw [List.mem_singleton.mp h]
    exact hjoin
  | enum =>
    rw [List.mem_singleton.mp h]
    exact hjoin

theorem path_of_mem_flattenOptionalElement (element : Option TypeTreeNode) {path : String}
    (hpath : path ≠ "") {leaf : Leaf} (h : leaf ∈ flattenOptionalElement element path) :
    leaf.1 = path ∨ (path.toList ++ ['.']) <+: leaf.1.toList := by
  cases element with
  | none => exact absurd h List.not_mem_nil
  | some element =>
    obtain ⟨name, kind, primitiveType, children, elementType, fixedArraySize⟩ := element
    cases kind with
    | struct =>
      rw [flattenOptionalElement, flattenArrayElement] at h
      exact .inr (prefix_of_mem_flattenChildren children hpath h)
    | array => exact .inl (by rw [List.mem_singleton.mp h])
    | primitive => exact .inl (by rw [List.mem_singleton.mp h])
    | enum => exact .inl (by rw [List.mem_singleton.mp h])

theorem prefix_of_mem_flattenChildren (children : List TypeTreeNode) {path : String}
    (hpath : path ≠ "") {leaf : Leaf} (h : leaf ∈ flattenChildren children path) :
    (path.toList ++ ['.']) <+: leaf.1.toList := by
  cases children with
  | nil => exact absurd h List.not_mem_nil
  | cons child children =>
    rw [flattenChildren] at h
    rcases List.mem_append.mp h with h | h
    · exact prefix_of_mem_flattenColumns child hpath h
    · exact prefix_of_mem_flattenChildren children hpath h

end

theorem liesAt_of_mem_flattenOptionalElement {element : Option TypeTreeNode} {path : String} {i : ℕ}
    {leaf : Leaf} (h : leaf ∈ flattenOptionalElement element (elementPath path i)) :
    LiesAt path i leaf.1 := by
  rcases path_of_mem_flattenOptionalElement element (elementPath_ne_empty path i) h with heq | hbelow
  · exact .inl heq
  · exact .inr (String.startsWith_string_iff.mpr (by simpa [String.toList_append] using hbelow))

/-! ## The columns of an element -/

namespace TopicView

/-- The paths of the columns of an element: one without a schema, else what the schema's element
flattens to. -/
def elementPaths (node : Option TypeTreeNode) (path : String) (i : ℕ) : List String :=
  match node with
  | none => [elementPath path i]
  | some node => (flattenOptionalElement node.elementType (elementPath path i)).map Prod.fst

/-- `expandArray` takes a column with this path for the element. -/
def StandsFor (node : Option TypeTreeNode) (path : String) (i : ℕ) (p : String) : Prop :=
  match node with
  | none => p = elementPath path i
  | some _ => LiesAt path i p

instance (node : Option TypeTreeNode) (path : String) (i : ℕ) (p : String) :
    Decidable (StandsFor node path i p) :=
  match node with
  | none => inferInstanceAs (Decidable (p = elementPath path i))
  | some _ => inferInstanceAs (Decidable (LiesAt path i p))

theorem owned_elementPaths (node : Option TypeTreeNode) (path : String) :
    GroupedGrowth.Owned (StandsFor node path) (elementPaths node path) := by
  match node with
  | none =>
    exact ⟨fun i p hp ↦ List.mem_singleton.mp hp, fun i j p hi hj ↦ LiesAt.index_eq (.inl hi) (.inl hj)⟩
  | some node =>
    refine ⟨fun i p hp ↦ ?_, fun i j p hi hj ↦ LiesAt.index_eq hi hj⟩
    obtain ⟨leaf, hleaf, rfl⟩ := List.mem_map.mp hp
    exact liesAt_of_mem_flattenOptionalElement hleaf

theorem paths_numberFrom (next : ℕ) (leaves : List Leaf) :
    (numberFrom next leaves).map (·.fieldPath) = leaves.map Prod.fst := by
  induction leaves generalizing next with
  | nil => rfl
  | cons leaf leaves ih => rw [numberFrom, List.map_cons, ih, List.map_cons]

theorem paths_growSchemaless (path : String) (type : PrimitiveType) (cols : List ColumnDescriptor)
    (i : ℕ) : (growSchemaless path type cols i).map (·.fieldPath) =
      cols.map (·.fieldPath) ++ GroupedGrowth.added (StandsFor none path) (elementPaths none path)
        (cols.map (·.fieldPath)) i := by
  have hany : (cols.any fun col ↦ col.fieldPath = elementPath path i) = true ↔
      ∃ p ∈ cols.map (·.fieldPath), StandsFor none path i p := by
    simp [StandsFor]
  rw [growSchemaless]
  split_ifs with hthere
  · rw [GroupedGrowth.added_of_mem (hany.mp hthere), List.append_nil]
  · rw [GroupedGrowth.added_of_notMem fun h ↦ hthere (hany.mpr h), List.map_append]
    rfl

theorem paths_growTyped (path : String) (node : TypeTreeNode) (cols : List ColumnDescriptor)
    (i : ℕ) : (growTyped path node.elementType cols i).map (·.fieldPath) =
      cols.map (·.fieldPath) ++ GroupedGrowth.added (StandsFor (some node) path)
        (elementPaths (some node) path) (cols.map (·.fieldPath)) i := by
  have hany : (cols.any fun col ↦ col.fieldPath = elementPath path i ∨
      col.fieldPath.startsWith (elementPath path i ++ ".")) = true ↔
      ∃ p ∈ cols.map (·.fieldPath), StandsFor (some node) path i p := by
    simp [StandsFor, LiesAt]
  rw [growTyped]
  split_ifs with hthere
  · rw [GroupedGrowth.added_of_mem (hany.mp hthere), List.append_nil]
  · rw [GroupedGrowth.added_of_notMem fun h ↦ hthere (hany.mpr h), List.map_append,
      paths_numberFrom]
    rfl

/-- The paths behind `expandArray`, from the paths before it. -/
theorem paths_expandedColumns (path : String) (type : PrimitiveType) (node : Option TypeTreeNode)
    (current actual : ℕ) (cols : List ColumnDescriptor) :
    (expandedColumns path type node current actual cols).map (·.fieldPath) =
      cols.map (·.fieldPath) ++ (List.range' current (actual - current)).flatMap
        (GroupedGrowth.added (StandsFor node path) (elementPaths node path)
          (cols.map (·.fieldPath))) := by
  have hrange : (List.range' current (actual - current)).Nodup := List.nodup_range' 1
  match node with
  | none =>
    exact GroupedGrowth.map_foldl (owned_elementPaths none path)
      (paths_growSchemaless path type) hrange cols
  | some node =>
    exact GroupedGrowth.map_foldl (owned_elementPaths (some node) path)
      (paths_growTyped path node) hrange cols

/-! ## The column list -/

variable {schema : Option TypeTreeNode} {v v' : TopicView}

/-- The columns a call on the topic works with. -/
def columnList (schema : Option TypeTreeNode) (v : TopicView) : List ColumnDescriptor :=
  (v.ensureColsLoaded schema).writer.columns

def columnPaths (schema : Option TypeTreeNode) (v : TopicView) : List String :=
  (columnList schema v).map (·.fieldPath)

theorem columnList_of_ne (h : v.writer.columns ≠ []) : columnList schema v = v.writer.columns := by
  rw [columnList, ensureColsLoaded_columns, if_pos h]

theorem columnList_of_nil (h : v.writer.columns = []) :
    columnList schema v = loadColumns schema v.storage := by
  rw [columnList, ensureColsLoaded_columns, if_neg (not_not_intro h)]

theorem columns_of_columnList_nil (h : columnList schema v = []) :
    v.writer.columns = [] ∧ loadColumns schema v.storage = [] := by
  by_cases hcols : v.writer.columns = []
  · exact ⟨hcols, columnList_of_nil hcols ▸ h⟩
  · rw [columnList_of_ne hcols] at h
    exact absurd h hcols

/-- A list that was loaded, or not touched, is the same list. -/
theorem columnList_congr (hload : loadColumns schema v'.storage = loadColumns schema v.storage)
    (hcols : v'.writer.columns = v.writer.columns ∨ v'.writer.columns = columnList schema v) :
    columnList schema v' = columnList schema v := by
  by_cases hnil : v'.writer.columns = []
  · rw [columnList_of_nil hnil, hload]
    rcases hcols with hcols | hcols
    · rw [columnList_of_nil (hcols ▸ hnil)]
    · obtain ⟨-, hnone⟩ := columns_of_columnList_nil (hcols ▸ hnil)
      rw [hnone, ← hcols, hnil]
  · rw [columnList_of_ne hnil]
    rcases hcols with hcols | hcols
    · rw [hcols, columnList_of_ne (hcols ▸ hnil)]
    · exact hcols

theorem columnList_ensureColsLoaded : columnList schema (v.ensureColsLoaded schema) =
    columnList schema v :=
  columnList_congr (by rw [ensureColsLoaded_storage]) (.inr rfl)

theorem columnList_sealBeforeLayoutChange : columnList schema v.sealBeforeLayoutChange =
    columnList schema v :=
  columnList_congr (by rw [sealBeforeLayoutChange_storage]) (.inl sealBeforeLayoutChange_columns)

theorem columnList_mapStorage {f : TopicStorage → TopicStorage}
    (hf : v.storage.SameContents (f v.storage)) :
    columnList schema (v.mapStorage f) = columnList schema v :=
  columnList_congr (loadColumns_congr hf) (.inl rfl)

/-- Growing replaces the list. -/
theorem columnList_growColumns {cols : List ColumnDescriptor} (h : columnList schema v <+: cols) :
    columnList schema (v.growColumns cols) = cols := by
  by_cases hnil : cols = []
  · subst hnil
    obtain ⟨-, hload⟩ := columns_of_columnList_nil (List.prefix_nil.mp h)
    have hstored : v.storage.columnDescriptors = [] := by
      by_contra hne
      rw [loadColumns.eq_def, if_pos hne] at hload
      exact hne hload
    have hsame : (v.growColumns []).storage = v.storage := by
      rw [growColumns, TopicStorage.setColumnDescriptors, ← hstored]
    rw [columnList_of_nil rfl, hsame, hload]
  · exact columnList_of_ne hnil

/-! ## What each call does to it -/

theorem arrayExpansionCount_set (s : TopicStorage) (path path' : String) (count : ℕ) :
    (s.setArrayExpansionCount path count).arrayExpansionCount path' =
      if path' = path then count else s.arrayExpansionCount path' := by
  rw [TopicStorage.arrayExpansionCount, TopicStorage.setArrayExpansionCount]
  dsimp only
  by_cases h : path' = path
  · subst h
    simp
  · have hfind : (s.arrayExpansionCounts.filter fun p ↦ p.1 ≠ path).find? (fun p ↦ p.1 = path') =
        s.arrayExpansionCounts.find? fun p ↦ p.1 = path' := by
      rw [List.find?_filter]
      congr 1
      funext p
      by_cases hp : p.1 = path'
      · simp [hp, h]
      · simp [hp]
    rw [if_neg h, List.find?_cons_of_neg (by simpa using Ne.symm h), hfind,
      TopicStorage.arrayExpansionCount]

/-- A call that is not about columns. -/
structure KeepsColumns (schema : Option TypeTreeNode) (v v' : TopicView) : Prop where
  columnList : columnList schema v' = columnList schema v
  count : ∀ path, v'.storage.arrayExpansionCount path = v.storage.arrayExpansionCount path

theorem KeepsColumns.of_storage (hs : v'.storage = v.storage)
    (hcols : v'.writer.columns = v.writer.columns ∨ v'.writer.columns = TopicView.columnList schema v) :
    KeepsColumns schema v v' :=
  ⟨columnList_congr (by rw [hs]) hcols, fun _ ↦ by rw [hs]⟩

/-- A call that leaves the storage alone, and loads the list of the writer at most. -/
structure OnlyLoads (schema : Option TypeTreeNode) (v v' : TopicView) : Prop where
  storage : v'.storage = v.storage
  columns : v'.writer.columns = v.writer.columns ∨
    v'.writer.columns = TopicView.columnList schema v

theorem OnlyLoads.keepsColumns (h : OnlyLoads schema v v') : KeepsColumns schema v v' :=
  .of_storage h.storage h.columns

theorem OnlyLoads.refl (v : TopicView) : OnlyLoads schema v v := ⟨rfl, .inl rfl⟩

theorem OnlyLoads.trans {v'' : TopicView} (h : OnlyLoads schema v v')
    (h' : OnlyLoads schema v' v'') : OnlyLoads schema v v'' := by
  refine ⟨h'.storage.trans h.storage, ?_⟩
  rcases h'.columns with hsame | hloaded
  · rw [hsame]
    exact h.columns
  · exact .inr (hloaded.trans h.keepsColumns.columnList)

theorem onlyLoads_ensureColsLoaded (v : TopicView) :
    OnlyLoads schema v (v.ensureColsLoaded schema) :=
  ⟨ensureColsLoaded_storage, .inr rfl⟩

theorem onlyLoads_getOrCreateBuilder (v : TopicView) :
    OnlyLoads schema v (v.getOrCreateBuilder schema) := by
  rcases hb : v.writer.builder with _ | b
  · rw [getOrCreateBuilder_of_none hb]
    exact ⟨ensureColsLoaded_storage, .inr rfl⟩
  · rw [getOrCreateBuilder_of_some hb]
    exact .refl v

theorem onlyLoads_putBack (b : TopicChunkBuilder) : OnlyLoads schema v (v.putBack b) :=
  ⟨putBack_storage, .inl putBack_columns⟩

theorem onlyLoads_setBuilder (b : TopicChunkBuilder) : OnlyLoads schema v (v.setBuilder b) :=
  ⟨rfl, .inl rfl⟩

theorem onlyLoads_appendColumns {ts : List Timestamp} {cols : List ColumnData}
    {r : Except WriteError Unit} (hv : v.Fits)
    (h : v.appendColumns schema ts cols = some (v', r)) : OnlyLoads schema v v' := by
  rcases appendColumns_eq_some h with ⟨-, -, rfl | rfl⟩ | ⟨-, -, rfl⟩ | ⟨-, -, -, hloop⟩
  · exact .refl _
  · exact onlyLoads_getOrCreateBuilder v
  · exact .refl _
  · refine (appendLoop_induction (I := fun _ u ↦ OnlyLoads schema v u) ?_
      (fits_getOrCreateBuilder hv) (Nat.zero_le _) (onlyLoads_getOrCreateBuilder v) hloop).2
    intro o n u b hu _ _ _ _ _
    exact (hu.trans (onlyLoads_getOrCreateBuilder u)).trans (onlyLoads_putBack b)

/-- A list that is written to the writer and the storage. -/
structure Writes (cols : List ColumnDescriptor) (v v' : TopicView) : Prop where
  columns : v'.writer.columns = cols
  stored : v'.storage.columnDescriptors = cols
  sealedChunks : v'.storage.sealedChunks = v.storage.sealedChunks
  descriptor : v'.storage.descriptor = v.storage.descriptor

/-- The list is as before, or a new path has come to its end. -/
theorem ensureColumn_cases {path : String} {type : PrimitiveType} {r : Except WriteError ℕ}
    (h : v.ensureColumn schema path type = some (v', r)) :
    (path ∈ columnPaths schema v ∨ v.isRowInProgress = true) ∧ OnlyLoads schema v v' ∨
      path ∉ columnPaths schema v ∧ v.isRowInProgress = false ∧
      (∀ p, v'.storage.arrayExpansionCount p = v.storage.arrayExpansionCount p) ∧
      Writes (columnList schema v ++ [⟨(columnList schema v).length, type, path⟩]) v v' ∧
      columnList schema v' = columnList schema v ++ [⟨(columnList schema v).length, type, path⟩] := by
  rw [ensureColumn] at h
  split at h
  · rename_i col hfind
    have hmem : path ∈ columnPaths schema v :=
      List.mem_map.mpr ⟨col, List.mem_of_find?_eq_some hfind, by simpa using List.find?_some hfind⟩
    split_ifs at h <;>
    · obtain ⟨rfl, -⟩ := Prod.mk.inj (Option.some.inj h)
      exact .inl ⟨.inl hmem, onlyLoads_ensureColsLoaded v⟩
  · rename_i hfind
    split_ifs at h with hrow
    · obtain ⟨rfl, -⟩ := Prod.mk.inj (Option.some.inj h)
      exact .inl ⟨.inr hrow, onlyLoads_ensureColsLoaded v⟩
    · obtain ⟨rfl, -⟩ := Prod.mk.inj (Option.some.inj h)
      have hstorage : (v.ensureColsLoaded schema).sealBeforeLayoutChange.storage = v.storage := by
        rw [sealBeforeLayoutChange_storage, ensureColsLoaded_storage]
      have hcount := congrArg TopicStorage.arrayExpansionCount hstorage
      have hchunks := congrArg TopicStorage.sealedChunks hstorage
      have hdesc := congrArg TopicStorage.descriptor hstorage
      refine .inr ⟨fun hmem ↦ ?_, Bool.eq_false_iff.mpr hrow, congrFun hcount,
        ⟨rfl, rfl, hchunks, hdesc⟩, ?_⟩
      · obtain ⟨col, hcol, hpath⟩ := List.mem_map.mp hmem
        simpa [hpath] using List.find?_eq_none.mp hfind col hcol
      · refine columnList_growColumns ?_
        rw [columnList_sealBeforeLayoutChange, columnList_ensureColsLoaded]
        exact List.prefix_append _ _

/-- A view that differs in the counters that `expandArray` moves first. -/
structure Counted (v u : TopicView) : Prop where
  writer : u.writer = v.writer
  contents : v.storage.SameContents u.storage
  count : ∀ p, u.storage.arrayExpansionCount p = v.storage.arrayExpansionCount p

/-- What a successful `expandArray` leaves. -/
structure Expands (schema : Option TypeTreeNode) (v : TopicView) (path : String) (newLength : ℕ)
    (type : PrimitiveType) (v' : TopicView) (n : ℕ) : Prop where
  number : n = max (v.storage.arrayExpansionCount path)
    (min newLength v.storage.descriptor.arrayExpansionLimit)
  count : ∀ p, v'.storage.arrayExpansionCount p =
    if p = path then n else v.storage.arrayExpansionCount p
  columns : n = v.storage.arrayExpansionCount path ∧ Counted v v' ∨
    v.storage.arrayExpansionCount path < n ∧ v.isRowInProgress = false ∧
      ∃ node, checkArray schema path = .ok node ∧
        Writes (expandedColumns path type node (v.storage.arrayExpansionCount path) n
          (columnList schema v)) v v' ∧
        columnList schema v' = expandedColumns path type node (v.storage.arrayExpansionCount path) n
          (columnList schema v)

theorem Counted.keepsColumns (h : Counted v v') : KeepsColumns schema v v' :=
  ⟨columnList_congr (loadColumns_congr h.contents) (.inl (by rw [h.writer])), h.count⟩

theorem counted_updateMax (v : TopicView) (newLength : ℕ) :
    Counted v (v.mapStorage (·.updateMaxObservedArrayLength newLength)) :=
  ⟨rfl, ⟨rfl, rfl, rfl, rfl⟩, fun _ ↦ rfl⟩

theorem counted_noteTruncation (v : TopicView) (newLength : ℕ) :
    Counted v ((v.mapStorage (·.updateMaxObservedArrayLength newLength)).noteTruncation
      newLength) := by
  rcases noteTruncation_cases (v.mapStorage (·.updateMaxObservedArrayLength newLength)) newLength
    with ⟨-, heq⟩ | ⟨-, heq⟩
  · rw [heq]
    exact ⟨rfl, ⟨rfl, rfl, rfl, rfl⟩, fun _ ↦ rfl⟩
  · rw [heq]
    exact counted_updateMax v newLength

theorem Expands.of_count {u : TopicView} {path : String} {newLength : ℕ} {type : PrimitiveType}
    (hu : Counted v u) (h : min newLength v.storage.descriptor.arrayExpansionLimit ≤
      v.storage.arrayExpansionCount path) :
    Expands schema v path newLength type u (v.storage.arrayExpansionCount path) := by
  refine ⟨(max_eq_left h).symm, fun p ↦ ?_, .inl ⟨rfl, hu⟩⟩
  rw [hu.count]
  split_ifs with hp
  · rw [hp]
  · rfl

theorem expandTo_spec {u : TopicView} {path : String} {type : PrimitiveType}
    {node : Option TypeTreeNode} {current actual : ℕ} {r : Except WriteError ℕ}
    (h : u.expandTo schema path type node current actual = some (v', r)) :
    r = .ok actual ∧
      (∀ p, v'.storage.arrayExpansionCount p =
        if p = path then actual else u.storage.arrayExpansionCount p) ∧
      Writes (expandedColumns path type node current actual (columnList schema u)) u v' ∧
      columnList schema v' = expandedColumns path type node current actual (columnList schema u) := by
  have hcols : (u.sealBeforeLayoutChange.ensureColsLoaded schema).writer.columns =
      columnList schema u := columnList_sealBeforeLayoutChange
  rw [expandTo] at h
  split_ifs at h
  obtain ⟨rfl, rfl⟩ := Prod.mk.inj (Option.some.inj h)
  have hstorage : (u.sealBeforeLayoutChange.ensureColsLoaded schema).storage = u.storage := by
    rw [ensureColsLoaded_storage, sealBeforeLayoutChange_storage]
  have hchunks := congrArg TopicStorage.sealedChunks hstorage
  have hdesc := congrArg TopicStorage.descriptor hstorage
  rw [hcols]
  refine ⟨rfl, fun p ↦ ?_, ⟨rfl, rfl, hchunks, hdesc⟩, ?_⟩
  · refine (arrayExpansionCount_set _ path p actual).trans ?_
    show (if p = path then actual else
      (u.sealBeforeLayoutChange.ensureColsLoaded schema).storage.arrayExpansionCount p) = _
    rw [hstorage]
  · rw [columnList_mapStorage ⟨rfl, rfl, rfl, rfl⟩]
    refine columnList_growColumns ?_
    rw [columnList_ensureColsLoaded, columnList_sealBeforeLayoutChange]
    exact (grows_expandedColumns path type node current actual _).1

theorem expandArray_spec {path : String} {newLength : ℕ} {type : PrimitiveType}
    {r : Except WriteError ℕ} (h : v.expandArray schema path newLength type = some (v', r)) :
    (∃ e, r = .error e ∧ Counted v v') ∨
      ∃ n, r = .ok n ∧ Expands schema v path newLength type v' n := by
  have hmax := counted_updateMax v newLength
  have hnoted := counted_noteTruncation v newLength
  rw [expandArray.eq_def] at h
  split_ifs at h with hshort
  · obtain ⟨rfl, rfl⟩ := Prod.mk.inj (Option.some.inj h)
    exact .inr ⟨_, rfl, .of_count hmax ((min_le_left _ _).trans hshort)⟩
  · rcases hcheck : checkArray schema path with e | node
    · rw [hcheck] at h
      obtain ⟨rfl, rfl⟩ := Prod.mk.inj (Option.some.inj h)
      exact .inl ⟨e, rfl, hmax⟩
    · rw [hcheck] at h
      dsimp only at h
      generalize (v.mapStorage (·.updateMaxObservedArrayLength newLength)).noteTruncation
        newLength = u at h hnoted
      rw [expandClamped, hnoted.count, hnoted.contents.descriptor] at h
      have hrow : u.isRowInProgress = v.isRowInProgress := by
        rw [isRowInProgress, hnoted.writer, isRowInProgress]
      split_ifs at h with hclamped hopen
      · obtain ⟨rfl, rfl⟩ := Prod.mk.inj (Option.some.inj h)
        exact .inr ⟨_, rfl, .of_count hnoted hclamped⟩
      · obtain ⟨rfl, rfl⟩ := Prod.mk.inj (Option.some.inj h)
        exact .inl ⟨_, rfl, hnoted⟩
      · obtain ⟨rfl, hcount, hwrites, hcols⟩ := expandTo_spec h
        rw [hnoted.keepsColumns.columnList] at hcols hwrites
        refine .inr ⟨_, rfl, (max_eq_right (Nat.le_of_not_le hclamped)).symm, fun p ↦ ?_,
          .inr ⟨Nat.lt_of_not_le hclamped, ?_, node, hcheck, ⟨hwrites.columns, hwrites.stored,
            hwrites.sealedChunks.trans hnoted.contents.sealedChunks,
            hwrites.descriptor.trans hnoted.contents.descriptor⟩, hcols⟩⟩
        · rw [hcount, hnoted.count]
        · rw [← hrow]
          exact Bool.eq_false_iff.mpr hopen

/-- Outside a row a call that has elements to add gets through. -/
theorem expandArray_isSome {path : String} {newLength : ℕ} (type : PrimitiveType)
    {node : Option TypeTreeNode} (hcheck : checkArray schema path = .ok node)
    (hrow : v.isRowInProgress = false) (hdense : denseIds (columnList schema v) = true)
    (hlt : v.storage.arrayExpansionCount path <
      min newLength v.storage.descriptor.arrayExpansionLimit) :
    ∃ v', v.expandArray schema path newLength type =
      some (v', .ok (min newLength v.storage.descriptor.arrayExpansionLimit)) := by
  have hnoted := counted_noteTruncation v newLength
  rw [expandArray.eq_def, if_neg (Nat.not_le.mpr (hlt.trans_le (min_le_left _ _))), hcheck]
  dsimp only
  generalize (v.mapStorage (·.updateMaxObservedArrayLength newLength)).noteTruncation
    newLength = u at hnoted
  have hopen : ¬u.isRowInProgress = true := by
    rw [isRowInProgress, hnoted.writer]
    exact Bool.eq_false_iff.mp hrow
  have hcols : (u.sealBeforeLayoutChange.ensureColsLoaded schema).writer.columns =
      columnList schema v :=
    columnList_sealBeforeLayoutChange.trans hnoted.keepsColumns.columnList
  rw [expandClamped, hnoted.count, hnoted.contents.descriptor, if_neg (Nat.not_le.mpr hlt),
    if_neg hopen, expandTo, hcols, if_pos hdense]
  exact ⟨_, rfl⟩

/-- Every other call keeps the columns. -/
theorem onlyLoads_call {c : TopicCall} {out : Outcome} (hv : v.Fits)
    (h : v.call schema c = some (v', out)) (hensure : ∀ path type, c ≠ .ensureColumn path type)
    (hexpand : ∀ path n type, c ≠ .expandArray path n type) : OnlyLoads schema v v' := by
  match c with
  | .beginRow t =>
    obtain ⟨⟨u, r⟩, hu, heq⟩ := Option.map_eq_some_iff.mp h
    obtain ⟨rfl, -⟩ := Prod.mk.inj heq
    rcases beginRow_eq_some hu with ⟨-, -, rfl⟩ | ⟨-, b, -, rfl⟩
    · exact onlyLoads_getOrCreateBuilder v
    · exact (onlyLoads_getOrCreateBuilder v).trans (onlyLoads_setBuilder b)
  | .set i x =>
    obtain ⟨u, hu, heq⟩ := Option.map_eq_some_iff.mp h
    obtain ⟨rfl, -⟩ := Prod.mk.inj heq
    obtain ⟨b, -, hset⟩ := Option.bind_eq_some_iff.mp hu
    obtain ⟨b', -, rfl⟩ := Option.map_eq_some_iff.mp hset
    exact onlyLoads_setBuilder b'
  | .setNull i =>
    obtain ⟨u, hu, heq⟩ := Option.map_eq_some_iff.mp h
    obtain ⟨rfl, -⟩ := Prod.mk.inj heq
    obtain ⟨b, -, hset⟩ := Option.bind_eq_some_iff.mp hu
    obtain ⟨b', -, rfl⟩ := Option.map_eq_some_iff.mp hset
    exact onlyLoads_setBuilder b'
  | .finishRow =>
    obtain ⟨⟨u, r⟩, hu, heq⟩ := Option.map_eq_some_iff.mp h
    obtain ⟨rfl, -⟩ := Prod.mk.inj heq
    rcases finishRow_eq_some hu with ⟨-, -, rfl⟩ | ⟨-, b, b', -, -, rfl⟩
    · exact .refl _
    · exact onlyLoads_putBack b'
  | .appendColumns ts cols =>
    obtain ⟨⟨u, r⟩, hu, heq⟩ := Option.map_eq_some_iff.mp h
    obtain ⟨rfl, -⟩ := Prod.mk.inj heq
    exact onlyLoads_appendColumns hv hu
  | .resolveField path =>
    obtain ⟨rfl, -⟩ := Prod.mk.inj (Option.some.inj h)
    exact onlyLoads_getOrCreateBuilder v
  | .ensureColumn path type => exact absurd rfl (hensure path type)
  | .expandArray path n type => exact absurd rfl (hexpand path n type)

/-! ### Chunks have no more columns than the writer -/

/-- The builder and the chunks of the topic were made with a beginning of the writer's list. -/
structure ChunksWithin (v : TopicView) : Prop where
  builder : ∀ b, v.writer.builder = some b → b.columns.length ≤ v.writer.columns.length
  chunks : ∀ chunk ∈ v.storage.sealedChunks ++ v.writer.pending,
    chunk.columns.length ≤ v.writer.columns.length

theorem ChunksWithin.setBuilder (h : ChunksWithin v) {b : TopicChunkBuilder}
    (hb : b.columns.length ≤ v.writer.columns.length) : ChunksWithin (v.setBuilder b) :=
  ⟨fun _ heq ↦ Option.some.inj heq ▸ hb, h.chunks⟩

theorem ChunksWithin.stage (h : ChunksWithin v) {b : TopicChunkBuilder}
    (hb : b.columns.length ≤ v.writer.columns.length) : ChunksWithin (v.stage b) := by
  refine ⟨fun _ heq ↦ (nomatch heq), fun chunk hchunk ↦ ?_⟩
  rw [stage_pending, stage_storage, ← List.append_assoc] at hchunk
  rcases List.mem_append.mp hchunk with hchunk | hchunk
  · exact h.chunks chunk hchunk
  · rw [List.mem_singleton.mp hchunk, TopicChunkBuilder.sealChunk, List.length_map]
    exact hb

theorem ChunksWithin.putBack (h : ChunksWithin v) {b : TopicChunkBuilder}
    (hb : b.columns.length ≤ v.writer.columns.length) : ChunksWithin (v.putBack b) := by
  rw [TopicView.putBack_eq]
  split_ifs
  · exact h.stage hb
  · exact h.setBuilder hb

/-- More columns, and the same builder and chunks. -/
theorem ChunksWithin.mono (h : ChunksWithin v) (hb : v'.writer.builder = v.writer.builder)
    (hs : v'.storage.sealedChunks = v.storage.sealedChunks)
    (hp : v'.writer.pending = v.writer.pending)
    (hle : v.writer.columns.length ≤ v'.writer.columns.length) : ChunksWithin v' :=
  ⟨fun b heq ↦ (h.builder b (hb ▸ heq)).trans hle,
    fun chunk hchunk ↦ (h.chunks chunk (hp ▸ hs ▸ hchunk)).trans hle⟩

theorem length_le_ensureColsLoaded (schema : Option TypeTreeNode) (v : TopicView) :
    v.writer.columns.length ≤ (v.ensureColsLoaded schema).writer.columns.length := by
  rw [ensureColsLoaded_columns]
  split_ifs with h
  · exact Nat.le_refl _
  · rw [not_not.mp h]
    exact Nat.zero_le _

theorem Micro.chunksWithin {v₀ : TopicView} {c : TopicCall} (h : Micro schema v₀ c v v')
    (hfits : v.Fits) (hv : ChunksWithin v) :
    v.writer.columns.length ≤ v'.writer.columns.length ∧ ChunksWithin v' := by
  cases h with
  | load =>
    have hle := length_le_ensureColsLoaded schema v
    exact ⟨hle, hv.mono (by simp) (by simp) (by simp) hle⟩
  | create hb =>
    refine ⟨Nat.le_refl _, hv.setBuilder ?_⟩
    rw [newBuilder, TopicChunkBuilder.new, List.length_map]
  | beginRow hb h =>
    obtain ⟨-, -, rfl⟩ := TopicChunkBuilder.beginRow_eq_some h
    have hle := hv.builder _ hb
    exact ⟨Nat.le_refl _, hv.setBuilder hle⟩
  | cell hb h =>
    obtain ⟨-, c₁, c₂, -, -, rfl⟩ := TopicChunkBuilder.runCellCall_eq_some h
    refine ⟨Nat.le_refl _, hv.setBuilder ?_⟩
    rw [List.length_set]
    exact hv.builder _ hb
  | finishRow hb h =>
    obtain ⟨-, rfl⟩ := TopicChunkBuilder.finishRow_eq_some h
    refine ⟨by rw [putBack_columns], hv.putBack ?_⟩
    rw [List.length_map]
    exact hv.builder _ hb
  | batch _ _ hb h =>
    obtain ⟨-, hlength, -⟩ := TopicChunkBuilder.runBatch_eq_some (hfits _ hb).pending h
    exact ⟨by rw [putBack_columns], hv.putBack (hlength ▸ hv.builder _ hb)⟩
  | close =>
    refine ⟨by rw [sealBeforeLayoutChange_columns], ?_⟩
    rw [sealBeforeLayoutChange]
    split
    · rename_i b hb
      split_ifs
      · exact hv.stage (hv.builder b hb)
      · exact ⟨fun b heq ↦ absurd heq (by simp), hv.chunks⟩
    · exact hv
  | grow hb _ _ hgrows =>
    have hle := hgrows.1.length_le
    exact ⟨hle, hv.mono rfl rfl rfl hle⟩
  | note hf =>
    exact ⟨Nat.le_refl _, hv.mono rfl (hf _).sealedChunks rfl (Nat.le_refl _)⟩

theorem call_chunksWithin {c : TopicCall} {out : Outcome} (hfits : v.Fits) (hv : ChunksWithin v)
    (h : v.call schema c = some (v', out)) :
    v.writer.columns.length ≤ v'.writer.columns.length ∧ ChunksWithin v' := by
  refine ((call_path hfits h).induction (I := fun u ↦ u.Fits ∧
    v.writer.columns.length ≤ u.writer.columns.length ∧ ChunksWithin u)
    (fun u u' hstep hu ↦ ?_) ⟨hfits, Nat.le_refl _, hv⟩).2
  obtain ⟨hle, hwithin⟩ := hstep.chunksWithin hu.1 hu.2.2
  exact ⟨hstep.fits hu.1, hu.2.1.trans hle, hwithin⟩

/-! ## Sound lists -/

/-- Ids count up from zero, no path occurs twice, and the elements that were counted are there. -/
structure ListSound (schema : Option TypeTreeNode) (v : TopicView) : Prop where
  dense : ∀ (i : ℕ) (col : ColumnDescriptor), (columnList schema v)[i]? = some col → col.fieldId = i
  nodup : (columnPaths schema v).Nodup
  covered : ∀ path node, checkArray schema path = .ok node →
    ∀ i < v.storage.arrayExpansionCount path,
      ∀ p ∈ elementPaths node path i, p ∈ columnPaths schema v

/-- An element of the schema that is about to be added has all of its columns, or none and then no
path for two. -/
def ElementsFit (schema : Option TypeTreeNode) (v : TopicView) : TopicCall → Prop
  | .expandArray path newLength _ =>
    v.isRowInProgress = false → ∀ node, checkArray schema path = .ok (some node) →
      ∀ i, v.storage.arrayExpansionCount path ≤ i →
        i < min newLength v.storage.descriptor.arrayExpansionLimit →
          GroupedGrowth.Fits (StandsFor (some node) path) (elementPaths (some node) path)
            (columnPaths schema v) i
  | _ => True

/-- Without a schema an element is a single column. -/
theorem fits_none (path : String) (l : List String) (i : ℕ) :
    GroupedGrowth.Fits (StandsFor none path) (elementPaths none path) l i := by
  by_cases h : elementPath path i ∈ l
  · exact .inl fun p hp ↦ List.mem_singleton.mp hp ▸ h
  · refine .inr ⟨fun p hp hstands ↦ ?_, List.nodup_singleton _⟩
    obtain rfl : p = elementPath path i := hstands
    exact h hp

theorem columnPaths_eq (h : columnList schema v' = columnList schema v) :
    columnPaths schema v' = columnPaths schema v := by
  rw [columnPaths, h, columnPaths]

theorem ListSound.keeps (hl : ListSound schema v) (h : KeepsColumns schema v v') :
    ListSound schema v' where
  dense := h.columnList ▸ hl.dense
  nodup := columnPaths_eq h.columnList ▸ hl.nodup
  covered path node hcheck i hi p hp := by
    rw [columnPaths_eq h.columnList]
    exact hl.covered path node hcheck i (h.count path ▸ hi) p hp

/-- Columns that are added with their positions keep the ids in order. -/
theorem dense_of_grows {old new : List ColumnDescriptor}
    (hold : ∀ (i : ℕ) (col : ColumnDescriptor), old[i]? = some col → col.fieldId = i)
    (h : Grows old new) (i : ℕ) (col : ColumnDescriptor) (hcol : new[i]? = some col) :
    col.fieldId = i := by
  by_cases hi : old.length ≤ i
  · exact h.2 i col hi hcol
  · have hlt : i < old.length := Nat.lt_of_not_le hi
    rw [List.prefix_iff_getElem?.mp h.1 i hlt, ← List.getElem?_eq_getElem hlt] at hcol
    exact hold i col hcol

theorem ListSound.ensureColumn {path : String} {type : PrimitiveType} {r : Except WriteError ℕ}
    (hl : ListSound schema v) (h : v.ensureColumn schema path type = some (v', r)) :
    ListSound schema v' ∧ columnList schema v <+: columnList schema v' := by
  rcases ensureColumn_cases h with ⟨-, hloads⟩ | ⟨hnew, -, hcount, -, hlist⟩
  · have hkeeps := hloads.keepsColumns
    exact ⟨hl.keeps hkeeps, hkeeps.columnList ▸ List.prefix_rfl⟩
  · have hgrows : Grows (columnList schema v) (columnList schema v') := by
      rw [hlist]
      exact grows_numberFrom _ [(path, type)]
    have hpaths : columnPaths schema v' = columnPaths schema v ++ [path] := by
      rw [columnPaths, hlist, List.map_append, columnPaths]
      rfl
    refine ⟨⟨dense_of_grows hl.dense hgrows, ?_, fun q node hcheck i hi p hp ↦ ?_⟩, hgrows.1⟩
    · rw [hpaths]
      exact List.nodup_append_comm.mp (List.nodup_cons.mpr ⟨hnew, hl.nodup⟩)
    · rw [hpaths]
      exact List.mem_append_left _ (hl.covered q node hcheck i (hcount q ▸ hi) p hp)

theorem mem_range'_current {current n i : ℕ} :
    i ∈ List.range' current (n - current) ↔ current ≤ i ∧ i < n := by
  rw [List.mem_range'_1]
  omega

/-- The paths behind an expansion are sound exactly if every element fits. -/
theorem expanded_iff {path : String} {type : PrimitiveType} {node : Option TypeTreeNode}
    {current n : ℕ} (hnodup : (columnPaths schema v).Nodup)
    (hlist : columnList schema v' =
      expandedColumns path type node current n (columnList schema v)) :
    ((columnPaths schema v').Nodup ∧ ∀ i, current ≤ i → i < n → ∀ p ∈ elementPaths node path i,
        p ∈ columnPaths schema v') ↔
      ∀ i, current ≤ i → i < n → GroupedGrowth.Fits (StandsFor node path) (elementPaths node path)
        (columnPaths schema v) i := by
  have hpaths : columnPaths schema v' = columnPaths schema v ++
      (List.range' current (n - current)).flatMap (GroupedGrowth.added (StandsFor node path)
        (elementPaths node path) (columnPaths schema v)) := by
    rw [columnPaths, hlist, paths_expandedColumns, columnPaths]
  have hcomplete := GroupedGrowth.complete_iff (owned_elementPaths node path)
    (List.nodup_range' (s := current) (n := n - current) 1) hnodup
  rw [← hpaths] at hcomplete
  simpa only [mem_range'_current, and_imp] using hcomplete

theorem ListSound.expandArray {path : String} {newLength n : ℕ} {type : PrimitiveType}
    (hl : ListSound schema v) (hfit : ElementsFit schema v (.expandArray path newLength type))
    (h : Expands schema v path newLength type v' n) :
    ListSound schema v' ∧ columnList schema v <+: columnList schema v' := by
  rcases h.columns with ⟨-, hcounted⟩ | ⟨hlt, hrow, node, hcheck, -, hlist⟩
  · -- nothing but counters has moved
    have hkeeps : KeepsColumns schema v v' := hcounted.keepsColumns
    exact ⟨hl.keeps hkeeps, hkeeps.columnList ▸ List.prefix_rfl⟩
  · have hn : n = min newLength v.storage.descriptor.arrayExpansionLimit := by
      have := h.number
      omega
    have hfits : ∀ i, v.storage.arrayExpansionCount path ≤ i → i < n →
        GroupedGrowth.Fits (StandsFor node path) (elementPaths node path)
          (columnPaths schema v) i := by
      intro i hi hin
      match node with
      | none => exact fits_none path _ i
      | some node => exact hfit hrow node hcheck i hi (hn ▸ hin)
    obtain ⟨hnodup, hadded⟩ := (expanded_iff hl.nodup hlist).mpr hfits
    have hgrows : Grows (columnList schema v) (columnList schema v') := by
      rw [hlist]
      exact grows_expandedColumns path type node _ n _
    refine ⟨⟨dense_of_grows hl.dense hgrows, hnodup, fun q node' hcheck' i hi p hp ↦ ?_⟩, hgrows.1⟩
    have hold : ∀ p ∈ columnPaths schema v, p ∈ columnPaths schema v' := fun p hp ↦
      (hgrows.1.map _).subset hp
    rw [h.count] at hi
    split_ifs at hi with hq
    · subst hq
      obtain rfl := Except.ok.inj (hcheck.symm.trans hcheck')
      rcases Nat.lt_or_ge i (v.storage.arrayExpansionCount q) with hi' | hi'
      · exact hold p (hl.covered q node hcheck i hi' p hp)
      · exact hadded i hi' hi p hp
    · exact hold p (hl.covered q node' hcheck' i hi p hp)

theorem ListSound.call {c : TopicCall} {out : Outcome} (hv : v.Fits) (hl : ListSound schema v)
    (hfit : ElementsFit schema v c) (h : v.call schema c = some (v', out)) :
    ListSound schema v' ∧ columnList schema v <+: columnList schema v' := by
  have hother : KeepsColumns schema v v' →
      ListSound schema v' ∧ columnList schema v <+: columnList schema v' := fun hkeeps ↦
    ⟨hl.keeps hkeeps, hkeeps.columnList ▸ List.prefix_rfl⟩
  match c with
  | .ensureColumn path type =>
    obtain ⟨⟨u, r⟩, hu, heq⟩ := Option.map_eq_some_iff.mp h
    obtain ⟨rfl, -⟩ := Prod.mk.inj heq
    exact hl.ensureColumn hu
  | .expandArray path newLength type =>
    obtain ⟨⟨u, r⟩, hu, heq⟩ := Option.map_eq_some_iff.mp h
    obtain ⟨rfl, -⟩ := Prod.mk.inj heq
    rcases expandArray_spec hu with ⟨e, -, hcounted⟩ | ⟨n, -, hexpands⟩
    · exact hother hcounted.keepsColumns
    · exact hl.expandArray hfit hexpands
  | .beginRow _ | .set _ _ | .setNull _ | .finishRow | .appendColumns _ _ | .resolveField _ =>
    exact hother (onlyLoads_call hv h (by simp) (by simp)).keepsColumns

end TopicView

/-! ## A topic with one writer -/

open TopicView

/-- A topic and its only writer, and the chunks that were handed out and not committed yet. -/
structure Session where
  view : TopicView
  inFlight : List TopicChunk := []

/-- A call of the writer, a flush, or the commit of a chunk in flight. -/
inductive SessionCall
  | topic (c : TopicCall)
  | flush
  | commitChunk (k : ℕ)

namespace Session

variable {schema : Option TypeTreeNode} {s s' : Session} {c : SessionCall} {out : Outcome}

def step (schema : Option TypeTreeNode) (s : Session) : SessionCall → Option (Session × Outcome)
  | .topic c => (s.view.call schema c).map fun r ↦ ({ s with view := r.1 }, r.2)
  | .flush => some (⟨s.view.flush.1, s.inFlight ++ s.view.flush.2⟩, .ok)
  | .commitChunk k =>
    match s.inFlight[k]? with
    | some chunk =>
      some (⟨s.view.mapStorage fun t ↦ (t.appendSealedChunk chunk).getD t, s.inFlight.eraseIdx k⟩,
        .ok)
    | none => some (s, .ok)

def run (schema : Option TypeTreeNode) (s : Session) : List SessionCall → Option Session
  | [] => some s
  | c :: calls => (s.step schema c).bind fun r ↦ run schema r.1 calls

/-- A new topic with a new writer. -/
def start (topicId : ℕ) (desc : TopicDescriptor) (nextChunkId : ℕ) : Session where
  view := { storage := { topicId := topicId, descriptor := desc }, nextChunkId := nextChunkId }

theorem run_append (calls calls' : List SessionCall) :
    s.run schema (calls ++ calls') = (s.run schema calls).bind fun s' ↦ s'.run schema calls' := by
  induction calls generalizing s with
  | nil => rfl
  | cons c calls ih =>
    rw [List.cons_append, run, run, Option.bind_assoc]
    exact congrArg _ (funext fun r ↦ ih)

theorem run_snoc (calls : List SessionCall) : s.run schema (calls ++ [c]) =
    (s.run schema calls).bind fun s' ↦ (s'.step schema c).map Prod.fst := by
  rw [run_append]
  refine congrArg _ (funext fun s' ↦ ?_)
  rw [run]
  rcases s'.step schema c with _ | r
  · rfl
  · rfl

/-! ### Runs -/

/-- What holds between the calls of the only writer. -/
structure Sound (schema : Option TypeTreeNode) (s : Session) : Prop where
  fits : s.view.Fits
  within : s.view.ChunksWithin
  inFlight : ∀ chunk ∈ s.inFlight, chunk.columns.length ≤ s.view.writer.columns.length
  list : ListSound schema s.view

theorem sound_start (topicId : ℕ) (desc : TopicDescriptor) (nextChunkId : ℕ)
    (hschema : ∀ root, schema = some root →
      ((buildColumnDescriptors root).map (·.fieldPath)).Nodup) :
    Sound schema (start topicId desc nextChunkId) := by
  have hlist : columnList schema (start topicId desc nextChunkId).view =
      (schema.map buildColumnDescriptors).getD [] := by
    rw [columnList_of_nil rfl]
    match schema with
    | none => rfl
    | some root => rfl
  refine ⟨fun _ hb ↦ (nomatch hb), ⟨fun _ hb ↦ (nomatch hb), fun _ hc ↦ (nomatch hc)⟩,
    fun _ hc ↦ (nomatch hc), ⟨fun i col hcol ↦ ?_, ?_, fun _ _ _ i hi ↦ absurd hi (Nat.not_lt_zero i)⟩⟩
  · rw [hlist] at hcol
    match schema with
    | none => cases hcol
    | some root =>
      rw [Option.map_some, Option.getD_some, buildColumnDescriptors] at hcol
      split_ifs at hcol
      · rw [fieldId_numberFrom hcol, Nat.zero_add]
      · obtain ⟨hi, rfl⟩ := List.getElem?_eq_some_iff.mp hcol
        have hzero : i = 0 := Nat.lt_one_iff.mp hi
        subst hzero
        rfl
  · rw [columnPaths, hlist]
    match schema with
    | none => exact List.nodup_nil
    | some root => exact hschema root rfl

theorem chunksWithin_flush {v : TopicView} (hv : v.ChunksWithin) :
    v.flush.1.ChunksWithin ∧ ∀ chunk ∈ v.flush.2, chunk.columns.length ≤ v.writer.columns.length := by
  have hpending : ∀ chunk ∈ v.writer.pending, chunk.columns.length ≤ v.writer.columns.length :=
    fun chunk hchunk ↦ hv.chunks chunk (List.mem_append_right _ hchunk)
  have hsealed : ∀ chunk ∈ v.storage.sealedChunks ++ [],
      chunk.columns.length ≤ v.writer.columns.length := by
    intro chunk hchunk
    rw [List.append_nil] at hchunk
    exact hv.chunks chunk (List.mem_append_left _ hchunk)
  have hsealed' : ∀ chunk ∈ v.flush.1.storage.sealedChunks ++ v.flush.1.writer.pending,
      chunk.columns.length ≤ v.flush.1.writer.columns.length := by
    rw [flush_storage, flush_pending, flush_columns]
    exact hsealed
  rcases v.flush_cases with ⟨b, hb, -, hnone, hout⟩ | ⟨-, hsame, hout⟩
  · refine ⟨⟨fun b' hb' ↦ ?_, hsealed'⟩, fun chunk hchunk ↦ ?_⟩
    · rw [hnone] at hb'
      cases hb'
    · rw [hout] at hchunk
      rcases List.mem_append.mp hchunk with hchunk | hchunk
      · exact hpending chunk hchunk
      · rw [List.mem_singleton.mp hchunk, TopicChunkBuilder.sealChunk, List.length_map]
        exact hv.builder b hb
  · refine ⟨⟨fun b' hb' ↦ ?_, hsealed'⟩, fun chunk hchunk ↦ hpending chunk (hout ▸ hchunk)⟩
    rw [flush_columns]
    exact hv.builder b' (hsame ▸ hb')

/-- A commit adds the chunk behind the others, or is refused. -/
theorem commitChunk_cases (t : TopicStorage) (chunk : TopicChunk) :
    (t.appendSealedChunk chunk).getD t = t ∨
      (t.appendSealedChunk chunk).getD t = { t with sealedChunks := t.sealedChunks ++ [chunk] } := by
  rw [TopicStorage.appendSealedChunk]
  split_ifs
  · exact .inr rfl
  · exact .inl rfl

/-- A chunk with a beginning of the list tells nothing new about the columns. -/
theorem loadColumns_append {t : TopicStorage} {chunk : TopicChunk}
    (h : chunk.columns.map (·.descriptor) <+: loadColumns schema t) :
    loadColumns schema { t with sealedChunks := t.sealedChunks ++ [chunk] } =
      loadColumns schema t := by
  rw [loadColumns.eq_def] at h ⊢
  rw [loadColumns.eq_def]
  dsimp only
  split_ifs at h ⊢
  · rfl
  · cases schema with
    | some root => rfl
    | none =>
      rcases hchunks : t.sealedChunks with _ | ⟨first, rest⟩
      · rw [hchunks] at h
        exact List.prefix_nil.mp h
      · rfl

theorem keepsColumns_commitChunk (schema : Option TypeTreeNode) {v : TopicView}
    {chunk : TopicChunk} (hchunk : chunk.columns.length ≤ v.writer.columns.length) :
    KeepsColumns schema v (v.mapStorage fun t ↦ (t.appendSealedChunk chunk).getD t) := by
  rcases commitChunk_cases v.storage chunk with hrefused | hadded
  · exact .of_storage hrefused (.inl rfl)
  · refine ⟨?_, fun path ↦ ?_⟩
    · by_cases hnil : v.writer.columns = []
      · have hempty : chunk.columns = [] := by
          rw [hnil] at hchunk
          exact List.length_eq_zero_iff.mp (Nat.le_zero.mp hchunk)
        refine columnList_congr ?_ (.inl rfl)
        rw [mapStorage, hadded]
        refine loadColumns_append ?_
        rw [hempty]
        exact List.nil_prefix
      · rw [columnList_of_ne hnil]
        exact columnList_of_ne hnil
    · rw [mapStorage, hadded]
      rfl

theorem chunksWithin_commitChunk {v : TopicView} {chunk : TopicChunk} (hv : v.ChunksWithin)
    (hchunk : chunk.columns.length ≤ v.writer.columns.length) :
    (v.mapStorage fun t ↦ (t.appendSealedChunk chunk).getD t).ChunksWithin := by
  refine ⟨hv.builder, fun c hc ↦ ?_⟩
  rcases commitChunk_cases v.storage chunk with hrefused | hadded
  · rw [mapStorage, hrefused] at hc
    exact hv.chunks c hc
  · rw [mapStorage, hadded] at hc
    rcases List.mem_append.mp hc with hc | hc
    · rcases List.mem_append.mp hc with hc | hc
      · exact hv.chunks c (List.mem_append_left _ hc)
      · exact List.mem_singleton.mp hc ▸ hchunk
    · exact hv.chunks c (List.mem_append_right _ hc)

theorem fits_commitChunk {v : TopicView} {chunk : TopicChunk} (hv : v.Fits) :
    (v.mapStorage fun t ↦ (t.appendSealedChunk chunk).getD t).Fits := by
  intro b hb
  rcases commitChunk_cases v.storage chunk with hrefused | hadded
  · rw [mapStorage, hrefused]
    exact hv b hb
  · rw [mapStorage, hadded]
    exact hv b hb

theorem fits_flush {v : TopicView} (hv : v.Fits) : v.flush.1.Fits := by
  rcases v.flush_cases with ⟨b, -, -, hnone, -⟩ | ⟨-, hsame, -⟩
  · exact fits_of_builder_eq_none hnone
  · intro b hb
    rw [flush_storage]
    exact hv b (hsame ▸ hb)

theorem Sound.step (hs : s.Sound schema) (hfit : ∀ tc, c = .topic tc → ElementsFit schema s.view tc)
    (h : s.step schema c = some (s', out)) :
    s'.Sound schema ∧ columnList schema s.view <+: columnList schema s'.view := by
  match c with
  | .topic tc =>
    obtain ⟨⟨v', out'⟩, hcall, heq⟩ := Option.map_eq_some_iff.mp h
    obtain ⟨rfl, -⟩ := Prod.mk.inj heq
    obtain ⟨hlist, hpre⟩ := hs.list.call hs.fits (hfit tc rfl) hcall
    obtain ⟨hle, hwithin⟩ := call_chunksWithin hs.fits hs.within hcall
    exact ⟨⟨call_fits hs.fits hcall, hwithin,
      fun chunk hchunk ↦ (hs.inFlight chunk hchunk).trans hle, hlist⟩, hpre⟩
  | .flush =>
    obtain ⟨rfl, -⟩ := Prod.mk.inj (Option.some.inj h)
    obtain ⟨hwithin, hout⟩ := chunksWithin_flush hs.within
    have hkeeps : KeepsColumns schema s.view s.view.flush.1 :=
      .of_storage flush_storage (.inl flush_columns)
    refine ⟨⟨?_, hwithin, ?_, hs.list.keeps hkeeps⟩, hkeeps.columnList ▸ List.prefix_rfl⟩
    · exact fits_flush hs.fits
    · intro chunk hchunk
      rw [flush_columns]
      rcases List.mem_append.mp hchunk with hchunk | hchunk
      · exact hs.inFlight chunk hchunk
      · exact hout chunk hchunk
  | .commitChunk k =>
    rw [Session.step] at h
    rcases hk : s.inFlight[k]? with _ | chunk
    · rw [hk] at h
      obtain ⟨rfl, -⟩ := Prod.mk.inj (Option.some.inj h)
      exact ⟨hs, List.prefix_rfl⟩
    · rw [hk] at h
      obtain ⟨rfl, -⟩ := Prod.mk.inj (Option.some.inj h)
      have hchunk := hs.inFlight chunk (List.mem_of_getElem? hk)
      have hkeeps := keepsColumns_commitChunk schema hchunk
      refine ⟨⟨?_, ?_, ?_, hs.list.keeps hkeeps⟩, hkeeps.columnList ▸ List.prefix_rfl⟩
      · exact fits_commitChunk hs.fits
      · exact chunksWithin_commitChunk hs.within hchunk
      · exact fun chunk' hchunk' ↦ hs.inFlight chunk' (List.mem_of_mem_eraseIdx hchunk')

theorem denseIds_of_dense {cols : List ColumnDescriptor}
    (h : ∀ (i : ℕ) (col : ColumnDescriptor), cols[i]? = some col → col.fieldId = i) :
    denseIds cols = true := by
  rw [denseIds, Option.all_eq_true]
  intro last hlast
  rw [List.getLast?_eq_getElem?] at hlast
  exact decide_eq_true (h _ last hlast)

/-- An expansion that got through: the number it returns is the new count, and the columns of all
elements up to it are there. -/
structure ExpandedTo (schema : Option TypeTreeNode) (v v' : TopicView) (path : String)
    (newLength n : ℕ) : Prop where
  number : n = max (v.storage.arrayExpansionCount path)
    (min newLength v.storage.descriptor.arrayExpansionLimit)
  count : v'.storage.arrayExpansionCount path = n
  columns : ∀ node, checkArray schema path = .ok node →
    ∀ i < n, ∀ p ∈ elementPaths node path i, p ∈ columnPaths schema v'

/-- In every state of the run the ids count up from zero and no path occurs twice, every list is a
prefix of the later ones, and every expansion does what it says. -/
def GrowsSoundly (schema : Option TypeTreeNode) (s₀ : Session) (calls : List SessionCall) : Prop :=
  ∀ done, done <+: calls → ∀ s, s₀.run schema done = some s →
    (∀ (i : ℕ) (col : ColumnDescriptor),
      (columnList schema s.view)[i]? = some col → col.fieldId = i) ∧
    (columnPaths schema s.view).Nodup ∧
    (∀ before, before <+: done → ∀ s', s₀.run schema before = some s' →
      columnList schema s'.view <+: columnList schema s.view) ∧
    ∀ path newLength type s' n,
      done ++ [.topic (.expandArray path newLength type)] <+: calls →
      s.step schema (.topic (.expandArray path newLength type)) = some (s', .number n) →
      ExpandedTo schema s.view s'.view path newLength n

theorem expandArray_of_step {path : String} {newLength n : ℕ} {type : PrimitiveType}
    (h : s.step schema (.topic (.expandArray path newLength type)) = some (s', .number n)) :
    Expands schema s.view path newLength type s'.view n := by
  obtain ⟨⟨v', out'⟩, hcall, heq⟩ := Option.map_eq_some_iff.mp h
  obtain ⟨rfl, rfl⟩ := Prod.mk.inj heq
  obtain ⟨⟨u, r⟩, hu, heq⟩ := Option.map_eq_some_iff.mp hcall
  obtain ⟨rfl, hr⟩ := Prod.mk.inj heq
  rcases expandArray_spec hu with ⟨e, rfl, -⟩ | ⟨m, rfl, hexpands⟩
  · cases hr
  · obtain rfl : m = n := Outcome.number.inj hr
    exact hexpands

/-- A run in which every element that is added fits. -/
def RunFits (schema : Option TypeTreeNode) (s₀ : Session) (calls : List SessionCall) : Prop :=
  ∀ done tc, done ++ [.topic tc] <+: calls → ∀ s, s₀.run schema done = some s →
    ElementsFit schema s.view tc

theorem RunFits.mono {s₀ : Session} {calls calls' : List SessionCall}
    (h : RunFits schema s₀ calls) (hpre : calls' <+: calls) : RunFits schema s₀ calls' :=
  fun done tc hdone ↦ h done tc (hdone.trans hpre)

theorem Sound.run {s₀ : Session} {calls : List SessionCall} (hs₀ : s₀.Sound schema)
    (hfit : RunFits schema s₀ calls) (h : s₀.run schema calls = some s) :
    s.Sound schema ∧ ∀ before, before <+: calls → ∀ s', s₀.run schema before = some s' →
      columnList schema s'.view <+: columnList schema s.view := by
  induction calls using List.reverseRecOn generalizing s with
  | nil =>
    obtain rfl := Option.some.inj h
    refine ⟨hs₀, fun before hbefore s' hs' ↦ ?_⟩
    rw [List.prefix_nil.mp hbefore] at hs'
    obtain rfl := Option.some.inj hs'
    exact List.prefix_rfl
  | append_singleton calls c ih =>
    have hrun := h
    rw [run_snoc] at h
    obtain ⟨s₁, hs₁, hstep⟩ := Option.bind_eq_some_iff.mp h
    obtain ⟨⟨s₂, out⟩, hnext, rfl⟩ := Option.map_eq_some_iff.mp hstep
    obtain ⟨hsound, hprees⟩ := ih (hfit.mono (List.prefix_append _ _)) hs₁
    obtain ⟨hsound', hlast⟩ := hsound.step (fun tc htc ↦ hfit calls tc (htc ▸ List.prefix_rfl) s₁ hs₁)
      hnext
    refine ⟨hsound', fun before hbefore s' hs' ↦ ?_⟩
    rcases List.prefix_concat_iff.mp hbefore with rfl | hbefore
    · obtain rfl := Option.some.inj (hs'.symm.trans hrun)
      exact List.prefix_rfl
    · exact (hprees before hbefore s' hs').trans hlast

/-- The columns of a topic with one writer grow soundly exactly if every element of the schema that
is added finds all of its columns, or none of them and nothing else below its path. -/
theorem run_growsSoundly_iff (topicId : ℕ) (desc : TopicDescriptor) (nextChunkId : ℕ)
    (hschema : ∀ root, schema = some root →
      ((buildColumnDescriptors root).map (·.fieldPath)).Nodup) (calls : List SessionCall) :
    GrowsSoundly schema (start topicId desc nextChunkId) calls ↔
      RunFits schema (start topicId desc nextChunkId) calls := by
  have hstart := sound_start topicId desc nextChunkId hschema
  constructor
  · intro hgrows done tc hpre s hs
    match tc with
    | .expandArray path newLength type =>
      intro hrow node hcheck i hi hlimit
      have hdone := (List.prefix_append done [.topic (.expandArray path newLength type)]).trans hpre
      obtain ⟨hdense, hnodup, -, hexpanded⟩ := hgrows done hdone s hs
      have hdense' : denseIds (columnList schema s.view) = true := denseIds_of_dense hdense
      obtain ⟨v', hv'⟩ := expandArray_isSome type hcheck hrow hdense' (hi.trans_lt hlimit)
      have hstep : s.step schema (.topic (.expandArray path newLength type)) =
          some (⟨v', s.inFlight⟩, .number (min newLength
            s.view.storage.descriptor.arrayExpansionLimit)) := by
        rw [Session.step, TopicView.call, hv']
        rfl
      have hnext := hgrows _ hpre ⟨v', s.inFlight⟩ (by rw [run_snoc, hs, Option.bind_some, hstep]; rfl)
      have hcovered := (hexpanded path newLength type _ _ hpre hstep).columns (some node) hcheck
      rcases (expandArray_of_step hstep).columns with ⟨hsame, -⟩ | ⟨-, -, node', hcheck', -, hlist⟩
      · omega
      · obtain rfl := Except.ok.inj (hcheck.symm.trans hcheck')
        exact (expanded_iff hnodup hlist).mp ⟨hnext.2.1, fun j _ hj ↦ hcovered j hj⟩ i hi hlimit
    | .ensureColumn _ _ | .beginRow _ | .set _ _ | .setNull _ | .finishRow | .appendColumns _ _
    | .resolveField _ => trivial
  · intro hfit done hdone s hs
    obtain ⟨hsound, hprees⟩ := hstart.run (hfit.mono hdone) hs
    refine ⟨hsound.list.dense, hsound.list.nodup, hprees, fun path newLength type s' n hnext hstep ↦ ?_⟩
    have hexpands := expandArray_of_step hstep
    have hafter := (hsound.step (fun tc htc ↦ hfit done tc (by
      obtain rfl := SessionCall.topic.inj htc
      exact hnext) s hs) hstep).1
    have hcount : s'.view.storage.arrayExpansionCount path = n := by
      rw [hexpands.count, if_pos rfl]
    exact ⟨hexpands.number, hcount, fun node hcheck i hi ↦
      hafter.list.covered path node hcheck i (hcount.symm ▸ hi)⟩

/-- A topic with an array of points. -/
def cloudStart : Session := start 1 { name := "cloud", schemaId := 1 } 1

/-- Two points, and a flush. -/
def twoPoints : List SessionCall := [.topic (.expandArray "points" 2 .float64), .flush]

theorem growsSoundly_twoPoints : GrowsSoundly (some cloudSchema) cloudStart twoPoints := by
  refine (run_growsSoundly_iff 1 _ 1 (fun root hroot ↦ ?_) twoPoints).mpr fun done tc hdone s hs ↦ ?_
  · obtain rfl := Option.some.inj hroot
    exact List.nodup_nil
  · obtain ⟨rest, hrest⟩ := hdone
    match done with
    | [] =>
      obtain rfl := SessionCall.topic.inj (List.cons.inj hrest).1
      obtain rfl := Option.some.inj hs
      -- there are no columns yet, and a point has two different ones
      intro _ node hcheck i _ hi
      obtain rfl := Option.some.inj (Except.ok.inj hcheck)
      refine .inr ⟨fun p hp ↦ absurd hp List.not_mem_nil, ?_⟩
      match i, hi with
      | 0, _ => decide
      | 1, _ => decide
    | [_] => cases (List.cons.inj (List.cons.inj hrest).2).1
    | _ :: _ :: done => simp [twoPoints] at hrest

/-- One column of a point by hand, and then the point. -/
def halfPoint : List SessionCall :=
  [.topic (.ensureColumn "points[0].x" .float64), .topic (.expandArray "points" 1 .float64)]

/-- The other column never comes. -/
theorem not_growsSoundly : ¬GrowsSoundly (some cloudSchema) cloudStart halfPoint := by
  intro h
  have hexpanded := (h [.topic (.ensureColumn "points[0].x" .float64)] ⟨_, rfl⟩ _ rfl).2.2.2 "points" 1
    .float64 _ 1 ⟨[], rfl⟩ rfl
  exact absurd (hexpanded.columns _ rfl 0 (by decide) "points[0].y" (by decide))
    (by decide +kernel)

end Session

end PlotJuggler
