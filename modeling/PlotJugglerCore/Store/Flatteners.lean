import PlotJugglerCore.Store.Schema

/-!
# Four walks over a type tree

The writer, the reader and the plugin host each flatten a schema to columns on their own, and
`countLeafFields` counts what it takes to be the columns. They part ways over arrays and enums: the
host gives no columns to an array of fixed size, and takes an enum without a type for an `int32`; an
array of arrays is one column per element to writer and reader and a product to the count; at the
root, the writer turns an array into a single column, the reader expands it, the host drops it.

The columns agree exactly on trees without these (`TypeTreeNode.plainRoot`). The host never has
more columns than the writer, so a difference in one field cannot be made up for by another, and the
condition can be read field by field.

A struct whose fields are all arrays of no fixed size has no columns (`TypeTreeNode.bare`), so an
array of such structs has none either, for all four.
-/

namespace PlotJuggler

/-! ## The reader -/

namespace DataReader

mutual

/-- `flattenColumns` of `reader.cpp`. -/
def flattenColumns : TypeTreeNode → String → List Leaf
  | .mk name kind primitiveType children elementType fixedArraySize, path =>
    match kind with
    | .struct => flattenChildren children (joinPath path name)
    | .array =>
      match fixedArraySize with
      | some n => (List.range n).flatMap fun i ↦
          flattenElement elementType (elementPath (joinPath path name) i)
      | none => []
    | _ => [(joinPath path name, primitiveType.getD .float64)]

/-- The element of an array; the loop is left before it when there is no element type. -/
def flattenElement : Option TypeTreeNode → String → List Leaf
  | none, _ => []
  | some (.mk _ kind primitiveType children _ _), path =>
    match kind with
    | .struct => flattenChildren children path
    | _ => [(path, primitiveType.getD .float64)]

def flattenChildren : List TypeTreeNode → String → List Leaf
  | [], _ => []
  | child :: children, path => flattenColumns child path ++ flattenChildren children path

end

/-- The last branch of `columnsForTopic`. -/
def schemaColumns (root : TypeTreeNode) : List ColumnDescriptor :=
  if root.kind = .struct then numberFrom 0 (flattenChildren root.children "")
  else numberFrom 0 (flattenColumns root "")

end DataReader

/-! ## The plugin host -/

namespace PluginDataHost

mutual

/-- `flattenColumnsImpl` of `plugin_data_host.cpp`. -/
def flattenColumns : TypeTreeNode → String → List Leaf
  | .mk name kind primitiveType children _ _, path =>
    match kind with
    | .primitive => [(joinPath path name, primitiveType.getD .float64)]
    | .enum => [(joinPath path name, primitiveType.getD .int32)]
    | .struct => flattenChildren children (joinPath path name)
    | .array => []

def flattenChildren : List TypeTreeNode → String → List Leaf
  | [], _ => []
  | child :: children, path => flattenColumns child path ++ flattenChildren children path

end

def buildSchemaColumns (root : TypeTreeNode) : List ColumnDescriptor :=
  if root.kind = .struct then numberFrom 0 (flattenChildren root.children "")
  else numberFrom 0 (flattenColumns root "")

end PluginDataHost

/-! ## The count -/

mutual

/-- `count_leaf_fields_impl`. -/
def countLeafFields : TypeTreeNode → ℕ
  | .mk _ kind _ children elementType fixedArraySize =>
    match kind with
    | .struct => countChildren children
    | .array =>
      match fixedArraySize with
      | some n => n * countElement elementType
      | none => 0
    | _ => 1

def countElement : Option TypeTreeNode → ℕ
  | none => 0
  | some element => countLeafFields element

def countChildren : List TypeTreeNode → ℕ
  | [] => 0
  | child :: children => countLeafFields child + countChildren children

end

/-! ## Where they agree -/

namespace TypeTreeNode

mutual

/-- The writer follows the null element type of an array that has elements. -/
def derefsNull : TypeTreeNode → Bool
  | .mk _ kind _ children elementType fixedArraySize =>
    match kind with
    | .struct => derefsNullChildren children
    | .array =>
      match fixedArraySize with
      | some (_ + 1) => derefsNullElement elementType
      | _ => false
    | _ => false

def derefsNullElement : Option TypeTreeNode → Bool
  | none => true
  | some (.mk _ kind _ children _ _) =>
    match kind with
    | .struct => derefsNullChildren children
    | _ => false

def derefsNullChildren : List TypeTreeNode → Bool
  | [] => false
  | child :: children => derefsNull child || derefsNullChildren children

end

mutual

/-- Nothing in the tree is a column: all it has are arrays without elements, or of such trees. -/
def bare : TypeTreeNode → Bool
  | .mk _ kind _ children elementType fixedArraySize =>
    match kind with
    | .struct => bareChildren children
    | .array =>
      match fixedArraySize with
      | some (_ + 1) => bareElement elementType
      | _ => true
    | _ => false

/-- The element of an array is a struct without columns. -/
def bareElement : Option TypeTreeNode → Bool
  | none => false
  | some (.mk _ kind _ children _ _) =>
    match kind with
    | .struct => bareChildren children
    | _ => false

def bareChildren : List TypeTreeNode → Bool
  | [] => true
  | child :: children => bare child && bareChildren children

end

mutual

/-- Arrays have no columns, and enums have a type. -/
def plain : TypeTreeNode → Bool
  | .mk _ kind primitiveType children elementType fixedArraySize =>
    match kind with
    | .primitive => true
    | .enum => primitiveType.isSome
    | .struct => plainChildren children
    | .array =>
      match fixedArraySize with
      | some (_ + 1) => bareElement elementType
      | _ => true

def plainChildren : List TypeTreeNode → Bool
  | [] => true
  | child :: children => plain child && plainChildren children

end

/-- The condition on a root: an array is never plain there. -/
def plainRoot (root : TypeTreeNode) : Bool := root.plain && decide (root.kind ≠ .array)

end TypeTreeNode

open TypeTreeNode

/-! ### Writer and reader -/

mutual

theorem reader_flattenColumns (node : TypeTreeNode) (path : String) :
    DataReader.flattenColumns node path = flattenColumns node path := by
  obtain ⟨name, kind, primitiveType, children, elementType, fixedArraySize⟩ := node
  cases kind with
  | struct =>
    rw [DataReader.flattenColumns, flattenColumns]
    exact reader_flattenChildren children _
  | array =>
    rw [DataReader.flattenColumns.eq_def, flattenColumns.eq_def]
    cases fixedArraySize with
    | none => rfl
    | some n => exact List.flatMap_congr fun i _ ↦ reader_flattenElement elementType _
  | primitive => rfl
  | enum => rfl

theorem reader_flattenElement (element : Option TypeTreeNode) (path : String) :
    DataReader.flattenElement element path = flattenOptionalElement element path := by
  cases element with
  | none => rfl
  | some element =>
    obtain ⟨name, kind, primitiveType, children, elementType, fixedArraySize⟩ := element
    cases kind with
    | struct =>
      rw [DataReader.flattenElement, flattenOptionalElement, flattenArrayElement]
      exact reader_flattenChildren children path
    | array => rfl
    | primitive => rfl
    | enum => rfl

theorem reader_flattenChildren (children : List TypeTreeNode) (path : String) :
    DataReader.flattenChildren children path = flattenChildren children path := by
  cases children with
  | nil => rfl
  | cons child children =>
    rw [DataReader.flattenChildren, flattenChildren, reader_flattenColumns child path,
      reader_flattenChildren children path]

end

/-! ### Trees without columns -/

mutual

theorem bare_iff (node : TypeTreeNode) (path : String) :
    node.bare = true ↔ node.derefsNull = false ∧ flattenColumns node path = [] := by
  obtain ⟨name, kind, primitiveType, children, elementType, fixedArraySize⟩ := node
  cases kind with
  | struct =>
    rw [bare, derefsNull, flattenColumns]
    exact bareChildren_iff children _
  | array =>
    rw [bare.eq_def, derefsNull.eq_def, flattenColumns.eq_def]
    match fixedArraySize with
    | none => simp
    | some 0 => simp
    | some (n + 1) =>
      simp only [List.flatMap_eq_nil_iff, List.mem_range]
      constructor
      · intro h
        exact ⟨((bareElement_iff elementType "").mp h).1,
          fun i _ ↦ ((bareElement_iff elementType _).mp h).2⟩
      · rintro ⟨hnull, hnil⟩
        exact (bareElement_iff elementType _).mpr ⟨hnull, hnil 0 n.succ_pos⟩
  | primitive => simp [bare, flattenColumns]
  | enum => simp [bare, flattenColumns]

theorem bareElement_iff (element : Option TypeTreeNode) (path : String) :
    bareElement element = true ↔
      derefsNullElement element = false ∧ flattenOptionalElement element path = [] := by
  cases element with
  | none => simp [bareElement, derefsNullElement]
  | some element =>
    obtain ⟨name, kind, primitiveType, children, elementType, fixedArraySize⟩ := element
    cases kind with
    | struct =>
      rw [bareElement, derefsNullElement, flattenOptionalElement, flattenArrayElement]
      exact bareChildren_iff children path
    | array => simp [bareElement, flattenOptionalElement, flattenArrayElement]
    | primitive => simp [bareElement, flattenOptionalElement, flattenArrayElement]
    | enum => simp [bareElement, flattenOptionalElement, flattenArrayElement]

theorem bareChildren_iff (children : List TypeTreeNode) (path : String) :
    bareChildren children = true ↔
      derefsNullChildren children = false ∧ flattenChildren children path = [] := by
  cases children with
  | nil => simp [bareChildren, derefsNullChildren, flattenChildren]
  | cons child children =>
    rw [bareChildren, derefsNullChildren, flattenChildren, Bool.and_eq_true, Bool.or_eq_false_iff,
      List.append_eq_nil_iff, bare_iff child path, bareChildren_iff children path]
    exact and_and_and_comm

end

mutual

theorem countLeafFields_of_bare (node : TypeTreeNode) (h : node.bare = true) :
    countLeafFields node = 0 := by
  obtain ⟨name, kind, primitiveType, children, elementType, fixedArraySize⟩ := node
  cases kind with
  | struct =>
    rw [bare] at h
    rw [countLeafFields]
    exact countChildren_of_bare children h
  | array =>
    rw [bare.eq_def] at h
    rw [countLeafFields.eq_def]
    match fixedArraySize with
    | none => rfl
    | some 0 => simp
    | some (n + 1) =>
      have hzero := countElement_of_bare elementType h
      simp [hzero]
  | primitive => simp [bare] at h
  | enum => simp [bare] at h

theorem countElement_of_bare (element : Option TypeTreeNode) (h : bareElement element = true) :
    countElement element = 0 := by
  cases element with
  | none => rfl
  | some element =>
    obtain ⟨name, kind, primitiveType, children, elementType, fixedArraySize⟩ := element
    cases kind with
    | struct =>
      rw [bareElement] at h
      rw [countElement, countLeafFields]
      exact countChildren_of_bare children h
    | array => simp [bareElement] at h
    | primitive => simp [bareElement] at h
    | enum => simp [bareElement] at h

theorem countChildren_of_bare (children : List TypeTreeNode) (h : bareChildren children = true) :
    countChildren children = 0 := by
  cases children with
  | nil => rfl
  | cons child children =>
    rw [bareChildren, Bool.and_eq_true] at h
    rw [countChildren, countLeafFields_of_bare child h.1, countChildren_of_bare children h.2]

end

/-! ### Writer and host -/

mutual

theorem length_host_flattenColumns_le (node : TypeTreeNode) (path : String) :
    (PluginDataHost.flattenColumns node path).length ≤ (flattenColumns node path).length := by
  obtain ⟨name, kind, primitiveType, children, elementType, fixedArraySize⟩ := node
  cases kind with
  | struct =>
    rw [PluginDataHost.flattenColumns, flattenColumns]
    exact length_host_flattenChildren_le children _
  | array => exact Nat.zero_le _
  | primitive => exact le_rfl
  | enum => exact le_rfl

theorem length_host_flattenChildren_le (children : List TypeTreeNode) (path : String) :
    (PluginDataHost.flattenChildren children path).length ≤
      (flattenChildren children path).length := by
  cases children with
  | nil => exact le_rfl
  | cons child children =>
    rw [PluginDataHost.flattenChildren, flattenChildren, List.length_append, List.length_append]
    exact Nat.add_le_add (length_host_flattenColumns_le child path)
      (length_host_flattenChildren_le children path)

end

mutual

theorem plain_iff (node : TypeTreeNode) (path : String) :
    node.plain = true ↔ node.derefsNull = false ∧
      PluginDataHost.flattenColumns node path = flattenColumns node path := by
  obtain ⟨name, kind, primitiveType, children, elementType, fixedArraySize⟩ := node
  cases kind with
  | struct =>
    rw [plain, derefsNull, PluginDataHost.flattenColumns, flattenColumns]
    exact plainChildren_iff children _
  | array =>
    -- the host has no columns for an array, so it has to be one without
    have hbare := bare_iff (.mk name .array primitiveType children elementType fixedArraySize) path
    rw [PluginDataHost.flattenColumns, eq_comm (a := []), ← hbare, plain.eq_def, bare.eq_def]
  | primitive => exact iff_of_true rfl ⟨rfl, rfl⟩
  | enum =>
    rw [plain, derefsNull, PluginDataHost.flattenColumns, flattenColumns]
    · cases primitiveType <;> simp
    all_goals exact nofun

theorem plainChildren_iff (children : List TypeTreeNode) (path : String) :
    plainChildren children = true ↔ derefsNullChildren children = false ∧
      PluginDataHost.flattenChildren children path = flattenChildren children path := by
  cases children with
  | nil => exact iff_of_true rfl ⟨rfl, rfl⟩
  | cons child children =>
    have hchild := length_host_flattenColumns_le child path
    have hchildren := length_host_flattenChildren_le children path
    rw [plainChildren, derefsNullChildren, PluginDataHost.flattenChildren, flattenChildren,
      Bool.and_eq_true, Bool.or_eq_false_iff, plain_iff child path,
      plainChildren_iff children path]
    constructor
    · rintro ⟨⟨hnull, heq⟩, hnull', heq'⟩
      exact ⟨⟨hnull, hnull'⟩, by rw [heq, heq']⟩
    · rintro ⟨⟨hnull, hnull'⟩, heq⟩
      -- neither part can be longer, so both have the length of their counterpart
      have hlength := congrArg List.length heq
      rw [List.length_append, List.length_append] at hlength
      obtain ⟨h₁, h₂⟩ := List.append_inj heq (by omega)
      exact ⟨⟨hnull, h₁⟩, hnull', h₂⟩

end

mutual

theorem countLeafFields_of_plain (node : TypeTreeNode) (path : String) (h : node.plain = true) :
    countLeafFields node = (flattenColumns node path).length := by
  obtain ⟨name, kind, primitiveType, children, elementType, fixedArraySize⟩ := node
  cases kind with
  | struct =>
    rw [plain] at h
    rw [countLeafFields, flattenColumns]
    exact countChildren_of_plain children _ h
  | array =>
    have hbare : (TypeTreeNode.mk name .array primitiveType children elementType
        fixedArraySize).bare = true := by
      rw [plain.eq_def] at h
      rw [bare.eq_def]
      exact h
    rw [countLeafFields_of_bare _ hbare, ((bare_iff _ path).mp hbare).2, List.length_nil]
  | primitive => rfl
  | enum => rfl

theorem countChildren_of_plain (children : List TypeTreeNode) (path : String)
    (h : plainChildren children = true) :
    countChildren children = (flattenChildren children path).length := by
  cases children with
  | nil => rfl
  | cons child children =>
    rw [plainChildren, Bool.and_eq_true] at h
    rw [countChildren, flattenChildren, List.length_append, countLeafFields_of_plain child path h.1,
      countChildren_of_plain children path h.2]

end

/-! ## The columns of a topic -/

theorem numberFrom_inj {next : ℕ} {leaves leaves' : List Leaf} :
    numberFrom next leaves = numberFrom next leaves' ↔ leaves = leaves' := by
  refine ⟨fun h ↦ ?_, fun h ↦ h ▸ rfl⟩
  induction leaves generalizing next leaves' with
  | nil =>
    have := congrArg List.length h
    rw [length_numberFrom, length_numberFrom] at this
    exact (List.length_eq_zero_iff.mp this.symm).symm
  | cons leaf leaves ih =>
    cases leaves' with
    | nil => cases h
    | cons leaf' leaves' =>
      rw [numberFrom, numberFrom] at h
      obtain ⟨hcol, hrest⟩ := List.cons_eq_cons.mp h
      obtain ⟨-, htype, hpath⟩ := ColumnDescriptor.mk.inj hcol
      rw [ih hrest, Prod.ext hpath htype]

/-- The writer gets through, and all four say the same of a schema. -/
structure FlattenersAgree (root : TypeTreeNode) : Prop where
  defined : root.kind = .struct → derefsNull root = false
  reader : DataReader.schemaColumns root = buildColumnDescriptors root
  host : PluginDataHost.buildSchemaColumns root = buildColumnDescriptors root
  count : countLeafFields root = (buildColumnDescriptors root).length

theorem flattenersAgree_struct (name : String) (primitiveType : Option PrimitiveType)
    (children : List TypeTreeNode) (elementType : Option TypeTreeNode) (fixedArraySize : Option ℕ) :
    FlattenersAgree (.mk name .struct primitiveType children elementType fixedArraySize) ↔
      plainChildren children = true := by
  rw [plainChildren_iff children ""]
  constructor
  · intro h
    have hnull := h.defined rfl
    rw [derefsNull] at hnull
    exact ⟨hnull, numberFrom_inj.mp h.host⟩
  · rintro ⟨hnull, heq⟩
    refine ⟨fun _ ↦ ?_, ?_, ?_, ?_⟩
    · rw [derefsNull]
      exact hnull
    · exact congrArg (numberFrom 0) (reader_flattenChildren children "")
    · exact congrArg (numberFrom 0) heq
    · rw [countLeafFields,
        countChildren_of_plain children "" ((plainChildren_iff children "").mpr ⟨hnull, heq⟩)]
      exact (length_numberFrom 0 _).symm

/-- The four agree on a schema exactly if its arrays have no columns, its enums have a type, and it
is not an array itself. -/
theorem flattenersAgree_iff (root : TypeTreeNode) :
    FlattenersAgree root ↔ root.plainRoot = true := by
  obtain ⟨name, kind, primitiveType, children, elementType, fixedArraySize⟩ := root
  cases kind with
  | struct =>
    rw [flattenersAgree_struct, plainRoot, plain]
    simp [TypeTreeNode.kind]
  | array =>
    -- the writer has one column, the host none
    refine iff_of_false (fun h ↦ ?_) (by simp [plainRoot, TypeTreeNode.kind])
    exact absurd h.host (List.cons_ne_nil _ _).symm
  | primitive =>
    refine iff_of_true ⟨fun hkind ↦ absurd hkind (by simp [TypeTreeNode.kind]), rfl, rfl, rfl⟩ rfl
  | enum =>
    cases primitiveType with
    | none =>
      refine iff_of_false (fun h ↦ ?_) (by simp [plainRoot, plain])
      obtain ⟨-, htype, -⟩ := ColumnDescriptor.mk.inj (List.cons.inj h.host).1
      cases htype
    | some type =>
      exact iff_of_true ⟨fun hkind ↦ absurd hkind (by simp [TypeTreeNode.kind]), rfl, rfl, rfl⟩ rfl

/-- A vector of three numbers: columns for the writer, none for the host. -/
theorem not_flattenersAgree_fixedArray : ¬ FlattenersAgree
    (.mk "msg" .struct none [.mk "v" .array none []
      (some (.mk "" .primitive (some .float64) [] none none)) (some 3)] none none) := by
  intro h
  exact absurd (congrArg List.length h.host) (by decide)

end PlotJuggler
