import PlotJugglerCore.Store.ColumnBuffer

/-!
# Type trees and the columns they flatten to

`type_tree.hpp` and the helpers at the top of `writer.cpp`. A node carries every field of the source
record whatever its kind, because the flattener looks at the kind first and then at fields that a
node of that kind need not have set. Semantic tags and enum names play no part here and are left
out.

The source threads one counter for the field ids through the recursion and counts up at every
column it pushes, so the ids are the positions: the recursion yields paths with their types and
`numberFrom` counts them.
-/

namespace PlotJuggler

inductive TypeKind
  | primitive | struct | array | enum
  deriving DecidableEq, Repr

inductive TypeTreeNode
  | mk (name : String) (kind : TypeKind) (primitiveType : Option PrimitiveType)
    (children : List TypeTreeNode) (elementType : Option TypeTreeNode) (fixedArraySize : Option ℕ)

namespace TypeTreeNode

def name : TypeTreeNode → String
  | mk name _ _ _ _ _ => name

def kind : TypeTreeNode → TypeKind
  | mk _ kind _ _ _ _ => kind

def primitiveType : TypeTreeNode → Option PrimitiveType
  | mk _ _ primitiveType _ _ _ => primitiveType

def children : TypeTreeNode → List TypeTreeNode
  | mk _ _ _ children _ _ => children

def elementType : TypeTreeNode → Option TypeTreeNode
  | mk _ _ _ _ elementType _ => elementType

def fixedArraySize : TypeTreeNode → Option ℕ
  | mk _ _ _ _ _ fixedArraySize => fixedArraySize

end TypeTreeNode

def makePrimitive (name : String) (type : PrimitiveType) : TypeTreeNode :=
  .mk name .primitive (some type) [] none none

def makeStruct (name : String) (children : List TypeTreeNode) : TypeTreeNode :=
  .mk name .struct none children none none

/-- A column before it has an id. -/
abbrev Leaf := String × PrimitiveType

/-- `fmt::format("{}[{}]", path, i)`. -/
def elementPath (path : String) (i : ℕ) : String := path ++ "[" ++ toString i ++ "]"

def joinPath (path name : String) : String := if path.isEmpty then name else path ++ "." ++ name

mutual

/-- `flatten_columns_impl`. -/
def flattenColumns : TypeTreeNode → String → List Leaf
  | .mk name kind primitiveType children elementType fixedArraySize, path =>
    match kind with
    | .struct => flattenChildren children (joinPath path name)
    | .array =>
      -- a variable-length array has no columns until `expandArray` gives it some
      match fixedArraySize with
      | some n => (List.range n).flatMap fun i ↦
          flattenOptionalElement elementType (elementPath (joinPath path name) i)
      | none => []
    | _ => [(joinPath path name, primitiveType.getD .float64)]

/-- `flatten_array_element_impl`. -/
def flattenArrayElement : TypeTreeNode → String → List Leaf
  | .mk _ kind primitiveType children _ _, path =>
    match kind with
    | .struct => flattenChildren children path
    | _ => [(path, primitiveType.getD .float64)]

/-- The loop over the children of a struct. -/
def flattenChildren : List TypeTreeNode → String → List Leaf
  | [], _ => []
  | child :: children, path => flattenColumns child path ++ flattenChildren children path

/-- The element of an array node; one without an element type cannot be dereferenced. -/
def flattenOptionalElement : Option TypeTreeNode → String → List Leaf
  | some element, path => flattenArrayElement element path
  | none, _ => []

end

theorem flattenChildren_append (children fields : List TypeTreeNode) (path : String) :
    flattenChildren (children ++ fields) path
      = flattenChildren children path ++ flattenChildren fields path := by
  induction children with
  | nil => rfl
  | cons child children ih =>
    rw [List.cons_append, flattenChildren, ih, flattenChildren, List.append_assoc]

/-- Consecutive field ids from `next` on. -/
def numberFrom (next : ℕ) : List Leaf → List ColumnDescriptor
  | [] => []
  | (path, type) :: leaves => ⟨next, type, path⟩ :: numberFrom (next + 1) leaves

theorem getElem?_numberFrom (next i : ℕ) (leaves : List Leaf) :
    (numberFrom next leaves)[i]? = leaves[i]?.map fun leaf ↦ ⟨next + i, leaf.2, leaf.1⟩ := by
  induction leaves generalizing next i with
  | nil => simp [numberFrom]
  | cons leaf leaves ih =>
    rw [numberFrom]
    rcases i with _ | i
    · rfl
    · rw [List.getElem?_cons_succ, List.getElem?_cons_succ, ih]
      simp only [Nat.add_assoc, Nat.add_comm 1]

theorem length_numberFrom (next : ℕ) (leaves : List Leaf) :
    (numberFrom next leaves).length = leaves.length := by
  induction leaves generalizing next with
  | nil => rfl
  | cons leaf leaves ih => rw [numberFrom, List.length_cons, ih, List.length_cons]

def buildColumnDescriptors (root : TypeTreeNode) : List ColumnDescriptor :=
  if root.kind = .struct then numberFrom 0 (flattenChildren root.children "")
  else [⟨0, root.primitiveType.getD .float64, root.name⟩]

/-- The segments `find_child_at_path` walks along: a path that ends in a dot has none behind it. -/
def pathSegments (path : String) : List (List Char) :=
  if (path.toList.splitOn '.').getLast? = some [] then (path.toList.splitOn '.').dropLast
  else path.toList.splitOn '.'

/-- `find_child_at_path`. -/
def findChildAlong (node : TypeTreeNode) : List (List Char) → Option TypeTreeNode
  | [] => some node
  | segment :: segments =>
    if node.kind = .struct then
      match node.children.find? fun child ↦ child.name.toList = segment with
      | some child => findChildAlong child segments
      | none => none
    else none

def findChildAtPath (root : TypeTreeNode) (path : String) : Option TypeTreeNode :=
  findChildAlong root (pathSegments path)

end PlotJuggler
