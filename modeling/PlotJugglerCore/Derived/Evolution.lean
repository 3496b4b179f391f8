import PlotJugglerCore.Derived.DataEngine
import PlotJugglerCore.Store.Calls

/-!
# Schema evolution and columns

`evolveSchema` looks every leaf of the old tree up in the updated one by its path. The columns come
from another walk over the tree, which gives each leaf the next position as its id, expands the arrays
of fixed size and takes a leaf without a type for a `float64`. So the check says nothing about the
places of the columns, and about their types only as far as the two walks meet at the same leaf
(`evolvesAdditively_iff`).
-/

namespace PlotJuggler

/-- The columns of a tree before they have ids. -/
def columnLeaves (root : TypeTreeNode) : List Leaf :=
  if root.kind = .struct then flattenChildren root.children ""
  else [(root.name, root.primitiveType.getD .float64)]

theorem buildColumnDescriptors_eq (root : TypeTreeNode) :
    buildColumnDescriptors root = numberFrom 0 (columnLeaves root) := by
  rw [buildColumnDescriptors, columnLeaves]
  split_ifs
  · rfl
  · rfl

/-- The id of a column is its position. -/
theorem mem_numberFrom_iff {leaves : List Leaf} {col : ColumnDescriptor} :
    col ∈ numberFrom 0 leaves ↔ leaves[col.fieldId]? = some (col.fieldPath, col.logicalType) := by
  rw [List.mem_iff_getElem?]
  constructor
  · rintro ⟨i, hi⟩
    rw [getElem?_numberFrom, Nat.zero_add] at hi
    obtain ⟨leaf, hleaf, rfl⟩ := Option.map_eq_some_iff.mp hi
    exact hleaf
  · intro h
    exact ⟨col.fieldId, by rw [getElem?_numberFrom, h, Nat.zero_add]; rfl⟩

/-- So columns of one tree are columns of another if and only if they come first there. -/
theorem numberFrom_subset_iff {old new : List Leaf} :
    (∀ col ∈ numberFrom 0 old, col ∈ numberFrom 0 new) ↔ old <+: new := by
  rw [List.prefix_iff_getElem?]
  constructor
  · intro h i hi
    have hmem : (⟨i, old[i].2, old[i].1⟩ : ColumnDescriptor) ∈ numberFrom 0 old :=
      mem_numberFrom_iff.mpr (List.getElem?_eq_getElem hi)
    exact mem_numberFrom_iff.mp (h _ hmem)
  · intro h col hcol
    obtain ⟨hi, hleaf⟩ := List.getElem?_eq_some_iff.mp (mem_numberFrom_iff.mp hcol)
    rw [mem_numberFrom_iff, h _ hi, hleaf]

namespace TypeRegistry

theorem checkLeaves_eq_none_iff {new old : List Leaf} : checkLeaves new old = none ↔
    ∀ leaf ∈ old, ∃ leaf', new.find? (fun l ↦ l.1 = leaf.1) = some leaf' ∧ leaf'.2 = leaf.2 := by
  induction old with
  | nil => simp [checkLeaves]
  | cons leaf old ih =>
    obtain ⟨path, type⟩ := leaf
    rw [checkLeaves, List.forall_mem_cons, ← ih]
    rcases hfind : new.find? fun l ↦ l.1 = path with _ | leaf'
    · simp [hfind]
    · simp only [hfind]
      split_ifs with htype
      · simp [htype]
      · simp [not_not.mp htype]

/-- The check compares the type of a column: it is a leaf of the old tree with its type, and a leaf of
the new tree under its path has no type but the column's. -/
def Compared (old new : TypeTreeNode) (path : String) (type type' : PrimitiveType) : Prop :=
  (path, type) ∈ flattenLeafTypes old ∧
    ∀ type₁, (path, type₁) ∈ flattenLeafTypes new → type₁ = type'

/-- The old paths come first in the same order, and types that the check does not compare have not
changed. -/
structure KeepsPlaces (old new : TypeTreeNode) : Prop where
  paths : (columnLeaves old).map Prod.fst <+: (columnLeaves new).map Prod.fst
  types : ∀ (i : ℕ) (path : String) (type type' : PrimitiveType),
    (columnLeaves old)[i]? = some (path, type) → (columnLeaves new)[i]? = some (path, type') →
      ¬Compared old new path type type' → type' = type

theorem type_eq_of_compared {old new : TypeTreeNode} {path : String} {type type' : PrimitiveType}
    (hcheck : checkLeaves (flattenLeafTypes new) (flattenLeafTypes old) = none)
    (h : Compared old new path type type') : type' = type := by
  obtain ⟨⟨path', type₁⟩, hfind, rfl⟩ := checkLeaves_eq_none_iff.mp hcheck _ h.1
  obtain rfl : path' = path := by simpa using List.find?_some hfind
  exact (h.2 type₁ (List.mem_of_find?_eq_some hfind)).symm

theorem keepsPlaces_of_prefix {old new : TypeTreeNode} (h : columnLeaves old <+: columnLeaves new) :
    KeepsPlaces old new := by
  refine ⟨h.map Prod.fst, fun i path type type' hold hnew _ ↦ ?_⟩
  obtain ⟨hi, hleaf⟩ := List.getElem?_eq_some_iff.mp hold
  rw [List.prefix_iff_getElem?.mp h i hi, hleaf] at hnew
  exact (Prod.mk.inj (Option.some.inj hnew)).2.symm

/-- Fields behind those of a struct, whatever they are, take no place. -/
theorem keepsPlaces_append (name : String) (type : Option PrimitiveType)
    (children fields : List TypeTreeNode) (element : Option TypeTreeNode) (size : Option ℕ) :
    KeepsPlaces (.mk name .struct type children element size)
      (.mk name .struct type (children ++ fields) element size) := by
  refine keepsPlaces_of_prefix ?_
  change flattenChildren children "" <+: flattenChildren (children ++ fields) ""
  rw [flattenChildren_append]
  exact List.prefix_append _ _

theorem columnLeaves_prefix_iff {old new : TypeTreeNode}
    (hcheck : checkLeaves (flattenLeafTypes new) (flattenLeafTypes old) = none) :
    columnLeaves old <+: columnLeaves new ↔ KeepsPlaces old new := by
  constructor
  · exact keepsPlaces_of_prefix
  · intro h
    rw [List.prefix_iff_getElem?]
    intro i hi
    have hpath := List.prefix_iff_getElem?.mp h.paths i (by rwa [List.length_map])
    rw [List.getElem?_map, List.getElem_map] at hpath
    obtain ⟨⟨path, type'⟩, hnew, hfst⟩ := Option.map_eq_some_iff.mp hpath
    have hold := List.getElem?_eq_getElem hi
    rcases hleaf : (columnLeaves old)[i] with ⟨path', type⟩
    rw [hleaf] at hold hfst
    obtain rfl : path = path' := hfst
    rw [hnew]
    by_cases hcompared : Compared old new path type type'
    · rw [type_eq_of_compared hcheck hcompared]
    · rw [h.types i path type type' hold hnew hcompared]

/-- What additive evolution means for the columns. -/
def EvolvesAdditively (r : TypeRegistry) (id : ℕ) (updated : TypeTreeNode) : Prop :=
  ∀ old, r.lookup id = some old →
    ((r.evolveSchema id updated).2 = none →
      ∀ col ∈ buildColumnDescriptors old, col ∈ buildColumnDescriptors updated) ∧
    ((r.evolveSchema id updated).2 ≠ none → (r.evolveSchema id updated).1.lookup id = some old)

/-- An accepted update keeps the columns exactly if it keeps their places. -/
theorem evolvesAdditively_iff (r : TypeRegistry) (id : ℕ) (updated : TypeTreeNode) :
    r.EvolvesAdditively id updated ↔ ∀ old, r.lookup id = some old →
      checkLeaves (flattenLeafTypes updated) (flattenLeafTypes old) = none →
        KeepsPlaces old updated := by
  refine forall₂_congr fun old hold ↦ ?_
  rw [evolveSchema, hold]
  dsimp only
  rcases hcheck : checkLeaves (flattenLeafTypes updated) (flattenLeafTypes old) with _ | e
  · have hcolumns : (∀ col ∈ buildColumnDescriptors old, col ∈ buildColumnDescriptors updated) ↔
        KeepsPlaces old updated := by
      rw [buildColumnDescriptors_eq, buildColumnDescriptors_eq, numberFrom_subset_iff,
        columnLeaves_prefix_iff hcheck]
    constructor
    · exact fun h _ ↦ hcolumns.mp (h.1 rfl)
    · exact fun h ↦ ⟨fun _ ↦ hcolumns.mpr (h rfl), fun hne ↦ absurd rfl hne⟩
  · constructor
    · exact fun _ hnone ↦ nomatch hnone
    · exact fun _ ↦ ⟨fun hnone ↦ (nomatch hnone), fun _ ↦ hold⟩

/-- Two fields that change places are accepted, and so do their columns. -/
theorem not_evolvesAdditively : ¬EvolvesAdditively
    [("pair", makeStruct "pair" [makePrimitive "a" .float64, makePrimitive "b" .int32])] 1
    (makeStruct "pair" [makePrimitive "b" .int32, makePrimitive "a" .float64]) := by
  intro h
  have hcols := (h _ rfl).1 (by decide +kernel) ⟨0, .float64, "a"⟩ (by decide +kernel)
  exact absurd hcols (by decide +kernel)

end TypeRegistry

end PlotJuggler
