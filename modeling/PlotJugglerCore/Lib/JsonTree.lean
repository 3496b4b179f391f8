import PlotJugglerCore.Lib.Binary64

/-!
# JSON documents

A document as a library keeps it after reading: numbers are integers or doubles, and the members of
an object are a map, sorted by key. Writing such a document and reading the text again gives the same
document, except that there is no text for an infinity or a NaN, which are written as `null`.

The text itself does not matter. `JsonText` holds the two functions of a library and
`JsonText.Documented` says what they do to each other.
-/

/-! ## Sorted maps -/

namespace SortedMap

variable {κ ω : Type*} [LinearOrder κ]

/-- The map with one value set. -/
def put (key : κ) (value : ω) : List (κ × ω) → List (κ × ω)
  | [] => [(key, value)]
  | m :: ms =>
    if key < m.1 then (key, value) :: m :: ms
    else if key = m.1 then (key, value) :: ms
    else m :: put key value ms

theorem lookup_cons (m : κ × ω) (ms : List (κ × ω)) (k : κ) :
    (m :: ms).lookup k = if k = m.1 then some m.2 else ms.lookup k := by
  rw [List.lookup_cons]
  by_cases hk : k = m.1
  · rw [if_pos hk, beq_iff_eq.mpr hk]
  · rw [if_neg hk, beq_eq_false_iff_ne.mpr hk]

theorem lookup_put (key k : κ) (value : ω) (ms : List (κ × ω)) :
    (put key value ms).lookup k = if k = key then some value else ms.lookup k := by
  induction ms with
  | nil => rw [put, lookup_cons]
  | cons m ms ih =>
    rw [put]
    split_ifs with hlt hk heq hk
    · rw [lookup_cons, if_pos hk]
    · rw [lookup_cons, if_neg hk]
    · rw [lookup_cons, if_pos hk]
    · rw [lookup_cons, if_neg hk, lookup_cons, if_neg (heq ▸ hk)]
    -- the other keys are found before or behind the new member
    all_goals simp only [lookup_cons, ih]
    all_goals grind

theorem forall_put {P : κ × ω → Prop} {key : κ} {value : ω} {ms : List (κ × ω)}
    (hput : P (key, value)) (h : ∀ m ∈ ms, P m) : ∀ m ∈ put key value ms, P m := by
  induction ms with
  | nil => simpa [put] using hput
  | cons m ms ih =>
    rw [List.forall_mem_cons] at h
    rw [put]
    split_ifs
    · exact List.forall_mem_cons.mpr ⟨hput, List.forall_mem_cons.mpr h⟩
    · exact List.forall_mem_cons.mpr ⟨hput, h.2⟩
    · exact List.forall_mem_cons.mpr ⟨h.1, ih h.2⟩

/-- The keys are in ascending order, so that there is one value for a key. -/
def Sorted (ms : List (κ × ω)) : Prop := ms.Pairwise fun m m' ↦ m.1 < m'.1

theorem sorted_nil : Sorted ([] : List (κ × ω)) := List.Pairwise.nil

theorem Sorted.put {ms : List (κ × ω)} (h : Sorted ms) (key : κ) (value : ω) :
    Sorted (put key value ms) := by
  induction ms with
  | nil => exact List.pairwise_singleton _ _
  | cons m ms ih =>
    rw [Sorted, List.pairwise_cons] at h
    rw [SortedMap.put]
    split_ifs with hlt heq
    · refine List.pairwise_cons.mpr ⟨?_, List.pairwise_cons.mpr h⟩
      exact List.forall_mem_cons.mpr ⟨hlt, fun m' hm' ↦ hlt.trans (h.1 m' hm')⟩
    · exact List.pairwise_cons.mpr ⟨heq ▸ h.1, h.2⟩
    · refine List.pairwise_cons.mpr ⟨forall_put ?_ h.1, ih h.2⟩
      exact lt_of_le_of_ne (not_lt.mp hlt) (Ne.symm heq)

theorem put_of_lt {ms : List (κ × ω)} {key : κ} (h : ∀ m ∈ ms, m.1 < key) (value : ω) :
    SortedMap.put key value ms = ms ++ [(key, value)] := by
  induction ms with
  | nil => rfl
  | cons m ms ih =>
    rw [List.forall_mem_cons] at h
    rw [SortedMap.put, if_neg (not_lt.mpr h.1.le), if_neg h.1.ne', ih h.2, List.cons_append]

/-- A sorted map is what its members make, put in one after the other. -/
theorem foldl_put {ms : List (κ × ω)} (h : Sorted ms) :
    ms.foldl (fun acc m ↦ SortedMap.put m.1 m.2 acc) [] = ms := by
  induction ms using List.reverseRecOn with
  | nil => rfl
  | append_singleton ms m ih =>
    rw [Sorted, List.pairwise_append] at h
    rw [List.foldl_append, ih h.1, List.foldl_cons, List.foldl_nil]
    exact put_of_lt (fun m' hm' ↦ h.2.2 m' hm' m (List.mem_singleton_self m)) m.2

/-- Only the keys count. -/
theorem sorted_iff_map_fst {ms : List (κ × ω)} :
    Sorted ms ↔ (ms.map Prod.fst).Pairwise (· < ·) := List.pairwise_map.symm

end SortedMap

/-! ## Documents -/

inductive JsonTree
  | null
  | bool (b : Bool)
  | integer (n : ℤ)
  | float (x : Binary64)
  | string (s : String)
  | array (items : List JsonTree)
  | object (members : List (String × JsonTree))

namespace JsonTree

/-- A machine integer in a document. -/
def int (n : Int32) : JsonTree := .integer n.toInt

def strings (ss : List String) : JsonTree := .array (ss.map .string)

/-! ### Reading -/

/-- `find`: nothing is found in what is not an object. -/
def find (key : String) : JsonTree → Option JsonTree
  | .object ms => ms.lookup key
  | _ => none

def bool? : JsonTree → Option Bool
  | .bool b => some b
  | _ => none

/-- `get<int>()` of an integer. -/
def int? : JsonTree → Option Int32
  | .integer n => some (.ofInt n)
  | _ => none

/-- `get<double>()` of any number. -/
def double? : JsonTree → Option Binary64
  | .integer n => some (.ofInt n)
  | .float x => some x
  | _ => none

def string? : JsonTree → Option String
  | .string s => some s
  | _ => none

def array? : JsonTree → Option (List JsonTree)
  | .array items => some items
  | _ => none

/-! ### Writing -/

/-- An object after these assignments, in this order. -/
def ofMembers (ms : List (String × JsonTree)) : JsonTree :=
  .object (ms.foldl (fun acc m ↦ SortedMap.put m.1 m.2 acc) [])

/-! ### Texts -/

mutual

/-- What is left of a document in its text. -/
def written : JsonTree → JsonTree
  | .float x => if Binary64.isFinite x then .float x else .null
  | .array items => .array (writtenItems items)
  | .object ms => .object (writtenMembers ms)
  | .null => .null
  | .bool b => .bool b
  | .integer n => .integer n
  | .string s => .string s

def writtenItems : List JsonTree → List JsonTree
  | [] => []
  | d :: ds => d.written :: writtenItems ds

def writtenMembers : List (String × JsonTree) → List (String × JsonTree)
  | [] => []
  | (key, d) :: ms => (key, d.written) :: writtenMembers ms

end

/-- What a library can hold: integers of sixty-four bits, and objects that are sorted maps. -/
inductive WellFormed : JsonTree → Prop
  | null : WellFormed .null
  | bool (b : Bool) : WellFormed (.bool b)
  | integer {n : ℤ} (hmin : -2 ^ 63 ≤ n) (hmax : n < 2 ^ 64) : WellFormed (.integer n)
  | float (x : Binary64) : WellFormed (.float x)
  | string (s : String) : WellFormed (.string s)
  | array {items : List JsonTree} (h : ∀ d ∈ items, WellFormed d) : WellFormed (.array items)
  | object {ms : List (String × JsonTree)} (hsorted : SortedMap.Sorted ms)
      (h : ∀ m ∈ ms, WellFormed m.2) : WellFormed (.object ms)

attribute [simp] WellFormed.bool WellFormed.float WellFormed.string

theorem writtenItems_eq_map (items : List JsonTree) : writtenItems items = items.map written := by
  induction items with
  | nil => rfl
  | cons d ds ih => rw [writtenItems, ih, List.map_cons]

theorem lookup_writtenMembers (ms : List (String × JsonTree)) (key : String) :
    (writtenMembers ms).lookup key = (ms.lookup key).map written := by
  induction ms with
  | nil => rfl
  | cons m ms ih =>
    rw [writtenMembers, SortedMap.lookup_cons, SortedMap.lookup_cons, ih]
    split_ifs <;> rfl

/-! ### What the getters find -/

/-- The last assignment counts. -/
theorem find_ofMembers (ms : List (String × JsonTree)) (key : String) :
    (ofMembers ms).find key = ms.reverse.lookup key := by
  induction ms using List.reverseRecOn with
  | nil => rfl
  | append_singleton ms m ih =>
    rw [ofMembers, List.foldl_append, List.reverse_append, List.reverse_singleton,
      List.singleton_append, SortedMap.lookup_cons, ← ih]
    exact SortedMap.lookup_put _ _ _ _

theorem find_written (d : JsonTree) (key : String) :
    d.written.find key = (d.find key).map written := by
  rcases d with _ | _ | _ | x | _ | _ | ms
  case float =>
    rw [written]
    split_ifs <;> rfl
  case object => exact lookup_writtenMembers ms key
  all_goals rfl

@[simp] theorem bool?_written (d : JsonTree) : d.written.bool? = d.bool? := by
  rcases d with _ | _ | _ | x | _ | _ | _
  case float =>
    rw [written]
    split_ifs <;> rfl
  all_goals rfl

@[simp] theorem int?_written (d : JsonTree) : d.written.int? = d.int? := by
  rcases d with _ | _ | _ | x | _ | _ | _
  case float =>
    rw [written]
    split_ifs <;> rfl
  all_goals rfl

@[simp] theorem string?_written (d : JsonTree) : d.written.string? = d.string? := by
  rcases d with _ | _ | _ | x | _ | _ | _
  case float =>
    rw [written]
    split_ifs <;> rfl
  all_goals rfl

theorem array?_written (d : JsonTree) : d.written.array? = d.array?.map (List.map written) := by
  rcases d with _ | _ | _ | x | _ | _ | _
  case float =>
    rw [written]
    split_ifs <;> rfl
  case array => exact congrArg some (writtenItems_eq_map _)
  all_goals rfl

theorem double?_written_float (x : Binary64) :
    (written (.float x)).double? = if Binary64.isFinite x then some x else none := by
  rw [written]
  split_ifs <;> rfl

@[simp] theorem int?_int (n : Int32) : (int n).int? = some n :=
  congrArg some (Int32.ofInt_toInt n)

theorem filterMap_strings (ss : List String) :
    (strings ss).array?.map (List.filterMap string?) = some ss := by
  rw [strings, array?, Option.map_some, List.filterMap_map]
  exact congrArg some List.filterMap_some

/-! ### What is well formed -/

theorem wellFormed_ofMembers {ms : List (String × JsonTree)} (h : ∀ m ∈ ms, m.2.WellFormed) :
    (ofMembers ms).WellFormed := by
  suffices hfold : ∀ acc : List (String × JsonTree), SortedMap.Sorted acc →
      (∀ m ∈ acc, m.2.WellFormed) →
      (object (ms.foldl (fun acc m ↦ SortedMap.put m.1 m.2 acc) acc)).WellFormed from
    hfold [] SortedMap.sorted_nil (List.forall_mem_nil _)
  induction ms with
  | nil => exact fun acc hsorted hacc ↦ .object hsorted hacc
  | cons m ms ih =>
    rw [List.forall_mem_cons] at h
    exact fun acc hsorted hacc ↦
      ih h.2 _ (hsorted.put _ _) (SortedMap.forall_put h.1 hacc)

@[simp] theorem wellFormed_int (n : Int32) : (int n).WellFormed := by
  have hmin := n.le_toInt
  have hmax := n.toInt_lt
  exact .integer (by omega) (by omega)

@[simp] theorem wellFormed_strings (ss : List String) : (strings ss).WellFormed :=
  .array (List.forall_mem_map.mpr fun s _ ↦ .string s)

end JsonTree

/-! ## The library -/

/-- A library for JSON texts. `cString` is what another side reads of a text that it gets as a
zero-terminated string. -/
structure JsonText where
  Text : Type
  dump : JsonTree → Text
  parse : Text → Option JsonTree
  cString : Text → Text

namespace JsonText

/-- A text is read as what was written, and control characters are escaped in it. -/
structure Documented (J : JsonText) : Prop where
  parse_dump : ∀ d : JsonTree, d.WellFormed → J.parse (J.dump d) = some d.written
  cString_dump : ∀ d : JsonTree, J.cString (J.dump d) = J.dump d

end JsonText
