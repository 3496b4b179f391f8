import PlotJugglerCore.Store.Expansion
import PlotJugglerCore.Store.SeriesArrow

/-!
# Records of the plugin host

`WriteCore` of `plugin_data_host.cpp`, through which plugins add rows. A record names its fields, or
it refers to them by the ids an earlier call returned. A call first resolves all fields, which may
add columns to the topic, and then writes the row in one go.

A core works on many topics, but a call on a topic touches what it holds for that topic only: the
entries of its writer, and those of the two caches. That is a `WriteCore` here, for a topic that
exists. A `Host` is a world with such a core in it: everyone else goes on as before, but the calls
of the core's writer on the topic all come through the core.

A call that returns `false` leaves its message in `last_error_`, and one that returns `true` clears
it: both are the result of the functions below. As in the writer, `none` is an assertion that fails.
-/

namespace PlotJuggler

/-- The errors of a core, with what their message says. -/
inductive HostError
  | topicNotFound (topicId : ℕ)
  | unsupportedType (raw : ℕ)
  | fieldNotFound (id topicId : ℕ)
  | differentType (name : String)
  | scalarMismatch (caller : String)
  | duplicateName (name : String)
  | duplicateId (id : ℕ)
  | foreignHandle
  | write (e : WriteError)
  deriving DecidableEq, Repr

/-! ## Scalars -/

/-- `fromAbiType`: the enumerators of the two sides have the same values. -/
def fromAbiType : ℕ → Except HostError PrimitiveType
  | 0 => .ok .float32
  | 1 => .ok .float64
  | 2 => .ok .int8
  | 3 => .ok .int16
  | 4 => .ok .int32
  | 5 => .ok .int64
  | 6 => .ok .uint8
  | 7 => .ok .uint16
  | 8 => .ok .uint32
  | 9 => .ok .uint64
  | 10 => .ok .bool
  | 11 => .ok .string
  | raw => .error (.unsupportedType raw)

/-- `PJ_scalar_value_t`: a tag and a union. The member that belongs to the tag is the only one that
is ever read, and none belongs to a tag that is no type. -/
inductive ScalarValue
  | float32 (v : Binary32)
  | float64 (v : Binary64)
  | int8 (v : Int8)
  | int16 (v : Int16)
  | int32 (v : Int32)
  | int64 (v : Int64)
  | uint8 (v : UInt8)
  | uint16 (v : UInt16)
  | uint32 (v : UInt32)
  | uint64 (v : UInt64)
  | bool (v : UInt8)
  | string (v : List UInt8)
  | untyped (tag : UInt32)
  deriving DecidableEq, Repr

namespace ScalarValue

/-- The tag. -/
def type : ScalarValue → ℕ
  | float32 _ => 0
  | float64 _ => 1
  | int8 _ => 2
  | int16 _ => 3
  | int32 _ => 4
  | int64 _ => 5
  | uint8 _ => 6
  | uint16 _ => 7
  | uint32 _ => 8
  | uint64 _ => 9
  | bool _ => 10
  | string _ => 11
  | untyped tag => 12 + tag.toNat

/-- The value `setFieldValue` stores: narrow integers are widened. -/
def stored : ScalarValue → Option Value
  | float32 v => some (.float32 v)
  | float64 v => some (.float64 v)
  | int8 v => some (.int64 v.toInt64)
  | int16 v => some (.int64 v.toInt64)
  | int32 v => some (.int32 v)
  | int64 v => some (.int64 v)
  | uint8 v => some (.uint64 v.toUInt64)
  | uint16 v => some (.uint64 v.toUInt64)
  | uint32 v => some (.uint64 v.toUInt64)
  | uint64 v => some (.uint64 v)
  | bool v => some (.bool (v != 0))
  | string v => some (.string v)
  | untyped _ => none

end ScalarValue

def validateScalar (value : ScalarValue) (expected : PrimitiveType) (caller : String) :
    Except HostError Unit :=
  match fromAbiType value.type with
  | .error e => .error e
  | .ok actual => if actual ≠ expected then .error (.scalarMismatch caller) else .ok ()

/-- `PJ_named_field_value_t`. -/
structure NamedField where
  name : String
  isNull : Bool := false
  value : ScalarValue
  deriving DecidableEq, Repr

/-- `PJ_bound_field_value_t`, with its handle. -/
structure BoundField where
  topic : ℕ
  id : ℕ
  isNull : Bool := false
  value : ScalarValue
  deriving DecidableEq, Repr

/-- What a field asks for. -/
def NamedField.cell (f : NamedField) : Option ScalarValue := if f.isNull then none else some f.value

def BoundField.cell (f : BoundField) : Option ScalarValue := if f.isNull then none else some f.value

/-! ## Writing a row -/

namespace TopicView

/-- `setFieldValue`. It switches on the type of the field, which its callers have compared with the
tag of the value. -/
def setFieldValue (v : TopicView) (i : ℕ) (value : ScalarValue) : Option TopicView :=
  match value.stored with
  | some x => v.set i x
  | none => some v

def setField (v : TopicView) (p : ℕ × Option ScalarValue) : Option TopicView :=
  match p.2 with
  | none => v.setNull p.1
  | some value => v.setFieldValue p.1 value

/-- How both kinds of record end: from `beginRow` to `finishRow`. -/
def writeRow (schema : Option TypeTreeNode) (v : TopicView) (t : Timestamp)
    (cells : List (ℕ × Option ScalarValue)) : Option (TopicView × Except WriteError Unit) :=
  (v.beginRow schema t).bind fun
    | (v, .error e) => some (v, .error e)
    | (v, .ok _) => (cells.foldlM setField v).bind finishRow

end TopicView

/-! ## The core -/

/-- What a core holds for a topic. A key of a cache may be there more than once, and then the entry
in front counts. -/
structure WriteCore where
  view : TopicView
  fieldCache : List (String × ℕ) := []
  fieldTypes : List (ℕ × PrimitiveType) := []
  deriving DecidableEq, Repr

namespace WriteCore

variable (schema : Option TypeTreeNode)

def cachedField (c : WriteCore) (name : String) : Option ℕ :=
  (c.fieldCache.find? fun p ↦ p.1 = name).map Prod.snd

def cachedType (c : WriteCore) (id : ℕ) : Option PrimitiveType :=
  (c.fieldTypes.find? fun p ↦ p.1 = id).map Prod.snd

def lookupFieldType (c : WriteCore) (id : ℕ) : WriteCore × Except HostError PrimitiveType :=
  match c.cachedType id with
  | some type => (c, .ok type)
  | none =>
    match findFieldDescriptor (effectiveColumns schema c.view.storage) id with
    | none => (c, .error (.fieldNotFound id c.view.storage.topicId))
    | some desc =>
      ({ c with
          fieldTypes := (id, desc.logicalType) :: c.fieldTypes
          fieldCache := (desc.fieldPath, id) :: c.fieldCache },
        .ok desc.logicalType)

def ensureField (c : WriteCore) (name : String) (abiType : ℕ) :
    Option (WriteCore × Except HostError ℕ) :=
  match fromAbiType abiType with
  | .error e => some (c, .error e)
  | .ok type =>
    match c.cachedField name with
    | some id =>
      match c.lookupFieldType schema id with
      | (c, .error e) => some (c, .error e)
      | (c, .ok existing) =>
        if existing ≠ type then some (c, .error (.differentType name)) else some (c, .ok id)
    | none =>
      (c.view.ensureColumn schema name type).map fun
        | (v, .error e) => ({ c with view := v }, .error (.write e))
        | (v, .ok id) =>
          ({ view := v
             fieldCache := (name, id) :: c.fieldCache
             fieldTypes := (id, type) :: c.fieldTypes },
            .ok id)

/-- One field of `appendRecord`: the column it is for, or none if it is passed over. -/
def resolveField (c : WriteCore) (f : NamedField) :
    Option (WriteCore × Except HostError (Option ℕ)) :=
  if f.isNull then
    match c.cachedField f.name with
    | none =>
      match fromAbiType f.value.type with
      | .ok _ => (c.ensureField schema f.name f.value.type).map (Prod.map id (Except.map some))
      -- an untyped null of a field that is not known yet
      | .error _ => some (c, .ok none)
    | some id =>
      match c.lookupFieldType schema id with
      | (c, .error e) => some (c, .error e)
      | (c, .ok _) => some (c, .ok (some id))
  else
    match fromAbiType f.value.type with
    | .error e => some (c, .error e)
    | .ok type =>
      (c.ensureField schema f.name f.value.type).map fun
        | (c, .error e) => (c, .error e)
        | (c, .ok id) => (c, (validateScalar f.value type "appendRecord").map fun _ ↦ some id)

/-- The loop over the fields of `appendRecord`, `seen` being `seen_names`. -/
def resolveNamed (c : WriteCore) (seen : List String) : List NamedField →
    Option (WriteCore × Except HostError (List (ℕ × Option ScalarValue)))
  | [] => some (c, .ok [])
  | f :: fields =>
    if f.name ∈ seen then some (c, .error (.duplicateName f.name))
    else
      (c.resolveField schema f).bind fun
        | (c, .error e) => some (c, .error e)
        | (c, .ok handle) =>
          (c.resolveNamed (f.name :: seen) fields).map
            (Prod.map id (Except.map ((handle.toList.map (·, f.cell)) ++ ·)))

/-- Write the row of the fields that were resolved. -/
def writeRow (c : WriteCore) (t : Timestamp) (cells : List (ℕ × Option ScalarValue)) :
    Option (WriteCore × Except HostError Unit) :=
  (c.view.writeRow schema t cells).map fun
    | (v, .error e) => ({ c with view := v }, .error (.write e))
    | (v, .ok _) => ({ c with view := v }, .ok ())

def appendRecord (c : WriteCore) (t : Timestamp) (fields : List NamedField) :
    Option (WriteCore × Except HostError Unit) :=
  (c.resolveNamed schema [] fields).bind fun
    | (c, .error e) => some (c, .error e)
    | (c, .ok cells) => c.writeRow schema t cells

/-- The loop over the fields of `appendBoundRecord`, `seen` being `seen_ids`. -/
def resolveBound (c : WriteCore) (seen : List ℕ) : List BoundField →
    WriteCore × Except HostError (List (ℕ × Option ScalarValue))
  | [] => (c, .ok [])
  | f :: fields =>
    if f.topic ≠ c.view.storage.topicId then (c, .error .foreignHandle)
    else if f.id ∈ seen then (c, .error (.duplicateId f.id))
    else
      match c.lookupFieldType schema f.id with
      | (c, .error e) => (c, .error e)
      | (c, .ok type) =>
        match if f.isNull then .ok () else validateScalar f.value type "appendBoundRecord" with
        | .error e => (c, .error e)
        | .ok _ =>
          Prod.map id (Except.map ((f.id, f.cell) :: ·)) (c.resolveBound (f.id :: seen) fields)

def appendBoundRecord (c : WriteCore) (t : Timestamp) (fields : List BoundField) :
    Option (WriteCore × Except HostError Unit) :=
  match c.resolveBound schema [] fields with
  | (c, .error e) => some (c, .error e)
  | (c, .ok cells) => c.writeRow schema t cells

end WriteCore

/-! ## The core in the world -/

/-- A record of either kind. -/
inductive Record
  | named (t : Timestamp) (fields : List NamedField)
  | bound (t : Timestamp) (fields : List BoundField)
  deriving DecidableEq, Repr

def WriteCore.append (schema : Option TypeTreeNode) (c : WriteCore) :
    Record → Option (WriteCore × Except HostError Unit)
  | .named t fields => c.appendRecord schema t fields
  | .bound t fields => c.appendBoundRecord schema t fields

/-- A world, and the caches of a core for one topic. -/
structure Host where
  world : World
  fieldCache : List (String × ℕ) := []
  fieldTypes : List (ℕ × PrimitiveType) := []

/-- The calls of the core on the topic, and whatever else happens. An Arrow stream is a call of
`ensureField` for each column and of `appendColumns` for each batch. -/
inductive HostCall
  | ensureField (name : String) (abiType : ℕ)
  | append (record : Record)
  | appendColumns (ts : List Timestamp) (cols : List ColumnData)
  | world (c : Call)
  deriving DecidableEq, Repr

/-- A call of writer `w` on topic `τ`. -/
def Call.IsOn (w τ : ℕ) : Call → Prop
  | .topic w' τ' _ => w' = w ∧ τ' = τ
  | _ => False

instance (w τ : ℕ) : DecidablePred (Call.IsOn w τ)
  | .topic w' τ' _ => inferInstanceAs (Decidable (w' = w ∧ τ' = τ))
  | .flush _ _ | .flushAll _ _ _ | .commitChunks _ _ | .evictBefore _ _ _ | .enforceRetention _ _
  | .clearChunks _ _ | .flushTo _ _ => .isFalse id

namespace Host

variable (S : Setup) (w τ : ℕ)

/-- The core, if the topic exists. -/
def core (H : Host) : Option WriteCore :=
  (H.world.view S w τ).map fun v ↦ ⟨v, H.fieldCache, H.fieldTypes⟩

def putCore (H : Host) (c : WriteCore) : Host :=
  ⟨H.world.putView S w τ c.view, c.fieldCache, c.fieldTypes⟩

def append (H : Host) (record : Record) : Option (Host × Except HostError Unit) :=
  match H.core S w τ with
  | none => some (H, .error (.topicNotFound τ))
  | some c =>
    (c.append (World.schemaOf S w c.view) record).map fun r ↦ (H.putCore S w τ r.1, r.2)

def ensureField (H : Host) (name : String) (abiType : ℕ) : Option (Host × Except HostError ℕ) :=
  match H.core S w τ with
  | none => some (H, .error (.topicNotFound τ))
  | some c =>
    (c.ensureField (World.schemaOf S w c.view) name abiType).map fun r ↦ (H.putCore S w τ r.1, r.2)

/-- A step of the world. -/
def worldStep (H : Host) (c : Call) : Option Host :=
  (H.world.step S c).map fun r ↦ { H with world := r.1 }

/-- Nobody but the core calls its writer. -/
def step (H : Host) : HostCall → Option Host
  | .ensureField name abiType => (H.ensureField S w τ name abiType).map Prod.fst
  | .append record => (H.append S w τ record).map Prod.fst
  | .appendColumns ts cols => H.worldStep S (.topic w τ (.appendColumns ts cols))
  | .world c => if c.IsOn w τ then none else H.worldStep S c

def run (H : Host) : List HostCall → Option Host
  | [] => some H
  | c :: calls => (H.step S w τ c).bind fun H' ↦ run H' calls

end Host

end PlotJuggler
