import PlotJugglerCore.Derived.Names

/-!
# Registering a derived node

Adding a node makes a schema for every output and then a topic. The schema is asked for by a name
that is built from the node's id, and a name the registry knows gives the schema it has, whatever its
type (`TypeRegistry.registerOrGet`). The topic can still fail, when the dataset is not known; then
the schema stays behind, and a node with one input, whose id has not been used up, finds it under its
own name at the next attempt.

So a call is harmless (`RegistrationCall.Sound`) as long as the names it asks for are not taken by
another type, and as long as a call that fails on the dataset asks for a name that is there.
-/

namespace PlotJuggler

/-! ## The registry -/

theorem toString_nat_injective : Function.Injective (toString : ℕ → String) := by
  intro m n h
  have hvalue := congrArg (fun s : String ↦ Nat.ofDigitChars 10 s.toList 0) h
  simpa using hvalue

namespace TypeRegistry

variable {r r' : TypeRegistry} {id : ℕ} {name : String} {kind : StorageKind} {tree : TypeTreeNode}

/-- The schema has one leaf, and the leaf is stored as the given kind. -/
def HasKind (r : TypeRegistry) (id : ℕ) (kind : StorageKind) : Prop :=
  ∃ root, r.lookup id = some root ∧ countLeafFields root = 1 ∧
    (findFirstLeaf root).map storageKindOf = some kind

/-- A schema under the name, if there is one, has the kind. -/
def Fits (r : TypeRegistry) (name : String) (kind : StorageKind) : Prop :=
  ∀ id, r.findByName name = some id → r.HasKind id kind

instance (r : TypeRegistry) (id : ℕ) (kind : StorageKind) : Decidable (r.HasKind id kind) :=
  inferInstanceAs (Decidable (∃ root ∈ r.lookup id, _))

instance (r : TypeRegistry) (name : String) (kind : StorageKind) : Decidable (r.Fits name kind) :=
  inferInstanceAs (Decidable (∀ id ∈ r.findByName name, r.HasKind id kind))

theorem lookup_append_of_isSome (more : TypeRegistry) (h : (r.lookup id).isSome) :
    TypeRegistry.lookup (r ++ more) id = r.lookup id := by
  rcases id with _ | i
  · rfl
  · rw [lookup, Option.isSome_map] at h
    rw [lookup, lookup, List.getElem?_append_left (by simpa using h)]

theorem lookup_of_prefix (hpre : r <+: r') (h : (r.lookup id).isSome) :
    r'.lookup id = r.lookup id := by
  obtain ⟨more, rfl⟩ := hpre
  exact lookup_append_of_isSome more h

theorem isSome_lookup_of_findByName (h : r.findByName name = some id) : (r.lookup id).isSome := by
  obtain ⟨i, hi, rfl⟩ := Option.map_eq_some_iff.mp h
  obtain ⟨hlt, -⟩ := List.findIdx?_eq_some_iff_getElem.mp hi
  simp [lookup, hlt]

theorem HasKind.isSome (h : r.HasKind id kind) : (r.lookup id).isSome := by
  obtain ⟨root, hroot, -⟩ := h
  rw [hroot, Option.isSome_some]

theorem hasKind_of_prefix_iff (hpre : r <+: r') (h : (r.lookup id).isSome) :
    r'.HasKind id kind ↔ r.HasKind id kind := by
  rw [HasKind, lookup_of_prefix hpre h, HasKind]

theorem HasKind.mono (hpre : r <+: r') (h : r.HasKind id kind) : r'.HasKind id kind :=
  (hasKind_of_prefix_iff hpre h.isSome).mpr h

/-- Either the name is known, and nothing changes, or the tree comes last. -/
theorem registerOrGet_cases (r : TypeRegistry) (name : String) (tree : TypeTreeNode) :
    (∃ id, r.findByName name = some id ∧ r.registerOrGet name tree = (r, .ok id)) ∨
      r.findByName name = none ∧
        r.registerOrGet name tree = (r ++ [(name, tree)], .ok (r.length + 1)) := by
  rcases hfind : r.findByName name with _ | id
  · refine .inr ⟨rfl, ?_⟩
    rw [registerOrGet, hfind, registerSchema, hfind]
    rfl
  · exact .inl ⟨id, rfl, by rw [registerOrGet, hfind]⟩

theorem prefix_registerOrGet (r : TypeRegistry) (name : String) (tree : TypeTreeNode) :
    r <+: (r.registerOrGet name tree).1 := by
  rcases r.registerOrGet_cases name tree with ⟨id, -, h⟩ | ⟨-, h⟩
  · rw [h]
  · rw [h]
    exact List.prefix_append r _

theorem prefix_registerSchema (r : TypeRegistry) (name : String) (tree : TypeTreeNode) :
    r <+: (r.registerSchema name tree).1 := by
  rw [registerSchema]
  split_ifs
  · exact List.prefix_rfl
  · exact List.prefix_append r _

/-- Nothing changes only if the name was known. -/
theorem isSome_findByName_of_registerOrGet (h : (r.registerOrGet name tree).1 = r) :
    (r.findByName name).isSome := by
  rcases r.registerOrGet_cases name tree with ⟨id, hfind, -⟩ | ⟨-, hreg⟩
  · rw [hfind, Option.isSome_some]
  · rw [hreg] at h
    exact absurd (List.append_right_eq_self.mp h) (List.cons_ne_nil _ _)

theorem registerOrGet_of_isSome (h : (r.findByName name).isSome) :
    (r.registerOrGet name tree).1 = r := by
  rcases r.registerOrGet_cases name tree with ⟨id, -, hreg⟩ | ⟨hnone, -⟩
  · rw [hreg]
  · rw [hnone] at h
    cases h

/-- A schema made for an output. -/
def outputTree (kind : StorageKind) : TypeTreeNode :=
  makePrimitive "value" (storageKindToPrimitive kind)

theorem hasKind_outputTree (r : TypeRegistry) (name : String) (kind : StorageKind) :
    HasKind (r ++ [(name, outputTree kind)]) (r.length + 1) kind := by
  refine ⟨outputTree kind, by simp [lookup], rfl, ?_⟩
  cases kind <;> rfl

/-- What an output gets is of its kind exactly if its name was free or had that kind. -/
theorem hasKind_registerOrGet_iff (hid : (r.registerOrGet name (outputTree kind)).2 = .ok id) :
    (r.registerOrGet name (outputTree kind)).1.HasKind id kind ↔ r.Fits name kind := by
  rcases r.registerOrGet_cases name (outputTree kind) with ⟨id', hfind, hreg⟩ | ⟨hnone, hreg⟩
  · rw [hreg] at hid ⊢
    obtain rfl := Except.ok.inj hid
    constructor
    · intro h id₁ hid₁
      rwa [← Option.some.inj (hfind.symm.trans hid₁)]
    · exact fun h ↦ h id' hfind
  · rw [hreg] at hid ⊢
    obtain rfl := Except.ok.inj hid
    refine iff_of_true (hasKind_outputTree r name kind) fun id₁ hid₁ ↦ ?_
    exact absurd (hnone.symm.trans hid₁) nofun

/-- Asking for one name does not change what another one gives. -/
theorem fits_registerOrGet_iff {name' : String} (hne : name' ≠ name) :
    (r.registerOrGet name tree).1.Fits name' kind ↔ r.Fits name' kind := by
  rcases r.registerOrGet_cases name tree with ⟨id, -, hreg⟩ | ⟨-, hreg⟩
  · rw [hreg]
  · rw [hreg]
    have hfind : TypeRegistry.findByName (r ++ [(name, tree)]) name' = r.findByName name' := by
      simp [findByName, List.findIdx?_append, hne.symm]
    simp only [Fits, hfind]
    refine forall₂_congr fun id hid ↦ ?_
    exact hasKind_of_prefix_iff (List.prefix_append r _) (isSome_lookup_of_findByName hid)

end TypeRegistry

/-! ## The outputs -/

namespace DataEngine

variable {d d' : DataEngine} {datasetId τ : ℕ} {kind : StorageKind}

/-- The schema of a topic has one leaf of the given kind. -/
def HasOutput (d : DataEngine) (τ : ℕ) (kind : StorageKind) : Prop :=
  ∃ s, d.getTopicStorage τ = some s ∧ d.schemas.HasKind s.descriptor.schemaId kind

theorem HasOutput.mono (h : d.HasOutput τ kind) (hkeeps : d.Keeps d')
    (hpre : d.schemas <+: d'.schemas) (hτ : τ < d.nextTopicId) : d'.HasOutput τ kind := by
  obtain ⟨s, hs, hkind⟩ := h
  exact ⟨s, (hkeeps.topic τ hτ).trans hs, hkind.mono hpre⟩

/-- An output in a known dataset: what stays, and when the new topic has its kind. -/
theorem createOutput_hasOutput (hd : d.Below) (hknown : datasetId ∈ d.datasets) (walk : WalkOrder)
    (name schemaName : String) (kind : StorageKind) : ∃ d',
      d.createOutput walk datasetId name schemaName kind = (d', .ok d.nextTopicId) ∧
      d.Keeps d' ∧ d'.Below ∧ d'.nextTopicId = d.nextTopicId + 1 ∧
      d'.schemas = (d.schemas.registerOrGet schemaName (TypeRegistry.outputTree kind)).1 ∧
      (∃ s, d'.getTopicStorage d.nextTopicId = some s ∧
        (d'.schemas.lookup s.descriptor.schemaId).isSome) ∧
      (d'.HasOutput d.nextTopicId kind ↔ d.schemas.Fits schemaName kind) := by
  obtain ⟨schemas, id, hok, hid, hlookup⟩ := d.registerOrGet_spec schemaName
    (makePrimitive "value" (storageKindToPrimitive kind))
  have hpair := Prod.mk.inj hok
  have hschemas : (d.schemas.registerOrGet schemaName (TypeRegistry.outputTree kind)).1 = schemas :=
    congrArg DataEngine.schemas hpair.1
  have hschema : ¬(id ≠ 0 ∧ (schemas.lookup id).isNone) := fun h ↦
    Option.not_isSome_iff_eq_none.mpr (Option.isNone_iff_eq_none.mp h.2) hlookup
  -- registering the schema leaves the topics alone
  have hd₁ : Below { d with schemas := schemas } := hd
  let desc : TopicDescriptor := { name := name, schemaId := id, datasetId := datasetId }
  have hkeeps := keeps_addTopic hd₁ walk datasetId desc
  have htopic : (addTopic { d with schemas := schemas } walk datasetId desc).getTopicStorage
      d.nextTopicId = some { topicId := d.nextTopicId, descriptor := desc } :=
    (getTopicStorage_addTopic hd₁ desc d.nextTopicId).trans (if_pos rfl)
  refine ⟨_, ?_, ⟨hkeeps.le, hkeeps.datasets, hkeeps.topic⟩,
    (extends_addTopic walk datasetId _).below hd₁, rfl, hschemas.symm, ⟨_, htopic, hlookup⟩, ?_⟩
  · rw [createOutput, hok]
    dsimp only
    rw [createTopic, if_neg (not_not_intro hknown), if_neg hschema]
  · rw [← TypeRegistry.hasKind_registerOrGet_iff hpair.2, hschemas]
    constructor
    · rintro ⟨s, hs, hkind⟩
      obtain rfl := Option.some.inj (htopic.symm.trans hs)
      exact hkind
    · exact fun hkind ↦ ⟨_, htopic, hkind⟩

/-- In an unknown dataset the schema is all that is left. -/
theorem createOutput_unknown (hunknown : datasetId ∉ d.datasets) (walk : WalkOrder)
    (name schemaName : String) (kind : StorageKind) :
    d.createOutput walk datasetId name schemaName kind =
      ({ d with
        schemas := (d.schemas.registerOrGet schemaName (TypeRegistry.outputTree kind)).1 },
        .error (.datasetNotFound datasetId)) := by
  obtain ⟨schemas, id, hok, -⟩ := d.registerOrGet_spec schemaName
    (makePrimitive "value" (storageKindToPrimitive kind))
  have hschemas : (d.schemas.registerOrGet schemaName (TypeRegistry.outputTree kind)).1 = schemas :=
    congrArg DataEngine.schemas (Prod.mk.inj hok).1
  rw [createOutput, hok, hschemas]
  dsimp only
  rw [createTopic, if_pos hunknown]

end DataEngine

namespace DerivedEngine

variable {d d' : DerivedEngine} {n : DerivedNode} {walk : WalkOrder} {datasetId : ℕ}
  {names : List String}

def sisoSchemaName (name : String) (nodeId : ℕ) : String :=
  "derived_siso_" ++ name ++ "_" ++ toString nodeId

def mimoSchemaName (nodeId k : ℕ) : String :=
  "derived_mimo_" ++ toString nodeId ++ "_" ++ toString k

theorem mimoSchemaName_injective (nodeId : ℕ) : Function.Injective (mimoSchemaName nodeId) :=
  fun _ _ h ↦ toString_nat_injective ((String.append_right_inj _).mp h)

/-- The outputs of a node in a known dataset. Their names are distinct, so what one of them asks for
does not depend on those before it. -/
theorem createOutputs_hasOutput {data : DataEngine} (hd : data.Below)
    (hknown : datasetId ∈ data.datasets) (walk : WalkOrder) (nodeId : ℕ)
    (outputs : List ((String × StorageKind) × ℕ)) (hnodup : (outputs.map Prod.snd).Nodup) :
    ∃ data', createOutputs walk datasetId nodeId data outputs =
        (data', .ok (List.range' data.nextTopicId outputs.length)) ∧
      data.Keeps data' ∧ data.schemas <+: data'.schemas ∧
      ∀ k output, outputs[k]? = some output →
        (data'.HasOutput (data.nextTopicId + k) output.1.2 ↔
          data.schemas.Fits (mimoSchemaName nodeId output.2) output.1.2) := by
  induction outputs generalizing data with
  | nil => exact ⟨data, rfl, .refl data, List.prefix_rfl, nofun⟩
  | cons output outputs ih =>
    obtain ⟨⟨name, kind⟩, j⟩ := output
    obtain ⟨hj, hnodup⟩ := List.nodup_cons.mp hnodup
    obtain ⟨data₁, hcreate, hkeeps, hbelow, hnext, hschemas, ⟨s, hs, hsome⟩, hfirst⟩ :=
      DataEngine.createOutput_hasOutput hd hknown walk name (mimoSchemaName nodeId j) kind
    obtain ⟨data', hrest, hkeeps', hpre, houtputs⟩ := ih hbelow (hkeeps.datasets ▸ hknown) hnodup
    have hpre₁ : data.schemas <+: data₁.schemas := hschemas ▸ TypeRegistry.prefix_registerOrGet ..
    refine ⟨data', ?_, hkeeps.trans hkeeps', hpre₁.trans hpre, fun k output hk ↦ ?_⟩
    · rw [createOutputs, ← mimoSchemaName, hcreate]
      dsimp only
      rw [hrest, hnext]
      rfl
    · rcases k with _ | k
      · obtain rfl := Option.some.inj hk
        rw [Nat.add_zero, ← hfirst]
        have htopic : data'.getTopicStorage data.nextTopicId = some s :=
          (hkeeps'.topic _ (hnext ▸ Nat.lt_succ_self _)).trans hs
        have hkind : data'.schemas.HasKind s.descriptor.schemaId kind ↔
            data₁.schemas.HasKind s.descriptor.schemaId kind :=
          TypeRegistry.hasKind_of_prefix_iff hpre hsome
        simp only [DataEngine.HasOutput, htopic, hs, Option.some.injEq, exists_eq_left', hkind]
      · have hmem : output ∈ outputs := List.mem_of_getElem? hk
        have hne : mimoSchemaName nodeId output.2 ≠ mimoSchemaName nodeId j := fun h ↦
          hj (List.mem_map.mpr ⟨output, hmem, mimoSchemaName_injective nodeId h⟩)
        rw [show data.nextTopicId + (k + 1) = data₁.nextTopicId + k by omega,
          houtputs k output hk, hschemas, TypeRegistry.fits_registerOrGet_iff hne]

end DerivedEngine

/-! ## A node and its kinds -/

/-- The kinds that the transform of a node declares for its outputs. -/
def NodeOp.declaredKinds : NodeOp → List StorageKind
  | .siso n => [n.op.outputKind n.inputKind]
  | .mimo n => n.op.outputKinds (n.inputs.map Prod.snd)

/-- Every output has a schema of the kind declared for it. -/
def DerivedNode.Typed (data : DataEngine) (n : DerivedNode) : Prop :=
  List.Forall₂ data.HasOutput n.outputTopics n.op.declaredKinds

namespace DerivedEngine

variable {d d' : DerivedEngine} {n : DerivedNode} {walk : WalkOrder} {datasetId : ℕ}
  {names : List String} {fits : Prop}

def TypeConsistent (d : DerivedEngine) : Prop :=
  ∀ id n, d.nodes.lookup id = some n → n.Typed d.data

/-- The topics, the registry and the graph are what they were. The counters are not compared. -/
structure Unchanged (d d' : DerivedEngine) : Prop where
  topics : d'.data.engine = d.data.engine
  schemas : d'.data.schemas = d.data.schemas
  nodes : d'.nodes = d.nodes
  downstreamOf : d'.downstreamOf = d.downstreamOf
  topicToNodes : d'.topicToNodes = d.topicToNodes
  outputTopicToNode : d'.outputTopicToNode = d.outputTopicToNode
  registeredOutputNames : d'.registeredOutputNames = d.registeredOutputNames

/-- The engine `d'` behind an `add` that entered the node `n`, which is typed if and only if `fits`
holds. -/
structure AddsTyped (d : DerivedEngine) (n : DerivedNode) (fits : Prop) (d' : DerivedEngine) :
    Prop where
  nodes : d'.nodes = d.nodes.insert d.nextNodeId n
  data : d.data.Keeps d'.data
  schemas : d.data.schemas <+: d'.data.schemas
  typed : n.Typed d'.data ↔ fits

/-- Nodes stay typed while topics and schemas are added. -/
theorem Linked.typed_mono (hl : d.Linked) {data : DataEngine} (hkeeps : d.data.Keeps data)
    (hpre : d.data.schemas <+: data.schemas) {id : ℕ} (hn : d.nodes.lookup id = some n)
    (h : n.Typed d.data) : n.Typed data := by
  have hlt : ∀ τ ∈ n.outputTopics, τ < d.data.nextTopicId := by
    intro τ hτ
    refine hl.output_lt id τ ?_
    rw [outputTopics, hn]
    exact hτ
  rw [DerivedNode.Typed, List.forall₂_iff_get] at h ⊢
  refine ⟨h.1, fun i hi hi' ↦ (h.2 i hi hi').mono hkeeps hpre (hlt _ (List.get_mem _ _))⟩

theorem TypeConsistent.add (hl : d.Linked) (hd : d.TypeConsistent) (h : AddsTyped d n fits d')
    (hfits : fits) : d'.TypeConsistent := by
  intro id m hm
  rw [h.nodes] at hm
  by_cases hid : id = d.nextNodeId
  · subst hid
    rw [AList.lookup_insert] at hm
    obtain rfl := Option.some.inj hm
    exact h.typed.mpr hfits
  · rw [AList.lookup_insert_ne hid] at hm
    exact hl.typed_mono h.data h.schemas hm (hd id m hm)

theorem AddsTyped.fits_of_typeConsistent (h : AddsTyped d n fits d') (hd : d'.TypeConsistent) :
    fits :=
  h.typed.mp (hd d.nextNodeId n (by rw [h.nodes, AList.lookup_insert]))

/-- Same nodes, the same topics under the old ids, and more schemas at most. -/
theorem TypeConsistent.same (hl : d.Linked) (hd : d.TypeConsistent) (hnodes : d'.nodes = d.nodes)
    (hkeeps : d.data.Keeps d'.data) (hpre : d.data.schemas <+: d'.data.schemas) :
    d'.TypeConsistent := by
  intro id n hn
  rw [hnodes] at hn
  exact hl.typed_mono hkeeps hpre hn (hd id n hn)

theorem TypeConsistent.unchanged (hd : d.TypeConsistent) (h : Unchanged d d') :
    d'.TypeConsistent := by
  have houtput : d'.data.HasOutput = d.data.HasOutput := by
    funext τ kind
    rw [DataEngine.HasOutput, DataEngine.getTopicStorage, h.topics, h.schemas]
    rfl
  intro id n hn
  rw [h.nodes] at hn
  rw [DerivedNode.Typed, houtput]
  exact hd id n hn

theorem TypeConsistent.remove (hd : d.TypeConsistent) (id : ℕ) :
    (d.removeNode id).1.TypeConsistent := by
  rw [removeNode]
  rcases hnode : d.nodes.lookup id with _ | n
  · exact hd
  · intro id' m hm
    by_cases hid : id' = id
    · subst hid
      rw [AList.lookup_erase] at hm
      cases hm
    · exact hd id' m ((AList.lookup_erase_ne hid).symm.trans hm)

/-! ### One input -/

theorem checkSiso_kind {τ : ℕ} {name : String} {op : SisoTransform}
    {kinds : StorageKind × StorageKind} (h : d.checkSiso τ name datasetId op = .ok kinds) :
    kinds.2 = op.outputKind kinds.1 := by
  rw [checkSiso.eq_def] at h
  split at h
  · cases h
  · split at h
    · cases h
    · cases h
    · split_ifs at h
      rw [checkCycle_nil] at h
      obtain rfl := Except.ok.inj h
      rfl
    · cases h

theorem addSisoTransform_typed (hl : d.Linked) (walk : WalkOrder) {τ : ℕ} {name : String}
    {op : SisoTransform} {kinds : StorageKind × StorageKind}
    (hcheck : d.checkSiso τ name datasetId op = .ok kinds) (hknown : datasetId ∈ d.data.datasets) :
    (d.addSisoTransform walk τ name datasetId op).2 = .ok d.nextNodeId ∧
      ∃ n, AddsTyped d n (d.data.schemas.Fits (sisoSchemaName name d.nextNodeId) kinds.2)
        (d.addSisoTransform walk τ name datasetId op).1 := by
  obtain ⟨data, hcreate, hkeeps, -, -, hschemas, -, hfits⟩ := DataEngine.createOutput_hasOutput
    hl.below hknown walk name (sisoSchemaName name d.nextNodeId) kinds.2
  rw [addSisoTransform, hcheck]
  dsimp only
  rw [← sisoSchemaName, hcreate]
  refine ⟨rfl, _, rfl, hkeeps, ?_, ?_⟩
  · exact hschemas ▸ TypeRegistry.prefix_registerOrGet ..
  · rw [DerivedNode.Typed, ← hfits, checkSiso_kind hcheck]
    exact List.forall₂_cons.trans (and_iff_left .nil)

/-- In an unknown dataset the schema is all that is left. -/
theorem addSisoTransform_unknown (walk : WalkOrder) {τ : ℕ} {name : String} {op : SisoTransform}
    {kinds : StorageKind × StorageKind} (hcheck : d.checkSiso τ name datasetId op = .ok kinds)
    (hunknown : datasetId ∉ d.data.datasets) :
    d.addSisoTransform walk τ name datasetId op =
      ({ d with data := { d.data with
        schemas := (d.data.schemas.registerOrGet (sisoSchemaName name d.nextNodeId)
          (TypeRegistry.outputTree kinds.2)).1 } }, .error (.datasetNotFound datasetId)) := by
  rw [addSisoTransform, hcheck]
  dsimp only
  rw [← sisoSchemaName, DataEngine.createOutput_unknown hunknown]

/-! ### Many inputs -/

theorem length_inputKinds {inputs : List ℕ} {kinds : List StorageKind}
    (h : d.inputKinds inputs = .ok kinds) : kinds.length = inputs.length := by
  induction inputs generalizing kinds with
  | nil =>
    obtain rfl := Except.ok.inj h
    rfl
  | cons τ inputs ih =>
    rw [inputKinds] at h
    split at h
    · cases h
    · split at h
      · cases h
      · cases h
      · rcases hrest : d.inputKinds inputs with e | rest
        · rw [hrest] at h
          cases h
        · rw [hrest] at h
          obtain rfl := Except.ok.inj h
          rw [List.length_cons, ih hrest, List.length_cons]
      · cases h

theorem checkMimo_kinds {inputs : List ℕ} {op : Option MimoTransform}
    {r : MimoTransform × List StorageKind × List StorageKind}
    (h : d.checkMimo inputs names datasetId op = .ok r) :
    r.2.2 = r.1.outputKinds r.2.1 ∧ r.2.1.length = inputs.length ∧ op = some r.1 ∧ inputs ≠ [] := by
  rw [checkMimo.eq_def] at h
  split_ifs at h with hinputs
  split at h
  · cases h
  · split at h
    · cases h
    · rename_i hkinds
      split at h
      · cases h
      · rw [checkCycle_nil] at h
        dsimp only at h
        split_ifs at h
        obtain rfl := Except.ok.inj h
        exact ⟨rfl, length_inputKinds hkinds, rfl, hinputs⟩

theorem addMimoTransform_typed (hl : d.Linked) (walk : WalkOrder) {inputs : List ℕ}
    {op : Option MimoTransform} {r : MimoTransform × List StorageKind × List StorageKind}
    (hcheck : d.checkMimo inputs names datasetId op = .ok r)
    (hknown : datasetId ∈ d.data.datasets) :
    (d.addMimoTransform walk inputs names datasetId op).2 = .ok d.nextNodeId ∧
      ∃ n, AddsTyped d n (∀ k kind, r.2.2[k]? = some kind →
          d.data.schemas.Fits (mimoSchemaName d.nextNodeId k) kind)
        (d.addMimoTransform walk inputs names datasetId op).1 := by
  obtain ⟨op', inKinds, outKinds⟩ := r
  obtain ⟨-, hlength, -⟩ := checkMimo_names hcheck
  obtain ⟨hkinds, hinputs, -⟩ := checkMimo_kinds hcheck
  dsimp only at hlength hkinds hinputs ⊢
  obtain ⟨data, hcreate, hkeeps, hpre, houtputs⟩ := createOutputs_hasOutput hl.below hknown walk
    d.nextNodeId (names.zip outKinds).zipIdx (List.nodup_zipIdx_map_snd _)
  have hcount : (names.zip outKinds).zipIdx.length = outKinds.length := by
    rw [List.length_zipIdx, List.length_zip, hlength, min_self]
  rw [hcount] at hcreate
  set outs := List.range' d.data.nextTopicId outKinds.length with houts
  let n : MimoNode := { inputs := inputs.zip inKinds, outputs := outs.zip outKinds, op := op' }
  have htopics : (NodeOp.mimo n).outputTopics = outs :=
    List.map_fst_zip (by rw [houts, List.length_range'])
  have hdeclared : (NodeOp.mimo n).declaredKinds = outKinds := by
    rw [NodeOp.declaredKinds, List.map_snd_zip hinputs.le, hkinds]
  rw [addMimoTransform, hcheck]
  dsimp only
  rw [hcreate]
  refine ⟨rfl, { id := d.nextNodeId, op := .mimo n }, rfl, hkeeps, hpre, ?_⟩
  change List.Forall₂ data.HasOutput (NodeOp.mimo n).outputTopics (NodeOp.mimo n).declaredKinds ↔ _
  rw [htopics, hdeclared, List.forall₂_iff_get, and_iff_right (by rw [houts, List.length_range'])]
  -- the output `k` is the topic `k` places after the next one
  have houtput : ∀ k (hk : k < outKinds.length), data.HasOutput (d.data.nextTopicId + k) outKinds[k] ↔
      d.data.schemas.Fits (mimoSchemaName d.nextNodeId k) outKinds[k] := by
    intro k hk
    have hname : k < names.length := hlength ▸ hk
    exact houtputs k ((names[k], outKinds[k]), k) (by simp [hk, hname])
  constructor
  · intro h k kind hk
    obtain ⟨hlt, rfl⟩ := List.getElem?_eq_some_iff.mp hk
    exact (houtput k hlt).mp (by simpa [houts] using h k (by simpa [houts] using hlt) hlt)
  · intro h k hk hlt
    simpa [houts] using (houtput k hlt).mpr (h k _ (List.getElem?_eq_getElem hlt))

theorem addMimoTransform_unknown (walk : WalkOrder) {inputs : List ℕ} {op : Option MimoTransform}
    {r : MimoTransform × List StorageKind × List StorageKind}
    (hcheck : d.checkMimo inputs names datasetId op = .ok r)
    (hunknown : datasetId ∉ d.data.datasets) : ∃ kind,
      d.addMimoTransform walk inputs names datasetId op =
        ({ d with
          data := { d.data with
            schemas := (d.data.schemas.registerOrGet (mimoSchemaName d.nextNodeId 0)
              (TypeRegistry.outputTree kind)).1 }
          nextNodeId := d.nextNodeId + 1 }, .error (.datasetNotFound datasetId)) := by
  obtain ⟨op', inKinds, outKinds⟩ := r
  obtain ⟨hnames, hlength, -⟩ := checkMimo_names hcheck
  obtain ⟨name, names, rfl⟩ := List.exists_cons_of_ne_nil hnames
  obtain ⟨kind, outKinds, rfl⟩ := List.exists_cons_of_length_eq_add_one hlength
  refine ⟨kind, ?_⟩
  rw [addMimoTransform, hcheck]
  dsimp only
  rw [List.zip_cons_cons, List.zipIdx_cons, createOutputs, ← mimoSchemaName,
    DataEngine.createOutput_unknown hunknown]

/-! ## Runs -/

/-- A call that adds a node or takes one away, or a schema that somebody else registers. -/
inductive RegistrationCall
  | graph (c : GraphCall)
  | registerSchema (name : String) (tree : TypeTreeNode)
  | registerOrGet (name : String) (tree : TypeTreeNode)

def registrationStep (walk : WalkOrder) (d : DerivedEngine) : RegistrationCall → DerivedEngine
  | .graph c => d.graphStep walk c
  | .registerSchema name tree =>
    { d with data := { d.data with schemas := (d.data.schemas.registerSchema name tree).1 } }
  | .registerOrGet name tree => { d with data := (d.data.registerOrGet name tree).1 }

def runRegistration (walk : WalkOrder) (d : DerivedEngine) (calls : List RegistrationCall) :
    DerivedEngine :=
  calls.foldl (registrationStep walk) d

/-- The call is an add, and it returns an error. -/
def RegistrationCall.Fails (walk : WalkOrder) (d : DerivedEngine) : RegistrationCall → Prop
  | .graph (.addSisoTransform τ name datasetId op) =>
    ∃ e, (d.addSisoTransform walk τ name datasetId op).2 = .error e
  | .graph (.addMimoTransform inputs names datasetId op) =>
    ∃ e, (d.addMimoTransform walk inputs names datasetId op).2 = .error e
  | _ => False

/-- The schema names an add would ask for are free or stand for the declared kinds, and in an unknown
dataset the first of them is taken. -/
def SoundNames (d : DerivedEngine) (datasetId : ℕ) (schemaName : ℕ → String)
    (kinds : List StorageKind) : Prop :=
  if datasetId ∈ d.data.datasets then
    ∀ k kind, kinds[k]? = some kind → d.data.schemas.Fits (schemaName k) kind
  else (d.data.schemas.findByName (schemaName 0)).isSome

def RegistrationCall.Sound (d : DerivedEngine) : RegistrationCall → Prop
  | .graph (.addSisoTransform τ name datasetId op) =>
    ∀ kinds, d.checkSiso τ name datasetId op = .ok kinds →
      d.SoundNames datasetId (fun _ ↦ sisoSchemaName name d.nextNodeId) [kinds.2]
  | .graph (.addMimoTransform inputs names datasetId op) =>
    ∀ r, d.checkMimo inputs names datasetId op = .ok r →
      d.SoundNames datasetId (mimoSchemaName d.nextNodeId) r.2.2
  | _ => True

instance (d : DerivedEngine) (datasetId : ℕ) (schemaName : ℕ → String) (kinds : List StorageKind) :
    Decidable (d.SoundNames datasetId schemaName kinds) :=
  have : Decidable (∀ k kind, kinds[k]? = some kind → d.data.schemas.Fits (schemaName k) kind) :=
    decidable_of_iff
      (∀ k < kinds.length, ∀ kind ∈ kinds[k]?, d.data.schemas.Fits (schemaName k) kind)
      ⟨fun h k kind hk ↦ h k (List.getElem?_eq_some_iff.mp hk).1 kind hk, fun h k _ kind ↦ h k kind⟩
  inferInstanceAs (Decidable (if datasetId ∈ d.data.datasets then
    ∀ k kind, kinds[k]? = some kind → d.data.schemas.Fits (schemaName k) kind
  else (d.data.schemas.findByName (schemaName 0)).isSome))

theorem forall_ok_iff {ε α : Type*} {x : Except ε α} {p : α → Prop} :
    (∀ a, x = .ok a → p a) ↔ ∀ a ∈ x.toOption, p a := by
  rcases x with e | a
  · exact iff_of_true (fun _ h ↦ by cases h) fun _ h ↦ by cases h
  · refine ⟨fun h b hb ↦ h b (congrArg Except.ok (Option.some.inj hb)), fun h b hb ↦ h b ?_⟩
    exact congrArg some (Except.ok.inj hb)

instance (d : DerivedEngine) : DecidablePred (RegistrationCall.Sound d)
  | .graph (.addSisoTransform τ name datasetId op) => decidable_of_iff
      (∀ kinds ∈ (d.checkSiso τ name datasetId op).toOption,
        d.SoundNames datasetId (fun _ ↦ sisoSchemaName name d.nextNodeId) [kinds.2])
      forall_ok_iff.symm
  | .graph (.addMimoTransform inputs names datasetId op) => decidable_of_iff
      (∀ r ∈ (d.checkMimo inputs names datasetId op).toOption,
        d.SoundNames datasetId (mimoSchemaName d.nextNodeId) r.2.2)
      forall_ok_iff.symm
  | .graph (.removeNode _) | .registerSchema _ _ | .registerOrGet _ _ => .isTrue trivial

/-- Every call is sound where it is made. -/
def AllSound (walk : WalkOrder) (d : DerivedEngine) : List RegistrationCall → Prop
  | [] => True
  | c :: calls => c.Sound d ∧ AllSound walk (d.registrationStep walk c) calls

instance decidableAllSound (walk : WalkOrder) (d : DerivedEngine) :
    (calls : List RegistrationCall) → Decidable (AllSound walk d calls)
  | [] => .isTrue trivial
  | c :: calls =>
    have := decidableAllSound walk (d.registrationStep walk c) calls
    inferInstanceAs (Decidable (c.Sound d ∧ AllSound walk (d.registrationStep walk c) calls))

theorem AllSound.sound {walk : WalkOrder} {d : DerivedEngine} {calls : List RegistrationCall}
    (h : AllSound walk d calls) {done : List RegistrationCall} {c : RegistrationCall}
    (hpre : done ++ [c] <+: calls) : c.Sound (d.runRegistration walk done) := by
  induction done generalizing d calls with
  | nil =>
    obtain ⟨rest, rfl⟩ := hpre
    exact h.1
  | cons first done ih =>
    obtain ⟨rest, rfl⟩ := hpre
    exact ih h.2 ⟨rest, rfl⟩

theorem Unchanged.refl (d : DerivedEngine) : Unchanged d d := ⟨rfl, rfl, rfl, rfl, rfl, rfl, rfl⟩

theorem fits_singleton_iff {r : TypeRegistry} {name : String} {kind : StorageKind} :
    (∀ (k : ℕ) kind', [kind][k]? = some kind' → r.Fits name kind') ↔ r.Fits name kind := by
  constructor
  · exact fun h ↦ h 0 kind rfl
  · intro h k kind' hk
    obtain rfl := List.mem_singleton.mp (List.mem_of_getElem? hk)
    exact h

/-- The three ways an add can go: its own checks refuse it, it adds a node, or it fails on the dataset
and leaves a schema. -/
inductive AddOutcome (d d' : DerivedEngine) (fails sound : Prop) : Prop
  | refused (same : d' = d) (sound : sound)
  | added (n : DerivedNode) (fits : Prop) (adds : AddsTyped d n fits d') (fails : ¬fails)
    (sound_iff : sound ↔ fits)
  | stranded (name : String) (tree : TypeTreeNode)
    (same : Unchanged
      { d with data := { d.data with schemas := (d.data.schemas.registerOrGet name tree).1 } } d')
    (fails : fails) (sound_iff : sound ↔ (d.data.schemas.findByName name).isSome)

theorem addOutcome_siso (hl : d.Linked) (walk : WalkOrder) (τ : ℕ) (name : String) (datasetId : ℕ)
    (op : SisoTransform) :
    AddOutcome d (d.addSisoTransform walk τ name datasetId op).1
      (RegistrationCall.Fails walk d (.graph (.addSisoTransform τ name datasetId op)))
      (RegistrationCall.Sound d (.graph (.addSisoTransform τ name datasetId op))) := by
  rcases hcheck : d.checkSiso τ name datasetId op with e | kinds
  · refine .refused ?_ fun kinds hkinds ↦ ?_
    · rw [addSisoTransform, hcheck]
    · cases hcheck.symm.trans hkinds
  have hsound : RegistrationCall.Sound d (.graph (.addSisoTransform τ name datasetId op)) ↔
      d.SoundNames datasetId (fun _ ↦ sisoSchemaName name d.nextNodeId) [kinds.2] := by
    refine ⟨fun h ↦ h kinds hcheck, fun h kinds' hkinds ↦ ?_⟩
    obtain rfl := Except.ok.inj (hcheck.symm.trans hkinds)
    exact h
  by_cases hknown : datasetId ∈ d.data.datasets
  · obtain ⟨hok, n, hadds⟩ := addSisoTransform_typed hl walk hcheck hknown
    refine .added n _ hadds ?_ (hsound.trans ?_)
    · rintro ⟨e, he⟩
      cases hok.symm.trans he
    · rw [SoundNames, if_pos hknown, fits_singleton_iff]
  · have heq := addSisoTransform_unknown walk hcheck hknown
    refine .stranded (sisoSchemaName name d.nextNodeId) (TypeRegistry.outputTree kinds.2) ?_
      ⟨_, congrArg Prod.snd heq⟩ (hsound.trans ?_)
    · rw [heq]
      exact .refl _
    · rw [SoundNames, if_neg hknown]

theorem addOutcome_mimo (hl : d.Linked) (walk : WalkOrder) (inputs : List ℕ) (names : List String)
    (datasetId : ℕ) (op : Option MimoTransform) :
    AddOutcome d (d.addMimoTransform walk inputs names datasetId op).1
      (RegistrationCall.Fails walk d (.graph (.addMimoTransform inputs names datasetId op)))
      (RegistrationCall.Sound d (.graph (.addMimoTransform inputs names datasetId op))) := by
  rcases hcheck : d.checkMimo inputs names datasetId op with e | r
  · refine .refused ?_ fun r hr ↦ ?_
    · rw [addMimoTransform, hcheck]
    · cases hcheck.symm.trans hr
  have hsound : RegistrationCall.Sound d (.graph (.addMimoTransform inputs names datasetId op)) ↔
      d.SoundNames datasetId (mimoSchemaName d.nextNodeId) r.2.2 := by
    refine ⟨fun h ↦ h r hcheck, fun h r' hr ↦ ?_⟩
    obtain rfl := Except.ok.inj (hcheck.symm.trans hr)
    exact h
  by_cases hknown : datasetId ∈ d.data.datasets
  · obtain ⟨hok, n, hadds⟩ := addMimoTransform_typed hl walk hcheck hknown
    refine .added n _ hadds ?_ (hsound.trans ?_)
    · rintro ⟨e, he⟩
      cases hok.symm.trans he
    · rw [SoundNames, if_pos hknown]
  · obtain ⟨kind, heq⟩ := addMimoTransform_unknown walk hcheck hknown
    refine .stranded (mimoSchemaName d.nextNodeId 0) (TypeRegistry.outputTree kind) ?_
      ⟨_, congrArg Prod.snd heq⟩ (hsound.trans ?_)
    · rw [heq]
      exact ⟨rfl, rfl, rfl, rfl, rfl, rfl, rfl⟩
    · rw [SoundNames, if_neg hknown]

/-- An add is harmless exactly if its names are sound. -/
theorem AddOutcome.harmless_iff {fails sound : Prop} (h : AddOutcome d d' fails sound)
    (hl : d.Linked) (hd : d.TypeConsistent) :
    (fails → Unchanged d d') ∧ d'.TypeConsistent ↔ sound := by
  rcases h with ⟨rfl, hsound⟩ | ⟨n, fits, hadds, hfails, hiff⟩ | ⟨name, tree, hsame, hfails, hiff⟩
  · exact iff_of_true ⟨fun _ ↦ .refl d', hd⟩ hsound
  · rw [hiff]
    constructor
    · exact fun h ↦ hadds.fits_of_typeConsistent h.2
    · exact fun hfits ↦ ⟨fun h ↦ absurd h hfails, hd.add hl hadds hfits⟩
  · rw [hiff]
    constructor
    · intro h
      exact TypeRegistry.isSome_findByName_of_registerOrGet
        (hsame.schemas.symm.trans (h.1 hfails).schemas)
    · intro hsome
      have hschemas : d'.data.schemas = d.data.schemas :=
        hsame.schemas.trans (TypeRegistry.registerOrGet_of_isSome hsome)
      have hunchanged : Unchanged d d' := ⟨hsame.topics, hschemas, hsame.nodes, hsame.downstreamOf,
        hsame.topicToNodes, hsame.outputTopicToNode, hsame.registeredOutputNames⟩
      exact ⟨fun _ ↦ hunchanged, hd.unchanged hunchanged⟩

/-- Registering a schema leaves the nodes typed. -/
theorem typeConsistent_schemas (hl : d.Linked) (hd : d.TypeConsistent) {schemas : TypeRegistry}
    (hpre : d.data.schemas <+: schemas) :
    TypeConsistent { d with data := { d.data with schemas := schemas } } :=
  hd.same hl rfl ⟨Nat.le_refl _, rfl, fun _ _ ↦ rfl⟩ hpre

theorem linked_schemas (hl : d.Linked) (schemas : TypeRegistry) :
    Linked { d with data := { d.data with schemas := schemas } } :=
  hl.congr ⟨Nat.le_refl _, rfl, rfl, rfl, fun _ ↦ rfl⟩ ⟨Nat.le_refl _, id⟩

theorem linked_registrationStep (hl : d.Linked) (c : RegistrationCall) :
    (d.registrationStep walk c).Linked := by
  match c with
  | .graph c => exact linked_graphStep hl c
  | .registerSchema _ _ => exact linked_schemas hl _
  | .registerOrGet _ _ => exact linked_schemas hl _

/-- One call is harmless exactly if it is sound. -/
theorem registrationStep_harmless_iff (hl : d.Linked) (hd : d.TypeConsistent)
    (c : RegistrationCall) :
    (c.Fails walk d → Unchanged d (d.registrationStep walk c)) ∧
      (d.registrationStep walk c).TypeConsistent ↔ c.Sound d := by
  match c with
  | .graph (.addSisoTransform τ name datasetId op) =>
    exact (addOutcome_siso hl walk τ name datasetId op).harmless_iff hl hd
  | .graph (.addMimoTransform inputs names datasetId op) =>
    exact (addOutcome_mimo hl walk inputs names datasetId op).harmless_iff hl hd
  | .graph (.removeNode id) => exact iff_of_true ⟨False.elim, hd.remove id⟩ trivial
  | .registerSchema name tree =>
    exact iff_of_true ⟨False.elim,
      typeConsistent_schemas hl hd (TypeRegistry.prefix_registerSchema ..)⟩ trivial
  | .registerOrGet name tree =>
    exact iff_of_true ⟨False.elim,
      typeConsistent_schemas hl hd (TypeRegistry.prefix_registerOrGet ..)⟩ trivial

/-- In a run of adds and removals with schemas that others register, over any data engine, failed adds
leave no trace and outputs have the kinds that were declared exactly if every call is sound. -/
theorem runRegistration_harmless_iff {S : Setup} {W : World} {before : List DataEngine.Call}
    {d₀ : DerivedEngine} (h : (start W).run S walk (before.map .data) = some d₀)
    (calls : List RegistrationCall) :
    ((∀ done c, done ++ [c] <+: calls → c.Fails walk (d₀.runRegistration walk done) →
        Unchanged (d₀.runRegistration walk done) (d₀.runRegistration walk (done ++ [c]))) ∧
      ∀ done, done <+: calls → (d₀.runRegistration walk done).TypeConsistent) ↔
      ∀ done c, done ++ [c] <+: calls → c.Sound (d₀.runRegistration walk done) := by
  have hsnoc : ∀ done c, d₀.runRegistration walk (done ++ [c]) =
      (d₀.runRegistration walk done).registrationStep walk c := fun done c ↦ by
    rw [runRegistration, List.foldl_append, List.foldl_cons, List.foldl_nil, runRegistration]
  have hlinked : ∀ done, (d₀.runRegistration walk done).Linked := by
    intro done
    induction done using List.reverseRecOn with
    | nil => exact linked_run (linked_start W) h
    | append_singleton done c ih =>
      rw [hsnoc]
      exact linked_registrationStep ih c
  constructor
  · rintro ⟨hunchanged, htyped⟩ done c hpre
    have hdone := htyped done ((List.prefix_append done [c]).trans hpre)
    have hstep := hunchanged done c hpre
    have hnext := htyped _ hpre
    rw [hsnoc] at hstep hnext
    exact (registrationStep_harmless_iff (hlinked done) hdone c).mp ⟨hstep, hnext⟩
  · intro hsound
    -- the nodes are typed all along
    have htyped : ∀ done, done <+: calls → (d₀.runRegistration walk done).TypeConsistent := by
      intro done
      induction done using List.reverseRecOn with
      | nil =>
        intro _ id n hn
        rw [runRegistration, List.foldl_nil, run_data h] at hn
        cases hn
      | append_singleton done c ih =>
        intro hpre
        have hdone := ih ((List.prefix_append done [c]).trans hpre)
        rw [hsnoc]
        exact ((registrationStep_harmless_iff (hlinked done) hdone c).mpr (hsound done c hpre)).2
    refine ⟨fun done c hpre ↦ ?_, htyped⟩
    have hdone := htyped done ((List.prefix_append done [c]).trans hpre)
    rw [hsnoc]
    exact ((registrationStep_harmless_iff (hlinked done) hdone c).mpr (hsound done c hpre)).1

/-- Says whether a number is there. -/
def toBool : SisoTransform where
  State := Unit
  state := ()
  reset _ := ()
  outputKind _ := .bool
  calculate _ t _ _ := ((), true, t, .int64 1)

/-- Adds that go through, one that is refused for its input, one whose dataset is unknown but whose
schema somebody has registered, and a name that is given back. -/
def cleanAttempts : List RegistrationCall :=
  [.graph (.addSisoTransform 1 "copy" 1 passThrough), .graph (.addSisoTransform 9 "lost" 1 toBool),
    .registerOrGet (sisoSchemaName "late" 2) (TypeRegistry.outputTree .bool),
    .graph (.addSisoTransform 1 "late" 7 toBool), .graph (.addSisoTransform 1 "late" 1 toBool),
    .graph (.removeNode 1), .graph (.addMimoTransform [1] ["copy", "again"] 1 (some twice))]

theorem runRegistration_harmless_iff_cleanAttempts : ∃ d₀ : DerivedEngine,
    (start (.start fun _ ↦ [])).run oneEngine .plain (seriesCalls.map .data) = some d₀ ∧
      (∀ done c, done ++ [c] <+: cleanAttempts → c.Fails .plain (d₀.runRegistration .plain done) →
        Unchanged (d₀.runRegistration .plain done) (d₀.runRegistration .plain (done ++ [c]))) ∧
      (∀ done, done <+: cleanAttempts → (d₀.runRegistration .plain done).TypeConsistent) ∧
      (d₀.runRegistration .plain cleanAttempts).nodes.keys = [3, 2] := by
  have hrun : ((start (.start fun _ ↦ [])).run oneEngine .plain (seriesCalls.map .data)).map
      (fun d₀ ↦ (decide (AllSound .plain d₀ cleanAttempts),
        (d₀.runRegistration .plain cleanAttempts).nodes.keys)) = some (true, [3, 2]) := by
    decide +kernel
  obtain ⟨d₀, hd₀, hvalues⟩ := Option.map_eq_some_iff.mp hrun
  obtain ⟨hsound, hnodes⟩ := Prod.mk.inj hvalues
  obtain ⟨hunchanged, htyped⟩ := (runRegistration_harmless_iff hd₀ cleanAttempts).mpr
    fun _ _ hpre ↦ (of_decide_eq_true hsound).sound hpre
  exact ⟨d₀, hd₀, hunchanged, htyped, hnodes⟩

/-- A name is tried in dataset `7`, which is not there, and then in dataset `1` with another kind. -/
def secondAttempt : List RegistrationCall :=
  [.graph (.addSisoTransform 1 "copy" 7 passThrough), .graph (.addSisoTransform 1 "copy" 1 toBool)]

/-- The failed attempt leaves its schema, and the second one gets it: an output that is declared to
hold truth values has a schema of numbers. -/
theorem not_harmless_secondAttempt : ∃ d₀ : DerivedEngine,
    (start (.start fun _ ↦ [])).run oneEngine .plain (seriesCalls.map .data) = some d₀ ∧
      (∃ c, [c] <+: secondAttempt ∧ c.Fails .plain d₀ ∧
        ¬Unchanged d₀ (d₀.runRegistration .plain [c])) ∧
      ¬(d₀.runRegistration .plain secondAttempt).TypeConsistent := by
  have hattempt : ((start (.start fun _ ↦ [])).run oneEngine .plain (seriesCalls.map .data)).map
      (fun d ↦ (d.data.schemas.length,
        (d.addSisoTransform .plain 1 "copy" 7 passThrough).1.data.schemas.length,
        (d.addSisoTransform .plain 1 "copy" 7 passThrough).2.isOk)) = some (0, 1, false) := by
    decide +kernel
  have hsecond : ((start (.start fun _ ↦ [])).run oneEngine .plain (seriesCalls.map .data)).map
      (fun d ↦ (((d.runRegistration .plain secondAttempt).nodes.lookup 1).map
          fun n ↦ (n.outputTopics, n.op.declaredKinds),
        ((d.runRegistration .plain secondAttempt).data.getTopicStorage 2).map
          fun s ↦ ((d.runRegistration .plain secondAttempt).data.schemas.lookup
            s.descriptor.schemaId).bind findFirstLeaf)) =
      some (some ([2], [.bool]), some (some .float64)) := by
    decide +kernel
  obtain ⟨d₀, hd₀, hvalues⟩ := Option.map_eq_some_iff.mp hattempt
  rw [hd₀, Option.map_some] at hsecond
  simp only [Prod.mk.injEq, Option.some.injEq] at hvalues hsecond
  obtain ⟨hbefore, hafter, hfails⟩ := hvalues
  obtain ⟨hnode, hleaf⟩ := hsecond
  refine ⟨d₀, hd₀, ⟨_, ⟨_, rfl⟩, ?_, fun h ↦ ?_⟩, fun h ↦ ?_⟩
  · rcases hresult : (d₀.addSisoTransform .plain 1 "copy" 7 passThrough).2 with e | id
    · exact ⟨e, hresult⟩
    · rw [hresult] at hfails
      cases hfails
  · have hlength := congrArg List.length h.schemas
    exact absurd (hafter.symm.trans (hlength.trans hbefore)) (by decide)
  · obtain ⟨n, hn, hpair⟩ := Option.map_eq_some_iff.mp hnode
    have htyped := h 1 n hn
    rw [DerivedNode.Typed, (Prod.mk.inj hpair).1, (Prod.mk.inj hpair).2,
      List.forall₂_cons] at htyped
    obtain ⟨⟨s, hs, root, hroot, -, hkind⟩, -⟩ := htyped
    rw [hs, Option.map_some, hroot, Option.bind_some] at hleaf
    rw [Option.some.inj hleaf] at hkind
    cases hkind

end DerivedEngine

end PlotJuggler
