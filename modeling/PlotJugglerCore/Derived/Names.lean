import PlotJugglerCore.Derived.Order

/-!
# The names of the outputs

`registered_output_names` is meant to list the outputs of the live nodes under their dataset and
name. Adding a node tests its names against the map and only then enters them, so a list that holds
one name twice passes: both topics are made, the second takes the entry, and the first is an output
that nobody can look up. As long as no accepted list does that, the map inverts `topicKey` on the
live outputs (`Named`), and everything one expects of the names follows from it.
-/

namespace PlotJuggler

/-! ## Maps by value -/

section Maps

variable {κ : Type*} [DecidableEq κ] {m : AList fun _ : κ ↦ ℕ}

/-- Entries made for pairs with distinct keys. -/
theorem lookup_foldl_insert_eq_some {ι : Type*} (key : ι → κ) (val : ι → ℕ) (items : List ι)
    (hkeys : (items.map key).Nodup) {k : κ} {τ : ℕ} :
    (items.foldl (fun m i ↦ m.insert (key i) (val i)) m).lookup k = some τ ↔
      (∃ i ∈ items, key i = k ∧ val i = τ) ∨ k ∉ items.map key ∧ m.lookup k = some τ := by
  induction items generalizing m with
  | nil => simp
  | cons i items ih =>
    obtain ⟨hi, hkeys⟩ := List.nodup_cons.mp hkeys
    rw [List.foldl_cons, ih hkeys]
    by_cases hk : k = key i
    · subst hk
      have hnone : ¬∃ j ∈ items, key j = key i ∧ val j = τ := by
        rintro ⟨j, hj, hkey, -⟩
        exact hi (hkey ▸ List.mem_map_of_mem hj)
      simp [hnone, hi]
    · simp [AList.lookup_insert_ne hk, hk, Ne.symm hk]

/-- No value occurs twice. -/
def InjectiveMap (m : AList fun _ : κ ↦ ℕ) : Prop :=
  ∀ k k' τ, m.lookup k = some τ → m.lookup k' = some τ → k = k'

theorem mem_entries_iff {k : κ} {τ : ℕ} : (⟨k, τ⟩ : Σ _ : κ, ℕ) ∈ m.entries ↔ m.lookup k = some τ :=
  AList.mem_lookup_iff.symm

theorem InjectiveMap.nodup_values (hm : InjectiveMap m) : (m.entries.map Sigma.snd).Nodup := by
  have hentries : m.entries.Nodup := (List.nodupKeys_iff_pairwise.mp m.nodupKeys).imp fun h heq ↦
    h (congrArg Sigma.fst heq)
  refine hentries.map_on fun p hp q hq heq ↦ ?_
  obtain ⟨k, τ⟩ := p
  obtain ⟨k', τ'⟩ := q
  obtain rfl : τ = τ' := heq
  rw [hm k k' τ (mem_entries_iff.mp hp) (mem_entries_iff.mp hq)]

end Maps

namespace DerivedEngine

/-- The entry that `removeNode` finds for an output is the only one. -/
theorem lookup_eraseName {m : AList fun _ : ℕ × String ↦ ℕ} (hm : InjectiveMap m) (τ : ℕ)
    {key : ℕ × String} {σ : ℕ} :
    (eraseName m τ).lookup key = some σ ↔ m.lookup key = some σ ∧ σ ≠ τ := by
  rw [eraseName]
  split
  · rename_i p hfind
    obtain ⟨k, ρ⟩ := p
    have hmem := mem_entries_iff.mp (List.mem_of_find?_eq_some hfind)
    obtain rfl : ρ = τ := by simpa using List.find?_some hfind
    by_cases hkey : key = k
    · subst hkey
      rw [AList.lookup_erase, hmem]
      constructor
      · exact fun h ↦ nomatch h
      · exact fun h ↦ absurd (Option.some.inj h.1).symm h.2
    · rw [AList.lookup_erase_ne hkey]
      refine ⟨fun h ↦ ⟨h, ?_⟩, And.left⟩
      rintro rfl
      exact hkey (hm key k σ h hmem)
  · rename_i hfind
    refine ⟨fun h ↦ ⟨h, ?_⟩, And.left⟩
    simpa using List.find?_eq_none.mp hfind ⟨key, σ⟩ (mem_entries_iff.mpr h)

theorem lookup_foldl_eraseName {m : AList fun _ : ℕ × String ↦ ℕ} (hm : InjectiveMap m)
    (outputs : List ℕ) {key : ℕ × String} {σ : ℕ} :
    (outputs.foldl eraseName m).lookup key = some σ ↔ m.lookup key = some σ ∧ σ ∉ outputs := by
  induction outputs generalizing m with
  | nil => simp
  | cons τ outputs ih =>
    have hm' : InjectiveMap (eraseName m τ) := fun k k' ρ hk hk' ↦
      hm k k' ρ ((lookup_eraseName hm τ).mp hk).1 ((lookup_eraseName hm τ).mp hk').1
    rw [List.foldl_cons, ih hm', lookup_eraseName hm, List.mem_cons, not_or, and_assoc]

end DerivedEngine

/-! ## New topics -/

namespace DataEngine

variable {d d' d'' : DataEngine} {walk : WalkOrder} {datasetId : ℕ}

/-- Topics that are there stay as they are. -/
structure Keeps (d d' : DataEngine) : Prop where
  le : d.nextTopicId ≤ d'.nextTopicId
  datasets : d'.datasets = d.datasets
  topic : ∀ τ < d.nextTopicId, d'.getTopicStorage τ = d.getTopicStorage τ

theorem Keeps.refl (d : DataEngine) : Keeps d d := ⟨Nat.le_refl _, rfl, fun _ _ ↦ rfl⟩

theorem Keeps.trans (h : Keeps d d') (h' : Keeps d' d'') : Keeps d d'' where
  le := h.le.trans h'.le
  datasets := h'.datasets.trans h.datasets
  topic τ hτ := (h'.topic τ (hτ.trans_le h.le)).trans (h.topic τ hτ)

/-- A schema that is asked for by name is there afterwards. -/
theorem registerOrGet_spec (d : DataEngine) (name : String) (tree : TypeTreeNode) :
    ∃ schemas id, d.registerOrGet name tree = ({ d with schemas := schemas }, .ok id) ∧ id ≠ 0 ∧
      (schemas.lookup id).isSome := by
  rw [registerOrGet, TypeRegistry.registerOrGet]
  split
  · rename_i id hfind
    obtain ⟨i, hi, rfl⟩ := Option.map_eq_some_iff.mp hfind
    obtain ⟨hlt, -⟩ := List.findIdx?_eq_some_iff_getElem.mp hi
    exact ⟨d.schemas, i + 1, rfl, Nat.succ_ne_zero i, by simp [TypeRegistry.lookup, hlt]⟩
  · rename_i hfind
    rw [TypeRegistry.registerSchema, if_neg (by rw [hfind]; exact Bool.false_ne_true)]
    exact ⟨_, d.schemas.length + 1, rfl, Nat.succ_ne_zero _, by simp [TypeRegistry.lookup]⟩

/-- A new topic can be looked up, and all others are what they were. -/
theorem getTopicStorage_addTopic (hd : d.Below) (desc : TopicDescriptor) (τ : ℕ) :
    (d.addTopic walk datasetId desc).getTopicStorage τ =
      if τ = d.nextTopicId then
        some { topicId := d.nextTopicId, descriptor := { desc with datasetId := datasetId } }
      else d.getTopicStorage τ := by
  have hnew : d.nextTopicId ∉ d.engine.order := fun h ↦ absurd (hd _ h) (Nat.lt_irrefl _)
  rw [getTopicStorage, engine, addTopic, World.setEngine_self, Engine.emplace, dif_neg hnew]
  exact Function.update_apply ..

/-- The dataset and the name of a topic. -/
def topicKey (d : DataEngine) (τ : ℕ) : Option (ℕ × String) :=
  (d.getTopicStorage τ).map fun s ↦ (s.descriptor.datasetId, s.descriptor.name)

theorem Keeps.topicKey (h : Keeps d d') {τ : ℕ} (hτ : τ < d.nextTopicId) :
    d'.topicKey τ = d.topicKey τ := by
  rw [DataEngine.topicKey, h.topic τ hτ, DataEngine.topicKey]

theorem keeps_addTopic (hd : d.Below) (walk : WalkOrder) (datasetId : ℕ) (desc : TopicDescriptor) :
    Keeps d (d.addTopic walk datasetId desc) where
  le := Nat.le_succ _
  datasets := rfl
  topic τ hτ := by rw [getTopicStorage_addTopic hd, if_neg hτ.ne]

/-- In a known dataset an output gets the next topic id and its name. -/
theorem createOutput_of_mem (hd : d.Below) (hknown : datasetId ∈ d.datasets) (walk : WalkOrder)
    (name schemaName : String) (kind : StorageKind) : ∃ d',
      d.createOutput walk datasetId name schemaName kind = (d', .ok d.nextTopicId) ∧
      d.Keeps d' ∧ d'.Below ∧ d'.nextTopicId = d.nextTopicId + 1 ∧
      d'.topicKey d.nextTopicId = some (datasetId, name) := by
  obtain ⟨schemas, id, hok, hid, hlookup⟩ := d.registerOrGet_spec schemaName
    (makePrimitive "value" (storageKindToPrimitive kind))
  have hschema : ¬(id ≠ 0 ∧ (schemas.lookup id).isNone) := fun h ↦
    Option.not_isSome_iff_eq_none.mpr (Option.isNone_iff_eq_none.mp h.2) hlookup
  -- registering the schema leaves the topics alone
  have hd₁ : Below { d with schemas := schemas } := hd
  have hkeeps := keeps_addTopic hd₁ walk datasetId
    { name := name, schemaId := id, datasetId := datasetId }
  refine ⟨_, ?_, ⟨hkeeps.le, hkeeps.datasets, hkeeps.topic⟩,
    (extends_addTopic walk datasetId _).below hd₁, rfl, ?_⟩
  · rw [createOutput, hok]
    dsimp only
    rw [createTopic, if_neg (not_not_intro hknown), if_neg hschema]
  · rw [topicKey, getTopicStorage_addTopic hd₁]
    exact congrArg _ (if_pos rfl)

/-- Elsewhere there is nothing but a new schema. -/
theorem createOutput_of_notMem (hunknown : datasetId ∉ d.datasets) (walk : WalkOrder)
    (name schemaName : String) (kind : StorageKind) : ∃ schemas, d.createOutput walk datasetId name schemaName kind =
      ({ d with schemas := schemas }, .error (.datasetNotFound datasetId)) := by
  obtain ⟨schemas, id, hok, -⟩ := d.registerOrGet_spec schemaName
    (makePrimitive "value" (storageKindToPrimitive kind))
  refine ⟨schemas, ?_⟩
  rw [createOutput, hok]
  dsimp only
  rw [createTopic, if_pos hunknown]

end DataEngine

namespace DerivedEngine

variable {walk : WalkOrder} {datasetId : ℕ}

/-- In a known dataset the outputs get the next topic ids and their names. -/
theorem createOutputs_of_mem {data : DataEngine} (hd : data.Below)
    (hknown : datasetId ∈ data.datasets) (walk : WalkOrder) (nodeId : ℕ)
    (outputs : List ((String × StorageKind) × ℕ)) : ∃ data',
      createOutputs walk datasetId nodeId data outputs =
        (data', .ok (List.range' data.nextTopicId outputs.length)) ∧
      data.Keeps data' ∧
      (List.range' data.nextTopicId outputs.length).map data'.topicKey =
        outputs.map fun output ↦ some (datasetId, output.1.1) := by
  induction outputs generalizing data with
  | nil => exact ⟨data, rfl, .refl data, rfl⟩
  | cons output outputs ih =>
    obtain ⟨⟨name, kind⟩, k⟩ := output
    obtain ⟨data₁, hcreate, hkeeps, hbelow, hnext, hkey⟩ :=
      DataEngine.createOutput_of_mem hd hknown walk name
        ("derived_mimo_" ++ toString nodeId ++ "_" ++ toString k) kind
    obtain ⟨data', hrest, hkeeps', hkeys⟩ := ih hbelow (hkeeps.datasets ▸ hknown)
    rw [hnext] at hrest hkeys
    refine ⟨data', ?_, hkeeps.trans hkeeps', ?_⟩
    · rw [createOutputs, hcreate]
      dsimp only
      rw [hrest]
      rfl
    · rw [List.length_cons, List.range'_succ, List.map_cons, List.map_cons]
      refine congrArg₂ List.cons ?_ hkeys
      rw [hkeeps'.topicKey (by rw [hnext]; exact Nat.lt_succ_self _), hkey]

/-- Elsewhere the first output fails. -/
theorem createOutputs_of_notMem {data : DataEngine} (hunknown : datasetId ∉ data.datasets)
    (walk : WalkOrder) (nodeId : ℕ) {outputs : List ((String × StorageKind) × ℕ)} (hne : outputs ≠ []) :
    ∃ schemas, createOutputs walk datasetId nodeId data outputs =
      ({ data with schemas := schemas }, .error (.datasetNotFound datasetId)) := by
  obtain ⟨⟨⟨name, kind⟩, k⟩, outputs, rfl⟩ := List.exists_cons_of_ne_nil hne
  obtain ⟨schemas, hcreate⟩ := DataEngine.createOutput_of_notMem hunknown walk name
    ("derived_mimo_" ++ toString nodeId ++ "_" ++ toString k) kind
  exact ⟨schemas, by rw [createOutputs, hcreate]⟩

/-! ## The invariant -/

variable {d d' : DerivedEngine} {n : DerivedNode} {names : List String}

/-- The outputs of the live nodes. -/
def liveOutputs (d : DerivedEngine) : List ℕ := d.nodes.keys.flatMap d.outputTopics

theorem mem_liveOutputs {τ : ℕ} : τ ∈ d.liveOutputs ↔ ∃ id, τ ∈ d.outputTopics id := by
  rw [liveOutputs, List.mem_flatMap]
  refine exists_congr fun id ↦ and_iff_right_of_imp fun h ↦ ?_
  exact AList.mem_keys.mp (mem_nodes_of_outputTopics h)

/-- Every live output has a name, and the map of names inverts `topicKey` on them. -/
structure Named (d : DerivedEngine) : Prop where
  nodup : ∀ id, (d.outputTopics id).Nodup
  named : ∀ τ ∈ d.liveOutputs, ∃ key, d.data.topicKey τ = some key
  registered : ∀ key τ, d.registeredOutputNames.lookup key = some τ ↔
    τ ∈ d.liveOutputs ∧ d.data.topicKey τ = some key

theorem Named.injectiveMap (hn : d.Named) : InjectiveMap d.registeredOutputNames := by
  intro k k' τ hk hk'
  have hkey := ((hn.registered k τ).mp hk).2
  exact Option.some.inj (hkey.symm.trans ((hn.registered k' τ).mp hk').2)

/-- A name is in the map exactly if a live node produces it. -/
theorem Named.mem_registeredOutputNames (hn : d.Named) {key : ℕ × String} :
    key ∈ d.registeredOutputNames ↔ ∃ τ ∈ d.liveOutputs, d.data.topicKey τ = some key := by
  rw [← AList.lookup_isSome, Option.isSome_iff_exists]
  exact exists_congr fun τ ↦ hn.registered key τ

/-! ### Calls that fail -/

/-- Same nodes, same map, and the same topics under the old ids. -/
structure SameNames (d d' : DerivedEngine) : Prop where
  nodes : d'.nodes = d.nodes
  registeredOutputNames : d'.registeredOutputNames = d.registeredOutputNames
  data : d.data.Keeps d'.data

theorem SameNames.refl (d : DerivedEngine) : SameNames d d := ⟨rfl, rfl, .refl d.data⟩

theorem Linked.lt_of_mem_liveOutputs (hl : d.Linked) {τ : ℕ} (hτ : τ ∈ d.liveOutputs) :
    τ < d.data.nextTopicId := by
  obtain ⟨id, hid⟩ := mem_liveOutputs.mp hτ
  exact hl.output_lt id τ hid

theorem Named.same (hl : d.Linked) (hn : d.Named) (h : SameNames d d') : d'.Named := by
  have houts : d'.outputTopics = d.outputTopics := by
    funext id
    rw [outputTopics, h.nodes, outputTopics]
  have hlive : d'.liveOutputs = d.liveOutputs := by rw [liveOutputs, houts, h.nodes, liveOutputs]
  have hkey : ∀ τ ∈ d.liveOutputs, d'.data.topicKey τ = d.data.topicKey τ := fun τ hτ ↦
    h.data.topicKey (hl.lt_of_mem_liveOutputs hτ)
  refine ⟨fun id ↦ houts ▸ hn.nodup id, fun τ hτ ↦ ?_, fun key τ ↦ ?_⟩
  · rw [hlive] at hτ
    rw [hkey τ hτ]
    exact hn.named τ hτ
  · rw [h.registeredOutputNames, hn.registered, hlive]
    exact and_congr_right fun hτ ↦ by rw [hkey τ hτ]

/-! ### Calls that add a node -/

/-- The engine `d'` behind an `add` that entered the node `n` with outputs of these names. -/
structure AddsOutputs (d : DerivedEngine) (datasetId : ℕ) (names : List String) (n : DerivedNode)
    (d' : DerivedEngine) : Prop where
  nodes : d'.nodes = d.nodes.insert d.nextNodeId n
  data : d.data.Keeps d'.data
  fresh : ∀ τ ∈ n.outputTopics, d.data.nextTopicId ≤ τ
  nodup : n.outputTopics.Nodup
  keys : n.outputTopics.map d'.data.topicKey = names.map fun name ↦ some (datasetId, name)
  free : ∀ name ∈ names, (datasetId, name) ∉ d.registeredOutputNames
  registered : d'.registeredOutputNames = (names.zip n.outputTopics).foldl
    (fun m p ↦ m.insert (datasetId, p.1) p.2) d.registeredOutputNames

namespace AddsOutputs

theorem outputTopics_self (h : AddsOutputs d datasetId names n d') :
    d'.outputTopics d.nextNodeId = n.outputTopics := by
  rw [DerivedEngine.outputTopics, h.nodes, AList.lookup_insert]
  rfl

theorem outputTopics_of_ne (h : AddsOutputs d datasetId names n d') {id : ℕ}
    (hid : id ≠ d.nextNodeId) : d'.outputTopics id = d.outputTopics id := by
  rw [DerivedEngine.outputTopics, h.nodes, AList.lookup_insert_ne hid, DerivedEngine.outputTopics]

theorem mem_liveOutputs (h : AddsOutputs d datasetId names n d') (hl : d.Linked) {τ : ℕ} :
    τ ∈ d'.liveOutputs ↔ τ ∈ n.outputTopics ∨ τ ∈ d.liveOutputs := by
  rw [DerivedEngine.mem_liveOutputs, DerivedEngine.mem_liveOutputs]
  constructor
  · rintro ⟨id, hτ⟩
    by_cases hid : id = d.nextNodeId
    · subst hid
      exact .inl (h.outputTopics_self ▸ hτ)
    · exact .inr ⟨id, h.outputTopics_of_ne hid ▸ hτ⟩
  · rintro (hτ | ⟨id, hτ⟩)
    · exact ⟨d.nextNodeId, h.outputTopics_self.symm ▸ hτ⟩
    · have hid : id ≠ d.nextNodeId := by
        rintro rfl
        exact Adds.nextNodeId_notMem hl (mem_nodes_of_outputTopics hτ)
      exact ⟨id, h.outputTopics_of_ne hid ▸ hτ⟩

/-- The name of an output and the topic it was entered with. -/
theorem mem_zip_iff (h : AddsOutputs d datasetId names n d') {key : ℕ × String} {τ : ℕ} :
    (∃ p ∈ names.zip n.outputTopics, (datasetId, p.1) = key ∧ p.2 = τ) ↔
      τ ∈ n.outputTopics ∧ d'.data.topicKey τ = some key := by
  have hlength : n.outputTopics.length = names.length := by
    simpa using congrArg List.length h.keys
  have hkey : ∀ k (hk : k < names.length), d'.data.topicKey (n.outputTopics[k]) =
      some (datasetId, names[k]) := fun k hk ↦ by
    have := congrArg (fun l ↦ l[k]?) h.keys
    simpa [hk, hlength] using this
  constructor
  · rintro ⟨p, hp, rfl, rfl⟩
    obtain ⟨k, hk, rfl⟩ := List.mem_iff_getElem.mp hp
    rw [List.length_zip, hlength, min_self] at hk
    rw [List.getElem_zip]
    exact ⟨List.getElem_mem _, hkey k hk⟩
  · rintro ⟨hτ, hname⟩
    obtain ⟨k, hk, rfl⟩ := List.mem_iff_getElem.mp hτ
    rw [hlength] at hk
    refine ⟨(names[k], n.outputTopics[k]), List.mem_iff_getElem.mpr ⟨k, by simp [hk, hlength], ?_⟩,
      Option.some.inj ((hkey k hk).symm.trans hname), rfl⟩
    rw [List.getElem_zip]

end AddsOutputs

/-- A list of distinct names keeps the map in order. -/
theorem Named.add (hl : d.Linked) (hn : d.Named) (h : AddsOutputs d datasetId names n d')
    (hnames : names.Nodup) : d'.Named := by
  have hlength : names.length ≤ n.outputTopics.length := by
    simpa using (congrArg List.length h.keys).ge
  have hkey : ∀ τ ∈ d.liveOutputs, d'.data.topicKey τ = d.data.topicKey τ := fun τ hτ ↦
    h.data.topicKey (hl.lt_of_mem_liveOutputs hτ)
  have hmap : (names.zip n.outputTopics).map (fun p ↦ (datasetId, p.1)) =
      names.map fun name ↦ (datasetId, name) := by
    have hfst := congrArg (List.map fun name ↦ (datasetId, name)) (List.map_fst_zip hlength)
    rwa [List.map_map] at hfst
  have hkeys : ((names.zip n.outputTopics).map fun p ↦ (datasetId, p.1)).Nodup := by
    rw [hmap]
    exact hnames.map fun a b hab ↦ (Prod.mk.inj hab).2
  refine ⟨fun id ↦ ?_, fun τ hτ ↦ ?_, fun key τ ↦ ?_⟩
  · by_cases hid : id = d.nextNodeId
    · subst hid
      rw [h.outputTopics_self]
      exact h.nodup
    · rw [h.outputTopics_of_ne hid]
      exact hn.nodup id
  · rcases (h.mem_liveOutputs hl).mp hτ with hτ | hτ
    · obtain ⟨name, -, hname⟩ := List.mem_map.mp (h.keys ▸ List.mem_map_of_mem hτ)
      exact ⟨_, hname.symm⟩
    · rw [hkey τ hτ]
      exact hn.named τ hτ
  · rw [h.registered, lookup_foldl_insert_eq_some (fun p : String × ℕ ↦ (datasetId, p.1)) Prod.snd _
      hkeys, h.mem_zip_iff, hmap, hn.registered, h.mem_liveOutputs hl, or_and_right]
    refine or_congr_right ⟨fun hold ↦ ?_, fun hold ↦ ?_⟩
    · exact ⟨hold.2.1, (hkey τ hold.2.1).trans hold.2.2⟩
    · rw [hkey τ hold.1] at hold
      refine ⟨fun hmem ↦ ?_, hold⟩
      -- the check found none of the new names among the old ones
      obtain ⟨name, hname, rfl⟩ := List.mem_map.mp hmem
      exact h.free name hname (hn.mem_registeredOutputNames.mpr ⟨τ, hold⟩)

/-- A list with a duplicate leaves two outputs under one name. -/
theorem AddsOutputs.nodup_of_distinct (h : AddsOutputs d datasetId names n d')
    (hdistinct : (d'.liveOutputs.map d'.data.topicKey).Nodup) : names.Nodup := by
  have hmem : d.nextNodeId ∈ d'.nodes.keys := by
    rw [← AList.mem_keys, h.nodes, AList.mem_insert]
    exact .inl rfl
  have hsub : n.outputTopics.Sublist d'.liveOutputs := by
    rw [← h.outputTopics_self]
    exact List.sublist_flatten_of_mem (List.mem_map_of_mem hmem)
  have hkeys := hdistinct.sublist (hsub.map d'.data.topicKey)
  rw [h.keys] at hkeys
  exact hkeys.of_map

/-! ### The two ways to add -/

theorem checkCycle_nil (inputs : List ℕ) : d.checkCycle inputs [] = none := cycleSearch_nil ..

/-- With a typed single-column input only the name is left to check. -/
theorem checkSiso_eq_ok_iff {τ : ℕ} {name : String} (op : SisoTransform) {s : TopicStorage}
    {type : PrimitiveType} (hs : d.data.getTopicStorage τ = some s)
    (hlayout : d.data.layoutOf s = (1, some type)) :
    (∃ kinds, d.checkSiso τ name datasetId op = .ok kinds) ↔
      (datasetId, name) ∉ d.registeredOutputNames := by
  simp only [checkSiso, hs, hlayout, checkCycle_nil]
  split_ifs with hname
  · refine iff_of_false ?_ (not_not_intro hname)
    rintro ⟨kinds, h⟩
    cases h
  · exact iff_of_true ⟨_, rfl⟩ hname

theorem notMem_of_checkSiso {τ : ℕ} {name : String} {op : SisoTransform}
    {kinds : StorageKind × StorageKind} (h : d.checkSiso τ name datasetId op = .ok kinds) :
    (datasetId, name) ∉ d.registeredOutputNames := by
  rw [checkSiso.eq_def] at h
  intro hname
  split at h
  · cases h
  · split at h
    · cases h
    · cases h
    · rw [if_pos hname] at h
      cases h
    · cases h

theorem addSisoTransform_of_error (walk : WalkOrder) {τ : ℕ} {name : String} {op : SisoTransform}
    (h : ¬((∃ kinds, d.checkSiso τ name datasetId op = .ok kinds) ∧ datasetId ∈ d.data.datasets)) :
    (∃ e, (d.addSisoTransform walk τ name datasetId op).2 = .error e) ∧
      SameNames d (d.addSisoTransform walk τ name datasetId op).1 := by
  rw [addSisoTransform]
  rcases hcheck : d.checkSiso τ name datasetId op with e | kinds
  · exact ⟨⟨e, rfl⟩, .refl d⟩
  · obtain ⟨schemas, hcreate⟩ := DataEngine.createOutput_of_notMem
      (fun hknown ↦ h ⟨⟨kinds, hcheck⟩, hknown⟩) walk name
      ("derived_siso_" ++ name ++ "_" ++ toString d.nextNodeId) kinds.2
    dsimp only
    rw [hcreate]
    exact ⟨⟨_, rfl⟩, rfl, rfl, Nat.le_refl _, rfl, fun _ _ ↦ rfl⟩

theorem addSisoTransform_of_ok (hl : d.Linked) (walk : WalkOrder) {τ : ℕ} {name : String} {op : SisoTransform}
    {kinds : StorageKind × StorageKind} (hcheck : d.checkSiso τ name datasetId op = .ok kinds)
    (hknown : datasetId ∈ d.data.datasets) :
    (d.addSisoTransform walk τ name datasetId op).2 = .ok d.nextNodeId ∧
      ∃ n, AddsOutputs d datasetId [name] n (d.addSisoTransform walk τ name datasetId op).1 := by
  obtain ⟨data, hcreate, hkeeps, -, -, hkey⟩ := DataEngine.createOutput_of_mem
    hl.below hknown walk name ("derived_siso_" ++ name ++ "_" ++ toString d.nextNodeId) kinds.2
  rw [addSisoTransform, hcheck]
  dsimp only
  rw [hcreate]
  refine ⟨rfl, _, rfl, hkeeps, ?_, List.nodup_singleton _, congrArg (fun k ↦ [k]) hkey, ?_, rfl⟩
  · exact fun σ hσ ↦ (List.mem_singleton.mp hσ).ge
  · exact fun σ hσ ↦ List.mem_singleton.mp hσ ▸ notMem_of_checkSiso hcheck

/-- With typed single-column inputs and a kind for every output only the names are left to check. -/
theorem checkMimo_eq_ok_iff {inputs : List ℕ} (op : MimoTransform) {kinds : List StorageKind}
    (hinputs : inputs ≠ []) (hnames : names ≠ []) (hkinds : d.inputKinds inputs = .ok kinds)
    (hlength : (op.outputKinds kinds).length = names.length) :
    (∃ r, d.checkMimo inputs names datasetId (some op) = .ok r) ↔
      ∀ name ∈ names, (datasetId, name) ∉ d.registeredOutputNames := by
  simp only [checkMimo, if_neg hinputs, if_neg hnames, hkinds, checkCycle_nil,
    if_neg (not_not_intro hlength)]
  split
  · rename_i name hfind
    have hname : (datasetId, name) ∈ d.registeredOutputNames := by
      simpa using List.find?_some hfind
    exact iff_of_false (fun ⟨r, h⟩ ↦ nomatch h)
      fun h ↦ h name (List.mem_of_find?_eq_some hfind) hname
  · rename_i hfind
    exact iff_of_true ⟨_, rfl⟩ fun name hname ↦ by
      simpa using List.find?_eq_none.mp hfind name hname

theorem checkMimo_names {inputs : List ℕ} {op : Option MimoTransform}
    {r : MimoTransform × List StorageKind × List StorageKind}
    (h : d.checkMimo inputs names datasetId op = .ok r) :
    names ≠ [] ∧ r.2.2.length = names.length ∧
      ∀ name ∈ names, (datasetId, name) ∉ d.registeredOutputNames := by
  rw [checkMimo.eq_def] at h
  split_ifs at h with hinputs hnames
  split at h
  · cases h
  · split at h
    · cases h
    · split at h
      · cases h
      · rename_i hfind
        rw [checkCycle_nil] at h
        dsimp only at h
        split_ifs at h with hlength
        obtain rfl := Except.ok.inj h
        exact ⟨hnames, not_not.mp hlength,
          fun name hname ↦ by simpa using List.find?_eq_none.mp hfind name hname⟩

theorem addMimoTransform_of_error (walk : WalkOrder) {inputs : List ℕ} {op : Option MimoTransform}
    (h : ¬((∃ r, d.checkMimo inputs names datasetId op = .ok r) ∧ datasetId ∈ d.data.datasets)) :
    (∃ e, (d.addMimoTransform walk inputs names datasetId op).2 = .error e) ∧
      SameNames d (d.addMimoTransform walk inputs names datasetId op).1 := by
  rw [addMimoTransform]
  rcases hcheck : d.checkMimo inputs names datasetId op with e | ⟨op', inKinds, outKinds⟩
  · exact ⟨⟨e, rfl⟩, .refl d⟩
  · obtain ⟨hnames, hlength, -⟩ := checkMimo_names hcheck
    have hne : (names.zip outKinds).zipIdx ≠ [] := by
      rw [← List.length_pos_iff, List.length_zipIdx, List.length_zip, hlength, min_self]
      exact List.length_pos_iff.mpr hnames
    obtain ⟨schemas, hcreate⟩ := createOutputs_of_notMem
      (fun hknown : datasetId ∈ d.data.datasets ↦ h ⟨⟨_, hcheck⟩, hknown⟩) walk d.nextNodeId hne
    dsimp only
    rw [hcreate]
    exact ⟨⟨_, rfl⟩, rfl, rfl, Nat.le_refl _, rfl, fun _ _ ↦ rfl⟩

theorem map_outputs_keys {outKinds : List StorageKind} (h : outKinds.length = names.length) :
    ((names.zip outKinds).zipIdx.map fun output ↦ some (datasetId, output.1.1)) =
      names.map fun name ↦ some (datasetId, name) := by
  have hfst := congrArg (List.map fun name ↦ some (datasetId, name))
    (List.map_fst_zip (h.ge : names.length ≤ outKinds.length))
  rw [List.map_map, ← List.zipIdx_map_fst 0 (names.zip outKinds), List.map_map] at hfst
  exact hfst

theorem foldl_insert_outputs {outs : List ℕ} {outKinds : List StorageKind}
    {m : AList fun _ : ℕ × String ↦ ℕ} (h : (outs.zip outKinds).map Prod.fst = outs) :
    (names.zip (outs.zip outKinds)).foldl (fun m p ↦ m.insert (datasetId, p.1) p.2.1) m =
      (names.zip outs).foldl (fun m p ↦ m.insert (datasetId, p.1) p.2) m := by
  conv_rhs => rw [← h, List.zip_map_right, List.foldl_map]
  rfl

theorem addMimoTransform_of_ok (hl : d.Linked) (walk : WalkOrder) {inputs : List ℕ} {op : Option MimoTransform}
    {r : MimoTransform × List StorageKind × List StorageKind}
    (hcheck : d.checkMimo inputs names datasetId op = .ok r) (hknown : datasetId ∈ d.data.datasets) :
    (d.addMimoTransform walk inputs names datasetId op).2 = .ok d.nextNodeId ∧
      ∃ n, AddsOutputs d datasetId names n (d.addMimoTransform walk inputs names datasetId op).1 := by
  obtain ⟨op', inKinds, outKinds⟩ := r
  obtain ⟨-, hlength, hfree⟩ := checkMimo_names hcheck
  obtain ⟨data, hcreate, hkeeps, hkeys⟩ := createOutputs_of_mem hl.below hknown walk
    d.nextNodeId (names.zip outKinds).zipIdx
  have hcount : (names.zip outKinds).zipIdx.length = names.length := by
    rw [List.length_zipIdx, List.length_zip, hlength, min_self]
  rw [hcount] at hcreate hkeys
  set outs := List.range' d.data.nextTopicId names.length with houts
  have hfst : (outs.zip outKinds).map Prod.fst = outs :=
    List.map_fst_zip (by rw [houts, List.length_range', hlength])
  let n : MimoNode := { inputs := inputs.zip inKinds, outputs := outs.zip outKinds, op := op' }
  have hnode : DerivedNode.outputTopics { id := d.nextNodeId, op := .mimo n } = outs := hfst
  rw [addMimoTransform, hcheck]
  dsimp only
  rw [hcreate]
  refine ⟨rfl, { id := d.nextNodeId, op := .mimo n }, rfl, hkeeps, ?_, ?_, ?_, hfree, ?_⟩
  · rw [hnode]
    exact fun τ hτ ↦ (List.mem_range'_1.mp hτ).1
  · rw [hnode]
    exact List.nodup_range' 1
  · rw [hnode]
    exact hkeys.trans (map_outputs_keys hlength)
  · rw [hnode]
    exact foldl_insert_outputs hfst

/-! ### Removing a node -/

theorem mem_liveOutputs_removeNode (hl : d.Linked) {id : ℕ} (hnode : d.nodes.lookup id = some n)
    {τ : ℕ} : τ ∈ (d.removeNode id).1.liveOutputs ↔ τ ∈ d.liveOutputs ∧ τ ∉ n.outputTopics := by
  have hself : d.outputTopics id = n.outputTopics := by
    rw [outputTopics, hnode]
    rfl
  rw [mem_liveOutputs, mem_liveOutputs, ← hself]
  constructor
  · rintro ⟨x, hτ⟩
    rw [outputTopics_removeNode hnode] at hτ
    split at hτ
    · exact absurd hτ List.not_mem_nil
    · rename_i hx
      -- an output has one producer
      refine ⟨⟨x, hτ⟩, fun hτ' ↦ hx ?_⟩
      exact Option.some.inj (((hl.producer τ x).mpr hτ).symm.trans ((hl.producer τ id).mpr hτ'))
  · rintro ⟨⟨x, hτ⟩, hnot⟩
    refine ⟨x, ?_⟩
    rwa [outputTopics_removeNode hnode, if_neg]
    rintro rfl
    exact hnot hτ

theorem Named.remove (hl : d.Linked) (hn : d.Named) (id : ℕ) : (d.removeNode id).1.Named := by
  rcases hnode : d.nodes.lookup id with _ | n
  · rw [removeNode, hnode]
    exact hn
  have hdata : (d.removeNode id).1.data = d.data := by rw [removeNode, hnode]
  have hmap : (d.removeNode id).1.registeredOutputNames =
      n.outputTopics.foldl eraseName d.registeredOutputNames := by rw [removeNode, hnode]
  refine ⟨fun x ↦ ?_, fun τ hτ ↦ ?_, fun key τ ↦ ?_⟩
  · rw [outputTopics_removeNode hnode]
    split
    · exact List.nodup_nil
    · exact hn.nodup x
  · rw [hdata]
    exact hn.named τ ((mem_liveOutputs_removeNode hl hnode).mp hτ).1
  · rw [hmap, lookup_foldl_eraseName hn.injectiveMap, hn.registered,
      mem_liveOutputs_removeNode hl hnode, hdata, and_right_comm]

/-! ## What the names promise -/

/-- Some live node produces the name. -/
def Produces (d : DerivedEngine) (key : ℕ × String) : Prop :=
  ∃ τ ∈ d.liveOutputs, d.data.topicKey τ = some key

/-- Live outputs have distinct names, the map has one entry for each of them and no other, and a call
that has nothing else to fail on is accepted exactly if no live node produces its names. -/
structure NamesUnique (walk : WalkOrder) (d : DerivedEngine) : Prop where
  distinct : (d.liveOutputs.map d.data.topicKey).Nodup
  entries : (d.registeredOutputNames.entries.map Sigma.snd).Perm d.liveOutputs
  addSiso_iff : ∀ τ s type name datasetId op, d.data.getTopicStorage τ = some s →
    d.data.layoutOf s = (1, some type) → datasetId ∈ d.data.datasets →
    ((∃ id, (d.addSisoTransform walk τ name datasetId op).2 = .ok id) ↔
      ¬d.Produces (datasetId, name))
  addMimo_iff : ∀ inputs names datasetId op kinds, inputs ≠ [] → names ≠ [] →
    d.inputKinds inputs = .ok kinds → (op.outputKinds kinds).length = names.length →
    datasetId ∈ d.data.datasets →
    ((∃ id, (d.addMimoTransform walk inputs names datasetId (some op)).2 = .ok id) ↔
      ∀ name ∈ names, ¬d.Produces (datasetId, name))

theorem Named.nodup_liveOutputs (hl : d.Linked) (hn : d.Named) : d.liveOutputs.Nodup := by
  rw [liveOutputs, List.nodup_flatMap]
  refine ⟨fun id _ ↦ hn.nodup id, d.nodes.keys_nodup.imp fun hne τ hτ hτ' ↦ hne ?_⟩
  exact Option.some.inj (((hl.producer τ _).mpr hτ).symm.trans ((hl.producer τ _).mpr hτ'))

theorem Named.notMem_iff (hn : d.Named) {key : ℕ × String} :
    key ∉ d.registeredOutputNames ↔ ¬d.Produces key :=
  not_congr hn.mem_registeredOutputNames

theorem Named.namesUnique (hl : d.Linked) (hn : d.Named) (walk : WalkOrder) :
    d.NamesUnique walk where
  distinct := by
    refine (hn.nodup_liveOutputs hl).map_on fun τ hτ σ hσ heq ↦ ?_
    obtain ⟨key, hkey⟩ := hn.named τ hτ
    have hσkey : d.data.topicKey σ = some key := heq ▸ hkey
    -- both are the entry of the name
    have hlookup := (hn.registered key τ).mpr ⟨hτ, hkey⟩
    exact Option.some.inj (hlookup.symm.trans ((hn.registered key σ).mpr ⟨hσ, hσkey⟩))
  entries := by
    rw [List.perm_ext_iff_of_nodup hn.injectiveMap.nodup_values (hn.nodup_liveOutputs hl)]
    intro τ
    rw [List.mem_map]
    constructor
    · rintro ⟨⟨key, τ'⟩, hmem, rfl⟩
      exact ((hn.registered key τ').mp (mem_entries_iff.mp hmem)).1
    · intro hτ
      obtain ⟨key, hkey⟩ := hn.named τ hτ
      exact ⟨⟨key, τ⟩, mem_entries_iff.mpr ((hn.registered key τ).mpr ⟨hτ, hkey⟩), rfl⟩
  addSiso_iff τ s type name datasetId op hs hlayout hknown := by
    rw [← hn.notMem_iff, ← checkSiso_eq_ok_iff op hs hlayout]
    constructor
    · rintro ⟨id, hid⟩
      by_contra hcheck
      obtain ⟨⟨e, he⟩, -⟩ := addSisoTransform_of_error walk fun h ↦ hcheck h.1
      cases he.symm.trans hid
    · rintro ⟨kinds, hcheck⟩
      exact ⟨_, (addSisoTransform_of_ok hl walk hcheck hknown).1⟩
  addMimo_iff inputs names datasetId op kinds hinputs hnames hkinds hlength hknown := by
    have hfree : (∀ name ∈ names, ¬d.Produces (datasetId, name)) ↔
        ∀ name ∈ names, (datasetId, name) ∉ d.registeredOutputNames :=
      forall₂_congr fun name _ ↦ hn.notMem_iff.symm
    rw [hfree, ← checkMimo_eq_ok_iff op hinputs hnames hkinds hlength]
    constructor
    · rintro ⟨id, hid⟩
      by_contra hcheck
      obtain ⟨⟨e, he⟩, -⟩ := addMimoTransform_of_error walk fun h ↦ hcheck h.1
      cases he.symm.trans hid
    · rintro ⟨r, hcheck⟩
      exact ⟨_, (addMimoTransform_of_ok hl walk hcheck hknown).1⟩

/-! ## Runs -/

/-- A call that adds a node or takes one away. -/
inductive GraphCall
  | addSisoTransform (τ : ℕ) (name : String) (datasetId : ℕ) (op : SisoTransform)
  | addMimoTransform (inputs : List ℕ) (names : List String) (datasetId : ℕ)
    (op : Option MimoTransform)
  | removeNode (id : ℕ)

def graphStep (walk : WalkOrder) (d : DerivedEngine) : GraphCall → DerivedEngine
  | .addSisoTransform τ name datasetId op => (d.addSisoTransform walk τ name datasetId op).1
  | .addMimoTransform inputs names datasetId op =>
    (d.addMimoTransform walk inputs names datasetId op).1
  | .removeNode id => (d.removeNode id).1

def runGraph (walk : WalkOrder) (d : DerivedEngine) (calls : List GraphCall) : DerivedEngine :=
  calls.foldl (graphStep walk) d

/-- A list of names that would be accepted holds no name twice. -/
def GraphCall.NoDuplicate (d : DerivedEngine) : GraphCall → Prop
  | .addMimoTransform inputs names datasetId op =>
    (∃ r, d.checkMimo inputs names datasetId op = .ok r) → datasetId ∈ d.data.datasets →
      names.Nodup
  | _ => True

theorem linked_graphStep (hl : d.Linked) (c : GraphCall) : (d.graphStep walk c).Linked := by
  match c with
  | .addSisoTransform τ name datasetId op => exact linked_addSisoTransform hl walk τ name datasetId op
  | .addMimoTransform inputs names datasetId op =>
    exact linked_addMimoTransform hl walk inputs names datasetId op
  | .removeNode id => exact linked_removeNode hl id

theorem Named.step (hl : d.Linked) (hn : d.Named) {c : GraphCall} (hc : c.NoDuplicate d) :
    (d.graphStep walk c).Named := by
  match c with
  | .addSisoTransform τ name datasetId op =>
    by_cases h : (∃ kinds, d.checkSiso τ name datasetId op = .ok kinds) ∧ datasetId ∈ d.data.datasets
    · obtain ⟨⟨kinds, hcheck⟩, hknown⟩ := h
      obtain ⟨-, n, hadds⟩ := addSisoTransform_of_ok hl walk hcheck hknown
      exact hn.add hl hadds (List.nodup_singleton name)
    · exact hn.same hl (addSisoTransform_of_error walk h).2
  | .addMimoTransform inputs names datasetId op =>
    by_cases h : (∃ r, d.checkMimo inputs names datasetId op = .ok r) ∧ datasetId ∈ d.data.datasets
    · obtain ⟨⟨r, hcheck⟩, hknown⟩ := h
      obtain ⟨-, n, hadds⟩ := addMimoTransform_of_ok hl walk hcheck hknown
      exact hn.add hl hadds (hc ⟨r, hcheck⟩ hknown)
    · exact hn.same hl (addMimoTransform_of_error walk h).2
  | .removeNode id => exact hn.remove hl id

theorem noDuplicate_of_namesUnique (hl : d.Linked) {c : GraphCall}
    (h : (d.graphStep walk c).NamesUnique walk) : c.NoDuplicate d := by
  match c with
  | .addSisoTransform .. => trivial
  | .addMimoTransform inputs names datasetId op =>
    intro ⟨r, hcheck⟩ hknown
    obtain ⟨-, n, hadds⟩ := addMimoTransform_of_ok hl walk hcheck hknown
    exact hadds.nodup_of_distinct h.distinct
  | .removeNode _ => trivial

/-- The data engine's own calls leave the graph empty. -/
theorem run_data {S : Setup} {before : List DataEngine.Call} {d₀ : DerivedEngine}
    (h : d.run S walk (before.map .data) = some d₀) : d₀ = { d with data := d₀.data } := by
  induction before generalizing d with
  | nil =>
    obtain rfl := Option.some.inj h
    rfl
  | cons c before ih =>
    obtain ⟨d₁, hstep, hrest⟩ := Option.bind_eq_some_iff.mp h
    obtain ⟨data, -, rfl⟩ := Option.map_eq_some_iff.mp hstep
    have hlast := ih hrest
    exact hlast

theorem named_of_data (data : DataEngine) : Named { data := data } where
  nodup _ := List.nodup_nil
  named _ hτ := nomatch hτ
  registered _ _ := ⟨(nomatch ·), fun h ↦ nomatch h.1⟩

/-- In a run of adds and removals over any data engine the names are unique in every state exactly if
no accepted list names an output twice. -/
theorem runGraph_namesUnique_iff {S : Setup} {W : World} {before : List DataEngine.Call}
    {d₀ : DerivedEngine} (h : (start W).run S walk (before.map .data) = some d₀)
    (calls : List GraphCall) :
    (∀ done, done <+: calls → (d₀.runGraph walk done).NamesUnique walk) ↔
      ∀ done c, done ++ [c] <+: calls → c.NoDuplicate (d₀.runGraph walk done) := by
  have hsnoc : ∀ done c, d₀.runGraph walk (done ++ [c]) = (d₀.runGraph walk done).graphStep walk c :=
    fun done c ↦ by rw [runGraph, List.foldl_append, List.foldl_cons, List.foldl_nil, runGraph]
  have hlinked : ∀ done, (d₀.runGraph walk done).Linked := by
    intro done
    induction done using List.reverseRecOn with
    | nil => exact linked_run (linked_start W) h
    | append_singleton done c ih =>
      rw [hsnoc]
      exact linked_graphStep ih c
  constructor
  · intro hunique done c hpre
    have hnext := hunique _ hpre
    rw [hsnoc] at hnext
    exact noDuplicate_of_namesUnique (hlinked done) hnext
  · intro hnames
    have hnamed : ∀ done, done <+: calls → (d₀.runGraph walk done).Named := by
      intro done
      induction done using List.reverseRecOn with
      | nil =>
        intro _
        rw [runGraph, List.foldl_nil, run_data h]
        exact named_of_data d₀.data
      | append_singleton done c ih =>
        intro hpre
        rw [hsnoc]
        exact (ih ((List.prefix_append done [c]).trans hpre)).step (hlinked done)
          (hnames done c hpre)
    exact fun done hdone ↦ (hnamed done hdone).namesUnique (hlinked done) walk

/-- Gives its input back twice. -/
def twice : MimoTransform where
  State := Unit
  state := ()
  reset _ := ()
  outputKinds kinds := kinds.take 1 ++ kinds.take 1
  calculate _ t vs _ := ((), true, t, vs.take 1 ++ vs.take 1)

/-- A series on topic `1` of dataset `1`. -/
def seriesCalls : List DataEngine.Call :=
  [.createDataset true, .createTopic 1 { name := "speed" },
    .world (.topic 1 1 (.ensureColumn "value" .float64))]

/-- A name is given back and used again. -/
def nameReuse : List GraphCall :=
  [.addSisoTransform 1 "copy" 1 passThrough, .removeNode 1,
    .addMimoTransform [1] ["copy", "again"] 1 (some twice)]

theorem runGraph_namesUnique_nameReuse : ∃ d₀ : DerivedEngine,
    (start (.start fun _ ↦ [])).run oneEngine .plain (seriesCalls.map .data) = some d₀ ∧
      ∀ done, done <+: nameReuse → (d₀.runGraph .plain done).NamesUnique .plain := by
  have hsome : ((start (.start fun _ ↦ [])).run oneEngine .plain
      (seriesCalls.map .data)).isSome = true := by
    decide +kernel
  obtain ⟨d₀, hd₀⟩ := Option.isSome_iff_exists.mp hsome
  refine ⟨d₀, hd₀, (runGraph_namesUnique_iff hd₀ nameReuse).mpr fun done c hpre ↦ ?_⟩
  have hc : c ∈ nameReuse := hpre.subset (List.mem_append_right done (List.mem_singleton_self c))
  simp only [nameReuse, List.mem_cons, List.not_mem_nil, or_false] at hc
  rcases hc with rfl | rfl | rfl
  · trivial
  · trivial
  · exact fun _ _ ↦ by decide

def twoCopies : List GraphCall := [.addMimoTransform [1] ["copy", "copy"] 1 (some twice)]

/-- Two outputs of one node under one name: both topics are live, and the map has one of them. -/
theorem not_namesUnique : ∃ d₀ : DerivedEngine,
    (start (.start fun _ ↦ [])).run oneEngine .plain (seriesCalls.map .data) = some d₀ ∧
      ¬(d₀.runGraph .plain twoCopies).NamesUnique .plain := by
  have hkeys : ((start (.start fun _ ↦ [])).run oneEngine .plain (seriesCalls.map .data)).map
      (fun d ↦ (d.runGraph .plain twoCopies).liveOutputs.map
        (d.runGraph .plain twoCopies).data.topicKey) =
      some [some (1, "copy"), some (1, "copy")] := by
    decide +kernel
  obtain ⟨d₀, hd₀, hlive⟩ := Option.map_eq_some_iff.mp hkeys
  refine ⟨d₀, hd₀, fun h ↦ ?_⟩
  have hdistinct := h.distinct
  rw [hlive] at hdistinct
  exact absurd hdistinct (by decide)

end DerivedEngine

end PlotJuggler
