import PlotJugglerCore.Derived.Session
import PlotJugglerCore.Lib.Runs
import PlotJugglerCore.Lib.Tables
import PlotJugglerCore.Store.SeriesArrow

/-!
# Handles and the catalog of the plugin hosts

`plugin_data_host.cpp`: plugins make data sources and topics through cores, and a toolbox reads the
catalog of all there is. A core returns a handle for a name, which it takes from its own cache, from
a topic that somebody else has created in the meantime, or from a new topic. The catalog is three
flat tables, and a data source refers to a range of topics, a topic to a range of fields.

Many cores work on one engine, beside everybody who calls the engine itself and may create a second
topic with a name that is taken. Still a name stands for one topic at all times: the one that was
there first.
-/

namespace PlotJuggler

/-! ## Hosts -/

/-- `DatasetInfo` without its time domain. -/
structure DatasetInfo where
  id : ℕ
  sourceName : String
  topicIds : List ℕ := []
  deriving DecidableEq, Repr

/-- An engine with its map of datasets, and the `topic_cache_` of each core. -/
structure PluginHost where
  data : DataEngine
  infos : List DatasetInfo := []
  topicCaches : ℕ → List ((ℕ × String) × ℕ) := fun _ ↦ []

inductive PluginHostError
  | dataSourceNotFound (id : ℕ)
  | engine (e : DerivedError)
  deriving DecidableEq, Repr

/-- `std::sort`, of ids. -/
def sortIds (ids : List ℕ) : List ℕ := ids.insertionSort (· ≤ ·)

namespace PluginHost

def getDataset (H : PluginHost) (id : ℕ) : Option DatasetInfo := H.infos.find? (·.id = id)

def listDatasets (walk : WalkOrder) (H : PluginHost) : List ℕ := walk.arrange (H.infos.map (·.id))

def listTopics (H : PluginHost) (datasetId : ℕ) : List ℕ :=
  ((H.getDataset datasetId).map (·.topicIds)).getD []

def createDataset (H : PluginHost) (sourceName : String) (domainKnown : Bool) : PluginHost :=
  { H with
    data := H.data.createDataset domainKnown
    infos := if domainKnown then H.infos ++ [⟨H.data.nextDatasetId, sourceName, []⟩] else H.infos }

def createTopic (H : PluginHost) (walk : WalkOrder) (datasetId : ℕ) (desc : TopicDescriptor) :
    PluginHost × Except DerivedError ℕ :=
  match H.data.createTopic walk datasetId desc with
  | (data, .error e) => ({ H with data := data }, .error e)
  | (data, .ok τ) =>
    ({ H with
        data := data
        infos := H.infos.map fun info ↦
          if info.id = datasetId then { info with topicIds := info.topicIds ++ [τ] } else info },
      .ok τ)

/-! ### Cores -/

def createDataSource (H : PluginHost) (name : String) : PluginHost × ℕ :=
  (H.createDataset name true, H.data.nextDatasetId)

def cachedTopic (H : PluginHost) (core : ℕ) (key : ℕ × String) : Option ℕ :=
  ((H.topicCaches core).find? (·.1 = key)).map Prod.snd

/-- `topic_cache_.emplace`, of a key that is not there. -/
def cacheTopic (H : PluginHost) (core : ℕ) (key : ℕ × String) (τ : ℕ) : PluginHost :=
  { H with topicCaches := Function.update H.topicCaches core ((key, τ) :: H.topicCaches core) }

def ensureTopic (H : PluginHost) (walk : WalkOrder) (core source : ℕ) (topicName : String) :
    PluginHost × Except PluginHostError ℕ :=
  match H.getDataset source with
  | none => (H, .error (.dataSourceNotFound source))
  | some _ =>
    match H.cachedTopic core (source, topicName) with
    | some τ => (H, .ok τ)
    | none =>
      match (sortIds (H.listTopics source)).find? fun τ ↦
          (H.data.getTopicStorage τ).any (·.descriptor.name = topicName) with
      | some τ => (H.cacheTopic core (source, topicName) τ, .ok τ)
      | none =>
        match H.createTopic walk source { name := topicName } with
        | (H, .error e) => (H, .error (.engine e))
        | (H, .ok τ) => (H.cacheTopic core (source, topicName) τ, .ok τ)

/-! ### Calls -/

/-- Calls of the cores, and of everybody else. -/
inductive Call
  | createDataset (sourceName : String) (domainKnown : Bool)
  | createTopic (datasetId : ℕ) (desc : TopicDescriptor)
  | createDataSource (name : String)
  | ensureTopic (core source : ℕ) (topicName : String)
  | engine (c : DataEngine.Call)

/-- The call makes a dataset or a topic. -/
def IsListed : DataEngine.Call → Bool
  | .createDataset _ | .createTopic _ _ => true
  | _ => false

/-- Calls that are listed come with what the map of datasets needs of them. -/
def step (S : Setup) (walk : WalkOrder) (H : PluginHost) : Call → Option (PluginHost × Unit)
  | .createDataset sourceName domainKnown => some (H.createDataset sourceName domainKnown, ())
  | .createTopic datasetId desc => some ((H.createTopic walk datasetId desc).1, ())
  | .createDataSource name => some ((H.createDataSource name).1, ())
  | .ensureTopic core source topicName => some ((H.ensureTopic walk core source topicName).1, ())
  | .engine c =>
    if IsListed c then none else (H.data.step S walk c).map fun data ↦ ({ H with data := data }, ())

/-- A new data engine in some world. -/
def start (W : World) : PluginHost where
  data := { world := W.setEngine 0 (.create []) }

end PluginHost

/-! ## The catalog -/

structure FieldInfo where
  topic : ℕ
  id : ℕ
  name : String
  type : PrimitiveType
  deriving DecidableEq, Repr

structure TopicInfo where
  handle : ℕ
  source : ℕ
  name : String
  firstField : UInt32
  fieldCount : UInt32
  deriving DecidableEq, Repr

structure DataSourceInfo where
  handle : ℕ
  name : String
  firstTopic : UInt32
  topicCount : UInt32
  deriving DecidableEq, Repr

structure CatalogSnapshot where
  dataSources : List DataSourceInfo := []
  topics : List TopicInfo := []
  fields : List FieldInfo := []
  deriving DecidableEq, Repr

/-- The fields the host shows for a topic. -/
def DataEngine.fieldInfos (d : DataEngine) (τ : ℕ) (s : TopicStorage) : List FieldInfo :=
  (effectiveColumns (d.schemas.lookup s.descriptor.schemaId) s).map fun col ↦
    ⟨τ, col.fieldId, col.fieldPath, col.logicalType⟩

namespace CatalogSnapshot

/-- The body of the loop over the topics of a dataset. -/
def addTopic (d : DataEngine) (datasetId : ℕ) (s : CatalogSnapshot) (τ : ℕ) : CatalogSnapshot :=
  match d.getTopicStorage τ with
  | none => s
  | some storage =>
    let firstField := UInt32.ofNat s.fields.length
    let fields := s.fields ++ d.fieldInfos τ storage
    { s with
      fields := fields
      topics := s.topics ++ [{
        handle := τ
        source := datasetId
        name := storage.descriptor.name
        firstField := firstField
        fieldCount := UInt32.ofNat fields.length - firstField }] }

/-- The body of the loop over the datasets. -/
def addDataset (H : PluginHost) (s : CatalogSnapshot) (datasetId : ℕ) : CatalogSnapshot :=
  match H.getDataset datasetId with
  | none => s
  | some info =>
    let firstTopic := UInt32.ofNat s.topics.length
    let s := (sortIds (H.listTopics datasetId)).foldl (addTopic H.data datasetId) s
    { s with
      dataSources := s.dataSources ++ [{
        handle := datasetId
        name := info.sourceName
        firstTopic := firstTopic
        topicCount := UInt32.ofNat s.topics.length - firstTopic }] }

def topicRange (src : DataSourceInfo) : ℕ × ℕ := (src.firstTopic.toNat, src.topicCount.toNat)

def fieldRange (t : TopicInfo) : ℕ × ℕ := (t.firstField.toNat, t.fieldCount.toNat)

/-- The topics a data source refers to. -/
def topicsOf (s : CatalogSnapshot) (src : DataSourceInfo) : List TopicInfo :=
  Tables.slice s.topics (topicRange src)

/-- The fields a topic refers to. -/
def fieldsOf (s : CatalogSnapshot) (t : TopicInfo) : List FieldInfo :=
  Tables.slice s.fields (fieldRange t)

end CatalogSnapshot

def PluginHost.acquireCatalogSnapshot (walk : WalkOrder) (H : PluginHost) : CatalogSnapshot :=
  (sortIds (H.listDatasets walk)).foldl (CatalogSnapshot.addDataset H) {}

/-! ## Names -/

namespace DataEngine

variable {S : Setup} {walk : WalkOrder} {d d' : DataEngine} {τ : ℕ} {key : ℕ × String}

/-- The topics of a dataset, ascending. -/
def topicsIn (d : DataEngine) (datasetId : ℕ) : List ℕ :=
  (List.range d.nextTopicId).filter fun τ ↦ (d.topicKey τ).map Prod.fst = some datasetId

/-- The first topic with a dataset and a name. -/
def firstTopic (d : DataEngine) (key : ℕ × String) : Option ℕ :=
  (List.range d.nextTopicId).find? fun τ ↦ d.topicKey τ = some key

theorem topicKey_of_firstTopic (h : d.firstTopic key = some τ) : d.topicKey τ = some key := by
  simpa using List.find?_some h

/-- Topics come, and those that are there keep their dataset and their name. -/
structure Steady (d d' : DataEngine) : Prop where
  le : d.nextTopicId ≤ d'.nextTopicId
  topicKey : ∀ τ < d.nextTopicId, d'.topicKey τ = d.topicKey τ

theorem Steady.refl (d : DataEngine) : Steady d d := ⟨le_rfl, fun _ _ ↦ rfl⟩

theorem Steady.trans {d'' : DataEngine} (h : Steady d d') (h' : Steady d' d'') : Steady d d'' :=
  ⟨h.le.trans h'.le, fun τ hτ ↦ (h'.topicKey τ (hτ.trans_le h.le)).trans (h.topicKey τ hτ)⟩

theorem Keeps.steady (h : Keeps d d') : Steady d d' := ⟨h.le, fun _ hτ ↦ h.topicKey hτ⟩

theorem steady_of_topicKey (hnext : d'.nextTopicId = d.nextTopicId)
    (h : ∀ τ, d'.topicKey τ = d.topicKey τ) : Steady d d' :=
  ⟨hnext.ge, fun τ _ ↦ h τ⟩

/-- The first topic with a name stays the first. -/
theorem Steady.firstTopic (h : Steady d d') (hτ : d.firstTopic key = some τ) :
    d'.firstTopic key = some τ := by
  obtain ⟨k, hk⟩ := Nat.exists_eq_add_of_le h.le
  have hsame : (List.range d.nextTopicId).find? (fun σ ↦ d'.topicKey σ = some key) = some τ := by
    rw [← hτ, DataEngine.firstTopic]
    refine List.find?_congr fun σ hσ ↦ ?_
    rw [h.topicKey σ (List.mem_range.mp hσ)]
  rw [DataEngine.firstTopic, hk, List.range_add, List.find?_append, hsame]
  rfl

theorem topicKey_addTopic (hd : d.Below) (datasetId : ℕ) (desc : TopicDescriptor) :
    (d.addTopic walk datasetId desc).topicKey d.nextTopicId = some (datasetId, desc.name) := by
  rw [DataEngine.topicKey, getTopicStorage_addTopic hd, if_pos rfl]
  rfl

theorem topicsIn_addTopic (hd : d.Below) (datasetId σ : ℕ) (desc : TopicDescriptor) :
    (d.addTopic walk datasetId desc).topicsIn σ =
      d.topicsIn σ ++ if σ = datasetId then [d.nextTopicId] else [] := by
  have hkeeps := keeps_addTopic hd walk datasetId desc
  have hnext : (d.addTopic walk datasetId desc).nextTopicId = d.nextTopicId + 1 := rfl
  rw [topicsIn, hnext, List.range_succ, List.filter_append, topicsIn]
  congr 1
  · refine List.filter_congr fun τ hτ ↦ ?_
    rw [hkeeps.topicKey (List.mem_range.mp hτ)]
  · rw [List.filter_singleton, topicKey_addTopic hd]
    simp [eq_comm]

/-- A topic that is new is the first with its name if no other has it. -/
theorem firstTopic_addTopic (hd : d.Below) {datasetId : ℕ} {desc : TopicDescriptor}
    (hnone : d.firstTopic (datasetId, desc.name) = none) :
    (d.addTopic walk datasetId desc).firstTopic (datasetId, desc.name) = some d.nextTopicId := by
  have hkeeps := keeps_addTopic hd walk datasetId desc
  have hnext : (d.addTopic walk datasetId desc).nextTopicId = d.nextTopicId + 1 := rfl
  have hold : (List.range d.nextTopicId).find? (fun τ ↦
      (d.addTopic walk datasetId desc).topicKey τ = some (datasetId, desc.name)) = none := by
    rw [← hnone, firstTopic]
    refine List.find?_congr fun τ hτ ↦ ?_
    rw [hkeeps.topicKey (List.mem_range.mp hτ)]
  rw [firstTopic, hnext, List.range_succ, List.find?_append, hold]
  simp [topicKey_addTopic hd]

end DataEngine

namespace PluginHost

variable {S : Setup} {walk : WalkOrder} {W : World} {H H' : PluginHost} {core source τ : ℕ}
  {name : String}

/-- What holds between the calls: the map of datasets lists each topic under its dataset, and the
caches know the first topics only. -/
structure Sound (S : Setup) (H : PluginHost) : Prop where
  fits : H.data.world.Fits S
  housed : H.data.world.Housed S
  below : H.data.Below
  listed : H.infos.map (·.id) = H.data.datasets
  ascending : H.data.datasets.Pairwise (· < ·)
  fresh : ∀ id ∈ H.data.datasets, id < H.data.nextDatasetId
  known : ∀ τ key, H.data.topicKey τ = some key → key.1 ∈ H.data.datasets
  topicIds : ∀ info ∈ H.infos, info.topicIds = H.data.topicsIn info.id
  cached : ∀ core, ∀ p ∈ H.topicCaches core, H.data.firstTopic p.1 = some p.2

theorem sound_start (hW : W.Initial S) : (start W).Sound S where
  fits := (World.Initial.setEngine_create hW).fits
  housed w τ hb := absurd (hW.builder w τ) hb
  below τ hτ := by
    rw [start, DataEngine.engine, World.setEngine_self] at hτ
    exact absurd hτ List.not_mem_nil
  listed := rfl
  ascending := List.Pairwise.nil
  fresh _ h := absurd h List.not_mem_nil
  known τ key h := by
    rw [DataEngine.topicKey, DataEngine.getTopicStorage, start, DataEngine.engine,
      World.setEngine_self] at h
    cases h
  topicIds _ h := absurd h List.not_mem_nil
  cached _ _ h := absurd h List.not_mem_nil

theorem Sound.getDataset_eq_some (hH : H.Sound S) {info : DatasetInfo} {id : ℕ}
    (h : H.getDataset id = some info) : info ∈ H.infos ∧ info.id = id ∧ id ∈ H.data.datasets := by
  have hmem := List.mem_of_find?_eq_some h
  have hid : info.id = id := by simpa using List.find?_some h
  exact ⟨hmem, hid, by rw [← hH.listed, ← hid]; exact List.mem_map_of_mem hmem⟩

theorem Sound.exists_getDataset (hH : H.Sound S) {id : ℕ} (h : id ∈ H.data.datasets) :
    ∃ info, H.getDataset id = some info := by
  rw [← hH.listed] at h
  obtain ⟨info, hinfo, rfl⟩ := List.mem_map.mp h
  refine Option.isSome_iff_exists.mp ?_
  rw [getDataset, List.find?_isSome]
  exact ⟨info, hinfo, by simp⟩

theorem Sound.getDataset_of_mem (hH : H.Sound S) {info : DatasetInfo} (h : info ∈ H.infos) :
    H.getDataset info.id = some info := by
  have hid : info.id ∈ H.data.datasets := by
    rw [← hH.listed]
    exact List.mem_map_of_mem h
  obtain ⟨info', hinfo'⟩ := hH.exists_getDataset hid
  obtain ⟨hmem, hid, -⟩ := hH.getDataset_eq_some hinfo'
  have hnodup : (H.infos.map (·.id)).Nodup := hH.listed ▸ hH.ascending.imp fun h ↦ h.ne
  rw [hinfo', List.inj_on_of_nodup_map hnodup hmem h hid]

/-! ### Steps -/

/-- Calls that make neither a dataset nor a topic. -/
theorem Sound.setData (hH : H.Sound S) {d : DataEngine} (hfits : d.world.Fits S)
    (hhoused : d.world.Housed S) (hbelow : d.Below) (hdatasets : d.datasets = H.data.datasets)
    (hid : d.nextDatasetId = H.data.nextDatasetId) (hnext : d.nextTopicId = H.data.nextTopicId)
    (hkey : ∀ τ, d.topicKey τ = H.data.topicKey τ) : ({ H with data := d } : PluginHost).Sound S := by
  have hkeys : d.topicKey = H.data.topicKey := funext hkey
  refine ⟨hfits, hhoused, hbelow, hH.listed.trans hdatasets.symm, hdatasets ▸ hH.ascending, ?_, ?_,
    ?_, fun core p hp ↦ (DataEngine.steady_of_topicKey hnext hkey).firstTopic (hH.cached core p hp)⟩
  · intro id h
    rw [hid]
    exact hH.fresh id (hdatasets ▸ h)
  · intro τ key h
    rw [hdatasets]
    exact hH.known τ key (hkey τ ▸ h)
  · intro info hinfo
    rw [hH.topicIds info hinfo, DataEngine.topicsIn, DataEngine.topicsIn, hnext, hkeys]

theorem sound_createDataset (hH : H.Sound S) (sourceName : String) (domainKnown : Bool) :
    (H.createDataset sourceName domainKnown).Sound S := by
  have hfresh : ∀ id ∈ H.data.datasets, id < H.data.nextDatasetId + 1 :=
    fun id h ↦ Nat.lt_succ_of_lt (hH.fresh id h)
  rcases domainKnown with _ | _
  · exact ⟨hH.fits, hH.housed, hH.below, hH.listed, hH.ascending, hfresh, hH.known, hH.topicIds,
      hH.cached⟩
  · refine ⟨hH.fits, hH.housed, hH.below, ?_, ?_, ?_, fun τ key h ↦ ?_, ?_, hH.cached⟩
    · show (H.infos ++ [_]).map DatasetInfo.id = H.data.datasets ++ [_]
      rw [List.map_append, hH.listed]
      rfl
    · refine List.pairwise_append.mpr ⟨hH.ascending, List.pairwise_singleton _ _, ?_⟩
      rintro id hid _ hnew
      rw [List.mem_singleton.mp hnew]
      exact hH.fresh id hid
    · intro id hid
      rcases List.mem_append.mp hid with hid | hid
      · exact hfresh id hid
      · exact List.mem_singleton.mp hid ▸ Nat.lt_succ_self _
    · exact List.mem_append_left _ (hH.known τ key h)
    · intro info hinfo
      rcases List.mem_append.mp hinfo with hinfo | hinfo
      · exact hH.topicIds info hinfo
      · -- no topic is in a dataset that is new
        obtain rfl := List.mem_singleton.mp hinfo
        symm
        refine List.filter_eq_nil_iff.mpr fun τ _ hτ ↦ ?_
        obtain ⟨key, hkey, hid⟩ := Option.map_eq_some_iff.mp (of_decide_eq_true hτ)
        exact absurd (hH.fresh _ (hH.known τ key hkey)) (hid ▸ Nat.lt_irrefl _)

/-- Before a step and behind it. -/
structure Advances (S : Setup) (H H' : PluginHost) : Prop where
  sound : H'.Sound S
  steady : H.data.Steady H'.data

theorem Advances.refl (hH : H.Sound S) : Advances S H H := ⟨hH, .refl _⟩

/-- The engine behind a topic that is new. -/
theorem Sound.addTopic (hH : H.Sound S) (walk : WalkOrder) {datasetId : ℕ}
    (hknown : datasetId ∈ H.data.datasets) (desc : TopicDescriptor) : Sound S
      { H with
        data := H.data.addTopic walk datasetId desc
        infos := H.infos.map fun info ↦
          if info.id = datasetId then
            { info with topicIds := info.topicIds ++ [H.data.nextTopicId] }
          else info } := by
  have hkeeps := DataEngine.keeps_addTopic hH.below walk datasetId desc
  have hids : ∀ info : DatasetInfo, (if info.id = datasetId then
      { info with topicIds := info.topicIds ++ [H.data.nextTopicId] } else info).id = info.id := by
    intro info
    split_ifs <;> rfl
  refine ⟨?_, ?_, (DataEngine.extends_addTopic walk datasetId desc).below hH.below, ?_,
    hH.ascending, hH.fresh, fun τ key h ↦ ?_, fun info hinfo ↦ ?_,
    fun core p hp ↦ hkeeps.steady.firstTopic (hH.cached core p hp)⟩
  · exact DataEngine.fits_addTopic hH.fits hH.housed datasetId desc
  · exact DataEngine.housed_addTopic hH.housed datasetId desc
  · rw [List.map_map, ← hH.listed.trans hkeeps.datasets.symm]
    exact List.map_congr_left fun info _ ↦ hids info
  · show key.1 ∈ H.data.datasets
    rw [DataEngine.topicKey, DataEngine.getTopicStorage_addTopic hH.below] at h
    split_ifs at h
    · obtain rfl := Option.some.inj h
      exact hknown
    · exact hH.known τ key h
  · obtain ⟨info, hmem, rfl⟩ := List.mem_map.mp hinfo
    rw [hids, DataEngine.topicsIn_addTopic hH.below]
    split_ifs
    · exact congrArg (· ++ _) (hH.topicIds info hmem)
    · rw [List.append_nil]
      exact hH.topicIds info hmem

theorem advances_createTopic (hH : H.Sound S) (walk : WalkOrder) (datasetId : ℕ)
    (desc : TopicDescriptor) : Advances S H (H.createTopic walk datasetId desc).1 := by
  rw [createTopic, DataEngine.createTopic]
  split_ifs with hknown
  · exact .refl hH
  · exact ⟨hH.addTopic walk hknown desc,
      (DataEngine.keeps_addTopic hH.below walk datasetId desc).steady⟩
  · exact .refl hH

/-- What a core finds in the engine. -/
theorem Sound.find_listTopics (hH : H.Sound S) (hknown : source ∈ H.data.datasets) :
    ((sortIds (H.listTopics source)).find? fun τ ↦
      (H.data.getTopicStorage τ).any (·.descriptor.name = name))
        = H.data.firstTopic (source, name) := by
  obtain ⟨info, hinfo⟩ := hH.exists_getDataset hknown
  obtain ⟨hmem, rfl, -⟩ := hH.getDataset_eq_some hinfo
  have hascending : (H.data.topicsIn info.id).Pairwise (· ≤ ·) :=
    List.pairwise_le_range.sublist List.filter_sublist
  have hlist : H.listTopics info.id = H.data.topicsIn info.id := by
    rw [listTopics, hinfo, ← hH.topicIds info hmem]
    rfl
  rw [hlist, sortIds, hascending.insertionSort_eq, DataEngine.topicsIn, List.find?_filter,
    DataEngine.firstTopic]
  refine List.find?_congr fun τ _ ↦ ?_
  rw [DataEngine.topicKey]
  rcases H.data.getTopicStorage τ with _ | s
  · rfl
  · simp [Prod.ext_iff]

theorem Sound.cacheTopic (hH : H.Sound S) {key : ℕ × String}
    (h : H.data.firstTopic key = some τ) : (H.cacheTopic core key τ).Sound S := by
  refine { hH with cached := fun core' p hp ↦ ?_ }
  change p ∈ Function.update H.topicCaches core ((key, τ) :: H.topicCaches core) core' at hp
  by_cases hcore : core' = core
  · subst hcore
    rw [Function.update_self] at hp
    rcases List.mem_cons.mp hp with rfl | hp
    · exact h
    · exact hH.cached core' p hp
  · rw [Function.update_of_ne hcore] at hp
    exact hH.cached core' p hp

/-- A core returns the first topic with the name, and there is one then. -/
theorem ensureTopic_spec (hH : H.Sound S) (walk : WalkOrder) (core source : ℕ) (name : String) :
    (source ∉ H.data.datasets ∧
      H.ensureTopic walk core source name = (H, .error (.dataSourceNotFound source))) ∨
    ∃ H' τ, H.ensureTopic walk core source name = (H', .ok τ) ∧ Advances S H H' ∧
      H'.data.firstTopic (source, name) = some τ := by
  rw [ensureTopic]
  split
  · rename_i hnone
    refine .inl ⟨fun hknown ↦ ?_, rfl⟩
    obtain ⟨info, hinfo⟩ := hH.exists_getDataset hknown
    exact Option.some_ne_none info (hinfo.symm.trans hnone)
  · rename_i info hinfo
    obtain ⟨-, -, hknown⟩ := hH.getDataset_eq_some hinfo
    right
    split
    · -- from the cache
      rename_i τ hτ
      obtain ⟨p, hp, rfl⟩ := Option.map_eq_some_iff.mp hτ
      have hkey : p.1 = (source, name) := by simpa using List.find?_some hp
      exact ⟨H, p.2, rfl, .refl hH, hkey ▸ hH.cached core p (List.mem_of_find?_eq_some hp)⟩
    · rw [hH.find_listTopics hknown]
      split
      · -- from the engine
        rename_i τ hτ
        exact ⟨_, τ, rfl, ⟨hH.cacheTopic hτ, .refl _⟩, hτ⟩
      · -- a topic that is new
        rename_i hnone
        have hfirst : (H.data.addTopic walk source { name := name }).firstTopic (source, name)
            = some H.data.nextTopicId := DataEngine.firstTopic_addTopic hH.below hnone
        have hadd := hH.addTopic walk hknown { name := name }
        rw [createTopic, DataEngine.createTopic, if_neg (not_not_intro hknown),
          if_neg fun h ↦ h.1 rfl]
        exact ⟨_, _, rfl, ⟨hadd.cacheTopic hfirst,
          (DataEngine.keeps_addTopic hH.below walk source _).steady⟩, hfirst⟩

/-- Calls of the engine that make nothing. -/
theorem advances_engine (hH : H.Sound S) {c : DataEngine.Call} (hc : IsListed c = false)
    {d : DataEngine} (h : H.data.step S walk c = some d) :
    Advances S H { H with data := d } := by
  have hbelow := (DataEngine.extends_step h).below hH.below
  rcases c with c | _ | _ | ⟨schemaName, tree⟩ | ⟨schemaName, tree⟩ | ⟨id, tree⟩
  · obtain ⟨⟨W, out⟩, hstep, rfl⟩ := Option.map_eq_some_iff.mp h
    have hfits : H.data.world.Fits (H.data.outerSetup S) := hH.fits
    have hhoused : H.data.world.Housed (H.data.outerSetup S) := hH.housed
    obtain ⟨hdesc, hfits'⟩ := World.step_keeps hfits hstep
    have hkey : ∀ τ, ({ H.data with world := W } : DataEngine).topicKey τ = H.data.topicKey τ := by
      intro τ
      have hτ := congrArg (Option.map fun d : TopicDescriptor ↦ (d.datasetId, d.name))
        (congrFun (hdesc 0) τ)
      rwa [Engine.descriptor, Engine.descriptor, Option.map_map, Option.map_map] at hτ
    have hhoused' : W.Housed (H.data.outerSetup S) := World.housed_step hhoused hstep
    exact ⟨hH.setData hfits' hhoused' hbelow rfl rfl rfl hkey,
      DataEngine.steady_of_topicKey rfl hkey⟩
  · cases hc
  · cases hc
  all_goals
    obtain rfl := Option.some.inj h
    exact ⟨hH.setData hH.fits hH.housed hbelow rfl rfl rfl fun _ ↦ rfl,
      DataEngine.steady_of_topicKey rfl fun _ ↦ rfl⟩

theorem advances_step (hH : H.Sound S) {c : Call} {out : Unit}
    (h : H.step S walk c = some (H', out)) : Advances S H H' := by
  have hsame : ∀ sourceName domainKnown,
      H.data.Steady (H.createDataset sourceName domainKnown).data :=
    fun _ _ ↦ DataEngine.steady_of_topicKey rfl fun _ ↦ rfl
  rcases c with ⟨sourceName, domainKnown⟩ | ⟨datasetId, desc⟩ | sourceName | ⟨core, source, name⟩ | c
  · obtain rfl := congrArg Prod.fst (Option.some.inj h)
    exact ⟨sound_createDataset hH sourceName domainKnown, hsame sourceName domainKnown⟩
  · obtain rfl := congrArg Prod.fst (Option.some.inj h)
    exact advances_createTopic hH walk datasetId desc
  · obtain rfl := congrArg Prod.fst (Option.some.inj h)
    exact ⟨sound_createDataset hH sourceName true, hsame sourceName true⟩
  · obtain rfl := congrArg Prod.fst (Option.some.inj h)
    rcases ensureTopic_spec hH walk core source name with ⟨-, heq⟩ | ⟨H₁, τ, heq, hadv, -⟩
    · rw [heq]
      exact .refl hH
    · rw [heq]
      exact hadv
  · rw [step] at h
    split_ifs at h with hc
    obtain ⟨d, hd, heq⟩ := Option.map_eq_some_iff.mp h
    obtain ⟨rfl, -⟩ := Prod.mk.inj heq
    exact advances_engine hH (Bool.eq_false_of_not_eq_true hc) hd

theorem Advances.run (hH : H.Sound S) {calls : List Call}
    (h : Runs.run (step S walk) H calls = some H') : Advances S H H' := by
  induction calls generalizing H with
  | nil =>
    obtain rfl := Option.some.inj h
    exact .refl hH
  | cons c calls ih =>
    obtain ⟨⟨H₁, out⟩, hstep, hrest⟩ := Option.bind_eq_some_iff.mp h
    have hfirst := advances_step hH hstep
    have hlater := ih hfirst.sound hrest
    exact ⟨hlater.sound, hfirst.steady.trans hlater.steady⟩

/-- Whatever happens after a core has returned a handle for a name, every core returns that handle for
the same name, and for no other. -/
theorem run_ensureTopic (hinit : W.Initial S) {calls calls' : List Call} {H₁ H₂ : PluginHost}
    (h : Runs.run (step S walk) (start W) calls = some H) {core' source' : ℕ} {name' : String}
    (hfirst : H.ensureTopic walk core source name = (H₁, .ok τ))
    (hlater : Runs.run (step S walk) H₁ calls' = some H₂) :
    ((H₂.ensureTopic walk core' source' name').2 = .ok τ ↔ source' = source ∧ name' = name) ∧
      (H₂.ensureTopic walk core' source' name').1.data.topicKey τ = some (source, name) := by
  have hH : H.Sound S := (Advances.run (sound_start hinit) h).sound
  rcases ensureTopic_spec hH walk core source name with ⟨-, heq⟩ | ⟨_, _, heq, hadv₁, hτ⟩
  · cases hfirst.symm.trans heq
  obtain ⟨rfl, hok⟩ := Prod.mk.inj (heq.symm.trans hfirst)
  obtain rfl := Except.ok.inj hok
  have hadv₂ := Advances.run hadv₁.sound hlater
  have hkept := hadv₂.steady.firstTopic hτ
  have hkey := DataEngine.topicKey_of_firstTopic hkept
  rcases ensureTopic_spec hadv₂.sound walk core' source' name' with
    ⟨hunknown, heq'⟩ | ⟨H₃, τ', heq', hadv₃, hτ'⟩
  · -- the data source of the first call is still there
    rw [heq']
    refine ⟨⟨fun herror ↦ (by cases herror), ?_⟩, hkey⟩
    rintro ⟨rfl, rfl⟩
    exact absurd (hadv₂.sound.known _ _ hkey) hunknown
  · -- both are the first topics with their names
    rw [heq']
    have hkept' := hadv₃.steady.firstTopic hkept
    have hkey' := DataEngine.topicKey_of_firstTopic hkept'
    refine ⟨⟨fun hok ↦ ?_, ?_⟩, hkey'⟩
    · obtain rfl := Except.ok.inj hok
      have hkeys := (DataEngine.topicKey_of_firstTopic hτ').symm.trans hkey'
      exact Prod.mk.inj (Option.some.inj hkeys)
    · rintro ⟨rfl, rfl⟩
      exact congrArg Except.ok (Option.some.inj (hτ'.symm.trans hkept'))

/-- Somebody takes the name once more, and another core makes a topic of its own. -/
def takenTwice : List Call := [.createTopic 1 { name := "imu" }, .ensureTopic 1 1 "odom"]

theorem run_ensureTopic_takenTwice : ∃ H H₁ H₂,
    Runs.run (step DerivedEngine.oneEngine .plain) (start (.start fun _ ↦ [])) [.createDataSource "robot"]
        = some H ∧
      H.ensureTopic .plain 0 1 "imu" = (H₁, .ok 1) ∧
      Runs.run (step DerivedEngine.oneEngine .plain) H₁ takenTwice = some H₂ ∧
      (H₂.ensureTopic .plain 1 1 "imu").2 = .ok 1 ∧ (H₂.ensureTopic .plain 1 1 "odom").2 ≠ .ok 1 := by
  have hcalls : ((Runs.run (step DerivedEngine.oneEngine .plain) (start (.start fun _ ↦ []))
      [.createDataSource "robot"]).bind fun H ↦
        (Runs.run (step DerivedEngine.oneEngine .plain) (H.ensureTopic .plain 0 1 "imu").1 takenTwice).map
          fun _ ↦ (H.ensureTopic .plain 0 1 "imu").2)
      = some (.ok 1) := by
    decide +kernel
  obtain ⟨H, hrun, hrest⟩ := Option.bind_eq_some_iff.mp hcalls
  obtain ⟨H₂, hlater, hok⟩ := Option.map_eq_some_iff.mp hrest
  have hfirst : H.ensureTopic .plain 0 1 "imu" = (_, .ok 1) := Prod.ext rfl hok
  have hsecond : ∀ name' : String,
      (H₂.ensureTopic .plain 1 1 name').2 = .ok 1 ↔ 1 = 1 ∧ name' = "imu" :=
    fun name' ↦ (run_ensureTopic (World.start_initial _) hrun hfirst hlater).1
  exact ⟨H, _, H₂, hrun, hfirst, hlater, (hsecond "imu").mpr ⟨rfl, rfl⟩,
    fun hsame ↦ absurd ((hsecond "odom").mp hsame).2 (by decide)⟩

end PluginHost

/-! ## What the catalog shows -/

structure CatalogTopic where
  handle : ℕ
  source : ℕ
  name : String
  fields : List FieldInfo

structure CatalogSource where
  handle : ℕ
  name : String
  topics : List CatalogTopic

def DataEngine.catalogTopic (d : DataEngine) (τ : ℕ) : Option CatalogTopic :=
  (d.getTopicStorage τ).map fun s ↦
    ⟨τ, s.descriptor.datasetId, s.descriptor.name, d.fieldInfos τ s⟩

def PluginHost.catalogSource (H : PluginHost) (info : DatasetInfo) : CatalogSource :=
  ⟨info.id, info.sourceName, (H.data.topicsIn info.id).filterMap H.data.catalogTopic⟩

/-- All there is: data sources, topics and fields, in the order they were made. -/
def PluginHost.catalog (H : PluginHost) : List CatalogSource := H.infos.map H.catalogSource

namespace CatalogSnapshot

/-- A topic as it is read from the tables. -/
def topicOf (s : CatalogSnapshot) (t : TopicInfo) : CatalogTopic :=
  ⟨t.handle, t.source, t.name, s.fieldsOf t⟩

def sourceOf (s : CatalogSnapshot) (src : DataSourceInfo) : CatalogSource :=
  ⟨src.handle, src.name, (s.topicsOf src).map s.topicOf⟩

/-- Read from the tables, the snapshot is the catalog. The ranges tile the tables, and each topic of
the engine is there once. -/
structure Describes (s : CatalogSnapshot) (H : PluginHost) : Prop where
  catalog : s.dataSources.map s.sourceOf = H.catalog
  topics : s.topics = s.dataSources.flatMap s.topicsOf
  fields : s.fields = s.topics.flatMap s.fieldsOf
  complete : (s.topics.map (·.handle)).Perm H.data.engine.order

/-- Positions in the tables fit in 32 bits. -/
def Small (s : CatalogSnapshot) : Prop := s.topics.length < 2 ^ 32 ∧ s.fields.length < 2 ^ 32

instance (s : CatalogSnapshot) : Decidable s.Small := inferInstanceAs (Decidable (_ ∧ _))

/-- A snapshot with the data sources `done` and, behind them, the topics `current` of one that is
not entered yet. -/
structure Draft (s : CatalogSnapshot) (done : List CatalogSource) (current : List CatalogTopic) :
    Prop where
  sources : s.dataSources.map (fun src ↦ (src.handle, src.name))
    = done.map fun src ↦ (src.handle, src.name)
  blocks : ∃ blocks open', Tables.Shows topicRange s.topics s.dataSources blocks open' ∧
    blocks.map List.length = done.map (·.topics.length)
  topics : s.topics.map (fun t ↦ (t.handle, t.source, t.name))
    = (done.flatMap (·.topics) ++ current).map fun t ↦ (t.handle, t.source, t.name)
  fields : Tables.Shows fieldRange s.fields s.topics
    ((done.flatMap (·.topics) ++ current).map (·.fields)) []

variable {s : CatalogSnapshot} {done : List CatalogSource} {current : List CatalogTopic}
  {d : DataEngine} {datasetId τ : ℕ}

theorem draft_nil : Draft {} [] [] :=
  ⟨rfl, ⟨[], [], Tables.shows_nil _ _, rfl⟩, rfl, Tables.shows_nil _ _⟩

theorem Draft.length_topics (h : Draft s done current) :
    s.topics.length = (done.flatMap (·.topics)).length + current.length := by
  have hlength := congrArg List.length h.topics
  rwa [List.length_map, List.length_map, List.length_append] at hlength

theorem toNat_sub_ofNat {a b : ℕ} (hab : a ≤ b) (hb : b < 2 ^ 32) :
    ((UInt32.ofNat a).toNat, (UInt32.ofNat b - UInt32.ofNat a).toNat) = (a, b - a) := by
  have ha : (UInt32.ofNat a).toNat = a := UInt32.toNat_ofNat_of_lt' (lt_of_le_of_lt hab hb)
  have hb' : (UInt32.ofNat b).toNat = b := UInt32.toNat_ofNat_of_lt' hb
  rw [UInt32.toNat_sub_of_le _ _ (UInt32.le_iff_toNat_le.mpr (by rwa [ha, hb'])), ha, hb']

/-! ### One topic -/

theorem addTopic_of_some {storage : TopicStorage} (h : d.getTopicStorage τ = some storage) :
    addTopic d datasetId s τ =
      { s with
        fields := s.fields ++ d.fieldInfos τ storage
        topics := s.topics ++ [⟨τ, datasetId, storage.descriptor.name, .ofNat s.fields.length,
          .ofNat (s.fields ++ d.fieldInfos τ storage).length - .ofNat s.fields.length⟩] } := by
  rw [addTopic, h]

/-- Tables only grow. -/
theorem Small.of_addTopic (h : (addTopic d datasetId s τ).Small) : s.Small := by
  rcases hτ : d.getTopicStorage τ with _ | storage
  · rwa [addTopic, hτ] at h
  · rw [addTopic_of_some hτ, Small, List.length_append, List.length_append] at h
    exact ⟨by omega, by omega⟩

theorem Draft.addTopic (h : Draft s done current) (hkey : (d.topicKey τ).map Prod.fst = some datasetId)
    (hsmall : (addTopic d datasetId s τ).Small) :
    Draft (addTopic d datasetId s τ) done (current ++ (d.catalogTopic τ).toList) := by
  rw [DataEngine.topicKey, Option.map_map] at hkey
  obtain ⟨storage, hstorage, rfl⟩ := Option.map_eq_some_iff.mp hkey
  have hfields := (h.fields.append (d.fieldInfos τ storage)).close
    (i := ⟨τ, storage.descriptor.datasetId, storage.descriptor.name, .ofNat s.fields.length,
      .ofNat (s.fields ++ d.fieldInfos τ storage).length - .ofNat s.fields.length⟩)
  rw [addTopic_of_some hstorage] at hsmall ⊢
  obtain ⟨blocks, rest, hshows, hblocks⟩ := h.blocks
  rw [DataEngine.catalogTopic, hstorage]
  refine ⟨h.sources, ⟨blocks, _, hshows.append _, hblocks⟩, ?_, ?_⟩
  · dsimp only
    rw [← List.append_assoc, List.map_append, List.map_append, h.topics]
    rfl
  · dsimp only
    rw [← List.append_assoc, List.map_append]
    refine hfields ?_
    have hflat := congrArg List.length h.fields.table
    rw [List.append_nil] at hflat
    rw [fieldRange, toNat_sub_ofNat (by rw [List.length_append]; exact Nat.le_add_right _ _)
      hsmall.2, List.length_append, Nat.add_sub_cancel_left, ← hflat, List.nil_append]

theorem draft_foldl_addTopic (τs : List ℕ)
    (hkeys : ∀ τ ∈ τs, (d.topicKey τ).map Prod.fst = some datasetId) (h : s.Small → Draft s done current)
    (hsmall : (τs.foldl (addTopic d datasetId) s).Small) :
    Draft (τs.foldl (addTopic d datasetId) s) done (current ++ τs.filterMap d.catalogTopic) := by
  induction τs generalizing s current with
  | nil => simpa using h hsmall
  | cons τ τs ih =>
    obtain ⟨hτ, hrest⟩ := List.forall_mem_cons.mp hkeys
    have hfirst := ih hrest (fun hsmall' ↦ (h hsmall'.of_addTopic).addTopic hτ hsmall') hsmall
    rw [List.filterMap_eq_flatMap_toList, List.flatMap_cons, ← List.append_assoc,
      ← List.filterMap_eq_flatMap_toList]
    exact hfirst

theorem Small.of_foldl_addTopic {τs : List ℕ} (h : (τs.foldl (addTopic d datasetId) s).Small) :
    s.Small := by
  induction τs generalizing s with
  | nil => exact h
  | cons τ τs ih => exact (ih h).of_addTopic

/-! ### One data source -/

variable {S : Setup} {H : PluginHost} {info : DatasetInfo}

/-- A data source is entered behind its topics. -/
theorem Draft.close (h : Draft s done current) {id : ℕ} {name : String} {k : ℕ}
    (hk : k = (done.flatMap (·.topics)).length) (hsmall : s.topics.length < 2 ^ 32) :
    Draft
      { s with dataSources := s.dataSources ++
          [⟨id, name, .ofNat k, .ofNat s.topics.length - .ofNat k⟩] }
      (done ++ [⟨id, name, current⟩]) [] := by
  obtain ⟨blocks, rest, hshows, hblocks⟩ := h.blocks
  have hdone : blocks.flatten.length = k := by
    rw [List.length_flatten, hblocks, hk, List.length_flatMap]
  have hrest : rest.length = current.length := by
    have htable := congrArg List.length hshows.table
    rw [List.length_append, hdone, hk, h.length_topics] at htable
    omega
  have hall : (done ++ [(⟨id, name, current⟩ : CatalogSource)]).flatMap (·.topics) ++ []
      = done.flatMap (·.topics) ++ current := by
    rw [List.append_nil, List.flatMap_append, List.flatMap_singleton]
  refine ⟨?_, ⟨blocks ++ [rest], [], hshows.close ?_, ?_⟩, ?_, ?_⟩
  · rw [List.map_append, List.map_append, h.sources]
    rfl
  · rw [topicRange, toNat_sub_ofNat (by rw [h.length_topics, hk]; exact Nat.le_add_right _ _) hsmall,
      hdone, hrest, h.length_topics, hk, Nat.add_sub_cancel_left]
  · rw [List.map_append, List.map_append, hblocks, List.map_singleton, hrest]
    rfl
  · rw [hall]
    exact h.topics
  · rw [hall]
    exact h.fields

theorem sortIds_topicIds (hH : H.Sound S) (hinfo : info ∈ H.infos) :
    sortIds (H.listTopics info.id) = H.data.topicsIn info.id := by
  have hascending : (H.data.topicsIn info.id).Pairwise (· ≤ ·) :=
    List.pairwise_le_range.sublist List.filter_sublist
  rw [PluginHost.listTopics, hH.getDataset_of_mem hinfo, Option.map_some, Option.getD_some,
    hH.topicIds info hinfo, sortIds, hascending.insertionSort_eq]

theorem addDataset_eq (hH : H.Sound S) (hinfo : info ∈ H.infos) (s : CatalogSnapshot) :
    addDataset H s info.id =
      let s' := (H.data.topicsIn info.id).foldl (addTopic H.data info.id) s
      { s' with dataSources := s'.dataSources ++ [⟨info.id, info.sourceName,
          .ofNat s.topics.length, .ofNat s'.topics.length - .ofNat s.topics.length⟩] } := by
  rw [addDataset, hH.getDataset_of_mem hinfo, sortIds_topicIds hH hinfo]

theorem Small.of_addDataset (hH : H.Sound S) (hinfo : info ∈ H.infos)
    (h : (addDataset H s info.id).Small) : s.Small := by
  rw [addDataset_eq hH hinfo] at h
  exact Small.of_foldl_addTopic h

theorem Draft.addDataset (hH : H.Sound S) (hinfo : info ∈ H.infos) (h : Draft s done [])
    (hsmall : (addDataset H s info.id).Small) :
    Draft (addDataset H s info.id) (done ++ [H.catalogSource info]) [] := by
  rw [addDataset_eq hH hinfo] at hsmall ⊢
  have hkeys : ∀ τ ∈ H.data.topicsIn info.id, (H.data.topicKey τ).map Prod.fst = some info.id :=
    fun τ hτ ↦ of_decide_eq_true (List.mem_filter.mp hτ).2
  exact (draft_foldl_addTopic _ hkeys (fun _ ↦ h) hsmall).close (by simpa using h.length_topics)
    hsmall.1

theorem draft_foldl_addDataset (hH : H.Sound S) (infos : List DatasetInfo)
    (hinfos : ∀ info ∈ infos, info ∈ H.infos) (h : s.Small → Draft s done [])
    (hsmall : ((infos.map (·.id)).foldl (CatalogSnapshot.addDataset H) s).Small) :
    Draft ((infos.map (·.id)).foldl (CatalogSnapshot.addDataset H) s)
      (done ++ infos.map H.catalogSource) [] := by
  induction infos generalizing s done with
  | nil => simpa using h hsmall
  | cons info infos ih =>
    obtain ⟨hinfo, hrest⟩ := List.forall_mem_cons.mp hinfos
    have hfirst := ih hrest
      (fun hsmall' ↦ (h (hsmall'.of_addDataset hH hinfo)).addDataset hH hinfo hsmall') hsmall
    rwa [List.append_assoc] at hfirst

/-! ### The whole snapshot -/

theorem Draft.map_topicOf (h : Draft s done []) :
    s.topics.map s.topicOf = done.flatMap (·.topics) := by
  have hnames := h.topics
  have hfields := h.fields.read
  rw [List.append_nil] at hnames hfields
  have hzip := congrArg₂ List.zip hnames hfields
  rw [List.zip_map', List.zip_map'] at hzip
  have hcatalog := congrArg (List.map fun p : (ℕ × ℕ × String) × List FieldInfo ↦
    CatalogTopic.mk p.1.1 p.1.2.1 p.1.2.2 p.2) hzip
  rw [List.map_map, List.map_map] at hcatalog
  exact hcatalog.trans (List.map_id _)

/-- With no source in the making the blocks are the whole table. -/
theorem Draft.exists_blocks (h : Draft s done []) :
    ∃ blocks, Tables.Shows topicRange s.topics s.dataSources blocks [] ∧
      blocks.map List.length = done.map (·.topics.length) := by
  obtain ⟨blocks, rest, hshows, hblocks⟩ := h.blocks
  have hrest : rest = [] := by
    have htable := congrArg List.length hshows.table
    rw [List.length_append, List.length_flatten, hblocks, ← List.length_flatMap, h.length_topics]
      at htable
    exact List.length_eq_zero_iff.mp (by simpa using htable)
  exact ⟨blocks, hrest ▸ hshows, hblocks⟩

theorem Draft.map_sourceOf (h : Draft s done []) : s.dataSources.map s.sourceOf = done := by
  obtain ⟨blocks, hshows, hblocks⟩ := h.exists_blocks
  -- the blocks are cut from the topics as the topics of the sources are
  have htopics : blocks.map (List.map s.topicOf) = done.map (·.topics) := by
    refine List.eq_iff_flatten_eq.mpr ⟨?_, ?_⟩
    · rw [← List.map_flatten, ← List.append_nil blocks.flatten, ← hshows.table, h.map_topicOf]
      rfl
    · rw [List.map_map, List.map_map]
      exact Eq.trans (List.map_congr_left fun _ _ ↦ List.length_map _) hblocks
  have hread : s.dataSources.map (fun src ↦ (s.topicsOf src).map s.topicOf) = done.map (·.topics) := by
    rw [← htopics, ← hshows.read, List.map_map]
    rfl
  have hzip := congrArg₂ List.zip h.sources hread
  rw [List.zip_map', List.zip_map'] at hzip
  have hcatalog := congrArg (List.map fun p : (ℕ × String) × List CatalogTopic ↦
    CatalogSource.mk p.1.1 p.1.2 p.2) hzip
  rw [List.map_map, List.map_map] at hcatalog
  exact hcatalog.trans (List.map_id _)

theorem sortIds_listDatasets (hH : H.Sound S) (walk : WalkOrder) :
    sortIds (H.listDatasets walk) = H.infos.map (·.id) := by
  have hperm : (sortIds (H.listDatasets walk)).Perm (H.infos.map (·.id)) :=
    (List.perm_insertionSort _ _).trans (walk.perm _)
  refine hperm.eq_of_pairwise' (List.pairwise_insertionSort _ _) ?_
  rw [hH.listed]
  exact hH.ascending.imp fun h ↦ h.le

/-- Datasets and topics, once each. -/
theorem perm_flatMap_topicsIn (hH : H.Sound S) :
    (H.infos.flatMap fun info ↦ H.data.topicsIn info.id).Perm H.data.engine.order := by
  have hmem : ∀ τ id, τ ∈ H.data.topicsIn id ↔ (H.data.topicKey τ).map Prod.fst = some id := by
    intro τ id
    rw [DataEngine.topicsIn, List.mem_filter, List.mem_range, decide_eq_true_eq, and_iff_right_iff_imp]
    intro h
    obtain ⟨key, hkey, -⟩ := Option.map_eq_some_iff.mp h
    obtain ⟨storage, hstorage, -⟩ := Option.map_eq_some_iff.mp hkey
    exact hH.below.lt_of_getTopicStorage hstorage
  refine (List.perm_ext_iff_of_nodup (List.nodup_flatMap.mpr ⟨?_, ?_⟩) H.data.engine.nodup).mpr ?_
  · exact fun info _ ↦ List.nodup_range.filter _
  · have hlt : (H.infos.map (·.id)).Pairwise (· < ·) := hH.listed ▸ hH.ascending
    have hids : H.infos.Pairwise fun a b ↦ a.id ≠ b.id :=
      (List.pairwise_map.mp hlt).imp fun h ↦ h.ne
    refine hids.imp fun {a b} hne τ ha hb ↦ hne ?_
    exact Option.some.inj (((hmem τ _).mp ha).symm.trans ((hmem τ _).mp hb))
  · intro τ
    rw [List.mem_flatMap, H.data.engine.mem_order]
    constructor
    · rintro ⟨info, -, hτ⟩
      obtain ⟨key, hkey, -⟩ := Option.map_eq_some_iff.mp ((hmem τ _).mp hτ)
      obtain ⟨storage, hstorage, -⟩ := Option.map_eq_some_iff.mp hkey
      exact Option.isSome_iff_exists.mpr ⟨storage, hstorage⟩
    · intro hτ
      obtain ⟨storage, hstorage⟩ := Option.isSome_iff_exists.mp hτ
      have hkey : H.data.topicKey τ = some (storage.descriptor.datasetId, storage.descriptor.name) := by
        rw [DataEngine.topicKey, DataEngine.getTopicStorage, hstorage]
        rfl
      obtain ⟨info, hinfo⟩ := hH.exists_getDataset (hH.known τ _ hkey)
      obtain ⟨hinfo, hid, -⟩ := hH.getDataset_eq_some hinfo
      exact ⟨info, hinfo, (hmem τ _).mpr (by rw [hkey, hid]; rfl)⟩

theorem map_handle_catalogSource (info : DatasetInfo) :
    (H.catalogSource info).topics.map (·.handle) = H.data.topicsIn info.id := by
  rw [PluginHost.catalogSource, List.map_filterMap]
  refine (List.filterMap_congr fun τ hτ ↦ ?_).trans List.filterMap_some
  obtain ⟨key, hkey, -⟩ := Option.map_eq_some_iff.mp (of_decide_eq_true (List.mem_filter.mp hτ).2)
  obtain ⟨storage, hstorage, -⟩ := Option.map_eq_some_iff.mp hkey
  rw [DataEngine.catalogTopic, hstorage]
  rfl

end CatalogSnapshot

namespace PluginHost

variable {S : Setup} {walk : WalkOrder} {W : World} {H : PluginHost} {calls : List Call}

/-- At any time the tables of a snapshot can be read as all there is in the engine. -/
theorem run_catalogSnapshot (hinit : W.Initial S)
    (h : Runs.run (step S walk) (start W) calls = some H)
    (hsmall : (H.acquireCatalogSnapshot walk).Small) :
    (H.acquireCatalogSnapshot walk).Describes H := by
  have hH : H.Sound S := (Advances.run (sound_start hinit) h).sound
  rw [acquireCatalogSnapshot, CatalogSnapshot.sortIds_listDatasets hH] at hsmall ⊢
  have hdraft := CatalogSnapshot.draft_foldl_addDataset hH H.infos (fun _ ↦ id)
    (fun _ ↦ CatalogSnapshot.draft_nil) hsmall
  obtain ⟨blocks, hshows, -⟩ := hdraft.exists_blocks
  refine ⟨hdraft.map_sourceOf, hshows.tiles, hdraft.fields.tiles, ?_⟩
  have hhandles := congrArg (List.map CatalogTopic.handle) hdraft.map_topicOf
  rw [List.map_map, List.nil_append, List.flatMap_map, List.map_flatMap] at hhandles
  refine List.Perm.trans (.of_eq (hhandles.trans ?_)) (CatalogSnapshot.perm_flatMap_topicsIn hH)
  exact List.flatMap_congr fun info _ ↦ CatalogSnapshot.map_handle_catalogSource info

/-- Two data sources with a topic each, and a third topic, in the first one, with two fields. -/
def threeTopics : List Call :=
  [.createDataSource "robot", .createDataSource "camera", .ensureTopic 0 1 "imu",
    .ensureTopic 1 2 "image", .ensureTopic 0 1 "odom",
    .engine (.world (.topic 0 3 (.ensureColumn "x" .float64))),
    .engine (.world (.topic 0 3 (.ensureColumn "ok" .bool)))]

def threeTopicsSnapshot : CatalogSnapshot where
  dataSources := [⟨1, "robot", 0, 2⟩, ⟨2, "camera", 2, 1⟩]
  topics := [⟨1, 1, "imu", 0, 0⟩, ⟨3, 1, "odom", 0, 2⟩, ⟨2, 2, "image", 2, 0⟩]
  fields := [⟨3, 0, "x", .float64⟩, ⟨3, 1, "ok", .bool⟩]

theorem run_catalogSnapshot_threeTopics : ∃ H,
    Runs.run (step DerivedEngine.oneEngine .plain) (start (.start fun _ ↦ [])) threeTopics = some H ∧
      H.acquireCatalogSnapshot .plain = threeTopicsSnapshot ∧ threeTopicsSnapshot.Describes H := by
  have hsnapshot : (Runs.run (step DerivedEngine.oneEngine .plain) (start (.start fun _ ↦ []))
      threeTopics).map (acquireCatalogSnapshot .plain) = some threeTopicsSnapshot := by
    decide +kernel
  obtain ⟨H, hrun, heq⟩ := Option.map_eq_some_iff.mp hsnapshot
  exact ⟨H, hrun, heq,
    heq ▸ run_catalogSnapshot (World.start_initial _) hrun (heq ▸ by decide)⟩

end PluginHost

end PlotJuggler
