import Mathlib.Data.List.Induction
import Mathlib.Data.List.Nodup
import Mathlib.Data.Set.Basic

/-!
# The catalog of loaded plugins

`plugin_runtime_catalog.cpp`: `scanDirectory` loads everything in the plugin directory, `reload`
brings what is loaded in line with the directory. The loaded plugins are spread over one vector per
family, and a plugin is known by its canonical path. What the file system and the loader say about a
file is part of its descriptor here: its canonical path, its modification time and its library.

The modification time zero stands for three things: a time that could not be read, a plugin that is
not loaded, and a time. `scanDirectory` loads a file without a readable time and keeps the zero, so
`reload` takes the plugin for one that is not loaded. And only `reload` asks whether a path has been
loaded before. The catalog holds each library once, and `reload` comes to rest, exactly when no scan
has two loadable entries at one path, none without a time, and none that fails at a path where an
older one loads (`PluginRuntimeCatalog.Clean`). The diagnostics are left out: they go to a sink and are
never read.
-/

namespace PlotJuggler

/-! ## Descriptors -/

inductive PluginFamily
  | unknown | dataSource | messageParser | toolbox | dialog
  deriving DecidableEq, Repr

/-- What a library that loads answers: `createHandle().capabilities()`, and whether
`resolveDialogVtable` succeeds. -/
structure PluginLibrary where
  capabilities : UInt64
  dialogVtable : Bool
  deriving DecidableEq, Repr

structure PluginDescriptor where
  family : PluginFamily
  id : String
  name : String
  version : String
  encoding : List String
  fileExtensions : List String
  /-- `canonicalPath` of the file. -/
  path : String
  /-- `last_write_time` of the file, if it can be read. -/
  lastWriteTime : Option ℤ
  /-- The library, if it loads. -/
  library : Option PluginLibrary
  deriving DecidableEq, Repr

def safeMtime (d : PluginDescriptor) : ℤ := d.lastWriteTime.getD 0

def normalizeExtension (ext : String) : String :=
  if !ext.isEmpty && ext.front != '.' then "." ++ ext else ext

/-! ## The catalog -/

structure RuntimeDataSourcePlugin where
  library : PluginLibrary
  path : String
  name : String
  id : String
  version : String
  fileExtensions : List String
  capabilities : UInt64
  loadedMtime : ℤ
  deriving DecidableEq, Repr

structure RuntimeMessageParserPlugin where
  library : PluginLibrary
  path : String
  name : String
  id : String
  version : String
  encodings : List String
  loadedMtime : ℤ
  deriving DecidableEq, Repr

structure RuntimeToolboxPlugin where
  library : PluginLibrary
  path : String
  name : String
  id : String
  version : String
  capabilities : UInt64
  loadedMtime : ℤ
  deriving DecidableEq, Repr

structure PluginRuntimeCatalog where
  dataSources : List RuntimeDataSourcePlugin := []
  messageParsers : List RuntimeMessageParserPlugin := []
  toolboxPlugins : List RuntimeToolboxPlugin := []
  deriving DecidableEq, Repr

/-- `PJ_DATA_SOURCE_CAPABILITY_HAS_DIALOG`. -/
def dataSourceCapabilityHasDialog : UInt64 := (1 : UInt64) <<< 5

/-- `PJ_TOOLBOX_CAPABILITY_HAS_DIALOG`. -/
def toolboxCapabilityHasDialog : UInt64 := (1 : UInt64) <<< 0

/-- Whether a library offers a dialog that it does not export. -/
def PluginLibrary.lacksDialog (lib : PluginLibrary) (hasDialog : UInt64) : Bool :=
  lib.capabilities &&& hasDialog != 0 && !lib.dialogVtable

/-- Whether a plugin is registered for the descriptor when it is tried. -/
def PluginDescriptor.loads (d : PluginDescriptor) : Bool :=
  match d.family with
  | .dataSource => d.library.any fun lib ↦ !lib.lacksDialog dataSourceCapabilityHasDialog
  | .messageParser => d.library.isSome
  | .toolbox => d.library.any fun lib ↦ !lib.lacksDialog toolboxCapabilityHasDialog
  | .dialog => false
  | .unknown => false

namespace PluginRuntimeCatalog

def loadAndRegisterDataSource (c : PluginRuntimeCatalog) (d : PluginDescriptor) :
    Option PluginRuntimeCatalog :=
  match d.library with
  | none => none
  | some lib =>
    if lib.lacksDialog dataSourceCapabilityHasDialog then none
    else some { c with dataSources := c.dataSources ++
      [⟨lib, d.path, d.name, d.id, d.version, d.fileExtensions.map normalizeExtension,
        lib.capabilities, safeMtime d⟩] }

def loadAndRegisterMessageParser (c : PluginRuntimeCatalog) (d : PluginDescriptor) :
    Option PluginRuntimeCatalog :=
  match d.library with
  | none => none
  | some lib => some { c with messageParsers := c.messageParsers ++
      [⟨lib, d.path, d.name, d.id, d.version, d.encoding, safeMtime d⟩] }

def loadAndRegisterToolbox (c : PluginRuntimeCatalog) (d : PluginDescriptor) :
    Option PluginRuntimeCatalog :=
  match d.library with
  | none => none
  | some lib =>
    if lib.lacksDialog toolboxCapabilityHasDialog then none
    else some { c with toolboxPlugins := c.toolboxPlugins ++
      [⟨lib, d.path, d.name, d.id, d.version, lib.capabilities, safeMtime d⟩] }

/-- The catalog with the plugin, `none` for the return value `false`. -/
def loadAndRegister (c : PluginRuntimeCatalog) (d : PluginDescriptor) :
    Option PluginRuntimeCatalog :=
  match d.family with
  | .dataSource => c.loadAndRegisterDataSource d
  | .messageParser => c.loadAndRegisterMessageParser d
  | .toolbox => c.loadAndRegisterToolbox d
  -- dialogs are loaded through the plugins that own them
  | .dialog => none
  | .unknown => none

def evictByPath (c : PluginRuntimeCatalog) (path : String) : PluginRuntimeCatalog where
  dataSources := c.dataSources.filter (·.path ≠ path)
  messageParsers := c.messageParsers.filter (·.path ≠ path)
  toolboxPlugins := c.toolboxPlugins.filter (·.path ≠ path)

/-- The first plugin with the path decides in each family, and the first family with a time that is
not zero. -/
def loadedMtimeForPath (c : PluginRuntimeCatalog) (path : String) : ℤ :=
  if ((c.dataSources.find? (·.path = path)).map (·.loadedMtime)).getD 0 ≠ 0 then
    ((c.dataSources.find? (·.path = path)).map (·.loadedMtime)).getD 0
  else if ((c.messageParsers.find? (·.path = path)).map (·.loadedMtime)).getD 0 ≠ 0 then
    ((c.messageParsers.find? (·.path = path)).map (·.loadedMtime)).getD 0
  else ((c.toolboxPlugins.find? (·.path = path)).map (·.loadedMtime)).getD 0

/-- A scan: the descriptors of the directory, or the error of `scanPluginDsos`. -/
abbrev Scan := Except String (List PluginDescriptor)

def scanDirectory (_c : PluginRuntimeCatalog) : Scan → PluginRuntimeCatalog
  | .error _ => {}
  | .ok plugins => plugins.foldl (fun c d ↦ (c.loadAndRegister d).getD c) {}

/-- `drop_missing` for the three families, and whether it dropped anything. -/
def dropMissing (c : PluginRuntimeCatalog) (onDisk : List String) : PluginRuntimeCatalog × Bool :=
  let c' : PluginRuntimeCatalog :=
    { dataSources := c.dataSources.filter (·.path ∈ onDisk)
      messageParsers := c.messageParsers.filter (·.path ∈ onDisk)
      toolboxPlugins := c.toolboxPlugins.filter (·.path ∈ onDisk) }
  (c', c'.dataSources.length ≠ c.dataSources.length ||
    c'.messageParsers.length ≠ c.messageParsers.length ||
    c'.toolboxPlugins.length ≠ c.toolboxPlugins.length)

/-- One round of the loop of `reload`: the catalog and `changed`. -/
def reloadStep (s : PluginRuntimeCatalog × Bool) (d : PluginDescriptor) :
    PluginRuntimeCatalog × Bool :=
  if safeMtime d = 0 then s
  else if s.1.loadedMtimeForPath d.path ≠ 0 then
    if safeMtime d ≤ s.1.loadedMtimeForPath d.path then s
    else (((s.1.evictByPath d.path).loadAndRegister d).getD (s.1.evictByPath d.path), true)
  else
    match s.1.loadAndRegister d with
    | some c => (c, true)
    | none => s

/-- The catalog behind the call, and what it returns. -/
def reload (c : PluginRuntimeCatalog) : Scan → PluginRuntimeCatalog × Bool
  | .error _ => (c, false)
  | .ok plugins => plugins.foldl reloadStep (c.dropMissing (plugins.map (·.path)))

/-! ## What is loaded -/

/-- The loaded plugins of all families, by path and time. -/
def loaded (c : PluginRuntimeCatalog) : List (String × ℤ) :=
  c.dataSources.map (fun p ↦ (p.path, p.loadedMtime)) ++
    (c.messageParsers.map (fun p ↦ (p.path, p.loadedMtime)) ++
      c.toolboxPlugins.map (fun p ↦ (p.path, p.loadedMtime)))

def paths (c : PluginRuntimeCatalog) : List String := c.loaded.map Prod.fst

variable {c c' : PluginRuntimeCatalog} {d : PluginDescriptor}

theorem loadAndRegister_of_loads (hd : d.loads = true) (c : PluginRuntimeCatalog) :
    ∃ c', c.loadAndRegister d = some c' ∧ c'.loaded.Perm ((d.path, safeMtime d) :: c.loaded) := by
  rw [PluginDescriptor.loads] at hd
  rw [loadAndRegister]
  rcases hf : d.family <;> rw [hf] at hd <;> simp only [Bool.false_eq_true] at hd
  all_goals rcases hl : d.library with _ | lib <;> rw [hl] at hd <;> simp at hd
  · refine ⟨_, by simp [loadAndRegisterDataSource, hl, hd]; rfl, ?_⟩
    simp only [loaded, List.map_append, List.map_cons, List.map_nil, List.append_assoc]
    exact List.perm_middle
  · refine ⟨_, by simp [loadAndRegisterMessageParser, hl]; rfl, ?_⟩
    simp only [loaded, List.map_append, List.map_cons, List.map_nil, List.append_assoc]
    exact (List.perm_middle.append_left _).trans List.perm_middle
  · refine ⟨_, by simp [loadAndRegisterToolbox, hl, hd]; rfl, ?_⟩
    simp only [loaded, List.map_append, List.map_cons, List.map_nil]
    rw [← List.append_assoc, ← List.append_assoc, ← List.append_assoc]
    exact List.perm_append_singleton _ _

theorem loadAndRegister_of_not_loads (hd : d.loads = false) (c : PluginRuntimeCatalog) :
    c.loadAndRegister d = none := by
  rw [PluginDescriptor.loads] at hd
  rw [loadAndRegister]
  rcases hf : d.family <;> rw [hf] at hd <;> simp only at hd
  all_goals rcases hl : d.library with _ | lib <;> rw [hl] at hd <;> simp at hd
  all_goals simp [loadAndRegisterDataSource, loadAndRegisterMessageParser, loadAndRegisterToolbox, hl, hd]

/-! ### Eviction -/

theorem loaded_evictByPath (c : PluginRuntimeCatalog) (path : String) :
    (c.evictByPath path).loaded = c.loaded.filter (·.1 ≠ path) := by
  simp only [loaded, evictByPath, List.filter_append, List.filter_map]
  rfl

theorem loaded_dropMissing (c : PluginRuntimeCatalog) (onDisk : List String) :
    (c.dropMissing onDisk).1.loaded = c.loaded.filter (·.1 ∈ onDisk) := by
  simp only [loaded, dropMissing, List.filter_append, List.filter_map]
  rfl

theorem forall_mem_loaded {P : String → Prop} : (∀ x ∈ c.loaded, P x.1) ↔
    (∀ p ∈ c.dataSources, P p.path) ∧ (∀ p ∈ c.messageParsers, P p.path) ∧
      ∀ p ∈ c.toolboxPlugins, P p.path := by
  simp [loaded, or_imp, forall_and]

/-- Nothing is dropped when everything is on disk, and only then. -/
theorem dropMissing_snd (c : PluginRuntimeCatalog) (onDisk : List String) :
    (c.dropMissing onDisk).2 = false ↔ ∀ x ∈ c.loaded, x.1 ∈ onDisk := by
  have hkeep : ∀ {α : Type} (path : α → String) (l : List α),
      (l.filter fun p ↦ path p ∈ onDisk).length = l.length ↔ ∀ p ∈ l, path p ∈ onDisk := by
    intro α path l
    rw [List.length_filter_eq_length_iff]
    simp
  simp only [dropMissing, Bool.or_eq_false_iff, decide_eq_false_iff_not, ne_eq, not_not, hkeep,
    forall_mem_loaded, and_assoc]

theorem dropMissing_fst {onDisk : List String} (h : ∀ x ∈ c.loaded, x.1 ∈ onDisk) :
    (c.dropMissing onDisk).1 = c := by
  obtain ⟨h1, h2, h3⟩ := forall_mem_loaded.mp h
  simp only [dropMissing]
  rw [List.filter_eq_self.mpr (by simpa using h1), List.filter_eq_self.mpr (by simpa using h2),
    List.filter_eq_self.mpr (by simpa using h3)]

/-! ### The time of a path -/

theorem mem_of_find_mtime {α : Type} {path : α → String} {mtime : α → ℤ} {l : List α} {p : String}
    (h : ((l.find? (path · = p)).map mtime).getD 0 ≠ 0) :
    (p, ((l.find? (path · = p)).map mtime).getD 0) ∈ l.map fun x ↦ (path x, mtime x) := by
  rcases hfind : l.find? (path · = p) with _ | x
  · rw [hfind] at h
    exact absurd rfl h
  · have hp : path x = p := by simpa using List.find?_some hfind
    exact List.mem_map.mpr ⟨x, List.mem_of_find?_eq_some hfind, by rw [hp]; rfl⟩

theorem find_mtime_ne_zero {α : Type} (path : α → String) (mtime : α → ℤ) {l : List α}
    (hl : ∀ x ∈ l, mtime x ≠ 0) {x : α} (hx : x ∈ l) :
    ((l.find? (path · = path x)).map mtime).getD 0 ≠ 0 := by
  rcases hfind : l.find? (path · = path x) with _ | y
  · exact absurd (List.find?_eq_none.mp hfind x hx) (by simp)
  · exact hl y (List.mem_of_find?_eq_some hfind)

theorem mem_of_loadedMtime {p : String} (h : c.loadedMtimeForPath p ≠ 0) :
    (p, c.loadedMtimeForPath p) ∈ c.loaded := by
  rw [loadedMtimeForPath] at h ⊢
  rw [loaded]
  split_ifs at h ⊢ with h1 h2
  · exact List.mem_append_left _ (mem_of_find_mtime h1)
  · exact List.mem_append_right _ (List.mem_append_left _ (mem_of_find_mtime h2))
  · exact List.mem_append_right _ (List.mem_append_right _ (mem_of_find_mtime h))

/-- Each library once, and each with a time. -/
structure Orderly (c : PluginRuntimeCatalog) : Prop where
  nodup : c.paths.Nodup
  timed : ∀ x ∈ c.loaded, x.2 ≠ 0

theorem orderly_empty : Orderly {} := ⟨List.nodup_nil, nofun⟩

theorem eq_of_mem (hc : c.paths.Nodup) {p : String} {m m' : ℤ} (h : (p, m) ∈ c.loaded)
    (h' : (p, m') ∈ c.loaded) : m = m' :=
  (Prod.mk.inj (List.inj_on_of_nodup_map hc h h' rfl)).2

theorem Orderly.loadedMtime_ne_zero (hc : c.Orderly) {p : String} {m : ℤ} (h : (p, m) ∈ c.loaded) :
    c.loadedMtimeForPath p ≠ 0 := by
  have htimed := hc.timed
  simp only [loaded, List.mem_append, List.mem_map] at h htimed
  rw [loadedMtimeForPath]
  rcases h with ⟨x, hx, h⟩ | ⟨x, hx, h⟩ | ⟨x, hx, h⟩ <;> obtain ⟨rfl, rfl⟩ := Prod.mk.inj h
  · have hne := find_mtime_ne_zero (·.path) (·.loadedMtime)
      (fun y hy ↦ htimed _ (.inl ⟨y, hy, rfl⟩)) hx
    rwa [if_pos hne]
  · have hne := find_mtime_ne_zero (·.path) (·.loadedMtime)
      (fun y hy ↦ htimed _ (.inr (.inl ⟨y, hy, rfl⟩))) hx
    split_ifs
    · assumption
    · exact hne
  · have hne := find_mtime_ne_zero (·.path) (·.loadedMtime)
      (fun y hy ↦ htimed _ (.inr (.inr ⟨y, hy, rfl⟩))) hx
    split_ifs
    · assumption
    · assumption
    · exact hne

theorem Orderly.loadedMtime_eq (hc : c.Orderly) {p : String} {m : ℤ} (h : (p, m) ∈ c.loaded) :
    c.loadedMtimeForPath p = m :=
  eq_of_mem hc.nodup (mem_of_loadedMtime (hc.loadedMtime_ne_zero h)) h

theorem Orderly.loadedMtime_eq_zero (hc : c.Orderly) {p : String} :
    c.loadedMtimeForPath p = 0 ↔ p ∉ c.paths := by
  constructor
  · rintro h hp
    obtain ⟨⟨q, m⟩, hx, rfl⟩ := List.mem_map.mp hp
    exact hc.loadedMtime_ne_zero hx h
  · intro hp
    by_contra h
    exact hp (List.mem_map_of_mem (mem_of_loadedMtime h))

/-! ### One round of `reload` -/

/-- There is nothing to do for the descriptor. -/
def Quiet (c : PluginRuntimeCatalog) (d : PluginDescriptor) : Prop :=
  safeMtime d = 0 ∨ (∃ m, (d.path, m) ∈ c.loaded ∧ safeMtime d ≤ m) ∨
    d.path ∉ c.paths ∧ d.loads = false

/-- What a round does: nothing; or the library is loaded, in place of an older one if there was one;
or an older one goes, and the new one does not load. -/
theorem Orderly.reloadStep_cases (hc : c.Orderly) (changed : Bool) (d : PluginDescriptor) :
    (c.Quiet d ∧ reloadStep (c, changed) d = (c, changed)) ∨
    (safeMtime d ≠ 0 ∧ (∀ m, (d.path, m) ∈ c.loaded → m < safeMtime d) ∧
      ∃ c', reloadStep (c, changed) d = (c', true) ∧
        (d.loads = true ∧
            c'.loaded.Perm ((d.path, safeMtime d) :: c.loaded.filter (·.1 ≠ d.path)) ∨
          d.loads = false ∧ c'.loaded = c.loaded.filter (·.1 ≠ d.path) ∧ d.path ∈ c.paths)) := by
  rw [reloadStep]
  by_cases hzero : safeMtime d = 0
  · exact .inl ⟨.inl hzero, if_pos hzero⟩
  rw [if_neg hzero]
  simp only
  by_cases hprior : c.loadedMtimeForPath d.path = 0
  · -- not loaded yet
    have habsent := hc.loadedMtime_eq_zero.mp hprior
    have hnone : ∀ m, (d.path, m) ∉ c.loaded := fun m hm ↦ habsent (List.mem_map_of_mem hm)
    have hfilter : c.loaded.filter (·.1 ≠ d.path) = c.loaded := by
      refine List.filter_eq_self.mpr fun x hx ↦ ?_
      rw [decide_eq_true_eq]
      rintro h
      exact habsent (h ▸ List.mem_map_of_mem hx)
    rw [if_neg (not_not.mpr hprior), hfilter]
    rcases hd : d.loads
    · rw [loadAndRegister_of_not_loads hd]
      exact .inl ⟨.inr (.inr ⟨habsent, hd⟩), rfl⟩
    · obtain ⟨c', hload, hperm⟩ := loadAndRegister_of_loads hd c
      rw [hload]
      exact .inr ⟨hzero, fun m hm ↦ absurd hm (hnone m), c', rfl, .inl ⟨rfl, hperm⟩⟩
  · have hmem := mem_of_loadedMtime hprior
    rw [if_pos hprior]
    by_cases hle : safeMtime d ≤ c.loadedMtimeForPath d.path
    · exact .inl ⟨.inr (.inl ⟨_, hmem, hle⟩), if_pos hle⟩
    · rw [if_neg hle]
      refine .inr ⟨hzero, fun m hm ↦ ?_, _, rfl, ?_⟩
      · rw [← hc.loadedMtime_eq hm]
        exact not_le.mp hle
      rcases hd : d.loads
      · refine .inr ⟨rfl, ?_, List.mem_map_of_mem hmem⟩
        rw [loadAndRegister_of_not_loads hd, Option.getD_none, loaded_evictByPath]
      · obtain ⟨c', hload, hperm⟩ := loadAndRegister_of_loads hd (c.evictByPath d.path)
        rw [loaded_evictByPath] at hperm
        rw [hload, Option.getD_some]
        exact .inl ⟨rfl, hperm⟩

theorem nodup_filter_ne (hc : c.Orderly) (p : String) :
    ((c.loaded.filter (·.1 ≠ p)).map Prod.fst).Nodup :=
  (List.Sublist.map Prod.fst List.filter_sublist).nodup hc.nodup

/-- A round keeps the catalog in order, and what it adds is the descriptor's. -/
theorem Orderly.reloadStep (hc : c.Orderly) (changed : Bool) (d : PluginDescriptor) :
    (reloadStep (c, changed) d).1.Orderly ∧ ∀ x ∈ (reloadStep (c, changed) d).1.loaded,
      x ∈ c.loaded ∨ d.loads = true ∧ safeMtime d ≠ 0 ∧ x = (d.path, safeMtime d) := by
  rcases hc.reloadStep_cases changed d with
    ⟨-, h⟩ | ⟨hzero, -, c', h, ⟨hd, hperm⟩ | ⟨-, hloaded, -⟩⟩ <;> rw [h]
  · exact ⟨hc, fun x hx ↦ .inl hx⟩
  · have hnodup := nodup_filter_ne hc d.path
    refine ⟨⟨?_, fun x hx ↦ ?_⟩, fun x hx ↦ ?_⟩
    · rw [paths, (hperm.map Prod.fst).nodup_iff, List.map_cons, List.nodup_cons]
      refine ⟨fun hmem ↦ ?_, hnodup⟩
      obtain ⟨x, hx, hpath⟩ := List.mem_map.mp hmem
      exact absurd hpath (by simpa using (List.mem_filter.mp hx).2)
    · rcases List.mem_cons.mp (hperm.mem_iff.mp hx) with rfl | hx
      · exact hzero
      · exact hc.timed x (List.mem_of_mem_filter hx)
    · rcases List.mem_cons.mp (hperm.mem_iff.mp hx) with rfl | hx
      · exact .inr ⟨hd, hzero, rfl⟩
      · exact .inl (List.mem_of_mem_filter hx)
  · refine ⟨⟨?_, fun x hx ↦ ?_⟩, fun x hx ↦ ?_⟩
    · rw [paths, hloaded]
      exact nodup_filter_ne hc d.path
    · exact hc.timed x (List.mem_of_mem_filter (hloaded ▸ hx))
    · exact .inl (List.mem_of_mem_filter (hloaded ▸ hx))

/-! ### A whole scan -/

/-- A scan without the entries on which the two calls part: what loads has a time and a path of its
own, and is not older than an entry at its path that does not load. -/
structure Clean (ds : List PluginDescriptor) : Prop where
  timed : ∀ d ∈ ds, d.loads = true → safeMtime d ≠ 0
  apart : ((ds.filter (·.loads)).map (·.path)).Nodup
  newest : ∀ d ∈ ds, ∀ e ∈ ds, d.loads = true → e.loads = false → e.path = d.path →
    safeMtime e ≠ 0 → safeMtime e ≤ safeMtime d

/-- What `scanDirectory` loads. -/
theorem loaded_scanDirectory (c : PluginRuntimeCatalog) (ds : List PluginDescriptor) :
    (c.scanDirectory (.ok ds)).loaded.Perm
      ((ds.filter (·.loads)).map fun d ↦ (d.path, safeMtime d)) := by
  have hfold : ∀ (c : PluginRuntimeCatalog), (ds.foldl (fun c d ↦ (c.loadAndRegister d).getD c)
      c).loaded.Perm (c.loaded ++ (ds.filter (·.loads)).map fun d ↦ (d.path, safeMtime d)) := by
    induction ds with
    | nil => exact fun c ↦ by simp
    | cons d ds ih =>
      intro c
      rw [List.foldl_cons]
      refine (ih _).trans ?_
      rcases hd : d.loads
      · rw [loadAndRegister_of_not_loads hd, Option.getD_none, List.filter_cons_of_neg (by simp [hd])]
      · obtain ⟨c', hload, hperm⟩ := loadAndRegister_of_loads hd c
        rw [hload, Option.getD_some, List.filter_cons_of_pos hd, List.map_cons]
        exact (hperm.append_right _).trans List.perm_middle.symm
  exact hfold {}

theorem paths_scanDirectory (c : PluginRuntimeCatalog) (ds : List PluginDescriptor) :
    (c.scanDirectory (.ok ds)).paths.Perm ((ds.filter (·.loads)).map (·.path)) := by
  have h := (loaded_scanDirectory c ds).map Prod.fst
  rwa [List.map_map] at h

/-- The loop of `reload` says that nothing changed if and only if there was nothing to do, and then
nothing did. -/
theorem Orderly.foldl_reloadStep_snd (hc : c.Orderly) (ds : List PluginDescriptor) (changed : Bool) :
    ((ds.foldl PluginRuntimeCatalog.reloadStep (c, changed)).2 = false ↔
      changed = false ∧ ∀ d ∈ ds, c.Quiet d) ∧
    ((∀ d ∈ ds, c.Quiet d) → ds.foldl PluginRuntimeCatalog.reloadStep (c, changed) = (c, changed)) := by
  induction ds generalizing c changed with
  | nil => exact ⟨by simp, fun _ ↦ rfl⟩
  | cons d ds ih =>
    rw [List.foldl_cons]
    have hnext := (hc.reloadStep changed d).1
    rcases hc.reloadStep_cases changed d with ⟨hq, h⟩ | ⟨hzero, hnew, c', h, hcases⟩
    · rw [h]
      obtain ⟨hiff, hall⟩ := ih hc changed
      refine ⟨hiff.trans ?_, fun hquiet ↦ hall fun e he ↦ hquiet e (List.mem_cons_of_mem d he)⟩
      rw [List.forall_mem_cons]
      exact and_congr_right fun _ ↦ (and_iff_right hq).symm
    · have hquiet : ¬c.Quiet d := by
        rintro (h0 | ⟨m, hm, hle⟩ | ⟨habsent, hd⟩)
        · exact hzero h0
        · exact absurd hle (hnew m hm).not_ge
        · rcases hcases with ⟨hd', -⟩ | ⟨-, -, hmem⟩
          · rw [hd] at hd'
            exact absurd hd' (by decide)
          · exact habsent hmem
      rw [h] at hnext ⊢
      refine ⟨?_, fun hall ↦ absurd (hall d List.mem_cons_self) hquiet⟩
      rw [(ih hnext true).1]
      exact iff_of_false (by simp) fun hall ↦ hquiet (hall.2 d List.mem_cons_self)

theorem Orderly.dropMissing (hc : c.Orderly) (onDisk : List String) :
    (c.dropMissing onDisk).1.Orderly := by
  refine ⟨?_, fun x hx ↦ ?_⟩
  · rw [paths, loaded_dropMissing]
    exact (List.Sublist.map Prod.fst List.filter_sublist).nodup hc.nodup
  · rw [loaded_dropMissing] at hx
    exact hc.timed x (List.mem_of_mem_filter hx)

/-- `reload` returns `false` if and only if everything loaded is on disk and there is nothing to do
for any descriptor, and then the catalog is as it was. -/
theorem Orderly.reload_snd (hc : c.Orderly) (ds : List PluginDescriptor) :
    (c.reload (.ok ds)).2 = false ↔
      (∀ x ∈ c.loaded, x.1 ∈ ds.map (·.path)) ∧ ∀ d ∈ ds, c.Quiet d := by
  rw [reload]
  have hdrop := c.dropMissing_snd (ds.map (·.path))
  rcases hchanged : (c.dropMissing (ds.map (·.path))).2
  · have hall := hdrop.mp hchanged
    rw [show c.dropMissing (ds.map (·.path)) = (c, false) from
      Prod.ext (dropMissing_fst hall) hchanged, (hc.foldl_reloadStep_snd ds false).1]
    exact and_congr_left fun _ ↦ iff_of_true rfl hall
  · have hnot : ¬∀ x ∈ c.loaded, x.1 ∈ ds.map (·.path) := by
      rw [← hdrop, hchanged]
      decide
    have hfold := (hc.dropMissing (ds.map (·.path))).foldl_reloadStep_snd ds true
    rw [show c.dropMissing (ds.map (·.path)) = ((c.dropMissing (ds.map (·.path))).1, true) from
      Prod.ext rfl hchanged, hfold.1]
    exact iff_of_false (by simp) fun h ↦ hnot h.1

theorem Orderly.reload_of_quiet (hc : c.Orderly) {ds : List PluginDescriptor}
    (hdisk : ∀ x ∈ c.loaded, x.1 ∈ ds.map (·.path)) (hquiet : ∀ d ∈ ds, c.Quiet d) :
    c.reload (.ok ds) = (c, false) := by
  rw [reload, show c.dropMissing (ds.map (·.path)) = (c, false) from
    Prod.ext (dropMissing_fst hdisk) ((c.dropMissing_snd _).mpr hdisk)]
  exact (hc.foldl_reloadStep_snd ds false).2 hquiet

/-- Where the plugins come from that are loaded after `reload`. -/
theorem Orderly.reload (hc : c.Orderly) (ds : List PluginDescriptor) :
    (c.reload (.ok ds)).1.Orderly ∧ ∀ x ∈ (c.reload (.ok ds)).1.loaded,
      x ∈ c.loaded ∧ x.1 ∈ ds.map (·.path) ∨
        ∃ d ∈ ds, d.loads = true ∧ safeMtime d ≠ 0 ∧ x = (d.path, safeMtime d) := by
  have hfold : ∀ (l : List PluginDescriptor) (s : PluginRuntimeCatalog × Bool), s.1.Orderly →
      (l.foldl PluginRuntimeCatalog.reloadStep s).1.Orderly ∧
        ∀ x ∈ (l.foldl PluginRuntimeCatalog.reloadStep s).1.loaded, x ∈ s.1.loaded ∨
          ∃ d ∈ l, d.loads = true ∧ safeMtime d ≠ 0 ∧ x = (d.path, safeMtime d) := by
    intro l
    induction l with
    | nil => exact fun s hs ↦ ⟨hs, fun x hx ↦ .inl hx⟩
    | cons d l ih =>
      intro s hs
      obtain ⟨hnext, hadded⟩ := hs.reloadStep s.2 d
      obtain ⟨hlast, hfrom⟩ := ih _ hnext
      refine ⟨hlast, fun x hx ↦ ?_⟩
      rcases hfrom x hx with hx | ⟨e, he, h⟩
      · rcases hadded x hx with hx | h
        · exact .inl hx
        · exact .inr ⟨d, List.mem_cons_self, h⟩
      · exact .inr ⟨e, List.mem_cons_of_mem d he, h⟩
  obtain ⟨horderly, hfrom⟩ := hfold ds _ (hc.dropMissing (ds.map (·.path)))
  refine ⟨horderly, fun x hx ↦ ?_⟩
  rcases hfrom x hx with hx | h
  · rw [loaded_dropMissing] at hx
    exact .inl ⟨List.mem_of_mem_filter hx, by simpa using (List.mem_filter.mp hx).2⟩
  · exact .inr h

/-- The descriptor of a round is quiet behind it. -/
theorem Orderly.quiet_reloadStep_self (hc : c.Orderly) (changed : Bool) (d : PluginDescriptor) :
    (PluginRuntimeCatalog.reloadStep (c, changed) d).1.Quiet d := by
  rcases hc.reloadStep_cases changed d with
    ⟨hq, h⟩ | ⟨hzero, -, c', h, ⟨hd, hperm⟩ | ⟨hd, hloaded, -⟩⟩ <;> rw [h]
  · exact hq
  · exact .inr (.inl ⟨_, hperm.mem_iff.mpr List.mem_cons_self, le_rfl⟩)
  · refine .inr (.inr ⟨fun hmem ↦ ?_, hd⟩)
    rw [paths, hloaded] at hmem
    obtain ⟨x, hx, hpath⟩ := List.mem_map.mp hmem
    exact absurd hpath (by simpa using (List.mem_filter.mp hx).2)

/-- The descriptors behind it stay quiet, if no entry fails at the path of an older one that loads. -/
theorem Orderly.quiet_reloadStep (hc : c.Orderly) (changed : Bool) {d e : PluginDescriptor}
    (he : c.Quiet e)
    (hde : d.loads = true → e.loads = false → e.path = d.path → safeMtime e ≠ 0 →
      safeMtime e ≤ safeMtime d)
    (hed : e.loads = true → d.loads = false → d.path = e.path → safeMtime d ≠ 0 →
      safeMtime d ≤ safeMtime e) :
    (PluginRuntimeCatalog.reloadStep (c, changed) d).1.Quiet e := by
  have hstays : ∀ {m}, (e.path, m) ∈ c.loaded → e.path ≠ d.path →
      (e.path, m) ∈ c.loaded.filter (·.1 ≠ d.path) := fun hm hne ↦
    List.mem_filter.mpr ⟨hm, by simpa using hne⟩
  have habsent : e.path ∉ c.paths → e.path ∉ (c.loaded.filter (·.1 ≠ d.path)).map Prod.fst :=
    fun h hmem ↦ h ((List.Sublist.map Prod.fst List.filter_sublist).subset hmem)
  rcases hc.reloadStep_cases changed d with
    ⟨-, h⟩ | ⟨hzero, hnew, c', h, ⟨hd, hperm⟩ | ⟨hd, hloaded, -⟩⟩ <;> rw [h]
  · exact he
  · -- loaded, in place of what was there
    have hmem := (hperm.map Prod.fst).mem_iff (a := e.path)
    rcases he with h0 | ⟨m, hm, hle⟩ | ⟨hne, hfail⟩
    · exact .inl h0
    · refine .inr (.inl ?_)
      by_cases hpath : e.path = d.path
      · exact ⟨_, hperm.mem_iff.mpr (hpath ▸ List.mem_cons_self),
          hle.trans (hnew m (hpath ▸ hm)).le⟩
      · exact ⟨m, hperm.mem_iff.mpr (List.mem_cons_of_mem _ (hstays hm hpath)), hle⟩
    · by_cases h0 : safeMtime e = 0
      · exact .inl h0
      by_cases hpath : e.path = d.path
      · exact .inr (.inl ⟨_, hperm.mem_iff.mpr (hpath ▸ List.mem_cons_self), hde hd hfail hpath h0⟩)
      · refine .inr (.inr ⟨fun hin ↦ ?_, hfail⟩)
        rcases List.mem_cons.mp (hmem.mp hin) with h | h
        · exact hpath h
        · exact habsent hne h
  · -- gone, and not replaced
    rcases he with h0 | ⟨m, hm, hle⟩ | ⟨hne, hfail⟩
    · exact .inl h0
    · by_cases hpath : e.path = d.path
      · refine .inr (.inr ⟨fun hin ↦ ?_, ?_⟩)
        · rw [paths, hloaded, hpath] at hin
          obtain ⟨x, hx, hx'⟩ := List.mem_map.mp hin
          exact absurd hx' (by simpa using (List.mem_filter.mp hx).2)
        · rw [← Bool.not_eq_true]
          rintro hloads
          have h1 := hed hloads hd hpath.symm hzero
          have h2 := hnew m (hpath ▸ hm)
          omega
      · exact .inr (.inl ⟨m, hloaded ▸ hstays hm hpath, hle⟩)
    · refine .inr (.inr ⟨fun hin ↦ ?_, hfail⟩)
      rw [paths, hloaded] at hin
      exact habsent hne hin

/-- After `reload` with a clean scan there is nothing to do for any of its descriptors. -/
theorem Orderly.quiet_reload (hc : c.Orderly) {ds : List PluginDescriptor} (hds : Clean ds) :
    ∀ d ∈ ds, (c.reload (.ok ds)).1.Quiet d := by
  have hfold : ∀ (l : List PluginDescriptor) (s : PluginRuntimeCatalog × Bool), s.1.Orderly →
      (∀ d ∈ l, d ∈ ds) → ∀ e ∈ ds, s.1.Quiet e ∨ e ∈ l →
        (l.foldl PluginRuntimeCatalog.reloadStep s).1.Quiet e := by
    intro l
    induction l with
    | nil => exact fun s _ _ e _ h ↦ h.resolve_right (List.not_mem_nil)
    | cons d l ih =>
      intro s hs hl e he h
      have hnext := (hs.reloadStep s.2 d).1
      refine ih _ hnext (fun d' hd' ↦ hl d' (List.mem_cons_of_mem d hd')) e he ?_
      have hd := hl d List.mem_cons_self
      rcases h with hq | hmem
      · exact .inl (hs.quiet_reloadStep s.2 hq (hds.newest d hd e he) (hds.newest e he d hd))
      · rcases List.mem_cons.mp hmem with rfl | hmem
        · exact .inl (hs.quiet_reloadStep_self s.2 e)
        · exact .inr hmem
  exact fun d hd ↦ hfold ds _ (hc.dropMissing _) (fun _ h ↦ h) d hd (.inr hd)

/-- And so it is after `scanDirectory`, when it left the catalog in order. -/
theorem quiet_scanDirectory (c : PluginRuntimeCatalog) {ds : List PluginDescriptor}
    (hds : Clean ds) : ∀ d ∈ ds, (c.scanDirectory (.ok ds)).Quiet d := by
  intro d hd
  have hperm := loaded_scanDirectory c ds
  have hpaths := paths_scanDirectory c ds
  rcases hloads : d.loads
  · by_cases hzero : safeMtime d = 0
    · exact .inl hzero
    by_cases hmem : d.path ∈ (c.scanDirectory (.ok ds)).paths
    · obtain ⟨e, he, hpath⟩ := List.mem_map.mp (hpaths.mem_iff.mp hmem)
      obtain ⟨he, hloads'⟩ := List.mem_filter.mp he
      refine .inr (.inl ⟨safeMtime e, hperm.mem_iff.mpr ?_, hds.newest e he d hd hloads' hloads
        hpath.symm hzero⟩)
      exact List.mem_map.mpr ⟨e, List.mem_filter.mpr ⟨he, hloads'⟩, by rw [hpath]⟩
    · exact .inr (.inr ⟨hmem, hloads⟩)
  · exact .inr (.inl ⟨_, hperm.mem_iff.mpr (List.mem_map_of_mem (List.mem_filter.mpr ⟨hd, hloads⟩)),
      le_rfl⟩)

theorem orderly_scanDirectory (c : PluginRuntimeCatalog) {ds : List PluginDescriptor}
    (hds : Clean ds) : (c.scanDirectory (.ok ds)).Orderly := by
  refine ⟨(paths_scanDirectory c ds).nodup_iff.mpr hds.apart, fun x hx ↦ ?_⟩
  obtain ⟨d, hd, rfl⟩ := List.mem_map.mp ((loaded_scanDirectory c ds).mem_iff.mp hx)
  exact hds.timed d (List.mem_of_mem_filter hd) (List.mem_filter.mp hd).2

/-! ## Runs -/

inductive Call
  | scanDirectory (scan : Scan)
  | reload (scan : Scan)

def Call.scan : Call → Scan
  | .scanDirectory scan => scan
  | .reload scan => scan

def Call.run (c : PluginRuntimeCatalog) : Call → PluginRuntimeCatalog
  | .scanDirectory scan => c.scanDirectory scan
  | .reload scan => (c.reload scan).1

/-- The catalog after a sequence of calls on a new one. -/
def runCalls (calls : List Call) : PluginRuntimeCatalog := calls.foldl Call.run {}

theorem runCalls_concat (calls : List Call) (call : Call) :
    runCalls (calls ++ [call]) = call.run (runCalls calls) := by
  rw [runCalls, List.foldl_concat]
  rfl

/-- What the catalog is to guarantee in a sequence of calls. -/
structure Faithful (calls : List Call) : Prop where
  /-- After a call whose scan succeeds, no path is loaded twice. -/
  unique : ∀ pre call post ds, calls = pre ++ call :: post → call.scan = .ok ds →
    (runCalls (pre ++ [call])).paths.Nodup
  /-- What is loaded after it was in the scan. -/
  scanned : ∀ pre call post ds, calls = pre ++ call :: post → call.scan = .ok ds →
    ∀ p ∈ (runCalls (pre ++ [call])).paths, p ∈ ds.map (·.path)
  /-- A `reload` with the scan of the call before it changes nothing and returns `false`. -/
  settled : ∀ pre call post, calls = pre ++ call :: .reload call.scan :: post →
    (runCalls (pre ++ [call])).reload call.scan = (runCalls (pre ++ [call]), false)
  /-- On an empty catalog, both calls load the same paths. -/
  alike : ∀ call ∈ calls, ∀ p, p ∈ (scanDirectory {} call.scan).paths ↔
    p ∈ (reload {} call.scan).1.paths

/-- After a call with a clean scan the catalog is in order, holds what was scanned, and there is
nothing to do for any descriptor. -/
theorem Orderly.run (hc : c.Orderly) {call : Call} {ds : List PluginDescriptor}
    (hscan : call.scan = .ok ds) (hds : Clean ds) :
    (call.run c).Orderly ∧ (∀ x ∈ (call.run c).loaded, x.1 ∈ ds.map (·.path)) ∧
      ∀ d ∈ ds, (call.run c).Quiet d := by
  match call, hscan with
  | .scanDirectory _, rfl =>
    refine ⟨orderly_scanDirectory c hds, fun x hx ↦ ?_, quiet_scanDirectory c hds⟩
    have hmem := (paths_scanDirectory c ds).mem_iff.mp (List.mem_map_of_mem hx)
    exact (List.Sublist.map _ List.filter_sublist).subset hmem
  | .reload _, rfl =>
    obtain ⟨horderly, hfrom⟩ := hc.reload ds
    refine ⟨horderly, fun x hx ↦ ?_, hc.quiet_reload hds⟩
    rcases hfrom x hx with ⟨-, h⟩ | ⟨d, hd, -, -, rfl⟩
    · exact h
    · exact List.mem_map_of_mem hd

theorem orderly_runCalls {calls : List Call}
    (h : ∀ call ∈ calls, ∀ ds, call.scan = .ok ds → Clean ds) : (runCalls calls).Orderly := by
  induction calls using List.reverseRecOn with
  | nil => exact orderly_empty
  | append_singleton calls call ih =>
    have hc := ih fun call' hcall' ↦ h call' (List.mem_append_left _ hcall')
    rw [runCalls_concat]
    rcases hscan : call.scan with e | ds
    · match call, hscan with
      | .scanDirectory _, rfl => exact orderly_empty
      | .reload _, rfl => exact hc
    · exact (hc.run hscan (h call (by simp) ds hscan)).1

/-- The paths both calls load from a clean scan. -/
theorem mem_paths_reload {ds : List PluginDescriptor} (hds : Clean ds) (p : String) :
    p ∈ (scanDirectory {} (.ok ds)).paths ↔ p ∈ (reload {} (.ok ds)).1.paths := by
  rw [(paths_scanDirectory {} ds).mem_iff]
  constructor
  · rintro hp
    obtain ⟨d, hd, rfl⟩ := List.mem_map.mp hp
    obtain ⟨hd, hloads⟩ := List.mem_filter.mp hd
    rcases orderly_empty.quiet_reload hds d hd with h0 | ⟨m, hm, -⟩ | ⟨-, hfail⟩
    · exact absurd h0 (hds.timed d hd hloads)
    · exact List.mem_map_of_mem hm
    · exact absurd hloads (by simp [hfail])
  · rintro hp
    obtain ⟨x, hx, rfl⟩ := List.mem_map.mp hp
    rcases (orderly_empty.reload ds).2 x hx with ⟨hx, -⟩ | ⟨d, hd, hloads, -, rfl⟩
    · exact absurd hx List.not_mem_nil
    · exact List.mem_map_of_mem (List.mem_filter.mpr ⟨hd, hloads⟩)

theorem faithful_of_clean {calls : List Call}
    (h : ∀ call ∈ calls, ∀ ds, call.scan = .ok ds → Clean ds) : Faithful calls := by
  have hstate : ∀ pre call post ds, calls = pre ++ call :: post → call.scan = .ok ds →
      (runCalls (pre ++ [call])).Orderly ∧
        (∀ x ∈ (runCalls (pre ++ [call])).loaded, x.1 ∈ ds.map (·.path)) ∧
          ∀ d ∈ ds, (runCalls (pre ++ [call])).Quiet d := by
    rintro pre call post ds rfl hscan
    rw [runCalls_concat]
    exact (orderly_runCalls fun call' hcall' ↦ h call' (List.mem_append_left _ hcall')).run hscan
      (h call (by simp) ds hscan)
  refine ⟨fun pre call post ds hcalls hscan ↦ (hstate pre call post ds hcalls hscan).1.nodup,
    fun pre call post ds hcalls hscan p hp ↦ ?_, fun pre call post hcalls ↦ ?_,
    fun call hcall p ↦ ?_⟩
  · obtain ⟨x, hx, rfl⟩ := List.mem_map.mp hp
    exact (hstate pre call post ds hcalls hscan).2.1 x hx
  · rcases hscan : call.scan with e | ds
    · rfl
    · obtain ⟨horderly, hdisk, hquiet⟩ := hstate pre call _ ds hcalls hscan
      exact horderly.reload_of_quiet hdisk hquiet
  · rcases hscan : call.scan with e | ds
    · exact Iff.rfl
    · exact mem_paths_reload (h call hcall ds hscan) p

/-- The catalog is faithful in every sequence of calls over a set of scans if and only if the scans
are clean. -/
theorem faithful_iff_clean (scans : Set (List PluginDescriptor)) :
    (∀ calls, (∀ call ∈ calls, ∀ ds, call.scan = .ok ds → ds ∈ scans) → Faithful calls) ↔
      ∀ ds ∈ scans, Clean ds := by
  constructor
  · intro h ds hds
    have hrun := h [.scanDirectory (.ok ds), .reload (.ok ds)] (by
      rintro call hcall ds' hscan
      simp only [List.mem_cons, List.not_mem_nil, or_false] at hcall
      rcases hcall with rfl | rfl <;> obtain rfl := Except.ok.inj hscan <;> exact hds)
    have hperm := loaded_scanDirectory {} ds
    have hpaths := paths_scanDirectory {} ds
    have hnodup : (scanDirectory {} (.ok ds)).paths.Nodup := hrun.unique [] _ _ ds rfl rfl
    have hapart := hpaths.nodup_iff.mp hnodup
    -- what `reload` loads has a time, and the two calls load the same
    have htimed : ∀ d ∈ ds, d.loads = true → safeMtime d ≠ 0 := by
      intro d hd hloads
      have hmem : d ∈ ds.filter (·.loads) := List.mem_filter.mpr ⟨hd, hloads⟩
      have hp := (hrun.alike _ List.mem_cons_self d.path).mp
        (hpaths.mem_iff.mpr (List.mem_map_of_mem hmem))
      obtain ⟨x, hx, hpath⟩ := List.mem_map.mp hp
      rcases (orderly_empty.reload ds).2 x hx with ⟨hx, -⟩ | ⟨e, he, hloads', htime, rfl⟩
      · exact absurd hx List.not_mem_nil
      · have heq : e = d := List.inj_on_of_nodup_map hapart (List.mem_filter.mpr ⟨he, hloads'⟩) hmem
          hpath
        exact heq ▸ htime
    have hc : (scanDirectory {} (.ok ds)).Orderly := by
      refine ⟨hnodup, fun x hx ↦ ?_⟩
      obtain ⟨d, hd, rfl⟩ := List.mem_map.mp (hperm.mem_iff.mp hx)
      exact htimed d (List.mem_of_mem_filter hd) (List.mem_filter.mp hd).2
    refine ⟨htimed, hapart, fun d hd e he hloads hfail hpath hzero ↦ ?_⟩
    have hsettled : reload (scanDirectory {} (.ok ds)) (.ok ds) = (scanDirectory {} (.ok ds), false) :=
      hrun.settled [] _ _ rfl
    have hquiet := ((hc.reload_snd ds).mp (congrArg Prod.snd hsettled)).2 e he
    have hmem : (e.path, safeMtime d) ∈ (scanDirectory {} (.ok ds)).loaded :=
      hperm.mem_iff.mpr (List.mem_map.mpr ⟨d, List.mem_filter.mpr ⟨hd, hloads⟩, by rw [hpath]⟩)
    rcases hquiet with h0 | ⟨m, hm, hle⟩ | ⟨habsent, -⟩
    · exact absurd h0 hzero
    · rwa [eq_of_mem hnodup hmem hm]
    · exact absurd (List.mem_map_of_mem hmem) habsent
  · exact fun h calls hcalls ↦ faithful_of_clean fun call hcall ds hscan ↦
      h ds (hcalls call hcall ds hscan)

/-- A parser library and a link to it. -/
def linkedParser : List PluginDescriptor :=
  [⟨.messageParser, "json", "JSON", "1.0", ["json"], [], "/plugins/json.so", some 7, some ⟨0, false⟩⟩,
    ⟨.messageParser, "json", "JSON", "1.0", ["json"], [], "/plugins/json.so", some 7,
      some ⟨0, false⟩⟩]

/-- A link in the plugin directory: `scanDirectory` registers the library twice. -/
theorem not_faithful_link : ¬∀ calls, Faithful calls := by
  intro h
  have hunique := (h [.scanDirectory (.ok linkedParser)]).unique [] _ [] linkedParser rfl rfl
  exact absurd hunique (by decide)

end PluginRuntimeCatalog

end PlotJuggler
