import PlotJugglerCore.Lib.LongestSuffix
import PlotJugglerCore.Object.Runs
import PlotJugglerCore.Store.Runs

/-!
# What retention keeps

Both stores drop what is older than a window behind the newest timestamp, and both compute the edge
of the window as a difference of two signed 64-bit numbers. The object store then also drops from the
front until the owned bytes fit. The statements here are in integers: the entries kept are the
longest suffix inside the window and the budget, the chunks dropped the longest prefix behind the
window.

When the true edge lies below the range, the difference comes back above the newest timestamp, and
everything is dropped where nothing should be.
-/

namespace PlotJuggler

namespace ObjectStore

variable {L : Type*}

namespace Series

variable {s : Series L} {t : Int64} {payload : Payload L}

/-! ## The eviction loops -/

theorem budget_evictFront (s : Series L) : s.evictFront.budget = s.budget := by
  rw [evictFront]
  split <;> rfl

/-- A loop that evicts as long as the entries do not have a property leaves the longest suffix of
them that does. -/
theorem longestSuffix_evictWhile {P : List (Entry L) → Prop} {cond : Series L → Bool} (hnil : P [])
    {budget : RetentionBudget}
    (hcond : ∀ s : Series L, s.Valid → s.budget = budget → s.entries ≠ [] →
      (cond s ↔ ¬P s.entries)) {n : ℕ}
    (hs : s.Valid) (hbudget : s.budget = budget) (hn : s.entries.length ≤ n) :
    LongestSuffix P s.entries (evictWhile cond n s).entries := by
  induction n generalizing s with
  | zero =>
    have hempty : s.entries = [] := List.length_eq_zero_iff.mp (Nat.le_zero.mp hn)
    rw [evictWhile, hempty]
    exact .refl hnil
  | succ n ih =>
    rw [evictWhile]
    rcases hentries : s.entries with _ | ⟨e, rest⟩
    · rw [if_neg (by simp), hentries]
      exact .refl hnil
    · have hiff := hcond s hs hbudget (by rw [hentries]; exact List.cons_ne_nil e rest)
      rw [hentries] at hiff
      split_ifs with hgo
      · rw [Bool.and_eq_true] at hgo
        have hrest : s.evictFront.entries = rest := by rw [evictFront, hentries]
        have hle : s.evictFront.entries.length ≤ n := by
          rw [hrest]
          rw [hentries, List.length_cons] at hn
          omega
        have htail := ih hs.evictFront ((budget_evictFront s).trans hbudget) hle
        rw [hrest] at htail
        exact htail.cons (hiff.mp hgo.2)
      · rw [hentries]
        refine .refl ?_
        by_contra hnot
        rw [hiff.mpr hnot] at hgo
        simp at hgo

/-- No entry lies before a threshold. -/
def NotBefore (threshold : ℤ) (entries : List (Entry L)) : Prop :=
  ∀ e ∈ entries, threshold ≤ e.timestamp.toInt

def ownedBytes (entries : List (Entry L)) : ℕ := (entries.map Entry.ownedSize).sum

theorem notBefore_closed (threshold : ℤ) :
    LongestSuffix.Closed (NotBefore threshold : List (Entry L) → Prop) :=
  fun _ _ hsuffix hl e he ↦ hl e (hsuffix.subset he)

theorem Valid.pairwise (hs : s.Valid) : s.entries.Pairwise fun a b ↦ a.timestamp ≤ b.timestamp := by
  have hsorted := hs.sorted
  rwa [hs.stamps, List.pairwise_map] at hsorted

theorem longestSuffix_evictBefore (hs : s.Valid) (threshold : Int64) :
    LongestSuffix (NotBefore threshold.toInt) s.entries (s.evictBefore threshold).entries := by
  refine longestSuffix_evictWhile (fun _ he ↦ absurd he List.not_mem_nil) ?_ hs rfl le_rfl
  intro s hs _ hne
  obtain ⟨e, rest, hentries⟩ := List.exists_cons_of_ne_nil hne
  have hpair := hs.pairwise
  rw [hs.stamps, hentries, List.map_cons, List.headD_cons, decide_eq_true_eq,
    Int64.lt_iff_toInt_lt]
  rw [hentries] at hpair
  constructor
  · intro hlt hall
    exact absurd (hall e List.mem_cons_self) (not_le.mpr hlt)
  · intro hnot
    by_contra hle
    refine hnot fun a ha ↦ (not_lt.mp hle).trans ?_
    rcases List.mem_cons.mp ha with rfl | ha
    · exact le_rfl
    · exact Int64.le_iff_toInt_le.mp (List.rel_of_pairwise_cons hpair ha)

theorem longestSuffix_byMemory (hs : s.Valid) :
    LongestSuffix (fun l ↦ 0 < s.budget.maxMemoryBytes → ownedBytes l ≤ s.budget.maxMemoryBytes)
      s.entries (applyRetention.byMemory s).entries := by
  rw [applyRetention.byMemory]
  split_ifs with hlimit
  · refine longestSuffix_evictWhile (fun _ ↦ Nat.zero_le _) ?_ hs rfl le_rfl
    intro s' hs' hbudget _
    rw [decide_eq_true_eq, hbudget, hs'.memory, ← ownedBytes, forall_prop_of_true hlimit, not_le]
  · exact .refl fun h ↦ absurd h hlimit

theorem budget_evictBefore (s : Series L) (threshold : Int64) :
    (s.evictBefore threshold).budget = s.budget :=
  evictWhile_induction (I := fun s' ↦ s'.budget = s.budget)
    (fun s' hs' _ ↦ (budget_evictFront s').trans hs') _ _ rfl

/-! ## A push -/

/-- The entries a push may keep: none before the window, and no more bytes than the budget allows. -/
def WithinBudget (budget : RetentionBudget) (newest : Int64) (kept : List (Entry L)) : Prop :=
  NotBefore (newest.toInt - budget.timeWindowNs.toInt) kept ∧
    (0 < budget.maxMemoryBytes → ownedBytes kept ≤ budget.maxMemoryBytes)

/-- The series before the retention is applied. -/
def appended (s : Series L) (t : Int64) (payload : Payload L) : Series L :=
  s.absorb ⟨s.descriptor, [⟨t, payload⟩], [t], {}, Entry.ownedSize (⟨t, payload⟩ : Entry L)⟩

theorem push_eq (s : Series L) (t : Int64) (payload : Payload L) :
    s.push t payload = (s.appended t payload).applyRetention t := rfl

theorem Valid.appended (hs : s.Valid) (ht : s.refuses t = false) (payload : Payload L) :
    (s.appended t payload).Valid := by
  have hone : (⟨s.descriptor, [⟨t, payload⟩], [t], {}, Entry.ownedSize ⟨t, payload⟩⟩ :
      Series L).Valid := ⟨rfl, List.pairwise_singleton _ _, by simp⟩
  refine hs.absorb hone fun a ha b hb ↦ ?_
  obtain rfl := Option.some.inj hb
  rw [refuses, ha] at ht
  simpa using ht

/-- The newest entry is the last. -/
theorem Valid.le_newest (hs : s.Valid) (ht : s.refuses t = false) (payload : Payload L)
    {e : Entry L} (he : e ∈ (s.appended t payload).entries) : e.timestamp ≤ t := by
  have hpair := (hs.appended ht payload).pairwise
  rcases List.mem_append.mp he with he | he
  · exact (List.pairwise_append.mp hpair).2.2 e he _ List.mem_cons_self
  · rw [List.mem_singleton.mp he]

/-- A push keeps the longest suffix within the window the machine computes and the budget. -/
theorem Valid.longestSuffix_push (hs : s.Valid) (ht : s.refuses t = false) (payload : Payload L)
    (hwindow : 0 < s.budget.timeWindowNs) :
    LongestSuffix (fun kept ↦ NotBefore (t - s.budget.timeWindowNs).toInt kept ∧
        (0 < s.budget.maxMemoryBytes → ownedBytes kept ≤ s.budget.maxMemoryBytes))
      (s.entries ++ [⟨t, payload⟩]) (s.push t payload).entries := by
  have hvalid := hs.appended ht payload
  have hpush : s.push t payload = applyRetention.byMemory
      ((s.appended t payload).evictBefore (t - s.budget.timeWindowNs)) := by
    rw [push_eq, Series.applyRetention]
    exact congrArg applyRetention.byMemory (if_pos hwindow)
  have hmemory := longestSuffix_byMemory (hvalid.evictBefore (t - s.budget.timeWindowNs))
  rw [budget_evictBefore] at hmemory
  rw [hpush]
  exact (longestSuffix_evictBefore hvalid _).and (notBefore_closed _) hmemory

/-- Retention is exact as long as the edge of the window is a timestamp, or else the new payload
alone is over the budget. -/
theorem Valid.withinBudget_push_iff (hs : s.Valid) (ht : s.refuses t = false)
    (hwindow : 0 < s.budget.timeWindowNs) :
    LongestSuffix (WithinBudget s.budget t) (s.entries ++ [⟨t, payload⟩])
        (s.push t payload).entries ↔
      Int64.minValue.toInt ≤ t.toInt - s.budget.timeWindowNs.toInt ∨
        0 < s.budget.maxMemoryBytes ∧
          s.budget.maxMemoryBytes < Entry.ownedSize (⟨t, payload⟩ : Entry L) := by
  have hpush := hs.longestSuffix_push ht payload hwindow
  rcases le_or_gt Int64.minValue.toInt (t.toInt - s.budget.timeWindowNs.toInt) with hfits | hwraps
  · refine iff_of_true ?_ (.inl hfits)
    rw [Int64.toInt_sub_of_pos hwindow hfits] at hpush
    exact hpush
  · -- the edge comes back above the newest timestamp, so nothing is kept
    have hlate := Int64.lt_sub_of_lt hwindow hwraps
    have hempty : (s.push t payload).entries = [] := by
      rw [List.eq_nil_iff_forall_not_mem]
      intro e he
      have hle := hs.le_newest ht payload (hpush.suffix.subset he)
      have hedge := hpush.holds.1 e he
      rw [← Int64.le_iff_toInt_le] at hedge
      exact absurd (hedge.trans hle) (not_le.mpr hlate)
    have hinside : ∀ kept : List (Entry L),
        NotBefore (t.toInt - s.budget.timeWindowNs.toInt) kept :=
      fun _ e _ ↦ hwraps.le.trans (Int64.le_iff_toInt_le.mp (Int64.minValue_le e.timestamp))
    rw [hempty, or_iff_right (not_le.mpr hwraps)]
    constructor
    · intro h
      by_contra hsmall
      have hone : WithinBudget s.budget t [(⟨t, payload⟩ : Entry L)] := by
        refine ⟨hinside _, fun hlimit ↦ ?_⟩
        rw [ownedBytes, List.map_singleton, List.sum_singleton]
        exact not_lt.mp fun hlt ↦ hsmall ⟨hlimit, hlt⟩
      exact absurd (List.suffix_nil.mp (h.longest _ (List.suffix_append _ _) hone))
        (List.cons_ne_nil _ _)
    · rintro ⟨hlimit, hlarge⟩
      refine ⟨List.nil_suffix, ⟨hinside _, fun _ ↦ Nat.zero_le _⟩, fun kept hsuffix hkept ↦ ?_⟩
      rcases List.suffix_concat_iff.mp hsuffix with rfl | ⟨kept, rfl, -⟩
      · exact List.suffix_rfl
      · have hbytes := hkept.2 hlimit
        rw [ownedBytes, List.map_append, List.sum_append, List.map_singleton,
          List.sum_singleton] at hbytes
        omega

end Series

/-! ## A push to a store -/

theorem findSeries_modifySeries {st : ObjectStore L} {id : UInt32} {s : Series L}
    (h : st.findSeries id = some s) (f : Series L → Series L) :
    (st.modifySeries id f).findSeries id = some (f s) := by
  obtain ⟨p, hp, rfl⟩ := Option.map_eq_some_iff.mp h
  obtain ⟨hid, i, hi, rfl, hbefore⟩ := List.find?_eq_some_iff_getElem.mp hp
  have hposition : st.position id = some i :=
    List.findIdx?_eq_some_iff_getElem.mpr ⟨hi, hid, fun j hj ↦ by simpa using hbefore j hj⟩
  have hfind : (st.topics.modify i (Prod.map (fun id ↦ id) f)).find? (fun p ↦ p.1 = id)
      = some (Prod.map (fun id ↦ id) f st.topics[i]) := by
    refine List.find?_eq_some_iff_getElem.mpr ⟨hid, i, by rwa [List.length_modify], ?_, ?_⟩
    · rw [List.getElem_modify_eq]
    · intro j hj
      have hne : i ≠ j := by omega
      simpa [List.getElem_modify, hne] using hbefore j hj
  rw [modifySeries, hposition]
  exact congrArg (Option.map Prod.snd) hfind

end ObjectStore

/-! ## Chunks -/

namespace TopicStorage

/-- Exactly the longest prefix of chunks that end before the window is gone, and so the newest chunk
is still there. -/
structure Retains (s : TopicStorage) (window : Timestamp) (s' : TopicStorage) : Prop where
  exact : ∃ removed, s.sealedChunks = removed ++ s'.sealedChunks ∧
    (∀ c ∈ removed, c.stats.tMax.toInt < s.timeMax.toInt - window.toInt) ∧
    ∀ c, s'.sealedChunks.head? = some c → s.timeMax.toInt - window.toInt ≤ c.stats.tMax.toInt
  newest : s'.sealedChunks.getLast? = s.sealedChunks.getLast?

/-- The newest chunk does not end before the window. -/
theorem getLast?_of_exact {s : TopicStorage} {window : Timestamp} (hwindow : 0 < window)
    {removed kept : List TopicChunk} (hsplit : s.sealedChunks = removed ++ kept)
    (hall : ∀ c ∈ removed, c.stats.tMax.toInt < s.timeMax.toInt - window.toInt) :
    kept.getLast? = s.sealedChunks.getLast? := by
  rcases kept.eq_nil_or_concat with rfl | ⟨kept, c, rfl⟩
  · rw [List.append_nil] at hsplit
    rcases hlast : s.sealedChunks.getLast? with _ | c
    · rfl
    · have hlt := hall c (hsplit ▸ List.mem_of_getLast? hlast)
      have hmax : s.timeMax = c.stats.tMax := by rw [timeMax, hlast]; rfl
      have hpos : 0 < window.toInt := Int64.lt_iff_toInt_lt.mp hwindow
      rw [hmax] at hlt
      omega
  · rw [hsplit, List.concat_eq_append, ← List.append_assoc, List.getLast?_concat,
      List.getLast?_concat]

theorem retains_retain_iff {s : TopicStorage} {window : Timestamp} (hwindow : 0 < window) :
    s.Retains window (s.retain window) ↔ ∀ first, s.sealedChunks.head? = some first →
      Int64.minValue.toInt ≤ s.timeMax.toInt - window.toInt ∨
        s.timeMax - window ≤ first.stats.tMax := by
  rcases hchunks : s.sealedChunks with _ | ⟨first, rest⟩
  · have hsame : s.retain window = s := by rw [retain, isEmpty, hchunks]; rfl
    rw [hsame]
    refine iff_of_true ⟨⟨[], rfl, by simp, ?_⟩, rfl⟩ (by simp)
    simp [hchunks]
  · have hkept : (s.retain window).sealedChunks
        = s.sealedChunks.dropWhile fun c ↦ decide (c.stats.tMax < s.timeMax - window) := by
      rw [retain, isEmpty, hchunks, if_neg (by simp), evictBefore, hchunks]
    obtain ⟨removed, hsplit, hall, hhead⟩ := List.eq_dropWhile_iff.mp hkept
    rw [hchunks] at hkept
    simp only [List.head?_cons, Option.some.injEq, forall_eq']
    rcases le_or_gt Int64.minValue.toInt (s.timeMax.toInt - window.toInt) with hfits | hwraps
    · have hbefore : ∀ c ∈ removed, c.stats.tMax.toInt < s.timeMax.toInt - window.toInt := by
        intro c hc
        have hlt := of_decide_eq_true (hall c hc)
        rwa [Int64.lt_iff_toInt_lt, Int64.toInt_sub_of_pos hwindow hfits] at hlt
      refine iff_of_true ⟨⟨removed, hsplit, hbefore, fun c hc ↦ ?_⟩,
        getLast?_of_exact hwindow hsplit hbefore⟩ (.inl hfits)
      have hle := not_lt.mp (of_decide_eq_false (hhead c hc))
      rwa [Int64.le_iff_toInt_le, Int64.toInt_sub_of_pos hwindow hfits] at hle
    · -- nothing lies before an edge below the range, so all chunks must stay
      have hnone : ∀ c : TopicChunk, ¬c.stats.tMax.toInt < s.timeMax.toInt - window.toInt :=
        fun c hlt ↦ absurd (Int64.le_iff_toInt_le.mp (Int64.minValue_le c.stats.tMax))
          (not_le.mpr (hlt.trans hwraps))
      rw [or_iff_right (not_le.mpr hwraps)]
      constructor
      · rintro ⟨⟨removed, hsplit, hbefore, -⟩, -⟩
        have hempty : removed = [] :=
          List.eq_nil_iff_forall_not_mem.mpr fun c hc ↦ hnone c (hbefore c hc)
        rw [hempty, List.nil_append, hkept, hchunks] at hsplit
        by_contra hlt
        rw [List.dropWhile_cons_of_pos (by simpa using hlt)] at hsplit
        have hlength := (List.dropWhile_suffix (l := rest) fun c : TopicChunk ↦
          decide (c.stats.tMax < s.timeMax - window)).length_le
        rw [← hsplit, List.length_cons] at hlength
        omega
      · intro hle
        rw [List.dropWhile_cons_of_neg (by simpa using hle), ← hchunks] at hkept
        have hsame : s.sealedChunks = [] ++ (s.retain window).sealedChunks := hkept.symm
        refine ⟨⟨[], hsame, by simp, fun c _ ↦ not_lt.mp (hnone c)⟩, by rw [hkept]⟩

end TopicStorage

namespace Engine

theorem topics_foldl_mapTopic_of_notMem {order : List ℕ} {e : Engine} {τ : ℕ} (hτ : τ ∉ order)
    (f : TopicStorage → TopicStorage) :
    (order.foldl (fun e σ ↦ e.mapTopic σ f) e).topics τ = e.topics τ := by
  induction order generalizing e with
  | nil => rfl
  | cons σ order ih =>
    rw [List.mem_cons, not_or] at hτ
    rw [List.foldl_cons, ih hτ.2, mapTopic_of_ne hτ.1]

/-- Retention reaches every topic once. -/
theorem topics_enforceRetention {e : Engine} {τ : ℕ} {s : TopicStorage} (hs : e.topics τ = some s)
    (window : Timestamp) : (e.enforceRetention window).topics τ = some (s.retain window) := by
  have hτ : τ ∈ e.order := (e.mem_order τ).mpr (by rw [hs]; rfl)
  obtain ⟨before, after, horder⟩ := List.append_of_mem hτ
  have hnodup := e.nodup
  rw [horder, List.nodup_append, List.nodup_cons] at hnodup
  have hbefore : τ ∉ before := fun hmem ↦ hnodup.2.2 τ hmem τ List.mem_cons_self rfl
  rw [enforceRetention, horder, List.foldl_append, List.foldl_cons,
    topics_foldl_mapTopic_of_notMem hnodup.2.1.1, mapTopic_self,
    topics_foldl_mapTopic_of_notMem hbefore, hs]
  rfl

end Engine

/-! ## Both stores -/

open ObjectStore (Series Payload start)
open ObjectStore.Series (WithinBudget)

/-- Where exactly the window is kept: in the object store when its edge is a timestamp or the new
payload alone is over the budget, in the engine when its edge is a timestamp or, for want of time
order, the first chunk ends behind the difference that wrapped. -/
theorem retention_exact_iff {L : Type*} :
    (∀ (calls : List (ObjectStore.Call L)) (k : ℕ) (id : UInt32) (s : Series L) (t : Int64)
      (payload : Payload L), (ObjectStore.run start calls k).findSeries id = some s →
      0 < s.budget.timeWindowNs → s.refuses t = false →
      ((∃ s', ((ObjectStore.run start calls k).push id t payload).1.findSeries id = some s' ∧
          LongestSuffix (WithinBudget s.budget t) (s.entries ++ [⟨t, payload⟩]) s'.entries) ↔
        Int64.minValue.toInt ≤ t.toInt - s.budget.timeWindowNs.toInt ∨
          0 < s.budget.maxMemoryBytes ∧
            s.budget.maxMemoryBytes < ObjectStore.Entry.ownedSize ⟨t, payload⟩)) ∧
    ∀ (e : Engine) (τ : ℕ) (s : TopicStorage) (window : Timestamp), e.topics τ = some s →
      0 < window →
      ((∃ s', (e.enforceRetention window).topics τ = some s' ∧ s.Retains window s') ↔
        ∀ first, s.sealedChunks.head? = some first →
          Int64.minValue.toInt ≤ s.timeMax.toInt - window.toInt ∨
            s.timeMax - window ≤ first.stats.tMax) := by
  constructor
  · intro calls k id s t payload hs hwindow ht
    have hvalid : s.Valid := by
      obtain ⟨p, hp, rfl⟩ := Option.map_eq_some_iff.mp hs
      exact (ObjectStore.run_start_valid calls k).series p (List.mem_of_find?_eq_some hp)
    have hpush : ((ObjectStore.run start calls k).push id t payload).1.findSeries id
        = some (s.push t payload) := by
      rw [ObjectStore.push, hs]
      simp only [ht]
      exact ObjectStore.findSeries_modifySeries hs _
    rw [← hvalid.withinBudget_push_iff ht hwindow, hpush]
    simp only [Option.some.injEq, exists_eq_left']
  · intro e τ s window hs hwindow
    rw [← TopicStorage.retains_retain_iff hwindow, Engine.topics_enforceRetention hs]
    simp only [Option.some.injEq, exists_eq_left']

/-- A chunk of one row. -/
def pointChunk (t : Timestamp) : TopicChunk where
  id := 1
  topicId := 1
  schemaVersion := 0
  stats := ⟨t, t, 1, []⟩
  timestamps := [t]
  columns := []

/-- A topic with a window of five and an entry at `0`, and the series behind it. -/
def windowed : List (ObjectStore.Call Unit) :=
  [.registerTopic 0 ⟨0, "camera", ""⟩, .setRetentionBudget 0 1 ⟨5, 0⟩, .pushLazy 0 1 0 ()]

def windowedSeries : Series Unit where
  descriptor := ⟨0, "camera", ""⟩
  entries := [⟨0, .deferred ()⟩]
  entryTimestamps := [0]
  budget := ⟨5, 0⟩

/-- An engine with two points, ten apart. -/
def pointEngine : Engine :=
  (Engine.create [{ name := "speed" }]).mapTopic 1 fun s ↦
    { s with sealedChunks := [pointChunk 0, pointChunk 10] }

def pointStorage : TopicStorage where
  topicId := 1
  descriptor := { name := "speed" }
  sealedChunks := [pointChunk 0, pointChunk 10]

theorem retention_exact_iff_windows :
    (∃ s', ((ObjectStore.run ObjectStore.start windowed 0).push 1 6 (.deferred ())).1.findSeries 1
        = some s' ∧ LongestSuffix (Series.WithinBudget ⟨5, 0⟩ 6)
          [⟨0, .deferred ()⟩, ⟨6, .deferred ()⟩] s'.entries) ∧
      ∃ s', (pointEngine.enforceRetention 5).topics 1 = some s' ∧ pointStorage.Retains 5 s' := by
  constructor
  · exact (retention_exact_iff.1 windowed 0 1 windowedSeries 6 (.deferred ()) (by decide +kernel)
      (by decide) (by decide)).mpr (.inl (by decide))
  · exact ((retention_exact_iff (L := Unit)).2 pointEngine 1 pointStorage 5 (by rfl) (by decide)).mpr
      fun first _ ↦ .inl (by decide)

/-- A topic with a window of one nanosecond. -/
def narrow : List (ObjectStore.Call Unit) :=
  [.registerTopic 0 ⟨0, "camera", ""⟩, .setRetentionBudget 0 1 ⟨1, 0⟩]

/-- An entry at the earliest time there is falls out of its own window. -/
theorem not_retention_exact : ¬∀ (calls : List (ObjectStore.Call Unit)) (k : ℕ) (id : UInt32)
    (s : Series Unit) (t : Int64) (payload : ObjectStore.Payload Unit),
    (ObjectStore.run ObjectStore.start calls k).findSeries id = some s →
      0 < s.budget.timeWindowNs → s.refuses t = false →
      ∃ s', ((ObjectStore.run ObjectStore.start calls k).push id t payload).1.findSeries id
          = some s' ∧
        LongestSuffix (Series.WithinBudget s.budget t) (s.entries ++ [⟨t, payload⟩])
          s'.entries := by
  intro hall
  obtain ⟨s', hs', hkept⟩ := hall narrow 0 1 ⟨⟨0, "camera", ""⟩, [], [], ⟨1, 0⟩, 0⟩
    Int64.minValue (.deferred ()) (by decide +kernel) (by decide) (by decide)
  have hgone : ((ObjectStore.run ObjectStore.start narrow 0).push 1 Int64.minValue
      (.deferred ())).1.findSeries 1
        = some ⟨⟨0, "camera", ""⟩, [], [], ⟨1, 0⟩, 0⟩ := by decide +kernel
  obtain rfl := Option.some.inj (hgone.symm.trans hs')
  have hone := hkept.longest [⟨Int64.minValue, .deferred ()⟩] List.suffix_rfl
    ⟨by intro e he; rw [List.mem_singleton.mp he]; decide, by decide⟩
  exact absurd (List.suffix_nil.mp hone) (List.cons_ne_nil _ _)

end PlotJuggler
