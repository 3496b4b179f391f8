import PlotJugglerCore.Object.Flush

/-!
# Runs of object stores

Any number of stores, and calls on them in any order. What a single call keeps is proved per
operation; here it becomes a statement about every state a run reaches.

The names of the topics of a store are different in every state, because a registration looks for
its name first. Ids are not looked for. A counter of 32 bits comes round, and a topic that has stayed
since then shares its id with the new one, which no lookup by id can reach.
-/

namespace PlotJuggler

namespace ObjectStore

variable {L : Type*} {W : Stores L}

/-! ## One call -/

theorem forall_update {P : ObjectStore L → Prop} (hW : ∀ k, P (W k)) {k : ℕ} {st : ObjectStore L}
    (hst : P st) : ∀ k', P (Function.update W k st k') :=
  (Function.forall_update_iff W fun _ ↦ P).mpr ⟨hst, fun k' _ ↦ hW k'⟩

theorem step_valid (hW : ∀ k, (W k).Valid) (c : Call L) : ∀ k, ((step W c).1 k).Valid := by
  cases c with
  | registerTopic k d => exact forall_update hW ((hW k).registerTopic d)
  | pushOwned k id t payload => exact forall_update hW ((hW k).push id t _)
  | pushLazy k id t fetch => exact forall_update hW ((hW k).push id t _)
  | setRetentionBudget k id budget => exact forall_update hW ((hW k).setRetentionBudget id budget)
  | evictBefore k id threshold => exact forall_update hW ((hW k).evictBefore id threshold)
  | evictAllBefore k threshold => exact forall_update hW ((hW k).evictAllBefore threshold)
  | flushTo k k' =>
    rw [step]
    split_ifs
    · exact hW
    · obtain ⟨hsrc, hdst⟩ := (hW k).flushTo (hW k')
      exact forall_update (forall_update hW hsrc) hdst
  | removeTopic k id => exact forall_update hW ((hW k).removeTopic id)
  | clear k => exact forall_update hW Valid.empty

theorem run_valid (hW : ∀ k, (W k).Valid) (calls : List (Call L)) : ∀ k, (run W calls k).Valid := by
  induction calls generalizing W with
  | nil => exact hW
  | cons c calls ih => exact ih (step_valid hW c)

/-- Stores as they are created. -/
def start : Stores L := fun _ ↦ {}

theorem run_start_valid (calls : List (Call L)) (k : ℕ) : (run start calls k).Valid :=
  run_valid (fun _ ↦ Valid.empty) calls k

/-! ## Moving between two stores -/

/-- What a move from `src` to `dst` leaves behind, `src'` and `dst'`, and when it is refused. -/
structure Flushed (src dst src' dst' : ObjectStore L) (error : Option StoreError) : Prop where
  unchanged : error.isSome → src' = src ∧ dst' = dst
  refused : error.isSome ↔ ∃ p ∈ src.topics, p.2.entries ≠ [] ∧
    ((∀ q ∈ dst.topics, q.2.descriptor.key ≠ p.2.descriptor.key) ∨
      ∃ q ∈ dst.topics, q.2.descriptor.key = p.2.descriptor.key ∧
        ∃ first ∈ p.2.entries.head?, ∃ newest ∈ q.2.entries.getLast?,
          first.timestamp < newest.timestamp)
  labels : src'.labels = src.labels ∧ dst'.labels = dst.labels
  emptied : error = none →
    ∀ p ∈ src'.topics, p.2.entries = [] ∧ p.2.entryTimestamps = [] ∧ p.2.memoryBytes = 0
  received : error = none → ∀ (j : ℕ) tid d, dst.topics[j]? = some (tid, d) →
    ∀ p ∈ src.topics, p.2.entries ≠ [] → p.2.descriptor.key = d.descriptor.key →
      ∃ newest, p.2.entries.getLast? = some newest ∧
        dst'.topics[j]? = some (tid, (d.absorb p.2).applyRetention newest.timestamp)
  untouched : error = none → ∀ (j : ℕ) q, dst.topics[j]? = some q →
    (∀ p ∈ src.topics, p.2.entries ≠ [] → p.2.descriptor.key ≠ q.2.descriptor.key) →
      dst'.topics[j]? = some q

theorem Series.Valid.entryTimestamps_eq_nil {s : Series L} (hs : s.Valid) :
    s.entryTimestamps = [] ↔ s.entries = [] := by
  rw [hs.stamps, List.map_eq_nil_iff]

/-- The destination refuses a series: it has no topic of that name, or a newer entry in it. -/
theorem Valid.not_admits_iff {dst : ObjectStore L} (hdst : dst.Valid) {s : Series L} (hs : s.Valid)
    (hne : s.entries ≠ []) :
    ¬ dst.Admits s ↔ (∀ q ∈ dst.topics, q.2.descriptor.key ≠ s.descriptor.key) ∨
      ∃ q ∈ dst.topics, q.2.descriptor.key = s.descriptor.key ∧
        ∃ first ∈ s.entries.head?, ∃ newest ∈ q.2.entries.getLast?,
          first.timestamp < newest.timestamp := by
  obtain ⟨first, rest, hentries⟩ := List.exists_cons_of_ne_nil hne
  have hhead : s.entryTimestamps.headD 0 = first.timestamp := by
    rw [hs.stamps, hentries]
    rfl
  have hviolates : ∀ {j : ℕ} {q}, dst.topics[j]? = some q →
      (dst.violates j s = true ↔
        ∃ newest ∈ q.2.entries.getLast?, first.timestamp < newest.timestamp) := by
    intro j q hq
    rw [violates_eq_true hq, hhead, (hdst.series q (List.mem_of_getElem? hq)).stamps,
      List.getLast?_map]
    simp
  constructor
  · intro hnot
    by_cases hkey : ∃ q ∈ dst.topics, q.2.descriptor.key = s.descriptor.key
    · obtain ⟨q, hq, hkey⟩ := hkey
      obtain ⟨j, hj⟩ := List.mem_iff_getElem?.mp hq
      have hbad : dst.violates j s = true := by
        by_contra hgood
        exact hnot ⟨j, hdst.findMatch hj hkey, Bool.eq_false_iff.mpr hgood⟩
      exact .inr ⟨q, hq, hkey, first, by rw [hentries]; rfl, (hviolates hj).mp hbad⟩
    · push Not at hkey
      exact .inl hkey
  · rintro (hnone | ⟨q, hq, hkey, first', hfirst', hnewer⟩) ⟨j, hmatch, hgood⟩
    · obtain ⟨q, hq, hkey⟩ := findMatch_eq_some hmatch
      exact hnone q (List.mem_of_getElem? hq) hkey
    · obtain rfl : first = first' := by
        rw [hentries, List.head?_cons] at hfirst'
        exact Option.some.inj hfirst'
      obtain ⟨i, hi⟩ := List.mem_iff_getElem?.mp hq
      obtain rfl : i = j := Option.some.inj ((hdst.findMatch hi hkey).symm.trans hmatch)
      exact Bool.eq_false_iff.mp hgood ((hviolates hi).mpr hnewer)

theorem Series.receive_eq {s src : Series L} {newest : Int64}
    (h : src.entryTimestamps.getLast? = some newest) :
    s.receive src = (s.absorb src).applyRetention newest := by
  have hlast : (s.absorb src).entryTimestamps.getLastD 0 = newest := by
    rw [absorb, List.getLastD_eq_getLast?, List.getLast?_append, h]
    rfl
  rw [receive, hlast]

theorem Valid.flushed {src dst : ObjectStore L} (hsrc : src.Valid) (hdst : dst.Valid) :
    Flushed src dst (src.flushTo dst).1.1 (src.flushTo dst).1.2
      (step.errorOf (src.flushTo dst).2) := by
  have hempty : ∀ p ∈ src.topics, (p.2.entryTimestamps ≠ [] ↔ p.2.entries ≠ []) :=
    fun p hp ↦ (hsrc.series p hp).entryTimestamps_eq_nil.not
  have hrefuses : (∃ p ∈ src.topics, p.2.entryTimestamps ≠ [] ∧ ¬ dst.Admits p.2) ↔ _ :=
    exists_congr fun p ↦ and_congr_right fun hp ↦ (and_congr (hempty p hp) Iff.rfl).trans
      (and_congr_right fun hne ↦ hdst.not_admits_iff (hsrc.series p hp) hne)
  rcases flushTo_cases src dst with ⟨hbad, e, he⟩ | ⟨hadmits, hok⟩
  · have herror : step.errorOf (src.flushTo dst).2 = some e := by rw [he]; rfl
    refine ⟨fun _ ↦ by rw [he]; exact ⟨rfl, rfl⟩, ?_, labels_flushTo src dst, ?_, ?_, ?_⟩
    · rw [herror]
      exact iff_of_true rfl (hrefuses.mp hbad)
    all_goals exact fun hnone ↦ absurd (herror.symm.trans hnone) nofun
  · have hnone : step.errorOf (src.flushTo dst).2 = none := by rw [hok]; rfl
    refine ⟨?_, ?_, labels_flushTo src dst, fun _ p hp ↦ ?_, fun _ j tid d hd p hp hne hkey ↦ ?_,
      fun _ j q hq hunmatched ↦ ?_⟩
    · rw [hnone]
      exact fun h ↦ absurd h nofun
    · rw [hnone]
      refine iff_of_false nofun (hrefuses.not.mp ?_)
      rintro ⟨p, hp, hne, hnot⟩
      exact hnot (hadmits p hp hne)
    · obtain ⟨i, hi⟩ := List.mem_iff_getElem?.mp hp
      have hlt : i < src.topics.length := by
        have hlength := congrArg List.length (labels_flushTo src dst).1
        rw [labels, labels, List.length_map, List.length_map] at hlength
        exact hlength ▸ (List.getElem?_eq_some_iff.mp hi).1
      rw [getElem?_flushTo_src hadmits hsrc (List.getElem?_eq_getElem hlt)] at hi
      rw [← Option.some.inj hi]
      exact ⟨rfl, rfl, rfl⟩
    · obtain ⟨newest, hnewest⟩ := Option.ne_none_iff_exists'.mp (List.getLast?_eq_none_iff.not.mpr hne)
      refine ⟨newest, hnewest, ?_⟩
      rw [getElem?_flushTo_dst hadmits hsrc hdst hp ((hempty p hp).mpr hne) hd hkey,
        Series.receive_eq]
      rw [(hsrc.series p hp).stamps, List.getLast?_map, hnewest]
      rfl
    · refine getElem?_flushTo_dst_of_unmatched hadmits hq fun p hp hkey ↦ ?_
      by_contra hne
      exact hunmatched p hp ((hempty p hp).mp hne) hkey

/-- A topic of one store, and two entries for it in another. -/
def oneTopic : List (Call Unit) :=
  [.registerTopic 0 ⟨0, "image", ""⟩, .registerTopic 1 ⟨0, "image", ""⟩,
    .pushOwned 0 1 10 [1, 2, 3], .pushLazy 0 1 20 ()]

def DistinctIds (st : ObjectStore L) : Prop := (st.topics.map Prod.fst).Nodup

/-- The counter has not come round to the id of a topic that is still there. -/
def Call.Fresh (W : Stores L) : Call L → Prop
  | .registerTopic k d =>
    (∀ p ∈ (W k).topics, p.2.descriptor.key ≠ d.key) → (W k).nextId ∉ (W k).topics.map Prod.fst
  | _ => True

/-- Every registration of a run finds the counter at an id that is not in use. -/
def FreshRun (W : Stores L) : List (Call L) → Prop
  | [] => True
  | c :: calls => c.Fresh W ∧ FreshRun (step W c).1 calls

theorem ids_registerTopic {st : ObjectStore L} {d : Descriptor}
    (h : ∀ p ∈ st.topics, p.2.descriptor.key ≠ d.key) :
    (st.registerTopic d).1.topics.map Prod.fst = st.topics.map Prod.fst ++ [st.nextId] := by
  rw [registerTopic, if_neg (by simpa using h), List.map_append]
  rfl

theorem DistinctIds.of_labels {st st' : ObjectStore L} (hst : st.DistinctIds)
    (h : st'.labels = st.labels) : st'.DistinctIds := by
  rw [DistinctIds, ids_eq_labels, h, ← ids_eq_labels]
  exact hst

theorem step_distinctIds (hids : ∀ k, (W k).DistinctIds) {c : Call L} (hc : c.Fresh W) :
    ∀ k, ((step W c).1 k).DistinctIds := by
  have hsame : ∀ {k : ℕ} {st : ObjectStore L}, st.labels = (W k).labels →
      ∀ k', (Function.update W k st k').DistinctIds :=
    fun {k _} h ↦ forall_update hids ((hids k).of_labels h)
  cases c with
  | registerTopic k d =>
    refine forall_update hids ?_
    by_cases hkey : ∀ p ∈ (W k).topics, p.2.descriptor.key ≠ d.key
    · rw [DistinctIds, ids_registerTopic hkey]
      exact List.nodup_append.mpr ⟨hids k, List.nodup_singleton _, fun a ha b hb heq ↦
        hc hkey (List.mem_singleton.mp hb ▸ heq ▸ ha)⟩
    · rw [registerTopic, if_pos (by simpa using hkey)]
      exact hids k
  | pushOwned k id t payload => exact hsame (labels_push _ id t _)
  | pushLazy k id t fetch => exact hsame (labels_push _ id t _)
  | setRetentionBudget k id budget => exact hsame (labels_modifySeries _ id fun _ ↦ rfl)
  | evictBefore k id threshold =>
    exact hsame (labels_modifySeries _ id fun s ↦ s.descriptor_evictBefore threshold)
  | evictAllBefore k threshold => exact hsame (labels_evictAllBefore _ threshold)
  | flushTo k k' =>
    rw [step]
    split_ifs
    · exact hids
    · obtain ⟨hsrc, hdst⟩ := labels_flushTo (W k) (W k')
      exact forall_update (hsame hsrc) ((hids k').of_labels hdst)
  | removeTopic k id =>
    exact forall_update hids ((hids k).sublist (List.eraseP_sublist.map _))
  | clear k => exact forall_update hids List.nodup_nil

/-! ## What every state of a run satisfies -/

/-- The entry a search in the topic `p` has to find, by its position. -/
def IsLatest (entries : List (Entry L)) (t : Int64) : Option ℕ → Prop
  | none => ∀ e ∈ entries, t < e.timestamp
  | some i => (∃ e, entries[i]? = some e ∧ e.timestamp ≤ t) ∧
    ∀ j e, entries[j]? = some e → e.timestamp ≤ t → j ≤ i

structure Sound (st : ObjectStore L) : Prop where
  valid : st.Valid
  ids : st.DistinctIds
  failed : ∀ id t payload e, (st.push id t payload).2 = .error e → (st.push id t payload).1 = st
  index : ∀ p ∈ st.topics, ∀ t, IsLatest p.2.entries t (st.indexAt p.1 t)
  latest : ∀ p ∈ st.topics, ∀ t (fetch : L → List UInt8),
    latestAt fetch st p.1 t =
      (st.indexAt p.1 t).bind fun i ↦ p.2.entries[i]?.map (resolveEntry fetch)

/-- With different ids a topic is found by its own. -/
theorem findSeries_eq {st : ObjectStore L} (hids : st.DistinctIds)
    {p : UInt32 × Series L} (hp : p ∈ st.topics) : st.findSeries p.1 = some p.2 := by
  have hfind : st.topics.find? (fun q ↦ q.1 = p.1) = some p := by
    cases hfound : st.topics.find? (fun q ↦ q.1 = p.1) with
    | none => simpa using List.find?_eq_none.mp hfound p hp
    | some q =>
      have hq : q.1 = p.1 := by simpa using List.find?_some hfound
      rw [List.inj_on_of_nodup_map hids (List.mem_of_find?_eq_some hfound) hp hq]
  rw [findSeries, hfind, Option.map_some]

theorem Valid.sound {st : ObjectStore L} (hst : st.Valid) (hids : st.DistinctIds) :
    st.Sound := by
  refine ⟨hst, hids, fun _ _ _ _ ↦ push_eq_error, fun p hp t ↦ ?_, fun p hp t fetch ↦ ?_⟩
  · have hvalid := hst.series p hp
    rw [indexAt, findSeries_eq hids hp, Option.bind_some]
    cases hindex : p.2.indexAt t with
    | none => exact (hvalid.indexAt_eq_none_iff t).mp hindex
    | some i => exact (hvalid.indexAt_eq_some_iff t i).mp hindex
  · rw [latestAt, indexAt, findSeries_eq hids hp]
    rfl

theorem fresh_of_distinctIds {c : Call L} (h : ∀ k, ((step W c).1 k).DistinctIds) :
    c.Fresh W := by
  cases c with
  | registerTopic k d =>
    intro hkey hmem
    have hnodup : ((W k).registerTopic d).1.DistinctIds := by
      simpa only [step, Function.update_self] using h k
    rw [DistinctIds, ids_registerTopic hkey] at hnodup
    exact (List.nodup_append.mp hnodup).2.2 _ hmem _ (List.mem_singleton_self _) rfl
  | _ => trivial

theorem run_sound_iff_of_sound (hW : ∀ k, (W k).Sound) (calls : List (Call L)) :
    (∀ pre, pre <+: calls → ∀ k, (run W pre k).Sound) ↔ FreshRun W calls := by
  induction calls generalizing W with
  | nil =>
    refine iff_of_true (fun pre hpre ↦ ?_) trivial
    rw [List.prefix_nil.mp hpre]
    exact hW
  | cons c calls ih =>
    constructor
    · intro hall
      have hnext : ∀ k, ((step W c).1 k).Sound :=
        hall [c] (List.cons_prefix_cons.mpr ⟨rfl, List.nil_prefix⟩)
      refine ⟨fresh_of_distinctIds fun k ↦ (hnext k).ids, (ih hnext).mp fun pre hpre ↦ ?_⟩
      exact hall (c :: pre) (List.cons_prefix_cons.mpr ⟨rfl, hpre⟩)
    · rintro ⟨hc, hrest⟩ pre hpre
      have hnext : ∀ k, ((step W c).1 k).Sound := fun k ↦
        (step_valid (fun k ↦ (hW k).valid) c k).sound (step_distinctIds (fun k ↦ (hW k).ids) hc k)
      cases pre with
      | nil => exact hW
      | cons c' pre =>
        obtain ⟨rfl, hpre'⟩ := List.cons_prefix_cons.mp hpre
        exact (ih hnext).mpr hrest pre hpre'

/-- Every state of a run is sound exactly if no registration of the run finds the counter at an id
in use. -/
theorem run_sound_iff (calls : List (Call L)) :
    (∀ pre, pre <+: calls → ∀ k, (run start pre k).Sound) ↔ FreshRun start calls :=
  run_sound_iff_of_sound (fun _ ↦ Valid.empty.sound List.nodup_nil) calls

/-! ### The counter comes round -/

/-- One topic stays, another is registered and removed again and again. -/
def turnover (n : ℕ) : List (Call Unit) :=
  .registerTopic 0 ⟨0, "kept", ""⟩ :: (List.range n).flatMap fun i ↦
    [.registerTopic 0 ⟨0, "passing", ""⟩, .removeTopic 0 (UInt32.ofNat (i + 2))]

theorem turnover_succ (n : ℕ) : turnover (n + 1) = turnover n ++
    [.registerTopic 0 ⟨0, "passing", ""⟩, .removeTopic 0 (UInt32.ofNat (n + 2))] := by
  rw [turnover, turnover, List.range_succ, List.flatMap_append, List.flatMap_singleton,
    List.cons_append]

theorem run_append (W : Stores L) (calls calls' : List (Call L)) :
    run W (calls ++ calls') = run (run W calls) calls' := List.foldl_append

theorem run_turnover {n : ℕ} (hn : n < 2 ^ 32) :
    run start (turnover n) 0 =
      { topics := [(1, { descriptor := ⟨0, "kept", ""⟩ })], nextId := UInt32.ofNat (n + 2) } := by
  induction n with
  | zero => rfl
  | succ n ih =>
    -- the first topic is not the one to remove
    have hne : (1 : UInt32) ≠ UInt32.ofNat (n + 2) := by
      intro heq
      have hnat := congrArg UInt32.toNat heq
      rw [UInt32.toNat_ofNat'] at hnat
      have h1 : (1 : UInt32).toNat = 1 := rfl
      omega
    have hround : ∀ W : Stores Unit,
        run W [.registerTopic 0 ⟨0, "passing", ""⟩, .removeTopic 0 (UInt32.ofNat (n + 2))] 0 =
          ((W 0).registerTopic ⟨0, "passing", ""⟩).1.removeTopic (UInt32.ofNat (n + 2)) := by
      intro W
      simp only [run, step, List.foldl_cons, List.foldl_nil, Function.update_self]
    have hid : UInt32.ofNat (n + 2) + 1 = UInt32.ofNat (n + 1 + 2) := by
      rw [show n + 1 + 2 = n + 2 + 1 by omega, UInt32.ofNat_add (n + 2) 1]
      rfl
    rw [turnover_succ, run_append, hround, ih (by omega), ← hid]
    generalize UInt32.ofNat (n + 2) = id at hne
    simp [registerTopic, removeTopic, Descriptor.key, hne]

theorem ids_run_turnover {n : ℕ} (hn : n < 2 ^ 32) (d : Descriptor) (hd : d.topicName ≠ "kept") :
    (run start (turnover n ++ [.registerTopic 0 d]) 0).topics.map Prod.fst =
      [1, UInt32.ofNat (n + 2)] := by
  have hrun : run start (turnover n ++ [.registerTopic 0 d]) 0 =
      ((run start (turnover n) 0).registerTopic d).1 := by
    rw [run_append]
    simp only [run, step, List.foldl_cons, List.foldl_nil, Function.update_self]
  rw [hrun, run_turnover hn, ids_registerTopic]
  · rfl
  · intro p hp hkey
    rw [List.mem_singleton.mp hp] at hkey
    exact hd (congrArg Prod.snd hkey).symm

/-- After `2 ^ 32` registrations a topic that was kept since the first shares its id. -/
theorem run_not_sound :
    ¬ (run start (turnover 4294967295 ++ [.registerTopic 0 ⟨0, "late", ""⟩]) 0).Sound := by
  intro hsound
  have hids := hsound.ids
  rw [DistinctIds, ids_run_turnover (by omega) _ (by decide)] at hids
  exact absurd hids (by decide)

end ObjectStore

end PlotJuggler
