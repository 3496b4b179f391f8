import Mathlib.Data.List.Nodup
import Mathlib.Data.List.Pairwise
import PlotJugglerCore.Object.Store

/-!
# What every object store keeps

A series is valid when its two containers agree, its timestamps never step back, and the byte count
is the sum over the owned payloads it still holds. Then a front entry is never larger than the
count, the unsigned difference of `evictFront` does not wrap, and the binary search of `indexAt`
finds the last entry that is not behind a time.

Every call keeps this, and it keeps the names of the topics different. Their ids are drawn from a
32-bit counter without a check, so they stay different as long as no registration draws an id that is
still in use.
-/

namespace PlotJuggler

namespace ObjectStore

open PartitionPoint

variable {L : Type*}

/-! ## Series -/

namespace Series

structure Valid (s : Series L) : Prop where
  stamps : s.entryTimestamps = s.entries.map Entry.timestamp
  sorted : s.entryTimestamps.Pairwise (· ≤ ·)
  memory : s.memoryBytes = (s.entries.map Entry.ownedSize).sum

variable {s s' src : Series L}

/-- The rule for the eviction loops. -/
theorem evictWhile_induction {I : Series L → Prop}
    (hstep : ∀ s, I s → s.entries ≠ [] → I s.evictFront) (cond : Series L → Bool) (n : ℕ)
    (hs : I s) : I (evictWhile cond n s) := by
  induction n generalizing s with
  | zero => exact hs
  | succ n ih =>
    rw [evictWhile]
    split_ifs with hcond
    · refine ih (hstep s hs ?_)
      rw [Bool.and_eq_true] at hcond
      simpa using hcond.1
    · exact hs

theorem applyRetention_induction {I : Series L → Prop}
    (hstep : ∀ s, I s → s.entries ≠ [] → I s.evictFront) (newest : Int64) (hs : I s) :
    I (s.applyRetention newest) := by
  have htime : I (if 0 < s.budget.timeWindowNs
      then s.evictBefore (newest - s.budget.timeWindowNs) else s) := by
    split_ifs
    · exact evictWhile_induction hstep _ _ hs
    · exact hs
  have hmemory : ∀ s : Series L, I s → I (applyRetention.byMemory s) := by
    intro s hs
    rw [applyRetention.byMemory]
    split_ifs
    · exact evictWhile_induction hstep _ _ hs
    · exact hs
  exact hmemory _ htime

theorem Valid.evictFront (hs : s.Valid) : s.evictFront.Valid := by
  rw [Series.evictFront]
  split
  · exact hs
  · rename_i front rest hentries
    have hstamps := hs.stamps
    have hmemory := hs.memory
    rw [hentries, List.map_cons] at hstamps hmemory
    rw [List.sum_cons] at hmemory
    refine ⟨?_, hs.sorted.tail, ?_⟩
    · rw [hstamps, List.tail_cons]
    · -- the front entry is part of the sum, so the difference does not wrap
      show subSize s.memoryBytes front.ownedSize = _
      rw [subSize, if_pos (by omega), hmemory, Nat.add_sub_cancel_left]

theorem Valid.evictBefore (hs : s.Valid) (threshold : Int64) : (s.evictBefore threshold).Valid :=
  evictWhile_induction (fun _ hs _ ↦ hs.evictFront) _ _ hs

theorem Valid.applyRetention (hs : s.Valid) (newest : Int64) : (s.applyRetention newest).Valid :=
  applyRetention_induction (fun _ hs _ ↦ hs.evictFront) newest hs

/-- Entries behind those of a series, if they do not start before its last one. -/
theorem Valid.absorb (hs : s.Valid) (hsrc : src.Valid)
    (horder : ∀ a ∈ s.entryTimestamps.getLast?, ∀ b ∈ src.entryTimestamps.head?, a ≤ b) :
    (s.absorb src).Valid := by
  refine ⟨?_, ?_, ?_⟩
  · show s.entryTimestamps ++ src.entryTimestamps = _
    rw [hs.stamps, hsrc.stamps, ← List.map_append]
    rfl
  · refine List.pairwise_append.mpr ⟨hs.sorted, hsrc.sorted, fun a ha b hb ↦ ?_⟩
    have hne : s.entryTimestamps ≠ [] := List.ne_nil_of_mem ha
    have hne' : src.entryTimestamps ≠ [] := List.ne_nil_of_mem hb
    have hcut := horder _ (List.getLast?_eq_some_getLast hne) _ (List.head?_eq_some_head hne')
    obtain ⟨first, rest, hfirst⟩ := List.exists_cons_of_ne_nil hne'
    have hhead : src.entryTimestamps.head hne' ≤ b := by
      simp only [hfirst, List.head_cons]
      rw [hfirst] at hb
      rcases List.mem_cons.mp hb with rfl | hb
      · exact le_rfl
      · exact List.rel_of_pairwise_cons (hfirst ▸ hsrc.sorted) hb
    exact ((hs.sorted.rel_getLast ha).trans hcut).trans hhead
  · show s.memoryBytes + src.memoryBytes = _
    rw [hs.memory, hsrc.memory, ← List.sum_append, ← List.map_append]
    rfl

theorem Valid.push (hs : s.Valid) {t : Int64} (ht : s.refuses t = false) (payload : Payload L) :
    (s.push t payload).Valid := by
  have hone : (⟨s.descriptor, [⟨t, payload⟩], [t], {}, Entry.ownedSize ⟨t, payload⟩⟩ : Series L).Valid :=
    ⟨rfl, List.pairwise_singleton _ _, by simp⟩
  refine (hs.absorb hone fun a ha b hb ↦ ?_).applyRetention t
  obtain rfl := Option.some.inj hb
  rw [refuses, ha] at ht
  simpa using ht

theorem Valid.clear (s : Series L) : s.clear.Valid := ⟨rfl, List.Pairwise.nil, rfl⟩

/-- Without entries there is nothing to clear. -/
theorem Valid.clear_eq (hs : s.Valid) (hempty : s.entryTimestamps = []) : s.clear = s := by
  have hentries : s.entries = [] := by
    have := hs.stamps
    rwa [hempty, eq_comm, List.map_eq_nil_iff] at this
  have hmemory : s.memoryBytes = 0 := by rw [hs.memory, hentries]; rfl
  rw [Series.clear, ← hentries, ← hempty, ← hmemory]

theorem Valid.receive (hs : s.Valid) (hsrc : src.Valid)
    (horder : ∀ a ∈ s.entryTimestamps.getLast?, ∀ b ∈ src.entryTimestamps.head?, a ≤ b) :
    (s.receive src).Valid :=
  (hs.absorb hsrc horder).applyRetention _

/-! ### The descriptor stays -/

theorem descriptor_evictFront (s : Series L) : s.evictFront.descriptor = s.descriptor := by
  rw [evictFront]
  split <;> rfl

theorem descriptor_evictBefore (s : Series L) (threshold : Int64) :
    (s.evictBefore threshold).descriptor = s.descriptor :=
  evictWhile_induction (I := fun s' ↦ s'.descriptor = s.descriptor)
    (fun s' hs' _ ↦ (descriptor_evictFront s').trans hs') _ _ rfl

theorem descriptor_applyRetention (s : Series L) (newest : Int64) :
    (s.applyRetention newest).descriptor = s.descriptor :=
  applyRetention_induction (I := fun s' ↦ s'.descriptor = s.descriptor)
    (fun s' hs' _ ↦ (descriptor_evictFront s').trans hs') newest rfl

theorem descriptor_push (s : Series L) (t : Int64) (payload : Payload L) :
    (s.push t payload).descriptor = s.descriptor :=
  descriptor_applyRetention _ t

theorem descriptor_receive (s src : Series L) : (s.receive src).descriptor = s.descriptor :=
  descriptor_applyRetention _ _

/-! ### Searching -/

theorem indexAt_eq_some {t : Int64} {i : ℕ} : s.indexAt t = some i ↔ s.countUpTo t = i + 1 := by
  rw [indexAt]
  split <;> simp_all

theorem indexAt_eq_none {t : Int64} : s.indexAt t = none ↔ s.countUpTo t = 0 := by
  rw [indexAt]
  split <;> simp_all

theorem Valid.partitioned (hs : s.Valid) (t : Int64) :
    Partitioned (fun u : Int64 ↦ !decide (t < u)) s.entryTimestamps := by
  refine hs.sorted.imp fun {a b} hab hb ↦ ?_
  simp only [Bool.not_eq_true', decide_eq_false_iff_not, not_lt] at hb ⊢
  exact hab.trans hb

/-- The entries that are not behind `t` are the first `countUpTo t`. -/
theorem Valid.lt_countUpTo_iff (hs : s.Valid) {t : Int64} {i : ℕ} {e : Entry L}
    (he : s.entries[i]? = some e) : i < s.countUpTo t ↔ e.timestamp ≤ t := by
  have hstamp : s.entryTimestamps[i]? = some e.timestamp := by
    rw [hs.stamps, List.getElem?_map, he, Option.map_some]
  rw [countUpTo, lt_partitionPoint_iff (hs.partitioned t) hstamp]
  simp

theorem Valid.countUpTo_le (hs : s.Valid) (t : Int64) : s.countUpTo t ≤ s.entries.length := by
  have := partitionPoint_le_length (hs.partitioned t)
  rw [hs.stamps, List.length_map, ← hs.stamps] at this
  exact this

/-- `indexAt` is the position of the last entry that is not behind `t`. -/
theorem Valid.indexAt_eq_some_iff (hs : s.Valid) (t : Int64) (i : ℕ) :
    s.indexAt t = some i ↔ (∃ e, s.entries[i]? = some e ∧ e.timestamp ≤ t) ∧
      ∀ j e, s.entries[j]? = some e → e.timestamp ≤ t → j ≤ i := by
  have hle := hs.countUpTo_le t
  rw [indexAt_eq_some]
  constructor
  · intro hcount
    have hget := List.getElem?_eq_getElem (l := s.entries) (i := i) (by omega)
    refine ⟨⟨_, hget, (hs.lt_countUpTo_iff hget).mp (by omega)⟩, fun j e hj hjt ↦ ?_⟩
    have := (hs.lt_countUpTo_iff hj).mpr hjt
    omega
  · rintro ⟨⟨e, he, ht⟩, hlast⟩
    have hi := (hs.lt_countUpTo_iff he).mpr ht
    -- the last of the first `countUpTo t` entries is not behind `t` either
    have hget := List.getElem?_eq_getElem (l := s.entries) (i := s.countUpTo t - 1) (by omega)
    have := hlast _ _ hget ((hs.lt_countUpTo_iff hget).mp (by omega))
    omega

theorem Valid.indexAt_eq_none_iff (hs : s.Valid) (t : Int64) :
    s.indexAt t = none ↔ ∀ e ∈ s.entries, t < e.timestamp := by
  have hle := hs.countUpTo_le t
  rw [indexAt_eq_none]
  constructor
  · intro hzero e he
    obtain ⟨i, hi⟩ := List.mem_iff_getElem?.mp he
    by_contra hnot
    have := (hs.lt_countUpTo_iff hi).mpr (not_lt.mp hnot)
    omega
  · intro hall
    by_contra hne
    have hget := List.getElem?_eq_getElem (l := s.entries) (i := 0) (by omega)
    have := (hs.lt_countUpTo_iff (t := t) hget).mp (Nat.pos_of_ne_zero hne)
    exact absurd (hall _ (List.mem_of_getElem? hget)) (not_lt.mpr this)

end Series

/-! ## Stores -/

structure Valid (st : ObjectStore L) : Prop where
  series : ∀ p ∈ st.topics, p.2.Valid
  keys : (st.topics.map fun p ↦ p.2.descriptor.key).Nodup

variable {st : ObjectStore L}

theorem mem_modify {α : Type*} {l : List α} {i : ℕ} {f : α → α} {b : α} (h : b ∈ l.modify i f) :
    b ∈ l ∨ ∃ a, l[i]? = some a ∧ b = f a := by
  obtain ⟨j, hj⟩ := List.mem_iff_getElem?.mp h
  rw [List.getElem?_modify] at hj
  obtain ⟨a, ha, hb⟩ := Option.map_eq_some_iff.mp hj
  split_ifs at hb with hij
  · exact .inr ⟨a, hij ▸ ha, hb.symm⟩
  · exact .inl (hb ▸ List.mem_of_getElem? ha)

/-- A change at one position is not seen by a function that does not see the change. -/
theorem map_modify {α β : Type*} (l : List α) (i : ℕ) {f : α → α} (g : α → β)
    (h : ∀ a, g (f a) = g a) : (l.modify i f).map g = l.map g := by
  apply List.ext_getElem?
  intro j
  rw [List.getElem?_map, List.getElem?_modify, List.getElem?_map]
  cases l[j]? with
  | none => rfl
  | some a =>
    show some (g (if i = j then f a else a)) = some (g a)
    split_ifs
    · rw [h]
    · rfl

/-- Ids and descriptors, which only registering and removing changes. -/
def labels (st : ObjectStore L) : List (UInt32 × Descriptor) :=
  st.topics.map fun p ↦ (p.1, p.2.descriptor)

theorem ids_eq_labels (st : ObjectStore L) : st.topics.map Prod.fst = st.labels.map Prod.fst := by
  rw [labels, List.map_map]
  rfl

theorem keys_eq_labels (st : ObjectStore L) :
    (st.topics.map fun p ↦ p.2.descriptor.key) = st.labels.map fun p ↦ p.2.key := by
  rw [labels, List.map_map]
  rfl

theorem labels_modifyAt (st : ObjectStore L) (i : ℕ) {f : Series L → Series L}
    (hd : ∀ s, (f s).descriptor = s.descriptor) : (st.modifyAt i f).labels = st.labels :=
  map_modify st.topics i (fun p ↦ (p.1, p.2.descriptor)) fun p ↦ congrArg (p.1, ·) (hd p.2)

theorem labels_modifySeries (st : ObjectStore L) (id : UInt32) {f : Series L → Series L}
    (hd : ∀ s, (f s).descriptor = s.descriptor) : (st.modifySeries id f).labels = st.labels := by
  rw [modifySeries]
  split
  · exact labels_modifyAt st _ hd
  · rfl

/-- A change of one series that keeps its descriptor and its validity. -/
theorem Valid.modifyAt (hst : st.Valid) {i : ℕ} {f : Series L → Series L}
    (hd : ∀ s, (f s).descriptor = s.descriptor)
    (hf : ∀ id s, st.topics[i]? = some (id, s) → s.Valid → (f s).Valid) :
    (st.modifyAt i f).Valid := by
  refine ⟨fun p hp ↦ ?_, ?_⟩
  · rcases mem_modify hp with hp | ⟨⟨id, s⟩, hs, rfl⟩
    · exact hst.series p hp
    · exact hf id s hs (hst.series _ (List.mem_of_getElem? hs))
  · rw [keys_eq_labels, labels_modifyAt st i hd, ← keys_eq_labels]
    exact hst.keys

/-- The position of an id is where a search for it ends. -/
theorem getElem?_position {id : UInt32} {i : ℕ} (h : st.position id = some i) :
    ∃ s, st.topics[i]? = some (id, s) ∧ st.findSeries id = some s := by
  obtain ⟨hi, hid, hbefore⟩ := List.findIdx?_eq_some_iff_getElem.mp h
  obtain ⟨s, hs⟩ : ∃ s, st.topics[i] = (id, s) := ⟨_, Prod.ext (of_decide_eq_true hid) rfl⟩
  refine ⟨s, by rw [List.getElem?_eq_getElem hi, hs], ?_⟩
  have hfind : st.topics.find? (fun p ↦ p.1 = id) = some (id, s) := by
    refine List.find?_eq_some_iff_getElem.mpr ⟨by simp, i, hi, hs, fun j hj ↦ ?_⟩
    simpa using hbefore j hj
  rw [findSeries, hfind, Option.map_some]

theorem Valid.modifySeries (hst : st.Valid) {id : UInt32} {f : Series L → Series L}
    (hd : ∀ s, (f s).descriptor = s.descriptor)
    (hf : ∀ s, st.findSeries id = some s → s.Valid → (f s).Valid) :
    (st.modifySeries id f).Valid := by
  rw [ObjectStore.modifySeries]
  split
  · rename_i i hi
    obtain ⟨s, hs, hfind⟩ := getElem?_position hi
    refine hst.modifyAt hd fun id' s' hs' hvalid ↦ ?_
    obtain ⟨-, rfl⟩ := Prod.mk.inj (Option.some.inj (hs.symm.trans hs'))
    exact hf s hfind hvalid
  · exact hst

/-! ### The operations on one store -/

theorem Valid.empty : ({} : ObjectStore L).Valid := ⟨by simp, List.nodup_nil⟩

theorem Valid.registerTopic (hst : st.Valid) (d : Descriptor) : (st.registerTopic d).1.Valid := by
  rw [ObjectStore.registerTopic]
  split_ifs with hany
  · exact hst
  · refine ⟨fun p hp ↦ ?_, ?_⟩
    · rcases List.mem_append.mp hp with hp | hp
      · exact hst.series p hp
      · rw [List.mem_singleton.mp hp]
        exact ⟨rfl, List.Pairwise.nil, rfl⟩
    · rw [List.map_append, List.map_singleton, List.nodup_append]
      refine ⟨hst.keys, List.nodup_singleton _, fun key hkey key' hkey' heq ↦ hany ?_⟩
      obtain ⟨p, hp, hpkey⟩ := List.mem_map.mp hkey
      refine List.any_eq_true.mpr ⟨p, hp, decide_eq_true ?_⟩
      rw [hpkey, heq, List.mem_singleton.mp hkey']

theorem push_eq_error {id : UInt32} {t : Int64} {payload : Payload L} {e : StoreError}
    (h : (st.push id t payload).2 = .error e) : (st.push id t payload).1 = st := by
  rw [push] at h ⊢
  split at h
  · rfl
  · split_ifs at h ⊢
    rfl

theorem Valid.push (hst : st.Valid) (id : UInt32) (t : Int64) (payload : Payload L) :
    (st.push id t payload).1.Valid := by
  rw [ObjectStore.push]
  split
  · exact hst
  · rename_i s hs
    split_ifs with ht
    · exact hst
    · refine hst.modifySeries (fun s ↦ s.descriptor_push t payload) fun s' hs' hvalid ↦ ?_
      obtain rfl := Option.some.inj (hs.symm.trans hs')
      exact hvalid.push (Bool.eq_false_iff.mpr ht) payload

theorem labels_push (st : ObjectStore L) (id : UInt32) (t : Int64) (payload : Payload L) :
    (st.push id t payload).1.labels = st.labels := by
  rw [push]
  split
  · rfl
  · split_ifs
    · rfl
    · exact labels_modifySeries st id fun s ↦ s.descriptor_push t payload

theorem Valid.setRetentionBudget (hst : st.Valid) (id : UInt32) (budget : RetentionBudget) :
    (st.setRetentionBudget id budget).Valid :=
  hst.modifySeries (fun _ ↦ rfl) fun _ _ hvalid ↦ ⟨hvalid.stamps, hvalid.sorted, hvalid.memory⟩

theorem Valid.evictBefore (hst : st.Valid) (id : UInt32) (threshold : Int64) :
    (st.evictBefore id threshold).Valid :=
  hst.modifySeries (fun s ↦ s.descriptor_evictBefore threshold)
    fun _ _ hvalid ↦ hvalid.evictBefore threshold

theorem labels_evictAllBefore (st : ObjectStore L) (threshold : Int64) :
    (st.evictAllBefore threshold).labels = st.labels := by
  rw [labels, evictAllBefore, List.map_map]
  refine List.map_congr_left fun p _ ↦ ?_
  exact congrArg (p.1, ·) (p.2.descriptor_evictBefore threshold)

theorem Valid.evictAllBefore (hst : st.Valid) (threshold : Int64) :
    (st.evictAllBefore threshold).Valid := by
  refine ⟨fun p hp ↦ ?_, ?_⟩
  · obtain ⟨q, hq, rfl⟩ := List.mem_map.mp hp
    exact (hst.series q hq).evictBefore threshold
  · rw [keys_eq_labels, labels_evictAllBefore, ← keys_eq_labels]
    exact hst.keys

theorem Valid.removeTopic (hst : st.Valid) (id : UInt32) : (st.removeTopic id).Valid :=
  ⟨fun p hp ↦ hst.series p (List.mem_of_mem_eraseP hp),
    hst.keys.sublist (List.eraseP_sublist.map _)⟩

end ObjectStore

end PlotJuggler
