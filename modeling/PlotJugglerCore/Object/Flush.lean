import PlotJugglerCore.Object.Invariant

/-!
# Moving all entries to another store

`flushTo` first plans, then moves. The plan reads both stores as they are, and a step of the second
phase changes one series of each, so what a step finds is what the plan saw only if no two steps meet.
Different steps start from different positions; they end at different positions because a plan step
leads to a topic with the same name, and in the source the names are all different. From there on the
moves are independent of each other, and what becomes of a series can be read off its own step.
-/

namespace PlotJuggler

namespace ObjectStore

variable {L : Type*} {src dst : ObjectStore L} {steps : List (ℕ × ℕ)}

/-! ## The plan -/

/-- The series finds a topic, and does not start before its newest entry. -/
def Admits (dst : ObjectStore L) (s : Series L) : Prop :=
  ∃ j, dst.findMatch s = some j ∧ dst.violates j s = false

/-- The step for the topic at a position. -/
def planned (dst : ObjectStore L) (p : (UInt32 × Series L) × ℕ) : Option (ℕ × ℕ) :=
  if p.1.2.entryTimestamps.isEmpty then none else (dst.findMatch p.1.2).map (p.2, ·)

theorem plan_of_admits {i : ℕ} {topics : List (UInt32 × Series L)}
    (h : ∀ p ∈ topics, p.2.entryTimestamps ≠ [] → dst.Admits p.2) :
    plan dst i topics = .ok ((topics.zipIdx i).filterMap (planned dst)) := by
  induction topics generalizing i with
  | nil => rfl
  | cons p rest ih =>
    obtain ⟨tid, s⟩ := p
    obtain ⟨hs, hrest⟩ := List.forall_mem_cons.mp h
    rw [plan, List.zipIdx_cons, List.filterMap_cons, planned, ih hrest]
    by_cases hempty : s.entryTimestamps.isEmpty
    · rw [if_pos hempty, if_pos hempty]
    · obtain ⟨j, hmatch, hviolates⟩ := hs (by simpa using hempty)
      simp only [hempty, hmatch, hviolates, Bool.false_eq_true, if_false, Option.map_some]
      rfl

theorem plan_of_not_admits {i : ℕ} {topics : List (UInt32 × Series L)}
    (h : ∃ p ∈ topics, p.2.entryTimestamps ≠ [] ∧ ¬ dst.Admits p.2) :
    ∃ e, plan dst i topics = .error e := by
  induction topics generalizing i with
  | nil =>
    obtain ⟨p, hp, -⟩ := h
    exact absurd hp List.not_mem_nil
  | cons p rest ih =>
    obtain ⟨tid, s⟩ := p
    have hlater : (∃ p ∈ rest, p.2.entryTimestamps ≠ [] ∧ ¬ dst.Admits p.2) ∨
        s.entryTimestamps ≠ [] ∧ ¬ dst.Admits s := by
      obtain ⟨p, hp, hbad⟩ := h
      rcases List.mem_cons.mp hp with rfl | hp
      · exact .inr hbad
      · exact .inl ⟨p, hp, hbad⟩
    rw [plan]
    by_cases hempty : s.entryTimestamps.isEmpty
    · rw [if_pos hempty]
      rcases hlater with hlater | ⟨hne, -⟩
      · exact ih hlater
      · exact absurd (List.isEmpty_iff.mp hempty) hne
    · rw [if_neg hempty]
      cases hmatch : dst.findMatch s with
      | none => exact ⟨_, rfl⟩
      | some j =>
        by_cases hviolates : dst.violates j s
        · exact ⟨_, if_pos hviolates⟩
        · have hadmits : dst.Admits s := ⟨j, hmatch, Bool.eq_false_iff.mpr hviolates⟩
          rcases hlater with hlater | ⟨-, hnot⟩
          · obtain ⟨e, he⟩ := ih (i := i + 1) hlater
            refine ⟨e, ?_⟩
            simp only [hviolates, Bool.false_eq_true, if_false, he]
            rfl
          · exact absurd hadmits hnot

/-! ### Where a step leads -/

theorem findMatch_eq_some {s : Series L} {j : ℕ} (h : dst.findMatch s = some j) :
    ∃ q, dst.topics[j]? = some q ∧ q.2.descriptor.key = s.descriptor.key := by
  obtain ⟨hj, hkey, -⟩ := List.findIdx?_eq_some_iff_getElem.mp h
  exact ⟨_, List.getElem?_eq_getElem hj, of_decide_eq_true hkey⟩

/-- Positions with the same name are the same. -/
theorem Valid.eq_of_key (hst : dst.Valid) {i j : ℕ} {p q : UInt32 × Series L}
    (hi : dst.topics[i]? = some p) (hj : dst.topics[j]? = some q)
    (hkey : p.2.descriptor.key = q.2.descriptor.key) : i = j := by
  have hlt : i < (dst.topics.map fun p ↦ p.2.descriptor.key).length := by
    rw [List.length_map]
    exact (List.getElem?_eq_some_iff.mp hi).1
  refine (List.getElem?_inj hlt hst.keys).mp ?_
  rw [List.getElem?_map, List.getElem?_map, hi, hj, Option.map_some, Option.map_some, hkey]

theorem Valid.findMatch (hst : dst.Valid) {s : Series L} {j : ℕ} {q : UInt32 × Series L}
    (hq : dst.topics[j]? = some q) (hkey : q.2.descriptor.key = s.descriptor.key) :
    dst.findMatch s = some j := by
  cases hmatch : dst.findMatch s with
  | none =>
    have := List.findIdx?_eq_none_iff.mp hmatch q (List.mem_of_getElem? hq)
    exact absurd hkey (of_decide_eq_false this)
  | some i =>
    obtain ⟨p, hp, hpkey⟩ := findMatch_eq_some hmatch
    rw [hst.eq_of_key hp hq (hpkey.trans hkey.symm)]

theorem violates_eq_true {s : Series L} {j : ℕ} {q : UInt32 × Series L}
    (hq : dst.topics[j]? = some q) :
    dst.violates j s = true ↔
      ∃ last ∈ q.2.entryTimestamps.getLast?, s.entryTimestamps.headD 0 < last := by
  rw [violates, hq]
  simp [Option.any_eq_true]

theorem mem_planned {i j : ℕ} :
    (i, j) ∈ (src.topics.zipIdx).filterMap (planned dst) ↔
      ∃ p, src.topics[i]? = some p ∧ p.2.entryTimestamps ≠ [] ∧ dst.findMatch p.2 = some j := by
  rw [List.mem_filterMap]
  constructor
  · rintro ⟨⟨p, i'⟩, hp, hplan⟩
    rw [List.mem_zipIdx_iff_getElem?] at hp
    rw [planned] at hplan
    split_ifs at hplan with hempty
    obtain ⟨j', hmatch, hij⟩ := Option.map_eq_some_iff.mp hplan
    obtain ⟨rfl, rfl⟩ := Prod.mk.inj hij
    exact ⟨p, hp, by simpa using hempty, hmatch⟩
  · rintro ⟨p, hp, hne, hmatch⟩
    refine ⟨(p, i), List.mem_zipIdx_iff_getElem?.mpr hp, ?_⟩
    rw [planned, if_neg (by simpa using hne), hmatch, Option.map_some]

theorem planned_increasing (dst : ObjectStore L) (topics : List (UInt32 × Series L)) :
    ((topics.zipIdx).filterMap (planned dst)).Pairwise fun a b ↦ a.1 < b.1 := by
  have hpositions : (topics.zipIdx).Pairwise fun a b ↦ a.2 < b.2 := by
    have hrange : (topics.zipIdx.map Prod.snd).Pairwise (· < ·) := by
      rw [List.zipIdx_map_snd]
      exact List.pairwise_lt_range'
    exact List.pairwise_map.mp hrange
  have hfst : ∀ {p : (UInt32 × Series L) × ℕ} {st : ℕ × ℕ}, planned dst p = some st → st.1 = p.2 := by
    intro p st hst
    rw [planned] at hst
    split_ifs at hst
    obtain ⟨j, -, rfl⟩ := Option.map_eq_some_iff.mp hst
    rfl
  rw [List.pairwise_filterMap]
  refine hpositions.imp fun {a b} hlt c hc d hd ↦ ?_
  rw [hfst hc, hfst hd]
  exact hlt

/-- No two steps of a plan meet, neither where they start nor where they end. -/
theorem planned_apart (hsrc : src.Valid) (dst : ObjectStore L) :
    ((src.topics.zipIdx).filterMap (planned dst)).Pairwise fun a b ↦ a.1 ≠ b.1 ∧ a.2 ≠ b.2 := by
  refine (planned_increasing dst src.topics).imp_of_mem fun {a b} ha hb hlt ↦ ⟨hlt.ne, fun heq ↦ ?_⟩
  obtain ⟨p, hp, -, hpmatch⟩ := mem_planned.mp ha
  obtain ⟨q, hq, -, hqmatch⟩ := mem_planned.mp hb
  -- both lead to the topic with their name
  obtain ⟨r, hr, hrp⟩ := findMatch_eq_some hpmatch
  obtain ⟨r', hr', hrq⟩ := findMatch_eq_some hqmatch
  rw [heq, hr', Option.some.injEq] at hr
  exact hlt.ne (hsrc.eq_of_key hp hq (hrp.symm.trans (hr ▸ hrq)))

/-! ## The moves -/

theorem getElem?_modifyAt (st : ObjectStore L) (i j : ℕ) (f : Series L → Series L) :
    (st.modifyAt i f).topics[j]? =
      if i = j then st.topics[j]?.map (Prod.map id f) else st.topics[j]? := by
  rw [modifyAt, List.getElem?_modify]
  split_ifs
  · rfl
  · exact Option.map_id'

theorem moveEntries_eq {tid : UInt32} {s : Series L} {i j : ℕ}
    (h : src.topics[i]? = some (tid, s)) :
    moveEntries (src, dst) (i, j) = (src.modifyAt i Series.clear, dst.modifyAt j (·.receive s)) := by
  rw [moveEntries]
  simp only [h]

theorem getElem?_moveEntries_src (m : ObjectStore L × ObjectStore L) {st : ℕ × ℕ} {i : ℕ}
    (h : st.1 ≠ i) : (moveEntries m st).1.topics[i]? = m.1.topics[i]? := by
  rw [moveEntries]
  split
  · rfl
  · rw [getElem?_modifyAt, if_neg h]

theorem getElem?_moveEntries_dst (m : ObjectStore L × ObjectStore L) {st : ℕ × ℕ} {j : ℕ}
    (h : st.2 ≠ j) : (moveEntries m st).2.topics[j]? = m.2.topics[j]? := by
  rw [moveEntries]
  split
  · rfl
  · rw [getElem?_modifyAt, if_neg h]

/-- Topics no step starts from stay. -/
theorem foldl_moveEntries_src_of_notMem (m : ObjectStore L × ObjectStore L) {i : ℕ}
    (h : i ∉ steps.map Prod.fst) : (steps.foldl moveEntries m).1.topics[i]? = m.1.topics[i]? := by
  induction steps generalizing m with
  | nil => rfl
  | cons st steps ih =>
    rw [List.map_cons, List.mem_cons, not_or] at h
    rw [List.foldl_cons, ih _ h.2, getElem?_moveEntries_src m (Ne.symm h.1)]

/-- Topics no step leads to stay. -/
theorem foldl_moveEntries_dst_of_notMem (m : ObjectStore L × ObjectStore L) {j : ℕ}
    (h : j ∉ steps.map Prod.snd) : (steps.foldl moveEntries m).2.topics[j]? = m.2.topics[j]? := by
  induction steps generalizing m with
  | nil => rfl
  | cons st steps ih =>
    rw [List.map_cons, List.mem_cons, not_or] at h
    rw [List.foldl_cons, ih _ h.2, getElem?_moveEntries_dst m (Ne.symm h.1)]

/-- Steps that do not meet do their moves as if each ran alone. -/
theorem foldl_moveEntries (m : ObjectStore L × ObjectStore L)
    (happart : steps.Pairwise fun a b ↦ a.1 ≠ b.1 ∧ a.2 ≠ b.2) {i j : ℕ} (hij : (i, j) ∈ steps)
    {tid : UInt32} {s : Series L} (hs : m.1.topics[i]? = some (tid, s)) :
    (steps.foldl moveEntries m).1.topics[i]? = some (tid, s.clear) ∧
      (steps.foldl moveEntries m).2.topics[j]? =
        m.2.topics[j]?.map (Prod.map id (·.receive s)) := by
  induction steps generalizing m with
  | nil => exact absurd hij List.not_mem_nil
  | cons st steps ih =>
    obtain ⟨hhead, htail⟩ := List.pairwise_cons.mp happart
    rw [List.foldl_cons]
    rcases List.mem_cons.mp hij with rfl | hij
    · -- the other steps start and end elsewhere
      have hi : i ∉ steps.map Prod.fst := fun hmem ↦ by
        obtain ⟨b, hb, hbi⟩ := List.mem_map.mp hmem
        exact (hhead b hb).1 hbi.symm
      have hj : j ∉ steps.map Prod.snd := fun hmem ↦ by
        obtain ⟨b, hb, hbj⟩ := List.mem_map.mp hmem
        exact (hhead b hb).2 hbj.symm
      rw [foldl_moveEntries_src_of_notMem _ hi, foldl_moveEntries_dst_of_notMem _ hj,
        ← Prod.eta m, moveEntries_eq hs, getElem?_modifyAt, getElem?_modifyAt, if_pos rfl,
        if_pos rfl, hs]
      exact ⟨rfl, rfl⟩
    · obtain ⟨hi, hj⟩ := hhead _ hij
      have hs' : (moveEntries m st).1.topics[i]? = some (tid, s) := by
        rw [getElem?_moveEntries_src m hi, hs]
      rw [← getElem?_moveEntries_dst m hj]
      exact ih _ htail hij hs'

theorem labels_moveEntries (m : ObjectStore L × ObjectStore L) (st : ℕ × ℕ) :
    (moveEntries m st).1.labels = m.1.labels ∧ (moveEntries m st).2.labels = m.2.labels := by
  rw [moveEntries]
  split
  · exact ⟨rfl, rfl⟩
  · exact ⟨labels_modifyAt _ _ fun _ ↦ rfl, labels_modifyAt _ _ fun s ↦ s.descriptor_receive _⟩

theorem labels_foldl_moveEntries (m : ObjectStore L × ObjectStore L) (steps : List (ℕ × ℕ)) :
    (steps.foldl moveEntries m).1.labels = m.1.labels ∧
      (steps.foldl moveEntries m).2.labels = m.2.labels := by
  induction steps generalizing m with
  | nil => exact ⟨rfl, rfl⟩
  | cons st steps ih =>
    obtain ⟨hsrc, hdst⟩ := ih (moveEntries m st)
    obtain ⟨hsrc', hdst'⟩ := labels_moveEntries m st
    exact ⟨hsrc.trans hsrc', hdst.trans hdst'⟩

/-! ## Both phases -/

theorem flushTo_of_admits (h : ∀ p ∈ src.topics, p.2.entryTimestamps ≠ [] → dst.Admits p.2) :
    src.flushTo dst =
      (((src.topics.zipIdx).filterMap (planned dst)).foldl moveEntries (src, dst), .ok ()) := by
  rw [flushTo, plan_of_admits h]

theorem flushTo_of_not_admits
    (h : ∃ p ∈ src.topics, p.2.entryTimestamps ≠ [] ∧ ¬ dst.Admits p.2) :
    ∃ e, src.flushTo dst = ((src, dst), .error e) := by
  obtain ⟨e, he⟩ := plan_of_not_admits (i := 0) h
  exact ⟨e, by rw [flushTo, he]⟩

/-- Either nothing happens, or every series that holds something can be moved. -/
theorem flushTo_cases (src dst : ObjectStore L) :
    ((∃ p ∈ src.topics, p.2.entryTimestamps ≠ [] ∧ ¬ dst.Admits p.2) ∧
      ∃ e, src.flushTo dst = ((src, dst), .error e)) ∨
    ((∀ p ∈ src.topics, p.2.entryTimestamps ≠ [] → dst.Admits p.2) ∧
      src.flushTo dst =
        (((src.topics.zipIdx).filterMap (planned dst)).foldl moveEntries (src, dst), .ok ())) := by
  by_cases h : ∀ p ∈ src.topics, p.2.entryTimestamps ≠ [] → dst.Admits p.2
  · exact .inr ⟨h, flushTo_of_admits h⟩
  · push Not at h
    exact .inl ⟨h, flushTo_of_not_admits h⟩

theorem labels_flushTo (src dst : ObjectStore L) :
    (src.flushTo dst).1.1.labels = src.labels ∧ (src.flushTo dst).1.2.labels = dst.labels := by
  rcases flushTo_cases src dst with ⟨-, e, he⟩ | ⟨-, hok⟩
  · rw [he]
    exact ⟨rfl, rfl⟩
  · rw [hok]
    exact labels_foldl_moveEntries _ _

section Moved

variable (hadmits : ∀ p ∈ src.topics, p.2.entryTimestamps ≠ [] → dst.Admits p.2)
include hadmits

/-- A series without entries is left alone, and looks like a cleared one. -/
theorem getElem?_flushTo_src (hsrc : src.Valid) {i : ℕ} {tid : UInt32} {s : Series L}
    (hs : src.topics[i]? = some (tid, s)) :
    (src.flushTo dst).1.1.topics[i]? = some (tid, s.clear) := by
  rw [flushTo_of_admits hadmits]
  by_cases hempty : s.entryTimestamps = []
  · have hnot : i ∉ ((src.topics.zipIdx).filterMap (planned dst)).map Prod.fst := fun hmem ↦ by
      obtain ⟨⟨i', j⟩, hij, rfl⟩ := List.mem_map.mp hmem
      obtain ⟨p, hp, hne, -⟩ := mem_planned.mp hij
      obtain rfl := Option.some.inj (hs.symm.trans hp)
      exact hne hempty
    rw [foldl_moveEntries_src_of_notMem _ hnot, hs,
      (hsrc.series _ (List.mem_of_getElem? hs)).clear_eq hempty]
  · obtain ⟨j, hmatch, -⟩ := hadmits _ (List.mem_of_getElem? hs) hempty
    exact (foldl_moveEntries (src, dst) (planned_apart hsrc dst)
      (mem_planned.mpr ⟨_, hs, hempty, hmatch⟩) hs).1

theorem getElem?_flushTo_dst (hsrc : src.Valid) (hdst : dst.Valid) {p : UInt32 × Series L}
    (hp : p ∈ src.topics) (hne : p.2.entryTimestamps ≠ []) {j : ℕ} {tid : UInt32} {d : Series L}
    (hd : dst.topics[j]? = some (tid, d)) (hkey : p.2.descriptor.key = d.descriptor.key) :
    (src.flushTo dst).1.2.topics[j]? = some (tid, d.receive p.2) := by
  obtain ⟨i, hi⟩ := List.mem_iff_getElem?.mp hp
  have hmatch : dst.findMatch p.2 = some j := hdst.findMatch hd hkey.symm
  rw [flushTo_of_admits hadmits, (foldl_moveEntries (src, dst) (planned_apart hsrc dst)
    (mem_planned.mpr ⟨p, hi, hne, hmatch⟩) hi).2, hd]
  rfl

theorem getElem?_flushTo_dst_of_unmatched {j : ℕ} {q : UInt32 × Series L}
    (hq : dst.topics[j]? = some q)
    (hnone : ∀ p ∈ src.topics, p.2.descriptor.key = q.2.descriptor.key →
      p.2.entryTimestamps = []) : (src.flushTo dst).1.2.topics[j]? = some q := by
  have hnot : j ∉ ((src.topics.zipIdx).filterMap (planned dst)).map Prod.snd := fun hmem ↦ by
    obtain ⟨⟨i, j'⟩, hij, rfl⟩ := List.mem_map.mp hmem
    obtain ⟨p, hp, hne, hmatch⟩ := mem_planned.mp hij
    obtain ⟨q', hq', hkey⟩ := findMatch_eq_some hmatch
    obtain rfl := Option.some.inj (hq.symm.trans hq')
    exact hne (hnone p (List.mem_of_getElem? hp) hkey.symm)
  rw [flushTo_of_admits hadmits, foldl_moveEntries_dst_of_notMem _ hnot, hq]

end Moved

/-- What is moved behind a series does not start before its newest entry. -/
theorem Admits.ordered (hdst : dst.Valid) {s d : Series L} (h : dst.Admits s) {j : ℕ} {tid : UInt32}
    (hd : dst.topics[j]? = some (tid, d)) (hkey : s.descriptor.key = d.descriptor.key) :
    ∀ a ∈ d.entryTimestamps.getLast?, ∀ b ∈ s.entryTimestamps.head?, a ≤ b := by
  intro a ha b hb
  obtain ⟨j', hmatch, hviolates⟩ := h
  obtain rfl : j = j' := Option.some.inj ((hdst.findMatch hd hkey.symm).symm.trans hmatch)
  by_contra hlt
  refine absurd ((violates_eq_true hd).mpr ⟨a, ha, ?_⟩) (Bool.eq_false_iff.mp hviolates)
  rw [List.headD_eq_head?_getD, hb]
  exact not_le.mp hlt

theorem Valid.of_labels {st st' : ObjectStore L} (hst : st.Valid) (hlabels : st'.labels = st.labels)
    (hseries : ∀ (i : ℕ) p q, st.topics[i]? = some p → st'.topics[i]? = some q → q.2.Valid) :
    st'.Valid := by
  refine ⟨fun q hq ↦ ?_, ?_⟩
  · obtain ⟨i, hi⟩ := List.mem_iff_getElem?.mp hq
    have hlength : st'.topics.length = st.topics.length := by
      simpa [labels] using congrArg List.length hlabels
    have hlt : i < st.topics.length := hlength ▸ (List.getElem?_eq_some_iff.mp hi).1
    exact hseries i _ q (List.getElem?_eq_getElem hlt) hi
  · rw [keys_eq_labels, hlabels, ← keys_eq_labels]
    exact hst.keys

theorem Valid.flushTo (hsrc : src.Valid) (hdst : dst.Valid) :
    (src.flushTo dst).1.1.Valid ∧ (src.flushTo dst).1.2.Valid := by
  rcases flushTo_cases src dst with ⟨-, e, he⟩ | ⟨hadmits, -⟩
  · rw [he]
    exact ⟨hsrc, hdst⟩
  · obtain ⟨hsrcLabels, hdstLabels⟩ := labels_flushTo src dst
    refine ⟨hsrc.of_labels hsrcLabels fun i p q hp hq ↦ ?_,
      hdst.of_labels hdstLabels fun j p q hp hq ↦ ?_⟩
    · rw [getElem?_flushTo_src hadmits hsrc hp] at hq
      rw [← Option.some.inj hq]
      exact Series.Valid.clear _
    · have hpvalid := hdst.series p (List.mem_of_getElem? hp)
      by_cases hmoved : ∃ r ∈ src.topics, r.2.entryTimestamps ≠ [] ∧
          r.2.descriptor.key = p.2.descriptor.key
      · obtain ⟨r, hr, hne, hkey⟩ := hmoved
        rw [getElem?_flushTo_dst hadmits hsrc hdst hr hne hp hkey] at hq
        rw [← Option.some.inj hq]
        exact hpvalid.receive (hsrc.series r hr) ((hadmits r hr hne).ordered hdst hp hkey)
      · rw [getElem?_flushTo_dst_of_unmatched hadmits hp fun r hr hkey ↦ by
          by_contra hne
          exact hmoved ⟨r, hr, hne, hkey⟩] at hq
        rw [← Option.some.inj hq]
        exact hpvalid

end ObjectStore

end PlotJuggler
