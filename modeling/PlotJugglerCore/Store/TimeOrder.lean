import Mathlib.Data.List.Chain
import PlotJugglerCore.Lib.MachineInt
import PlotJugglerCore.Store.Runs

/-!
# Time order of a topic

Every query on a topic is a binary search, so it rests on the chunks being in order and on every
chunk being in order inside. The order is checked in three places: `beginRow` and the first
timestamp of a batch against the last timestamp of the builder, `appendSealedChunk` against the last
chunk, `flushTo` against the last chunk of the target. Nothing looks inside a batch, and nothing
compares two source topics of one `flushTo` that go to the same target. These two gaps are the
condition of the invariant here; under it, the invariant holds along every run.

The invariant of the builder carries the argument: its timestamps are sorted and bounded by
`lastTimestamp`, and `tMin` and `tMax` are the first and the last of them.
-/

namespace PlotJuggler

/-! ## Statements -/

/-- A chunk with rows, sorted, whose bounds are its first and last timestamp. -/
structure TopicChunk.Ordered (chunk : TopicChunk) : Prop where
  nonempty : chunk.timestamps ≠ []
  sorted : chunk.timestamps.Pairwise (· ≤ ·)
  first : chunk.timestamps.head? = some chunk.stats.tMin
  last : chunk.timestamps.getLast? = some chunk.stats.tMax

/-- Chunk `b` does not start before chunk `a` ends. -/
def TopicChunk.Follows (a b : TopicChunk) : Prop := a.stats.tMax ≤ b.stats.tMin

/-- The time order of a topic. -/
structure TopicStorage.Ordered (s : TopicStorage) : Prop where
  chunks : ∀ chunk ∈ s.sealedChunks, chunk.Ordered
  chain : s.sealedChunks.IsChain TopicChunk.Follows

/-- The order of a builder, also in the middle of a row. -/
structure TopicChunkBuilder.Ordered (b : TopicChunkBuilder) : Prop where
  sorted : b.timestamps.Pairwise (· ≤ ·)
  le_last : ∀ t ∈ b.timestamps, t ≤ b.lastTimestamp
  rowCount : b.rowCount = b.timestamps.length
  tMin : b.tMin = b.timestamps.head?.getD Int64.maxValue
  tMax : b.tMax = b.timestamps.getLast?.getD Int64.minValue
  current : b.rowInProgress = true → b.currentTimestamp = b.lastTimestamp

structure TopicWriter.Ordered (tw : TopicWriter) : Prop where
  builder : ∀ b, tw.builder = some b → b.Ordered
  pending : ∀ chunk ∈ tw.pending, chunk.Ordered

/-- The timestamps of a batch do not go back. -/
def TopicCall.Sorted : TopicCall → Prop
  | .appendColumns ts _ => ts.Pairwise (· ≤ ·)
  | _ => True

instance : DecidablePred TopicCall.Sorted
  | .appendColumns ts _ => inferInstanceAs (Decidable (ts.Pairwise _))
  | .beginRow _ | .set _ _ | .setNull _ | .finishRow | .resolveField _ | .ensureColumn _ _
  | .expandArray _ _ _ => .isTrue trivial

/-! ## The builder -/

namespace TopicChunkBuilder

variable {b b' : TopicChunkBuilder}

theorem ordered_new (topicId schemaId : ℕ) (cols : List ColumnDescriptor) (maxRows : ℕ) :
    (new topicId schemaId cols maxRows).Ordered where
  sorted := List.Pairwise.nil
  le_last _ ht := absurd ht List.not_mem_nil
  rowCount := rfl
  tMin := rfl
  tMax := rfl
  current h := absurd h Bool.false_ne_true

/-- Sorted timestamps behind those of the builder, none before its last one. -/
theorem Ordered.extend (hb : b.Ordered) {ts : List Timestamp} (hsorted : ts.Pairwise (· ≤ ·))
    (horder : ∀ t ∈ ts.head?, b.lastTimestamp ≤ t)
    (hstamps : b'.timestamps = b.timestamps ++ ts) (hcount : b'.rowCount = b.rowCount + ts.length)
    (hmin : b'.tMin = ts.head?.elim b.tMin (min b.tMin))
    (hmax : b'.tMax = ts.getLast?.elim b.tMax (max b.tMax))
    (hlast : b'.lastTimestamp = ts.getLastD b.lastTimestamp) (hidle : b'.rowInProgress = false) :
    b'.Ordered := by
  cases ts with
  | nil =>
    simp only [List.append_nil, List.length_nil, Nat.add_zero, List.head?_nil, List.getLast?_nil,
      Option.elim_none, List.getLastD_nil] at hstamps hcount hmin hmax hlast
    refine ⟨?_, ?_, ?_, ?_, ?_, fun h ↦ absurd (hidle ▸ h) Bool.false_ne_true⟩
    · rw [hstamps]; exact hb.sorted
    · rw [hstamps, hlast]; exact hb.le_last
    · rw [hstamps, hcount]; exact hb.rowCount
    · rw [hstamps, hmin]; exact hb.tMin
    · rw [hstamps, hmax]; exact hb.tMax
  | cons first rest =>
    have hfirst : b.lastTimestamp ≤ first := horder first rfl
    have hlast' : b'.lastTimestamp = (first :: rest).getLast (List.cons_ne_nil _ _) := by
      rw [hlast, List.getLastD_cons, List.getLast_eq_getLastD]
    have hle : ∀ t ∈ first :: rest, t ≤ b'.lastTimestamp := by
      intro t ht
      rw [hlast']
      exact hsorted.rel_getLast ht
    have hold : ∀ t ∈ b.timestamps, t ≤ first := fun t ht ↦ (hb.le_last t ht).trans hfirst
    have hbefore : ∀ t ∈ b.timestamps, ∀ u ∈ first :: rest, t ≤ u := by
      intro t ht u hu
      rcases List.mem_cons.mp hu with rfl | hu
      · exact hold t ht
      · exact (hold t ht).trans (List.rel_of_pairwise_cons hsorted hu)
    refine ⟨?_, ?_, ?_, ?_, ?_, fun h ↦ absurd (hidle ▸ h) Bool.false_ne_true⟩
    · rw [hstamps]
      exact List.pairwise_append.mpr ⟨hb.sorted, hsorted, hbefore⟩
    · intro t ht
      rw [hstamps] at ht
      rcases List.mem_append.mp ht with ht | ht
      · exact (hold t ht).trans (hle first List.mem_cons_self)
      · exact hle t ht
    · rw [hstamps, hcount, hb.rowCount, List.length_append]
    · rw [hmin, hstamps, hb.tMin]
      rcases hts : b.timestamps with _ | ⟨t, ts⟩
      · exact min_eq_right (Int64.le_maxValue first)
      · exact min_eq_left (hold t (hts ▸ List.mem_cons_self))
    · have hend : (first :: rest).getLast? = some b'.lastTimestamp := by
        rw [List.getLast?_eq_some_getLast (List.cons_ne_nil _ _), hlast']
      rw [hmax, hstamps, List.getLast?_append, hend, hb.tMax]
      refine max_eq_right ?_
      rcases hold? : b.timestamps.getLast? with _ | t
      · exact Int64.minValue_le _
      · exact (hold t (List.mem_of_getLast? hold?)).trans (hle first List.mem_cons_self)

theorem Ordered.beginRow (hb : b.Ordered) {t : Timestamp} (h : b.beginRow t = some b') :
    b'.Ordered := by
  obtain ⟨-, hle, rfl⟩ := beginRow_eq_some h
  exact ⟨hb.sorted, fun u hu ↦ (hb.le_last u hu).trans hle, hb.rowCount, hb.tMin, hb.tMax,
    fun _ ↦ rfl⟩

theorem Ordered.runCellCall (hb : b.Ordered) {k : CellCall} (h : b.runCellCall k = some b') :
    b'.Ordered := by
  obtain ⟨-, c, c', -, -, rfl⟩ := runCellCall_eq_some h
  exact ⟨hb.sorted, hb.le_last, hb.rowCount, hb.tMin, hb.tMax, hb.current⟩

theorem Ordered.finishRow (hb : b.Ordered) (h : b.finishRow = some b') : b'.Ordered := by
  obtain ⟨hrow, rfl⟩ := finishRow_eq_some h
  refine hb.extend (List.pairwise_singleton _ b.currentTimestamp) ?_ rfl rfl rfl rfl ?_ rfl
  · intro t ht
    rw [← Option.some.inj ht, hb.current hrow]
  · exact (hb.current hrow).symm

theorem Ordered.runBatch (hb : b.Ordered) {ts : List Timestamp} {calls : List BulkCall}
    (hpending : b.bulkPendingRows = 0) (hsorted : ts.Pairwise (· ≤ ·))
    (h : b.runBatch ts calls = some b') : b'.Ordered := by
  obtain ⟨⟨hidle, horder, hframe⟩, -, -⟩ := runBatch_eq_some hpending h
  apply hb.extend hsorted horder <;> rw [hframe]
  exact hidle

theorem Ordered.sealChunk (hb : b.Ordered) (hrows : 0 < b.rowCount) (id : ℕ) :
    (b.sealChunk id).Ordered := by
  have hne : b.timestamps ≠ [] := by
    rw [← List.length_pos_iff, ← hb.rowCount]
    exact hrows
  refine ⟨hne, hb.sorted, ?_, ?_⟩
  · show b.timestamps.head? = some b.tMin
    rw [hb.tMin, List.head?_eq_some_head hne]
    rfl
  · show b.timestamps.getLast? = some b.tMax
    rw [hb.tMax, List.getLast?_eq_some_getLast hne]
    rfl

end TopicChunkBuilder

/-! ## A call -/

namespace TopicView

variable {schema : Option TypeTreeNode} {v v₀ v' : TopicView} {c : TopicCall}

theorem ordered_stage {b : TopicChunkBuilder} (hv : v.writer.Ordered) (hb : b.Ordered)
    (hrows : 0 < b.rowCount) : (v.stage b).writer.Ordered := by
  refine ⟨fun b' hb' ↦ absurd hb' (by simp), fun chunk hchunk ↦ ?_⟩
  rcases List.mem_append.mp hchunk with hchunk | hchunk
  · exact hv.pending chunk hchunk
  · rw [List.mem_singleton.mp hchunk]
    exact hb.sealChunk hrows _

theorem ordered_setBuilder {b : TopicChunkBuilder} (hv : v.writer.Ordered) (hb : b.Ordered) :
    (v.setBuilder b).writer.Ordered := by
  refine ⟨fun b' hb' ↦ ?_, hv.pending⟩
  obtain rfl := Option.some.inj hb'
  exact hb

theorem ordered_putBack {b : TopicChunkBuilder} (hv : v.writer.Ordered) (hb : b.Ordered)
    (hrows : 0 < b.rowCount) : (v.putBack b).writer.Ordered := by
  rw [putBack_eq]
  split_ifs
  · exact ordered_stage hv hb hrows
  · exact ordered_setBuilder hv hb

theorem Micro.ordered (h : Micro schema v₀ c v v') (hc : c.Sorted) (hfit : v.Fits)
    (hv : v.writer.Ordered) : v'.writer.Ordered := by
  cases h with
  | load => exact ⟨by simpa using hv.builder, by simpa using hv.pending⟩
  | create => exact ordered_setBuilder hv (TopicChunkBuilder.ordered_new _ _ _ _)
  | beginRow hb h => exact ordered_setBuilder hv ((hv.builder _ hb).beginRow h)
  | cell hb h => exact ordered_setBuilder hv ((hv.builder _ hb).runCellCall h)
  | finishRow hb h =>
    refine ordered_putBack hv ((hv.builder _ hb).finishRow h) ?_
    obtain ⟨-, rfl⟩ := TopicChunkBuilder.finishRow_eq_some h
    exact Nat.succ_pos _
  | batch hcall hne hb h =>
    subst hcall
    have hpending := (hfit _ hb).pending
    refine ordered_putBack hv ((hv.builder _ hb).runBatch hpending ?_ h) ?_
    · exact List.Pairwise.sublist ((List.take_sublist _ _).trans (List.drop_sublist _ _)) hc
    obtain ⟨hafter, -, -⟩ := TopicChunkBuilder.runBatch_eq_some hpending h
    rw [hafter.frame]
    exact Nat.add_pos_right _ (List.length_pos_iff.mpr hne)
  | close =>
    rw [sealBeforeLayoutChange]
    split
    · split_ifs with hrows
      · exact ordered_stage hv (hv.builder _ (by assumption)) hrows
      · exact ⟨fun b hb ↦ absurd hb (by simp), hv.pending⟩
    · exact hv
  | grow => exact ⟨hv.builder, hv.pending⟩
  | note => exact hv

theorem Path.ordered (h : Path schema v₀ c v v') (hc : c.Sorted) (hfit : v.Fits)
    (hv : v.writer.Ordered) : v'.writer.Ordered :=
  (h.induction (I := fun u ↦ u.Fits ∧ u.writer.Ordered)
    (fun _ _ hstep hu ↦ ⟨hstep.fits hu.1, hstep.ordered hc hu.1 hu.2⟩) ⟨hfit, hv⟩).2

/-- A call that does not accept an unsorted batch. -/
theorem call_ordered {out : Outcome} (hc : out.isOk → c.Sorted) (hfit : v.Fits)
    (hv : v.writer.Ordered) (h : v.call schema c = some (v', out)) : v'.writer.Ordered := by
  cases c with
  | appendColumns ts cols =>
    obtain ⟨⟨v₁, r⟩, hp, heq⟩ := Option.map_eq_some_iff.mp h
    obtain ⟨rfl, rfl⟩ := Prod.mk.inj heq
    cases r with
    | ok =>
      have hpath : Path schema v (.appendColumns ts cols) v v₁ := path_appendColumns hfit rfl hp
      exact hpath.ordered (hc rfl) hfit hv
    | error e =>
      -- refused: at most a builder was opened, as any other call may do
      rcases appendColumns_eq_some hp with ⟨-, -, rfl | rfl⟩ | ⟨hok, -⟩ | ⟨hok, -⟩
      · exact hv
      · have hpath : Path schema v .finishRow v (v.getOrCreateBuilder schema) :=
          path_getOrCreateBuilder v
        exact hpath.ordered trivial hfit hv
      · cases hok
      · cases hok
  | _ => exact (call_path hfit h).ordered trivial hfit hv

end TopicView

/-! ## Engines -/

namespace TopicStorage

variable {s s' : TopicStorage}

theorem Ordered.suffix (hs : s.Ordered) (h : s'.sealedChunks <:+ s.sealedChunks) : s'.Ordered :=
  ⟨fun chunk hchunk ↦ hs.chunks chunk (h.mem hchunk), hs.chain.suffix h⟩

/-- Chunks behind those of a topic, if they start where the topic ends. -/
theorem Ordered.append (hs : s.Ordered) (hs' : s'.Ordered)
    (h : ∀ a ∈ s.sealedChunks.getLast?, ∀ b ∈ s'.sealedChunks.head?, a.Follows b) :
    ({ s with sealedChunks := s.sealedChunks ++ s'.sealedChunks } : TopicStorage).Ordered := by
  refine ⟨fun chunk hchunk ↦ ?_, List.isChain_append.mpr ⟨hs.chain, hs'.chain, h⟩⟩
  exact (List.mem_append.mp hchunk).elim (hs.chunks chunk) (hs'.chunks chunk)

theorem Ordered.appendSealedChunk (hs : s.Ordered) {chunk : TopicChunk} (hchunk : chunk.Ordered) :
    ((s.appendSealedChunk chunk).getD s).Ordered := by
  rw [TopicStorage.appendSealedChunk]
  split_ifs with haccept
  · have hone : ({ s with sealedChunks := [chunk] } : TopicStorage).Ordered :=
      ⟨by simpa using hchunk, List.isChain_singleton chunk⟩
    refine hs.append hone fun a ha b hb ↦ ?_
    obtain rfl := Option.some.inj hb
    rw [accepts, ha] at haccept
    simpa [TopicChunk.Follows] using haccept
  · exact hs

theorem Ordered.retain (hs : s.Ordered) (window : Timestamp) : (s.retain window).Ordered := by
  rw [TopicStorage.retain]
  split_ifs
  · exact hs
  · exact hs.suffix (List.dropWhile_suffix _)

end TopicStorage

namespace Engine

/-- Source topics of the same name and dataset are in time order, in the order the map is walked. -/
def KeysOrdered (e : Engine) : Prop :=
  e.order.Pairwise fun τ τ' ↦ ∀ s ∈ e.topics τ, ∀ s' ∈ e.topics τ',
    s.isEmpty = false ∧ s'.isEmpty = false ∧
      s.descriptor.datasetId = s'.descriptor.datasetId ∧ s.descriptor.name = s'.descriptor.name →
    s.timeMax ≤ s'.timeMin

instance (e : Engine) : Decidable e.KeysOrdered := inferInstanceAs (Decidable (List.Pairwise _ _))

theorem All.commitChunks {e : Engine} (he : e.All TopicStorage.Ordered)
    {batch : List (ℕ × TopicChunk)} (hbatch : ∀ p ∈ batch, p.2.Ordered) :
    (e.commitChunks batch).All TopicStorage.Ordered :=
  he.foldl_mapTopic (t := Prod.fst)
    fun p hp _ hs ↦ hs.appendSealedChunk (hbatch p hp)

theorem All.enforceRetention {e : Engine} (he : e.All TopicStorage.Ordered) (window : Timestamp) :
    (e.enforceRetention window).All TopicStorage.Ordered :=
  he.foldl_mapTopic (t := id) fun _ _ _ hs ↦ hs.retain window

/-- The chunks of topic `m.1` can go behind those of topic `m.2`. -/
def Ready (src dst : Engine) (m : ℕ × ℕ) : Prop :=
  ∃ s d, src.topics m.1 = some s ∧ dst.topics m.2 = some d ∧ s.isEmpty = false ∧
    (d.isEmpty = false → d.timeMax ≤ s.timeMin)

/-- The two topics of a step have the same dataset and name. -/
def SameKey (src dst : Engine) (m : ℕ × ℕ) : Prop :=
  ∀ s d, src.topics m.1 = some s → dst.topics m.2 = some d →
    d.descriptor.datasetId = s.descriptor.datasetId ∧ d.descriptor.name = s.descriptor.name

theorem findMatch_eq_some {dst : Engine} {s : TopicStorage} {σ : ℕ}
    (h : dst.findMatch s = some σ) : ∃ d, dst.topics σ = some d ∧
      d.descriptor.datasetId = s.descriptor.datasetId ∧ d.descriptor.name = s.descriptor.name := by
  have hσ := List.find?_some h
  rcases hd : dst.topics σ with _ | d
  · simp [hd] at hσ
  · exact ⟨d, rfl, by simpa [hd] using hσ⟩

/-- A plan goes through the source topics in map order, and every step of it is checked. -/
theorem flushPlan_eq_ok {src dst : Engine} {order : List ℕ} {plan : List (ℕ × ℕ)}
    (h : flushPlan src dst order = .ok plan) :
    (plan.map Prod.fst).Sublist order ∧ ∀ m ∈ plan, Ready src dst m ∧ SameKey src dst m := by
  induction order generalizing plan with
  | nil =>
    obtain rfl := Except.ok.inj h
    exact ⟨.slnil, fun m hm ↦ absurd hm List.not_mem_nil⟩
  | cons τ order ih =>
    rw [flushPlan.eq_def] at h
    simp only at h
    rcases hs : src.topics τ with _ | s
    · rw [hs] at h
      exact ⟨(ih h).1.cons τ, (ih h).2⟩
    · simp only [hs] at h
      split_ifs at h with hempty
      · exact ⟨(ih h).1.cons τ, (ih h).2⟩
      · rcases hmatch : dst.findMatch s with _ | σ
        · simp [hmatch] at h
        · simp only [hmatch] at h
          split_ifs at h with hlate
          rcases hrest : flushPlan src dst order with e | rest
          · rw [hrest] at h
            cases h
          · rw [hrest] at h
            obtain rfl := Except.ok.inj h
            obtain ⟨hsub, hall⟩ := ih hrest
            obtain ⟨d, hd, hkey⟩ := findMatch_eq_some hmatch
            refine ⟨hsub.cons_cons τ, fun m hm ↦ ?_⟩
            rcases List.mem_cons.mp hm with rfl | hm
            · refine ⟨⟨s, d, hs, hd, by simpa using hempty, fun hne ↦ ?_⟩, fun s' d' hs' hd' ↦ ?_⟩
              · simpa [hd, hne] using hlate
              · obtain rfl := Option.some.inj (hs.symm.trans hs')
                obtain rfl := Option.some.inj (hd.symm.trans hd')
                exact hkey
            · exact hall m hm

theorem head_sealedChunks {s : TopicStorage} {chunk : TopicChunk}
    (h : s.sealedChunks.head? = some chunk) : s.timeMin = chunk.stats.tMin := by
  rw [TopicStorage.timeMin, h]
  rfl

theorem getLast_sealedChunks {s : TopicStorage} {chunk : TopicChunk}
    (h : s.sealedChunks.getLast? = some chunk) : s.timeMax = chunk.stats.tMax := by
  rw [TopicStorage.timeMax, h]
  rfl

/-- The second phase. What the steps that remain rely on is not disturbed by the step done: its
source is another topic, and its target either another topic or one that now ends with the chunks
just moved. -/
theorem ordered_foldl_moveChunks {src dst : Engine} {plan : List (ℕ × ℕ)}
    (hsrc : src.All TopicStorage.Ordered) (hdst : dst.All TopicStorage.Ordered)
    (hnodup : (plan.map Prod.fst).Nodup) (hready : ∀ m ∈ plan, Ready src dst m)
    (hpair : plan.Pairwise fun m m' ↦ m.2 = m'.2 → ∀ s s', src.topics m.1 = some s →
      src.topics m'.1 = some s' → s.timeMax ≤ s'.timeMin) :
    (plan.foldl moveChunks (src, dst)).1.All TopicStorage.Ordered ∧
      (plan.foldl moveChunks (src, dst)).2.All TopicStorage.Ordered := by
  induction plan generalizing src dst with
  | nil => exact ⟨hsrc, hdst⟩
  | cons m plan ih =>
    obtain ⟨hfresh, hnodup'⟩ := List.nodup_cons.mp hnodup
    obtain ⟨s, d, hs, hd, hne, hlate⟩ := hready m List.mem_cons_self
    obtain ⟨hfirst, hpair'⟩ := List.pairwise_cons.mp hpair
    have hother : ∀ m' ∈ plan, m'.1 ≠ m.1 := by
      rintro m' hm' heq
      exact hfresh (heq ▸ List.mem_map_of_mem hm')
    have hsource : ∀ m' ∈ plan, (src.mapTopic m.1 (·.clearChunks)).topics m'.1 = src.topics m'.1 :=
      fun m' hm' ↦ mapTopic_of_ne (hother m' hm')
    rw [List.foldl_cons, moveChunks, hs]
    refine ih ?_ ?_ hnodup' ?_ ?_
    · exact hsrc.mapTopic fun s' _ _ ↦ ⟨by simp [TopicStorage.clearChunks], List.isChain_nil⟩
    · refine hdst.mapTopic fun d' hd' hord ↦ hord.append (hsrc m.1 s hs) fun a ha b hb ↦ ?_
      obtain rfl := Option.some.inj (hd.symm.trans hd')
      have hle := hlate (by
        rw [TopicStorage.isEmpty, List.isEmpty_eq_false_iff]
        exact List.ne_nil_of_mem (List.mem_of_getLast? ha))
      rwa [head_sealedChunks hb, getLast_sealedChunks ha] at hle
    · intro m' hm'
      obtain ⟨s', d', hs', hd', hne', hlate'⟩ := hready m' (List.mem_cons_of_mem m hm')
      by_cases htarget : m'.2 = m.2
      · refine ⟨s', { d with sealedChunks := d.sealedChunks ++ s.sealedChunks },
          (hsource m' hm').trans hs', ?_, hne', fun _ ↦ ?_⟩
        · rw [htarget, mapTopic_self, hd]
          rfl
        · rw [TopicStorage.timeMax, List.getLast?_append_of_ne_nil]
          · exact hfirst m' hm' htarget.symm s s' hs hs'
          · simpa [TopicStorage.isEmpty] using hne
      · exact ⟨s', d', (hsource m' hm').trans hs', (mapTopic_of_ne htarget).trans hd', hne', hlate'⟩
    · refine hpair'.imp_of_mem fun {m₁ m₂} hm₁ hm₂ hpair htarget s₁ s₂ hs₁ hs₂ ↦ ?_
      exact hpair htarget s₁ s₂ ((hsource m₁ hm₁).symm.trans hs₁) ((hsource m₂ hm₂).symm.trans hs₂)

/-- A flush to another engine keeps both in order if source topics of one name are in order. -/
theorem ordered_flushTo {src dst : Engine} {plan : List (ℕ × ℕ)}
    (hsrc : src.All TopicStorage.Ordered) (hdst : dst.All TopicStorage.Ordered)
    (hkeys : src.KeysOrdered) (h : flushPlan src dst src.order = .ok plan) :
    (plan.foldl moveChunks (src, dst)).1.All TopicStorage.Ordered ∧
      (plan.foldl moveChunks (src, dst)).2.All TopicStorage.Ordered := by
  obtain ⟨hsub, hall⟩ := flushPlan_eq_ok h
  refine ordered_foldl_moveChunks hsrc hdst (src.nodup.sublist hsub) (fun m hm ↦ (hall m hm).1) ?_
  refine (List.pairwise_map.mp (hkeys.sublist hsub)).imp_of_mem ?_
  intro m m' hm hm' hle htarget s s' hs hs'
  obtain ⟨⟨s₁, d, hs₁, hd, hne, -⟩, hkey⟩ := hall m hm
  obtain ⟨⟨s₂, -, hs₂, -, hne', -⟩, hkey'⟩ := hall m' hm'
  obtain rfl := Option.some.inj (hs.symm.trans hs₁)
  obtain rfl := Option.some.inj (hs'.symm.trans hs₂)
  -- both go to topic `m.2`, so both have its dataset and name
  obtain ⟨hid, hname⟩ := hkey s d hs hd
  obtain ⟨hid', hname'⟩ := hkey' s' d hs' (htarget ▸ hd)
  exact hle s hs s' hs' ⟨hne, hne', hid.symm.trans hid', hname.symm.trans hname'⟩

end Engine

/-! ## The world -/

namespace World

variable {S : Setup} {W W' : World} {w τ : ℕ}

structure Ordered (W : World) : Prop where
  engines : ∀ e, (W.engines e).All TopicStorage.Ordered
  writers : ∀ w τ, (W.writers w τ).Ordered
  inFlight : ∀ batch ∈ W.inFlight, ∀ p ∈ batch, p.2.Ordered

theorem Ordered.setEngine (hW : W.Ordered) {e : ℕ} {engine : Engine}
    (he : engine.All TopicStorage.Ordered) : (W.setEngine e engine).Ordered :=
  ⟨all_setEngine hW.engines he, hW.writers, hW.inFlight⟩

theorem Ordered.setWriter (hW : W.Ordered) {tw : TopicWriter} (htw : tw.Ordered) :
    (W.setWriter w τ tw).Ordered := by
  refine ⟨hW.engines, fun w' τ' ↦ ?_, hW.inFlight⟩
  by_cases h : w' = w ∧ τ' = τ
  · obtain ⟨rfl, rfl⟩ := h
    rwa [setWriter_self]
  · rw [setWriter_of_ne h]
    exact hW.writers w' τ'

/-- A view that kept its chunks, put back with a writer in order. -/
theorem Ordered.putView (hW : W.Ordered) {v v' : TopicView} (hv : W.view S w τ = some v)
    (hchunks : v'.storage.sealedChunks = v.storage.sealedChunks) (hw : v'.writer.Ordered) :
    (W.putView S w τ v').Ordered := by
  obtain ⟨-, hwriters, hinFlight⟩ := hW.setWriter (w := w) (τ := τ) hw
  exact ⟨all_putView hW.engines hv fun hord ↦ hord.suffix (hchunks ▸ List.suffix_rfl), hwriters,
    hinFlight⟩

theorem Ordered.flushTopic (hW : W.Ordered) (w τ : ℕ) :
    (W.flushTopic S w τ).1.Ordered ∧ ∀ p ∈ (W.flushTopic S w τ).2, p.2.Ordered := by
  rcases hv : W.view S w τ with _ | v
  · rw [flushTopic_of_none hv]
    exact ⟨hW, by simp⟩
  · rw [flushTopic_of_some hv]
    have hwriter : v.writer.Ordered := (view_eq_some hv).2.1 ▸ hW.writers w τ
    have hpending : ∀ p ∈ v.writer.pending.map (τ, ·), p.2.Ordered := by
      simpa using hwriter.pending
    rcases v.flush_cases with ⟨b, hb, hrows, hnone, hout⟩ | ⟨-, hsame, hout⟩
    · refine ⟨hW.putView hv (by simp) ⟨by simp [hnone], by simp⟩, ?_⟩
      rw [hout, List.map_append]
      intro p hp
      rcases List.mem_append.mp hp with hp | hp
      · exact hpending p hp
      · rw [List.mem_singleton.mp hp]
        exact (hwriter.builder b hb).sealChunk hrows _
    · refine ⟨hW.putView hv (by simp) ⟨?_, by simp⟩, ?_⟩
      · rw [hsame]
        exact hwriter.builder
      · rw [hout]
        exact hpending

theorem Ordered.takePending (hW : W.Ordered) (w τ : ℕ) :
    (W.takePending w τ).1.Ordered ∧ ∀ p ∈ (W.takePending w τ).2, p.2.Ordered := by
  refine ⟨hW.setWriter ⟨(hW.writers w τ).builder, by simp⟩, ?_⟩
  simpa [World.takePending] using (hW.writers w τ).pending

theorem Ordered.handOut {p : World × List (ℕ × TopicChunk)} (hW : p.1.Ordered)
    (hp : ∀ q ∈ p.2, q.2.Ordered) : (handOut p).Ordered := by
  refine ⟨hW.engines, hW.writers, fun batch hbatch ↦ ?_⟩
  rcases List.mem_append.mp hbatch with h | h
  · exact hW.inFlight batch h
  · rwa [List.mem_singleton.mp h]

/-- The condition on a step: no batch goes back in time, and no flush to another engine puts two
source topics behind each other that are not in order. -/
def InOrder (W : World) (c : Call) (out : Outcome) : Prop :=
  out.isOk → match c with
    | .topic _ _ c => c.Sorted
    | .flushTo e _ => (W.engines e).KeysOrdered
    | _ => True

instance (W : World) (c : Call) (out : Outcome) : Decidable (W.InOrder c out) :=
  match c with
  | .topic _ _ c => inferInstanceAs (Decidable (out.isOk → c.Sorted))
  | .flushTo e _ => inferInstanceAs (Decidable (out.isOk → (W.engines e).KeysOrdered))
  | .flush _ _ | .flushAll _ _ _ | .commitChunks _ _ | .evictBefore _ _ _ | .enforceRetention _ _
  | .clearChunks _ _ => .isTrue fun _ ↦ trivial

theorem step_ordered {c : Call} {out : Outcome} (hfits : W.Fits S) (hW : W.Ordered)
    (h : W.step S c = some (W', out)) (hc : W.InOrder c out) : W'.Ordered := by
  cases c with
  | topic w τ c =>
    rcases topicCall_eq_some h with ⟨-, rfl⟩ | ⟨v, v', hv, hcall, rfl⟩
    · exact hW
    · have hfit := hfits.view hv
      have hwriter : v.writer.Ordered := (view_eq_some hv).2.1 ▸ hW.writers w τ
      exact hW.putView hv (TopicView.call_storage hfit hcall).2.2
        (TopicView.call_ordered hc hfit hwriter hcall)
  | flush w τ =>
    obtain ⟨rfl, -⟩ := Prod.mk.inj (Option.some.inj h)
    exact (hW.flushTopic w τ).1.handOut (hW.flushTopic w τ).2
  | flushAll w order order' =>
    obtain ⟨rfl, -⟩ := Prod.mk.inj (Option.some.inj h)
    obtain ⟨h₁, h₂⟩ := flushAll_induction (S := S) (w := w) (P := fun p ↦ p.2.Ordered)
      (fun _ τ hW ↦ hW.takePending w τ) order order' (fun _ τ _ hW ↦ hW.flushTopic w τ) hW
    exact h₁.handOut h₂
  | commitChunks e k =>
    obtain ⟨rfl, -⟩ := Prod.mk.inj (Option.some.inj h)
    obtain ⟨h₁, h₂, h₃⟩ :=
      hW.setEngine ((hW.engines e).commitChunks (forall_mem_getD_inFlight hW.inFlight k))
    exact ⟨h₁, h₂, fun batch hb ↦ h₃ batch (List.mem_of_mem_eraseIdx hb)⟩
  | evictBefore e τ t =>
    obtain ⟨rfl, -⟩ := Prod.mk.inj (Option.some.inj h)
    exact hW.setEngine ((hW.engines e).mapTopic fun s _ hs ↦ hs.suffix (List.dropWhile_suffix _))
  | enforceRetention e window =>
    obtain ⟨rfl, -⟩ := Prod.mk.inj (Option.some.inj h)
    exact hW.setEngine ((hW.engines e).enforceRetention window)
  | clearChunks e τ =>
    obtain ⟨rfl, -⟩ := Prod.mk.inj (Option.some.inj h)
    exact hW.setEngine ((hW.engines e).mapTopic fun s _ hs ↦ hs.suffix List.nil_suffix)
  | flushTo e e' =>
    rcases flushTo_eq_some h with rfl | ⟨-, plan, hplan, rfl, rfl⟩
    · exact hW
    · obtain ⟨h₁, h₂⟩ :=
        Engine.ordered_flushTo (hW.engines e) (hW.engines e') (hc rfl) hplan
      exact (hW.setEngine h₁).setEngine h₂

theorem Initial.ordered (hW : W.Initial S) : W.Ordered where
  engines e τ s hs := by
    have hnil := hW.chunks e τ s hs
    exact ⟨by simp [hnil], by simp [hnil]⟩
  writers w τ := ⟨by simp [hW.builder w τ], by simp [hW.pending w τ]⟩
  inFlight := by simp [hW.inFlight]

/-- The time order of every topic, in every world a run reaches. -/
theorem run_timeOrdered {calls : List Call} (hinit : W.Initial S)
    (hmeets : RunMeets S InOrder W calls) (h : W.run S calls = some W') (e : ℕ) :
    (W'.engines e).All TopicStorage.Ordered := by
  have hinv : W'.Fits S ∧ W'.Ordered := by
    refine run_induction (I := fun W ↦ W.Fits S ∧ W.Ordered) ?_ hmeets h
      ⟨hinit.fits, hinit.ordered⟩
    intro W c W' out hW hstep hc
    exact ⟨(step_keeps hW.1 hstep).2, step_ordered hW.1 hW.2 hstep hc⟩
  exact hinv.2.engines e

/-- Two engines that each have a topic `imu`. -/
def twoEngines : World := start fun _ ↦ [{ name := "imu", maxChunkRows := 2 }]

/-- All writers at home in engine zero, and no schemas. -/
def schemaless : Setup := ⟨fun _ ↦ 0, fun _ _ ↦ none⟩

/-- A batch over two chunks, a row behind it, and all of it moved to the other engine. -/
def sortedRun : List Call :=
  [.topic 0 1 (.ensureColumn "x" .int32),
    .topic 0 1 (.appendColumns [1, 4, 4] [{ colIndex := 0, data := .int32 [7, 8, 9] }]),
    .topic 0 1 (.beginRow 6), .topic 0 1 (.set 0 (.int32 5)), .topic 0 1 .finishRow,
    .flush 0 1, .commitChunks 0 0, .flushTo 0 1]

/-- What a run leaves of a topic, as the timestamps of its chunks. -/
def stampsAfter (S : Setup) (W : World) (calls : List Call) (e τ : ℕ) :
    Option (List (List Timestamp)) :=
  ((W.run S calls).bind fun W' ↦ (W'.engines e).topics τ).map
    fun s ↦ s.sealedChunks.map (·.timestamps)

theorem stampsAfter_eq_some {calls : List Call} {e τ : ℕ} {stamps : List (List Timestamp)}
    (h : stampsAfter S W calls e τ = some stamps) : ∃ W' s, W.run S calls = some W' ∧
      (W'.engines e).topics τ = some s ∧ s.sealedChunks.map (·.timestamps) = stamps := by
  obtain ⟨s, hs, hstamps⟩ := Option.map_eq_some_iff.mp h
  obtain ⟨W', hrun, htopic⟩ := Option.bind_eq_some_iff.mp hs
  exact ⟨W', s, hrun, htopic, hstamps⟩

theorem run_timeOrdered_sortedRun : ∃ W' s, twoEngines.run schemaless sortedRun = some W' ∧
    (W'.engines 1).topics 1 = some s ∧
    s.sealedChunks.map (·.timestamps) = [[1, 4], [4, 6]] ∧ s.Ordered := by
  have hstamps : stampsAfter schemaless twoEngines sortedRun 1 1 = some [[1, 4], [4, 6]] := by
    decide +kernel
  obtain ⟨W', s, hrun, hs, hchunks⟩ := stampsAfter_eq_some hstamps
  refine ⟨W', s, hrun, hs, hchunks, ?_⟩
  exact run_timeOrdered (start_initial _) (by decide +kernel) hrun 1 1 s hs

/-- One batch that goes back in time, accepted by every check. -/
def unsortedRun : List Call :=
  [.topic 0 1 (.ensureColumn "x" .int32),
    .topic 0 1 (.appendColumns [5, 3] [{ colIndex := 0, data := .int32 [7, 8] }]),
    .flush 0 1, .commitChunks 0 0]

theorem run_not_timeOrdered : ¬∀ (S : Setup) (W W' : World) (calls : List Call), W.Initial S →
    RunMeets S (fun _ _ out ↦ out.isOk) W calls → W.run S calls = some W' →
    ∀ e, (W'.engines e).All TopicStorage.Ordered := by
  intro hall
  have hstamps : stampsAfter schemaless twoEngines unsortedRun 0 1 = some [[5, 3]] := by
    decide +kernel
  obtain ⟨W', s, hrun, hs, hchunks⟩ := stampsAfter_eq_some hstamps
  have hord := hall schemaless twoEngines W' unsortedRun (start_initial _) (by decide +kernel) hrun
    0 1 s hs
  obtain ⟨chunk, hchunk, hts⟩ := List.mem_map.mp (hchunks ▸ List.mem_singleton_self [5, 3])
  have hsorted := (hord.chunks chunk hchunk).sorted
  rw [hts] at hsorted
  exact absurd hsorted (by decide)

end World

end PlotJuggler
