import PlotJugglerCore.Store.Acceptance

/-!
# Accepted rows that are lost

The converse of `Store.Acceptance`. A row that was accepted behind the chunks in front of it breaks
the line: two chunks of it are out of order, or the builder has rows that lie before the last chunk.
No later call repairs that, since a builder never takes its first timestamp back and chunks keep
their order, and so some chunk is refused in the end and the rows in it are missing. Whether the
topic gets all rows is decided by the condition of `Store.Acceptance` alone
(`Books.run_keepsRows_iff`).
-/

namespace PlotJuggler

/-! ## A broken line -/

/-- Two chunks of the line are out of order, or the builder has a row before the end of the last. -/
def Broken (chunks : List TopicChunk) (builder : Option TopicChunkBuilder) : Prop :=
  ¬ chunks.IsChain TopicChunk.Follows ∨
    ∃ b, builder = some b ∧ 0 < b.rowCount ∧ ¬ EndsBy chunks b.tMin

theorem EndsBy.mono {chunks : List TopicChunk} {t u : Timestamp} (h : EndsBy chunks t)
    (hle : t ≤ u) : EndsBy chunks u :=
  fun last hlast ↦ (h last hlast).trans hle

/-- A chunk behind a line in which it breaks the order. -/
theorem not_isChain_concat {chunks : List TopicChunk} {chunk : TopicChunk}
    (h : ¬ EndsBy chunks chunk.stats.tMin) : ¬ (chunks ++ [chunk]).IsChain TopicChunk.Follows := by
  intro hchain
  obtain ⟨-, -, hfollows⟩ := List.isChain_append.mp hchain
  exact h fun last hlast ↦ hfollows last hlast chunk rfl

namespace TopicView

variable {schema : Option TypeTreeNode} {v v' v₀ : TopicView} {front : List TopicChunk}
  {b b' : TopicChunkBuilder} {ts : List Timestamp} {batch : List ColumnData} {c : TopicCall}

/-- The line of a view is broken, behind the chunks in front of it. -/
def Broken (front : List TopicChunk) (v : TopicView) : Prop :=
  PlotJuggler.Broken (front ++ v.writer.pending) v.writer.builder

theorem broken_setBuilder (h : v.Broken front) (hb : v.writer.builder = some b)
    (hcount : b.rowCount ≤ b'.rowCount) (hmin : b'.tMin ≤ b.tMin) :
    (v.setBuilder b').Broken front := by
  rcases h with hchain | ⟨b₁, hb₁, hrows, hends⟩
  · exact .inl hchain
  · obtain rfl := Option.some.inj (hb.symm.trans hb₁)
    exact .inr ⟨b', rfl, hrows.trans_le hcount, fun h ↦ hends (h.mono hmin)⟩

theorem broken_stage (h : (v.setBuilder b).Broken front) : (v.stage b).Broken front := by
  left
  rw [stage_pending, ← List.append_assoc]
  rcases h with hchain | ⟨b', hb', -, hends⟩
  · exact fun hall ↦ hchain hall.left_of_append
  · obtain rfl := Option.some.inj hb'
    exact not_isChain_concat hends

theorem broken_putBack (h : (v.setBuilder b).Broken front) : (v.putBack b).Broken front := by
  rw [putBack_eq]
  split_ifs
  · exact broken_stage h
  · exact h

theorem broken_sealBeforeLayoutChange (h : v.Broken front) :
    v.sealBeforeLayoutChange.Broken front := by
  rw [sealBeforeLayoutChange]
  split
  · rename_i b hb
    split_ifs with hrows
    · exact broken_stage (broken_setBuilder h hb le_rfl le_rfl)
    · rcases h with hchain | ⟨b', hb', hrows', -⟩
      · exact .inl hchain
      · obtain rfl := Option.some.inj (hb.symm.trans hb')
        exact absurd hrows' hrows
  · exact h

/-- No micro step repairs a broken line. -/
theorem Micro.broken (hstep : Micro schema v₀ c v v') (hv : v.Fits) (h : v.Broken front) :
    v'.Broken front := by
  cases hstep with
  | load =>
    rw [Broken, ensureColsLoaded_pending, ensureColsLoaded_builder]
    exact h
  | create hb =>
    rcases h with hchain | ⟨b, hb', -⟩
    · exact .inl hchain
    · rw [hb] at hb'
      cases hb'
  | beginRow hb hrow =>
    obtain ⟨-, -, rfl⟩ := TopicChunkBuilder.beginRow_eq_some hrow
    exact broken_setBuilder h hb le_rfl le_rfl
  | cell hb hcell =>
    obtain ⟨-, c, c', -, -, rfl⟩ := TopicChunkBuilder.runCellCall_eq_some hcell
    exact broken_setBuilder h hb le_rfl le_rfl
  | finishRow hb hrow =>
    obtain ⟨-, rfl⟩ := TopicChunkBuilder.finishRow_eq_some hrow
    exact broken_putBack (broken_setBuilder h hb (Nat.le_succ _) (min_le_left _ _))
  | batch hc hne hb hrun =>
    obtain ⟨hafter, -, -⟩ := TopicChunkBuilder.runBatch_eq_some (hv _ hb).pending hrun
    refine broken_putBack (broken_setBuilder h hb ?_ ?_) <;> rw [hafter.frame]
    · exact Nat.le_add_right _ _
    · obtain ⟨t, rest, hslice⟩ := List.exists_cons_of_ne_nil hne
      rw [hslice]
      exact min_le_left _ _
  | close => exact broken_sealBeforeLayoutChange h
  | grow => exact h
  | note => exact h

theorem Path.broken (hpath : Path schema v₀ c v v') (hv : v.Fits) (h : v.Broken front) :
    v'.Broken front :=
  (hpath.induction (I := fun u ↦ u.Fits ∧ u.Broken front)
    (fun _ _ hstep hu ↦ ⟨hstep.fits hu.1, hstep.broken hu.1 hu.2⟩) ⟨hv, h⟩).2

/-- A row that is accepted before the end of the chunks in front. -/
theorem broken_finishRow {l : Ledger} (hkeeps : v.writer.Keeps l)
    (hcall : v.finishRow = some (v', .ok ()))
    (hback : ¬ EndsBy (front ++ v.writer.pending) l.timestamp) : v'.Broken front := by
  rcases finishRow_eq_some hcall with ⟨e, hr, -⟩ | ⟨-, b, b', hb, hb', rfl⟩
  · cases hr
  · obtain ⟨hrow, rfl⟩ := TopicChunkBuilder.finishRow_eq_some hb'
    refine broken_putBack (.inr ⟨_, rfl, Nat.succ_pos _, fun hends ↦ hback (hends.mono ?_)⟩)
    rw [← hkeeps.currentTimestamp hb hrow]
    exact min_le_right _ _

/-! ### Batches -/

/-- What is asked of timestamp `t` at place `p` of a batch that starts in builder `cb`: the first one
does not lie before the chunks in front, and one behind a cut not before what comes in front of it. -/
def Place (cb : TopicChunkBuilder) (ts : List Timestamp) (chunks : List TopicChunk) (p : ℕ)
    (t : Timestamp) : Prop :=
  (p = 0 → EndsBy chunks t) ∧ ∀ k, p = cb.remainingCapacity + k * cb.maxRows →
    (k = 0 → cb.tMax ≤ t) ∧ ∀ s ∈ ts[p - 1]?, s ≤ t

/-- The loop is at place `o`, and what lies in front of `o` is where it should be. A slice that
follows the chunks in front is so too. -/
structure Passed (schema : Option TypeTreeNode) (cb : TopicChunkBuilder) (ts : List Timestamp)
    (chunks front : List TopicChunk) (o : ℕ) (v : TopicView) : Prop where
  places : ∀ p < o, ∀ t ∈ ts[p]?, Place cb ts chunks p t
  cut : o < ts.length → ∃ k, o + (v.currentBuilder schema).remainingCapacity
    = cb.remainingCapacity + k * cb.maxRows ∧ (k = 0 → cb.tMax ≤ (v.currentBuilder schema).tMax)
  next : o < ts.length → ∀ t, EndsBy (front ++ v.writer.pending) t → Place cb ts chunks o t

theorem Passed.inOrder {cb : TopicChunkBuilder} {chunks : List TopicChunk}
    (h : Passed schema cb ts chunks front ts.length v) :
    (∀ t ∈ ts.head?, EndsBy chunks t) ∧ cb.CutsInOrder ts := by
  have hlt : ∀ {p : ℕ} {t : Timestamp}, t ∈ ts[p]? → p < ts.length := fun ht ↦
    (List.getElem?_eq_some_iff.mp ht).1
  refine ⟨fun t ht ↦ ?_, fun t ht ↦ ?_, fun k _ s hs t ht ↦ ?_⟩
  · rw [List.head?_eq_getElem?] at ht
    exact (h.places 0 (hlt ht) t ht).1 rfl
  · exact ((h.places _ (hlt ht) t ht).2 0 (by rw [Nat.zero_mul, Nat.add_zero])).1 rfl
  · exact ((h.places _ (hlt ht) t ht).2 k rfl).2 s hs

/-- Inside a slice there is no cut. -/
theorem not_cut {cb : TopicChunkBuilder} {o n p k k' room : ℕ} (hn : n ≤ room)
    (hroom : room ≤ cb.maxRows) (hk : o + room = cb.remainingCapacity + k * cb.maxRows) (ho : o < p)
    (hp : p < o + n) : p ≠ cb.remainingCapacity + k' * cb.maxRows := by
  rintro rfl
  have hlt : k' * cb.maxRows < k * cb.maxRows := by omega
  have hle : (k' + 1) * cb.maxRows ≤ k * cb.maxRows :=
    Nat.mul_le_mul_right _ (Nat.lt_of_mul_lt_mul_right hlt)
  rw [Nat.add_mul, Nat.one_mul] at hle
  omega

/-- One round: either the slice breaks the line, or the places behind it are passed too. -/
theorem passed_round {cb : TopicChunkBuilder} {chunks : List TopicChunk} {o n : ℕ} (hv : v.Fits)
    (hmax : v.storage.descriptor.maxChunkRows = cb.maxRows)
    (h : Passed schema cb ts chunks front o v) (ho : o < ts.length)
    (hn : n = v.batchSize schema ts.length o) (hpos : 0 < n)
    (hb : (v.currentBuilder schema).runBatch ((ts.drop o).take n) (sliceCalls batch o n)
      = some b) :
    ((v.getOrCreateBuilder schema).putBack b).Broken front ∨
      Passed schema cb ts chunks front (o + n) ((v.getOrCreateBuilder schema).putBack b) := by
  have hfit : (v.currentBuilder schema).Fits v.storage.descriptor.maxChunkRows := hv.currentBuilder
  obtain ⟨hafter, -, -⟩ := TopicChunkBuilder.runBatch_eq_some hfit.pending hb
  have hlen : ((ts.drop o).take n).length = n := by
    rw [List.length_take, List.length_drop, hn, batchSize]
    omega
  have hstart : ((ts.drop o).take n).head? = some ts[o] := by
    rw [List.head?_take, if_neg (Nat.ne_of_gt hpos), List.head?_drop, List.getElem?_eq_getElem ho]
  by_cases hends : EndsBy (front ++ v.writer.pending) ts[o]
  · right
    obtain ⟨k, hk, htMax⟩ := h.cut ho
    have hroom : (v.currentBuilder schema).remainingCapacity ≤ cb.maxRows := by
      rw [← hmax, ← hfit.maxRows]
      exact Nat.sub_le _ _
    have hsize : n ≤ (v.currentBuilder schema).remainingCapacity := hn ▸ min_le_right _ _
    refine ⟨fun p hp t ht ↦ ?_, fun hmore ↦ ?_, fun hmore t ht ↦ ?_⟩
    · rcases lt_trichotomy p o with hlt | rfl | hlt
      · exact h.places p hlt t ht
      · rw [List.getElem?_eq_getElem ho] at ht
        obtain rfl := Option.some.inj ht
        exact h.next ho _ hends
      · exact ⟨fun h0 ↦ by omega, fun k' hk' ↦ absurd hk' (not_cut hsize hroom hk hlt hp)⟩
    · subst hn
      obtain ⟨hfill, hfull⟩ := isFull_of_lt hv hb hmore
      refine ⟨k + 1, ?_, fun h0 ↦ by omega⟩
      rw [putBack_eq, if_pos hfull, remainingCapacity_of_builder_eq_none stage_builder,
        stage_storage, getOrCreateBuilder_storage, hmax, hfill, hk, Nat.add_mul, Nat.one_mul,
        Nat.add_assoc]
    · subst hn
      obtain ⟨hfill, hfull⟩ := isFull_of_lt hv hb hmore
      rw [putBack_eq, if_pos hfull, stage_pending, getOrCreateBuilder_pending, ← List.append_assoc,
        endsBy_concat] at ht
      have hbounds : (v.currentBuilder schema).tMax ≤ b.tMax ∧
          ∀ s ∈ ts[o + v.batchSize schema ts.length o - 1]?, s ≤ b.tMax := by
        have hlast : ((ts.drop o).take (v.batchSize schema ts.length o)).getLast?
            = ts[o + v.batchSize schema ts.length o - 1]? := by
          rw [List.getLast?_eq_getElem?, hlen, List.getElem?_take_of_lt (by omega),
            List.getElem?_drop, Nat.add_sub_assoc hpos]
        rw [hafter.frame]
        dsimp only
        rw [hlast]
        rcases ts[o + v.batchSize schema ts.length o - 1]? with _ | u
        · exact ⟨le_rfl, fun s hs ↦ by cases hs⟩
        · refine ⟨le_max_left _ _, fun s hs ↦ ?_⟩
          obtain rfl := Option.some.inj hs
          exact le_max_right _ _
      refine ⟨fun h0 ↦ by omega, fun k' hk' ↦ ⟨fun h0 ↦ ?_, fun s hs ↦ ?_⟩⟩
      · -- the first cut ends the builder that the batch started in
        refine (htMax ?_).trans (hbounds.1.trans ht)
        have hmul : k * cb.maxRows = 0 := by
          rw [h0, Nat.zero_mul] at hk'
          omega
        exact (Nat.mul_eq_zero.mp hmul).resolve_right (by omega)
      · exact (hbounds.2 s hs).trans ht
  · left
    refine broken_putBack (.inr ⟨b, rfl, ?_, fun hall ↦ hends ?_⟩)
    · rw [hafter.frame]
      show 0 < (v.currentBuilder schema).rowCount + ((ts.drop o).take n).length
      omega
    · rw [setBuilder_pending, getOrCreateBuilder_pending, hafter.frame] at hall
      dsimp only at hall
      rw [hstart, Option.elim_some] at hall
      exact hall.mono (min_le_right _ _)

theorem cutsInOrder_nil : b.CutsInOrder [] :=
  ⟨fun _ ht ↦ (Option.not_mem_none _ ht).elim, fun k hk ↦ absurd hk (Nat.not_lt_zero k)⟩

/-- A batch that is accepted although it steps back. -/
theorem broken_appendColumns (hv : v.Fits)
    (hcall : v.appendColumns schema ts batch = some (v', .ok ()))
    (hback : ¬ ((∀ t ∈ ts.head?, EndsBy (front ++ v.writer.pending) t) ∧
      (v.currentBuilder schema).CutsInOrder ts)) : v'.Broken front := by
  rcases appendColumns_eq_some hcall with ⟨e, hr, -⟩ | ⟨-, rfl, -⟩ | ⟨-, hne, -, hloop⟩
  · cases hr
  · exact absurd ⟨fun _ ht ↦ (Option.not_mem_none _ ht).elim, cutsInOrder_nil⟩ hback
  · have hfits : (v.getOrCreateBuilder schema).Fits := fits_getOrCreateBuilder hv
    have hmax : (v.getOrCreateBuilder schema).storage.descriptor.maxChunkRows
        = (v.currentBuilder schema).maxRows := by
      rw [getOrCreateBuilder_storage]
      exact hv.currentBuilder.maxRows.symm
    have hstart : Passed schema (v.currentBuilder schema) ts (front ++ v.writer.pending) front 0
        (v.getOrCreateBuilder schema) := by
      have hsize := batchSize_pos hfits (List.length_pos_iff.mpr hne) hloop
      rw [batchSize, currentBuilder_getOrCreateBuilder] at hsize
      refine ⟨fun p hp ↦ absurd hp (Nat.not_lt_zero p), fun _ ↦ ⟨0, ?_⟩,
        fun _ t ht ↦ ⟨fun _ ↦ ?_, fun k hk ↦ ?_⟩⟩
      · rw [currentBuilder_getOrCreateBuilder]
        simp
      · rwa [getOrCreateBuilder_pending] at ht
      · omega
    refine (appendLoop_induction (I := fun o u ↦
      u.storage.descriptor.maxChunkRows = (v.currentBuilder schema).maxRows ∧
      (u.Broken front ∨ Passed schema (v.currentBuilder schema) ts (front ++ v.writer.pending) front
        o u)) ?_ hfits (Nat.zero_le _) ⟨hmax, .inr hstart⟩ hloop).2.2.resolve_right
      fun h ↦ hback h.inOrder
    intro o n u b hI hu ho hn hpos hb
    obtain ⟨hmax', hline⟩ := hI
    refine ⟨by rwa [putBack_storage, getOrCreateBuilder_storage], ?_⟩
    rcases hline with hbroken | hpassed
    · have hslice : (ts.drop o).take n ≠ [] := by
        rw [← List.length_pos_iff, List.length_take, List.length_drop]
        omega
      have hpath : Path schema v (.appendColumns ts batch) u
          ((u.getOrCreateBuilder schema).putBack b) :=
        (path_getOrCreateBuilder u).tail (.batch rfl hslice getOrCreateBuilder_builder hb)
      exact .inl (hpath.broken hu hbroken)
    · exact passed_round hu hmax' hpassed ho hn hpos hb

theorem broken_call {c : TopicCall} {out : Outcome} {l : Ledger} (hv : v.Fits)
    (hkeeps : v.writer.Keeps l) (hcall : v.call schema c = some (v', out))
    (hback : ¬ v.Follows schema l front c out) : v'.Broken front := by
  cases c with
  | finishRow =>
    obtain ⟨⟨u, r⟩, hp, heq⟩ := Option.map_eq_some_iff.mp hcall
    obtain ⟨rfl, rfl⟩ := Prod.mk.inj heq
    obtain ⟨hok, hlate⟩ := Classical.not_imp.mp hback
    rcases r with e | u
    · cases hok
    · exact broken_finishRow hkeeps hp hlate
  | appendColumns ts batch =>
    obtain ⟨⟨u, r⟩, hp, heq⟩ := Option.map_eq_some_iff.mp hcall
    obtain ⟨rfl, rfl⟩ := Prod.mk.inj heq
    obtain ⟨hok, hlate⟩ := Classical.not_imp.mp hback
    rcases r with e | u
    · cases hok
    · exact broken_appendColumns hv hp hlate
  | _ => exact absurd trivial hback

/-! ### Chunks with rows -/

theorem filled_putBack (h : ∀ chunk ∈ v.writer.pending, 0 < chunk.stats.rowCount)
    (hrows : 0 < b.rowCount) : ∀ chunk ∈ (v.putBack b).writer.pending, 0 < chunk.stats.rowCount := by
  rw [putBack_eq]
  split_ifs
  · rw [stage_pending]
    exact List.forall_mem_append.mpr ⟨h, List.forall_mem_singleton.mpr hrows⟩
  · exact h

theorem Micro.filled (hstep : Micro schema v₀ c v v') (hv : v.Fits)
    (h : ∀ chunk ∈ v.writer.pending, 0 < chunk.stats.rowCount) :
    ∀ chunk ∈ v'.writer.pending, 0 < chunk.stats.rowCount := by
  cases hstep with
  | load => rwa [ensureColsLoaded_pending]
  | finishRow hb hrow =>
    obtain ⟨-, rfl⟩ := TopicChunkBuilder.finishRow_eq_some hrow
    exact filled_putBack h (Nat.succ_pos _)
  | batch hc hne hb hrun =>
    obtain ⟨hafter, -, -⟩ := TopicChunkBuilder.runBatch_eq_some (hv _ hb).pending hrun
    refine filled_putBack h ?_
    rw [hafter.frame]
    exact Nat.add_pos_right _ (List.length_pos_iff.mpr hne)
  | close =>
    rw [sealBeforeLayoutChange]
    split
    · split_ifs with hrows
      · rw [stage_pending]
        exact List.forall_mem_append.mpr ⟨h, List.forall_mem_singleton.mpr hrows⟩
      · exact h
    · exact h
  | _ => exact h

theorem filled_call {c : TopicCall} {out : Outcome} (hv : v.Fits)
    (hcall : v.call schema c = some (v', out))
    (h : ∀ chunk ∈ v.writer.pending, 0 < chunk.stats.rowCount) :
    ∀ chunk ∈ v'.writer.pending, 0 < chunk.stats.rowCount :=
  ((call_path hv hcall).induction
    (I := fun u ↦ u.Fits ∧ ∀ chunk ∈ u.writer.pending, 0 < chunk.stats.rowCount)
    (fun _ _ hstep hu ↦ ⟨hstep.fits hu.1, hstep.filled hu.1 hu.2⟩) ⟨hv, h⟩).2

end TopicView

/-! ## One topic -/

/-- The chunks on their way to the topic have rows. -/
def Filled (_sealed flying : List TopicChunk) (tw : TopicWriter) (_l : Ledger) : Prop :=
  ∀ chunk ∈ flying ++ tw.pending, 0 < chunk.stats.rowCount

/-- And the line has `P`. -/
def Filled.With (P : LineInvariant) : LineInvariant := fun sealed flying tw l ↦
  Filled sealed flying tw l ∧ P sealed flying tw l

theorem Filled.rule (C : CallCondition) : LineRule C Filled where
  call hv _ _ hcall h := by
    obtain ⟨hflying, hpending⟩ := List.forall_mem_append.mp h
    exact List.forall_mem_append.mpr ⟨hflying, TopicView.filled_call hv hcall hpending⟩
  takePending h := by
    rw [Filled, List.append_nil]
    exact h
  flush {v} _ _ _ _ h := by
    rw [Filled, TopicView.flush_pending, List.append_nil]
    obtain ⟨hflying, hpending⟩ := List.forall_mem_append.mp h
    refine List.forall_mem_append.mpr ⟨hflying, ?_⟩
    rcases v.flush_cases with ⟨b, -, hrows, -, hout⟩ | ⟨-, -, hout⟩ <;> rw [hout]
    · exact List.forall_mem_append.mpr ⟨hpending, List.forall_mem_singleton.mpr hrows⟩
    · exact hpending
  commitChunk h := (List.forall_mem_cons.mp h).2

theorem filled_start {tw : TopicWriter} (hp : tw.pending = []) : Filled [] [] tw {} := by
  rw [Filled, hp]
  exact List.forall_mem_nil _

theorem Shows.length_flatten {parts : List (List Row)} {chunks : List TopicChunk}
    (h : Shows parts chunks) : parts.flatten.length = (chunks.map (·.stats.rowCount)).sum := by
  induction h with
  | nil => rfl
  | cons hpart _ ih =>
    rw [List.flatten_cons, List.length_append, ih, List.map_cons, List.sum_cons, hpart.2.rowCount]

/-- Of the rows in front of the writer some are missing already, or the line is broken. -/
def Losing (sealed flying : List TopicChunk) (tw : TopicWriter) (l : Ledger) : Prop :=
  ∃ parts flown front rest, l = rest.behind front ∧ Shows parts sealed ∧ Shows flown flying ∧
    tw.Keeps rest ∧ sealed.IsChain TopicChunk.Follows ∧
    (parts ++ flown).flatten.length ≤ front.length ∧
    ((parts ++ flown).flatten.length < front.length ∨
      Broken (sealed ++ flying ++ tw.pending) tw.builder)

namespace Losing

variable {sealed flying : List TopicChunk} {tw : TopicWriter} {l : Ledger}

/-- A row that steps back. -/
theorem of_inOneLine {schema : Option TypeTreeNode} {v v' : TopicView} {c : TopicCall}
    {out : Outcome} (h : InOneLine sealed flying v.writer l) (hv : v.Fits)
    (haligns : v.Aligns schema l c out) (hback : ¬ v.Follows schema l (sealed ++ flying) c out)
    (hcall : v.call schema c = some (v', out)) : Losing sealed flying v'.writer (l.after c out) := by
  obtain ⟨parts, flown, rest, rfl, hparts, hflown, hkeeps, hline⟩ := h
  have haligns' : v.Aligns schema rest c out := by
    cases c <;> exact haligns
  have hback' : ¬ v.Follows schema rest (sealed ++ flying) c out := by
    cases c <;> exact hback
  refine ⟨parts, flown, _, rest.after c out, Ledger.after_behind, hparts, hflown,
    TopicView.keeps_call hv hkeeps haligns' hcall, ?_, ?_,
    .inr (TopicView.broken_call hv hkeeps hcall hback')⟩
  · exact hline.chain.left_of_append.left_of_append
  · rw [List.flatten_append]

theorem call {schema : Option TypeTreeNode} {v v' : TopicView} {c : TopicCall} {out : Outcome}
    (h : Losing sealed flying v.writer l) (hv : v.Fits) (haligns : v.Aligns schema l c out)
    (hcall : v.call schema c = some (v', out)) : Losing sealed flying v'.writer (l.after c out) := by
  obtain ⟨parts, flown, front, rest, rfl, hparts, hflown, hkeeps, hchain, hle, hloss⟩ := h
  have haligns' : v.Aligns schema rest c out := by
    cases c <;> exact haligns
  exact ⟨parts, flown, front, rest.after c out, Ledger.after_behind, hparts, hflown,
    TopicView.keeps_call hv hkeeps haligns' hcall, hchain, hle,
    hloss.imp_right ((TopicView.call_path hv hcall).broken hv)⟩

/-- What is handed out moves on in the line. -/
theorem handOut {chunks : List TopicChunk} {tw' : TopicWriter} (h : Losing sealed flying tw l)
    (hout : ∀ l', tw.Keeps l' → l'.cells = l.cells → tw.HandsOut l' chunks tw')
    (hpending : tw'.pending = [])
    (hline : Broken (sealed ++ flying ++ tw.pending) tw.builder →
      Broken (sealed ++ flying ++ chunks) tw'.builder) :
    Losing sealed (flying ++ chunks) tw' l := by
  obtain ⟨parts, flown, front, rest, rfl, hparts, hflown, hkeeps, hchain, hle, hloss⟩ := h
  obtain ⟨parts', rest', rfl, hparts', hkeeps'⟩ := hout rest hkeeps rfl
  refine ⟨parts, flown ++ parts', front ++ parts'.flatten, rest', Ledger.behind_behind, hparts,
    List.rel_append hflown (shows_of_hasRows hparts'), hkeeps', hchain, ?_, ?_⟩
  · rw [← List.append_assoc, List.flatten_append, List.length_append, List.length_append]
    exact Nat.add_le_add_right hle _
  · rw [← List.append_assoc, List.flatten_append, List.length_append, List.length_append, hpending,
      List.append_nil, ← List.append_assoc]
    exact hloss.imp (Nat.add_lt_add_right · _) hline

theorem takePending (h : Losing sealed flying tw l) :
    Losing sealed (flying ++ tw.pending) { tw with pending := [] } l :=
  h.handOut (fun _ hkeeps _ ↦ hkeeps.takePending) rfl id

theorem flush {v : TopicView} (h : Losing sealed flying v.writer l) (hmay : v.writer.MayFlush l) :
    Losing sealed (flying ++ v.flush.2) v.flush.1.writer l := by
  refine h.handOut (fun l' hkeeps hcells ↦ TopicView.keeps_flush hkeeps fun b hb ↦
    hcells ▸ hmay b hb) TopicView.flush_pending fun hbroken ↦ ?_
  rcases v.flush_cases with ⟨b, hb, -, hnone, hout⟩ | ⟨-, hsame, hout⟩
  · have hstage : (v.stage b).Broken (sealed ++ flying) :=
      TopicView.broken_stage (TopicView.broken_setBuilder hbroken hb le_rfl le_rfl)
    rw [hout, hnone]
    exact hstage
  · rw [hout, hsame]
    exact hbroken

/-- The first chunk in flight is accepted, and the line stays what it is, or its rows are lost. -/
theorem commitChunk {chunk : TopicChunk} {s : TopicStorage}
    (h : Losing s.sealedChunks (chunk :: flying) tw l) (hrows : 0 < chunk.stats.rowCount) :
    Losing ((s.appendSealedChunk chunk).getD s).sealedChunks flying tw l := by
  obtain ⟨parts, flown, front, rest, rfl, hparts, hflown, hkeeps, hchain, hle, hloss⟩ := h
  obtain ⟨part, flown', hpart, hflown', rfl⟩ := List.forall₂_cons_right_iff.mp hflown
  rw [TopicStorage.appendSealedChunk]
  split_ifs with haccepts
  · refine ⟨parts ++ [part], flown', front, rest, rfl, List.rel_append hparts (.cons hpart .nil),
      hflown', hkeeps, ?_, ?_, ?_⟩
    · refine List.isChain_append.mpr ⟨hchain, List.isChain_singleton _, fun last hlast c hc ↦ ?_⟩
      obtain rfl := Option.some.inj hc
      rw [TopicStorage.accepts, hlast] at haccepts
      exact of_decide_eq_true (p := last.stats.tMax ≤ chunk.stats.tMin) haccepts
    · rwa [List.append_assoc]
    · rw [List.append_assoc parts]
      refine hloss.imp_right fun hbroken ↦ ?_
      simpa using hbroken
  · have hlost : (parts ++ flown').flatten.length < (parts ++ part :: flown').flatten.length := by
      have hpos : 0 < part.length := hpart.2.rowCount ▸ hrows
      simpa using hpos
    exact ⟨parts, flown', front, rest, rfl, hparts, hflown', hkeeps, hchain, (hlost.trans_le hle).le,
      .inl (hlost.trans_le hle)⟩

/-- Rows that are lost stay lost. -/
theorem rule (C : CallCondition) : LineRule C (Filled.With Losing) where
  call hv haligns hc hcall h :=
    ⟨(Filled.rule C).call hv haligns hc hcall h.1, h.2.call hv haligns hcall⟩
  takePending h := ⟨(Filled.rule C).takePending h.1, h.2.takePending⟩
  flush hmay h := ⟨(Filled.rule C).flush hmay h.1, h.2.flush hmay⟩
  commitChunk h := ⟨(Filled.rule C).commitChunk h.1,
    h.2.commitChunk (h.1 _ (List.mem_append_left _ List.mem_cons_self))⟩

/-- Where nothing is left with the writer or in flight, the topic does not have all rows. -/
theorem not_holdsRows {s : TopicStorage} (h : Losing s.sealedChunks [] tw l)
    (hempty : tw.Emptied) : ¬ s.HoldsRows l.rows := by
  obtain ⟨parts, flown, front, rest, rfl, hparts, hflown, hkeeps, hchain, -, hloss⟩ := h
  obtain rfl := List.forall₂_nil_right_iff.mp hflown
  rintro ⟨parts', hall, hparts'⟩
  have hlen : parts.flatten.length = front.length := by
    rw [hparts.length_flatten, ← hparts'.length_flatten, hall, Ledger.behind_rows,
      hkeeps.rows_eq_nil hempty, List.append_nil]
  rcases hloss with hlt | hbroken | ⟨b, hb, hrows, -⟩
  · rw [List.append_nil, hlen] at hlt
    exact lt_irrefl _ hlt
  · rw [hempty.pending, List.append_nil, List.append_nil] at hbroken
    exact hbroken hchain
  · rw [hempty.builder b hb] at hrows
    exact lt_irrefl _ hrows

end Losing

/-! ## Runs -/

namespace Books

variable {S : Setup} {B B' : Books} {c : Call} {out : Outcome} {w τ : ℕ}

/-- The first call whose rows step back. -/
theorem step_losing (hfits : B.world.Fits S) (hB : B.OnlyLine (Filled.With InOneLine) S w τ)
    (h : B.step S c = some (B', out)) (hfills : B.Fills S w τ c out)
    (hback : ¬ B.Calls (fun schema v ↦ v.Follows schema) S w τ c out) :
    B'.OnlyLine (Filled.With Losing) S w τ := by
  cases c with
  | topic w' τ' tc =>
    obtain ⟨⟨rfl, rfl⟩, hview⟩ := Classical.not_imp.mp hback
    push Not at hview
    obtain ⟨v, hv, hback⟩ := hview
    refine hB.call hfits h hv fun v' hcall hline ↦ ?_
    have haligns := hfills ⟨rfl, rfl⟩ v hv
    exact ⟨(Filled.rule fun _ _ _ _ _ _ ↦ True).call (hfits.view hv) haligns trivial hcall hline.1,
      .of_inOneLine hline.2 (hfits.view hv) haligns hback hcall⟩
  | _ => exact absurd trivial hback

/-- A run in which nothing steps back keeps all rows, and any other one is losing some. -/
theorem run_inOneLine_or_losing {W : World} {calls : List Call} (hinit : W.Initial S)
    (htopic : ((W.engines (S.home w)).topics τ).isSome)
    (hmeets : Runs.Meets (step S) (fun B c out ↦ OnlyWriter S w τ c ∧ B.Fills S w τ c out)
      { world := W } calls)
    (h : run S W calls = some B) :
    Runs.Meets (step S) (fun B c out ↦ B.Calls (fun schema v ↦ v.Follows schema) S w τ c out)
        { world := W } calls ∧ B.OnlyLine (Filled.With InOneLine) S w τ ∨
      ¬ Runs.Meets (step S) (fun B c out ↦ B.Calls (fun schema v ↦ v.Follows schema) S w τ c out)
        { world := W } calls ∧ B.OnlyLine (Filled.With Losing) S w τ := by
  have hstart : OnlyLine (Filled.With InOneLine) S w τ { world := W } :=
    onlyLine_start (fun hb hp ↦ ⟨filled_start hp, InOneLine.start hb hp⟩) hinit htopic
  refine (Runs.run_cases
    (Q := fun B c out ↦ B.Calls (fun schema v ↦ v.Follows schema) S w τ c out)
    (I := fun B ↦ B.world.Fits S ∧ B.OnlyLine (Filled.With InOneLine) S w τ)
    (J := fun B ↦ B.world.Fits S ∧ B.OnlyLine (Filled.With Losing) S w τ)
    (fun B c B' out hB hstep hc hturn ↦ ?_) (fun B c B' out hB hstep hc hback ↦ ?_)
    (fun B c B' out hB hstep hc ↦ ?_) hmeets h ⟨hinit.fits, hstart⟩).imp
    (And.imp_right And.right) (And.imp_right And.right)
  · exact ⟨(World.step_keeps hB.1 (step_eq_some hstep).1).2,
      step_onlyLine ((Filled.rule _).and InOneLine.rule) hB.1 hB.2 hstep hc.1 hc.2 hturn⟩
  · exact ⟨(World.step_keeps hB.1 (step_eq_some hstep).1).2,
      step_losing hB.1 hB.2 hstep hc.2 hback⟩
  · exact ⟨(World.step_keeps hB.1 (step_eq_some hstep).1).2,
      step_onlyLine (Losing.rule _) hB.1 hB.2 hstep hc.1 hc.2 calls_true⟩

/-- A row is flushed and committed, and then one before it is accepted. -/
def rowBehindCommit : List Call :=
  [.topic 0 1 (.ensureColumn "x" .int32), .topic 0 1 (.beginRow 5), .topic 0 1 (.set 0 (.int32 7)),
    .topic 0 1 .finishRow, .flush 0 1, .commitChunks 0 0, .topic 0 1 (.beginRow 3),
    .topic 0 1 (.set 0 (.int32 8)), .topic 0 1 .finishRow]

end Books

end PlotJuggler
