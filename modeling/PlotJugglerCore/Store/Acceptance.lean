import PlotJugglerCore.Store.Lines

/-!
# Accepted rows reach the topic

A timestamp is checked twice. `beginRow` and `appendColumns` compare it with the last timestamp of
the builder, if that has rows; `appendSealedChunk` compares the first timestamp of a chunk with the
last one of the chunk before, and a chunk that it refuses is dropped. Builders come and go: behind a
chunk that has just been sealed, and behind each cut of a batch, nothing is left to compare with, so
a row can pass the first check and be lost at the second.

In the line of the only writer of a topic, what is accepted must never step back behind the end of
the chunks in front of it. Then no chunk is refused, and the topic gets exactly the rows that were
accepted, in order.
-/

namespace PlotJuggler

/-! ## Statements -/

/-- Where a batch is cut into chunks, the timestamp behind the cut is not before the one in front of
it, nor, at the first cut, before those of the builder. -/
structure TopicChunkBuilder.CutsInOrder (b : TopicChunkBuilder) (ts : List Timestamp) : Prop where
  first : ∀ t ∈ ts[b.remainingCapacity]?, b.tMax ≤ t
  cuts : ∀ k < ts.length, ∀ t ∈ ts[b.remainingCapacity + k * b.maxRows - 1]?,
    ∀ u ∈ ts[b.remainingCapacity + k * b.maxRows]?, t ≤ u

/-- Timestamps are a finite type, and would be tried one by one. -/
instance decidableForallMemTimestamp {p : Timestamp → Prop} [DecidablePred p]
    (o : Option Timestamp) : Decidable (∀ t ∈ o, p t) :=
  Option.decidableForallMem o

instance (b : TopicChunkBuilder) (ts : List Timestamp) : Decidable (b.CutsInOrder ts) :=
  decidable_of_iff ((∀ t ∈ ts[b.remainingCapacity]?, b.tMax ≤ t) ∧
      ∀ k < ts.length, ∀ t ∈ ts[b.remainingCapacity + k * b.maxRows - 1]?,
        ∀ u ∈ ts[b.remainingCapacity + k * b.maxRows]?, t ≤ u)
    ⟨fun h ↦ ⟨h.1, h.2⟩, fun h ↦ ⟨h.first, h.cuts⟩⟩

/-- The condition on a call: what it accepts does not step back behind the chunks in front. -/
def TopicView.Follows (schema : Option TypeTreeNode) (v : TopicView) (l : Ledger)
    (front : List TopicChunk) (c : TopicCall) (out : Outcome) : Prop :=
  match c with
  | .finishRow => out.isOk → EndsBy (front ++ v.writer.pending) l.timestamp
  | .appendColumns ts _ => out.isOk → (∀ t ∈ ts.head?, EndsBy (front ++ v.writer.pending) t) ∧
    (v.currentBuilder schema).CutsInOrder ts
  | _ => True

instance (schema : Option TypeTreeNode) (v : TopicView) (l : Ledger) (front : List TopicChunk)
    (c : TopicCall) (out : Outcome) : Decidable (v.Follows schema l front c out) :=
  match c with
  | .finishRow => inferInstanceAs
    (Decidable (out.isOk → EndsBy (front ++ v.writer.pending) l.timestamp))
  | .appendColumns ts _ => inferInstanceAs (Decidable (out.isOk →
    (∀ t ∈ ts.head?, EndsBy (front ++ v.writer.pending) t) ∧
      (v.currentBuilder schema).CutsInOrder ts))
  | .beginRow _ | .set _ _ | .setNull _ | .resolveField _ | .ensureColumn _ _
  | .expandArray _ _ _ => .isTrue trivial

/-- What a call of writer `w` on topic `τ` accepts fills its columns and follows what is there, and
no flush seals cells of an open row. -/
def Books.InTurn (S : Setup) (w τ : ℕ) (B : Books) (c : Call) (out : Outcome) : Prop :=
  B.Fills S w τ c out ∧ B.Calls (fun schema v ↦ v.Follows schema) S w τ c out

instance (S : Setup) (w τ : ℕ) (B : Books) (c : Call) (out : Outcome) :
    Decidable (B.InTurn S w τ c out) := inferInstanceAs (Decidable (_ ∧ _))

/-- The chunks, in order, were sealed with these rows, and show them. -/
def Shows (parts : List (List Row)) (chunks : List TopicChunk) : Prop :=
  List.Forall₂ (fun part chunk ↦ (∃ columns, chunk.HasRows columns part) ∧ chunk.InStep part)
    parts chunks

/-- The rows of the topic, over all its chunks, are `rows`. -/
def TopicStorage.HoldsRows (s : TopicStorage) (rows : List Row) : Prop :=
  ∃ parts, parts.flatten = rows ∧ Shows parts s.sealedChunks

theorem Shows.flatten_timestamps {parts : List (List Row)} {chunks : List TopicChunk}
    (h : Shows parts chunks) :
    parts.flatten.map Prod.fst = (chunks.map (·.timestamps)).flatten := by
  induction h with
  | nil => rfl
  | cons hpart _ ih =>
    rw [List.flatten_cons, List.map_append, ih, List.map_cons, List.flatten_cons,
      hpart.2.timestamps]

theorem TopicStorage.HoldsRows.timestamps {s : TopicStorage} {rows : List Row}
    (h : s.HoldsRows rows) : rows.map Prod.fst = (s.sealedChunks.map (·.timestamps)).flatten := by
  obtain ⟨parts, rfl, hparts⟩ := h
  exact hparts.flatten_timestamps

/-- Rows lie in chunks, and each chunk has rows. -/
theorem TopicStorage.HoldsRows.eq_nil_iff {s : TopicStorage} {rows : List Row}
    (h : s.HoldsRows rows) (hs : s.Ordered) : rows = [] ↔ s.sealedChunks = [] := by
  rw [← List.map_eq_nil_iff, h.timestamps, List.flatten_eq_nil_iff, List.forall_mem_map,
    List.eq_nil_iff_forall_not_mem]
  exact forall₂_congr fun chunk hchunk ↦
    iff_of_false (hs.chunks chunk hchunk).nonempty not_false

/-! ## The line -/

/-- The chunks are in time order, and the builder comes behind them. -/
structure InLine (chunks : List TopicChunk) (builder : Option TopicChunkBuilder) : Prop where
  chain : chunks.IsChain TopicChunk.Follows
  behind : ∀ b, builder = some b → EndsBy chunks b.tMin

theorem InLine.dropBuilder {chunks : List TopicChunk} {builder : Option TopicChunkBuilder}
    (h : InLine chunks builder) : InLine chunks none :=
  ⟨h.chain, fun b hb ↦ by cases hb⟩

/-- A chunk behind a line. -/
theorem InLine.concat {chunks : List TopicChunk} {builder : Option TopicChunkBuilder}
    (h : InLine chunks builder) {chunk : TopicChunk} (hchunk : EndsBy chunks chunk.stats.tMin) :
    InLine (chunks ++ [chunk]) none := by
  refine ⟨List.isChain_append.mpr ⟨h.chain, List.isChain_singleton chunk, ?_⟩,
    fun b hb ↦ by cases hb⟩
  intro last hlast first hfirst
  obtain rfl := Option.some.inj hfirst
  exact hchunk last hlast

namespace TopicView

variable {schema : Option TypeTreeNode} {v v' : TopicView} {front : List TopicChunk}
  {b b' : TopicChunkBuilder} {ts : List Timestamp} {batch : List ColumnData}

/-- The line of a view, behind the chunks in front of it. -/
def InLine (front : List TopicChunk) (v : TopicView) : Prop :=
  PlotJuggler.InLine (front ++ v.writer.pending) v.writer.builder

theorem inLine_setBuilder (h : v.InLine front) (hmin : EndsBy (front ++ v.writer.pending) b.tMin) :
    (v.setBuilder b).InLine front := by
  refine ⟨h.chain, fun b' hb' ↦ ?_⟩
  obtain rfl := Option.some.inj hb'
  exact hmin

theorem inLine_stage (h : v.InLine front) (hmin : EndsBy (front ++ v.writer.pending) b.tMin) :
    (v.stage b).InLine front := by
  have hline : PlotJuggler.InLine (front ++ v.writer.pending ++ [b.sealChunk v.nextChunkId]) none :=
    h.concat hmin
  rwa [List.append_assoc] at hline

theorem inLine_putBack (h : v.InLine front) (hmin : EndsBy (front ++ v.writer.pending) b.tMin) :
    (v.putBack b).InLine front := by
  rw [putBack_eq]
  split_ifs
  · exact inLine_stage h hmin
  · exact inLine_setBuilder h hmin

theorem inLine_getOrCreateBuilder (h : v.InLine front) :
    (v.getOrCreateBuilder schema).InLine front := by
  rcases hb : v.writer.builder with _ | b
  · rw [getOrCreateBuilder_of_none hb]
    have hload : (v.ensureColsLoaded schema).InLine front := by
      rw [InLine, ensureColsLoaded_pending, ensureColsLoaded_builder]
      exact h
    -- a new builder has the bounds of no row at all
    exact inLine_setBuilder hload fun last _ ↦ Int64.le_maxValue _
  · rw [getOrCreateBuilder_of_some hb]
    exact h

theorem keptByGrowth_inLine (schema : Option TypeTreeNode) (front : List TopicChunk) :
    KeptByGrowth schema (InLine front) where
  load v h := by
    rw [InLine, ensureColsLoaded_pending, ensureColsLoaded_builder]
    exact h
  close v _ h := by
    rw [sealBeforeLayoutChange]
    split
    · rename_i b hb
      split_ifs
      · exact inLine_stage h (h.behind b hb)
      · exact h.dropBuilder
    · exact h
  grow _ _ _ h := h
  note _ _ _ h := h

theorem inLine_beginRow {t : Timestamp} {r : Except WriteError Unit} (h : v.InLine front)
    (hcall : v.beginRow schema t = some (v', r)) : v'.InLine front := by
  have hcreate : (v.getOrCreateBuilder schema).InLine front := inLine_getOrCreateBuilder h
  rcases beginRow_eq_some hcall with ⟨e, -, rfl⟩ | ⟨-, b, hb, rfl⟩
  · exact hcreate
  · obtain ⟨-, -, rfl⟩ := TopicChunkBuilder.beginRow_eq_some hb
    have hmin := hcreate.behind _ getOrCreateBuilder_builder
    exact inLine_setBuilder hcreate hmin

theorem inLine_cell {k : TopicChunkBuilder.CellCall} (h : v.InLine front)
    (hcall : (v.writer.builder.bind fun b ↦ (b.runCellCall k).map v.setBuilder) = some v') :
    v'.InLine front := by
  obtain ⟨b, hb, hk⟩ := Option.bind_eq_some_iff.mp hcall
  obtain ⟨b', hb', rfl⟩ := Option.map_eq_some_iff.mp hk
  obtain ⟨-, c, c', -, -, rfl⟩ := TopicChunkBuilder.runCellCall_eq_some hb'
  exact inLine_setBuilder h (h.behind b hb)

theorem inLine_finishRow {r : Except WriteError Unit} {l : Ledger} (h : v.InLine front)
    (hkeeps : v.writer.Keeps l) (ht : r = .ok () → EndsBy (front ++ v.writer.pending) l.timestamp)
    (hcall : v.finishRow = some (v', r)) : v'.InLine front := by
  rcases finishRow_eq_some hcall with ⟨e, -, rfl⟩ | ⟨hr, b, b', hb, hb', rfl⟩
  · exact h
  · obtain ⟨hrow, rfl⟩ := TopicChunkBuilder.finishRow_eq_some hb'
    refine inLine_putBack h ((h.behind b hb).min ?_)
    rw [hkeeps.currentTimestamp hb hrow]
    exact ht hr

/-! ### Batches -/

/-- Where the room of the builder ends, the batch of `cb` is cut, and not before what is in it. -/
def CutNext (schema : Option TypeTreeNode) (cb : TopicChunkBuilder) (ts : List Timestamp) (o : ℕ)
    (v : TopicView) : Prop :=
  ∃ k, o + (v.currentBuilder schema).remainingCapacity = cb.remainingCapacity + k * cb.maxRows ∧
    ∀ t ∈ ts[o + (v.currentBuilder schema).remainingCapacity]?, (v.currentBuilder schema).tMax ≤ t

theorem remainingCapacity_of_builder_eq_none (hb : v.writer.builder = none) :
    (v.currentBuilder schema).remainingCapacity = v.storage.descriptor.maxChunkRows := by
  rw [currentBuilder_of_none hb]
  show (v.ensureColsLoaded schema).storage.descriptor.maxChunkRows - 0 = _
  rw [ensureColsLoaded_storage, Nat.sub_zero]

theorem cutNext_of_builder_eq_none {cb : TopicChunkBuilder} {o k : ℕ}
    (hb : v.writer.builder = none) (hmax : v.storage.descriptor.maxChunkRows = cb.maxRows)
    (ho : o = cb.remainingCapacity + k * cb.maxRows) : CutNext schema cb ts o v := by
  have hroom : (v.currentBuilder schema).remainingCapacity = cb.maxRows :=
    (remainingCapacity_of_builder_eq_none hb).trans hmax
  refine ⟨k + 1, ?_, fun t _ ↦ ?_⟩
  · rw [hroom, ho, Nat.add_mul, Nat.one_mul, Nat.add_assoc]
  · rw [currentBuilder_of_none hb]
    exact Int64.minValue_le t

/-- One round: the slice lies behind the line, and so does what comes behind the cut. -/
theorem inLine_round {cb : TopicChunkBuilder} {o n : ℕ} (hcb : cb.CutsInOrder ts) (hv : v.Fits)
    (hmax : v.storage.descriptor.maxChunkRows = cb.maxRows) (h : v.InLine front)
    (ho : o < ts.length) (hn : n = v.batchSize schema ts.length o) (hpos : 0 < n)
    (hhead : ∀ t ∈ ts[o]?, EndsBy (front ++ v.writer.pending) t) (hcut : CutNext schema cb ts o v)
    (hb : (v.currentBuilder schema).runBatch ((ts.drop o).take n) (sliceCalls batch o n)
      = some b) :
    ((v.getOrCreateBuilder schema).putBack b).InLine front ∧
      (o + n < ts.length →
        (∀ t ∈ ts[o + n]?,
          EndsBy (front ++ ((v.getOrCreateBuilder schema).putBack b).writer.pending) t) ∧
        CutNext schema cb ts (o + n) ((v.getOrCreateBuilder schema).putBack b)) := by
  have hfit : (v.currentBuilder schema).Fits v.storage.descriptor.maxChunkRows := hv.currentBuilder
  obtain ⟨hafter, -, -⟩ := TopicChunkBuilder.runBatch_eq_some hfit.pending hb
  have hcreate : (v.getOrCreateBuilder schema).InLine front := inLine_getOrCreateBuilder h
  have hstart : ((ts.drop o).take n).head? = ts[o]? := by
    rw [List.head?_take, if_neg (Nat.ne_of_gt hpos), List.head?_drop]
  have hmin : EndsBy (front ++ (v.getOrCreateBuilder schema).writer.pending) b.tMin := by
    rw [hafter.frame]
    dsimp only
    rw [hstart, List.getElem?_eq_getElem ho, Option.elim_some]
    refine (hcreate.behind _ getOrCreateBuilder_builder).min ?_
    rw [getOrCreateBuilder_pending]
    exact hhead _ (List.getElem?_eq_getElem ho)
  refine ⟨inLine_putBack hcreate hmin, fun hmore ↦ ?_⟩
  subst hn
  obtain ⟨hroom, hfull⟩ := isFull_of_lt hv hb hmore
  obtain ⟨k, hk, hlast⟩ := hcut
  rw [hroom] at hmore ⊢
  rw [putBack_eq, if_pos hfull]
  refine ⟨fun t ht ↦ ?_, cutNext_of_builder_eq_none (k := k) rfl ?_ hk⟩
  · rw [stage_pending, ← List.append_assoc, endsBy_concat]
    show b.tMax ≤ t
    -- the cut is one of those the condition is about
    have hk' : k < ts.length := by
      have hsize : 0 < cb.maxRows := by
        have hle : (v.currentBuilder schema).remainingCapacity
            ≤ (v.currentBuilder schema).maxRows := Nat.sub_le _ _
        rw [hfit.maxRows, hmax] at hle
        omega
      have hmul : k * 1 ≤ k * cb.maxRows := Nat.mul_le_mul_left k hsize
      omega
    have hend : ((ts.drop o).take (v.batchSize schema ts.length o)).getLast?
        = ts[cb.remainingCapacity + k * cb.maxRows - 1]? := by
      rw [hroom, ← hk, List.getLast?_eq_getElem?, List.length_take, List.length_drop,
        List.getElem?_take_of_lt (by omega), List.getElem?_drop]
      congr 1
      omega
    rw [hafter.frame]
    dsimp only
    rw [hend]
    rcases hu : ts[cb.remainingCapacity + k * cb.maxRows - 1]? with _ | u
    · exact hlast t ht
    · exact max_le (hlast t ht) (hcb.cuts k hk' u hu t (hk ▸ ht))
  · rw [stage_storage, getOrCreateBuilder_storage]
    exact hmax

theorem inLine_appendColumns {r : Except WriteError Unit} (hv : v.Fits) (h : v.InLine front)
    (hc : r = .ok () → (∀ t ∈ ts.head?, EndsBy (front ++ v.writer.pending) t) ∧
      (v.currentBuilder schema).CutsInOrder ts)
    (hcall : v.appendColumns schema ts batch = some (v', r)) : v'.InLine front := by
  have hcreate : (v.getOrCreateBuilder schema).InLine front := inLine_getOrCreateBuilder h
  rcases appendColumns_eq_some hcall with ⟨e, -, rfl | rfl⟩ | ⟨-, -, rfl⟩ | ⟨rfl, hne, -, hloop⟩
  · exact h
  · exact hcreate
  · exact h
  · obtain ⟨hhead, hcuts⟩ := hc rfl
    have hmax : v.storage.descriptor.maxChunkRows = (v.currentBuilder schema).maxRows :=
      hv.currentBuilder.maxRows.symm
    refine (appendLoop_induction (I := fun o u ↦ u.InLine front ∧
      u.storage.descriptor.maxChunkRows = (v.currentBuilder schema).maxRows ∧
      (o < ts.length → (∀ t ∈ ts[o]?, EndsBy (front ++ u.writer.pending) t) ∧
        CutNext schema (v.currentBuilder schema) ts o u)) ?_
      (fits_getOrCreateBuilder hv) (Nat.zero_le _) ⟨hcreate, ?_, fun _ ↦ ⟨fun t ht ↦ ?_, 0, ?_, ?_⟩⟩
      hloop).2.1
    · intro o n u b hI hu ho hn hpos hb
      obtain ⟨hline, hmax', hleft⟩ := hI
      obtain ⟨hhead', hcut⟩ := hleft ho
      obtain ⟨hline', hleft'⟩ := inLine_round hcuts hu hmax' hline ho hn hpos hhead' hcut hb
      refine ⟨hline', ?_, hleft'⟩
      rw [putBack_storage, getOrCreateBuilder_storage]
      exact hmax'
    · rw [getOrCreateBuilder_storage]
      exact hmax
    · rw [getOrCreateBuilder_pending]
      exact hhead t (List.head?_eq_getElem? ▸ ht)
    · rw [currentBuilder_getOrCreateBuilder]
      simp
    · rw [currentBuilder_getOrCreateBuilder, Nat.zero_add]
      exact hcuts.first

theorem inLine_call {c : TopicCall} {out : Outcome} {l : Ledger} (hv : v.Fits)
    (h : v.InLine front) (hkeeps : v.writer.Keeps l) (hc : v.Follows schema l front c out)
    (hcall : v.call schema c = some (v', out)) : v'.InLine front := by
  cases c with
  | beginRow t =>
    obtain ⟨p, hp, heq⟩ := Option.map_eq_some_iff.mp hcall
    obtain ⟨rfl, rfl⟩ := Prod.mk.inj heq
    exact inLine_beginRow h hp
  | set i x =>
    obtain ⟨u, hu, heq⟩ := Option.map_eq_some_iff.mp hcall
    obtain ⟨rfl, rfl⟩ := Prod.mk.inj heq
    exact inLine_cell (k := .set i x) h hu
  | setNull i =>
    obtain ⟨u, hu, heq⟩ := Option.map_eq_some_iff.mp hcall
    obtain ⟨rfl, rfl⟩ := Prod.mk.inj heq
    exact inLine_cell (k := .setNull i) h hu
  | finishRow =>
    obtain ⟨p, hp, heq⟩ := Option.map_eq_some_iff.mp hcall
    obtain ⟨rfl, rfl⟩ := Prod.mk.inj heq
    exact inLine_finishRow h hkeeps (fun hok ↦ hc (by rw [hok]; rfl)) hp
  | appendColumns ts batch =>
    obtain ⟨⟨u, r⟩, hp, heq⟩ := Option.map_eq_some_iff.mp hcall
    obtain ⟨rfl, rfl⟩ := Prod.mk.inj heq
    exact inLine_appendColumns hv h (fun hok ↦ hc (by rw [hok]; rfl)) hp
  | resolveField path =>
    obtain ⟨rfl, rfl⟩ := Prod.mk.inj (Option.some.inj hcall)
    exact inLine_getOrCreateBuilder h
  | ensureColumn path type =>
    obtain ⟨p, hp, heq⟩ := Option.map_eq_some_iff.mp hcall
    obtain ⟨rfl, rfl⟩ := Prod.mk.inj heq
    exact (keptByGrowth_inLine schema front).ensureColumn hp h
  | expandArray path n type =>
    obtain ⟨p, hp, heq⟩ := Option.map_eq_some_iff.mp hcall
    obtain ⟨rfl, rfl⟩ := Prod.mk.inj heq
    exact (keptByGrowth_inLine schema front).expandArray hp h

end TopicView

/-! ## One topic -/

theorem shows_of_hasRows {parts : List (List Row)} {chunks : List TopicChunk}
    {columns : List ColumnDescriptor}
    (h : List.Forall₂ (fun part chunk ↦ chunk.HasRows columns part) parts chunks) :
    Shows parts chunks :=
  h.imp fun _ _ hrows ↦ ⟨⟨columns, hrows⟩, hrows.inStep⟩

/-- All rows of the ledger, from the chunks of the topic over those in flight to the writer, and the
line they stand in. -/
def InOneLine (sealed flying : List TopicChunk) (tw : TopicWriter) (l : Ledger) : Prop :=
  ∃ parts flown rest, l = rest.behind (parts.flatten ++ flown.flatten) ∧ Shows parts sealed ∧
    Shows flown flying ∧ tw.Keeps rest ∧ InLine (sealed ++ flying ++ tw.pending) tw.builder

namespace InOneLine

variable {sealed flying : List TopicChunk} {tw : TopicWriter} {l : Ledger}

theorem call {schema : Option TypeTreeNode} {v v' : TopicView} {c : TopicCall} {out : Outcome}
    (h : InOneLine sealed flying v.writer l) (hv : v.Fits) (haligns : v.Aligns schema l c out)
    (hfollows : v.Follows schema l (sealed ++ flying) c out)
    (hcall : v.call schema c = some (v', out)) :
    InOneLine sealed flying v'.writer (l.after c out) := by
  obtain ⟨parts, flown, rest, rfl, hparts, hflown, hkeeps, hline⟩ := h
  have haligns' : v.Aligns schema rest c out := by
    cases c <;> exact haligns
  have hfollows' : v.Follows schema rest (sealed ++ flying) c out := by
    cases c <;> exact hfollows
  exact ⟨parts, flown, rest.after c out, Ledger.after_behind, hparts, hflown,
    TopicView.keeps_call hv hkeeps haligns' hcall,
    TopicView.inLine_call hv hline hkeeps hfollows' hcall⟩

/-- What is handed out moves on in the line. -/
theorem handOut {chunks : List TopicChunk} {tw' : TopicWriter} (h : InOneLine sealed flying tw l)
    (hout : ∀ l', tw.Keeps l' → l'.cells = l.cells → tw.HandsOut l' chunks tw')
    (hpending : tw'.pending = [])
    (hline : InLine (sealed ++ flying ++ tw.pending) tw.builder →
      InLine (sealed ++ flying ++ chunks) tw'.builder) :
    InOneLine sealed (flying ++ chunks) tw' l := by
  obtain ⟨parts, flown, rest, rfl, hparts, hflown, hkeeps, hin⟩ := h
  obtain ⟨parts', rest', rfl, hparts', hkeeps'⟩ := hout rest hkeeps rfl
  refine ⟨parts, flown ++ parts', rest', ?_, hparts,
    List.rel_append hflown (shows_of_hasRows hparts'), hkeeps', ?_⟩
  · rw [Ledger.behind_behind, List.flatten_append, List.append_assoc]
  · rw [hpending, List.append_nil, ← List.append_assoc]
    exact hline hin

theorem takePending (h : InOneLine sealed flying tw l) :
    InOneLine sealed (flying ++ tw.pending) { tw with pending := [] } l :=
  h.handOut (fun _ hkeeps _ ↦ hkeeps.takePending) rfl id

theorem flush {v : TopicView} (h : InOneLine sealed flying v.writer l)
    (hmay : v.writer.MayFlush l) :
    InOneLine sealed (flying ++ v.flush.2) v.flush.1.writer l := by
  refine h.handOut (fun l' hkeeps hcells ↦ TopicView.keeps_flush hkeeps fun b hb ↦
    hcells ▸ hmay b hb) TopicView.flush_pending fun hline ↦ ?_
  rcases v.flush_cases with ⟨b, hb, -, hnone, hout⟩ | ⟨-, hsame, hout⟩
  · rw [hout, hnone, ← List.append_assoc]
    exact hline.concat (hline.behind b hb)
  · rw [hout, hsame]
    exact hline

/-- The first chunk in flight is not refused. -/
theorem commitChunk {chunk : TopicChunk} {s : TopicStorage}
    (h : InOneLine s.sealedChunks (chunk :: flying) tw l) :
    InOneLine ((s.appendSealedChunk chunk).getD s).sealedChunks flying tw l := by
  obtain ⟨parts, flown, rest, rfl, hparts, hflown, hkeeps, hline⟩ := h
  obtain ⟨part, flown', hpart, hflown', rfl⟩ := List.forall₂_cons_right_iff.mp hflown
  have haccepts : s.accepts chunk = true := by
    rw [TopicStorage.accepts]
    rcases hlast : s.sealedChunks.getLast? with _ | last
    · rfl
    · have hchain := hline.chain
      rw [List.append_assoc] at hchain
      obtain ⟨-, -, hfollows⟩ := List.isChain_append.mp hchain
      exact decide_eq_true (hfollows last hlast chunk rfl)
  have hsealed : ((s.appendSealedChunk chunk).getD s).sealedChunks = s.sealedChunks ++ [chunk] := by
    rw [TopicStorage.appendSealedChunk, if_pos haccepts]
    rfl
  rw [hsealed]
  refine ⟨parts ++ [part], flown', rest, ?_, List.rel_append hparts (.cons hpart .nil), hflown',
    hkeeps, ?_⟩
  · simp
  · simpa using hline

theorem start (hb : tw.builder = none) (hp : tw.pending = []) : InOneLine [] [] tw {} := by
  refine ⟨[], [], {}, rfl, .nil, .nil, .idle (TopicWriter.hasRows_empty hb hp), ?_⟩
  rw [hp, hb]
  exact ⟨List.isChain_nil, fun b hb ↦ by cases hb⟩

/-- Calls that follow what is there keep all rows in one line. -/
theorem rule : LineRule (fun schema v ↦ v.Follows schema) InOneLine where
  call hv haligns hfollows hcall h := h.call hv haligns hfollows hcall
  takePending h := h.takePending
  flush hmay h := h.flush hmay
  commitChunk h := h.commitChunk

/-- Where nothing is left with the writer or in flight, the topic has all rows. -/
theorem holdsRows {s : TopicStorage} (h : InOneLine s.sealedChunks [] tw l) (hempty : tw.Emptied) :
    s.HoldsRows l.rows := by
  obtain ⟨parts, flown, rest, rfl, hparts, hflown, hkeeps, -⟩ := h
  obtain rfl := List.forall₂_nil_right_iff.mp hflown
  refine ⟨parts, ?_, hparts⟩
  rw [Ledger.behind_rows, hkeeps.rows_eq_nil hempty]
  simp

end InOneLine

/-! ## Runs -/

namespace Books

variable {S : Setup} {B : Books} {w τ : ℕ}

/-- Rows and a batch over chunks of two rows, a new column, flushes with and without an open row, and
rows behind the last commit. -/
def rowsInTurn : List Call :=
  [.topic 0 1 (.ensureColumn "x" .int32), .topic 0 1 (.beginRow 1), .topic 0 1 (.set 0 (.int32 5)),
    .topic 0 1 .finishRow, .topic 0 1 (.beginRow 2), .topic 0 1 .finishRow,
    .topic 0 1 (.appendColumns [2, 3, 3] [{ colIndex := 0, data := .int32 [7, 8, 9] }]),
    .topic 0 1 (.ensureColumn "y" .bool), .topic 0 1 (.beginRow 4), .flushAll 0 [1] [1],
    .topic 0 1 .finishRow, .topic 0 1 (.beginRow 3), .commitChunks 0 0, .topic 0 1 (.beginRow 5),
    .topic 0 1 .finishRow, .flush 0 1, .topic 0 1 (.beginRow 6), .topic 0 1 .finishRow]

/-- What a run leaves of a topic: the timestamps the writer was told, those in the chunks, and how
many batches are left. -/
def timesAfter (S : Setup) (W : World) (calls : List Call) (w τ : ℕ) :
    Option (List Timestamp × List (List Timestamp) × ℕ) :=
  (run S W calls).bind fun B ↦ ((B.world.engines (S.home w)).topics τ).map fun s ↦
    ((B.ledger w τ).rows.map Prod.fst, s.sealedChunks.map (·.timestamps), B.world.inFlight.length)

theorem timesAfter_eq_some {W : World} {calls : List Call}
    {times : List Timestamp × List (List Timestamp) × ℕ}
    (h : timesAfter S W calls w τ = some times) :
    ∃ B s, run S W calls = some B ∧ (B.world.engines (S.home w)).topics τ = some s ∧
      ((B.ledger w τ).rows.map Prod.fst, s.sealedChunks.map (·.timestamps),
        B.world.inFlight.length) = times := by
  obtain ⟨B, hrun, hs⟩ := Option.bind_eq_some_iff.mp h
  obtain ⟨s, hs, htimes⟩ := Option.map_eq_some_iff.mp hs
  exact ⟨B, s, hrun, hs, htimes⟩

end Books

end PlotJuggler
