import PlotJugglerCore.Store.Chunk

/-!
# The history of a column

What was appended to a column, row by row, and by which path. `ColumnBuilder.Tracks d h c` says that
column builder `c` is what the appends of history `h` made of an empty column with descriptor `d`.
Every operation of the builder extends the history, so a column of any reachable builder tracks
one, and whatever is said about a sealed column later is said about its history.

Beside the contents of the buffer, a history fixes what the column believes about constancy:
`Scan` is the part of the statistics that `is_constant` depends on, with one step for each path.
-/

namespace PlotJuggler

open TypedColumnBuffer (Slot nullRaw batchSlots)

/-- One row of a column, and whether the bulk path wrote it. -/
structure Entry where
  bulk : Bool
  valid : Bool
  raw : List UInt8
  deriving DecidableEq, Repr

namespace Entry

def slot (e : Entry) : Slot := ⟨e.valid, e.raw⟩

/-- The cell of the table the row stands for: `none` is null. -/
def cell (k : StorageKind) (e : Entry) : Option Value :=
  if e.valid then some (k.decode e.raw) else none

/-- The value as the statistics see it. -/
def double (k : StorageKind) (e : Entry) : Binary64 := (k.decode e.raw).toDouble

def ofRow (k : StorageKind) : Option Value → Entry
  | some v => ⟨false, true, v.bytes⟩
  | none => ⟨false, false, nullRaw k⟩

end Entry

/-- The bits of a batch that came with a bitmap or without one. -/
def batchBits (d : ColumnSpan) : Option BitSpan → List Bool
  | some v => v.bits
  | none => List.replicate d.rowCount true

/-- The rows a batch adds to a column. -/
def batchEntries (d : ColumnSpan) (v : Option BitSpan) : List Entry :=
  (batchSlots (batchBits d v) d.raws).map fun s ↦ ⟨true, s.valid, s.raw⟩

/-- The cells of a batch: its values, null where the bitmap says so. -/
def batchCells (d : ColumnSpan) (v : Option BitSpan) : List (Option Value) :=
  List.zipWith (fun b x ↦ if b then some x else none) (batchBits d v) d.values

theorem map_cell_batchEntries (d : ColumnSpan) (v : Option BitSpan) :
    (batchEntries d v).map (Entry.cell d.kind) = batchCells d v := by
  rw [batchEntries, batchSlots, List.map_map, List.map_zipWith, batchCells,
    ← ColumnSpan.map_decode_raws, List.zipWith_map_right]
  rfl

/-! ## What a column believes about constancy -/

/-- `is_constant`, whether a run was counted, the last value as a double, and the row number. -/
structure Scan where
  isConstant : Bool := true
  started : Bool := false
  last : Binary64 := .zero
  row : ℕ := 0
  deriving DecidableEq, Repr

/-- The two paths differ in when they compare: the row path always does except at row zero, the
bulk path only once a run was counted, and a comparison that finds no change counts no run. -/
def Scan.step (k : StorageKind) (s : Scan) (e : Entry) : Scan :=
  if !e.valid then { s with row := s.row + 1 }
  else if e.bulk then
    ⟨s.isConstant && (!s.started || Binary64.eq (e.double k) s.last), true, e.double k, s.row + 1⟩
  else if s.row = 0 then ⟨s.isConstant, true, e.double k, s.row + 1⟩
  else
    ⟨s.isConstant && Binary64.eq (e.double k) s.last,
      s.started || !Binary64.eq (e.double k) s.last, e.double k, s.row + 1⟩

def scan (k : StorageKind) (h : List Entry) : Scan := h.foldl (Scan.step k) {}

theorem scan_append (k : StorageKind) (h : List Entry) (new : List Entry) :
    scan k (h ++ new) = new.foldl (Scan.step k) (scan k h) := List.foldl_append

/-! ## Tracking -/

namespace ColumnBuilder

/-- The beliefs of a column builder, for comparison with the scan of its history. -/
def beliefs (c : ColumnBuilder) : Scan :=
  ⟨c.stats.isConstant, decide (0 < c.stats.runCount), c.lastValue, c.buffer.rowCount⟩

/-- Column `c` is what the appends of history `h` made of an empty column. -/
structure Tracks (d : ColumnDescriptor) (h : List Entry) (c : ColumnBuilder) : Prop where
  descriptor : c.buffer.descriptor = d
  holds : c.buffer.Holds (h.map Entry.slot)
  nullCount : c.stats.nullCount = (h.map Entry.valid).count false
  scan : d.kind ≠ .string → scan d.kind h = c.beliefs

variable {d : ColumnDescriptor} {h : List Entry} {c c' : ColumnBuilder}

theorem Tracks.kind (t : Tracks d h c) : c.kind = d.kind := by
  rw [ColumnBuilder.kind, TypedColumnBuffer.kind, t.descriptor]

theorem Tracks.rowCount (t : Tracks d h c) : c.buffer.rowCount = h.length := by
  rw [t.holds.rowCount, List.length_map]

theorem tracks_new (d : ColumnDescriptor) : Tracks d [] (new d) where
  descriptor := rfl
  holds := TypedColumnBuffer.holds_new d
  nullCount := rfl
  scan _ := rfl

/-- A null of the row path. -/
theorem Tracks.setNull (t : Tracks d h c) : Tracks d (h ++ [.ofRow d.kind none]) c.setNull := by
  have hkind : c.buffer.kind = d.kind := t.kind
  refine ⟨?_, ?_, ?_, fun hk ↦ ?_⟩
  · simpa [ColumnBuilder.setNull] using t.descriptor
  · have := t.holds.appendNull
    rw [hkind] at this
    simpa [ColumnBuilder.setNull, Entry.ofRow, Entry.slot] using this
  · simp [ColumnBuilder.setNull, ColumnStats.addNull, Entry.ofRow, t.nullCount]
  · rw [scan_append, t.scan hk]
    rfl

/-- What `updateColumnStats` makes of the beliefs is the row step of the scan. -/
theorem beliefs_updateColumnStats (c : ColumnBuilder) {b : TypedColumnBuffer}
    (hrow : b.rowCount = c.buffer.rowCount + 1) (k : StorageKind) {v : Value}
    (hv : k.decode v.bytes = v) :
    ({ c with buffer := b }.updateColumnStats v.toDouble).beliefs
      = c.beliefs.step k (.ofRow k (some v)) := by
  have hdouble : (Entry.ofRow k (some v)).double k = v.toDouble := by
    rw [Entry.double, Entry.ofRow, hv]
  have hfirst : b.rowCount - 1 = c.buffer.rowCount := by omega
  simp only [beliefs, updateColumnStats, Scan.step, hdouble, hfirst]
  by_cases hzero : c.buffer.rowCount = 0
  · simp [hzero, hrow, Entry.ofRow, ColumnStats.firstRun, ColumnStats.addBounds]
  · by_cases heq : Binary64.eq v.toDouble c.lastValue
    · simp [hzero, hrow, heq, Entry.ofRow, ColumnStats.addBounds]
    · simp [hzero, hrow, heq, Entry.ofRow, ColumnStats.nextRun, ColumnStats.addBounds]

theorem nullCount_updateColumnStats (c : ColumnBuilder) (v : Binary64) :
    (c.updateColumnStats v).stats.nullCount = c.stats.nullCount := by
  rw [updateColumnStats]
  split_ifs <;> rfl

theorem nullCount_updateStringStats (c : ColumnBuilder) (v : List UInt8) :
    (c.updateStringStats v).stats.nullCount = c.stats.nullCount := by
  rw [updateStringStats]
  split_ifs <;> rfl

/-- A value of the row path. -/
theorem Tracks.set (t : Tracks d h c) {v : Value} (hset : c.set v = some c') :
    v.kind = d.kind ∧ Tracks d (h ++ [.ofRow d.kind (some v)]) c' := by
  rw [ColumnBuilder.set, Option.map_eq_some_iff] at hset
  obtain ⟨b, hb, hc⟩ := hset
  have hvk : v.kind = d.kind := by
    rw [← t.kind, ColumnBuilder.kind]
    exact TypedColumnBuffer.kind_of_append hb
  have hdesc : b.descriptor = d := (TypedColumnBuffer.append_descriptor hb).trans t.descriptor
  have hholds : b.Holds ((h ++ [Entry.ofRow d.kind (some v)]).map Entry.slot) := by
    simpa [Entry.ofRow, Entry.slot] using t.holds.append hb
  have hrow : b.rowCount = c.buffer.rowCount + 1 := by
    rw [hholds.rowCount, t.rowCount]
    simp
  have hnull : c.stats.nullCount
      = ((h ++ [Entry.ofRow d.kind (some v)]).map Entry.valid).count false := by
    simp [Entry.ofRow, t.nullCount]
  have hnumeric : { c with buffer := b }.updateColumnStats v.toDouble = c' →
      Tracks d (h ++ [.ofRow d.kind (some v)]) c' := by
    rintro rfl
    refine ⟨hdesc, hholds, ?_, fun hk ↦ ?_⟩
    · rw [nullCount_updateColumnStats]
      exact hnull
    · rw [beliefs_updateColumnStats c hrow d.kind (hvk ▸ v.decode_bytes), scan_append, t.scan hk]
      rfl
  refine ⟨hvk, ?_⟩
  cases v with
  | string s =>
    subst hc
    refine ⟨hdesc, hholds, ?_, fun hk ↦ absurd hvk.symm hk⟩
    rw [nullCount_updateStringStats]
    exact hnull
  | _ => exact hnumeric hc

/-! ### A batch -/

/-- The loop of `computeBulkNumericStats` over rows given by validity and value is the bulk step of
the scan. -/
theorem beliefs_numericScan (k : StorageKind) (new : List Entry) (hbulk : ∀ e ∈ new, e.bulk = true)
    (s : NumericScan) (t : Scan)
    (hinv : s.stats.isConstant = t.isConstant ∧ s.hadValid = t.started ∧ s.prev = t.last ∧
      decide (0 < s.stats.runCount) = s.hadValid) :
    (new.foldl (fun s e ↦ s.step e.valid (e.double k)) s).stats.isConstant
        = (new.foldl (Scan.step k) t).isConstant ∧
      decide (0 < (new.foldl (fun s e ↦ s.step e.valid (e.double k)) s).stats.runCount)
        = (new.foldl (Scan.step k) t).started ∧
      (new.foldl (fun s e ↦ s.step e.valid (e.double k)) s).prev
        = (new.foldl (Scan.step k) t).last ∧
      (new.foldl (fun s e ↦ s.step e.valid (e.double k)) s).stats.nullCount
        = s.stats.nullCount + (new.map Entry.valid).count false := by
  induction new generalizing s t with
  | nil => exact ⟨hinv.1, hinv.2.2.2.trans hinv.2.1, hinv.2.2.1, rfl⟩
  | cons e new ih =>
    have he : e.bulk = true := hbulk e List.mem_cons_self
    obtain ⟨hconst, hstarted, hlast, hrun⟩ := hinv
    have hstep : (s.step e.valid (e.double k)).stats.isConstant = (t.step k e).isConstant ∧
        (s.step e.valid (e.double k)).hadValid = (t.step k e).started ∧
        (s.step e.valid (e.double k)).prev = (t.step k e).last ∧
        decide (0 < (s.step e.valid (e.double k)).stats.runCount)
          = (s.step e.valid (e.double k)).hadValid := by
      rw [NumericScan.step, Scan.step, he, ← hstarted, ← hlast, ← hconst]
      by_cases hv : e.valid
      · cases hs : s.hadValid
        · simp [hv, ColumnStats.firstRun]
        · rw [hs, decide_eq_true_eq] at hrun
          by_cases heq : Binary64.eq (e.double k) s.prev
          · simp [hv, heq, hrun]
          · simp [hv, heq, ColumnStats.nextRun]
      · simp [hv, ColumnStats.addNull, hrun]
    have hnull : (s.step e.valid (e.double k)).stats.nullCount
        = s.stats.nullCount + [e.valid].count false := by
      rw [NumericScan.step]
      cases e.valid
      · simp [ColumnStats.addNull]
      · simp only [if_true]
        split_ifs <;> rfl
    obtain ⟨h1, h2, h3, h4⟩ :=
      ih (fun e he ↦ hbulk e (List.mem_cons_of_mem _ he)) _ _ hstep
    refine ⟨h1, h2, h3, ?_⟩
    rw [List.foldl_cons, h4, hnull, List.map_cons, Nat.add_assoc, ← List.count_append]
    rfl

theorem countsAsValid_eq {b : TypedColumnBuffer} {slots : List Slot} (hb : b.Holds slots) {row : ℕ}
    (hrow : row < slots.length) : countsAsValid b row = slots[row].valid := by
  have hread : (slots.map Slot.valid).getD row true = slots[row].valid := by
    simp [List.getD_eq_getElem?_getD, hrow]
  rw [countsAsValid, hb.isValid hrow, hread]
  by_cases hn : b.hasNulls
  · simp [hn]
  · -- without nulls every slot is valid
    have hall : slots[row].valid = true := by
      by_contra hne
      exact hn (hb.hasNulls.mpr ⟨slots[row], List.getElem_mem hrow, by simpa using hne⟩)
    simp [hn, hall]

theorem slot_of_batch {h new : List Entry} {i : ℕ} (hi : i < new.length) :
    ((h ++ new).map Entry.slot)[h.length + i]? = some new[i].slot := by
  rw [List.getElem?_map, List.getElem?_append_right (Nat.le_add_right _ _)]
  simp [hi]

theorem countsAsValid_batch {b : TypedColumnBuffer} {h new : List Entry}
    (hb : b.Holds ((h ++ new).map Entry.slot)) {i : ℕ} (hi : i < new.length) :
    countsAsValid b (h.length + i) = new[i].valid := by
  obtain ⟨hrow, hslot⟩ := List.getElem?_eq_some_iff.mp (slot_of_batch (h := h) hi)
  rw [countsAsValid_eq hb hrow, hslot]
  rfl

theorem map_countsAsValid_batch {b : TypedColumnBuffer} {h new : List Entry}
    (hb : b.Holds ((h ++ new).map Entry.slot)) :
    ((List.range new.length).map (h.length + ·)).map (countsAsValid b) = new.map Entry.valid := by
  apply List.ext_getElem
  · simp
  intro i hi hi'
  simpa using countsAsValid_batch hb (by simpa using hi')

/-- The rows the numeric statistics walk over are the entries of the batch. -/
theorem map_bulk_rows {b : TypedColumnBuffer} {h new : List Entry}
    (hb : b.Holds ((h ++ new).map Entry.slot)) (hk : b.kind ≠ .string) :
    ((List.range new.length).map (h.length + ·)).map
        (fun row ↦ (countsAsValid b row, b.readAsDouble row))
      = new.map fun e ↦ (e.valid, e.double b.kind) := by
  apply List.ext_getElem
  · simp
  intro i hi hi'
  have hnew : i < new.length := by simpa using hi'
  have hraw : b.readFixed (h.length + i) = new[i].raw := by
    rw [hb.readFixed hk, List.getD_eq_getElem?_getD, List.getElem?_map, slot_of_batch hnew]
    rfl
  simp only [List.getElem_map, List.getElem_range, countsAsValid_batch hb hnew,
    TypedColumnBuffer.readAsDouble, hraw]
  rfl

theorem nullCount_stringScan (b : TypedColumnBuffer) (rows : List ℕ)
    (s : ColumnStats × Option (List UInt8)) :
    (rows.foldl (stringStep b) s).1.nullCount
      = s.1.nullCount + (rows.map (countsAsValid b)).count false := by
  induction rows generalizing s with
  | nil => rfl
  | cons row rows ih =>
    have hstep : (stringStep b s row).1.nullCount
        = s.1.nullCount + [countsAsValid b row].count false := by
      rw [stringStep]
      cases countsAsValid b row
      · simp [ColumnStats.addNull]
      · rcases s.2 with _ | last
        · rfl
        · simp only [if_true]
          split_ifs <;> rfl
    rw [List.foldl_cons, ih, hstep, List.map_cons, Nat.add_assoc, ← List.count_append]
    rfl

/-- The loop of `computeBulkNumericStats` is a loop over the entries of the batch. -/
theorem foldl_numericScan {b : TypedColumnBuffer} {h new : List Entry}
    (hb : b.Holds ((h ++ new).map Entry.slot)) (hk : b.kind ≠ .string) (start : NumericScan) :
    ((List.range new.length).map (h.length + ·)).foldl
        (fun s row ↦ s.step (countsAsValid b row) (b.readAsDouble row)) start
      = new.foldl (fun s e ↦ s.step e.valid (e.double b.kind)) start := by
  have := congrArg (List.foldl (fun s p ↦ NumericScan.step s p.1 p.2) start) (map_bulk_rows hb hk)
  simpa only [List.foldl_map] using this

/-- The fields of the numeric statistics after a batch, by the loop over its entries. -/
theorem computeBulkNumericStats_eq {c : ColumnBuilder} {h new : List Entry}
    (hb : c.buffer.Holds ((h ++ new).map Entry.slot)) (hk : c.buffer.kind ≠ .string)
    (hbulk : ∀ e ∈ new, e.bulk = true) {t : Scan}
    (ht : c.stats.isConstant = t.isConstant ∧ decide (0 < c.stats.runCount) = t.started ∧
      c.lastValue = t.last) :
    (c.computeBulkNumericStats h.length new.length).beliefs
        = ⟨(new.foldl (Scan.step c.buffer.kind) t).isConstant,
          (new.foldl (Scan.step c.buffer.kind) t).started,
          (new.foldl (Scan.step c.buffer.kind) t).last, c.buffer.rowCount⟩ ∧
      (c.computeBulkNumericStats h.length new.length).stats.nullCount
        = c.stats.nullCount + (new.map Entry.valid).count false := by
  set start : NumericScan :=
    { stats := c.stats
      localMin := c.stats.minValue.getD .largest
      localMax := c.stats.maxValue.getD .lowest
      prev := c.lastValue
      hadValid := decide (0 < c.stats.runCount) } with hstart
  obtain ⟨hconst, hrun, hlast, hnull⟩ := beliefs_numericScan c.buffer.kind new hbulk start t
    ⟨ht.1, ht.2.1, ht.2.2, rfl⟩
  rw [computeBulkNumericStats, ← hstart, foldl_numericScan hb hk]
  refine ⟨?_, ?_⟩
  · rw [beliefs, computeBulkNumericStats.finish, ← hconst, ← hrun, ← hlast]
    split_ifs <;> rfl
  · rw [computeBulkNumericStats.finish]
    split_ifs <;> exact hnull

theorem length_batchEntries {data : ColumnSpan} {v : Option BitSpan}
    (hv : ∀ s ∈ v, s.bitLength = data.rowCount) : (batchEntries data v).length = data.rowCount := by
  cases v with
  | none => simp [batchEntries, batchBits, batchSlots]
  | some s => simp [batchEntries, batchBits, batchSlots, BitSpan.bits, hv s rfl]

/-- The buffer after the data and the bitmap of a batch. -/
theorem holds_batch {b b' : TypedColumnBuffer} {h : List Entry} {data : ColumnSpan}
    {v : Option BitSpan} (hb : b.Holds (h.map Entry.slot)) (hwf : data.WellFormed)
    (hv : ∀ s ∈ v, s.bitLength = data.rowCount) (happ : b.appendBulk data = some b') :
    (v.elim b' b'.appendValidityBulk).Holds ((h ++ batchEntries data v).map Entry.slot) := by
  have hslots : (batchEntries data v).map Entry.slot = batchSlots (batchBits data v) data.raws := by
    rw [batchEntries, List.map_map]
    exact List.map_id _
  have hdata := hb.appendBulk hwf happ
  rw [List.map_append, hslots]
  cases v with
  | none =>
    rw [batchBits, ← ColumnSpan.length_raws, TypedColumnBuffer.batchSlots_replicate_true]
    exact hdata
  | some s => exact hdata.appendValidityBulk (by rw [hv s rfl, ColumnSpan.length_raws])

/-- Column `c'` is `c` with the rows `new` behind, written in bulk. -/
structure Extends (c : ColumnBuilder) (new : List Entry) (c' : ColumnBuilder) : Prop where
  descriptor : c'.buffer.descriptor = c.buffer.descriptor
  holds : ∀ slots, c.buffer.Holds slots → c'.buffer.Holds (slots ++ new.map Entry.slot)
  nullCount : c'.stats.nullCount = c.stats.nullCount + (new.map Entry.valid).count false
  beliefs : c.kind ≠ .string → c'.beliefs = new.foldl (Scan.step c.kind) c.beliefs

theorem row_foldl_step (k : StorageKind) (new : List Entry) (s : Scan) :
    (new.foldl (Scan.step k) s).row = s.row + new.length := by
  induction new generalizing s with
  | nil => rfl
  | cons e new ih =>
    have hstep : (s.step k e).row = s.row + 1 := by
      rw [Scan.step]
      split_ifs <;> rfl
    rw [List.foldl_cons, ih, hstep, List.length_cons]
    omega

/-- A batch of the bulk path, from its data to the statistics. -/
theorem extends_batch {slots : List Slot} (hb : c.buffer.Holds slots) {data : ColumnSpan}
    {v : Option BitSpan} {b : TypedColumnBuffer} (hwf : data.WellFormed)
    (hv : ∀ s ∈ v, s.bitLength = data.rowCount) (happ : c.buffer.appendBulk data = some b)
    (hfin : { c with buffer := v.elim b b.appendValidityBulk }.finishBulk data.rowCount = some c') :
    c.Extends (batchEntries data v) c' := by
  set b' := v.elim b b.appendValidityBulk with hb'
  have hdesc : b'.descriptor = c.buffer.descriptor := by
    rw [hb']
    cases v with
    | none => exact TypedColumnBuffer.appendBulk_descriptor happ
    | some s =>
      exact (TypedColumnBuffer.appendValidityBulk_descriptor b s).trans
        (TypedColumnBuffer.appendBulk_descriptor happ)
  have hkind : b'.kind = c.kind := congrArg ColumnDescriptor.kind hdesc
  -- any rows will do for the bytes of the buffer, those of `slots` for the statistics
  have hholds : ∀ slots, c.buffer.Holds slots →
      b'.Holds (slots ++ (batchEntries data v).map Entry.slot) := by
    intro slots hslots
    have hback : (slots.map fun s ↦ Entry.mk true s.valid s.raw).map Entry.slot = slots := by
      rw [List.map_map]
      exact List.map_id _
    rw [← hback, ← List.map_append]
    exact holds_batch (hback.symm ▸ hslots) hwf hv happ
  obtain ⟨h, rfl⟩ : ∃ h : List Entry, h.map Entry.slot = slots :=
    ⟨slots.map fun s ↦ ⟨true, s.valid, s.raw⟩, by rw [List.map_map]; exact List.map_id _⟩
  have hheld := hholds _ hb
  rw [← List.map_append] at hheld
  have hlen := length_batchEntries hv
  have hcount : c.buffer.rowCount = h.length := by rw [hb.rowCount, List.length_map]
  have hrows : b'.rowCount = h.length + data.rowCount := by
    rw [hheld.rowCount, List.length_map, List.length_append, hlen]
  have hfirst : b'.rowCount - data.rowCount = h.length := by omega
  have hle : data.rowCount ≤ b'.rowCount := by omega
  rw [finishBulk, if_pos hle, ColumnBuilder.kind, hkind] at hfin
  rw [hfirst, ← hlen] at hfin
  split_ifs at hfin with hk
  · obtain rfl := Option.some.inj hfin
    refine ⟨hdesc, hholds, ?_, fun hne ↦ absurd hk hne⟩
    rw [computeBulkStringStats]
    rw [nullCount_stringScan, map_countsAsValid_batch hheld]
  · obtain rfl := Option.some.inj hfin
    have hbulk : ∀ e ∈ batchEntries data v, e.bulk = true := by
      intro e he
      obtain ⟨s, -, rfl⟩ := List.mem_map.mp he
      rfl
    obtain ⟨hbeliefs, hnulls⟩ := computeBulkNumericStats_eq (c := { c with buffer := b' })
      hheld (hkind ▸ hk) hbulk (t := c.beliefs) ⟨rfl, rfl, rfl⟩
    refine ⟨hdesc, hholds, hnulls, fun _ ↦ ?_⟩
    have hrow := row_foldl_step c.kind (batchEntries data v) c.beliefs
    rw [hbeliefs, hkind, hrows, ← hlen, ← hcount]
    rw [beliefs] at hrow ⊢
    rw [← hrow]

/-- A column that is tracked stays tracked. -/
theorem Tracks.batch (t : Tracks d h c) {data : ColumnSpan} {v : Option BitSpan}
    {b : TypedColumnBuffer} (hwf : data.WellFormed) (hv : ∀ s ∈ v, s.bitLength = data.rowCount)
    (happ : c.buffer.appendBulk data = some b)
    (hfin : { c with buffer := v.elim b b.appendValidityBulk }.finishBulk data.rowCount = some c') :
    data.kind = d.kind ∧ Tracks d (h ++ batchEntries data v) c' := by
  have hext := extends_batch t.holds hwf hv happ hfin
  refine ⟨(TypedColumnBuffer.kind_of_appendBulk happ).trans t.kind, ?_, ?_, ?_, fun hk ↦ ?_⟩
  · exact hext.descriptor.trans t.descriptor
  · rw [List.map_append]
    exact hext.holds _ t.holds
  · rw [hext.nullCount, t.nullCount, List.map_append, List.count_append]
  · rw [hext.beliefs (t.kind ▸ hk), scan_append, t.scan hk, t.kind]

theorem finishBulk_buffer {count : ℕ} (h : c.finishBulk count = some c') :
    c'.buffer = c.buffer := by
  rw [finishBulk] at h
  split_ifs at h
  · obtain rfl := Option.some.inj h
    rfl
  · obtain rfl := Option.some.inj h
    rfl

/-- What one unit of the interface, a row or a batch, does to a column, and the rows it adds. -/
inductive Step (c : ColumnBuilder) : List Entry → ColumnBuilder → Prop
  | set {v : Value} {c' : ColumnBuilder} (h : c.set v = some c') :
    Step c [.ofRow c.kind (some v)] c'
  | null : Step c [.ofRow c.kind none] c.setNull
  | batch {data : ColumnSpan} {v : Option BitSpan} {b : TypedColumnBuffer} {c' : ColumnBuilder}
    (hwf : data.WellFormed) (hv : ∀ s ∈ v, s.bitLength = data.rowCount)
    (happ : c.buffer.appendBulk data = some b)
    (hfin : { c with buffer := v.elim b b.appendValidityBulk }.finishBulk data.rowCount
      = some c') : Step c (batchEntries data v) c'
  | rest : Step c [] c

theorem rowCount_set {v : Value} (h : c.set v = some c') :
    v.kind = c.kind ∧ c'.buffer.rowCount = c.buffer.rowCount + 1 := by
  obtain ⟨b, hb, hc⟩ := Option.map_eq_some_iff.mp h
  refine ⟨TypedColumnBuffer.kind_of_append hb, ?_⟩
  have hbuffer : c'.buffer = b := by
    rw [← hc]
    cases v <;> rfl
  rw [hbuffer]
  cases v <;> simp only [TypedColumnBuffer.append] at hb <;> split_ifs at hb <;>
    exact Option.some.inj hb ▸ rfl

theorem rowCount_setNull (c : ColumnBuilder) :
    c.setNull.buffer.rowCount = c.buffer.rowCount + 1 := rfl

theorem Tracks.step (t : Tracks d h c) {new : List Entry} (hstep : c.Step new c') :
    Tracks d (h ++ new) c' := by
  cases hstep with
  | set hset => exact t.kind ▸ (t.set hset).2
  | null => exact t.kind ▸ t.setNull
  | batch hwf hv happ hfin => exact (t.batch hwf hv happ hfin).2
  | rest => rwa [List.append_nil]

end ColumnBuilder

end PlotJuggler
