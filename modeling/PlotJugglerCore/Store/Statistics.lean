import Mathlib.Data.List.ReduceOption
import PlotJugglerCore.Lib.OnePass
import PlotJugglerCore.Store.Bulk

/-!
# What the statistics say

`ColumnStats` of a chunk that was filled by rows, in bulk or by a mix of both. The statistics of a
column are a function of its rows and of the path each of them took, `scanStats`. The two paths
differ in three places. A value of the row path starts the first run if it is in row zero, a value
in bulk if no run has been counted. A string of the row path is compared with the bytes of the row
before, also if that is a null, and in bulk with the last string that is none. And the minimum of
the bulk path starts at the largest finite double.
-/

namespace PlotJuggler

open TypedColumnBuffer (Slot byteCount)

/-! ## The statistics as a function of the rows -/

namespace ColumnStats

/-- The minimum and maximum of the bulk path. -/
def addBulkBounds (s : ColumnStats) (value : Binary64) : ColumnStats :=
  { s with
    minValue := some (if Binary64.lt value (s.minValue.getD .largest) then value
      else s.minValue.getD .largest)
    maxValue := some (if Binary64.lt (s.maxValue.getD .lowest) value then value
      else s.maxValue.getD .lowest) }

def addRun (s : ColumnStats) (first same : Bool) : ColumnStats :=
  if first then s.firstRun else if same then s else s.nextRun

end ColumnStats

/-- The statistics, and what the next row is compared with: the last value as a double, the bytes of
the row before, and the bytes of the last row that is no null. -/
structure StatsScan where
  stats : ColumnStats := {}
  last : Binary64 := .zero
  previous : List UInt8 := []
  lastValid : List UInt8 := []
  row : ℕ := 0
  deriving DecidableEq, Repr

namespace StatsScan

def addBounds (k : StorageKind) (s : StatsScan) (e : Entry) : ColumnStats :=
  if k = .string then s.stats
  else if e.bulk then s.stats.addBulkBounds (e.double k)
  else s.stats.addBounds (e.double k)

def isFirst (s : StatsScan) (e : Entry) : Bool :=
  if e.bulk then s.stats.runCount = 0 else s.row = 0

def isSame (k : StorageKind) (s : StatsScan) (e : Entry) : Bool :=
  if k = .string then e.raw = if e.bulk then s.lastValid else s.previous
  else Binary64.eq (e.double k) s.last

def step (k : StorageKind) (s : StatsScan) (e : Entry) : StatsScan :=
  if e.valid then
    { stats := (s.addBounds k e).addRun (s.isFirst e) (s.isSame k e)
      last := e.double k
      previous := e.raw
      lastValid := e.raw
      row := s.row + 1 }
  else { s with stats := s.stats.addNull, previous := e.raw, row := s.row + 1 }

theorem step_of_valid {k : StorageKind} {e : Entry} (s : StatsScan) (hv : e.valid = true) :
    s.step k e =
      { stats := (s.addBounds k e).addRun (s.isFirst e) (s.isSame k e)
        last := e.double k
        previous := e.raw
        lastValid := e.raw
        row := s.row + 1 } := if_pos hv

theorem step_of_null {k : StorageKind} {e : Entry} (s : StatsScan) (hv : e.valid = false) :
    s.step k e = { s with stats := s.stats.addNull, previous := e.raw, row := s.row + 1 } :=
  if_neg (by simp [hv])

end StatsScan

def scanStats (k : StorageKind) (h : List Entry) : StatsScan := h.foldl (StatsScan.step k) {}

section ScanStats

variable {k : StorageKind} {h : List Entry}

theorem scanStats_append (k : StorageKind) (h new : List Entry) :
    scanStats k (h ++ new) = new.foldl (StatsScan.step k) (scanStats k h) := List.foldl_append

theorem scanStats_concat (k : StorageKind) (h : List Entry) (e : Entry) :
    scanStats k (h ++ [e]) = (scanStats k h).step k e := scanStats_append k h [e]

theorem row_scanStats (k : StorageKind) (h : List Entry) : (scanStats k h).row = h.length := by
  induction h using List.reverseRecOn with
  | nil => rfl
  | append_singleton h e ih =>
    rw [scanStats_concat, StatsScan.step]
    split_ifs <;> simp [ih]

theorem previous_scanStats (k : StorageKind) (h : List Entry) :
    (scanStats k h).previous = (h.getLast?.map Entry.raw).getD [] := by
  induction h using List.reverseRecOn with
  | nil => rfl
  | append_singleton h e ih =>
    rw [scanStats_concat, StatsScan.step]
    split_ifs <;> simp

@[simp] theorem ColumnStats.runCount_addRun (s : ColumnStats) (first same : Bool) :
    (s.addRun first same).runCount
      = if first then 1 else if same then s.runCount else s.runCount + 1 := by
  rw [ColumnStats.addRun]
  split_ifs <;> rfl

/-- The bounds change neither the count of runs nor anything else but themselves. -/
theorem StatsScan.runCount_addBounds (k : StorageKind) (s : StatsScan) (e : Entry) :
    (s.addBounds k e).runCount = s.stats.runCount := by
  rw [StatsScan.addBounds]
  split_ifs <;> rfl

theorem ColumnStats.isSome_addBounds (s : ColumnStats) (v : Binary64) :
    (s.addBounds v).minValue.isSome = true ∧ (s.addBounds v).maxValue.isSome = true := by
  simp only [ColumnStats.addBounds]
  constructor
  · rcases s.minValue with _ | m
    · rfl
    · split_ifs <;> rfl
  · rcases s.maxValue with _ | m
    · rfl
    · split_ifs <;> rfl

/-- Once a run is counted there is a last value, and a numeric column has bounds. -/
theorem of_runCount_pos (hpos : 0 < (scanStats k h).stats.runCount) :
    (h.reverse.find? Entry.valid).map Entry.raw = some (scanStats k h).lastValid ∧
      (k ≠ .string → (scanStats k h).stats.minValue.isSome = true ∧
        (scanStats k h).stats.maxValue.isSome = true) := by
  induction h using List.reverseRecOn with
  | nil => exact absurd hpos (lt_irrefl 0)
  | append_singleton h e ih =>
    rw [scanStats_concat, StatsScan.step] at hpos ⊢
    rw [List.reverse_concat, List.find?_cons]
    by_cases hv : e.valid = true
    · rw [if_pos hv, hv]
      refine ⟨rfl, fun hk ↦ ?_⟩
      have hbounds : ((scanStats k h).addBounds k e).minValue.isSome = true ∧
          ((scanStats k h).addBounds k e).maxValue.isSome = true := by
        rw [StatsScan.addBounds, if_neg hk]
        split_ifs
        · exact ⟨rfl, rfl⟩
        · exact ColumnStats.isSome_addBounds _ _
      simp only [ColumnStats.addRun]
      split_ifs <;> exact hbounds
    · rw [if_neg hv] at hpos
      rw [if_neg hv, Bool.eq_false_iff.mpr hv]
      exact ih hpos

end ScanStats

/-! ## The builder computes them -/

namespace ColumnBuilder

variable {d : ColumnDescriptor} {h new : List Entry} {c c' : ColumnBuilder}

/-- The statistics of column `c` are those of the rows `h`, as far as its strings can be read. -/
structure Counts (d : ColumnDescriptor) (h : List Entry) (c : ColumnBuilder) : Prop where
  stats : c.stats = (scanStats d.kind h).stats
  last : d.kind ≠ .string → c.lastValue = (scanStats d.kind h).last

theorem counts_new (d : ColumnDescriptor) : Counts d [] (.new d) := ⟨rfl, fun _ ↦ rfl⟩

theorem Counts.setNull (hc : Counts d h c) : Counts d (h ++ [.ofRow d.kind none]) c.setNull := by
  refine ⟨?_, fun hk ↦ ?_⟩ <;> rw [scanStats_concat]
  · exact congrArg ColumnStats.addNull hc.stats
  · exact hc.last hk

/-- A value of the row path. -/
theorem Counts.set (hc : Counts d h c) (t : Tracks d h c) {v : Value}
    (hbytes : d.kind = .string →
      byteCount ((h ++ [Entry.ofRow d.kind (some v)]).map Entry.slot) < 2 ^ 32)
    (hset : c.set v = some c') : Counts d (h ++ [.ofRow d.kind (some v)]) c' := by
  obtain ⟨b, hb, hc'⟩ := Option.map_eq_some_iff.mp hset
  have hvk : v.kind = d.kind := (TypedColumnBuffer.kind_of_append hb).trans t.kind
  have hdouble : (Entry.ofRow d.kind (some v)).double d.kind = v.toDouble := by
    rw [Entry.double, Entry.ofRow, ← hvk, v.decode_bytes]
  have hholds : b.Holds ((h ++ [Entry.ofRow d.kind (some v)]).map Entry.slot) := by
    simpa [Entry.ofRow, Entry.slot] using t.holds.append hb
  have hrow : b.rowCount - 1 = h.length := by
    rw [hholds.rowCount]
    simp
  have hbulk : (Entry.ofRow d.kind (some v)).bulk = false := rfl
  have hnumeric : { c with buffer := b }.updateColumnStats v.toDouble = c' → d.kind ≠ .string →
      Counts d (h ++ [.ofRow d.kind (some v)]) c' := by
    rintro rfl hk
    refine ⟨?_, fun _ ↦ ?_⟩ <;> rw [scanStats_concat, StatsScan.step_of_valid _ rfl]
    · simp only [updateColumnStats, StatsScan.addBounds, if_neg hk, StatsScan.isFirst,
        StatsScan.isSame, ColumnStats.addRun, hdouble, hrow, hbulk, Bool.false_eq_true, if_false,
        row_scanStats, hc.stats, hc.last hk, decide_eq_true_eq]
    · exact hdouble.symm
  rcases v with v | v | v | v | v | v | v
  case string =>
    subst hc'
    have hk : d.kind = .string := hvk.symm
    refine ⟨?_, fun hne ↦ absurd hk hne⟩
    rw [scanStats_concat, StatsScan.step_of_valid _ rfl]
    have hraw : (Entry.ofRow d.kind (some (.string v))).raw = v := rfl
    simp only [updateStringStats, StatsScan.addBounds, if_pos hk, StatsScan.isFirst,
      StatsScan.isSame, ColumnStats.addRun, hraw, hbulk, hrow, row_scanStats, previous_scanStats,
      hc.stats]
    rcases List.eq_nil_or_concat h with rfl | ⟨h, e, rfl⟩
    · rfl
    · -- the row before is read from the buffer, with the new row behind it
      have hkind : b.kind = .string := (congrArg ColumnDescriptor.kind
        ((TypedColumnBuffer.append_descriptor hb).trans t.descriptor)).trans hk
      rw [List.concat_eq_append] at hholds hbytes ⊢
      have hprev : b.readString ((h ++ [e]).length - 1) = e.raw := by
        rw [hholds.readString hkind (hbytes hk) (by simp)]
        simp [Entry.slot]
      rw [hprev]
      simp
  all_goals exact hnumeric hc' (by rw [← hvk]; simp [Value.kind])

/-! ### In bulk -/

/-- The variables of the numeric loop `s` stand for the scan `t`: the bounds are written back at the
end, if there was a value. -/
structure NumericScan.Follows (s : NumericScan) (t : StatsScan) : Prop where
  stats : t.stats = if s.hadValid then
      { s.stats with minValue := some s.localMin, maxValue := some s.localMax }
    else s.stats
  last : t.last = s.prev
  localMin : s.localMin = t.stats.minValue.getD .largest
  localMax : s.localMax = t.stats.maxValue.getD .lowest
  hadValid : s.hadValid = decide (0 < t.stats.runCount)

theorem NumericScan.Follows.step {s : NumericScan} {t : StatsScan} (hs : s.Follows t)
    {k : StorageKind} (hk : k ≠ .string) {e : Entry} (hbulk : e.bulk = true) :
    (s.step e.valid (e.double k)).Follows (t.step k e) := by
  rcases hv : e.valid
  · rw [StatsScan.step_of_null t hv]
    refine ⟨?_, hs.last, hs.localMin, hs.localMax, hs.hadValid⟩
    have hstats := hs.stats
    rw [hstats]
    simp only [NumericScan.step, Bool.false_eq_true, if_false]
    split_ifs <;> rfl
  · rw [StatsScan.step_of_valid t hv]
    have hfirst : t.isFirst e = !s.hadValid := by
      rw [StatsScan.isFirst, if_pos hbulk, hs.hadValid]
      rcases t.stats.runCount with _ | n <;> simp
    have hsame : t.isSame k e = Binary64.eq (e.double k) s.prev := by
      rw [StatsScan.isSame, if_neg hk, hs.last]
    have hbounds : t.addBounds k e = t.stats.addBulkBounds (e.double k) := by
      rw [StatsScan.addBounds, if_neg hk, if_pos hbulk]
    have hrun := hs.hadValid
    rw [hs.stats] at hrun
    rw [hfirst, hsame, hbounds, ColumnStats.addBulkBounds, ← hs.localMin, ← hs.localMax, hs.stats]
    simp only [NumericScan.step, if_true]
    rcases hhad : s.hadValid
    · constructor <;> simp [ColumnStats.addRun, ColumnStats.firstRun]
    · have hpos : 0 < s.stats.runCount := by simpa [hhad] using hrun
      rcases hq : Binary64.eq (e.double k) s.prev
      · constructor <;> simp [ColumnStats.addRun, ColumnStats.nextRun]
      · constructor <;> simp [ColumnStats.addRun, hpos]

theorem NumericScan.Follows.foldl {s : NumericScan} {t : StatsScan} (hs : s.Follows t)
    {k : StorageKind} (hk : k ≠ .string) (hbulk : ∀ e ∈ new, e.bulk = true) :
    (new.foldl (fun s e ↦ s.step e.valid (e.double k)) s).Follows
      (new.foldl (StatsScan.step k) t) := by
  induction new generalizing s t with
  | nil => exact hs
  | cons e new ih =>
    exact ih (hs.step hk (hbulk e List.mem_cons_self)) fun e' he' ↦
      hbulk e' (List.mem_cons_of_mem e he')

theorem Counts.bulkNumeric (hc : Counts d h c) (hb : c.buffer.Holds ((h ++ new).map Entry.slot))
    (hkind : c.buffer.kind = d.kind) (hk : d.kind ≠ .string) (hbulk : ∀ e ∈ new, e.bulk = true) :
    Counts d (h ++ new) (c.computeBulkNumericStats h.length new.length) := by
  set start : NumericScan :=
    { stats := c.stats
      localMin := c.stats.minValue.getD .largest
      localMax := c.stats.maxValue.getD .lowest
      prev := c.lastValue
      hadValid := decide (0 < c.stats.runCount) } with hstart
  have hfollows : start.Follows (scanStats d.kind h) := by
    refine ⟨?_, (hc.last hk).symm, by rw [hstart, hc.stats], by rw [hstart, hc.stats],
      by rw [hstart, hc.stats]⟩
    rw [hstart]
    simp only [decide_eq_true_eq, hc.stats]
    split_ifs with hpos
    · -- a run was counted, so the bounds are there
      obtain ⟨hmin, hmax⟩ := (of_runCount_pos hpos).2 hk
      obtain ⟨m, hm⟩ := Option.isSome_iff_exists.mp hmin
      obtain ⟨M, hM⟩ := Option.isSome_iff_exists.mp hmax
      rw [hm, hM, Option.getD_some, Option.getD_some, ← hm, ← hM]
    · rfl
  have hend := hfollows.foldl hk hbulk
  rw [computeBulkNumericStats, ← hstart, foldl_numericScan hb (hkind ▸ hk), hkind]
  refine ⟨?_, fun _ ↦ ?_⟩ <;> rw [scanStats_append, computeBulkNumericStats.finish]
  · exact hend.stats.symm
  · exact hend.last.symm

/-- The rows the string statistics walk over, with the rows before them. -/
theorem map_string_rows {b : TypedColumnBuffer} (hb : b.Holds (h.map Entry.slot))
    (hk : b.kind = .string) (hbytes : byteCount (h.map Entry.slot) < 2 ^ 32) :
    (List.range h.length).map (fun row ↦ (countsAsValid b row, b.readString row))
      = h.map fun e ↦ (e.valid, e.raw) := by
  apply List.ext_getElem
  · simp
  intro i hi hi'
  have hlt : i < (h.map Entry.slot).length := by simpa using hi
  rw [List.getElem_map, List.getElem_range, List.getElem_map, countsAsValid_eq hb hlt,
    hb.readString hk hbytes hlt]
  simp [Entry.slot, List.getD_eq_getElem?_getD, (by simpa using hlt : i < h.length)]

/-- The string loop and the scan: it compares with the last value once a run is counted. -/
theorem foldl_stringStep {s : ColumnStats × Option (List UInt8)} {t : StatsScan} {k : StorageKind}
    (hk : k = .string) (hstats : t.stats = s.1)
    (hlast : s.2 = if 0 < t.stats.runCount then some t.lastValid else none)
    (hbulk : ∀ e ∈ new, e.bulk = true) :
    ((new.map fun e ↦ (e.valid, e.raw)).foldl (fun s p ↦
      if p.1 then
        (match s.2 with
          | none => s.1.firstRun
          | some last => if p.2 = last then s.1 else s.1.nextRun, some p.2)
      else (s.1.addNull, s.2)) s).1 = (new.foldl (StatsScan.step k) t).stats := by
  induction new generalizing s t with
  | nil => exact hstats.symm
  | cons e new ih =>
    have hrest : ∀ e' ∈ new, e'.bulk = true := fun e' he' ↦ hbulk e' (List.mem_cons_of_mem e he')
    rw [List.map_cons, List.foldl_cons, List.foldl_cons]
    rcases hv : e.valid
    · rw [StatsScan.step_of_null t hv]
      exact ih (congrArg ColumnStats.addNull hstats) hlast hrest
    · rw [StatsScan.step_of_valid t hv]
      have hb := hbulk e List.mem_cons_self
      have hsame : t.isSame k e = decide (e.raw = t.lastValid) := by
        rw [StatsScan.isSame, if_pos hk, if_pos hb]
      have hbounds : t.addBounds k e = t.stats := by rw [StatsScan.addBounds, if_pos hk]
      have hfirst : t.isFirst e = decide (t.stats.runCount = 0) := by
        rw [StatsScan.isFirst, if_pos hb]
      rw [hsame, hbounds, hfirst]
      refine ih ?_ ?_ hrest
      · rw [hlast, ← hstats, ColumnStats.addRun]
        rcases Nat.eq_zero_or_pos t.stats.runCount with hzero | hpos
        · simp [hzero]
        · simp [hpos, hpos.ne']
      · rw [ColumnStats.runCount_addRun]
        rcases Nat.eq_zero_or_pos t.stats.runCount with hzero | hpos
        · simp [hzero]
        · by_cases heq : e.raw = t.lastValid <;> simp [heq, hpos.ne', hpos]

theorem Counts.bulkString (hc : Counts d h c) (hb : c.buffer.Holds ((h ++ new).map Entry.slot))
    (hkind : c.buffer.kind = d.kind) (hk : d.kind = .string)
    (hbytes : byteCount ((h ++ new).map Entry.slot) < 2 ^ 32)
    (hbulk : ∀ e ∈ new, e.bulk = true) :
    Counts d (h ++ new) (c.computeBulkStringStats h.length new.length) := by
  -- the rows before the batch, and those of the batch
  have hrows := map_string_rows hb (hkind.trans hk) hbytes
  rw [List.length_append, List.range_add, List.map_append, List.map_append] at hrows
  obtain ⟨hold, hnew⟩ := List.append_inj hrows (by simp)
  have hlast : (if 0 < h.length ∧ 0 < c.stats.runCount then lastValidString c.buffer h.length
      else none) = if 0 < (scanStats d.kind h).stats.runCount then
        some (scanStats d.kind h).lastValid else none := by
    rw [hc.stats]
    by_cases hpos : 0 < (scanStats d.kind h).stats.runCount
    · have hvalid := (of_runCount_pos hpos).1
      have hne : 0 < h.length := by
        rw [List.length_pos_iff]
        rintro rfl
        cases hvalid
      have hfind := congrArg (fun l ↦ (l.reverse.find? Prod.fst).map Prod.snd) hold
      simp only [← List.map_reverse, List.find?_map, Option.map_map] at hfind
      rw [if_pos ⟨hne, hpos⟩, if_pos hpos, ← hvalid, lastValidString]
      exact hfind
    · rw [if_neg fun hand ↦ hpos hand.2, if_neg hpos]
  refine ⟨?_, fun hne ↦ absurd hk hne⟩
  have hfold := foldl_stringStep (s := (c.stats, _)) hk hc.stats.symm hlast hbulk
  rw [scanStats_append, ← hfold, ← hnew]
  simp only [computeBulkStringStats, List.foldl_map]
  rfl

/-! ### Along a run -/

theorem byteCount_append (h new : List Entry) : byteCount ((h ++ new).map Entry.slot)
    = byteCount (h.map Entry.slot) + byteCount (new.map Entry.slot) := by
  simp [byteCount]

/-- A unit of the interface keeps the statistics those of the rows. -/
theorem Counts.step (hc : Counts d h c) (t : Tracks d h c) (hstep : c.Step new c')
    (hbytes : d.kind = .string → byteCount ((h ++ new).map Entry.slot) < 2 ^ 32) :
    Counts d (h ++ new) c' := by
  have t' := t.step hstep
  rcases hstep with hset | _ | @⟨data, v, b, c', hwf, hv, happ, hfin⟩ | _
  · rw [t.kind] at hbytes ⊢
    exact hc.set t hbytes hset
  · rw [t.kind]
    exact hc.setNull
  · have hcount := (length_batchEntries hv).symm
    have hbulk : ∀ e ∈ batchEntries data v, e.bulk = true := by
      intro e he
      obtain ⟨s, -, rfl⟩ := List.mem_map.mp he
      rfl
    have hheld := holds_batch t.holds hwf hv happ
    have hrows : (v.elim b b.appendValidityBulk).rowCount = h.length + data.rowCount := by
      rw [hheld.rowCount, List.length_map, List.length_append, hcount]
    have hkind : (v.elim b b.appendValidityBulk).kind = d.kind := by
      have hdesc := t'.descriptor
      rw [finishBulk_buffer hfin] at hdesc
      exact congrArg ColumnDescriptor.kind hdesc
    have hc' : Counts d h { c with buffer := v.elim b b.appendValidityBulk } :=
      ⟨hc.stats, hc.last⟩
    rw [finishBulk, if_pos (by rw [hrows]; exact Nat.le_add_left _ _), ColumnBuilder.kind, hkind,
      hrows, Nat.add_sub_cancel, hcount] at hfin
    split_ifs at hfin with hk
    · obtain rfl := Option.some.inj hfin
      exact hc'.bulkString hheld hkind hk (hbytes hk) hbulk
    · obtain rfl := Option.some.inj hfin
      exact hc'.bulkNumeric hheld hkind hk hbulk
  · rwa [List.append_nil]

end ColumnBuilder

/-! ## Runs of equal values -/

/-- Whether two rows count as equal: strings by their bytes, all others as doubles. -/
def Entry.alike (k : StorageKind) (e e' : Entry) : Bool :=
  if k = .string then e.raw = e'.raw else Binary64.eq (e.double k) (e'.double k)

section Runs

variable {k : StorageKind} {s : StatsScan} {new : List Entry}

/-- Nulls are counted, and change what the next string of the row path is compared with. -/
theorem foldl_step_nulls (s : StatsScan) (hnull : ∀ e ∈ new, e.valid = false) :
    (new.foldl (StatsScan.step k) s).stats
        = { s.stats with nullCount := s.stats.nullCount + new.length } ∧
      (new.foldl (StatsScan.step k) s).last = s.last ∧
      (new.foldl (StatsScan.step k) s).row = s.row + new.length := by
  induction new generalizing s with
  | nil => exact ⟨rfl, rfl, rfl⟩
  | cons e new ih =>
    rw [List.foldl_cons, StatsScan.step_of_null s (hnull e List.mem_cons_self)]
    obtain ⟨hstats, hlast, hrow⟩ :=
      ih { s with stats := s.stats.addNull, previous := e.raw, row := s.row + 1 }
        fun e' he' ↦ hnull e' (List.mem_cons_of_mem e he')
    refine ⟨?_, hlast, ?_⟩
    · rw [hstats, List.length_cons, ColumnStats.addNull, Nat.add_right_comm, Nat.add_assoc]
    · rw [hrow, List.length_cons]
      show s.row + 1 + new.length = s.row + (new.length + 1)
      omega

/-- Behind a value both paths count a run where a value differs from the one before, if a run was
counted or all is left to the row path, and no string stands behind a null. -/
theorem foldl_step_runs {x : Entry} (hrow : 0 < s.row)
    (hrun : 0 < s.stats.runCount ∨ ∀ e ∈ new, e.bulk = false)
    (hlast : k ≠ .string → s.last = x.double k)
    (hstring : k = .string → s.previous = x.raw ∧ s.lastValid = x.raw ∧
      new.Pairwise fun e e' ↦ e.valid = false → e'.valid = false) :
    (new.foldl (StatsScan.step k) s).stats.runCount
        = s.stats.runCount + OnePass.changes (Entry.alike k) x (new.filter Entry.valid) ∧
      (new.foldl (StatsScan.step k) s).stats.isConstant = (s.stats.isConstant &&
        decide (OnePass.changes (Entry.alike k) x (new.filter Entry.valid) = 0)) := by
  induction new generalizing s x with
  | nil => simp [OnePass.changes]
  | cons e new ih =>
    rw [List.foldl_cons]
    have hrun' : 0 < s.stats.runCount ∨ ∀ e ∈ new, e.bulk = false :=
      hrun.imp_right fun hrows e' he' ↦ hrows e' (List.mem_cons_of_mem e he')
    rcases hv : e.valid
    · rw [List.filter_cons_of_neg (by simp [hv])]
      by_cases hk : k = .string
      · -- a null: only nulls are left
        have hnull : ∀ e' ∈ e :: new, e'.valid = false :=
          List.forall_mem_cons.mpr ⟨hv, fun e' he' ↦
            (List.pairwise_cons.mp (hstring hk).2.2).1 e' he' hv⟩
        have hnone : new.filter Entry.valid = [] := by
          rw [List.filter_eq_nil_iff]
          exact fun e' he' ↦ by simp [hnull e' (List.mem_cons_of_mem e he')]
        rw [← List.foldl_cons (f := StatsScan.step k), (foldl_step_nulls s hnull).1, hnone]
        simp [OnePass.changes]
      · rw [StatsScan.step_of_null s hv]
        exact ih (Nat.succ_pos _) hrun' hlast fun hk' ↦ absurd hk' hk
    · rw [StatsScan.step_of_valid s hv, List.filter_cons_of_pos hv, OnePass.changes]
      -- it is no first run, and the comparison is with `x` on either path
      have hfirst : s.isFirst e = false := by
        rw [StatsScan.isFirst]
        split_ifs
        · rename_i hbulk
          have hpos := hrun.resolve_right fun hrows ↦ by
            rw [hrows e List.mem_cons_self] at hbulk
            cases hbulk
          simpa using hpos.ne'
        · simpa using hrow.ne'
      have hsame : s.isSame k e = Entry.alike k e x := by
        rw [StatsScan.isSame, Entry.alike]
        by_cases hk : k = .string
        · obtain ⟨hprev, hvalid, -⟩ := hstring hk
          rw [if_pos hk, if_pos hk, hprev, hvalid, ite_self]
        · rw [if_neg hk, if_neg hk, hlast hk]
      have hcount := s.runCount_addBounds k e
      have hconst : (s.addBounds k e).isConstant = s.stats.isConstant := by
        rw [StatsScan.addBounds]
        split_ifs <;> rfl
      obtain ⟨hruns, hconst'⟩ := ih (x := e)
        (s := { stats := (s.addBounds k e).addRun (s.isFirst e) (s.isSame k e), last := e.double k,
                previous := e.raw, lastValid := e.raw, row := s.row + 1 })
        (Nat.succ_pos _)
        (hrun'.imp_left fun hpos ↦ by
          rw [ColumnStats.runCount_addRun, hfirst, hcount]
          split_ifs <;> omega)
        (fun _ ↦ rfl)
        (fun hk ↦ ⟨rfl, rfl, (List.pairwise_cons.mp (hstring hk).2.2).2⟩)
      rw [hruns, hconst', hfirst, hsame, ColumnStats.addRun]
      rcases halike : Entry.alike k e x
      · simp only [Bool.false_eq_true, if_false, ColumnStats.nextRun, hcount]
        constructor
        · omega
        · simp
      · simp only [Bool.false_eq_true, if_false, if_true, hcount, hconst, Nat.zero_add]
        exact ⟨trivial, trivial⟩

variable {ns rest : List Entry} {e : Entry}

theorem scanStats_nulls (hns : ∀ e ∈ ns, e.valid = false) :
    (scanStats k ns).stats = { nullCount := ns.length } ∧ (scanStats k ns).last = .zero := by
  obtain ⟨hstats, hlast, -⟩ := foldl_step_nulls (k := k) {} hns
  exact ⟨hstats.trans (by simp), hlast⟩

/-- The first value counts a run in bulk, and as the first row. -/
theorem first_of_bulk_or_nil (hns : ∀ e ∈ ns, e.valid = false) (hv : e.valid = true)
    (h : e.bulk = true ∨ ns = []) : (scanStats k (ns ++ [e])).stats.runCount = 1 ∧
      (scanStats k (ns ++ [e])).stats.isConstant = true := by
  have hstats := (scanStats_nulls (k := k) hns).1
  have hfirst : (scanStats k ns).isFirst e = true := by
    rw [StatsScan.isFirst, hstats, row_scanStats]
    rcases h with hbulk | rfl
    · simp [hbulk]
    · simp
  have hconst : ((scanStats k ns).addBounds k e).isConstant = true := by
    rw [StatsScan.addBounds, hstats]
    split_ifs <;> rfl
  rw [scanStats_concat, StatsScan.step_of_valid _ hv, hfirst]
  exact ⟨rfl, hconst⟩

/-- A first value of the row path behind nulls is compared with zero. -/
theorem first_of_row (hk : k ≠ .string) (hns : ∀ e ∈ ns, e.valid = false) (hne : ns ≠ [])
    (hv : e.valid = true) (hrow : e.bulk = false) :
    (scanStats k (ns ++ [e])).stats.runCount
        = (if Binary64.eq (e.double k) .zero then 0 else 1) ∧
      (scanStats k (ns ++ [e])).stats.isConstant = Binary64.eq (e.double k) .zero := by
  obtain ⟨hstats, hlast⟩ := scanStats_nulls (k := k) hns
  have hfirst : (scanStats k ns).isFirst e = false := by
    rw [StatsScan.isFirst, hrow, row_scanStats]
    simpa using hne
  have hsame : (scanStats k ns).isSame k e = Binary64.eq (e.double k) .zero := by
    rw [StatsScan.isSame, if_neg hk, hlast]
  have hbounds : ((scanStats k ns).addBounds k e).runCount = 0 ∧
      ((scanStats k ns).addBounds k e).isConstant = true := by
    rw [StatsScan.addBounds, hstats]
    split_ifs <;> exact ⟨rfl, rfl⟩
  rw [scanStats_concat, StatsScan.step_of_valid _ hv, hfirst, hsame, ColumnStats.addRun]
  rcases Binary64.eq (e.double k) .zero
  · exact ⟨congrArg (· + 1) hbounds.1, rfl⟩
  · exact hbounds

/-- From the first value on the runs are those of the values. -/
theorem runs_of_first (hv : e.valid = true)
    (hrun : 0 < (scanStats k (ns ++ [e])).stats.runCount ∨ ∀ e ∈ rest, e.bulk = false)
    (hstring : k = .string → rest.Pairwise fun e e' ↦ e.valid = false → e'.valid = false) :
    (scanStats k (ns ++ e :: rest)).stats.runCount = (scanStats k (ns ++ [e])).stats.runCount
        + OnePass.changes (Entry.alike k) e (rest.filter Entry.valid) ∧
      (scanStats k (ns ++ e :: rest)).stats.isConstant
        = ((scanStats k (ns ++ [e])).stats.isConstant &&
          decide (OnePass.changes (Entry.alike k) e (rest.filter Entry.valid) = 0)) := by
  rw [List.append_cons ns e rest, scanStats_append k (ns ++ [e]) rest]
  refine foldl_step_runs ?_ hrun (fun _ ↦ ?_) fun hk ↦ ⟨?_, ?_, hstring hk⟩
  · rw [row_scanStats]
    simp
  all_goals rw [scanStats_concat, StatsScan.step_of_valid _ hv]

end Runs

/-! ## Bounds -/

/-- One step towards a bound, `lt` being the comparison of the bound and `limit` where the bulk path
starts. -/
def boundStep (lt : Binary64 → Binary64 → Bool) (limit : Binary64) (best : Option Binary64)
    (p : Bool × Binary64) : Option Binary64 :=
  if p.1 then some (if lt p.2 (best.getD limit) then p.2 else best.getD limit)
  else if best.all (lt p.2) then some p.2 else best

/-- The values of a history, each with the path it took. -/
def flagged (k : StorageKind) (h : List Entry) : List (Bool × Binary64) :=
  (h.filter Entry.valid).map fun e ↦ (e.bulk, e.double k)

section Bounds

variable {k : StorageKind} {h : List Entry}

theorem flagged_concat (k : StorageKind) (h : List Entry) (e : Entry) : flagged k (h ++ [e])
    = flagged k h ++ if e.valid then [(e.bulk, e.double k)] else [] := by
  rw [flagged, flagged, List.filter_append, List.map_append]
  rcases hv : e.valid <;> simp [hv]

/-- The minimum and the maximum are searched for step by step. -/
theorem bounds_scanStats (hk : k ≠ .string) (h : List Entry) :
    (scanStats k h).stats.minValue = (flagged k h).foldl (boundStep Binary64.lt .largest) none ∧
      (scanStats k h).stats.maxValue
        = (flagged k h).foldl (boundStep (fun x y ↦ Binary64.lt y x) .lowest) none := by
  induction h using List.reverseRecOn with
  | nil => exact ⟨rfl, rfl⟩
  | append_singleton h e ih =>
    rw [scanStats_concat, flagged_concat]
    rcases hv : e.valid
    · rw [StatsScan.step_of_null _ hv]
      simpa [ColumnStats.addNull] using ih
    · rw [StatsScan.step_of_valid _ hv, if_pos rfl, List.foldl_concat, List.foldl_concat, ← ih.1,
        ← ih.2]
      have hbounds : ((scanStats k h).addBounds k e).minValue
            = boundStep Binary64.lt .largest (scanStats k h).stats.minValue (e.bulk, e.double k) ∧
          ((scanStats k h).addBounds k e).maxValue = boundStep (fun x y ↦ Binary64.lt y x) .lowest
            (scanStats k h).stats.maxValue (e.bulk, e.double k) := by
        rw [StatsScan.addBounds, if_neg hk]
        rcases e.bulk
        · exact ⟨rfl, rfl⟩
        · exact ⟨rfl, rfl⟩
      rw [← hbounds.1, ← hbounds.2]
      simp only [ColumnStats.addRun]
      split_ifs <;> exact ⟨rfl, rfl⟩

/-- Among numbers a bound is searched for by a key. -/
theorem foldl_boundStep {lt : Binary64 → Binary64 → Bool} {limit : Binary64} {f : Binary64 → ℤ}
    (hlt : ∀ x y, x.isNaN = false → y.isNaN = false → lt x y = decide (f x < f y))
    (hlimit : limit.isNaN = false) {l : List (Bool × Binary64)}
    (hl : ∀ p ∈ l, p.2.isNaN = false) :
    l.foldl (boundStep lt limit) none = l.foldl (OnePass.search f limit) none := by
  have hboth : l.foldl (boundStep lt limit) none = l.foldl (OnePass.search f limit) none ∧
      ∀ m ∈ l.foldl (boundStep lt limit) none, m.isNaN = false := by
    induction l using List.reverseRecOn with
    | nil => exact ⟨rfl, by simp⟩
    | append_singleton l p ih =>
      obtain ⟨heq, hnum⟩ := ih fun q hq ↦ hl q (List.mem_append_left _ hq)
      have hp : p.2.isNaN = false := hl p (by simp)
      rw [List.foldl_concat, List.foldl_concat, ← heq]
      rcases hbest : l.foldl (boundStep lt limit) none with _ | m
      · simp only [boundStep, OnePass.search, Option.getD_none, Option.all_none, if_true,
          hlt _ _ hp hlimit, decide_eq_true_eq]
        refine ⟨trivial, fun m hm ↦ ?_⟩
        split_ifs at hm <;> obtain rfl := Option.some.inj hm
        · exact hp
        · exact hlimit
        · exact hp
      · have hm : m.isNaN = false := hnum m hbest
        simp only [boundStep, OnePass.search, Option.getD_some, Option.all_some, hlt _ _ hp hm,
          decide_eq_true_eq]
        refine ⟨trivial, fun m' hm' ↦ ?_⟩
        split_ifs at hm' <;> obtain rfl := Option.some.inj hm' <;> assumption
  exact hboth.1

end Bounds

/-! ## What statistics should say -/

/-- `==` on two values of one type. -/
def Value.same : Value → Value → Bool
  | .float32 v, .float32 w => Binary64.eq (.ofBinary32 v) (.ofBinary32 w)
  | .float64 v, .float64 w => Binary64.eq v w
  | v, w => v = w

/-- Whether the statistics of a column of kind `k` take two values for one. -/
def Value.alike (k : StorageKind) (v w : Value) : Bool :=
  if k = .string then v = w else Binary64.eq v.toDouble w.toDouble

/-- The values of a column as doubles. -/
def doubles (cells : List (Option Value)) : List Binary64 := cells.reduceOption.map Value.toDouble

/-- The first of the elements with the least key. -/
def leastBy {α : Type} (key : α → ℤ) (l : List α) : Option α :=
  @List.argmin α ℤ Int.instLinearOrder.toPartialOrder.toPreorder Int.decLt key l

theorem leastBy_eq_none {α : Type} {key : α → ℤ} {l : List α} : leastBy key l = none ↔ l = [] :=
  List.argmin_eq_none

theorem leastBy_eq_some {α : Type} {key : α → ℤ} {l : List α} {m : α} (h : leastBy key l = some m) :
    m ∈ l ∧ ∀ x ∈ l, key m ≤ key x :=
  ⟨List.argmin_mem h, fun _ hx ↦ List.le_of_mem_argmin hx h⟩

/-- A bound is there if there are doubles, and is then one of them and related to all. -/
def IsBound (r : Binary64 → Binary64 → Bool) (ds : List Binary64) : Option Binary64 → Prop
  | none => ds = []
  | some m => m ∈ ds ∧ ∀ x ∈ ds, r m x = true

namespace ColumnStats

/-- What the fields of `ColumnStats` say about the rows of a column. -/
structure Describes (k : StorageKind) (cells : List (Option Value)) (s : ColumnStats) : Prop where
  nullCount : s.nullCount = cells.count none
  isConstant : s.isConstant = true ↔ cells.reduceOption.Pairwise fun v w ↦ v.same w = true
  minValue : k ≠ .string → IsBound Binary64.le (doubles cells) s.minValue
  maxValue : k ≠ .string → IsBound (fun x y ↦ Binary64.le y x) (doubles cells) s.maxValue

/-- The statistics of a column, whichever way its rows took. -/
def expected (k : StorageKind) (cells : List (Option Value)) : ColumnStats where
  nullCount := cells.count none
  runCount := OnePass.runs (Value.alike k) cells.reduceOption
  isConstant := OnePass.runs (Value.alike k) cells.reduceOption ≤ 1
  minValue := if k = .string then none else leastBy Binary64.key (doubles cells)
  maxValue := if k = .string then none else leastBy (-Binary64.key ·) (doubles cells)

end ColumnStats

/-- The columns whose statistics are right. Strings: no value stands behind a null. All others:
there is no value at all; or no value is a NaN, not all are above the largest finite double and not
all below the lowest, and if row zero is a value, then values that are all equal as doubles are
equal, and if it is null, then the first value is not zero and the values are not all equal as
doubles. -/
def StatsSound (k : StorageKind) (cells : List (Option Value)) : Prop :=
  if k = .string then cells.Pairwise fun x y ↦ x = none → y = none
  else cells.reduceOption = [] ∨ (∀ x ∈ doubles cells, x.isNaN = false) ∧
    (∃ x ∈ doubles cells, Binary64.le x .largest = true) ∧
    (∃ x ∈ doubles cells, Binary64.le .lowest x = true) ∧
    if cells.head? = some none then
      (∀ x ∈ (doubles cells).head?, Binary64.eq x .zero = false) ∧
        ¬(doubles cells).Pairwise fun x y ↦ Binary64.eq x y = true
    else (doubles cells).Pairwise (fun x y ↦ Binary64.eq x y = true) →
      cells.reduceOption.Pairwise fun v w ↦ v.same w = true

section Cells

variable {k : StorageKind} {h : List Entry} {cells : List (Option Value)}

theorem reduceOption_map_cell (k : StorageKind) (h : List Entry) :
    (h.map (Entry.cell k)).reduceOption = (h.filter Entry.valid).map fun e ↦ k.decode e.raw := by
  induction h with
  | nil => rfl
  | cons e h ih =>
    rw [List.map_cons, Entry.cell]
    rcases hv : e.valid
    · rw [if_neg (by simp), List.reduceOption_cons_of_none, ih,
        List.filter_cons_of_neg (by simp [hv])]
    · rw [if_pos rfl, List.reduceOption_cons_of_some, ih, List.filter_cons_of_pos hv, List.map_cons]

theorem doubles_map_cell (k : StorageKind) (h : List Entry) :
    doubles (h.map (Entry.cell k)) = (h.filter Entry.valid).map (Entry.double k) := by
  rw [doubles, reduceOption_map_cell, List.map_map]
  rfl

theorem nullCount_scanStats (k : StorageKind) (h : List Entry) :
    (scanStats k h).stats.nullCount = (h.map (Entry.cell k)).count none := by
  induction h using List.reverseRecOn with
  | nil => rfl
  | append_singleton h e ih =>
    rw [scanStats_concat, List.map_append, List.count_append, ← ih, List.map_singleton, Entry.cell]
    rcases hv : e.valid
    · rw [StatsScan.step_of_null _ hv]
      rfl
    · rw [StatsScan.step_of_valid _ hv]
      have hsame : ((scanStats k h).addBounds k e).nullCount = (scanStats k h).stats.nullCount := by
        rw [StatsScan.addBounds]
        split_ifs <;> rfl
      simp only [ColumnStats.addRun]
      split_ifs <;> exact hsame

theorem Entry.alike_eq (k : StorageKind) (e e' : Entry) :
    e.alike k e' = (k.decode e.raw).alike k (k.decode e'.raw) := by
  rw [Entry.alike, Value.alike]
  by_cases hk : k = .string
  · subst hk
    simp [StorageKind.decode]
  · rw [if_neg hk, if_neg hk]
    rfl

/-- The runs of the values of a history with first value `e`. -/
theorem runs_reduceOption {ns rest : List Entry} {e : Entry} (hns : ∀ e ∈ ns, e.valid = false)
    (hv : e.valid = true) :
    OnePass.runs (Value.alike k) ((ns ++ e :: rest).map (Entry.cell k)).reduceOption
      = 1 + OnePass.changes (Entry.alike k) e (rest.filter Entry.valid) := by
  have hnone : ns.filter Entry.valid = [] := by
    rw [List.filter_eq_nil_iff]
    exact fun e he ↦ by simp [hns e he]
  have halike : Entry.alike k = fun e e' ↦ (k.decode e.raw).alike k (k.decode e'.raw) := by
    funext e e'
    exact Entry.alike_eq k e e'
  rw [reduceOption_map_cell, List.filter_append, hnone, List.nil_append, List.filter_cons_of_pos hv,
    List.map_cons, OnePass.runs, OnePass.changes_map (fun e : Entry ↦ k.decode e.raw), halike]

/-- A history without a value, or its first value. -/
theorem exists_first (h : List Entry) : (∀ e ∈ h, e.valid = false) ∨
    ∃ ns e rest, h = ns ++ e :: rest ∧ (∀ e ∈ ns, e.valid = false) ∧ e.valid = true := by
  induction h with
  | nil => exact .inl (by simp)
  | cons e h ih =>
    rcases hv : e.valid
    · rcases ih with hnull | ⟨ns, e', rest, rfl, hns, hv'⟩
      · exact .inl (List.forall_mem_cons.mpr ⟨hv, hnull⟩)
      · exact .inr ⟨e :: ns, e', rest, rfl, List.forall_mem_cons.mpr ⟨hv, hns⟩, hv'⟩
    · exact .inr ⟨[], e, h, rfl, by simp, hv⟩

end Cells

/-! ## Sound columns -/

attribute [ext] ColumnStats

section Sound

variable {k : StorageKind} {h : List Entry} {cells : List (Option Value)}

theorem Value.alike_trans {u v w : Value} (huv : u.alike k v = true) (hvw : v.alike k w = true) :
    u.alike k w = true := by
  rw [Value.alike] at *
  split_ifs at * with hk
  · simp only [decide_eq_true_eq] at *
    exact huv.trans hvw
  · exact Binary64.eq_trans huv hvw

theorem Value.alike_symm {v w : Value} (h : v.alike k w = true) : w.alike k v = true := by
  rw [Value.alike] at *
  split_ifs at * with hk
  · simp only [decide_eq_true_eq] at *
    exact h.symm
  · exact Binary64.eq_symm h

/-- Numbers that are equal are equal as doubles. -/
theorem Value.alike_of_same {v w : Value} (hk : k ≠ .string) (hv : v.toDouble.isNaN = false)
    (h : v.same w = true) : v.alike k w = true := by
  rw [Value.alike, if_neg hk]
  have hself := Binary64.eq_self hv
  cases v <;> cases w <;> simp only [Value.same, decide_eq_true_eq, reduceCtorEq] at h <;>
    first
      | exact h
      | exact h ▸ hself

/-- What the statistics take for constant, as far as the kind of the column goes. -/
theorem runs_alike_le_one_iff (k : StorageKind) (vs : List Value) :
    OnePass.runs (Value.alike k) vs ≤ 1 ↔ vs.Pairwise fun v w ↦ v.alike k w = true := by
  have htrans : ∀ u v w, Value.alike k u v = true → Value.alike k v w = true →
      Value.alike k u w = true := fun _ _ _ huv hvw ↦ Value.alike_trans huv hvw
  have hsymm : ∀ v w, Value.alike k v w = true → Value.alike k w v = true :=
    fun _ _ h ↦ Value.alike_symm h
  exact OnePass.runs_le_one_iff htrans hsymm vs

theorem pairwise_doubles (hk : k ≠ .string) :
    (doubles cells).Pairwise (fun x y ↦ Binary64.eq x y = true)
      ↔ cells.reduceOption.Pairwise fun v w ↦ v.alike k w = true := by
  rw [doubles, List.pairwise_map]
  simp only [Value.alike, if_neg hk]

/-- Of a sound column the expected statistics are the right ones. -/
theorem expected_describes (hs : StatsSound k cells)
    (hkind : ∀ v ∈ cells.reduceOption, v.kind = k) :
    (ColumnStats.expected k cells).Describes k cells := by
  have hbounds : k ≠ .string → ∀ x ∈ doubles cells, x.isNaN = false := by
    intro hk
    rw [StatsSound, if_neg hk] at hs
    rcases hs with hnil | ⟨hnum, -⟩
    · simp [doubles, hnil]
    · exact hnum
  refine ⟨rfl, ?_, fun hk ↦ ?_, fun hk ↦ ?_⟩
  · rw [ColumnStats.expected, decide_eq_true_eq, runs_alike_le_one_iff]
    by_cases hk : k = .string
    · -- strings: both compare the bytes
      subst hk
      refine List.Pairwise.iff_of_mem fun {v w} hv hw ↦ ?_
      have hsame : ∀ v w : Value, v.kind = .string → v.same w = decide (v = w) := by
        intro v w hv
        cases v <;> first | rfl | cases hv
      rw [Value.alike, if_pos rfl, hsame v w (hkind v hv)]
    · have hto : cells.reduceOption.Pairwise (fun v w ↦ v.same w = true) →
          cells.reduceOption.Pairwise fun v w ↦ v.alike k w = true := fun hp ↦
        hp.imp_of_mem fun {v w} hv _ h ↦
          Value.alike_of_same hk (hbounds hk _ (List.mem_map_of_mem hv)) h
      refine ⟨fun hp ↦ ?_, hto⟩
      rw [← pairwise_doubles hk] at hp
      rw [StatsSound, if_neg hk] at hs
      rcases hs with hnil | ⟨-, -, -, hhead⟩
      · rw [hnil]
        exact .nil
      · split_ifs at hhead
        · exact absurd hp hhead.2
        · exact hhead hp
  · simp only [ColumnStats.expected, if_neg hk]
    rcases hm : leastBy Binary64.key (doubles cells) with _ | m
    · exact leastBy_eq_none.mp hm
    · obtain ⟨hmem, hle⟩ := leastBy_eq_some hm
      refine ⟨hmem, fun x hx ↦ ?_⟩
      rw [Binary64.le_eq (hbounds hk m hmem) (hbounds hk x hx), decide_eq_true_eq]
      exact hle x hx
  · simp only [ColumnStats.expected, if_neg hk]
    rcases hm : leastBy (-Binary64.key ·) (doubles cells) with _ | m
    · exact leastBy_eq_none.mp hm
    · obtain ⟨hmem, hle⟩ := leastBy_eq_some hm
      refine ⟨hmem, fun x hx ↦ ?_⟩
      show Binary64.le x m = true
      rw [Binary64.le_eq (hbounds hk x hx) (hbounds hk m hmem), decide_eq_true_eq]
      exact neg_le_neg_iff.mp (hle x hx)

/-- The bounds of a history with numbers on both sides of the limits, whichever path they took. -/
theorem bounds_of_numbers (hk : k ≠ .string)
    (hnum : ∀ x ∈ doubles (h.map (Entry.cell k)), x.isNaN = false) :
    ((∃ x ∈ doubles (h.map (Entry.cell k)), Binary64.le x .largest = true) →
      (scanStats k h).stats.minValue = leastBy Binary64.key (doubles (h.map (Entry.cell k)))) ∧
    ((∃ x ∈ doubles (h.map (Entry.cell k)), Binary64.le .lowest x = true) →
      (scanStats k h).stats.maxValue
        = leastBy (-Binary64.key ·) (doubles (h.map (Entry.cell k)))) := by
  have hsnd : (flagged k h).map Prod.snd = doubles (h.map (Entry.cell k)) := by
    rw [doubles_map_cell, flagged, List.map_map]
    rfl
  have hflag : ∀ p ∈ flagged k h, p.2.isNaN = false := fun p hp ↦
    hnum p.2 (hsnd ▸ List.mem_map_of_mem hp)
  rw [(bounds_scanStats hk h).1, (bounds_scanStats hk h).2]
  constructor
  · rintro ⟨x, hx, hle⟩
    obtain ⟨p, hp, rfl⟩ := List.mem_map.mp (hsnd ▸ hx)
    obtain ⟨hp', hlimit⟩ := Binary64.isNaN_of_le hle
    rw [Binary64.le_eq hp' hlimit, decide_eq_true_eq] at hle
    rw [foldl_boundStep (fun x y ↦ Binary64.lt_eq) hlimit hflag,
      OnePass.foldl_search_eq_argmin (fun a ↦ Binary64.eq_largest) hp hle, hsnd]
    rfl
  · rintro ⟨x, hx, hle⟩
    obtain ⟨p, hp, rfl⟩ := List.mem_map.mp (hsnd ▸ hx)
    obtain ⟨hlimit, hp'⟩ := Binary64.isNaN_of_le hle
    rw [Binary64.le_eq hlimit hp', decide_eq_true_eq] at hle
    have hlt : ∀ x y : Binary64, x.isNaN = false → y.isNaN = false →
        Binary64.lt y x = decide (-x.key < -y.key) := by
      intro x y hx hy
      rw [Binary64.lt_eq hy hx]
      simp
    rw [foldl_boundStep hlt hlimit hflag, OnePass.foldl_search_eq_argmin
      (fun a ha ↦ Binary64.eq_lowest (neg_inj.mp ha)) hp (neg_le_neg hle), hsnd]
    rfl

/-- A history without a value. -/
theorem scanStats_of_nulls (hnull : ∀ e ∈ h, e.valid = false) :
    (scanStats k h).stats = ColumnStats.expected k (h.map (Entry.cell k)) := by
  have hnil : (h.map (Entry.cell k)).reduceOption = [] := by
    rw [reduceOption_map_cell, List.map_eq_nil_iff, List.filter_eq_nil_iff]
    exact fun e he ↦ by simp [hnull e he]
  have hcount := nullCount_scanStats k h
  have hstats := (scanStats_nulls (k := k) hnull).1
  rw [hstats] at hcount
  rw [hstats, ColumnStats.expected, doubles, hnil, ← hcount]
  simp [OnePass.runs, leastBy_eq_none.mpr]

theorem bounds_string (h : List Entry) : (scanStats .string h).stats.minValue = none ∧
    (scanStats .string h).stats.maxValue = none := by
  induction h using List.reverseRecOn with
  | nil => exact ⟨rfl, rfl⟩
  | append_singleton h e ih =>
    rw [scanStats_concat]
    rcases hv : e.valid
    · rw [StatsScan.step_of_null _ hv]
      exact ih
    · rw [StatsScan.step_of_valid _ hv, StatsScan.addBounds, if_pos rfl, ColumnStats.addRun]
      split_ifs <;> exact ih

/-- The first value of a sound column counts the first run on either path. A value of the row path
that stands behind nulls breaks the constancy, but then the column is not constant. -/
theorem runs_of_sound {ns rest : List Entry} {e : Entry} (hns : ∀ e ∈ ns, e.valid = false)
    (hv : e.valid = true) (hs : StatsSound k ((ns ++ e :: rest).map (Entry.cell k))) :
    (scanStats k (ns ++ e :: rest)).stats.runCount
        = 1 + OnePass.changes (Entry.alike k) e (rest.filter Entry.valid) ∧
      (scanStats k (ns ++ e :: rest)).stats.isConstant
        = decide (OnePass.changes (Entry.alike k) e (rest.filter Entry.valid) = 0) := by
  have hcell : ∀ e : Entry, e.cell k = none ↔ e.valid = false := fun e ↦ by
    rw [Entry.cell]
    split_ifs with hv <;> simp [hv]
  have hstring : k = .string →
      (ns ++ e :: rest).Pairwise fun e e' ↦ e.valid = false → e'.valid = false := by
    intro hk
    rw [StatsSound, if_pos hk, List.pairwise_map] at hs
    exact hs.imp fun {e e'} h ↦ by rwa [hcell, hcell] at h
  have hrest : k = .string → rest.Pairwise fun e e' ↦ e.valid = false → e'.valid = false :=
    fun hk ↦ (List.pairwise_cons.mp (List.pairwise_append.mp (hstring hk)).2.1).2
  by_cases hfirst : e.bulk = true ∨ ns = []
  · obtain ⟨hcount, hconst⟩ := first_of_bulk_or_nil (k := k) hns hv hfirst
    obtain ⟨hruns, hconst'⟩ := runs_of_first hv (.inl (hcount ▸ Nat.one_pos)) hrest
    rw [hruns, hconst', hcount, hconst, Bool.true_and]
    exact ⟨rfl, rfl⟩
  · obtain ⟨hrow, hne⟩ := not_or.mp hfirst
    obtain ⟨n, ns', rfl⟩ := List.exists_cons_of_ne_nil hne
    have hn : n.valid = false := hns n List.mem_cons_self
    -- no string stands behind a null
    have hk : k ≠ .string := fun hk ↦ by
      have hpair := (List.pairwise_append.mp (hstring hk)).2.2 n List.mem_cons_self e
        List.mem_cons_self hn
      rw [hv] at hpair
      cases hpair
    have hmem : k.decode e.raw ∈ ((n :: ns' ++ e :: rest).map (Entry.cell k)).reduceOption := by
      rw [reduceOption_map_cell]
      exact List.mem_map_of_mem (List.mem_filter.mpr ⟨by simp, hv⟩)
    rw [StatsSound, if_neg hk] at hs
    have hhead : ((n :: ns' ++ e :: rest).map (Entry.cell k)).head? = some none := by
      simp [(hcell n).mpr hn]
    obtain ⟨-, -, -, hsound⟩ := hs.resolve_left (List.ne_nil_of_mem hmem)
    rw [if_pos hhead] at hsound
    have hzero : Binary64.eq (e.double k) .zero = false := by
      refine hsound.1 _ ?_
      have hnone : (n :: ns').filter Entry.valid = [] := by
        rw [List.filter_eq_nil_iff]
        exact fun e he ↦ by simp [hns e he]
      rw [doubles_map_cell, List.filter_append, hnone, List.nil_append, List.filter_cons_of_pos hv]
      rfl
    have hchanges : OnePass.changes (Entry.alike k) e (rest.filter Entry.valid) ≠ 0 := by
      intro hz
      refine hsound.2 ((pairwise_doubles hk).mpr ((runs_alike_le_one_iff k _).mp ?_))
      rw [runs_reduceOption hns hv, hz]
    obtain ⟨hcount, hconst⟩ := first_of_row hk hns hne hv (by simpa using hrow)
    rw [hzero, if_neg (by simp)] at hcount
    rw [hzero] at hconst
    obtain ⟨hruns, hconst'⟩ := runs_of_first hv (.inl (hcount ▸ Nat.one_pos)) hrest
    rw [hruns, hconst', hcount, hconst, Bool.false_and, decide_eq_false hchanges]
    exact ⟨rfl, rfl⟩

/-- The statistics of a sound column are the expected ones, whichever way its rows took. -/
theorem scanStats_of_sound (hs : StatsSound k (h.map (Entry.cell k))) :
    (scanStats k h).stats = ColumnStats.expected k (h.map (Entry.cell k)) := by
  rcases exists_first h with hnull | ⟨ns, e, rest, rfl, hns, hv⟩
  · exact scanStats_of_nulls hnull
  obtain ⟨hcount, hconst⟩ := runs_of_sound hns hv hs
  have hruns := @runs_reduceOption k ns rest _ hns hv
  have hbounds : (scanStats k (ns ++ e :: rest)).stats.minValue
        = (ColumnStats.expected k ((ns ++ e :: rest).map (Entry.cell k))).minValue ∧
      (scanStats k (ns ++ e :: rest)).stats.maxValue
        = (ColumnStats.expected k ((ns ++ e :: rest).map (Entry.cell k))).maxValue := by
    by_cases hk : k = .string
    · subst hk
      exact bounds_string _
    · simp only [ColumnStats.expected, if_neg hk]
      rw [StatsSound, if_neg hk] at hs
      rcases hs with hnil | ⟨hnum, hle, hge, -⟩
      · rw [hnil] at hruns
        simp only [OnePass.runs] at hruns
        omega
      · exact ⟨(bounds_of_numbers hk hnum).1 hle, (bounds_of_numbers hk hnum).2 hge⟩
  refine ColumnStats.ext (nullCount_scanStats k _) ?_ ?_ hbounds.1 hbounds.2
  · rw [hcount, ← hruns]
    rfl
  · rw [hconst]
    simp only [ColumnStats.expected, hruns]
    exact decide_eq_decide.mpr (by omega)

end Sound

end PlotJuggler
