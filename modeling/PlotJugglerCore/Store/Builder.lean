import PlotJugglerCore.Store.History

/-!
# Runs of the builder

`TopicChunkBuilder.Tracks b cols hist` says that column `i` of builder `b` tracks the history
`hist i`.

An `Append` is a unit of the interface: a row from `beginRow` to `finishRow`, or a batch from
`appendTimestamps` to `finishBulkAppend`. Inside a unit the calls on different columns commute, so a
unit is described column by column, through the calls that name the column: each column makes one
`ColumnBuilder.Step`. A row pads the columns that no call has named.
-/

namespace PlotJuggler

namespace TopicChunkBuilder

/-! ## One column at a time -/

theorem updateColumn_eq_some {b b' : TopicChunkBuilder} {i : ℕ}
    {f : ColumnBuilder → Option ColumnBuilder} (h : b.updateColumn i f = some b') :
    ∃ c c', b.columns[i]? = some c ∧ f c = some c' ∧
      b' = { b with columns := b.columns.set i c' } := by
  obtain ⟨c, hc, hf⟩ := Option.bind_eq_some_iff.mp h
  obtain ⟨c', hc', hb⟩ := Option.map_eq_some_iff.mp hf
  exact ⟨c, c', hc, hc', hb.symm⟩

theorem beginRow_eq_some {b b' : TopicChunkBuilder} {t : Timestamp} (h : b.beginRow t = some b') :
    b.rowInProgress = false ∧ b.lastTimestamp ≤ t ∧
      b' = { b with rowInProgress := true, currentTimestamp := t, lastTimestamp := t } := by
  rw [beginRow] at h
  split_ifs at h with hcond
  exact ⟨by simpa using hcond.1, hcond.2, (Option.some.inj h).symm⟩

theorem finishRow_eq_some {b b' : TopicChunkBuilder} (h : b.finishRow = some b') :
    b.rowInProgress = true ∧ b' = { b with
      columns := b.columns.map (padColumn (b.rowCount + 1))
      timestamps := b.timestamps ++ [b.currentTimestamp]
      tMin := min b.tMin b.currentTimestamp
      tMax := max b.tMax b.currentTimestamp
      rowCount := b.rowCount + 1
      rowInProgress := false } := by
  rw [finishRow] at h
  split_ifs at h with hrow
  exact ⟨hrow, (Option.some.inj h).symm⟩

/-- A run of updates changes the columns only, and column `i` goes through those updates that are
about it. -/
theorem foldlM_updateColumn {κ : Type*} {col : κ → ℕ} {f : κ → ColumnBuilder → Option ColumnBuilder}
    {calls : List κ} {b b' : TopicChunkBuilder}
    (h : calls.foldlM (fun b k ↦ b.updateColumn (col k) (f k)) b = some b') :
    b' = { b with columns := b'.columns } ∧ b'.columns.length = b.columns.length ∧
      ∀ i c, b.columns[i]? = some c → ∃ c', b'.columns[i]? = some c' ∧
        (calls.filter fun k ↦ col k = i).foldlM (fun c k ↦ f k c) c = some c' := by
  induction calls generalizing b with
  | nil =>
    obtain rfl := Option.some.inj h
    exact ⟨rfl, rfl, fun i c hc ↦ ⟨c, hc, rfl⟩⟩
  | cons k calls ih =>
    obtain ⟨b₁, hstep, hrest⟩ := Option.bind_eq_some_iff.mp h
    obtain ⟨c₀, c₁, hc₀, hf, rfl⟩ := updateColumn_eq_some hstep
    obtain ⟨hframe, hlen, hcols⟩ := ih hrest
    refine ⟨hframe, hlen.trans List.length_set, fun i c hc ↦ ?_⟩
    by_cases hi : col k = i
    · subst hi
      obtain rfl : c₀ = c := Option.some.inj (hc₀.symm.trans hc)
      have hlt : col k < b.columns.length := (List.getElem?_eq_some_iff.mp hc).1
      obtain ⟨c', hc', hfold⟩ := hcols (col k) c₁ (List.getElem?_set_self hlt)
      refine ⟨c', hc', ?_⟩
      rw [List.filter_cons_of_pos (by simp), List.foldlM_cons, hf]
      exact hfold
    · obtain ⟨c', hc', hfold⟩ := hcols i c ((List.getElem?_set_ne hi).trans hc)
      refine ⟨c', hc', ?_⟩
      rwa [List.filter_cons_of_neg (by simpa using hi)]

/-! ## Tracking -/

/-- Every column tracks its history. -/
structure Tracks (b : TopicChunkBuilder) (cols : List ColumnDescriptor) (hist : ℕ → List Entry) :
    Prop where
  length : b.columns.length = cols.length
  column : ∀ i d c, cols[i]? = some d → b.columns[i]? = some c →
    ColumnBuilder.Tracks d (hist i) c

variable {b b' : TopicChunkBuilder} {cols : List ColumnDescriptor} {hist : ℕ → List Entry}

theorem tracks_new (topicId schemaId : ℕ) (cols : List ColumnDescriptor) (maxRows : ℕ) :
    (new topicId schemaId cols maxRows).Tracks cols fun _ ↦ [] where
  length := List.length_map _
  column i d c hd hc := by
    have hc' : some (ColumnBuilder.new d) = some c := by
      rw [← hc, new, List.getElem?_map, hd, Option.map_some]
    obtain rfl := Option.some.inj hc'
    exact ColumnBuilder.tracks_new d

theorem Tracks.exists_column (t : b.Tracks cols hist) {i : ℕ} {d : ColumnDescriptor}
    (hd : cols[i]? = some d) : ∃ c, b.columns[i]? = some c ∧ ColumnBuilder.Tracks d (hist i) c := by
  have hi : i < b.columns.length := t.length ▸ (List.getElem?_eq_some_iff.mp hd).1
  have hc := List.getElem?_eq_getElem hi
  exact ⟨_, hc, t.column i d _ hd hc⟩

theorem Tracks.exists_descriptor (t : b.Tracks cols hist) {i : ℕ} {c : ColumnBuilder}
    (hc : b.columns[i]? = some c) : ∃ d, cols[i]? = some d ∧ ColumnBuilder.Tracks d (hist i) c := by
  have hi : i < cols.length := t.length ▸ (List.getElem?_eq_some_iff.mp hc).1
  have hd := List.getElem?_eq_getElem hi
  exact ⟨_, hd, t.column i _ c hd hc⟩

/-! ## Batches -/

/-- A call between `appendTimestamps` and `finishBulkAppend`. -/
inductive BulkCall
  | column (i : ℕ) (d : ColumnSpan)
  | validity (i : ℕ) (v : BitSpan)
  deriving DecidableEq, Repr

namespace BulkCall

def col : BulkCall → ℕ
  | column i _ => i
  | validity i _ => i

/-- What the call does to its column. -/
def apply : BulkCall → ColumnBuilder → Option ColumnBuilder
  | column _ d, c => (c.buffer.appendBulk d).map fun buf ↦ { c with buffer := buf }
  | validity _ v, c => some { c with buffer := c.buffer.appendValidityBulk v }

end BulkCall

def runBulkCall (b : TopicChunkBuilder) : BulkCall → Option TopicChunkBuilder
  | .column i d => b.appendColumn i d
  | .validity i v => b.appendColumnValidity i v

theorem runBulkCall_eq : runBulkCall = fun b k ↦ b.updateColumn k.col k.apply := by
  funext b k
  cases k <;> rfl

/-- A whole batch. -/
def runBatch (b : TopicChunkBuilder) (ts : List Timestamp) (calls : List BulkCall) :
    Option TopicChunkBuilder :=
  ((b.appendTimestamps ts).bind fun b ↦ calls.foldlM runBulkCall b).bind finishBulkAppend

/-- The calls of a batch of `n` rows that name column `i`: its data, all `n` rows of it, and behind
the data at most one bitmap of the same length. -/
def Supplies (calls : List BulkCall) (n i : ℕ) (d : ColumnSpan) (v : Option BitSpan) : Prop :=
  (calls.filter fun k ↦ k.col = i) = .column i d :: v.toList.map (.validity i) ∧
    d.WellFormed ∧ d.rowCount = n ∧ ∀ s ∈ v, s.bitLength = n

/-- The rows a batch adds to column `i`. -/
def batchHistory (calls : List BulkCall) (i : ℕ) : List Entry :=
  match calls.filter fun k ↦ k.col = i with
  | [.column _ d] => batchEntries d none
  | [.column _ d, .validity _ v] => batchEntries d (some v)
  | _ => []

/-- The cells a batch gives to column `i`. -/
def suppliedCells (calls : List BulkCall) (i : ℕ) : List (Option Value) :=
  match calls.filter fun k ↦ k.col = i with
  | [.column _ d] => batchCells d none
  | [.column _ d, .validity _ v] => batchCells d (some v)
  | _ => []

theorem Supplies.suppliedCells {calls : List BulkCall} {n i : ℕ} {d : ColumnSpan}
    {v : Option BitSpan} (h : Supplies calls n i d v) :
    TopicChunkBuilder.suppliedCells calls i = batchCells d v := by
  rw [TopicChunkBuilder.suppliedCells, h.1]
  cases v <;> rfl

theorem Supplies.batchHistory {calls : List BulkCall} {n i : ℕ} {d : ColumnSpan}
    {v : Option BitSpan} (h : Supplies calls n i d v) :
    TopicChunkBuilder.batchHistory calls i = batchEntries d v := by
  rw [TopicChunkBuilder.batchHistory, h.1]
  cases v <;> rfl

theorem Supplies.length_batchHistory {calls : List BulkCall} {n i : ℕ} {d : ColumnSpan}
    {v : Option BitSpan} (h : Supplies calls n i d v) :
    (TopicChunkBuilder.batchHistory calls i).length = n := by
  rw [h.batchHistory, ColumnBuilder.length_batchEntries (fun s hs ↦ by rw [h.2.2.1, h.2.2.2 s hs]),
    h.2.2.1]

theorem mapM_eq_some {α β : Type*} {f : α → Option β} {l : List α} {l' : List β}
    (h : l.mapM f = some l') :
    l'.length = l.length ∧ ∀ (i : ℕ) a, l[i]? = some a → ∃ b, l'[i]? = some b ∧ f a = some b := by
  induction l generalizing l' with
  | nil =>
    obtain rfl := Option.some.inj h
    exact ⟨rfl, fun i a ha ↦ by simp at ha⟩
  | cons x l ih =>
    rw [List.mapM_cons] at h
    obtain ⟨y, hy, hrest⟩ := Option.bind_eq_some_iff.mp h
    obtain ⟨ys, hys, hl'⟩ := Option.bind_eq_some_iff.mp hrest
    obtain rfl := Option.some.inj hl'
    obtain ⟨hlen, hget⟩ := ih hys
    refine ⟨by simp [hlen], fun i a ha ↦ ?_⟩
    cases i with
    | zero =>
      obtain rfl := Option.some.inj ha
      exact ⟨y, rfl, hy⟩
    | succ i => exact hget i a ha

/-- The column updates of a supplied column, chained. -/
theorem foldlM_apply_of_supplies {calls : List BulkCall} {n i : ℕ} {d : ColumnSpan}
    {v : Option BitSpan} (h : Supplies calls n i d v) {c c' : ColumnBuilder}
    (hfold : (calls.filter fun k ↦ k.col = i).foldlM (fun c k ↦ k.apply c) c = some c') :
    ∃ buf, c.buffer.appendBulk d = some buf ∧
      c' = { c with buffer := v.elim buf buf.appendValidityBulk } := by
  rw [h.1, List.foldlM_cons] at hfold
  obtain ⟨c₁, hc₁, hrest⟩ := Option.bind_eq_some_iff.mp hfold
  obtain ⟨buf, hbuf, rfl⟩ := Option.map_eq_some_iff.mp hc₁
  refine ⟨buf, hbuf, ?_⟩
  cases v with
  | none => exact (Option.some.inj hrest).symm
  | some s => exact (Option.some.inj hrest).symm

/-- The timestamps and bounds of a builder after a batch. -/
structure AfterBatch (b b' : TopicChunkBuilder) (ts : List Timestamp) : Prop where
  notInProgress : b.rowInProgress = false
  order : ∀ t ∈ ts.head?, b.lastTimestamp ≤ t
  frame : b' = { b with
    columns := b'.columns
    timestamps := b.timestamps ++ ts
    tMin := ts.head?.elim b.tMin (min b.tMin)
    tMax := ts.getLast?.elim b.tMax (max b.tMax)
    lastTimestamp := ts.getLastD b.lastTimestamp
    rowCount := b.rowCount + ts.length }

/-- What a batch does, whichever columns it supplies: the frame, and each column through its own
calls and then, if there are rows, through its statistics. -/
theorem runBatch_eq_some {ts : List Timestamp} {calls : List BulkCall}
    (hpending : b.bulkPendingRows = 0) (h : b.runBatch ts calls = some b') :
    AfterBatch b b' ts ∧ b'.columns.length = b.columns.length ∧
      ∀ i c, b.columns[i]? = some c → ∃ c₁ c', b'.columns[i]? = some c' ∧
        (calls.filter fun k ↦ k.col = i).foldlM (fun c k ↦ k.apply c) c = some c₁ ∧
        if ts = [] then c' = c₁ else c₁.finishBulk ts.length = some c' := by
  obtain ⟨b₁, hmid, hfin⟩ := Option.bind_eq_some_iff.mp h
  obtain ⟨b₀, hstamps, hcalls⟩ := Option.bind_eq_some_iff.mp hmid
  rw [runBulkCall_eq] at hcalls
  obtain ⟨hframe, hlen, hcols⟩ := foldlM_updateColumn hcalls
  have hidle : b.rowInProgress = false := by
    by_contra hne
    rw [appendTimestamps.eq_def, if_pos (by simpa using hne)] at hstamps
    exact absurd hstamps (by simp)
  rw [appendTimestamps.eq_def, if_neg (by simp [hidle])] at hstamps
  cases ts with
  | nil =>
    obtain rfl := Option.some.inj hstamps
    rw [hframe, finishBulkAppend, if_neg (by simpa using hidle), if_pos hpending] at hfin
    obtain rfl := Option.some.inj hfin
    refine ⟨⟨hidle, by simp, ?_⟩, hlen, fun i c hc ↦ ?_⟩
    · simp
    · obtain ⟨c', hc', hfold⟩ := hcols i c hc
      exact ⟨c', c', hc', hfold, rfl⟩
  | cons first rest =>
    simp only at hstamps
    split_ifs at hstamps with horder
    obtain rfl := Option.some.inj hstamps
    rw [hframe, finishBulkAppend, if_neg (by simpa using hidle), if_neg (by simp)] at hfin
    obtain ⟨columns, hmap, rfl⟩ := Option.map_eq_some_iff.mp hfin
    obtain ⟨hlen', hget⟩ := mapM_eq_some hmap
    refine ⟨⟨hidle, by simpa using horder, ?_⟩, hlen'.trans hlen, fun i c hc ↦ ?_⟩
    · simp [hpending, List.getLast?_cons, List.getLastD_eq_getLast?]
    · obtain ⟨c₁, hc₁, hfold⟩ := hcols i c hc
      obtain ⟨c', hc', hbulk⟩ := hget i c₁ hc₁
      exact ⟨c₁, c', hc', hfold, by simpa using hbulk⟩

/-- Empty data leaves a buffer alone. -/
theorem appendBulk_of_rowCount_eq_zero {buf buf' : TypedColumnBuffer} {d : ColumnSpan}
    (hd : d.rowCount = 0) (h : buf.appendBulk d = some buf') : buf' = buf := by
  cases d with
  | strings offsets values =>
    rw [TypedColumnBuffer.appendBulk] at h
    split_ifs at h
    cases offsets with
    | nil => exact (Option.some.inj h).symm
    | cons first rest =>
      have hrest : rest = [] := List.length_eq_zero_iff.mp (by simpa [ColumnSpan.rowCount] using hd)
      rw [TypedColumnBuffer.appendStringsBulk, if_pos hrest] at h
      exact (Option.some.inj h).symm
  | _ =>
    simp only [TypedColumnBuffer.appendBulk] at h
    split_ifs at h
    obtain rfl := Option.some.inj h
    rw [TypedColumnBuffer.appendFixedBulk, if_pos]
    exact List.length_eq_zero_iff.mp (by rw [ColumnSpan.length_raws]; exact hd)

/-- A supplied column, through its calls and the statistics. -/
theorem step_batchColumn {ts : List Timestamp} {calls : List BulkCall} {i : ℕ} {d : ColumnSpan}
    {v : Option BitSpan} (hs : Supplies calls ts.length i d v) {c c₁ c' : ColumnBuilder}
    (hfold : (calls.filter fun k ↦ k.col = i).foldlM (fun c k ↦ k.apply c) c = some c₁)
    (hfin : if ts = [] then c' = c₁ else c₁.finishBulk ts.length = some c') :
    c.Step (batchHistory calls i) c' := by
  obtain ⟨buf, hbuf, rfl⟩ := foldlM_apply_of_supplies hs hfold
  rw [hs.batchHistory]
  have hbits : ∀ s ∈ v, s.bitLength = d.rowCount := fun s hs' ↦ by rw [hs.2.2.1, hs.2.2.2 s hs']
  split_ifs at hfin with hts
  · -- no rows: neither the data nor the bitmap changes anything
    subst hts
    have hd : d.rowCount = 0 := hs.2.2.1
    have hbuf' := appendBulk_of_rowCount_eq_zero hd hbuf
    have hnil : batchEntries d v = [] := by
      rw [← List.length_eq_zero_iff, ColumnBuilder.length_batchEntries hbits, hd]
    have hsame : v.elim buf buf.appendValidityBulk = c.buffer := by
      rcases v with _ | s
      · exact hbuf'
      · rw [Option.elim_some, TypedColumnBuffer.appendValidityBulk,
          if_pos (show s.bitLength = 0 from hs.2.2.2 s rfl), hbuf']
    rw [hnil, hfin, hsame]
    exact .rest
  · exact .batch hs.2.1 hbits hbuf (hs.2.2.1 ▸ hfin)

/-- A batch gives each column it supplies the cells it was given. -/
theorem cells_batchHistory {ts : List Timestamp} {calls : List BulkCall} {i : ℕ} {d : ColumnSpan}
    {v : Option BitSpan} (hs : Supplies calls ts.length i d v) {c c' : ColumnBuilder}
    (hfold : (calls.filter fun k ↦ k.col = i).foldlM (fun c k ↦ k.apply c) c = some c') :
    (batchHistory calls i).map (Entry.cell c.kind) = suppliedCells calls i := by
  obtain ⟨buf, hbuf, -⟩ := foldlM_apply_of_supplies hs hfold
  have hkind : d.kind = c.kind := TypedColumnBuffer.kind_of_appendBulk hbuf
  rw [hs.batchHistory, hs.suppliedCells, ← hkind, map_cell_batchEntries]

/-! ## Rows -/

/-- A call between `beginRow` and `finishRow`. -/
inductive CellCall
  | set (i : ℕ) (v : Value)
  | setNull (i : ℕ)
  deriving DecidableEq, Repr

namespace CellCall

def col : CellCall → ℕ
  | set i _ => i
  | setNull i => i

def cell : CellCall → Option Value
  | set _ v => some v
  | setNull _ => none

/-- What the call does to its column. -/
def apply : CellCall → ColumnBuilder → Option ColumnBuilder
  | set _ v, c => c.set v
  | setNull _, c => some c.setNull

end CellCall

def runCellCall (b : TopicChunkBuilder) : CellCall → Option TopicChunkBuilder
  | .set i v => b.set i v
  | .setNull i => b.setNull i

/-- A whole row. -/
def runRow (b : TopicChunkBuilder) (t : Timestamp) (calls : List CellCall) :
    Option TopicChunkBuilder :=
  ((b.beginRow t).bind fun b ↦ calls.foldlM runCellCall b).bind finishRow

/-- The cell a row gives to column `i`: null unless a call sets it. -/
def rowCell (calls : List CellCall) (i : ℕ) : Option Value :=
  (calls.find? fun k ↦ k.col = i).bind CellCall.cell

/-- The row a row adds to column `i`. -/
def rowHistory (cols : List ColumnDescriptor) (calls : List CellCall) (i : ℕ) : List Entry :=
  match cols[i]? with
  | some d => [.ofRow d.kind (rowCell calls i)]
  | none => []

theorem runCellCall_eq {k : CellCall} (hb : b.rowInProgress = true) :
    b.runCellCall k = b.updateColumn k.col k.apply := by
  cases k <;> simp only [runCellCall, set, setNull, hb, if_true] <;> rfl

theorem runCellCall_eq_some {k : CellCall} (h : b.runCellCall k = some b') :
    b.rowInProgress = true ∧ ∃ c c', b.columns[k.col]? = some c ∧ k.apply c = some c' ∧
      b' = { b with columns := b.columns.set k.col c' } := by
  have hrow : b.rowInProgress = true := by
    by_contra hne
    cases k <;> simp [runCellCall, set, setNull, hne] at h
  rw [runCellCall_eq hrow] at h
  exact ⟨hrow, updateColumn_eq_some h⟩

/-- Inside a row the calls are updates of their columns. -/
theorem foldlM_runCellCall {calls : List CellCall} (hb : b.rowInProgress = true) :
    calls.foldlM runCellCall b = calls.foldlM (fun b k ↦ b.updateColumn k.col k.apply) b := by
  induction calls generalizing b with
  | nil => rfl
  | cons k calls ih =>
    rw [List.foldlM_cons, List.foldlM_cons, runCellCall_eq hb]
    rcases h : b.updateColumn k.col k.apply with _ | b₁
    · rfl
    · obtain ⟨c, c', -, -, rfl⟩ := updateColumn_eq_some h
      exact ih hb

/-- With different keys, at most one entry has key `i`, and a search finds it. -/
theorem filter_key_eq {κ : Type*} {key : κ → ℕ} {l : List κ} (hnodup : (l.map key).Nodup) {i : ℕ}
    {k : κ} (hfind : l.find? (fun k ↦ key k = i) = some k) :
    (l.filter fun k ↦ key k = i) = [k] := by
  have hkey : key k = i := by simpa using List.find?_some hfind
  have hmem : k ∈ l.filter fun k ↦ key k = i :=
    List.mem_filter.mpr ⟨List.mem_of_find?_eq_some hfind, by simpa using hkey⟩
  have hsub : ((l.filter fun k ↦ key k = i).map key).Nodup :=
    hnodup.sublist (List.filter_sublist.map _)
  have hall : ∀ x ∈ l.filter (fun k ↦ key k = i), key x = i := fun x hx ↦ by
    simpa using (List.mem_filter.mp hx).2
  rcases hl : l.filter (fun k ↦ key k = i) with _ | ⟨x, _ | ⟨y, ys⟩⟩ <;> rw [hl] at hmem hsub hall
  · exact absurd hmem List.not_mem_nil
  · rw [List.mem_singleton.mp hmem]
  · have hx := hall x (by simp)
    have hy := hall y (by simp)
    simp [hx, hy] at hsub

/-- A column of a row, through its call if it has one and then through the padding. -/
theorem step_rowColumn {calls : List CellCall} (hnodup : (calls.map CellCall.col).Nodup) {i : ℕ}
    {c c₁ : ColumnBuilder}
    (hfold : (calls.filter fun k ↦ k.col = i).foldlM (fun c k ↦ k.apply c) c = some c₁) :
    c.Step [.ofRow c.kind (rowCell calls i)] (padColumn (c.buffer.rowCount + 1) c₁) ∧
      (Entry.ofRow c.kind (rowCell calls i)).cell c.kind = rowCell calls i := by
  have hpad : ∀ {c₁ : ColumnBuilder}, c₁.buffer.rowCount = c.buffer.rowCount + 1 →
      padColumn (c.buffer.rowCount + 1) c₁ = c₁ := by
    intro c₁ hrows
    rw [padColumn, hrows, if_neg (lt_irrefl _)]
  rcases hfind : calls.find? (fun k ↦ k.col = i) with _ | k
  · -- no call names the column: it is padded
    have hnone : (calls.filter fun k ↦ k.col = i) = [] := by
      rw [List.filter_eq_nil_iff]
      exact fun k hk ↦ List.find?_eq_none.mp hfind k hk
    rw [hnone] at hfold
    obtain rfl := Option.some.inj hfold
    rw [padColumn, if_pos (Nat.lt_succ_self _), rowCell, hfind]
    exact ⟨.null, rfl⟩
  · have hcell : rowCell calls i = k.cell := by rw [rowCell, hfind]; rfl
    rw [filter_key_eq hnodup hfind, List.foldlM_cons] at hfold
    obtain ⟨c₂, hc₂, hrest⟩ := Option.bind_eq_some_iff.mp hfold
    obtain rfl := Option.some.inj hrest
    rw [hcell]
    rcases k with ⟨j, v⟩ | j
    · obtain ⟨hvk, hrows⟩ := ColumnBuilder.rowCount_set hc₂
      rw [hpad hrows]
      refine ⟨.set hc₂, ?_⟩
      rw [← hvk]
      exact congrArg some v.decode_bytes
    · obtain rfl := Option.some.inj hc₂
      rw [hpad (ColumnBuilder.rowCount_setNull c)]
      exact ⟨.null, rfl⟩

/-- What a row does: the frame, and each column through its own calls and the padding. -/
theorem runRow_eq_some {stamp : Timestamp} {calls : List CellCall}
    (h : b.runRow stamp calls = some b') :
    (b.rowInProgress = false ∧ b.lastTimestamp ≤ stamp ∧
      b' = { b with
        columns := b'.columns
        timestamps := b.timestamps ++ [stamp]
        tMin := min b.tMin stamp
        tMax := max b.tMax stamp
        rowCount := b.rowCount + 1
        currentTimestamp := stamp
        lastTimestamp := stamp }) ∧ b'.columns.length = b.columns.length ∧
      ∀ i c, b.columns[i]? = some c → ∃ c₁,
        (calls.filter fun k ↦ k.col = i).foldlM (fun c k ↦ k.apply c) c = some c₁ ∧
        b'.columns[i]? = some (padColumn (b.rowCount + 1) c₁) := by
  obtain ⟨b₂, hmid, hfin⟩ := Option.bind_eq_some_iff.mp h
  obtain ⟨b₁, hbegin, hcalls⟩ := Option.bind_eq_some_iff.mp hmid
  obtain ⟨hidle, horder, rfl⟩ := beginRow_eq_some hbegin
  rw [foldlM_runCellCall rfl] at hcalls
  obtain ⟨hframe, hcount, hcols⟩ := foldlM_updateColumn hcalls
  rw [hframe] at hfin
  obtain ⟨-, rfl⟩ := finishRow_eq_some hfin
  refine ⟨⟨hidle, horder, ?_⟩, ?_, fun i c hc ↦ ?_⟩
  · simp [hidle]
  · simpa using hcount
  · obtain ⟨c₁, hc₁, hfold⟩ := hcols i c hc
    exact ⟨c₁, hfold, by rw [List.getElem?_map, hc₁, Option.map_some]⟩

/-! ## Runs -/

/-- A unit of the builder's interface. -/
inductive Append
  | row (t : Timestamp) (calls : List CellCall)
  | batch (ts : List Timestamp) (calls : List BulkCall)
  deriving DecidableEq, Repr

namespace Append

def run (b : TopicChunkBuilder) : Append → Option TopicChunkBuilder
  | row t calls => b.runRow t calls
  | batch ts calls => b.runBatch ts calls

/-- A row sets each column at most once; a batch supplies each of the `n` columns. -/
def WellFormed (n : ℕ) : Append → Prop
  | row _ calls => (calls.map CellCall.col).Nodup
  | batch ts calls => ∀ i, i < n → ∃ d v, Supplies calls ts.length i d v

def stamps : Append → List Timestamp
  | row t _ => [t]
  | batch ts _ => ts

def history (cols : List ColumnDescriptor) (a : Append) (i : ℕ) : List Entry :=
  match a with
  | row _ calls => rowHistory cols calls i
  | batch _ calls => batchHistory calls i

/-- The cells of column `i`, as the caller gave them. -/
def cells (a : Append) (i : ℕ) : List (Option Value) :=
  match a with
  | row _ calls => [rowCell calls i]
  | batch _ calls => suppliedCells calls i

end Append

/-- The cells a run gives to column `i`. -/
def runCells (run : List Append) (i : ℕ) : List (Option Value) := run.flatMap (·.cells i)

/-- The rows a run adds to column `i`. -/
def runHistory (cols : List ColumnDescriptor) (run : List Append) (i : ℕ) : List Entry :=
  run.flatMap (·.history cols i)

/-- Between two units: nothing pending, and all columns and the timestamps equally long. -/
structure Aligned (b : TopicChunkBuilder) (cols : List ColumnDescriptor) (hist : ℕ → List Entry)
    (stamps : List Timestamp) : Prop where
  tracks : b.Tracks cols hist
  idle : b.rowInProgress = false
  pending : b.bulkPendingRows = 0
  rowCount : b.rowCount = stamps.length
  timestamps : b.timestamps = stamps
  length : ∀ i, i < cols.length → (hist i).length = stamps.length

theorem aligned_new (topicId schemaId : ℕ) (cols : List ColumnDescriptor) (maxRows : ℕ) :
    (new topicId schemaId cols maxRows).Aligned cols (fun _ ↦ []) [] :=
  ⟨tracks_new topicId schemaId cols maxRows, rfl, rfl, rfl, rfl, fun _ _ ↦ rfl⟩

variable {stamps : List Timestamp}

/-- What a unit of the interface does to a column: a step, with the cells the caller gave. -/
theorem Aligned.exists_step (al : b.Aligned cols hist stamps) {a : Append}
    (hwf : a.WellFormed cols.length) (h : a.run b = some b') {i : ℕ} {d : ColumnDescriptor}
    {c : ColumnBuilder} (hd : cols[i]? = some d) (hc : b.columns[i]? = some c) :
    ∃ c', b'.columns[i]? = some c' ∧ c.Step (a.history cols i) c' ∧
      (a.history cols i).map (Entry.cell d.kind) = a.cells i := by
  have tc := al.tracks.column i d c hd hc
  have hi : i < cols.length := (List.getElem?_eq_some_iff.mp hd).1
  rcases a with ⟨t, calls⟩ | ⟨ts, calls⟩
  · obtain ⟨-, -, hcols⟩ := runRow_eq_some h
    obtain ⟨c₁, hfold, hc'⟩ := hcols i c hc
    obtain ⟨hstep, hcell⟩ := step_rowColumn hwf hfold
    rw [tc.rowCount, al.length i hi, ← al.rowCount] at hstep
    rw [tc.kind] at hstep hcell
    refine ⟨_, hc', ?_, ?_⟩ <;> rw [Append.history, rowHistory, hd]
    · exact hstep
    · exact congrArg (fun x ↦ [x]) hcell
  · obtain ⟨-, -, hcols⟩ := runBatch_eq_some al.pending h
    obtain ⟨c₁, c', hc', hfold, hfin⟩ := hcols i c hc
    obtain ⟨data, v, hs⟩ := hwf i hi
    exact ⟨c', hc', step_batchColumn hs hfold hfin, tc.kind ▸ cells_batchHistory hs hfold⟩

theorem Aligned.append (al : b.Aligned cols hist stamps) {a : Append}
    (hwf : a.WellFormed cols.length) (h : a.run b = some b') :
    b'.Aligned cols (fun i ↦ hist i ++ a.history cols i) (stamps ++ a.stamps) ∧
      ∀ i d, cols[i]? = some d → (a.history cols i).map (Entry.cell d.kind) = a.cells i := by
  have hcells : ∀ i d, cols[i]? = some d →
      (a.history cols i).map (Entry.cell d.kind) = a.cells i := by
    intro i d hd
    obtain ⟨c, hc, -⟩ := al.tracks.exists_column hd
    obtain ⟨-, -, -, hcell⟩ := al.exists_step hwf h hd hc
    exact hcell
  have hlength : b'.columns.length = b.columns.length := by
    rcases a with ⟨t, calls⟩ | ⟨ts, calls⟩
    · exact (runRow_eq_some h).2.1
    · exact (runBatch_eq_some al.pending h).2.1
  have htracks : b'.Tracks cols fun i ↦ hist i ++ a.history cols i := by
    refine ⟨hlength.trans al.tracks.length, fun i d c' hd hc' ↦ ?_⟩
    obtain ⟨c, hc, tc⟩ := al.tracks.exists_column hd
    obtain ⟨c'', hc'', hstep, -⟩ := al.exists_step hwf h hd hc
    obtain rfl := Option.some.inj (hc''.symm.trans hc')
    exact tc.step hstep
  refine ⟨?_, hcells⟩
  rcases a with ⟨t, calls⟩ | ⟨ts, calls⟩
  · obtain ⟨⟨-, -, hframe⟩, -, -⟩ := runRow_eq_some h
    refine ⟨htracks, ?_, ?_, ?_, ?_, fun i hi ↦ ?_⟩
    · rw [hframe]; exact al.idle
    · rw [hframe]; exact al.pending
    · rw [hframe]; simp [al.rowCount, Append.stamps]
    · rw [hframe]; simp [al.timestamps, Append.stamps]
    · simp [Append.history, rowHistory, Append.stamps, List.getElem?_eq_getElem hi, al.length i hi]
  · obtain ⟨hafter, -, -⟩ := runBatch_eq_some al.pending h
    refine ⟨htracks, ?_, ?_, ?_, ?_, fun i hi ↦ ?_⟩
    · rw [hafter.frame]; exact al.idle
    · rw [hafter.frame]; exact al.pending
    · rw [hafter.frame]; simp [al.rowCount, Append.stamps]
    · rw [hafter.frame]; simp [al.timestamps, Append.stamps]
    · obtain ⟨d, v, hs⟩ := hwf i hi
      simp [Append.history, Append.stamps, hs.length_batchHistory, al.length i hi]

/-- Every run of the interface keeps the columns aligned and tracked. -/
theorem Aligned.run (al : b.Aligned cols hist stamps) {run : List Append}
    (hwf : ∀ a ∈ run, a.WellFormed cols.length) (h : run.foldlM Append.run b = some b') :
    b'.Aligned cols (fun i ↦ hist i ++ runHistory cols run i)
      (stamps ++ run.flatMap Append.stamps) ∧
      ∀ i d, cols[i]? = some d → (runHistory cols run i).map (Entry.cell d.kind) = runCells run i := by
  induction run generalizing b hist stamps with
  | nil =>
    obtain rfl := Option.some.inj h
    exact ⟨by simpa [runHistory] using al, fun i d _ ↦ rfl⟩
  | cons a run ih =>
    obtain ⟨b₁, hstep, hrest⟩ := Option.bind_eq_some_iff.mp h
    obtain ⟨al₁, hcells⟩ := al.append (hwf a List.mem_cons_self) hstep
    obtain ⟨al₂, hcells'⟩ := ih al₁ (fun a' ha' ↦ hwf a' (List.mem_cons_of_mem a ha')) hrest
    refine ⟨by simpa [runHistory, List.append_assoc] using al₂, fun i d hd ↦ ?_⟩
    have hrun := hcells' i d hd
    rw [runHistory, runCells] at hrun ⊢
    rw [List.flatMap_cons, List.map_append, List.flatMap_cons, hcells i d hd, hrun]

/-- What every step of a column keeps holds of the columns a run leaves behind. -/
theorem Aligned.run_column (al : b.Aligned cols hist stamps) {run : List Append}
    (hwf : ∀ a ∈ run, a.WellFormed cols.length) (h : run.foldlM Append.run b = some b')
    {I : ColumnDescriptor → List Entry → ColumnBuilder → Prop}
    (hstep : ∀ d h c new c', ColumnBuilder.Tracks d h c → I d h c → c.Step new c' →
      I d (h ++ new) c')
    (hI : ∀ i d c, cols[i]? = some d → b.columns[i]? = some c → I d (hist i) c) :
    ∀ i d c, cols[i]? = some d → b'.columns[i]? = some c →
      I d (hist i ++ runHistory cols run i) c := by
  induction run generalizing b hist stamps with
  | nil =>
    obtain rfl := Option.some.inj h
    simpa [runHistory] using hI
  | cons a run ih =>
    obtain ⟨b₁, hrun, hrest⟩ := Option.bind_eq_some_iff.mp h
    have hwfa := hwf a List.mem_cons_self
    have hnext := ih (al.append hwfa hrun).1 (fun a' ha' ↦ hwf a' (List.mem_cons_of_mem a ha'))
      hrest fun i d c' hd hc' ↦ by
        obtain ⟨c, hc, tc⟩ := al.tracks.exists_column hd
        obtain ⟨c'', hc'', hs, -⟩ := al.exists_step hwfa hrun hd hc
        obtain rfl := Option.some.inj (hc''.symm.trans hc')
        exact hstep d _ c _ c'' tc (hI i d c hd hc) hs
    intro i d c hd hc
    have := hnext i d c hd hc
    rwa [List.append_assoc] at this

/-! ## Descriptors -/

/-- The columns a builder was made with. -/
abbrev descriptors (b : TopicChunkBuilder) : List ColumnDescriptor :=
  b.columns.map (·.buffer.descriptor)

theorem CellCall.descriptor_apply {k : CellCall} {c c' : ColumnBuilder} (h : k.apply c = some c') :
    c'.buffer.descriptor = c.buffer.descriptor := by
  cases k with
  | set i v =>
    obtain ⟨buf, hbuf, rfl⟩ := Option.map_eq_some_iff.mp h
    cases v <;> exact TypedColumnBuffer.append_descriptor hbuf
  | setNull i =>
    obtain rfl := Option.some.inj h
    exact TypedColumnBuffer.appendNull_descriptor _

theorem BulkCall.descriptor_apply {k : BulkCall} {c c' : ColumnBuilder} (h : k.apply c = some c') :
    c'.buffer.descriptor = c.buffer.descriptor := by
  cases k with
  | column i d =>
    obtain ⟨buf, hbuf, rfl⟩ := Option.map_eq_some_iff.mp h
    exact TypedColumnBuffer.appendBulk_descriptor hbuf
  | validity i v =>
    obtain rfl := Option.some.inj h
    exact TypedColumnBuffer.appendValidityBulk_descriptor _ v

theorem descriptor_padColumn (expected : ℕ) (c : ColumnBuilder) :
    (padColumn expected c).buffer.descriptor = c.buffer.descriptor := by
  rw [padColumn]
  split_ifs
  · exact TypedColumnBuffer.appendNull_descriptor _
  · rfl

theorem descriptors_runCellCall {k : CellCall} (h : b.runCellCall k = some b') :
    b'.descriptors = b.descriptors := by
  obtain ⟨-, c, c', hc, hk, rfl⟩ := runCellCall_eq_some h
  rw [descriptors, List.map_set, CellCall.descriptor_apply hk]
  -- the update writes a descriptor over itself
  apply List.ext_getElem?
  intro i
  rw [List.getElem?_set]
  split_ifs with hi hlt
  · rw [← hi, List.getElem?_map, hc, Option.map_some]
  · rw [← hi, List.getElem?_eq_none (Nat.le_of_not_lt hlt)]
  · rfl

theorem descriptors_finishRow (h : b.finishRow = some b') : b'.descriptors = b.descriptors := by
  obtain ⟨-, rfl⟩ := finishRow_eq_some h
  rw [descriptors, List.map_map]
  exact List.map_congr_left fun c _ ↦ descriptor_padColumn _ c

theorem descriptors_runBatch {ts : List Timestamp} {calls : List BulkCall}
    (hpending : b.bulkPendingRows = 0) (h : b.runBatch ts calls = some b') :
    b'.descriptors = b.descriptors := by
  obtain ⟨-, hlen, hcols⟩ := runBatch_eq_some hpending h
  have hfold : ∀ (ks : List BulkCall) {c c' : ColumnBuilder},
      ks.foldlM (fun c k ↦ k.apply c) c = some c' →
        c'.buffer.descriptor = c.buffer.descriptor := by
    intro ks
    induction ks with
    | nil =>
      intro c c' hc
      obtain rfl := Option.some.inj hc
      rfl
    | cons k ks ih =>
      intro c c' hc
      obtain ⟨c₁, hc₁, hrest⟩ := Option.bind_eq_some_iff.mp hc
      exact (ih hrest).trans (BulkCall.descriptor_apply hc₁)
  apply List.ext_getElem
  · simp [hlen]
  intro i hi hi'
  have hlt : i < b.columns.length := by simpa using hi'
  obtain ⟨c₁, c', hc', hcalls, hfin⟩ := hcols i _ (List.getElem?_eq_getElem hlt)
  have hbuffer : c'.buffer = c₁.buffer := by
    split_ifs at hfin
    · rw [hfin]
    · exact ColumnBuilder.finishBulk_buffer hfin
  obtain ⟨hlt', hget⟩ := List.getElem?_eq_some_iff.mp hc'
  rw [List.getElem_map, List.getElem_map, hget, hbuffer]
  exact hfold _ hcalls

end TopicChunkBuilder

end PlotJuggler
