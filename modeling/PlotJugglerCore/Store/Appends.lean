import PlotJugglerCore.Store.History

/-!
# What a column buffer represents

`TypedColumnBuffer.Holds` says which bytes a buffer stands for. Here the same is said of the calls
that were made and of what the accessors answer: after any run of appends the value buffer and the
offsets table have the shape of their layout, the validity bits are those of the rows, and every
valid row reads back the value that was appended.

The invariant of a run is that the buffer holds a list of entries whose cells are the cells of the
calls so far. Every call adds entries behind the ones that are there.
-/

namespace PlotJuggler

open TypedColumnBuffer (Slot nullRaw)

/-- The reader of the column's kind, `readFloat32` to `readString`. -/
def TypedColumnBuffer.readValue (b : TypedColumnBuffer) (row : ℕ) : Value :=
  if b.kind = .string then .string (b.readString row) else b.kind.decode (b.readFixed row)

/-- Buffer `b` is the layout of `cells`, and its accessors answer with them. -/
structure TypedColumnBuffer.Represents (b : TypedColumnBuffer) (cells : List (Option Value)) :
    Prop where
  rowCount : b.rowCount = cells.length
  fixedSize : b.kind ≠ .string → b.values.length = b.rowCount * storageKindSize b.kind
  offsets : b.kind = .string → 0 < b.rowCount →
    b.offsets.length = b.rowCount + 1 ∧ b.offsets.Pairwise (· ≤ ·) ∧ b.offsets.head? = some 0 ∧
      b.offsets.getLast?.map UInt32.toNat = some b.values.length
  isValid : ∀ (r : ℕ) (h : r < cells.length), b.isValid r = cells[r].isSome
  hasNulls : b.hasNulls = true ↔ none ∈ cells
  read : ∀ r v, cells[r]? = some (some v) → b.readValue r = v

/-- A call of the append family. A batch comes with or without validity bits. -/
inductive AppendCall
  | append (v : Value)
  | appendNull
  | appendBulk (data : ColumnSpan) (validity : Option BitSpan)
  deriving DecidableEq, Repr

namespace AppendCall

def run (b : TypedColumnBuffer) : AppendCall → Option TypedColumnBuffer
  | .append v => b.append v
  | .appendNull => some b.appendNull
  | .appendBulk data validity =>
    (b.appendBulk data).map fun b ↦ validity.elim b b.appendValidityBulk

/-- The layout a caller hands over: offsets that never step back, one bit for each row. -/
def WellFormed : AppendCall → Prop
  | .appendBulk data validity => data.WellFormed ∧ ∀ s ∈ validity, s.bitLength = data.rowCount
  | _ => True

instance (c : AppendCall) : Decidable c.WellFormed := by
  cases c <;> unfold WellFormed <;> infer_instance

/-- The asserts of a call: it is the one for the column's kind, and string offsets stay inside the
data. -/
def Suits (k : StorageKind) : AppendCall → Prop
  | .append v => v.kind = k
  | .appendNull => True
  | .appendBulk data _ => data.kind = k ∧ data.InBounds

instance (k : StorageKind) : DecidablePred (Suits k)
  | .append v => inferInstanceAs (Decidable (v.kind = k))
  | .appendNull => .isTrue trivial
  | .appendBulk data _ => inferInstanceAs (Decidable (data.kind = k ∧ data.InBounds))

/-- The rows of a call: a value or a null each. -/
def cells : AppendCall → List (Option Value)
  | .append v => [some v]
  | .appendNull => [none]
  | .appendBulk data validity => batchCells data validity

/-- The bytes of the values of a call, those under a cleared validity bit among them. -/
def byteCount : AppendCall → ℕ
  | .append v => v.bytes.length
  | .appendNull => 0
  | .appendBulk data _ => data.raws.flatten.length

/-- The same rows as entries of a history. -/
def entries (k : StorageKind) : AppendCall → List Entry
  | .append v => [.ofRow k (some v)]
  | .appendNull => [.ofRow k none]
  | .appendBulk data validity => batchEntries data validity

end AppendCall

/-! ## The offsets table -/

namespace TypedColumnBuffer

theorem length_endOffsets (start : ℕ) (l : List (List UInt8)) :
    (endOffsets start l).length = l.length := by
  induction l generalizing start with
  | nil => rfl
  | cons s l ih => rw [endOffsets, List.length_cons, ih, List.length_cons]

theorem getLast?_endOffsets (start : ℕ) (l : List (List UInt8)) :
    (UInt32.ofNat start :: endOffsets start l).getLast?
      = some (UInt32.ofNat (start + l.flatten.length)) := by
  induction l generalizing start with
  | nil => rfl
  | cons s l ih =>
    rw [endOffsets, List.getLast?_cons_cons, ih, List.flatten_cons, List.length_append,
      Nat.add_assoc]

/-- As long as no offset wraps, none is below the one before it. -/
theorem pairwise_endOffsets {start : ℕ} {l : List (List UInt8)}
    (h : start + l.flatten.length < 2 ^ 32) :
    (UInt32.ofNat start :: endOffsets start l).Pairwise (· ≤ ·) := by
  induction l generalizing start with
  | nil => exact List.pairwise_singleton _ _
  | cons s l ih =>
    rw [List.flatten_cons, List.length_append] at h
    have hrest := @ih (start + s.length) (by omega)
    have hstep : UInt32.ofNat start ≤ UInt32.ofNat (start + s.length) := by
      rw [UInt32.le_iff_toNat_le, UInt32.toNat_ofNat_of_lt' (by rw [UInt32.size]; omega),
        UInt32.toNat_ofNat_of_lt' (by rw [UInt32.size]; omega)]
      exact Nat.le_add_right _ _
    rw [endOffsets]
    refine List.pairwise_cons.mpr ⟨fun o ho ↦ ?_, hrest⟩
    rcases List.mem_cons.mp ho with rfl | ho
    · exact hstep
    · exact UInt32.le_trans hstep ((List.pairwise_cons.mp hrest).1 o ho)

variable {b : TypedColumnBuffer} {h : List Entry}

/-- What a buffer holds it represents, as long as the bytes of its strings fit the offsets. -/
theorem Holds.represents (hb : b.Holds (h.map Entry.slot))
    (hbytes : b.kind = .string → TypedColumnBuffer.byteCount (h.map Entry.slot) < 2 ^ 32) :
    b.Represents (h.map (Entry.cell b.kind)) := by
  have hrows : b.rowCount = h.length := by rw [hb.rowCount, List.length_map]
  refine ⟨by rw [hrows, List.length_map], fun hk ↦ ?_, fun hk hpos ↦ ?_, fun r hr ↦ ?_, ?_,
    fun r v hv ↦ ?_⟩
  · have hsize : ∀ p ∈ (h.map Entry.slot).map Slot.raw, p.length = storageKindSize b.kind := by
      intro p hp
      obtain ⟨s, hs, rfl⟩ := List.mem_map.mp hp
      exact hb.size hk s hs
    rw [hb.values, List.length_flatten, List.map_congr_left hsize, List.map_const',
      List.sum_replicate_nat, List.length_map, hb.rowCount]
  · -- the first append wrote the leading zero, and every append one end offset
    have hne : h.map Entry.slot ≠ [] := by
      rintro he
      rw [hb.rowCount, he] at hpos
      exact absurd hpos (lt_irrefl 0)
    have hlt := hbytes hk
    rw [TypedColumnBuffer.byteCount] at hlt
    rw [hb.offsets hk, if_neg hne]
    refine ⟨?_, ?_, rfl, ?_⟩
    · rw [List.length_cons, length_endOffsets, List.length_map, hb.rowCount]
    · exact @pairwise_endOffsets 0 _ (by rwa [Nat.zero_add])
    · refine (congrArg _ (getLast?_endOffsets 0 _)).trans ?_
      rw [Option.map_some, Nat.zero_add, ← hb.values,
        UInt32.toNat_ofNat_of_lt' (by rw [UInt32.size, hb.values]; exact hlt)]
  · rw [List.length_map] at hr
    rw [hb.isValid (by rwa [List.length_map]), List.getD_eq_getElem?_getD, List.getElem?_map,
      List.getElem?_map, List.getElem?_eq_getElem hr, List.getElem_map, Entry.cell]
    cases hvalid : h[r].valid <;> simp [Entry.slot, hvalid]
  · have hnull : ∀ e : Entry, e.cell b.kind = none ↔ e.slot.valid = false := by
      intro e
      rw [Entry.cell]
      split_ifs with hvalid <;> simp [Entry.slot, hvalid]
    rw [hb.hasNulls, List.mem_map]
    constructor
    · rintro ⟨s, hs, hvalid⟩
      obtain ⟨e, he, rfl⟩ := List.mem_map.mp hs
      exact ⟨e, he, (hnull e).mpr hvalid⟩
    · rintro ⟨e, he, hcell⟩
      exact ⟨e.slot, List.mem_map_of_mem he, (hnull e).mp hcell⟩
  · rw [List.getElem?_map] at hv
    obtain ⟨e, he, hcell⟩ := Option.map_eq_some_iff.mp hv
    have hr : r < (h.map Entry.slot).length := by
      rw [List.length_map]
      exact (List.getElem?_eq_some_iff.mp he).1
    have hraw : ((h.map Entry.slot).map Slot.raw).getD r [] = e.raw := by
      rw [List.getD_eq_getElem?_getD, List.getElem?_map, List.getElem?_map, he]
      rfl
    have hval : b.kind.decode e.raw = v := by
      rw [Entry.cell] at hcell
      split_ifs at hcell
      exact Option.some.inj hcell
    rw [TypedColumnBuffer.readValue]
    split_ifs with hk
    · rw [hb.readString hk (hbytes hk) hr, hraw, ← hval, hk]
      rfl
    · rw [hb.readFixed hk, hraw, hval]

end TypedColumnBuffer

/-! ## Runs of appends -/

namespace AppendCall

variable {b b' : TypedColumnBuffer} {h : List Entry}

/-- A call keeps the descriptor, and a call that goes through was given values of the column's
kind. -/
theorem run_descriptor {c : AppendCall} (hrun : c.run b = some b') :
    b'.descriptor = b.descriptor := by
  match c with
  | .append v => exact TypedColumnBuffer.append_descriptor hrun
  | .appendNull =>
    obtain rfl := Option.some.inj hrun
    exact b.appendNull_descriptor
  | .appendBulk data validity =>
    obtain ⟨b₁, happ, rfl⟩ := Option.map_eq_some_iff.mp hrun
    refine Eq.trans ?_ (TypedColumnBuffer.appendBulk_descriptor happ)
    rcases validity with _ | s
    · rfl
    · exact b₁.appendValidityBulk_descriptor s

/-- The entries of a call stand for its cells. -/
theorem map_cell_entries {c : AppendCall} (hrun : c.run b = some b') :
    (c.entries b.kind).map (Entry.cell b.kind) = c.cells := by
  match c with
  | .append v =>
    have hk := TypedColumnBuffer.kind_of_append hrun
    rw [entries, List.map_singleton, Entry.cell, Entry.ofRow, if_pos rfl, ← hk,
      Value.decode_bytes]
    rfl
  | .appendNull => rfl
  | .appendBulk data validity =>
    obtain ⟨b₁, happ, -⟩ := Option.map_eq_some_iff.mp hrun
    rw [← TypedColumnBuffer.kind_of_appendBulk happ]
    exact map_cell_batchEntries data validity

/-- A call adds its entries behind the ones that are there. -/
theorem holds_run {c : AppendCall} (hb : b.Holds (h.map Entry.slot)) (hwf : c.WellFormed)
    (hrun : c.run b = some b') : b'.Holds ((h ++ c.entries b.kind).map Entry.slot) := by
  rw [List.map_append]
  match c with
  | .append v => exact hb.append hrun
  | .appendNull =>
    obtain rfl := Option.some.inj hrun
    exact hb.appendNull
  | .appendBulk data validity =>
    obtain ⟨b₁, happ, rfl⟩ := Option.map_eq_some_iff.mp hrun
    rw [← List.map_append]
    exact ColumnBuilder.holds_batch hb hwf.1 hwf.2 happ

/-- In a string column the entries of a call hold the bytes the call brought. -/
theorem byteCount_entries {c : AppendCall} (hwf : c.WellFormed) (hk : b.kind = .string) :
    TypedColumnBuffer.byteCount ((c.entries b.kind).map Entry.slot) = c.byteCount := by
  match c with
  | .append v => simp [entries, byteCount, TypedColumnBuffer.byteCount, Entry.ofRow, Entry.slot]
  | .appendNull =>
    rw [hk]
    rfl
  | .appendBulk data validity =>
    have hbits : (batchBits data validity).length = data.raws.length := by
      rw [ColumnSpan.length_raws]
      rcases validity with _ | s
      · exact List.length_replicate
      · simpa [batchBits, BitSpan.bits] using hwf.2 s rfl
    rw [entries, byteCount, TypedColumnBuffer.byteCount, batchEntries, List.map_map, List.map_map]
    exact congrArg (fun l ↦ (List.flatten l).length) (TypedColumnBuffer.raw_batchSlots hbits)

/-- What a run adds: the entries of its calls, one call after the other. -/
theorem holds_foldlM {calls : List AppendCall} (hb : b.Holds (h.map Entry.slot))
    (hwf : ∀ c ∈ calls, c.WellFormed) (hrun : calls.foldlM run b = some b') :
    b'.descriptor = b.descriptor ∧
      b'.Holds ((h ++ calls.flatMap (entries b.kind)).map Entry.slot) ∧
      (calls.flatMap (entries b.kind)).map (Entry.cell b.kind) = calls.flatMap cells := by
  induction calls generalizing b h with
  | nil =>
    obtain rfl := Option.some.inj hrun
    exact ⟨rfl, by simpa using hb, rfl⟩
  | cons c calls ih =>
    rw [List.foldlM_cons] at hrun
    obtain ⟨b₁, hcall, hrest⟩ := Option.bind_eq_some_iff.mp hrun
    have hdesc := run_descriptor hcall
    have hkind : b₁.kind = b.kind := congrArg ColumnDescriptor.kind hdesc
    obtain ⟨hd, hholds, hcells⟩ := ih (holds_run hb (hwf c List.mem_cons_self) hcall)
      (fun c' hc' ↦ hwf c' (List.mem_cons_of_mem c hc')) hrest
    rw [hkind] at hholds hcells
    refine ⟨hd.trans hdesc, ?_, ?_⟩
    · rwa [List.flatMap_cons, ← List.append_assoc]
    · rw [List.flatMap_cons, List.map_append, List.flatMap_cons, map_cell_entries hcall, hcells]

theorem byteCount_flatMap {calls : List AppendCall} (hwf : ∀ c ∈ calls, c.WellFormed)
    (hk : b.kind = .string) :
    TypedColumnBuffer.byteCount ((calls.flatMap (entries b.kind)).map Entry.slot)
      = (calls.map byteCount).sum := by
  induction calls with
  | nil => rfl
  | cons c calls ih =>
    rw [List.map_cons, List.sum_cons, ← byteCount_entries (hwf c List.mem_cons_self) hk,
      ← ih fun c' hc' ↦ hwf c' (List.mem_cons_of_mem c hc')]
    simp only [TypedColumnBuffer.byteCount, List.flatMap_cons, List.map_append,
      List.flatten_append, List.length_append]

theorem exists_run {c : AppendCall} (hc : c.Suits b.kind) : ∃ b', c.run b = some b' := by
  match c with
  | .append v => exact TypedColumnBuffer.exists_append hc
  | .appendNull => exact ⟨_, rfl⟩
  | .appendBulk data validity =>
    obtain ⟨b₁, happ⟩ := TypedColumnBuffer.exists_appendBulk hc.1 hc.2
    exact ⟨_, congrArg (Option.map _) happ⟩

/-- A run whose calls meet their asserts returns. -/
theorem exists_foldlM {calls : List AppendCall} (hc : ∀ c ∈ calls, c.Suits b.kind) :
    ∃ b', calls.foldlM run b = some b' := by
  induction calls generalizing b with
  | nil => exact ⟨b, rfl⟩
  | cons c calls ih =>
    obtain ⟨b₁, hcall⟩ := exists_run (hc c List.mem_cons_self)
    have hkind : b₁.kind = b.kind := congrArg ColumnDescriptor.kind (run_descriptor hcall)
    obtain ⟨b', hrest⟩ := @ih b₁ fun c' hc' ↦ hkind ▸ hc c' (List.mem_cons_of_mem c hc')
    exact ⟨b', by rw [List.foldlM_cons, hcall]; exact hrest⟩

/-- A run of appends of the column's kind returns, and after every run of appends the buffer
represents what was appended. -/
theorem run_represents (d : ColumnDescriptor) {calls : List AppendCall}
    (hwf : ∀ c ∈ calls, c.WellFormed)
    (hbytes : d.kind = .string → (calls.map byteCount).sum < 2 ^ 32) :
    ((∀ c ∈ calls, c.Suits d.kind) →
        ∃ b, calls.foldlM run ({ descriptor := d } : TypedColumnBuffer) = some b) ∧
      ∀ b, calls.foldlM run { descriptor := d } = some b → b.Represents (calls.flatMap cells) := by
  refine ⟨fun hc ↦ exists_foldlM hc, fun b hrun ↦ ?_⟩
  have hnew : TypedColumnBuffer.Holds { descriptor := d } (([] : List Entry).map Entry.slot) :=
    TypedColumnBuffer.holds_new d
  obtain ⟨hdesc, hholds, hcells⟩ := holds_foldlM hnew hwf hrun
  have hkind : b.kind = TypedColumnBuffer.kind { descriptor := d } :=
    congrArg ColumnDescriptor.kind hdesc
  rw [List.nil_append] at hholds
  rw [← hcells, ← hkind]
  rw [← hkind] at hholds
  refine hholds.represents fun hk ↦ ?_
  rw [byteCount_flatMap hwf hk]
  exact hbytes (hkind.symm.trans hk)

/-- A null makes the bitmap in the middle of a run, and a batch brings its own bits. -/
def mixedInts : List AppendCall :=
  [.append (.int32 7), .appendNull, .appendBulk (.int32 [1, 2]) (some ⟨[4], 1, 2⟩)]

/-- The strings of the batch are cut out of a larger text. -/
def mixedStrings : List AppendCall :=
  [.append (.string [97, 98]), .appendNull,
    .appendBulk (.strings [1, 3, 3] [120, 121, 122]) (some ⟨[2], 1, 2⟩)]

theorem run_represents_mixed :
    (∃ b, mixedInts.foldlM run ({ descriptor := ⟨0, .int32, "a"⟩ } : TypedColumnBuffer) = some b ∧
      b.Represents [some (.int32 7), none, none, some (.int32 2)]) ∧
    ∃ b, mixedStrings.foldlM run ({ descriptor := ⟨0, .string, "s"⟩ } : TypedColumnBuffer) = some b ∧
      b.Represents [some (.string [97, 98]), none, some (.string [121, 122]), none] := by
  have hints : mixedInts.flatMap cells = [some (.int32 7), none, none, some (.int32 2)] := by
    decide
  have hstrings : mixedStrings.flatMap cells
      = [some (.string [97, 98]), none, some (.string [121, 122]), none] := by
    decide +kernel
  rw [← hints, ← hstrings]
  constructor
  · obtain ⟨hruns, hrep⟩ := run_represents ⟨0, .int32, "a"⟩ (show ∀ c ∈ mixedInts, _ by decide)
      (by decide)
    obtain ⟨b, hb⟩ := hruns (by decide)
    exact ⟨b, hb, hrep b hb⟩
  · obtain ⟨hruns, hrep⟩ := run_represents ⟨0, .string, "s"⟩
      (show ∀ c ∈ mixedStrings, _ by decide) (by decide)
    obtain ⟨b, hb⟩ := hruns (by decide)
    exact ⟨b, hb, hrep b hb⟩

end AppendCall

end PlotJuggler
