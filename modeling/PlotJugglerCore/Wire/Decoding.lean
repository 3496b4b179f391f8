import PlotJugglerCore.Lib.SumLe
import PlotJugglerCore.Wire.Memory
import PlotJugglerCore.Wire.Message
import PlotJugglerCore.Wire.Varint

/-!
# Decoding from untrusted bytes

What a decoder can do to a buffer. It holds any number of reader variables, calls their operations
in any order, also after one has failed, and chooses each call by the answers it has had. Nothing
in the bytes makes it read outside the buffer or loop for ever.

## Why the loops end

A tag takes at least one byte of its reader, but that does not bound a loop whose body may replace
the reader it loops on: `readMessage` writes into any variable. What is bounded is the number of
bytes ahead of all readers together. A nested reader takes over bytes that its parent has moved
past, so no operation adds to the sum, and every tag takes from it.
-/

namespace PlotJuggler

namespace Raw

namespace Reader

variable {α : Type}

/-! ## Packed payloads -/

/-- `while (!sub.eof()) { if (!sub.read…(v)) return false; out.push_back(v); }`, for at most `n`
rounds. A loop that goes on longer has no result here. -/
def packedLoop (read : Reader → Option (Option α × Reader)) :
    ℕ → Reader → List α → Option (Option (List α))
  | 0, sub, out => if sub.eof then some (some out) else none
  | n + 1, sub, out =>
    if sub.eof then some (some out)
    else (read sub).bind fun
      | (none, _) => some none
      | (some v, sub) => packedLoop read n sub (out ++ [v])

/-- Values of `width` bytes, appended to what is there. -/
def readPacked (b : Buffer) (width : UInt64) (read : Reader → Option (Option α × Reader))
    (r : Reader) (out : List α) : Option (Option (List α) × Reader) :=
  delimited b (fun data size ↦
    if size % width ≠ 0 then some none
    else packedLoop read size.toNat (ofData data size) out) r

def readPackedFixed32 (b : Buffer) (r : Reader) (out : List UInt32) :
    Option (Option (List UInt32) × Reader) :=
  readPacked b 4 (readFixed32 b) r out

def readPackedDouble (b : Buffer) (r : Reader) (out : List UInt64) :
    Option (Option (List UInt64) × Reader) :=
  readPacked b 8 (readDouble b) r out

/-- `for (size_t i = 0; i < N; ++i) { if (!sub.readDouble(out[i])) return false; }` -/
def arrayLoop (b : Buffer) : ℕ → Reader → Option (Option (List UInt64))
  | 0, _ => some (some [])
  | n + 1, sub =>
    (sub.readDouble b).bind fun
      | (none, _) => some none
      | (some v, sub) => (arrayLoop b n sub).map fun vs ↦ vs.map (v :: ·)

def readPackedDoubleArray (b : Buffer) (count : ℕ) (r : Reader) :
    Option (Option (List UInt64) × Reader) :=
  delimited b (fun data size ↦
    if size.toNat ≠ count * 8 then some none else arrayLoop b count (ofData data size)) r

section Packed

variable {b : Buffer} {r : Reader}

/-- The loop over a packed payload is the loop over its bytes. In particular it ends. -/
theorem packedLoop_refines {read : Reader → Option (Option α × Reader)}
    {readList : List UInt8 → Option α × List UInt8}
    (hread : ∀ sub : Reader, sub.Within b → Refines b sub id (read sub) (readList (sub.rest b)))
    (hless : ∀ l v l', readList l = (some v, l') → l'.length < l.length)
    {n : ℕ} {sub : Reader} (h : sub.Within b) (hn : (sub.rest b).length ≤ n) (out : List α) :
    packedLoop read n sub out =
      some (if (FieldReader.packedLoop readList n (sub.rest b) out).1 then
        some (FieldReader.packedLoop readList n (sub.rest b) out).2 else none) := by
  induction n generalizing sub out with
  | zero =>
    have hrest : sub.rest b = [] := List.eq_nil_of_length_eq_zero (Nat.le_zero.mp hn)
    rw [packedLoop, if_pos (h.eof_iff.mpr hrest), hrest]
    rfl
  | succ n ih =>
    cases hrest : sub.rest b with
    | nil =>
      rw [packedLoop, if_pos (h.eof_iff.mpr hrest)]
      rfl
    | cons byte tail =>
      have heof : ¬ sub.eof = true := fun heof ↦ by
        rw [h.eof_iff.mp heof] at hrest
        exact absurd hrest.symm (List.cons_ne_nil byte tail)
      obtain ⟨v, sub', hrun, hmoves, hv, hrest'⟩ := hread sub h
      rw [hrest] at hv hrest'
      rw [packedLoop, if_neg heof, hrun, Option.bind_some, FieldReader.packedLoop]
      rcases hlist : readList (byte :: tail) with ⟨w, l'⟩
      rw [hlist] at hv hrest'
      rw [Option.map_id, id] at hv
      cases v with
      | none =>
        obtain rfl : w = none := hv.symm
        rfl
      | some v =>
        obtain rfl : w = some v := hv.symm
        have hlt := hless _ _ _ hlist
        have hlen : l'.length ≤ n := by
          rw [hrest] at hn
          omega
        have hih := ih hmoves.within (by rw [hrest']; exact hlen) (out ++ [v])
        rw [hrest'] at hih
        exact hih

/-- What a field reader of `Wire/Message.lean` comes to as an operation that may fail. -/
def filled (x : Bool × List UInt8 × α) : Option α × List UInt8 :=
  (if x.1 then some x.2.2 else none, x.2.1)

theorem filled_packed (interpret : List UInt8 → α → Bool × α) (l : List UInt8) (s : α) :
    filled ((FieldReader.packed interpret).read l s) =
      ((PlotJuggler.readBytes l).1.bind fun data ↦
        if (interpret data s).1 then some (interpret data s).2 else none,
        (PlotJuggler.readBytes l).2) := by
  simp only [FieldReader.packed, FieldReader.delimited]
  rcases PlotJuggler.readBytes l with ⟨data, rest⟩
  cases data with
  | none => rfl
  | some data => rfl

theorem readPacked_refines {width : UInt64} {read : Reader → Option (Option α × Reader)}
    {readList : List UInt8 → Option α × List UInt8}
    (hread : ∀ sub : Reader, sub.Within b → Refines b sub id (read sub) (readList (sub.rest b)))
    (hless : ∀ l v l', readList l = (some v, l') → l'.length < l.length) (h : r.Within b)
    (out : List α) :
    Refines b r id (readPacked b width read r out)
      (filled ((FieldReader.packedValues width.toNat readList id fun _ vs ↦ vs).read
        (r.rest b) out)) := by
  rw [FieldReader.packedValues, filled_packed]
  apply delimited_refines h
  intro data size hsub hlen
  have hmod : size % width ≠ 0 ↔ size.toNat % width.toNat ≠ 0 := by
    rw [← UInt64.toNat_mod]
    exact not_congr UInt64.toNat_inj.symm
  simp only [hlen, hmod]
  by_cases hodd : size.toNat % width.toNat ≠ 0
  · rw [if_pos hodd, if_pos hodd]
    exact ⟨none, rfl, rfl⟩
  · rw [if_neg hodd, if_neg hodd, packedLoop_refines hread hless hsub hlen.le]
    exact ⟨_, rfl, Option.map_id_apply⟩

theorem readPackedFixed32_refines (h : r.Within b) (out : List UInt32) :
    Refines b r id (r.readPackedFixed32 b out)
      (filled ((FieldReader.packedFixed32 id fun _ vs ↦ vs).read (r.rest b) out)) :=
  readPacked_refines (fun _ hsub ↦ readFixed32_refines hsub)
    (fun _ _ _ hl ↦ readFixed32_length_lt hl) h out

theorem readPackedDouble_refines (h : r.Within b) (out : List UInt64) :
    Refines b r id (r.readPackedDouble b out)
      (filled ((FieldReader.packedDouble id fun _ vs ↦ vs).read (r.rest b) out)) :=
  readPacked_refines (fun _ hsub ↦ readFixed64_refines hsub)
    (fun _ _ _ hl ↦ readFixed64_length_lt hl) h out

/-- A payload of eight bytes a value is read to its end. -/
theorem arrayLoop_eq {n : ℕ} {sub : Reader} (h : sub.Within b) (hn : (sub.rest b).length = n * 8) :
    arrayLoop b n sub = some (some ((List.range n).map fun i ↦
      UInt64.ofNat (LittleEndian.value (LittleEndian.element (sub.rest b) 8 i)))) := by
  induction n generalizing sub with
  | zero => rfl
  | succ n ih =>
    obtain ⟨v, sub', hrun, hmoves, hv, hrest⟩ := readFixed64_refines h
    have hlong : ¬ (sub.rest b).length < 8 := by omega
    rw [PlotJuggler.readFixed64, if_neg hlong] at hv hrest
    have hlen : (sub'.rest b).length = n * 8 := by
      rw [hrest, List.length_drop, hn]
      omega
    have helement (i : ℕ) : LittleEndian.element (sub'.rest b) 8 i =
        LittleEndian.element (sub.rest b) 8 (i + 1) := by
      rw [LittleEndian.element, LittleEndian.element, hrest, List.drop_drop]
      congr 2
      omega
    rw [Option.map_id, id] at hv
    rw [arrayLoop, readDouble, hrun, Option.bind_some, hv]
    simp only [ih hmoves.within hlen, helement, List.range_succ_eq_map, List.map_cons,
      List.map_map, Option.map_some]
    rfl

theorem readPackedDoubleArray_refines (n : ℕ) (h : r.Within b) :
    Refines b r some (r.readPackedDoubleArray b n)
      (filled
        ((FieldReader.packedDoubleArray n fun _ v ↦ some v.toList).read (r.rest b) none)) := by
  rw [FieldReader.packedDoubleArray, filled_packed]
  apply delimited_refines h
  intro data size hsub hlen
  simp only [hlen]
  by_cases hsize : size.toNat ≠ n * 8
  · rw [if_pos hsize, if_pos hsize]
    exact ⟨none, rfl, rfl⟩
  · rw [if_neg hsize, if_neg hsize, arrayLoop_eq hsub (hlen.trans (not_not.mp hsize))]
    refine ⟨_, rfl, ?_⟩
    simp only [if_true, Option.map_some, Option.some.injEq]
    exact List.ext_getElem (by simp) fun i _ _ ↦ by simp

end Packed

end Reader

/-! ## Calls -/

/-- The reader variables of a decoder. All are null until something is put into them. -/
abbrev Pool := ℕ → Reader

/-- `Reader reader(data, size)` and no nested reader yet. -/
def Pool.start (b : Buffer) : Pool :=
  Function.update (fun _ ↦ {}) 0 (Reader.ofData b.data (UInt64.ofNat b.bytes.length))

/-- What can be called on a reader, with the arguments that go in. -/
inductive Op
  | eof
  | remaining
  | readTag
  | readVarint
  | readFixed64
  | readFixed32
  | readDouble
  | readFloat
  | readString
  | readBytes
  | readMessage (out : ℕ)
  | skip (type : WireType)
  | readPackedFixed32 (out : List UInt32)
  | readPackedDouble (out : List UInt64)
  | readPackedDoubleArray (count : ℕ)
  deriving DecidableEq

/-- What a call gives back: `false`, or `true` with the values written through its references. -/
inductive Answer
  | failed
  | done
  | tag (tag : Tag)
  | word (value : UInt64)
  | word32 (value : UInt32)
  | text (value : List UInt8)
  | view (data size : UInt64)
  | words (values : List UInt64)
  | words32 (values : List UInt32)
  deriving DecidableEq

/-- The call on reader `i`, whose outcome is `x`. -/
def answer {α : Type} (pool : Pool) (i : ℕ) (success : α → Answer)
    (x : Option (Option α × Reader)) : Option (Answer × Pool) :=
  x.map fun x ↦ (x.1.elim .failed success, Function.update pool i x.2)

def Op.run (b : Buffer) (pool : Pool) (i : ℕ) : Op → Option (Answer × Pool)
  | .eof => some (if (pool i).eof then .done else .failed, pool)
  | .remaining => some (.word (pool i).remaining, pool)
  | .readTag => answer pool i .tag ((pool i).readTag b)
  | .readVarint => answer pool i .word ((pool i).readVarint b)
  | .readFixed64 => answer pool i .word ((pool i).readFixed64 b)
  | .readFixed32 => answer pool i .word32 ((pool i).readFixed32 b)
  | .readDouble => answer pool i .word ((pool i).readDouble b)
  | .readFloat => answer pool i .word32 ((pool i).readFloat b)
  | .readString => answer pool i .text ((pool i).readString b)
  | .readBytes => answer pool i (fun view ↦ .view view.1 view.2) ((pool i).readBytes b)
  | .readMessage out =>
    ((pool i).readMessage b).map fun
      | (none, r) => (.failed, Function.update pool i r)
      -- the new reader is stored last, also where it replaces the one it was read from
      | (some nested, r) => (.done, Function.update (Function.update pool i r) out nested)
  | .skip type => answer pool i (fun _ ↦ .done) ((pool i).skip b type)
  | .readPackedFixed32 out => answer pool i .words32 ((pool i).readPackedFixed32 b out)
  | .readPackedDouble out => answer pool i .words ((pool i).readPackedDouble b out)
  | .readPackedDoubleArray count => answer pool i .words ((pool i).readPackedDoubleArray b count)

/-- Calls one after the other. -/
def runCalls (b : Buffer) : List (ℕ × Op) → Pool → Option (List Answer × Pool)
  | [], pool => some ([], pool)
  | call :: calls, pool =>
    (call.2.run b pool call.1).bind fun x ↦
      (runCalls b calls x.2).map fun y ↦ (x.1 :: y.1, y.2)

/-! ## What one call does -/

/-- What the answer says the call has taken: a tag at least one byte, a view the bytes it shows and
at least one in front of them. -/
def Answer.Takes (r r' : Reader) : Answer → Prop
  | .tag _ => r.p_ < r'.p_
  | .view data size => r.p_ < data ∧ data.toNat + size.toNat = r'.p_.toNat
  | _ => True

/-- What a call on reader `i` does to the readers. -/
structure Step (b : Buffer) (pool : Pool) (i : ℕ) (op : Op) (answer : Answer) (pool' : Pool) :
    Prop where
  /-- No cursor leaves the buffer. -/
  within : ∀ k, (pool' k).Within b
  /-- A call touches its reader, and the one it writes to when it succeeds. -/
  others : ∀ k, k ≠ i → op ≠ .readMessage k ∨ answer = .failed → pool' k = pool k
  /-- The cursor goes forwards and the end stays, unless the reader is written over. -/
  moves : op ≠ .readMessage i ∨ answer = .failed → Reader.Moves b (pool i) (pool' i)
  takes : answer.Takes (pool i) (pool' i)
  /-- A nested reader covers a part of what lay ahead of its parent, behind at least one byte. -/
  nested : ∀ k, op = .readMessage k → answer = .done →
    (pool i).p_ < (pool' k).p_ ∧ (pool' k).p_ ≤ (pool' k).end_ ∧ (pool' k).end_ ≤ (pool i).end_

/-- The bytes ahead of each reader. -/
def Pool.ahead (pool : Pool) : ℕ → ℕ := (fun r : Reader ↦ r.remaining.toNat) ∘ pool

/-- The tags a call has read. -/
def Answer.tags : Answer → ℕ
  | .tag _ => 1
  | _ => 0

section Step

variable {b : Buffer} {pool : Pool} {i : ℕ}

namespace Reader

/-- What the cursor has passed is no longer ahead. -/
theorem Moves.remaining {r r' : Reader} (hmoves : Moves b r r') (h : r.Within b) :
    r.remaining.toNat = (r'.p_.toNat - r.p_.toNat) + r'.remaining.toNat := by
  have hle := UInt64.le_iff_toNat_le.mp hmoves.le
  have hle' := hmoves.within.toNat_le
  rw [h.toNat_remaining, hmoves.within.toNat_remaining]
  rw [hmoves.end_eq] at hle' ⊢
  omega

/-- A nested reader and its parent have less ahead than the parent had. -/
theorem Covers.remaining {r sub r' : Reader} (hcov : Covers b r sub r') (hmoves : Moves b r r')
    (h : r.Within b) : sub.remaining.toNat + r'.remaining.toNat + 1 ≤ r.remaining.toNat := by
  have hlt := UInt64.lt_iff_toNat_lt.mp hcov.lt
  have hsub := hcov.within.toNat_le
  rw [hmoves.remaining h, hcov.within.toNat_remaining]
  rw [hcov.end_eq] at hsub ⊢
  omega

theorem readTag_moves {r : Reader} (h : r.Within b) :
    ∃ v r', r.readTag b = some (v, r') ∧ Moves b r r' ∧ ∀ t, v = some t → r.p_ < r'.p_ := by
  obtain ⟨v, r', hrun, hmoves, hv, hrest⟩ := readTag_refines h
  refine ⟨v, r', hrun, hmoves, fun t ht ↦ hmoves.lt h ?_⟩
  rw [Option.map_id, id, ht] at hv
  rw [hrest]
  exact readTag_length_lt (Prod.ext hv.symm rfl)

theorem readBytes_moves {r : Reader} (h : r.Within b) :
    ∃ v r', r.readBytes b = some (v, r') ∧ Moves b r r' ∧ ∀ view, v = some view →
      r.p_ < view.1 ∧ view.1.toNat + view.2.toNat = r'.p_.toNat := by
  obtain ⟨v, r', hrun, hmoves, -, -, hspec⟩ := readBytes_spec h
  refine ⟨v, r', hrun, hmoves, fun view hview ↦ ?_⟩
  obtain ⟨hcov, hlen⟩ := hspec view hview
  have hle := hcov.within.toNat_le
  rw [hcov.within.length_rest, hcov.within.toNat_remaining] at hlen
  rw [← hcov.end_eq]
  refine ⟨hcov.lt, ?_⟩
  change (Reader.ofData view.1 view.2).p_.toNat + view.2.toNat = _
  omega

theorem readMessage_moves {r : Reader} (h : r.Within b) :
    ∃ v r', r.readMessage b = some (v, r') ∧ Moves b r r' ∧
      ∀ nested, v = some nested → Covers b r nested r' := by
  obtain ⟨v, r', hrun, hmoves, -, -, hspec⟩ := readBytes_spec h
  rw [readMessage, delimited, hrun, Option.bind_some]
  cases v with
  | none => exact ⟨none, r', rfl, hmoves, fun nested hn ↦ by simp at hn⟩
  | some view =>
    refine ⟨_, r', rfl, hmoves, fun nested hn ↦ ?_⟩
    obtain rfl := Option.some.inj hn
    exact (hspec view rfl).1

end Reader

/-- A call that changes its own reader only. -/
private theorem answer_spec {α : Type} {success : α → Answer} {x : Option (Option α × Reader)}
    (hx : ∃ v r', x = some (v, r') ∧ Reader.Moves b (pool i) r' ∧
      ∀ w, v = some w → (success w).Takes (pool i) r') :
    ∃ a r', answer pool i success x = some (a, Function.update pool i r') ∧
      Reader.Moves b (pool i) r' ∧ a.Takes (pool i) r' := by
  obtain ⟨v, r', rfl, hmoves, htakes⟩ := hx
  cases v with
  | none => exact ⟨.failed, r', rfl, hmoves, trivial⟩
  | some w => exact ⟨success w, r', rfl, hmoves, htakes w rfl⟩

/-- The same for an operation of which no more is known than that it refines another. -/
private theorem answer_of_refines {α β : Type} {success : α → Answer} {f : α → β}
    {x : Option (Option α × Reader)} {y : Option β × List UInt8}
    (hx : Reader.Refines b (pool i) f x y) (htakes : ∀ w r', (success w).Takes (pool i) r') :
    ∃ a r', answer pool i success x = some (a, Function.update pool i r') ∧
      Reader.Moves b (pool i) r' ∧ a.Takes (pool i) r' := by
  obtain ⟨v, r', hrun, hmoves, -, -⟩ := hx
  exact answer_spec ⟨v, r', hrun, hmoves, fun w _ ↦ htakes w r'⟩

/-- Every call but a successful `readMessage` moves the cursor of its reader and leaves the other
readers alone. -/
theorem Op.run_own (hw : ∀ k, (pool k).Within b) (i : ℕ) (op : Op)
    (hop : ∀ out, op ≠ .readMessage out) :
    ∃ a r', op.run b pool i = some (a, Function.update pool i r') ∧
      Reader.Moves b (pool i) r' ∧ a.Takes (pool i) r' := by
  have hi := hw i
  cases op with
  | eof =>
    refine ⟨if (pool i).eof then .done else .failed, pool i, ?_, hi.refl, ?_⟩
    · rw [Function.update_eq_self]
      rfl
    · split_ifs <;> trivial
  | remaining =>
    refine ⟨.word (pool i).remaining, pool i, ?_, hi.refl, trivial⟩
    rw [Function.update_eq_self]
    rfl
  | readTag => exact answer_spec (Reader.readTag_moves hi)
  | readVarint => exact answer_of_refines (Reader.readVarint_refines hi) fun _ _ ↦ trivial
  | readFixed64 => exact answer_of_refines (Reader.readFixed64_refines hi) fun _ _ ↦ trivial
  | readFixed32 => exact answer_of_refines (Reader.readFixed32_refines hi) fun _ _ ↦ trivial
  | readDouble => exact answer_of_refines (Reader.readFixed64_refines hi) fun _ _ ↦ trivial
  | readFloat => exact answer_of_refines (Reader.readFixed32_refines hi) fun _ _ ↦ trivial
  | readString => exact answer_of_refines (Reader.readString_refines hi) fun _ _ ↦ trivial
  | readBytes => exact answer_spec (Reader.readBytes_moves hi)
  | readMessage out => exact absurd rfl (hop out)
  | skip type => exact answer_of_refines (Reader.skip_refines type hi) fun _ _ ↦ trivial
  | readPackedFixed32 out =>
    exact answer_of_refines (Reader.readPackedFixed32_refines hi out) fun _ _ ↦ trivial
  | readPackedDouble out =>
    exact answer_of_refines (Reader.readPackedDouble_refines hi out) fun _ _ ↦ trivial
  | readPackedDoubleArray count =>
    exact answer_of_refines (Reader.readPackedDoubleArray_refines count hi) fun _ _ ↦ trivial

private theorem ahead_update (pool : Pool) (i : ℕ) (r : Reader) :
    Pool.ahead (Function.update pool i r) =
      Function.update pool.ahead i r.remaining.toNat := by
  rw [Pool.ahead, Function.comp_update]
  rfl

/-- A call that moves one cursor, as a step. -/
private theorem step_own (hw : ∀ k, (pool k).Within b) {op : Op} {a : Answer} {r' : Reader}
    (hmoves : Reader.Moves b (pool i) r') (htakes : a.Takes (pool i) r')
    (hop : ∀ k, op = .readMessage k → a = .failed) :
    Step b pool i op a (Function.update pool i r') := by
  have hself : Function.update pool i r' i = r' := Function.update_self i r' pool
  refine ⟨fun k ↦ ?_, fun k hk _ ↦ Function.update_of_ne hk r' pool, fun _ ↦ by rwa [hself],
    by rwa [hself], fun k hk hdone ↦ ?_⟩
  · by_cases hk : k = i
    · rw [hk, hself]
      exact hmoves.within
    · rw [Function.update_of_ne hk]
      exact hw k
  · rw [hop k hk] at hdone
    exact absurd hdone (by simp)

/-- A `readMessage` that succeeds, as a step. The variable it writes to may be its own reader. -/
private theorem step_nested (hw : ∀ k, (pool k).Within b) {out : ℕ} {nested r' : Reader}
    (hmoves : Reader.Moves b (pool i) r') (hcov : Reader.Covers b (pool i) nested r') :
    Step b pool i (.readMessage out) .done
      (Function.update (Function.update pool i r') out nested) := by
  have hout : Function.update (Function.update pool i r') out nested out = nested :=
    Function.update_self out nested (Function.update pool i r')
  have hother : ∀ k, k ≠ out → Function.update (Function.update pool i r') out nested k =
      Function.update pool i r' k := fun k hk ↦
    Function.update_of_ne hk nested (Function.update pool i r')
  constructor
  · intro k
    by_cases hk : k = out
    · rw [hk, hout]
      exact hcov.within
    · rw [hother k hk]
      have hstep : Step b pool i .eof .failed (Function.update pool i r') :=
        step_own hw hmoves trivial fun _ _ ↦ rfl
      exact hstep.within k
  · rintro k hk (hne | hfail)
    · rw [hother k fun h ↦ hne (by rw [h]), Function.update_of_ne hk]
    · exact absurd hfail (by simp)
  · rintro (hne | hfail)
    · rw [hother i fun h ↦ hne (by rw [h]), Function.update_self]
      exact hmoves
    · exact absurd hfail (by simp)
  · trivial
  · rintro k hk -
    obtain rfl := Op.readMessage.inj hk
    rw [hout]
    have hend : r'.p_ ≤ r'.end_ := UInt64.le_iff_toNat_le.mpr hmoves.within.toNat_le
    refine ⟨hcov.lt, UInt64.le_iff_toNat_le.mpr hcov.within.toNat_le, ?_⟩
    rw [hcov.end_eq, ← hmoves.end_eq]
    exact hend

/-- A call that moves one cursor takes from the bytes ahead what its answer says. -/
private theorem sumLe_own (hi : (pool i).Within b) {a : Answer} {r' : Reader}
    (hmoves : Reader.Moves b (pool i) r') (htakes : a.Takes (pool i) r') {m : ℕ}
    (hm : SumLe pool.ahead m) :
    a.tags ≤ m ∧ SumLe (Pool.ahead (Function.update pool i r')) (m - a.tags) := by
  have hrem := hmoves.remaining hi
  have htags : r'.remaining.toNat + a.tags ≤ pool.ahead i := by
    change _ ≤ (pool i).remaining.toNat
    cases a with
    | tag t =>
      have hlt := UInt64.lt_iff_toNat_lt.mp htakes
      simp only [Answer.tags]
      omega
    | _ =>
      simp only [Answer.tags]
      omega
  rw [ahead_update]
  exact ⟨(Nat.le_add_left _ _).trans (htags.trans (hm.le i)), hm.take htags⟩

/-- Every call, at any time, on any reader: it is defined, it does no more than `Step` allows, and
the bytes ahead of all readers together have not grown. -/
theorem Op.run_step (hw : ∀ k, (pool k).Within b) (i : ℕ) (op : Op) :
    ∃ a pool', op.run b pool i = some (a, pool') ∧ Step b pool i op a pool' ∧
      ∀ m, SumLe pool.ahead m → a.tags ≤ m ∧ SumLe pool'.ahead (m - a.tags) := by
  by_cases hop : ∃ out, op = .readMessage out
  · obtain ⟨out, rfl⟩ := hop
    obtain ⟨v, r', hread, hmoves, hcov⟩ := Reader.readMessage_moves (hw i)
    cases v with
    | none =>
      have htakes : Answer.failed.Takes (pool i) r' := trivial
      refine ⟨.failed, Function.update pool i r', ?_, step_own hw hmoves htakes fun _ _ ↦ rfl,
        fun m hm ↦ sumLe_own (hw i) hmoves htakes hm⟩
      rw [Op.run, hread]
      rfl
    | some nested =>
      have hnested := hcov nested rfl
      refine ⟨.done, Function.update (Function.update pool i r') out nested, ?_,
        step_nested hw hmoves hnested, fun m hm ↦ ⟨Nat.zero_le m, ?_⟩⟩
      · rw [Op.run, hread]
        rfl
      · have hrem := hnested.remaining hmoves (hw i)
        rw [ahead_update, ahead_update]
        apply hm.give
        change r'.remaining.toNat + nested.remaining.toNat + 0 ≤ (pool i).remaining.toNat
        omega
  · obtain ⟨a, r', hrun, hmoves, htakes⟩ := op.run_own hw i fun out h ↦ hop ⟨out, h⟩
    exact ⟨a, _, hrun, step_own hw hmoves htakes fun k hk ↦ absurd ⟨k, hk⟩ hop,
      fun m hm ↦ sumLe_own (hw i) hmoves htakes hm⟩

/-! ## Runs -/

theorem Pool.within_start (b : Buffer) (k : ℕ) : (Pool.start b k).Within b := by
  rw [Pool.start]
  by_cases hk : k = 0
  · subst hk
    rw [Function.update_self]
    by_cases hdata : b.data = 0
    · rw [hdata, Reader.ofData_null]
      exact Reader.within_null
    · have hsize : (UInt64.ofNat b.bytes.length).toNat = b.bytes.length := by
        have hfits := b.fits
        rw [UInt64.toNat_ofNat']
        omega
      have hend : (b.data + UInt64.ofNat b.bytes.length).toNat =
          b.data.toNat + b.bytes.length := by
        rw [UInt64.toNat_add, hsize, Nat.mod_eq_of_lt b.fits]
      rw [Reader.ofData, if_neg hdata]
      refine .inr ⟨hdata, UInt64.le_refl _, ?_, hend.le⟩
      rw [UInt64.le_iff_toNat_le, hend]
      exact Nat.le_add_right _ _
  · rw [Function.update_of_ne hk]
    exact Reader.within_null

/-- At the start everything that is ahead is ahead of one reader. -/
theorem Pool.sumLe_start (b : Buffer) : SumLe (Pool.start b).ahead b.bytes.length := by
  have hrem := Pool.within_start b 0
  have hlen : (Pool.start b 0).remaining.toNat ≤ b.bytes.length := by
    rw [← hrem.length_rest, Reader.rest, List.length_take, List.length_drop]
    omega
  rw [Pool.start, ahead_update]
  rw [Pool.start, Function.update_self] at hlen
  exact (SumLe.single 0 _).mono hlen

/-- A run of calls. -/
theorem runCalls_spec (hw : ∀ k, (pool k).Within b) {m : ℕ} (hm : SumLe pool.ahead m)
    (calls : List (ℕ × Op)) :
    ∃ answers pool', runCalls b calls pool = some (answers, pool') ∧
      (∀ k, (pool' k).Within b) ∧ (answers.map Answer.tags).sum ≤ m ∧
      SumLe pool'.ahead (m - (answers.map Answer.tags).sum) := by
  induction calls generalizing pool m with
  | nil => exact ⟨[], pool, rfl, hw, Nat.zero_le m, hm⟩
  | cons call calls ih =>
    obtain ⟨a, pool₁, hrun, hstep, hsum⟩ := call.2.run_step hw call.1
    obtain ⟨htags, hm₁⟩ := hsum m hm
    obtain ⟨answers, pool₂, hrun₂, hw₂, htags₂, hm₂⟩ := ih hstep.within hm₁
    refine ⟨a :: answers, pool₂, ?_, hw₂, ?_, ?_⟩
    · rw [runCalls, hrun, Option.bind_some, hrun₂]
      rfl
    · rw [List.map_cons, List.sum_cons]
      omega
    · rwa [List.map_cons, List.sum_cons, Nat.sub_add_eq]

end Step

/-! ## Programs -/

/-- Code that uses readers by their operations alone, and may look at every answer before the next
call. -/
inductive Program (α : Type)
  | pure (value : α)
  | call (i : ℕ) (op : Op) (next : Answer → Program α)

namespace Program

variable {α β : Type}

def bind : Program α → (α → Program β) → Program β
  | .pure value, k => k value
  | .call i op next, k => .call i op fun a ↦ (next a).bind k

def run (b : Buffer) : Program α → Pool → Option (α × Pool)
  | .pure value, pool => some (value, pool)
  | .call i op next, pool => (op.run b pool i).bind fun x ↦ (next x.1).run b x.2

theorem run_bind (b : Buffer) (p : Program α) (k : α → Program β) (pool : Pool) :
    (p.bind k).run b pool = (p.run b pool).bind fun x ↦ (k x.1).run b x.2 := by
  induction p generalizing pool with
  | pure value => rfl
  | call i op next ih =>
    rw [bind, run, run, Option.bind_assoc]
    congr 1
    funext x
    exact ih x.1 x.2

/-- Whatever the code does with the readers, it reads inside the buffer and adds nothing to what is
ahead. -/
theorem run_spec {b : Buffer} (p : Program α) {pool : Pool} (hw : ∀ k, (pool k).Within b) :
    ∃ value pool', p.run b pool = some (value, pool') ∧ (∀ k, (pool' k).Within b) ∧
      ∀ m, SumLe pool.ahead m → SumLe pool'.ahead m := by
  induction p generalizing pool with
  | pure value => exact ⟨value, pool, rfl, hw, fun _ hm ↦ hm⟩
  | call i op next ih =>
    obtain ⟨a, pool₁, hrun, hstep, hsum⟩ := op.run_step hw i
    obtain ⟨value, pool₂, hrun₂, hw₂, hsum₂⟩ := ih a hstep.within
    refine ⟨value, pool₂, ?_, hw₂, fun m hm ↦ ?_⟩
    · rw [run, hrun]
      exact hrun₂
    · exact hsum₂ m ((hsum m hm).2.mono (Nat.sub_le m _))

end Program

/-! ## Loops over fields -/

section Loops

variable {σ α : Type}

/-- At most `n` rounds of `while (!reader.eof()) { Tag tag; if (!reader.readTag(tag)) return …; … }`
on reader `i`. The body uses any readers, this one included, and returns from the function or goes
into the next round. A loop out of rounds comes to `none`. -/
def whileFields (i : ℕ) (badTag : σ → α) (body : Tag → σ → Program (Except α σ)) :
    ℕ → σ → Program (Option (Except α σ))
  | 0, _ => .pure none
  | n + 1, s =>
    .call i .eof fun
      | .done => .pure (some (.ok s))
      | _ => .call i .readTag fun
        | .tag tag => (body tag s).bind fun
          | .ok s => whileFields i badTag body n s
          | .error a => .pure (some (.error a))
        | _ => .pure (some (.error (badTag s)))

/-- `parseFields(reader, handler)` on reader `i`. -/
def parseFields (i : ℕ) (handler : Tag → σ → Program (Bool × σ)) :
    ℕ → σ → Program (Option (Except σ σ)) :=
  whileFields i id fun tag s ↦
    (handler tag s).bind fun
      | (true, s) => .pure (.ok s)
      | (false, s) => .call i (.skip tag.type) fun
        | .done => .pure (.ok s)
        | _ => .pure (.error s)

/-- A field loop ends, with a result that does not depend on the rounds it was allowed: there are no
more rounds than bytes ahead of all readers together. -/
theorem whileFields_spec {b : Buffer} (i : ℕ) (badTag : σ → α)
    (body : Tag → σ → Program (Except α σ)) {pool : Pool} (hw : ∀ k, (pool k).Within b) {m : ℕ}
    (hm : SumLe pool.ahead m) (s : σ) :
    ∃ result pool', (∀ k, (pool' k).Within b) ∧
      ∀ n, m < n → (whileFields i badTag body n s).run b pool = some (some result, pool') := by
  induction m using Nat.strong_induction_on generalizing pool s with
  | _ m ih =>
    by_cases heof : (pool i).eof = true
    · refine ⟨.ok s, pool, hw, fun n hn ↦ ?_⟩
      obtain ⟨n, rfl⟩ := Nat.exists_eq_succ_of_ne_zero (Nat.ne_zero_of_lt hn)
      rw [whileFields, Program.run, Op.run, if_pos heof]
      rfl
    · obtain ⟨a, pool₁, hrun, hstep, hsum⟩ := Op.readTag.run_step hw i
      have hround : ∀ n, m < n → ∃ n', n = n' + 1 ∧ m ≤ n' ∧
          (whileFields i badTag body n s).run b pool =
            (match a with
              | .tag tag => (body tag s).bind fun
                | .ok s => whileFields i badTag body n' s
                | .error a => .pure (some (.error a))
              | _ => .pure (some (.error (badTag s)))).run b pool₁ := by
        intro n hn
        obtain ⟨n, rfl⟩ := Nat.exists_eq_succ_of_ne_zero (Nat.ne_zero_of_lt hn)
        refine ⟨n, rfl, Nat.le_of_lt_succ hn, ?_⟩
        rw [whileFields, Program.run, Op.run, if_neg heof]
        simp only [Option.bind_some, Program.run, hrun]
      obtain ⟨htags, hm₁⟩ := hsum m hm
      cases a with
      | tag tag =>
        -- one byte at least has gone from what is ahead
        obtain ⟨out, pool₂, hbody, hw₂, hsum₂⟩ := (body tag s).run_spec hstep.within
        have hm₂ : SumLe pool₂.ahead (m - 1) := hsum₂ _ hm₁
        cases out with
        | error a =>
          refine ⟨.error a, pool₂, hw₂, fun n hn ↦ ?_⟩
          obtain ⟨n', -, -, hrun'⟩ := hround n hn
          rw [hrun', Program.run_bind, hbody]
          rfl
        | ok s' =>
          have hpos : 1 ≤ m := htags
          obtain ⟨result, pool₃, hw₃, hloop⟩ := ih (m - 1) (by omega) hw₂ hm₂ s'
          refine ⟨result, pool₃, hw₃, fun n hn ↦ ?_⟩
          obtain ⟨n', -, hn', hrun'⟩ := hround n hn
          rw [hrun', Program.run_bind, hbody]
          exact hloop n' (by omega)
      | _ =>
        refine ⟨.error (badTag s), pool₁, hstep.within, fun n hn ↦ ?_⟩
        obtain ⟨n', -, -, hrun'⟩ := hround n hn
        exact hrun'

theorem parseFields_spec {b : Buffer} (i : ℕ) (handler : Tag → σ → Program (Bool × σ))
    {pool : Pool} (hw : ∀ k, (pool k).Within b) {m : ℕ} (hm : SumLe pool.ahead m) (s : σ) :
    ∃ result pool', (∀ k, (pool' k).Within b) ∧
      ∀ n, m < n → (parseFields i handler n s).run b pool = some (some result, pool') :=
  whileFields_spec i id _ hw hm s

end Loops

/-! ## The varints of a buffer -/

section Varints

variable {b : Buffer} {r : Reader}

/-- `readVarint` reads back what `appendVarint` has written, wherever in the buffer that is. -/
theorem Reader.readVarint_written (h : r.Within b) {v : UInt64} {suffix : List UInt8}
    (hrest : r.rest b = appendVarint v.toNat ++ suffix) :
    ∃ r', r.readVarint b = some (some v, r') ∧ r'.rest b = suffix := by
  obtain ⟨w, r', hrun, -, hw, hrest'⟩ := readVarint_refines h
  rw [hrest, readVarint_append v.toNat_lt] at hw hrest'
  obtain ⟨u, rfl, hu⟩ := Option.map_eq_some_iff.mp hw
  obtain rfl := UInt64.toNat_inj.mp hu
  exact ⟨r', hrun, hrest'⟩

/-- Every other encoding is taken or refused by its length and its value. -/
theorem Reader.readVarint_encoded (h : r.Within b) {e : VarintEncoding} {suffix : List UInt8}
    (hrest : r.rest b = e.bytes ++ suffix) :
    (e.Accepted →
        ∃ v r', r.readVarint b = some (some v, r') ∧ v.toNat = e.value ∧ r'.rest b = suffix) ∧
      (¬ e.Accepted → ∃ r', r.readVarint b = some (none, r')) := by
  obtain ⟨w, r', hrun, -, hw, hrest'⟩ := readVarint_refines h
  obtain ⟨htaken, hrefused⟩ := readVarint_encoding e suffix
  rw [hrest] at hw hrest'
  constructor
  · intro hacc
    rw [htaken hacc] at hw hrest'
    obtain ⟨v, rfl, hv⟩ := Option.map_eq_some_iff.mp hw
    exact ⟨v, r', hrun, hv, hrest'⟩
  · intro hacc
    rw [hrefused hacc, Option.map_eq_none_iff] at hw
    exact ⟨r', by rw [hrun, hw]⟩

end Varints

/-- Decoding any bytes is safe. After any calls on any readers, every next call is defined, so that
it reads inside the buffer only, keeps every cursor inside it, and takes at least a byte where it
reads a tag; no run reads more tags than there are bytes, and every field loop ends, `parseFields`
with any handler included. A varint that was written is read back with what follows it left
untouched, and an encoding is refused exactly when it has more than ten bytes or a value of more
than 64 bits. -/
theorem decoding_safe {σ α : Type} (b : Buffer) (calls : List (ℕ × Op)) (i : ℕ) (badTag : σ → α)
    (body : Tag → σ → Program (Except α σ)) (handler : Tag → σ → Program (Bool × σ)) (s : σ) :
    (∃ answers pool, runCalls b calls (Pool.start b) = some (answers, pool) ∧
      (∀ k, (pool k).Within b) ∧ (answers.map Answer.tags).sum ≤ b.bytes.length ∧
      (∀ k op, ∃ a pool', op.run b pool k = some (a, pool') ∧ Step b pool k op a pool') ∧
      (∃ result pool', (∀ k, (pool' k).Within b) ∧ ∀ n, b.bytes.length < n →
        (whileFields i badTag body n s).run b pool = some (some result, pool')) ∧
      ∃ result pool', (∀ k, (pool' k).Within b) ∧ ∀ n, b.bytes.length < n →
        (parseFields i handler n s).run b pool = some (some result, pool')) ∧
    ∀ r : Reader, r.Within b →
      (∀ (v : UInt64) (suffix : List UInt8), r.rest b = appendVarint v.toNat ++ suffix →
        ∃ r', r.readVarint b = some (some v, r') ∧ r'.rest b = suffix) ∧
      ∀ (e : VarintEncoding) (suffix : List UInt8), r.rest b = e.bytes ++ suffix →
        (e.Accepted →
          ∃ v r', r.readVarint b = some (some v, r') ∧ v.toNat = e.value ∧ r'.rest b = suffix) ∧
        (¬ e.Accepted → ∃ r', r.readVarint b = some (none, r')) := by
  refine ⟨?_, fun r hr ↦ ⟨fun v suffix h ↦ Reader.readVarint_written hr h,
    fun e suffix h ↦ Reader.readVarint_encoded hr h⟩⟩
  have hm := Pool.sumLe_start b
  obtain ⟨answers, pool, hrun, hw, htags, hm'⟩ := runCalls_spec (Pool.within_start b) hm calls
  have hsum := hm'.mono (Nat.sub_le _ _)
  refine ⟨answers, pool, hrun, hw, htags, fun k op ↦ ?_, whileFields_spec i badTag body hw hsum s,
    parseFields_spec i handler hw hsum s⟩
  obtain ⟨a, pool', hcall, hstep, -⟩ := op.run_step hw k
  exact ⟨a, pool', hcall, hstep⟩

end Raw

end PlotJuggler
