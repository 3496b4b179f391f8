import Mathlib.Data.Nat.Bitwise
import PlotJugglerCore.Wire.Basic

/-!
# The reader in memory

`Wire/Basic.lean` represents a reader by the bytes still ahead of it, which leaves nothing to go
wrong: a list has no outside. The class itself holds two pointers, compares lengths taken from the
wire with their difference, and moves one of them. This file embeds it as it is, on 64-bit
addresses with the arithmetic that wraps.

A read outside the buffer, or a shift by 64 bits or more, has no defined result, so every operation
lives in `Option`: `none` is undefined behaviour. Inside it, `none` is the operation's
`return false`. The two are never confused by the proofs, whose statements all say `some`.

## Refinement

A reader within its buffer is the list of the bytes between its pointers, and every operation on
the pointers is the operation of `Wire/Basic.lean` on that list. `Refines` states this together
with where the cursor may go: forwards, and no further than the end.
-/

namespace PlotJuggler

/-! ## Memory -/

/-- The bytes a decoder is handed, and where they lie. A null pointer comes with no bytes. -/
structure Buffer where
  data : UInt64
  bytes : List UInt8
  null : data = 0 → bytes = []
  fits : data.toNat + bytes.length < 2 ^ 64

namespace Buffer

/-- `*p`. Nothing is known of the memory outside the buffer. -/
def load (b : Buffer) (p : UInt64) : Option UInt8 :=
  if b.data ≤ p then b.bytes[(p - b.data).toNat]? else none

/-- `size` bytes from `p` on, one by one. -/
def loadBytes (b : Buffer) (p : UInt64) : ℕ → Option (List UInt8)
  | 0 => some []
  | n + 1 => (b.load p).bind fun byte ↦ (b.loadBytes (p + 1) n).map (byte :: ·)

/-- `out |= p[i] << (8 * i)` for `n` bytes. Each byte has its own place, so nothing overflows. -/
def loadFixed (b : Buffer) (p : UInt64) : ℕ → ℕ → ℕ → Option ℕ
  | 0, _, out => some out
  | n + 1, i, out =>
    (b.load (p + UInt64.ofNat i)).bind fun byte ↦
      b.loadFixed p n (i + 1) (out ||| byte.toNat <<< (8 * i))

end Buffer

/-- `x << shift`. A shift by the width of the type or more is undefined. -/
def shiftLeft (x : UInt64) (shift : ℕ) : Option UInt64 :=
  if shift < 64 then some (x <<< UInt64.ofNat shift) else none

namespace Raw

/-! ## The class -/

structure Reader where
  p_ : UInt64 := 0
  end_ : UInt64 := 0
  deriving DecidableEq, Repr

namespace Reader

/-- `Reader(data, size)`. -/
def ofData (data size : UInt64) : Reader where
  p_ := data
  end_ := if data = 0 then 0 else data + size

def eof (r : Reader) : Bool := decide (r.p_ = 0) || decide (r.end_ ≤ r.p_)

def remaining (r : Reader) : UInt64 := if r.p_ = 0 then 0 else r.end_ - r.p_

/-- The loop of `readVarint`: `n` bytes may still be read, the next payload goes to bit `shift`. -/
def readVarintLoop (b : Buffer) : ℕ → ℕ → UInt64 → Reader → Option (Option UInt64 × Reader)
  | 0, _, _, r => some (none, r)
  | n + 1, shift, out, r =>
    if r.p_ < r.end_ then
      (b.load r.p_).bind fun byte ↦
        let r : Reader := { r with p_ := r.p_ + 1 }
        let payload := (byte &&& 0x7F).toUInt64
        if shift = 63 ∧ 1 < payload then some (none, r)
        else (shiftLeft payload shift).bind fun bits ↦
          if byte &&& 0x80 = 0 then some (some (out ||| bits), r)
          else readVarintLoop b n (shift + 7) (out ||| bits) r
    else some (none, r)

def readVarint (b : Buffer) (r : Reader) : Option (Option UInt64 × Reader) :=
  if r.p_ = 0 then some (none, r) else readVarintLoop b 10 0 0 r

def readTag (b : Buffer) (r : Reader) : Option (Option Tag × Reader) :=
  (r.readVarint b).bind fun
    | (none, r) => some (none, r)
    | (some raw, r) =>
      if raw = 0 then some (none, r)
      else
        let field : UInt32 := (raw >>> 3).toUInt32
        if field = 0 then some (none, r)
        else some (some ⟨field.toNat, WireType.ofCode (raw &&& 7).toNat⟩, r)

def readFixed64 (b : Buffer) (r : Reader) : Option (Option UInt64 × Reader) :=
  if r.remaining < 8 then some (none, r)
  else (b.loadFixed r.p_ 8 0 0).map fun v ↦ (some (UInt64.ofNat v), { r with p_ := r.p_ + 8 })

def readFixed32 (b : Buffer) (r : Reader) : Option (Option UInt32 × Reader) :=
  if r.remaining < 4 then some (none, r)
  else (b.loadFixed r.p_ 4 0 0).map fun v ↦ (some (UInt32.ofNat v), { r with p_ := r.p_ + 4 })

/-- Doubles travel as their bit patterns. -/
def readDouble (b : Buffer) (r : Reader) : Option (Option UInt64 × Reader) := r.readFixed64 b

def readFloat (b : Buffer) (r : Reader) : Option (Option UInt32 × Reader) := r.readFixed32 b

/-- The view is an address and a size. -/
def readBytes (b : Buffer) (r : Reader) : Option (Option (UInt64 × UInt64) × Reader) :=
  (r.readVarint b).bind fun
    | (none, r) => some (none, r)
    | (some len, r) =>
      if r.remaining < len then some (none, r)
      else some (some (r.p_, len), { r with p_ := r.p_ + len })

/-- An operation that reads a view and then makes something of it, or refuses. Either way the cursor
stands behind the view. -/
def delimited {α : Type} (b : Buffer) (interpret : UInt64 → UInt64 → Option (Option α))
    (r : Reader) : Option (Option α × Reader) :=
  (r.readBytes b).bind fun
    | (none, r) => some (none, r)
    | (some (data, size), r) => (interpret data size).map fun v ↦ (v, r)

/-- The bytes of the view are copied. -/
def readString (b : Buffer) (r : Reader) : Option (Option (List UInt8) × Reader) :=
  delimited b (fun data size ↦ (b.loadBytes data size.toNat).map some) r

def readMessage (b : Buffer) (r : Reader) : Option (Option Reader × Reader) :=
  delimited b (fun data size ↦ some (some (ofData data size))) r

def skipBytes (size : UInt64) (r : Reader) : Option Unit × Reader :=
  if r.remaining < size then (none, r) else (some (), { r with p_ := r.p_ + size })

def skip (b : Buffer) (type : WireType) (r : Reader) : Option (Option Unit × Reader) :=
  match type with
  | .varint => (r.readVarint b).map fun x ↦ (x.1.map fun _ ↦ (), x.2)
  | .fixed64 => some (skipBytes 8 r)
  | .lengthDelimited => (r.readBytes b).map fun x ↦ (x.1.map fun _ ↦ (), x.2)
  | .fixed32 => some (skipBytes 4 r)
  | .invalid => some (none, r)

/-! ## Where a reader stands -/

/-- A null reader, or two pointers into the buffer in order. -/
def Within (b : Buffer) (r : Reader) : Prop :=
  (r.p_ = 0 ∧ r.end_ = 0) ∨
    (b.data ≠ 0 ∧ b.data ≤ r.p_ ∧ r.p_ ≤ r.end_ ∧
      r.end_.toNat ≤ b.data.toNat + b.bytes.length)

/-- The bytes between the two pointers. -/
def rest (b : Buffer) (r : Reader) : List UInt8 :=
  (b.bytes.drop (r.p_.toNat - b.data.toNat)).take (r.end_.toNat - r.p_.toNat)

/-- The cursor has gone forwards and not past the end, which has stayed where it was. -/
structure Moves (b : Buffer) (r r' : Reader) : Prop where
  within : r'.Within b
  end_eq : r'.end_ = r.end_
  le : r.p_ ≤ r'.p_

theorem Moves.trans {b : Buffer} {r₁ r₂ r₃ : Reader} (h₁ : Moves b r₁ r₂) (h₂ : Moves b r₂ r₃) :
    Moves b r₁ r₃ :=
  ⟨h₂.within, h₂.end_eq.trans h₁.end_eq, UInt64.le_trans h₁.le h₂.le⟩

section Within

variable {b : Buffer} {r : Reader}

theorem Within.refl (h : r.Within b) : Moves b r r := ⟨h, rfl, UInt64.le_refl _⟩

theorem within_null : Within b {} := .inl ⟨rfl, rfl⟩

/-- A null pointer makes a null reader, whatever the size that comes with it. -/
theorem ofData_null (size : UInt64) : ofData 0 size = {} := rfl

private theorem ne_null (hdata : b.data ≠ 0) (hge : b.data ≤ r.p_) : r.p_ ≠ 0 := by
  intro hp
  rw [hp] at hge
  exact hdata (UInt64.le_zero_iff.mp hge)

/-- The two pointers as numbers. -/
theorem Within.toNat_le (h : r.Within b) : r.p_.toNat ≤ r.end_.toNat := by
  rcases h with ⟨hp, hend⟩ | ⟨-, -, hle, -⟩
  · rw [hp, hend]
  · exact UInt64.le_iff_toNat_le.mp hle

theorem Within.toNat_remaining (h : r.Within b) :
    r.remaining.toNat = r.end_.toNat - r.p_.toNat := by
  rcases h with ⟨hp, hend⟩ | ⟨hdata, hge, hle, -⟩
  · rw [remaining, if_pos hp, hp, hend]
    rfl
  · rw [remaining, if_neg (ne_null hdata hge), UInt64.toNat_sub_of_le _ _ hle]

theorem Within.length_rest (h : r.Within b) : (r.rest b).length = r.remaining.toNat := by
  rw [h.toNat_remaining, rest, List.length_take, List.length_drop]
  have hfits := h
  rcases h with ⟨hp, hend⟩ | ⟨-, hge, hle, hend⟩
  · rw [hp, hend]
    rfl
  · have hge' := UInt64.le_iff_toNat_le.mp hge
    have hle' := UInt64.le_iff_toNat_le.mp hle
    omega

/-- `eof` asks whether bytes are left. -/
theorem Within.eof_iff (h : r.Within b) : r.eof = true ↔ r.rest b = [] := by
  rw [← List.length_eq_zero_iff, h.length_rest, h.toNat_remaining, eof, Bool.or_eq_true,
    decide_eq_true_eq, decide_eq_true_eq, UInt64.le_iff_toNat_le]
  have hle := h.toNat_le
  rcases h with ⟨hp, hend⟩ | ⟨hdata, hge, -, -⟩
  · simp [hp, hend]
  · simp only [ne_null hdata hge, false_or]
    omega

/-- The byte at an offset that lies ahead. -/
theorem Within.load (h : r.Within b) {i : ℕ} (hi : i < (r.rest b).length) :
    b.load (r.p_ + UInt64.ofNat i) = (r.rest b)[i]? := by
  have hrem := h.length_rest
  rw [h.toNat_remaining] at hrem
  rcases h with ⟨hp, hend⟩ | ⟨-, hge, hle, hend⟩
  · rw [hrem, hp, hend] at hi
    exact absurd hi (Nat.not_lt_zero i)
  · have hfits := b.fits
    have hge' := UInt64.le_iff_toNat_le.mp hge
    have hadd : (r.p_ + UInt64.ofNat i).toNat = r.p_.toNat + i := by
      rw [UInt64.toNat_add, UInt64.toNat_ofNat']
      omega
    have hle' : b.data ≤ r.p_ + UInt64.ofNat i := by
      rw [UInt64.le_iff_toNat_le, hadd]
      omega
    have hat : (r.rest b)[i]? = b.bytes[r.p_.toNat - b.data.toNat + i]? := by
      rw [rest, List.getElem?_take_of_lt (by omega), List.getElem?_drop]
    rw [Buffer.load, if_pos hle', UInt64.toNat_sub_of_le _ _ hle', hadd, hat]
    congr 1
    omega

/-- Moving over bytes that are there. -/
theorem Within.advance (h : r.Within b) {n : UInt64} (hn : n ≤ r.remaining) :
    Moves b r { r with p_ := r.p_ + n } ∧
      rest b { r with p_ := r.p_ + n } = (r.rest b).drop n.toNat := by
  have hn' := UInt64.le_iff_toNat_le.mp hn
  rw [h.toNat_remaining] at hn'
  have hle := h.toNat_le
  have hend : r.end_.toNat < 2 ^ 64 := r.end_.toNat_lt
  have hadd : (r.p_ + n).toNat = r.p_.toNat + n.toNat := by
    rw [UInt64.toNat_add]
    omega
  have hmove : r.p_ ≤ r.p_ + n := by
    rw [UInt64.le_iff_toNat_le, hadd]
    omega
  constructor
  · refine ⟨?_, rfl, hmove⟩
    rcases h with ⟨hp, hnull⟩ | ⟨hdata, hge, -, hfit⟩
    · -- a null reader has nothing to move over
      have hn0 : n = 0 := by
        rw [hnull] at hn'
        exact UInt64.toNat_inj.mp (by simpa using hn')
      exact .inl ⟨by rw [hp, hn0]; rfl, hnull⟩
    · refine .inr ⟨hdata, UInt64.le_trans hge hmove, ?_, hfit⟩
      rw [UInt64.le_iff_toNat_le]
      change (r.p_ + n).toNat ≤ r.end_.toNat
      omega
  · rw [rest, rest, List.drop_take, List.drop_drop]
    simp only [hadd]
    rcases h with ⟨hp, hnull⟩ | ⟨-, hge, -, -⟩
    · simp [hp, hnull]
    · have hge' := UInt64.le_iff_toNat_le.mp hge
      rw [Nat.sub_add_eq, Nat.sub_add_comm hge']

/-- Behind one byte that is ahead. -/
theorem Within.next (h : r.Within b) {byte : UInt8} {tail : List UInt8}
    (hrest : r.rest b = byte :: tail) :
    b.load r.p_ = some byte ∧ Moves b r { r with p_ := r.p_ + 1 } ∧
      rest b { r with p_ := r.p_ + 1 } = tail := by
  have hlen := h.length_rest
  have hpos : 0 < (r.rest b).length := by
    rw [hrest]
    exact Nat.zero_lt_succ _
  have hone : (1 : UInt64) ≤ r.remaining := by
    rw [UInt64.le_iff_toNat_le, ← hlen]
    exact hpos
  obtain ⟨hmoves, hdrop⟩ := h.advance hone
  refine ⟨?_, hmoves, ?_⟩
  · have hload := h.load hpos
    have hp : r.p_ + UInt64.ofNat 0 = r.p_ := UInt64.add_zero r.p_
    rw [hp, hrest] at hload
    exact hload
  · rw [hdrop, hrest]
    rfl

/-- Bytes are ahead when the cursor has not met the end. -/
theorem Within.rest_ne_nil_iff (h : r.Within b) : r.rest b ≠ [] ↔ r.p_ < r.end_ := by
  rw [← List.length_pos_iff, h.length_rest, h.toNat_remaining, UInt64.lt_iff_toNat_lt]
  omega

end Within

/-! ## The operations on the bytes ahead -/

/-- An operation on the pointers does to the bytes ahead what `y` says, and is defined. -/
def Refines {α β : Type} (b : Buffer) (r : Reader) (f : α → β) (x : Option (Option α × Reader))
    (y : Option β × List UInt8) : Prop :=
  ∃ v r', x = some (v, r') ∧ Moves b r r' ∧ v.map f = y.1 ∧ r'.rest b = y.2

section Refines

variable {α β γ δ : Type} {b : Buffer} {r : Reader}

/-- An operation that goes on where another one has left the cursor. -/
theorem Refines.bind {f : α → β} {g : γ → δ} {x : Option (Option α × Reader)}
    {y : Option β × List UInt8} {k : Option α × Reader → Option (Option γ × Reader)}
    {z : Option δ × List UInt8} (h : Refines b r f x y)
    (hk : ∀ v r', r'.Within b → v.map f = y.1 → r'.rest b = y.2 → Refines b r' g (k (v, r')) z) :
    Refines b r g (x.bind k) z := by
  obtain ⟨v, r₁, rfl, hmoves, hv, hrest⟩ := h
  obtain ⟨w, r₂, hw, hmoves₂, hz, hrest₂⟩ := hk v r₁ hmoves.within hv hrest
  exact ⟨w, r₂, hw, hmoves.trans hmoves₂, hz, hrest₂⟩

/-- A failure leaves the cursor where it stands. -/
theorem Refines.fail (h : r.Within b) {f : α → β} {rest' : List UInt8} (hrest : r.rest b = rest') :
    Refines b r f (some (none, r)) (none, rest') :=
  ⟨none, r, rfl, h.refl, rfl, hrest⟩

private theorem toNat_payload (byte : UInt8) :
    ((byte &&& 0x7F).toUInt64).toNat = byte.toNat % 0x80 := by
  rw [UInt8.toNat_toUInt64, UInt8.toNat_and]
  exact Nat.and_two_pow_sub_one_eq_mod byte.toNat 7

private theorem continuation_eq_zero_iff (byte : UInt8) :
    byte &&& 0x80 = 0 ↔ byte.toNat < 0x80 := by
  have hlt : byte.toNat < 256 := byte.toNat_lt
  rw [← UInt8.toNat_inj, UInt8.toNat_and]
  change byte.toNat &&& 2 ^ 7 = 0 ↔ _
  rw [Nat.and_two_pow, Nat.testBit_eq_decide_div_mod_eq]
  by_cases hbit : byte.toNat < 0x80
  · have hdiv : byte.toNat / 2 ^ 7 % 2 = 0 := by omega
    exact iff_of_true (by rw [hdiv]; rfl) hbit
  · have hdiv : byte.toNat / 2 ^ 7 % 2 = 1 := by omega
    exact iff_of_false (by rw [hdiv]; decide) hbit

/-- No bit of a payload is lost where the loop lets it through. -/
private theorem shiftLeft_payload {n shift p : ℕ} (hshift : shift + 7 * (n + 1) = 70)
    {payload : UInt64} (hp : payload.toNat = p) (hlt : p < 0x80) (htop : ¬ (shift = 63 ∧ 1 < p)) :
    ∃ bits, shiftLeft payload shift = some bits ∧ bits.toNat = p <<< shift := by
  refine ⟨payload <<< UInt64.ofNat shift, if_pos (by omega), ?_⟩
  have hroom : p * 2 ^ shift < 2 ^ 64 := by
    by_cases hs : shift = 63
    · subst hs
      omega
    · have hpos : 0 < 2 ^ shift := Nat.two_pow_pos shift
      calc p * 2 ^ shift < 2 ^ 7 * 2 ^ shift := Nat.mul_lt_mul_of_pos_right hlt hpos
        _ = 2 ^ (7 + shift) := (pow_add 2 7 shift).symm
        _ ≤ 2 ^ 64 := Nat.pow_le_pow_right (by decide) (by omega)
  rw [UInt64.toNat_shiftLeft, UInt64.toNat_ofNat', hp, Nat.mod_eq_of_lt (by omega : shift < 2 ^ 64),
    Nat.mod_eq_of_lt (by omega : shift < 64), Nat.shiftLeft_eq, Nat.mod_eq_of_lt hroom]

theorem readVarintLoop_refines {n shift : ℕ} (hshift : shift + 7 * n = 70) (out : UInt64)
    (h : r.Within b) :
    Refines b r UInt64.toNat (readVarintLoop b n shift out r)
      (readVarintFrom n shift out.toNat (r.rest b)) := by
  induction n generalizing shift out r with
  | zero => exact Refines.fail h rfl
  | succ n ih =>
    rw [readVarintLoop]
    cases hrest : r.rest b with
    | nil =>
      rw [if_neg fun hlt ↦ h.rest_ne_nil_iff.mpr hlt hrest]
      exact Refines.fail h hrest
    | cons byte tail =>
      have hlt : r.p_ < r.end_ := h.rest_ne_nil_iff.mp (by rw [hrest]; exact List.cons_ne_nil _ _)
      obtain ⟨hload, hmoves, htail⟩ := h.next hrest
      have hpay := toNat_payload byte
      have hone : 1 < (byte &&& 0x7F).toUInt64 ↔ 1 < byte.toNat % 0x80 := by
        rw [UInt64.lt_iff_toNat_lt, hpay]
        rfl
      rw [if_pos hlt, hload, Option.bind_some, readVarintFrom]
      simp only [hone, continuation_eq_zero_iff]
      split_ifs with htop hend
      · exact ⟨none, _, rfl, hmoves, rfl, htail⟩
      · obtain ⟨bits, hbits, hval⟩ :=
          shiftLeft_payload hshift hpay (Nat.mod_lt _ (by decide)) htop
        rw [hbits]
        refine ⟨some (out ||| bits), _, rfl, hmoves, ?_, htail⟩
        rw [Option.map_some, UInt64.toNat_or, hval]
      · obtain ⟨bits, hbits, hval⟩ :=
          shiftLeft_payload hshift hpay (Nat.mod_lt _ (by decide)) htop
        rw [hbits, Option.bind_some]
        have hshift' : shift + 7 + 7 * n = 70 := by omega
        obtain ⟨v, r', hrun, hmoves', hv, hrest'⟩ := ih hshift' (out ||| bits) hmoves.within
        rw [htail, UInt64.toNat_or, hval] at hv hrest'
        exact ⟨v, r', hrun, hmoves.trans hmoves', hv, hrest'⟩

theorem readVarint_refines (h : r.Within b) :
    Refines b r UInt64.toNat (r.readVarint b) (PlotJuggler.readVarint (r.rest b)) := by
  rw [readVarint, PlotJuggler.readVarint]
  split_ifs with hp
  · have hrest : r.rest b = [] := h.eof_iff.mp (by rw [eof, hp]; rfl)
    rw [hrest]
    exact Refines.fail h hrest
  · exact readVarintLoop_refines (by decide) 0 h

private theorem toNat_shiftRight_three (raw : UInt64) : (raw >>> 3).toNat = raw.toNat / 8 := by
  rw [UInt64.toNat_shiftRight]
  exact Nat.shiftRight_eq_div_pow raw.toNat 3

private theorem toNat_and_seven (raw : UInt64) : (raw &&& 7).toNat = raw.toNat % 8 := by
  rw [UInt64.toNat_and]
  exact Nat.and_two_pow_sub_one_eq_mod raw.toNat 3

theorem readTag_refines (h : r.Within b) :
    Refines b r id (r.readTag b) (PlotJuggler.readTag (r.rest b)) := by
  rw [readTag, PlotJuggler.readTag]
  refine (readVarint_refines h).bind fun v r₁ h₁ hv hrest ↦ ?_
  rcases hread : PlotJuggler.readVarint (r.rest b) with ⟨raw, rest₁⟩
  rw [hread] at hv hrest
  cases v with
  | none =>
    obtain rfl : raw = none := hv.symm
    exact Refines.fail h₁ hrest
  | some raw =>
    obtain rfl := hv
    have hfield : (raw >>> 3).toUInt32.toNat = raw.toNat / 8 % 2 ^ 32 := by
      rw [UInt64.toNat_toUInt32, toNat_shiftRight_three]
    have hraw : raw = 0 ↔ raw.toNat = 0 := UInt64.toNat_inj.symm
    have hzero : (raw >>> 3).toUInt32 = 0 ↔ raw.toNat / 8 % 2 ^ 32 = 0 := by
      rw [← hfield]
      exact UInt32.toNat_inj.symm
    simp only [Option.map_some, hraw, hzero, hfield, toNat_and_seven]
    by_cases h₀ : raw.toNat = 0
    · rw [if_pos h₀, if_pos (.inl h₀)]
      exact Refines.fail h₁ hrest
    · by_cases hf : raw.toNat / 8 % 2 ^ 32 = 0
      · rw [if_neg h₀, if_pos hf, if_pos (.inr hf)]
        exact Refines.fail h₁ hrest
      · rw [if_neg h₀, if_neg hf, if_neg fun hor ↦ hor.elim h₀ hf]
        exact ⟨_, r₁, rfl, h₁.refl, rfl, hrest⟩

/-- The loop over fixed-width bytes spells the number they stand for. -/
theorem Within.loadFixed (h : r.Within b) {n i : ℕ} (hn : i + n ≤ (r.rest b).length) (out : ℕ) :
    b.loadFixed r.p_ n i out =
      some (out ||| LittleEndian.value (((r.rest b).drop i).take n) <<< (8 * i)) := by
  induction n generalizing i out with
  | zero => rw [List.take_zero, LittleEndian.value_nil, Nat.zero_shiftLeft, Nat.or_zero]; rfl
  | succ n ih =>
    have hi : i < (r.rest b).length := by omega
    have hdrop := List.drop_eq_getElem_cons hi
    have hbyte : (r.rest b)[i].toNat < 2 ^ 8 := UInt8.toNat_lt _
    have hdigit := LittleEndian.or_shiftLeft_digit hbyte out
      (LittleEndian.value (((r.rest b).drop (i + 1)).take n)) (8 * i)
    rw [Buffer.loadFixed, h.load hi, List.getElem?_eq_getElem hi, Option.bind_some,
      ih (by omega), Nat.mul_succ, hdigit, hdrop, List.take_succ_cons, LittleEndian.value]
    rfl

/-- The common part of `readFixed64` and `readFixed32`. -/
private theorem readFixed_refines {n : UInt64} (h : r.Within b) (ofNat : ℕ → α) :
    Refines b r id
      (if r.remaining < n then some (none, r)
        else (b.loadFixed r.p_ n.toNat 0 0).map fun v ↦
          (some (ofNat v), { r with p_ := r.p_ + n }))
      (if (r.rest b).length < n.toNat then (none, r.rest b)
        else (some (ofNat (LittleEndian.value ((r.rest b).take n.toNat))),
          (r.rest b).drop n.toNat)) := by
  have hlt : r.remaining < n ↔ (r.rest b).length < n.toNat := by
    rw [UInt64.lt_iff_toNat_lt, h.length_rest]
  by_cases hshort : (r.rest b).length < n.toNat
  · rw [if_pos (hlt.mpr hshort), if_pos hshort]
    exact Refines.fail h rfl
  · have hle : n ≤ r.remaining := by
      rw [UInt64.le_iff_toNat_le, ← h.length_rest]
      omega
    obtain ⟨hmoves, hdrop⟩ := h.advance hle
    rw [if_neg fun hr ↦ hshort (hlt.mp hr), if_neg hshort, h.loadFixed (by omega)]
    refine ⟨_, _, rfl, hmoves, ?_, hdrop⟩
    rw [Nat.zero_or, Nat.mul_zero, Nat.shiftLeft_zero, List.drop_zero]
    rfl

theorem readFixed64_refines (h : r.Within b) :
    Refines b r id (r.readFixed64 b) (PlotJuggler.readFixed64 (r.rest b)) :=
  readFixed_refines (n := 8) h UInt64.ofNat

theorem readFixed32_refines (h : r.Within b) :
    Refines b r id (r.readFixed32 b) (PlotJuggler.readFixed32 (r.rest b)) :=
  readFixed_refines (n := 4) h UInt32.ofNat

/-! ## Views and nested readers -/

/-- The nested reader `sub` covers what an operation has consumed of `r` last: it begins behind
the cursor and ends where the cursor stands now. -/
structure Covers (b : Buffer) (r sub r' : Reader) : Prop where
  within : sub.Within b
  lt : r.p_ < sub.p_
  end_eq : sub.end_ = r'.p_

/-- What was read from a reader has moved its cursor. -/
theorem Moves.lt {r' : Reader} (hmoves : Moves b r r') (h : r.Within b)
    (hlen : (r'.rest b).length < (r.rest b).length) : r.p_ < r'.p_ := by
  rw [hmoves.within.length_rest, h.length_rest, hmoves.within.toNat_remaining,
    h.toNat_remaining, hmoves.end_eq] at hlen
  rw [UInt64.lt_iff_toNat_lt]
  omega

/-- A reader over the first bytes that are ahead of another. -/
theorem Within.ofData (h : r.Within b) (hp : r.p_ ≠ 0) {n : UInt64} (hn : n ≤ r.remaining) :
    (ofData r.p_ n).Within b ∧ (ofData r.p_ n).end_ = r.p_ + n ∧
      rest b (ofData r.p_ n) = (r.rest b).take n.toNat := by
  have hn' := UInt64.le_iff_toNat_le.mp hn
  rw [h.toNat_remaining] at hn'
  have hle := h.toNat_le
  have hend : r.end_.toNat < 2 ^ 64 := r.end_.toNat_lt
  have hadd : (r.p_ + n).toNat = r.p_.toNat + n.toNat := by
    rw [UInt64.toNat_add]
    omega
  have hsub : Reader.ofData r.p_ n = ⟨r.p_, r.p_ + n⟩ := by
    rw [Reader.ofData, if_neg hp]
  rw [hsub]
  refine ⟨?_, rfl, ?_⟩
  · rcases h with ⟨hnull, -⟩ | ⟨hdata, hge, -, hfit⟩
    · exact absurd hnull hp
    · refine .inr ⟨hdata, hge, ?_, ?_⟩
      · change r.p_ ≤ r.p_ + n
        rw [UInt64.le_iff_toNat_le]
        omega
      · change (r.p_ + n).toNat ≤ _
        omega
  · rw [rest, rest, List.take_take]
    simp only [hadd]
    congr 1
    omega

/-- Bytes that are ahead can be copied. -/
theorem Within.loadBytes (h : r.Within b) {n : ℕ} (hn : n ≤ (r.rest b).length) :
    b.loadBytes r.p_ n = some ((r.rest b).take n) := by
  induction n generalizing r with
  | zero => rfl
  | succ n ih =>
    cases hrest : r.rest b with
    | nil =>
      rw [hrest] at hn
      exact absurd hn (Nat.not_succ_le_zero n)
    | cons byte tail =>
      obtain ⟨hload, hmoves, htail⟩ := h.next hrest
      have hcopy := ih hmoves.within (by rw [htail]; simpa [hrest] using hn)
      rw [htail] at hcopy
      rw [Buffer.loadBytes, hload, Option.bind_some, hcopy]
      rfl

/-- `readBytes` consumes the length in front of its view and the view itself. -/
theorem readBytes_spec (h : r.Within b) :
    ∃ v r', r.readBytes b = some (v, r') ∧ Moves b r r' ∧
      v.map (fun view ↦ rest b (Reader.ofData view.1 view.2)) =
        (PlotJuggler.readBytes (r.rest b)).1 ∧
      r'.rest b = (PlotJuggler.readBytes (r.rest b)).2 ∧
      ∀ view, v = some view → Covers b r (Reader.ofData view.1 view.2) r' ∧
        (rest b (Reader.ofData view.1 view.2)).length = view.2.toNat := by
  obtain ⟨v, r₁, hread, hmoves, hv, hrest⟩ := readVarint_refines h
  rw [readBytes, hread, Option.bind_some, PlotJuggler.readBytes]
  rcases hlist : PlotJuggler.readVarint (r.rest b) with ⟨len, rest₁⟩
  rw [hlist] at hv hrest
  cases v with
  | none =>
    obtain rfl : len = none := hv.symm
    exact ⟨none, r₁, rfl, hmoves, rfl, hrest, fun view hview ↦ by simp at hview⟩
  | some len =>
    obtain rfl := hv
    replace hrest : r₁.rest b = rest₁ := hrest
    have hlt : r.p_ < r₁.p_ := by
      apply hmoves.lt h
      rw [hrest]
      exact readVarint_length_lt hlist
    have hp : r₁.p_ ≠ 0 := by
      intro hp
      rw [hp] at hlt
      exact UInt64.not_lt_zero hlt
    have hiff : r₁.remaining < len ↔ rest₁.length < len.toNat := by
      rw [UInt64.lt_iff_toNat_lt, ← hrest, hmoves.within.length_rest]
    simp only [Option.map_some]
    by_cases hshort : rest₁.length < len.toNat
    · rw [if_pos (hiff.mpr hshort), if_pos hshort]
      exact ⟨none, r₁, rfl, hmoves, rfl, hrest, fun view hview ↦ by simp at hview⟩
    · have hle : len ≤ r₁.remaining := UInt64.not_lt.mp fun hr ↦ hshort (hiff.mp hr)
      obtain ⟨hadv, hdrop⟩ := hmoves.within.advance hle
      obtain ⟨hsub, hend, htake⟩ := hmoves.within.ofData hp hle
      rw [if_neg fun hr ↦ hshort (hiff.mp hr), if_neg hshort]
      refine ⟨some (r₁.p_, len), _, rfl, hmoves.trans hadv, ?_, ?_, ?_⟩
      · rw [Option.map_some, htake, hrest]
      · rw [hdrop, hrest]
      · rintro view hview
        obtain rfl := Option.some.inj hview
        refine ⟨⟨hsub, hlt, hend⟩, ?_⟩
        rw [htake, List.length_take, hrest]
        exact min_eq_left (Nat.not_lt.mp hshort)

theorem readBytes_refines (h : r.Within b) :
    Refines b r (fun view ↦ rest b (Reader.ofData view.1 view.2)) (r.readBytes b)
      (PlotJuggler.readBytes (r.rest b)) := by
  obtain ⟨v, r₁, hread, hmoves, hv, hrest, -⟩ := readBytes_spec h
  exact ⟨v, r₁, hread, hmoves, hv, hrest⟩

/-- What an operation makes of a view, it makes of the bytes of the view. -/
theorem delimited_refines {interpret : UInt64 → UInt64 → Option (Option α)}
    {interpretList : List UInt8 → Option β} {f : α → β} (h : r.Within b)
    (hview : ∀ data size, (Reader.ofData data size).Within b →
      (rest b (Reader.ofData data size)).length = size.toNat →
      ∃ v, interpret data size = some v ∧
        v.map f = interpretList (rest b (Reader.ofData data size))) :
    Refines b r f (delimited b interpret r)
      ((PlotJuggler.readBytes (r.rest b)).1.bind interpretList,
        (PlotJuggler.readBytes (r.rest b)).2) := by
  obtain ⟨v, r₁, hread, hmoves, hv, hrest, hspec⟩ := readBytes_spec h
  rw [delimited, hread, Option.bind_some, ← hv]
  cases v with
  | none => exact ⟨none, r₁, rfl, hmoves, rfl, hrest⟩
  | some view =>
    obtain ⟨hcov, hlen⟩ := hspec view rfl
    obtain ⟨w, hw, hmap⟩ := hview view.1 view.2 hcov.within hlen
    refine ⟨w, r₁, ?_, hmoves, hmap, hrest⟩
    simp only [hw, Option.map_some]

/-- A view taken as it is. -/
private theorem readBytes_bind_some (l : List UInt8) :
    ((PlotJuggler.readBytes l).1.bind some, (PlotJuggler.readBytes l).2) =
      PlotJuggler.readBytes l := by
  rw [Option.bind_fun_some]

theorem readString_refines (h : r.Within b) :
    Refines b r id (r.readString b) (PlotJuggler.readString (r.rest b)) := by
  rw [PlotJuggler.readString, ← readBytes_bind_some]
  apply delimited_refines h
  intro data size hsub hlen
  have hcopy : b.loadBytes data size.toNat = some (rest b (Reader.ofData data size)) := by
    rw [← hlen]
    exact (hsub.loadBytes (le_refl _)).trans (congrArg some List.take_length)
  exact ⟨some (rest b (Reader.ofData data size)), by rw [hcopy, Option.map_some], rfl⟩

/-- The outcome of an operation whose value nobody looks at. -/
def outcome (y : Bool × List UInt8) : Option Unit × List UInt8 :=
  (if y.1 then some () else none, y.2)

/-- Reading a value and dropping it. -/
private theorem Refines.ignore {f : α → β} {x : Option (Option α × Reader)}
    {y : Option β × List UInt8} (h : Refines b r f x y) :
    Refines b r id (x.map fun x ↦ (x.1.map fun _ ↦ (), x.2)) (outcome (y.1.isSome, y.2)) := by
  obtain ⟨v, r₁, rfl, hmoves, hv, hrest⟩ := h
  refine ⟨v.map fun _ ↦ (), r₁, rfl, hmoves, ?_, hrest⟩
  rw [outcome, ← hv]
  cases v <;> rfl

private theorem skipBytes_refines {n : UInt64} (h : r.Within b) :
    Refines b r id (some (skipBytes n r))
      (outcome (PlotJuggler.skipBytes n.toNat (r.rest b))) := by
  have hlt : r.remaining < n ↔ (r.rest b).length < n.toNat := by
    rw [UInt64.lt_iff_toNat_lt, h.length_rest]
  rw [skipBytes, PlotJuggler.skipBytes]
  by_cases hshort : (r.rest b).length < n.toNat
  · rw [if_pos (hlt.mpr hshort), if_pos hshort]
    exact Refines.fail h rfl
  · obtain ⟨hmoves, hdrop⟩ := h.advance (UInt64.not_lt.mp fun hr ↦ hshort (hlt.mp hr))
    rw [if_neg fun hr ↦ hshort (hlt.mp hr), if_neg hshort]
    exact ⟨_, _, rfl, hmoves, rfl, hdrop⟩

theorem skip_refines (type : WireType) (h : r.Within b) :
    Refines b r id (r.skip b type) (outcome (PlotJuggler.skip type (r.rest b))) := by
  cases type with
  | varint => exact (readVarint_refines h).ignore
  | fixed64 => exact skipBytes_refines (n := 8) h
  | lengthDelimited => exact (readBytes_refines h).ignore
  | fixed32 => exact skipBytes_refines (n := 4) h
  | invalid => exact Refines.fail h rfl

end Refines

end Reader

end Raw

end PlotJuggler
