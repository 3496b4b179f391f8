import PlotJugglerCore.Wire.Basic

/-!
# Which varints are accepted

`readVarint` reads back what `appendVarint` writes, but a buffer comes from elsewhere and may hold
any encoding: one padded with empty groups, one of eleven bytes, one of ten bytes whose value has
more than 64 bits. Three limits decide, and they meet at the tenth byte: the count of bytes, the
check at shift 63, and the end of the buffer. `readVarint_encoding` says what they come to together:
an encoding is accepted exactly when it has at most ten bytes and its value fits.

The value is bounded by a power that shrinks by seven bits with every group, so the induction runs
over the continued bytes with the shift in step.
-/

namespace PlotJuggler

/-- A complete encoding: every byte but the last has the continuation bit. -/
structure VarintEncoding where
  continued : List UInt8
  last : UInt8
  continues : ∀ c ∈ continued, 0x80 ≤ c.toNat
  ends : last.toNat < 0x80

/-- The number that groups of seven bits spell, least significant group first. -/
def groupsValue : List UInt8 → ℕ
  | [] => 0
  | c :: cs => c.toNat % 0x80 + 0x80 * groupsValue cs

namespace VarintEncoding

variable (e : VarintEncoding)

def bytes : List UInt8 := e.continued ++ [e.last]

def value : ℕ := groupsValue e.bytes

/-- What `readVarint` asks of an encoding. -/
def Accepted : Prop := e.bytes.length ≤ 10 ∧ e.value < 2 ^ 64

instance : Decidable e.Accepted := inferInstanceAs (Decidable (_ ∧ _))

end VarintEncoding

/-- A group of seven bits in front of a number costs seven bits of room. -/
private theorem group_lt_iff {shift p v : ℕ} (hshift : shift + 7 < 64) (hp : p < 0x80) :
    p + 0x80 * v < 2 ^ (64 - shift) ↔ v < 2 ^ (64 - (shift + 7)) := by
  have hpow : 2 ^ (64 - shift) = 2 ^ (64 - (shift + 7)) * 0x80 := by
    rw [show (0x80 : ℕ) = 2 ^ 7 by rfl, ← pow_add]
    congr 1
    omega
  omega

/-- The loop over one encoding, from any position of the accumulator. With `n` bytes left to read
the shift is `70 - 7 n`, and what is still to come has `64 - shift` bits of room. -/
theorem readVarintFrom_encoding {n shift : ℕ} (hshift : shift + 7 * n = 70) {cs : List UInt8}
    (hcs : ∀ c ∈ cs, 0x80 ≤ c.toNat) {last : UInt8} (hlast : last.toNat < 0x80) (out : ℕ)
    (rest : Reader) :
    (cs.length < n ∧ groupsValue (cs ++ [last]) < 2 ^ (64 - shift) →
        readVarintFrom n shift out (cs ++ last :: rest) =
          (some (out ||| groupsValue (cs ++ [last]) <<< shift), rest)) ∧
      (¬ (cs.length < n ∧ groupsValue (cs ++ [last]) < 2 ^ (64 - shift)) →
        (readVarintFrom n shift out (cs ++ last :: rest)).1 = none) := by
  induction n generalizing shift cs out with
  | zero => exact ⟨fun h ↦ absurd h.1 (Nat.not_lt_zero _), fun _ ↦ rfl⟩
  | succ n ih =>
    cases cs with
    | nil =>
      have hvalue : groupsValue ([] ++ [last]) = last.toNat := by
        simp only [List.nil_append, groupsValue]
        omega
      rw [hvalue, List.nil_append, readVarintFrom, Nat.mod_eq_of_lt hlast, if_pos hlast]
      by_cases htop : shift = 63
      · -- the tenth byte: one bit is left
        subst htop
        simp only [List.length_nil, true_and, Nat.zero_lt_succ]
        refine ⟨fun h ↦ by rw [if_neg (by omega)], fun h ↦ by rw [if_pos (by omega)]⟩
      · have hseven : 2 ^ 7 ≤ 2 ^ (64 - shift) := Nat.pow_le_pow_right (by decide) (by omega)
        have hroom : last.toNat < 2 ^ (64 - shift) := hlast.trans_le hseven
        rw [if_neg fun h ↦ htop h.1]
        exact ⟨fun _ ↦ rfl, fun h ↦ absurd ⟨Nat.zero_lt_succ n, hroom⟩ h⟩
    | cons c cs =>
      have hc : 0x80 ≤ c.toNat := hcs c List.mem_cons_self
      have hcs' : ∀ d ∈ cs, 0x80 ≤ d.toNat := fun d hd ↦ hcs d (List.mem_cons_of_mem c hd)
      have hp : c.toNat % 0x80 < 0x80 := Nat.mod_lt _ (by decide)
      have hshift' : shift + 7 + 7 * n = 70 := by omega
      obtain ⟨hacc, hrej⟩ := ih hshift' hcs' (out ||| (c.toNat % 0x80) <<< shift)
      have hnext : readVarintFrom (n + 1) shift out (c :: (cs ++ last :: rest)) =
          if shift = 63 ∧ 1 < c.toNat % 0x80 then (none, cs ++ last :: rest)
          else readVarintFrom n (shift + 7) (out ||| (c.toNat % 0x80) <<< shift)
            (cs ++ last :: rest) := by
        rw [readVarintFrom, if_neg (Nat.not_lt.mpr hc)]
      rw [List.cons_append, List.cons_append, hnext, groupsValue, List.length_cons,
        Nat.add_lt_add_iff_right]
      by_cases htop : shift = 63
      · -- a tenth byte that continues leaves no round for the byte behind it
        have hn : n = 0 := by omega
        subst hn
        refine ⟨fun h ↦ absurd h.1 (Nat.not_lt_zero _), fun _ ↦ ?_⟩
        split_ifs
        · rfl
        · rfl
      · have hroom : shift + 7 < 64 := by omega
        have hiff := group_lt_iff (v := groupsValue (cs ++ [last])) hroom hp
        have hdigit : (out ||| (c.toNat % 0x80) <<< shift) |||
              groupsValue (cs ++ [last]) <<< (shift + 7) =
            out ||| (c.toNat % 0x80 + 0x80 * groupsValue (cs ++ [last])) <<< shift :=
          LittleEndian.or_shiftLeft_digit (w := 7) hp out _ shift
        rw [if_neg fun h ↦ htop h.1, hiff, ← hdigit]
        exact ⟨hacc, hrej⟩

/-- An encoding is accepted exactly when it has at most ten bytes and a value of 64 bits; the bytes
behind it are untouched. -/
theorem readVarint_encoding (e : VarintEncoding) (rest : Reader) :
    (e.Accepted → readVarint (e.bytes ++ rest) = (some e.value, rest)) ∧
      (¬ e.Accepted → (readVarint (e.bytes ++ rest)).1 = none) := by
  have hshift : 0 + 7 * 10 = 70 := by decide
  have h := readVarintFrom_encoding hshift e.continues e.ends 0 rest
  have hlen : e.Accepted ↔
      e.continued.length < 10 ∧ groupsValue (e.continued ++ [e.last]) < 2 ^ (64 - 0) := by
    rw [VarintEncoding.Accepted, VarintEncoding.bytes, List.length_append, List.length_singleton]
    exact Iff.rfl
  have hbytes : e.bytes ++ rest = e.continued ++ e.last :: rest := by
    rw [VarintEncoding.bytes, List.append_assoc, List.singleton_append]
  rw [hlen, hbytes, readVarint, VarintEncoding.value, VarintEncoding.bytes]
  simpa only [Nat.zero_or, Nat.shiftLeft_zero] using h

end PlotJuggler
