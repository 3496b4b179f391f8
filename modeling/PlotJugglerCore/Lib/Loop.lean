import Mathlib.Tactic.Common

/-!
# Loops that can stop

A loop over a list whose body may fail, with the state it had reached when it did. Three ends are
kept apart: the body is undefined (`none`), it reports an error and the loop returns with the state
behind that round (`some (s, some e)`), or it goes through (`some (s, none)`).

A loop that returns a value out of its middle is a fold in `Except`: the error is what it returns.
-/

namespace Loop

variable {σ α ε : Type*}

def run (body : σ → α → Option (σ × Option ε)) : List α → σ → Option (σ × Option ε)
  | [], s => some (s, none)
  | a :: l, s =>
    (body s a).bind fun r ↦
      match r.2 with
      | none => run body l r.1
      | some e => some (r.1, some e)

variable {body : σ → α → Option (σ × Option ε)} {l : List α} {s s' : σ} {err : Option ε}

theorem run_cons_eq_some {a : α} (h : run body (a :: l) s = some (s', err)) :
    (∃ e, body s a = some (s', some e) ∧ err = some e) ∨
      ∃ t, body s a = some (t, none) ∧ run body l t = some (s', err) := by
  rw [run] at h
  obtain ⟨⟨t, out⟩, hbody, hrest⟩ := Option.bind_eq_some_iff.mp h
  match out with
  | none => exact .inr ⟨t, hbody, hrest⟩
  | some e =>
    obtain ⟨rfl, rfl⟩ := Prod.mk.inj (Option.some.inj hrest)
    exact .inl ⟨e, hbody, rfl⟩

/-- What every round keeps, the loop keeps, whether it fails or not. -/
theorem run_induction {I : σ → Prop}
    (hbody : ∀ a ∈ l, ∀ s s' err, body s a = some (s', err) → I s → I s')
    (h : run body l s = some (s', err)) (hs : I s) : I s' := by
  induction l generalizing s with
  | nil =>
    obtain ⟨rfl, rfl⟩ := Prod.mk.inj (Option.some.inj h)
    exact hs
  | cons a l ih =>
    rcases run_cons_eq_some h with ⟨e, hfail, rfl⟩ | ⟨t, hgo, hrest⟩
    · exact hbody a List.mem_cons_self s s' _ hfail hs
    · exact ih (fun b hb ↦ hbody b (List.mem_cons_of_mem a hb)) hrest
        (hbody a List.mem_cons_self s t _ hgo hs)

/-- Every round of a loop meets `P`, a condition on the states before and behind it. -/
def Meets (body : σ → α → Option (σ × Option ε)) (P : σ → α → σ → Prop) : List α → σ → Prop
  | [], _ => True
  | a :: l, s => ∀ r, body s a = some r → P s a r.1 ∧ (r.2 = none → Meets body P l r.1)

instance decidableMeets (body : σ → α → Option (σ × Option ε)) (P : σ → α → σ → Prop)
    [∀ s a s', Decidable (P s a s')] : ∀ l s, Decidable (Meets body P l s)
  | [], _ => .isTrue trivial
  | a :: l, s =>
    match h : body s a with
    | none => .isTrue fun r hr ↦ by rw [h] at hr; cases hr
    | some r =>
      have := decidableMeets body P l r.1
      decidable_of_iff (P s a r.1 ∧ (r.2 = none → Meets body P l r.1))
        ⟨fun hr r' hr' ↦ Option.some.inj (h.symm.trans hr') ▸ hr, fun hr ↦ hr r h⟩

/-- The rule for loops under a condition. -/
theorem run_induction_of_meets {I : σ → Prop} {P : σ → α → σ → Prop}
    (hbody : ∀ a s s' err, body s a = some (s', err) → P s a s' → I s → I s')
    (hmeets : Meets body P l s) (h : run body l s = some (s', err)) (hs : I s) : I s' := by
  induction l generalizing s with
  | nil =>
    obtain ⟨rfl, rfl⟩ := Prod.mk.inj (Option.some.inj h)
    exact hs
  | cons a l ih =>
    rcases run_cons_eq_some h with ⟨e, hfail, rfl⟩ | ⟨t, hgo, hrest⟩
    · exact hbody a s s' _ hfail (hmeets _ hfail).1 hs
    · obtain ⟨hP, hmeets'⟩ := hmeets _ hgo
      exact ih (hmeets' rfl) hrest (hbody a s t _ hgo hP hs)

/-- A loop that ends with an error has failed in a round, from a state it got to without one. -/
theorem exists_of_run_eq_error {I : σ → Prop} {P : σ → α → σ → Prop} {e : ε}
    (hbody : ∀ a s s', body s a = some (s', none) → P s a s' → I s → I s')
    (hmeets : Meets body P l s) (h : run body l s = some (s', some e)) (hs : I s) :
    ∃ a t, I t ∧ body t a = some (s', some e) := by
  induction l generalizing s with
  | nil => cases h
  | cons a l ih =>
    rcases run_cons_eq_some h with ⟨e', hfail, heq⟩ | ⟨t, hgo, hrest⟩
    · obtain rfl := Option.some.inj heq
      exact ⟨a, s, hs, hfail⟩
    · obtain ⟨hP, hmeets'⟩ := hmeets _ hgo
      exact ih (hmeets' rfl) hrest (hbody a s t hgo hP hs)

/-- A condition that an invariant guarantees. -/
theorem meets_of_induction {I : σ → Prop} {P : σ → α → σ → Prop}
    (hbody : ∀ a s s' err, body s a = some (s', err) → I s → P s a s' ∧ I s') (hs : I s) :
    Meets body P l s := by
  induction l generalizing s with
  | nil => trivial
  | cons a l ih =>
    rintro ⟨s', err⟩ hround
    obtain ⟨hP, hs'⟩ := hbody a s s' err hround hs
    exact ⟨hP, fun _ ↦ ih hs'⟩

/-- A loop whose rounds all go through goes through. -/
theorem run_eq_some {I : σ → Prop} (hbody : ∀ a ∈ l, ∀ s, I s → ∃ s', body s a = some (s', none) ∧ I s')
    (hs : I s) : ∃ s', run body l s = some (s', none) ∧ I s' := by
  induction l generalizing s with
  | nil => exact ⟨s, rfl, hs⟩
  | cons a l ih =>
    obtain ⟨t, hgo, ht⟩ := hbody a List.mem_cons_self s hs
    obtain ⟨s', hrest, hs'⟩ := ih (fun b hb ↦ hbody b (List.mem_cons_of_mem a hb)) ht
    refine ⟨s', ?_, hs'⟩
    rw [run, hgo]
    exact hrest

/-! ## Early returns -/

variable {ρ : Type*}

/-- A loop whose body may return from the function, and what comes behind the loop. -/
def returning (body : σ → α → Except ρ σ) (after : σ → ρ) (l : List α) (s : σ) : ρ :=
  match l.foldlM body s with
  | .error r => r
  | .ok s => after s

/-- A loop that never returns early runs through. -/
theorem foldlM_ok {body : σ → α → Except ρ σ} {f : σ → α → σ} {l : List α}
    (h : ∀ a ∈ l, ∀ s, body s a = .ok (f s a)) (s : σ) : l.foldlM body s = .ok (l.foldl f s) := by
  induction l generalizing s with
  | nil => rfl
  | cons a l ih =>
    rw [List.foldlM_cons, h a List.mem_cons_self]
    exact ih (fun b hb ↦ h b (List.mem_cons_of_mem a hb)) (f s a)

/-- The search for the first element with a property, counting from `n`. -/
theorem returning_findIdx? (p : α → Bool) (l : List α) (n : ℕ) :
    returning (fun n a ↦ if p a then .error (some n) else .ok (n + 1)) (fun _ ↦ none) l n
      = (l.findIdx? p).map (n + ·) := by
  induction l generalizing n with
  | nil => rfl
  | cons a l ih =>
    rw [returning, List.foldlM_cons, List.findIdx?_cons]
    split_ifs with ha
    · rfl
    · refine (ih (n + 1)).trans ?_
      rw [Option.map_map]
      congr 1
      funext k
      exact Nat.add_right_comm n 1 k

end Loop
