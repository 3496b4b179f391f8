import Mathlib.Tactic.Common

/-!
# Runs of a partial step function

A step takes a state and a call to the next state and to what the call returns, or it is undefined,
and then there is no run beyond it. A condition on the steps of a run may look at the state a step
starts from, at the call and at what it returns.
-/

namespace Runs

variable {σ κ ω : Type*}

def run (step : σ → κ → Option (σ × ω)) : σ → List κ → Option σ
  | s, [] => some s
  | s, c :: calls => (step s c).bind fun r ↦ run step r.1 calls

/-- Every step of a run meets `P` where it starts. -/
def Meets (step : σ → κ → Option (σ × ω)) (P : σ → κ → ω → Prop) : σ → List κ → Prop
  | _, [] => True
  | s, c :: calls => ∀ r, step s c = some r → P s c r.2 ∧ Meets step P r.1 calls

instance decidableMeets (step : σ → κ → Option (σ × ω)) (P : σ → κ → ω → Prop)
    [∀ s c out, Decidable (P s c out)] : ∀ s calls, Decidable (Meets step P s calls)
  | _, [] => .isTrue trivial
  | s, c :: calls =>
    match h : step s c with
    | none => .isTrue fun r hr ↦ by rw [h] at hr; cases hr
    | some r =>
      have := decidableMeets step P r.1 calls
      decidable_of_iff (P s c r.2 ∧ Meets step P r.1 calls)
        ⟨fun hr r' hr' ↦ Option.some.inj (h.symm.trans hr') ▸ hr, fun hr ↦ hr r h⟩

variable {step : σ → κ → Option (σ × ω)} {P : σ → κ → ω → Prop} {s s' : σ} {calls : List κ}

/-- What holds of every call of a run is part of the condition on its steps. -/
theorem Meets.and_forall {Q : κ → Prop} (h : Meets step P s calls) (hQ : ∀ c ∈ calls, Q c) :
    Meets step (fun s c out ↦ P s c out ∧ Q c) s calls := by
  induction calls generalizing s with
  | nil => trivial
  | cons c calls ih =>
    obtain ⟨hc, hrest⟩ := List.forall_mem_cons.mp hQ
    exact fun r hr ↦ ⟨⟨(h r hr).1, hc⟩, ih (h r hr).2 hrest⟩

theorem Meets.mono {Q : σ → κ → ω → Prop} (h : Meets step P s calls)
    (hPQ : ∀ s c out, P s c out → Q s c out) : Meets step Q s calls := by
  induction calls generalizing s with
  | nil => trivial
  | cons c calls ih => exact fun r hr ↦ ⟨hPQ s c r.2 (h r hr).1, ih (h r hr).2⟩

/-- The rule for runs: an invariant that every step under the condition keeps. -/
theorem run_induction {I : σ → Prop}
    (hstep : ∀ s c s' out, I s → step s c = some (s', out) → P s c out → I s')
    (hmeets : Meets step P s calls) (h : run step s calls = some s') (hs : I s) : I s' := by
  induction calls generalizing s with
  | nil =>
    obtain rfl := Option.some.inj h
    exact hs
  | cons c calls ih =>
    obtain ⟨r, hr, hrest⟩ := Option.bind_eq_some_iff.mp h
    obtain ⟨hP, hmeets'⟩ := hmeets r hr
    exact ih hmeets' hrest (hstep s c r.1 r.2 hs hr hP)

/-- The rule for a condition that may fail once: as long as the steps meet `Q` one invariant holds,
the first step that does not meet it leads to the other, and from there no step leads back. -/
theorem run_cases {Q : σ → κ → ω → Prop} {I J : σ → Prop}
    (hgood : ∀ s c s' out, I s → step s c = some (s', out) → P s c out → Q s c out → I s')
    (hbad : ∀ s c s' out, I s → step s c = some (s', out) → P s c out → ¬ Q s c out → J s')
    (hstay : ∀ s c s' out, J s → step s c = some (s', out) → P s c out → J s')
    (hmeets : Meets step P s calls) (h : run step s calls = some s') (hs : I s) :
    Meets step Q s calls ∧ I s' ∨ ¬ Meets step Q s calls ∧ J s' := by
  induction calls generalizing s with
  | nil =>
    obtain rfl := Option.some.inj h
    exact .inl ⟨trivial, hs⟩
  | cons c calls ih =>
    obtain ⟨r, hr, hrest⟩ := Option.bind_eq_some_iff.mp h
    obtain ⟨hP, hmeets'⟩ := hmeets r hr
    by_cases hQ : Q s c r.2
    · have hiff : Meets step Q s (c :: calls) ↔ Meets step Q r.1 calls :=
        ⟨fun hall ↦ (hall r hr).2, fun hall r' hr' ↦ Option.some.inj (hr.symm.trans hr') ▸ ⟨hQ, hall⟩⟩
      rw [hiff]
      exact ih hmeets' hrest (hgood s c r.1 r.2 hs hr hP hQ)
    · exact .inr ⟨fun hall ↦ hQ (hall r hr).1,
        run_induction hstay hmeets' hrest (hbad s c r.1 r.2 hs hr hP hQ)⟩

theorem run_append (step : σ → κ → Option (σ × ω)) (s : σ) (calls more : List κ) :
    run step s (calls ++ more) = (run step s calls).bind fun s' ↦ run step s' more := by
  induction calls generalizing s with
  | nil => rfl
  | cons c calls ih =>
    rw [List.cons_append, run, run, Option.bind_assoc]
    exact Option.bind_congr fun r _ ↦ ih r.1

theorem Meets.of_append {more : List κ} (h : Meets step P s (calls ++ more)) :
    Meets step P s calls := by
  induction calls generalizing s with
  | nil => trivial
  | cons c calls ih => exact fun r hr ↦ ⟨(h r hr).1, ih (h r hr).2⟩

theorem Meets.of_run {more : List κ} (h : Meets step P s (calls ++ more))
    (hrun : run step s calls = some s') : Meets step P s' more := by
  induction calls generalizing s with
  | nil =>
    obtain rfl := Option.some.inj hrun
    exact h
  | cons c calls ih =>
    obtain ⟨r, hr, hrest⟩ := Option.bind_eq_some_iff.mp hrun
    exact ih (h r hr).2 hrest

end Runs
