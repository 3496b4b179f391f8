import Mathlib.Data.List.Chain
import Mathlib.Data.List.MinMax

/-!
# Summaries in one pass

What can be said about a list with a state of fixed size: how often the value changes from one
element to the next, and which element is least by some key. A search for the least element may
start from nothing, as `List.argmin` does, or from a limit that no element is expected to exceed.
The two agree as soon as one element does not exceed the limit, also if every element chooses anew
which of them it follows.
-/

namespace OnePass

variable {α β : Type*}

/-! ## Changes -/

section Changes

variable {same : α → α → Bool}

/-- How many elements differ from the one before them, `x` being the one before the first. -/
def changes (same : α → α → Bool) (x : α) : List α → ℕ
  | [] => 0
  | y :: ys => (if same y x then 0 else 1) + changes same y ys

/-- How many maximal runs of equal elements there are. -/
def runs (same : α → α → Bool) : List α → ℕ
  | [] => 0
  | x :: xs => 1 + changes same x xs

theorem changes_eq_zero_iff (x : α) (l : List α) :
    changes same x l = 0 ↔ (x :: l).IsChain fun a b ↦ same b a := by
  induction l generalizing x with
  | nil => simp [changes]
  | cons y ys ih =>
    rw [changes, List.isChain_cons_cons, ← ih y, Nat.add_eq_zero_iff]
    refine and_congr_left' ?_
    by_cases h : same y x <;> simp [h]

theorem changes_map {γ : Type*} (f : γ → α) (x : γ) (l : List γ) :
    changes same (f x) (l.map f) = changes (fun a b ↦ same (f a) (f b)) x l := by
  induction l generalizing x with
  | nil => rfl
  | cons y ys ih => rw [List.map_cons, changes, changes, ih]

/-- At most one run: all elements are equal. -/
theorem runs_le_one_iff {same : α → α → Bool} (htrans : ∀ a b c, same a b → same b c → same a c)
    (hsymm : ∀ a b, same a b → same b a) (l : List α) :
    runs same l ≤ 1 ↔ l.Pairwise fun a b ↦ same a b := by
  rcases l with _ | ⟨x, l⟩
  · simp [runs]
  · have hchain : (x :: l).IsChain (fun a b ↦ same b a) ↔
        (x :: l).IsChain fun a b ↦ same a b :=
      ⟨fun h ↦ h.imp fun a b ↦ hsymm b a, fun h ↦ h.imp fun a b ↦ hsymm a b⟩
    have : IsTrans α fun a b ↦ same a b := ⟨htrans⟩
    rw [runs, ← List.isChain_iff_pairwise, ← hchain, ← changes_eq_zero_iff]
    omega

end Changes

/-! ## The least element -/

section Least

variable [LinearOrder β] {f : α → β} {limit : α} {l : List (Bool × α)}

/-- One step of a search: an element that is flagged is compared with the limit if nothing was found
before, and the limit stays if the element is not below it. -/
def search (f : α → β) (limit : α) (best : Option α) (p : Bool × α) : Option α :=
  if p.1 then some (if f p.2 < f (best.getD limit) then p.2 else best.getD limit)
  else if best.all (f p.2 < f ·) then some p.2 else best

/-- A search finds the least element, or all elements exceed the limit. -/
theorem foldl_search (hlimit : ∀ a, f a = f limit → a = limit) (l : List (Bool × α)) :
    l.foldl (search f limit) none = (l.map Prod.snd).argmin f ∨
      l ≠ [] ∧ (∀ p ∈ l, f limit < f p.2) ∧
        l.foldl (search f limit) none = some limit := by
  induction l using List.reverseRecOn with
  | nil => exact .inl rfl
  | append_singleton l p ih =>
    rw [List.foldl_concat, List.map_append, List.map_singleton, List.argmin_concat]
    rcases ih with ih | ⟨hne, hall, ih⟩
    · rw [ih]
      rcases hbest : (l.map Prod.snd).argmin f with _ | a
      · -- nothing before: only a flagged element above the limit is missed
        have hnil : l = [] := List.map_eq_nil_iff.mp (List.argmin_eq_none.mp hbest)
        subst hnil
        rcases p with ⟨_ | _, x⟩
        · exact .inl rfl
        · simp only [search, if_true, Option.getD_none]
          rcases lt_trichotomy (f x) (f limit) with hlt | heq | hgt
          · exact .inl (by rw [if_pos hlt])
          · exact .inl (by rw [if_neg heq.not_lt, hlimit x heq])
          · exact .inr ⟨by simp, by simpa using hgt, by rw [if_neg hgt.not_gt]⟩
      · refine .inl ?_
        rw [search]
        simp only [Option.getD_some, Option.all_some, decide_eq_true_eq]
        split_ifs <;> rfl
    · rw [ih]
      have hstep : search f limit (some limit) p
          = some (if f p.2 < f limit then p.2 else limit) := by
        rw [search]
        simp only [Option.getD_some, Option.all_some, decide_eq_true_eq]
        split_ifs <;> rfl
      obtain ⟨m, hm⟩ : ∃ m, (l.map Prod.snd).argmin f = some m := by
        rw [← Option.ne_none_iff_exists']
        simpa [List.argmin_eq_none] using hne
      have habove : f limit < f m := by
        obtain ⟨q, hq, rfl⟩ := List.mem_map.mp (List.argmin_mem hm)
        exact hall q hq
      rw [hstep, hm]
      simp only
      rcases lt_trichotomy (f p.2) (f limit) with hlt | heq | hgt
      · exact .inl (by rw [if_pos hlt, if_pos (hlt.trans habove)])
      · exact .inl (by rw [if_neg heq.not_lt, if_pos (heq ▸ habove), hlimit _ heq])
      · refine .inr ⟨by simp, fun q hq ↦ ?_, by rw [if_neg hgt.not_gt]⟩
        rcases List.mem_append.mp hq with hq | hq
        · exact hall q hq
        · rwa [List.mem_singleton.mp hq]

/-- One element at or below the limit is enough. -/
theorem foldl_search_eq_argmin (hlimit : ∀ a, f a = f limit → a = limit) {p : Bool × α} (hp : p ∈ l)
    (hle : f p.2 ≤ f limit) :
    l.foldl (search f limit) none = (l.map Prod.snd).argmin f :=
  (foldl_search hlimit l).resolve_right fun h ↦ hle.not_gt (h.2.1 p hp)

/-- With flagged elements above the limit only, the search ends at the limit. -/
theorem foldl_search_eq_limit (hne : l ≠ []) (hflag : ∀ p ∈ l, p.1 = true)
    (hall : ∀ p ∈ l, f limit < f p.2) : l.foldl (search f limit) none = some limit := by
  induction l using List.reverseRecOn with
  | nil => exact absurd rfl hne
  | append_singleton l p ih =>
    have hp : p ∈ l ++ [p] := List.mem_append_right l List.mem_cons_self
    have hbest : (l.foldl (search f limit) none).getD limit = limit := by
      by_cases hl : l = []
      · rw [hl]
        rfl
      · rw [ih hl (fun q hq ↦ hflag q (List.mem_append_left _ hq))
          fun q hq ↦ hall q (List.mem_append_left _ hq)]
        rfl
    rw [List.foldl_concat, search, if_pos (hflag p hp), hbest, if_neg (hall p hp).not_gt]

end Least

end OnePass
