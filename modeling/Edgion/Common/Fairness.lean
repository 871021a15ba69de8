import Mathlib.Data.Set.Finite.Basic

/-!
# Fair runs without an end

A system is a partial step function on states and actions, and a run of
it goes on for ever. A class of actions is treated fairly when it is
taken again and again, as long as some action of it can be taken again
and again. Two rules carry the results about what must come: a condition
that only a class can end, and that lets the class be taken, is ended by
it; and a condition with a measure, which the class lowers, comes to its
goal. A third is about what cannot go on for ever: what is lowered at
every turn has finitely many of them.
-/

namespace Edgion.Common

open Nat

universe u v

variable {S : Type u} {A : Type v}

/-- **A run without an end.** -/
structure Behaviour (step : S → A → Option S) where
  state : ℕ → S
  act : ℕ → A
  next : ∀ n, step (state n) (act n) = some (state (n + 1))

/-- At some position from `n` on. -/
def Eventually (P : ℕ → Prop) (n : ℕ) : Prop := ∃ m, n ≤ m ∧ P m

variable {P Q : ℕ → Prop} {n : ℕ}

theorem Eventually.now (h : P n) : Eventually P n := ⟨n, le_rfl, h⟩

theorem Eventually.after {m : ℕ} (h : Eventually P m) (hnm : n ≤ m) : Eventually P n := by
  obtain ⟨l, hl, hP⟩ := h
  exact ⟨l, le_trans hnm hl, hP⟩

/-- A condition that each step keeps, unless the goal comes, stays or leads
to the goal. -/
theorem stays_or_eventually (keep : ∀ n, P n → P (n + 1) ∨ Eventually Q n) (h : P n) : (∀ m, n ≤ m → P m) ∨ Eventually Q n := by
  by_cases hQ : Eventually Q n
  · exact .inr hQ
  · refine .inl fun m hm => ?_
    induction m, hm using le_induction with
    | base => exact h
    | succ m hm ih => exact (keep m ih).resolve_right fun hQ' => hQ (hQ'.after hm)

/-- **What only ever goes down goes down finitely often.** -/
theorem finite_descents {M : Type*} {r : M → M → Prop} (hwf : WellFounded r) {f : ℕ → M} (n0 : ℕ)
    (hstep : ∀ n, n0 ≤ n → f (n + 1) = f n ∨ r (f (n + 1)) (f n)) :
    {n | n0 ≤ n ∧ r (f (n + 1)) (f n)}.Finite := by
  induction hx : f n0 using hwf.induction generalizing n0 with
  | _ x ih =>
    by_cases hdescends : ∃ n, n0 ≤ n ∧ r (f (n + 1)) (f n)
    · -- up to the first descent nothing changes
      classical
      obtain ⟨hle, hfst⟩ := Nat.find_spec hdescends
      set m := Nat.find hdescends with hm
      have hsame : ∀ n, n0 ≤ n → n ≤ m → f n = x := by
        intro n hn
        induction n, hn using le_induction with
        | base => exact fun _ => hx
        | succ n hn ihn =>
          intro hlt
          have hnot := Nat.find_min hdescends (Nat.lt_of_succ_le (hm ▸ hlt))
          rw [(hstep n hn).resolve_right fun hr => hnot ⟨hn, hr⟩, ihn (le_of_succ_le hlt)]
      rw [hsame m hle le_rfl] at hfst
      have hlater := ih (f (m + 1)) hfst (m + 1) (fun n hn => hstep n (by omega)) rfl
      refine (hlater.insert m).subset fun n hn => ?_
      rcases lt_or_ge m n with hlt | hge
      · exact .inr ⟨hlt, hn.2⟩
      · refine .inl (le_antisymm hge ?_)
        rw [hm]
        exact Nat.find_min' hdescends hn
    · refine Set.finite_empty.subset fun n hn => ?_
      exact hdescends ⟨n, hn⟩

namespace Behaviour

variable {step : S → A → Option S} (b : Behaviour step)

/-- **The invariant rule.** -/
theorem invariant {Inv : S → Prop} (hinit : Inv (b.state 0))
    (hstep : ∀ s a s', Inv s → step s a = some s' → Inv s') (n : ℕ) : Inv (b.state n) := by
  induction n with
  | zero => exact hinit
  | succ n ih => exact hstep _ _ _ ih (b.next n)

/-- Some action of a class can be taken. -/
def Enabled (cls : A → Prop) (n : ℕ) : Prop :=
  ∃ a, cls a ∧ (step (b.state n) a).isSome

/-- **Fairness to a class of actions.** -/
def Fair (cls : A → Prop) : Prop :=
  (∀ n, Eventually (b.Enabled cls) n) → ∀ n, Eventually (fun m => cls (b.act m)) n

variable {b} {cls : A → Prop} {n : ℕ}

/-- **The rule of fairness.** A condition that only the class ends, and
under which the class can be taken again and again, leads to what the class
does. -/
theorem Fair.leads (hfair : b.Fair cls)
    (keep : ∀ n, P n → ¬ cls (b.act n) → P (n + 1) ∨ Eventually Q n)
    (move : ∀ n, P n → cls (b.act n) → Eventually Q n)
    (enabled : ∀ n, (∀ m, n ≤ m → P m) → Eventually (b.Enabled cls) n) (h : P n) : Eventually Q n := by
  have hkeep (m : ℕ) (hP : P m) : P (m + 1) ∨ Eventually Q m := by
    by_cases hcls : cls (b.act m)
    · exact .inr (move m hP hcls)
    · exact keep m hP hcls
  rcases stays_or_eventually hkeep h with hstays | hQ
  · -- the condition stays, so the class can be taken from every position
    have hfrom (m : ℕ) : Eventually (b.Enabled cls) m :=
      (enabled (max n m) fun l hl => hstays l (le_trans (le_max_left n m) hl)).after
        (le_max_right n m)
    obtain ⟨m, hm, hcls⟩ := hfair hfrom n
    exact (move m (hstays m hm) hcls).after hm
  · exact hQ

/-- **The rule of fairness with a measure**, which the class lowers. -/
theorem Fair.leads_measure (hfair : b.Fair cls) {P : ℕ → ℕ → Prop}
    (keep : ∀ i n, P i n → ¬ cls (b.act n) → P i (n + 1) ∨ Eventually Q n)
    (move : ∀ i n, P i n → cls (b.act n) → (∃ j < i, P j (n + 1)) ∨ Eventually Q n)
    (enabled : ∀ i n, (∀ m, n ≤ m → P i m) → Eventually (b.Enabled cls) n)
    {i : ℕ} (h : P i n) : Eventually Q n := by
  induction i using Nat.strong_induction_on generalizing n with
  | _ i ih =>
    refine hfair.leads (keep i) (fun m hP hcls => ?_) (enabled i) h
    rcases move i m hP hcls with ⟨j, hj, hP'⟩ | hQ
    · exact (ih j hj hP').after (le_succ m)
    · exact hQ

/-! ### Runs that come to rest -/

section Rest

variable (step) (s₀ : S) (acts : List A) (idle : A)

/-- The states of a run that takes the actions of a list, and then one action
for ever. -/
def restStates : ℕ → S
  | 0 => s₀
  | n + 1 => (step (restStates n) (acts.getD n idle)).getD s₀

/-- **The run**, where every action can be taken. -/
def rests
    (hacts : ∀ n < acts.length, (step (restStates step s₀ acts idle n) (acts.getD n idle)).isSome)
    (hidle : ∀ s, (step s idle).isSome) : Behaviour step where
  state := restStates step s₀ acts idle
  act n := acts.getD n idle
  next n := by
    have hstep : (step (restStates step s₀ acts idle n) (acts.getD n idle)).isSome := by
      rcases lt_or_ge n acts.length with hn | hn
      · exact hacts n hn
      · rw [List.getD_eq_getElem?_getD, List.getElem?_eq_none hn]
        exact hidle _
    obtain ⟨s, hs⟩ := Option.isSome_iff_exists.1 hstep
    rw [restStates, hs, Option.getD_some]

end Rest

variable {s₀ : S} {acts : List A} {idle : A}
variable {hacts : ∀ n < acts.length,
  (step (restStates step s₀ acts idle n) (acts.getD n idle)).isSome}
variable {hidle : ∀ s, (step s idle).isSome}

theorem rests_act (hn : acts.length ≤ n) : (rests step s₀ acts idle hacts hidle).act n = idle := by
  change acts.getD n idle = idle
  rw [List.getD_eq_getElem?_getD, List.getElem?_eq_none hn, Option.getD_none]

/-- What holds of all the actions holds along the run. -/
theorem rests_forall {P : A → Prop} (h : ∀ a ∈ acts, P a) (hP : P idle) (n : ℕ) :
    P ((rests step s₀ acts idle hacts hidle).act n) := by
  change P (acts.getD n idle)
  rw [List.getD_eq_getElem?_getD]
  cases hn : acts[n]? with
  | none => exact hP
  | some a => exact h a (List.mem_of_getElem? hn)

/-- What the last action of the list leaves, and the idle action keeps, stays. -/
theorem rests_stays {P : S → Prop} (h : P ((rests step s₀ acts idle hacts hidle).state acts.length))
    (hkeep : ∀ s s', P s → step s idle = some s' → P s') (hn : acts.length ≤ n) :
    P ((rests step s₀ acts idle hacts hidle).state n) := by
  induction n, hn using le_induction with
  | base => exact h
  | succ n hn ih =>
    have hnext := (rests step s₀ acts idle hacts hidle).next n
    rw [rests_act hn] at hnext
    exact hkeep _ _ ih hnext

end Behaviour

end Edgion.Common
