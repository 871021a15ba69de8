import Mathlib.Data.List.Basic

/-!
# Runs of a step function

A system is a partial step function on states and actions. A run takes
its actions one after the other, each allowed by a guard on the state it
is taken in. Two rules carry the results about runs: what a guarded step
preserves holds in every state a run reaches, and a run of steps that
each lower a measure is no longer than the measure it starts from.
-/

namespace Edgion.Common

open List

universe u v

variable {S : Type u} {A : Type v}

/-- The state a list of actions leads to, where all of them can be taken. -/
def runSteps (step : S → A → Option S) (s : S) (acts : List A) : Option S :=
  acts.foldlM step s

/-- **A guarded run**: every action is taken in a state the guard allows it
in. -/
inductive Runs (step : S → A → Option S) (ok : S → A → Prop) : S → List A → S → Prop
  | nil (s : S) : Runs step ok s [] s
  | cons {s s' s'' : S} {a : A} {acts : List A} (hok : ok s a) (hstep : step s a = some s')
      (hrest : Runs step ok s' acts s'') : Runs step ok s (a :: acts) s''

namespace Runs

variable {step : S → A → Option S} {ok : S → A → Prop} {s s' s'' : S} {acts acts' : List A}

section

variable (hrun : Runs step ok s acts s')

include hrun

/-- **The invariant rule.** -/
theorem invariant {Inv : S → Prop} (hinit : Inv s)
    (hstep : ∀ s a s', Inv s → ok s a → step s a = some s' → Inv s') : Inv s' := by
  induction hrun with
  | nil s => exact hinit
  | cons hok hs hrest ih => exact ih (hstep _ _ _ hinit hok hs)

/-- **The measure rule.** -/
theorem length_le {μ : S → ℕ}
    (hstep : ∀ s a s', ok s a → step s a = some s' → μ s' < μ s) : acts.length ≤ μ s := by
  induction hrun with
  | nil s => exact Nat.zero_le _
  | cons hok hs hrest ih =>
    have := hstep _ _ _ hok hs
    rw [length_cons]
    omega

/-- A run may be continued. -/
theorem append (hrest : Runs step ok s' acts' s'') : Runs step ok s (acts ++ acts') s'' := by
  induction hrun with
  | nil s => exact hrest
  | cons hok hs _ ih => exact .cons hok hs (ih hrest)

/-- A run under one guard is a run under a weaker one. -/
theorem mono {ok' : S → A → Prop} (hok : ∀ s a, ok s a → ok' s a) : Runs step ok' s acts s' := by
  induction hrun with
  | nil s => exact .nil s
  | cons h hs _ ih => exact .cons (hok _ _ h) hs ih

end

/-- Where a stricter step function goes through, there is a run. -/
theorem of_stricter {step' : S → A → Option S}
    (himp : ∀ s, ∀ a ∈ acts, ∀ s', step' s a = some s' → ok s a ∧ step s a = some s')
    (h : runSteps step' s acts = some s') : Runs step ok s acts s' := by
  induction acts generalizing s with
  | nil =>
    obtain rfl : s = s' := by simpa [runSteps] using h
    exact .nil s
  | cons a acts ih =>
    unfold runSteps at h ih
    rw [foldlM_cons] at h
    obtain ⟨t, ht, hrest⟩ := Option.bind_eq_some_iff.1 h
    obtain ⟨hok, hs⟩ := himp s a mem_cons_self t ht
    exact .cons hok hs (ih (fun s a' ha' => himp s a' (mem_cons_of_mem a ha')) hrest)

/-- A list of allowed actions that can all be taken is a run. -/
theorem of_runSteps {ok : A → Prop} (hok : ∀ a ∈ acts, ok a)
    (h : runSteps step s acts = some s') : Runs step (fun _ a => ok a) s acts s' :=
  of_stricter (fun _ a ha _ hs => ⟨hok a ha, hs⟩) h

end Runs

end Edgion.Common
