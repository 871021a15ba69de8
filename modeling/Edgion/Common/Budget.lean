import Mathlib.Data.Nat.Basic

/-!
# Machines on a budget

A machine runs on a budget of steps, and a run may be cut short: by its budget, or by another limit
it is given. A reference evaluation knows no such limits; it gives a value and goes on, ends with a
result, or is unfinished after as many rounds as it was allowed. `Follows` is the simulation between
the two: whatever budget the machine is given, its run is cut short or does as the evaluation says.
It composes along the evaluation's own sequencing, so that a compiler is proved correct piece by
piece.
-/

namespace Edgion.Common

universe u

/-- **What an evaluation comes to**: a value, the end of it all, or nothing in the rounds it was
allowed. -/
inductive Eval (R : Type u) (α : Type u) where
  | value (a : α)
  | ended (r : R)
  | unfinished

namespace Eval

variable {R α β : Type u}

/-- To go on with the value. -/
def bind (x : Eval R α) (f : α → Eval R β) : Eval R β :=
  match x with
  | .value a => f a
  | .ended r => .ended r
  | .unfinished => .unfinished

instance : Monad (Eval R) where
  pure := .value
  bind := bind

end Eval

/-- A machine by its runs: the result on each budget, and which results are those of a run that was
cut short. -/
structure Machine (S R : Type u) where
  run : ℕ → S → R
  Limited : R → Prop

namespace Machine

variable {S R α β : Type u} (M : Machine S R)

/-- The run from one state comes to another. -/
def Reaches (s t : S) : Prop :=
  ∀ n, M.Limited (M.run n s) ∨ ∃ m ≤ n, M.run n s = M.run m t

/-- The run from a state ends with a result. -/
def Ends (s : S) (r : R) : Prop := ∀ n, M.Limited (M.run n s) ∨ M.run n s = r

/-- The run from a state is cut short on every budget up to `k`. -/
def Stalls (k : ℕ) (s : S) : Prop := ∀ n ≤ k, M.Limited (M.run n s)

/-- One step of the machine, which it pays for. -/
structure Advances (s t : S) : Prop where
  unpaid : M.Limited (M.run 0 s)
  paid : ∀ n, M.Limited (M.run (n + 1) s) ∨ M.run (n + 1) s = M.run n t

/-- **The run from a state does as an evaluation says**, with the state it comes to and the value
the evaluation gives related by `post`. -/
def Follows (k : ℕ) (s : S) (x : Eval R α) (post : α → S → Prop) : Prop :=
  match x with
  | .value a => ∃ t, M.Reaches s t ∧ post a t
  | .ended r => M.Ends s r
  | .unfinished => M.Stalls k s

variable {M} {s t u : S} {r : R} {k k' : ℕ} {x : Eval R α} {post post' : α → S → Prop}

theorem Reaches.refl (s : S) : M.Reaches s s := fun n => .inr ⟨n, le_rfl, rfl⟩

theorem Reaches.trans (h : M.Reaches s t) (h' : M.Reaches t u) : M.Reaches s u := by
  intro n
  rcases h n with hl | ⟨m, hm, heq⟩
  · exact .inl hl
  rw [heq]
  rcases h' m with hl | ⟨m', hm', heq'⟩
  · exact .inl hl
  · exact .inr ⟨m', Nat.le_trans hm' hm, heq'⟩

theorem Reaches.ends (h : M.Reaches s t) (h' : M.Ends t r) : M.Ends s r := by
  intro n
  rcases h n with hl | ⟨m, -, heq⟩
  · exact .inl hl
  · exact heq ▸ h' m

theorem Reaches.stalls (h : M.Reaches s t) (h' : M.Stalls k t) : M.Stalls k s := by
  intro n hn
  rcases h n with hl | ⟨m, hm, heq⟩
  · exact hl
  · exact heq ▸ h' m (Nat.le_trans hm hn)

theorem Advances.reaches (h : M.Advances s t) : M.Reaches s t := by
  intro n
  cases n with
  | zero => exact .inl h.unpaid
  | succ n => exact (h.paid n).imp_right fun heq => ⟨n, Nat.le_succ n, heq⟩

theorem Advances.stalls (h : M.Advances s t) (h' : M.Stalls k t) : M.Stalls (k + 1) s := by
  intro n hn
  cases n with
  | zero => exact h.unpaid
  | succ n =>
    rcases h.paid n with hl | heq
    · exact hl
    · exact heq ▸ h' n (Nat.le_of_succ_le_succ hn)

/-- The machine is already where the value is. -/
theorem follows_value {a : α} (h : post a s) : M.Follows k s (.value a) post :=
  ⟨s, .refl s, h⟩

theorem Reaches.follows (h : M.Reaches s t) (h' : M.Follows k t x post) : M.Follows k s x post := by
  cases x with
  | value a =>
    obtain ⟨u, hu, hpost⟩ := h'
    exact ⟨u, h.trans hu, hpost⟩
  | ended r => exact h.ends h'
  | unfinished => exact h.stalls h'

theorem Advances.follows (h : M.Advances s t) (h' : M.Follows k t x post) :
    M.Follows (k + 1) s x post := by
  cases x with
  | value a => exact h.reaches.follows (k := k) h'
  | ended r => exact h.reaches.follows (k := k) h'
  | unfinished => exact h.stalls h'

/-- **The rule of sequencing.** -/
theorem Follows.bind {f : α → Eval R β} {post' : β → S → Prop} (h : M.Follows k s x post)
    (h' : ∀ a t, post a t → M.Follows k t (f a) post') : M.Follows k s (x >>= f) post' := by
  cases x with
  | value a =>
    obtain ⟨t, ht, hpost⟩ := h
    exact ht.follows (h' a t hpost)
  | ended r => exact h
  | unfinished => exact h

/-- The machine goes on after the value. -/
theorem Follows.andReaches (h : M.Follows k s x post)
    (hpost : ∀ a t, post a t → ∃ u, M.Reaches t u ∧ post' a u) : M.Follows k s x post' := by
  cases x with
  | value a =>
    obtain ⟨t, ht, ha⟩ := h
    obtain ⟨u, hu, ha'⟩ := hpost a t ha
    exact ⟨u, ht.trans hu, ha'⟩
  | ended r => exact h
  | unfinished => exact h

/-- The rule of consequence. -/
theorem Follows.mono (h : M.Follows k s x post) (hpost : ∀ a t, post a t → post' a t) :
    M.Follows k s x post' :=
  h.andReaches fun a t ha => ⟨t, .refl t, hpost a t ha⟩

/-- A smaller budget is cut short as well. -/
theorem Follows.of_le (h : M.Follows k s x post) (hk : k' ≤ k) : M.Follows k' s x post := by
  cases x with
  | value a => exact h
  | ended r => exact h
  | unfinished => exact fun n hn => h n (Nat.le_trans hn hk)

end Machine

end Edgion.Common
