import Mathlib.Data.List.Basic
import Mathlib.Data.Nat.ModEq

/-!
# Circular slots

Values are written at ever growing positions, each in the slot of its
position modulo the capacity, so a slot's value gives way to the one a
capacity later. `Window` says which values the slots still hold, as the
list of the values at the positions from `lo` up to `hi`; a push extends
the list at its end and, when the slots are full, drops its head.
-/

namespace Edgion.Common

namespace Ring

open List Nat

universe u

variable {α : Type u} (slots : List (Option α))

/-- The value in the slot of position `i`. -/
def slot (cap i : ℕ) : Option α := (slots[i % cap]?).join

/-- Walk back from position `n` as long as the value before it satisfies `p`,
to `lo` at most. -/
def scanBack (p : α → Bool) (slots : List (Option α)) (cap lo : ℕ) : ℕ → ℕ
  | 0 => 0
  | n + 1 =>
    if lo < n + 1 ∧ (slot slots cap n).any p then scanBack p slots cap lo n else n + 1

/-- The values at the positions from `lo` up to `hi`, in order. -/
def collect (cap lo hi : ℕ) : List α :=
  (range' lo (hi - lo)).filterMap (slot slots cap)

/-- **The slots hold `xs` at the positions from `lo` up to `hi`.** -/
structure Window (cap : ℕ) (slots : List (Option α)) (lo hi : ℕ) (xs : List α) : Prop where
  cap_pos : 0 < cap
  length_slots : slots.length = cap
  hi_eq : hi = lo + xs.length
  length_le : xs.length ≤ cap
  slot_eq : ∀ i (h : i < xs.length), slot slots cap (lo + i) = some xs[i]

variable {cap i : ℕ}

/-- Fresh slots hold nothing. -/
theorem window_replicate (hcap : 0 < cap) :
    Window cap (replicate cap (none : Option α)) 0 0 [] where
  cap_pos := hcap
  length_slots := length_replicate
  hi_eq := rfl
  length_le := zero_le _
  slot_eq := fun i h => absurd h (not_lt_zero i)

/-- Positions less than a capacity apart have slots of their own. -/
theorem mod_ne_mod {j : ℕ} (hij : i < j) (hlt : j < i + cap) : i % cap ≠ j % cap := by
  intro he
  have hdvd : cap ∣ j - i := (modEq_iff_dvd' hij.le).1 he
  have := le_of_dvd (by omega) hdvd
  omega

theorem slot_set_self {slots : List (Option α)} (x : α) (hcap : 0 < cap)
    (hlen : slots.length = cap) : slot (slots.set (i % cap) (some x)) cap i = some x := by
  have hi : i % cap < slots.length := by rw [hlen]; exact mod_lt i hcap
  unfold slot
  rw [getElem?_set_self hi]
  rfl

namespace Window

variable {cap lo hi : ℕ} {slots : List (Option α)} {xs : List α}

/-- **A push into slots that are not full** extends the window. -/
theorem push (W : Window cap slots lo hi xs) (hroom : xs.length < cap) (x : α) :
    Window cap (slots.set (hi % cap) (some x)) lo (hi + 1) (xs ++ [x]) where
  cap_pos := W.cap_pos
  length_slots := by rw [length_set, W.length_slots]
  hi_eq := by rw [W.hi_eq, length_append, length_singleton, add_assoc]
  length_le := by rw [length_append, length_singleton]; omega
  slot_eq := by
    intro i hi'
    have hhi := W.hi_eq
    rw [length_append, length_singleton] at hi'
    by_cases hlast : i = xs.length
    · have hpos : lo + i = hi := by omega
      rw [hpos, slot_set_self x W.cap_pos W.length_slots]
      simp [hlast]
    · have hold : i < xs.length := by omega
      have hne : hi % cap ≠ (lo + i) % cap := (mod_ne_mod (by omega) (by omega)).symm
      rw [slot, getElem?_set_ne hne, ← slot, W.slot_eq i hold, getElem_append_left hold]

variable {y : α} {ys : List α}

/-- Without its head a window starts a position later. -/
theorem tail (W : Window cap slots lo hi (y :: ys)) : Window cap slots (lo + 1) hi ys where
  cap_pos := W.cap_pos
  length_slots := W.length_slots
  hi_eq := by rw [W.hi_eq, length_cons]; omega
  length_le := le_trans (le_succ _) W.length_le
  slot_eq := by
    intro i hi'
    have h := W.slot_eq (i + 1) (by simpa using hi')
    rw [getElem_cons_succ] at h
    rw [← h]
    congr 1
    omega

/-- When the slots are full, the next position's slot holds the head. -/
theorem slot_hi_of_full (W : Window cap slots lo hi (y :: ys))
    (hfull : (y :: ys).length = cap) : slot slots cap hi = some y := by
  have h := W.slot_eq 0 (by simp)
  have hhi := W.hi_eq
  have hpos : hi = lo + cap := by omega
  rw [add_zero, getElem_cons_zero] at h
  rw [← h, hpos]
  unfold slot
  rw [add_mod_right]

/-- **Collecting from a position of the window** gives what lies after it. -/
theorem collect_eq (W : Window cap slots lo hi xs) {k : ℕ} (hk : k ≤ xs.length) :
    collect slots cap (lo + k) hi = xs.drop k := by
  have hhi := W.hi_eq
  have hlen : hi - (lo + k) = (xs.drop k).length := by rw [length_drop]; omega
  have hslot : ∀ i (h : i < (xs.drop k).length), slot slots cap (lo + k + i) = some (xs.drop k)[i] := by
    intro i h
    rw [length_drop] at h
    rw [add_assoc, W.slot_eq (k + i) (by omega), getElem_drop]
  unfold collect
  rw [hlen]
  generalize xs.drop k = zs at hslot
  clear hlen
  generalize lo + k = a at hslot
  induction zs generalizing a with
  | nil => rfl
  | cons z zs ih =>
    have hhead := hslot 0 (by simp)
    rw [add_zero, getElem_cons_zero] at hhead
    rw [length_cons, range'_succ, filterMap_cons, hhead, ih]
    intro i h
    have := hslot (i + 1) (by simpa using h)
    rw [getElem_cons_succ] at this
    rw [← this]
    congr 1
    omega

/-- Where walking back from `lo + j` stops: at the start, or after a value
that fails. -/
theorem scanBack_spec (W : Window cap slots lo hi xs) (p : α → Bool) {j : ℕ} (hj : j ≤ xs.length) :
    ∃ k ≤ j, scanBack p slots cap lo (lo + j) = lo + k ∧
      (k = 0 ∨ ∃ h : k - 1 < xs.length, p xs[k - 1] = false) := by
  induction j with
  | zero =>
    refine ⟨0, le_rfl, ?_, .inl rfl⟩
    rw [add_zero]
    cases lo with
    | zero => rfl
    | succ n => exact if_neg fun h => absurd h.1 (lt_irrefl _)
  | succ j ih =>
    have hslot := W.slot_eq j (by omega)
    rw [← add_assoc, scanBack, hslot]
    by_cases hp : p xs[j] = true
    · obtain ⟨k, hk, hscan, hstop⟩ := ih (by omega)
      refine ⟨k, by omega, ?_, hstop⟩
      rw [if_pos ⟨by omega, by simpa using hp⟩, hscan]
    · refine ⟨j + 1, le_rfl, ?_, .inr ⟨by omega, by simpa using hp⟩⟩
      rw [if_neg fun h => hp (by simpa using h.2), add_assoc]

/-- **The walk back misses nothing.** Where a value that satisfies `p` is
only followed by values that do, collecting from where the walk stopped
gives every value of the window that satisfies `p`. -/
theorem filter_collect_scanBack (W : Window cap slots lo hi xs) (p : α → Bool)
    (hmono : xs.Pairwise fun a b => p a → p b = true) :
    (collect slots cap (scanBack p slots cap lo hi) hi).filter p = xs.filter p := by
  obtain ⟨k, hk, hscan, hstop⟩ := W.scanBack_spec p le_rfl
  rw [← W.hi_eq] at hscan
  rw [hscan, W.collect_eq hk]
  have hdrop : (xs.take k).filter p = [] := by
    rw [filter_eq_nil_iff]
    intro a ha hpa
    obtain rfl | ⟨hlt, hfail⟩ := hstop
    · simp at ha
    obtain ⟨i, hi', rfl⟩ := getElem_of_mem ha
    rw [length_take] at hi'
    rw [getElem_take] at hpa
    -- either the value is the one the walk stopped at, or that one comes after it
    by_cases hik : i = k - 1
    · subst hik
      simp [hfail] at hpa
    · have := pairwise_iff_getElem.1 hmono i (k - 1) (by omega) hlt (by omega) hpa
      simp [hfail] at this
  conv_rhs => rw [← take_append_drop k xs, filter_append, hdrop]
  rfl

end Window

end Ring

end Edgion.Common
