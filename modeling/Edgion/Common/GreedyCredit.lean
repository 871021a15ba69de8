import Mathlib.Algebra.Order.BigOperators.Group.Finset
import Mathlib.Algebra.BigOperators.Ring.Finset
import Mathlib.Data.Fintype.BigOperators
import Mathlib.Data.Nat.Count
import Mathlib.Tactic.Linarith
import Mathlib.Tactic.Ring

/-!
# Sharing turns by credit

In every round each party earns its weight, and one party is picked and
pays the sum of all weights. The credits of the parties then always sum
to zero. If the party with the most credit is picked, no party ever owes
as much as one pick costs, so none is ahead of its share by a whole
turn; and after as many rounds as the weights sum to, every party has had
exactly its weight in turns.
-/

namespace Edgion.Common

open Finset Nat Fintype

variable {ι : Type*} [DecidableEq ι]

/-- How often a party is among the first `k` picks. -/
def turns (pick : ℕ → ι) (k : ℕ) (i : ι) : ℕ := count (fun t => pick t = i) k

variable {pick : ℕ → ι}

@[simp] theorem turns_zero (i : ι) : turns pick 0 i = 0 := count_zero _

theorem turns_succ (k : ℕ) (i : ι) :
    turns pick (k + 1) i = turns pick k i + if pick k = i then 1 else 0 := count_succ ..

variable [Fintype ι]

/-- Every round has one pick. -/
theorem sum_turns (pick : ℕ → ι) (k : ℕ) : ∑ i, turns pick k i = k := by
  induction k with
  | zero => simp
  | succ k ih => simp [turns_succ, sum_add_distrib, ih]

/-- What a party has earned in `k` rounds, less what its picks cost. -/
def credit (w : ι → ℕ) (pick : ℕ → ι) (k : ℕ) (i : ι) : ℤ :=
  k * w i - (∑ j, w j : ℕ) * turns pick k i

/-- **Greedy picks**: in each of the first `n` rounds no party has more
credit than the one that is picked. -/
def Greedy (w : ι → ℕ) (pick : ℕ → ι) (n : ℕ) : Prop :=
  ∀ k < n, ∀ j, credit w pick k j + w j ≤ credit w pick k (pick k) + w (pick k)

variable {w : ι → ℕ} {n : ℕ}

@[simp] theorem credit_zero (i : ι) : credit w pick 0 i = 0 := by simp [credit]

/-- **One round.** -/
theorem credit_succ (k : ℕ) (i : ι) : credit w pick (k + 1) i =
      credit w pick k i + w i - if pick k = i then (∑ j, w j : ℕ) else 0 := by
  unfold credit
  rw [turns_succ]
  split <;> push_cast <;> ring

/-- **The credits sum to zero.** -/
theorem sum_credit (k : ℕ) : ∑ i, credit w pick k i = 0 := by
  have hturns : (∑ i, (turns pick k i : ℤ)) = k := by exact_mod_cast sum_turns pick k
  simp only [credit, sum_sub_distrib, ← mul_sum, hturns, cast_sum]
  ring

variable (hgreedy : Greedy w pick n)

include hgreedy

variable {k : ℕ}

/-- Before a greedy pick is paid for, it has credit. -/
theorem Greedy.pos (hw : 0 < ∑ i, w i) (hk : k < n) :
    0 < credit w pick k (pick k) + w (pick k) := by
  by_contra hle
  have hnonpos : ∑ j, (credit w pick k j + w j) ≤ 0 :=
    sum_nonpos fun j _ => (hgreedy k hk j).trans (not_lt.1 hle)
  rw [sum_add_distrib, sum_credit] at hnonpos
  have hpos : (0 : ℤ) < ∑ i, (w i : ℤ) := by exact_mod_cast hw
  linarith

/-- **No party owes a whole pick.** -/
theorem Greedy.neg_lt_credit (hw : 0 < ∑ i, w i) (hk : k ≤ n)
    (i : ι) : -(∑ j, w j : ℕ) < credit w pick k i := by
  induction k with
  | zero =>
    rw [credit_zero, neg_lt_zero]
    exact_mod_cast hw
  | succ k ih =>
    have hold := ih (le_of_succ_le hk)
    rw [credit_succ]
    split
    · next hpick =>
      have hpos := hgreedy.pos hw hk
      rw [hpick] at hpos
      linarith
    · have hearned : (0 : ℤ) ≤ w i := Int.natCast_nonneg _
      rw [cast_zero]
      linarith

/-- **No party is ahead of its share by a whole turn.** -/
theorem Greedy.turns_mul_lt (hw : 0 < ∑ i, w i) (hk : k ≤ n)
    (i : ι) : turns pick k i * ∑ j, w j < k * w i + ∑ j, w j := by
  have hlt := hgreedy.neg_lt_credit hw hk i
  unfold credit at hlt
  have : ((turns pick k i * ∑ j, w j : ℕ) : ℤ) < (k * w i + ∑ j, w j : ℕ) := by
    push_cast at hlt ⊢
    linarith
  exact_mod_cast this

/-- **After a full cycle every party has had its weight in turns.** -/
theorem Greedy.turns_cycle (hw : 0 < ∑ i, w i)
    (hn : ∑ i, w i ≤ n) (i : ι) : turns pick (∑ j, w j) i = w i := by
  have hle (j : ι) : turns pick (∑ j, w j) j ≤ w j := by
    have hlt := hgreedy.turns_mul_lt hw hn j
    rw [mul_comm, ← mul_succ] at hlt
    exact Nat.lt_succ_iff.1 (Nat.lt_of_mul_lt_mul_left hlt)
  -- nobody has too many turns, and there are as many turns as weights
  exact (sum_eq_sum_iff_of_le fun j _ => hle j).1 (sum_turns pick _) i (mem_univ i)

/-- **The credit a party can have** is bounded by what the others can owe. -/
theorem Greedy.credit_le (hw : 0 < ∑ i, w i) (hk : k ≤ n)
    (i : ι) : credit w pick k i ≤ (card ι : ℤ) * (∑ j, w j : ℕ) := by
  have hsum : ∑ j, credit w pick k j = 0 := sum_credit k
  rw [← add_sum_erase _ _ (mem_univ i)] at hsum
  have hothers : (univ.erase i).card • -((∑ j, w j : ℕ) : ℤ) ≤
      ∑ j ∈ univ.erase i, credit w pick k j :=
    card_nsmul_le_sum _ _ _ fun j _ => (hgreedy.neg_lt_credit hw hk j).le
  have hcard : (univ.erase i).card ≤ card ι := card_le_univ _
  have hmul : ((univ.erase i).card : ℤ) * (∑ j, w j : ℕ) ≤ (card ι : ℤ) * (∑ j, w j : ℕ) := by
    exact_mod_cast mul_le_mul_right _ hcard
  rw [nsmul_eq_mul, mul_neg] at hothers
  linarith

end Edgion.Common
