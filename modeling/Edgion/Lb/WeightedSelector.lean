import Edgion.Common.GreedyCredit
import Edgion.Common.Steps
import Mathlib.Algebra.BigOperators.Fin

/-!
# Load balancing — the weighted selector

A rule of a route spreads its requests over its backends by weight. The
selector computes one full cycle of choices when it is made: in every
round each item earns its weight, the item with the most is chosen and
pays the total. A selection then only takes the next number of a shared
counter and reads the cycle there.

The sequence is as long as the total weight, so a total that fits in
memory is far from the bounds of `usize` and `i64`, and the arithmetic of
the rounds is exact (`rounds_exact`). The counter is a machine word and
wraps.
-/

namespace Edgion.Lb

open Common List Option Nat

universe u

/-! ## The cycle -/

/-- The loop that looks for the highest weight: `best` is the index and the
weight found so far, and a later item must have more. -/
def findMax (best : ℕ × ℤ) (i : ℕ) : List ℤ → ℕ × ℤ
  | [] => best
  | cw :: rest => findMax (if cw > best.2 then (i, cw) else best) (i + 1) rest

/-- `max_idx`: the search starts from the first item. -/
def maxIdx : List ℤ → ℕ
  | [] => 0
  | cw :: rest => (findMax (0, cw) 1 rest).1

/-- Step 1 of a round: every item earns its weight. -/
def earn (effectiveWeights currentWeights : List ℤ) : List ℤ :=
  zipWith (· + ·) currentWeights effectiveWeights

/-- The current weights after a round, with step 3: the chosen item pays the
total. -/
def nextWeights (totalWeight : ℤ) (effectiveWeights currentWeights : List ℤ) : List ℤ :=
  let current := earn effectiveWeights currentWeights
  current.modify (maxIdx current) (· - totalWeight)

/-- The rounds of `generate_smooth_sequence` from given current weights.
Indices are stored as `u16`. -/
def smoothRounds (totalWeight : ℤ) (effectiveWeights : List ℤ) : ℕ → List ℤ → List ℕ
  | 0, _ => []
  | rounds + 1, currentWeights =>
    maxIdx (earn effectiveWeights currentWeights) % 2 ^ 16 ::
      smoothRounds totalWeight effectiveWeights rounds
        (nextWeights totalWeight effectiveWeights currentWeights)

def generateSmoothSequence (weights : List ℕ) : List ℕ :=
  smoothRounds weights.sum (weights.map Nat.cast) weights.sum (List.replicate weights.length 0)

/-! ## The search for the highest weight -/

/-- The search ends with a maximum, and knows its place. -/
theorem findMax_spec (best : ℕ × ℤ) (i : ℕ) (rest : List ℤ) : (findMax best i rest = best ∨
      ∃ j cw, rest[j]? = some cw ∧ findMax best i rest = (i + j, cw)) ∧
    best.2 ≤ (findMax best i rest).2 ∧ ∀ cw ∈ rest, cw ≤ (findMax best i rest).2 := by
  induction rest generalizing best i with
  | nil => simp [findMax]
  | cons cw rest ih =>
    obtain ⟨hfrom, hbest, hrest⟩ := ih (if cw > best.2 then (i, cw) else best) (i + 1)
    rw [findMax]
    -- the best so far is the new item or the old best; the rest is found one further on
    have hle : best.2 ≤ (if cw > best.2 then (i, cw) else best).2 ∧
        cw ≤ (if cw > best.2 then (i, cw) else best).2 := by
      split <;> simp <;> omega
    refine ⟨?_, hle.1.trans hbest, ?_⟩
    · rcases hfrom with hsame | ⟨j, cw', hget, heq⟩
      · rw [hsame]
        split
        · exact .inr ⟨0, cw, rfl, rfl⟩
        · exact .inl rfl
      · exact .inr ⟨j + 1, cw', hget, by rw [heq]; simp; omega⟩
    · intro cw' hmem
      rcases mem_cons.1 hmem with rfl | hmem
      · exact hle.2.trans hbest
      · exact hrest cw' hmem

variable {cws : List ℤ}

/-- **The search finds an item with the highest weight.** -/
theorem maxIdx_spec (hne : cws ≠ []) :
    ∃ cw, cws[maxIdx cws]? = some cw ∧ ∀ cw' ∈ cws, cw' ≤ cw := by
  obtain ⟨cw, rest, rfl⟩ := exists_cons_of_ne_nil hne
  obtain ⟨hfrom, hbest, hrest⟩ := findMax_spec (0, cw) 1 rest
  have hall : ∀ cw' ∈ cw :: rest, cw' ≤ (findMax (0, cw) 1 rest).2 := by
    intro cw' hmem
    rcases mem_cons.1 hmem with rfl | hmem
    · exact hbest
    · exact hrest cw' hmem
  refine ⟨(findMax (0, cw) 1 rest).2, ?_, hall⟩
  rw [maxIdx]
  rcases hfrom with hsame | ⟨j, cw', hget, heq⟩
  · rw [hsame]
    rfl
  · rw [heq, add_comm 1 j, getElem?_cons_succ, hget]

theorem maxIdx_lt (hne : cws ≠ []) : maxIdx cws < cws.length := by
  obtain ⟨cw, hget, -⟩ := maxIdx_spec hne
  exact (List.getElem?_eq_some_iff.1 hget).1

/-! ## The rounds as greedy picks -/

section Rounds

variable (weights : List ℕ) (k : ℕ)

/-- The current weights after `k` rounds. -/
def weightsAfter : List ℤ :=
  (nextWeights weights.sum (weights.map Nat.cast))^[k] (List.replicate weights.length 0)

/-- The current weights that round `k` chooses from. -/
def offered : List ℤ := earn (weights.map Nat.cast) (weightsAfter weights k)

variable {weights}

/-- A round takes the total off the highest weight. -/
theorem weightsAfter_succ : weightsAfter weights (k + 1) =
      (offered weights k).modify (maxIdx (offered weights k)) (· - weights.sum) := by
  rw [weightsAfter, Function.iterate_succ_apply']
  rfl

@[simp] theorem length_weightsAfter : (weightsAfter weights k).length = weights.length := by
  induction k with
  | zero => simp [weightsAfter]
  | succ k ih => rw [weightsAfter_succ, length_modify]; simp [offered, earn, ih]

@[simp] theorem length_offered : (offered weights k).length = weights.length := by
  simp [offered, earn]

/-- What an item offers in a round: what it had and its weight. -/
theorem offered_get {k : ℕ} {i : Fin weights.length} {cw : ℤ}
    (h : (weightsAfter weights k)[(i : ℕ)]? = some cw) :
    (offered weights k)[(i : ℕ)]? = some (cw + weights.get i) := by
  have hweight : (weights.map (Nat.cast : ℕ → ℤ))[(i : ℕ)]? = some (weights.get i : ℤ) := by simp
  simp only [offered, earn, getElem?_zipWith]
  rw [h, hweight]

theorem sum_get (weights : List ℕ) : ∑ i, weights.get i = weights.sum := by
  rw [← sum_ofFn, ofFn_get]

variable (hne : weights ≠ [])

include hne in
theorem offered_ne_nil (k : ℕ) : offered weights k ≠ [] := by
  intro h
  have hlen : (offered weights k).length = weights.length := length_offered k
  rw [h] at hlen
  exact hne (eq_nil_of_length_eq_zero hlen.symm)

/-- The item chosen in round `k`. -/
def choice (k : ℕ) : Fin weights.length :=
  ⟨maxIdx (offered weights k), length_offered k ▸ maxIdx_lt (offered_ne_nil hne k)⟩

/-- The loop emits the choices of its rounds. -/
theorem smoothRounds_eq (k rounds : ℕ) :
    smoothRounds weights.sum (weights.map Nat.cast) rounds (weightsAfter weights k) =
      (List.range' k rounds).map fun t => (choice hne t : ℕ) % 2 ^ 16 := by
  induction rounds generalizing k with
  | zero => rfl
  | succ rounds ih =>
    have hnext : nextWeights weights.sum (weights.map Nat.cast) (weightsAfter weights k) =
      weightsAfter weights (k + 1) := (weightsAfter_succ k).symm
    rw [smoothRounds, hnext, ih, range'_succ, map_cons]
    rfl

/-- **The current weights are the credits of the items.** -/
theorem weightsAfter_get (k : ℕ) (i : Fin weights.length) :
    (weightsAfter weights k)[(i : ℕ)]? = some (credit weights.get (choice hne) k i) := by
  induction k with
  | zero => simp [weightsAfter]
  | succ k ih =>
    rw [weightsAfter_succ, getElem?_modify, offered_get ih, credit_succ, sum_get]
    have hiff : maxIdx (offered weights k) = (i : ℕ) ↔ choice hne k = i := by
      rw [Fin.ext_iff]
      rfl
    by_cases h : choice hne k = i
    · simp [hiff.2 h, h]
    · simp [mt hiff.1 h, h]

/-- **Every round is a greedy pick.** -/
theorem choice_greedy (n : ℕ) : Greedy weights.get (choice hne) n := by
  intro k _ j
  obtain ⟨cw, hmax, hall⟩ := maxIdx_spec (offered_ne_nil hne k)
  have hchosen := offered_get (weightsAfter_get hne k (choice hne k))
  obtain rfl : cw = _ := some.inj (hmax.symm.trans hchosen)
  exact hall _ (mem_of_getElem? (offered_get (weightsAfter_get hne k j)))

/-- **The running weights stay in range**: whatever they are in the course of
the rounds, they are between minus the total and the total times the number
of items. -/
theorem weightsAfter_mem (hpos : 0 < weights.sum) (k : ℕ) {cw : ℤ}
    (h : cw ∈ weightsAfter weights k) :
    -(weights.sum : ℤ) < cw ∧ cw ≤ weights.length * weights.sum := by
  have hne : weights ≠ [] := by
    rintro rfl
    exact absurd hpos (lt_irrefl 0)
  obtain ⟨i, hi, rfl⟩ := mem_iff_getElem.1 h
  have hget := weightsAfter_get hne k ⟨i, by simpa using hi⟩
  rw [getElem?_eq_getElem hi] at hget
  have hsum : 0 < ∑ i, weights.get i := by rwa [sum_get]
  rw [some.inj hget, ← sum_get]
  refine ⟨(choice_greedy hne k).neg_lt_credit hsum le_rfl _, ?_⟩
  simpa using (choice_greedy hne k).credit_le hsum le_rfl ⟨i, by simpa using hi⟩

/-- **The rounds do not overflow.** Where the total times the number of items and one more is below
`2 ^ 63`, every weight of every round, with what was earned in it and after the chosen item has
paid, is the same after wrapping to `i64`. -/
theorem rounds_exact (hpos : 0 < weights.sum) (hfit : (weights.length + 1) * weights.sum < 2 ^ 63)
    (k : ℕ) : ∀ cw ∈ offered weights k ++ weightsAfter weights k, cw.bmod (2 ^ 64) = cw := by
  have hne : weights ≠ [] := by
    rintro rfl
    exact absurd hpos (lt_irrefl 0)
  have hfit : ((weights.length : ℤ) + 1) * (weights.sum : ℤ) < 2 ^ 63 := by exact_mod_cast hfit
  have hnonneg : (0 : ℤ) ≤ weights.length * (weights.sum : ℤ) := by positivity
  have hbmod {cw : ℤ} (hlow : -(weights.sum : ℤ) < cw)
      (hhigh : cw ≤ (weights.length + 1) * weights.sum) : cw.bmod (2 ^ 64) = cw := by
    refine Int.bmod_eq_of_le ?_ ?_ <;> norm_num <;> linarith
  intro cw hmem
  rcases mem_append.1 hmem with hmem | hmem
  · obtain ⟨i, hi, rfl⟩ := mem_iff_getElem.1 hmem
    have hcredit := weightsAfter_get hne k ⟨i, by simpa using hi⟩
    have hget := offered_get hcredit
    rw [getElem?_eq_getElem hi] at hget
    obtain ⟨hlow, hhigh⟩ := weightsAfter_mem hpos k (mem_of_getElem? hcredit)
    have hle := List.single_le_sum (fun _ _ => Nat.zero_le _) _
      (weights.get_mem ⟨i, by simpa using hi⟩)
    have hle := Int.ofNat_le.2 hle
    rw [some.inj hget]
    exact hbmod (by linarith [Int.natCast_nonneg (weights.get ⟨i, by simpa using hi⟩)]) (by linarith)
  · obtain ⟨hlow, hhigh⟩ := weightsAfter_mem hpos k hmem
    exact hbmod hlow (by linarith)

theorem rounds_exact_first : (-1 : ℤ) ∈ weightsAfter [2, 1] 1 ∧ (-1 : ℤ).bmod (2 ^ 64) = -1 :=
  ⟨by decide, rounds_exact (by decide : 0 < List.sum [2, 1]) (by decide) 1 (-1) (by decide)⟩

/-- The choices among the first `k` that are of one item. -/
theorem count_choices (k : ℕ) (i : Fin weights.length) :
    ((range k).map fun t => (choice hne t : ℕ)).count (i : ℕ) = turns (choice hne) k i := by
  induction k with
  | zero => simp
  | succ k ih =>
    rw [range_succ, map_append, count_append, ih, turns_succ, map_singleton, count_singleton]
    simp [Fin.ext_iff]

end Rounds

/-! ## What a cycle holds -/

/-- The largest number of items, `u16::MAX`. -/
def maxItems : ℕ := 65535

section Cycle

variable {weights : List ℕ} (hmax : weights.length ≤ maxItems) (hpos : 0 < weights.sum)

include hpos in
theorem ne_nil_of_sum_pos : weights ≠ [] := by
  rintro rfl
  exact absurd hpos (lt_irrefl 0)

include hmax in
/-- With indices that fit their type, the cycle is the list of choices. -/
theorem generateSmoothSequence_eq : generateSmoothSequence weights =
      (range weights.sum).map fun t => (choice (ne_nil_of_sum_pos hpos) t : ℕ) := by
  have hrounds := smoothRounds_eq (ne_nil_of_sum_pos hpos) 0 weights.sum
  rw [← range_eq_range'] at hrounds
  refine hrounds.trans (map_congr_left fun t _ => mod_eq_of_lt ?_)
  exact (choice _ t).isLt.trans_le (hmax.trans (by decide))

theorem length_generateSmoothSequence (weights : List ℕ) :
    (generateSmoothSequence weights).length = weights.sum := by
  have hlen (n : ℕ) (current : List ℤ) :
      (smoothRounds weights.sum (weights.map Nat.cast) n current).length = n := by
    induction n generalizing current with
    | zero => rfl
    | succ n ih => rw [smoothRounds, length_cons, ih]
  exact hlen _ _

include hmax hpos

theorem lt_length_of_mem {i : ℕ} (h : i ∈ generateSmoothSequence weights) : i < weights.length := by
  rw [generateSmoothSequence_eq hmax hpos] at h
  obtain ⟨t, -, rfl⟩ := mem_map.1 h
  exact (choice _ t).isLt

/-- The first `k` choices that are of one item. -/
theorem count_take {k : ℕ} (hk : k ≤ weights.sum) (i : Fin weights.length) :
    ((generateSmoothSequence weights).take k).count (i : ℕ) =
      turns (choice (ne_nil_of_sum_pos hpos)) k i := by
  rw [generateSmoothSequence_eq hmax hpos, ← map_take, take_range, min_eq_left hk, count_choices]

/-- **A cycle holds every item as often as it weighs.** -/
theorem count_generateSmoothSequence (i : Fin weights.length) :
    (generateSmoothSequence weights).count (i : ℕ) = weights.get i := by
  have hcount := count_take hmax hpos le_rfl i
  rw [take_of_length_le (length_generateSmoothSequence weights).le] at hcount
  have hcycle := (choice_greedy (ne_nil_of_sum_pos hpos) weights.sum).turns_cycle
    (by rwa [sum_get]) (by rw [sum_get]) i
  rwa [sum_get, ← hcount] at hcycle

/-- **No item is ahead of its share by a whole turn** in any first part of
the cycle. -/
theorem count_take_mul_lt {k : ℕ} (hk : k ≤ weights.sum) (i : Fin weights.length) :
    ((generateSmoothSequence weights).take k).count (i : ℕ) * weights.sum <
      k * weights.get i + weights.sum := by
  have hshare := (choice_greedy (ne_nil_of_sum_pos hpos) weights.sum).turns_mul_lt
    (by rwa [sum_get]) hk i
  rwa [sum_get, ← count_take hmax hpos hk i] at hshare

end Cycle

/-! ## The selector -/

/-- `WeightedRoundRobin` without its counter, which the threads share. The
cycle has a choice to read, and every choice is an item. -/
structure WeightedRoundRobin (T : Type u) where
  items : List T
  sequence : List ℕ
  sequence_ne_nil : sequence ≠ []
  sequence_lt : ∀ i ∈ sequence, i < items.length

namespace WeightedRoundRobin

variable {T : Type u}

/-- `WeightedRoundRobin::new`; nothing where an assertion fails. -/
def new (items : List T) (weights : List ℕ) : Option (WeightedRoundRobin T) :=
  if h : items ≠ [] ∧ items.length = weights.length ∧ items.length ≤ maxItems ∧ 0 < weights.sum then
    some
      { items
        sequence := generateSmoothSequence weights
        sequence_ne_nil := by
          rw [← length_pos_iff, length_generateSmoothSequence]
          exact h.2.2.2
        sequence_lt := fun i hi => by
          rw [h.2.1]
          exact lt_length_of_mem (h.2.1 ▸ h.2.2.1) h.2.2.2 hi }
  else none

/-- The index of the item that a call returns which has read `idx` from the
counter. -/
def itemIdx (selector : WeightedRoundRobin T) (idx : ℕ) : ℕ :=
  selector.sequence.get ⟨idx % selector.sequence.length,
    mod_lt _ (length_pos_iff.2 selector.sequence_ne_nil)⟩

end WeightedRoundRobin

/-! ## Selections by many threads -/

/-- The counter is a `usize`. -/
def counterSize : ℕ := 2 ^ 64

/-- **A call of `select`**: the number it took from the counter, and the index
of the item it returned, once it has. -/
structure Call where
  thread : ℕ
  idx : ℕ
  result : Option ℕ
deriving DecidableEq, Repr

/-- The calls of a selector in the order in which they took their numbers. -/
structure Selections where
  counter : ℕ
  calls : List Call
deriving DecidableEq, Repr

/-- What a thread does: it calls `select`, whose first access is the
`fetch_add`; and it returns from its call. -/
inductive Act
  | fetchAdd (thread : ℕ)
  | finish (thread : ℕ)
deriving DecidableEq, Repr

namespace Selections

variable {T : Type u}

/-- No call yet. -/
def new : Selections := ⟨0, []⟩

variable (thread : ℕ) (call : Call)

/-- A call of a thread that has not returned. -/
def isOpen : Bool := call.thread = thread && call.result.isNone

/-- The return of a call. -/
def finish (selector : WeightedRoundRobin T) (thread : ℕ) (call : Call) : Call :=
  if isOpen thread call then { call with result := some (selector.itemIdx call.idx) } else call

/-- **A step.** A thread calls again when its call has returned. -/
def step (selector : WeightedRoundRobin T) (s : Selections) : Act → Option Selections
  | .fetchAdd thread =>
    if s.calls.any (isOpen thread) then none
    else
      some
        { counter := (s.counter + 1) % counterSize
          calls := s.calls ++ [⟨thread, s.counter, none⟩] }
  | .finish thread =>
    if s.calls.any (isOpen thread) then
      some { s with calls := s.calls.map (finish selector thread) }
    else none

/-- **The calls are numbered in order**, and a call returns the item of its
number. -/
structure Numbered (selector : WeightedRoundRobin T) (s : Selections) : Prop where
  counter : s.counter = s.calls.length % counterSize
  idx : ∀ n call, s.calls[n]? = some call → call.idx = n % counterSize
  result : ∀ call ∈ s.calls, ∀ i ∈ call.result, i = selector.itemIdx call.idx

variable {selector : WeightedRoundRobin T} {s s' : Selections}

theorem Numbered.new : Numbered selector .new where
  counter := rfl
  idx := fun _ _ h => by simp [Selections.new] at h
  result := fun _ h => by simp [Selections.new] at h

/-- Returning does not change what a call took from the counter. -/
@[simp] theorem finish_idx :
    (finish selector thread call).idx = call.idx := by
  unfold finish
  split <;> rfl

theorem finish_result {thread : ℕ} {call : Call} (h : ∀ i ∈ call.result, i = selector.itemIdx call.idx) :
    ∀ i ∈ (finish selector thread call).result, i = selector.itemIdx call.idx := by
  unfold finish
  split
  · intro i hi
    exact (mem_some_iff.1 hi).symm
  · exact h

theorem Numbered.step (hs : Numbered selector s) {act : Act} (h : s.step selector act = some s') :
    Numbered selector s' := by
  cases act with
  | fetchAdd thread =>
    simp only [Selections.step] at h
    split at h
    · cases h
    · cases h
      refine ⟨?_, fun n call hget => ?_, fun call hmem => ?_⟩
      · rw [length_append, hs.counter, length_singleton, mod_add_mod]
      · rcases lt_trichotomy n s.calls.length with hlt | rfl | hgt
        · rw [getElem?_append_left hlt] at hget
          exact hs.idx n call hget
        · obtain rfl : _ = call := by simpa using hget
          exact hs.counter
        · rw [getElem?_eq_none (by simp; omega)] at hget
          cases hget
      · rcases mem_append.1 hmem with hmem | hmem
        · exact hs.result call hmem
        · obtain rfl := mem_singleton.1 hmem
          intro i hi
          cases hi
  | finish thread =>
    simp only [Selections.step] at h
    split at h
    · cases h
      refine ⟨by simpa using hs.counter, fun n call hget => ?_, fun call hmem => ?_⟩
      · obtain ⟨call', hget', rfl⟩ := by simpa [getElem?_map] using hget
        simpa using hs.idx n call' hget'
      · obtain ⟨call', hmem', rfl⟩ := mem_map.1 hmem
        simpa using finish_result (hs.result call' hmem')
    · cases h

/-- The calls from number `start` on, as many as there are choices in a
cycle. -/
def window (selector : WeightedRoundRobin T) (s : Selections) (start : ℕ) : List Call :=
  (s.calls.drop start).take selector.sequence.length

/-- As many calls in a row as a cycle is long, before the counter wraps,
have read the cycle once, from wherever they began. -/
theorem Numbered.window_results (hs : Numbered selector s) {start : ℕ}
    (hwrap : start + selector.sequence.length ≤ counterSize)
    (hlen : start + selector.sequence.length ≤ s.calls.length)
    (hdone : ∀ call ∈ s.window selector start, call.result ≠ none) :
    (s.window selector start).map Call.result = (selector.sequence.rotate start).map some := by
  refine ext_getElem (by simp [window]; omega) fun n hn hn' => ?_
  have hlt : n < selector.sequence.length := by simpa using hn'
  have hin : start + n < s.calls.length := by omega
  have hmem : s.calls[start + n] ∈ s.window selector start :=
    mem_iff_getElem.2 ⟨n, by simp [window]; omega, by simp [window]⟩
  obtain ⟨i, hi⟩ := ne_none_iff_exists'.1 (hdone _ hmem)
  have hres := hs.result _ (getElem_mem hin) i hi
  rw [hs.idx _ _ (getElem?_eq_getElem hin), mod_eq_of_lt (by omega)] at hres
  simp only [window, getElem_map, getElem_take, getElem_drop, getElem_rotate]
  rw [hi, hres, WeightedRoundRobin.itemIdx, add_comm start n]
  rfl

end Selections

namespace WeightedRoundRobin

variable {T : Type u}

open Selections in
/-- **The selector spreads its selections by weight.** For weights with a
positive total, one for each item, a selector is made. Its cycle is as long
as the total and holds every item as often as it weighs, and no item is
ahead of its share by a whole turn in any first part of the cycle. So among
as many calls in a row as the total, by whatever threads and in whatever
order they return, as many return an item as it weighs. -/
theorem new_smooth (items : List T) (weights : List ℕ) (hlength : items.length = weights.length)
    (hmax : items.length ≤ maxItems) (hpos : 0 < weights.sum) :
    ∃ selector, new items weights = some selector ∧ selector.items = items ∧
      selector.sequence.length = weights.sum ∧
      (∀ i : Fin weights.length, selector.sequence.count (i : ℕ) = weights.get i) ∧
      (∀ k ≤ weights.sum, ∀ i : Fin weights.length,
        (selector.sequence.take k).count (i : ℕ) * weights.sum < k * weights.get i + weights.sum) ∧
      ∀ (acts : List Act) (s : Selections) (start : ℕ),
        Runs (step selector) (fun _ _ => True) .new acts s →
        start + weights.sum ≤ counterSize →
        start + weights.sum ≤ s.calls.length →
        (∀ call ∈ s.window selector start, call.result ≠ none) →
        ∀ i : Fin weights.length,
          ((s.window selector start).map Call.result).count (some (i : ℕ)) = weights.get i := by
  have hne : items ≠ [] := by
    rintro rfl
    exact ne_nil_of_sum_pos hpos (eq_nil_of_length_eq_zero hlength.symm)
  have hmax' : weights.length ≤ maxItems := hlength ▸ hmax
  refine ⟨_, dif_pos ⟨hne, hlength, hmax, hpos⟩, rfl, length_generateSmoothSequence weights,
    count_generateSmoothSequence hmax' hpos, fun k hk => count_take_mul_lt hmax' hpos hk, ?_⟩
  intro acts s start hrun hwrap hcalls hdone i
  have hs := hrun.invariant Numbered.new fun _ _ _ hs _ h => hs.step h
  rw [← length_generateSmoothSequence weights] at hwrap hcalls
  rw [hs.window_results hwrap hcalls hdone, count_map_of_injective _ _ (some_injective _),
    (rotate_perm _ _).count_eq]
  exact count_generateSmoothSequence hmax' hpos i

/-- A selector for two items of the weights 2 and 1. -/
def twoToOne : WeightedRoundRobin String := (new ["a", "b"] [2, 1]).get (by decide)

/-- Three calls by two threads, two of them open at once. -/
theorem new_smooth_twoToOne : ∃ s : Selections,
    Runs (Selections.step twoToOne) (fun _ _ => True) .new
      [.fetchAdd 0, .fetchAdd 1, .finish 1, .fetchAdd 1, .finish 0, .finish 1] s ∧
    ((s.window twoToOne 0).map Call.result).count (some 0) = 2 ∧
    ((s.window twoToOne 0).map Call.result).count (some 1) = 1 := by
  have hreached : ∃ s : Selections, Runs (Selections.step twoToOne) (fun _ _ => True) .new
      [.fetchAdd 0, .fetchAdd 1, .finish 1, .fetchAdd 1, .finish 0, .finish 1] s ∧
      3 ≤ s.calls.length ∧ ∀ call ∈ s.window twoToOne 0, call.result ≠ none :=
    ⟨_, .cons trivial rfl (.cons trivial rfl (.cons trivial rfl (.cons trivial rfl
      (.cons trivial rfl (.cons trivial rfl (.nil _)))))), by decide +kernel, by decide +kernel⟩
  obtain ⟨s, hrun, hlength, hdone⟩ := hreached
  obtain ⟨selector, hnew, -, -, -, -, hcalls⟩ :=
    new_smooth ["a", "b"] [2, 1] rfl (by decide) (by decide)
  have hsame : selector = twoToOne := by
    unfold twoToOne
    simp only [hnew, get_some]
  subst hsame
  exact ⟨s, hrun, hcalls _ s 0 hrun (by decide) hlength hdone ⟨0, by decide⟩,
    hcalls _ s 0 hrun (by decide) hlength hdone ⟨1, by decide⟩⟩

end WeightedRoundRobin

end Edgion.Lb
