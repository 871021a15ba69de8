import Edgion.Lb.Selection

/-!
# Load balancing — the walk of the round robin

When the backend that the weighted table names is not healthy, the round
robin walks the others. The pick is made modulo the total weight and the
walk starts modulo the number of backends, so the two positions differ as
soon as some backend weighs more than one. The walk leaves out the
position it starts from, which the pick need not have tried.
-/

namespace Edgion.Lb

open List Option Nat

universe u

variable {Addr : Type u}

namespace RoundRobinSelector

variable {s : RoundRobinSelector Addr} {maxIterations : ℕ} {healthFilter : Backend Addr → Bool}

/-- What the first try reads. -/
def pick (s : RoundRobinSelector Addr) : Option (Backend Addr) :=
  (s.weighted[s.counter % s.weighted.length]?).bind fun idx => s.backends[idx]?

/-- What the fallback reads, in order. -/
def fallback (s : RoundRobinSelector Addr) (maxIterations : ℕ) : List (Backend Addr) :=
  (range' 1 (min maxIterations s.backends.length - 1)).filterMap fun step =>
    s.backends[(s.counter % s.backends.length + step) % s.backends.length]?

/-- The two tries of a selector that holds something. -/
theorem select_eq (hne : s.weighted ≠ []) : (s.select maxIterations healthFilter).1 =
      (s.pick.filter healthFilter).or ((s.fallback maxIterations).find? healthFilter) := by
  obtain ⟨w, ws, hws⟩ := exists_cons_of_ne_nil hne
  unfold select pick fallback
  simp only [hws]
  cases ((w :: ws)[s.counter % (w :: ws).length]?.bind fun idx => s.backends[idx]?).filter
    healthFilter with
  | none => rfl
  | some b => rfl

/-- From any position the steps up to the last reach every other position. -/
theorem exists_step {offset i n : ℕ} (hoffset : offset < n) (hi : i < n) (hne : i ≠ offset) :
    ∃ step, 1 ≤ step ∧ step < n ∧ (offset + step) % n = i := by
  rcases lt_or_gt_of_ne hne with hlt | hgt
  · -- the walk wraps around once
    refine ⟨n + i - offset, by omega, by omega, ?_⟩
    have hsum : offset + (n + i - offset) = i + n := by omega
    rw [hsum, add_mod_right, mod_eq_of_lt hi]
  · refine ⟨i - offset, by omega, by omega, ?_⟩
    have hsum : offset + (i - offset) = i := by omega
    rw [hsum, mod_eq_of_lt hi]

/-- No step but a whole round leads back. -/
theorem step_ne {offset step n : ℕ} (hoffset : offset < n) (hpos : 1 ≤ step) (hlt : step < n) :
    (offset + step) % n ≠ offset := by
  intro heq
  rcases lt_or_ge (offset + step) n with h | h
  · rw [mod_eq_of_lt h] at heq
    omega
  · rw [mod_eq_sub_mod h, mod_eq_of_lt (by omega)] at heq
    omega

variable {b : Backend Addr}

/-- **The fallback reads every position but the one it starts from.** -/
theorem mem_fallback (hmax : s.backends.length ≤ maxIterations) :
    b ∈ s.fallback maxIterations ↔
      ∃ i, i ≠ s.counter % s.backends.length ∧ s.backends[i]? = some b := by
  unfold fallback
  rw [min_eq_right hmax, mem_filterMap]
  constructor
  · rintro ⟨step, hstep, hget⟩
    rw [mem_range'_1] at hstep
    have hpos : 0 < s.backends.length := by omega
    exact ⟨_, step_ne (mod_lt _ hpos) hstep.1 (by omega), hget⟩
  · rintro ⟨i, hne, hget⟩
    have hi : i < s.backends.length := (List.getElem?_eq_some_iff.1 hget).1
    have hpos : 0 < s.backends.length := by omega
    obtain ⟨step, hone, hlt, heq⟩ := exists_step (mod_lt s.counter hpos) hi hne
    refine ⟨step, ?_, by rw [heq]; exact hget⟩
    rw [mem_range'_1]
    omega

/-- The table is empty only without backends. -/
theorem BuiltFrom.weighted_ne_nil [LinearOrder Addr] {backends : List (Backend Addr)}
    (h : s.BuiltFrom backends) (hne : s.backends ≠ []) : s.weighted ≠ [] := by
  obtain ⟨b, rest, hcons⟩ := exists_cons_of_ne_nil hne
  rw [h.2, weightedIndices, ← h.1, hcons, zipIdx_cons, flatMap_cons]
  have hpos : max b.weight 1 ≠ 0 := by omega
  simp [hpos]

/-- **The selector finds what is healthy**: it returns a healthy backend if
there is one, and nothing only if there is none. -/
def SelectsHealthy (s : RoundRobinSelector Addr) (maxIterations : ℕ)
    (healthFilter : Backend Addr → Bool) : Prop :=
  ((∃ b ∈ s.backends, healthFilter b = true) → ∃ b ∈ s.backends, healthFilter b = true ∧
        (s.select maxIterations healthFilter).1 = some b) ∧
    ((s.select maxIterations healthFilter).1 = none → ∀ b ∈ s.backends, healthFilter b = false)

/-- **Nothing healthy is left out**: the pick is at the position the walk
starts from, or a backend elsewhere is healthy, or none is. -/
def LeavesNoneOut (s : RoundRobinSelector Addr) (healthFilter : Backend Addr → Bool) : Prop :=
  s.weighted[s.counter % s.weighted.length]? = some (s.counter % s.backends.length) ∨
    (∃ i b, i ≠ s.counter % s.backends.length ∧ s.backends[i]? = some b ∧ healthFilter b = true) ∨
    ∀ b ∈ s.backends, healthFilter b = false

/-- A selection is healthy. -/
theorem healthy_of_select
    (h : (s.select maxIterations healthFilter).1 = some b) : healthFilter b = true := by
  by_cases hne : s.weighted = []
  · simp [select, hne] at h
  · rw [select_eq hne, or_eq_some_iff] at h
    rcases h with h | ⟨-, h⟩
    · exact (filter_eq_some_iff.1 h).2
    · exact find?_some h

/-- What is missed by a selection is at the position the walk starts from, and
the pick is elsewhere. -/
theorem select_eq_none_iff (hne : s.weighted ≠ []) (hmax : s.backends.length ≤ maxIterations) :
    (s.select maxIterations healthFilter).1 = none ↔
      (∀ b, s.pick = some b → healthFilter b = false) ∧
        ∀ i b, i ≠ s.counter % s.backends.length → s.backends[i]? = some b →
          healthFilter b = false := by
  rw [select_eq hne, or_eq_none_iff, find?_eq_none, filter_eq_none_iff]
  constructor
  · rintro ⟨hpick, hwalk⟩
    refine ⟨fun b hb => by simpa using hpick b hb, fun i b hi hb => ?_⟩
    simpa using hwalk b ((mem_fallback hmax).2 ⟨i, hi, hb⟩)
  · rintro ⟨hpick, hwalk⟩
    refine ⟨fun b hb => by simp [hpick b hb], fun b hb => ?_⟩
    obtain ⟨i, hi, hget⟩ := (mem_fallback hmax).1 hb
    simp [hwalk i b hi hget]

/-- **When the round robin finds what is healthy.** -/
theorem selectsHealthy_iff [LinearOrder Addr] {backends : List (Backend Addr)}
    {built : RoundRobinSelector Addr} (hbuild : build backends = some built)
    (hmax : backends.length ≤ maxIterations) (n : ℕ) :
    ({ built with counter := n } : RoundRobinSelector Addr).SelectsHealthy maxIterations
        healthFilter ↔
      ({ built with counter := n } : RoundRobinSelector Addr).LeavesNoneOut healthFilter := by
  have hfrom : ({ built with counter := n } : RoundRobinSelector Addr).BuiltFrom backends := by
    unfold build at hbuild
    split_ifs at hbuild
    cases hbuild
    exact ⟨rfl, rfl⟩
  generalize ({ built with counter := n } : RoundRobinSelector Addr) = s at hfrom ⊢
  have hlen : s.backends.length ≤ maxIterations := by
    rw [hfrom.1, length_sorted]
    exact hmax
  by_cases hempty : s.backends = []
  · -- without backends there is nothing to find
    simp [SelectsHealthy, LeavesNoneOut, hempty]
  have hweighted := hfrom.weighted_ne_nil hempty
  have hnone : (s.select maxIterations healthFilter).1 = none ↔
      (∀ b, s.pick = some b → healthFilter b = false) ∧
        ∀ i b, i ≠ s.counter % s.backends.length → s.backends[i]? = some b →
          healthFilter b = false :=
    select_eq_none_iff hweighted hlen
  constructor
  · -- what is missed is a healthy backend at the start of the walk
    rintro ⟨-, hmissed⟩
    by_contra hnot
    simp only [LeavesNoneOut, not_or, not_exists, not_and, not_forall] at hnot
    obtain ⟨hpick, hothers, b, hb, hhealthy⟩ := hnot
    refine hhealthy (hmissed (hnone.2 ⟨fun c hc => ?_, fun i c hi hc => ?_⟩) b hb)
    · obtain ⟨idx, hidx, hget⟩ := bind_eq_some_iff.1 hc
      have hne : idx ≠ s.counter % s.backends.length := by
        rintro rfl
        exact hpick hidx
      simpa using hothers idx c hne hget
    · simpa using hothers i c hi hc
  · intro hcovered
    -- the only way to return nothing is that nothing is healthy
    have hall : (s.select maxIterations healthFilter).1 = none →
        ∀ b ∈ s.backends, healthFilter b = false := by
      intro hselect
      obtain ⟨hpick, hwalk⟩ := hnone.1 hselect
      rcases hcovered with hsame | ⟨i, b, hi, hget, hhealthy⟩ | hall
      · intro b hb
        obtain ⟨i, hget⟩ := mem_iff_getElem?.1 hb
        by_cases hi : i = s.counter % s.backends.length
        · -- the pick has tried it
          refine hpick b ?_
          rw [pick, hsame, bind_some, ← hi]
          exact hget
        · exact hwalk i b hi hget
      · rw [hwalk i b hi hget] at hhealthy
        cases hhealthy
      · exact hall
    refine ⟨fun ⟨b, hb, hhealthy⟩ => ?_, hall⟩
    cases hselect : (s.select maxIterations healthFilter).1 with
    | none =>
      rw [hall hselect b hb] at hhealthy
      cases hhealthy
    | some found =>
      exact ⟨found, mem_of_select hselect, healthy_of_select hselect, rfl⟩

/-! ## Two weights -/

/-- Two backends, the first of double weight. -/
def twoBackends : List (Backend ℕ) := [⟨1, 2⟩, ⟨2, 1⟩]

/-- The selector built from them, after some requests. -/
def twoSelector (n : ℕ) : RoundRobinSelector ℕ := ⟨twoBackends, [0, 0, 1], n⟩

/-- At the start the pick is where the walk starts from. -/
theorem selectsHealthy_first : (twoSelector 0).SelectsHealthy 256 (fun b => b.addr = 2) ∧
      ((twoSelector 0).select 256 fun b => b.addr = 2).1 = some ⟨2, 1⟩ := by
  have hbuild : build twoBackends = some (twoSelector 0) := by decide
  exact ⟨(selectsHealthy_iff hbuild (by decide) 0).2 (.inl (by decide)), by decide⟩

/-- **At the next request the only healthy backend is left out**: the pick is
the first one, and the walk starts from the second. -/
theorem not_selectsHealthy_second : build twoBackends = some (twoSelector 0) ∧
      ((twoSelector 1).select 256 fun b => b.addr = 2).1 = none ∧
      ¬ (twoSelector 1).SelectsHealthy 256 (fun b => b.addr = 2) := by
  have hnone : ((twoSelector 1).select 256 fun b => b.addr = 2).1 = none := by decide
  refine ⟨by decide, hnone, fun h => ?_⟩
  have hall := h.2 hnone ⟨2, 1⟩ (by decide)
  cases hall

end RoundRobinSelector

end Edgion.Lb
