import Edgion.Common.Hysteresis
import Mathlib.Algebra.Group.Nat.Defs
import Mathlib.Data.Finset.Basic

/-!
# Health checks — the status store

The store keeps, for each service, the backends that are checked, a state
with two counters for each of them, and a snapshot of the unhealthy ones,
which is all that the request path reads. A check counts failures in a row
or successes in a row, and the backend changes sides when the count reaches
its threshold. A service is registered anew whenever its backends change.

The snapshot is kept apart from the states, and the counters stop at the
largest `u32`. That the two agree, and that the counters are the streaks of
a backend's results, is the invariant. From it the snapshot is found to be
the reading of the whole history with two thresholds.
-/

namespace Edgion.Health

open Common List Function

universe u

/-- `BackendHealthState`, without its times. -/
structure BackendHealthState where
  healthy : Bool
  consecutiveSuccesses : ℕ
  consecutiveFailures : ℕ
deriving DecidableEq, Repr

def BackendHealthState.default : BackendHealthState := ⟨true, 0, 0⟩

/-- `saturating_add(1)` on a `u32`. -/
def saturatingSucc (n : ℕ) : ℕ := min (n + 1) (2 ^ 32 - 1)

/-- What `record_check` does to the state of a backend. -/
def BackendHealthState.check (state : BackendHealthState) (success : Bool)
    (healthyThreshold unhealthyThreshold : ℕ) : BackendHealthState :=
  let healthyThreshold := max healthyThreshold 1
  let unhealthyThreshold := max unhealthyThreshold 1
  if success then
    let successes := saturatingSucc state.consecutiveSuccesses
    ⟨state.healthy || healthyThreshold ≤ successes, successes, 0⟩
  else
    let failures := saturatingSucc state.consecutiveFailures
    ⟨state.healthy && !decide (unhealthyThreshold ≤ failures), 0, failures⟩

variable {Hash : Type u} [DecidableEq Hash]

structure ServiceHealthState (Hash : Type u) where
  trackedBackends : Finset Hash
  unhealthyBackends : Finset Hash
  states : Hash → Option BackendHealthState

def ServiceHealthState.default : ServiceHealthState Hash := ⟨∅, ∅, fun _ => none⟩

structure HealthStatusStore (Hash : Type u) where
  services : String → Option (ServiceHealthState Hash)

namespace ServiceHealthState

variable (service : ServiceHealthState Hash)

/-- `record_check`, in a service. -/
def recordCheck (hash : Hash) (success : Bool)
    (healthyThreshold unhealthyThreshold : ℕ) : ServiceHealthState Hash :=
  if hash ∈ service.trackedBackends then
    let entry := (service.states hash).getD .default
    let checked := entry.check success healthyThreshold unhealthyThreshold
    { service with
      states := update service.states hash (some checked)
      unhealthyBackends :=
        if entry.healthy = checked.healthy then service.unhealthyBackends
        else if checked.healthy then service.unhealthyBackends.erase hash
        else insert hash service.unhealthyBackends }
  else service

/-- `register_service`, in a service. The states that are left have the hashes
of the set for keys. -/
def register (backendHashes : List Hash) : ServiceHealthState Hash :=
  let backendSet := backendHashes.toFinset
  if service.trackedBackends = backendSet then service
  else
    let states := fun hash =>
      if hash ∈ backendSet then some ((service.states hash).getD .default) else none
    { trackedBackends := backendSet
      unhealthyBackends := backendSet.filter fun hash =>
        (states hash).any fun state => !state.healthy
      states := states }

end ServiceHealthState

/-- What is called on the store. -/
inductive HealthAct (Hash : Type u)
  | recordCheck (serviceKey : String) (hash : Hash) (success : Bool)
      (healthyThreshold unhealthyThreshold : ℕ)
  | registerService (serviceKey : String) (backendHashes : List Hash)
  | unregisterService (serviceKey : String)

namespace HealthStatusStore

def new : HealthStatusStore Hash := ⟨fun _ => none⟩

variable (store : HealthStatusStore Hash)

/-- `is_healthy`: what is not known is healthy. -/
def isHealthy (serviceKey : String) (hash : Hash) : Bool :=
  match store.services serviceKey with
  | none => true
  | some service => decide (hash ∉ service.unhealthyBackends)

/-- A call. -/
def step : HealthAct Hash → HealthStatusStore Hash
  | .recordCheck serviceKey hash success healthyThreshold unhealthyThreshold =>
    match store.services serviceKey with
    | none => store
    | some service => ⟨update store.services serviceKey
        (some (service.recordCheck hash success healthyThreshold unhealthyThreshold))⟩
  | .registerService serviceKey backendHashes =>
    ⟨update store.services serviceKey
      (some (((store.services serviceKey).getD .default).register backendHashes))⟩
  | .unregisterService serviceKey => ⟨update store.services serviceKey none⟩

variable (acts : List (HealthAct Hash))

/-- The store after a sequence of calls. -/
def after : HealthStatusStore Hash := acts.foldl step new

@[simp] theorem after_concat (act : HealthAct Hash) :
    after (acts ++ [act]) = (after acts).step act := by
  simp [after]

end HealthStatusStore

/-! ## The history of a backend -/

variable (serviceKey : String)

/-- What a call adds to the results of a backend since its registration. -/
def resultsStep (hash : Hash) (results : Option (List Bool)) : HealthAct Hash → Option (List Bool)
  | .recordCheck serviceKey' hash' success _ _ =>
    if serviceKey' = serviceKey ∧ hash' = hash then results.map (· ++ [success]) else results
  | .registerService serviceKey' backendHashes =>
    if serviceKey' = serviceKey then
      if hash ∈ backendHashes then some (results.getD []) else none
    else results
  | .unregisterService serviceKey' => if serviceKey' = serviceKey then none else results

/-- **The results of a backend since it was registered**, nothing if it is
not. -/
def resultsSince (hash : Hash) (acts : List (HealthAct Hash)) : Option (List Bool) :=
  acts.foldl (resultsStep serviceKey hash) none

@[simp] theorem resultsSince_concat (hash : Hash)
    (acts : List (HealthAct Hash)) (act : HealthAct Hash) :
    resultsSince serviceKey hash (acts ++ [act]) =
      resultsStep serviceKey hash (resultsSince serviceKey hash acts) act := by
  simp [resultsSince]

/-- A call that checks the backend does so with these thresholds. -/
def WithThresholds (hash : Hash) (healthyThreshold unhealthyThreshold : ℕ) : HealthAct Hash → Prop
  | .recordCheck serviceKey' hash' _ healthyThreshold' unhealthyThreshold' =>
    serviceKey' = serviceKey → hash' = hash →
      healthyThreshold' = healthyThreshold ∧ unhealthyThreshold' = unhealthyThreshold
  | _ => True

/-! ## The invariant -/

/-- **The state of a backend is read off its results.** -/
structure Reads (healthyThreshold unhealthyThreshold : ℕ) (state : BackendHealthState)
    (results : List Bool) : Prop where
  successes : state.consecutiveSuccesses = min (streak true results) (2 ^ 32 - 1)
  failures : state.consecutiveFailures = min (streak false results) (2 ^ 32 - 1)
  healthy : state.healthy = false ↔ Tripped unhealthyThreshold healthyThreshold results

variable {healthyThreshold unhealthyThreshold : ℕ} {state : BackendHealthState}
  {results : List Bool}

theorem not_tripped_nil : ¬ Tripped unhealthyThreshold healthyThreshold [] := by
  rintro ⟨earlier, bad, later, heq, hbad, -⟩
  have hempty : bad = [] := by
    simp only [nil_eq, append_eq_nil_iff] at heq
    exact heq.1.2
  exact hbad.ne_nil hempty

theorem reads_default : Reads healthyThreshold unhealthyThreshold .default [] where
  successes := rfl
  failures := rfl
  healthy := iff_of_false (by decide) not_tripped_nil

/-- A counter that stops at the largest `u32` reaches a threshold when the
streak does. -/
theorem threshold_le_iff {threshold n : ℕ} (hthreshold : threshold < 2 ^ 32) :
    max threshold 1 ≤ saturatingSucc (min n (2 ^ 32 - 1)) ↔ threshold ≤ n + 1 := by
  unfold saturatingSucc
  omega

theorem saturatingSucc_min (n : ℕ) :
    saturatingSucc (min n (2 ^ 32 - 1)) = min (n + 1) (2 ^ 32 - 1) := by
  unfold saturatingSucc
  omega

/-- **A check keeps the state right.** -/
theorem Reads.check (h : Reads healthyThreshold unhealthyThreshold state results)
    (hhealthy : healthyThreshold < 2 ^ 32) (hunhealthy : unhealthyThreshold < 2 ^ 32)
    (success : Bool) :
    Reads healthyThreshold unhealthyThreshold
      (state.check success healthyThreshold unhealthyThreshold) (results ++ [success]) := by
  cases success with
  | true =>
    refine ⟨?_, ?_, ?_⟩
    · simp only [BackendHealthState.check, if_true, h.successes, saturatingSucc_min,
        streak_concat_self]
    · rw [streak_concat_of_ne (by decide)]
      rfl
    · rw [tripped_concat_true, ← h.healthy, streak_concat_self, ← threshold_le_iff hhealthy]
      simp [BackendHealthState.check, h.successes]
  | false =>
    refine ⟨?_, ?_, ?_⟩
    · rw [streak_concat_of_ne (by decide)]
      rfl
    · simp only [BackendHealthState.check, Bool.false_eq_true, if_false, h.failures,
        saturatingSucc_min, streak_concat_self]
    · rw [tripped_concat_false, ← h.healthy, streak_concat_self, ← threshold_le_iff hunhealthy]
      simp only [BackendHealthState.check, Bool.false_eq_true, if_false, h.failures,
        Bool.and_eq_false_iff, Bool.not_eq_false', decide_eq_true_eq]

namespace ServiceHealthState

/-- **A service has a backend as its history says.** -/
def Has (healthyThreshold unhealthyThreshold : ℕ) (service : ServiceHealthState Hash) (hash : Hash) :
    Option (List Bool) → Prop
  | none => hash ∉ service.trackedBackends ∧ service.states hash = none ∧
      hash ∉ service.unhealthyBackends
  | some results => hash ∈ service.trackedBackends ∧ ∃ state, service.states hash = some state ∧
      Reads healthyThreshold unhealthyThreshold state results ∧
      (hash ∈ service.unhealthyBackends ↔ state.healthy = false)

variable {service : ServiceHealthState Hash} {hash hash' : Hash} {history : Option (List Bool)}
variable (h : service.Has healthyThreshold unhealthyThreshold hash history)

include h

/-- A check of the backend adds to its history. -/
theorem Has.recordCheck
    (hhealthy : healthyThreshold < 2 ^ 32) (hunhealthy : unhealthyThreshold < 2 ^ 32)
    (success : Bool) :
    (service.recordCheck hash success healthyThreshold unhealthyThreshold).Has healthyThreshold
      unhealthyThreshold hash (history.map (· ++ [success])) := by
  cases history with
  | none =>
    rw [recordCheck, if_neg h.1]
    exact h
  | some results =>
    obtain ⟨htrk, state, hstate, hreads, hsnapshot⟩ := h
    have hchecked := hreads.check hhealthy hunhealthy success
    rw [recordCheck, if_pos htrk, hstate, Option.getD_some]
    refine ⟨htrk, _, update_self .., hchecked, ?_⟩
    -- the snapshot is touched when the state changes sides
    dsimp only
    cases hpre : state.healthy <;>
      cases hpost : (state.check success healthyThreshold unhealthyThreshold).healthy <;>
      simp [hsnapshot, hpre]

/-- A check of another backend leaves it alone. -/
theorem Has.recordCheck_other
    (hne : hash' ≠ hash) (success : Bool) (healthyThreshold' unhealthyThreshold' : ℕ) :
    (service.recordCheck hash' success healthyThreshold' unhealthyThreshold').Has healthyThreshold
      unhealthyThreshold hash history := by
  unfold ServiceHealthState.recordCheck
  split_ifs with htrk
  swap
  · exact h
  have hstates : ∀ checked, update service.states hash' (some checked) hash =
    service.states hash := fun checked => update_of_ne hne.symm _ _
  have hmem : ∀ entry checked : BackendHealthState,
      (hash ∈ if entry.healthy = checked.healthy then service.unhealthyBackends
        else if checked.healthy = true then service.unhealthyBackends.erase hash'
        else insert hash' service.unhealthyBackends) ↔ hash ∈ service.unhealthyBackends := by
    intro entry checked
    split_ifs
    · exact Iff.rfl
    · simp [hne.symm]
    · simp [hne.symm]
  cases history with
  | none =>
    obtain ⟨huntracked, hstate, hsnapshot⟩ := h
    exact ⟨huntracked, (hstates _).trans hstate, fun hin => hsnapshot ((hmem _ _).1 hin)⟩
  | some results =>
    obtain ⟨htrk, state, hstate, hreads, hsnapshot⟩ := h
    exact ⟨htrk, state, (hstates _).trans hstate, hreads, (hmem _ _).trans hsnapshot⟩

/-- **Registering keeps the history of a backend that stays**, begins one for
a backend that comes and forgets that of a backend that goes. -/
theorem Has.register (backendHashes : List Hash) :
    (service.register backendHashes).Has healthyThreshold unhealthyThreshold hash
      (if hash ∈ backendHashes then some (history.getD []) else none) := by
  unfold ServiceHealthState.register
  dsimp only
  split_ifs with hsame hmem hmem
  · -- nothing changes, and the backend is tracked
    cases history with
    | none => exact absurd (hsame ▸ mem_toFinset.2 hmem) h.1
    | some results => exact h
  · cases history with
    | none => exact h
    | some results => exact absurd (mem_toFinset.1 (hsame ▸ h.1)) hmem
  · have hin : hash ∈ backendHashes.toFinset := mem_toFinset.2 hmem
    refine ⟨hin, (service.states hash).getD .default, if_pos hin, ?_, ?_⟩
    · cases history with
      | none =>
        rw [h.2.1]
        exact reads_default
      | some results =>
        obtain ⟨-, state, hstate, hreads, -⟩ := h
        rw [hstate]
        exact hreads
    · simp [hmem]
  · have hout : hash ∉ backendHashes.toFinset := fun hin => hmem (mem_toFinset.1 hin)
    exact ⟨hout, if_neg hout, fun hin => hout (Finset.mem_filter.1 hin).1⟩

end ServiceHealthState

namespace HealthStatusStore

/-- **The store has a backend as its history says.** -/
def Has (healthyThreshold unhealthyThreshold : ℕ) (store : HealthStatusStore Hash)
    (serviceKey : String) (hash : Hash) (history : Option (List Bool)) : Prop :=
  match store.services serviceKey with
  | none => history = none
  | some service => service.Has healthyThreshold unhealthyThreshold hash history

variable {store : HealthStatusStore Hash} {serviceKey : String} {hash : Hash}
  {history : Option (List Bool)}

/-- **A call keeps the store right.** -/
theorem Has.step (h : store.Has healthyThreshold unhealthyThreshold serviceKey hash history)
    (hhealthy : healthyThreshold < 2 ^ 32) (hunhealthy : unhealthyThreshold < 2 ^ 32)
    {act : HealthAct Hash}
    (hact : WithThresholds serviceKey hash healthyThreshold unhealthyThreshold act) :
    (store.step act).Has healthyThreshold unhealthyThreshold serviceKey hash
      (resultsStep serviceKey hash history act) := by
  cases act with
  | recordCheck serviceKey' hash' success healthyThreshold' unhealthyThreshold' =>
    by_cases hkey : serviceKey' = serviceKey
    swap
    · -- another service
      have hsame : (store.step (.recordCheck serviceKey' hash' success healthyThreshold'
          unhealthyThreshold')).services serviceKey = store.services serviceKey := by
        simp only [HealthStatusStore.step]
        split
        · rfl
        · exact update_of_ne (Ne.symm hkey) _ _
      simp only [Has, hsame, resultsStep, hkey, false_and, if_false]
      exact h
    subst hkey
    simp only [Has, HealthStatusStore.step] at h ⊢
    cases hsvc : store.services serviceKey' with
    | none =>
      simp only [hsvc] at h ⊢
      simp [resultsStep, h]
    | some service =>
      simp only [hsvc, update_self] at h ⊢
      by_cases hhash : hash' = hash
      · subst hhash
        obtain ⟨rfl, rfl⟩ := hact rfl rfl
        simp only [resultsStep, and_self, if_true]
        exact h.recordCheck hhealthy hunhealthy success
      · simp only [resultsStep, hhash, and_false, if_false]
        exact h.recordCheck_other hhash success _ _
  | registerService serviceKey' backendHashes =>
    by_cases hkey : serviceKey' = serviceKey
    · subst hkey
      simp only [Has, HealthStatusStore.step, update_self, resultsStep, if_true] at h ⊢
      refine ServiceHealthState.Has.register ?_ backendHashes
      cases hsvc : store.services serviceKey' with
      | none =>
        simp only [hsvc] at h
        rw [h]
        exact ⟨Finset.notMem_empty hash, rfl, Finset.notMem_empty hash⟩
      | some service =>
        simp only [hsvc] at h
        exact h
    · simp only [Has, HealthStatusStore.step, update_of_ne (Ne.symm hkey), resultsStep,
        hkey, if_false]
      exact h
  | unregisterService serviceKey' =>
    by_cases hkey : serviceKey' = serviceKey
    · subst hkey
      simp only [Has, HealthStatusStore.step, update_self, resultsStep, if_true]
    · simp only [Has, HealthStatusStore.step, update_of_ne (Ne.symm hkey), resultsStep,
        hkey, if_false]
      exact h

/-- **The store is right after any sequence of calls.** -/
theorem has_after (hhealthy : healthyThreshold < 2 ^ 32) (hunhealthy : unhealthyThreshold < 2 ^ 32)
    {acts : List (HealthAct Hash)}
    (hacts : ∀ act ∈ acts, WithThresholds serviceKey hash healthyThreshold unhealthyThreshold act) :
    (after acts).Has healthyThreshold unhealthyThreshold serviceKey hash
      (resultsSince serviceKey hash acts) := by
  induction acts using reverseRecOn with
  | nil => rfl
  | append_singleton acts act ih =>
    rw [after_concat, resultsSince_concat]
    refine Has.step (ih fun a ha => hacts a ?_) hhealthy hunhealthy (hacts act ?_)
    · exact mem_append_left _ ha
    · exact mem_append_right _ (mem_singleton_self act)

/-- What the request path reads. -/
theorem Has.isHealthy_eq_false
    (h : store.Has healthyThreshold unhealthyThreshold serviceKey hash history) :
    store.isHealthy serviceKey hash = false ↔
      ∃ results, history = some results ∧ Tripped unhealthyThreshold healthyThreshold results := by
  unfold Has at h
  unfold isHealthy
  cases hsvc : store.services serviceKey with
  | none =>
    simp only [hsvc] at h
    simp [h]
  | some service =>
    simp only [hsvc] at h
    cases history with
    | none =>
      have hout := h.2.2
      simp [hout]
    | some results =>
      obtain ⟨-, state, -, hreads, hsnapshot⟩ := h
      simp [hsnapshot, hreads.healthy]

/-- **A backend is unhealthy exactly when its history says so**: since its
registration some run of failures reached its threshold, and no run of
successes after it reached the other. What is recorded for other backends
and services does not matter, and a backend that was dropped starts healthy
when it comes back. -/
theorem isHealthy_iff_history (hhealthy : healthyThreshold < 2 ^ 32)
    (hunhealthy : unhealthyThreshold < 2 ^ 32) {acts : List (HealthAct Hash)}
    (hacts : ∀ act ∈ acts, WithThresholds serviceKey hash healthyThreshold unhealthyThreshold act) :
    ((after acts).isHealthy serviceKey hash = false ↔
      ∃ results, resultsSince serviceKey hash acts = some results ∧
        Tripped unhealthyThreshold healthyThreshold results) ∧
    (∀ acts' : List (HealthAct Hash), (∀ act ∈ acts',
        WithThresholds serviceKey hash healthyThreshold unhealthyThreshold act) →
      resultsSince serviceKey hash acts' = resultsSince serviceKey hash acts →
      (after acts').isHealthy serviceKey hash = (after acts).isHealthy serviceKey hash) ∧
    ∀ without backendHashes : List Hash, hash ∉ without → hash ∈ backendHashes →
      (after (acts ++ [.registerService serviceKey without] ++
        [.registerService serviceKey backendHashes])).isHealthy serviceKey hash = true := by
  have hread : ∀ acts' : List (HealthAct Hash),
      (∀ act ∈ acts', WithThresholds serviceKey hash healthyThreshold unhealthyThreshold act) →
      ((after acts').isHealthy serviceKey hash = false ↔
        ∃ results, resultsSince serviceKey hash acts' = some results ∧
          Tripped unhealthyThreshold healthyThreshold results) :=
    fun acts' hacts' => (has_after hhealthy hunhealthy hacts').isHealthy_eq_false
  refine ⟨hread acts hacts, fun acts' hacts' hsame => ?_, fun without backendHashes hnot hmem => ?_⟩
  · rw [Bool.eq_iff_iff, ← not_iff_not, Bool.not_eq_true, Bool.not_eq_true, hread acts' hacts',
      hread acts hacts, hsame]
  · rw [← Bool.not_eq_false, hread]
    · rintro ⟨results, hresults, htripped⟩
      rw [resultsSince_concat, resultsSince_concat] at hresults
      obtain rfl : [] = results := by simpa [resultsStep, hnot, hmem] using hresults
      exact not_tripped_nil htripped
    · intro act hact
      simp only [mem_append, mem_singleton] at hact
      rcases hact with (hact | rfl) | rfl
      · exact hacts act hact
      · trivial
      · trivial

/-- Two failures in a row at a backend, with a success at another between
them. -/
def twoFailures : List (HealthAct ℕ) :=
  [.registerService "default/svc" [1, 2], .recordCheck "default/svc" 1 false 1 2,
    .recordCheck "default/svc" 2 true 3 3, .recordCheck "default/svc" 1 false 1 2]

/-- The backend is unhealthy, and healthy again when it was dropped and
comes back. -/
theorem isHealthy_twoFailures : (after twoFailures).isHealthy "default/svc" 1 = false ∧
      Tripped 2 1 [false, false] ∧
      (after (twoFailures ++ [.registerService "default/svc" [2]] ++
        [.registerService "default/svc" [1, 2]])).isHealthy "default/svc" 1 = true := by
  have hacts : ∀ act ∈ twoFailures, WithThresholds "default/svc" 1 1 2 act := by
    simp [twoFailures, WithThresholds]
  obtain ⟨hhistory, -, hback⟩ := isHealthy_iff_history (by decide) (by decide) hacts
  have hdown : (after twoFailures).isHealthy "default/svc" 1 = false := by decide +kernel
  obtain ⟨results, hresults, htripped⟩ := hhistory.1 hdown
  obtain rfl : [false, false] = results := Option.some.inj hresults
  exact ⟨hdown, htripped, hback [2] [1, 2] (by decide) (by decide)⟩

end HealthStatusStore

end Edgion.Health
