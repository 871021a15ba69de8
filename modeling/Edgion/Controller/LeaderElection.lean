import Edgion.Common.Steps
import Mathlib.Data.Int.Notation

/-!
# Leader election

`leader_election.rs`. The instances of the controller share one Lease. An instance sleeps, reads
the Lease, and if it holds it or finds it expired writes it by a forced apply, which no version
guards. It leads from the answer on, until a later round is refused or fails. Calls take any time,
and the clock may move between any two steps; the API server serves a call at one instant. A write
that failed for its caller takes no effect later on, and `leaseTransitions` has no bound, where the
source has an `i32`.

Two instances that read one expired Lease both write it, and both lead.
-/

namespace Edgion.Controller

namespace LeaderElection

open Common Function

/-! ## One round -/

/-- `LeaseSpec`, with times in microseconds. -/
structure LeaseSpec where
  holderIdentity : Option String
  leaseDurationSeconds : Option ℤ
  acquireTime : Option ℤ
  renewTime : Option ℤ
  leaseTransitions : Option ℤ

structure LeaderElectionConfig where
  identity : String
  leaseDurationSecs : ℤ
  renewPeriodSecs : ℕ
  retryPeriodSecs : ℕ

/-- `DEFAULT_LEASE_DURATION_SECS`. -/
def defaultLeaseDurationSecs : ℤ := 15

def seconds (n : ℤ) : ℤ := n * 1000000

section

variable (config : LeaderElectionConfig) (spec : Option LeaseSpec) (now : ℤ)

/-- `is_current_holder` of `try_acquire_or_renew`. -/
def isCurrentHolder : Bool :=
  (spec.bind (·.holderIdentity)).getD "" == config.identity

/-- `is_expired` of `try_acquire_or_renew`. -/
def isExpired : Bool :=
  match spec.bind (·.renewTime) with
  | some renewTime =>
    let leaseDuration := (spec.bind (·.leaseDurationSeconds)).getD defaultLeaseDurationSecs
    decide (renewTime + seconds leaseDuration < now)
  | none => true

/-- `updated_lease` of `try_acquire_or_renew`. -/
def updatedLease : LeaseSpec where
  holderIdentity := some config.identity
  leaseDurationSeconds := some config.leaseDurationSecs
  acquireTime := spec.bind (·.acquireTime)
  renewTime := some now
  leaseTransitions :=
    if isCurrentHolder config spec then some ((spec.bind (·.leaseTransitions)).getD 0)
    else some ((spec.bind (·.leaseTransitions)).getD 0 + 1)

end

theorem isExpired_mono {spec : Option LeaseSpec} {now later : ℤ} (hle : now ≤ later)
    (h : isExpired spec now) : isExpired spec later = true := by
  unfold isExpired at h ⊢
  split
  · rename_i renewTime hrenew
    rw [hrenew] at h
    have hlt := of_decide_eq_true h
    exact decide_eq_true (by omega)
  · rfl

/-! ## The instances and the API server -/

/-- Where `run` is: in a call, or between two of them. -/
inductive Pc
  | sleeping (deadline : ℤ)
  | getting
  | got (spec : Option LeaseSpec)
  /-- The Lease may be taken, and the clock is to be read for its new time. -/
  | acquiring (spec : Option LeaseSpec)
  /-- The patch of the Lease that was read, at the time that was read last, is on its way. -/
  | patching (spec : Option LeaseSpec) (renewTime : ℤ)
  /-- The server has applied the patch, and the answer is on its way. -/
  | patched
  | stopped

/-- The Lease as it was read, once it has been found free to take. -/
def Pc.taking : Pc → Option (Option LeaseSpec)
  | .acquiring spec | .patching spec _ => some spec
  | _ => none

structure Instance where
  pc : Pc
  isLeader : Bool

/-- It leads, or is about to. -/
def Instance.Leads (x : Instance) : Prop := x.isLeader = true ∨ x.pc = .patched

/-- The clock, the `spec` of the Lease, and the instances. -/
structure Election (ι : Type*) where
  now : ℤ
  lease : Option LeaseSpec
  instances : ι → Instance

/-- What can happen: an instance takes its next step, or its call fails, before the server has
served it or after. -/
inductive Act (ι : Type*)
  | tick (d : ℕ)
  | next (i : ι)
  | fail (i : ι)
  | shutdown (i : ι)

namespace Election

variable {ι : Type*} [DecidableEq ι] (config : ι → LeaderElectionConfig)

/-- Every instance has started `run`. -/
def init (now : ℤ) (lease : Option LeaseSpec) : Election ι :=
  ⟨now, lease, fun i => ⟨.sleeping (now + seconds (config i).retryPeriodSecs), false⟩⟩

variable (s : Election ι) (i : ι)

def set (x : Instance) : Election ι :=
  { s with instances := update s.instances i x }

def goOn (pc : Pc) : Election ι :=
  s.set i { s.instances i with pc }

/-- The end of a round of `run`, and the sleep of the next. -/
def rest (isLeader : Bool) : Election ι :=
  let period := if isLeader then (config i).renewPeriodSecs else (config i).retryPeriodSecs
  s.set i ⟨.sleeping (s.now + seconds period), isLeader⟩

/-- The next step of an instance, from where it is. -/
def next : Pc → Option (Election ι)
  | .sleeping deadline => if deadline ≤ s.now then some (s.goOn i .getting) else none
  | .getting => some (s.goOn i (.got s.lease))
  | .got spec =>
    if !isCurrentHolder (config i) spec && !isExpired spec s.now then some (s.rest config i false)
    else some (s.goOn i (.acquiring spec))
  | .acquiring spec => some (s.goOn i (.patching spec s.now))
  | .patching spec renewTime =>
    some { s.goOn i .patched with lease := some (updatedLease (config i) spec renewTime) }
  | .patched => some (s.rest config i true)
  | .stopped => none

/-- **`LeaderElection::run`**, step by step. -/
def step : Act ι → Option (Election ι)
  | .tick d => some { s with now := s.now + d }
  | .next i => s.next config i (s.instances i).pc
  | .fail i =>
    match (s.instances i).pc with
    | .getting | .patching _ _ | .patched => some (s.rest config i false)
    | _ => none
  | .shutdown i =>
    match (s.instances i).pc with
    | .sleeping _ => some (s.set i ⟨.stopped, false⟩)
    | _ => none

/-- **The guard**: a patch finds the Lease as it was read and is not older than the Lease lasts,
and the Lease does not expire under an instance that leads or is about to. -/
def Timely : Act ι → Prop
  | .tick d => ∀ i, (s.instances i).Leads → isExpired s.lease (s.now + d) = false
  | .next i => ∀ spec renewTime, (s.instances i).pc = .patching spec renewTime →
      s.lease = spec ∧ isExpired (some (updatedLease (config i) spec renewTime)) s.now = false
  | _ => True

/-! ## The invariant -/

end Election

/-- **What is known of an instance.** -/
structure Instance.Right (config : LeaderElectionConfig) (lease : Option LeaseSpec) (now : ℤ)
    (x : Instance) : Prop where
  /-- An instance that leads holds the Lease, which has not expired. -/
  leads : x.Leads → lease.bind (·.holderIdentity) = some config.identity ∧
    isExpired lease now = false
  taking : ∀ spec, x.pc.taking = some spec →
    isCurrentHolder config spec = true ∨ isExpired spec now = true

namespace Instance.Right

variable {config : LeaderElectionConfig} {lease : Option LeaseSpec} {now : ℤ} {x : Instance}

/-- An instance that does not lead and is not about to take the Lease. -/
theorem of_idle (hleader : x.isLeader = false) (hpc : x.pc ≠ .patched)
    (htaking : x.pc.taking = none) : x.Right config lease now where
  leads := by
    rintro (h | h)
    · rw [hleader] at h
      cases h
    · exact absurd h hpc
  taking spec h := by
    rw [htaking] at h
    cases h

/-- It goes on within its round. -/
theorem goOn (h : x.Right config lease now) {pc : Pc} (hpc : pc ≠ .patched)
    (htaking : ∀ spec, pc.taking = some spec →
      isCurrentHolder config spec ∨ isExpired spec now = true) :
    ({ x with pc } : Instance).Right config lease now :=
  ⟨fun hleads => h.leads (.inl (hleads.resolve_right hpc)), htaking⟩

/-- The clock moves. -/
theorem tick (h : x.Right config lease now) {later : ℤ} (hle : now ≤ later)
    (hlasts : x.Leads → isExpired lease later = false) : x.Right config lease later where
  leads hleads := ⟨(h.leads hleads).1, hlasts hleads⟩
  taking spec htaking := (h.taking spec htaking).imp_right (isExpired_mono hle)

end Instance.Right

namespace Election

variable {ι : Type*} [DecidableEq ι] {config : ι → LeaderElectionConfig} {s s' : Election ι}

/-- **The invariant.** -/
def Right (config : ι → LeaderElectionConfig) (s : Election ι) : Prop :=
  ∀ i, (s.instances i).Right (config i) s.lease s.now

variable {i : ι}

theorem Right.set (h : s.Right config) {x : Instance}
    (hx : x.Right (config i) s.lease s.now) : (s.set i x).Right config := by
  intro j
  by_cases hj : j = i
  · subst hj
    simpa only [Election.set, update_self] using hx
  · simpa only [Election.set, update_of_ne hj] using h j

theorem Right.rest (h : s.Right config) (i : ι) : (s.rest config i false).Right config :=
  h.set (.of_idle rfl (by simp) rfl)

/-- **A patch**: the others do not lead, since the Lease is as it was read, and was free to
take. -/
theorem Right.patch (h : s.Right config) (hinj : Injective fun i => (config i).identity)
    {spec : Option LeaseSpec} {renewTime : ℤ} (hpc : (s.instances i).pc = .patching spec renewTime)
    (hlease : s.lease = spec)
    (hlasts : isExpired (some (updatedLease (config i) spec renewTime)) s.now = false) :
    ({ s.goOn i .patched with
      lease := some (updatedLease (config i) spec renewTime) } : Election ι).Right config := by
  have hfree := (h i).taking spec (by rw [hpc]; rfl)
  intro j
  by_cases hj : j = i
  · subst hj
    simp only [goOn, Election.set, update_self]
    exact ⟨fun _ => ⟨rfl, hlasts⟩, fun _ h => (by cases h)⟩
  · simp only [goOn, Election.set, update_of_ne hj]
    refine ⟨fun hleads => ?_, (h j).taking⟩
    obtain ⟨hholder, hlive⟩ := (h j).leads hleads
    rw [hlease] at hholder hlive
    rcases hfree with hheld | hexpired
    · have heq : (config j).identity = (config i).identity := by
        simpa [isCurrentHolder, hholder] using hheld
      exact absurd (hinj heq) hj
    · rw [hlive] at hexpired
      cases hexpired

/-- **The next step of an instance keeps the invariant.** -/
theorem Right.next (hinj : Injective fun i => (config i).identity) (h : s.Right config)
    (hok : s.Timely config (.next i)) (hstep : s.next config i (s.instances i).pc = some s') :
    s'.Right config := by
  have hi := h i
  cases hpc : (s.instances i).pc <;> rw [hpc] at hstep <;> simp only [Election.next] at hstep
  case sleeping deadline =>
    split_ifs at hstep
    cases hstep
    exact h.set (hi.goOn (by simp) fun _ h => by cases h)
  case getting =>
    cases hstep
    exact h.set (hi.goOn (by simp) fun _ h => by cases h)
  case got spec =>
    split_ifs at hstep with hfree
    · cases hstep
      exact h.rest i
    · cases hstep
      refine h.set (hi.goOn (by simp) fun spec' hspec => ?_)
      cases hspec
      revert hfree
      cases isCurrentHolder (config i) spec <;> simp
  case acquiring spec =>
    cases hstep
    refine h.set (hi.goOn (by simp) fun spec' hspec => ?_)
    cases hspec
    exact hi.taking spec (by rw [hpc]; rfl)
  case patching spec renewTime =>
    cases hstep
    obtain ⟨hlease, hlasts⟩ := hok spec renewTime hpc
    exact h.patch hinj hpc hlease hlasts
  case patched =>
    cases hstep
    exact h.set ⟨fun _ => hi.leads (.inr hpc), fun _ h => (by cases h)⟩
  case stopped => cases hstep

/-- **Every step keeps the invariant.** -/
theorem Right.step (hinj : Injective fun i => (config i).identity) (h : s.Right config)
    {act : Act ι} (hok : s.Timely config act) (hstep : s.step config act = some s') :
    s'.Right config := by
  cases act with
  | tick d =>
    cases hstep
    have hle : s.now ≤ s.now + d := by omega
    exact fun i => (h i).tick hle (hok i)
  | next i => exact h.next hinj hok hstep
  | fail i =>
    simp only [Election.step] at hstep
    split at hstep <;> cases hstep
    all_goals exact h.rest i
  | shutdown i =>
    simp only [Election.step] at hstep
    split at hstep <;> cases hstep
    exact h.set (.of_idle rfl (by simp) rfl)

/-- **No two instances lead at a time**, in any run all of whose steps are timely. -/
theorem atMostOne_leads (hinj : Injective fun i => (config i).identity) (now : ℤ)
    (lease : Option LeaseSpec) {acts : List (Act ι)}
    (hrun : Runs (step config) (Timely config) (init config now lease) acts s) :
    ∀ i j, (s.instances i).isLeader = true → (s.instances j).isLeader = true → i = j := by
  have hright : s.Right config := hrun.invariant (fun i => .of_idle rfl (by simp [init]) rfl)
    fun _ _ _ h hok hstep => h.step hinj hok hstep
  intro i j hi hj
  have hholder := ((hright i).leads (.inl hi)).1
  rw [((hright j).leads (.inl hj)).1] at hholder
  exact hinj (Option.some.inj hholder).symm

/-! ## Two instances -/

/-- The default periods, and a Lease that its last holder left behind. -/
def pair (b : Bool) : LeaderElectionConfig := ⟨if b then "a" else "b", 15, 10, 2⟩

def leftBehind : LeaseSpec := ⟨some "c", some 15, some 0, some 0, some 0⟩

/-- One takes the Lease while the other sleeps, which then finds it taken. -/
def oneTakes : List (Act Bool) :=
  .tick 2000000 :: (List.replicate 6 (.next true) ++ List.replicate 3 (.next false))

theorem atMostOne_leads_pair : ∃ s : Election Bool,
    Runs (step pair) (Timely pair) (init pair 20000000 (some leftBehind)) oneTakes s ∧
      (s.instances true).isLeader = true ∧
      ∀ i j, (s.instances i).isLeader = true → (s.instances j).isLeader = true → i = j := by
  have hinj : Injective fun i => (pair i).identity := fun a b => by
    cases a <;> cases b <;> simp [pair]
  obtain ⟨s, hrun, hleader⟩ : ∃ s : Election Bool,
      Runs (step pair) (Timely pair) (init pair 20000000 (some leftBehind)) oneTakes s ∧
        (s.instances true).isLeader = true := by
    refine ⟨_, .cons (fun i h => ?_) rfl <| .cons ?_ rfl <| .cons ?_ rfl <| .cons ?_ rfl <|
      .cons ?_ rfl <| .cons ?_ rfl <| .cons ?_ rfl <| .cons ?_ rfl <| .cons ?_ rfl <|
      .cons ?_ rfl <| .nil _, rfl⟩
    · rcases h with h | h <;> cases h
    all_goals
      intro spec renewTime h
      cases h
    exact ⟨rfl, rfl⟩
  exact ⟨s, hrun, hleader, atMostOne_leads hinj _ _ hrun⟩

/-- **Both read the Lease before either writes it**, and both lead. -/
theorem two_lead : ∃ (acts : List (Act Bool)) (s : Election Bool),
    Runs (step pair) (fun _ _ => True) (init pair 20000000 (some leftBehind)) acts s ∧
      (s.instances true).isLeader = true ∧ (s.instances false).isLeader = true :=
  ⟨.tick 2000000 :: (List.replicate 6 [.next true, .next false]).flatten, _,
    Runs.of_runSteps (fun _ _ => trivial) rfl, rfl, rfl⟩

end Election

end LeaderElection

end Edgion.Controller
