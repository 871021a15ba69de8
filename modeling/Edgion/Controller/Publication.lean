import Edgion.Controller.Workers
import Edgion.Workqueue.OnWay

/-!
# Controller — whether a dependent sees what it is requeued for

When a resource changes, its handler requeues the resources that depend on
it, so that they are computed anew from its new version. They read that
version in the server cache. But `process_resource` calls `on_change`
before it saves, and `process_delete` calls `on_delete` before it removes:
the dependent may be handed out, and processed with the old version,
before the new one is written. Nothing requeues it again.
-/

namespace Edgion.Controller

open Workqueue Common Option Function Nat Worker

universe u

variable {V : Type u} {config : WorkqueueConfig} {maxTriggerCycles requeueDelay : ℕ}

namespace ControlPlane

/-! ## One queue of many -/

section Projection

variable (maxTriggerCycles requeueDelay)

/-- What a step does to the queue of one kind. -/
def queueAct (s : ControlPlane V) (kind : String) : ControlAct V → Workqueue.Act
  | .external kind' key id => if kind' = kind then .call id (.enqueue key) else .tick 0
  | .queue kind' act => if kind' = kind then act else .tick 0
  | .handOut kind' _ _ => if kind' = kind then .finish else .tick 0
  | .requeue kind' id =>
    match s.workers kind' with
    | .processing _ key chain (target :: _) _ =>
      match (context maxTriggerCycles kind' key chain).requeue target.kind target.key with
      | r :: _ =>
        if r.kind = kind then .call id (.enqueueAfter r.key requeueDelay r.chain) else .tick 0
      | [] => .tick 0
    | _ => .tick 0
  | .write _ _ => .tick 0
  | .tick duration => .tick duration

end Projection

variable {s s' : ControlPlane V} {act : ControlAct V} {kind key : String}

/-- A queue makes a step, and the others make none. -/
theorem step_update {act : Workqueue.Act} {q : Queue}
    (hq : (s.queues kind).step config act = some q) (kind' : String) :
    (s.queues kind').step config (if kind = kind' then act else .tick 0) =
      some (update s.queues kind q kind') := by
  by_cases hkind : kind = kind'
  · subst hkind
    rw [if_pos rfl, update_self, hq]
  · rw [if_neg hkind, update_of_ne (Ne.symm hkind)]
    rfl

/-- A requeue that is not dropped hands the chain of the context on. -/
theorem requeue_eq {ctx : HandlerContext}
    (h : ctx.triggerChain.occurrenceCount kind key < ctx.maxTriggerCycles) :
    ctx.requeue kind key = [⟨kind, key, ctx.triggerChain⟩] := by
  refine if_neg fun hlimit => ?_
  exact absurd h (not_lt_of_ge (of_decide_eq_true hlimit))

/-- **Each queue makes its own steps.** -/
theorem queues_step (h : s.step config maxTriggerCycles requeueDelay act = some s')
    (kind : String) :
    (s.queues kind).step config (s.queueAct maxTriggerCycles requeueDelay kind act) =
      some (s'.queues kind) := by
  cases act with
  | external kind' key id =>
    obtain ⟨q, hq, rfl⟩ := step_external h
    exact step_update hq kind
  | queue kind' act =>
    obtain ⟨-, -, q, hq, rfl⟩ := step_queue h
    exact step_update hq kind
  | handOut kind' event targets =>
    obtain ⟨item, q, -, -, -, hq, rfl⟩ := step_handOut h
    exact step_update hq kind
  | requeue kind' id =>
    obtain ⟨event, key, chain, target, todo, requeued, hwk, hcases⟩ := step_requeue h
    obtain ⟨hdrop, rfl⟩ | ⟨q, hlimit, hq, rfl⟩ := hcases
    · simp only [queueAct, hwk, hdrop]
      rfl
    · simp only [queueAct, hwk, requeue_eq hlimit]
      exact step_update hq kind
  | write kind' outcome =>
    obtain ⟨event, key, chain, requeued, -, rfl⟩ := step_write h
    cases outcome <;> rfl
  | tick duration =>
    cases h
    rfl

/-! ## What is asked -/

section Runs

variable (b : Behaviour (step (V := V) config maxTriggerCycles requeueDelay))

/-- The run of one queue. -/
def queueRun (kind : String) : Behaviour (Queue.step config) where
  state n := (b.state n).queues kind
  act n := (b.state n).queueAct maxTriggerCycles requeueDelay kind (b.act n)
  next n := queues_step (b.next n) kind

variable (n : ℕ)

/-- While a resource is processed, another is requeued, and the requeue is not
dropped. -/
def Requeues (source target : TriggerSource) : Prop :=
  ∃ id event chain todo requeued, b.act n = .requeue source.kind id ∧
    (b.state n).workers source.kind = .processing event source.key chain (target :: todo) requeued ∧
    (context maxTriggerCycles source.kind source.key chain).requeue target.kind target.key ≠ []

/-- A resource is saved, or removed, at the end of its processing. -/
def Writes (source : TriggerSource) (value : Option V) : Prop :=
  b.act n = .write source.kind (some value) ∧ ∃ event chain requeued,
    (b.state n).workers source.kind = .processing event source.key chain [] requeued

/-- A resource is handed out for processing. -/
def Processes (target : TriggerSource) : Prop :=
  (∃ event targets, b.act n = .handOut target.kind event targets) ∧
    ∃ item, ((b.state n).queues target.kind).consumer = .holding item ∧ item.key = target.key

/-- **Dependents see what they are requeued for**: of a requeue and the write
that ends the processing it was made in, the dependent is processed after
both, with what was written, or with what was written later, in the cache. -/
def DependentsSee (kinds : Set String) : Prop :=
  ∀ n₀ n₁ source target value, target.kind ∈ kinds → Requeues b n₀ source target → n₀ < n₁ →
    (∀ n, n₀ < n → n < n₁ → ∀ outcome, b.act n ≠ .write source.kind outcome) →
    Writes b n₁ source value →
    ∃ m, n₁ < m ∧ Processes b m target ∧ ((b.state m).caches source.kind source.key = value ∨
      ∃ l value', n₁ < l ∧ l < m ∧ Writes b l source value')

end Runs

/-- **The condition on a step**: what is handed out was not requeued by a
processing that is still going on. -/
def Settled (s : ControlPlane V) : ControlAct V → Prop
  | .handOut kind _ _ => ∀ item, (s.queues kind).consumer = .holding item →
    ∀ kind' event key chain todo requeued,
      s.workers kind' = .processing event key chain todo requeued →
      ∀ r ∈ requeued, ¬ (r.kind = kind ∧ r.key = item.key)
  | _ => True

/-! ## Steps -/

variable {chain : TriggerChain} {event : ℕ} {requeued : List Requeue}

/-- A worker keeps its item, and what it has requeued, until it writes. -/
theorem workers_step (h : s.step config maxTriggerCycles requeueDelay act = some s') {todo : List TriggerSource}
    (hwk : s.workers kind = .processing event key chain todo requeued)
    (hact : ∀ outcome, act ≠ .write kind outcome) :
    ∃ todo' requeued', s'.workers kind = .processing event key chain todo' requeued' ∧
      requeued ⊆ requeued' := by
  have hsame (w : String → Worker) (hw : w kind = s.workers kind) :
      ∃ todo' requeued', w kind = .processing event key chain todo' requeued' ∧
        requeued ⊆ requeued' :=
    ⟨todo, requeued, hw.trans hwk, List.Subset.refl _⟩
  cases act with
  | external kind' key' id =>
    obtain ⟨q, -, rfl⟩ := step_external h
    exact hsame _ rfl
  | queue kind' act =>
    obtain ⟨-, -, q, -, rfl⟩ := step_queue h
    exact hsame _ rfl
  | handOut kind' event' targets =>
    obtain ⟨item, q, hidle, -, -, -, rfl⟩ := step_handOut h
    have hkind : kind ≠ kind' := by
      rintro rfl
      rw [hidle] at hwk
      cases hwk
    exact hsame _ (update_of_ne hkind _ _)
  | requeue kind' id =>
    obtain ⟨event', key', chain', target, todo', requeued', hworker', hcases⟩ := step_requeue h
    by_cases hkind : kind = kind'
    · subst hkind
      obtain ⟨rfl, rfl, rfl, rfl, rfl⟩ := processing.inj (hwk.symm.trans hworker')
      obtain ⟨-, rfl⟩ | ⟨q, -, -, rfl⟩ := hcases
      · exact ⟨_, _, update_self _ _ _, List.Subset.refl _⟩
      · exact ⟨_, _, update_self _ _ _, List.subset_cons_self _ _⟩
    · obtain ⟨-, rfl⟩ | ⟨q, -, -, rfl⟩ := hcases <;> exact hsame _ (update_of_ne hkind _ _)
  | write kind' outcome =>
    obtain ⟨event', key', chain', requeued', -, rfl⟩ := step_write h
    have hkind : kind ≠ kind' := by
      rintro rfl
      exact hact outcome rfl
    exact hsame _ (update_of_ne hkind _ _)
  | tick duration =>
    cases h
    exact hsame _ rfl

variable {value : Option V}

/-- Nothing but a write changes a cache. -/
theorem caches_step (h : s.step config maxTriggerCycles requeueDelay act = some s')
    (kind key : String) :
    s'.caches kind key = s.caches kind key ∨
      ∃ value, act = .write kind (some value) ∧ ∃ event chain requeued,
        s.workers kind = .processing event key chain [] requeued := by
  cases act with
  | external kind' key' id =>
    obtain ⟨q, -, rfl⟩ := step_external h
    exact .inl rfl
  | queue kind' act =>
    obtain ⟨-, -, q, -, rfl⟩ := step_queue h
    exact .inl rfl
  | handOut kind' event' targets =>
    obtain ⟨item, q, -, -, -, -, rfl⟩ := step_handOut h
    exact .inl rfl
  | requeue kind' id =>
    obtain ⟨event, key', chain, target, todo, requeued, -, hcases⟩ := step_requeue h
    obtain ⟨-, rfl⟩ | ⟨q, -, -, rfl⟩ := hcases <;> exact .inl rfl
  | write kind' outcome =>
    obtain ⟨event, key', chain, requeued, hwk, rfl⟩ := step_write h
    cases outcome with
    | none => exact .inl rfl
    | some value =>
      by_cases hkey : kind = kind' ∧ key = key'
      · obtain ⟨rfl, rfl⟩ := hkey
        exact .inr ⟨value, rfl, event, chain, requeued, hwk⟩
      · left
        by_cases hkind : kind = kind'
        · subst hkind
          have hne : key ≠ key' := fun heq => hkey ⟨rfl, heq⟩
          simp [writeCache, hne]
        · simp [writeCache, hkind]
  | tick duration =>
    cases h
    exact .inl rfl

/-! ## Runs -/

variable {b : Behaviour (step (V := V) config maxTriggerCycles requeueDelay)}

/-- A step of the queue that hands a key out is one that processes it. -/
theorem processes_of_handsOut {n : ℕ} {target : TriggerSource}
    (h : ((queueRun b target.kind).state n).HandsOut ((queueRun b target.kind).act n) target.key) :
    Processes b n target := by
  obtain ⟨hfinish, hitem⟩ := h
  refine ⟨?_, hitem⟩
  have hnext := b.next n
  change (b.state n).queueAct maxTriggerCycles requeueDelay target.kind (b.act n) = .finish at hfinish
  cases hact : b.act n with
  | handOut kind event targets =>
    rw [hact, queueAct] at hfinish
    split_ifs at hfinish with hkind
    exact ⟨event, targets, hkind ▸ rfl⟩
  | queue kind act =>
    rw [hact] at hnext hfinish
    rw [queueAct] at hfinish
    split_ifs at hfinish
    exact absurd hfinish (step_queue hnext).2.1
  | external kind key id =>
    rw [hact, queueAct] at hfinish
    split_ifs at hfinish
  | requeue kind id =>
    rw [hact] at hfinish
    simp only [queueAct] at hfinish
    grind
  | write kind outcome | tick duration => rw [hact] at hfinish; cases hfinish

/-- What was written is in the cache until the resource is written again. -/
theorem caches_after {n₁ m : ℕ} {source : TriggerSource}
    (hwrites : Writes b n₁ source value) (hm : n₁ < m) :
    (b.state m).caches source.kind source.key = value ∨
      ∃ l value', n₁ < l ∧ l < m ∧ Writes b l source value' := by
  induction m, hm using le_induction with
  | base =>
    obtain ⟨hact, event, chain, requeued, hwk⟩ := hwrites
    have hnext := b.next n₁
    rw [hact] at hnext
    obtain ⟨_, _, _, _, hworker', hwritten⟩ := step_write hnext
    obtain ⟨rfl, rfl, rfl, -, rfl⟩ := processing.inj (hwk.symm.trans hworker')
    left
    rw [hwritten]
    simp [writeCache]
  | succ m hm ih =>
    rcases ih with hcache | ⟨l, value', hl, hlm, hwrites'⟩
    · rcases caches_step (b.next m) source.kind source.key with hsame | ⟨value', hact, hwk⟩
      · exact .inl (hsame.trans hcache)
      · exact .inr ⟨m, value', hm, lt_succ_self m, hact, hwk⟩
    · exact .inr ⟨l, value', hl, hlm.trans (lt_succ_self m), hwrites'⟩

/-- **Dependents see what they are requeued for**, where every step of a fair
run is settled. -/
theorem dependents_see {kinds : Set String}
    (hfair : ∀ kind ∈ kinds, FairRun config (queueRun b kind))
    (hsettled : ∀ n, Settled (b.state n) (b.act n)) : DependentsSee b kinds := by
  intro n₀ n₁ source target value hkind hrequeues hn hbetween hwrites
  obtain ⟨id, event, chain, todo, requeued, hact, hworker, hmade⟩ := hrequeues
  have hrun := hfair target.kind hkind
  have hlimit : (context maxTriggerCycles source.kind source.key chain).triggerChain.occurrenceCount
      target.kind target.key < maxTriggerCycles := by
    by_contra hge
    exact hmade (if_pos (decide_eq_true (Nat.le_of_not_lt hge)))
  -- with the requeue the dependent is on its way
  have honWay : ((queueRun b target.kind).state (n₀ + 1)).OnWay target.key := by
    have hcall : (queueRun b target.kind).act n₀ = .call id (.enqueueAfter target.key requeueDelay
        (context maxTriggerCycles source.kind source.key chain).triggerChain) := by
      change (b.state n₀).queueAct maxTriggerCycles requeueDelay target.kind (b.act n₀) = _
      simp only [hact, queueAct, hworker, requeue_eq hlimit, if_true]
    have hnext := (queueRun b target.kind).next n₀
    rw [hcall] at hnext
    exact Queue.onWay_call (fun item h => by cases h) hnext
  -- until the write the processing goes on, and holds the requeue
  have hgoesOn : ∀ n, n₀ < n → n ≤ n₁ → ∃ todo requeued,
      (b.state n).workers source.kind = .processing event source.key chain todo requeued ∧
        ⟨target.kind, target.key,
          (context maxTriggerCycles source.kind source.key chain).triggerChain⟩ ∈ requeued := by
    intro n hn₀
    induction n, hn₀ using le_induction with
    | base =>
      intro _
      have hnext := b.next n₀
      rw [hact] at hnext
      obtain ⟨event', key', chain', target', todo', requeued', hworker', hcases⟩ :=
        step_requeue hnext
      obtain ⟨rfl, rfl, rfl, htodo, rfl⟩ := processing.inj (hworker.symm.trans hworker')
      obtain ⟨rfl, rfl⟩ := List.cons.inj htodo
      obtain ⟨hdropped, -⟩ | ⟨q, -, -, hs'⟩ := hcases
      · exact absurd hdropped hmade
      · rw [hs']
        exact ⟨_, _, update_self _ _ _, List.mem_cons_self⟩
    | succ n hn₀ ih =>
      intro hle
      obtain ⟨todo', requeued', hworker', hmem⟩ := ih (le_of_succ_le hle)
      obtain ⟨todo'', requeued'', hworker'', hsub⟩ :=
        workers_step (b.next n) hworker' (hbetween n hn₀ hle)
      exact ⟨todo'', requeued'', hworker'', hsub hmem⟩
  have hnot : ∀ n, n₀ + 1 ≤ n → n < n₁ + 1 →
      ¬ ((queueRun b target.kind).state n).HandsOut ((queueRun b target.kind).act n) target.key := by
    intro n hn₀ hlt hout
    obtain ⟨⟨event', targets, hhandOut⟩, item, hholding, hkey⟩ := processes_of_handsOut hout
    have hne : n ≠ n₁ := by
      rintro rfl
      rw [hwrites.1] at hhandOut
      cases hhandOut
    obtain ⟨todo', requeued', hworker', hmem⟩ := hgoesOn n hn₀ (le_of_lt_succ hlt)
    have hstep := hsettled n
    rw [hhandOut] at hstep
    exact hstep item hholding _ _ _ _ _ _ hworker' _ hmem ⟨rfl, hkey.symm⟩
  obtain ⟨m, hm, hout⟩ := hrun.onWay_handsOut
    (hrun.onWay_of_not_handsOut honWay (succ_le_succ (le_of_lt hn)) hnot)
  exact ⟨m, hm, processes_of_handsOut hout, caches_after hwrites hm⟩

/-! ## Two runs

A Service changes, and its handler requeues a route. In one run the
Service is saved before the route is handed out, in the other after. -/

/-- The route that depends on the Service. -/
def route : TriggerSource := ⟨"HTTPRoute", "default/web"⟩

/-- The Service. -/
def service : TriggerSource := ⟨"Service", "default/backend"⟩

/-- The Service is handed out, and its handler requeues the route. -/
def serviceNotifies : List (ControlAct ℕ) :=
  [.external "Service" "default/backend" 0] ++
  ([.producer 0, .producer 0, .producer 0, .dequeue, .recv] : List Workqueue.Act).map (.queue "Service") ++
  [.handOut "Service" 0 [route], .requeue "Service" 0]

/-- The route comes through its queue and is processed. -/
def routeProcessed : List (ControlAct ℕ) :=
  ([.producer 0, .producer 0, .producer 0, .producer 0, .producer 0, .recvDelayed] :
    List Workqueue.Act).map (.queue "HTTPRoute") ++
  [.tick 100] ++
  ([.fire, .pop ⟨"default/web", [service], 100⟩, .move, .move, .move, .move, .rest, .dequeue,
    .recv] : List Workqueue.Act).map (.queue "HTTPRoute") ++
  [.handOut "HTTPRoute" 0 [], .write "HTTPRoute" (some (some 0))]

/-- The Service is saved. -/
def serviceSaved : List (ControlAct ℕ) := [.write "Service" (some (some 1))]

/-- The workers wait for more. -/
def workersWait : List (ControlAct ℕ) :=
  [.queue "Service" .dequeue, .queue "HTTPRoute" .dequeue]

/-- Saved first. -/
def savedFirst : List (ControlAct ℕ) :=
  serviceNotifies ++ serviceSaved ++ routeProcessed ++ workersWait

/-- Saved last. -/
def savedLast : List (ControlAct ℕ) :=
  serviceNotifies ++ routeProcessed ++ serviceSaved ++ workersWait

open Behaviour

theorem savedFirst_taken : ∀ n < savedFirst.length,
    (step .default 5 100 (restStates (step .default 5 100) .new savedFirst (.tick 1) n)
      (savedFirst.getD n (.tick 1))).isSome := by
  decide +kernel

theorem savedLast_taken : ∀ n < savedLast.length,
    (step .default 5 100 (restStates (step .default 5 100) .new savedLast (.tick 1) n)
      (savedLast.getD n (.tick 1))).isSome := by
  decide +kernel

/-- The run that saves first; after its actions only time passes. -/
def savedFirstRun : Behaviour (step (V := ℕ) .default 5 100) :=
  .rests _ .new savedFirst (.tick 1) savedFirst_taken fun _ => rfl

/-- The run that saves last. -/
def savedLastRun : Behaviour (step (V := ℕ) .default 5 100) :=
  .rests _ .new savedLast (.tick 1) savedLast_taken fun _ => rfl

variable {acts : List (ControlAct V)}

/-- In such a run time goes on. -/
theorem time_rests {hacts} {hidle} (kind : String) (t : ℕ) :
    t ≤ (((rests (step config maxTriggerCycles requeueDelay) new acts (.tick 1) hacts
      hidle).state (acts.length + t)).queues kind).now := by
  induction t with
  | zero => exact zero_le _
  | succ t ih =>
    have hnext := (rests (step config maxTriggerCycles requeueDelay) new acts (.tick 1)
      hacts hidle).next (acts.length + t)
    rw [rests_act (le_add_right _ _)] at hnext
    obtain hstate := some.inj hnext
    rw [← add_assoc, ← hstate]
    exact succ_le_succ ih

/-- Such a run is fair, if it leaves nothing to do. -/
theorem fair_rests {hacts} {hidle}
    (hquiet : FairRun.Quiet (((rests (step config maxTriggerCycles requeueDelay) new acts
      (.tick 1) hacts hidle).state acts.length).queues kind)) :
    FairRun config (queueRun (rests (step config maxTriggerCycles requeueDelay) new acts
      (.tick 1) hacts hidle) kind) := by
  refine FairRun.of_quiet rfl (m := acts.length) (fun n hn => ?_)
    fun t => ⟨acts.length + t, time_rests kind t⟩
  refine rests_stays (P := fun s : ControlPlane V => FairRun.Quiet (s.queues kind)) hquiet
    (fun _ _ h hstep => ?_) hn
  cases hstep
  exact { h with }

theorem saved_fair : ∀ kind ∈ ({"Service", "HTTPRoute"} : Set String),
    FairRun .default (queueRun savedFirstRun kind) ∧
      FairRun .default (queueRun savedLastRun kind) := by
  rintro kind (rfl | rfl) <;> constructor <;>
    exact fair_rests ⟨fun id => by cases id <;> rfl, rfl, rfl, rfl, rfl, rfl⟩

/-- Where the Service is saved first, nobody is at work when a resource is
handed out. -/
theorem savedFirst_settled (n : ℕ) : Settled (savedFirstRun.state n) (savedFirstRun.act n) := by
  have hothers : ∀ n < 29, n ≠ 6 → n ≠ 25 → (match savedFirst.getD n (.tick 1) with
    | .handOut _ _ _ => false
    | _ => true) = true := by decide +kernel
  have hidle {s : ControlPlane ℕ} (hs : ∀ kind, s.workers kind = .idle) (act : ControlAct ℕ) :
      Settled s act := by
    cases act with
    | handOut kind event targets =>
      intro item _ kind' event' key chain todo requeued hwk
      rw [hs kind'] at hwk
      cases hwk
    | _ => trivial
  by_cases h6 : n = 6
  · subst h6
    exact hidle (fun kind => rfl) _
  by_cases h25 : n = 25
  · subst h25
    obtain ⟨p, p', hworkers⟩ : ∃ p p', (savedFirstRun.state 25).workers =
      update (update (update (fun _ => .idle) "Service" p)
        "Service" p') "Service" .idle := ⟨_, _, rfl⟩
    refine hidle (fun kind => ?_) _
    rw [hworkers]
    by_cases hkind : kind = "Service"
    · rw [hkind, update_self]
    · simp only [update_of_ne hkind]
  · cases hact : savedFirstRun.act n with
    | handOut kind event targets =>
      rcases lt_or_ge n 29 with hn | hn
      · have hother := hothers n hn h6 h25
        change savedFirst.getD n (.tick 1) = .handOut kind event targets at hact
        rw [hact] at hother
        cases hother
      · have hlate : savedFirstRun.act n = .tick 1 := rests_act hn
        rw [hlate] at hact
        cases hact
    | _ => trivial

theorem dependents_see_savedFirst : DependentsSee savedFirstRun {"Service", "HTTPRoute"} ∧
      Requeues savedFirstRun 7 service route ∧ Writes savedFirstRun 8 service (some 1) :=
  ⟨dependents_see (fun kind hkind => (saved_fair kind hkind).1) savedFirst_settled,
    ⟨0, 0, [], [], [], rfl, rfl, by decide⟩, rfl, 0, [], _, rfl⟩

/-- **A dependent that does not see.** The run is fair; the route is handed
out between its requeue and the write of the Service, and never again. -/
theorem dependent_unseeing : (∀ kind ∈ ({"Service", "HTTPRoute"} : Set String),
      FairRun .default (queueRun savedLastRun kind)) ∧
    Requeues savedLastRun 7 service route ∧ Writes savedLastRun 26 service (some 1) ∧
    ¬ DependentsSee savedLastRun {"Service", "HTTPRoute"} := by
  have hrequeues : Requeues savedLastRun 7 service route := ⟨0, 0, [], [], [], rfl, rfl, by decide⟩
  have hwrites : Writes savedLastRun 26 service (some 1) := ⟨rfl, 0, [], _, rfl⟩
  refine ⟨fun kind hkind => (saved_fair kind hkind).2, hrequeues, hwrites, fun hsee => ?_⟩
  have hcheck : ∀ n < 26, 7 < n → (match savedLast.getD n (.tick 1) with
    | .write "Service" _ => false
    | _ => true) = true := by decide +kernel
  have hbetween : ∀ n, 7 < n → n < 26 → ∀ outcome,
      savedLastRun.act n ≠ .write service.kind outcome := by
    intro n hn hlt outcome hact
    have hother := hcheck n hlt hn
    change savedLast.getD n (.tick 1) = .write "Service" outcome at hact
    rw [hact] at hother
    cases hother
  obtain ⟨m, hm, ⟨⟨event, targets, hact⟩, -⟩, -⟩ :=
    hsee 7 26 service route (some 1) (.inr rfl) hrequeues (by decide) hbetween hwrites
  rcases lt_or_ge m 29 with hlt | hge
  · obtain rfl | rfl : m = 27 ∨ m = 28 := by omega
    · cases hact
    · cases hact
  · have hlate : savedLastRun.act m = .tick 1 := rests_act hge
    rw [hlate] at hact
    cases hact

end ControlPlane

end Edgion.Controller
