import Edgion.Controller.Processor
import Edgion.Workqueue.InFlight

/-!
# Controller — the queues and workers of all kinds

Every kind of resource has a workqueue and a worker. The worker takes an
item from its queue and runs the handler. From `on_change` or `on_delete`
the handler requeues resources of any kind, each by a task of its own that
calls `enqueue_after` on the queue of that kind. Then the worker writes
the server cache. Between any two accesses of one party every other party
may take its own.

What a handler is going to requeue is settled when it gets the item, and
may be any list of resources. Two things are there for the account only:
each event from outside has a number, and each item, in flight or in
work, is tagged with the number of the event it comes from.
-/

namespace Edgion.Controller

open Workqueue Function Option

universe u

variable {V : Type u}

/-- **Where a worker is**: outside, or with an item, resources left to requeue
and the requeues made. -/
inductive Worker
  | idle
  | processing (event : ℕ) (key : String) (chain : TriggerChain) (todo : List TriggerSource)
      (requeued : List Requeue)
deriving DecidableEq, Repr

/-- The account of an item: the event it comes from, and how many resources
its handler is still to requeue, once it is in work. -/
structure Tag where
  event : ℕ
  kind : String
  entry : Entry
  left : Option ℕ
deriving DecidableEq, Repr

/-- The queues, workers and server caches of all kinds, with the account. -/
structure ControlPlane (V : Type u) where
  queues : String → Queue
  workers : String → Worker
  caches : String → String → Option V
  tags : Multiset Tag
  events : ℕ

/-- What can happen. -/
inductive ControlAct (V : Type u)
  /-- A watch event or another cause outside the cascades adds a key. -/
  | external (kind key : String) (id : ℕ)
  /-- A queue makes a step of its own. -/
  | queue (kind : String) (act : Workqueue.Act)
  /-- The worker gets the item that its call of `dequeue` holds. -/
  | handOut (kind : String) (event : ℕ) (targets : List TriggerSource)
  /-- The handler calls `HandlerContext::requeue`. -/
  | requeue (kind : String) (id : ℕ)
  /-- The worker writes the object, removes it or, having skipped it, does
  neither. -/
  | write (kind : String) (outcome : Option (Option V))
  /-- Time passes. -/
  | tick (duration : ℕ)

namespace ControlPlane

/-- Before the first event. -/
def new : ControlPlane V where
  queues := fun _ => .new
  workers := fun _ => .idle
  caches := fun _ _ => none
  tags := 0
  events := 0

section Defs

variable (config : WorkqueueConfig) (maxTriggerCycles requeueDelay : ℕ) (s : ControlPlane V)

/-- A queue makes a step. -/
def stepQueue (kind : String) (act : Workqueue.Act) : Option (ControlPlane V) :=
  ((s.queues kind).step config act).map fun q =>
    { s with queues := update s.queues kind q }

/-- The context that `process_work_item` makes, without the filters. -/
def context (kind key : String) (chain : TriggerChain) : HandlerContext :=
  ⟨none, none, chain.extend kind key, maxTriggerCycles⟩

/-- Write the server cache. -/
def writeCache (kind key : String) (outcome : Option (Option V)) : ControlPlane V :=
  match outcome with
  | none => s
  | some value =>
    { s with caches := update s.caches kind (update (s.caches kind) key value) }

/-- **A step.** -/
def step : ControlAct V → Option (ControlPlane V)
  | .external kind key id =>
    (s.stepQueue config kind (.call id (.enqueue key))).map fun s =>
      { s with
        tags := ⟨s.events, kind, (key, []), none⟩ ::ₘ s.tags
        events := s.events + 1 }
  | .queue kind act =>
    match act with
    | .call _ _ | .finish | .tick _ => none
    | .dequeue => if s.workers kind = .idle then s.stepQueue config kind act else none
    | _ => s.stepQueue config kind act
  | .handOut kind event targets =>
    match s.workers kind, (s.queues kind).consumer with
    | .idle, .holding item =>
      let tag := ⟨event, kind, item.entry, none⟩
      if tag ∈ s.tags then
        (s.stepQueue config kind .finish).map fun s =>
          { s with
            workers := update s.workers kind
              (.processing event item.key item.triggerChain targets [])
            tags := ⟨event, kind, item.entry, some targets.length⟩ ::ₘ s.tags.erase tag }
      else none
    | _, _ => none
  | .requeue kind id =>
    match s.workers kind with
    | .processing event key chain (target :: todo) requeued =>
      let tags := ⟨event, kind, (key, chain), some todo.length⟩ ::ₘ
        s.tags.erase ⟨event, kind, (key, chain), some (todo.length + 1)⟩
      match (context maxTriggerCycles kind key chain).requeue target.kind target.key with
      | [] =>
        some { s with
          workers := update s.workers kind (.processing event key chain todo requeued)
          tags }
      | r :: _ =>
        (s.stepQueue config r.kind (.call id (.enqueueAfter r.key requeueDelay r.chain))).map
          fun s => { s with
            workers := update s.workers kind (.processing event key chain todo (r :: requeued))
            tags := ⟨event, r.kind, (r.key, r.chain), none⟩ ::ₘ tags }
    | _ => none
  | .write kind outcome =>
    match s.workers kind with
    | .processing event key chain [] _ =>
      some { s.writeCache kind key outcome with
        workers := update s.workers kind .idle
        tags := s.tags.erase ⟨event, kind, (key, chain), some 0⟩ }
    | _ => none
  | .tick duration =>
    some { s with queues := fun kind =>
      { s.queues kind with now := (s.queues kind).now + duration } }

end Defs

/-! ## What a step does -/

variable {config : WorkqueueConfig} {maxTriggerCycles requeueDelay : ℕ}
variable {s s' : ControlPlane V} {kind key : String} {id event : ℕ} {act : Workqueue.Act}

theorem stepQueue_eq (h : s.stepQueue config kind act = some s') :
    ∃ q, (s.queues kind).step config act = some q ∧
      s' = { s with queues := update s.queues kind q } := by
  obtain ⟨q, hq, rfl⟩ := map_eq_some_iff.1 h
  exact ⟨q, hq, rfl⟩

theorem step_external
    (h : s.step config maxTriggerCycles requeueDelay (.external kind key id) = some s') :
    ∃ q, (s.queues kind).step config (.call id (.enqueue key)) = some q ∧ s' = { s with
      queues := update s.queues kind q
      tags := ⟨s.events, kind, (key, []), none⟩ ::ₘ s.tags
      events := s.events + 1 } := by
  obtain ⟨s1, hs1, rfl⟩ := map_eq_some_iff.1 h
  obtain ⟨q, hq, rfl⟩ := stepQueue_eq hs1
  exact ⟨q, hq, rfl⟩

theorem step_queue (h : s.step config maxTriggerCycles requeueDelay (.queue kind act) = some s') :
    (∀ id call, act ≠ .call id call) ∧ act ≠ .finish ∧
      ∃ q, (s.queues kind).step config act = some q ∧
        s' = { s with queues := update s.queues kind q } := by
  cases act with
  | call id call | finish | tick duration => cases h
  | dequeue =>
    simp only [step] at h
    split_ifs at h
    exact ⟨nofun, nofun, stepQueue_eq h⟩
  | _ => exact ⟨nofun, nofun, stepQueue_eq h⟩

theorem step_handOut {targets : List TriggerSource}
    (h : s.step config maxTriggerCycles requeueDelay (.handOut kind event targets) = some s') :
    ∃ item q, s.workers kind = .idle ∧ (s.queues kind).consumer = .holding item ∧
      ⟨event, kind, item.entry, none⟩ ∈ s.tags ∧
      (s.queues kind).step config .finish = some q ∧
      s' = { s with
        queues := update s.queues kind q
        workers := update s.workers kind (.processing event item.key item.triggerChain targets [])
        tags := ⟨event, kind, item.entry, some targets.length⟩ ::ₘ
          s.tags.erase ⟨event, kind, item.entry, none⟩ } := by
  simp only [step] at h
  split at h
  · next item hidle hholding =>
    split_ifs at h with htag
    obtain ⟨s1, hs1, rfl⟩ := map_eq_some_iff.1 h
    obtain ⟨q, hq, rfl⟩ := stepQueue_eq hs1
    exact ⟨item, q, hidle, hholding, htag, hq, rfl⟩
  · cases h

/-- **A requeue** is dropped, or a task calls `enqueue_after`. -/
theorem step_requeue
    (h : s.step config maxTriggerCycles requeueDelay (.requeue kind id) = some s') :
    ∃ event key chain target todo requeued,
      s.workers kind = .processing event key chain (target :: todo) requeued ∧
      let ctx := context maxTriggerCycles kind key chain
      let tags := ⟨event, kind, (key, chain), some todo.length⟩ ::ₘ
        s.tags.erase ⟨event, kind, (key, chain), some (todo.length + 1)⟩
      (ctx.requeue target.kind target.key = [] ∧ s' = { s with
        workers := update s.workers kind (.processing event key chain todo requeued)
        tags }) ∨
      ∃ q, ctx.triggerChain.occurrenceCount target.kind target.key < maxTriggerCycles ∧
        (s.queues target.kind).step config
          (.call id (.enqueueAfter target.key requeueDelay ctx.triggerChain)) = some q ∧
        s' = { s with
          queues := update s.queues target.kind q
          workers := update s.workers kind (.processing event key chain todo
            (⟨target.kind, target.key, ctx.triggerChain⟩ :: requeued))
          tags := ⟨event, target.kind, (target.key, ctx.triggerChain), none⟩ ::ₘ tags } := by
  simp only [step] at h
  split at h
  · next event key chain target todo requeued hwk =>
    refine ⟨event, key, chain, target, todo, requeued, hwk, ?_⟩
    split at h
    · next hdrop => exact .inl ⟨hdrop, (some.inj h).symm⟩
    · next r rs hmade =>
      unfold HandlerContext.requeue at hmade
      split_ifs at hmade with hlimit
      obtain ⟨rfl, -⟩ := List.cons.inj hmade
      obtain ⟨s1, hs1, rfl⟩ := map_eq_some_iff.1 h
      obtain ⟨q, hq, rfl⟩ := stepQueue_eq hs1
      refine .inr ⟨q, lt_of_not_ge fun hge => hlimit ?_, hq, rfl⟩
      exact decide_eq_true hge
  · cases h

theorem step_write {outcome : Option (Option V)}
    (h : s.step config maxTriggerCycles requeueDelay (.write kind outcome) = some s') :
    ∃ event key chain requeued, s.workers kind = .processing event key chain [] requeued ∧
      s' = { s.writeCache kind key outcome with
        workers := update s.workers kind .idle
        tags := s.tags.erase ⟨event, kind, (key, chain), some 0⟩ } := by
  simp only [step] at h
  split at h
  · next event key chain requeued hwk =>
    exact ⟨event, key, chain, requeued, hwk, (some.inj h).symm⟩
  · cases h

end ControlPlane

end Edgion.Controller
