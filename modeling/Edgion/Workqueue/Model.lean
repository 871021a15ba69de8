import Edgion.Common.Fairness
import Mathlib.Algebra.Group.Nat.Defs

/-!
# Workqueue — the model

A workqueue hands keys to one consumer. Two sets keep a key from being
queued twice: `pending` for the ready queue, `scheduled` for the delay
queue. Neither set is changed together with the queue it guards. A
producer asks whether the key is there, marks it, and only then sends it;
the consumer receives an item first and clears the mark afterwards; the
delay loop clears one mark, asks for the other, sets it and sends. Every
one of these accesses is a step of its own here, and between any two of
them every other party may take its own.

The two channels are bounded and first in, first out; a send waits for
room. The queue is never dropped, so a send does not fail.
-/

namespace Edgion.Workqueue

/-! ## Items and configuration -/

structure TriggerSource where
  kind : String
  key : String
deriving DecidableEq, Repr

/-- `TriggerChain`, from oldest to newest. -/
abbrev TriggerChain := List TriggerSource

namespace TriggerChain

variable (chain : TriggerChain) (kind key : String)

def extend : TriggerChain := chain ++ [⟨kind, key⟩]

def occurrenceCount : ℕ :=
  (chain.filter fun s => s.kind = kind && s.key = key).length

def wouldExceedCycleLimit (targetKind targetKey : String)
    (maxCycles : ℕ) : Bool :=
  chain.occurrenceCount targetKind targetKey ≥ maxCycles

end TriggerChain

structure WorkItem where
  key : String
  retryCount : ℕ
  triggerChain : TriggerChain
deriving DecidableEq, Repr

namespace WorkItem

variable (key : String)

def new : WorkItem := ⟨key, 0, []⟩

def forRetry (retryCount : ℕ) : WorkItem := ⟨key, retryCount, []⟩

def withChain (chain : TriggerChain) : WorkItem := ⟨key, 0, chain⟩

end WorkItem

structure DelayedItem where
  key : String
  chain : TriggerChain
  readyAt : ℕ
deriving DecidableEq, Repr

/-- `WorkqueueConfig`, with durations in milliseconds. A channel of capacity
zero cannot be made. -/
structure WorkqueueConfig where
  capacity : ℕ
  maxRetries : ℕ
  initialBackoff : ℕ
  maxBackoff : ℕ
  capacity_pos : 0 < capacity

def WorkqueueConfig.default : WorkqueueConfig where
  capacity := 1000
  maxRetries := 5
  initialBackoff := 100
  maxBackoff := 30000
  capacity_pos := by decide

/-- The backoff before a retry. -/
def WorkqueueConfig.backoff (config : WorkqueueConfig) (retryCount : ℕ) : ℕ :=
  min (config.initialBackoff * min (2 ^ retryCount) (2 ^ 32 - 1)) config.maxBackoff

/-! ## The parties -/

/-- **Where a producer is**: the access it makes next. The first four are of
`enqueue`, and of the task of `requeue_with_backoff` once it has slept. -/
inductive Producer
  | sleeping (wakeAt : ℕ) (item : WorkItem)
  | checkPending (item : WorkItem)
  | insertPending (item : WorkItem)
  | sendReady (item : WorkItem)
  | checkEither (key : String) (delay : ℕ) (chain : TriggerChain)
  | checkScheduled (key : String) (delay : ℕ) (chain : TriggerChain)
  | insertScheduled (key : String) (delay : ℕ) (chain : TriggerChain)
  | readClock (key : String) (delay : ℕ) (chain : TriggerChain)
  | sendDelayed (item : DelayedItem)
deriving DecidableEq, Repr

/-- The key a producer is about. -/
def Producer.key : Producer → String
  | .sleeping _ item | .checkPending item | .insertPending item | .sendReady item => item.key
  | .checkEither key _ _ | .checkScheduled key _ _ | .insertScheduled key _ _
  | .readClock key _ _ => key
  | .sendDelayed item => item.key

/-- **Where the delay loop is**: waiting at the top, or moving the items due
at `now` one by one. -/
inductive DelayLoop
  | select
  | firing (now : ℕ)
  | unscheduling (now : ℕ) (item : DelayedItem)
  | checking (now : ℕ) (item : DelayedItem)
  | inserting (now : ℕ) (item : DelayedItem)
  | sending (now : ℕ) (item : DelayedItem)
deriving DecidableEq, Repr

/-- **Where the consumer is**: outside `dequeue`, waiting for an item, or
with one received whose mark it has not cleared. The receiver is behind a
mutex, so one `dequeue` is past it at a time. -/
inductive Consumer
  | idle
  | waiting
  | holding (item : WorkItem)
deriving DecidableEq, Repr

/-- The calls that add a key. -/
inductive Call
  | enqueue (key : String)
  | enqueueAfter (key : String) (delay : ℕ) (chain : TriggerChain)
  | requeueWithBackoff (item : WorkItem)
deriving DecidableEq, Repr

/-- The key a call is about. -/
def Call.key : Call → String
  | .enqueue key | .enqueueAfter key _ _ => key
  | .requeueWithBackoff item => item.key

/-- A workqueue and the parties at work on it. -/
structure Queue where
  now : ℕ
  pending : Finset String
  scheduled : Finset String
  ready : List WorkItem
  delayed : List DelayedItem
  heap : List DelayedItem
  delayLoop : DelayLoop
  consumer : Consumer
  producers : ℕ → Option Producer

def Queue.new : Queue where
  now := 0
  pending := ∅
  scheduled := ∅
  ready := []
  delayed := []
  heap := []
  delayLoop := .select
  consumer := .idle
  producers := fun _ => none

/-! ## Steps -/

variable (config : WorkqueueConfig)

/-- The first access of a call. A retry past the limit gives up. -/
def Call.start (call : Call) (now : ℕ) : Option Producer :=
  match call with
  | .enqueue key => some (.checkPending (.new key))
  | .enqueueAfter key delay chain => some (.checkEither key delay chain)
  | .requeueWithBackoff item =>
    let newRetryCount := item.retryCount + 1
    if newRetryCount > config.maxRetries then none
    else some (.sleeping (now + config.backoff item.retryCount) (.forRetry item.key newRetryCount))

namespace Queue

variable (q : Queue)

/-- Producer `id` goes on to `producer`, or ends. -/
def setProducer (id : ℕ) (producer : Option Producer) : Queue :=
  { q with producers := Function.update q.producers id producer }

/-- **A producer's next access**, with what its call returns where it ends
with it. Nothing where it waits. -/
def stepProducer (id : ℕ) (producer : Producer) : Option (Queue × Option Bool) :=
  match producer with
  | .sleeping wakeAt item =>
    if wakeAt ≤ q.now then some (q.setProducer id (some (.checkPending item)), none) else none
  | .checkPending item =>
    if item.key ∈ q.pending then some (q.setProducer id none, some false)
    else some (q.setProducer id (some (.insertPending item)), none)
  | .insertPending item =>
    some ({ q with pending := insert item.key q.pending }.setProducer id (some (.sendReady item)),
      none)
  | .sendReady item =>
    if q.ready.length < config.capacity then
      some ({ q with ready := q.ready ++ [item] }.setProducer id none, some true)
    else none
  | .checkEither key delay chain =>
    if key ∈ q.pending then some (q.setProducer id none, some false)
    else some (q.setProducer id (some (.checkScheduled key delay chain)), none)
  | .checkScheduled key delay chain =>
    if key ∈ q.scheduled then some (q.setProducer id none, some false)
    else some (q.setProducer id (some (.insertScheduled key delay chain)), none)
  | .insertScheduled key delay chain =>
    some ({ q with scheduled := insert key q.scheduled }.setProducer id
      (some (.readClock key delay chain)), none)
  | .readClock key delay chain =>
    some (q.setProducer id (some (.sendDelayed ⟨key, chain, q.now + delay⟩)), none)
  | .sendDelayed item =>
    if q.delayed.length < config.capacity then
      some ({ q with delayed := q.delayed ++ [item] }.setProducer id none, some true)
    else none

/-- `ready_at` of the top of the heap. -/
def nextReady : Option ℕ := (q.heap.map DelayedItem.readyAt).min?

/-- **The delay loop's next access**, past the top of its heap. -/
def stepLoop : Option Queue :=
  match q.delayLoop with
  | .unscheduling now item =>
    some { q with scheduled := q.scheduled.erase item.key, delayLoop := .checking now item }
  | .checking now item =>
    if item.key ∈ q.pending then some { q with delayLoop := .firing now }
    else some { q with delayLoop := .inserting now item }
  | .inserting now item =>
    some { q with pending := insert item.key q.pending, delayLoop := .sending now item }
  | .sending now item =>
    if q.ready.length < config.capacity then
      some { q with
        ready := q.ready ++ [.withChain item.key item.chain]
        delayLoop := .firing now }
    else none
  | .select | .firing _ => none

end Queue

/-- **What can happen**, one access at a time. -/
inductive Act
  /-- A call is made. -/
  | call (id : ℕ) (call : Call)
  /-- A producer makes its next access. -/
  | producer (id : ℕ)
  /-- At the top: an item comes from the delay channel. -/
  | recvDelayed
  /-- At the top: the time of the first item has come. -/
  | fire
  /-- The first item is due and leaves the heap. Which of several with one
  time is first is left open. -/
  | pop (item : DelayedItem)
  /-- No item is due any more. -/
  | rest
  /-- The delay loop goes on with the item it popped. -/
  | move
  /-- `dequeue` is called. -/
  | dequeue
  /-- `dequeue` receives an item. -/
  | recv
  /-- `dequeue` clears the mark and returns the item. -/
  | finish
  /-- Time passes. -/
  | tick (duration : ℕ)
deriving DecidableEq, Repr

/-- **A step.** -/
def Queue.step (q : Queue) (act : Act) : Option Queue :=
  match act with
  | .call id call =>
    if q.producers id = none then some (q.setProducer id (call.start config q.now)) else none
  | .producer id =>
    match q.producers id with
    | some producer => (q.stepProducer config id producer).map Prod.fst
    | none => none
  | .recvDelayed =>
    match q.delayLoop, q.delayed with
    | .select, item :: rest => some { q with delayed := rest, heap := item :: q.heap }
    | _, _ => none
  | .fire =>
    match q.delayLoop, q.nextReady with
    | .select, some nextReady =>
      if nextReady ≤ q.now then some { q with delayLoop := .firing q.now } else none
    | _, _ => none
  | .pop item =>
    match q.delayLoop with
    | .firing now =>
      if item ∈ q.heap ∧ q.nextReady = some item.readyAt ∧ item.readyAt ≤ now then
        some { q with heap := q.heap.erase item, delayLoop := .unscheduling now item }
      else none
    | _ => none
  | .rest =>
    match q.delayLoop with
    | .firing now =>
      if ∀ nextReady ∈ q.nextReady, now < nextReady then some { q with delayLoop := .select }
      else none
    | _ => none
  | .move => q.stepLoop config
  | .dequeue =>
    match q.consumer with
    | .idle => some { q with consumer := .waiting }
    | _ => none
  | .recv =>
    match q.consumer, q.ready with
    | .waiting, item :: rest => some { q with ready := rest, consumer := .holding item }
    | _, _ => none
  | .finish =>
    match q.consumer with
    | .holding item =>
      some { q with pending := q.pending.erase item.key, consumer := .idle }
    | _ => none
  | .tick duration => some { q with now := q.now + duration }

/-- What the call of producer `id` returns with its next access, where it
returns. -/
def Queue.returns (q : Queue) (id : ℕ) : Option Bool :=
  (q.producers id).bind fun producer => (q.stepProducer config id producer).bind Prod.snd

/-! ## Fair runs -/

/-- The parties that must go on. The two branches of the loop's `select!`
are apart, since either may be taken where both can. -/
inductive Turn
  | producer (id : ℕ)
  | recvDelayed
  | fire
  | delayLoop
  | consumer
deriving DecidableEq, Repr

/-- Whose turn an action is. -/
def Act.turn : Act → Option Turn
  | .producer id => some (.producer id)
  | .recvDelayed => some .recvDelayed
  | .fire => some .fire
  | .pop _ | .rest | .move => some .delayLoop
  | .dequeue | .recv | .finish => some .consumer
  | .call _ _ | .tick _ => none

open Common

/-- **A fair run** of a new workqueue: every party that can go on again and
again does (the runtime schedules every task, a channel admits waiting
senders in order, `select!` prefers no branch), `dequeue` keeps being
called, and time advances. -/
structure FairRun (b : Behaviour (Queue.step config)) : Prop where
  init : b.state 0 = .new
  fair : ∀ turn, b.Fair fun act => act.turn = some turn
  time : ∀ t, ∃ n, t ≤ (b.state n).now

end Edgion.Workqueue
