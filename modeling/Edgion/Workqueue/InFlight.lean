import Edgion.Workqueue.Tokens
import Edgion.Common.Steps
import Mathlib.Algebra.Order.BigOperators.Group.Finset
import Mathlib.Tactic.Abel

/-!
# Workqueue — the items in flight

An item is in flight from the call that adds it until the consumer hands
it out: with its producer, in the delay channel, in the heap, with the
delay loop, in the ready queue or with the consumer. A step of the queue
moves items on or drops them, where it finds the key marked. It makes no
item, it copies none, and it leaves the chain of each as it is; only calls
add items, one each.
-/

namespace Edgion.Workqueue

open List Option Multiset Finset Consumer Nat

variable {config : WorkqueueConfig} {q q' : Queue} {act : Act} {id n : ℕ}

/-- What an item is about, with the chain it carries. -/
abbrev Entry := String × TriggerChain

def WorkItem.entry (item : WorkItem) : Entry := (item.key, item.triggerChain)

def DelayedItem.entry (item : DelayedItem) : Entry := (item.key, item.chain)

def Producer.entry : Producer → Entry
  | .sleeping _ item | .checkPending item | .insertPending item | .sendReady item => item.entry
  | .checkEither key _ chain | .checkScheduled key _ chain | .insertScheduled key _ chain
  | .readClock key _ chain => (key, chain)
  | .sendDelayed item => item.entry

def DelayLoop.entries : DelayLoop → Multiset Entry
  | .select | .firing _ => 0
  | .unscheduling _ item | .checking _ item | .inserting _ item | .sending _ item => {item.entry}

def Consumer.entries : Consumer → Multiset Entry
  | .idle | .waiting => 0
  | .holding item => {item.entry}

/-- The item a call adds. -/
def Call.entry : Call → Entry
  | .enqueue key => (key, [])
  | .enqueueAfter key _ chain => (key, chain)
  | .requeueWithBackoff item => (item.key, [])

namespace Queue

/-- What a producer has in hand. -/
def producerEntries : Option Producer → Multiset Entry
  | none => 0
  | some p => {p.entry}

/-- **The items in flight**, with those of the first `n` producers. -/
def inFlight (n : ℕ) (q : Queue) : Multiset Entry :=
  (∑ id ∈ range n, producerEntries (q.producers id))
    + (q.delayed.map DelayedItem.entry : List Entry) + (q.heap.map DelayedItem.entry : List Entry)
    + q.delayLoop.entries + (q.ready.map WorkItem.entry : List Entry) + q.consumer.entries

theorem inFlight_new : (new).inFlight n = 0 := by
  simp [inFlight, new, producerEntries, DelayLoop.entries, entries]

theorem inFlight_mono {m : ℕ} (h : n ≤ m) (q : Queue) : q.inFlight n ≤ q.inFlight m := by
  have hproducers := sum_le_sum_of_subset (f := fun id => producerEntries (q.producers id))
    (range_subset_range.2 h)
  unfold inFlight
  gcongr

/-- A producer that goes on changes its own share. -/
theorem inFlight_setProducer (hid : id < n) (p : Option Producer) :
    (q.setProducer id p).inFlight n + producerEntries (q.producers id) =
      q.inFlight n + producerEntries p := by
  have hmem : id ∈ Finset.range n := Finset.mem_range.2 hid
  have hrest :
      ∑ id' ∈ (Finset.range n).erase id, producerEntries ((q.setProducer id p).producers id') =
        ∑ id' ∈ (Finset.range n).erase id, producerEntries (q.producers id') := by
    refine sum_congr rfl fun id' hid' => ?_
    rw [setProducer_producers, if_neg (ne_of_mem_erase hid')]
  have hself : (q.setProducer id p).producers id = p := by
    rw [setProducer_producers, if_pos rfl]
  simp only [inFlight, ← add_sum_erase _ _ hmem, hrest, hself]
  simp only [setProducer]
  abel

/-- **A producer's access** moves its item on or drops it. -/
theorem inFlight_stepProducer {p : Producer} {result : Option Bool} (hid : id < n)
    (hp : q.producers id = some p) (h : q.stepProducer config id p = some (q', result)) :
    q'.inFlight n ≤ q.inFlight n := by
  have hgoes (q1 : Queue) (hq1 : q1.producers id = some p) (p' : Producer)
      (hentry : p'.entry = p.entry) :
      (q1.setProducer id (some p')).inFlight n ≤ q1.inFlight n := by
    have hset := inFlight_setProducer (q := q1) hid (some p')
    rw [hq1, producerEntries, producerEntries, hentry] at hset
    exact (add_right_cancel hset).le
  have hends (q1 : Queue) (hq1 : q1.producers id = some p) :
      (q1.setProducer id none).inFlight n + {p.entry} = q1.inFlight n := by
    have hset := inFlight_setProducer (q := q1) hid none
    rwa [hq1, producerEntries, producerEntries, add_zero] at hset
  have hdrops : (q.setProducer id none).inFlight n ≤ q.inFlight n :=
    le_of_le_of_eq (le_add_right _ _) (hends q hp)
  cases p with
  | sleeping wakeAt item =>
    simp only [stepProducer] at h
    split_ifs at h
    obtain ⟨rfl, -⟩ := Prod.ext_iff.1 (some.inj h)
    exact hgoes q hp _ rfl
  | checkPending | checkEither | checkScheduled =>
    simp only [stepProducer] at h
    split_ifs at h <;> obtain ⟨rfl, -⟩ := Prod.ext_iff.1 (some.inj h)
    · exact hdrops
    · exact hgoes q hp _ rfl
  | insertPending | insertScheduled | readClock =>
    obtain ⟨rfl, -⟩ := Prod.ext_iff.1 (some.inj h)
    exact hgoes _ hp _ rfl
  | sendReady | sendDelayed =>
    simp only [stepProducer] at h
    split_ifs at h
    obtain ⟨rfl, -⟩ := Prod.ext_iff.1 (some.inj h)
    refine le_of_eq (add_right_cancel ((hends _ ?_).trans ?_))
    · exact hp
    · simp only [inFlight, List.map_append, List.map_cons, List.map_nil, ← Multiset.coe_add,
        Multiset.coe_singleton, Producer.entry]
      abel

/-- **The delay loop** moves its item on or drops it. -/
theorem inFlight_stepLoop (h : q.stepLoop config = some q') : q'.inFlight n ≤ q.inFlight n := by
  have hloop {q1 q2 : Queue} (hdelayLoop : q2.delayLoop.entries ≤ q1.delayLoop.entries)
      (hrest : { q2 with delayLoop := q1.delayLoop }.inFlight n = q1.inFlight n) :
      q2.inFlight n ≤ q1.inFlight n := by
    rw [← hrest]
    unfold inFlight
    gcongr
  unfold stepLoop at h
  split at h
  · next now item hitem =>
    cases h
    exact hloop (by rw [hitem]; rfl) rfl
  · next now item hitem =>
    split_ifs at h <;> cases h
    · exact hloop (zero_le _) rfl
    · exact hloop (by rw [hitem]; rfl) rfl
  · next now item hitem =>
    cases h
    exact hloop (by rw [hitem]; rfl) rfl
  · next now item hitem =>
    split_ifs at h
    cases h
    refine le_of_eq ?_
    simp only [inFlight, hitem, DelayLoop.entries, List.map_append, List.map_cons, List.map_nil,
      ← Multiset.coe_add, Multiset.coe_singleton, WorkItem.entry, WorkItem.withChain,
      DelayedItem.entry]
    abel
  · cases h
  · cases h

/-- What a step hands out. -/
def handedOut (q : Queue) : Act → Multiset Entry
  | .finish => q.consumer.entries
  | _ => 0

/-- **Steps of the queue make no item**: what is in flight after a step, with
what the step hands out, was in flight before. -/
theorem inFlight_step (h : q.step config act = some q') (hcall : ∀ id call, act ≠ .call id call)
    (hid : ∀ id, act = .producer id → id < n) :
    q'.inFlight n + q.handedOut act ≤ q.inFlight n := by
  cases act with
  | call id call => exact absurd rfl (hcall id call)
  | producer id =>
    simp only [step] at h
    split at h
    · next p hp =>
      obtain ⟨⟨q1, result⟩, hq, rfl⟩ := map_eq_some_iff.1 h
      simp only [handedOut, add_zero]
      exact inFlight_stepProducer (hid id rfl) hp hq
    · cases h
  | recvDelayed =>
    simp only [step] at h
    split at h
    · next item rest hloop hdel =>
      cases h
      refine le_of_eq ?_
      simp only [inFlight, handedOut, hdel, List.map_cons, ← cons_coe, ← singleton_add]
      abel
    · cases h
  | fire =>
    simp only [step] at h
    split at h
    · next nextReady hloop hready =>
      split_ifs at h
      cases h
      refine le_of_eq ?_
      simp only [inFlight, handedOut, hloop, DelayLoop.entries]
      abel
    · cases h
  | pop item =>
    simp only [step] at h
    split at h
    · next now hloop =>
      split_ifs at h with hpop
      cases h
      have hheap : (q.heap.map DelayedItem.entry : Multiset Entry) =
          {item.entry} + ((q.heap.erase item).map DelayedItem.entry : List Entry) := by
        rw [singleton_add, cons_coe, coe_eq_coe]
        exact (perm_cons_erase hpop.1).map _
      refine le_of_eq ?_
      simp only [inFlight, handedOut, hloop, DelayLoop.entries, hheap]
      abel
    · cases h
  | rest =>
    simp only [step] at h
    split at h
    · next now hloop =>
      split_ifs at h
      cases h
      refine le_of_eq ?_
      simp only [inFlight, handedOut, hloop, DelayLoop.entries]
      abel
    · cases h
  | move =>
    simp only [handedOut, add_zero]
    exact inFlight_stepLoop h
  | dequeue | finish =>
    simp only [step] at h
    split at h
    · rename_i hconsumer
      cases h
      refine le_of_eq ?_
      simp only [inFlight, handedOut, hconsumer, entries]
      abel
    · cases h
  | recv =>
    simp only [step] at h
    split at h
    · next item rest hwaiting hready =>
      cases h
      refine le_of_eq ?_
      simp only [inFlight, handedOut, hwaiting, hready, entries, List.map_cons,
        ← cons_coe, ← singleton_add]
      abel
    · cases h
  | tick duration =>
    cases h
    exact le_of_eq (add_zero _)

variable {call : Call}

/-- **A call adds one item.** -/
theorem inFlight_call (hid : id < n) (h : q.step config (.call id call) = some q') :
    q'.inFlight n ≤ q.inFlight n + {call.entry} := by
  simp only [step] at h
  split_ifs at h with hnone
  cases h
  have hset := inFlight_setProducer (q := q) hid (call.start config q.now)
  rw [hnone, producerEntries, add_zero] at hset
  rw [hset]
  gcongr
  cases call with
  | enqueue key | enqueueAfter key delay chain => exact le_rfl
  | requeueWithBackoff item =>
    simp only [Call.start]
    split_ifs
    · exact zero_le _
    · exact le_rfl

/-! With enough producers counted, the bounds hold for every step. -/

theorem exists_inFlight_step (h : q.step config act = some q')
    (hcall : ∀ id call, act ≠ .call id call) (n : ℕ) :
    ∃ m, q'.inFlight n + q.handedOut act ≤ q.inFlight m := by
  obtain ⟨m, hnm, hid⟩ : ∃ m, n ≤ m ∧ ∀ id, act = .producer id → id < m := by
    cases act with
    | producer id =>
      refine ⟨max n (id + 1), le_max_left _ _, ?_⟩
      rintro _ ⟨rfl⟩
      exact lt_of_lt_of_le (lt_succ_self id) (le_max_right _ _)
    | _ => exact ⟨n, le_rfl, nofun⟩
  refine ⟨m, le_trans ?_ (inFlight_step h hcall hid)⟩
  gcongr
  exact inFlight_mono hnm q'

theorem exists_inFlight_call (h : q.step config (.call id call) = some q') (n : ℕ) :
    ∃ m, q'.inFlight n ≤ q.inFlight m + {call.entry} :=
  ⟨max n (id + 1), (inFlight_mono (le_max_left _ _) q').trans
    (inFlight_call (lt_of_lt_of_le (lt_succ_self id) (le_max_right _ _)) h)⟩

end Queue

/-! ## Whole runs -/

open Common (Runs)

variable {acts : List Act}

/-- **Every mark has someone behind it, and no channel is over its capacity**, in every
interleaving. -/
theorem marked_of_runs {q : Queue} (hrun : Runs (Queue.step config) (fun _ _ => True) .new acts q) :
    q.Marked config :=
  hrun.invariant .new fun _ _ _ hq _ h => hq.step h

theorem marked_of_runs_pending : ∃ q : Queue, q.pending = {"a"} ∧ q.Marked .default := by
  refine ⟨_, ?_, marked_of_runs (.cons ⟨⟩ rfl (.cons ⟨⟩ rfl (.cons ⟨⟩ rfl (.nil _))) :
    Runs _ _ _ [.call 0 (.enqueue "a"), .producer 0, .producer 0] _)⟩
  rfl

/-- A queue, what was called for, and what was handed out. -/
structure Account where
  queue : Queue := .new
  called : Multiset Entry := 0
  out : Multiset Entry := 0

namespace Account

/-- A step, with what it adds to the account. -/
def step (config : WorkqueueConfig) (a : Account) (act : Act) : Option Account :=
  (a.queue.step config act).map fun queue =>
    { queue
      called := match act with
        | .call _ call => a.called + {call.entry}
        | _ => a.called
      out := a.out + a.queue.handedOut act }

/-- **Nothing is handed out that was not called for**: in every interleaving, what was handed out
and what is in flight was called for, as often and with the same chains. -/
theorem inFlight_add_out_le {a : Account}
    (hrun : Runs (step config) (fun _ _ => True) {} acts a) (n : ℕ) :
    a.queue.inFlight n + a.out ≤ a.called := by
  revert n
  apply hrun.invariant
  · exact fun n => (congrArg (· + 0) Queue.inFlight_new).le
  intro a act a' h _ hstep n
  obtain ⟨q, hq, rfl⟩ := Option.map_eq_some_iff.1 hstep
  by_cases hcall : ∃ id call, act = .call id call
  · obtain ⟨id, call, rfl⟩ := hcall
    obtain ⟨m, hm⟩ := Queue.exists_inFlight_call hq n
    calc q.inFlight n + (a.out + 0) ≤ a.queue.inFlight m + {call.entry} + a.out := by
          rw [add_zero]
          gcongr
      _ = a.queue.inFlight m + a.out + {call.entry} := add_right_comm _ _ _
      _ ≤ a.called + {call.entry} := by
          gcongr
          exact h m
  · have hcall : ∀ id call, act ≠ .call id call := fun id call h => hcall ⟨id, call, h⟩
    obtain ⟨m, hm⟩ := Queue.exists_inFlight_step hq hcall n
    calc q.inFlight n + (a.out + a.queue.handedOut act)
        = q.inFlight n + a.queue.handedOut act + a.out := by rw [add_assoc, add_comm a.out]
      _ ≤ a.queue.inFlight m + a.out := by gcongr
      _ ≤ a.called := h m
      _ = _ := by
        cases act with
        | call id call => exact absurd rfl (hcall id call)
        | _ => rfl

/-- A key that was called for once is handed out once. -/
theorem inFlight_add_out_le_once :
    ∃ a : Account, a.out = {("a", [])} ∧ a.queue.inFlight 1 + a.out ≤ a.called := by
  refine ⟨_, ?_, inFlight_add_out_le (.cons ⟨⟩ rfl (.cons ⟨⟩ rfl (.cons ⟨⟩ rfl (.cons ⟨⟩ rfl
    (.cons ⟨⟩ rfl (.cons ⟨⟩ rfl (.cons ⟨⟩ rfl (.nil _))))))) :
    Runs (step .default) _ _ [.call 0 (.enqueue "a"), .producer 0, .producer 0, .producer 0,
      .dequeue, .recv, .finish] _) 1⟩
  rfl

end Account

end Edgion.Workqueue
