import Edgion.Workqueue.Model

/-!
# Workqueue — what stands behind a mark

A key marked as pending is on its way to the consumer: a producer or the
delay loop has marked it and is about to send it, or it is in the ready
queue, or the consumer has received it and not yet cleared the mark. A key
marked as scheduled is on its way to the ready queue in the same sense.
So a call that finds the mark may leave the key to whoever set it.
-/

namespace Edgion.Workqueue

open List

variable {config : WorkqueueConfig} {q q' : Queue} {act : Act} {id : ℕ} {k : String}

/-! ## What a step changes -/

namespace Queue

section setProducer

variable (q : Queue) (id : ℕ) (p : Option Producer)

@[grind =] theorem setProducer_now : (q.setProducer id p).now = q.now := rfl

@[grind =] theorem setProducer_pending : (q.setProducer id p).pending = q.pending := rfl

@[grind =] theorem setProducer_scheduled : (q.setProducer id p).scheduled = q.scheduled := rfl

@[grind =] theorem setProducer_ready : (q.setProducer id p).ready = q.ready := rfl

@[grind =] theorem setProducer_delayed : (q.setProducer id p).delayed = q.delayed := rfl

@[grind =] theorem setProducer_heap : (q.setProducer id p).heap = q.heap := rfl

@[grind =] theorem setProducer_delayLoop : (q.setProducer id p).delayLoop = q.delayLoop := rfl

@[grind =] theorem setProducer_consumer : (q.setProducer id p).consumer = q.consumer := rfl

@[grind =] theorem setProducer_producers (id' : ℕ) :
    (q.setProducer id p).producers id' = if id' = id then p else q.producers id' :=
  Function.update_apply _ _ _ _

end setProducer

/-- **What a producer's access changes.** -/
structure ProducerStep (config : WorkqueueConfig) (q q' : Queue) (id : ℕ) (p : Producer) :
    Prop where
  now : q'.now = q.now
  consumer : q'.consumer = q.consumer
  delayLoop : q'.delayLoop = q.delayLoop
  heap : q'.heap = q.heap
  others : ∀ id', id' ≠ id → q'.producers id' = q.producers id'
  key : ∀ p', q'.producers id = some p' → p'.key = p.key
  ready : q'.ready = q.ready ∨ ∃ item, q.ready.length < config.capacity ∧
    q'.ready = q.ready ++ [item]
  delayed : q'.delayed = q.delayed ∨ ∃ item, q.delayed.length < config.capacity ∧
    q'.delayed = q.delayed ++ [item]
  pending : ∀ k ∈ q'.pending, k ∈ q.pending ∨
    ∃ item, q'.producers id = some (.sendReady item) ∧ item.key = k
  scheduled : ∀ k ∈ q'.scheduled, k ∈ q.scheduled ∨
    ∃ delay chain, q'.producers id = some (.readClock k delay chain)
  sendReady : ∀ item, p = .sendReady item → item ∈ q'.ready
  readClock : ∀ key delay chain, p = .readClock key delay chain →
    q'.producers id = some (.sendDelayed ⟨key, chain, q.now + delay⟩)
  sendDelayed : ∀ item, p = .sendDelayed item → item ∈ q'.delayed

theorem producerStep {p : Producer} {result : Option Bool}
    (h : q.stepProducer config id p = some (q', result)) : ProducerStep config q q' id p := by
  cases p <;> simp only [stepProducer] at h
  all_goals constructor
  all_goals grind [Producer.key]

theorem step_producer (h : q.step config (.producer id) = some q') :
    ∃ p, q.producers id = some p ∧ ProducerStep config q q' id p := by
  simp only [step] at h
  split at h
  · next p hp =>
    obtain ⟨⟨q1, result⟩, hq, rfl⟩ := Option.map_eq_some_iff.1 h
    exact ⟨p, hp, producerStep hq⟩
  · cases h

section

variable (h : q.step config act = some q')

include h

theorem step_now : q.now ≤ q'.now := by
  cases act with
  | producer id =>
    obtain ⟨p, -, hstep⟩ := step_producer h
    exact hstep.now.ge
  | _ => simp only [step, stepLoop] at h; grind

variable {p : Producer}

/-- Who is in the middle of a call stays until its own next access. -/
theorem step_producers
    (hp : q.producers id = some p) (hact : act ≠ .producer id) : q'.producers id = some p := by
  cases act with
  | producer id' =>
    obtain ⟨p', -, hstep⟩ := step_producer h
    rw [hstep.others id fun heq => hact (heq ▸ rfl), hp]
  | call id' call => simp only [step] at h; grind
  | _ =>
    have hsame : q'.producers = q.producers := by
      simp only [step, stepLoop] at h
      grind
    rw [hsame, hp]

/-- Who is in the middle of a call makes its next access, or stays. -/
theorem step_of_producers (hp : q.producers id = some p) :
    (act = .producer id ∧ ProducerStep config q q' id p) ∨ q'.producers id = some p := by
  by_cases hact : act = .producer id
  · subst hact
    obtain ⟨p', hp', hstep⟩ := step_producer h
    obtain rfl : p' = p := Option.some.inj (hp'.symm.trans hp)
    exact .inl ⟨rfl, hstep⟩
  · exact .inr (step_producers h hp hact)

theorem step_consumer (hturn : act.turn ≠ some .consumer) : q'.consumer = q.consumer := by
  cases act with
  | producer id =>
    obtain ⟨p, -, hstep⟩ := step_producer h
    exact hstep.consumer
  | _ => simp only [step, stepLoop] at h; grind [Act.turn]

/-- **The ready queue**: an item is added at the end where there is room, or
the first is received. -/
theorem step_ready : q'.ready = q.ready ∨
    (∃ item, q.ready.length < config.capacity ∧ q'.ready = q.ready ++ [item]) ∨
    (act = .recv ∧ ∃ item, q.ready = item :: q'.ready ∧ q'.consumer = .holding item) := by
  cases act with
  | producer id =>
    obtain ⟨p, -, hstep⟩ := step_producer h
    exact hstep.ready.imp_right .inl
  | _ => simp only [step, stepLoop] at h; grind

/-- **The delay channel**, in the same way. -/
theorem step_delayed : q'.delayed = q.delayed ∨
    (∃ item, q.delayed.length < config.capacity ∧ q'.delayed = q.delayed ++ [item]) ∨
    (act = .recvDelayed ∧ ∃ item, q.delayed = item :: q'.delayed ∧ item ∈ q'.heap) := by
  cases act with
  | producer id =>
    obtain ⟨p, -, hstep⟩ := step_producer h
    exact hstep.delayed.imp_right .inl
  | _ => simp only [step, stepLoop] at h; grind

variable {item : DelayedItem}

/-- **The heap**: an item leaves it when the delay loop takes it up. -/
theorem step_heap (hitem : item ∈ q.heap) :
    item ∈ q'.heap ∨ ∃ now, q'.delayLoop = .unscheduling now item := by
  cases act with
  | producer id =>
    obtain ⟨p, -, hstep⟩ := step_producer h
    exact .inl (hstep.heap ▸ hitem)
  | pop popped =>
    simp only [step] at h
    by_cases heq : item = popped <;> grind
  | _ => simp only [step, stepLoop] at h; grind

/-- **The delay loop**, away from its top, is moved by its own turns. -/
theorem step_busy (hloop : q.delayLoop ≠ .select) (hturn : act.turn ≠ some .delayLoop) :
    q'.delayLoop = q.delayLoop ∧ q'.heap = q.heap := by
  cases act with
  | producer id =>
    obtain ⟨p, -, hstep⟩ := step_producer h
    exact ⟨hstep.delayLoop, hstep.heap⟩
  | _ => simp only [step] at h; grind [Act.turn]

/-- The send of the delay loop is all that is open to it where it waits to
send. -/
theorem step_sending {now : ℕ}
    (hloop : q.delayLoop = .sending now item) (hturn : act.turn = some .delayLoop) :
    .withChain item.key item.chain ∈ q'.ready := by
  cases act with
  | move =>
    simp only [step, stepLoop, hloop] at h
    grind
  | pop _ | rest => simp [step, hloop] at h
  | _ => cases hturn

/-- A consumer with an item returns it next. -/
theorem step_holding {item : WorkItem}
    (hheld : q.consumer = .holding item) (hturn : act.turn = some .consumer) : act = .finish := by
  cases act with
  | finish => rfl
  | dequeue | recv => simp [step, hheld] at h
  | _ => cases hturn

end

/-! ## Tokens -/

/-- **A key on its way to the consumer.** -/
inductive ReadyToken (q : Queue) (k : String) : Prop
  | producer {id : ℕ} {item : WorkItem} (h : q.producers id = some (.sendReady item))
      (hk : item.key = k)
  | delayLoop {now : ℕ} {item : DelayedItem} (h : q.delayLoop = .sending now item)
      (hk : item.key = k)
  | queued {item : WorkItem} (h : item ∈ q.ready) (hk : item.key = k)
  | held {item : WorkItem} (h : q.consumer = .holding item) (hk : item.key = k)

/-- **A key on its way to the ready queue.** -/
inductive DelayToken (q : Queue) (k : String) : Prop
  | clock {id delay : ℕ} {chain : TriggerChain}
      (h : q.producers id = some (.readClock k delay chain))
  | producer {id : ℕ} {item : DelayedItem} (h : q.producers id = some (.sendDelayed item))
      (hk : item.key = k)
  | queued {item : DelayedItem} (h : item ∈ q.delayed) (hk : item.key = k)
  | heaped {item : DelayedItem} (h : item ∈ q.heap) (hk : item.key = k)
  | delayLoop {now : ℕ} {item : DelayedItem} (h : q.delayLoop = .unscheduling now item)
      (hk : item.key = k)

/-- The consumer hands out a key with the act. -/
def HandsOut (q : Queue) (act : Act) (k : String) : Prop :=
  act = .finish ∧ ∃ item, q.consumer = .holding item ∧ item.key = k

variable (h : q.step config act = some q')

include h

/-- **A ready token stays** until the consumer hands out its key. -/
theorem ReadyToken.step (token : q.ReadyToken k) : q'.ReadyToken k ∨ q.HandsOut act k := by
  cases token with
  | @producer id item hp hk =>
    rcases step_of_producers h hp with ⟨-, hstep⟩ | hp'
    · exact .inl (.queued (hstep.sendReady item rfl) hk)
    · exact .inl (.producer hp' hk)
  | @delayLoop now item hloop hk =>
    by_cases hturn : act.turn = some .delayLoop
    · exact .inl (.queued (step_sending h hloop hturn) hk)
    · have hsame := (step_busy h (by simp [hloop]) hturn).1
      exact .inl (.delayLoop (hsame.trans hloop) hk)
  | @queued item hmem hk =>
    rcases step_ready h with hsame | ⟨added, -, hready⟩ | ⟨-, first, hready, hheld⟩
    · exact .inl (.queued (hsame ▸ hmem) hk)
    · exact .inl (.queued (hready ▸ mem_append_left _ hmem) hk)
    · rw [hready] at hmem
      rcases mem_cons.1 hmem with rfl | hmem
      · exact .inl (.held hheld hk)
      · exact .inl (.queued hmem hk)
  | @held item hheld hk =>
    by_cases hturn : act.turn = some .consumer
    · exact .inr ⟨step_holding h hheld hturn, item, hheld, hk⟩
    · exact .inl (.held ((step_consumer h hturn).trans hheld) hk)

/-- **A delay token stays** until the delay loop clears the mark of its
key. -/
theorem DelayToken.step (token : q.DelayToken k) :
    q'.DelayToken k ∨
      (act = .move ∧ ∃ now item, q.delayLoop = .unscheduling now item ∧ item.key = k) := by
  cases token with
  | @clock id delay chain hp =>
    rcases step_of_producers h hp with ⟨-, hstep⟩ | hp'
    · exact .inl (.producer (hstep.readClock k delay chain rfl) rfl)
    · exact .inl (.clock hp')
  | @producer id item hp hk =>
    rcases step_of_producers h hp with ⟨-, hstep⟩ | hp'
    · exact .inl (.queued (hstep.sendDelayed item rfl) hk)
    · exact .inl (.producer hp' hk)
  | @queued item hmem hk =>
    rcases step_delayed h with hsame | ⟨added, -, hdel⟩ | ⟨-, first, hdel, hheap⟩
    · exact .inl (.queued (hsame ▸ hmem) hk)
    · exact .inl (.queued (hdel ▸ mem_append_left _ hmem) hk)
    · rw [hdel] at hmem
      rcases mem_cons.1 hmem with rfl | hmem
      · exact .inl (.heaped hheap hk)
      · exact .inl (.queued hmem hk)
  | @heaped item hmem hk =>
    rcases step_heap h hmem with hmem | ⟨now, hloop⟩
    · exact .inl (.heaped hmem hk)
    · exact .inl (.delayLoop hloop hk)
  | @delayLoop now item hloop hk =>
    by_cases hturn : act.turn = some .delayLoop
    · cases act with
      | move => exact .inr ⟨rfl, now, item, hloop, hk⟩
      | pop _ | rest => simp [Queue.step, hloop] at h
      | _ => cases hturn
    · have hsame := (step_busy h (by simp [hloop]) hturn).1
      exact .inl (.delayLoop (hsame.trans hloop) hk)

/-- **Every mark has a token**, and no channel is over its capacity. -/
structure Marked (config : WorkqueueConfig) (q : Queue) : Prop where
  pending : ∀ k ∈ q.pending, q.ReadyToken k
  scheduled : ∀ k ∈ q.scheduled, q.DelayToken k
  ready_le : q.ready.length ≤ config.capacity
  delayed_le : q.delayed.length ≤ config.capacity

omit h in
theorem Marked.new : Marked config .new :=
  ⟨fun k h => (Finset.notMem_empty k h).elim, fun k h => (Finset.notMem_empty k h).elim,
    Nat.zero_le _, Nat.zero_le _⟩

/-- A mark on a key is an old one, or that of whoever is about to send the
key. Handing out a key clears its mark. -/
theorem step_pending (hk : k ∈ q'.pending) :
    (k ∈ q.pending ∧ ¬ q.HandsOut act k) ∨ q'.ReadyToken k := by
  cases act with
  | producer id =>
    obtain ⟨p, -, hstep⟩ := step_producer h
    rcases hstep.pending k hk with hold | ⟨item, hp, hkey⟩
    · exact .inl ⟨hold, by simp [HandsOut]⟩
    · exact .inr (.producer hp hkey)
  | move =>
    simp only [step, stepLoop] at h
    grind [ReadyToken, HandsOut]
  | _ => simp only [step] at h; grind [HandsOut]

theorem step_scheduled (hk : k ∈ q'.scheduled) :
    (k ∈ q.scheduled ∧
      ¬ (act = .move ∧ ∃ now item, q.delayLoop = .unscheduling now item ∧ item.key = k)) ∨
    q'.DelayToken k := by
  cases act with
  | producer id =>
    obtain ⟨p, -, hstep⟩ := step_producer h
    rcases hstep.scheduled k hk with hold | ⟨delay, chain, hp⟩
    · exact .inl ⟨hold, by simp⟩
    · exact .inr (.clock hp)
  | move =>
    simp only [step, stepLoop] at h
    grind
  | _ => simp only [step] at h; grind

omit h in
/-- A channel to which an item is added where there is room, or whose first item is received, stays
within its capacity. -/
theorem channel_le {α : Type*} {xs xs' : List α} {capacity : ℕ} {received : α → Prop}
    (hle : xs.length ≤ capacity)
    (h : xs' = xs ∨ (∃ item, xs.length < capacity ∧ xs' = xs ++ [item]) ∨
      ∃ item, xs = item :: xs' ∧ received item) : xs'.length ≤ capacity := by
  rcases h with hsame | ⟨item, hroom, hadded⟩ | ⟨item, hfst, -⟩
  · rw [hsame]
    exact hle
  · rw [hadded, length_append, length_singleton]
    omega
  · rw [hfst, length_cons] at hle
    omega

/-- **Every step keeps it so.** -/
theorem Marked.step (hq : Marked config q) : Marked config q' where
  pending k hk := by
    rcases step_pending h hk with ⟨hold, hnot⟩ | token
    · exact ((hq.pending k hold).step h).resolve_right hnot
    · exact token
  scheduled k hk := by
    rcases step_scheduled h hk with ⟨hold, hnot⟩ | token
    · exact ((hq.scheduled k hold).step h).resolve_right hnot
    · exact token
  ready_le := channel_le hq.ready_le ((step_ready h).imp_right (.imp_right And.right))
  delayed_le := channel_le hq.delayed_le ((step_delayed h).imp_right (.imp_right And.right))

end Queue

end Edgion.Workqueue
