import Edgion.Workqueue.Tokens

/-!
# Workqueue — no change notification is lost

Along a fair run every token gets to the consumer. An item in a channel
moves up as those before it are received; a sender that waits finds room,
since the other end keeps receiving; the delay loop, which may itself wait
for room, comes back to its top, where it takes in the next item or, when
the time of an item has come, moves it on. So whatever a call to the queue
returns, its key is handed out afterwards: either the call has sent the
key, or it has found a mark, and a mark has a token behind it.
-/

namespace Edgion.Workqueue

open Common List Option Nat

/-! ## Turns -/

/-- How far the consumer is from its next receive. -/
def Consumer.stage : Consumer → ℕ
  | .waiting => 0
  | .idle => 1
  | .holding _ => 2

/-- The time the delay loop works at, away from its top. -/
def DelayLoop.time : DelayLoop → Option ℕ
  | .select => none
  | .firing now | .unscheduling now _ | .checking now _ | .inserting now _
  | .sending now _ => some now

/-- How far the delay loop is from its next look at the heap. -/
def DelayLoop.stage : DelayLoop → ℕ
  | .select | .firing _ => 0
  | .sending _ _ => 1
  | .inserting _ _ => 2
  | .checking _ _ => 3
  | .unscheduling _ _ => 4

namespace Queue

variable {config : WorkqueueConfig} {q q' : Queue} {act : Act} {k : String}

/-- How far the delay loop is from its top. -/
def loopMeasure (q : Queue) : ℕ := 5 * q.heap.length + q.delayLoop.stage

/-- **A turn of the consumer** receives, or brings it nearer to that. -/
theorem step_consumer_turn (h : q.step config act = some q') (hturn : act.turn = some .consumer) :
    (q.consumer = .waiting ∧ ∃ item, q.ready = item :: q'.ready ∧ q'.consumer = .holding item) ∨
    (q'.ready = q.ready ∧ q'.consumer.stage < q.consumer.stage) := by
  cases act with
  | dequeue | recv | finish => simp only [step] at h; grind [Consumer.stage]
  | _ => cases hturn

/-- While something is ready the consumer has a step to take. -/
theorem consumer_enabled (hready : q.ready ≠ []) :
    ∃ act : Act, act.turn = some .consumer ∧ (q.step config act).isSome := by
  cases hc : q.consumer with
  | idle => exact ⟨.dequeue, rfl, by simp [step, hc]⟩
  | waiting =>
    obtain ⟨item, rest, hq⟩ := exists_cons_of_ne_nil hready
    exact ⟨.recv, rfl, by simp [step, hc, hq]⟩
  | holding item => exact ⟨.finish, rfl, by simp [step, hc]⟩

theorem nextReady_le {item : DelayedItem} (hitem : item ∈ q.heap) :
    ∃ t, q.nextReady = some t ∧ t ≤ item.readyAt := by
  have hmem : item.readyAt ∈ q.heap.map DelayedItem.readyAt := mem_map_of_mem hitem
  obtain ⟨t, ht⟩ := isSome_iff_exists.1 (isSome_min?_of_mem hmem)
  exact ⟨t, ht, (min?_eq_some_iff.1 ht).2 _ hmem⟩

open DelayLoop

/-- **A turn of the delay loop** ends its round, where nothing is due any
more, or brings it nearer to that. -/
theorem step_loop_turn (h : q.step config act = some q') (hturn : act.turn = some .delayLoop) :
    (q'.delayLoop = .select ∧ ∃ now, q.delayLoop.time = some now ∧ ∀ t ∈ q.nextReady, now < t) ∨
    (q.delayLoop.time.isSome ∧ q'.delayLoop.time = q.delayLoop.time ∧
      q'.loopMeasure < q.loopMeasure) := by
  cases act with
  | pop item =>
    simp only [step] at h
    have hlen (hmem : item ∈ q.heap) := length_erase_of_mem hmem
    have hpos (hmem : item ∈ q.heap) := length_pos_of_mem hmem
    grind [time, loopMeasure, stage]
  | rest =>
    simp only [step] at h
    grind [time]
  | move =>
    simp only [step, stepLoop] at h
    grind [time, loopMeasure, stage]
  | _ => cases hturn

/-- With room in the ready queue the delay loop can go on. -/
theorem delayLoop_enabled (hroom : q.ready.length < config.capacity)
    (hbusy : q.delayLoop.time.isSome) :
    ∃ act : Act, act.turn = some .delayLoop ∧ (q.step config act).isSome := by
  cases hloop : q.delayLoop with
  | select => simp [hloop, time] at hbusy
  | firing now =>
    by_cases hdue : ∀ t ∈ q.nextReady, now < t
    · exact ⟨.rest, rfl, by simp only [step, hloop, if_pos hdue, isSome_some]⟩
    · obtain ⟨t, ht, hle⟩ : ∃ t, q.nextReady = some t ∧ t ≤ now := by
        simpa using hdue
      obtain ⟨item, hmem, rfl⟩ := mem_map.1 (min?_eq_some_iff.1 ht).1
      exact ⟨.pop item, rfl, by simp [step, hloop, hmem, ht, hle]⟩
  | unscheduling now item => exact ⟨.move, rfl, by simp [step, stepLoop, hloop]⟩
  | checking now item =>
    refine ⟨.move, rfl, ?_⟩
    simp only [step, stepLoop, hloop]
    split <;> rfl
  | inserting now item => exact ⟨.move, rfl, by simp [step, stepLoop, hloop]⟩
  | sending now item => exact ⟨.move, rfl, by simp [step, stepLoop, hloop, hroom]⟩

/-- The places of the delay loop between the heap and the ready queue. -/
def Carries (q : Queue) (k : String) : Prop :=
  ∃ now item, item.key = k ∧ (q.delayLoop = .unscheduling now item ∨
    q.delayLoop = .checking now item ∨ q.delayLoop = .inserting now item)

/-- A loop that carries an item is not at its `select!`. -/
theorem Carries.busy (h : q.Carries k) : q.delayLoop.time.isSome := by
  obtain ⟨now, item, -, hloop | hloop | hloop⟩ := h <;> rw [hloop] <;> rfl

/-- **A turn with a key taken up**: the loop goes on with it, or finds it
marked, or is about to send it. -/
theorem Carries.step_turn (hcarries : q.Carries k) (h : q.step config act = some q')
    (hturn : act.turn = some .delayLoop) :
    (q'.Carries k ∧ q'.loopMeasure < q.loopMeasure) ∨ k ∈ q.pending ∨ q'.ReadyToken k := by
  obtain ⟨now, item, rfl, hloop⟩ := hcarries
  cases act with
  | move =>
    simp only [step, stepLoop] at h
    rcases hloop with hloop | hloop | hloop <;> rw [hloop] at h
    · cases h
      exact .inl ⟨⟨now, item, rfl, .inr (.inl rfl)⟩, by simp [loopMeasure, hloop, stage]⟩
    · by_cases hmarked : item.key ∈ q.pending
      · exact .inr (.inl hmarked)
      · simp only [hmarked, if_false] at h
        cases h
        exact .inl ⟨⟨now, item, rfl, .inr (.inr rfl)⟩, by simp [loopMeasure, hloop, stage]⟩
    · cases h
      exact .inr (.inr (.delayLoop rfl rfl))
  | pop _ | rest => rcases hloop with hloop | hloop | hloop <;> simp [step, hloop] at h
  | _ => cases hturn

theorem step_recvDelayed (h : q.step config .recvDelayed = some q') :
    ∃ item, q.delayed = item :: q'.delayed ∧ item ∈ q'.heap := by
  simp only [step] at h
  grind

theorem step_fire (h : q.step config .fire = some q') :
    q'.heap = q.heap ∧ q'.delayLoop = .firing q.now := by
  simp only [step] at h
  grind

end Queue

/-! ## Along a fair run -/

namespace FairRun

variable {config : WorkqueueConfig} {b : Behaviour (Queue.step config)} {n id : ℕ} {k : String}

/-- The key is handed out, then or later. -/
abbrev HandedOut (b : Behaviour (Queue.step config)) (k : String) (n : ℕ) : Prop :=
  Eventually (fun m => (b.state m).HandsOut (b.act m) k) n

section

variable (hb : FairRun config b)

include hb

theorem marked (n : ℕ) : (b.state n).Marked config :=
  b.invariant (hb.init ▸ .new) (fun _ _ _ hq h => hq.step h) n

open Queue

omit hb in
theorem now_mono {n m : ℕ} (h : n ≤ m) : (b.state n).now ≤ (b.state m).now := by
  induction m, h using le_induction with
  | base => exact le_rfl
  | succ m _ ih => exact ih.trans (step_now (b.next m))

/-- **The ready queue has room** again and again. -/
theorem room_ready (n : ℕ) :
    Eventually (fun m => (b.state m).ready.length < config.capacity) n := by
  by_cases hroom : (b.state n).ready.length < config.capacity
  · exact .now hroom
  refine (hb.fair .consumer).leads_measure
    (P := fun i m => config.capacity ≤ (b.state m).ready.length ∧ (b.state m).consumer.stage = i)
    ?_ ?_ ?_ ⟨Nat.le_of_not_lt hroom, rfl⟩
  · intro i m ⟨_, hstage⟩ hturn
    rcases lt_or_ge (b.state (m + 1)).ready.length config.capacity with hroom | hfull
    · exact .inr ⟨m + 1, le_succ m, hroom⟩
    · exact .inl ⟨hfull, by rw [step_consumer (b.next m) hturn, hstage]⟩
  · intro i m ⟨hfull, hstage⟩ hturn
    rcases step_consumer_turn (b.next m) hturn with ⟨-, item, hready, -⟩ | ⟨hready, hlt⟩
    · have hle := (hb.marked m).ready_le
      rw [hready, length_cons] at hle
      exact .inr ⟨m + 1, le_succ m, hle⟩
    · exact .inl ⟨_, hstage ▸ hlt, hready ▸ hfull, rfl⟩
  · intro i m hP
    refine .now (consumer_enabled fun hnil => ?_)
    have hfull := (hP m le_rfl).1
    rw [hnil] at hfull
    exact Nat.not_le_of_lt config.capacity_pos hfull

/-! ### The ready queue -/

/-- An item the consumer holds is handed out. -/
theorem held_handsOut {item : WorkItem}
    (h : (b.state n).consumer = .holding item) (hk : item.key = k) :
    HandedOut b k n := by
  refine (hb.fair .consumer).leads (P := fun m => (b.state m).consumer = .holding item) ?_ ?_ ?_ h
  · intro m hheld hturn
    exact .inl ((step_consumer (b.next m) hturn).trans hheld)
  · intro m hheld hturn
    exact .now ⟨step_holding (b.next m) hheld hturn, item, hheld, hk⟩
  · intro m hheld
    exact .now ⟨.finish, rfl, by simp [step, hheld m le_rfl]⟩

/-- **An item in the ready queue** moves up and is handed out. -/
theorem queued_handsOut {item : WorkItem} (h : item ∈ (b.state n).ready)
    (hk : item.key = k) : HandedOut b k n := by
  obtain ⟨j, hj⟩ := mem_iff_getElem?.1 h
  -- three turns of the consumer for each item before this one
  refine (hb.fair .consumer).leads_measure (P := fun i m => ∃ j, (b.state m).ready[j]? = some item ∧
    3 * j + (b.state m).consumer.stage = i) ?_ ?_ ?_ ⟨j, hj, rfl⟩
  · intro i m ⟨j, hj, hi⟩ hturn
    have hconsumer := step_consumer (b.next m) hturn
    refine .inl ⟨j, ?_, by rw [hconsumer, hi]⟩
    rcases step_ready (b.next m) with hsame | ⟨added, -, hready⟩ | ⟨hact, -⟩
    · rw [hsame, hj]
    · rw [hready, List.getElem?_append_left (List.getElem?_eq_some_iff.1 hj).1, hj]
    · exact absurd (by rw [hact]; rfl) hturn
  · intro i m ⟨j, hj, hi⟩ hturn
    rcases step_consumer_turn (b.next m) hturn with
      ⟨hwaiting, first, hready, hheld⟩ | ⟨hready, hlt⟩
    · rw [hready] at hj
      cases j with
      | zero =>
        obtain rfl : first = item := by simpa using hj
        exact .inr ((hb.held_handsOut hheld hk).after (le_succ m))
      | succ j =>
        refine .inl ⟨_, ?_, j, hj, rfl⟩
        rw [hwaiting] at hi
        rw [hheld, ← hi]
        simp only [Consumer.stage]
        omega
    · exact .inl ⟨_, by omega, j, hready ▸ hj, rfl⟩
  · intro i m hP
    obtain ⟨j, hj, -⟩ := hP m le_rfl
    refine .now (consumer_enabled fun hnil => ?_)
    simp [hnil] at hj

variable {Q : ℕ → Prop}

/-- **A producer** that can make its next access again and again makes
it. -/
theorem producer_leads {p : Producer}
    (enabled : ∀ m, Eventually (fun l => ((b.state l).stepProducer config id p).isSome) m)
    (move : ∀ m, (b.state m).producers id = some p →
      (b.state m).step config (.producer id) = some (b.state (m + 1)) →
      (b.state m).ProducerStep config (b.state (m + 1)) id p → Eventually Q (m + 1))
    (h : (b.state n).producers id = some p) : Eventually Q n := by
  refine (hb.fair (.producer id)).leads (P := fun m => (b.state m).producers id = some p) ?_ ?_ ?_ h
  · intro m hp hturn
    exact .inl (step_producers (b.next m) hp fun hact => hturn (by rw [hact]; rfl))
  · intro m hp hturn
    obtain hact : b.act m = .producer id := by
      cases hact : b.act m <;> simp_all [Act.turn]
    have hnext := b.next m
    rw [hact] at hnext
    obtain ⟨p', hp', hstep⟩ := step_producer hnext
    obtain rfl : p' = p := some.inj (hp'.symm.trans hp)
    exact (move m hp hnext hstep).after (le_succ m)
  · intro m hP
    obtain ⟨l, hl, henabled⟩ := enabled m
    refine ⟨l, hl, .producer id, rfl, ?_⟩
    simp only [step, hP l hl, isSome_map, henabled]

/-- **Every key on its way to the consumer is handed out.** -/
theorem readyToken_handsOut (token : (b.state n).ReadyToken k) : HandedOut b k n := by
  cases token with
  | @producer id item hp hk =>
    refine hb.producer_leads (fun m => ?_) (fun m _ _ hstep => ?_) hp
    · obtain ⟨l, hl, hroom⟩ := hb.room_ready m
      exact ⟨l, hl, by simp [stepProducer, hroom]⟩
    · exact hb.queued_handsOut (hstep.sendReady item rfl) hk
  | @delayLoop now item hloop hk =>
    refine (hb.fair .delayLoop).leads
      (P := fun m => (b.state m).delayLoop = .sending now item) ?_ ?_ ?_ hloop
    · intro m hloop hturn
      exact .inl ((step_busy (b.next m) (by simp [hloop]) hturn).1.trans hloop)
    · intro m hloop hturn
      exact (hb.queued_handsOut (step_sending (b.next m) hloop hturn) hk).after
        (le_succ m)
    · intro m hP
      obtain ⟨l, hl, hroom⟩ := hb.room_ready m
      exact ⟨l, hl, delayLoop_enabled hroom (by simp [hP l hl, DelayLoop.time])⟩
  | queued h hk => exact hb.queued_handsOut h hk
  | held h hk => exact hb.held_handsOut h hk

/-! ### The delay loop -/

omit hb in
theorem ne_select {q : Queue} (h : q.delayLoop.time.isSome) : q.delayLoop ≠ .select := by
  intro hsel
  simp [hsel, DelayLoop.time] at h

/-- **The delay loop gets on** while it is busy: what only its own turns change, each of them ends
or keeps with less to do. -/
theorem loop_leads {S : Queue → Prop} (hbusy : ∀ {q : Queue}, S q → q.delayLoop.time.isSome)
    (hsame : ∀ {q q' : Queue}, q'.delayLoop = q.delayLoop → q'.heap = q.heap → S q → S q')
    (turn : ∀ m, S (b.state m) → (b.act m).turn = some .delayLoop →
      (S (b.state (m + 1)) ∧ (b.state (m + 1)).loopMeasure < (b.state m).loopMeasure) ∨
        Eventually Q m) (h : S (b.state n)) : Eventually Q n := by
  refine (hb.fair .delayLoop).leads_measure
    (P := fun i m => S (b.state m) ∧ (b.state m).loopMeasure = i) ?_ ?_ ?_ ⟨h, rfl⟩
  · intro i m ⟨hS, hi⟩ hturn
    obtain ⟨hloop, hheap⟩ := step_busy (b.next m) (ne_select (hbusy hS)) hturn
    exact .inl ⟨hsame hloop hheap hS, by rw [loopMeasure, hloop, hheap, ← hi, loopMeasure]⟩
  · intro i m ⟨hS, hi⟩ hturn
    exact (turn m hS hturn).imp_left fun ⟨hS, hlt⟩ => ⟨_, hi ▸ hlt, hS, rfl⟩
  · intro i m hP
    obtain ⟨l, hl, hroom⟩ := hb.room_ready m
    exact ⟨l, hl, delayLoop_enabled hroom (hbusy (hP l hl).1)⟩

/-- **The delay loop comes back to its top.** -/
theorem select (n : ℕ) : Eventually (fun m => (b.state m).delayLoop = .select) n := by
  by_cases htop : (b.state n).delayLoop.time.isSome
  · refine hb.loop_leads (S := fun q => q.delayLoop.time.isSome) id
      (fun hloop _ hbusy => hloop ▸ hbusy) (fun m _ hturn => ?_) htop
    rcases step_loop_turn (b.next m) hturn with ⟨hsel, -⟩ | ⟨hbusy, htime, hlt⟩
    · exact .inr ⟨m + 1, le_succ m, hsel⟩
    · exact .inl ⟨htime ▸ hbusy, hlt⟩
  · refine .now ?_
    cases hloop : (b.state n).delayLoop with
    | select => rfl
    | _ => simp [hloop, DelayLoop.time] at htop

/-- **An item the delay loop has taken up** is handed out: the loop sends
it, or finds its key marked. -/
theorem carried_handsOut (h : (b.state n).Carries k) : HandedOut b k n := by
  refine hb.loop_leads (S := (·.Carries k)) Carries.busy ?_ (fun m hcarries hturn => ?_) h
  · rintro q q' hloop - ⟨now, item, hk, hplace⟩
    exact ⟨now, item, hk, hloop ▸ hplace⟩
  · rcases hcarries.step_turn (b.next m) hturn with hcarries | hmarked | token
    · exact .inl hcarries
    · exact .inr (hb.readyToken_handsOut ((hb.marked m).pending k hmarked))
    · exact .inr ((hb.readyToken_handsOut token).after (le_succ m))

/-- The delay loop takes up an item. -/
def TakesUp (q : Queue) (item : DelayedItem) : Prop :=
  ∃ now, q.delayLoop = .unscheduling now item

/-- The delay loop is in a round at the time of an item of its heap, or
later. -/
def Reaches (q : Queue) (item : DelayedItem) : Prop :=
  item ∈ q.heap ∧ ∃ now, q.delayLoop.time = some now ∧ item.readyAt ≤ now

variable {item : DelayedItem}

/-- A round at the time of an item does not end before it takes it up. -/
theorem reached_takesUp
    (h : Reaches (b.state n) item) : Eventually (fun m => TakesUp (b.state m) item) n := by
  refine hb.loop_leads (S := (Reaches · item)) ?_ ?_ ?_ h
  · exact fun ⟨_, now, htime, _⟩ => isSome_iff_exists.2 ⟨now, htime⟩
  · exact fun hloop hheap ⟨hmem, now, htime, hdue⟩ => ⟨hheap ▸ hmem, now, hloop ▸ htime, hdue⟩
  · intro m ⟨hmem, now, htime, hdue⟩ hturn
    rcases step_heap (b.next m) hmem with hmem' | htakes
    · rcases step_loop_turn (b.next m) hturn with ⟨-, now', htime', hnone⟩ | ⟨-, hsame, hlt⟩
      · -- the round cannot end: the item is due
        obtain ⟨t, ht, hle⟩ := nextReady_le hmem
        obtain rfl : now' = now := some.inj (htime'.symm.trans htime)
        have := hnone t ht
        omega
      · exact .inl ⟨⟨hmem', now, hsame.trans htime, hdue⟩, hlt⟩
    · exact .inr ⟨m + 1, le_succ m, htakes⟩

/-- **An item of the heap whose time has come** is taken up. -/
theorem due_takesUp (hmem : item ∈ (b.state n).heap) (hdue : item.readyAt ≤ (b.state n).now) :
    Eventually (fun m => TakesUp (b.state m) item) n := by
  refine (hb.fair .fire).leads
    (P := fun m => item ∈ (b.state m).heap ∧ item.readyAt ≤ (b.state m).now) ?_ ?_ ?_ ⟨hmem, hdue⟩
  · intro m ⟨hmem, hdue⟩ _
    rcases step_heap (b.next m) hmem with hmem' | htakes
    · exact .inl ⟨hmem', hdue.trans (step_now (b.next m))⟩
    · exact .inr ⟨m + 1, le_succ m, htakes⟩
  · intro m ⟨hmem, hdue⟩ hturn
    have hact : b.act m = .fire := by
      cases hact : b.act m <;> simp_all [Act.turn]
    have hnext := b.next m
    rw [hact] at hnext
    obtain ⟨hheap, hloop⟩ := step_fire hnext
    have hreaches : Reaches (b.state (m + 1)) item :=
      ⟨hheap ▸ hmem, (b.state m).now, by rw [hloop]; rfl, hdue⟩
    exact (hb.reached_takesUp hreaches).after (le_succ m)
  · intro m hP
    obtain ⟨l, hl, hsel⟩ := hb.select m
    obtain ⟨hmem, hdue⟩ := hP l hl
    obtain ⟨t, ht, hle⟩ := nextReady_le hmem
    exact ⟨l, hl, .fire, rfl, by simp [step, hsel, ht, hle.trans hdue]⟩

/-- **An item of the heap** is handed out once its time has come. -/
theorem heaped_handsOut (hmem : item ∈ (b.state n).heap) (hk : item.key = k) : HandedOut b k n := by
  have htakes : Eventually (fun m => TakesUp (b.state m) item) n := by
    have hkeep (m : ℕ) (hmem : item ∈ (b.state m).heap) :
        item ∈ (b.state (m + 1)).heap ∨ Eventually (fun m => TakesUp (b.state m) item) m :=
      (step_heap (b.next m) hmem).imp_right fun h => ⟨m + 1, le_succ m, h⟩
    rcases stays_or_eventually hkeep hmem with hstays | htakes
    · obtain ⟨m, hm⟩ := hb.time item.readyAt
      exact (hb.due_takesUp (hstays (max n m) (le_max_left n m))
        (hm.trans (now_mono (le_max_right n m)))).after (le_max_left n m)
    · exact htakes
  obtain ⟨m, hm, now, hloop⟩ := htakes
  exact (hb.carried_handsOut ⟨now, item, hk, .inl hloop⟩).after hm

/-! ### The delay channel -/

omit hb in
theorem act_recvDelayed {act : Act} (h : act.turn = some .recvDelayed) : act = .recvDelayed := by
  cases act <;> simp_all [Act.turn]

/-- At its top the delay loop can receive what the channel holds. -/
theorem recvDelayed_enabled (h : ∀ m, n ≤ m → (b.state m).delayed ≠ []) :
    Eventually (b.Enabled fun act => act.turn = some .recvDelayed) n := by
  obtain ⟨m, hm, hsel⟩ := hb.select n
  obtain ⟨item, rest, hdel⟩ := exists_cons_of_ne_nil (h m hm)
  exact ⟨m, hm, .recvDelayed, rfl, by simp [step, hsel, hdel]⟩

/-- **The delay channel has room** again and again. -/
theorem room_delayed (n : ℕ) :
    Eventually (fun m => (b.state m).delayed.length < config.capacity) n := by
  by_cases hroom : (b.state n).delayed.length < config.capacity
  · exact .now hroom
  refine (hb.fair .recvDelayed).leads
    (P := fun m => config.capacity ≤ (b.state m).delayed.length) ?_ ?_ ?_ (Nat.le_of_not_lt hroom)
  · intro m _ _
    exact (lt_or_ge (b.state (m + 1)).delayed.length config.capacity).symm.imp_right
      fun hroom => ⟨m + 1, le_succ m, hroom⟩
  · intro m _ hturn
    have hnext := b.next m
    rw [act_recvDelayed hturn] at hnext
    obtain ⟨item, hdel, -⟩ := step_recvDelayed hnext
    have hle := (hb.marked m).delayed_le
    rw [hdel, length_cons] at hle
    exact ⟨m + 1, le_succ m, hle⟩
  · intro m hP
    refine hb.recvDelayed_enabled fun l hl hnil => ?_
    have hfull := hP l hl
    rw [hnil] at hfull
    exact Nat.not_le_of_lt config.capacity_pos hfull

/-- **An item in the delay channel** moves up into the heap. -/
theorem delayed_handsOut (h : item ∈ (b.state n).delayed) (hk : item.key = k) :
    HandedOut b k n := by
  obtain ⟨j, hj⟩ := mem_iff_getElem?.1 h
  refine (hb.fair .recvDelayed).leads_measure
    (P := fun i m => (b.state m).delayed[i]? = some item) ?_ ?_ ?_ hj
  · intro i m hi hturn
    refine .inl ?_
    rcases step_delayed (b.next m) with hsame | ⟨added, -, hdel⟩ | ⟨hact, -⟩
    · rw [hsame, hi]
    · rw [hdel, List.getElem?_append_left (List.getElem?_eq_some_iff.1 hi).1, hi]
    · exact absurd (by rw [hact]; rfl) hturn
  · intro i m hi hturn
    have hnext := b.next m
    rw [act_recvDelayed hturn] at hnext
    obtain ⟨first, hdel, hheap⟩ := step_recvDelayed hnext
    rw [hdel] at hi
    cases i with
    | zero =>
      obtain rfl : first = item := by simpa using hi
      exact .inr ((hb.heaped_handsOut hheap hk).after (le_succ m))
    | succ i => exact .inl ⟨i, lt_succ_self i, hi⟩
  · intro i m hP
    refine hb.recvDelayed_enabled fun l hl hnil => ?_
    have hi := hP l hl
    simp [hnil] at hi

/-- **Every key on its way to the ready queue is handed out.** -/
theorem delayToken_handsOut (token : (b.state n).DelayToken k) : HandedOut b k n := by
  have hsend {id n : ℕ} {item : DelayedItem} (hk : item.key = k)
      (hp : (b.state n).producers id = some (.sendDelayed item)) :
      HandedOut b k n := by
    refine hb.producer_leads (fun m => ?_) (fun m _ _ hstep => ?_) hp
    · obtain ⟨l, hl, hroom⟩ := hb.room_delayed m
      exact ⟨l, hl, by simp [stepProducer, hroom]⟩
    · exact hb.delayed_handsOut (hstep.sendDelayed item rfl) hk
  cases token with
  | @clock id delay chain hp =>
    refine hb.producer_leads (fun m => .now rfl) (fun m _ _ hstep => ?_) hp
    exact hsend rfl (hstep.readClock k delay chain rfl)
  | producer hp hk => exact hsend hk hp
  | queued h hk => exact hb.delayed_handsOut h hk
  | heaped h hk => exact hb.heaped_handsOut h hk
  | delayLoop h hk => exact hb.carried_handsOut ⟨_, _, hk, .inl h⟩

end

/-! ## What a call returns -/

/-- **A call that returns leaves a token** of its key: it has sent it, or it
has found its mark. -/
theorem token_of_returns {q q' : Queue} {p : Producer} (hq : q.Marked config)
    (hp : q.producers id = some p) (hret : (q.returns config id).isSome)
    (h : q.step config (.producer id) = some q') :
    q'.ReadyToken p.key ∨ q'.DelayToken p.key := by
  have hready {k : String} (hk : k ∈ q.pending) : q'.ReadyToken k ∨ q'.DelayToken k :=
    .inl (((hq.pending k hk).step h).resolve_right fun hout => nomatch hout.1)
  have hdelay {k : String} (hk : k ∈ q.scheduled) : q'.ReadyToken k ∨ q'.DelayToken k :=
    .inr (((hq.scheduled k hk).step h).resolve_right fun hout => nomatch hout.1)
  obtain ⟨p', hp', hstep⟩ := Queue.step_producer h
  obtain rfl : p' = p := some.inj (hp'.symm.trans hp)
  simp only [Queue.returns, hp, bind_some] at hret
  cases p' with
  | sleeping wakeAt item =>
    simp only [Queue.stepProducer] at hret
    grind
  | checkPending item =>
    by_cases hk : item.key ∈ q.pending
    · exact hready hk
    · simp [Queue.stepProducer, hk] at hret
  | insertPending item => simp [Queue.stepProducer] at hret
  | sendReady item => exact .inl (.queued (hstep.sendReady item rfl) rfl)
  | checkEither key delay chain =>
    by_cases hk : key ∈ q.pending
    · exact hready hk
    · simp [Queue.stepProducer, hk] at hret
  | checkScheduled key delay chain =>
    by_cases hk : key ∈ q.scheduled
    · exact hdelay hk
    · simp [Queue.stepProducer, hk] at hret
  | insertScheduled key delay chain => simp [Queue.stepProducer] at hret
  | readClock key delay chain => simp [Queue.stepProducer] at hret
  | sendDelayed item => exact .inr (.queued (hstep.sendDelayed item rfl) rfl)

/-- **A call keeps to its key** as long as it is open. -/
theorem key_of_open {n0 : ℕ} {call : Call} (hcall : b.act n0 = .call id call) (hn : n0 < n)
    (hopen : ∀ m, n0 < m → m ≤ n → ((b.state m).producers id).isSome) :
    ∃ p, (b.state n).producers id = some p ∧ p.key = call.key := by
  induction n, hn using le_induction with
  | base =>
    obtain ⟨p, hp⟩ := isSome_iff_exists.1 (hopen (n0 + 1) (lt_succ_self _) le_rfl)
    have hnext := b.next n0
    rw [hcall] at hnext
    have hstart : call.start config (b.state n0).now = some p := by
      simp only [Queue.step] at hnext
      grind
    refine ⟨p, hp, ?_⟩
    cases call with
    | enqueue key =>
      cases hstart
      rfl
    | enqueueAfter key delay chain =>
      cases hstart
      rfl
    | requeueWithBackoff item =>
      simp only [Call.start] at hstart
      split at hstart
      · cases hstart
      · cases hstart
        rfl
  | succ m hm ih =>
    obtain ⟨p, hp, hkey⟩ := ih fun l hl hlm => hopen l hl (hlm.trans (le_succ m))
    obtain ⟨p', hp'⟩ := isSome_iff_exists.1 (hopen (m + 1) (by omega) le_rfl)
    rcases Queue.step_of_producers (b.next m) hp with ⟨-, hstep⟩ | hsame
    · exact ⟨p', hp', (hstep.key p' hp').trans hkey⟩
    · exact ⟨p, hsame, hkey⟩

/-- **No change notification is lost.** In every fair run, after a call has
returned, with whatever result, the consumer hands out its key. A call
returns with its last access to the queue. -/
theorem handsOut_after_return (hb : FairRun config b) {n₀ : ℕ} {call : Call}
    (hcall : b.act n₀ = .call id call) (hn : n₀ < n)
    (hopen : ∀ m, n₀ < m → m ≤ n → ((b.state m).producers id).isSome)
    (hact : b.act n = .producer id) (hreturns : ((b.state n).returns config id).isSome) :
    ∃ m, n < m ∧ (b.state m).HandsOut (b.act m) call.key := by
  obtain ⟨p, hp, hkey⟩ := key_of_open hcall hn hopen
  have hnext := b.next n
  rw [hact] at hnext
  rw [← hkey]
  rcases token_of_returns (hb.marked n) hp hreturns hnext with token | token
  · exact hb.readyToken_handsOut token
  · exact hb.delayToken_handsOut token

/-! ## Runs that come to rest -/

/-- Nothing is under way, and the consumer waits. -/
structure Quiet (q : Queue) : Prop where
  producers : ∀ id, q.producers id = none
  delayed : q.delayed = []
  heap : q.heap = []
  delayLoop : q.delayLoop = .select
  ready : q.ready = []
  consumer : q.consumer = .waiting

/-- Where all is quiet only calls and time go on. -/
theorem Quiet.step_eq_none {q : Queue} (h : Quiet q) {act : Act} {turn : Turn}
    (hturn : act.turn = some turn) : q.step config act = none := by
  cases act with
  | producer id => simp [Queue.step, h.producers id]
  | recvDelayed => simp [Queue.step, h.delayLoop, h.delayed]
  | fire => simp [Queue.step, h.delayLoop, Queue.nextReady, h.heap]
  | pop item | rest => simp [Queue.step, h.delayLoop]
  | move => simp [Queue.step, Queue.stepLoop, h.delayLoop]
  | dequeue | finish => simp [Queue.step, h.consumer]
  | recv => simp [Queue.step, h.consumer, h.ready]
  | call _ _ | tick _ => cases hturn

/-- **A run that comes to rest is fair.** -/
theorem of_quiet (hinit : b.state 0 = .new) {m : ℕ} (hquiet : ∀ n, m ≤ n → Quiet (b.state n))
    (htime : ∀ t, ∃ n, t ≤ (b.state n).now) : FairRun config b where
  init := hinit
  fair turn henabled := by
    obtain ⟨n, hn, act, hturn, hstep⟩ := henabled m
    rw [(hquiet n hn).step_eq_none hturn] at hstep
    cases hstep
  time := htime

/-! A run: one key is queued, a second call for it is dropped, it is handed
out, the consumer waits for the next, and time goes on. -/

/-- The actions of the run. -/
def oneKeyAct (n : ℕ) : Act :=
  [.call 0 (.enqueue "a"), .producer 0, .producer 0, .producer 0, .call 0 (.enqueue "a"),
    .producer 0, .dequeue, .recv, .finish, .dequeue].getD n (.tick 1)

/-- Its states. -/
def oneKeyState : ℕ → Queue
  | 0 => .new
  | n + 1 => ((oneKeyState n).step .default (oneKeyAct n)).getD .new

theorem oneKeyAct_late (n : ℕ) : oneKeyAct (n + 10) = .tick 1 := by
  simp [oneKeyAct]

/-- The run. -/
def oneKey : Behaviour (Queue.step .default) where
  state := oneKeyState
  act := oneKeyAct
  next n := by
    have hearly : ∀ n < 10, ((oneKeyState n).step .default (oneKeyAct n)).isSome := by decide
    have hstep : ((oneKeyState n).step .default (oneKeyAct n)).isSome := by
      rcases lt_or_ge n 10 with hn | hn
      · exact hearly n hn
      · obtain ⟨m, rfl⟩ := Nat.exists_eq_add_of_le' hn
        rw [oneKeyAct_late]
        rfl
    obtain ⟨q, hq⟩ := isSome_iff_exists.1 hstep
    rw [oneKeyState, hq, getD_some]

/-- From its tenth action on only time passes. -/
theorem oneKeyState_late (n : ℕ) : oneKeyState (n + 10) = { oneKeyState 10 with now := n } := by
  induction n with
  | zero =>
    have hnow : (oneKeyState 10).now = 0 := by decide
    rw [Nat.zero_add]
    generalize oneKeyState 10 = q at hnow ⊢
    rw [← hnow]
  | succ n ih =>
    rw [Nat.add_right_comm, oneKeyState, oneKeyAct_late, ih]
    generalize oneKeyState 10 = q
    rfl

/-- The run comes to rest, so it is fair. -/
theorem oneKey_fair : FairRun .default oneKey := by
  refine of_quiet rfl (m := 10) (fun n hn => ?_) fun t => ⟨t + 10, ?_⟩
  · obtain ⟨n, rfl⟩ := Nat.exists_eq_add_of_le' hn
    change Quiet (oneKeyState (n + 10))
    rw [oneKeyState_late]
    exact ⟨fun id => by cases id <;> rfl, rfl, rfl, rfl, rfl, rfl⟩
  · change t ≤ (oneKeyState (t + 10)).now
    rw [oneKeyState_late]

/-- The second call finds the key pending and is dropped; the key is handed out after it. -/
theorem handsOut_after_return_oneKey :
    ∃ m, 5 < m ∧ (oneKey.state m).HandsOut (oneKey.act m) "a" := by
  have hcall : oneKey.act 4 = .call 0 (.enqueue "a") := rfl
  have hopen : ∀ m < 6, 4 < m → ((oneKey.state m).producers 0).isSome := by decide
  exact oneKey_fair.handsOut_after_return hcall (by decide)
    (fun m hpos hle => hopen m (lt_succ_of_le hle) hpos) rfl (by decide)

end FairRun

end Edgion.Workqueue
