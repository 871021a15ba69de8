import Edgion.ConfSync.Watch

/-!
# Configuration sync — every applied event reaches the watcher

Between the read that found nothing new and the creation of the future it
will wait on, the watcher cannot be woken. A writer that applies and
notifies in that gap is not heard, and the watcher waits for the next
event.
-/

namespace Edgion.ConfSync

open Common List Option

universe u

variable {T : Type u}

/-! ## The condition -/

variable (s : Sys T)

/-- The notification does not fall in the watcher's gap. -/
def NoGap : Act T → Prop
  | .notify => ∀ w, s.watcher = some w → w.pc ≠ .idle
  | _ => True

/-- Version zero is exempt from the test for lost events, so a watcher is
only there while nothing has been lost. A stale event evicts nothing. -/
def NoLossAtZero : Act T → Prop
  | .apply e => s.store.syncVersion ≤ e.syncVersion → ∀ w, s.watcher = some w → w.reached = 0 →
      s.store.endIndex - s.store.startIndex < s.store.capacity
  | .watch fromVersion => fromVersion = 0 → s.store.expireSyncVersion = 0
  | _ => True

/-- The actions of `push_event`, a watcher and its client. -/
def IsPush : Act T → Prop
  | .initAdd _ _ => False
  | .clear _ => False
  | _ => True

/-- **The condition on a step.** -/
def PushGuard (act : Act T) : Prop := IsPush act ∧ NoGap s act ∧ NoLossAtZero s act

/-- The actions that need neither a further event nor a decision of the
client's. -/
def IsSettling : Act T → Prop
  | .notify | .read | .send | .enter | .wake | .leave | .recv => True
  | _ => False

/-! ## What settles -/

variable {store : EventStore T}

namespace Watcher

/-- How far the watcher is from waiting, with the store at `v`. -/
def rank (v : ℕ) (w : Watcher T) : ℕ :=
  match w.pc with
  | .stopped => 0
  | .waiting false => 1
  | .idle => 2
  | .send r => if r.err = none then (if r.syncVersion < v then 9 else 6) else 2
  | .read => if w.fromVersion < v then 7 else 4
  | .waiting true => if w.fromVersion < v then 8 else 5

theorem rank_notify_lt (v : ℕ) (w : Watcher T) : w.notify.rank v < w.rank v + 9 := by
  unfold notify
  split
  · rename_i b hpc
    cases b <;> · simp only [rank, hpc]; split <;> omega
  · omega

theorem rank_afterRead_lt (store : EventStore T) {w : Watcher T} (hpc : w.pc = .read) :
    ({ w with pc := w.afterRead store } : Watcher T).rank store.syncVersion <
      w.rank store.syncVersion := by
  have hread : w.rank store.syncVersion = if w.fromVersion < store.syncVersion then 7 else 4 := by
    unfold rank
    rw [hpc]
  rw [hread]
  obtain ⟨err, v, heq⟩ | ⟨hsame, heq⟩ | ⟨events, -, hlt, -, heq⟩ := w.afterRead_cases store
  · simp only [heq, rank, WatchResponse.fromError, reduceCtorEq, if_false]
    split <;> omega
  · simp [heq, rank, hsame]
  · simp [heq, rank, hlt, WatchResponse.new]

/-- A step of the watcher's own, other than its client's drop, brings it
closer to waiting. -/
theorem step_rank_lt {w w' : Watcher T} {act : Act T}
    (hact : IsSettling act) (h : w.step store act = some w') :
    w'.rank store.syncVersion + w'.channel.length <
      w.rank store.syncVersion + w.channel.length := by
  obtain ⟨rfl, hpc, rfl⟩ | ⟨rfl, r, hpc, hsend⟩ | ⟨rfl, hpc, rfl⟩ | ⟨rfl, hpc, rfl⟩ |
    ⟨rfl, ⟨b, hpc⟩, -, rfl⟩ | ⟨rfl, -, -⟩ := step_cases h
  · have := rank_afterRead_lt store hpc
    dsimp only at this ⊢
    omega
  · obtain ⟨-, rfl⟩ | ⟨-, -, herr, rfl⟩ | ⟨-, -, herr, rfl⟩ := afterSend_cases hsend
    · simp only [rank, hpc]
      split <;> (try split) <;> omega
    · simp only [rank, hpc, herr, if_true, length_append, length_singleton]
      split <;> omega
    · simp only [rank, hpc, herr, if_false, length_append, length_singleton]
      omega
  · simp [rank, hpc]
  · simp only [rank, hpc]
    split <;> omega
  · cases b <;> simp only [rank, hpc]
    · omega
    · split <;> omega
  · exact absurd hact (by simp [IsSettling])

end Watcher

namespace Sys

/-- **The measure of what is left to do.** -/
def measure (s : Sys T) : ℕ :=
  9 * s.pending +
    match s.watcher with
    | some w => w.rank s.store.syncVersion + w.channel.length
    | none => 0

variable [Resource T]

/-- **Settling lowers the measure.** -/
theorem measure_lt {s s' : Sys T} {act : Act T} (hact : IsSettling act)
    (h : s.step act = some s') : s'.measure < s.measure := by
  obtain ⟨e, rfl, -, -⟩ | ⟨rfl, hpos, rfl⟩ | ⟨v, r, rfl, -, -⟩ | ⟨b, rfl, -⟩ | ⟨rfl, -, -⟩ |
    ⟨f, rfl, -, -⟩ | ⟨w, response, rest, rfl, hw, -, hchan, rfl⟩ | ⟨w, w', hw, hstep, rfl⟩ :=
    step_cases h
  · exact absurd hact (by simp [IsSettling])
  · unfold measure
    cases hw : s.watcher with
    | none =>
      simp only [map_none]
      omega
    | some w =>
      have hrank := w.rank_notify_lt s.store.syncVersion
      have hchan : w.notify.channel = w.channel := by
        unfold Watcher.notify
        split <;> rfl
      simp only [map_some, hchan]
      omega
  · exact absurd hact (by simp [IsSettling])
  · exact absurd hact (by simp [IsSettling])
  · exact absurd hact (by simp [IsSettling])
  · exact absurd hact (by simp [IsSettling])
  · unfold measure
    have hrank : ({ w with channel := rest } : Watcher T).rank s.store.syncVersion =
      w.rank s.store.syncVersion := rfl
    simp only [hw, hchan, hrank, length_cons]
    omega
  · have hrank := Watcher.step_rank_lt hact hstep
    unfold measure
    simp only [hw]
    omega

end Sys

/-! ## The invariant -/

open EventStore (newerThan lastVersion)

/-- **What holds of a watcher** beside a store that has taken in `applied`,
with `pending` notifications to come. -/
structure Watcher.Heard (store : EventStore T) (pending : ℕ) (applied : List (WatcherEvent T))
    (w : Watcher T) : Prop where
  /-- It is where it started, or at a version the store has had since. -/
  reached_le : w.closed = false → w.reached = w.start ∨ (w.start ≤ w.reached ∧ w.reached ≤ store.syncVersion)
  waits_le : (w.pc = .idle ∨ ∃ b, w.pc = .waiting b) → w.fromVersion ≤ store.syncVersion
  /-- If it is behind and was not woken, a notification is still to come. -/
  pending_pos : (w.pc = .idle ∨ w.pc = .waiting false) → w.fromVersion < store.syncVersion →
    0 < pending
  zero : w.closed = false → w.reached = 0 → applied.length ≤ store.capacity
  stopped : w.pc = .stopped → (∃ r ∈ w.log, r.err ≠ none) ∨ w.closed = true
  /-- The events since its start are those it sent, those it is sending and
  those newer than both. -/
  sent : w.closed = false → newerThan w.start applied =
    eventsOf w.log ++ eventsOf w.inFlight ++ newerThan w.reached applied

/-- **The invariant of the system.** -/
structure Sys.Heard [Resource T] (capacity : ℕ) (s : Sys T) : Prop where
  ran : EventStore.Ran capacity s.applied s.store
  inc : s.applied.Pairwise fun a b => a.syncVersion < b.syncVersion
  used : ∀ e ∈ s.applied, e.syncVersion ∈ s.used
  pos : ∀ e ∈ s.applied, 0 < e.syncVersion
  watcher : ∀ w, s.watcher = some w → w.Heard s.store s.pending s.applied

variable {applied : List (WatcherEvent T)} {capacity : ℕ}

open EventStore

/-- **The queue covers a version** that is not too old for it. -/
theorem covered [Resource T] (R : Ran capacity applied store)
    (hinc : applied.Pairwise fun a b => a.syncVersion < b.syncVersion) {v : ℕ}
    (hzero : v = 0 → applied.length ≤ store.capacity)
    (hold : ¬ (v ≠ 0 ∧ v < store.expireSyncVersion)) :
    newerThan v (applied.drop (applied.length - store.capacity)) = newerThan v applied := by
  have hgone : newerThan v (applied.take (applied.length - store.capacity)) = [] := by
    refine newerThan_eq_nil fun e he => ?_
    by_cases hv : v = 0
    · rw [show applied.length - store.capacity = 0 by have := hzero hv; omega] at he
      simp at he
    · have hle := le_lastVersion (hinc.sublist (take_sublist _ _)) he
      rw [← R.expire_eq] at hle
      omega
  conv_rhs => rw [← take_append_drop (applied.length - store.capacity) applied]
  unfold newerThan at hgone ⊢
  rw [filter_append, hgone, nil_append]

/-- Nothing is newer than the store. -/
theorem newerThan_syncVersion [Resource T] (R : Ran capacity applied store)
    (hinc : applied.Pairwise fun a b => a.syncVersion < b.syncVersion) :
    newerThan store.syncVersion applied = [] := by
  refine newerThan_eq_nil fun e he => ?_
  rw [R.syncVersion_eq]
  exact le_lastVersion hinc he

namespace Watcher.Heard

variable {store : EventStore T} {pending : ℕ} {applied : List (WatcherEvent T)} {w : Watcher T}
variable (H : w.Heard store pending applied)

include H

/-- A later event that the store takes in. -/
theorem apply [Resource T] {e : WatcherEvent T} (hlt : store.syncVersion < e.syncVersion)
    (hzero : w.closed = false → w.reached = 0 → (applied ++ [e]).length ≤ store.capacity) :
    w.Heard (store.applyEvent e) (pending + 1) (applied ++ [e]) where
  reached_le := by
    intro hopen
    rw [syncVersion_applyEvent hlt.le]
    obtain h | ⟨h1, h2⟩ := H.reached_le hopen
    · exact .inl h
    · exact .inr ⟨h1, by omega⟩
  waits_le := by
    intro hpc
    rw [syncVersion_applyEvent hlt.le]
    have := H.waits_le hpc
    omega
  pending_pos := fun _ _ => Nat.succ_pos _
  zero := by
    intro hopen h
    rw [capacity_applyEvent]
    exact hzero hopen h
  stopped := H.stopped
  sent := by
    intro hopen
    have hboth : w.start < e.syncVersion ↔ w.reached < e.syncVersion := by
      have := H.reached_le hopen
      omega
    rw [newerThan_concat, newerThan_concat, H.sent hopen, append_assoc]
    simp only [hboth]

/-- A notification outside the gap. -/
theorem notify (hgap : w.pc ≠ .idle) : w.notify.Heard store (pending - 1) applied := by
  unfold Watcher.notify
  split
  · rename_i b hpc
    refine ⟨?_, ?_, ?_, ?_, ?_, ?_⟩
    · simpa [reached, hpc] using H.reached_le
    · exact fun _ => H.waits_le (.inr ⟨b, hpc⟩)
    · rintro (h | h) <;> simp at h
    · simpa [reached, hpc] using H.zero
    · intro h
      cases h
    · simpa [reached, inFlight, hpc] using H.sent
  · rename_i hpc
    refine { H with pending_pos := ?_ }
    rintro (h | h)
    · exact absurd h hgap
    · exact absurd h (hpc false)

/-- The client receives. -/
theorem recv (rest : List (WatchResponse T)) :
    ({ w with channel := rest } : Watcher T).Heard store pending applied :=
  { H with }

variable {w' : Watcher T}

/-- A step after which it has reached and sent as much as before. -/
theorem move (hstart : w'.start = w.start) (hclosed : w'.closed = w.closed)
    (hreached : w'.reached = w.reached)
    (hsent : eventsOf w'.log ++ eventsOf w'.inFlight = eventsOf w.log ++ eventsOf w.inFlight)
    (hwaits : (w'.pc = .idle ∨ ∃ b, w'.pc = .waiting b) → w'.fromVersion ≤ store.syncVersion)
    (hpend : (w'.pc = .idle ∨ w'.pc = .waiting false) → w'.fromVersion < store.syncVersion →
      0 < pending) (hstopped : w'.pc = .stopped → (∃ r ∈ w'.log, r.err ≠ none) ∨ w'.closed = true) :
    w'.Heard store pending applied where
  reached_le := by rw [hclosed, hreached, hstart]; exact H.reached_le
  waits_le := hwaits
  pending_pos := hpend
  zero := by rw [hclosed, hreached]; exact H.zero
  stopped := hstopped
  sent := by rw [hclosed, hstart, hreached, hsent]; exact H.sent

/-- Such a step to a place where it does not wait. -/
theorem moveOn (hpc : ∀ b, w'.pc ≠ .idle ∧ w'.pc ≠ .waiting b)
    (hstart : w'.start = w.start) (hclosed : w'.closed = w.closed)
    (hreached : w'.reached = w.reached)
    (hsent : eventsOf w'.log ++ eventsOf w'.inFlight = eventsOf w.log ++ eventsOf w.inFlight)
    (hstopped : w'.pc = .stopped → (∃ r ∈ w'.log, r.err ≠ none) ∨ w'.closed = true) :
    w'.Heard store pending applied := by
  refine H.move hstart hclosed hreached hsent ?_ ?_ hstopped
  · rintro (h | ⟨b, h⟩)
    · exact absurd h (hpc false).1
    · exact absurd h (hpc b).2
  · rintro (h | h)
    · exact absurd h (hpc false).1
    · exact absurd h (hpc false).2

/-- **The watcher reads.** -/
theorem read [Resource T] (R : Ran capacity applied store)
    (hinc : applied.Pairwise fun a b => a.syncVersion < b.syncVersion) (hpc : w.pc = .read) :
    ({ w with pc := w.afterRead store } : Watcher T).Heard store pending applied := by
  have hreached : w.reached = w.fromVersion := by simp [reached, hpc]
  obtain ⟨err, v, heq⟩ | ⟨hsame, heq⟩ | ⟨events, -, hlt, hget, heq⟩ := w.afterRead_cases store <;>
    rw [heq]
  · exact H.moveOn (by simp) rfl rfl (by simp [reached, hpc, WatchResponse.fromError])
      (by simp [inFlight, hpc, eventsOf, WatchResponse.fromError]) (by simp)
  · exact H.move rfl rfl (by simp [reached, hpc]) (by simp [inFlight, hpc]) (fun _ => hsame.le)
      (fun _ hlt => absurd hsame hlt.ne) (by simp)
  -- the events newer than the watcher are all held, and are now on their way
  obtain ⟨rfl, hold⟩ := R.holds.eq_newerThan hget
  have hnone := newerThan_syncVersion R hinc
  refine ⟨?_, ?_, ?_, ?_, ?_, ?_⟩
  · intro hopen
    have hstart := H.reached_le hopen
    rw [hreached] at hstart
    refine .inr ⟨?_, ?_⟩
    · simp only [reached, WatchResponse.new, isNone_none, if_true]
      omega
    · simp [reached, WatchResponse.new]
  · rintro (h | ⟨b, h⟩) <;> cases h
  · rintro (h | h) <;> cases h
  · intro _ hzero
    simp only [reached, WatchResponse.new, isNone_none, if_true] at hzero
    omega
  · intro h
    cases h
  · intro hopen
    have hcov := covered R hinc (fun hz => H.zero hopen (hreached.trans hz)) hold
    have hsent := H.sent hopen
    rw [hreached] at hsent
    simp only [reached, inFlight, WatchResponse.new, isNone_none, if_true, hnone, hcov]
    rw [hsent]
    simp [inFlight, hpc, eventsOf]

/-- **The watcher sends.** -/
theorem send {r : WatchResponse T} (hpc : w.pc = .send r)
    (h : w.afterSend r = some w') : w'.Heard store pending applied := by
  obtain ⟨hclosed, rfl⟩ | ⟨hopen, -, herr, rfl⟩ | ⟨hopen, -, herr, rfl⟩ := afterSend_cases h
  · refine ⟨?_, ?_, ?_, ?_, fun _ => .inr hclosed, ?_⟩
    · intro ho
      simp [hclosed] at ho
    · rintro (h | ⟨b, h⟩) <;> cases h
    · rintro (h | h) <;> cases h
    · intro ho
      simp [hclosed] at ho
    · intro ho
      simp [hclosed] at ho
  · exact H.moveOn (by simp) rfl rfl (by simp [reached, hpc, herr])
      (by simp [inFlight, hpc, eventsOf]) (by simp)
  · exact H.moveOn (by simp) rfl rfl (by simp [reached, hpc, herr])
      (by simp [inFlight, hpc, eventsOf]) fun _ => .inl ⟨r, by simp, herr⟩

end Watcher.Heard

theorem Watcher.Heard.step [Resource T] {pending : ℕ} {w w' : Watcher T} {act : Act T}
    (H : w.Heard store pending applied) (R : Ran capacity applied store)
    (hinc : applied.Pairwise fun a b => a.syncVersion < b.syncVersion)
    (h : w.step store act = some w') : w'.Heard store pending applied := by
  obtain ⟨-, hpc, rfl⟩ | ⟨-, r, hpc, hsend⟩ | ⟨-, hpc, rfl⟩ | ⟨-, hpc, rfl⟩ |
    ⟨-, ⟨b, hpc⟩, hclosed, rfl⟩ | ⟨-, -, rfl⟩ := step_cases h
  · exact H.read R hinc hpc
  · exact H.send hpc hsend
  · exact H.move rfl rfl (by simp [reached, hpc]) (by simp [inFlight, hpc])
      (fun _ => H.waits_le (.inl hpc)) (fun _ => H.pending_pos (.inl hpc)) (by simp)
  · exact H.moveOn (by simp) rfl rfl (by simp [reached, hpc]) (by simp [inFlight, hpc]) (by simp)
  · exact H.moveOn (by simp) rfl rfl (by simp [reached, hpc]) (by simp [inFlight, hpc])
      fun _ => .inr hclosed
  · refine ⟨?_, H.waits_le, H.pending_pos, ?_, fun _ => .inr rfl, ?_⟩ <;>
    · intro hopen
      cases hopen

namespace Sys.Heard

variable [Resource T] {capacity : ℕ} {s s' : Sys T} {act : Act T}

theorem init (capacity : ℕ) : (Sys.init capacity : Sys T).Heard capacity where
  ran := ran_run capacity Pairwise.nil
  inc := Pairwise.nil
  used := by simp [Sys.init]
  pos := by simp [Sys.init]
  watcher := by
    intro w hw
    cases hw

/-- An event that is not older than the store is newer: no version comes
twice. -/
theorem lt_of_fresh (H : s.Heard capacity) {e : WatcherEvent T} (hfresh : s.Fresh e.syncVersion)
    (hle : ¬ e.syncVersion < s.store.syncVersion) : s.store.syncVersion < e.syncVersion := by
  refine lt_of_le_of_ne (by omega) fun heq => ?_
  rw [H.ran.syncVersion_eq] at heq
  unfold lastVersion at heq
  cases hl : s.applied.getLast? with
  | none =>
    rw [hl] at heq
    have := hfresh.1
    simp at heq
    omega
  | some x =>
    rw [hl] at heq
    exact hfresh.2 (heq ▸ H.used x (mem_of_getLast? hl))

/-- A watcher that starts. -/
theorem start (H : s.Heard capacity) {v : ℕ} (hzero : v = 0 → s.store.expireSyncVersion = 0) :
    (Watcher.new v : Watcher T).Heard s.store s.pending s.applied where
  reached_le := fun _ => .inl rfl
  waits_le := by rintro (h | ⟨b, h⟩) <;> cases h
  pending_pos := by rintro (h | h) <;> cases h
  zero := by
    intro _ hv
    -- an event that was lost would have expired its own positive version
    by_contra hlen
    have hexp := hzero hv
    rw [H.ran.expire_eq] at hexp
    have hne : s.applied.take (s.applied.length - s.store.capacity) ≠ [] := by
      rw [Ne, take_eq_nil_iff]
      rintro (h | h)
      · omega
      · simp [h] at hlen
    obtain ⟨qs, q, hqs⟩ := (eq_nil_or_concat' _).resolve_left hne
    have hpos := H.pos q (mem_of_mem_take (by rw [hqs]; simp))
    rw [hqs, lastVersion_concat] at hexp
    omega
  stopped := by
    intro h
    cases h
  sent := fun _ => rfl

/-- **Every step the condition allows keeps the invariant.** -/
theorem step (H : s.Heard capacity) (hok : PushGuard s act) (h : s.step act = some s') :
    s'.Heard capacity := by
  obtain ⟨hpush, hgap, hzero⟩ := hok
  obtain ⟨e, rfl, hfresh, rfl⟩ | ⟨rfl, -, rfl⟩ | ⟨v, r, rfl, -, -⟩ | ⟨b, rfl, -⟩ | ⟨rfl, -, rfl⟩ |
    ⟨v, rfl, -, rfl⟩ | ⟨w, response, rest, rfl, hw, -, -, rfl⟩ | ⟨w, w', hw, hstep, rfl⟩ :=
    step_cases h
  · by_cases hold : e.syncVersion < s.store.syncVersion
    · -- a stale event is dropped, and only adds a notification
      simp only [if_pos hold, applyEvent_of_lt hold]
      exact ⟨H.ran, H.inc, fun x hx => mem_cons_of_mem _ (H.used x hx), H.pos,
        fun w hw => { H.watcher w hw with pending_pos := fun _ _ => Nat.succ_pos _ }⟩
    have hlt := H.lt_of_fresh hfresh hold
    have hinc : (s.applied ++ [e]).Pairwise fun a b => a.syncVersion < b.syncVersion := by
      rw [pairwise_append]
      refine ⟨H.inc, pairwise_singleton _ _, fun a ha b hb => ?_⟩
      rw [mem_singleton] at hb
      have hle := le_lastVersion H.inc ha
      rw [← H.ran.syncVersion_eq] at hle
      rw [hb]
      omega
    simp only [if_neg hold]
    refine ⟨H.ran.applyEvent hinc, hinc, ?_, ?_, fun w hw => ?_⟩
    · intro x hx
      rw [mem_append, mem_singleton] at hx
      obtain hx | rfl := hx
      · exact mem_cons_of_mem _ (H.used x hx)
      · exact mem_cons_self
    · intro x hx
      rw [mem_append, mem_singleton] at hx
      obtain hx | rfl := hx
      · exact H.pos x hx
      · exact hfresh.1
    · have Hw := H.watcher w hw
      refine Hw.apply hlt fun hopen hz => ?_
      have hlen := Hw.zero hopen hz
      have hroom := hzero hlt.le w hw hz
      have hhi := H.ran.holds.window.hi_eq
      rw [length_drop] at hhi
      rw [length_append, length_singleton]
      omega
  · refine { H with watcher := fun w hw => ?_ }
    obtain ⟨w0, hw0, rfl⟩ := map_eq_some_iff.1 hw
    exact (H.watcher w0 hw0).notify (hgap w0 hw0)
  · exact absurd hpush id
  · exact absurd hpush id
  · exact { H with }
  · refine { H with watcher := fun w hw => ?_ }
    cases hw
    exact H.start hzero
  · refine { H with watcher := fun w0 hw0 => ?_ }
    cases hw0
    exact (H.watcher w hw).recv rest
  · refine { H with watcher := fun w0 hw0 => ?_ }
    cases hw0
    exact (H.watcher w hw).step H.ran H.inc hstep

end Sys.Heard

/-! ## The watcher hears of everything -/

section Settled

variable [Resource T] {s : Sys T} {w : Watcher T}

/-- Where no settling step can be taken, the watcher has left its loop, or
waits with nothing to come and nothing on its way. -/
theorem pc_of_settled (hw : s.watcher = some w)
    (hsettled : ∀ act, IsSettling act → s.step act = none) :
    w.pc = .stopped ∨
      (w.pc = .waiting false ∧ w.closed = false ∧ w.channel = [] ∧ s.pending = 0) := by
  have hown : ∀ act, IsSettling act → act ≠ .notify → act ≠ .recv → w.step s.store act = none := by
    intro act hact hn hr
    have hnone := hsettled act hact
    cases act with
    | read | send | enter | wake | leave => simpa [Sys.step, hw] using hnone
    | notify => exact absurd rfl hn
    | recv => exact absurd rfl hr
    | _ => cases hact
  have hpend : s.pending = 0 := by
    by_contra hpos
    have hnone := hsettled .notify trivial
    simp [Sys.step, hpos] at hnone
  have hchannel : w.closed = false → w.channel = [] := by
    intro hopen
    have hnone := hsettled .recv trivial
    cases hc : w.channel with
    | nil => rfl
    | cons r rest => simp [Sys.step, hw, hopen, hc] at hnone
  cases hpc : w.pc with
  | read =>
    have := hown .read trivial (by simp) (by simp)
    simp [Watcher.step, hpc] at this
  | send r =>
    have hnone := hown .send trivial (by simp) (by simp)
    simp only [Watcher.step, hpc, Watcher.afterSend] at hnone
    by_cases hclosed : w.closed = true
    · simp [hclosed] at hnone
    · have hempty := hchannel (by simpa using hclosed)
      simp [hclosed, hempty, channelCapacity] at hnone
  | idle =>
    have := hown .enter trivial (by simp) (by simp)
    simp [Watcher.step, hpc] at this
  | waiting b =>
    have hclosed : w.closed = false := by
      have := hown .leave trivial (by simp) (by simp)
      simpa [Watcher.step, hpc] using this
    cases b with
    | false => exact .inr ⟨rfl, hclosed, hchannel hclosed, hpend⟩
    | true =>
      have := hown .wake trivial (by simp) (by simp)
      simp [Watcher.step, hpc] at this
  | stopped => exact .inl rfl

/-- **Every applied event is sent, or answered with an error.** In every
interleaving whose notifications all fall outside the watcher's gap, and
that loses no event while the watcher is at version zero: a watcher that
waits behind the store has a notification to come; without further events
the system settles, within its measure; and where it has settled, the
watcher has sent an error, or its client is gone, or it waits at the store's
version, having sent the events applied since its start, each once and in
order. -/
theorem watcher_hears_every_event (capacity : ℕ) {acts : List (Act T)}
    (hrun : Runs Sys.step PushGuard (Sys.init capacity) acts s) (hw : s.watcher = some w) :
    (w.pc = .waiting false → w.fromVersion < s.store.syncVersion → 0 < s.pending) ∧
    (∀ acts' s', Runs Sys.step (fun _ act => IsSettling act) s acts' s' →
      acts'.length ≤ s.measure) ∧
    ((∀ act, IsSettling act → s.step act = none) → (∃ r ∈ w.log, r.err ≠ none) ∨ w.closed = true ∨
      (w.fromVersion = s.store.syncVersion ∧ w.channel = [] ∧
        eventsOf w.log = newerThan w.start s.applied)) := by
  have H : s.Heard capacity := hrun.invariant (Sys.Heard.init capacity)
    fun _ _ _ hinv hok hstep => hinv.step hok hstep
  have Hw := H.watcher w hw
  refine ⟨fun hpc => Hw.pending_pos (.inr hpc), ?_, ?_⟩
  · intro acts' s' hrest
    exact hrest.length_le fun _ _ _ hact hstep => Sys.measure_lt hact hstep
  · intro hsettled
    obtain hpc | ⟨hpc, hopen, hchannel, hpending⟩ := pc_of_settled hw hsettled
    · exact (Hw.stopped hpc).imp_right .inl
    have hle := Hw.waits_le (.inr ⟨false, hpc⟩)
    have hbehind : ¬ w.fromVersion < s.store.syncVersion := fun hlt =>
      absurd (Hw.pending_pos (.inr hpc) hlt) (by omega)
    have heq : w.fromVersion = s.store.syncVersion := by omega
    have hnone := newerThan_syncVersion H.ran H.inc
    refine .inr (.inr ⟨heq, hchannel, ?_⟩)
    have hsent := Hw.sent hopen
    have hreached : w.reached = w.fromVersion := by simp [Watcher.reached, hpc]
    have hflight : w.inFlight = [] := by simp [Watcher.inFlight, hpc]
    rw [hreached, heq, hnone, hflight] at hsent
    simpa [eventsOf] using hsent.symm

end Settled

open EventStore (Entry entryEvent)

/-- A watcher that is heard: the writer notifies once the future exists. -/
def sampleActs : List (Act Entry) :=
  [.watch 0, .read, .apply (entryEvent .add "a" 1), .enter, .notify]

/-- The state they lead to. -/
def sampleSys : Sys Entry :=
  { store := (new 10).applyEvent (entryEvent .add "a" 1)
    pending := 0
    used := [1]
    applied := [entryEvent .add "a" 1]
    listed := none
    view := fun _ => none
    watcher := some { (Watcher.new 0 : Watcher Entry) with pc := .waiting true } }

theorem watcher_hears_every_event_sample :
    Runs Sys.step PushGuard (Sys.init 10) sampleActs sampleSys ∧
      ∀ acts' s', Runs Sys.step (fun _ act => IsSettling act) sampleSys acts' s' →
        acts'.length ≤ 8 := by
  have hrun : Runs Sys.step PushGuard (Sys.init 10) sampleActs sampleSys := by
    refine .cons ⟨trivial, trivial, fun _ => rfl⟩ rfl (.cons ⟨trivial, trivial, trivial⟩ rfl
      (.cons ⟨trivial, trivial, ?_⟩ rfl (.cons ⟨trivial, trivial, trivial⟩ rfl
        (.cons ⟨trivial, ?_, trivial⟩ rfl (.nil _)))))
    · intro _ w hw _
      decide
    · intro w hw
      cases hw
      simp
  exact ⟨hrun, fun acts' s' hrest =>
    (watcher_hears_every_event 10 hrun rfl).2.1 acts' s' hrest⟩

/-- **A lost notification.** The writer applies and notifies between the
watcher's read and the creation of its future: the watcher waits behind the
store, and nothing is left that would wake it. -/
theorem watcher_misses_notification :
    ∃ (acts : List (Act Entry)) (s : Sys Entry) (w : Watcher Entry),
      Runs Sys.step (fun _ act => IsPush act) (Sys.init 10) acts s ∧ s.watcher = some w ∧
      w.pc = .waiting false ∧ w.closed = false ∧ w.log = [] ∧
      w.fromVersion < s.store.syncVersion ∧ s.pending = 0 ∧
      ∀ act, IsSettling act → s.step act = none := by
  refine ⟨[.watch 0, .read, .apply (entryEvent .add "a" 1), .notify, .enter],
    { sampleSys with watcher := some { (Watcher.new 0 : Watcher Entry) with pc := .waiting false } },
    _, .cons trivial rfl (.cons trivial rfl (.cons trivial rfl (.cons trivial rfl
      (.cons trivial rfl (.nil _))))), rfl, rfl, rfl, rfl, by decide, rfl, ?_⟩
  intro act hact
  cases act <;> first | rfl | exact absurd hact id

end Edgion.ConfSync
