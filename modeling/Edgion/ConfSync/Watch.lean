import Edgion.Common.Steps
import Edgion.ConfSync.Replay

/-!
# Configuration sync — a watcher among writers

The system around one store: writers that apply an event under the
store's lock and notify the watchers afterwards, the initial objects and
clears of a relink, a watcher task, the bounded channel to its client,
and the client itself, which lists once and replays what it receives.
Each action is one atomic step of one party, so that a list of actions is
an interleaving.

The watcher's read of the store, its decision to wait and the creation of
the future it waits on are three separate steps. A notification reaches
only a future that exists.
-/

namespace Edgion.ConfSync

open Common Option EventStore

universe u

structure WatchResponse (T : Type u) where
  events : List (WatcherEvent T)
  syncVersion : ℕ
  err : Option String

def WatchResponse.new {T : Type u} (events : List (WatcherEvent T)) (syncVersion : ℕ) :
    WatchResponse T :=
  { events, syncVersion, err := none }

def WatchResponse.fromError {T : Type u} (error : String) (syncVersion : ℕ) : WatchResponse T :=
  { events := [], syncVersion, err := some error }

/-- **Where the watcher task stands** in its loop. -/
inductive Pc (T : Type u)
  /-- At the top, about to read the store. -/
  | read
  /-- About to send a response, when the channel has room. -/
  | send (response : WatchResponse T)
  /-- Nothing was new: about to enter the `select!`. -/
  | idle
  /-- In the `select!`; the future exists, and may have been woken. -/
  | waiting (woken : Bool)
  /-- The loop was left. -/
  | stopped

/-- A watcher task with the channel to its client. `start` and `log`
remember where it began and what it sent. -/
structure Watcher (T : Type u) where
  start : ℕ
  fromVersion : ℕ
  pc : Pc T
  channel : List (WatchResponse T)
  closed : Bool
  log : List (WatchResponse T)

/-- The whole system. `pending` counts the writers between their apply and
their notification; `used` are the versions handed out and `applied` the
events the store took in. -/
structure Sys (T : Type u) where
  store : EventStore T
  pending : ℕ
  used : List ℕ
  applied : List (WatcherEvent T)
  listed : Option ℕ
  view : Data T
  watcher : Option (Watcher T)

/-- The actions of the parties. -/
inductive Act (T : Type u)
  /-- A writer's `apply_event`, under the lock. -/
  | apply (event : WatcherEvent T)
  /-- A writer's `notify_waiters`, after its apply. -/
  | notify
  /-- `ResourceChange::InitAdd`. -/
  | initAdd (version : ℕ) (resource : T)
  /-- A clear; the one behind `WatchObj` notifies afterwards. -/
  | clear (notifies : Bool)
  /-- The client lists. -/
  | list
  /-- The client asks to watch. -/
  | watch (fromVersion : ℕ)
  /-- The watcher reads the store. -/
  | read
  /-- The watcher sends. -/
  | send
  /-- The watcher enters the `select!` and creates its future. -/
  | enter
  /-- The watcher's future completes. -/
  | wake
  /-- The watcher sees that its receiver is gone. -/
  | leave
  /-- The client receives. -/
  | recv
  /-- The client drops its receiver. -/
  | drop

variable {T : Type u}

/-- The capacity of the channel to a client. -/
def channelCapacity : ℕ := 100

namespace Watcher

/-- A watcher task at its start. -/
def new (fromVersion : ℕ) : Watcher T :=
  { start := fromVersion, fromVersion, pc := .read, channel := [], closed := false, log := [] }

variable (store : EventStore T) (w : Watcher T)

/-- What the watcher does with what it read. -/
def afterRead : Pc T :=
  match store.getEventsFromSyncVersion w.fromVersion with
  | .ok (current, some (event :: events)) => .send (.new (event :: events) current)
  | .ok (current, _) =>
    -- the version jumped but no events: they are lost
    if current > w.fromVersion then .send (.fromError watchErrEventsLost current) else .idle
  | .error err => .send (.fromError err w.fromVersion)

/-- The watcher's send of `response`, when its receiver is gone or the
channel has room. -/
def afterSend (response : WatchResponse T) : Option (Watcher T) :=
  if w.closed then some { w with pc := .stopped }
  else if w.channel.length < channelCapacity then
    some
      { w with
        channel := w.channel ++ [response]
        log := w.log ++ [response]
        fromVersion := if response.err.isNone then response.syncVersion else w.fromVersion
        pc := if response.err.isNone then .read else .stopped }
  else none

/-- The watcher's own steps, and its channel's. -/
def step : Act T → Option (Watcher T)
  | .read =>
    match w.pc with
    | .read => some { w with pc := w.afterRead store }
    | _ => none
  | .send =>
    match w.pc with
    | .send response => w.afterSend response
    | _ => none
  | .enter =>
    match w.pc with
    | .idle => some { w with pc := .waiting false }
    | _ => none
  | .wake =>
    match w.pc with
    | .waiting true => some { w with pc := .read }
    | _ => none
  | .leave =>
    match w.pc with
    | .waiting _ => if w.closed then some { w with pc := .stopped } else none
    | _ => none
  | .drop => if w.closed then none else some { w with closed := true }
  | _ => none

/-- `notify_waiters`, at this watcher: only a future that exists is woken. -/
def notify : Watcher T :=
  match w.pc with
  | .waiting _ => { w with pc := .waiting true }
  | _ => w

end Watcher

namespace Sys

/-- The system at its start. -/
def init (capacity : ℕ) : Sys T :=
  { store := new capacity
    pending := 0
    used := []
    applied := []
    listed := none
    view := fun _ => none
    watcher := none }

/-- A version the generator may hand out. -/
def Fresh (s : Sys T) (version : ℕ) : Prop := 0 < version ∧ version ∉ s.used

instance (s : Sys T) (version : ℕ) : Decidable (s.Fresh version) :=
  inferInstanceAs (Decidable (_ ∧ _))

/-- **One step of the system.** -/
def step [Resource T] (s : Sys T) : Act T → Option (Sys T)
  | .apply event =>
    if s.Fresh event.syncVersion then
      some
        { s with
          store := s.store.applyEvent event
          pending := s.pending + 1
          used := event.syncVersion :: s.used
          applied :=
            if event.syncVersion < s.store.syncVersion then s.applied else s.applied ++ [event] }
    else none
  | .notify =>
    if s.pending = 0 then none
    else some { s with pending := s.pending - 1, watcher := s.watcher.map Watcher.notify }
  | .initAdd version resource =>
    if s.Fresh version then
      some { s with store := s.store.initAdd version resource, used := version :: s.used }
    else none
  | .clear notifies =>
    some { s with store := s.store.clear, pending := if notifies then s.pending + 1 else s.pending }
  | .list =>
    match s.listed with
    | none => some { s with listed := some s.store.syncVersion, view := s.store.data }
    | some _ => none
  | .watch fromVersion =>
    match s.watcher with
    | none => some { s with watcher := some (.new fromVersion) }
    | some _ => none
  | .recv =>
    match s.watcher with
    | some w =>
      match w.closed, w.channel with
      | false, response :: rest =>
        some
          { s with
            view := replay s.view response.events
            watcher := some { w with channel := rest } }
      | _, _ => none
    | none => none
  | act => (s.watcher.bind (Watcher.step s.store · act)).map fun w => { s with watcher := some w }

end Sys

/-! ## What a step can do -/

/-- All the events of some responses, in order. -/
def eventsOf (responses : List (WatchResponse T)) : List (WatcherEvent T) :=
  responses.flatMap (·.events)

namespace Watcher

variable {store : EventStore T} {w w' : Watcher T} {act : Act T}

/-- The version the client is at once what the watcher is sending arrives. -/
def reached (w : Watcher T) : ℕ :=
  match w.pc with
  | .send response => if response.err.isNone then response.syncVersion else w.fromVersion
  | _ => w.fromVersion

/-- The response the watcher is sending, if it is. -/
def inFlight (w : Watcher T) : List (WatchResponse T) :=
  match w.pc with
  | .send response => [response]
  | _ => []

/-- The watcher has sent an error, or is about to. -/
def Failed (w : Watcher T) : Prop := ∃ r ∈ w.log ++ w.inFlight, r.err ≠ none

/-- **The steps of a watcher.** -/
theorem step_cases (h : w.step store act = some w') :
    (act = .read ∧ w.pc = .read ∧ w' = { w with pc := w.afterRead store }) ∨
    (act = .send ∧ ∃ r, w.pc = .send r ∧ w.afterSend r = some w') ∨
    (act = .enter ∧ w.pc = .idle ∧ w' = { w with pc := .waiting false }) ∨
    (act = .wake ∧ w.pc = .waiting true ∧ w' = { w with pc := .read }) ∨
    (act = .leave ∧ (∃ b, w.pc = .waiting b) ∧ w.closed ∧ w' = { w with pc := .stopped }) ∨
    (act = .drop ∧ w.closed = false ∧ w' = { w with closed := true }) := by
  unfold step at h
  split at h
  · split at h
    · exact .inl ⟨rfl, ‹_›, (some.inj h).symm⟩
    · cases h
  · split at h
    · exact .inr (.inl ⟨rfl, _, ‹_›, h⟩)
    · cases h
  · split at h
    · exact .inr (.inr (.inl ⟨rfl, ‹_›, (some.inj h).symm⟩))
    · cases h
  · split at h
    · exact .inr (.inr (.inr (.inl ⟨rfl, ‹_›, (some.inj h).symm⟩)))
    · cases h
  · split at h
    · split at h
      · exact .inr (.inr (.inr (.inr (.inl ⟨rfl, ⟨_, ‹_›⟩, ‹_›, (some.inj h).symm⟩))))
      · cases h
    · cases h
  · split at h
    · cases h
    · exact .inr (.inr (.inr (.inr (.inr
        ⟨rfl, by simpa using ‹¬ w.closed = true›, (some.inj h).symm⟩))))
  · cases h

/-- **What a send leads to.** -/
theorem afterSend_cases {r : WatchResponse T} (h : w.afterSend r = some w') :
    (w.closed ∧ w' = { w with pc := .stopped }) ∨
    (w.closed = false ∧ w.channel.length < channelCapacity ∧ r.err = none ∧
      w' = { w with channel := w.channel ++ [r], log := w.log ++ [r],
                    fromVersion := r.syncVersion, pc := .read }) ∨
    (w.closed = false ∧ w.channel.length < channelCapacity ∧ r.err ≠ none ∧
      w' = { w with channel := w.channel ++ [r], log := w.log ++ [r], pc := .stopped }) := by
  unfold afterSend at h
  by_cases hc : w.closed = true
  · rw [if_pos hc] at h
    exact .inl ⟨hc, (some.inj h).symm⟩
  rw [if_neg hc] at h
  have hc' : w.closed = false := by simpa using hc
  by_cases hroom : w.channel.length < channelCapacity
  · rw [if_pos hroom] at h
    have h' := (some.inj h).symm
    by_cases herr : r.err = none
    · refine .inr (.inl ⟨hc', hroom, herr, ?_⟩)
      simpa [herr] using h'
    · refine .inr (.inr ⟨hc', hroom, herr, ?_⟩)
      have hsome : r.err.isNone = false := Bool.eq_false_iff.2 (mt isNone_iff_eq_none.1 herr)
      simpa [hsome] using h'
  · rw [if_neg hroom] at h
    cases h

/-- **What a read leads to**: an error, the wait at the store's version, or newer events. -/
theorem afterRead_cases (store : EventStore T) (w : Watcher T) :
    (∃ err v, w.afterRead store = .send (.fromError err v)) ∨
      (w.fromVersion = store.syncVersion ∧ w.afterRead store = .idle) ∨
      ∃ events, events ≠ [] ∧ w.fromVersion < store.syncVersion ∧
        store.getEventsFromSyncVersion w.fromVersion = .ok (store.syncVersion, some events) ∧
        w.afterRead store = .send (.new events store.syncVersion) := by
  unfold afterRead
  split
  · rename_i hget
    obtain ⟨rfl, -, hlt⟩ := of_getEvents_eq_ok hget
    exact .inr (.inr ⟨_, List.cons_ne_nil _ _, hlt rfl, hget, rfl⟩)
  · rename_i hget
    obtain ⟨rfl, hle, -⟩ := of_getEvents_eq_ok hget
    split
    · exact .inl ⟨_, _, rfl⟩
    · exact .inr (.inl ⟨by omega, rfl⟩)
  · exact .inl ⟨_, _, rfl⟩

end Watcher

namespace Sys

variable [Resource T] {s s' : Sys T} {act : Act T}

/-- **The steps of the system.** -/
theorem step_cases (h : s.step act = some s') :
    (∃ event, act = .apply event ∧ s.Fresh event.syncVersion ∧ s' = { s with
        store := s.store.applyEvent event
        pending := s.pending + 1
        used := event.syncVersion :: s.used
        applied :=
          if event.syncVersion < s.store.syncVersion then s.applied else s.applied ++ [event] }) ∨
    (act = .notify ∧ 0 < s.pending ∧
      s' = { s with pending := s.pending - 1, watcher := s.watcher.map Watcher.notify }) ∨
    (∃ version resource, act = .initAdd version resource ∧ s.Fresh version ∧
      s' = { s with store := s.store.initAdd version resource, used := version :: s.used }) ∨
    (∃ notifies, act = .clear notifies ∧ s' =
      { s with store := s.store.clear, pending := if notifies then s.pending + 1 else s.pending }) ∨
    (act = .list ∧ s.listed = none ∧
      s' = { s with listed := some s.store.syncVersion, view := s.store.data }) ∨
    (∃ fromVersion, act = .watch fromVersion ∧ s.watcher = none ∧
      s' = { s with watcher := some (.new fromVersion) }) ∨
    (∃ w response rest, act = .recv ∧ s.watcher = some w ∧ w.closed = false ∧
      w.channel = response :: rest ∧
      s' = { s with view := replay s.view response.events,
                    watcher := some { w with channel := rest } }) ∨
    (∃ w w', s.watcher = some w ∧ w.step s.store act = some w' ∧
      s' = { s with watcher := some w' }) := by
  cases act with
  | apply event =>
    simp only [step] at h
    split at h
    · exact .inl ⟨event, rfl, ‹_›, (some.inj h).symm⟩
    · cases h
  | notify =>
    simp only [step] at h
    split at h
    · cases h
    · exact .inr (.inl ⟨rfl, by omega, (some.inj h).symm⟩)
  | initAdd version resource =>
    simp only [step] at h
    split at h
    · exact .inr (.inr (.inl ⟨version, resource, rfl, ‹_›, (some.inj h).symm⟩))
    · cases h
  | clear notifies =>
    exact .inr (.inr (.inr (.inl ⟨notifies, rfl, (some.inj h).symm⟩)))
  | list =>
    simp only [step] at h
    split at h
    · exact .inr (.inr (.inr (.inr (.inl ⟨rfl, ‹_›, (some.inj h).symm⟩))))
    · cases h
  | watch fromVersion =>
    simp only [step] at h
    split at h
    · exact .inr (.inr (.inr (.inr (.inr (.inl ⟨fromVersion, rfl, ‹_›, (some.inj h).symm⟩)))))
    · cases h
  | recv =>
    simp only [step] at h
    split at h
    · split at h
      · exact .inr (.inr (.inr (.inr (.inr (.inr (.inl
          ⟨_, _, _, rfl, ‹_›, ‹_›, ‹_›, (some.inj h).symm⟩))))))
      · cases h
    · cases h
  | read | send | enter | wake | leave | drop =>
    simp only [step, map_eq_some_iff, bind_eq_some_iff] at h
    obtain ⟨w', ⟨w, hw, hstep⟩, rfl⟩ := h
    exact .inr (.inr (.inr (.inr (.inr (.inr (.inr ⟨w, w', hw, hstep, rfl⟩))))))

end Sys

end Edgion.ConfSync
