import Edgion.ConfSync.Model
import Mathlib.Data.List.Induction

/-!
# Configuration sync — the events a store holds

The queue is read as the list of the events it holds, oldest first. Each
operation of the store has one lemma on that list; the answer to a client
is the part of the list that is newer than the client's version, provided
nothing newer was evicted. Over a run of events in order this gives the
replay: a client's snapshot, with the answer applied to it, is the store's
current data.
-/

namespace Edgion.ConfSync

open Common List Nat

universe u

variable {T : Type u}

namespace EventStore

/-- **The store holds `events`**, oldest first and none newer than itself. -/
structure Holds (s : EventStore T) (events : List (WatcherEvent T)) : Prop where
  window : Ring.Window s.capacity s.cache s.startIndex s.endIndex events
  sorted : events.Pairwise fun a b => a.syncVersion < b.syncVersion
  le_syncVersion : ∀ e ∈ events, e.syncVersion ≤ s.syncVersion

variable (capacity : ℕ)

/-- What stays of a full or partly filled queue when an event is added. -/
def kept (events : List (WatcherEvent T)) : List (WatcherEvent T) :=
  if events.length = capacity then events.tail else events

variable {s : EventStore T} {events : List (WatcherEvent T)}

theorem kept_sublist (events : List (WatcherEvent T)) (capacity : ℕ) : (kept capacity events).Sublist events := by
  unfold kept
  split
  · exact tail_sublist events
  · exact Sublist.refl events

theorem capacity_new_pos : 0 < (new capacity : EventStore T).capacity := by
  unfold new
  dsimp only
  split <;> omega

theorem holds_new : Holds (new capacity : EventStore T) [] where
  window := Ring.window_replicate (capacity_new_pos (T := T) capacity)
  sorted := Pairwise.nil
  le_syncVersion := by simp

theorem Holds.clear (H : s.Holds events) : s.clear.Holds [] where
  window := Ring.window_replicate H.window.cap_pos
  sorted := Pairwise.nil
  le_syncVersion := by simp

/-- An initial object leaves the events alone. -/
theorem Holds.initAdd [Resource T] (H : s.Holds events) (v : ℕ) (resource : T) :
    (s.initAdd v resource).Holds events where
  window := H.window
  sorted := H.sorted
  le_syncVersion := by
    intro e he
    have hle := H.le_syncVersion e he
    unfold EventStore.initAdd
    dsimp only
    split <;> omega

/-- The queue is full exactly when it holds as many events as it has slots. -/
theorem Holds.full_iff (H : s.Holds events) :
    s.endIndex - s.startIndex ≥ s.capacity ↔ events.length = s.capacity := by
  have hhi := H.window.hi_eq
  have hle := H.window.length_le
  omega

section Apply

variable [Resource T] {event : WatcherEvent T}

theorem applyEvent_of_lt (h : event.syncVersion < s.syncVersion) : s.applyEvent event = s :=
  if_pos h

@[simp] theorem capacity_applyEvent : (s.applyEvent event).capacity = s.capacity := by
  unfold applyEvent
  split <;> rfl

variable (h : s.syncVersion ≤ event.syncVersion)

include h

theorem data_applyEvent : (s.applyEvent event).data = applyTo s.data event := by
  unfold applyEvent
  rw [if_neg (by omega)]
  rfl

theorem syncVersion_applyEvent : (s.applyEvent event).syncVersion = event.syncVersion := by
  unfold applyEvent mutUpdate
  rw [if_neg (by omega)]
  dsimp only
  split <;> omega

/-- **What an event newer than the queue does to it.** -/
theorem Holds.applyEvent (H : s.Holds events)
    (hnew : ∀ e ∈ events, e.syncVersion < event.syncVersion) :
    (s.applyEvent event).Holds (kept s.capacity events ++ [event]) where
  window := by
    unfold EventStore.applyEvent mutUpdate kept
    rw [if_neg (by omega)]
    dsimp only
    by_cases hfull : events.length = s.capacity
    · rw [if_pos (H.full_iff.2 hfull), if_pos hfull]
      obtain ⟨e, es, rfl⟩ := exists_cons_of_length_pos (hfull ▸ H.window.cap_pos)
      -- the head is dropped
      refine H.window.tail.push ?_ event
      have := H.window.length_le
      rw [length_cons] at this
      omega
    · rw [if_neg (mt H.full_iff.1 hfull), if_neg hfull]
      exact H.window.push (lt_of_le_of_ne H.window.length_le hfull) event
  sorted := by
    have hsub := kept_sublist events s.capacity
    rw [pairwise_append]
    refine ⟨H.sorted.sublist hsub, pairwise_singleton _ _, ?_⟩
    intro a ha b hb
    rw [mem_singleton] at hb
    rw [hb]
    exact hnew a (hsub.subset ha)
  le_syncVersion := by
    intro e he
    rw [syncVersion_applyEvent h]
    rw [mem_append, mem_singleton] at he
    obtain he | rfl := he
    · exact (hnew e ((kept_sublist _ _).subset he)).le
    · exact le_rfl

/-- The version an added event makes expire. -/
theorem Holds.expire_applyEvent (H : s.Holds events) :
    (s.applyEvent event).expireSyncVersion =
      if events.length = s.capacity then (events.head?.map (·.syncVersion)).getD 0
      else s.expireSyncVersion := by
  unfold EventStore.applyEvent mutUpdate
  rw [if_neg (by omega)]
  dsimp only
  by_cases hfull : events.length = s.capacity
  · rw [if_pos (H.full_iff.2 hfull), if_pos hfull]
    obtain ⟨e, es, rfl⟩ := exists_cons_of_length_pos (hfull ▸ H.window.cap_pos)
    rw [H.window.slot_hi_of_full hfull]
    rfl
  · rw [if_neg (mt H.full_iff.1 hfull), if_neg hfull]

end Apply

/-- The events of a list that are newer than a version. -/
def newerThan (v : ℕ) (events : List (WatcherEvent T)) : List (WatcherEvent T) :=
  events.filter fun e => e.syncVersion > v

theorem newerThan_concat (v : ℕ) (evs : List (WatcherEvent T)) (e : WatcherEvent T) :
    newerThan v (evs ++ [e]) = newerThan v evs ++ if v < e.syncVersion then [e] else [] := by
  unfold newerThan
  rw [filter_append, filter_singleton]
  by_cases h : v < e.syncVersion
  · simp [h]
  · simp [h]

theorem newerThan_eq_nil {v : ℕ} (h : ∀ e ∈ events, e.syncVersion ≤ v) :
    newerThan v events = [] := by
  unfold newerThan
  rw [filter_eq_nil_iff]
  intro e he
  simpa using h e he

/-- No event a store holds is newer than the store. -/
theorem Holds.newerThan_syncVersion (H : s.Holds events) : newerThan s.syncVersion events = [] :=
  newerThan_eq_nil H.le_syncVersion

/-- **What the store answers**, in terms of the events it holds. -/
theorem Holds.getEvents_eq (H : s.Holds events) (v : ℕ) : s.getEventsFromSyncVersion v =
      if v > s.syncVersion then .error watchErrVersionUnexpected
      else if v = s.syncVersion then .ok (s.syncVersion, none)
      else if v ≠ 0 ∧ v < s.expireSyncVersion then .error watchErrTooOldVersion
      else if events = [] then .ok (s.syncVersion, none)
      else .ok (s.syncVersion, some (newerThan v events)) := by
  have hempty : (s.capacity = 0 ∨ s.endIndex = s.startIndex) ↔ events = [] := by
    have hpos := H.window.cap_pos
    have hhi := H.window.hi_eq
    rw [← length_eq_zero_iff]
    omega
  have hmono : events.Pairwise fun a b =>
      decide (a.syncVersion > v) → decide (b.syncVersion > v) := by
    refine H.sorted.imp fun hab ha => ?_
    rw [decide_eq_true_eq] at ha ⊢
    omega
  unfold getEventsFromSyncVersion newerThan
  simp only [hempty, H.window.filter_collect_scanBack _ hmono]

variable {current v : ℕ}

/-- An answer is at the store's version, and with events it is about an older one. -/
theorem of_getEvents_eq_ok {answer : Option (List (WatcherEvent T))}
    (h : s.getEventsFromSyncVersion v = .ok (current, answer)) :
    current = s.syncVersion ∧ v ≤ s.syncVersion ∧ (answer.isSome → v < s.syncVersion) := by
  unfold getEventsFromSyncVersion at h
  split_ifs at h <;> cases h
  all_goals
    refine ⟨rfl, by omega, fun hsome => ?_⟩
    first | omega | cases hsome

/-- The events of an answer are the newer ones, if the version is not too old. -/
theorem Holds.eq_newerThan (H : s.Holds events) {answer : List (WatcherEvent T)}
    (h : s.getEventsFromSyncVersion v = .ok (current, some answer)) :
    answer = newerThan v events ∧ ¬ (v ≠ 0 ∧ v < s.expireSyncVersion) := by
  rw [H.getEvents_eq] at h
  split_ifs at h with _ _ hold <;> cases h
  exact ⟨rfl, hold⟩

/-! ## A run of events -/

/-- The version of the last event of a list. -/
def lastVersion (evs : List (WatcherEvent T)) : ℕ := (evs.getLast?.map (·.syncVersion)).getD 0

theorem lastVersion_concat (evs : List (WatcherEvent T)) (e : WatcherEvent T) :
    lastVersion (evs ++ [e]) = e.syncVersion := by
  simp [lastVersion]

variable {post pre evs : List (WatcherEvent T)}

theorem lastVersion_append (h : post ≠ []) : lastVersion (pre ++ post) = lastVersion post := by
  unfold lastVersion
  rw [getLast?_append_of_ne_nil _ h]

variable {e : WatcherEvent T}

/-- In a list in order no version is after the last. -/
theorem le_lastVersion (hinc : evs.Pairwise fun a b => a.syncVersion < b.syncVersion)
    (he : e ∈ evs) : e.syncVersion ≤ lastVersion evs := by
  induction evs using reverseRecOn with
  | nil => simp at he
  | append_singleton evs x _ =>
    rw [lastVersion_concat]
    rw [pairwise_append] at hinc
    rw [mem_append, mem_singleton] at he
    obtain he | rfl := he
    · exact (hinc.2.2 e he x mem_cons_self).le
    · exact le_rfl

/-- Of an older part and a newer one, the newer one is newer. -/
theorem newerThan_append {old : List (WatcherEvent T)}
    (hold : ∀ e ∈ old, e.syncVersion ≤ v) (hpost : ∀ e ∈ post, v < e.syncVersion) :
    newerThan v (old ++ post) = post := by
  have hnone := newerThan_eq_nil hold
  have hall : newerThan v post = post := by
    unfold newerThan
    rw [filter_eq_self]
    intro e he
    simpa using hpost e he
  unfold newerThan at hnone hall ⊢
  rw [filter_append, hnone, hall, nil_append]

theorem lastVersion_take_le (hinc : evs.Pairwise fun a b => a.syncVersion < b.syncVersion) (n : ℕ) :
    lastVersion (evs.take n) ≤ lastVersion evs := by
  rw [lastVersion]
  cases hl : (evs.take n).getLast? with
  | none => exact zero_le _
  | some x => exact le_lastVersion hinc (mem_of_mem_take (mem_of_getLast? hl))

section Run

variable [Resource T]

/-- The store after a run of `apply_event` calls. -/
def run (capacity : ℕ) (evs : List (WatcherEvent T)) : EventStore T :=
  evs.foldl applyEvent (new capacity)

/-- **What a store is after a run**: it holds the last events, as many as it
has slots for, and the version of the last event it lost has expired. -/
structure Ran (capacity : ℕ) (evs : List (WatcherEvent T)) (s : EventStore T) : Prop where
  capacity_eq : s.capacity = (new capacity : EventStore T).capacity
  holds : s.Holds (evs.drop (evs.length - s.capacity))
  expire_eq : s.expireSyncVersion = lastVersion (evs.take (evs.length - s.capacity))
  data_eq : s.data = replay (fun _ => none) evs
  syncVersion_eq : s.syncVersion = lastVersion evs

variable {capacity : ℕ} {s : EventStore T}

theorem Ran.applyEvent {e : WatcherEvent T} (R : Ran capacity evs s)
    (hinc : (evs ++ [e]).Pairwise fun a b => a.syncVersion < b.syncVersion) :
    Ran capacity (evs ++ [e]) (s.applyEvent e) := by
  rw [pairwise_append] at hinc
  obtain ⟨hevs, -, hlast⟩ := hinc
  have hnew : ∀ x ∈ evs, x.syncVersion < e.syncVersion := fun x hx =>
    hlast x hx e mem_cons_self
  have hle : s.syncVersion ≤ e.syncVersion := by
    rw [R.syncVersion_eq]
    unfold lastVersion
    cases hl : evs.getLast? with
    | none => exact zero_le _
    | some x => exact (hnew x (mem_of_getLast? hl)).le
  have hpos := R.holds.window.cap_pos
  have H := R.holds.applyEvent hle fun x hx => hnew x (mem_of_mem_drop hx)
  refine ⟨by rw [capacity_applyEvent, R.capacity_eq], ?_, ?_, ?_, ?_⟩
  · convert H using 1
    rw [capacity_applyEvent, length_append, length_singleton]
    unfold kept
    rw [length_drop]
    by_cases hfull : s.capacity ≤ evs.length
    · rw [if_pos (by omega), tail_drop,
        show evs.length + 1 - s.capacity = evs.length - s.capacity + 1 by omega,
        drop_append_of_le_length (by omega)]
    · rw [if_neg (by omega), show evs.length + 1 - s.capacity = 0 by omega,
        show evs.length - s.capacity = 0 by omega, drop_zero, drop_zero]
  · rw [R.holds.expire_applyEvent hle, capacity_applyEvent, length_append,
      length_singleton, length_drop]
    by_cases hfull : s.capacity ≤ evs.length
    · rw [if_pos (by omega), head?_drop,
        show evs.length + 1 - s.capacity = evs.length - s.capacity + 1 by omega,
        take_append_of_le_length (by omega)]
      have hlt : evs.length - s.capacity < evs.length := by omega
      rw [take_add_one, getElem?_eq_getElem hlt, Option.toList_some, lastVersion_concat]
      rfl
    · rw [if_neg (by omega), R.expire_eq, show evs.length + 1 - s.capacity = 0 by omega,
        show evs.length - s.capacity = 0 by omega, take_zero, take_zero]
  · rw [data_applyEvent hle, R.data_eq]
    simp [replay]
  · rw [syncVersion_applyEvent hle, lastVersion_concat]

/-- **Every run, in order.** -/
theorem ran_run (capacity : ℕ) (hinc : evs.Pairwise fun a b => a.syncVersion < b.syncVersion) :
    Ran capacity evs (run capacity evs) := by
  induction evs using reverseRecOn with
  | nil =>
    have hnil : (run capacity ([] : List (WatcherEvent T))).Holds [] := holds_new capacity
    exact ⟨rfl, by simpa using hnil, by simp [run, new, lastVersion], rfl, rfl⟩
  | append_singleton evs e ih =>
    have hpre := (pairwise_append.1 hinc).1
    unfold run at ih ⊢
    rw [foldl_append]
    exact (ih hpre).applyEvent hinc

/-- **What a client that listed after `pre` is answered after `post`.** -/
theorem Ran.getEvents_eq (R : Ran capacity (pre ++ post) s)
    (hinc : (pre ++ post).Pairwise fun a b => a.syncVersion < b.syncVersion)
    (hv : 1 ≤ lastVersion pre) :
    s.getEventsFromSyncVersion (lastVersion pre) =
      if post = [] then .ok (s.syncVersion, none)
      else if s.capacity < post.length then .error watchErrTooOldVersion
      else .ok (s.syncVersion, some post) := by
  have hpre : pre ≠ [] := by
    intro hnil
    rw [hnil] at hv
    simp [lastVersion] at hv
  have hincPre := (pairwise_append.1 hinc).1
  have hnewer : ∀ e ∈ post, lastVersion pre < e.syncVersion := by
    intro e he
    obtain ⟨ps, p, rfl⟩ := (eq_nil_or_concat' pre).resolve_left hpre
    rw [lastVersion_concat]
    exact (pairwise_append.1 hinc).2.2 p (by simp) e he
  rw [R.holds.getEvents_eq]
  by_cases hpost : post = []
  · have hsame : lastVersion pre = s.syncVersion := by
      rw [R.syncVersion_eq, hpost, append_nil]
    rw [if_neg (by omega), if_pos hsame, if_pos hpost]
  have hlt : lastVersion pre < s.syncVersion := by
    rw [R.syncVersion_eq, lastVersion_append hpost]
    obtain ⟨qs, q, rfl⟩ := (eq_nil_or_concat' post).resolve_left hpost
    rw [lastVersion_concat]
    exact hnewer q (by simp)
  have hexp := R.expire_eq
  rw [length_append] at hexp
  rw [if_neg (by omega), if_neg (by omega), if_neg hpost]
  by_cases hgone : s.capacity < post.length
  · -- the last event gone is one after the snapshot
    have htake : (pre ++ post).take (pre.length + post.length - s.capacity) =
        pre ++ post.take (post.length - s.capacity) := by
      rw [take_append]
      rw [take_of_length_le (by omega)]
      congr 2
      omega
    have hne : post.take (post.length - s.capacity) ≠ [] := by
      rw [Ne, take_eq_nil_iff]
      rintro (h | h)
      · omega
      · exact hpost h
    rw [htake, lastVersion_append hne] at hexp
    obtain ⟨qs, q, hqs⟩ := (eq_nil_or_concat' _).resolve_left hne
    have hq : lastVersion pre < q.syncVersion := hnewer q (mem_of_mem_take (by rw [hqs]; simp))
    rw [hqs, lastVersion_concat] at hexp
    rw [if_pos ⟨by omega, by omega⟩, if_pos hgone]
  · -- everything gone was in the snapshot
    have hle : pre.length + post.length - s.capacity ≤ pre.length := by omega
    rw [take_append_of_le_length hle] at hexp
    have hbound := lastVersion_take_le hincPre (pre.length + post.length - s.capacity)
    rw [length_append, drop_append_of_le_length hle, if_neg (by omega),
      if_neg (by simp [hpost]), if_neg hgone]
    have hans : newerThan (lastVersion pre)
        (pre.drop (pre.length + post.length - s.capacity) ++ post) = post :=
      newerThan_append (fun e he => le_lastVersion hincPre (mem_of_mem_drop he)) hnewer
    rw [hans]

/-- **A client's snapshot catches up.** A client took a snapshot after the
events `pre`, and asks after the events `post`. It is sent away exactly when
an event after its snapshot is no longer held; it is told that nothing is new
only if nothing happened; and otherwise the events it is given, replayed in
order over the snapshot, make the store's current data, at the version it is
given. -/
theorem getEvents_replay (capacity : ℕ) {pre post : List (WatcherEvent T)}
    (hinc : (pre ++ post).Pairwise fun a b => a.syncVersion < b.syncVersion)
    (hv : 1 ≤ (run capacity pre).syncVersion) :
    let snapshot := (run capacity pre).data
    let store := run capacity (pre ++ post)
    match store.getEventsFromSyncVersion (run capacity pre).syncVersion with
    | .error err => err = watchErrTooOldVersion ∧ store.capacity < post.length
    | .ok (current, none) =>
      current = store.syncVersion ∧ post = [] ∧ store.data = snapshot
    | .ok (current, some events) =>
      current = store.syncVersion ∧ replay snapshot events = store.data := by
  intro snapshot store
  have R : Ran capacity (pre ++ post) store := ran_run capacity hinc
  have Rp : Ran capacity pre (run capacity pre) := ran_run capacity (pairwise_append.1 hinc).1
  have hdata : store.data = replay snapshot post := by
    rw [R.data_eq, show snapshot = _ from Rp.data_eq]
    exact foldl_append
  rw [Rp.syncVersion_eq] at hv ⊢
  rw [R.getEvents_eq hinc hv]
  by_cases hpost : post = []
  · rw [if_pos hpost]
    exact ⟨rfl, hpost, by rw [hdata, hpost]; rfl⟩
  rw [if_neg hpost]
  by_cases hgone : store.capacity < post.length
  · rw [if_pos hgone]
    exact ⟨rfl, hgone⟩
  · rw [if_neg hgone]
    exact ⟨rfl, hdata.symm⟩

end Run

/-- A resource for the samples. -/
structure Entry where
  name : String
  value : ℕ
deriving DecidableEq, Repr

instance : Resource Entry where
  ns := fun _ => none
  nameAny := Entry.name

/-- An event on a sample resource. -/
def entryEvent (eventType : EventType) (name : String) (version : ℕ) : WatcherEvent Entry :=
  ⟨eventType, version, ⟨name, version⟩⟩

theorem getEvents_replay_sample : (run 10 [entryEvent .add "a" 1]).syncVersion = 1 ∧
      (run 10 [entryEvent .add "a" 1, entryEvent .add "b" 2]).getEventsFromSyncVersion 1 =
        .ok (2, some [entryEvent .add "b" 2]) ∧
      replay (run 10 [entryEvent .add "a" 1]).data [entryEvent .add "b" 2] =
        (run 10 [entryEvent .add "a" 1, entryEvent .add "b" 2]).data := by
  have hone : (run 10 [entryEvent .add "a" 1]).syncVersion = 1 := by decide
  have hanswer : (run 10 [entryEvent .add "a" 1, entryEvent .add "b" 2]).getEventsFromSyncVersion 1 =
    .ok (2, some [entryEvent .add "b" 2]) := by decide
  have hreplay := getEvents_replay 10 (T := Entry) (by decide :
    ([entryEvent .add "a" 1] ++ [entryEvent .add "b" 2]).Pairwise
      fun a b => a.syncVersion < b.syncVersion) (by decide)
  rw [hone] at hreplay
  dsimp only [cons_append, nil_append] at hreplay
  rw [hanswer] at hreplay
  exact ⟨hone, hanswer, hreplay.2⟩

end EventStore

/-! ## Events that arrive out of order

A writer takes a version before it takes the lock of the store. So events
may arrive in another order than that of their versions. The store drops
an event that is older than the store as a whole, and not only one that is
older than the last event of its key. `keepsAll_iff` says when nothing is
lost by that. -/

section

open List

variable {T : Type u} [Resource T]

namespace WatcherEvent

variable (e : WatcherEvent T)

/-- The key an event is about. -/
def key : String := resourceKey e.data

/-- What the store holds for the key after the event. -/
def result : Option T :=
  match e.eventType with
  | .add | .update => some e.data
  | .delete => none

end WatcherEvent

namespace EventStore

variable {capacity : ℕ} {events before behind : List (WatcherEvent T)} {e : WatcherEvent T}

/-- The newest event of its key. -/
def Newest (events : List (WatcherEvent T)) (e : WatcherEvent T) : Prop :=
  ∀ e' ∈ events, e'.key = e.key → e'.syncVersion ≤ e.syncVersion

/-- An event of the same key that is newer has arrived before. -/
def Superseded (before : List (WatcherEvent T)) (e : WatcherEvent T) : Prop :=
  ∃ e' ∈ before, e'.key = e.key ∧ e.syncVersion < e'.syncVersion

/-- **Nothing is lost**, with the events in the order of their arrival: for each key the store holds
the result of its newest event, and an event that leaves the store as it is is superseded. -/
def KeepsAll (capacity : ℕ) (events : List (WatcherEvent T)) : Prop :=
  (∀ e ∈ events, Newest events e → (run capacity events).data e.key = e.result) ∧
    ∀ before e behind, events = before ++ e :: behind →
      (run capacity before).applyEvent e = run capacity before → Superseded before e

/-- No event comes behind a newer one of another key, unless it is superseded. -/
def Orderly (events : List (WatcherEvent T)) : Prop :=
  ∀ before e behind, events = before ++ e :: behind →
    ∀ e' ∈ before, e.syncVersion < e'.syncVersion → Superseded before e

theorem run_concat (capacity : ℕ) (events : List (WatcherEvent T)) (e : WatcherEvent T) :
    run capacity (events ++ [e]) = (run capacity events).applyEvent e := by
  rw [run, foldl_concat]
  rfl

/-- **The version of the store** is that of the newest event of all. -/
theorem lt_syncVersion_run_iff {v : ℕ} :
    v < (run capacity events).syncVersion ↔ ∃ e ∈ events, v < e.syncVersion := by
  induction events using reverseRecOn with
  | nil => simp [run, new]
  | append_singleton events e ih =>
    rw [run_concat]
    simp only [mem_append, mem_singleton, or_and_right, exists_or, exists_eq_left]
    rcases lt_or_ge e.syncVersion (run capacity events).syncVersion with hlt | hge
    · rw [applyEvent_of_lt hlt, ← ih]
      omega
    · rw [syncVersion_applyEvent hge, ← ih]
      omega

/-- An event leaves the store as it is if the store is newer, and only then. -/
theorem applyEvent_eq_self_iff {s : EventStore T} :
    s.applyEvent e = s ↔ e.syncVersion < s.syncVersion := by
  refine ⟨fun h => ?_, applyEvent_of_lt⟩
  by_contra hge
  have hend : (s.applyEvent e).endIndex = s.endIndex + 1 := by
    rw [applyEvent, if_neg hge]
    rfl
  rw [h] at hend
  omega

variable (data : Data T)

theorem applyTo_key (e : WatcherEvent T) : applyTo data e e.key = e.result := by
  rcases e with ⟨eventType, syncVersion, resource⟩
  cases eventType <;> exact Function.update_self ..

theorem applyTo_of_ne {k : String} (h : k ≠ e.key) : applyTo data e k = data k := by
  rcases e with ⟨eventType, syncVersion, resource⟩
  cases eventType <;> exact Function.update_of_ne h ..

/-- What is newer than all that came before and than what is to come for its key stays. -/
theorem data_run_of_newest (hpre : ∀ e' ∈ before, e'.syncVersion ≤ e.syncVersion)
    (hbehind : ∀ e' ∈ behind, e'.key = e.key → e'.syncVersion < e.syncVersion) :
    (run capacity (before ++ e :: behind)).data e.key = e.result := by
  have hge : (run capacity before).syncVersion ≤ e.syncVersion := by
    by_contra hlt
    obtain ⟨e', he', hnewer⟩ := lt_syncVersion_run_iff.1 (not_le.1 hlt)
    exact absurd (hpre e' he') (not_le.2 hnewer)
  induction behind using reverseRecOn with
  | nil =>
    rw [run_concat, data_applyEvent hge]
    exact applyTo_key ..
  | append_singleton behind x ih =>
    have hheld := ih fun e' he' => hbehind e' (mem_append_left _ he')
    rw [← cons_append, ← append_assoc, run_concat]
    rcases lt_or_ge x.syncVersion (run capacity (before ++ e :: behind)).syncVersion
      with hlt | hnewer
    · rw [applyEvent_of_lt hlt]
      exact hheld
    · -- what is applied is newer than `e`, so it is about another key
      have hkey : e.key ≠ x.key := by
        intro hkey
        have holder := hbehind x (by simp) hkey.symm
        have hstore : x.syncVersion < (run capacity (before ++ e :: behind)).syncVersion :=
          lt_syncVersion_run_iff.2 ⟨e, by simp, holder⟩
        omega
      rw [data_applyEvent hnewer, applyTo_of_ne _ hkey]
      exact hheld

/-- **Nothing is lost if and only if no event comes behind a newer one of another key**, unless
it is superseded. -/
theorem keepsAll_iff (capacity : ℕ) {events : List (WatcherEvent T)}
    (hdistinct : events.Pairwise fun a b => a.syncVersion ≠ b.syncVersion) :
    KeepsAll capacity events ↔ Orderly events := by
  constructor
  · intro h before e behind hsplit e' he' hnewer
    exact h.2 before e behind hsplit (applyEvent_of_lt (lt_syncVersion_run_iff.2 ⟨e', he', hnewer⟩))
  · refine fun h => ⟨fun e he hnewest => ?_, fun before e behind hsplit hlost => ?_⟩
    · obtain ⟨before, behind, rfl⟩ := append_of_mem he
      refine data_run_of_newest (fun e' he' => ?_) fun e' he' hkey => ?_
      · by_contra hnewer
        obtain ⟨e'', he'', hkey, hlt⟩ := h before e behind rfl e' he' (not_le.1 hnewer)
        have hle := hnewest e'' (mem_append_left _ he'') hkey
        omega
      · have hne := (pairwise_cons.1 (pairwise_append.1 hdistinct).2.1).1 e' he'
        have hle := hnewest e' (by simp [he']) hkey
        omega
    · obtain ⟨e', he', hnewer⟩ := lt_syncVersion_run_iff.1 (applyEvent_eq_self_iff.1 hlost)
      exact h before e behind hsplit e' he' hnewer

theorem keepsAll_iff_inOrder : KeepsAll 10 [entryEvent .add "a" 1, entryEvent .add "b" 2] := by
  refine (keepsAll_iff 10 (by decide)).2 fun before e behind hsplit e' he' hnewer => ?_
  obtain rfl | ⟨x, rfl⟩ : before = [] ∨ ∃ x, before = [x] := by
    rcases before with _ | ⟨x, _ | ⟨y, before⟩⟩
    · exact .inl rfl
    · exact .inr ⟨x, rfl⟩
    · simp at hsplit
  · cases he'
  · obtain ⟨rfl, rfl, -⟩ : entryEvent .add "a" 1 = x ∧ entryEvent .add "b" 2 = e ∧ [] = behind := by
      simpa using hsplit
    rw [mem_singleton.1 he'] at hnewer
    exact absurd hnewer (by decide)

/-- The event of `a` has the lower version and arrives second: `a` never gets into the store. -/
theorem not_keepsAll_overtaken : ¬ KeepsAll 10 [entryEvent .add "b" 2, entryEvent .add "a" 1] ∧
      (run 10 [entryEvent .add "b" 2, entryEvent .add "a" 1]).data "a" = none := by
  have hnone : (run 10 [entryEvent .add "b" 2, entryEvent .add "a" 1]).data "a" = none := by decide
  refine ⟨fun h => ?_, hnone⟩
  have hheld := h.1 (entryEvent .add "a" 1) (by simp) (by unfold Newest; decide)
  rw [show (entryEvent .add "a" 1).key = "a" from rfl, hnone] at hheld
  cases hheld

end EventStore

end

end Edgion.ConfSync
