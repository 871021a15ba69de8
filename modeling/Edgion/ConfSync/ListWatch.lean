import Edgion.ConfSync.Watch

/-!
# Configuration sync — the view of a client that lists and watches

A client's view follows the store as long as every change of the store
comes with an event the client is still to be sent. Initial objects and
clears change the data without one. The watcher notices, and sends its
client away, when it reads the store before the next event; an event that
comes first hides the change, and the client is never told.
-/

namespace Edgion.ConfSync

open Common Sys Nat
open EventStore (newerThan lastVersion)
open List Option

universe u

variable {T : Type u}

/-- The events a store holds, oldest first. -/
def EventStore.events (s : EventStore T) : List (WatcherEvent T) :=
  Ring.collect s.cache s.capacity s.startIndex s.endIndex

theorem EventStore.Holds.events_eq {s : EventStore T} {events : List (WatcherEvent T)}
    (H : s.Holds events) : s.events = events := by
  have h := H.window.collect_eq (zero_le _)
  rw [add_zero, drop_zero] at h
  exact h

/-! ## The condition -/

/-- A watcher that has neither failed nor lost its client. -/
def Watcher.Live (w : Watcher T) : Prop := w.closed = false ∧ ¬ w.Failed

variable (s : Sys T)

/-- A client is at version `f`: its watcher is, or before it watches it
listed there. -/
def Sys.ClientAt (f : ℕ) : Prop :=
  match s.watcher with
  | some w => w.Live ∧ w.reached = f
  | none => s.listed = some f

variable (store : EventStore T)

/-- The store's version is the client's, or that of its newest event. -/
def Announced (f : ℕ) : Prop :=
  store.syncVersion = f ∨ (store.events ≠ [] ∧ lastVersion store.events = store.syncVersion)

/-- The client lists, then watches from the version it listed at. -/
def ListsFirst : Act T → Prop
  | .watch v => s.listed = some v
  | _ => True

/-- **The condition on a step**, once a client has listed. -/
def SyncGuard (act : Act T) : Prop :=
  ListsFirst s act ∧
    match act with
    | .apply e => s.store.syncVersion ≤ e.syncVersion → ∀ f, s.ClientAt f →
        Announced s.store f ∧ (f = 0 → s.store.endIndex - s.store.startIndex < s.store.capacity)
    | .initAdd v _ => ∀ f, s.ClientAt f → s.store.syncVersion < v ∧ newerThan f s.store.events = []
    | _ => True

/-! ## A client and a store -/

/-- **The client follows the store**: the events it lacks are all held, and
make the store's data. -/
structure InStep [Resource T] (store : EventStore T) (events : List (WatcherEvent T)) (f : ℕ)
    (view : Data T) : Prop where
  le : f ≤ store.syncVersion
  expire_le : store.expireSyncVersion ≤ f
  data_eq : store.data = replay view (newerThan f events)
  announced : store.syncVersion = f ∨ (events ≠ [] ∧ lastVersion events = store.syncVersion)

/-- **The client will be sent away** when the watcher next reads: the
version jumped without events, or is older than the client's, or events
the client lacks are lost. -/
def Outdated (events : List (WatcherEvent T)) (f : ℕ) : Prop :=
  (f < store.syncVersion ∧ newerThan f events = []) ∨
    (store.syncVersion < f ∧ events = []) ∨ (f ≠ 0 ∧ f < store.expireSyncVersion)

/-- What holds of a store, whatever its clients. -/
structure Consistent (store : EventStore T) (used : List ℕ) (events : List (WatcherEvent T)) :
    Prop where
  holds : store.Holds events
  expire_le : store.expireSyncVersion ≤ store.syncVersion
  expire_le_events : ∀ e ∈ events, store.expireSyncVersion ≤ e.syncVersion
  used_events : ∀ e ∈ events, e.syncVersion ∈ used
  used_syncVersion : store.syncVersion = 0 ∨ store.syncVersion ∈ used
  data_of_zero : store.syncVersion = 0 → store.data = fun _ => none

section Store

variable {store : EventStore T} {used : List ℕ} {events : List (WatcherEvent T)}
variable {f : ℕ} {view : Data T} {e : WatcherEvent T}

open EventStore

theorem Consistent.new (capacity : ℕ) : Consistent (new capacity : EventStore T) [] [] where
  holds := holds_new capacity
  expire_le := le_rfl
  expire_le_events := by simp
  used_events := by simp
  used_syncVersion := .inl rfl
  data_of_zero := fun _ => rfl

theorem replay_append [Resource T] (view : Data T) (xs ys : List (WatcherEvent T)) :
    replay view (xs ++ ys) = replay (replay view xs) ys := foldl_append

variable (C : Consistent store used events)

include C

theorem Consistent.clear : Consistent store.clear used [] where
  holds := C.holds.clear
  expire_le := le_rfl
  expire_le_events := by simp
  used_events := by simp
  used_syncVersion := .inl rfl
  data_of_zero := fun _ => rfl

/-- A fresh version that is not older than the store is newer. -/
theorem Consistent.lt_of_fresh (hpos : 0 < e.syncVersion)
    (hfresh : e.syncVersion ∉ used) (hle : store.syncVersion ≤ e.syncVersion) :
    store.syncVersion < e.syncVersion := by
  refine lt_of_le_of_ne hle fun heq => ?_
  obtain hzero | hused := C.used_syncVersion
  · omega
  · exact hfresh (heq ▸ hused)

variable [Resource T]

theorem Consistent.initAdd {v : ℕ} (hv : 0 < v) (resource : T) :
    Consistent (store.initAdd v resource) (v :: used) events where
  holds := C.holds.initAdd v resource
  expire_le := by
    have := C.expire_le
    unfold EventStore.initAdd
    dsimp only
    split <;> omega
  expire_le_events := C.expire_le_events
  used_events := fun e he => mem_cons_of_mem _ (C.used_events e he)
  used_syncVersion := by
    unfold EventStore.initAdd
    dsimp only
    split
    · exact .inr mem_cons_self
    · exact C.used_syncVersion.imp_right (mem_cons_of_mem _)
  data_of_zero := by
    intro hzero
    unfold EventStore.initAdd at hzero
    dsimp only at hzero
    split at hzero <;> omega

theorem Consistent.applyEvent (hlt : store.syncVersion < e.syncVersion) :
    Consistent (store.applyEvent e) (e.syncVersion :: used)
      (kept store.capacity events ++ [e]) where
  holds := C.holds.applyEvent hlt.le fun x hx =>
    lt_of_le_of_lt (C.holds.le_syncVersion x hx) hlt
  expire_le := by
    rw [C.holds.expire_applyEvent hlt.le, syncVersion_applyEvent hlt.le]
    have hexp := C.expire_le
    split
    · cases events with
      | nil => exact zero_le _
      | cons h t =>
        have := C.holds.le_syncVersion h mem_cons_self
        simp only [head?_cons, map_some, getD_some]
        omega
    · omega
  expire_le_events := by
    intro x hx
    rw [C.holds.expire_applyEvent hlt.le]
    rw [mem_append, mem_singleton] at hx
    unfold kept at hx
    have hexp := C.expire_le
    split
    · rename_i hfull
      rw [if_pos hfull] at hx
      cases events with
      | nil => exact zero_le _
      | cons h t =>
        simp only [head?_cons, map_some, getD_some]
        obtain hx | rfl := hx
        · exact ((pairwise_cons.1 C.holds.sorted).1 x hx).le
        · have := C.holds.le_syncVersion h mem_cons_self
          omega
    · rename_i hfull
      rw [if_neg hfull] at hx
      obtain hx | rfl := hx
      · exact C.expire_le_events x hx
      · omega
  used_events := by
    intro x hx
    rw [mem_append, mem_singleton] at hx
    obtain hx | rfl := hx
    · exact mem_cons_of_mem _ (C.used_events x ((kept_sublist _ _).subset hx))
    · exact mem_cons_self
  used_syncVersion := by
    rw [syncVersion_applyEvent hlt.le]
    exact .inr mem_cons_self
  data_of_zero := by
    intro hzero
    rw [syncVersion_applyEvent hlt.le] at hzero
    omega

/-- **A new event** keeps a client in step, or outdates it. -/
theorem InStep.applyEvent (I : InStep store events f view)
    (hlt : store.syncVersion < e.syncVersion)
    (hroom : f = 0 → store.endIndex - store.startIndex < store.capacity) :
    InStep (store.applyEvent e) (kept store.capacity events ++ [e]) f view ∨
      Outdated (store.applyEvent e) (kept store.capacity events ++ [e]) f := by
  have hle := I.le
  have hdata : ∀ kept : List (WatcherEvent T), newerThan f kept = newerThan f events →
      (store.applyEvent e).data = replay view (newerThan f (kept ++ [e])) := by
    intro kept hkept
    rw [data_applyEvent hlt.le, I.data_eq, newerThan_concat, hkept,
      if_pos (by omega), replay_append]
    rfl
  have hstep : ∀ expire, (store.applyEvent e).expireSyncVersion = expire → expire ≤ f →
      newerThan f (kept store.capacity events) = newerThan f events →
      InStep (store.applyEvent e) (kept store.capacity events ++ [e]) f view := by
    intro expire hexp hexpf hkept
    refine ⟨?_, by omega, hdata _ hkept, .inr ⟨by simp, ?_⟩⟩
    · rw [syncVersion_applyEvent hlt.le]
      omega
    · rw [lastVersion_concat, syncVersion_applyEvent hlt.le]
  have hexp := C.holds.expire_applyEvent hlt.le
  by_cases hfull : events.length = store.capacity
  · rw [if_pos hfull] at hexp
    obtain ⟨h, t, rfl⟩ := exists_cons_of_length_pos (hfull ▸ C.holds.window.cap_pos)
    simp only [head?_cons, map_some, getD_some] at hexp
    by_cases hh : h.syncVersion ≤ f
    · refine .inl (hstep _ hexp hh ?_)
      unfold kept newerThan
      rw [if_pos hfull, tail_cons, filter_cons_of_neg (by simpa using hh)]
    · -- the event that is lost is one the client lacks
      refine .inr (.inr (.inr ⟨?_, by omega⟩))
      intro hzero
      have := hroom hzero
      have := C.holds.full_iff.2 hfull
      omega
  · rw [if_neg hfull] at hexp
    refine .inl (hstep _ hexp I.expire_le ?_)
    unfold kept
    rw [if_neg hfull]

/-- A new event after an announced version leaves an outdated client
outdated. -/
theorem Outdated.applyEvent (O : Outdated store events f)
    (hlt : store.syncVersion < e.syncVersion) (hann : Announced store f) :
    Outdated (store.applyEvent e) (kept store.capacity events ++ [e]) f := by
  unfold Announced at hann
  rw [C.holds.events_eq] at hann
  obtain ⟨hbehind, hnone⟩ | ⟨hahead, hnil⟩ | ⟨hf, hold⟩ := O
  · exfalso
    obtain hsame | ⟨hne, hlast⟩ := hann
    · omega
    obtain ⟨es, x, rfl⟩ := (eq_nil_or_concat' events).resolve_left hne
    rw [lastVersion_concat] at hlast
    rw [newerThan_concat, if_pos (by omega)] at hnone
    simp at hnone
  · exfalso
    obtain hsame | ⟨hne, -⟩ := hann
    · omega
    · exact hne hnil
  · refine .inr (.inr ⟨hf, ?_⟩)
    rw [C.holds.expire_applyEvent hlt.le]
    split
    · rename_i hfull
      obtain ⟨h, t, rfl⟩ := exists_cons_of_length_pos (hfull ▸ C.holds.window.cap_pos)
      have := C.expire_le_events h mem_cons_self
      simp only [head?_cons, map_some, getD_some]
      omega
    · exact hold

omit C

/-- **An initial object**, where no event is still to be sent, outdates a
client. -/
theorem outdated_initAdd (h : InStep store events f view ∨ Outdated store events f) {v : ℕ}
    (hv : store.syncVersion < v) (hne : v ≠ f) (hnone : newerThan f events = []) (resource : T) :
    Outdated (store.initAdd v resource) events f := by
  have hversion : (store.initAdd v resource).syncVersion = v := if_pos hv
  have hexp : (store.initAdd v resource).expireSyncVersion = store.expireSyncVersion := rfl
  unfold Outdated
  rw [hversion, hexp]
  obtain I | ⟨hbehind, -⟩ | ⟨hahead, hnil⟩ | ⟨hf, hold⟩ := h
  · have := I.le
    exact .inl ⟨by omega, hnone⟩
  · exact .inl ⟨by omega, hnone⟩
  · by_cases hvf : f < v
    · exact .inl ⟨hvf, hnone⟩
    · exact .inr (.inl ⟨by omega, hnil⟩)
  · exact .inr (.inr ⟨hf, hold⟩)

/-- **A clear** outdates a client, unless it lists nothing at version zero. -/
theorem follows_clear (store : EventStore T) (hzero : f = 0 → view = fun _ => none) :
    InStep store.clear [] f view ∨ Outdated store.clear [] f := by
  by_cases hf : f = 0
  · refine .inl ⟨by rw [hf]; exact le_rfl, zero_le _, ?_, .inl hf.symm⟩
    rw [hzero hf]
    rfl
  · exact .inr (.inr (.inl ⟨Nat.pos_of_ne_zero hf, rfl⟩))

end Store

/-! ## The invariant -/

/-- **What holds of a client at version `f`** that will have `view` once all
that is on its way has arrived. -/
structure Follows [Resource T] (store : EventStore T) (used : List ℕ)
    (events : List (WatcherEvent T)) (f : ℕ) (view : Data T) : Prop where
  used : f = 0 ∨ f ∈ used
  zero : f = 0 → view = fun _ => none
  follows : InStep store events f view ∨ Outdated store events f

/-- The client's view once what is in the channel and what is being sent has
arrived. -/
def arriving [Resource T] (view : Data T) (w : Watcher T) : Data T :=
  replay view (eventsOf (w.channel ++ w.inFlight))

/-- **The invariant of the system.** -/
def Sys.Tracks [Resource T] (s : Sys T) : Prop :=
  (s.listed = none → s.watcher = none) ∧ ∃ events, Consistent s.store s.used events ∧
    (s.watcher = none → ∀ v, s.listed = some v → Follows s.store s.used events v s.view) ∧
    ∀ w, s.watcher = some w → w.Live → Follows s.store s.used events w.reached (arriving s.view w)

open Watcher

section Watch

variable [Resource T] {store : EventStore T} {used : List ℕ} {events : List (WatcherEvent T)}
variable {w w' : Watcher T} {view : Data T}

/-- A client that is at the store's version with the store's data. -/
theorem follows_data (C : Consistent store used events) :
    Follows store used events store.syncVersion store.data where
  used := C.used_syncVersion
  zero := C.data_of_zero
  follows := by
    refine .inl ⟨le_rfl, C.expire_le, ?_, .inl rfl⟩
    rw [C.holds.newerThan_syncVersion]
    rfl

variable (hF : w.Live → Follows store used events w.reached (arriving view w))

include hF

/-- **The watcher reads**: a client in step is sent what it lacks, and an
outdated one is sent away. -/
theorem follows_read (C : Consistent store used events) (hpc : w.pc = .read)
    (hlive : ({ w with pc := w.afterRead store } : Watcher T).Live) :
    Follows store used events ({ w with pc := w.afterRead store } : Watcher T).reached
      (arriving view { w with pc := w.afterRead store }) := by
  have hpre : w.Live := by
    refine ⟨hlive.1, fun hfail => hlive.2 ?_⟩
    obtain ⟨r, hr, herr⟩ := hfail
    have hlog : r ∈ w.log := by simpa [inFlight, hpc] using hr
    exact ⟨r, mem_append_left _ hlog, herr⟩
  have hreached : w.reached = w.fromVersion := by simp [reached, hpc]
  have hflight : w.inFlight = [] := by simp [inFlight, hpc]
  have F := hF hpre
  rw [hreached] at F
  obtain ⟨err, v, heq⟩ | ⟨-, heq⟩ | ⟨sent, hne, hlt, hget, heq⟩ := w.afterRead_cases store <;>
    rw [heq] at hlive ⊢
  · exact absurd ⟨.fromError err v, by simp [inFlight], by simp [WatchResponse.fromError]⟩ hlive.2
  · have hsame : arriving view { w with pc := .idle } = arriving view w := by
      unfold arriving
      rw [hflight]
      rfl
    rw [hsame]
    exact F
  obtain ⟨rfl, hkept⟩ := C.holds.eq_newerThan hget
  -- what is sent brings the client to the store's data
  obtain I | ⟨-, hnone⟩ | ⟨hahead, -⟩ | hold := F.follows
  · have harrive : arriving view
        { w with pc := .send (.new (newerThan w.fromVersion events) store.syncVersion) } =
        store.data := by
      rw [I.data_eq]
      unfold arriving
      rw [hflight, append_nil, ← replay_append]
      simp [inFlight, eventsOf, WatchResponse.new]
    rw [harrive]
    exact follows_data C
  · exact absurd hnone hne
  · omega
  · exact absurd hold hkept

/-- A watcher that only moves in its loop. -/
theorem follows_move (hclosed : w'.closed = w.closed) (hlog : w'.log = w.log)
    (hchannel : w'.channel = w.channel) (hreached : w'.reached = w.reached)
    (hflight : w'.inFlight = w.inFlight)
    (hlive : w'.Live) :
    Follows store used events w'.reached (arriving view w') := by
  have hpre : w.Live := by
    unfold Live Failed at hlive ⊢
    rw [hclosed, hlog, hflight] at hlive
    exact hlive
  have harrive : arriving view w' = arriving view w := by
    unfold arriving
    rw [hchannel, hflight]
  rw [hreached, harrive]
  exact hF hpre

/-- **The watcher sends**: what was being sent is in the channel. -/
theorem follows_send {r : WatchResponse T} (hpc : w.pc = .send r) (h : w.afterSend r = some w')
    (hlive : w'.Live) :
    Follows store used events w'.reached (arriving view w') := by
  obtain ⟨hclosed, rfl⟩ | ⟨hopen, -, herr, rfl⟩ | ⟨hopen, -, herr, rfl⟩ := afterSend_cases h
  · exact absurd hlive.1 (by simp [hclosed])
  · have hpre : w.Live := by
      refine ⟨hopen, fun hfail => hlive.2 ?_⟩
      obtain ⟨x, hx, hxerr⟩ := hfail
      exact ⟨x, by simpa [inFlight, hpc] using hx, hxerr⟩
    have F := hF hpre
    have hreached : w.reached = r.syncVersion := by simp [reached, hpc, herr]
    have harrive : arriving view w = replay view (eventsOf (w.channel ++ [r])) := by
      simp [arriving, inFlight, hpc]
    rw [hreached, harrive] at F
    simpa [arriving, reached, inFlight] using F
  · exact absurd ⟨r, by simp, herr⟩ hlive.2

/-- A step of the watcher's. -/
theorem follows_step {act : Act T} (C : Consistent store used events)
    (h : w.step store act = some w')
    (hlive : w'.Live) :
    Follows store used events w'.reached (arriving view w') := by
  obtain ⟨-, hpc, rfl⟩ | ⟨-, r, hpc, hsend⟩ | ⟨-, hpc, rfl⟩ | ⟨-, hpc, rfl⟩ |
    ⟨-, -, hclosed, rfl⟩ | ⟨-, -, rfl⟩ := step_cases h
  · exact follows_read hF C hpc hlive
  · exact follows_send hF hpc hsend hlive
  · exact follows_move hF rfl rfl rfl (by simp [reached, hpc]) (by simp [inFlight, hpc]) hlive
  · exact follows_move hF rfl rfl rfl (by simp [reached, hpc]) (by simp [inFlight, hpc]) hlive
  · exact absurd hlive.1 (by simp [hclosed])
  · exact absurd hlive.1 (by simp)

end Watch

section System

variable [Resource T] {s s' : Sys T} {act : Act T}

/-- **A change of the store alone** is followed by every client, if it is by
each that is at some version. -/
theorem Sys.Tracks.change {store' : EventStore T} {used' : List ℕ} {events : List (WatcherEvent T)}
    {events' : List (WatcherEvent T)} (C' : Consistent store' used' events')
    (hfst : s.listed = none → s.watcher = none)
    (hlist : s.watcher = none → ∀ v, s.listed = some v → Follows s.store s.used events v s.view)
    (hwatch : ∀ w, s.watcher = some w → w.Live →
      Follows s.store s.used events w.reached (arriving s.view w))
    (hchange : ∀ f view, s.ClientAt f → Follows s.store s.used events f view →
      Follows store' used' events' f view) {pending : ℕ} {applied : List (WatcherEvent T)} :
    ({ s with store := store', pending, used := used', applied } : Sys T).Tracks := by
  refine ⟨hfst, events', C', ?_, ?_⟩
  · intro hnone v hv
    refine hchange v s.view ?_ (hlist hnone v hv)
    unfold ClientAt
    rw [hnone]
    exact hv
  · intro w hw hlive
    refine hchange w.reached _ ?_ (hwatch w hw hlive)
    unfold ClientAt
    rw [hw]
    exact ⟨hlive, rfl⟩

/-- **Every step the condition allows keeps the invariant.** -/
theorem Sys.Tracks.step (H : s.Tracks) (hok : SyncGuard s act) (h : s.step act = some s') :
    s'.Tracks := by
  obtain ⟨hpre, events, C, hlist, hwatch⟩ := H
  obtain ⟨hfst, hguard⟩ := hok
  obtain ⟨e, rfl, hfresh, rfl⟩ | ⟨rfl, -, rfl⟩ | ⟨v, r, rfl, hfresh, rfl⟩ | ⟨b, rfl, rfl⟩ |
    ⟨rfl, hl, rfl⟩ | ⟨v, rfl, hnone, rfl⟩ | ⟨w, response, rest, rfl, hw, hopen, hchan, rfl⟩ |
    ⟨w, w', hw, hstep, rfl⟩ := step_cases h
  · by_cases hold : e.syncVersion < s.store.syncVersion
    · -- a stale event is dropped
      have hkeep : s.store.applyEvent e = s.store := EventStore.applyEvent_of_lt hold
      have C' : Consistent s.store (e.syncVersion :: s.used) events :=
        { C with
          used_events := fun x hx => mem_cons_of_mem _ (C.used_events x hx)
          used_syncVersion := C.used_syncVersion.imp_right (mem_cons_of_mem _) }
      rw [hkeep]
      refine Tracks.change C' hpre hlist hwatch fun f view _ F => ?_
      exact ⟨F.used.imp_right (mem_cons_of_mem _), F.zero, F.follows⟩
    · have hlt := C.lt_of_fresh hfresh.1 hfresh.2 (by omega)
      refine Tracks.change (C.applyEvent hlt) hpre hlist hwatch fun f view hf F => ?_
      obtain ⟨hann, hroom⟩ := hguard (by omega) f hf
      refine ⟨F.used.imp_right (mem_cons_of_mem _), F.zero, ?_⟩
      obtain I | O := F.follows
      · exact I.applyEvent C hlt hroom
      · exact .inr (O.applyEvent C hlt hann)
  · refine ⟨fun hl => map_eq_none_iff.2 (hpre hl), events, C, ?_, ?_⟩
    · intro hnone
      exact hlist (map_eq_none_iff.1 hnone)
    · intro w hw hlive
      obtain ⟨w0, hw0, rfl⟩ := map_eq_some_iff.1 hw
      refine follows_move (hwatch w0 hw0) ?_ ?_ ?_ ?_ ?_ hlive <;>
      · unfold notify
        split
        · rename_i hpc
          simp [reached, inFlight, hpc]
        · rfl
  · refine Tracks.change (C.initAdd hfresh.1 r) hpre hlist hwatch fun f view hf F => ?_
    obtain ⟨hv, hnone⟩ := hguard f hf
    rw [C.holds.events_eq] at hnone
    refine ⟨F.used.imp_right (mem_cons_of_mem _), F.zero, .inr ?_⟩
    refine outdated_initAdd F.follows hv (fun hvf => ?_) hnone r
    obtain hzero | hused := F.used
    · have := hfresh.1
      omega
    · exact hfresh.2 (hvf ▸ hused)
  · refine Tracks.change C.clear hpre hlist hwatch fun f view _ F => ?_
    exact ⟨F.used, F.zero, follows_clear s.store F.zero⟩
  · refine ⟨fun hl => absurd hl (by simp), events, C, ?_, ?_⟩
    · intro hnone v hv
      cases hv
      exact follows_data C
    · intro w hw
      rw [hpre hl] at hw
      cases hw
  · refine ⟨fun hl => absurd (hfst.symm.trans hl) (by simp), events, C, ?_, ?_⟩
    · intro hnone'
      cases hnone'
    · intro w hw _
      cases hw
      exact hlist hnone v hfst
  · refine ⟨fun hl => absurd (hw.symm.trans (hpre hl)) (by simp), events, C, ?_, ?_⟩
    · intro hnone
      cases hnone
    · intro w0 hw0 hlive
      cases hw0
      have F := hwatch w hw hlive
      have harrive : arriving (replay s.view response.events) { w with channel := rest } =
          arriving s.view w := by
        unfold arriving
        rw [hchan, ← replay_append]
        rfl
      rw [harrive]
      exact F
  · refine ⟨fun hl => absurd (hw.symm.trans (hpre hl)) (by simp), events, C, ?_, ?_⟩
    · intro hnone
      cases hnone
    · intro w0 hw0 hlive
      cases hw0
      exact follows_step (hwatch w hw) C hstep hlive

variable (capacity : ℕ)

theorem tracks_init : (init capacity : Sys T).Tracks := by
  refine ⟨fun _ => rfl, [], Consistent.new capacity, ?_, ?_⟩
  · intro _ v hv
    cases hv
  · intro w hw
    cases hw

/-- The watcher has caught up: it is at the store's version, and nothing is on
its way. -/
structure CaughtUp (s : Sys T) (w : Watcher T) : Prop where
  fromVersion_eq : w.fromVersion = s.store.syncVersion
  inFlight_eq : w.inFlight = []
  channel_eq : w.channel = []

/-- **A client that has caught up has the store's data.** In every interleaving
that meets the condition, if the watcher of a client that is still there has
sent no error, then once it has caught up the client's view is the store's
data. -/
theorem view_eq_data_of_caughtUp {acts : List (Act T)} {w : Watcher T}
    (hrun : Runs step SyncGuard (init capacity) acts s) (hw : s.watcher = some w)
    (hopen : w.closed = false) (herr : ∀ r ∈ w.log, r.err = none) (hcaught : CaughtUp s w) :
    s.view = s.store.data := by
  have H : s.Tracks := hrun.invariant (tracks_init capacity)
    fun _ _ _ hinv hok hstep => hinv.step hok hstep
  obtain ⟨-, events, C, -, hwatch⟩ := H
  have hlive : w.Live := by
    refine ⟨hopen, fun hfail => ?_⟩
    obtain ⟨r, hr, hne⟩ := hfail
    rw [hcaught.inFlight_eq, append_nil] at hr
    exact hne (herr r hr)
  have hreached : w.reached = s.store.syncVersion := by
    rw [← hcaught.fromVersion_eq]
    have hflight := hcaught.inFlight_eq
    unfold inFlight at hflight
    unfold reached
    split at hflight
    · simp at hflight
    · rfl
  have harrive : arriving s.view w = s.view := by
    unfold arriving
    rw [hcaught.channel_eq, hcaught.inFlight_eq]
    rfl
  have F := hwatch w hw hlive
  rw [hreached, harrive] at F
  obtain I | ⟨hlt, -⟩ | ⟨hlt, -⟩ | ⟨-, hlt⟩ := F.follows
  · rw [I.data_eq, C.holds.newerThan_syncVersion]
    rfl
  · omega
  · omega
  · have := C.expire_le
    omega

end System

open EventStore (Entry entryEvent)

/-- A client that lists an empty store and is sent the first event. -/
def listWatchActs : List (Act Entry) :=
  [.list, .watch 0, .apply (entryEvent .add "a" 1), .read, .send, .recv]

/-- The state they lead to. -/
def listWatchSys : Sys Entry :=
  { store := (EventStore.new 10).applyEvent (entryEvent .add "a" 1)
    pending := 1
    used := [1]
    applied := [entryEvent .add "a" 1]
    listed := some 0
    view := replay (fun _ => none) [entryEvent .add "a" 1]
    watcher := some
      { start := 0
        fromVersion := 1
        pc := .read
        channel := []
        closed := false
        log := [.new [entryEvent .add "a" 1] 1] } }

theorem view_eq_data_of_caughtUp_sample :
    Runs step SyncGuard (init 10) listWatchActs listWatchSys ∧
      listWatchSys.view = listWatchSys.store.data := by
  have hrun : Runs step SyncGuard (init 10) listWatchActs listWatchSys := by
    refine .cons ⟨trivial, trivial⟩ rfl (.cons ⟨rfl, trivial⟩ rfl (.cons ⟨trivial, ?_⟩ rfl
      (.cons ⟨trivial, trivial⟩ rfl (.cons ⟨trivial, trivial⟩ rfl
        (.cons ⟨trivial, trivial⟩ rfl (.nil _))))))
    intro _ f hf
    obtain ⟨-, rfl⟩ := hf
    exact ⟨.inl rfl, fun _ => by decide⟩
  exact ⟨hrun, view_eq_data_of_caughtUp 10 hrun rfl rfl (by decide) ⟨by decide, rfl, rfl⟩⟩

/-- **An initial object hidden by an event.** The client lists the empty store;
an object is added to it and then an event comes. The watcher sends the event,
no error, and is at the store's version; the client never hears of the object. -/
theorem client_misses_initial_object :
    ∃ (acts : List (Act Entry)) (s : Sys Entry) (w : Watcher Entry),
      Runs step ListsFirst (init 10) acts s ∧ s.watcher = some w ∧ w.closed = false ∧
      (∀ r ∈ w.log, r.err = none) ∧ CaughtUp s w ∧ s.view ≠ s.store.data := by
  refine ⟨[.list, .watch 0, .initAdd 1 ⟨"a", 1⟩, .apply (entryEvent .add "b" 2), .read, .send, .recv],
    _, _, .cons trivial rfl (.cons rfl rfl (.cons trivial rfl (.cons trivial rfl
      (.cons trivial rfl (.cons trivial rfl (.cons trivial rfl (.nil _))))))), rfl, rfl,
    by decide, ⟨by decide, rfl, rfl⟩, fun heq => ?_⟩
  exact absurd (congrFun heq "a") (by decide)

end Edgion.ConfSync
