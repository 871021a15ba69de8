import Edgion.Common.Ring

/-!
# Configuration sync — the model of the event store

The controller keeps, for each kind of resource, the current resources
and a circular queue of the events that led to them. A client lists the
resources once and asks for the events after the version it listed; the
store answers with the events it still holds, or with an error that makes
the client list again. Versions come from one generator that never hands
out the same value twice, and never zero.
-/

namespace Edgion.ConfSync

open Common

universe u

/-- What the store asks of a resource: the two parts of its key. -/
class Resource (T : Type u) where
  /-- The namespace, where the resource is not cluster-scoped. -/
  ns : T → Option String
  nameAny : T → String

variable {T : Type u}

def resourceKey [Resource T] (resource : T) : String :=
  match Resource.ns resource with
  | some ns => ns ++ "/" ++ Resource.nameAny resource
  | none => Resource.nameAny resource

inductive ResourceChange
  | initStart
  | initAdd
  | initDone
  | eventAdd
  | eventUpdate
  | eventDelete
deriving DecidableEq, Repr

inductive EventType
  | update
  | delete
  | add
deriving DecidableEq, Repr

structure WatcherEvent (T : Type u) where
  eventType : EventType
  syncVersion : ℕ
  data : T
deriving DecidableEq

/-- The resources by key: a `HashMap`, of which only lookups matter. -/
abbrev Data (T : Type u) := String → Option T

/-- What an event does to a map of resources, in the store and in a client. -/
def applyTo [Resource T] (data : Data T) (event : WatcherEvent T) : Data T :=
  match event.eventType with
  | .add | .update => Function.update data (resourceKey event.data) (some event.data)
  | .delete => Function.update data (resourceKey event.data) none

/-- **The replay of events** over a map of resources, in order. -/
def replay [Resource T] (data : Data T) (events : List (WatcherEvent T)) : Data T :=
  events.foldl applyTo data

/-- `WATCH_ERR_VERSION_UNEXPECTED`. -/
def watchErrVersionUnexpected : String := "VersionUnexpect"

/-- `WATCH_ERR_TOO_OLD_VERSION`. -/
def watchErrTooOldVersion : String := "TooOldVersion"

/-- `WATCH_ERR_EVENTS_LOST`. -/
def watchErrEventsLost : String := "EventsLost"

structure EventStore (T : Type u) where
  capacity : ℕ
  cache : List (Option (WatcherEvent T))
  startIndex : ℕ
  endIndex : ℕ
  syncVersion : ℕ
  expireSyncVersion : ℕ
  data : Data T

namespace EventStore

def new (capacity : ℕ) : EventStore T :=
  let capacity := if capacity = 0 then 200 else max capacity 10
  { capacity
    cache := List.replicate capacity none
    startIndex := 0
    endIndex := 0
    syncVersion := 0
    expireSyncVersion := 0
    data := fun _ => none }

variable (s : EventStore T)

def clear : EventStore T :=
  { s with
    cache := List.replicate s.capacity none
    startIndex := 0
    endIndex := 0
    syncVersion := 0
    expireSyncVersion := 0
    data := fun _ => none }

/-- `EventStore::init_add`: no event is recorded. -/
def initAdd [Resource T] (s : EventStore T) (syncVersion : ℕ) (resource : T) : EventStore T :=
  { s with
    data := Function.update s.data (resourceKey resource) (some resource)
    syncVersion := if syncVersion > s.syncVersion then syncVersion else s.syncVersion }

def mutUpdate (event : WatcherEvent T) : EventStore T :=
  let index := s.endIndex % s.capacity
  let full := s.endIndex - s.startIndex ≥ s.capacity
  { s with
    expireSyncVersion :=
      if full then
        match Ring.slot s.cache s.capacity s.endIndex with
        | some lastEvent => lastEvent.syncVersion
        | none => s.expireSyncVersion
      else s.expireSyncVersion
    startIndex := if full then s.startIndex + 1 else s.startIndex
    cache := s.cache.set index (some event)
    endIndex := s.endIndex + 1 }

/-- `EventStore::apply_event`: an event older than the store is dropped. -/
def applyEvent [Resource T] (s : EventStore T) (event : WatcherEvent T) : EventStore T :=
  if event.syncVersion < s.syncVersion then s
  else
    { s with
      data := applyTo s.data event
      syncVersion :=
        if event.syncVersion > s.syncVersion then event.syncVersion else s.syncVersion
      : EventStore T }.mutUpdate event

/-- `EventStore::get_events_from_sync_version`. The scan walks back to the
earliest event newer than `fromVersion`; what it leaves is collected. -/
def getEventsFromSyncVersion (fromVersion : ℕ) :
    Except String (ℕ × Option (List (WatcherEvent T))) :=
  if fromVersion > s.syncVersion then .error watchErrVersionUnexpected
  else if fromVersion = s.syncVersion then .ok (s.syncVersion, none)
  else if fromVersion ≠ 0 ∧ fromVersion < s.expireSyncVersion then .error watchErrTooOldVersion
  else if s.capacity = 0 ∨ s.endIndex = s.startIndex then .ok (s.syncVersion, none)
  else
    let newer : WatcherEvent T → Bool := fun ev => ev.syncVersion > fromVersion
    let startScan := Ring.scanBack newer s.cache s.capacity s.startIndex s.endIndex
    .ok (s.syncVersion, some ((Ring.collect s.cache s.capacity startScan s.endIndex).filter newer))

end EventStore

end Edgion.ConfSync
