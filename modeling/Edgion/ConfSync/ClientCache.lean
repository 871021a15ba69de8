import Edgion.Common.Buckets
import Edgion.ConfSync.Model
import Mathlib.Data.Finset.Basic

/-!
# Configuration sync — the client's cache and its handler

The gateway keeps the resources of a kind in a cache and hands them to a
handler. A list replaces the data and gives it to the handler whole. A
watch event changes the data of one key and leaves a note under that key.
Ten times a second the notes are turned into one call: a key the data
still has is an addition or an update, whatever its notes say was done to
it, and a key the data has lost is a removal. The notes are then dropped.
-/

namespace Edgion.ConfSync

universe u

/-- `ResourceMeta`: what the client asks of a resource. -/
class ResourceMeta (T : Type u) where
  keyName : T → String
  preParse : T → T
  setSyncVersion : T → ℕ → T

open ResourceMeta Function List

/-! ## The notes -/

/-- `CompressEvent`: the changes of each key since the last tick. -/
structure CompressEvent where
  events : AList fun _ : String => List ResourceChange

variable {change : ResourceChange} {k : String}

namespace CompressEvent

def new : CompressEvent := ⟨∅⟩

def addEvent (c : CompressEvent) (key : String) (change : ResourceChange) : CompressEvent :=
  ⟨c.events.insert key ((c.events.lookup key).getD [] ++ [change])⟩

def clear (_c : CompressEvent) : CompressEvent := ⟨∅⟩

end CompressEvent

/-! ## The calls on the handler -/

/-- The three sets of a `partial_update`. -/
structure PartialUpdate (T : Type u) where
  add : AList fun _ : String => T
  update : AList fun _ : String => T
  remove : Finset String

/-- `ConfHandler`: a call on the handler. -/
inductive HandlerCall (T : Type u)
  | fullSet (data : Data T)
  | partialUpdate (sets : PartialUpdate T)

variable {T : Type u}

namespace PartialUpdate

/-- The sets a tick starts with. -/
def empty : PartialUpdate T := ⟨∅, ∅, ∅⟩

/-- `add`, `update` and `remove` are all empty. -/
def isEmpty (u : PartialUpdate T) : Bool :=
  u.add.entries.isEmpty && u.update.entries.isEmpty && decide (u.remove = ∅)

/-- The keys a call is about. -/
def Carries (u : PartialUpdate T) (k : String) : Prop :=
  k ∈ u.add ∨ k ∈ u.update ∨ k ∈ u.remove

/-- **What a call does to a view**: additions and updates are put, removals
deleted. -/
def applyTo (u : PartialUpdate T) (view : Data T) : Data T := fun k =>
  if k ∈ u.remove then none else ((u.update.lookup k).or (u.add.lookup k)).or (view k)

/-- One turn of the loop of `process_compressed_events`. -/
def classify (data : Data T) (u : PartialUpdate T)
    (info : Σ _ : String, List ResourceChange) : PartialUpdate T :=
  match data info.1 with
  | some resource =>
    if info.2.any fun e => e = .initAdd ∨ e = .eventAdd then
      { u with add := u.add.insert info.1 resource }
    else { u with update := u.update.insert info.1 resource }
  | none => { u with remove := insert info.1 u.remove }

/-- Every set agrees with the data. -/
structure Reads (u : PartialUpdate T) (data : Data T) : Prop where
  add : ∀ k r, u.add.lookup k = some r → data k = some r
  update : ∀ k r, u.update.lookup k = some r → data k = some r
  remove : ∀ k ∈ u.remove, data k = none

/-- What one turn of the loop does. -/
theorem classify_cases (data : Data T) (u : PartialUpdate T)
    (info : Σ _ : String, List ResourceChange) :
    (∃ r, data info.1 = some r ∧ (u.classify data info = { u with add := u.add.insert info.1 r } ∨
      u.classify data info = { u with update := u.update.insert info.1 r })) ∨
    (data info.1 = none ∧ u.classify data info = { u with remove := insert info.1 u.remove }) := by
  rcases hdata : data info.1 with _ | r
  · exact .inr ⟨rfl, by simp only [classify, hdata]⟩
  · refine .inl ⟨r, rfl, ?_⟩
    simp only [classify, hdata]
    split
    · exact .inl rfl
    · exact .inr rfl

variable {data : Data T} {u : PartialUpdate T}

theorem carries_classify {info : Σ _ : String, List ResourceChange} :
    (u.classify data info).Carries k ↔ u.Carries k ∨ k = info.1 := by
  rcases classify_cases data u info with ⟨r, -, h | h⟩ | ⟨-, h⟩ <;>
    simp only [h, Carries, AList.mem_insert, Finset.mem_insert] <;> tauto

theorem Reads.classify (hu : u.Reads data)
    (info : Σ _ : String, List ResourceChange) : (u.classify data info).Reads data := by
  have put {s : AList fun _ : String => T} {r : T} (hr : data info.1 = some r)
      (hs : ∀ k r, s.lookup k = some r → data k = some r) :
      ∀ k r', (s.insert info.1 r).lookup k = some r' → data k = some r' := by
    intro k r' h
    obtain ⟨rfl, rfl⟩ | ⟨-, h⟩ := Common.lookup_insert_eq_some_iff.1 h
    · exact hr
    · exact hs k r' h
  rcases classify_cases data u info with ⟨r, hr, h | h⟩ | ⟨hr, h⟩ <;> rw [h]
  · exact ⟨put hr hu.add, hu.update, hu.remove⟩
  · exact ⟨hu.add, put hr hu.update, hu.remove⟩
  · refine ⟨hu.add, hu.update, fun k hk => ?_⟩
    rcases Finset.mem_insert.1 hk with rfl | hk
    · exact hr
    · exact hu.remove k hk

theorem carries_foldl_classify {infos : List (Σ _ : String, List ResourceChange)} :
    (infos.foldl (classify data) u).Carries k ↔ u.Carries k ∨ k ∈ infos.keys := by
  induction infos generalizing u with
  | nil => simp [keys]
  | cons info infos ih =>
    rw [foldl_cons, ih, carries_classify, keys_cons, mem_cons, or_assoc]

/-- **The sets of a tick** are about the keys with a note. -/
theorem carries_sets (data : Data T) (infos : List (Σ _ : String, List ResourceChange))
    (k : String) : (infos.foldl (classify data) empty).Carries k ↔ k ∈ infos.keys := by
  rw [carries_foldl_classify, or_iff_right (by simp [empty, Carries])]

theorem not_carries_of_isEmpty (h : u.isEmpty) (k : String) : ¬ u.Carries k := by
  obtain ⟨⟨hadd, hupd⟩, hremove⟩ :
      (u.add.entries = [] ∧ u.update.entries = []) ∧ u.remove = ∅ := by
    simpa [isEmpty] using h
  simp [Carries, AList.mem_keys, AList.keys, hadd, hupd, hremove]

/-- Sets that agree with the data bring a view up to the data at the keys
they are about. -/
theorem Reads.applyTo_of_carries (hu : u.Reads data)
    (view : Data T) (hk : u.Carries k) : u.applyTo view k = data k := by
  unfold applyTo
  split
  · next h => exact (hu.remove k h).symm
  · next h =>
    rcases hupd : u.update.lookup k with _ | r
    · rcases hadd : u.add.lookup k with _ | r
      · rw [AList.lookup_eq_none] at hadd hupd
        rcases hk with hk | hk | hk <;> contradiction
      · rw [Option.none_or, Option.some_or, hu.add k r hadd]
    · rw [Option.some_or, Option.some_or, hu.update k r hupd]

theorem applyTo_of_not_carries (view : Data T)
    (hk : ¬ u.Carries k) : u.applyTo view k = view k := by
  obtain ⟨hadd, hupd, hremove⟩ : k ∉ u.add ∧ k ∉ u.update ∧ k ∉ u.remove := by
    simpa [Carries] using hk
  rw [applyTo, if_neg hremove, AList.lookup_eq_none.2 hadd, AList.lookup_eq_none.2 hupd,
    Option.none_or, Option.none_or]

end PartialUpdate

namespace HandlerCall

/-- What a call does to a view. -/
def applyTo : HandlerCall T → Data T → Data T
  | .fullSet data, _ => data
  | .partialUpdate sets, view => sets.applyTo view

/-- The keys whose events a call delivers. -/
def Carries : HandlerCall T → String → Prop
  | .fullSet _, _ => False
  | .partialUpdate sets, k => sets.Carries k

/-- **The view** of a handler that held `view` and was given the calls. -/
def viewAfter (view : Data T) (calls : List (HandlerCall T)) : Data T :=
  calls.foldl (fun view call => call.applyTo view) view

end HandlerCall

/-! ## The cache -/

/-- `ConfHandlerData`, without the handler itself. -/
structure ConfHandlerData where
  compressedEvents : CompressEvent

def ConfHandlerData.new : ConfHandlerData := ⟨.new⟩

structure CacheData (T : Type u) where
  ready : Bool
  data : Data T
  syncVersion : ℕ
  handler : Option ConfHandlerData

/-- An event of a watch response, as the client reads it: `type` as a
string, `data` as a resource where it can be parsed, and `sync_version`. -/
structure WireEvent (T : Type u) where
  eventType : Option String
  data : Option (Option T)
  syncVersion : Option ℕ

/-- `"add"`, `"update"` and `"delete"`. -/
def changeOf (eventType : String) : Option ResourceChange :=
  if eventType = "add" then some .eventAdd
  else if eventType = "update" then some .eventUpdate
  else if eventType = "delete" then some .eventDelete
  else none

/-- The change an event stands for, where it is not skipped. The resource
is stamped with the version of the event, or else of the response. -/
def WireEvent.decode [ResourceMeta T] (event : WireEvent T) (responseSv : ℕ) :
    Option (ResourceChange × T) :=
  match event.eventType, event.data with
  | some eventType, some (some resource) =>
    let eventSv := event.syncVersion.getD responseSv
    (changeOf eventType).map fun change => (change, setSyncVersion (preParse resource) eventSv)
  | _, _ => none

namespace CacheData

def new : CacheData T :=
  { ready := false, data := fun _ => none, syncVersion := 0, handler := none }

variable (cache : CacheData T)

def setConfProcessor : CacheData T :=
  { cache with handler := some .new }

variable (key : String)

def insert (value : T) : CacheData T :=
  { cache with data := update cache.data key (some value) }

def remove : CacheData T :=
  { cache with data := update cache.data key none }

def addCompressEvent (change : ResourceChange) : CacheData T :=
  { cache with handler := cache.handler.map fun h => ⟨h.compressedEvents.addEvent key change⟩ }

/-- The resources by key, the last of a key. -/
def collect [ResourceMeta T] (resources : List T) : Data T :=
  resources.foldl (fun data r => update data (keyName r) (some r)) fun _ => none

def reset [ResourceMeta T] (cache : CacheData T) (resources : List T) (syncVersion : ℕ) :
    CacheData T × List (HandlerCall T) :=
  let data := collect resources
  ({ cache with
      data
      syncVersion
      handler := cache.handler.map fun h => ⟨h.compressedEvents.clear⟩ },
    if cache.handler.isSome then [.fullSet data] else [])

/-- `process_compressed_events`; nothing stands for `false`, which ends the
task. -/
def processCompressedEvents : Option (CacheData T × List (HandlerCall T)) :=
  match cache.handler with
  | none => none
  | some handler =>
    let eventInfos := handler.compressedEvents.events.entries
    if eventInfos.isEmpty then some (cache, [])
    else
      let sets := eventInfos.foldl (PartialUpdate.classify cache.data) .empty
      if sets.isEmpty then some (cache, [])
      else
        some ({ cache with handler := some ⟨handler.compressedEvents.clear⟩ },
          [.partialUpdate sets])

/-- An event of the watch loop, under one lock. -/
def watchEvent [ResourceMeta T] (cache : CacheData T) (responseSv : ℕ) (event : WireEvent T) :
    CacheData T :=
  match event.decode responseSv with
  | none => cache
  | some (change, resource) =>
    let resourceKey := keyName resource
    match change with
    | .initAdd | .eventAdd | .eventUpdate =>
      (cache.insert resourceKey resource).addCompressEvent resourceKey change
    | .eventDelete => (cache.remove resourceKey).addCompressEvent resourceKey change
    | .initStart | .initDone => cache

/-- `apply_change`: every change leaves a note, also the two signals, which
change nothing. The source takes the lock once for the note and once for the
data; here both are one step. -/
def applyChange [ResourceMeta T] (cache : CacheData T) (change : ResourceChange) (resource : T) :
    CacheData T :=
  let cache := cache.addCompressEvent (keyName resource) change
  let resourceKey := keyName resource
  match change with
  | .initAdd | .eventAdd | .eventUpdate => cache.insert resourceKey resource
  | .eventDelete => cache.remove resourceKey
  | .initStart | .initDone => cache

def triggerUpdateEventByKey : CacheData T :=
  cache.addCompressEvent key .eventUpdate

/-- `list_and_reset`, of a response that could be parsed. -/
def listAndReset [ResourceMeta T] (cache : CacheData T) (resources : List T) (syncVersion : ℕ) :
    CacheData T × List (HandlerCall T) :=
  cache.reset (resources.map fun r => setSyncVersion (preParse r) syncVersion) syncVersion

def setReady : CacheData T := { cache with ready := true }

def setSyncVersion (version : ℕ) : CacheData T :=
  { cache with syncVersion := version }

end CacheData

/-! ## What an operation does -/

variable {cache : CacheData T}

namespace CacheData

/-- The keys with a note. -/
def Pending (cache : CacheData T) (k : String) : Prop :=
  ∃ h, cache.handler = some h ∧ k ∈ h.compressedEvents.events

/-- **What an operation does.** It notes the key it touches; or it replaces
the data, gives it to the handler and drops the notes; or it delivers every
noted key as the data has it and drops the notes. -/
inductive Effect (cache : CacheData T) (touched : Option String) :
    CacheData T × List (HandlerCall T) → Prop
  | note {cache' : CacheData T} (set : cache'.handler.isSome)
      (pending : ∀ k, cache'.Pending k ↔ cache.Pending k ∨ some k = touched)
      (data : ∀ k, some k ≠ touched → cache'.data k = cache.data k) :
      Effect cache touched (cache', [])
  | replace {cache' : CacheData T} (set : cache'.handler.isSome)
      (pending : ∀ k, ¬ cache'.Pending k) : Effect cache touched (cache', [.fullSet cache'.data])
  | deliver {cache' : CacheData T} {sets : PartialUpdate T} (set : cache'.handler.isSome)
      (pending : ∀ k, ¬ cache'.Pending k) (carries : ∀ k, sets.Carries k ↔ cache.Pending k)
      (reads : sets.Reads cache.data) (data : cache'.data = cache.data) :
      Effect cache touched (cache', [.partialUpdate sets])

theorem pending_addCompressEvent (hset : cache.handler.isSome)
    (key : String) (change : ResourceChange) (k : String) :
    (cache.addCompressEvent key change).Pending k ↔ cache.Pending k ∨ some k = some key := by
  obtain ⟨h, hh⟩ := Option.isSome_iff_exists.1 hset
  simp only [Pending, addCompressEvent, hh, Option.map_some, Option.some.injEq, exists_eq_left',
    CompressEvent.addEvent, AList.mem_insert, or_comm]

theorem not_pending_of_empty {h : ConfHandlerData}
    (hh : cache.handler = some h) (hempty : h.compressedEvents.events = ∅) (k : String) :
    ¬ cache.Pending k := by
  simp only [Pending, hh, Option.some.injEq, exists_eq_left', hempty]
  exact AList.notMem_empty k

variable {cache' : CacheData T}

/-- A change of the data at the key of a note is an effect. -/
theorem Effect.of_note (hset : cache.handler.isSome) {key : String}
    (hhandler : cache'.handler = (cache.addCompressEvent key change).handler)
    (hdata : ∀ k, k ≠ key → cache'.data k = cache.data k) :
    Effect cache (some key) (cache', []) := by
  refine .note ?_ (fun k => ?_) fun k hk => hdata k fun h => hk (congrArg some h)
  · rw [hhandler, addCompressEvent, Option.isSome_map, hset]
  · rw [← pending_addCompressEvent hset key change, Pending, Pending, hhandler]

/-- An operation that touches neither the data nor the notes. -/
theorem Effect.of_eq (hset : cache.handler.isSome)
    (hhandler : cache'.handler = cache.handler) (hdata : cache'.data = cache.data) :
    Effect cache none (cache', []) :=
  .note (hhandler ▸ hset) (fun k => by simp [Pending, hhandler]) fun k _ => congrFun hdata k

variable {r : CacheData T × List (HandlerCall T)} {touched : Option String}

/-- The handler stays. -/
theorem Effect.handler (h : Effect cache touched r) : r.1.handler.isSome := by
  cases h with
  | note set _ _ => exact set
  | replace set _ => exact set
  | deliver set _ _ _ _ => exact set

open PartialUpdate

/-- **A view that follows the data** at the keys without a note goes on
following it. -/
theorem Effect.follows (h : Effect cache touched r) {view : Data T}
    (hview : ∀ k, ¬ cache.Pending k → view k = cache.data k) :
    ∀ k, ¬ r.1.Pending k → HandlerCall.viewAfter view r.2 k = r.1.data k := by
  intro k hk
  cases h with
  | note _ pending data =>
    obtain ⟨hold, hne⟩ := not_or.1 (mt (pending k).2 hk)
    rw [data k hne]
    exact hview k hold
  | replace _ _ => rfl
  | deliver _ _ carries reads data =>
    rw [data]
    by_cases hold : cache.Pending k
    · exact reads.applyTo_of_carries view ((carries k).2 hold)
    · exact (applyTo_of_not_carries view (mt (carries k).1 hold)).trans (hview k hold)

/-- A call delivers events of the keys with a note. -/
theorem Effect.pending_of_carries (h : Effect cache touched r) {call : HandlerCall T}
    (hcall : call ∈ r.2) (hk : call.Carries k) : cache.Pending k := by
  cases h with
  | note _ _ _ => cases hcall
  | replace _ _ =>
    rw [mem_singleton.1 hcall] at hk
    exact hk.elim
  | deliver _ _ carries _ _ =>
    rw [mem_singleton.1 hcall] at hk
    exact (carries k).1 hk

/-- A note is an old one, or that of the key just touched. -/
theorem Effect.pending (h : Effect cache touched r)
    (hk : r.1.Pending k) : cache.Pending k ∨ touched = some k := by
  cases h with
  | note _ pending _ => exact ((pending k).1 hk).imp_right Eq.symm
  | replace _ pending => exact (pending k hk).elim
  | deliver _ pending _ _ _ => exact (pending k hk).elim

/-- **A tick** without a note does nothing, and delivers every note
otherwise. -/
theorem processCompressedEvents_effect (hset : cache.handler.isSome) :
    ∃ r, cache.processCompressedEvents = some r ∧ Effect cache none r ∧ ∀ k, ¬ r.1.Pending k := by
  obtain ⟨h, hh⟩ := Option.isSome_iff_exists.1 hset
  have hpend (k : String) : cache.Pending k ↔ k ∈ h.compressedEvents.events.entries.keys := by
    simp only [Pending, hh, Option.some.injEq, exists_eq_left']
    rfl
  simp only [processCompressedEvents, hh]
  have hcarries (k : String) := carries_sets cache.data h.compressedEvents.events.entries k
  split
  · next hempty =>
    refine ⟨_, rfl, .of_eq hset rfl rfl, fun k => ?_⟩
    rw [hpend, isEmpty_iff.1 hempty]
    exact not_mem_nil
  · split
    · next hempty =>
      refine ⟨_, rfl, .of_eq hset rfl rfl, fun k hk => ?_⟩
      exact not_carries_of_isEmpty hempty k ((hcarries k).2 ((hpend k).1 hk))
    · have hreads : (h.compressedEvents.events.entries.foldl (classify cache.data)
          .empty).Reads cache.data :=
        foldlRecOn (motive := (Reads · _)) _ _
          (by constructor <;> simp [empty]) fun _ hu info _ => hu.classify info
      refine ⟨_, rfl, .deliver rfl (not_pending_of_empty rfl rfl) (fun k => ?_) hreads rfl,
        not_pending_of_empty rfl rfl⟩
      rw [hcarries, hpend]

end CacheData

/-! ## Runs -/

/-- What is done to a cache, one lock at a time. -/
inductive CacheOp (T : Type u)
  | watchEvent (responseSv : ℕ) (event : WireEvent T)
  | applyChange (change : ResourceChange) (resource : T)
  | triggerUpdateEventByKey (key : String)
  | listAndReset (resources : List T) (syncVersion : ℕ)
  | reset (resources : List T) (syncVersion : ℕ)
  | setReady
  | setSyncVersion (version : ℕ)
  | tick

namespace CacheOp

variable [ResourceMeta T]

/-- The key an operation changes or leaves a note for. -/
def touched : CacheOp T → Option String
  | .watchEvent responseSv event => (event.decode responseSv).map fun p => keyName p.2
  | .applyChange _ resource => some (keyName resource)
  | .triggerUpdateEventByKey key => some key
  | _ => none

/-- The operations that replace the data. -/
def resets : CacheOp T → Bool
  | .listAndReset _ _ | .reset _ _ => true
  | _ => false

end CacheOp

namespace CacheData

variable [ResourceMeta T]

/-- One operation, and the calls it makes on the handler. -/
def step (cache : CacheData T) : CacheOp T → CacheData T × List (HandlerCall T)
  | .watchEvent responseSv event => (cache.watchEvent responseSv event, [])
  | .applyChange change resource => (cache.applyChange change resource, [])
  | .triggerUpdateEventByKey key => (cache.triggerUpdateEventByKey key, [])
  | .listAndReset resources syncVersion => cache.listAndReset resources syncVersion
  | .reset resources syncVersion => cache.reset resources syncVersion
  | .setReady => (cache.setReady, [])
  | .setSyncVersion version => (cache.setSyncVersion version, [])
  | .tick => cache.processCompressedEvents.getD (cache, [])

/-- A sequence of operations, and the calls it makes. -/
def run (cache : CacheData T) : List (CacheOp T) → CacheData T × List (HandlerCall T)
  | [] => (cache, [])
  | op :: ops => ((run (cache.step op).1 ops).1, (cache.step op).2 ++ (run (cache.step op).1 ops).2)

theorem run_append (cache : CacheData T) (ops later : List (CacheOp T)) : cache.run (ops ++ later) =
      (((cache.run ops).1.run later).1, (cache.run ops).2 ++ ((cache.run ops).1.run later).2) := by
  induction ops generalizing cache with
  | nil => rfl
  | cons op ops ih => rw [cons_append, run, run, ih, append_assoc]

theorem decode_change {event : WireEvent T} {responseSv : ℕ}
    {resource : T} (h : event.decode responseSv = some (change, resource)) :
    change = .eventAdd ∨ change = .eventUpdate ∨ change = .eventDelete := by
  simp only [WireEvent.decode] at h
  split at h
  · obtain ⟨c, hc, heq⟩ := Option.map_eq_some_iff.1 h
    obtain ⟨rfl, -⟩ := Prod.mk.inj heq
    simp only [changeOf] at hc
    grind
  · cases h

section

variable (hset : cache.handler.isSome)

include hset

theorem watchEvent_effect (responseSv : ℕ) (event : WireEvent T) :
    Effect cache (CacheOp.watchEvent responseSv event).touched
      (cache.watchEvent responseSv event, []) := by
  rcases hdecode : event.decode responseSv with _ | ⟨change, resource⟩
  · simp only [CacheOp.touched, watchEvent, hdecode]
    exact .of_eq hset rfl rfl
  · simp only [CacheOp.touched, watchEvent, hdecode]
    rcases decode_change hdecode with rfl | rfl | rfl <;>
      exact .of_note hset rfl fun k hk => update_of_ne hk _ _

theorem applyChange_effect (change : ResourceChange) (resource : T) :
    Effect cache (some (keyName resource)) (cache.applyChange change resource, []) := by
  cases change with
  | initStart => exact .of_note hset rfl fun _ _ => rfl
  | initDone => exact .of_note hset rfl fun _ _ => rfl
  | initAdd => exact .of_note hset rfl fun k hk => update_of_ne hk _ _
  | eventAdd => exact .of_note hset rfl fun k hk => update_of_ne hk _ _
  | eventUpdate => exact .of_note hset rfl fun k hk => update_of_ne hk _ _
  | eventDelete => exact .of_note hset rfl fun k hk => update_of_ne hk _ _

variable (resources : List T) (syncVersion : ℕ)

theorem not_pending_reset (k : String) :
    ¬ (cache.reset resources syncVersion).1.Pending k := by
  obtain ⟨h, hh⟩ := Option.isSome_iff_exists.1 hset
  have hhandler : (cache.reset resources syncVersion).1.handler = some .new := by
    rw [reset, hh]
    rfl
  exact not_pending_of_empty hhandler rfl k

theorem reset_effect : Effect cache none (cache.reset resources syncVersion) := by
  have hpend := not_pending_reset hset resources syncVersion
  simp only [reset, hset, if_true] at hpend ⊢
  exact .replace (by rw [Option.isSome_map, hset]) hpend

/-- **What one operation does.** -/
theorem step_effect (op : CacheOp T) : Effect cache op.touched (cache.step op) := by
  cases op with
  | watchEvent responseSv event => exact watchEvent_effect hset responseSv event
  | applyChange change resource => exact applyChange_effect hset change resource
  | triggerUpdateEventByKey key => exact .of_note hset rfl fun _ _ => rfl
  | listAndReset resources syncVersion => exact reset_effect hset _ syncVersion
  | reset resources syncVersion => exact reset_effect hset resources syncVersion
  | setReady => exact .of_eq hset rfl rfl
  | setSyncVersion version => exact .of_eq hset rfl rfl
  | tick =>
    obtain ⟨r, hr, heffect, -⟩ := processCompressedEvents_effect hset
    rw [step, hr]
    exact heffect

variable (ops : List (CacheOp T))

theorem run_handler : (cache.run ops).1.handler.isSome := by
  induction ops generalizing cache with
  | nil => exact hset
  | cons op ops ih => exact ih (step_effect hset op).handler

/-- **Along a run** the view follows the data at the keys without a note. -/
theorem run_follows {view : Data T}
    (hview : ∀ k, ¬ cache.Pending k → view k = cache.data k) (ops : List (CacheOp T)) :
    ∀ k, ¬ (cache.run ops).1.Pending k →
      HandlerCall.viewAfter view (cache.run ops).2 k = (cache.run ops).1.data k := by
  induction ops generalizing cache view with
  | nil => exact hview
  | cons op ops ih =>
    have heffect := step_effect hset op
    rw [run, HandlerCall.viewAfter, foldl_append]
    exact ih heffect.handler (heffect.follows hview)

/-- **Along a run** the events delivered are of keys that had a note at its
start, or are touched in it. -/
theorem run_carries {call : HandlerCall T} (hcall : call ∈ (cache.run ops).2)
    (hk : call.Carries k) : cache.Pending k ∨ ∃ op ∈ ops, op.touched = some k := by
  induction ops generalizing cache with
  | nil => cases hcall
  | cons op ops ih =>
    have heffect := step_effect hset op
    rcases mem_append.1 hcall with hnow | hlater
    · exact .inl (heffect.pending_of_carries hnow hk)
    · rcases ih heffect.handler hlater with hp | ⟨op', hmem, htouched⟩
      · exact (heffect.pending hp).imp_right fun h => ⟨op, mem_cons_self, h⟩
      · exact .inr ⟨op', mem_cons_of_mem _ hmem, htouched⟩

/-- After a tick and after a reset there are no notes. -/
theorem not_pending_step {op : CacheOp T}
    (hop : op = .tick ∨ op.resets = true) (k : String) : ¬ (cache.step op).1.Pending k := by
  rcases hop with rfl | hop
  · obtain ⟨r, hr, -, hpend⟩ := processCompressedEvents_effect hset
    rw [step, hr]
    exact hpend k
  · cases op with
    | listAndReset resources syncVersion => exact not_pending_reset hset _ syncVersion k
    | reset resources syncVersion => exact not_pending_reset hset resources syncVersion k
    | _ => cases hop

end

/-- A new cache with a handler. -/
def withHandler : CacheData T := (new : CacheData T).setConfProcessor

/-- **The handler's view follows the cache.** After every tick and every
reset of every run, a handler that did what each call said holds exactly
the data. What is delivered after a reset are events of keys changed or
triggered after it. -/
theorem viewAfter_run (ops : List (CacheOp T)) : (∀ op : CacheOp T, op = .tick ∨ op.resets = true →
      HandlerCall.viewAfter (fun _ => none) (withHandler.run (ops ++ [op])).2 =
        (withHandler.run (ops ++ [op])).1.data) ∧
    (∀ op : CacheOp T, op.resets = true → ∀ later : List (CacheOp T),
      ∀ call ∈ ((withHandler.run (ops ++ [op])).1.run later).2, ∀ k, call.Carries k →
        ∃ op' ∈ later, op'.touched = some k) := by
  have hset : (withHandler : CacheData T).handler.isSome := rfl
  have hpending {op : CacheOp T} (hop : op = .tick ∨ op.resets = true) (k : String) :
      ¬ (withHandler.run (ops ++ [op])).1.Pending k := by
    rw [run_append]
    exact not_pending_step (run_handler hset ops) hop k
  refine ⟨fun op hop => funext fun k => ?_, fun op hop later call hcall k hk => ?_⟩
  · exact run_follows hset (fun _ _ => rfl) _ k (hpending hop k)
  · exact (run_carries (run_handler hset _) later hcall hk).resolve_left (hpending (.inr hop) k)

/-- A resource of a name and a version. -/
structure Named where
  name : String
  version : ℕ
deriving DecidableEq

instance : ResourceMeta Named where
  keyName := Named.name
  preParse := id
  setSyncVersion r v := { r with version := v }

/-- The event of a resource that was added. -/
def added (name : String) : CacheOp Named :=
  .watchEvent 3 ⟨some "add", some (some ⟨name, 0⟩), none⟩

theorem viewAfter_run_added :
    HandlerCall.viewAfter (fun _ => none) (withHandler.run ([added "a"] ++ [.tick])).2 "a" =
      some ⟨"a", 3⟩ ∧
    ∀ call ∈ ((withHandler.run ([added "a"] ++ [.reset [] 4])).1.run [added "b", .tick]).2,
      ¬ call.Carries "a" := by
  constructor
  · rw [(viewAfter_run [added "a"]).1 .tick (.inl rfl)]
    decide
  · intro call hcall hk
    obtain ⟨op, hmem, htouched⟩ := (viewAfter_run [added "a"]).2 (.reset [] 4) rfl
      [added "b", .tick] call hcall "a" hk
    rcases mem_pair.1 hmem with rfl | rfl
    · exact absurd htouched (by decide)
    · exact absurd htouched (by decide)

end CacheData

end Edgion.ConfSync
