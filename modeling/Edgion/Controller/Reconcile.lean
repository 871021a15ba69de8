import Edgion.Controller.Processor
import Edgion.Common.Steps
import Edgion.ConfSync.Replay

/-!
# Controller — what the cache holds after a work item

The watch store changes with every watch event, and the worker processes
keys in any order and as often as it likes. When it has processed a key,
the cache should hold under it what the handler makes of the stored
object, and nothing where there is no such object or where it is turned
away. An object that is turned away is skipped, though, and skipping
leaves the cache alone: what was saved from an earlier version stays.
-/

namespace Edgion.Controller

open ConfSync (Resource ResourceChange WatcherEvent EventStore resourceKey)
open Workqueue (TriggerChain)
open Common (Runs)
open Option Function ProcessorHandler

universe u v

variable {K : Type u} [KubeObject K] {W : Type v}

/-! ## The controller of a kind -/

/-- The watch store of a kind, its processor, and what the handlers of all
kinds share. -/
structure ResourceController (K : Type u) (W : Type v) where
  store : ObjectRef → Option K
  processor : Processor K
  world : W

/-- What happens to a controller. -/
inductive Act (K : Type u) (W : Type v)
  /-- A watch event of the first listing, which is processed at once. -/
  | initApply (obj : K) (existingStatusJson : Option String) (timestamp : ℕ)
  /-- A watch event: the store has a new version of an object. -/
  | apply (obj : K)
  /-- A watch event: the store has lost an object. -/
  | delete (obj : K)
  /-- The worker processes a key. -/
  | workItem (key : String) (existingStatusJson : Option String) (chain : TriggerChain)
      (timestamp : ℕ)
  | setNamespaceFilter (filter : Option (List String))
  | setMetadataFilter (filter : Option MetadataFilterConfig)
  | clear
  /-- The processors of the other kinds go on. -/
  | others (world : W) (lastVersion : ℕ)

namespace ResourceController

/-- What the store holds under a key. -/
def stored (c : ResourceController K W) (key : String) : Option K := c.store (parseResourceKey key)

/-- **A step.** The watch store takes only objects with a name. -/
def step (handler : ProcessorHandler K W) (c : ResourceController K W) :
    Act K W → Option (ResourceController K W)
  | .initApply obj existing timestamp =>
    if HasName obj then
      let (_, processor, world) := c.processor.onInitApply handler c.world timestamp obj existing
      some { store := update c.store (objectRef obj) (some obj), processor, world }
    else none
  | .apply obj =>
    if HasName obj then some { c with store := update c.store (objectRef obj) (some obj) }
    else none
  | .delete obj => some { c with store := update c.store (objectRef obj) none }
  | .workItem key existing chain timestamp =>
    let (_, processor, world) :=
      c.processor.processWorkItem handler c.world timestamp key (c.stored key) existing chain
    some { c with processor, world }
  | .setNamespaceFilter filter =>
    some { c with processor := { c.processor with namespaceFilter := filter } }
  | .setMetadataFilter filter =>
    some { c with processor := { c.processor with metadataFilter := filter } }
  | .clear => some { c with processor := { c.processor with cache := c.processor.cache.clear } }
  | .others world lastVersion =>
    if c.processor.lastVersion ≤ lastVersion then
      some { c with processor := { c.processor with lastVersion }, world }
    else none

/-- A controller before its first event. -/
def new (processor : Processor K) (world : W) : ResourceController K W where
  store := fun _ => none
  processor := { processor with cache := .new 0 }
  world

end ResourceController

/-! ## What the processor changes -/

namespace Processor

variable {p : Processor K} {handler : ProcessorHandler K W}

/-- The cache is not ahead of the versions handed out. -/
def Behind (p : Processor K) : Prop := p.cache.syncVersion ≤ p.lastVersion

/-- What a change does to the data of a cache it reaches. -/
def changed (data : ConfSync.Data K) (change : ResourceChange) (r : K) : ConfSync.Data K :=
  match change with
  | .initAdd | .eventAdd | .eventUpdate => update data (resourceKey r) (some r)
  | .eventDelete => update data (resourceKey r) none
  | .initStart | .initDone => data

/-- **A change reaches the cache**: its version is newer than all before. -/
theorem applyChange_data (hp : p.Behind) (timestamp : ℕ) (change : ResourceChange) (r : K) :
    (p.applyChange timestamp change r).cache.data = changed p.cache.data change r := by
  have hle : p.cache.syncVersion ≤ nextResourceVersion p.lastVersion timestamp :=
    hp.trans (lt_nextResourceVersion p.lastVersion timestamp).le
  cases change with
  | initStart | initDone | initAdd => rfl
  | eventAdd | eventUpdate | eventDelete => exact EventStore.data_applyEvent hle

theorem Behind.applyChange (hp : p.Behind) (timestamp : ℕ) (change : ResourceChange) (r : K) :
    (p.applyChange timestamp change r).Behind := by
  have hle : p.cache.syncVersion ≤ nextResourceVersion p.lastVersion timestamp :=
    hp.trans (lt_nextResourceVersion p.lastVersion timestamp).le
  cases change with
  | initStart | initDone => exact hle
  | initAdd =>
    simp only [Processor.applyChange, EventStore.initAdd]
    split
    · exact le_rfl
    · exact hle
  | eventAdd | eventUpdate | eventDelete => exact (EventStore.syncVersion_applyEvent hle).le

/-- **Processing an object** saves what the handler makes of it, and leaves
the cache alone where it is skipped. -/
theorem processResource_cases (p : Processor K) (handler : ProcessorHandler K W) (w : W)
    (timestamp : ℕ) (obj : K) (ctx : HandlerContext) (isInit : Bool) (existing : Option String) :
    ((handler.render ctx w obj existing).1 = none ∧
      (p.processResource handler w timestamp obj ctx isInit existing).2.1 = p) ∨
    (∃ saved change, (handler.render ctx w obj existing).1 = some saved ∧
      (change = .initAdd ∨ change = .eventUpdate) ∧
      (p.processResource handler w timestamp obj ctx isInit existing).2.1 =
        p.applyChange timestamp change saved.1) := by
  rcases hrender : handler.render ctx w obj existing with ⟨_ | saved, w'⟩
  · exact .inl ⟨rfl, by simp only [processResource, hrender]⟩
  · refine .inr ⟨saved, if isInit then .initAdd else .eventUpdate, rfl, ?_, ?_⟩
    · cases isInit
      · exact .inr rfl
      · exact .inl rfl
    · cases isInit <;> simp only [processResource, hrender] <;> rfl

/-! ## The invariant -/

/-- **A sound processor**: objects are cached under their own names, and the
cache is not ahead of the versions handed out. -/
structure Sound (p : Processor K) : Prop where
  cached : ∀ k obj, p.cache.data k = some obj → resourceKey obj = k ∧ HasName obj
  behind : p.Behind

theorem Sound.applyChange (hp : p.Sound) (timestamp : ℕ) (change : ResourceChange) {r : K}
    (hr : HasName r) : (p.applyChange timestamp change r).Sound := by
  refine ⟨fun k obj hobj => ?_, hp.behind.applyChange timestamp change r⟩
  rw [applyChange_data hp.behind] at hobj
  by_cases hk : k = resourceKey r
  · subst hk
    cases change with
    | initAdd | eventAdd | eventUpdate =>
      obtain rfl : r = obj := by simpa [changed] using hobj
      exact ⟨rfl, hr⟩
    | eventDelete => simp [changed] at hobj
    | initStart | initDone => exact hp.cached _ _ hobj
  · refine hp.cached k obj ?_
    cases change <;> simpa [changed, hk] using hobj

theorem Sound.processResource (hp : p.Sound) (w : W) (timestamp : ℕ) {obj : K}
    (hobj : HasName obj) (ctx : HandlerContext) (isInit : Bool) (existing : Option String) :
    (p.processResource handler w timestamp obj ctx isInit existing).2.1.Sound := by
  rcases p.processResource_cases handler w timestamp obj ctx isInit existing with
    ⟨-, h⟩ | ⟨saved, change, hrender, -, h⟩
  · rw [h]
    exact hp
  · rw [h]
    exact hp.applyChange timestamp change (hobj.of_same (render_same hrender))

variable {key : String}

/-- Deleting a cached object is a change at its key: it is cached under the
key that is made of it. -/
theorem Sound.processDelete_eq (hp : p.Sound) (w : W) (timestamp : ℕ) {cached : K}
    (hcached : p.cache.data key = some cached) (ctx : HandlerContext) :
    (p.processDelete handler w timestamp cached ctx).1 =
      p.applyChange timestamp .eventDelete cached := by
  obtain ⟨hkey, hname⟩ := hp.cached key cached hcached
  simp only [processDelete, remove, makeResourceKey_eq hname, hkey, hcached]

variable {storeObj : Option K}

theorem Sound.processWorkItem (hp : p.Sound) (w : W) (timestamp : ℕ) (key : String)
    (hobj : ∀ obj ∈ storeObj, HasName obj) (existing : Option String) (chain : TriggerChain) :
    (p.processWorkItem handler w timestamp key storeObj existing chain).2.1.Sound := by
  cases storeObj with
  | some obj => exact hp.processResource w timestamp (hobj obj rfl) _ false existing
  | none =>
    rcases hcached : p.cache.data key with _ | cached
    · simp only [processWorkItem, hcached]
      exact hp
    · simp only [processWorkItem, hcached]
      rw [hp.processDelete_eq w timestamp hcached]
      exact hp.applyChange timestamp .eventDelete (hp.cached key cached hcached).2

/-- The context a work item is processed in. -/
def workItemContext (p : Processor K) (key : String) (chain : TriggerChain) : HandlerContext :=
  p.createContext (chain ++ [⟨p.kind, key⟩])

/-- **What a work item leaves in the cache** under its key: what the handler
makes of the stored object; where the handler turns it away, what was there
before. -/
theorem Sound.processWorkItem_data (hp : p.Sound) (w : W) (timestamp : ℕ)
    (hobj : ∀ obj ∈ storeObj, resourceKey obj = key)
    (existing : Option String) (chain : TriggerChain) :
    (p.processWorkItem handler w timestamp key storeObj existing chain).2.1.cache.data key =
      storeObj.bind fun obj =>
        ((handler.render (p.workItemContext key chain) w obj existing).1.map Prod.fst).or
          (p.cache.data key) := by
  cases storeObj with
  | none =>
    rcases hcached : p.cache.data key with _ | cached
    · simp only [Processor.processWorkItem, hcached, bind_none]
    · simp only [Processor.processWorkItem, hcached, bind_none]
      rw [hp.processDelete_eq w timestamp hcached, applyChange_data hp.behind, changed,
        (hp.cached key cached hcached).1, update_self]
  | some obj =>
    rw [bind_some]
    rcases p.processResource_cases handler w timestamp obj (p.workItemContext key chain) false
      existing with ⟨hrender, h⟩ | ⟨saved, change, hrender, hchange, h⟩
    · rw [hrender, map_none, none_or]
      exact congrArg (fun p => p.cache.data key) h
    · have hkey : resourceKey saved.1 = key :=
        (render_same hrender).resourceKey_eq.trans (hobj obj rfl)
      rw [hrender, map_some, some_or]
      refine (congrArg (fun p => p.cache.data key) h).trans ?_
      rw [applyChange_data hp.behind]
      rcases hchange with rfl | rfl <;> rw [changed, hkey, update_self]

/-- **A work item** makes one change, at its key, or none. -/
theorem Sound.processWorkItem_cases (hp : p.Sound) (w : W) (timestamp : ℕ)
    (hobj : ∀ obj ∈ storeObj, resourceKey obj = key) (existing : Option String)
    (chain : TriggerChain) :
    (p.processWorkItem handler w timestamp key storeObj existing chain).2.1 = p ∨
      ∃ change r, resourceKey r = key ∧
        (p.processWorkItem handler w timestamp key storeObj existing chain).2.1 =
          p.applyChange timestamp change r := by
  cases storeObj with
  | none =>
    rcases hcached : p.cache.data key with _ | cached
    · exact .inl (by simp only [Processor.processWorkItem, hcached])
    · refine .inr ⟨.eventDelete, cached, (hp.cached key cached hcached).1, ?_⟩
      simp only [Processor.processWorkItem, hcached]
      exact hp.processDelete_eq w timestamp hcached _
  | some obj =>
    rcases p.processResource_cases handler w timestamp obj (p.workItemContext key chain) false
      existing with ⟨-, h⟩ | ⟨saved, change, hrender, -, h⟩
    · exact .inl h
    · exact .inr ⟨change, saved.1,
        (render_same hrender).resourceKey_eq.trans (hobj obj rfl), h⟩

/-- **A change** leaves a cache of events in order: its version is newer than all of them. -/
theorem exists_holds_of_change {p' : Processor K} (timestamp : ℕ) (hp : p.Behind)
    (h : ∃ events, p.cache.Holds events)
    (hchange : p' = p ∨ ∃ change r, p' = p.applyChange timestamp change r) :
    ∃ events, p'.cache.Holds events := by
  obtain rfl | ⟨change, r, rfl⟩ := hchange
  · exact h
  obtain ⟨events, h⟩ := h
  have hlt := lt_nextResourceVersion p.lastVersion timestamp
  cases change with
  | initStart | initDone => exact ⟨events, h⟩
  | initAdd => exact ⟨events, h.initAdd _ r⟩
  | eventAdd | eventUpdate | eventDelete =>
    exact ⟨_, h.applyEvent (hp.trans hlt.le)
      fun e he => ((h.le_syncVersion e he).trans hp).trans_lt hlt⟩

end Processor

namespace ResourceController

variable {c c' : ResourceController K W} {handler : ProcessorHandler K W}

/-- **A sound controller**: its processor is sound, and the store holds
named objects in their places. -/
structure Sound (c : ResourceController K W) : Prop where
  stored : ∀ ref obj, c.store ref = some obj → objectRef obj = ref ∧ HasName obj
  processor : c.processor.Sound

theorem Sound.new (p : Processor K) (w : W) : (new p w : ResourceController K W).Sound :=
  ⟨fun _ _ h => (nomatch h), fun _ _ h => (nomatch h), Nat.zero_le _⟩

/-- Storing an object keeps the store in order. -/
theorem stored_update {store : ObjectRef → Option K}
    (h : ∀ ref obj, store ref = some obj → objectRef obj = ref ∧ HasName obj) {obj : K}
    (hobj : HasName obj) : ∀ ref obj', update store (objectRef obj) (some obj) ref =
      some obj' → objectRef obj' = ref ∧ HasName obj' := by
  intro ref obj' heq
  by_cases href : ref = objectRef obj
  · subst href
    obtain rfl : obj = obj' := by simpa using heq
    exact ⟨rfl, hobj⟩
  · rw [update_of_ne href] at heq
    exact h ref obj' heq

/-- **Every step keeps a controller sound.** -/
theorem Sound.step (hc : c.Sound) {act : Act K W} (h : c.step handler act = some c') :
    c'.Sound := by
  cases act with
  | initApply obj existing timestamp =>
    simp only [ResourceController.step] at h
    split at h
    · next hname =>
      cases h
      exact ⟨stored_update hc.stored hname, hc.processor.processResource _ _ hname _ _ _⟩
    · cases h
  | apply obj =>
    simp only [ResourceController.step] at h
    split at h
    · next hname =>
      cases h
      exact ⟨stored_update hc.stored hname, hc.processor⟩
    · cases h
  | delete obj =>
    cases h
    refine ⟨fun ref obj' heq => ?_, hc.processor⟩
    by_cases href : ref = objectRef obj
    · simp [href] at heq
    · simp only [update_of_ne href] at heq
      exact hc.stored ref obj' heq
  | workItem key existing chain timestamp =>
    cases h
    exact ⟨hc.stored, hc.processor.processWorkItem _ _ _ (fun obj hobj => (hc.stored _ obj hobj).2)
      _ _⟩
  | setNamespaceFilter filter | setMetadataFilter filter =>
    cases h
    exact ⟨hc.stored, hc.processor.cached, hc.processor.behind⟩
  | clear =>
    cases h
    exact ⟨hc.stored, fun _ _ h => (nomatch h), Nat.zero_le _⟩
  | others world lastVersion =>
    simp only [ResourceController.step] at h
    split at h
    · next hle =>
      cases h
      exact ⟨hc.stored, hc.processor.cached, hc.processor.behind.trans hle⟩
    · cases h

/-- **What should be cached** under a key: what the handler makes of the
object the store holds there. -/
def wanted (handler : ProcessorHandler K W) (c : ResourceController K W) (key : String)
    (existing : Option String) (chain : TriggerChain) : Option K :=
  (c.stored key).bind fun obj =>
    (handler.render (c.processor.workItemContext key chain) c.world obj existing).1.map Prod.fst

/-- The cache after a work item. -/
def cacheAfter (handler : ProcessorHandler K W) (c : ResourceController K W) (key : String)
    (existing : Option String) (chain : TriggerChain) (timestamp : ℕ) : ConfSync.Data K :=
  let processed :=
    c.processor.processWorkItem handler c.world timestamp key (c.stored key) existing chain
  processed.2.1.cache.data

/-- An object stands under its own key in the store. -/
theorem Sound.resourceKey_stored (hc : c.Sound) (key : String) :
    ∀ obj ∈ c.stored key, resourceKey obj = key := fun obj hobj =>
  resourceKey_of_objectRef (hc.stored _ obj hobj).1

/-- **When the cache is right after a work item.** In every state a
controller reaches, the key is cached exactly as it should be, unless the
store holds an object that is turned away and the key was cached before. -/
theorem cacheAfter_eq_wanted_iff (p : Processor K) (w : W) {acts : List (Act K W)}
    (hrun : Runs (step handler) (fun _ _ => True) (new p w) acts c) (key : String)
    (existing : Option String) (chain : TriggerChain) (timestamp : ℕ) :
    c.cacheAfter handler key existing chain timestamp key = c.wanted handler key existing chain ↔
      ((c.stored key).isSome → c.wanted handler key existing chain = none →
        c.processor.cache.data key = none) := by
  have hc : c.Sound := hrun.invariant (.new p w) fun _ _ _ hc _ h => hc.step h
  simp only [cacheAfter, wanted,
    hc.processor.processWorkItem_data c.world timestamp (hc.resourceKey_stored key) existing chain]
  cases c.stored key with
  | none => simp
  | some obj =>
    simp only [bind_some, isSome_some, forall_const]
    cases (handler.render (c.processor.workItemContext key chain) c.world obj existing).1 with
    | none => simp
    | some saved => simp

variable {acts : List (Act K W)}

/-- **A work item leaves every other key alone**, in every state a controller reaches. -/
theorem cacheAfter_of_ne (p : Processor K) (w : W)
    (hrun : Runs (step handler) (fun _ _ => True) (new p w) acts c) {key k : String} (hk : k ≠ key)
    (existing : Option String) (chain : TriggerChain) (timestamp : ℕ) :
    c.cacheAfter handler key existing chain timestamp k = c.processor.cache.data k := by
  have hc : c.Sound := hrun.invariant (.new p w) fun _ _ _ hc _ h => hc.step h
  simp only [cacheAfter]
  rcases hc.processor.processWorkItem_cases c.world timestamp (hc.resourceKey_stored key) existing
    chain with h | ⟨change, r, rfl, h⟩
  · rw [h]
  · rw [h, Processor.applyChange_data hc.processor.behind]
    cases change <;> simp [Processor.changed, hk]

/-- Every step keeps the log of events that the cache is built from. -/
theorem Sound.holds_step (hc : c.Sound) {act : Act K W}
    (h : ∃ events, c.processor.cache.Holds events) (hstep : c.step handler act = some c') :
    ∃ events, c'.processor.cache.Holds events := by
  have hbehind := hc.processor.behind
  cases act with
  | initApply obj existing timestamp =>
    simp only [ResourceController.step] at hstep
    split at hstep <;> cases hstep
    refine Processor.exists_holds_of_change timestamp hbehind h ?_
    exact (c.processor.processResource_cases handler c.world timestamp obj
      (c.processor.createContext []) true existing).imp And.right
        fun ⟨saved, change, _, _, h⟩ => ⟨change, saved.1, h⟩
  | workItem key existing chain timestamp =>
    cases hstep
    refine Processor.exists_holds_of_change timestamp hbehind h ?_
    exact (hc.processor.processWorkItem_cases c.world timestamp (hc.resourceKey_stored key)
      existing chain).imp_right fun ⟨change, r, _, h⟩ => ⟨change, r, h⟩
  | clear =>
    cases hstep
    exact ⟨[], h.choose_spec.clear⟩
  | apply obj | others world lastVersion =>
    simp only [ResourceController.step] at hstep
    split at hstep <;> cases hstep
    exact h
  | delete obj | setNamespaceFilter filter | setMetadataFilter filter =>
    cases hstep
    exact h

/-- **Watchers are served in order**: in every state a controller reaches, whatever version a
watcher asks from, the events it is given are in the order of their versions, each once, newer
than what it asked from and not beyond the version it is told. -/
theorem getEvents_ordered (p : Processor K) (w : W)
    (hrun : Runs (step handler) (fun _ _ => True) (new p w) acts c) {v current : ℕ}
    {answer : List (WatcherEvent K)}
    (h : c.processor.cache.getEventsFromSyncVersion v = .ok (current, some answer)) :
    answer.Pairwise (fun e e' => e.syncVersion < e'.syncVersion) ∧
      ∀ e ∈ answer, v < e.syncVersion ∧ e.syncVersion ≤ current := by
  have hinv : c.Sound ∧ ∃ events, c.processor.cache.Holds events := by
    apply hrun.invariant
    · exact ⟨.new p w, [], EventStore.holds_new 0⟩
    · exact fun c act c' hc _ hstep => ⟨hc.1.step hstep, hc.1.holds_step hc.2 hstep⟩
  obtain ⟨-, events, hevents⟩ := hinv
  obtain ⟨rfl, -⟩ := hevents.eq_newerThan h
  obtain ⟨rfl, -, -⟩ := EventStore.of_getEvents_eq_ok h
  refine ⟨hevents.sorted.filter _, fun e he => ?_⟩
  obtain ⟨hmem, hnew⟩ := List.mem_filter.1 he
  exact ⟨of_decide_eq_true hnew, hevents.le_syncVersion e hmem⟩

end ResourceController

/-! ## Gateways -/

/-- `Gateway`, as far as it decides about the cache. The certificates that
`parse` fills in and the status are left out. -/
structure Gateway where
  ns : Option String
  name : Option String
  gatewayClassName : String
deriving DecidableEq, Repr

instance : KubeObject Gateway where
  ns := Gateway.ns
  nameAny g := g.name.getD ""
  name := Gateway.name
  extractStatusJson _ := .empty
  cleanMetadata _ g := g
  cleanMetadata_ns _ _ := rfl
  cleanMetadata_name _ _ := rfl
  cleanMetadata_nameAny _ _ := rfl

variable (gatewayClassName : Option String)

/-- `GatewayHandler::filter`. -/
def gatewayFilter (g : Gateway) : Bool :=
  match gatewayClassName with
  | some className => g.gatewayClassName = className
  | none => true

/-- `GatewayHandler`. It has no validation and no preparse of its own, and
its `parse` never skips. -/
def gatewayHandler : ProcessorHandler Gateway Unit where
  filter := gatewayFilter gatewayClassName
  cleanMetadata _ g := g
  validate _ w _ := ([], w)
  preparse _ w g := ((g, []), w)
  parse _ w g := (.ok g, w)
  onDelete _ w _ := w
  onChange _ w _ := w
  updateStatus _ w g _ := (g, w)
  cleanMetadata_same _ _ := ⟨rfl, rfl, rfl⟩
  preparse_same _ _ _ := ⟨rfl, rfl, rfl⟩
  parse_same _ _ g parsed h := by
    obtain rfl : g = parsed := by simpa using h
    exact ⟨rfl, rfl, rfl⟩
  updateStatus_same _ _ _ _ := ⟨rfl, rfl, rfl⟩

/-- A processor for gateways. -/
def gatewayProcessor : Processor Gateway where
  kind := "Gateway"
  cache := .new 0
  lastVersion := 0
  metadataFilter := none
  namespaceFilter := none
  maxTriggerCycles := 5

/-- A gateway of a class. -/
def gatewayOf (className : String) : Gateway := ⟨some "default", some "gw", className⟩

namespace ResourceController

/-- A gateway of the controller's class is cached. -/
theorem cacheAfter_eq_wanted_ourGateway : ∃ c, Runs (step (gatewayHandler (some "edgion")))
    (fun _ _ => True) (new gatewayProcessor ()) [.apply (gatewayOf "edgion")] c ∧
      c.cacheAfter (gatewayHandler (some "edgion")) "default/gw" none [] 1 "default/gw" =
        c.wanted (gatewayHandler (some "edgion")) "default/gw" none [] ∧
      c.wanted (gatewayHandler (some "edgion")) "default/gw" none [] =
        some (gatewayOf "edgion") := by
  have hreached : ∃ c, Runs (step (gatewayHandler (some "edgion"))) (fun _ _ => True)
      (new gatewayProcessor ()) [.apply (gatewayOf "edgion")] c ∧
      c.wanted (gatewayHandler (some "edgion")) "default/gw" none [] = some (gatewayOf "edgion") :=
    ⟨_, .cons trivial rfl (.nil _), by decide +kernel⟩
  obtain ⟨c, hrun, hwanted⟩ := hreached
  refine ⟨c, hrun, (cacheAfter_eq_wanted_iff gatewayProcessor () hrun _ _ _ _).2 ?_, hwanted⟩
  rw [hwanted]
  exact fun _ h => nomatch h

/-- **A gateway that changes to another class stays cached.** -/
theorem cacheAfter_keeps_otherClass : ∃ c, Runs (step (gatewayHandler (some "edgion")))
    (fun _ _ => True) (new gatewayProcessor ())
      [.initApply (gatewayOf "edgion") none 1, .apply (gatewayOf "other")] c ∧
      c.wanted (gatewayHandler (some "edgion")) "default/gw" none [] = none ∧
      c.cacheAfter (gatewayHandler (some "edgion")) "default/gw" none [] 2 "default/gw" =
        some (gatewayOf "edgion") := by
  refine ⟨_, .cons trivial rfl (.cons trivial rfl (.nil _)), ?_, ?_⟩
  · decide +kernel
  · decide +kernel

/-- A second gateway. -/
def gatewayB : Gateway := ⟨some "default", some "b", "edgion"⟩

/-- The work item of the second gateway saves it, and the first stays as it is. -/
theorem cacheAfter_of_ne_other : ∃ c : ResourceController Gateway Unit,
    c.cacheAfter (gatewayHandler none) "default/b" none [] 2 "default/b" = some gatewayB ∧
      c.cacheAfter (gatewayHandler none) "default/b" none [] 2 "default/gw" =
        c.processor.cache.data "default/gw" ∧
      c.processor.cache.data "default/gw" = some (gatewayOf "edgion") :=
  ⟨_, by decide +kernel, cacheAfter_of_ne gatewayProcessor () (.cons ⟨⟩ rfl (.cons ⟨⟩ rfl (.nil _)) :
    Runs _ _ _ [.initApply (gatewayOf "edgion") none 1, .apply gatewayB] _) (by decide) _ _ _, rfl⟩

/-- Two gateways are saved, and a watcher from the start is given both. -/
theorem getEvents_ordered_both : ∃ (c : ResourceController Gateway Unit)
    (e e' : WatcherEvent Gateway),
    c.processor.cache.getEventsFromSyncVersion 0 = .ok (2, some [e, e']) ∧
      [e, e'].Pairwise fun e e' => e.syncVersion < e'.syncVersion := by
  have hrun : ∃ c e e', Runs (step (gatewayHandler none)) (fun _ _ => True)
      (new gatewayProcessor ()) [.apply (gatewayOf "edgion"), .workItem "default/gw" none [] 1,
        .apply gatewayB, .workItem "default/b" none [] 2] c ∧
      c.processor.cache.getEventsFromSyncVersion 0 = .ok (2, some [e, e']) :=
    ⟨_, ⟨.update, 1, gatewayOf "edgion"⟩, ⟨.update, 2, gatewayB⟩,
      .cons ⟨⟩ rfl (.cons ⟨⟩ rfl (.cons ⟨⟩ rfl (.cons ⟨⟩ rfl (.nil _)))), rfl⟩
  obtain ⟨c, e, e', hrun, h⟩ := hrun
  exact ⟨c, e, e', h, (getEvents_ordered _ _ hrun h).1⟩

end ResourceController

end Edgion.Controller
