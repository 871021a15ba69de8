import Edgion.Common.Steps
import Edgion.GatewayApi.RouteHandlers
import Edgion.Workqueue.OnWay

/-!
# Gateway API — routes that follow their Gateways

A worker for Gateways and one for each kind of routes. The worker for a
route reads the Gateways from the server cache, works out the route's
hostnames and status, puts the route into the index, requeues the Gateways
it names if it attaches to them anew, and saves the route. The worker for
a Gateway compares the hostnames and the ports of its listeners with those
recorded for its key, requeues the routes that the index has for it if
they differ, and saves the Gateway. When a Gateway is gone, what is
recorded under another key is dropped and no route is requeued.

A worker makes an access at a time, and the other workers, the queues and
new events may come in between any two. What is left out here of a Gateway
is what neither function reads (the secrets and the status its handler
fills in), and of its handler what concerns conflicting Gateways. That
these, and other handlers, may requeue anything at any time is a call that
the queues allow.
-/

namespace Edgion.GatewayApi

open Workqueue Function

/-- What is fixed while the controller runs. -/
structure Setting where
  queue : WorkqueueConfig
  maxTriggerCycles : ℕ
  requeueDelay : ℕ
  gatewayClassName : Option String
  surroundings : Surroundings

universe u v

/-- **Where a worker is**: outside, with an item, with an object that is ready
to be published, or with requeues left before it writes the object or
removes it. The chain is that of the handler's context. -/
inductive Phase (K : Type u) (T : Type v)
  | idle
  | handedOut (key : String) (chain : TriggerChain)
  | rendered (obj : K) (chain : TriggerChain)
  | requeueing (key : String) (outcome : Option K) (todo : List T) (chain : TriggerChain)

namespace Phase

variable {K : Type u} {T : Type v}

/-- Whether a worker is outside. -/
def isIdle : Phase K T → Bool
  | .idle => true
  | _ => false

theorem isIdle_iff {p : Phase K T} : p.isIdle ↔ p = .idle := by
  cases p <;> simp [isIdle]

/-- What a worker has left to requeue. -/
def todo : Phase K T → List T
  | .requeueing _ _ todo _ => todo
  | _ => []

end Phase

/-- The key of a Gateway in its queue and in the server cache. -/
def Gateway.key (g : Gateway) : String := (GatewayHandler.resourceRef g).resourceKey

/-- The entry of a route in the tables of its handler. -/
def routeEntry (kind : RouteKind) (route : Route) : RouteEntry :=
  ⟨kind, route.routeNs ++ "/" ++ route.name.getD ""⟩

/-- The controller, as far as Gateways and routes go: the objects as they are
outside, the server caches, the index, the tracker, the queues and the
workers. -/
structure Following where
  gatewayObjects : String → Option Gateway
  routeObjects : RouteKind → String → Option Route
  gateways : GatewayTable
  routes : RouteKind → String → Option Route
  index : GatewayRouteIndex
  tracker : AttachedRouteTracker
  gatewayQueue : Queue
  routeQueues : RouteKind → Queue
  gatewayWorker : Phase Gateway RouteEntry
  routeWorkers : RouteKind → Phase Route String

/-- What can happen. -/
inductive FollowingAct
  | setGateway (g : Gateway) (id : ℕ)
  | deleteGateway (key : String) (id : ℕ)
  | setRoute (kind : RouteKind) (route : Route) (id : ℕ)
  | deleteRoute (kind : RouteKind) (key : String) (id : ℕ)
  /-- A queue makes a step of its own, or somebody else calls it. -/
  | gatewayQueue (act : Act)
  | routeQueue (kind : RouteKind) (act : Act)
  /-- A worker makes its next access; a requeue is a task of its own. -/
  | gatewayStep (id : ℕ)
  | routeStep (kind : RouteKind) (id : ℕ)

namespace Following

/-- Before the first event. -/
def new : Following where
  gatewayObjects := fun _ => none
  routeObjects := fun _ _ => none
  gateways := ∅
  routes := fun _ _ => none
  index := .new
  tracker := fun _ => none
  gatewayQueue := .new
  routeQueues := fun _ => .new
  gatewayWorker := .idle
  routeWorkers := fun _ => .idle

/-! ## Handlers -/

variable (index : GatewayRouteIndex) (g : Gateway)

/-- `GatewayHandler::on_change`, for the index: what is recorded afterwards,
and the routes to requeue. -/
def onGatewayChange : GatewayRouteIndex × List RouteEntry :=
  let key := GatewayHandler.gatewayKey g
  let (hostnamesChanged, index) :=
    index.updateGatewayHostnames key (g.listenerList.filterMap Listener.hostname)
  let (portsChanged, index) := index.updateGatewayPorts key (g.listenerList.map Listener.port)
  (index, if hostnamesChanged || portsChanged then index.getRoutesForGateway key else [])

/-- `GatewayHandler::on_delete`, for the index. -/
def onGatewayDelete : GatewayRouteIndex :=
  let key := (GatewayHandler.resourceRef g).key
  (index.removeGatewayHostnames key).removeGatewayPorts key

variable (route : Route)

/-- The Gateways that `requeue_parent_gateways` names. -/
def parentGateways : List String :=
  ((route.parentRefs.getD []).filter Hostname.ParentReference.isGateway).map fun pr =>
    buildParentKey pr route.routeNs

/-- The attachments that `update_attached_route_tracker` records. -/
def attachments (parentRefs : List Hostname.ParentReference) : Finset Attachment :=
  ((parentRefs.filter Hostname.ParentReference.isGateway).map fun pr =>
    ⟨pr.ns.getD route.routeNs ++ "/" ++ pr.name, pr.sectionName.getD ""⟩).toFinset

def updateAttachedRouteTracker (tracker : AttachedRouteTracker) (entry : RouteEntry)
    (route : Route) : Bool × AttachedRouteTracker :=
  match route.parentRefs with
  | none => tracker.removeRoute entry
  | some parentRefs => tracker.updateRoute entry (attachments route parentRefs)

variable (kind : RouteKind)

/-- `update_gateway_route_index`, for the kinds that are indexed. -/
def updateRouteIndex (route : Route) :
    GatewayRouteIndex :=
  if kind.indexed then
    index.updateRoute (routeEntry kind route) (route.parentRefs.getD []) route.routeNs
  else index

/-- `remove_from_gateway_route_index`, for the kinds that are indexed. -/
def removeRouteIndex (route : Route) :
    GatewayRouteIndex :=
  if kind.indexed then index.removeRoute (routeEntry kind route) else index

/-! ## Steps -/

variable (setting : Setting) (s : Following)

/-- The queue of Gateways makes a step. -/
def stepGatewayQueue (act : Act) : Option Following :=
  (s.gatewayQueue.step setting.queue act).map fun gatewayQueue => { s with gatewayQueue }

/-- The queue of a kind of routes makes a step. -/
def stepRouteQueue (kind : RouteKind) (act : Act) : Option Following :=
  ((s.routeQueues kind).step setting.queue act).map fun q =>
    { s with routeQueues := update s.routeQueues kind q }

/-- What a queue does while its worker is outside, or not. -/
def queueOwn (idle : Bool) : Act → Bool
  | .finish => false
  | .dequeue => idle
  | _ => true

/-- The call of `requeue_with_chain`. -/
def requeueCall (id : ℕ) (key : String) (chain : TriggerChain) : Act :=
  .call id (.enqueueAfter key setting.requeueDelay chain)

/-- `process_work_item` and `GatewayHandler`, one access at a time. -/
def stepGateway (id : ℕ) : Option Following :=
  match s.gatewayWorker with
  | .idle =>
    match s.gatewayQueue.consumer with
    | .holding item =>
      (s.stepGatewayQueue setting .finish).map fun s =>
        { s with gatewayWorker := .handedOut item.key (item.triggerChain.extend "Gateway" item.key) }
    | _ => none
  | .handedOut key chain =>
    match s.gatewayObjects key, s.gateways.lookup key with
    | some g, _ =>
      if GatewayHandler.filter setting.gatewayClassName g then
        some { s with gatewayWorker := .rendered g chain }
      else some { s with gatewayWorker := .idle }
    | none, some cached =>
      some { s with
        index := onGatewayDelete s.index cached
        gatewayWorker := .requeueing cached.key none [] chain }
    | none, none => some { s with gatewayWorker := .idle }
  | .rendered g chain =>
    let (index, todo) := onGatewayChange s.index g
    some { s with index, gatewayWorker := .requeueing g.key (some g) todo chain }
  | .requeueing key outcome (entry :: todo) chain =>
    if chain.wouldExceedCycleLimit entry.kind.asStr entry.key setting.maxTriggerCycles then
      some { s with gatewayWorker := .requeueing key outcome todo chain }
    else
      (s.stepRouteQueue setting entry.kind (requeueCall setting id entry.key chain)).map fun s =>
        { s with gatewayWorker := .requeueing key outcome todo chain }
  | .requeueing key (some g) [] _ =>
    some { s with gateways := s.gateways.insert key g, gatewayWorker := .idle }
  | .requeueing key none [] _ =>
    some { s with gateways := s.gateways.erase key, gatewayWorker := .idle }

/-- `process_work_item` and the handler of a kind of routes, one access at a
time. While no Gateway is in work, all lookups of one rendering see the same
Gateways; they are one access here. -/
def stepRoute (kind : RouteKind) (id : ℕ) : Option Following :=
  let goOn (s : Following) (worker : Phase Route String) : Following :=
    { s with routeWorkers := update s.routeWorkers kind worker }
  match s.routeWorkers kind with
  | .idle =>
    match (s.routeQueues kind).consumer with
    | .holding item =>
      (s.stepRouteQueue setting kind .finish).map fun s =>
        goOn s (.handedOut item.key (item.triggerChain.extend kind.asStr item.key))
    | _ => none
  | .handedOut key chain =>
    match s.routeObjects kind key, s.routes kind key with
    | some route, _ =>
      let rendered := kind.render setting.surroundings (GatewayTable.list s.gateways) route
      some (goOn s (.rendered rendered chain))
    | none, some cached =>
      let (trackerChanged, tracker) := s.tracker.removeRoute (routeEntry kind cached)
      let todo := if trackerChanged then parentGateways cached else []
      some (goOn { s with index := removeRouteIndex s.index kind cached, tracker }
        (.requeueing cached.key none todo chain))
    | none, none => some (goOn s .idle)
  | .rendered route chain =>
    let (trackerChanged, tracker) :=
      updateAttachedRouteTracker s.tracker (routeEntry kind route) route
    let todo := if trackerChanged then parentGateways route else []
    some (goOn { s with index := updateRouteIndex s.index kind route, tracker }
      (.requeueing route.key (some route) todo chain))
  | .requeueing key outcome (gatewayKey :: todo) chain =>
    if chain.wouldExceedCycleLimit "Gateway" gatewayKey setting.maxTriggerCycles then
      some (goOn s (.requeueing key outcome todo chain))
    else
      (s.stepGatewayQueue setting (requeueCall setting id gatewayKey chain)).map fun s =>
        goOn s (.requeueing key outcome todo chain)
  | .requeueing key outcome [] _ =>
    some (goOn { s with
      routes := update s.routes kind (update (s.routes kind) key outcome) } .idle)

/-- **A step.** An event changes an object and adds its key to the queue. -/
def step : FollowingAct → Option Following
  | .setGateway g id =>
    { s with gatewayObjects := update s.gatewayObjects g.key (some g) }.stepGatewayQueue
      setting (.call id (.enqueue g.key))
  | .deleteGateway key id =>
    { s with gatewayObjects := update s.gatewayObjects key none }.stepGatewayQueue setting
      (.call id (.enqueue key))
  | .setRoute kind route id =>
    { s with
      routeObjects := update s.routeObjects kind
        (update (s.routeObjects kind) route.key (some route)) }.stepRouteQueue setting kind
      (.call id (.enqueue route.key))
  | .deleteRoute kind key id =>
    { s with
      routeObjects := update s.routeObjects kind
        (update (s.routeObjects kind) key none) }.stepRouteQueue setting kind
      (.call id (.enqueue key))
  | .gatewayQueue act =>
    if queueOwn s.gatewayWorker.isIdle act then s.stepGatewayQueue setting act else none
  | .routeQueue kind act =>
    if queueOwn (s.routeWorkers kind).isIdle act then s.stepRouteQueue setting kind act else none
  | .gatewayStep id => s.stepGateway setting id
  | .routeStep kind id => s.stepRoute setting kind id

/-- **All is drained**: all queues are empty and all workers idle. -/
structure Drained (s : Following) : Prop where
  gatewayQueue : ∀ key, ¬ s.gatewayQueue.OnWay key
  routeQueues : ∀ kind key, ¬ (s.routeQueues kind).OnWay key
  gatewayWorker : s.gatewayWorker.isIdle = true
  routeWorkers : ∀ kind, (s.routeWorkers kind).isIdle = true

/-- The Gateways as they will be when the worker is done with the one it has
published. -/
def coming : GatewayTable :=
  match s.gatewayWorker with
  | .requeueing key (some g) _ _ => s.gateways.insert key g
  | .requeueing key none _ _ => s.gateways.erase key
  | _ => s.gateways

/-- **All routes follow the Gateways.** -/
def AllFollow : Prop :=
  ∀ kind key route, s.routes kind key = some route →
    kind.Follows setting.surroundings (GatewayTable.list s.gateways) route

end Following

end Edgion.GatewayApi
