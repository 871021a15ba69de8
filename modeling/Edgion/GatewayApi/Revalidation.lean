import Edgion.Common.Steps
import Edgion.GatewayApi.HTTPRoute
import Edgion.Workqueue.OnWay

/-!
# Gateway API — revalidation of references when grants change

Two workers run side by side. The one for routes takes a route from its
queue, records the namespaces the route refers to, first clearing what it
had recorded before, then checks each reference against the store of
grants and marks it, and saves the route. The one for grants updates the
store, looks up which routes have recorded the namespaces that are
affected, requeues them and saves the grant. Each looks only after it has
published: the route is recorded before its checks, the store is updated
before the lookup. Between any two accesses the other worker, the queues
and new events may come in. The sets of affected namespaces and of their
referrers are lists here, gone through in their order.
-/

namespace Edgion.GatewayApi

open Workqueue Function

/-! ## Grants -/

namespace ReferenceGrant

variable (grant : ReferenceGrant)

def buildKey : String :=
  grant.ns.getD "default" ++ "/" ++ grant.name.getD ""

/-- The key of a grant in its queue and in the server cache. -/
def key : String :=
  match grant.ns with
  | some ns => ns ++ "/" ++ grant.name.getD ""
  | none => grant.name.getD ""

def identifyAffectedNamespaces : List String :=
  (grant.ns.toList ++ grant.from_.map ReferenceGrantFrom.ns).dedup

end ReferenceGrant

/-! ## The workers -/

/-- **Where the worker for routes is.** -/
inductive RouteWorker
  | idle
  | handedOut (key : String)
  /-- About to clear the references recorded for a route. -/
  | clearing (route : HTTPRoute)
  /-- With namespaces left to record. -/
  | adding (route : HTTPRoute) (todo : List String)
  /-- With references marked and references left to check. -/
  | checking (route : HTTPRoute) (done todo : List HTTPBackendRef)
  /-- About to clear the references recorded for a route that is gone. -/
  | deleting (cached : HTTPRoute)
  | removing (key : String)
deriving DecidableEq, Repr

/-- The route a worker is at, by key. -/
def RouteWorker.key? : RouteWorker → Option String
  | .idle => none
  | .handedOut key | .removing key => some key
  | .clearing route | .adding route _ | .checking route _ _ | .deleting route => some route.key

/-- **Where the worker for grants is.** -/
inductive GrantWorker
  | idle
  | handedOut (key : String)
  | upserting (grant : ReferenceGrant)
  | removing (cached : ReferenceGrant)
  /-- With namespaces left to look up, references left to requeue, the keys of
  those requeued already, and the grant, which is there or gone. -/
  | notifying (namespaces : List String) (refs : List ResourceRef) (requeued : List String)
      (grant : ReferenceGrant) (present : Bool)
deriving DecidableEq, Repr

/-- The controller, as far as routes and grants go: the objects as they are
outside, the server caches, the store of grants, the recorded references,
the queues and the workers. -/
structure Revalidation where
  routeObjects : String → Option HTTPRoute
  grantObjects : String → Option ReferenceGrant
  routes : String → Option HTTPRoute
  grants : String → Option ReferenceGrant
  store : ReferenceGrantStore
  refs : RefManager
  routeQueue : Queue
  grantQueue : Queue
  routeWorker : RouteWorker
  grantWorker : GrantWorker

/-- What can happen. -/
inductive RevalidationAct
  | setRoute (route : HTTPRoute) (id : ℕ)
  | deleteRoute (key : String) (id : ℕ)
  | setGrant (grant : ReferenceGrant) (id : ℕ)
  | deleteGrant (key : String) (id : ℕ)
  | routeQueue (act : Act)
  | grantQueue (act : Act)
  /-- The worker for routes makes its next access. -/
  | routeStep
  /-- The worker for grants does; a requeue is a task of its own. -/
  | grantStep (id : ℕ)

namespace Revalidation

/-- Before the first event. -/
def new : Revalidation where
  routeObjects := fun _ => none
  grantObjects := fun _ => none
  routes := fun _ => none
  grants := fun _ => none
  store := .new
  refs := .empty
  routeQueue := .new
  grantQueue := .new
  routeWorker := .idle
  grantWorker := .idle

variable (config : WorkqueueConfig) (s : Revalidation)

/-- The queue of routes makes a step. -/
def stepRouteQueue (act : Act) : Option Revalidation :=
  (s.routeQueue.step config act).map fun routeQueue => { s with routeQueue }

/-- The queue of grants makes a step. -/
def stepGrantQueue (act : Act) : Option Revalidation :=
  (s.grantQueue.step config act).map fun grantQueue => { s with grantQueue }

/-- What a queue does on its own. Its consumer is called by a worker that has
nothing to do. -/
def queueOwn (idle : Bool) : Act → Bool
  | .call _ _ | .finish => false
  | .dequeue => idle
  | _ => true

/-- `process_work_item` and `HttpRouteHandler`, one access at a time. -/
def stepRoute : Option Revalidation :=
  match s.routeWorker with
  | .idle =>
    match s.routeQueue.consumer with
    | .holding item =>
      (s.stepRouteQueue config .finish).map fun s => { s with routeWorker := .handedOut item.key }
    | _ => none
  | .handedOut key =>
    match s.routeObjects key, s.routes key with
    | some route, _ => some { s with routeWorker := .clearing route }
    | none, some cached => some { s with routeWorker := .deleting cached }
    | none, none => some { s with routeWorker := .idle }
  | .clearing route =>
    some { s with
      refs := RefManager.clearValueRefs s.refs route.resourceRef
      routeWorker := .adding route route.crossNamespaces }
  | .adding route (ns :: todo) =>
    some { s with
      refs := RefManager.addRef s.refs ns route.resourceRef
      routeWorker := .adding route todo }
  | .adding route [] => some { s with routeWorker := .checking route [] route.backendRefs }
  | .checking route done (backendRef :: todo) =>
    some { s with
      routeWorker := .checking route (done ++ [route.markDenied s.store backendRef]) todo }
  | .checking route done [] =>
    let route := { route with backendRefs := done }
    some { s with
      routes := update s.routes route.key (some route)
      routeWorker := .idle }
  | .deleting cached =>
    some { s with
      refs := RefManager.clearValueRefs s.refs cached.resourceRef
      routeWorker := .removing cached.key }
  | .removing key =>
    some { s with routes := update s.routes key none, routeWorker := .idle }

/-- `process_work_item`, `ReferenceGrantHandler` and
`on_reference_grant_changed`, one access at a time. -/
def stepGrant (id : ℕ) : Option Revalidation :=
  match s.grantWorker with
  | .idle =>
    match s.grantQueue.consumer with
    | .holding item =>
      (s.stepGrantQueue config .finish).map fun s => { s with grantWorker := .handedOut item.key }
    | _ => none
  | .handedOut key =>
    match s.grantObjects key, s.grants key with
    | some grant, _ => some { s with grantWorker := .upserting grant }
    | none, some cached => some { s with grantWorker := .removing cached }
    | none, none => some { s with grantWorker := .idle }
  | .upserting grant =>
    some { s with
      store := s.store.upsert grant.buildKey grant
      grantWorker := .notifying grant.identifyAffectedNamespaces [] [] grant true }
  | .removing cached =>
    some { s with
      store := s.store.remove cached.buildKey
      grantWorker := .notifying cached.identifyAffectedNamespaces [] [] cached false }
  | .notifying namespaces (ref :: refs) requeued grant present =>
    if ref.key ∈ requeued then
      some { s with grantWorker := .notifying namespaces refs requeued grant present }
    else
      (s.stepRouteQueue config (.call id (.enqueue ref.resourceKey))).map fun s =>
        { s with grantWorker := .notifying namespaces refs (ref.key :: requeued) grant present }
  | .notifying (ns :: namespaces) [] requeued grant present =>
    some { s with
      grantWorker := .notifying namespaces (RefManager.getRefs s.refs ns) requeued grant present }
  | .notifying [] [] _ grant present =>
    some { s with
      grants := update s.grants grant.key (if present then some grant else none)
      grantWorker := .idle }

/-- **A step.** An event changes an object and adds its key to the queue. -/
def step : RevalidationAct → Option Revalidation
  | .setRoute route id =>
    { s with routeObjects := update s.routeObjects route.key (some route) }.stepRouteQueue
      config (.call id (.enqueue route.key))
  | .deleteRoute key id =>
    { s with routeObjects := update s.routeObjects key none }.stepRouteQueue config
      (.call id (.enqueue key))
  | .setGrant grant id =>
    { s with grantObjects := update s.grantObjects grant.key (some grant) }.stepGrantQueue
      config (.call id (.enqueue grant.key))
  | .deleteGrant key id =>
    { s with grantObjects := update s.grantObjects key none }.stepGrantQueue config
      (.call id (.enqueue key))
  | .routeQueue act =>
    if queueOwn (s.routeWorker = .idle) act then s.stepRouteQueue config act else none
  | .grantQueue act =>
    if queueOwn (s.grantWorker = .idle) act then s.stepGrantQueue config act else none
  | .routeStep => s.stepRoute config
  | .grantStep id => s.stepGrant config id

/-- **All is drained**: both queues are empty and both workers idle. -/
structure Drained (s : Revalidation) : Prop where
  routeQueue : ∀ key, ¬ s.routeQueue.OnWay key
  grantQueue : ∀ key, ¬ s.grantQueue.OnWay key
  routeWorker : s.routeWorker = .idle
  grantWorker : s.grantWorker = .idle

/-- **References are marked as the grants say**: each reference of a stored
route to another namespace is marked denied if, and only if, no grant there
is permits it. -/
def MarkedRight : Prop :=
  ∀ key route, s.routes key = some route → ∀ backendRef ∈ route.backendRefs, ∀ ns,
    route.Crosses backendRef ns →
      (backendRef.refDenied.isSome ↔ ¬ ∃ key' grant, s.grantObjects key' = some grant ∧
        grant.Permits (route.reference backendRef ns))

end Revalidation

end Edgion.GatewayApi
