import Edgion.GatewayApi.Following

/-!
# Following — what holds in every run

Each stored route follows the Gateways as they are about to be, or is on
its way through its queue, or is on the list of the worker for Gateways.
It is in the index under every Gateway it names, so that a Gateway whose
recorded hostnames or ports change finds it. That a Gateway's change is
seen in these two lists, and that a route and a Gateway are not in work at
the same time, is what a step has to meet.
-/

namespace Edgion.GatewayApi

open Workqueue ResourceRef
open Common (TwoWayIndex)
open AList Function

/-! ## Keys -/

open GatewayHandler

theorem Gateway.gatewayKey_eq {g : Gateway} (h : g.ns.isSome) : gatewayKey g = g.key := by
  obtain ⟨ns, hns⟩ := Option.isSome_iff_exists.1 h
  simp [gatewayKey, Gateway.key, resourceRef, resourceKey, hns]

theorem routeEntry_eq {kind : RouteKind} {route : Route} (h : route.ns.isSome) :
    routeEntry kind route = ⟨kind, route.key⟩ := by
  obtain ⟨ns, hns⟩ := Option.isSome_iff_exists.1 h
  simp [routeEntry, HTTPRoute.routeNs, HTTPRoute.key, HTTPRoute.resourceRef, resourceKey, hns]

namespace Following

variable {setting : Setting} {s : Following} {index : GatewayRouteIndex} {kind : RouteKind}
  {key : String} {route : Route} {g : Gateway} {id : ℕ}

/-! ## The condition on a step -/

/-- **What is recorded for a Gateway differs** from its listeners: the sorted
hostnames, or the sorted ports. -/
def RecordsDiffer (index : GatewayRouteIndex) (g : Gateway) : Prop :=
  index.gatewayHostnames (gatewayKey g) ≠
      some ((g.listenerList.filterMap Listener.hostname).insertionSort (· ≤ ·)) ∨
    index.gatewayPorts (gatewayKey g) ≠
      some ((g.listenerList.map Listener.port).insertionSort (· ≤ ·))

/-- The functions return the same for a route whether a Gateway is replaced
or not. -/
def Unmoved (setting : Setting) (s : Following) (table : GatewayTable) (kind : RouteKind)
    (route : Route) : Prop :=
  kind.findings setting.surroundings (GatewayTable.list table) route =
    kind.findings setting.surroundings (GatewayTable.list s.gateways) route

/-- **The condition on a step.** Gateways and routes have a namespace, and the
parents of a route are told apart by its status. No route is taken up while
a Gateway is in work, nor the other way round. When a Gateway goes, the
functions return the same for the stored routes that name it. When it
comes or changes, they do, or the route is of an indexed kind, the recorded
hostnames or ports differ and the cycle limit lets the requeue pass. -/
def Proper (setting : Setting) (s : Following) : FollowingAct → Prop
  | .setGateway g _ => g.ns.isSome
  | .setRoute _ route _ => route.ns.isSome ∧ PlacesTold (route.parentRefs.getD []) route.parents
  | .routeStep kind _ => (s.routeWorkers kind).isIdle = true → s.gatewayWorker.isIdle = true
  | .gatewayStep _ =>
    match s.gatewayWorker with
    | .idle => ∀ kind, (s.routeWorkers kind).isIdle = true
    | .handedOut gatewayKey _ => s.gatewayObjects gatewayKey = none →
      ∀ kind key route, s.routes kind key = some route → References route gatewayKey →
        Unmoved setting s (s.gateways.erase gatewayKey) kind route
    | .rendered g chain =>
      ∀ kind key route, s.routes kind key = some route → References route g.key →
        Unmoved setting s (s.gateways.insert g.key g) kind route ∨
          (kind.indexed = true ∧ RecordsDiffer s.index g ∧
            chain.wouldExceedCycleLimit kind.asStr key setting.maxTriggerCycles = false)
    | .requeueing _ _ _ _ => True
  | _ => True

/-! ## The index -/

open GatewayRouteIndex

theorem routes_onGatewayChange : (onGatewayChange index g).1.routes = index.routes := by
  simp only [onGatewayChange, updateGatewayHostnames, updateGatewayPorts]
  split_ifs <;> rfl

/-- **A Gateway whose records differ requeues the routes of the index.** -/
theorem todo_onGatewayChange (h : RecordsDiffer index g) :
    (onGatewayChange index g).2 = index.routes.forward (gatewayKey g) := by
  simp only [onGatewayChange, updateGatewayHostnames, updateGatewayPorts, getRoutesForGateway]
  rcases h with h | h <;> split_ifs <;> simp_all

/-- **A route is in the index** under the Gateways it names, if its kind is
indexed. -/
def Indexed (index : GatewayRouteIndex) (kind : RouteKind) (route : Route) : Prop :=
  kind.indexed = true → ∀ gatewayKey, References route gatewayKey →
    routeEntry kind route ∈ index.routes.forward gatewayKey

theorem indexed_updateRouteIndex : Indexed (updateRouteIndex index kind route) kind route := by
  intro hidx gatewayKey hrefs
  simp only [updateRouteIndex, hidx, if_true, updateRoute]
  refine TwoWayIndex.mem_forward_linkAll.2 (.inl ?_)
  exact List.mem_map.2 ⟨gatewayKey, hrefs, rfl⟩

variable {entry : RouteEntry} {gatewayKey : String}

/-- Other routes stay where they are. -/
theorem mem_updateRouteIndex
    (hne : entry ≠ routeEntry kind route) (h : entry ∈ index.routes.forward gatewayKey) :
    entry ∈ (updateRouteIndex index kind route).routes.forward gatewayKey := by
  unfold updateRouteIndex
  split
  · refine TwoWayIndex.mem_forward_linkAll.2 (.inr ?_)
    exact TwoWayIndex.mem_forward_unlink.2 ⟨h, fun hunlinked => hne (by simpa using hunlinked.2)⟩
  · exact h

theorem mem_removeRouteIndex
    (hne : entry ≠ routeEntry kind route) (h : entry ∈ index.routes.forward gatewayKey) :
    entry ∈ (removeRouteIndex index kind route).routes.forward gatewayKey := by
  unfold removeRouteIndex
  split
  · exact TwoWayIndex.mem_forward_unlink.2 ⟨h, fun hunlinked => hne (by simpa using hunlinked.2)⟩
  · exact h

/-! ## The invariant -/

/-- The route a worker is at, by key. -/
def routeAt : Phase Route String → Option String
  | .idle => none
  | .handedOut key _ | .requeueing key _ _ _ => some key
  | .rendered route _ => some route.key

/-- **A route is to be processed again**: it is on its way, or on the list of
the worker for Gateways, and the cycle limit lets it pass. -/
def Owed (setting : Setting) (s : Following) (kind : RouteKind) (key : String) : Prop :=
  (s.routeQueues kind).OnWay key ∨ ∃ gatewayKey outcome todo chain,
    s.gatewayWorker = .requeueing gatewayKey outcome todo chain ∧ ⟨kind, key⟩ ∈ todo ∧
      chain.wouldExceedCycleLimit kind.asStr key setting.maxTriggerCycles = false

/-- **A route follows the Gateways to come, or is to be processed again.** -/
def FollowsOrOwed (setting : Setting) (s : Following) (kind : RouteKind) (key : String)
    (route : Route) : Prop :=
  kind.Follows setting.surroundings (GatewayTable.list s.coming) route ∨ Owed setting s kind key

/-- What holds of the Gateway its worker is at. -/
def AtGateway (s : Following) : Prop :=
  match s.gatewayWorker with
  | .rendered g _ => g.ns.isSome
  | .requeueing key (some g) _ _ => g.key = key ∧ g.ns.isSome
  | _ => True

/-- The Gateways to come are kept under their names too. -/
theorem coming_keyed (hgateways : GatewayTable.Keyed s.gateways) (hat : s.AtGateway) :
    GatewayTable.Keyed s.coming := by
  unfold coming AtGateway at *
  split
  · next key g todo chain hwk =>
    simp only [hwk] at hat
    intro key' g' hget
    obtain ⟨rfl, rfl⟩ | ⟨-, hget⟩ := Common.lookup_insert_eq_some_iff.1 hget
    · exact ⟨hat.2, (Gateway.gatewayKey_eq hat.2).trans hat.1⟩
    · exact hgateways key' g' hget
  · next key todo chain hwk =>
    intro key' g' hget
    exact hgateways key' g' (Common.lookup_erase_eq_some_iff.1 hget).2
  · exact hgateways

/-- The Gateways to come differ in the one that is published. -/
theorem lookup_coming {outcome : Option Gateway} {todo : List RouteEntry} {chain : TriggerChain}
    (hwk : s.gatewayWorker = .requeueing key outcome todo chain) {key' : String}
    (hne : key' ≠ key) : s.coming.lookup key' = s.gateways.lookup key' := by
  cases outcome with
  | none => simpa only [coming, hwk] using lookup_erase_ne hne
  | some g => simpa only [coming, hwk] using lookup_insert_ne hne

/-- What holds of the route a worker is at. -/
def AtRoute (setting : Setting) (s : Following) (kind : RouteKind) : Prop :=
  match s.routeWorkers kind with
  | .rendered route _ => route.ns.isSome ∧
    kind.Follows setting.surroundings (GatewayTable.list s.gateways) route
  | .requeueing key (some route) _ _ => (route.key = key ∧ route.ns.isSome) ∧
    Indexed s.index kind route ∧
    kind.Follows setting.surroundings (GatewayTable.list s.gateways) route
  | _ => True

/-- **What holds in every run.** -/
structure Sound (setting : Setting) (s : Following) : Prop where
  gatewayObjects : ∀ key g, s.gatewayObjects key = some g → g.key = key ∧ g.ns.isSome
  gateways : GatewayTable.Keyed s.gateways
  gatewayWorker : s.AtGateway
  routeQueues : ∀ kind, (s.routeQueues kind).Marked setting.queue
  routeObjects : ∀ kind key route, s.routeObjects kind key = some route →
    (route.key = key ∧ route.ns.isSome) ∧ PlacesTold (route.parentRefs.getD []) route.parents
  cached : ∀ kind key route, s.routes kind key = some route → route.key = key ∧ route.ns.isSome
  exclusive : s.gatewayWorker.isIdle = true ∨ ∀ kind, (s.routeWorkers kind).isIdle = true
  routeWorkers : ∀ kind, AtRoute setting s kind
  stored : ∀ kind key route, s.routes kind key = some route → routeAt (s.routeWorkers kind) ≠ some key →
    Indexed s.index kind route ∧ FollowsOrOwed setting s kind key route

namespace Sound

theorem new : (new : Following).Sound setting where
  gatewayObjects _ _ h := nomatch h
  gateways _ _ h := by simp [Following.new] at h
  gatewayWorker := trivial
  routeQueues _ := .new
  routeObjects _ _ _ h := nomatch h
  cached _ _ _ h := nomatch h
  exclusive := .inl rfl
  routeWorkers _ := trivial
  stored _ _ _ h := nomatch h

/-- Where nobody works on a route, nothing is to be said of it. -/
theorem atRoute_of_idle (h : (s.routeWorkers kind).isIdle) : AtRoute setting s kind := by
  rw [Phase.isIdle_iff] at h
  simp only [AtRoute, h]

/-! ## Events and queues -/

section

variable (h : s.Sound setting)

include h

variable {act : Act} {q : Queue}

variable (hstep : (s.routeQueues kind).step setting.queue act = some q)

include hstep

/-- A step of a queue that hands nothing out keeps what is on its way. -/
theorem onWay_update (hact : act ≠ .finish)
    {kind' : RouteKind} (honWay : (s.routeQueues kind').OnWay key) :
    (update s.routeQueues kind q kind').OnWay key := by
  by_cases hkind : kind' = kind
  · subst hkind
    rw [update_self]
    exact (honWay.step (h.routeQueues kind') hstep).resolve_right fun hout => hact hout.1
  · rwa [update_of_ne hkind]

theorem marked_update (kind' : RouteKind) :
    (update s.routeQueues kind q kind').Marked setting.queue := by
  by_cases hkind : kind' = kind
  · subst hkind
    rw [update_self]
    exact (h.routeQueues kind').step hstep
  · rw [update_of_ne hkind]
    exact h.routeQueues kind'

/-- What holds of the object of a key. -/
abbrev Fitting (key : String) (object : Option Route) : Prop :=
  ∀ route, object = some route →
    (route.key = key ∧ route.ns.isSome) ∧ PlacesTold (route.parentRefs.getD []) route.parents

/-- A step of a queue of routes that hands nothing out. -/
theorem stepRouteQueue {routeObjects : RouteKind → String → Option Route}
    (hobjects : ∀ kind key, Fitting key (routeObjects kind key))
    (hact : act ≠ .finish) :
    ({ s with
      routeObjects
      routeQueues := update s.routeQueues kind q } : Following).Sound setting :=
  { h with
    routeQueues := h.marked_update hstep
    routeObjects := hobjects
    stored := fun kind' key route hroute hnot => by
      obtain ⟨hidx, hfollows | honWay | howed⟩ := h.stored kind' key route hroute hnot
      · exact ⟨hidx, .inl hfollows⟩
      · exact ⟨hidx, .inr (.inl (h.onWay_update hstep hact honWay))⟩
      · exact ⟨hidx, .inr (.inr howed)⟩ }

omit hstep in
/-- **An event** changes the object of a route. -/
theorem routeEvent {object : Option Route} (hobj : Fitting key object)
    (hstep : (s.routeQueues kind).step setting.queue (.call id (.enqueue key)) = some q) :
    ({ s with
      routeObjects := update s.routeObjects kind (update (s.routeObjects kind) key object)
      routeQueues := update s.routeQueues kind q } : Following).Sound setting := by
  refine h.stepRouteQueue hstep ?_ Act.noConfusion
  refine (forall_update_iff s.routeObjects fun _ objects => ∀ key, Fitting key (objects key)).2
    ⟨?_, fun kind' _ => h.routeObjects kind'⟩
  exact (forall_update_iff (s.routeObjects kind) Fitting).2
    ⟨hobj, fun key _ => h.routeObjects kind key⟩

end

/-! ## The worker for Gateways -/

end Sound

end Following

end Edgion.GatewayApi
