import Edgion.GatewayApi.RouteStatus

/-!
# Gateway API — the handlers of routes

The handlers of the five kinds of routes do the same but for a few
branches: only HTTP and gRPC routes have their hostnames resolved, only
those two and TLS routes are told apart by hostname and kept in the index
of routes by Gateway. What a handler finds out about a route depends on
the Gateways the route names, and on nothing else of the table of
Gateways.
-/

namespace Edgion.GatewayApi

open Hostname (ParentReference resolveEffectiveHostnames)
open List Option

/-- A route of any kind. The kinds differ in their rules, of which the
backend references are all that counts here; TCP and UDP routes have no
hostnames. -/
abbrev Route := HTTPRoute

/-- What handlers of routes read besides Gateways: the labels of namespaces,
the Services there are, and the grants. -/
structure Surroundings where
  namespaces : NamespaceStore
  serviceExists : String → String → Bool
  grants : ReferenceGrantStore

/-- Nothing but Gateways. -/
def onlyGateways : Surroundings := ⟨fun _ => none, fun _ _ => false, .new⟩

namespace RouteKind

/-- Whether `parse` resolves the hostnames of a route. -/
def resolves : RouteKind → Bool
  | .httpRoute | .grpcRoute => true
  | .tlsRoute | .tcpRoute | .udpRoute => false

/-- Whether `on_change` keeps a route in the index. -/
def indexed : RouteKind → Bool
  | .httpRoute | .grpcRoute | .tlsRoute => true
  | .tcpRoute | .udpRoute => false

/-- The hostnames `update_status` has checked. -/
def statusHostnames (kind : RouteKind) (route : Route) : Option (List String) :=
  match kind with
  | .httpRoute | .grpcRoute | .tlsRoute => route.hostnames
  | .tcpRoute | .udpRoute => none

/-- `parse`, for one backend reference. -/
def markDenied (kind : RouteKind) (grants : ReferenceGrantStore) (route : Route)
    (backendRef : HTTPBackendRef) : HTTPBackendRef :=
  match backendRef.ns with
  | some ns =>
    if ns ≠ route.routeNs then
      if grants.checkReferenceAllowed
          { route.reference backendRef ns with fromKind := kind.asStr } then
        { backendRef with refDenied := none }
      else
        { backendRef with
          refDenied := some ⟨ns, backendRef.name, some "NoMatchingReferenceGrant"⟩ }
    else { backendRef with refDenied := none }
  | none => { backendRef with refDenied := none }

variable (kind : RouteKind) (surroundings : Surroundings) (gateways : List Gateway) (route : Route)

/-- `resolve_effective_hostnames`, as `parse` calls it. -/
def resolvedHostnames (parentRefs : List ParentReference) : List String :=
  (resolveEffectiveHostnames (gateways.map Gateway.toHostname) route.hostnames parentRefs
    route.routeNs).hostnames

def parse : Route :=
  let route :=
    match route.parentRefs with
    | some parentRefs =>
      if kind.resolves then
        let hostnames := resolvedHostnames gateways route parentRefs
        { route with resolvedHostnames := if hostnames = [] then none else some hostnames }
      else route
    | none => route
  { route with backendRefs := route.backendRefs.map (kind.markDenied surroundings.grants route) }

/-- `validate_parent_ref_accepted`, as `update_status` calls it. -/
def acceptedErrors (pr : ParentReference) : List AcceptedError :=
  validateParentRefAccepted surroundings.namespaces gateways route.routeNs pr
    (kind.statusHostnames route)

def updateStatus : Route :=
  match route.parentRefs with
  | some parentRefs =>
    let resolvedRefsErrors :=
      validateBackendRefs surroundings.serviceExists route.routeNs route.backendRefs ++
        collectRefDeniedErrors route.backendRefs
    { route with
      parents := updateParentStatuses (kind.acceptedErrors surroundings gateways route)
        resolvedRefsErrors parentRefs route.parents }
  | none => route

/-- A route as it is saved. -/
def render : Route :=
  kind.updateStatus surroundings gateways (kind.parse surroundings gateways route)

/-! ## What depends on the Gateways -/

/-- **What the two functions return for a route**: its effective hostnames,
where the kind has them, and for each parent what stands against it. -/
def findings : List String × List (List AcceptedError) :=
  let parentRefs := route.parentRefs.getD []
  (if kind.resolves then resolvedHostnames gateways route parentRefs else [],
    parentRefs.map (kind.acceptedErrors surroundings gateways route))

/-- **A route follows the Gateways**: its resolved hostnames, and the
`Accepted` condition of each of its parents, are what the two functions
return. -/
def Follows : Prop :=
  ∀ parentRefs, route.parentRefs = some parentRefs →
    let (hostnames, errors) := kind.findings surroundings gateways route
    (kind.resolves = true →
      route.resolvedHostnames = if hostnames = [] then none else some hostnames) ∧
    parentRefs.map (acceptedOf route.parents) = errors.map fun e => some (acceptedCondition e)

end RouteKind

variable {kind : RouteKind} {surroundings : Surroundings} {gateways gateways' : List Gateway}
  {route : Route}

/-- Two versions of a route that the functions do not tell apart. -/
structure SameSpec (a b : Route) : Prop where
  ns : a.ns = b.ns
  name : a.name = b.name
  parentRefs : a.parentRefs = b.parentRefs
  hostnames : a.hostnames = b.hostnames

variable {a b : Route}

theorem SameSpec.trans {c : Route} (hab : SameSpec a b) (hbc : SameSpec b c) : SameSpec a c :=
  ⟨hab.ns.trans hbc.ns, hab.name.trans hbc.name, hab.parentRefs.trans hbc.parentRefs,
    hab.hostnames.trans hbc.hostnames⟩

theorem SameSpec.routeNs (h : SameSpec a b) : a.routeNs = b.routeNs := by
  rw [HTTPRoute.routeNs, HTTPRoute.routeNs, h.ns]

theorem SameSpec.key (h : SameSpec a b) : a.key = b.key := by
  rw [HTTPRoute.key, HTTPRoute.key, HTTPRoute.resourceRef, HTTPRoute.resourceRef, h.ns, h.name]

theorem SameSpec.acceptedErrors (h : SameSpec a b) :
    kind.acceptedErrors surroundings gateways a = kind.acceptedErrors surroundings gateways b := by
  have hstat : kind.statusHostnames a = kind.statusHostnames b := by
    cases kind <;> first | exact h.hostnames | rfl
  funext pr
  rw [RouteKind.acceptedErrors, RouteKind.acceptedErrors, h.routeNs, hstat]

theorem SameSpec.findings (h : SameSpec a b) :
    kind.findings surroundings gateways a = kind.findings surroundings gateways b := by
  simp only [RouteKind.findings, RouteKind.resolvedHostnames, h.parentRefs, h.hostnames, h.routeNs,
    h.acceptedErrors]

open RouteKind

theorem sameSpec_parse : SameSpec (kind.parse surroundings gateways route) route := by
  unfold parse
  split
  · split <;> exact ⟨rfl, rfl, rfl, rfl⟩
  · exact ⟨rfl, rfl, rfl, rfl⟩

theorem sameSpec_updateStatus : SameSpec (kind.updateStatus surroundings gateways route) route := by
  unfold updateStatus
  split <;> exact ⟨rfl, rfl, rfl, rfl⟩

/-- Handlers keep what the functions read. -/
theorem sameSpec_render : SameSpec (kind.render surroundings gateways route) route :=
  sameSpec_updateStatus.trans sameSpec_parse

theorem parents_parse : (kind.parse surroundings gateways route).parents = route.parents := by
  unfold parse
  split
  · split <;> rfl
  · rfl

/-- **A route that is just rendered follows the Gateways.** -/
theorem follows_render (h : PlacesTold (route.parentRefs.getD []) route.parents) :
    kind.Follows surroundings gateways (kind.render surroundings gateways route) := by
  intro parentRefs hrefs
  rw [sameSpec_render.parentRefs] at hrefs
  rw [sameSpec_render.findings]
  rw [hrefs, getD_some] at h
  refine ⟨fun hresolves => ?_, ?_⟩
  · simp only [render, updateStatus, parse, hrefs, hresolves, if_true, getD_some]
  · have hparse : (kind.parse surroundings gateways route).parentRefs = some parentRefs := by
      rw [sameSpec_parse.parentRefs, hrefs]
    simp only [render, updateStatus, hparse, hrefs, getD_some,
      List.map_map, parents_parse, sameSpec_parse.acceptedErrors]
    exact List.map_congr_left fun pr hpr => acceptedOf_updateParentStatuses h hpr

/-- Whether a route follows depends on what the functions return. -/
theorem RouteKind.Follows.congr (h : kind.Follows surroundings gateways route)
    (hsame : kind.findings surroundings gateways' route =
      kind.findings surroundings gateways route) :
    kind.Follows surroundings gateways' route := by
  intro parentRefs hrefs
  rw [hsame]
  exact h parentRefs hrefs

/-! ## The table of Gateways -/

/-- The server cache of Gateways. -/
abbrev GatewayTable := AList fun _ : String => Gateway

variable (table : GatewayTable)

/-- The Gateways of a table, as the registry lists them. -/
def GatewayTable.list : List Gateway := table.entries.map Sigma.snd

/-- **Gateways are kept under their names**, and all have a namespace. -/
def GatewayTable.Keyed : Prop :=
  ∀ key g, table.lookup key = some g → g.ns.isSome ∧ GatewayHandler.gatewayKey g = key

open GatewayTable

/-- **The lookup of a Gateway** asks the table for its key. -/
theorem GatewayTable.Keyed.lookupGateway_eq {table : GatewayTable} (h : table.Keyed)
    (ns name : String) :
    lookupGateway (list table) ns name =
      (table.lookup (ns ++ "/" ++ name)).filter fun g =>
        g.ns.getD "default" = ns && g.name.getD "" = name := by
  have hmem (g : Gateway) : g ∈ list table ↔ ∃ key, table.lookup key = some g := by
    simp only [list, List.mem_map]
    constructor
    · rintro ⟨⟨key, g⟩, hentry, rfl⟩
      exact ⟨key, AList.mem_lookup_iff.2 hentry⟩
    · rintro ⟨key, hkey⟩
      exact ⟨⟨key, g⟩, AList.mem_lookup_iff.1 hkey, rfl⟩
  have hkey (g : Gateway) (hg : g ∈ list table)
      (hmatch : (g.ns.getD "default" = ns && g.name.getD "" = name)) :
      table.lookup (ns ++ "/" ++ name) = some g := by
    obtain ⟨key, hget⟩ := (hmem g).1 hg
    obtain ⟨hns, rfl⟩ := h key g hget
    obtain ⟨ns', hns'⟩ := isSome_iff_exists.1 hns
    simp only [hns', Option.getD_some, Bool.and_eq_true, decide_eq_true_eq] at hmatch
    obtain ⟨rfl, rfl⟩ := hmatch
    rw [GatewayHandler.gatewayKey, hns'] at hget
    exact hget
  cases hfind : lookupGateway (list table) ns name with
  | some g =>
    have hmatch := find?_some hfind
    rw [hkey g (mem_of_find?_eq_some hfind) hmatch, filter_some, if_pos hmatch]
  | none =>
    symm
    rw [filter_eq_none_iff]
    intro g hget hmatch
    exact find?_eq_none.1 hfind g ((hmem g).2 ⟨_, hget⟩) hmatch

/-- A route names a Gateway, by key. -/
def References (route : Route) (key : String) : Prop :=
  key ∈ GatewayRouteIndex.gatewayKeys (route.parentRefs.getD []) route.routeNs

/-- What the functions return depends on the Gateways a route names. -/
theorem findings_congr (h : ∀ pr ∈ route.parentRefs.getD [], pr.isGateway →
      lookupGateway gateways' (pr.ns.getD route.routeNs) pr.name =
        lookupGateway gateways (pr.ns.getD route.routeNs) pr.name) :
    kind.findings surroundings gateways' route = kind.findings surroundings gateways route := by
  have hhns : resolvedHostnames gateways' route (route.parentRefs.getD []) =
      resolvedHostnames gateways route (route.parentRefs.getD []) := by
    simp only [resolvedHostnames, resolveEffectiveHostnames]
    rw [foldl_ext _ _ _ fun acc pr hpr => ?_]
    unfold Hostname.resolveStep
    split
    · rfl
    · next hgw =>
      have hget := h pr hpr (by simpa using hgw)
      rw [Hostname.ParentReference.gateway, Hostname.ParentReference.gateway,
        ← toHostname_lookupGateway, ← toHostname_lookupGateway, hget]
  have herrors : ∀ pr ∈ route.parentRefs.getD [], kind.acceptedErrors surroundings gateways' route pr =
      kind.acceptedErrors surroundings gateways route pr := by
    intro pr hpr
    simp only [acceptedErrors, validateParentRefAccepted]
    by_cases hgw : pr.isGateway = true
    · rw [h pr hpr hgw]
    · simp [hgw]
  simp only [findings, hhns, map_congr_left herrors]

/-- **A change of one Gateway leaves alone the routes that do not name it.** -/
theorem findings_of_not_references {table table' : GatewayTable} {key : String}
    (h : table.Keyed) (h' : table'.Keyed)
    (hsame : ∀ key', key' ≠ key → table'.lookup key' = table.lookup key')
    (hnot : ¬ References route key) :
    kind.findings surroundings (list table') route =
      kind.findings surroundings (list table) route := by
  refine findings_congr fun pr hpr hgw => ?_
  have hne : pr.ns.getD route.routeNs ++ "/" ++ pr.name ≠ key := by
    rintro rfl
    refine hnot (mem_dedup.2 (mem_map.2 ⟨pr, ?_, rfl⟩))
    exact mem_filter.2 ⟨hpr, hgw⟩
  rw [h'.lookupGateway_eq, h.lookupGateway_eq, hsame _ hne]

end Edgion.GatewayApi
