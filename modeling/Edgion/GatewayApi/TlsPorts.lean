import Edgion.GatewayApi.RouteHandlers
import Edgion.Tls.RouteManager

/-!
# Gateway API — the ports of TLS routes

The controller resolves the ports of a TLS route, and the data plane puts
the route into the tables of these ports without another look at the
Gateways. A parentRef with a port is taken at its word: neither the Gateway
nor the listener is looked up. One with a section has the port of the first
listener of that name. One with neither has no port, and where no parentRef
has a port, the ports the route came with are left. `resolves_told` says
what the outcome is.
-/

namespace Edgion.GatewayApi

open List

open Hostname (ParentReference)

/-- `TLSRoute`, as the controller has it. -/
structure TLSRoute extends HTTPRoute where
  resolvedPorts : Option (List ℕ)
deriving DecidableEq, Repr

/-- The route as the data plane reads it. -/
def TLSRoute.toGateway (route : TLSRoute) : Tls.TLSRoute (List HTTPBackendRef) :=
  ⟨route.ns, route.name, route.hostnames, route.resolvedPorts, route.backendRefs⟩

/-- `as u16`. -/
def asU16 (port : ℤ) : ℕ := (port % 65536).toNat

namespace TLSRoute

variable (gateways : List Gateway) (route : TLSRoute)

/-- The Gateway that a parentRef names. -/
def gatewayOf (pr : ParentReference) : Option Gateway :=
  lookupGateway gateways ((pr.ns.or route.ns).getD "default") pr.name

/-- The first listener of a name. -/
def namedListener (pr : ParentReference) (sectionName : String) : Option Listener :=
  (route.gatewayOf gateways pr).bind fun gateway =>
    gateway.listeners.bind fun listeners => listeners.find? fun l => l.name = sectionName

/-- The port that `parse` pushes for a parentRef. -/
def portOf (pr : ParentReference) : Option ℕ :=
  match pr.port with
  | some port => some (asU16 port)
  | none =>
    match pr.sectionName with
    | some sectionName => (route.namedListener gateways pr sectionName).map fun l => asU16 l.port
    | none => none

/-- The ports after `parse`. After the sort equal ports are neighbours. -/
def resolvePorts : Option (List ℕ) :=
  match route.parentRefs with
  | some parentRefs =>
    let ports := parentRefs.filterMap (route.portOf gateways)
    if ports.isEmpty then route.resolvedPorts
    else some (ports.insertionSort (· ≤ ·)).dedup
  | none => route.resolvedPorts

def parse (surroundings : Surroundings) : TLSRoute :=
  { RouteKind.parse .tlsRoute surroundings gateways route.toHTTPRoute with
    resolvedPorts := route.resolvePorts gateways }

/-! ## What the parentRefs select -/

/-- **A listener that a parentRef selects**: the parentRef is to a Gateway that
exists, which has the listener, and section and port are the listener's, as far
as they are given. -/
def Picks (pr : ParentReference) (l : Listener) : Prop :=
  pr.isGateway = true ∧ ∃ gateway, route.gatewayOf gateways pr = some gateway ∧
    l ∈ gateway.listenerList ∧ selects pr l = true

/-- Some parentRef selects a listener of the port. -/
def PicksPort (port : ℤ) : Prop :=
  ∃ pr ∈ route.parentRefs.getD [], ∃ l, route.Picks gateways pr l ∧ l.port = port

/-- **The route has exactly the ports of the listeners it selects**, where the
data plane looks for them. -/
def ResolvesExactly (surroundings : Surroundings) : Prop :=
  ∀ port : ℤ, (∃ p ∈ Tls.resolvedPortsForRoute (route.parse gateways surroundings).toGateway,
    (p : ℤ) = port) ↔ route.PicksPort gateways port

/-- **What a parentRef tells of ports**: its own, or else that of the first
listener of the name it gives. Both are cut to 16 bits. -/
def Told (pr : ParentReference) (port : ℤ) : Prop :=
  (∃ p, pr.port = some p ∧ p % 65536 = port) ∨
    (pr.port = none ∧ ∃ sectionName l, pr.sectionName = some sectionName ∧
      route.namedListener gateways pr sectionName = some l ∧ l.port % 65536 = port)

/-- No parentRef tells a port. -/
def TellsNone : Prop :=
  ∀ pr ∈ route.parentRefs.getD [], ∀ port, ¬ route.Told gateways pr port

variable {gateways route}

theorem asU16_cast (port : ℤ) : (asU16 port : ℤ) = port % 65536 :=
  Int.toNat_of_nonneg (Int.emod_nonneg port (by decide))

variable {port : ℤ} {pr : ParentReference}

/-- What is told is what `parse` pushes. -/
theorem told_iff :
    route.Told gateways pr port ↔ ∃ p, route.portOf gateways pr = some p ∧ (p : ℤ) = port := by
  unfold Told portOf
  cases pr.port with
  | some p => simp [asU16_cast]
  | none =>
    cases pr.sectionName with
    | none => simp
    | some sectionName => simp [asU16_cast]

/-- The ports after `parse`: those that are told, or else those from before. -/
theorem mem_resolvePorts : (∃ p ∈ (route.resolvePorts gateways).getD [], (p : ℤ) = port) ↔
      (∃ pr ∈ route.parentRefs.getD [], route.Told gateways pr port) ∨ (route.TellsNone gateways ∧
        ∃ p ∈ route.resolvedPorts.getD [], (p : ℤ) = port) := by
  have hsplit : (route.resolvePorts gateways).getD [] =
      if (route.parentRefs.getD []).filterMap (route.portOf gateways) = [] then
        route.resolvedPorts.getD []
      else ((((route.parentRefs.getD []).filterMap (route.portOf gateways)).insertionSort
        (· ≤ ·)).dedup) := by
    unfold resolvePorts
    cases route.parentRefs with
    | none => rfl
    | some parentRefs =>
      simp only [Option.getD_some, List.isEmpty_iff]
      split <;> rfl
  have hnone : (route.parentRefs.getD []).filterMap (route.portOf gateways) = [] ↔
      route.TellsNone gateways := by
    rw [filterMap_eq_nil_iff]
    refine forall₂_congr fun pr _ => ?_
    simp only [told_iff, not_exists, not_and]
    constructor
    · intro h port p hp
      rw [h] at hp
      cases hp
    · intro h
      refine Option.eq_none_iff_forall_ne_some.2 fun p hp => h p p hp rfl
  have htold : (∃ p ∈ (route.parentRefs.getD []).filterMap (route.portOf gateways), (p : ℤ) = port) ↔
      ∃ pr ∈ route.parentRefs.getD [], route.Told gateways pr port := by
    simp only [mem_filterMap, told_iff]
    constructor
    · rintro ⟨p, ⟨pr, hpr, hp⟩, hport⟩
      exact ⟨pr, hpr, p, hp, hport⟩
    · rintro ⟨pr, hpr, p, hp, hport⟩
      exact ⟨p, ⟨pr, hpr, hp⟩, hport⟩
  rw [hsplit]
  split
  next hempty =>
    have hnot := hnone.1 hempty
    constructor
    · exact fun h => .inr ⟨hnot, h⟩
    · rintro (⟨pr, hpr, h⟩ | ⟨-, h⟩)
      · exact absurd h (hnot pr hpr port)
      · exact h
  next hsome =>
    simp only [mem_dedup, mem_insertionSort]
    rw [htold]
    constructor
    · exact .inl
    · rintro (h | ⟨hnot, -⟩)
      · exact h
      · exact absurd (hnone.2 hnot) hsome

/-- The first listener of a name is a listener of the Gateway. -/
theorem namedListener_eq_some {sectionName : String} {l : Listener}
    (h : route.namedListener gateways pr sectionName = some l) :
    ∃ gateway, route.gatewayOf gateways pr = some gateway ∧ l ∈ gateway.listenerList ∧
      l.name = sectionName := by
  obtain ⟨gateway, hgw, hfound⟩ := Option.bind_eq_some_iff.1 h
  obtain ⟨listeners, hlisteners, hfind⟩ := Option.bind_eq_some_iff.1 hfound
  refine ⟨gateway, hgw, ?_, by simpa using find?_some hfind⟩
  rw [Gateway.listenerList, hlisteners]
  exact mem_of_find?_eq_some hfind

/-- **The ports of a route are those its parentRefs tell**, if they tell any or
the route comes without ports. Where no parentRef has a port of its own, each is
the port of a listener of the name that is asked for, at a Gateway that exists. -/
theorem resolves_told (gateways : List Gateway) (route : TLSRoute) (surroundings : Surroundings)
    (hfresh : route.resolvedPorts = none ∨ ¬ route.TellsNone gateways) :
    (∀ port : ℤ, (∃ p ∈ Tls.resolvedPortsForRoute (route.parse gateways surroundings).toGateway,
      (p : ℤ) = port) ↔ ∃ pr ∈ route.parentRefs.getD [], route.Told gateways pr port) ∧
    ((∀ pr ∈ route.parentRefs.getD [], pr.port = none) →
      ∀ p ∈ Tls.resolvedPortsForRoute (route.parse gateways surroundings).toGateway,
        ∃ pr ∈ route.parentRefs.getD [], ∃ gateway l, route.gatewayOf gateways pr = some gateway ∧
          l ∈ gateway.listenerList ∧ pr.sectionName = some l.name ∧ (p : ℤ) = l.port % 65536) := by
  have htold : ∀ port : ℤ,
      (∃ p ∈ Tls.resolvedPortsForRoute (route.parse gateways surroundings).toGateway,
        (p : ℤ) = port) ↔ ∃ pr ∈ route.parentRefs.getD [], route.Told gateways pr port := by
    intro port
    refine mem_resolvePorts.trans (or_iff_left ?_)
    rintro ⟨hnone, p, hp, -⟩
    rcases hfresh with hempty | htells
    · rw [hempty] at hp
      cases hp
    · exact htells hnone
  refine ⟨htold, fun hports p hp => ?_⟩
  obtain ⟨pr, hpr, ⟨port, hport, -⟩ | ⟨-, sectionName, l, hsection, hnamed, hl⟩⟩ :=
    (htold p).1 ⟨p, hp, rfl⟩
  · rw [hports pr hpr] at hport
    cases hport
  · obtain ⟨gateway, hgateway, hmem, rfl⟩ := namedListener_eq_some hnamed
    exact ⟨pr, hpr, gateway, l, hgateway, hmem, hsection, hl.symm⟩

/-- A Gateway with a listener at 443. -/
def edgeGateway : Gateway :=
  ⟨some "infra", some "edge", "edgion", some [⟨"tls", none, 443, "TLS", none, none⟩], none⟩

/-- A route of another namespace, with a parentRef to a Gateway that does not
exist and to port 443. -/
def strayRoute : TLSRoute :=
  { ns := some "app", name := some "stray",
    parentRefs := some [⟨none, none, some "app", "nowhere", none, some 443⟩],
    hostnames := some ["a.example.com"], resolvedHostnames := none, backendRefs := [],
    parents := [], resolvedPorts := none }

/-- A route with a section of the Gateway, and with a port. -/
def twoRefs : TLSRoute :=
  { strayRoute with
    parentRefs := some [⟨none, none, some "infra", "edge", some "tls", none⟩,
      ⟨none, none, some "infra", "edge", none, some 8443⟩] }

/-- The route as the data plane is given it. -/
def strayParsed : Tls.TLSRoute (List HTTPBackendRef) :=
  (strayRoute.parse [edgeGateway] onlyGateways).toGateway

/-- A section and a port each give a port. -/
theorem resolves_told_twoRefs :
    (twoRefs.parse [edgeGateway] onlyGateways).resolvedPorts = some [443, 8443] ∧
      ((∃ p ∈ Tls.resolvedPortsForRoute (twoRefs.parse [edgeGateway] onlyGateways).toGateway,
        (p : ℤ) = 443) ↔ ∃ pr ∈ twoRefs.parentRefs.getD [], twoRefs.Told [edgeGateway] pr 443) :=
  ⟨by decide +kernel, (resolves_told [edgeGateway] twoRefs onlyGateways (.inl rfl)).1 443⟩

/-- **The route is put into the table of a port that none of its parentRefs
selects**, and takes the connections there. -/
theorem not_resolvesExactly_stray : ¬ strayRoute.ResolvesExactly [edgeGateway] onlyGateways ∧
      ((Tls.GlobalTlsRouteManagers.new.fullSet Tls.TLSRoute.rules
        (AList.insert "app/stray" strayParsed ∅)).table 443).matchRoute "a.example.com" =
          some strayParsed := by
  refine ⟨fun h => ?_, by decide +kernel⟩
  obtain ⟨pr, hpr, l, ⟨-, gateway, hgateway, -⟩, -⟩ := (h 443).1 ⟨443, by decide +kernel, rfl⟩
  obtain rfl : pr = ⟨none, none, some "app", "nowhere", none, some 443⟩ := by
    simpa [strayRoute] using hpr
  have hnone : strayRoute.gatewayOf [edgeGateway]
    ⟨none, none, some "app", "nowhere", none, some 443⟩ = none := rfl
  rw [hnone] at hgateway
  cases hgateway

end TLSRoute

end Edgion.GatewayApi
