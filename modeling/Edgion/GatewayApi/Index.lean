import Edgion.Common.TwoWayIndex
import Edgion.GatewayApi.Resources
import Mathlib.Data.List.AList

/-!
# Gateway API — what the handlers look up

The handlers of the kinds share tables: who refers to a secret or to
another namespace, which listeners use a port, which routes name a
Gateway and what its listeners looked like, and which listeners a route
attaches to. The first three are indexed from both sides.
-/

namespace Edgion.GatewayApi

open Function

open Common (TwoWayIndex)
open Hostname (ParentReference)

/-! ## References -/

/-- `BidirectionalRefManager`. The two tables are locked one after the other;
only the first is read by others, and each method writes it under one lock. -/
abbrev RefManager := TwoWayIndex String ResourceRef String

namespace RefManager

variable (m : RefManager) (sourceKey : String) (value : ResourceRef)

def addRef : RefManager :=
  m.link ResourceRef.key (sourceKey, value)

def clearValueRefs : RefManager :=
  m.unlink value.key fun v => v = value

def getRefs : List ResourceRef := m.forward sourceKey

end RefManager

/-! ## Ports -/

/-- What `to_uppercase` makes of a character, as far as the names of the
protocols are concerned: beside the letters, the long s becomes an S. -/
def upper (c : Char) : Char := if c = 'ſ' then 'S' else c.toUpper

def toUppercase (s : String) : String := s.map upper

/-- Whether listeners of a protocol are told apart by hostname. -/
def byHostname (protocol : String) : Bool := toUppercase protocol ∈ ["HTTP", "HTTPS", "TLS"]

def makePortKey (port : ℤ) (protocol : String) (hostname : Option String) : String :=
  if byHostname protocol then toString port ++ ":" ++ hostname.getD "" else toString port ++ ":"

structure ListenerRef where
  gatewayKey : String
  listenerName : String
deriving DecidableEq, Repr

def ListenerRef.display (l : ListenerRef) : String := l.gatewayKey ++ "/" ++ l.listenerName

/-- `ListenerPortManager`: listeners by port key, and port keys by Gateway. -/
abbrev ListenerPortManager := TwoWayIndex String ListenerRef String

/-- The conflicts of a Gateway: for each listener that has one, the reason and
all listeners on the port. -/
abbrev Conflicts := AList fun _ : String => String × List ListenerRef

namespace ListenerPortManager

variable (m : ListenerPortManager) (gatewayKey : String)

def unregisterGateway : ListenerPortManager :=
  m.unlink gatewayKey fun l => l.gatewayKey = gatewayKey

def registerGateway (listeners : List (String × String)) : ListenerPortManager :=
  (m.unregisterGateway gatewayKey).linkAll ListenerRef.gatewayKey
    (listeners.map fun (listenerName, portKey) => (portKey, ⟨gatewayKey, listenerName⟩))

/-- The conflicts that one port adds. -/
def portConflicts (gatewayKey portKey : String) (listeners : List ListenerRef)
    (conflicts : Conflicts) : Conflicts :=
  if listeners.length > 1 then
    let reason := "Port " ++ portKey ++ " conflicts with: " ++
      ", ".intercalate (listeners.map ListenerRef.display)
    listeners.foldl (fun conflicts l =>
      if l.gatewayKey = gatewayKey then conflicts.insert l.listenerName (reason, listeners)
      else conflicts) conflicts
  else conflicts

def detectConflicts : Conflicts :=
  (m.reverse gatewayKey).foldl (fun conflicts portKey =>
    portConflicts gatewayKey portKey (m.forward portKey) conflicts) ∅

def getConflictingGateways : List String :=
  ((m.reverse gatewayKey).flatMap fun portKey =>
    let listeners := m.forward portKey
    if listeners.length > 1 then
      (listeners.map ListenerRef.gatewayKey).filter fun k => k ≠ gatewayKey
    else []).dedup

end ListenerPortManager

/-! ## Routes -/

/-- The kinds of routes. -/
inductive RouteKind
  | httpRoute
  | grpcRoute
  | tlsRoute
  | tcpRoute
  | udpRoute
deriving DecidableEq, Repr

def RouteKind.asStr : RouteKind → String
  | .httpRoute => "HTTPRoute"
  | .grpcRoute => "GRPCRoute"
  | .tlsRoute => "TLSRoute"
  | .tcpRoute => "TCPRoute"
  | .udpRoute => "UDPRoute"

structure RouteEntry where
  kind : RouteKind
  key : String
deriving DecidableEq, Repr

/-- `build_parent_key`, for a route of a namespace. -/
def buildParentKey (pr : ParentReference) (routeNs : String) : String :=
  pr.ns.getD routeNs ++ "/" ++ pr.name

structure GatewayRouteIndex where
  routes : TwoWayIndex String RouteEntry RouteEntry
  gatewayHostnames : String → Option (List String)
  gatewayPorts : String → Option (List ℤ)

namespace GatewayRouteIndex

def new : GatewayRouteIndex := ⟨.empty, fun _ => none, fun _ => none⟩

variable (i : GatewayRouteIndex) (gatewayKey : String)

def updateGatewayHostnames (hostnames : List String) : Bool × GatewayRouteIndex :=
  let hostnames := hostnames.insertionSort (· ≤ ·)
  if i.gatewayHostnames gatewayKey = some hostnames then (false, i)
  else (true,
    { i with gatewayHostnames := update i.gatewayHostnames gatewayKey (some hostnames) })

def removeGatewayHostnames : GatewayRouteIndex :=
  { i with gatewayHostnames := update i.gatewayHostnames gatewayKey none }

def updateGatewayPorts (ports : List ℤ) : Bool × GatewayRouteIndex :=
  let ports := ports.insertionSort (· ≤ ·)
  if i.gatewayPorts gatewayKey = some ports then (false, i)
  else (true, { i with gatewayPorts := update i.gatewayPorts gatewayKey (some ports) })

def removeGatewayPorts : GatewayRouteIndex :=
  { i with gatewayPorts := update i.gatewayPorts gatewayKey none }

/-- The Gateways a route names, by key. -/
def gatewayKeys (parentRefs : List ParentReference) (routeNs : String) : List String :=
  ((parentRefs.filter ParentReference.isGateway).map fun pr => buildParentKey pr routeNs).dedup

variable (entry : RouteEntry)

def removeRoute : GatewayRouteIndex :=
  { i with routes := i.routes.unlink entry fun e => e = entry }

def updateRoute (parentRefs : List ParentReference)
    (routeNs : String) : GatewayRouteIndex :=
  let i := i.removeRoute entry
  { i with routes :=
    i.routes.linkAll id ((gatewayKeys parentRefs routeNs).map fun gwKey => (gwKey, entry)) }

def getRoutesForGateway : List RouteEntry :=
  i.routes.forward gatewayKey

end GatewayRouteIndex

/-! ## Attachments -/

structure Attachment where
  gatewayKey : String
  listenerName : String
deriving DecidableEq, Repr

/-- `AttachedRouteTracker`: the listeners each route attaches to. The table of
the other direction only serves to count them for a status. -/
abbrev AttachedRouteTracker := RouteEntry → Option (Finset Attachment)

namespace AttachedRouteTracker

variable (t : AttachedRouteTracker) (route : RouteEntry)

/-- `remove_route`, and whether the route was tracked. -/
def removeRoute : Bool × AttachedRouteTracker :=
  ((t route).isSome, update t route none)

/-- `update_route`, and whether the attachments changed. -/
def updateRoute (attachments : Finset Attachment) : Bool × AttachedRouteTracker :=
  if ((t route).map fun old => decide (old = attachments)).getD (decide (attachments = ∅)) then
    (false, t)
  else if attachments = ∅ then (true, update t route none)
  else (true, update t route (some attachments))

end AttachedRouteTracker

end Edgion.GatewayApi
