import Edgion.Common.Buckets
import Edgion.Hostname.Model
import Mathlib.Data.List.Dedup

/-!
# TCP routes — the route manager

The manager keeps the TCPRoutes by key and, for each Gateway, a table of
the routes of each listener. A listener fetches the table of its Gateway
once, when it starts, and keeps it: what it holds is the table itself, of
which the manager changes the contents. So the tables are cells with an
address here, the manager's map leads from Gateways to addresses, and a
handle is an address that was once in the map.

A change of single routes makes the affected listeners anew. A full set
makes everything anew and drops the tables of Gateways without routes.
-/

namespace Edgion.Tcp

open Common Hostname

universe u

/-- `TCPRoute`. What its rules hold is not read here. -/
structure TCPRoute (Rules : Type u) where
  ns : Option String
  name : Option String
  parentRefs : Option (List ParentReference)
  rules : Rules
deriving DecidableEq, Repr

variable {Rules : Type u}

namespace TCPRoute

variable (route : TCPRoute Rules)

def keyName : String :=
  match route.ns with
  | some ns => ns ++ "/" ++ route.name.getD ""
  | none => route.name.getD ""

/-- The Gateway a parentRef names. -/
def gatewayKey (pr : ParentReference) : String :=
  (pr.ns.or route.ns).getD "default" ++ "/" ++ pr.name

/-- `extract_gateway_listener_pairs_from_route`. -/
def gatewayListenerPairs : List (String × String) :=
  ((route.parentRefs.getD []).map fun pr =>
    (route.gatewayKey pr, pr.sectionName.getD "")).dedup

end TCPRoute

/-- What a route puts into the tables: itself, once for each pair. -/
def routeItems (_ : String) (route : TCPRoute Rules) (pair : String × String) :
    List (TCPRoute Rules) :=
  if pair ∈ route.gatewayListenerPairs then [route] else []

/-- `GatewayTcpRoutes`: the routes of each listener. -/
abbrev GatewayTcpRoutes (Rules : Type u) := String → Option (List (TCPRoute Rules))

namespace GatewayTcpRoutes

def new : GatewayTcpRoutes Rules := fun _ => none

variable (table : GatewayTcpRoutes Rules) (listenerName : String)

def getRoutesForListener : List (TCPRoute Rules) :=
  (table listenerName).getD []

/-- The routes of a listener, which is not in the map if it has none. -/
def entry (routes : List (TCPRoute Rules)) : Option (List (TCPRoute Rules)) :=
  match routes with
  | [] => none
  | _ :: _ => some routes

/-- `update_listeners_incremental`, with the listeners that the map names. -/
def updateListenersIncremental (listeners : List String)
    (routes : String → List (TCPRoute Rules)) : GatewayTcpRoutes Rules :=
  fun l => if l ∈ listeners then entry (routes l) else table l

end GatewayTcpRoutes

/-- `TcpRouteManager`, with the tables its map leads to. The next address is
one that was never given out. -/
structure TcpRouteManager (Rules : Type u) where
  routesByKey : AList fun _ : String => TCPRoute Rules
  gatewayTcpRoutesMap : AList fun _ : String => ℕ
  tables : ℕ → GatewayTcpRoutes Rules
  next : ℕ

namespace TcpRouteManager

def new : TcpRouteManager Rules := ⟨∅, ∅, fun _ => .new, 0⟩

variable (m : TcpRouteManager Rules) (gatewayKey : String)

/-- `entry(key).or_insert_with(..)`: the address of a Gateway's table. -/
def getOrCreate : ℕ × TcpRouteManager Rules :=
  match m.gatewayTcpRoutesMap.lookup gatewayKey with
  | some address => (address, m)
  | none => (m.next, { m with
      gatewayTcpRoutesMap := m.gatewayTcpRoutesMap.insert gatewayKey m.next
      tables := Function.update m.tables m.next .new
      next := m.next + 1 })

/-- A Gateway's table is given new contents. -/
def store (contents : GatewayTcpRoutes Rules → GatewayTcpRoutes Rules) : TcpRouteManager Rules :=
  let (address, m) := m.getOrCreate gatewayKey
  { m with tables := Function.update m.tables address (contents (m.tables address)) }

def rebuildGatewayListenersIncremental
    (affectedListeners removedRouteKeys : List String) : TcpRouteManager Rules :=
  m.store gatewayKey fun table =>
    table.updateListenersIncremental affectedListeners fun listenerName =>
      bucket (fun key route pair => if key ∈ removedRouteKeys then [] else routeItems key route pair)
        m.routesByKey (gatewayKey, listenerName)

/-- The affected listeners of all Gateways are made anew. -/
def rebuildAffected (pairs : List (String × String))
    (removedRouteKeys : List String) : TcpRouteManager Rules :=
  (pairs.map Prod.fst).dedup.foldl (fun m gatewayKey =>
    m.rebuildGatewayListenersIncremental gatewayKey
      ((pairs.filter fun pair => pair.1 = gatewayKey).map Prod.snd) removedRouteKeys) m

def addRoute (route : TCPRoute Rules) : TcpRouteManager Rules :=
  { m with routesByKey := m.routesByKey.insert route.keyName route }.rebuildAffected
    route.gatewayListenerPairs []

def removeRoute (resourceKey : String) : TcpRouteManager Rules :=
  let affected := ((m.routesByKey.lookup resourceKey).map TCPRoute.gatewayListenerPairs).getD []
  { m with routesByKey := m.routesByKey.erase resourceKey }.rebuildAffected affected [resourceKey]

variable (routes : AList fun _ : String => TCPRoute Rules)

/-- The Gateways that have routes. -/
def gateways : List String :=
  (routes.entries.flatMap fun e => e.2.gatewayListenerPairs.map Prod.fst).dedup

/-- A table that nobody needs is emptied and dropped. -/
def dropStale : TcpRouteManager Rules :=
  { m with
    tables := match m.gatewayTcpRoutesMap.lookup gatewayKey with
      | some address => Function.update m.tables address .new
      | none => m.tables
    gatewayTcpRoutesMap := m.gatewayTcpRoutesMap.erase gatewayKey }

def rebuildGatewayRoutesMap : TcpRouteManager Rules :=
  let gatewayKeys := gateways m.routesByKey
  let m := gatewayKeys.foldl (fun m gatewayKey => m.store gatewayKey fun _ listenerName =>
    GatewayTcpRoutes.entry (bucket routeItems m.routesByKey (gatewayKey, listenerName))) m
  let staleKeys := m.gatewayTcpRoutesMap.keys.filter fun key => key ∉ gatewayKeys
  staleKeys.foldl dropStale m

def replaceAll : TcpRouteManager Rules :=
  { m with routesByKey := insertAll id routes }.rebuildGatewayRoutesMap

variable (initRules : TCPRoute Rules → Rules)

/-- `initialize_route`, which fills in the rules and does not fail. -/
def initializeRoute (route : TCPRoute Rules) : TCPRoute Rules :=
  { route with rules := initRules route }

def fullSet (m : TcpRouteManager Rules) (data : AList fun _ : String => TCPRoute Rules) :
    TcpRouteManager Rules :=
  m.replaceAll (insertAll (initializeRoute initRules) data)

def partialUpdate (m : TcpRouteManager Rules) (add update : AList fun _ : String => TCPRoute Rules)
    (remove : List String) : TcpRouteManager Rules :=
  let m := add.entries.foldl (fun m e => m.addRoute (initializeRoute initRules e.2)) m
  let m := update.entries.foldl (fun m e =>
    (m.removeRoute e.1).addRoute (initializeRoute initRules e.2)) m
  remove.foldl removeRoute m

end TcpRouteManager

end Edgion.Tcp
