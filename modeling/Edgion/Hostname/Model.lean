import Edgion.Common.Text

/-!
# Hostnames — the model

Three pieces of the source decide what a hostname stands for. The
controller intersects a listener's hostname with a route's
(`compute_hostname_intersection`), asks whether the two meet at all
(`hostnames_intersect`), and the data plane matches a request's host
against a listener (`hostname_matches_listener`). On top of the first,
`resolve_effective_hostnames` computes the hostnames a route is served
under, over all of its parents.
-/

namespace Edgion.Hostname

open Text

/-! ## Two hostnames -/

variable (listenerHn routeHn : String)

def computeHostnameIntersection : Option String :=
  if listenerHn = routeHn then some listenerHn
  else
    let listenerSuffix := sliceFrom listenerHn 1
    let routeSuffix := sliceFrom routeHn 1
    match startsWith listenerHn "*.", startsWith routeHn "*." with
    | false, false => none
    | true, false =>
      if endsWith routeHn listenerSuffix ∧ len routeHn > len listenerSuffix then some routeHn
      else none
    | false, true =>
      if endsWith listenerHn routeSuffix ∧ len listenerHn > len routeSuffix then some listenerHn
      else none
    | true, true =>
      if listenerSuffix = routeSuffix then some listenerHn
      else if endsWith routeSuffix listenerSuffix ∧ len routeSuffix > len listenerSuffix then
        some routeHn
      else if endsWith listenerSuffix routeSuffix ∧ len listenerSuffix > len routeSuffix then
        some listenerHn
      else none

/-- `hostnames_intersect`, which strips the `*.` and puts the dot back. -/
def hostnamesIntersect : Bool :=
  if listenerHn = routeHn then true
  else
    match stripPrefix listenerHn "*.", stripPrefix routeHn "*." with
    | some listenerSuffix, some routeSuffix =>
      routeSuffix == listenerSuffix || endsWith routeSuffix ("." ++ listenerSuffix) ||
        endsWith listenerSuffix ("." ++ routeSuffix)
    | some listenerSuffix, none => endsWith routeHn ("." ++ listenerSuffix)
    | none, some routeSuffix => endsWith listenerHn ("." ++ routeSuffix)
    | none, none => false

def hostnameMatchesListener (requestHost listenerHostname : String) : Bool :=
  if startsWith listenerHostname "*." then
    let suffix := sliceFrom listenerHostname 1
    if !endsWith requestHost suffix then false
    -- the source's `prefix_len`
    else decide (len requestHost - len suffix > 0)
  else eqIgnoreAsciiCase requestHost listenerHostname

/-! ## What a hostname field may hold

The pattern the Gateway API's schema puts on a hostname:
`^(\*\.)?[a-z0-9]([-a-z0-9]*[a-z0-9])?(\.[a-z0-9]([-a-z0-9]*[a-z0-9])?)*$`. -/

/-- The characters `[a-z0-9]`. -/
def isAlnum (c : Char) : Bool := c.isLower || c.isDigit

/-- A label: `[a-z0-9]([-a-z0-9]*[a-z0-9])?`. -/
def isLabel (cs : List Char) : Bool :=
  cs.all (fun c => isAlnum c || c == '-') && cs.head?.any isAlnum && cs.getLast?.any isAlnum

/-- Labels with dots between them. -/
def isName (cs : List Char) : Bool := (cs.splitOn '.').all isLabel

/-- **A valid hostname**, plain or under a leading `*.`. -/
def ValidHostname (s : String) : Prop :=
  isName s.toList ∨ (startsWith s "*." ∧ isName (s.toList.drop 2))

instance (s : String) : Decidable (ValidHostname s) := inferInstanceAs (Decidable (_ ∨ _))

/-! ## A route's parents -/

/-- `Listener`, with the fields that select it and its hostname. -/
structure Listener where
  name : String
  hostname : Option String
  port : ℤ
deriving DecidableEq, Repr

/-- `Gateway`: where it is and its listeners. -/
structure Gateway where
  ns : Option String
  name : Option String
  listeners : Option (List Listener)
deriving DecidableEq, Repr

structure ParentReference where
  group : Option String
  kind : Option String
  ns : Option String
  name : String
  sectionName : Option String
  port : Option ℤ
deriving DecidableEq, Repr

structure ResolvedHostnames where
  hostnames : List String
  annotation : Option String
deriving DecidableEq, Repr

/-- `lookup_gateway`, over the Gateways the registry lists; a registry
that cannot be read lists none. -/
def lookupGateway (gateways : List Gateway) (ns name : String) : Option Gateway :=
  gateways.find? fun gw => gw.ns.getD "default" == ns && gw.name.getD "" == name

/-- The listeners a parentRef's `sectionName` and `port` leave. -/
def matchingListeners (gateway : Gateway) (pr : ParentReference) : List Listener :=
  (gateway.listeners.getD []).filter fun l =>
    pr.sectionName.all (l.name == ·) && pr.port.all (l.port == ·)

/-- One turn of the loop of `collect_listener_hostnames`. -/
def collectStep (hostnames : List String) (listener : Listener) : List String :=
  match listener.hostname with
  | some hostname =>
    if hostname ≠ "" ∧ hostname ∉ hostnames then hostnames ++ [hostname] else hostnames
  | none => hostnames

def collectListenerHostnames (gateway : Gateway) (pr : ParentReference) : List String :=
  (matchingListeners gateway pr).foldl collectStep []

/-! ## The effective hostnames -/

/-- **What the loop over the parents accumulates.** A hostname enters the
set `seen` and the list `allEffective` together. -/
structure Acc where
  seen : List String
  allEffective : List String
  actions : List String
  mem_seen : ∀ h, h ∈ seen ↔ h ∈ allEffective

namespace Acc

/-- The empty accumulators. -/
def new : Acc := ⟨[], [], [], fun _ => Iff.rfl⟩

variable (acc : Acc)

/-- `if seen.insert(h.clone()) { all_effective.push(h) }`. -/
def push (h : String) : Acc :=
  if h ∈ acc.seen then acc
  else
    { seen := h :: acc.seen
      allEffective := acc.allEffective ++ [h]
      actions := acc.actions
      mem_seen := fun x => by simp [acc.mem_seen x, or_comm] }

/-- `actions.push(..)`. -/
def act (action : String) : Acc := { acc with actions := acc.actions ++ [action] }

/-- The push of a listener's hostname, which records where it is from. -/
def pushInherited (lh : String) : Acc :=
  if lh ∈ acc.seen then acc else (acc.push lh).act ("inherited:" ++ lh)

/-- The innermost loop body of the intersection; the flag is
`intersected_any`. -/
def pushIntersection (listenerHn : String) (acc : Acc × Bool) (routeHn : String) : Acc × Bool :=
  match computeHostnameIntersection listenerHn routeHn with
  | some intersected => (acc.1.push intersected, true)
  | none => acc

/-- The two nested loops of the intersection. -/
def pushIntersections (listenerHostnames routeHs : List String) : Acc × Bool :=
  listenerHostnames.foldl (fun acc lh => routeHs.foldl (pushIntersection lh) acc) (acc, false)

end Acc

/-- Whether a parentRef names a Gateway at all; others are skipped. -/
def ParentReference.isGateway (pr : ParentReference) : Bool :=
  pr.group.getD "gateway.networking.k8s.io" == "gateway.networking.k8s.io" &&
    pr.kind.getD "Gateway" == "Gateway"

variable (gateways : List Gateway)

/-- The Gateway a parentRef names, in the route's namespace by default. -/
def ParentReference.gateway (routeNs : String) (pr : ParentReference) : Option Gateway :=
  lookupGateway gateways (pr.ns.getD routeNs) pr.name

variable (routeHostnames : Option (List String))

/-- What one parent whose listeners carry `listenerHostnames` adds. -/
def resolveListeners (acc : Acc)
    (listenerHostnames : List String) : Acc :=
  let routeHs := routeHostnames.getD []
  if routeHs ≠ [] then
    if listenerHostnames = [] then (routeHs.foldl Acc.push acc).act "passthrough"
    else
      let (acc', intersectedAny) := acc.pushIntersections listenerHostnames routeHs
      if intersectedAny then acc'.act "intersected" else acc'
  else
    if listenerHostnames = [] then (acc.push "*").act "catch-all"
    else listenerHostnames.foldl Acc.pushInherited acc

/-- One turn of the loop over the parents. -/
def resolveStep (routeNs : String) (acc : Acc) (pr : ParentReference) : Acc :=
  if !pr.isGateway then acc
  else
    match pr.gateway gateways routeNs with
    -- the Gateway is not in the registry yet: the route's own hostnames stand in
    | none => ((routeHostnames.getD []).foldl Acc.push acc).act "gateway-pending"
    | some gateway => resolveListeners routeHostnames acc (collectListenerHostnames gateway pr)

def resolveEffectiveHostnames
    (parentRefs : List ParentReference) (routeNs : String) : ResolvedHostnames :=
  if parentRefs = [] then { hostnames := [], annotation := none }
  else
    let acc := parentRefs.foldl (resolveStep gateways routeHostnames routeNs) Acc.new
    { hostnames := if acc.allEffective = [] then ["*"] else acc.allEffective
      annotation := if acc.actions = [] then none else some (String.intercalate ";" acc.actions) }

end Edgion.Hostname
