import Edgion.GatewayApi.Grants
import Edgion.GatewayApi.Index

/-!
# Gateway API — HTTP routes and their references to other namespaces

A route may send requests to a backend in another namespace if a
ReferenceGrant permits it. The handler records which namespaces a route
refers to, so that a change of their grants can find it, and marks each
reference that no grant permits.
-/

namespace Edgion.GatewayApi

open Hostname (ParentReference)

structure RefDenied where
  targetNamespace : String
  targetName : String
  reason : Option String
deriving DecidableEq, Repr

structure HTTPBackendRef where
  group : Option String
  kind : Option String
  ns : Option String
  name : String
  refDenied : Option RefDenied
deriving DecidableEq, Repr

structure RouteParentStatus where
  parentRef : ParentReference
  conditions : List Condition
deriving DecidableEq, Repr

/-- `HTTPRoute`, with the backend references of all its rules, in order, and
the parents of its status. -/
structure HTTPRoute where
  ns : Option String
  name : Option String
  parentRefs : Option (List ParentReference)
  hostnames : Option (List String)
  resolvedHostnames : Option (List String)
  backendRefs : List HTTPBackendRef
  parents : List RouteParentStatus
deriving DecidableEq, Repr

namespace HTTPRoute

variable (route : HTTPRoute)

/-- The namespace the handler takes a route to be in. -/
def routeNs : String := route.ns.getD "default"

/-- `create_resource_ref`. -/
def resourceRef : ResourceRef := ⟨.httpRoute, route.ns, route.name.getD ""⟩

/-- The key of a route in its queue and in the server cache. -/
def key : String := route.resourceRef.resourceKey

/-- A reference goes to another namespace. -/
def Crosses (backendRef : HTTPBackendRef) (ns : String) : Prop :=
  backendRef.ns = some ns ∧ ns ≠ route.routeNs

/-- The namespaces `record_cross_ns_refs` adds, in order. -/
def crossNamespaces : List String :=
  route.backendRefs.filterMap fun backendRef =>
    backendRef.ns.filter fun ns => ns ≠ route.routeNs

variable {route : HTTPRoute} {ns : String}

theorem mem_crossNamespaces :
    ns ∈ route.crossNamespaces ↔ ∃ backendRef ∈ route.backendRefs, route.Crosses backendRef ns := by
  simp [crossNamespaces, Crosses, Option.filter_eq_some_iff]

/-- What `is_cross_ns_ref_allowed` asks about a reference. -/
def reference (route : HTTPRoute) (backendRef : HTTPBackendRef) (ns : String) : Reference :=
  ⟨route.routeNs, "gateway.networking.k8s.io", "HTTPRoute", ns, backendRef.group.getD "",
    backendRef.kind.getD "Service", some backendRef.name⟩

variable (store : ReferenceGrantStore)

/-- `parse`, for one backend reference: mark it if it is denied. -/
def markDenied (route : HTTPRoute) (backendRef : HTTPBackendRef) :
    HTTPBackendRef :=
  match backendRef.ns with
  | some ns =>
    if ns ≠ route.routeNs then
      if store.checkReferenceAllowed (route.reference backendRef ns) then
        { backendRef with refDenied := none }
      else
        { backendRef with
          refDenied := some ⟨ns, backendRef.name, some "NoMatchingReferenceGrant"⟩ }
    else { backendRef with refDenied := none }
  | none => { backendRef with refDenied := none }

/-- **A mark is right**: a reference is marked if, and only if, the store does
not allow it. -/
def Right (route : HTTPRoute) (backendRef : HTTPBackendRef) (ns : String) : Prop :=
  backendRef.refDenied.isSome ↔ store.checkReferenceAllowed (route.reference backendRef ns) = false

theorem ns_markDenied (route : HTTPRoute)
    (backendRef : HTTPBackendRef) : (route.markDenied store backendRef).ns = backendRef.ns := by
  unfold markDenied
  split
  · split_ifs <;> rfl
  · rfl

variable {backendRef : HTTPBackendRef} {store : ReferenceGrantStore}

/-- Marking marks right. -/
theorem right_markDenied (h : route.Crosses backendRef ns) :
    route.Right store (route.markDenied store backendRef) ns := by
  unfold markDenied Right
  rw [h.1]
  simp only [if_pos h.2]
  split_ifs with hallowed
  · simpa [reference] using hallowed
  · simpa [reference] using hallowed

/-- Marks depend on the grants of the namespace that is referred to. -/
theorem Right.congr {store' : ReferenceGrantStore} (h : route.Right store backendRef ns)
    (hsame : store'.getByToNamespace ns = store.getByToNamespace ns) :
    route.Right store' backendRef ns := by
  have hcheck : store'.checkReferenceAllowed (route.reference backendRef ns) =
      store.checkReferenceAllowed (route.reference backendRef ns) := by
    simp only [ReferenceGrantStore.checkReferenceAllowed, reference, hsame]
    rfl
  rw [Right, hcheck]
  exact h

end HTTPRoute

end Edgion.GatewayApi
