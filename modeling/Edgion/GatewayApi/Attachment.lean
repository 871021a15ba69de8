import Edgion.GatewayApi.Resources

/-!
# Gateway API — whether a route may attach to a Gateway

A route names a parent, perhaps a section and a port of it. Of the
listeners these leave, one must admit the route's namespace and one must
have a hostname in common with the route. The two are looked for
separately, so two listeners may each do one half: the parent is then
accepted, though no listener would take the route.
-/

namespace Edgion.GatewayApi

open Hostname (ParentReference hostnamesIntersect)
open List Option

/-! ## The checks -/

def listenerAllowsRouteNamespace (namespaces : NamespaceStore)
    (allowedRoutes : Option AllowedRoutes) (routeNs gatewayNs : String) : Bool :=
  match allowedRoutes.bind AllowedRoutes.namespaces with
  | none => routeNs = gatewayNs
  | some ns =>
    match ns.from_.getD "Same" with
    | "All" => true
    | "Same" => routeNs = gatewayNs
    | "Selector" =>
      match ns.selector with
      | none => true
      | some selector =>
        match namespaces routeNs with
        -- the labels are not known: only routes of the Gateway's own namespace
        | none => routeNs = gatewayNs
        | some labels => labelSelectorMatches selector labels
    | _ => routeNs = gatewayNs

inductive AcceptedError
  | notAllowedByListeners (routeNs : String)
  | noMatchingListenerHostname (hostnames : List String)
  | noMatchingParent (sectionName : String)
deriving DecidableEq, Repr

def AcceptedError.reason : AcceptedError → String
  | .notAllowedByListeners _ => "NotAllowedByListeners"
  | .noMatchingListenerHostname _ => "NoMatchingListenerHostname"
  | .noMatchingParent _ => "NoMatchingParent"

/-- Whether a parentRef's `sectionName` and `port` select a listener. -/
def selects (pr : ParentReference) (l : Listener) : Bool :=
  pr.sectionName.all (l.name = ·) && pr.port.all (l.port = ·)

/-- Whether a listener and a route have a hostname in common; a listener
without a hostname has every one. -/
def hostnameMatches (routeHs : List String) (l : Listener) : Bool :=
  match l.hostname with
  | none => true
  | some listenerHn => routeHs.any fun routeHn => hostnamesIntersect listenerHn routeHn

/-- The first check: some listener has the section and the port that are
named. -/
def checkParent (pr : ParentReference) (listeners : List Listener) : List AcceptedError :=
  match pr.sectionName, pr.port with
  | some sectionName, port =>
    if listeners.any fun l => l.name = sectionName && port.all (l.port = ·) then []
    else [.noMatchingParent sectionName]
  | none, some port =>
    if listeners.any fun l => l.port = port then [] else [.noMatchingParent s!"port:{port}"]
  | none, none => []

def validateParentRefAccepted (namespaces : NamespaceStore) (gateways : List Gateway)
    (routeNs : String) (pr : ParentReference) (routeHostnames : Option (List String)) :
    List AcceptedError :=
  if !pr.isGateway then []
  else
    let parentNs := pr.ns.getD routeNs
    match lookupGateway gateways parentNs pr.name with
    | none => []
    | some gateway =>
      match checkParent pr gateway.listenerList with
      | error :: errors => error :: errors
      | [] =>
        let matchingListeners := gateway.listenerList.filter (selects pr)
        if !matchingListeners.any fun l =>
            listenerAllowsRouteNamespace namespaces l.allowedRoutes routeNs parentNs then
          [.notAllowedByListeners routeNs]
        else
          match routeHostnames with
          | some routeHs =>
            if !routeHs.isEmpty && !matchingListeners.any (hostnameMatches routeHs) then
              [.noMatchingListenerHostname routeHs]
            else []
          | none => []

/-! ## One listener for both -/

section

variable (namespaces : NamespaceStore) (gateway : Gateway) (routeNs : String)
  (pr : ParentReference) (routeHostnames : Option (List String))

variable (l : Listener)

/-- A listener the parentRef selects that admits the route's namespace. -/
def Admits : Prop :=
  l ∈ gateway.listenerList ∧ selects pr l = true ∧
    listenerAllowsRouteNamespace namespaces l.allowedRoutes routeNs (pr.ns.getD routeNs) = true

/-- A listener the parentRef selects whose hostname, if it has one, meets one
of the route's, if it has any. -/
def Shares : Prop :=
  l ∈ gateway.listenerList ∧ selects pr l = true ∧
    (routeHostnames.getD [] = [] ∨ hostnameMatches (routeHostnames.getD []) l = true)

/-- **A listener that takes the route**: it is selected, admits the route's
namespace and shares a hostname with the route. -/
def Takes : Prop :=
  Admits namespaces gateway routeNs pr l ∧ Shares gateway pr routeHostnames l

end

variable {namespaces : NamespaceStore} {gateways : List Gateway} {gateway : Gateway}
  {routeNs : String} {pr : ParentReference} {routeHostnames : Option (List String)}

/-- The first check passes where some listener is selected. -/
theorem checkParent_eq_nil {listeners : List Listener} {l : Listener} (hl : l ∈ listeners)
    (hsel : selects pr l) : checkParent pr listeners = [] := by
  simp only [selects, Bool.and_eq_true] at hsel
  obtain ⟨hname, hport⟩ := hsel
  unfold checkParent
  cases hsec : pr.sectionName with
  | some sectionName =>
    rw [hsec, all_some] at hname
    exact if_pos (any_eq_true.2 ⟨l, hl, by rw [hname, hport]; rfl⟩)
  | none =>
    cases hp : pr.port with
    | some port =>
      rw [hp, all_some] at hport
      exact if_pos (any_eq_true.2 ⟨l, hl, hport⟩)
    | none => rfl

/-- **What the code accepts**: one listener for the namespace, and one for the
hostname. -/
theorem validateParentRefAccepted_eq_nil_iff (hkind : pr.isGateway)
    (hgw : lookupGateway gateways (pr.ns.getD routeNs) pr.name = some gateway) :
    validateParentRefAccepted namespaces gateways routeNs pr routeHostnames = [] ↔
      (∃ l, Admits namespaces gateway routeNs pr l) ∧ ∃ l, Shares gateway pr routeHostnames l := by
  simp only [validateParentRefAccepted, hkind, hgw, Bool.not_true, Bool.false_eq_true,
    if_false]
  have hallowed : ((gateway.listenerList.filter (selects pr)).any fun l =>
      listenerAllowsRouteNamespace namespaces l.allowedRoutes routeNs (pr.ns.getD routeNs)) ↔
      ∃ l, Admits namespaces gateway routeNs pr l := by
    simp only [List.any_eq_true, List.mem_filter, Admits, and_assoc]
  constructor
  · intro h
    split at h
    · cases h
    · split at h
      · cases h
      · next hns =>
        have hadmits := hallowed.1 (by simpa using hns)
        refine ⟨hadmits, ?_⟩
        obtain ⟨l, hl, hsel, -⟩ := hadmits
        cases routeHostnames with
        | none => exact ⟨l, hl, hsel, .inl rfl⟩
        | some routeHs =>
          simp only [List.isEmpty_iff, ite_eq_right_iff, reduceCtorEq, imp_false,
            Bool.and_eq_true, Bool.not_eq_true', not_and, ← Bool.not_eq_true] at h
          by_cases hempty : routeHs = []
          · exact ⟨l, hl, hsel, .inl hempty⟩
          · obtain ⟨l', hl', hmatch⟩ := List.any_eq_true.1 (not_not.1 (h hempty))
            obtain ⟨hmem, hsel'⟩ := List.mem_filter.1 hl'
            exact ⟨l', hmem, hsel', .inr hmatch⟩
  · rintro ⟨⟨l, hadmits⟩, l', hl', hsel', hshares⟩
    rw [checkParent_eq_nil hl' hsel']
    rw [hallowed.2 ⟨l, hadmits⟩]
    cases routeHostnames with
    | none => rfl
    | some routeHs =>
      simp only [Bool.not_true, Bool.false_eq_true, if_false, ite_eq_right_iff, reduceCtorEq,
        imp_false, Bool.and_eq_true, Bool.not_eq_true', not_and, Bool.not_eq_false,
        List.any_eq_true, List.mem_filter]
      intro hempty
      rcases hshares with h | h
      · simp [Option.getD_some.symm.trans h] at hempty
      · exact ⟨l', ⟨hl', hsel'⟩, h⟩

/-- **When acceptance means that a listener takes the route.** For every
Gateway in the registry, every parentRef to it and every route, the parent is
accepted exactly if one listener takes the route, unless two listeners do one
half each and none does both. -/
theorem accepted_iff_takes_iff (hkind : pr.isGateway = true)
    (hgateway : lookupGateway gateways (pr.ns.getD routeNs) pr.name = some gateway) :
    (validateParentRefAccepted namespaces gateways routeNs pr routeHostnames = [] ↔
        ∃ l, Takes namespaces gateway routeNs pr routeHostnames l) ↔
      ((∃ l, Admits namespaces gateway routeNs pr l) → (∃ l, Shares gateway pr routeHostnames l) →
        ∃ l, Admits namespaces gateway routeNs pr l ∧ Shares gateway pr routeHostnames l) := by
  rw [validateParentRefAccepted_eq_nil_iff hkind hgateway]
  constructor
  · intro h hadmits hshares
    exact h.1 ⟨hadmits, hshares⟩
  · intro h
    exact ⟨fun ⟨hadmits, hshares⟩ => h hadmits hshares,
      fun ⟨l, hadmits, hshares⟩ => ⟨⟨l, hadmits⟩, l, hshares⟩⟩

/-- A Gateway with a listener open to every namespace and one only for its
own. -/
def twoListeners : Gateway where
  ns := some "edge"
  name := some "public"
  gatewayClassName := "edgion"
  listeners := some
    [⟨"open", some "shop.example.com", 80, "HTTP", none, some ⟨some ⟨some "All", none⟩, none⟩⟩,
      ⟨"own", some "admin.example.com", 80, "HTTP", none, none⟩]
  status := none

/-- A parentRef to the Gateway from elsewhere. -/
def toPublic (sectionName : Option String) : ParentReference :=
  ⟨none, none, some "edge", "public", sectionName, none⟩

/-- For a parentRef that names the open listener, acceptance is right. -/
theorem accepted_iff_takes_iff_open :
    lookupGateway [twoListeners] "edge" "public" = some twoListeners ∧
    (validateParentRefAccepted (fun _ => none) [twoListeners] "team" (toPublic (some "open"))
        (some ["shop.example.com"]) = [] ↔
      ∃ l, Takes (fun _ => none) twoListeners "team" (toPublic (some "open"))
        (some ["shop.example.com"]) l) := by
  refine ⟨rfl, (accepted_iff_takes_iff rfl rfl).2 ?_⟩
  rintro ⟨l, hadmits⟩ -
  refine ⟨l, hadmits, hadmits.1, hadmits.2.1, .inr ?_⟩
  obtain ⟨hl, hsel, -⟩ := hadmits
  simp only [Gateway.listenerList, twoListeners, getD_some, mem_cons, not_mem_nil, or_false] at hl
  rcases hl with rfl | rfl
  · decide +kernel
  · exact absurd hsel (by decide +kernel)

/-- **Accepted by two halves.** A route of another namespace for
`admin.example.com` is accepted: one listener admits its namespace and the
other has its hostname. No listener would take it. -/
theorem accepted_not_takes : lookupGateway [twoListeners] "edge" "public" = some twoListeners ∧
    validateParentRefAccepted (fun _ => none) [twoListeners] "team" (toPublic none)
      (some ["admin.example.com"]) = [] ∧
    ¬ ∃ l, Takes (fun _ => none) twoListeners "team" (toPublic none)
      (some ["admin.example.com"]) l := by
  refine ⟨rfl, by decide +kernel, ?_⟩
  rintro ⟨l, ⟨hl, -, hallows⟩, -, -, hshares⟩
  simp only [Gateway.listenerList, twoListeners, getD_some, mem_cons, not_mem_nil, or_false] at hl
  rcases hl with rfl | rfl
  · exact absurd hshares (by decide +kernel)
  · exact absurd hallows (by decide +kernel)

end Edgion.GatewayApi
