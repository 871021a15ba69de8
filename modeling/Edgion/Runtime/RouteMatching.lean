import Edgion.Runtime.Isolation
import Mathlib.Data.Set.Finite.Basic

/-!
# Gateway runtime — which parent lets a route serve a request

A route is attached to Gateways by its parentRefs, and a request comes in
with the Gateway/listener pairs of its port. `check_gateway_listener_match`
looks for a parentRef and a pair that agree and makes its checks on the
listener the pair names. It looks the listener up in the configuration
store, and every check is made on what the lookup returned: a pair whose
listener the store does not have passes them all.
-/

namespace Edgion.Runtime

open Text Hostname List Option GatewayConfigStore

/-! ## The model -/

variable (allowed : AllowedRoutes)

/-- The namespace part of `check_allowed_routes`. The controller has
evaluated a selector, so it is let through here. -/
def allowsNamespace (routeNamespace gatewayNamespace : String) : Bool :=
  let from_ := (allowed.namespaces.bind RouteNamespaces.from_).getD "Same"
  if from_ = "All" then true
  else if from_ = "Same" then routeNamespace == gatewayNamespace
  else if from_ = "Selector" then true
  else false

/-- The kind part of `check_allowed_routes`. -/
def allowsKind (routeKind : String) : Bool :=
  match allowed.kinds with
  | some kinds => kinds.isEmpty || kinds.any fun k => eqIgnoreAsciiCase k.kind routeKind
  | none => true

def checkAllowedRoutes (allowedRoutes : Option AllowedRoutes)
    (routeNamespace routeKind gatewayNamespace : String) : Bool :=
  match allowedRoutes with
  | none => routeNamespace == gatewayNamespace
  | some allowed =>
    allowsNamespace allowed routeNamespace gatewayNamespace && allowsKind allowed routeKind

/-- What a request and a route bring to the check. -/
structure RouteRequest where
  requestHostname : String
  routeNs : String
  routeKind : String
deriving DecidableEq, Repr

variable (store : GatewayConfigStore) (req : RouteRequest)

/-- The checks on a listener that was looked up. -/
def listenerPasses (gi : GatewayInfo) (config : ListenerConfig) : Bool :=
  config.takes req.requestHostname && !((store.gateways gi.gatewayKey).any fun gwConfig =>
      gwConfig.hasMoreSpecificListener req.requestHostname config.hostname config.port) &&
    checkAllowedRoutes config.allowedRoutes req.routeNs req.routeKind gi.namespaceStr

/-- The port check, made when both ports are there. -/
def portDiffers (parentPort : Option ℤ) (listenerConfig : Option ListenerConfig) : Bool :=
  match parentPort, listenerConfig with
  | some parentPort, some config => config.port != parentPort
  | _, _ => false

/-- The body of the inner loop of `check_gateway_listener_match`: `none`
goes on with the next pair. -/
def checkPair (pr : ParentReference) (gi : GatewayInfo) : Option GatewayInfo :=
  let parentNs := pr.ns.getD req.routeNs
  if parentNs ≠ gi.namespaceStr ∨ pr.name ≠ gi.name then none
  else
    let listenerConfig := store.getListenerConfig gi
    if portDiffers pr.port listenerConfig then none
    else
      match pr.sectionName, gi.listenerName with
      | some sectionName, some listenerName =>
        if sectionName ≠ listenerName then none
        else if listenerConfig.all (listenerPasses store req gi) then some gi else none
      | some sectionName, none =>
        if store.hasListener parentNs pr.name sectionName then some gi else none
      | none, _ => if listenerConfig.all (listenerPasses store req gi) then some gi else none

def checkGatewayListenerMatch (parentRefs : List ParentReference)
    (gatewayInfos : List GatewayInfo) (req : RouteRequest) : Option GatewayInfo :=
  parentRefs.findSome? fun pr => gatewayInfos.findSome? (checkPair store req pr)

/-! ## What a match is for -/

/-- A parentRef names the Gateway of a pair. -/
def Names (pr : ParentReference) (gi : GatewayInfo) : Prop :=
  pr.ns.getD req.routeNs = gi.namespaceStr ∧ pr.name = gi.name

/-- **A listener of the pair's Gateway admits the route and the request**
through a parentRef. -/
structure Admitted (store : GatewayConfigStore) (req : RouteRequest) (pr : ParentReference)
    (gi : GatewayInfo) (config : GatewayListenerConfig) (c : ListenerConfig) : Prop where
  gateway : store.gateways gi.gatewayKey = some config
  listener : c ∈ config.listeners
  section_ : ∀ s ∈ pr.sectionName, c.name = s
  port : ∀ p ∈ pr.port, c.port = p
  host : c.takes req.requestHostname = true
  /-- No listener on its port that takes the host is more specific. -/
  isolated : ∀ c' ∈ config.listeners, c'.port = c.port → c'.takes req.requestHostname = true →
    specificity c'.hostname ≤ specificity c.hostname
  allowed : checkAllowedRoutes c.allowedRoutes req.routeNs req.routeKind gi.namespaceStr = true

variable {store : GatewayConfigStore} {req : RouteRequest} {pr : ParentReference}
  {gi gi' : GatewayInfo} {config : GatewayListenerConfig} {c : ListenerConfig}

/-! ## One pair -/

/-- A pair that passes is returned itself, and the parentRef names it. -/
theorem names_of_checkPair (h : checkPair store req pr gi = some gi') :
    gi' = gi ∧ Names req pr gi := by
  unfold checkPair at h
  by_cases hnames : pr.ns.getD req.routeNs ≠ gi.namespaceStr ∨ pr.name ≠ gi.name
  · simp [hnames] at h
  · have hsame : Names req pr gi := by simpa [Names, not_or] using hnames
    refine ⟨?_, hsame⟩
    simp only [if_neg hnames] at h
    repeat' split at h
    all_goals simp_all

open GatewayListenerConfig

/-- What `get_listener_config` finds is a listener of the Gateway, under
the name the pair carries. -/
theorem getListenerConfig_eq_some (h : store.getListenerConfig gi = some c) :
    gi.listenerName = some c.name ∧
      ∃ config, store.gateways gi.gatewayKey = some config ∧ c ∈ config.listeners := by
  obtain ⟨name, hname, hrest⟩ := bind_eq_some_iff.1 h
  obtain ⟨config, hcfg, hget⟩ := bind_eq_some_iff.1 hrest
  rw [hname, name_of_getListener hget]
  exact ⟨rfl, config, hcfg, mem_of_getListener hget⟩

/-- **A pair whose listener was found passes only if the listener admits
the route.** -/
theorem admitted_of_checkPair (hc : store.getListenerConfig gi = some c)
    (h : checkPair store req pr gi = some gi') : ∃ config, Admitted store req pr gi config c := by
  obtain ⟨hname, config, hgw, hin⟩ := getListenerConfig_eq_some hc
  obtain ⟨-, hnames⟩ := names_of_checkPair h
  unfold checkPair at h
  have hsame : ¬ (pr.ns.getD req.routeNs ≠ gi.namespaceStr ∨ pr.name ≠ gi.name) := by
    simp [hnames.1, hnames.2]
  simp only [if_neg hsame, hc, hname, all_some] at h
  have hdiffers : portDiffers pr.port (some c) = false := by
    by_contra hd
    simp [hd] at h
  rw [hdiffers, if_neg Bool.false_ne_true] at h
  have hport : ∀ p ∈ pr.port, c.port = p := by
    intro p hp
    rw [mem_def.1 hp] at hdiffers
    simpa [portDiffers] using hdiffers
  have hrest : (∀ s ∈ pr.sectionName, c.name = s) ∧ listenerPasses store req gi c := by
    cases hs : pr.sectionName with
    | none =>
      simp only [hs, ite_none_right_eq_some] at h
      exact ⟨by simp, h.1⟩
    | some sectionName =>
      simp only [hs, ne_eq, ite_not, ite_none_right_eq_some] at h
      exact ⟨by simpa using h.1.symm, h.2.1⟩
  obtain ⟨hsec, hpass⟩ := hrest
  unfold listenerPasses at hpass
  rw [Bool.and_eq_true, Bool.and_eq_true, hgw, any_some, Bool.not_eq_true',
    ← Bool.not_eq_true, hasMoreSpecificListener_iff] at hpass
  obtain ⟨⟨htakes, hisolated⟩, hallowed⟩ := hpass
  refine ⟨config, hgw, hin, hsec, hport, htakes, fun c' hc' hp ht => ?_, hallowed⟩
  by_contra hlt
  exact hisolated ⟨c', hc', hp, ht, not_le.1 hlt⟩

/-- A pair whose listener was not found passes for a parentRef that names
its Gateway and no section. -/
theorem checkPair_of_missing (hc : store.getListenerConfig gi = none) (hnames : Names req pr gi)
    (hsec : pr.sectionName = none) : checkPair store req pr gi = some gi := by
  unfold checkPair
  have hsame : ¬ (pr.ns.getD req.routeNs ≠ gi.namespaceStr ∨ pr.name ≠ gi.name) := by
    simp [hnames.1, hnames.2]
  simp only [if_neg hsame, hc, hsec, all_none]
  cases pr.port <;> rfl

/-! ## A match -/

/-- **A match is admitted** when, whatever the route and the request, a
pair is returned only if some parentRef names its Gateway and a listener of
that Gateway admits the route through it. -/
def MatchesAdmitted (store : GatewayConfigStore) (gatewayInfos : List GatewayInfo) : Prop :=
  ∀ parentRefs req gi, checkGatewayListenerMatch store parentRefs gatewayInfos req = some gi →
    ∃ pr ∈ parentRefs, Names req pr gi ∧ ∃ config c, Admitted store req pr gi config c

theorem checkGatewayListenerMatch_eq_some {parentRefs : List ParentReference}
    {gatewayInfos : List GatewayInfo}
    (h : checkGatewayListenerMatch store parentRefs gatewayInfos req = some gi) :
    gi ∈ gatewayInfos ∧ ∃ pr ∈ parentRefs, checkPair store req pr gi = some gi := by
  obtain ⟨pr, hpr, hinner⟩ := exists_of_findSome?_eq_some h
  obtain ⟨gi0, hgi0, hpair⟩ := exists_of_findSome?_eq_some hinner
  obtain ⟨rfl, -⟩ := names_of_checkPair hpair
  exact ⟨hgi0, pr, hpr, hpair⟩

/-- A port that none of the listeners has. -/
theorem exists_free_port (cs : List ListenerConfig) : ∃ p : ℤ, ∀ c ∈ cs, c.port ≠ p := by
  obtain ⟨p, hp⟩ := (cs.map ListenerConfig.port).toFinset.finite_toSet.exists_notMem
  exact ⟨p, fun c hc e => hp (by simpa using ⟨c, hc, e⟩)⟩

/-- **When a match can be trusted**: exactly when the store has the
listener of every pair it is given. -/
theorem match_admitted_iff (store : GatewayConfigStore) (gatewayInfos : List GatewayInfo) :
    MatchesAdmitted store gatewayInfos ↔
      ∀ gi ∈ gatewayInfos, (store.getListenerConfig gi).isSome := by
  constructor
  · intro hall gi hgi
    by_contra hmissing
    rw [Bool.not_eq_true, isSome_eq_false_iff, isNone_iff_eq_none] at hmissing
    -- a parentRef with a port no listener of the Gateway has
    obtain ⟨p, hp⟩ := exists_free_port
      ((store.gateways gi.gatewayKey).elim [] listeners)
    let pr : ParentReference :=
      { group := none, kind := none, ns := some gi.namespaceStr, name := gi.name
        sectionName := none, port := some p }
    let req : RouteRequest := ⟨"", "", ""⟩
    have hpair : checkPair store req pr gi = some gi := checkPair_of_missing hmissing ⟨rfl, rfl⟩ rfl
    have hsome : (checkGatewayListenerMatch store [pr] gatewayInfos req).isSome := by
      rw [checkGatewayListenerMatch, findSome?_isSome_iff]
      refine ⟨pr, mem_singleton_self pr, ?_⟩
      rw [findSome?_isSome_iff]
      exact ⟨gi, hgi, by rw [hpair]; rfl⟩
    obtain ⟨gi', hmatch⟩ := isSome_iff_exists.1 hsome
    obtain ⟨pr', hpr', hnames, config, c, hadm⟩ := hall [pr] req gi' hmatch
    obtain rfl := mem_singleton.1 hpr'
    have hkey : gi'.gatewayKey = gi.gatewayKey := by
      rw [gi'.gatewayKey_eq, gi.gatewayKey_eq, ← hnames.1, ← hnames.2]
      rfl
    have hgw := hadm.gateway
    rw [hkey] at hgw
    rw [hgw] at hp
    exact hp c hadm.listener (hadm.port p rfl)
  · intro hfound parentRefs req gi hmatch
    obtain ⟨hgi, pr, hpr, hpair⟩ := checkGatewayListenerMatch_eq_some hmatch
    obtain ⟨c, hc⟩ := isSome_iff_exists.1 (hfound gi hgi)
    obtain ⟨config, hadm⟩ := admitted_of_checkPair hc hpair
    exact ⟨pr, hpr, (names_of_checkPair hpair).2, config, c, hadm⟩

/-- A Gateway the store has just dropped, while the pairs of its port still
name it: a route of another namespace, for another port, passes. -/
theorem match_of_removed_gateway :
    let store := (fullSet [threeListeners]).removeGateway
      "default" "gw"
    let pr : ParentReference := ⟨none, none, some "default", "gw", some "api", some 8443⟩
    let gi : GatewayInfo := ⟨some "default", "gw", some "api"⟩
    let req : RouteRequest := ⟨"other.org", "team", "HTTPRoute"⟩
    checkGatewayListenerMatch store [pr] [gi] req = some gi ∧
      ¬ ∃ pr' ∈ [pr], Names req pr' gi ∧ ∃ config c, Admitted store req pr' gi config c := by
  refine ⟨by decide +kernel, ?_⟩
  rintro ⟨pr', -, -, config, c, hadm⟩
  have hgone : ((fullSet [threeListeners]).removeGateway
    "default" "gw").gateways "default/gw" = none := by decide +kernel
  exact absurd (hgone.symm.trans hadm.gateway) (by simp)

end Edgion.Runtime
