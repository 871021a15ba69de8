import Edgion.GatewayApi.AcceptedParents
import Edgion.Http.MatchUnit

/-!
# gRPC routes — match units

A rule of a GRPCRoute is matched by any of its match items. `GrpcRouteRuleUnit` is one rule with
one of them. The routes of all hosts share one engine, so `deep_match` checks the hostname besides
the listener and the headers. The `regex` crate is the parameter it is for HTTP routes.
-/

namespace Edgion.Grpc

open Common Hostname Edgion.Runtime Edgion.Text List
open Http (RegexLib RequestHeader Request)
open GatewayApi (RouteParentStatus filterAcceptedParentRefs)

universe u

/-! ## The resources -/

/-- `GRPCMethodMatch`. Its type is not read. -/
structure GRPCMethodMatch where
  service : Option String
  method : Option String
deriving DecidableEq, Repr

structure GRPCHeaderMatch where
  matchType : Option String
  name : String
  value : String
deriving DecidableEq, Repr

structure GRPCRouteMatch where
  method : Option GRPCMethodMatch
  headers : Option (List GRPCHeaderMatch)
deriving DecidableEq, Repr

/-- `GRPCRouteRule`: its match items, and what a request that matched is handled with. -/
structure GRPCRouteRule (Actions : Type u) where
  matchItems : Option (List GRPCRouteMatch)
  actions : Actions
deriving DecidableEq, Repr

structure GRPCRoute (Actions : Type u) where
  ns : Option String
  name : Option String
  parentRefs : Option (List ParentReference)
  hostnames : Option (List String)
  resolvedHostnames : Option (List String)
  rules : Option (List (GRPCRouteRule Actions))
  status : Option (List RouteParentStatus)
  syncVersion : ℕ
deriving DecidableEq, Repr

structure GrpcRouteInfo where
  parentRefs : Option (List ParentReference)
  effectiveHostnames : List String
deriving DecidableEq, Repr

structure GrpcMatchInfo (R : RegexLib) where
  routeNs : String
  routeName : String
  ruleId : ℕ
  matchId : ℕ
  sv : ℕ
  matched : GRPCRouteMatch
  compiledHeaderRegexes : List (Option R.Regex)

structure GrpcRouteRuleUnit (R : RegexLib) (Actions : Type u) where
  resourceKey : String
  matchedInfo : GrpcMatchInfo R
  rule : GRPCRouteRule Actions
  routeInfo : GrpcRouteInfo

/-- The errors of `EdError` that matching ends in. -/
inductive EdError where
  | routeNotFound
  | routeMatchError (message : String)
  | invalidGrpcPath (path : String)
deriving DecidableEq, Repr

/-! ## Units -/

variable {R : RegexLib} {Actions : Type u}

/-- `CATCH_ALL_HOSTNAME`. -/
def catchAllHostname : String := "*"

def getEffectiveHostnames (route : GRPCRoute Actions) : List String :=
  match route.resolvedHostnames.getD [] with
  | [] =>
    match route.hostnames.getD [] with
    | [] => [catchAllHostname]
    | hostnames => hostnames
  | resolved => resolved

variable (R) in
def GrpcMatchInfo.new (routeNs routeName : String) (ruleId matchId : ℕ) (matched : GRPCRouteMatch)
    (sv : ℕ) : GrpcMatchInfo R where
  routeNs := routeNs
  routeName := routeName
  ruleId := ruleId
  matchId := matchId
  sv := sv
  matched := matched
  compiledHeaderRegexes := (matched.headers.getD []).map fun headerMatch =>
    if headerMatch.matchType = some "RegularExpression" then (R.new headerMatch.value).toOption
    else none

variable (R) in
def parseRouteToUnits (resourceKey : String) (route : GRPCRoute Actions) :
    List (GrpcRouteRuleUnit R Actions) :=
  let routeNamespace := route.ns.getD "default"
  let routeName := route.name.getD ""
  match filterAcceptedParentRefs route.parentRefs route.status (some routeNamespace) with
  | none => []
  | some acceptedRefs =>
    let routeInfo : GrpcRouteInfo := ⟨some acceptedRefs, getEffectiveHostnames route⟩
    (route.rules.getD []).zipIdx.flatMap fun (rule, ruleId) =>
      (rule.matchItems.getD []).zipIdx.map fun (matchItem, matchId) =>
        ⟨resourceKey, .new R routeNamespace routeName ruleId matchId matchItem route.syncVersion,
          rule, routeInfo⟩

variable (R) in
/-- The units of all routes, as `build_engine_from_all_units` collects them. -/
def allUnits (routes : AList fun _ : String => GRPCRoute Actions) :
    List (GrpcRouteRuleUnit R Actions) :=
  routes.entries.flatMap fun e => parseRouteToUnits R e.1 e.2

/-! ## Matching -/

def matchHeader (reqHeader : RequestHeader) (headerMatch : GRPCHeaderMatch)
    (compiledRegex : Option R.Regex) : Except EdError Bool :=
  match reqHeader.headers headerMatch.name with
  | none => .ok false
  | some value =>
    let headerValue := value.getD ""
    if headerMatch.matchType.getD "Exact" = "RegularExpression" then
      match compiledRegex with
      | some regex => .ok (R.isMatch regex headerValue)
      | none =>
        match R.new headerMatch.value with
        | .error e => .error (.routeMatchError ("Invalid regex: " ++ e))
        | .ok re => .ok (R.isMatch re headerValue)
    else .ok (headerValue == headerMatch.value)

/-- The loop of `deep_match` over the headers, each with its compiled pattern. -/
def matchHeaders (reqHeader : RequestHeader) :
    List (GRPCHeaderMatch × Option R.Regex) → Except EdError Bool
  | [] => .ok true
  | (headerMatch, compiledRegex) :: rest =>
    match matchHeader reqHeader headerMatch compiledRegex with
    | .error e => .error e
    | .ok false => .ok false
    | .ok true => matchHeaders reqHeader rest

namespace GrpcRouteRuleUnit

variable (unit : GrpcRouteRuleUnit R Actions)

def matchesHostname (requestHostname : String) : Bool :=
  let hostnames := unit.routeInfo.effectiveHostnames
  hostnames.isEmpty || hostnames == [catchAllHostname] || hostnames.any fun h =>
    if startsWith h "*." then hostnameMatchesListener requestHostname h
    else eqIgnoreAsciiCase requestHostname h

/-- The headers of the unit's match item, each with its compiled pattern. -/
def headers (unit : GrpcRouteRuleUnit R Actions) : List (GRPCHeaderMatch × Option R.Regex) :=
  (unit.matchedInfo.matched.headers.getD []).zipIdx.map fun (headerMatch, idx) =>
    (headerMatch, (unit.matchedInfo.compiledHeaderRegexes[idx]?).join)

variable (request : Request)

/-- The check of the listener. -/
def listenerMatch : Option GatewayInfo :=
  unit.routeInfo.parentRefs.bind fun parentRefs =>
    checkGatewayListenerMatch request.store parentRefs request.gatewayInfos
      ⟨request.hostname, unit.matchedInfo.routeNs, "GRPCRoute"⟩

def deepMatch : Except EdError (Option GatewayInfo) :=
  if !unit.matchesHostname request.hostname then .ok none
  else
    match unit.listenerMatch request with
    | none => .ok none
    | some matchedGi =>
      match matchHeaders request.reqHeader unit.headers with
      | .error e => .error e
      | .ok false => .ok none
      | .ok true => .ok (some matchedGi)

end GrpcRouteRuleUnit

/-! ## What the checks are for -/

variable (R) in
/-- **A header check passes**: the request has the header, with the value or with one that the
pattern matches. A value that is no text counts as an empty one. -/
def HeaderPasses (reqHeader : RequestHeader) (headerMatch : GRPCHeaderMatch) : Prop :=
  ∃ value, reqHeader.headers headerMatch.name = some value ∧
    if headerMatch.matchType = some "RegularExpression" then
      ∃ regex, R.new headerMatch.value = .ok regex ∧ R.isMatch regex (value.getD "") = true
    else value.getD "" = headerMatch.value

variable (R) in
/-- The patterns of a match item compile. -/
def Compiles (matched : GRPCRouteMatch) : Prop :=
  ∀ headerMatch ∈ matched.headers.getD [], headerMatch.matchType = some "RegularExpression" →
    ∃ regex, R.new headerMatch.value = .ok regex

variable (unit : GrpcRouteRuleUnit R Actions)

/-- **The unit lets the request through** to a listener: hostname, listener and headers pass. -/
def GrpcRouteRuleUnit.Admits (request : Request) : Prop :=
  unit.matchesHostname request.hostname = true ∧ (unit.listenerMatch request).isSome ∧
    ∀ headerMatch ∈ unit.matchedInfo.matched.headers.getD [],
      HeaderPasses R request.reqHeader headerMatch

/-- The patterns were compiled when the unit was made. -/
def GrpcRouteRuleUnit.Compiled : Prop :=
  unit.matchedInfo.compiledHeaderRegexes = (GrpcMatchInfo.new R unit.matchedInfo.routeNs
    unit.matchedInfo.routeName unit.matchedInfo.ruleId unit.matchedInfo.matchId
    unit.matchedInfo.matched unit.matchedInfo.sv).compiledHeaderRegexes

variable {unit : GrpcRouteRuleUnit R Actions}

theorem compiled_of_mem_parseRouteToUnits {resourceKey : String} {route : GRPCRoute Actions} (h : unit ∈ parseRouteToUnits R resourceKey route) :
    unit.Compiled := by
  unfold parseRouteToUnits at h
  dsimp only at h
  split at h
  · cases h
  · obtain ⟨⟨rule, ruleId⟩, -, hunit⟩ := mem_flatMap.1 h
    obtain ⟨⟨matchItem, matchId⟩, -, rfl⟩ := mem_map.1 hunit
    rfl

variable (R) in
/-- The compiled pattern of a header, if it has one. -/
def compileHeader (headerMatch : GRPCHeaderMatch) : Option R.Regex :=
  if headerMatch.matchType = some "RegularExpression" then (R.new headerMatch.value).toOption
  else none

variable (reqHeader : RequestHeader)

/-- One header whose pattern compiles. -/
theorem matchHeader_eq {headerMatch : GRPCHeaderMatch}
    (hcomp : headerMatch.matchType = some "RegularExpression" →
      ∃ regex, R.new headerMatch.value = .ok regex) :
    ∃ passes, matchHeader reqHeader headerMatch (compileHeader R headerMatch) = .ok passes ∧
      (passes ↔ HeaderPasses R reqHeader headerMatch) := by
  have htype : headerMatch.matchType.getD "Exact" = "RegularExpression" ↔
      headerMatch.matchType = some "RegularExpression" := by
    cases headerMatch.matchType <;> simp
  unfold matchHeader HeaderPasses compileHeader
  cases reqHeader.headers headerMatch.name with
  | none => exact ⟨false, rfl, by simp⟩
  | some value =>
    simp only [htype]
    by_cases hre : headerMatch.matchType = some "RegularExpression"
    · obtain ⟨regex, hnew⟩ := hcomp hre
      simp only [if_pos hre, hnew, Except.toOption]
      exact ⟨_, rfl, by simp⟩
    · simp only [if_neg hre]
      exact ⟨_, rfl, by simp⟩

/-- The headers of a match item whose patterns compile. -/
theorem matchHeaders_eq (headerMatches : List GRPCHeaderMatch)
    (hcomp : ∀ headerMatch ∈ headerMatches, headerMatch.matchType = some "RegularExpression" →
      ∃ regex, R.new headerMatch.value = .ok regex) :
    ∃ passes, matchHeaders reqHeader (headerMatches.map fun headerMatch =>
        (headerMatch, compileHeader R headerMatch)) = .ok passes ∧
      (passes ↔ ∀ headerMatch ∈ headerMatches, HeaderPasses R reqHeader headerMatch) := by
  induction headerMatches with
  | nil => exact ⟨true, rfl, by simp⟩
  | cons headerMatch rest ih =>
    obtain ⟨one, hone, hiff⟩ := matchHeader_eq reqHeader (hcomp headerMatch mem_cons_self)
    obtain ⟨others, hothers, hiff'⟩ :=
      ih fun other hother => hcomp other (mem_cons_of_mem headerMatch hother)
    rw [map_cons, matchHeaders, hone]
    cases one with
    | false => exact ⟨false, rfl, by simpa using fun hpasses => absurd (hiff.2 hpasses) (by simp)⟩
    | true =>
      refine ⟨others, hothers, ?_⟩
      rw [hiff', forall_mem_cons]
      exact ⟨fun h => ⟨hiff.1 rfl, h⟩, fun h => h.2⟩

/-- The headers of a unit stand by their own compiled patterns. -/
theorem headers_of_compiled (h : unit.Compiled) :
    unit.headers = (unit.matchedInfo.matched.headers.getD []).map fun headerMatch =>
      (headerMatch, compileHeader R headerMatch) := by
  unfold GrpcRouteRuleUnit.headers
  rw [h]
  refine ext_getElem (by simp) fun i h1 h2 => ?_
  have hi : i < (unit.matchedInfo.matched.headers.getD []).length := by simpa using h1
  simp [GrpcMatchInfo.new, compileHeader, hi]

/-- **`deep_match` makes the checks**, and does not fail where the patterns compile. -/
theorem deepMatch_eq (h : unit.Compiled)
    (hcomp : Compiles R unit.matchedInfo.matched) (request : Request) :
    ∃ found, unit.deepMatch request = .ok found ∧
      (∀ gi, found = some gi → unit.listenerMatch request = some gi) ∧
      (found ≠ none ↔ unit.Admits request) := by
  obtain ⟨passes, hpasses, hiff⟩ :=
    matchHeaders_eq request.reqHeader (unit.matchedInfo.matched.headers.getD []) hcomp
  unfold GrpcRouteRuleUnit.deepMatch GrpcRouteRuleUnit.Admits
  rw [headers_of_compiled h, hpasses]
  by_cases hhost : unit.matchesHostname request.hostname = true
  · cases hlistener : unit.listenerMatch request with
    | none => exact ⟨none, by simp [hhost], by simp, by simp⟩
    | some gi =>
      cases passes with
      | false =>
        have hnot : ¬ ∀ headerMatch ∈ unit.matchedInfo.matched.headers.getD [],
          HeaderPasses R request.reqHeader headerMatch := fun hall => by cases hiff.2 hall
        exact ⟨none, by simp [hhost], by simp, by simpa [hhost] using hnot⟩
      | true => exact ⟨some gi, by simp [hhost], fun _ => id, by simpa [hhost] using hiff.1 rfl⟩
  · have hhost : unit.matchesHostname request.hostname = false := by simpa using hhost
    exact ⟨none, by simp [hhost], by simp, by simp [hhost]⟩

end Edgion.Grpc
