import Edgion.Common.OrderedLists
import Edgion.Grpc.MatchUnit

/-!
# gRPC routes — the match engine

The engine sorts the units into those with service and method, those with a service only, and those
with neither, and looks a request up in this order. Of those with neither it keeps the first, and a
unit with a method but no service it drops; both are logged. So a request is matched if and only if
one of the units that are kept lets it through, and then by one of the most specific
(`matchRoute_iff`). A unit without a method match is dropped as well, without a word, and a pattern
that does not compile ends the search: neither is among what the theorem is about.
-/

namespace Edgion.Grpc

open Common Edgion.Runtime Function
open Http (RegexLib Request)
open List Option

universe u

variable {R : RegexLib} {Actions : Type u}

/-! ## The engine -/

/-- `GrpcMatchEngine`. A key that is not in a table has no units. -/
structure GrpcMatchEngine (R : RegexLib) (Actions : Type u) where
  exactRoutes : String × String → List (GrpcRouteRuleUnit R Actions)
  serviceRoutes : String → List (GrpcRouteRuleUnit R Actions)
  catchAllRoute : Option (GrpcRouteRuleUnit R Actions)

namespace GrpcMatchEngine

/-- The tables `new` starts with. -/
def empty : GrpcMatchEngine R Actions := ⟨fun _ => [], fun _ => [], none⟩

/-- One turn of the loop of `new`. -/
def push (engine : GrpcMatchEngine R Actions) (route : GrpcRouteRuleUnit R Actions) :
    GrpcMatchEngine R Actions :=
  match route.matchedInfo.matched.method with
  | some ⟨some service, some method⟩ =>
    { engine with
      exactRoutes := update engine.exactRoutes (service, method)
        (engine.exactRoutes (service, method) ++ [route]) }
  | some ⟨some service, none⟩ =>
    { engine with
      serviceRoutes := update engine.serviceRoutes service
        (engine.serviceRoutes service ++ [route]) }
  | some ⟨none, none⟩ => { engine with catchAllRoute := engine.catchAllRoute.or (some route) }
  -- invalid: a method without a service
  | some ⟨none, some _⟩ => engine
  | none => engine

def new (routes : List (GrpcRouteRuleUnit R Actions)) : GrpcMatchEngine R Actions :=
  routes.foldl push empty

end GrpcMatchEngine

def parseGrpcPath (path : String) : Except EdError (String × String) :=
  match (path.toList.dropWhile (· == '/')).splitOn '/' with
  | [service, method] =>
    if service.isEmpty || method.isEmpty then .error (.invalidGrpcPath path)
    else .ok (String.ofList service, String.ofList method)
  | _ => .error (.invalidGrpcPath path)

/-- A loop over units: the first that lets the request through. -/
def firstMatch (request : Request) : List (GrpcRouteRuleUnit R Actions) →
      Except EdError (Option (GrpcRouteRuleUnit R Actions × GatewayInfo))
  | [] => .ok none
  | unit :: rest =>
    match unit.deepMatch request with
    | .error e => .error e
    | .ok (some matchedGi) => .ok (some (unit, matchedGi))
    | .ok none => firstMatch request rest

def GrpcMatchEngine.matchRoute (engine : GrpcMatchEngine R Actions) (request : Request) :
    Except EdError (GrpcRouteRuleUnit R Actions × GatewayInfo) :=
  match parseGrpcPath request.reqHeader.path with
  | .error e => .error e
  | .ok (service, method) =>
    match firstMatch request (engine.exactRoutes (service, method)) with
    | .error e => .error e
    | .ok (some found) => .ok found
    | .ok none =>
      match firstMatch request (engine.serviceRoutes service) with
      | .error e => .error e
      | .ok (some found) => .ok found
      | .ok none =>
        match firstMatch request engine.catchAllRoute.toList with
        | .error e => .error e
        | .ok (some found) => .ok found
        | .ok none => .error .routeNotFound

/-! ## What a match is for -/

namespace GrpcRouteRuleUnit

variable (unit : GrpcRouteRuleUnit R Actions)

/-- Service and method are those of the unit, as far as it gives them. -/
def Fits (service method : String) : Prop :=
  ∀ methodMatch, unit.matchedInfo.matched.method = some methodMatch →
    (∀ s, methodMatch.service = some s → s = service) ∧
      ∀ m, methodMatch.method = some m → m = method

/-- **The unit accepts a request** for a method of a service. -/
def Accepts (service method : String) (request : Request) :
    Prop :=
  unit.Fits service method ∧ unit.Admits request

/-- Neither service nor method is given. -/
def isCatchAll : Bool :=
  unit.matchedInfo.matched.method = some ⟨none, none⟩

/-- A method is given without a service. -/
def isInvalid : Bool :=
  unit.matchedInfo.matched.method.any fun methodMatch =>
    methodMatch.service.isNone && methodMatch.method.isSome

/-- How specific a unit is: service and method, service only, or less. -/
def rank : ℕ :=
  match unit.matchedInfo.matched.method with
  | some ⟨some _, some _⟩ => 0
  | some ⟨some _, none⟩ => 1
  | _ => 2

/-- **The units that are kept**: not the invalid ones, and of those with neither service nor method
the first. -/
def Kept (units : List (GrpcRouteRuleUnit R Actions)) (unit : GrpcRouteRuleUnit R Actions) : Prop :=
  unit ∈ units ∧ unit.isInvalid = false ∧
    (unit.isCatchAll = true → units.find? isCatchAll = some unit)

end GrpcRouteRuleUnit

/-! ## The tables -/

section Tables

open GrpcMatchEngine GrpcRouteRuleUnit

variable (units : List (GrpcRouteRuleUnit R Actions))

theorem exactRoutes_foldl (key : String × String) :
    ∀ engine : GrpcMatchEngine R Actions, (units.foldl push engine).exactRoutes key =
      engine.exactRoutes key ++ units.filter fun unit =>
        unit.matchedInfo.matched.method = some ⟨some key.1, some key.2⟩ := by
  induction units with
  | nil => simp
  | cons unit units ih =>
    intro engine
    rw [foldl_cons, ih, filter_cons]
    unfold push
    split
    next service method hmethod =>
      by_cases hkey : key = (service, method)
      · subst hkey
        simp [hmethod]
      · have hne : ¬ (service = key.1 ∧ method = key.2) := fun h => hkey (Prod.ext h.1.symm h.2.symm)
        simp [hmethod, update_of_ne hkey, hne]
    all_goals simp_all

theorem serviceRoutes_foldl (service : String) :
    ∀ engine : GrpcMatchEngine R Actions, (units.foldl push engine).serviceRoutes service =
      engine.serviceRoutes service ++ units.filter fun unit =>
        unit.matchedInfo.matched.method = some ⟨some service, none⟩ := by
  induction units with
  | nil => simp
  | cons unit units ih =>
    intro engine
    rw [foldl_cons, ih, filter_cons]
    unfold push
    split
    next => simp_all
    next service' hmethod =>
      by_cases hkey : service = service'
      · subst hkey
        simp [hmethod]
      · have hne : ¬ service' = service := fun h => hkey h.symm
        simp [hmethod, update_of_ne hkey, hne]
    all_goals simp_all

theorem catchAllRoute_foldl :
    ∀ engine : GrpcMatchEngine R Actions, (units.foldl push engine).catchAllRoute =
      engine.catchAllRoute.or (units.find? isCatchAll) := by
  induction units with
  | nil => simp
  | cons unit units ih =>
    intro engine
    rw [foldl_cons, ih, find?_cons]
    unfold push isCatchAll
    split
    all_goals simp_all

/-- **The units a request is looked up in**, in order. -/
def candidates (service method : String) : List (GrpcRouteRuleUnit R Actions) :=
  (new units).exactRoutes (service, method) ++ (new units).serviceRoutes service ++
    (new units).catchAllRoute.toList

/-- They are the units that are kept and fit. -/
theorem mem_candidates {service method : String} {unit : GrpcRouteRuleUnit R Actions} :
    unit ∈ candidates units service method ↔
      Kept units unit ∧ unit.matchedInfo.matched.method ≠ none ∧ unit.Fits service method := by
  unfold candidates new GrpcRouteRuleUnit.Kept
  rw [exactRoutes_foldl, serviceRoutes_foldl, catchAllRoute_foldl]
  simp only [empty, nil_append, none_or, mem_append, mem_filter, decide_eq_true_eq, mem_toList]
  have hfst : units.find? isCatchAll = some unit → unit ∈ units ∧ unit.isCatchAll = true :=
    fun h => ⟨mem_of_find?_eq_some h, find?_some h⟩
  unfold Fits isInvalid isCatchAll at *
  rcases hmethod : unit.matchedInfo.matched.method with _ | ⟨_ | s, _ | m⟩
  · simp_all
  · simp_all
  · simp_all
  · simp_all
  · simp_all

/-- The more specific ones come first. -/
theorem pairwise_candidates (service method : String) :
    (candidates units service method).Pairwise fun a b => a.rank ≤ b.rank := by
  unfold candidates new
  rw [exactRoutes_foldl, serviceRoutes_foldl, catchAllRoute_foldl]
  simp only [empty, nil_append, none_or]
  have hexact : ∀ unit ∈ units.filter (fun unit =>
      decide (unit.matchedInfo.matched.method = some ⟨some service, some method⟩)),
      unit.rank = 0 := by
    intro unit hunit
    have hmethod : unit.matchedInfo.matched.method = some ⟨some service, some method⟩ := by
      simpa using (mem_filter.1 hunit).2
    rw [rank, hmethod]
  have hsvc : ∀ unit ∈ units.filter (fun unit =>
      decide (unit.matchedInfo.matched.method = some ⟨some service, none⟩)), unit.rank = 1 := by
    intro unit hunit
    have hmethod : unit.matchedInfo.matched.method = some ⟨some service, none⟩ := by
      simpa using (mem_filter.1 hunit).2
    rw [rank, hmethod]
  have hcatchAll : ∀ unit ∈ (units.find? isCatchAll).toList, unit.rank = 2 := by
    intro unit hunit
    have hmethod : unit.matchedInfo.matched.method = some ⟨none, none⟩ := by
      simpa [isCatchAll] using find?_some (mem_toList.1 hunit)
    rw [rank, hmethod]
  rw [pairwise_append, pairwise_append]
  refine ⟨⟨?_, ?_, ?_⟩, ?_, ?_⟩
  · exact pairwise_of_forall_mem_list fun a ha b hb => by rw [hexact a ha, hexact b hb]
  · exact pairwise_of_forall_mem_list fun a ha b hb => by rw [hsvc a ha, hsvc b hb]
  · intro a ha b hb
    rw [hexact a ha, hsvc b hb]
    omega
  · exact pairwise_of_forall_mem_list fun a ha b hb => by
      rw [hcatchAll a ha, hcatchAll b hb]
  · intro a ha b hb
    rw [hcatchAll b hb]
    rcases mem_append.1 ha with ha | ha
    · rw [hexact a ha]
      omega
    · rw [hsvc a ha]
      omega

end Tables

/-! ## The search -/

/-- What a unit answers to a request, where its check does not fail. -/
def hit (request : Request) (unit : GrpcRouteRuleUnit R Actions) :
    Option (GrpcRouteRuleUnit R Actions × GatewayInfo) :=
  match unit.deepMatch request with
  | .ok (some matchedGi) => some (unit, matchedGi)
  | _ => none

variable {request : Request} {units : List (GrpcRouteRuleUnit R Actions)}

/-- A loop in which no check fails takes the first hit. -/
theorem firstMatch_eq (hok : ∀ unit ∈ units, ∃ found, unit.deepMatch request = .ok found) :
    firstMatch request units = .ok (units.findSome? (hit request)) := by
  induction units with
  | nil => rfl
  | cons unit units ih =>
    obtain ⟨found, hfound⟩ := hok unit mem_cons_self
    have htail := ih fun other hother => hok other (mem_cons_of_mem unit hother)
    rw [firstMatch, hfound, findSome?_cons, hit, hfound]
    cases found with
    | none => exact htail
    | some matchedGi => rfl

variable {method service : String}

open GrpcMatchEngine

/-- **The engine takes the first hit among the candidates.** -/
theorem matchRoute_eq (hpath : parseGrpcPath request.reqHeader.path = .ok (service, method))
    (hok : ∀ unit ∈ candidates units service method, ∃ found, unit.deepMatch request = .ok found) :
    (new units).matchRoute request =
      match (candidates units service method).findSome? (hit request) with
      | some found => .ok found
      | none => .error .routeNotFound := by
  unfold candidates at hok ⊢
  have hexact := firstMatch_eq fun unit hunit =>
    hok unit (mem_append_left _ (mem_append_left _ hunit))
  have hsvc := firstMatch_eq fun unit hunit =>
    hok unit (mem_append_left _ (mem_append_right _ hunit))
  have hcatchAll := firstMatch_eq fun unit hunit => hok unit (mem_append_right _ hunit)
  unfold matchRoute
  rw [hpath, findSome?_append, findSome?_append]
  dsimp only
  rw [hexact]
  cases ((new units).exactRoutes (service, method)).findSome? (hit request) with
  | some found => rfl
  | none =>
    dsimp only [none_or]
    rw [hsvc]
    cases ((new units).serviceRoutes service).findSome? (hit request) with
    | some found => rfl
    | none =>
      dsimp only [none_or]
      rw [hcatchAll]
      cases (new units).catchAllRoute.toList.findSome? (hit request) <;> rfl

/-- A path of a service and a method. -/
theorem parseGrpcPath_eq (hsvc : service ≠ "") (hmethod : method ≠ "")
    (hslash : '/' ∉ service.toList) (hslash' : '/' ∉ method.toList) :
    parseGrpcPath ("/" ++ service ++ "/" ++ method) = .ok (service, method) := by
  have hne : service.toList ≠ [] := fun h => hsvc (by simpa using h)
  have hne' : method.toList ≠ [] := fun h => hmethod (by simpa using h)
  have htrim : ("/" ++ service ++ "/" ++ method).toList.dropWhile (· == '/') =
      service.toList ++ '/' :: method.toList := by
    obtain ⟨c, cs, hcs⟩ := exists_cons_of_ne_nil hne
    have hc : c ≠ '/' := fun h => hslash (by rw [hcs, h]; exact mem_cons_self)
    simp [hcs, hc]
  have hsplit : (service.toList ++ '/' :: method.toList).splitOn '/' =
      [service.toList, method.toList] := by
    rw [splitOn_eq_splitOnP, splitOnP_append_cons _ _ (by simp),
      ← splitOn_eq_splitOnP, ← splitOn_eq_splitOnP, splitOn_eq_singleton hslash,
      splitOn_eq_singleton hslash']
    rfl
  unfold parseGrpcPath
  rw [htrim, hsplit]
  simp [hne, hne']

/-- **A request for a method of a service is matched if and only if one of the kept units accepts
it**, and then by one of the most specific, for the listener that its check found. This is for
routes each of whose matches has a method match and patterns that compile. -/
theorem matchRoute_iff (routes : AList fun _ : String => GRPCRoute Actions) (request : Request)
    {service method : String} (hservice : service ≠ "") (hmethod : method ≠ "")
    (hslash : '/' ∉ service.toList) (hslash' : '/' ∉ method.toList)
    (hpath : request.reqHeader.path = "/" ++ service ++ "/" ++ method)
    (hmethods : ∀ unit ∈ allUnits R routes, unit.matchedInfo.matched.method ≠ none)
    (hcompiles : ∀ unit ∈ allUnits R routes, Compiles R unit.matchedInfo.matched) :
    ((∃ found, (new (allUnits R routes)).matchRoute request = .ok found) ↔
      ∃ unit : GrpcRouteRuleUnit R Actions,
        unit.Kept (allUnits R routes) ∧ unit.Accepts service method request) ∧
    ∀ unit gi, (new (allUnits R routes)).matchRoute request = .ok (unit, gi) →
      unit.Kept (allUnits R routes) ∧ unit.Accepts service method request ∧
        unit.listenerMatch request = some gi ∧
        ∀ other : GrpcRouteRuleUnit R Actions, other.Kept (allUnits R routes) →
          other.Accepts service method request → unit.rank ≤ other.rank := by
  have hcandidates : ∀ unit, unit ∈ candidates (allUnits R routes) service method ↔
      unit.Kept (allUnits R routes) ∧ unit.Fits service method := by
    intro unit
    rw [mem_candidates]
    constructor
    · rintro ⟨hkept, -, hfits⟩
      exact ⟨hkept, hfits⟩
    · rintro ⟨hkept, hfits⟩
      exact ⟨hkept, hmethods unit hkept.1, hfits⟩
  -- the check of a unit does not fail, and it is what the unit lets through
  have hdeep : ∀ unit ∈ allUnits R routes, ∃ found, unit.deepMatch request = .ok found ∧
      (∀ gi, found = some gi → unit.listenerMatch request = some gi) ∧
      (found ≠ none ↔ unit.Admits request) := by
    intro unit hunit
    obtain ⟨e, -, he⟩ := mem_flatMap.1 hunit
    exact deepMatch_eq (compiled_of_mem_parseRouteToUnits he) (hcompiles unit hunit) request
  have hhit : ∀ unit ∈ allUnits R routes, hit request unit ≠ none ↔ unit.Admits request := by
    intro unit hunit
    obtain ⟨found, hfound, -, hadmits⟩ := hdeep unit hunit
    rw [← hadmits, hit, hfound]
    cases found <;> simp
  have heq := matchRoute_eq (hpath ▸ parseGrpcPath_eq hservice hmethod hslash hslash')
    fun unit hunit =>
      (hdeep unit ((hcandidates unit).1 hunit).1.1).imp fun _ h => h.1
  rw [heq]
  cases hfirst : (candidates (allUnits R routes) service method).findSome? (hit request) with
  | none =>
    refine ⟨⟨fun ⟨_, hfound⟩ => (by cases hfound), ?_⟩, fun _ _ hfound => by cases hfound⟩
    rintro ⟨unit, hkept, hfits, hadmits⟩
    have hnone := findSome?_eq_none_iff.1 hfirst unit ((hcandidates unit).2 ⟨hkept, hfits⟩)
    exact absurd hnone ((hhit unit hkept.1).2 hadmits)
  | some found =>
    have hbest := findSome?_best (r := fun a b : GrpcRouteRuleUnit R Actions => a.rank ≤ b.rank)
      (pairwise_candidates (allUnits R routes) service method) hfirst
    obtain ⟨best, hmem, hhits, hleast⟩ := hbest
    obtain ⟨hkept, hfits⟩ := (hcandidates best).1 hmem
    obtain ⟨answer, hanswer, hlistener, hadmits⟩ := hdeep best hkept.1
    -- what was hit is the unit itself, with the listener of its check
    obtain ⟨gi, rfl, rfl⟩ : ∃ gi, answer = some gi ∧ found = (best, gi) := by
      rw [hit, hanswer] at hhits
      cases answer with
      | none => cases hhits
      | some gi => exact ⟨gi, rfl, (some.inj hhits).symm⟩
    have haccepts : best.Accepts service method request := ⟨hfits, hadmits.1 (some_ne_none gi)⟩
    refine ⟨⟨fun _ => ⟨best, hkept, haccepts⟩, fun _ => ⟨_, rfl⟩⟩, fun unit gi' hfound => ?_⟩
    obtain ⟨rfl, rfl⟩ := Prod.mk.inj (Except.ok.inj hfound)
    refine ⟨hkept, haccepts, hlistener gi rfl, fun other hother haccepts' => ?_⟩
    exact hleast other ((hcandidates other).2 ⟨hother, haccepts'.1⟩)
      ((hhit other hother.1).2 haccepts'.2)

/-! ## Routes of a shop -/

/-- A route of a host, attached to the Gateway `gw`, with one match. -/
def shopRoute (name host : String) (methodMatch : GRPCMethodMatch) : GRPCRoute Unit where
  ns := some "default"
  name := some name
  parentRefs := some [⟨none, none, none, "gw", none, none⟩]
  hostnames := some [host]
  resolvedHostnames := none
  rules := some [⟨some [⟨some methodMatch, none⟩], ()⟩]
  status := none
  syncVersion := 0

/-- A call of `Add` of the service `shop.Cart` at a host. -/
def addToCart (host : String) : Request :=
  { Http.getRequest "/shop.Cart/Add" with hostname := host }

/-- A route for the method, and one for everything. -/
def cartAndAll : AList fun _ : String => GRPCRoute Unit :=
  (AList.insert "default/all" (shopRoute "all" "a.example.com" ⟨none, none⟩) ∅).insert "default/cart"
    (shopRoute "cart" "a.example.com" ⟨some "shop.Cart", some "Add"⟩)

/-- Two routes for everything, at two hosts. -/
def twoHosts : AList fun _ : String => GRPCRoute Unit :=
  (AList.insert "default/b" (shopRoute "b" "b.example.com" ⟨none, none⟩) ∅).insert "default/a"
    (shopRoute "a" "a.example.com" ⟨none, none⟩)

/-- A route for the method of any service. -/
def methodOnly : AList fun _ : String => GRPCRoute Unit :=
  AList.insert "default/m" (shopRoute "m" "a.example.com" ⟨none, some "Add"⟩) ∅

/-- The call is matched by the route for the method. -/
theorem matchRoute_iff_cartAndAll :
    ((∃ found, (new (allUnits Http.plainRegex cartAndAll)).matchRoute
        (addToCart "a.example.com") = .ok found) ↔
      ∃ unit : GrpcRouteRuleUnit Http.plainRegex Unit,
        unit.Kept (allUnits Http.plainRegex cartAndAll) ∧
          unit.Accepts "shop.Cart" "Add" (addToCart "a.example.com")) ∧
    ((new (allUnits Http.plainRegex cartAndAll)).matchRoute
      (addToCart "a.example.com")).toOption.map (fun found => found.1.matchedInfo.routeName) =
        some "cart" :=
  ⟨(matchRoute_iff cartAndAll (addToCart "a.example.com") (by decide) (by decide) (by decide)
    (by decide) rfl (by decide +kernel) fun _ _ headerMatch _ _ => ⟨headerMatch.value, rfl⟩).1,
    by decide +kernel⟩

/-- **A second route for everything is not looked at, nor is a method without a service**, though
each accepts the call. -/
theorem not_found_twoHosts : ((∃ unit ∈ allUnits Http.plainRegex twoHosts,
        unit.Accepts "shop.Cart" "Add" (addToCart "b.example.com")) ∧
      ¬ ∃ found, (new (allUnits Http.plainRegex twoHosts)).matchRoute
        (addToCart "b.example.com") = .ok found) ∧
    (∃ unit ∈ allUnits Http.plainRegex methodOnly,
        unit.Accepts "shop.Cart" "Add" (addToCart "a.example.com")) ∧
      ¬ ∃ found, (new (allUnits Http.plainRegex methodOnly)).matchRoute
        (addToCart "a.example.com") = .ok found := by
  have hnotFound : ∀ (routes : AList fun _ : String => GRPCRoute Unit) (request : Request),
      ((new (allUnits Http.plainRegex routes)).matchRoute request).toOption.isNone →
        ¬ ∃ found, (new (allUnits Http.plainRegex routes)).matchRoute request = .ok found := by
    rintro routes request hnone ⟨found, hfound⟩
    rw [hfound] at hnone
    cases hnone
  refine ⟨⟨?_, hnotFound _ _ (by decide +kernel)⟩, ?_, hnotFound _ _ (by decide +kernel)⟩
  · refine ⟨_, mem_cons_of_mem _ mem_cons_self, fun methodMatch h => ?_, by decide +kernel,
      by decide +kernel, by rintro _ (_ | _)⟩
    cases h
    exact ⟨fun _ h => (by cases h), fun _ h => (by cases h)⟩
  · refine ⟨_, mem_cons_self, fun methodMatch h => ?_, by decide +kernel, by decide +kernel,
      by rintro _ (_ | _)⟩
    cases h
    exact ⟨fun _ h => (by cases h), fun _ h => (some.inj h).symm⟩

end Edgion.Grpc
