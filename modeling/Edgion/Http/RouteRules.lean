import Edgion.Http.RadixRoutes

/-!
# HTTP routes — the rules of one host

`RouteRules` holds the match units of a host: those with a regular expression for a path in a
`RegexRoutesEngine`, longest pattern first, and the others in a `RadixRouteMatchEngine`. A request
goes to the first engine first.
-/

namespace Edgion.Http

open Text RadixTree List

universe u

variable {R : RegexLib} {Actions : Type u}

/-! ## Regular expressions -/

structure RegexRoutesEngine (R : RegexLib) (Actions : Type u) where
  regexSet : Option R.RegexSet
  routes : List (HttpRouteRuleUnit R Actions)

variable (unit : HttpRouteRuleUnit R Actions)

/-- The length `RegexRoutesEngine` sorts a unit by. -/
def HttpRouteRuleUnit.patternLen : ℕ :=
  (unit.pathRegex.map fun regex => len (R.asStr regex)).getD 0

/-- `deep_match(..)?` in the loops of `RegexRoutesEngine::match_route`: a unit that does not match
passes the request on, an error ends the loop. -/
def HttpRouteRuleUnit.decision (request : Request) :
    Option (Except EdError (RouteMatchResult R Actions)) :=
  match unit.deepMatch request with
  | .error e => some (.error e)
  | .ok (some matchedGi) => some (.ok ⟨unit, matchedGi⟩)
  | .ok none => none

namespace RegexRoutesEngine

def build (routes : List (HttpRouteRuleUnit R Actions)) : RegexRoutesEngine R Actions :=
  if routes = [] then ⟨none, []⟩
  else
    let routes := routes.insertionSort fun a b => b.patternLen ≤ a.patternLen
    let patterns := routes.filterMap fun unit => unit.pathRegex.map R.asStr
    ⟨(R.newSet patterns).toOption, routes⟩

/-- **`RegexRoutesEngine::match_route`**: `none` for a request that no unit decides. The indices
that a set reports are those of patterns, of which there are no more than routes. -/
def matchRoute (engine : RegexRoutesEngine R Actions) (request : Request) :
    Option (Except EdError (RouteMatchResult R Actions)) :=
  match engine.regexSet with
  | some regexSet =>
    (R.setMatches regexSet request.reqHeader.path).findSome? fun idx =>
      engine.routes[idx]?.bind (·.decision request)
  | none =>
    engine.routes.findSome? fun regexRoute =>
      if regexRoute.matchesPath request.reqHeader.path then regexRoute.decision request else none

end RegexRoutesEngine

/-! ## Both engines -/

/-- `RouteRules`, without the keys of the resources. -/
structure RouteRules (R : RegexLib) (Actions : Type u) where
  routeRulesList : List (HttpRouteRuleUnit R Actions)
  matchEngine : Option (RadixRouteMatchEngine R Actions)
  regexRoutes : List (HttpRouteRuleUnit R Actions)
  regexRoutesEngine : Option (RegexRoutesEngine R Actions)

namespace RouteRules

/-- The rules for the normal and the regex units of a host, as `full_set` and the two rebuilding
functions make them: none without units, or where the radix engine cannot be built. -/
def make (normal regex : List (HttpRouteRuleUnit R Actions)) : Option (RouteRules R Actions) :=
  if normal = [] ∧ regex = [] then none
  else
    let regexRoutesEngine := if regex = [] then none else some (RegexRoutesEngine.build regex)
    if normal = [] then some ⟨normal, none, regex, regexRoutesEngine⟩
    else
      match RadixRouteMatchEngine.build normal with
      | .error _ => none
      | .ok matchEngine => some ⟨normal, some matchEngine, regex, regexRoutesEngine⟩

/-- **`RouteRules::match_route`**. The outer `none` is a panic in the tree. -/
def matchRoute (rules : RouteRules R Actions) (request : Request) :
    Option (Except EdError (RouteMatchResult R Actions)) :=
  match rules.regexRoutesEngine.bind (·.matchRoute request) with
  | some decision => some decision
  | none =>
    match rules.matchEngine with
    | some matchEngine => matchEngine.matchRoute request
    | none => some (.error .routeNotFound)

end RouteRules

/-! ## What the regex engine decides -/

/-- The units whose pattern and checks do not pass the request on. -/
def HttpRouteRuleUnit.decides (unit : HttpRouteRuleUnit R Actions) (request : Request) :
    Option (Except EdError (RouteMatchResult R Actions)) :=
  if unit.matchesPath request.reqHeader.path then unit.decision request else none

/-- A search through the indices of what a test keeps is one through the list. -/
theorem findSome?_range_filter {α : Type*} {β : Type*} (l : List α) (p : α → Bool)
    (f : α → Option β) :
    ((range l.length).filter fun i => (l[i]?).any p).findSome? (fun i => (l[i]?).bind f) =
      l.findSome? fun a => if p a then f a else none := by
  induction l with
  | nil => rfl
  | cons a l ih =>
    rw [length_cons, range_succ_eq_map, filter_cons, filter_map, findSome?_cons, ← ih]
    by_cases ha : p a = true
    · simp [ha, Function.comp_def, findSome?_cons, findSome?_map]
    · simp [ha, Function.comp_def, findSome?_map]

open HttpRouteRuleUnit

/-- Where every unit has a pattern, the patterns are those of the units one by one. -/
theorem map_pathRegex {units : List (HttpRouteRuleUnit R Actions)}
    (h : ∀ unit ∈ units, unit.pathRegex.isSome = true) :
    units.map pathRegex = (units.filterMap pathRegex).map some := by
  induction units with
  | nil => rfl
  | cons unit units ih =>
    obtain ⟨hunit, hunits⟩ := forall_mem_cons.1 h
    obtain ⟨regex, hre⟩ := Option.isSome_iff_exists.1 hunit
    rw [map_cons, ih hunits, filterMap_cons_some hre, hre]
    rfl

namespace RegexRoutesEngine

variable {routes : List (HttpRouteRuleUnit R Actions)}

/-- **The set and the plain loop agree**: both go through the units whose pattern matches, in
order. -/
theorem matchRoute_eq {regexSet : Option R.RegexSet}
    (hre : ∀ unit ∈ routes, unit.pathRegex.isSome = true) (hset : ∀ set ∈ regexSet,
      R.newSet (routes.filterMap fun unit => unit.pathRegex.map R.asStr) = .ok set)
    (request : Request) :
    matchRoute ⟨regexSet, routes⟩ request = routes.findSome? (·.decides request) := by
  rcases regexSet with _ | set
  · rfl
  · have hset' := hset set rfl
    rw [← map_filterMap] at hset'
    have hsame := map_pathRegex hre
    have hlen : (routes.filterMap pathRegex).length = routes.length := by
      simpa using (congrArg length hsame).symm
    have htest : ∀ i : ℕ, ((routes.filterMap pathRegex)[i]?).any
          (fun regex => R.isMatch regex request.reqHeader.path) =
        (routes[i]?).any (fun unit => unit.matchesPath request.reqHeader.path) := by
      intro i
      have hi := congrArg (fun l => l[i]?) hsame
      rcases hroute : routes[i]? with _ | unit
      · rcases hpat : (routes.filterMap pathRegex)[i]? with _ | regex
        · rfl
        · simp [hroute, hpat] at hi
      · rcases hpat : (routes.filterMap pathRegex)[i]? with _ | regex
        · simp [hroute, hpat] at hi
        · have hunit : unit.pathRegex = some regex := by simpa [hroute, hpat] using hi
          simp [matchesPath, hunit]
    simp only [matchRoute, R.setMatches_of_newSet _ _ hset', hlen, htest]
    exact findSome?_range_filter routes _ _

/-- **What the regex engine goes through**: its units, those with longer patterns first. -/
theorem matchRoute_build
    (hre : ∀ unit ∈ routes, unit.pathRegex.isSome = true) (request : Request) :
    (build routes).matchRoute request =
      (routes.insertionSort fun a b => b.patternLen ≤ a.patternLen).findSome?
        (·.decides request) := by
  unfold build
  split
  · rename_i hnil
    rw [hnil]
    rfl
  · refine matchRoute_eq (fun unit hunit => hre unit ((mem_insertionSort _).1 hunit))
      (fun set hset => Common.toOption_eq_some.1 hset) request

end RegexRoutesEngine

end Edgion.Http
