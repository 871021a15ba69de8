import Edgion.Common.OrderedLists
import Edgion.Http.MatchUnit
import Edgion.Http.RadixPath
import Edgion.RadixTree.KeyTable

/-!
# HTTP routes — the radix engine

`RadixRouteMatchEngine` keeps the paths of the match units in a radix tree. `match_route` takes the
paths the tree reports for a request, drops those whose kind of match does not suit them, sorts the
rest by weight and by the number of header matchers, and returns the first unit that `deep_match`
accepts.
-/

namespace Edgion.Http

open RadixTree List Option Common Nat

universe u

variable {R : RegexLib} {Actions : Type u}

/-! ## The model -/

structure RadixRouteMatchEngine (R : RegexLib) (Actions : Type u) where
  tree : FrozenRadixTree
  routes : List (HttpRouteRuleUnit R Actions)
  radixPaths : List RadixPath
  treeValueToPathIdx : ℕ → Option (List ℕ)

/-- The variables of `initialize_internal`, with the lists it fills. -/
structure InternalState (R : RegexLib) (Actions : Type u) where
  table : KeyTable
  radixPaths : List RadixPath
  routes : List (HttpRouteRuleUnit R Actions)

namespace InternalState

/-- The body of the inner loop of `initialize_internal`. -/
def addPath (s : InternalState R Actions) (routeIdx : ℕ) (path : String × Bool) :
    Except EdError (InternalState R Actions) :=
  if path.1 = "" then .ok s
  else
    let radixPath := RadixPath.new path.1 routeIdx path.2
    match s.table.add radixPath.normalized s.radixPaths.length with
    | .error e => .error (.insertError radixPath.normalized e)
    | .ok table => .ok { s with table := table, radixPaths := s.radixPaths ++ [radixPath] }

/-- The inner loop of `initialize_internal`. -/
def addPaths (s : InternalState R Actions) (routeIdx : ℕ) :
    List (String × Bool) → Except EdError (InternalState R Actions)
  | [] => .ok s
  | path :: paths =>
    match s.addPath routeIdx path with
    | .error e => .error e
    | .ok s' => s'.addPaths routeIdx paths

/-- The outer loop of `initialize_internal`, from an index on. -/
def addRoutes (s : InternalState R Actions) :
    ℕ → List (HttpRouteRuleUnit R Actions) → Except EdError (InternalState R Actions)
  | _, [] => .ok s
  | routeIdx, runtime :: rest =>
    match s.addPaths routeIdx runtime.extractPaths with
    | .error e => .error e
    | .ok s' => { s' with routes := s'.routes ++ [runtime] }.addRoutes (routeIdx + 1) rest

end InternalState

namespace RadixRouteMatchEngine

def build (routeRuntimes : List (HttpRouteRuleUnit R Actions)) :
    Except EdError (RadixRouteMatchEngine R Actions) :=
  match InternalState.addRoutes ⟨KeyTable.init fun _ => none, [], []⟩ 0 routeRuntimes with
  | .error e => .error e
  | .ok s =>
    match s.table.builder.freeze with
    | .error e => .error (.freezeError e)
    | .ok tree => .ok ⟨tree, s.routes, s.radixPaths, s.table.treeValueToIdx⟩

end RadixRouteMatchEngine

/-- Whether `match_route` takes a path for a kind of match. -/
def RadixPath.takes (radixPath : RadixPath) (matchKind : MatchKind) : Bool :=
  if radixPath.isPrefixMatch then matchKind != .partialSegment else matchKind == .fullyConsumed

namespace RadixRouteMatchEngine

variable (engine : RadixRouteMatchEngine R Actions)

/-- `try_route_deep_match`: an error is no match. -/
def tryRouteDeepMatch (routeIdx : ℕ) (request : Request) : Option (RouteMatchResult R Actions) :=
  engine.routes[routeIdx]?.bind fun route =>
    match route.deepMatch request with
    | .ok (some matchedGi) => some ⟨route, matchedGi⟩
    | .ok none => none
    | .error _ => none

/-- The loops of `match_route` that collect `matched_paths`. -/
def matchedPaths (allResults : List (ℕ × MatchKind)) : List ℕ :=
  allResults.flatMap fun result =>
    ((engine.treeValueToPathIdx result.1).getD []).filter fun pathIdx =>
      engine.radixPaths[pathIdx]?.any (·.takes result.2)

/-- The weight `matched_paths` are sorted by. The indices are those of paths (`build_eq_ok`), and
so are those of the routes: the source's indexing does not panic. -/
def priorityWeight (engine : RadixRouteMatchEngine R Actions) (pathIdx : ℕ) : ℕ :=
  engine.radixPaths[pathIdx]?.elim 0 RadixPath.priorityWeight

/-- The header matchers of the route of a path. -/
def headerMatcherCount (engine : RadixRouteMatchEngine R Actions) (pathIdx : ℕ) : ℕ :=
  (engine.radixPaths[pathIdx]?.bind fun radixPath => engine.routes[radixPath.routeIdx]?).elim 0
    HttpRouteRuleUnit.headerMatcherCount

/-- The order `match_route` sorts by. -/
def Sorts (a b : ℕ) : Prop :=
  engine.priorityWeight b < engine.priorityWeight a ∨
    engine.priorityWeight a = engine.priorityWeight b ∧
      engine.headerMatcherCount b ≤ engine.headerMatcherCount a

instance (engine : RadixRouteMatchEngine R Actions) : DecidableRel engine.Sorts :=
  fun _ _ => inferInstanceAs (Decidable (_ ∨ _ ∧ _))

variable (request : Request)

/-- The last loop of `match_route`. -/
def tryPath (pathIdx : ℕ) : Option (RouteMatchResult R Actions) :=
  engine.radixPaths[pathIdx]?.bind fun radixPath =>
    engine.tryRouteDeepMatch radixPath.routeIdx request

/-- **`match_route`**. The outer `none` is a panic in the tree. `sort_by` is stable, and any stable
sort gives the list that insertion sort gives. -/
def matchRoute : Option (Except EdError (RouteMatchResult R Actions)) :=
  (engine.tree.matchAllExt request.reqHeader.path).map fun allResults =>
    if allResults = [] then .error .routeNotFound
    else if engine.matchedPaths allResults = [] then .error .routeNotFound
    else
      match ((engine.matchedPaths allResults).insertionSort engine.Sorts).findSome?
        (engine.tryPath request) with
      | some result => .ok result
      | none => .error .routeNotFound

end RadixRouteMatchEngine

/-! ## What `build` builds -/

/-- The paths the engine keeps of units, from an index on. -/
def pathsFrom : ℕ → List (HttpRouteRuleUnit R Actions) → List RadixPath
  | _, [] => []
  | routeIdx, unit :: rest =>
    (unit.extractPaths.filter (·.1 ≠ "")).map (fun path => RadixPath.new path.1 routeIdx path.2) ++
      pathsFrom (routeIdx + 1) rest

variable {units : List (HttpRouteRuleUnit R Actions)} {engine : RadixRouteMatchEngine R Actions}
variable {path requestPath : String} {after : Bytes} {isPrefix : Bool}
variable {unit : HttpRouteRuleUnit R Actions} {radixPath : RadixPath}

open RadixPath

/-- A path of the engine is a path of the unit it names. -/
theorem mem_pathsFrom {k : ℕ} : radixPath ∈ pathsFrom k units ↔ ∃ i unit, units[i]? = some unit ∧
      ∃ path ∈ unit.extractPaths, path.1 ≠ "" ∧ radixPath = new path.1 (k + i) path.2 := by
  induction units generalizing k with
  | nil => simp [pathsFrom]
  | cons unit rest ih =>
    rw [pathsFrom, mem_append, ih]
    constructor
    · rintro (hmem | ⟨i, other, hother, path, hpath, hne, rfl⟩)
      · obtain ⟨path, hpath, rfl⟩ := mem_map.1 hmem
        obtain ⟨hpath, hne⟩ := mem_filter.1 hpath
        exact ⟨0, unit, rfl, path, hpath, by simpa using hne, rfl⟩
      · exact ⟨i + 1, other, hother, path, hpath, hne, by rw [add_right_comm, add_assoc]⟩
    · rintro ⟨_ | i, other, hother, path, hpath, hne, rfl⟩
      · obtain rfl : unit = other := by simpa using hother
        exact .inl (mem_map.2 ⟨path, mem_filter.2 ⟨hpath, by simpa using hne⟩, rfl⟩)
      · exact .inr ⟨i, other, hother, path, hpath, hne, by rw [add_right_comm, add_assoc]⟩

namespace InternalState

/-- The table is keyed by the paths collected so far. -/
def Keyed (s : InternalState R Actions) : Prop :=
  ∃ routes, RadixTree.Keyed s.table (s.radixPaths.map RadixPath.normalized) routes

variable {routeIdx : ℕ} {s s' : InternalState R Actions}

theorem addPaths_eq_ok {paths : List (String × Bool)}
    (hs : s.Keyed) (h : s.addPaths routeIdx paths = .ok s') :
    s'.Keyed ∧ s'.routes = s.routes ∧ s'.radixPaths = s.radixPaths ++
      (paths.filter (·.1 ≠ "")).map fun path => new path.1 routeIdx path.2 := by
  induction paths generalizing s with
  | nil =>
    cases h
    exact ⟨hs, rfl, by simp⟩
  | cons path paths ih =>
    rw [addPaths, addPath] at h
    by_cases hne : path.1 = ""
    · simp only [if_pos hne] at h
      simpa [hne] using ih hs h
    · simp only [if_neg hne] at h
      obtain ⟨routes, hkeyed⟩ := hs
      split at h
      · cases h
      · rename_i s1 hadd
        split at hadd
        · cases hadd
        · rename_i table htable
          cases hadd
          rw [← length_map normalized] at htable
          obtain ⟨routes1, hkeyed1⟩ := hkeyed.add htable
          obtain ⟨hs', hroutes, hpaths⟩ := ih ⟨routes1, by simpa using hkeyed1⟩ h
          exact ⟨hs', hroutes, by simpa [hne] using hpaths⟩

theorem addRoutes_eq_ok (hs : s.Keyed) (h : s.addRoutes routeIdx units = .ok s') :
    s'.Keyed ∧ s'.routes = s.routes ++ units ∧
      s'.radixPaths = s.radixPaths ++ pathsFrom routeIdx units := by
  induction units generalizing s routeIdx with
  | nil =>
    cases h
    exact ⟨hs, (append_nil _).symm, (append_nil _).symm⟩
  | cons unit rest ih =>
    rw [addRoutes] at h
    split at h
    · cases h
    · rename_i s1 hadd
      obtain ⟨hs1, hroutes1, hpaths1⟩ := addPaths_eq_ok hs hadd
      obtain ⟨hs', hroutes', hpaths'⟩ := ih (s := { s1 with routes := s1.routes ++ [unit] }) hs1 h
      refine ⟨hs', ?_, ?_⟩
      · rw [hroutes', hroutes1, append_assoc]
        rfl
      · rw [hpaths', hpaths1, append_assoc]
        rfl

end InternalState

open RadixRouteMatchEngine

/-- **A built engine** has the units, their paths, a table keyed by the paths and its tree. -/
theorem build_eq_ok (h : build units = .ok engine) :
    ∃ table tree routes, Keyed table ((pathsFrom 0 units).map normalized) routes ∧
      table.builder.freeze = .ok tree ∧
      engine = ⟨tree, units, pathsFrom 0 units, table.treeValueToIdx⟩ := by
  unfold build at h
  split at h
  · cases h
  · rename_i s hadd
    split at h
    · cases h
    · rename_i tree hfreeze
      obtain ⟨⟨routes, hkeyed⟩, hroutes, hpaths⟩ :=
        InternalState.addRoutes_eq_ok ⟨[], Keyed.init⟩ hadd
      have hroutes : s.routes = units := hroutes
      have hpaths : s.radixPaths = pathsFrom 0 units := hpaths
      cases h
      rw [hpaths] at hkeyed
      exact ⟨s.table, tree, routes, hkeyed, hfreeze, by rw [hroutes, hpaths]⟩

/-! ## What a request is matched against -/

/-- What a path of a route stands for. -/
def shape (path : String) : List Tok := readPattern .text (asBytes (normalizePath path))

/-- **The path of a unit accepts a request's path**, and leaves a rest: none if it is exact; if it is
a prefix it ends where a segment does. -/
structure PathAccepts (unit : HttpRouteRuleUnit R Actions) (isPrefix : Bool) (requestPath : String)
    (path : String) (after : Bytes) : Prop where
  mem : (path, isPrefix) ∈ unit.extractPaths
  ne : path ≠ ""
  left : matchTokens (shape path) (asBytes requestPath) = some after
  ends : after = [] ∨ isPrefix = true ∧
    (after.head? = some slash ∨ (shape path).getLast? = some (.lit slash))

/-- A unit's checks accept a request: method, headers, query and listener. -/
def DeepAccepts (unit : HttpRouteRuleUnit R Actions) (request : Request) : Prop :=
  ∃ gi, unit.deepMatch request = .ok (some gi)

/-- The kinds `match_route` takes are those of a path that accepts. -/
theorem takes_iff {requestPath : Bytes} (hnorm : radixPath.normalized = normalizePath path) :
    (∃ kind, tokensKind (readPattern .text (asBytes radixPath.normalized)) requestPath = some kind ∧
      radixPath.takes kind = true) ↔
    ∃ after, matchTokens (shape path) requestPath = some after ∧
      (after = [] ∨ radixPath.isPrefixMatch ∧
        (after.head? = some slash ∨ (shape path).getLast? = some (.lit slash))) := by
  rw [hnorm, ← shape, tokensKind]
  rcases matchTokens (shape path) requestPath with _ | after
  · simp
  · simp only [map_some, some.injEq, exists_eq_left', takes]
    rcases after with _ | ⟨b, after⟩
    · simp [matchKind]
    · by_cases hboundary : b = slash ∨ (shape path).getLast? = some (.lit slash)
      · simp [matchKind, hboundary]
      · simp [matchKind, hboundary]

/-! ## Candidates -/

/-- **A candidate**: the unit of a path the engine keeps, with what the path accepts of a request. -/
structure CandidateAt (units : List (HttpRouteRuleUnit R Actions)) (requestPath : String) (i : ℕ)
    (unit : HttpRouteRuleUnit R Actions) (isPrefix : Bool) (path : String) (after : Bytes) :
    Prop where
  accepts : PathAccepts unit isPrefix requestPath path after
  mem : unit ∈ units
  kept : ∃ routeIdx, units[routeIdx]? = some unit ∧
    (pathsFrom 0 units)[i]? = some (new path routeIdx isPrefix)

variable {i : ℕ}

/-- The paths that `match_route` goes through are those of the candidates. -/
theorem exists_candidateAt : (∃ radixPath, (pathsFrom 0 units)[i]? = some radixPath ∧
      ∃ kind, tokensKind (readPattern .text (asBytes radixPath.normalized)) (asBytes requestPath) =
        some kind ∧ radixPath.takes kind = true) ↔
    ∃ unit isPrefix path after, CandidateAt units requestPath i unit isPrefix path after := by
  constructor
  · rintro ⟨radixPath, hi, htakes⟩
    obtain ⟨routeIdx, unit, hunit, path, hpath, hne, rfl⟩ := mem_pathsFrom.1 (mem_of_getElem? hi)
    rw [zero_add] at hi htakes
    have hnorm : (new path.1 routeIdx path.2).normalized = normalizePath path.1 := rfl
    obtain ⟨after, hpost, hends⟩ := (takes_iff hnorm).1 htakes
    exact ⟨unit, path.2, path.1, after, ⟨hpath, hne, hpost, hends⟩, mem_of_getElem? hunit,
      routeIdx, hunit, hi⟩
  · rintro ⟨unit, isPrefix, path, after, hacc, -, routeIdx, -, hi⟩
    exact ⟨_, hi, (takes_iff rfl).2 ⟨after, hacc.left, hacc.ends⟩⟩

/-- Every unit whose path accepts the request is a candidate. -/
theorem PathAccepts.candidateAt
        (h : PathAccepts unit isPrefix requestPath path after) (hmem : unit ∈ units) :
    ∃ i, CandidateAt units requestPath i unit isPrefix path after := by
  obtain ⟨routeIdx, hunit⟩ := getElem?_of_mem hmem
  have hkept : new path routeIdx isPrefix ∈ pathsFrom 0 units :=
    mem_pathsFrom.2 ⟨routeIdx, unit, hunit, (path, isPrefix), h.mem, h.ne, by rw [zero_add]⟩
  obtain ⟨i, hi⟩ := getElem?_of_mem hkept
  exact ⟨i, h, hmem, routeIdx, hunit, hi⟩

/-! ## The order of the candidates -/

namespace RadixRouteMatchEngine

instance (engine : RadixRouteMatchEngine R Actions) : Std.Total engine.Sorts where
  total a b := by
    unfold Sorts
    omega

instance (engine : RadixRouteMatchEngine R Actions) : IsTrans ℕ engine.Sorts where
  trans a b c := by
    unfold Sorts
    omega

end RadixRouteMatchEngine

/-- The distinct paths of units. -/
def distinctPaths (units : List (HttpRouteRuleUnit R Actions)) : List String :=
  ((units.flatMap HttpRouteRuleUnit.extractPaths).map fun path => normalizePath path.1).dedup

theorem normalized_mem_distinctPaths {key : String}
    (h : key ∈ (pathsFrom 0 units).map normalized) : key ∈ distinctPaths units := by
  obtain ⟨radixPath, hmem, rfl⟩ := List.mem_map.1 h
  obtain ⟨i, unit, hunit, path, hpath, -, rfl⟩ := mem_pathsFrom.1 hmem
  rw [distinctPaths, List.mem_dedup, List.mem_map]
  exact ⟨path, List.mem_flatMap.2 ⟨unit, List.mem_of_getElem? hunit, hpath⟩, rfl⟩

/-- How the paths stand in the sorted list: within ties, in the order of the search. -/
def Precedes (engine : RadixRouteMatchEngine R Actions) (keys : List String)
    (routes : List (String × ℕ)) (i j : ℕ) : Prop :=
  engine.Sorts i j ∧ (engine.Sorts j i → Earlier keys routes i j)

/-- **What `match_route` goes through**: the paths of the candidates, sorted. -/
structure SearchOrder (units : List (HttpRouteRuleUnit R Actions))
    (engine : RadixRouteMatchEngine R Actions) (request : Request) (routes : List (String × ℕ))
    (order : List ℕ) : Prop where
  routes_eq : engine.routes = units
  paths_eq : engine.radixPaths = pathsFrom 0 units
  keyed : ∃ table, Keyed table ((pathsFrom 0 units).map normalized) routes
  mem_iff : ∀ i, i ∈ order ↔ ∃ unit isPrefix path after,
    CandidateAt units request.reqHeader.path i unit isPrefix path after
  sorted : order.Pairwise (Precedes engine ((pathsFrom 0 units).map normalized) routes)
  answer : engine.matchRoute request =
    some ((order.findSome? (engine.tryPath request)).elim (.error .routeNotFound) .ok)

theorem exists_searchOrder (hbuild : build units = .ok engine)
    (hgood : ∀ path ∈ distinctPaths units, EscapeLast (asBytes path))
    (hbound : (distinctPaths units).length ≤ u32Max) (request : Request) :
    ∃ routes order, SearchOrder units engine request routes order := by
  obtain ⟨table, tree, routes, hkeyed, hfreeze, rfl⟩ := build_eq_ok hbuild
  have hlen : routes.length ≤ u32Max := by
    have hsub : (routes.map Prod.fst) ⊆ distinctPaths units := by
      intro key hkey
      obtain ⟨route, hroute, rfl⟩ := mem_map.1 hkey
      exact normalized_mem_distinctPaths ((hkeyed.mem_iff _).2 ⟨route.2, hroute⟩)
    have hle := (hkeyed.nodup.subperm hsub).length_le
    rw [length_map] at hle
    exact hle.trans hbound
  obtain ⟨results, hres, hitems, hsorted⟩ := hkeyed.matchAllExt_items hlen
    (fun key hkey => hgood key (normalized_mem_distinctPaths hkey)) hfreeze request.reqHeader.path
  let engine : RadixRouteMatchEngine R Actions :=
    ⟨tree, units, pathsFrom 0 units, table.treeValueToIdx⟩
  have hmatched : engine.matchedPaths results =
      ((itemsOf table.treeValueToIdx results).filter fun item =>
        (pathsFrom 0 units)[item.1]?.any (·.takes item.2)).map Prod.fst := by
    rw [itemsOf, filter_flatMap, map_flatMap]
    refine flatMap_congr fun result _ => ?_
    rw [List.filter_map, List.map_map]
    simp [Function.comp_def, engine]
  refine ⟨routes, (engine.matchedPaths results).insertionSort engine.Sorts, rfl, rfl,
    ⟨table, hkeyed⟩, fun i => ?_, ?_, ?_⟩
  · rw [← exists_candidateAt, List.mem_insertionSort, hmatched, List.mem_map]
    constructor
    · rintro ⟨⟨_, kind⟩, hmem, rfl⟩
      obtain ⟨hitem, htakes⟩ := mem_filter.1 hmem
      obtain ⟨key, hkey, hkind⟩ := (hitems _ _).1 hitem
      rw [getElem?_map, map_eq_some_iff] at hkey
      obtain ⟨radixPath, hpath, rfl⟩ := hkey
      rw [hpath] at htakes
      exact ⟨radixPath, hpath, kind, hkind, htakes⟩
    · rintro ⟨radixPath, hpath, kind, hkind, htakes⟩
      refine ⟨(i, kind), mem_filter.2 ⟨(hitems _ _).2 ⟨radixPath.normalized, ?_, hkind⟩, ?_⟩, rfl⟩
      · rw [getElem?_map, hpath]
        rfl
      · rw [hpath]
        exact htakes
  · refine pairwise_insertionSort_stable ?_
    rw [hmatched]
    exact pairwise_map.2 (hsorted.filter _)
  · have hresults' : engine.tree.matchAllExt request.reqHeader.path = some results := hres
    rw [matchRoute, hresults', map_some]
    by_cases hnil : engine.matchedPaths results = []
    · simp [engine, hnil]
    · have hne : results ≠ [] := by
        rintro rfl
        exact hnil rfl
      rw [if_neg hne, if_neg hnil]
      rcases findSome? (engine.tryPath request) _ with _ | result
      · rfl
      · rfl

/-! ## The best candidate -/

/-- The last loop tries the unit of a candidate. -/
theorem CandidateAt.tryPath {request : Request} (hroutes : engine.routes = units)
    (hpaths : engine.radixPaths = pathsFrom 0 units)
    (h : CandidateAt units request.reqHeader.path i unit isPrefix path after)
    {result : RouteMatchResult R Actions} :
    engine.tryPath request i = some result ↔
      result.routeUnit = unit ∧ unit.deepMatch request = .ok (some result.matchedGateway) := by
  obtain ⟨routeIdx, hunit, hi⟩ := h.kept
  have htry : engine.tryPath request i = engine.tryRouteDeepMatch routeIdx request := by
    rw [RadixRouteMatchEngine.tryPath, hpaths, hi]
    rfl
  rw [htry, tryRouteDeepMatch, hroutes, hunit, bind_some]
  obtain ⟨routeUnit, matchedGateway⟩ := result
  rcases unit.deepMatch request with e | _ | gi
  · simp
  · simp
  · simp [eq_comm]

namespace SearchOrder

variable {units : List (HttpRouteRuleUnit R Actions)} {engine : RadixRouteMatchEngine R Actions}
  {request : Request} {routes : List (String × ℕ)} {order : List ℕ}

/-- A unit that accepts is tried and answers. -/
theorem tried (hs : SearchOrder units engine request routes order)
    (hunit : unit ∈ units) (hdeep : DeepAccepts unit request)
      (hacc : PathAccepts unit isPrefix request.reqHeader.path path after) :
    ∃ i ∈ order, CandidateAt units request.reqHeader.path i unit isPrefix path after ∧
      engine.tryPath request i ≠ none := by
  obtain ⟨gi, hgi⟩ := hdeep
  obtain ⟨i, hi⟩ := hacc.candidateAt hunit
  have htry : engine.tryPath request i = some ⟨unit, gi⟩ :=
    (hi.tryPath hs.routes_eq hs.paths_eq).2 ⟨rfl, hgi⟩
  refine ⟨i, (hs.mem_iff i).2 ⟨unit, isPrefix, path, after, hi⟩, hi, ?_⟩
  rw [htry]
  exact some_ne_none _

/-- **`match_route` returns** the unit of a candidate that stands before all others that would have
answered, or finds no candidate that answers. -/
theorem returns (hs : SearchOrder units engine request routes order) :
    (∃ result i isPrefix path after, engine.matchRoute request = some (.ok result) ∧
        CandidateAt units request.reqHeader.path i result.routeUnit isPrefix path after ∧
        result.routeUnit.deepMatch request = .ok (some result.matchedGateway) ∧
        ∀ j ∈ order, engine.tryPath request j ≠ none → j = i ∨
          Precedes engine ((pathsFrom 0 units).map normalized) routes i j) ∨
      engine.matchRoute request = some (.error .routeNotFound) ∧
        ∀ i ∈ order, engine.tryPath request i = none := by
  rcases hfind : order.findSome? (engine.tryPath request) with _ | result
  · refine .inr ⟨?_, findSome?_eq_none_iff.1 hfind⟩
    rw [hs.answer, hfind]
    rfl
  · obtain ⟨i, hi, htry, hfst⟩ := findSome?_first hs.sorted hfind
    obtain ⟨unit, isPrefix, path, after, hcand⟩ := (hs.mem_iff i).1 hi
    obtain ⟨rfl, hdeep⟩ := (hcand.tryPath hs.routes_eq hs.paths_eq).1 htry
    refine .inl ⟨result, i, isPrefix, path, after, ?_, hcand, hdeep, hfst⟩
    rw [hs.answer, hfind]
    rfl

end SearchOrder

/-- The weight of a candidate: the segments it matched, and the kind of its path. -/
theorem CandidateAt.priorityWeight (hpaths : engine.radixPaths = pathsFrom 0 units)
    (h : CandidateAt units requestPath i unit isPrefix path after) :
    ∃ bonus, engine.priorityWeight i = segments (matched (asBytes requestPath) after) * 4 + bonus ∧
      (isPrefix → bonus ≤ 1) ∧ (isPrefix = false → 2 ≤ bonus) := by
  obtain ⟨routeIdx, -, hi⟩ := h.kept
  have hsegs := (segments_matched h.accepts.left).1
  refine ⟨typeBonus isPrefix (countSegmentsAndParams (asBytes (normalizePath path))).2, ?_, ?_, ?_⟩
  · rw [RadixRouteMatchEngine.priorityWeight, hpaths, hi, hsegs,
      ← segmentCount_new path routeIdx isPrefix]
    rfl
  · rintro rfl
    rcases (countSegmentsAndParams (asBytes (normalizePath path))).2 with _ | _ <;> decide
  · rintro rfl
    rcases (countSegmentsAndParams (asBytes (normalizePath path))).2 with _ | _ <;> decide

/-- **A candidate sorted before another one** is exact if the other one is, and if both are prefixes
it matched as many segments at least. -/
theorem CandidateAt.best {j : ℕ} {unit' : HttpRouteRuleUnit R Actions} {isPrefix' : Bool}
    {path' : String} {after' : Bytes} (hpaths : engine.radixPaths = pathsFrom 0 units)
    (h : CandidateAt units requestPath i unit isPrefix path after)
    (h' : CandidateAt units requestPath j unit' isPrefix' path' after') (hsorts : engine.Sorts i j) :
    (isPrefix' = false → isPrefix = false) ∧ (isPrefix →
      segments (matched (asBytes requestPath) after') ≤
        segments (matched (asBytes requestPath) after)) := by
  obtain ⟨bonus, hweight, hle, -⟩ := h.priorityWeight hpaths
  obtain ⟨bonus', hweight', hle', hge'⟩ := h'.priorityWeight hpaths
  have hsorted : engine.priorityWeight j ≤ engine.priorityWeight i := by
    rcases hsorts with hlt | ⟨heq, -⟩
    · exact hlt.le
    · exact heq.ge
  rw [hweight, hweight'] at hsorted
  constructor
  · intro hexact
    by_contra hprefix
    have hprefix : isPrefix = true := by simpa using hprefix
    -- an exact path has matched the whole of the request's path
    have hwhole : after' = [] := by
      rcases h'.accepts.ends with hnil | ⟨hp, -⟩
      · exact hnil
      · rw [hexact] at hp
        cases hp
    have hall : segments (matched (asBytes requestPath) after') = segments (asBytes requestPath) := by
      rw [hwhole, matched, length_nil, Nat.sub_zero, take_length]
    have hmost := (segments_matched h.accepts.left).2
    rw [← (segments_matched h.accepts.left).1] at hmost
    have := hle hprefix
    have := hge' hexact
    omega
  · intro hprefix
    have := hle hprefix
    omega

/-- **`match_route` returns a best unit.** On a built engine, where an escaped segment is the last of
its path and the paths can be numbered by `u32`, it returns a unit iff some unit accepts the request
with its path and its checks. The unit returned is one of these; it is exact if any of them is, and
otherwise it matched as many segments of the request's path as any. -/
theorem matchRoute_best {units : List (HttpRouteRuleUnit R Actions)}
    {engine : RadixRouteMatchEngine R Actions}
    (hbuild : build units = .ok engine)
    (hgood : ∀ path ∈ distinctPaths units, EscapeLast (asBytes path))
    (hbound : (distinctPaths units).length ≤ u32Max) (request : Request) :
    ∃ answer, engine.matchRoute request = some answer ∧
      ((∃ result, answer = .ok result) ↔ ∃ unit ∈ units, DeepAccepts unit request ∧
        ∃ isPrefix path after, PathAccepts unit isPrefix request.reqHeader.path path after) ∧
      ∀ result, answer = .ok result → result.routeUnit ∈ units ∧
        result.routeUnit.deepMatch request = .ok (some result.matchedGateway) ∧
        ∃ isPrefix path after,
          PathAccepts result.routeUnit isPrefix request.reqHeader.path path after ∧
          ∀ other ∈ units, DeepAccepts other request → ∀ isPrefix' path' after',
            PathAccepts other isPrefix' request.reqHeader.path path' after' →
            (isPrefix' = false → isPrefix = false) ∧ (isPrefix = true →
              segments (matched (asBytes request.reqHeader.path) after') ≤
                segments (matched (asBytes request.reqHeader.path) after)) := by
  obtain ⟨routes, order, hs⟩ := exists_searchOrder hbuild hgood hbound request
  rcases hs.returns with ⟨result, i, isPrefix, path, after, hanswer, hcandidate, hdeep, hfirst⟩ |
    ⟨hanswer, hnone⟩
  · refine ⟨_, hanswer, ⟨fun _ => ?_, fun _ => ⟨result, rfl⟩⟩, fun result' hresult' => ?_⟩
    · exact ⟨result.routeUnit, hcandidate.mem, ⟨_, hdeep⟩, isPrefix, path, after,
        hcandidate.accepts⟩
    · cases hresult'
      refine ⟨hcandidate.mem, hdeep, isPrefix, path, after, hcandidate.accepts, ?_⟩
      intro other hother hdeep' isPrefix' path' after' haccepts'
      obtain ⟨j, hj, hcandidate', htry⟩ := hs.tried hother hdeep' haccepts'
      refine hcandidate.best hs.paths_eq hcandidate' ?_
      rcases hfirst j hj htry with rfl | hprecedes
      · exact refl_of engine.Sorts j
      · exact hprecedes.1
  · refine ⟨_, hanswer, ⟨?_, ?_⟩, ?_⟩
    · rintro ⟨result, hresult⟩
      cases hresult
    · rintro ⟨unit, hunit, hdeep, isPrefix, path, after, haccepts⟩
      obtain ⟨i, hi, -, htry⟩ := hs.tried hunit hdeep haccepts
      exact absurd (hnone i hi) htry
    · intro result hresult
      cases hresult

/-- The name of the route that `match_route` selects. -/
def RadixRouteMatchEngine.selects (request : Request) (engine : RadixRouteMatchEngine R Actions) :
    Option String :=
  (engine.matchRoute request).bind fun answer =>
    answer.toOption.map fun result => result.routeUnit.matchedInfo.rn

/-- An exact path, a prefix of it and a parameter. -/
def threeUnits : List (HttpRouteRuleUnit plainRegex Unit) :=
  [pathUnit "prefix" "PathPrefix" "/api", pathUnit "param" "PathPrefix" "/:x/users",
    pathUnit "exact" "Exact" "/api/users"]

theorem matchRoute_best_threeUnits : ∃ engine, build threeUnits = .ok engine ∧
      engine.selects (getRequest "/api/users") = some "exact" ∧
      ∃ answer, engine.matchRoute (getRequest "/api/users") = some answer ∧
        ((∃ result, answer = .ok result) ↔
          ∃ unit ∈ threeUnits, DeepAccepts unit (getRequest "/api/users") ∧
            ∃ isPrefix path after, PathAccepts unit isPrefix "/api/users" path after) ∧
        ∀ result, answer = .ok result → result.routeUnit ∈ threeUnits ∧
          result.routeUnit.deepMatch (getRequest "/api/users") = .ok (some result.matchedGateway) ∧
          ∃ isPrefix path after, PathAccepts result.routeUnit isPrefix "/api/users" path after ∧
            ∀ other ∈ threeUnits, DeepAccepts other (getRequest "/api/users") →
              ∀ isPrefix' path' after', PathAccepts other isPrefix' "/api/users" path' after' →
              (isPrefix' = false → isPrefix = false) ∧ (isPrefix = true →
                segments (matched (asBytes "/api/users") after') ≤
                  segments (matched (asBytes "/api/users") after)) := by
  have hselects : (build threeUnits).toOption.bind
      (selects (getRequest "/api/users")) = some "exact" := by
    decide +kernel
  obtain ⟨engine, hbuild, hselects⟩ := exists_ok_of_bind hselects
  have hgood : ∀ path ∈ distinctPaths threeUnits, EscapeLast (asBytes path) := by
    decide +kernel
  have hbound : (distinctPaths threeUnits).length ≤ u32Max := by
    decide +kernel
  exact ⟨engine, hbuild, hselects, matchRoute_best hbuild hgood hbound (getRequest "/api/users")⟩

/-- Two prefixes that differ by a slash at the end. -/
def slashUnits : List (HttpRouteRuleUnit plainRegex Unit) :=
  [pathUnit "without" "PathPrefix" "/a", pathUnit "with" "PathPrefix" "/a/"]

/-- A slash at the end makes a prefix longer, but it makes no segment: of two prefixes that differ
by it, the shorter one may be selected. -/
theorem matchRoute_prefers_shorter : ∃ engine, build slashUnits = .ok engine ∧
      engine.selects (getRequest "/a/b") = some "without" ∧
      DeepAccepts (pathUnit "with" "PathPrefix" "/a/") (getRequest "/a/b") ∧
      PathAccepts (pathUnit "without" "PathPrefix" "/a") true "/a/b" "/a" (asBytes "/b") ∧
      PathAccepts (pathUnit "with" "PathPrefix" "/a/") true "/a/b" "/a/" (asBytes "b") ∧
      (matched (asBytes "/a/b") (asBytes "/b")).length <
        (matched (asBytes "/a/b") (asBytes "b")).length := by
  have hselects : (build slashUnits).toOption.bind
      (selects (getRequest "/a/b")) = some "without" := by
    decide +kernel
  obtain ⟨engine, hbuild, hselects⟩ := exists_ok_of_bind hselects
  have hdeep : ((pathUnit "with" "PathPrefix" "/a/").deepMatch (getRequest "/a/b")).toOption =
      some (some ⟨some "default", "gw", none⟩) := by
    decide +kernel
  refine ⟨engine, hbuild, hselects, ⟨_, toOption_eq_some.1 hdeep⟩, ⟨?_, ?_, ?_, ?_⟩,
    ⟨?_, ?_, ?_, ?_⟩, ?_⟩
  all_goals decide +kernel

end Edgion.Http
