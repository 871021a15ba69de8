import Edgion.Http.RouteRules
import Mathlib.Data.List.Permutation

/-!
# HTTP routes — the order of loading

The routes of a host come out of a `HashMap`, so its match units are loaded in any order. The regex
engine compares the lengths of patterns and the radix engine weights, header matchers and what the
paths stand for. Among units that these do not tell apart the first one loaded is selected, so the
rule selected depends on the order unless such units are of one rule.
-/

namespace Edgion.Http

open RadixTree List Option Common

universe u

variable {R : RegexLib} {Actions : Type u}

/-! ## The rule selected -/

/-- A rule of a route. -/
structure RouteRule (Actions : Type u) where
  rns : String
  rn : String
  ruleId : ℕ
  rule : HTTPRouteRule Actions
  deriving DecidableEq

variable (unit : HttpRouteRuleUnit R Actions)

/-- The rule a unit is of. -/
def HttpRouteRuleUnit.routeRule : RouteRule Actions :=
  ⟨unit.matchedInfo.rns, unit.matchedInfo.rn, unit.matchedInfo.ruleId, unit.rule⟩

/-- The rule of an answer; an error selects none. -/
def ruleOf (answer : Except EdError (RouteMatchResult R Actions)) : Option (RouteRule Actions) :=
  answer.toOption.map fun result => result.routeUnit.routeRule

variable (units : List (HttpRouteRuleUnit R Actions))

/-- The units of a host that go to the radix engine. -/
def normalUnits : List (HttpRouteRuleUnit R Actions) :=
  units.filter fun unit => !unit.isRegexRoute

/-- The units of a host that go to the regex engine. -/
def regexUnits : List (HttpRouteRuleUnit R Actions) :=
  units.filter fun unit => unit.isRegexRoute

variable (request : Request)

/-- **The rule selected for a request** when the units of its host were loaded in the order of a
list. -/
def selectedRule : Option (RouteRule Actions) :=
  ((RouteRules.make (normalUnits units) (regexUnits units)).bind (·.matchRoute request)).bind ruleOf

/-! ## Which units are told apart -/

/-- The weight of a unit's path. -/
def HttpRouteRuleUnit.pathWeight : ℕ :=
  unit.extractPaths.head?.elim 0 fun path => (RadixPath.new path.1 0 path.2).priorityWeight

/-- What a unit's path stands for. -/
def HttpRouteRuleUnit.pathShape : List Tok :=
  unit.extractPaths.head?.elim [] fun path => shape path.1

/-- **The radix engine prefers a unit to another one**, whatever the order they are loaded in: by
the weight of the path, by the number of header matchers, or by the place in the tree. -/
def Better (a b : HttpRouteRuleUnit R Actions) : Prop :=
  b.pathWeight < a.pathWeight ∨ a.pathWeight = b.pathWeight ∧
    (b.headerMatcherCount < a.headerMatcherCount ∨ a.headerMatcherCount = b.headerMatcherCount ∧
      Before a.pathShape b.pathShape)

/-- A unit accepts a request, by its path and its checks. -/
def Candidate (unit : HttpRouteRuleUnit R Actions) : Prop :=
  DeepAccepts unit request ∧
    ∃ isPrefix path after, PathAccepts unit isPrefix request.reqHeader.path path after

/-- A unit that accepts the request and that no such unit is preferred to. -/
structure BestPath (units : List (HttpRouteRuleUnit R Actions)) (request : Request)
    (unit : HttpRouteRuleUnit R Actions) : Prop where
  mem : unit ∈ units
  candidate : Candidate request unit
  best : ∀ other ∈ units, Candidate request other → ¬ Better other unit

/-- A unit that decides the request and has a pattern as long as any such unit's. -/
structure BestRegex (units : List (HttpRouteRuleUnit R Actions)) (request : Request)
    (unit : HttpRouteRuleUnit R Actions) : Prop where
  mem : unit ∈ units
  decides : unit.decides request ≠ none
  best : ∀ other ∈ units, other.decides request ≠ none → other.patternLen ≤ unit.patternLen

/-- **No ties between rules**: the longest of the patterns that decide the request select one rule
or none of them does; and where no pattern decides it, the best of the other units are of one
rule. -/
structure NoTies (units : List (HttpRouteRuleUnit R Actions)) (request : Request) : Prop where
  regex : ∀ a b, BestRegex (regexUnits units) request a → BestRegex (regexUnits units) request b →
    (a.decides request).bind ruleOf = (b.decides request).bind ruleOf
  normal : (∀ unit ∈ regexUnits units, unit.decides request = none) →
    ∀ a b, BestPath (normalUnits units) request a → BestPath (normalUnits units) request b →
      a.routeRule = b.routeRule

/-- **What may be selected**, over all orders: what a best pattern decides; where none decides, the
rule of a best unit; and where no unit accepts, nothing. -/
inductive Outcome (units : List (HttpRouteRuleUnit R Actions)) (request : Request) :
    Option (RouteRule Actions) → Prop
  | regex {a : HttpRouteRuleUnit R Actions} (ha : BestRegex (regexUnits units) request a) :
      Outcome units request ((a.decides request).bind ruleOf)
  | normal {a : HttpRouteRuleUnit R Actions}
      (hpass : ∀ unit ∈ regexUnits units, unit.decides request = none)
      (ha : BestPath (normalUnits units) request a) : Outcome units request (some a.routeRule)
  | nothing (hpass : ∀ unit ∈ regexUnits units, unit.decides request = none)
      (hno : ∀ unit ∈ normalUnits units, ¬ Candidate request unit) : Outcome units request none

/-! ## The regex engine -/

variable {unit : HttpRouteRuleUnit R Actions}

section Regex

variable {units : List (HttpRouteRuleUnit R Actions)} {request : Request}

/-- What is decided is decided by a best unit. -/
theorem exists_bestRegex {decision : Except EdError (RouteMatchResult R Actions)}
    (h : (units.insertionSort fun a b => b.patternLen ≤ a.patternLen).findSome?
      (·.decides request) = some decision) :
    ∃ unit, BestRegex units request unit ∧ unit.decides request = some decision := by
  have : Std.Total fun a b : HttpRouteRuleUnit R Actions => b.patternLen ≤ a.patternLen :=
    ⟨fun a b => Nat.le_total _ _⟩
  have : IsTrans (HttpRouteRuleUnit R Actions) fun a b => b.patternLen ≤ a.patternLen :=
    ⟨fun a b c hab hbc => hbc.trans hab⟩
  have hsorted := pairwise_insertionSort
    (fun a b : HttpRouteRuleUnit R Actions => b.patternLen ≤ a.patternLen) units
  obtain ⟨unit, hmem, hunit, hbest⟩ := findSome?_best hsorted h
  refine ⟨unit, ⟨(mem_insertionSort _).1 hmem, by simp [hunit], ?_⟩, hunit⟩
  intro other hother hdecides
  exact hbest other ((mem_insertionSort _).2 hother) hdecides

/-- **A best unit that is loaded first decides.** Only units with longer patterns are sorted before
it, and these pass the request on. -/
theorem decides_first (h : BestRegex (unit :: units) request unit) :
    ((unit :: units).insertionSort fun a b => b.patternLen ≤ a.patternLen).findSome?
      (·.decides request) = unit.decides request := by
  rw [insertionSort_cons, orderedInsert_eq_take_drop, findSome?_append]
  have hfront : ((units.insertionSort fun a b => b.patternLen ≤ a.patternLen).takeWhile
      fun b => decide ¬ b.patternLen ≤ unit.patternLen).findSome? (·.decides request) = none := by
    rw [findSome?_eq_none_iff]
    intro other hother
    by_contra hne
    have hlonger : ¬ other.patternLen ≤ unit.patternLen := by
      simpa using mem_takeWhile_imp hother
    have hmem : other ∈ units := (mem_insertionSort _).1 ((takeWhile_sublist _).mem hother)
    exact hlonger (h.best other (mem_cons_of_mem _ hmem) hne)
  rw [hfront, none_or, findSome?_cons]
  obtain ⟨decision, hdecision⟩ := ne_none_iff_exists'.1 h.decides
  rw [hdecision]

end Regex

/-! ## The radix engine -/

section Radix

variable {units : List (HttpRouteRuleUnit R Actions)} {request : Request}
  {engine : RadixRouteMatchEngine R Actions}

/-- A unit has one path at most. -/
theorem extractPaths_of_mem {path : String × Bool}
    (h : path ∈ unit.extractPaths) : unit.extractPaths = [path] := by
  unfold HttpRouteRuleUnit.extractPaths at h ⊢
  split at h
  · cases h
  · split at h
    · cases h
    · rw [mem_singleton.1 h]

variable {after : Bytes} {isPrefix : Bool} {path requestPath : String}
variable {unit' : HttpRouteRuleUnit R Actions}
variable {i : ℕ} {isPrefix' : Bool} {path' : String} {after' : Bytes}

open RadixRouteMatchEngine

open RadixPath

/-- **What a candidate is sorted by** is the unit's own. -/
theorem CandidateAt.sortedBy (hroutes : engine.routes = units)
    (hpaths : engine.radixPaths = pathsFrom 0 units)
    (h : CandidateAt units requestPath i unit isPrefix path after) :
    engine.priorityWeight i = unit.pathWeight ∧
      engine.headerMatcherCount i = unit.headerMatcherCount ∧
      ((pathsFrom 0 units).map normalized)[i]? = some (normalizePath path) ∧
      unit.pathShape = readPattern .text (asBytes (normalizePath path)) := by
  obtain ⟨routeIdx, hunit, hi⟩ := h.kept
  have hone := extractPaths_of_mem h.accepts.mem
  refine ⟨?_, ?_, ?_, ?_⟩
  · rw [RadixRouteMatchEngine.priorityWeight, hpaths, hi, HttpRouteRuleUnit.pathWeight, hone]
    rfl
  · rw [headerMatcherCount, hpaths, hi, bind_some, hroutes]
    have hunit' : units[(new path routeIdx isPrefix).routeIdx]? = some unit := hunit
    rw [hunit']
    rfl
  · rw [getElem?_map, hi]
    rfl
  · rw [HttpRouteRuleUnit.pathShape, hone]
    rfl

/-- An index has one candidate. -/
theorem CandidateAt.unit_unique (h : CandidateAt units requestPath i unit isPrefix path after)
    (h' : CandidateAt units requestPath i unit' isPrefix' path' after') : unit = unit' := by
  obtain ⟨routeIdx, hunit, hi⟩ := h.kept
  obtain ⟨routeIdx', hunit', hi'⟩ := h'.kept
  rw [hi] at hi'
  have hidx : routeIdx = routeIdx' := congrArg RadixPath.routeIdx (some.inj hi')
  rw [← hidx, hunit] at hunit'
  exact some.inj hunit'

/-- A unit that accepts and is loaded first is the candidate at the first index. -/
theorem PathAccepts.candidateAt_zero
        (h : PathAccepts unit isPrefix requestPath path after) (hhead : units.head? = some unit) :
    CandidateAt units requestPath 0 unit isPrefix path after := by
  obtain ⟨rest, rfl⟩ := head?_eq_some_iff.1 hhead
  refine ⟨h, mem_cons_self, 0, rfl, ?_⟩
  rw [pathsFrom, extractPaths_of_mem h.mem]
  simp [h.ne]

theorem Better.irrefl (unit : HttpRouteRuleUnit R Actions) : ¬ Better unit unit := by
  rintro (h | ⟨-, h | ⟨-, h⟩⟩)
  · exact h.false
  · exact h.false
  · exact h.ne rfl

variable {routes : List (String × ℕ)}

/-- **A unit is not preferred to one that stands before it.** -/
theorem not_better_of_precedes {j : ℕ} (hroutes : engine.routes = units)
    (hpaths : engine.radixPaths = pathsFrom 0 units)
    (hi : CandidateAt units requestPath i unit isPrefix path after)
    (hj : CandidateAt units requestPath j unit' isPrefix' path' after')
    (h : Precedes engine ((pathsFrom 0 units).map normalized) routes i j) :
    ¬ Better unit' unit := by
  obtain ⟨hweight, hheaders, hkey, hshape⟩ := hi.sortedBy hroutes hpaths
  obtain ⟨hweight', hheaders', hkey', hshape'⟩ := hj.sortedBy hroutes hpaths
  obtain ⟨hsorts, htie⟩ := h
  unfold Sorts at hsorts htie
  rw [hweight, hweight', hheaders, hheaders'] at hsorts htie
  rintro (hlt | ⟨heq, hlt | ⟨hheq, hpre⟩⟩)
  · omega
  · omega
  · -- a tie, which the search has broken the other way
    obtain ⟨route, hroute, route', hroute', hki, hkj, hcases⟩ := htie (.inr ⟨heq, hheq.ge⟩)
    rw [hkey] at hki
    rw [hkey'] at hkj
    rw [hshape, hshape', some.inj hki, some.inj hkj] at hpre
    rcases hcases with hcase | ⟨hsame, -⟩
    · exact hcase.asymm hpre
    · exact hpre.ne hsame.symm

/-- **A unit that stands before the first one loaded is preferred to it.** -/
theorem better_of_precedes_zero {table : KeyTable}
    (hkeyed : Keyed table ((pathsFrom 0 units).map normalized) routes)
    (hroutes : engine.routes = units) (hpaths : engine.radixPaths = pathsFrom 0 units)
    (hi : CandidateAt units requestPath i unit isPrefix path after)
    (hzero : CandidateAt units requestPath 0 unit' isPrefix' path' after')
    (h : Precedes engine ((pathsFrom 0 units).map normalized) routes i 0) :
    Better unit unit' := by
  obtain ⟨hweight, hheaders, hkey, hshape⟩ := hi.sortedBy hroutes hpaths
  obtain ⟨hweight', hheaders', hkey', hshape'⟩ := hzero.sortedBy hroutes hpaths
  obtain ⟨hsorts, htie⟩ := h
  unfold Sorts at hsorts htie
  rw [hweight, hweight', hheaders, hheaders'] at hsorts htie
  rcases hsorts with hlt | ⟨heq, hle⟩
  · exact .inl hlt
  · rcases hle.lt_or_eq with hlt | hheq
    · exact .inr ⟨heq, .inl hlt⟩
    · have hearlier := htie (.inr ⟨heq.symm, hheq.ge⟩)
      refine .inr ⟨heq, .inr ⟨hheq.symm, ?_⟩⟩
      rw [hshape, hshape']
      exact hkeyed.before_of_earlier_zero hkey hkey' hearlier

/-- **What the radix engine selects**: a best unit, and of several the one that is loaded first of
all. -/
theorem matchRoute_selects (hbuild : build units = .ok engine)
    (hgood : ∀ path ∈ distinctPaths units, EscapeLast (asBytes path))
    (hbound : (distinctPaths units).length ≤ u32Max) (request : Request) :
    (∃ unit gi, BestPath units request unit ∧ engine.matchRoute request = some (.ok ⟨unit, gi⟩) ∧
        ∀ first, units.head? = some first → BestPath units request first → unit = first) ∨
      (∀ unit ∈ units, ¬ Candidate request unit) ∧
        engine.matchRoute request = some (.error .routeNotFound) := by
  obtain ⟨routes, order, hs⟩ := exists_searchOrder hbuild hgood hbound request
  obtain ⟨table, hkeyed⟩ := hs.keyed
  rcases hs.returns with ⟨result, i, isPrefix, path, after, hans, hcand, hdeep, hfst⟩ |
    ⟨hans, hnone⟩
  · refine .inl ⟨result.routeUnit, result.matchedGateway, ⟨hcand.mem,
      ⟨⟨_, hdeep⟩, isPrefix, path, after, hcand.accepts⟩, ?_⟩, hans, ?_⟩
    · rintro other hother ⟨hdeep', isPrefix', path', after', haccepts'⟩ hbetter
      obtain ⟨j, hj, hcandidate', htry⟩ := hs.tried hother hdeep' haccepts'
      rcases hfst j hj htry with rfl | hprecedes
      · exact Better.irrefl other (hcand.unit_unique hcandidate' ▸ hbetter)
      · exact not_better_of_precedes hs.routes_eq hs.paths_eq hcand hcandidate' hprecedes
          hbetter
    · intro first hhead hbest
      obtain ⟨⟨gi, hgi⟩, isPrefix', path', after', haccepts'⟩ := hbest.candidate
      have hzero := haccepts'.candidateAt_zero hhead
      have htry : engine.tryPath request 0 = some ⟨first, gi⟩ :=
        (hzero.tryPath hs.routes_eq hs.paths_eq).2 ⟨rfl, hgi⟩
      have hmem : 0 ∈ order := (hs.mem_iff 0).2 ⟨first, isPrefix', path', after', hzero⟩
      rcases hfst 0 hmem (by simp [htry]) with rfl | hprecedes
      · exact hcand.unit_unique hzero
      · refine absurd ?_ (hbest.best result.routeUnit hcand.mem
          ⟨⟨_, hdeep⟩, isPrefix, path, after, hcand.accepts⟩)
        exact better_of_precedes_zero hkeyed hs.routes_eq hs.paths_eq hcand hzero hprecedes
  · refine .inr ⟨?_, hans⟩
    rintro unit hunit ⟨hdeep, isPrefix, path, after, hacc⟩
    obtain ⟨i, hi, -, htry⟩ := hs.tried hunit hdeep hacc
    exact htry (hnone i hi)

end Radix

/-! ## Both engines -/

section Both

variable {units order : List (HttpRouteRuleUnit R Actions)} {request : Request}

open RegexRoutesEngine

/-- **What is selected** is taken from what the regex engine decides, or else from the answer of the
radix engine. -/
theorem selected_eq {β : Type*} {pick : Except EdError (RouteMatchResult R Actions) → Option β}
    (hpick : ∀ e, pick (.error e) = none) {engine : RadixRouteMatchEngine R Actions}
    (hbuild : RadixRouteMatchEngine.build (normalUnits units) = .ok engine) (request : Request) :
    ((RouteRules.make (normalUnits units) (regexUnits units)).bind
      (·.matchRoute request)).bind pick =
      (((regexUnits units).insertionSort fun a b => b.patternLen ≤ a.patternLen).findSome?
        (·.decides request)).elim ((engine.matchRoute request).bind pick) pick := by
  rw [← matchRoute_build fun unit (hunit : unit ∈ regexUnits units) =>
    (mem_filter.1 hunit).2]
  -- an engine without units answers as no engine does
  have hempty : normalUnits units = [] →
      engine.matchRoute request = some (.error .routeNotFound) := by
    intro hnil
    rw [hnil] at hbuild
    rcases matchRoute_selects hbuild (by simp [distinctPaths]) (by simp [distinctPaths]) request
      with ⟨unit, _, hbest, -, -⟩ | ⟨-, hans⟩
    · cases hbest.mem
    · exact hans
  have hnone : (build ([] : List (HttpRouteRuleUnit R Actions))).matchRoute request = none := rfl
  unfold RouteRules.make
  by_cases hre : regexUnits units = []
  · by_cases hnormal : normalUnits units = []
    · rw [if_pos ⟨hnormal, hre⟩, hre, hnone, hempty hnormal]
      exact (hpick _).symm
    · rw [if_neg fun h => hnormal h.1, hre, hnone, hbuild]
      simp [hnormal, RouteRules.matchRoute]
  · rw [if_neg fun h => hre h.2]
    have hmatch : ∀ matchEngine : Option (RadixRouteMatchEngine R Actions),
        (RouteRules.matchRoute ⟨normalUnits units, matchEngine, regexUnits units,
          some (build (regexUnits units))⟩ request) =
        ((build (regexUnits units)).matchRoute request).elim
          (matchEngine.elim (some (.error .routeNotFound)) (·.matchRoute request)) some := by
      intro matchEngine
      rw [RouteRules.matchRoute, bind_some]
      rcases (build (regexUnits units)).matchRoute request with _ | decision
      · rcases matchEngine with _ | matchEngine <;> rfl
      · rfl
    by_cases hnormal : normalUnits units = []
    · simp only [if_neg hre, if_pos hnormal, bind_some, hmatch, hempty hnormal]
      rcases (build (regexUnits units)).matchRoute request with _ | decision <;> rfl
    · simp only [if_neg hre, if_neg hnormal, hbuild, bind_some, hmatch]
      rcases (build (regexUnits units)).matchRoute request with _ | decision <;> rfl

/-- **One order of loading**: something that may be selected is, and if it is a best unit that is
loaded first it is the one. -/
theorem selectedRule_outcome
    (hgood : ∀ path ∈ distinctPaths (normalUnits units), EscapeLast (asBytes path))
    (hbound : (distinctPaths (normalUnits units)).length ≤ u32Max)
    (hloads : ∃ engine, RadixRouteMatchEngine.build (normalUnits units) = .ok engine)
    (request : Request) :
    Outcome units request (selectedRule units request) ∧ ∀ first, units.head? = some first →
      (BestRegex (regexUnits units) request first →
        selectedRule units request = (first.decides request).bind ruleOf) ∧
      ((∀ unit ∈ regexUnits units, unit.decides request = none) →
        BestPath (normalUnits units) request first →
        selectedRule units request = some first.routeRule) := by
  obtain ⟨engine, hbuild⟩ := hloads
  have hrule : selectedRule units request = _ := selected_eq (fun _ => rfl) hbuild request
  rcases hfind : ((regexUnits units).insertionSort fun a b =>
    b.patternLen ≤ a.patternLen).findSome? (·.decides request) with _ | decision
  · have hpass : ∀ unit ∈ regexUnits units, unit.decides request = none := fun unit hunit =>
      findSome?_eq_none_iff.1 hfind unit ((mem_insertionSort _).2 hunit)
    rw [hfind, elim_none] at hrule
    rcases matchRoute_selects hbuild hgood hbound request with
      ⟨unit, gi, hbest, hans, hfst⟩ | ⟨hno, hans⟩
    · rw [hans] at hrule
      have hrule : selectedRule units request = some unit.routeRule := hrule
      refine ⟨hrule ▸ .normal hpass hbest, fun first hhead => ⟨fun hre => ?_, fun _ hpath => ?_⟩⟩
      · exact absurd (hpass first hre.mem) hre.decides
      · rw [hrule, hfst first ?_ hpath]
        obtain ⟨rest, rfl⟩ := head?_eq_some_iff.1 hhead
        have hnormal : (!first.isRegexRoute) = true := (mem_filter.1 hpath.mem).2
        have hcons : normalUnits (first :: rest) = first :: normalUnits rest :=
          filter_cons_of_pos hnormal
        rw [hcons]
        rfl
    · rw [hans] at hrule
      have hrule : selectedRule units request = none := hrule
      refine ⟨hrule ▸ .nothing hpass hno, fun first _ => ⟨fun hre => ?_, fun _ hpath => ?_⟩⟩
      · exact absurd (hpass first hre.mem) hre.decides
      · exact absurd hpath.candidate (hno first hpath.mem)
  · obtain ⟨unit, hbest, hunit⟩ := exists_bestRegex hfind
    rw [hfind, elim_some] at hrule
    have hunit' : (unit.decides request).bind ruleOf = selectedRule units request := by
      rw [hunit, hrule]
      rfl
    refine ⟨hunit' ▸ .regex hbest, fun first hhead => ⟨fun hre => ?_, fun hpass _ => ?_⟩⟩
    · obtain ⟨rest, rfl⟩ := head?_eq_some_iff.1 hhead
      have hcons : regexUnits (first :: rest) = first :: regexUnits rest :=
        filter_cons_of_pos (mem_filter.1 hre.mem).2
      rw [hcons] at hfind hre
      rw [hrule, ← decides_first hre, hfind]
      rfl
    · exact absurd (hpass unit hbest.mem) hbest.decides

theorem BestRegex.perm (h : order.Perm units)
    (hbest : BestRegex order request unit) : BestRegex units request unit :=
  ⟨h.mem_iff.1 hbest.mem, hbest.decides, fun other hother => hbest.best other (h.mem_iff.2 hother)⟩

theorem BestPath.perm (h : order.Perm units)
    (hbest : BestPath order request unit) : BestPath units request unit :=
  ⟨h.mem_iff.1 hbest.mem, hbest.candidate,
    fun other hother => hbest.best other (h.mem_iff.2 hother)⟩

theorem Outcome.perm {rule : Option (RouteRule Actions)} (h : order.Perm units)
    (hout : Outcome order request rule) : Outcome units request rule := by
  cases hout with
  | regex ha => exact .regex (ha.perm (h.filter _))
  | normal hpass ha =>
    exact .normal (fun unit hunit => hpass unit ((h.filter _).mem_iff.2 hunit))
      (ha.perm (h.filter _))
  | nothing hpass hno =>
    exact .nothing (fun unit hunit => hpass unit ((h.filter _).mem_iff.2 hunit))
      (fun unit hunit => hno unit ((h.filter _).mem_iff.2 hunit))

/-- Any unit may be loaded first. -/
theorem exists_loaded_first (h : unit ∈ units) :
    ∃ order : List (HttpRouteRuleUnit R Actions), order.Perm units ∧ order.head? = some unit := by
  obtain ⟨before, after, rfl⟩ := append_of_mem h
  exact ⟨unit :: (before ++ after), perm_middle.symm, rfl⟩

/-- Nothing else may be selected where there are no ties. -/
theorem NoTies.outcome_unique {rule rule' : Option (RouteRule Actions)} (h : NoTies units request)
    (hout : Outcome units request rule) (houtcome' : Outcome units request rule') :
    rule = rule' := by
  cases hout with
  | regex ha =>
    cases houtcome' with
    | regex hb => exact h.regex _ _ ha hb
    | normal hpass hb => exact absurd (hpass _ ha.mem) ha.decides
    | nothing hpass hno => exact absurd (hpass _ ha.mem) ha.decides
  | normal hpass ha =>
    cases houtcome' with
    | regex hb => exact absurd (hpass _ hb.mem) hb.decides
    | normal _ hb => rw [h.normal hpass _ _ ha hb]
    | nothing _ hno => exact absurd ha.candidate (hno _ ha.mem)
  | nothing hpass hno =>
    cases houtcome' with
    | regex hb => exact absurd (hpass _ hb.mem) hb.decides
    | normal _ hb => exact absurd hb.candidate (hno _ hb.mem)
    | nothing _ _ => rfl

/-- **The rule selected does not depend on the order of loading iff there are no ties between
rules**, for units whose engine can be built in any order, with fewer than 2^32 paths in which an
escaped segment is the last one. -/
theorem selectedRule_orderFree_iff
    (hgood : ∀ path ∈ distinctPaths (normalUnits units), EscapeLast (asBytes path))
    (hbound : (distinctPaths (normalUnits units)).length ≤ u32Max)
    (hloads : ∀ order : List (HttpRouteRuleUnit R Actions), order.Perm (normalUnits units) →
      ∃ engine, RadixRouteMatchEngine.build order = .ok engine) :
    (∀ order order' : List (HttpRouteRuleUnit R Actions), order.Perm units → order'.Perm units →
      selectedRule order request = selectedRule order' request) ↔ NoTies units request := by
  have hselects := fun (order : List (HttpRouteRuleUnit R Actions)) (hperm : order.Perm units) => by
    have hpaths : (distinctPaths (normalUnits order)).Perm (distinctPaths (normalUnits units)) :=
      ((Perm.flatMap_right _ (hperm.filter _)).map _).dedup
    exact selectedRule_outcome (fun path hpath => hgood path (hpaths.mem_iff.1 hpath))
      (hpaths.length_eq.trans_le hbound) (hloads _ (hperm.filter _)) request
  constructor
  · intro hfree
    -- a best unit that is loaded first is selected
    refine ⟨fun a b ha hb => ?_, fun hpass a b ha hb => ?_⟩
    · have hfirst : ∀ c, BestRegex (regexUnits units) request c →
          selectedRule units request = (c.decides request).bind ruleOf := by
        intro c hc
        obtain ⟨order, hperm, hhead⟩ := exists_loaded_first (mem_filter.1 hc.mem).1
        rw [hfree units order (.refl _) hperm]
        exact ((hselects order hperm).2 c hhead).1 (hc.perm (hperm.filter _).symm)
      rw [← hfirst a ha, ← hfirst b hb]
    · have hfirst : ∀ c, BestPath (normalUnits units) request c →
          selectedRule units request = some c.routeRule := by
        intro c hc
        obtain ⟨order, hperm, hhead⟩ := exists_loaded_first (mem_filter.1 hc.mem).1
        rw [hfree units order (.refl _) hperm]
        exact ((hselects order hperm).2 c hhead).2
          (fun unit hunit => hpass unit ((hperm.filter _).mem_iff.1 hunit))
          (hc.perm (hperm.filter _).symm)
      exact some.inj ((hfirst a ha).symm.trans (hfirst b hb))
  · intro hties order order' hperm hperm'
    exact hties.outcome_unique ((hselects order hperm).1.perm hperm)
      ((hselects order' hperm').1.perm hperm')

end Both

/-- Two routes with one path. -/
def tiedUnits : List (HttpRouteRuleUnit plainRegex Unit) :=
  [pathUnit "a" "PathPrefix" "/", pathUnit "b" "PathPrefix" "/"]

theorem selectedRule_orderFree_iff_tiedUnits :
    (∀ order order' : List (HttpRouteRuleUnit plainRegex Unit), order.Perm tiedUnits →
      order'.Perm tiedUnits →
      selectedRule order (getRequest "/x") = selectedRule order' (getRequest "/x")) ↔
      NoTies tiedUnits (getRequest "/x") := by
  have hnormal : normalUnits tiedUnits = tiedUnits := rfl
  refine selectedRule_orderFree_iff ?_ ?_ ?_
  · decide +kernel
  · decide +kernel
  · intro order hperm
    rw [hnormal, ← mem_permutations'] at hperm
    have horders : order ∈ [tiedUnits, tiedUnits.reverse] := by simpa [tiedUnits] using hperm
    have hboth : ∀ order ∈ [tiedUnits, tiedUnits.reverse],
        (RadixRouteMatchEngine.build order).toOption.isSome = true := by decide +kernel
    obtain ⟨engine, hengine⟩ := isSome_iff_exists.1 (hboth order horders)
    exact ⟨engine, toOption_eq_some.1 hengine⟩

/-- The two routes, loaded in one order and in the other. -/
theorem selectedRule_depends_on_order : tiedUnits.reverse.Perm tiedUnits ∧
      (selectedRule tiedUnits (getRequest "/x")).map RouteRule.rn = some "a" ∧
      (selectedRule tiedUnits.reverse (getRequest "/x")).map RouteRule.rn = some "b" := by
  refine ⟨reverse_perm _, ?_, ?_⟩
  all_goals decide +kernel

end Edgion.Http
