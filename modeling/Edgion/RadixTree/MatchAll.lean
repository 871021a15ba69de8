import Edgion.RadixTree.Entries
import Mathlib.Algebra.Order.Group.Multiset

/-!
# `match_all_ext` finds every route

The search over the arrays finds the entries of the tree that match, and these are the inserted
routes (`insertAll_entries`). So the frozen tree of any sequence of insertions reports each pattern
as tested on its own, its value narrowed by `as u32`.
-/

namespace Edgion.RadixTree

/-- What one route reports: its value with the kind of its match, or nothing. -/
def single (value : ℕ) : Option MatchKind → Multiset (ℕ × MatchKind)
  | none => 0
  | some kind => {(value, kind)}

/-- What a list of routes reports for a path, each pattern tested on its own. -/
def RadixRouter.expected (routes : List (String × ℕ)) (path : Bytes) : Multiset (ℕ × MatchKind) :=
  (routes.map fun route => single route.2 (testRoute (asBytes route.1) path)).sum

variable {routes : List (String × ℕ)}

open RadixRouter Common

/-- The routes as they are meant report what they do as tested on their own. -/
theorem coe_filterMap_report (hne : ∀ route ∈ routes, NoEscape (asBytes route.1)) (path : Bytes) :
    (((routes.map entryOf).filterMap (report path) : List (ℕ × MatchKind)) :
      Multiset (ℕ × MatchKind)) = expected routes path := by
  induction routes with
  | nil => rfl
  | cons route routes ih =>
    have hroute := (hne route List.mem_cons_self).testRoute_eq path
    have hrest := ih fun r hr => hne r (List.mem_cons_of_mem _ hr)
    rw [expected, List.map_cons, List.map_cons, List.sum_cons, hroute,
      ← expected, ← hrest, List.filterMap_cons, report, entryOf]
    rcases tokensKind (readPattern .text (asBytes route.1)) path with _ | kind
    · exact (zero_add _).symm
    · rfl

section

variable {routes : List (String × ℕ)} {router : RadixRouter} {t : FrozenRadixTree}
  (hins : new.insertAll routes = .ok router) (hfreeze : router.freeze = .ok t)

include hins hfreeze

/-- A frozen tree reports the routes as they are meant, with the values narrowed. -/
theorem matchAllExt_perm (hgood : ∀ route ∈ routes, EscapeLast (asBytes route.1))
    (path : String) : ∃ found, t.matchAllExt path = some found ∧
      found.Perm (((routes.map entryOf).filterMap (report (asBytes path))).map narrow) := by
  obtain ⟨hwf, hperm⟩ := insertAll_entries new_wf hgood hins
  have hempty : new.root.entries = [] := rfl
  rw [hempty, List.append_nil] at hperm
  refine ⟨_, matchAllExt_hits hfreeze path, ?_⟩
  rw [BuildNode.hits_eq _ _ hwf.1]
  exact (hperm.filterMap _).map _

/-- **A frozen tree reports its routes, each tested on its own**, with the values narrowed. -/
theorem matchAllExt_expected (hne : ∀ route ∈ routes, NoEscape (asBytes route.1))
    (path : String) : ∃ found, t.matchAllExt path = some found ∧
      (found : Multiset (ℕ × MatchKind)) = (expected routes (asBytes path)).map narrow := by
  obtain ⟨found, hmatch, hperm⟩ :=
    matchAllExt_perm hins hfreeze (fun route hroute => (hne route hroute).escapeLast) path
  refine ⟨found, hmatch, ?_⟩
  rw [← coe_filterMap_report hne, Multiset.map_coe, Multiset.coe_eq_coe]
  exact hperm

/-- **Where every escape is in the last segment of its pattern, a pattern is reported iff it matches
the path as it is meant**, whatever stands beside it: `/::x` for `/:x`, and its other segments as
usual. -/
theorem matchAllExt_reads_escapes (hgood : ∀ route ∈ routes, EscapeLast (asBytes route.1))
    (path : String) : ∃ found, t.matchAllExt path = some found ∧
      found.Perm (routes.filterMap fun route =>
        (tokensKind (readPattern .text (asBytes route.1)) (asBytes path)).map
          (asU32 route.2, ·)) := by
  obtain ⟨found, hmatch, hperm⟩ := matchAllExt_perm hins hfreeze hgood path
  rw [List.filterMap_map, List.map_filterMap] at hperm
  refine ⟨found, hmatch, hperm.trans (List.Perm.of_eq (List.filterMap_congr fun route _ => ?_))⟩
  simp [report, entryOf, narrow, Function.comp_def]

end

/-- An escape beside a parameter. -/
theorem matchAllExt_reads_escapes_sample : ∃ router t,
    new.insertAll [("/a/::x", 1), ("/a/:x", 2)] = .ok router ∧
      router.freeze = .ok t ∧ ∃ found, t.matchAllExt "/a/:x" = some found ∧
      found.Perm ([("/a/::x", 1), ("/a/:x", 2)].filterMap fun route =>
        (tokensKind (readPattern .text (asBytes route.1)) (asBytes "/a/:x")).map
          (asU32 route.2, ·)) := by
  obtain ⟨router, t, hins, hfreeze⟩ := exists_of_bind_isOk (x := new.insertAll
    [("/a/::x", 1), ("/a/:x", 2)]) (f := freeze) (by decide +kernel)
  exact ⟨router, t, hins, hfreeze, matchAllExt_reads_escapes hins hfreeze (by decide +kernel) _⟩

/-- **The segment after an escape is inserted beside it**: the pattern is not found where it
matches, and found where it does not. -/
theorem matchAllExt_misreads_escape : ∃ router t,
    new.insertAll [("/::x/y", 1)] = .ok router ∧ router.freeze = .ok t ∧
      t.matchAllExt "/:x/y" = some [] ∧ t.matchAllExt "/y" = some [(1, .fullyConsumed)] ∧
      tokensKind (readPattern .text (asBytes "/::x/y")) (asBytes "/:x/y") = some .fullyConsumed ∧
      tokensKind (readPattern .text (asBytes "/::x/y")) (asBytes "/y") = none := by
  have hruns : (new.insertAll [("/::x/y", 1)] >>= freeze).toOption.map
      (fun t => (t.matchAllExt "/:x/y", t.matchAllExt "/y")) =
        some (some [], some [(1, .fullyConsumed)]) := by
    decide +kernel
  obtain ⟨t, ht, hanswers⟩ := Option.map_eq_some_iff.1 hruns
  obtain ⟨router, hins, hfreeze⟩ := bind_eq_ok.1 (toOption_eq_some.1 ht)
  obtain ⟨hmissed, hfound⟩ := Prod.mk.inj hanswers
  exact ⟨router, t, hins, hfreeze, hmissed, hfound, by decide +kernel, by decide +kernel⟩

/-- A report of a list of routes is the report of one of them. -/
theorem mem_expected {path : Bytes} {report : ℕ × MatchKind} :
    report ∈ expected routes path ↔ ∃ route ∈ routes, report.1 = route.2 ∧
      testRoute (asBytes route.1) path = some report.2 := by
  induction routes with
  | nil => simp [expected]
  | cons route routes ih =>
    have hsingle : report ∈ single route.2 (testRoute (asBytes route.1) path) ↔
        report.1 = route.2 ∧ testRoute (asBytes route.1) path = some report.2 := by
      rcases testRoute (asBytes route.1) path with _ | kind
      · simp [single]
      · simp [single, Prod.ext_iff, eq_comm]
    have hcons : expected (route :: routes) path =
      single route.2 (testRoute (asBytes route.1) path) + expected routes path := rfl
    rw [hcons, Multiset.mem_add, ih, hsingle]
    simp

/-- **`match_all_ext` returns exactly the routes that match, with their kinds**, if and only if
every value fits in the `u32` the tree stores it in: a pattern matches its own text, and there a
greater value comes back narrowed. -/
theorem matchAllExt_exact_iff {routes : List (String × ℕ)} {router : RadixRouter}
    {t : FrozenRadixTree} (hne : ∀ route ∈ routes, NoEscape (asBytes route.1))
    (hins : new.insertAll routes = .ok router) (hfreeze : router.freeze = .ok t) :
    (∀ path : String, ∃ found, t.matchAllExt path = some found ∧
      (found : Multiset (ℕ × MatchKind)) = expected routes (asBytes path)) ↔
      ∀ route ∈ routes, route.2 < 2 ^ 32 := by
  constructor
  · intro hexact route hroute
    obtain ⟨found, hmatch, hfound⟩ := hexact route.1
    obtain ⟨found', hmatch', hfound'⟩ := matchAllExt_expected hins hfreeze hne route.1
    rw [hmatch] at hmatch'
    cases hmatch'
    have hmem : (route.2, MatchKind.fullyConsumed) ∈ expected routes (asBytes route.1) :=
      mem_expected.2 ⟨route, hroute, rfl, testRoute_self _⟩
    rw [← hfound, hfound', Multiset.mem_map] at hmem
    obtain ⟨report, -, heq⟩ := hmem
    have hvalue : asU32 report.1 = route.2 := congrArg Prod.fst heq
    rw [← hvalue]
    exact Nat.mod_lt _ (by decide)
  · intro hfit path
    obtain ⟨found, hmatch, hfound⟩ := matchAllExt_expected hins hfreeze hne path
    refine ⟨found, hmatch, ?_⟩
    rw [hfound]
    conv_rhs => rw [← Multiset.map_id (expected routes (asBytes path))]
    refine Multiset.map_congr rfl fun report hreport => ?_
    obtain ⟨route, hroute, hvalue, -⟩ := mem_expected.1 hreport
    have hlt := hfit route hroute
    rw [← hvalue] at hlt
    exact Prod.ext (Nat.mod_eq_of_lt hlt) rfl

/-- Three routes that share a prefix, one with a parameter. -/
theorem matchAllExt_exact_iff_sample : ∃ router t,
    new.insertAll [("/api", 1), ("/api/:v/users", 2), ("/apple", 3)] = .ok router ∧
      router.freeze = .ok t ∧
      ((∀ path : String, ∃ found, t.matchAllExt path = some found ∧
        (found : Multiset (ℕ × MatchKind)) = expected
          [("/api", 1), ("/api/:v/users", 2), ("/apple", 3)] (asBytes path)) ↔
        ∀ route ∈ [("/api", 1), ("/api/:v/users", 2), ("/apple", 3)], route.2 < 2 ^ 32) := by
  obtain ⟨router, t, hins, hfreeze⟩ := exists_of_bind_isOk (x := new.insertAll
    [("/api", 1), ("/api/:v/users", 2), ("/apple", 3)]) (f := freeze) (by decide +kernel)
  exact ⟨router, t, hins, hfreeze, matchAllExt_exact_iff (by decide) hins hfreeze⟩

/-- **A value of 2³² comes back as 0**: the route is found, under another route's value. -/
theorem matchAllExt_narrows_value : ∃ router t,
    new.insertAll [("/a", 4294967296)] = .ok router ∧ router.freeze = .ok t ∧
      NoEscape (asBytes "/a") ∧ t.matchAllExt "/a" = some [(0, .fullyConsumed)] ∧
      expected [("/a", 4294967296)] (asBytes "/a") =
        {(4294967296, .fullyConsumed)} := by
  refine ⟨_, _, rfl, rfl, by decide, by decide, ?_⟩
  simp [expected, testRoute_self, single]

end Edgion.RadixTree
