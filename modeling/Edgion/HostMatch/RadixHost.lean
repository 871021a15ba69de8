import Edgion.Common.OrderedLists
import Edgion.Common.Parts
import Edgion.RadixTree.KeyTable

/-!
# Host matching — the radix tree of reversed names

`RadixHostMatchEngine` stores the fixed part of every host, its labels in reverse, in a radix tree.
A request's name is reversed too, so the hosts whose fixed part ends the name are among those
whose key begins the reversed name. The tree compares bytes and knows no labels: what it finds is
checked once more by `matches`, from the longest key to the shortest.

The standard library's `to_lowercase` is a parameter. Patterns and requests are compared through it
only, so nothing has to be known of it.
-/

namespace Edgion.HostMatch

open Text RadixTree List Option KeyTable Bool

universe u

variable (toLowercase : String → String)

/-! ## Hosts -/

def reverseHostname (host : String) : String :=
  if host = "" then ""
  else String.ofList (['.'].intercalate (host.toList.splitOn '.').reverse)

/-- The leading labels `*` that `RadixHost::new` counts. -/
def wildcardCount (hostLower : String) : ℕ :=
  ((hostLower.toList.splitOn '.').takeWhile (· == ['*'])).length

/-- The `fixed_part` of `RadixHost::new`: what follows those labels, or all of a host without. -/
def fixedPart (hostLower : String) : String :=
  if startsWith hostLower "*" then
    String.ofList (['.'].intercalate
      ((hostLower.toList.splitOn '.').drop (wildcardCount hostLower)))
  else hostLower

structure RadixHost (T : Type u) where
  original : String
  radixKey : String
  isWildcard : Bool
  wildcardCount : ℕ
  runtime : T

namespace RadixHost

variable {T : Type u}

def new (host : String) (runtime : T) : RadixHost T :=
  let hostLower := toLowercase host
  let isWildcard := startsWith hostLower "*"
  { original := host
    radixKey := reverseHostname (fixedPart hostLower)
    isWildcard := isWildcard
    wildcardCount := if isWildcard then HostMatch.wildcardCount hostLower else 0
    runtime := runtime }

def wildcardMatches (h : RadixHost T) (reversedRequest : String) : Bool :=
  if !startsWith reversedRequest h.radixKey then false
  else if len reversedRequest = len h.radixKey then false
  else
    match reversedRequest.toList.drop h.radixKey.toList.length with
    | '.' :: remainingWithoutDot =>
      if remainingWithoutDot = [] then false
      else decide (h.wildcardCount ≤ (remainingWithoutDot.splitOn '.').length)
    | _ => false

/-- `RadixHost::matches`. -/
def matchesHost (h : RadixHost T) (requestHost : String) : Bool :=
  let reversedRequest := reverseHostname (toLowercase requestHost)
  if h.isWildcard then h.wildcardMatches reversedRequest
  else reversedRequest == h.radixKey

end RadixHost

/-! ## The engine -/

structure RadixHostMatchEngine (T : Type u) where
  tree : FrozenRadixTree
  hosts : List (RadixHost T)
  treeValueToHostIdx : ℕ → Option (List ℕ)

/-- What `initialize` fails with, by its cause. -/
inductive InitializeError where
  | insert (radixKey original : String) (e : RouterError)
  | freeze (e : RouterError)
  deriving DecidableEq

/-- The variables of the loop of `initialize`, with what it changes of the engine. -/
structure InitializeState (T : Type u) where
  table : KeyTable
  hosts : List (RadixHost T)

/-- The loop of `initialize`. -/
def InitializeState.run {T : Type u} (s : InitializeState T) :
    List (RadixHost T) → InitializeState T × Except InitializeError Unit
  | [] => (s, .ok ())
  | host :: hosts =>
    match s.table.add host.radixKey s.hosts.length with
    | .error e => (s, .error (.insert host.radixKey host.original e))
    | .ok table => InitializeState.run ⟨table, s.hosts ++ [host]⟩ hosts

namespace RadixHostMatchEngine

variable {T : Type u}

/-- `RadixHostMatchEngine::new`. An empty tree can be frozen. -/
def new : RadixHostMatchEngine T :=
  ⟨RadixRouter.new.freeze.toOption.get (by decide), [], fun _ => none⟩

variable (engine : RadixHostMatchEngine T)

/-- **`RadixHostMatchEngine::initialize`**. -/
def initializeHosts (hosts : List (RadixHost T)) :
    RadixHostMatchEngine T × Except InitializeError Unit :=
  match InitializeState.run ⟨init engine.treeValueToHostIdx, engine.hosts⟩ hosts with
  | (s, .error e) => (⟨engine.tree, s.hosts, s.table.treeValueToIdx⟩, .error e)
  | (s, .ok ()) =>
    match s.table.builder.freeze with
    | .error e => (⟨engine.tree, s.hosts, s.table.treeValueToIdx⟩, .error (.freeze e))
    | .ok tree => (⟨tree, s.hosts, s.table.treeValueToIdx⟩, .ok ())

/-- The body of the two inner loops of `match_host`: the first host under a tree value that
matches. -/
def tryValue (hostname : String) (treeValue : ℕ) : Option T :=
  ((engine.treeValueToHostIdx treeValue).getD []).findSome? fun hostIdx =>
    engine.hosts[hostIdx]?.bind fun radixHost =>
      if radixHost.matchesHost toLowercase hostname then some radixHost.runtime else none

/-- **`match_host`**. The outer `none` is a panic in the tree. -/
def matchHost (hostname : String) : Option (Option T) :=
  (engine.tree.matchAllPrefixes (reverseHostname (toLowercase hostname))).map fun allValues =>
    if allValues = [] then none
    else allValues.reverse.findSome? (engine.tryValue toLowercase hostname)

end RadixHostMatchEngine

/-! ## What a host matches -/

/-- **The requests a host stands for**, both in lower case. A host that does not begin with `*`
stands for itself. One with `n` leading labels `*` before a fixed part stands for the names that
have at least `n` more labels, and one at least, before that part. -/
def HostMatches (host request : String) : Prop :=
  if startsWith host "*" = true then
    ∃ front : String, front ≠ "" ∧ request = front ++ "." ++ fixedPart host ∧
      wildcardCount host ≤ (front.toList.splitOn '.').length
  else request = host

theorem toList_reverseHostname (host : String) :
    (reverseHostname host).toList = Common.flip '.' host.toList := by
  unfold reverseHostname
  split
  · rename_i h
    rw [h]
    rfl
  · rw [String.toList_ofList, Common.flip]

open Common

theorem reverseHostname_injective : Function.Injective reverseHostname := by
  intro a b h
  refine String.toList_injective (flip_injective '.' ?_)
  rw [← toList_reverseHostname, ← toList_reverseHostname, h]

variable {T : Type u} {request : String} {h : RadixHost T}

theorem RadixHost.wildcardMatches_iff : h.wildcardMatches request ↔ ∃ rest, rest ≠ [] ∧
      request.toList = h.radixKey.toList ++ '.' :: rest ∧
      h.wildcardCount ≤ (rest.splitOn '.').length := by
  unfold wildcardMatches
  constructor
  · intro hm
    split at hm
    · cases hm
    · rename_i hpre
      simp only [not_eq_true', not_eq_false, startsWith_iff] at hpre
      obtain ⟨after, hpost⟩ := hpre
      rw [← hpost, drop_left] at hm
      split at hm
      · cases hm
      · split at hm
        · rename_i rest
          split at hm
          · cases hm
          · rename_i hne
            exact ⟨rest, hne, hpost.symm, of_decide_eq_true hm⟩
        · cases hm
  · rintro ⟨rest, hne, hreq, hcount⟩
    have hpre : startsWith request h.radixKey = true := by
      rw [startsWith_iff, hreq]
      exact prefix_append _ _
    have hlen : len request ≠ len h.radixKey := by
      have hsplit : request = h.radixKey ++ String.ofList ('.' :: rest) :=
        String.toList_injective (by simpa using hreq)
      have hpos : 0 < len (String.ofList ('.' :: rest)) := len_ofList_pos_iff.2 (by simp)
      rw [hsplit, len, String.utf8ByteSize_append]
      simp only [len] at hpos ⊢
      omega
    rw [if_neg (by simp [hpre]), if_neg hlen, hreq, drop_left]
    simp [hne, hcount]

/-- The request is reversed: more labels in front of the fixed part are more behind the key. -/
theorem eq_append_fixed_iff {fixed : String} {rest : List Char} :
    (reverseHostname request).toList = (reverseHostname fixed).toList ++ '.' :: rest ↔
      request.toList = flip '.' rest ++ '.' :: fixed.toList := by
  rw [toList_reverseHostname, toList_reverseHostname]
  constructor
  · intro h
    rw [← Common.flip_flip '.' request.toList, h, Common.flip_append_cons, Common.flip_flip]
  · intro h
    rw [h, Common.flip_append_cons, Common.flip_flip]

open RadixHost

/-- **`matches` tells what a host stands for.** -/
theorem RadixHost.matchesHost_iff {host : String} {runtime : T} :
    (new toLowercase host runtime).matchesHost toLowercase request ↔
      HostMatches (toLowercase host) (toLowercase request) := by
  unfold matchesHost HostMatches
  by_cases hw : startsWith (toLowercase host) "*" = true
  · have hwild : (new toLowercase host runtime).isWildcard = true := hw
    have hcount : (new toLowercase host runtime).wildcardCount =
      HostMatch.wildcardCount (toLowercase host) := if_pos hw
    have hkey : (new toLowercase host runtime).radixKey =
      reverseHostname (fixedPart (toLowercase host)) := rfl
    simp only [hwild, if_true, wildcardMatches_iff, hkey, hcount, eq_append_fixed_iff, if_pos hw]
    constructor
    · rintro ⟨rest, hne, hreq, hlabels⟩
      refine ⟨String.ofList (flip '.' rest), ?_, ?_, ?_⟩
      · intro h
        have := congrArg String.toList h
        exact hne ((flip_eq_nil_iff '.').1 (by simpa using this))
      · exact String.toList_injective (by simpa using hreq)
      · rw [String.toList_ofList, splitOn_flip, length_reverse]
        exact hlabels
    · rintro ⟨front, hne, hreq, hlabels⟩
      refine ⟨flip '.' front.toList, ?_, ?_, ?_⟩
      · intro h
        exact hne (String.toList_injective (by simpa using (flip_eq_nil_iff '.').1 h))
      · rw [Common.flip_flip, hreq]
        simp
      · rw [splitOn_flip, length_reverse]
        exact hlabels
  · have hwild : (new toLowercase host runtime).isWildcard = false := eq_false_iff.2 hw
    have hkey : (new toLowercase host runtime).radixKey = reverseHostname (toLowercase host) := by
      simp [new, fixedPart, eq_false_iff.2 hw]
    simp only [hwild, hkey, false_eq_true, if_false, beq_iff_eq, if_neg hw]
    exact reverseHostname_injective.eq_iff

/-- The key of a host that matches begins the reversed request. -/
theorem RadixHost.radixKey_isPrefix (hm : h.matchesHost toLowercase request) :
    asBytes h.radixKey <+: asBytes (reverseHostname (toLowercase request)) := by
  unfold matchesHost at hm
  split at hm
  · obtain ⟨rest, -, hrest, -⟩ := wildcardMatches_iff.1 hm
    have hsplit : reverseHostname (toLowercase request) =
        h.radixKey ++ String.ofList ('.' :: rest) :=
      String.toList_injective (by simpa using hrest)
    rw [hsplit, asBytes_append]
    exact prefix_append _ _
  · rw [eq_of_beq hm]

theorem len_reverseHostname (host : String) : len (reverseHostname host) = len host := by
  refine len_of_perm ?_
  rw [toList_reverseHostname]
  exact flip_perm '.' host.toList

/-! ## What `initialize` builds -/

section Build

variable {T : Type u} {hosts : List (RadixHost T)}

/-- **The loop keeps the table keyed** by the keys of the hosts. -/
theorem InitializeState.keyed_run {s s' : InitializeState T}
    {routes : List (String × ℕ)} (hb : Keyed s.table (s.hosts.map radixKey) routes)
    (h : s.run hosts = (s', .ok ())) : s'.hosts = s.hosts ++ hosts ∧
      ∃ routes', Keyed s'.table (s'.hosts.map radixKey) routes' := by
  induction hosts generalizing s routes with
  | nil =>
    cases h
    exact ⟨(append_nil _).symm, routes, hb⟩
  | cons host hosts ih =>
    rw [InitializeState.run] at h
    split at h
    · cases h
    · rename_i table hadd
      rw [← length_map radixKey] at hadd
      obtain ⟨routes1, hb1⟩ := hb.add hadd
      obtain ⟨hhosts, hkeyed⟩ := ih (by simpa using hb1) h
      exact ⟨by simpa using hhosts, hkeyed⟩

open RadixHostMatchEngine

/-- **A successful `initialize` of a fresh engine** leaves the hosts, a table keyed by their keys,
and the tree of the keys. -/
theorem initializeHosts_eq_ok {engine : RadixHostMatchEngine T}
    (h : new.initializeHosts hosts = (engine, .ok ())) :
    ∃ table tree routes, Keyed table (hosts.map radixKey) routes ∧
      table.builder.freeze = .ok tree ∧ engine = ⟨tree, hosts, table.treeValueToIdx⟩ := by
  unfold initializeHosts at h
  split at h
  · cases h
  · rename_i s hrun
    split at h
    · cases h
    · rename_i tree hfreeze
      obtain ⟨hhosts, routes, hb⟩ := InitializeState.keyed_run Keyed.init hrun
      have hhosts : s.hosts = hosts := hhosts
      rw [hhosts] at hb h
      exact ⟨s.table, tree, routes, hb, hfreeze, (congrArg Prod.fst h).symm⟩

end Build

/-! ## The best host -/

section Best

variable {T : Type u} {hosts : List (RadixHost T)}

/-- **What a search under one tree value finds**: a matching host with the key of that value. -/
theorem tryValue_spec {table : KeyTable}
    {routes : List (String × ℕ)} (hb : Keyed table (hosts.map radixKey) routes)
    (hbound : routes.length ≤ u32Max) {route : String × ℕ} (hroute : route ∈ routes)
    (tree : FrozenRadixTree) (request : String) :
    (∀ v, RadixHostMatchEngine.tryValue toLowercase ⟨tree, hosts, table.treeValueToIdx⟩ request
        route.2 = some v →
      ∃ host ∈ hosts, host.radixKey = route.1 ∧ host.runtime = v ∧
        host.matchesHost toLowercase request = true) ∧
      ∀ host ∈ hosts, host.radixKey = route.1 → host.matchesHost toLowercase request →
        RadixHostMatchEngine.tryValue toLowercase ⟨tree, hosts, table.treeValueToIdx⟩ request
          route.2 ≠ none := by
  constructor
  · intro v hv
    obtain ⟨_, i, _, hsplit, hi, -⟩ := findSome?_eq_some_iff.1 hv
    have hmem : i ∈ (table.treeValueToIdx route.2).getD [] := by
      rw [hsplit]
      simp
    have hkey := (hb.mem_idx_iff hbound hroute).1 hmem
    rw [getElem?_map, map_eq_some_iff] at hkey
    obtain ⟨host, hhost, hkey⟩ := hkey
    rw [hhost, bind_some, ite_none_right_eq_some] at hi
    exact ⟨host, mem_of_getElem? hhost, hkey, some.inj hi.2, hi.1⟩
  · intro host hhost hkey hmatch hnone
    obtain ⟨i, hi⟩ := getElem?_of_mem hhost
    have hmem : i ∈ (table.treeValueToIdx route.2).getD [] :=
      (hb.mem_idx_iff hbound hroute).2 (by rw [getElem?_map, hi, map_some, hkey])
    have := findSome?_eq_none_iff.1 hnone i hmem
    simp [hi, hmatch] at this

/-- **What `match_host` returns**: it never panics, answers none only when no host matches, and
otherwise with a matching host that has the longest key. -/
theorem matchHost_spec {engine : RadixHostMatchEngine T}
    (hlit : ∀ host ∈ hosts, Literal (asBytes host.radixKey))
    (h : RadixHostMatchEngine.new.initializeHosts hosts = (engine, .ok ())) (request : String) :
    ∃ answer, engine.matchHost toLowercase request = some answer ∧
      (answer = none → ∀ host ∈ hosts, ¬ host.matchesHost toLowercase request = true) ∧
      ∀ v, answer = some v → ∃ host ∈ hosts, host.runtime = v ∧
        host.matchesHost toLowercase request ∧
        ∀ other ∈ hosts, other.matchesHost toLowercase request →
          len other.radixKey ≤ len host.radixKey := by
  obtain ⟨table, tree, routes, hb, hfreeze, rfl⟩ := initializeHosts_eq_ok h
  have hlitRoutes : ∀ route ∈ routes, Literal (asBytes route.1) := by
    intro route hroute
    obtain ⟨host, hhost, hkey⟩ := mem_map.1 ((hb.mem_iff route.1).2 ⟨route.2, hroute⟩)
    exact hkey ▸ hlit host hhost
  have hbound := (length_le_size hlitRoutes hb.inserted hb.nodup).trans (size_le_of_freeze hfreeze)
  obtain ⟨hits, hprefixes, hhits, hsorted⟩ := matchAllPrefixes_hits hlitRoutes hb.inserted hb.nodup
    hb.value_le hfreeze (reverseHostname (toLowercase request))
  -- the search goes through the hits from the longest key to the shortest
  let engine : RadixHostMatchEngine T := ⟨tree, hosts, table.treeValueToIdx⟩
  let tryRoute : String × ℕ → Option T := fun route => engine.tryValue toLowercase request route.2
  have hans : engine.matchHost toLowercase request = some (hits.reverse.findSome? tryRoute) := by
    have hmap : (hits.map Prod.snd).reverse.findSome? (engine.tryValue toLowercase request) =
        hits.reverse.findSome? tryRoute := by
      rw [← map_reverse, findSome?_map]
      rfl
    rw [RadixHostMatchEngine.matchHost, hprefixes, map_some, hmap]
    split
    · rename_i hnil
      rw [map_eq_nil_iff.1 hnil]
      rfl
    · rfl
  -- every host that matches is under the key of a hit, which answers
  have hhit : ∀ host ∈ hosts, host.matchesHost toLowercase request →
      ∃ route ∈ hits.reverse, route.1 = host.radixKey ∧ tryRoute route ≠ none := by
    intro host hhost hm
    obtain ⟨v, hv⟩ := (hb.mem_iff _).1 (mem_map_of_mem hhost)
    refine ⟨(host.radixKey, v), ?_, rfl, ?_⟩
    · exact mem_reverse.2 ((hhits _).2 ⟨hv, radixKey_isPrefix toLowercase hm⟩)
    · exact (tryValue_spec toLowercase hb hbound hv tree request).2 host hhost rfl hm
  refine ⟨_, hans, fun hnone host hhost hm => ?_, fun v hv => ?_⟩
  · obtain ⟨route, hroute, -, htry⟩ := hhit host hhost hm
    exact htry (findSome?_eq_none_iff.1 hnone route hroute)
  · have hdesc : hits.reverse.Pairwise fun a b => len b.1 ≤ len a.1 := by
      exact pairwise_reverse.2 hsorted
    have : Std.Refl fun a b : String × ℕ => len b.1 ≤ len a.1 := ⟨fun _ => le_rfl⟩
    obtain ⟨route, hroute, htry, hbest⟩ := findSome?_best hdesc hv
    have hmem := ((hhits route).1 (mem_reverse.1 hroute)).1
    obtain ⟨host, hhost, hkey, hruntime, hm⟩ :=
      (tryValue_spec toLowercase hb hbound hmem tree request).1 v htry
    refine ⟨host, hhost, hruntime, hm, fun other hother hmo => ?_⟩
    obtain ⟨route', hroute', hkey', htry'⟩ := hhit other hother hmo
    rw [← hkey', hkey]
    exact hbest route' hroute' htry'

/-- A wildcard's fixed part is shorter than the request. -/
theorem HostMatches.len_fixedPart_lt {host request : String} (h : HostMatches host request)
    (hw : startsWith host "*") : len (fixedPart host) < len request := by
  unfold HostMatches at h
  rw [if_pos hw] at h
  obtain ⟨front, -, rfl, -⟩ := h
  have hdot : len "." = 1 := by decide
  simp only [len, String.utf8ByteSize_append] at hdot ⊢
  omega

/-- A host without `*` that matches is the request, and so is its fixed part. -/
theorem HostMatches.of_plain {host request : String} (h : HostMatches host request)
    (hw : startsWith host "*" = false) : host = request ∧ fixedPart host = request := by
  unfold HostMatches at h
  rw [if_neg (by simp [hw])] at h
  exact ⟨h.symm, by rw [fixedPart, hw, h]; rfl⟩

/-- **`match_host` returns the value of a most specific matching host.** On a fresh engine that
was initialized with hosts without `/:`, it answers exactly the requests some host stands for, with
the value of one that matches and has the longest fixed part. Where an exact host is present, the
answer is an exact host's. -/
theorem matchHost_most_specific {hosts : List (String × T)} {engine : RadixHostMatchEngine T}
    (hlit : ∀ host ∈ hosts, Literal (asBytes (reverseHostname (fixedPart (toLowercase host.1)))))
    (h : RadixHostMatchEngine.new.initializeHosts
      (hosts.map fun host => new toLowercase host.1 host.2) = (engine, .ok ()))
    (request : String) :
    ∃ answer, engine.matchHost toLowercase request = some answer ∧ (answer.isSome = true ↔
        ∃ host ∈ hosts, HostMatches (toLowercase host.1) (toLowercase request)) ∧
      ∀ v, answer = some v → ∃ host ∈ hosts, host.2 = v ∧
        HostMatches (toLowercase host.1) (toLowercase request) ∧
        ∀ other ∈ hosts, HostMatches (toLowercase other.1) (toLowercase request) →
          len (fixedPart (toLowercase other.1)) ≤ len (fixedPart (toLowercase host.1)) ∧
          (startsWith (toLowercase other.1) "*" = false →
            toLowercase host.1 = toLowercase request) := by
  have hlit' : ∀ radixHost ∈ hosts.map fun host => new toLowercase host.1 host.2,
      Literal (asBytes radixHost.radixKey) := by
    intro radixHost hmem
    obtain ⟨host, hhost, rfl⟩ := mem_map.1 hmem
    exact hlit host hhost
  obtain ⟨answer, hanswer, hnone, hsome⟩ := matchHost_spec toLowercase hlit' h request
  refine ⟨answer, hanswer, ?_⟩
  cases answer with
  | none =>
    have hno : ¬ ∃ host ∈ hosts, HostMatches (toLowercase host.1) (toLowercase request) := by
      rintro ⟨host, hhost, hm⟩
      exact hnone rfl _ (mem_map_of_mem hhost) ((matchesHost_iff toLowercase).2 hm)
    exact ⟨iff_of_false (by simp) hno, fun _ hv => by cases hv⟩
  | some v =>
    obtain ⟨radixHost, hmem, rfl, hm, hbest⟩ := hsome v rfl
    obtain ⟨host, hhost, rfl⟩ := mem_map.1 hmem
    rw [matchesHost_iff] at hm
    refine ⟨iff_of_true rfl ⟨host, hhost, hm⟩, fun _ hv => ⟨host, hhost, some.inj hv, hm, ?_⟩⟩
    intro other hother hmo
    have hle := hbest _ (mem_map_of_mem hother) ((matchesHost_iff toLowercase).2 hmo)
    simp only [new, len_reverseHostname] at hle
    refine ⟨hle, fun hplain => ?_⟩
    by_contra hne
    have hw : startsWith (toLowercase host.1) "*" = true := by
      by_contra hw
      exact hne (hm.of_plain (eq_false_iff.2 hw)).1
    have hlt := hm.len_fixedPart_lt hw
    rw [(hmo.of_plain hplain).2] at hle
    omega

end Best

/-! ## Initializing again -/

/-- The states of an engine: what calls of `initialize` lead to, failed ones as well. -/
inductive Reached {T : Type u} : RadixHostMatchEngine T → Prop
  | new : Reached .new
  | again {engine : RadixHostMatchEngine T} (hosts : List (RadixHost T)) :
      Reached engine → Reached (engine.initializeHosts hosts).1

/-- **Another `initialize` does not mix the old list with the new one**: on success the engine answers
as a fresh one with the new list, on failure as before. -/
def Isolated {T : Type u} (engine : RadixHostMatchEngine T) (hosts : List (RadixHost T)) : Prop :=
  ∀ hostname, (engine.initializeHosts hosts).1.matchHost toLowercase hostname =
    match (engine.initializeHosts hosts).2 with
    | .ok () => (RadixHostMatchEngine.new.initializeHosts hosts).1.matchHost toLowercase hostname
    | .error _ => engine.matchHost toLowercase hostname

/-- **Stray hosts come behind those of an engine**: wherever one answers under a number of the
engine's tree, a host of the engine answers under a longer key, or under the same. -/
def Behind {T : Type u} (base : RadixHostMatchEngine T) (stray : ℕ → Option T) (request : String) :
    Prop :=
  ∀ values, base.tree.matchAllPrefixes (reverseHostname (toLowercase request)) = some values →
    Common.Shadowed (base.tryValue toLowercase request) stray values.reverse

/-- **Hosts of the other list do not come first.** On success the new list's tree is searched, and
the hosts held before are filed under its numbers as well; on failure the old tree is searched, and
so are the hosts added before it failed, where none of the old answers under the number. -/
def KeptApart {T : Type u} (engine : RadixHostMatchEngine T) (hosts : List (RadixHost T)) : Prop :=
  ∀ request,
    match RadixHostMatchEngine.new.initializeHosts hosts with
    | (fresh, .ok ()) => Behind toLowercase fresh (engine.tryValue toLowercase request) request
    | (fresh, .error _) => Behind toLowercase engine (fun v =>
        if (engine.tryValue toLowercase request v).isSome then none
        else fresh.tryValue toLowercase request v) request

section Again

variable {T : Type u} {engine : RadixHostMatchEngine T} {hosts : List (RadixHost T)}

/-- The indices under every number are those of hosts. -/
def InitializeState.Bounded (s : InitializeState T) : Prop :=
  ∀ w, ∀ i ∈ (s.table.treeValueToIdx w).getD [], i < s.hosts.length

/-- **One run on top of another**: the same keys with the same numbers, the hosts behind those that
were there, and their indices behind the others. -/
structure InitializeState.OnTop (engine : RadixHostMatchEngine T) (s t : InitializeState T) :
    Prop where
  table : s.table = { t.table with treeValueToIdx := s.table.treeValueToIdx }
  hosts : s.hosts = engine.hosts ++ t.hosts
  idx : ∀ w, (s.table.treeValueToIdx w).getD [] = (engine.treeValueToHostIdx w).getD [] ++
    ((t.table.treeValueToIdx w).getD []).map (engine.hosts.length + ·)

/-- The number of a key does not depend on the hosts filed under it. -/
theorem treeValue_with (table : KeyTable) (idx : ℕ → Option (List ℕ)) (key : String) :
    ({ table with treeValueToIdx := idx } : KeyTable).treeValue key =
      (table.treeValue key).map fun r => ({ r.1 with treeValueToIdx := idx }, r.2) := by
  unfold KeyTable.treeValue
  dsimp only
  split
  · rfl
  · split <;> rfl

/-- Giving a key its number files no host. -/
theorem treeValueToIdx_treeValue {table table' : KeyTable} {key : String} {v : ℕ}
    (h : table.treeValue key = .ok (table', v)) : table'.treeValueToIdx = table.treeValueToIdx := by
  have hself := treeValue_with table table.treeValueToIdx key
  rw [h] at hself
  exact congrArg (fun r => r.1.treeValueToIdx) (Except.ok.inj hself)

namespace InitializeState

theorem Bounded.run {s : InitializeState T} (h : s.Bounded) (hosts : List (RadixHost T)) :
    (s.run hosts).1.Bounded := by
  induction hosts generalizing s with
  | nil => exact h
  | cons host hosts ih =>
    rw [InitializeState.run]
    cases hval : s.table.treeValue host.radixKey with
    | error e => simpa only [add, hval] using h
    | ok r =>
      simp only [add, hval]
      refine ih fun w i hi => ?_
      rw [length_append, length_singleton]
      simp only [push, treeValueToIdx_treeValue hval, Function.update_apply] at hi
      split_ifs at hi
      · rcases mem_append.1 hi with hi | hi
        · exact Nat.lt_succ_of_lt (h _ i hi)
        · rw [mem_singleton.1 hi]
          exact Nat.lt_succ_self _
      · exact Nat.lt_succ_of_lt (h w i hi)

/-- Two runs over one list stay one on top of the other, and end alike. -/
theorem OnTop.run {s t : InitializeState T} (h : OnTop engine s t) (hosts : List (RadixHost T)) :
    OnTop engine (s.run hosts).1 (t.run hosts).1 ∧ (s.run hosts).2 = (t.run hosts).2 := by
  induction hosts generalizing s t with
  | nil => exact ⟨h, rfl⟩
  | cons host hosts ih =>
    have hsame := treeValue_with t.table s.table.treeValueToIdx host.radixKey
    rw [← h.table] at hsame
    rw [InitializeState.run, InitializeState.run]
    cases hval : t.table.treeValue host.radixKey with
    | error e =>
      rw [hval] at hsame
      simp only [add, hval, hsame, Except.map]
      exact ⟨h, trivial⟩
    | ok r =>
      rw [hval] at hsame
      simp only [add, hval, hsame, Except.map]
      refine ih ⟨rfl, by rw [h.hosts, append_assoc], fun w => ?_⟩
      simp only [push, treeValueToIdx_treeValue hval, Function.update_apply, h.hosts, length_append]
      split_ifs with hw
      · subst hw
        simp [h.idx]
      · exact h.idx w

/-- Only hosts of the list are added. -/
theorem hosts_run (s : InitializeState T) (hosts : List (RadixHost T)) :
    (s.run hosts).1.hosts <+: s.hosts ++ hosts := by
  induction hosts generalizing s with
  | nil => exact prefix_append ..
  | cons host hosts ih =>
    rw [InitializeState.run]
    split
    · exact prefix_append ..
    · simpa using ih ⟨_, s.hosts ++ [host]⟩

end InitializeState

theorem initializeHosts_fields (engine : RadixHostMatchEngine T) (hosts : List (RadixHost T)) :
    let run := InitializeState.run ⟨init engine.treeValueToHostIdx, engine.hosts⟩ hosts
    (engine.initializeHosts hosts).1.hosts = run.1.hosts ∧
      (engine.initializeHosts hosts).1.treeValueToHostIdx = run.1.table.treeValueToIdx := by
  unfold RadixHostMatchEngine.initializeHosts
  split
  · next hrun => simp [hrun]
  · next hrun =>
    rw [hrun]
    split <;> exact ⟨rfl, rfl⟩

/-- In every state an engine reaches, the numbers filed are those of its hosts. -/
theorem Reached.bounded (h : Reached engine) :
    ∀ w, ∀ i ∈ (engine.treeValueToHostIdx w).getD [], i < engine.hosts.length := by
  induction h with
  | new => exact fun w i hi => absurd hi not_mem_nil
  | @again engine hosts _ ih =>
    obtain ⟨hhosts, hidx⟩ := initializeHosts_fields engine hosts
    rw [hhosts, hidx]
    exact InitializeState.Bounded.run (s := ⟨init engine.treeValueToHostIdx, engine.hosts⟩) ih hosts

/-- **A second list on top of what an engine holds**: it is refused where a fresh engine refuses it,
and everything of the fresh engine comes behind what was there; the tree is replaced on success. -/
theorem initializeHosts_onTop (engine : RadixHostMatchEngine T) (hosts : List (RadixHost T)) :
    let fresh := RadixHostMatchEngine.new.initializeHosts hosts
    let again := engine.initializeHosts hosts
    again.2 = fresh.2 ∧ again.1.hosts = engine.hosts ++ fresh.1.hosts ∧
      (∀ w, (again.1.treeValueToHostIdx w).getD [] = (engine.treeValueToHostIdx w).getD [] ++
        ((fresh.1.treeValueToHostIdx w).getD []).map (engine.hosts.length + ·)) ∧
      again.1.tree = match fresh.2 with
        | .ok () => fresh.1.tree
        | .error _ => engine.tree := by
  have hstart : InitializeState.OnTop engine ⟨init engine.treeValueToHostIdx, engine.hosts⟩
      ⟨init (RadixHostMatchEngine.new (T := T)).treeValueToHostIdx, RadixHostMatchEngine.new.hosts⟩ :=
    ⟨rfl, by simp [RadixHostMatchEngine.new], fun w => by simp [init, RadixHostMatchEngine.new]⟩
  obtain ⟨hontop, hres⟩ := hstart.run hosts
  have hbuilder := congrArg KeyTable.builder hontop.table
  have hagain := initializeHosts_fields engine hosts
  have hfresh := initializeHosts_fields (RadixHostMatchEngine.new (T := T)) hosts
  dsimp only at hagain hfresh ⊢
  rw [hagain.1, hagain.2, hfresh.1, hfresh.2]
  refine ⟨?_, hontop.hosts, hontop.idx, ?_⟩ <;>
    unfold RadixHostMatchEngine.initializeHosts <;>
    generalize InitializeState.run ⟨init engine.treeValueToHostIdx, engine.hosts⟩ hosts = again at * <;>
    generalize InitializeState.run ⟨init RadixHostMatchEngine.new.treeValueToHostIdx,
      RadixHostMatchEngine.new.hosts⟩ hosts = fresh at * <;>
    obtain ⟨s, result⟩ := again <;> obtain ⟨t, result'⟩ := fresh <;> obtain rfl := hres <;>
    cases result with
    | error e => rfl
    | ok =>
      dsimp only at hbuilder ⊢
      rw [hbuilder]
      cases t.table.builder.freeze <;> rfl

/-- After a second list, a number stands for the old hosts first and the new ones behind them. -/
theorem tryValue_initializeHosts (hosts : List (RadixHost T)) (h : Reached engine) (request : String)
    (v : ℕ) :
    (engine.initializeHosts hosts).1.tryValue toLowercase request v =
      (engine.tryValue toLowercase request v).or
        ((RadixHostMatchEngine.new.initializeHosts hosts).1.tryValue toLowercase request v) := by
  obtain ⟨-, hhosts, hidx, -⟩ := initializeHosts_onTop engine hosts
  unfold RadixHostMatchEngine.tryValue
  rw [hidx, hhosts, findSome?_append, findSome?_map]
  congr 1
  · rw [← head?_filterMap, ← head?_filterMap]
    refine congrArg _ (filterMap_congr fun i hi => ?_)
    rw [getElem?_append_left (h.bounded v i hi)]
  · refine congrArg (findSome? · _) (funext fun i => ?_)
    rw [Function.comp_apply, getElem?_append_right (Nat.le_add_right ..), Nat.add_sub_cancel_left]

/-- What a number gives is the value of a host that matches the request. -/
theorem exists_of_tryValue {request : String} {v : ℕ} {x : T}
    (h : engine.tryValue toLowercase request v = some x) :
    ∃ host ∈ engine.hosts, host.matchesHost toLowercase request ∧ host.runtime = x := by
  obtain ⟨i, -, hi⟩ := exists_of_findSome?_eq_some h
  obtain ⟨host, hhost, hx⟩ := Option.bind_eq_some_iff.1 hi
  obtain ⟨hmatch, heq⟩ := ite_none_right_eq_some.1 hx
  exact ⟨host, mem_of_getElem? hhost, hmatch, some.inj heq⟩

/-- The search of an engine, with the values its tree gives. -/
theorem matchHost_eq (request : String) {values : List ℕ}
    (hvalues : engine.tree.matchAllPrefixes (reverseHostname (toLowercase request)) = some values) :
    engine.matchHost toLowercase request =
      some (values.reverse.findSome? (engine.tryValue toLowercase request)) := by
  rw [RadixHostMatchEngine.matchHost, hvalues, map_some]
  split
  · next hnil => rw [hnil]; rfl
  · rfl

/-- **Stray hosts change no answer where they come behind**; where they share no value with the
engine, only there. -/
theorem matchHost_eq_of_behind {again : RadixHostMatchEngine T} {stray : ℕ → Option T}
    {request : String} (htree : again.tree = engine.tree) (htry : ∀ v,
      again.tryValue toLowercase request v = (stray v).or (engine.tryValue toLowercase request v)) :
    (Behind toLowercase engine stray request →
        again.matchHost toLowercase request = engine.matchHost toLowercase request) ∧
      ((∀ v w x, stray v = some x → engine.tryValue toLowercase request w ≠ some x) →
        again.matchHost toLowercase request = engine.matchHost toLowercase request →
        Behind toLowercase engine stray request) := by
  constructor
  · intro hbehind
    cases hvalues : engine.tree.matchAllPrefixes (reverseHostname (toLowercase request)) with
    | none => simp only [RadixHostMatchEngine.matchHost, htree, hvalues, map_none]
    | some values =>
      rw [matchHost_eq toLowercase request hvalues, matchHost_eq toLowercase request (htree ▸ hvalues),
        ← Common.findSome?_or_of_shadowed (hbehind values hvalues), funext htry]
  · intro hne heq values hvalues
    rw [matchHost_eq toLowercase request hvalues, matchHost_eq toLowercase request (htree ▸ hvalues),
      funext htry] at heq
    exact Common.shadowed_of_findSome?_or hne (some.inj heq)

/-- **A second list is not mixed with the first where their hosts are kept apart**, for every state
of an engine and every list. Where no value is in both, only there. -/
theorem isolated_iff_keptApart (h : Reached engine) :
    (KeptApart toLowercase engine hosts → Isolated toLowercase engine hosts) ∧
      ((∀ old ∈ engine.hosts, ∀ host ∈ hosts, old.runtime ≠ host.runtime) →
        Isolated toLowercase engine hosts → KeptApart toLowercase engine hosts) := by
  obtain ⟨hresult, -, -, htree⟩ := initializeHosts_onTop engine hosts
  have htry := tryValue_initializeHosts toLowercase hosts h
  have hsub : ∀ host ∈ (RadixHostMatchEngine.new.initializeHosts hosts).1.hosts, host ∈ hosts := by
    rw [(initializeHosts_fields _ _).1]
    exact fun host hhost => (InitializeState.hosts_run _ hosts).subset hhost
  unfold KeptApart Isolated
  rw [hresult]
  generalize RadixHostMatchEngine.new.initializeHosts hosts = fresh at *
  obtain ⟨fresh, result⟩ := fresh
  cases result with
  | ok =>
    have hshadow (request : String) := matchHost_eq_of_behind toLowercase htree (htry request)
    refine ⟨fun hapart request => (hshadow request).1 (hapart request),
      fun hne hisolated request => (hshadow request).2 (fun v w x hstray hown => ?_) (hisolated request)⟩
    obtain ⟨old, hold, -, rfl⟩ := exists_of_tryValue toLowercase hstray
    obtain ⟨host, hhost, -, heq⟩ := exists_of_tryValue toLowercase hown
    exact hne old hold host (hsub host hhost) heq.symm
  | error e =>
    -- the engine's own hosts come first under a number, so a stray one answers where none of them does
    have hfirst (request : String) (v : ℕ) :
        (engine.initializeHosts hosts).1.tryValue toLowercase request v =
          (if (engine.tryValue toLowercase request v).isSome then none
            else fresh.tryValue toLowercase request v).or (engine.tryValue toLowercase request v) := by
      rw [htry]
      cases engine.tryValue toLowercase request v <;> simp
    have hshadow (request : String) := matchHost_eq_of_behind toLowercase htree (hfirst request)
    refine ⟨fun hapart request => (hshadow request).1 (hapart request),
      fun hne hisolated request => (hshadow request).2 (fun v w x hstray hown => ?_) (hisolated request)⟩
    obtain ⟨host, hhost, -, rfl⟩ := exists_of_tryValue toLowercase (ite_none_left_eq_some.1 hstray).2
    obtain ⟨old, hold, -, heq⟩ := exists_of_tryValue toLowercase hown
    exact hne old hold host (hsub host hhost) heq

/-- **Lists whose names do not meet are kept apart**: no request that a host held before matches
falls under a key of the new list. -/
theorem keptApart_of_disjoint (hlit : ∀ host ∈ hosts, Literal (asBytes host.radixKey))
    (hok : (RadixHostMatchEngine.new.initializeHosts hosts).2 = .ok ())
    (hdisj : ∀ old ∈ engine.hosts, ∀ request, old.matchesHost toLowercase request →
      ∀ host ∈ hosts, ¬ asBytes host.radixKey <+: asBytes (reverseHostname (toLowercase request))) :
    KeptApart toLowercase engine hosts := by
  obtain ⟨fresh, hinit⟩ : ∃ fresh, RadixHostMatchEngine.new.initializeHosts hosts = (fresh, .ok ()) :=
    ⟨_, Prod.ext rfl hok⟩
  intro request
  rw [hinit]
  intro values hvalues longer v shorter hsplit hstray
  obtain ⟨x, hx⟩ := Option.isSome_iff_exists.1 hstray
  obtain ⟨old, hold, hmatch, -⟩ := exists_of_tryValue toLowercase hx
  obtain ⟨table, tree, routes, hb, hfreeze, rfl⟩ := initializeHosts_eq_ok hinit
  have hkey : ∀ route ∈ routes, ∃ host ∈ hosts, host.radixKey = route.1 := fun route hroute =>
    mem_map.1 ((hb.mem_iff route.1).2 ⟨route.2, hroute⟩)
  obtain ⟨hits, hprefixes, hhits, -⟩ := matchAllPrefixes_hits
    (fun route hroute => by obtain ⟨host, hhost, heq⟩ := hkey route hroute; exact heq ▸ hlit host hhost)
    hb.inserted hb.nodup hb.value_le hfreeze (reverseHostname (toLowercase request))
  obtain rfl := some.inj (hvalues.symm.trans hprefixes)
  have hmem : v ∈ hits.map Prod.snd := mem_reverse.1 (hsplit ▸ by simp)
  obtain ⟨route, hroute, -⟩ := mem_map.1 hmem
  obtain ⟨hin, hpre⟩ := (hhits route).1 hroute
  obtain ⟨host, hhost, heq⟩ := hkey route hin
  exact absurd (heq ▸ hpre) (hdisj old hold request hmatch host hhost)

end Again

/-- `to_lowercase` on ASCII text. -/
def asciiLowercase (s : String) : String := String.ofList (s.toList.map Char.toLower)

/-- A wildcard, one below it, and a name below both. -/
def threeHosts : List (String × ℕ) :=
  [("*.example.com", 1), ("*.api.example.com", 2), ("v1.api.example.com", 3)]

theorem matchHost_most_specific_threeHosts : ∃ engine, RadixHostMatchEngine.new.initializeHosts
        (threeHosts.map fun host => new asciiLowercase host.1 host.2) =
      (engine, .ok ()) ∧
      ∃ answer, engine.matchHost asciiLowercase "V1.api.example.com" = some answer ∧
        (answer.isSome = true ↔ ∃ host ∈ threeHosts,
          HostMatches (asciiLowercase host.1) (asciiLowercase "V1.api.example.com")) ∧
        ∀ v, answer = some v → ∃ host ∈ threeHosts, host.2 = v ∧
          HostMatches (asciiLowercase host.1) (asciiLowercase "V1.api.example.com") ∧
          ∀ other ∈ threeHosts,
            HostMatches (asciiLowercase other.1) (asciiLowercase "V1.api.example.com") →
            len (fixedPart (asciiLowercase other.1)) ≤ len (fixedPart (asciiLowercase host.1)) ∧
            (startsWith (asciiLowercase other.1) "*" = false →
              asciiLowercase host.1 = asciiLowercase "V1.api.example.com") := by
  have hok : (RadixHostMatchEngine.new.initializeHosts
      (threeHosts.map fun host => new asciiLowercase host.1 host.2)).2 = .ok () := by
    decide +kernel
  obtain ⟨engine, hinit⟩ := exists_eq_of_snd hok
  have hlit : ∀ host ∈ threeHosts,
    Literal (asBytes (reverseHostname (fixedPart (asciiLowercase host.1)))) := by decide +kernel
  exact ⟨engine, hinit, matchHost_most_specific asciiLowercase hlit hinit _⟩

/-- A key with `/:` is read as a pattern with a parameter, which the walk by prefix passes over. -/
example : (RadixHostMatchEngine.new.initializeHosts
    [new asciiLowercase "a/:b" 1]).1.matchHost asciiLowercase "a/:b" = some none := by
  decide +kernel

/-- An engine with one host. -/
def oneHost (host : String) (v : ℕ) : RadixHostMatchEngine ℕ :=
  (RadixHostMatchEngine.new.initializeHosts [new asciiLowercase host v]).1

/-- After `a.com` an engine takes `b.com` in its place. -/
theorem isolated_iff_keptApart_oneHost :
    Isolated asciiLowercase (oneHost "a.com" 1) [new asciiLowercase "b.com" 2] := by
  have hold : (oneHost "a.com" 1).hosts = [new asciiLowercase "a.com" 1] := by
    rw [oneHost, (initializeHosts_fields _ _).1]
    rfl
  refine (isolated_iff_keptApart asciiLowercase (.again _ .new)).1 (keptApart_of_disjoint _ ?_ ?_ ?_)
  · simp only [mem_singleton, forall_eq]
    decide +kernel
  · decide +kernel
  · intro old hmem request hmatch host hhost
    rw [← oneHost, hold] at hmem
    obtain rfl := mem_singleton.1 hmem
    obtain rfl := mem_singleton.1 hhost
    have hreq : reverseHostname (asciiLowercase request) = "com.a" := by
      have hkey : (new asciiLowercase "a.com" 1).radixKey = "com.a" := by decide +kernel
      rw [← hkey]
      exact eq_of_beq hmatch
    rw [hreq]
    decide +kernel

/-- **A second list is mixed with the first**: it succeeds, and the old value is found for a host
that has a new one; it fails, and hosts of the refused list are found. -/
theorem initialize_mixes_lists :
    ((oneHost "a.com" 1).initializeHosts [new asciiLowercase "a.com" 2]).2 = .ok () ∧
      ((oneHost "a.com" 1).initializeHosts
          [new asciiLowercase "a.com" 2]).1.matchHost asciiLowercase "a.com" =
        some (some 1) ∧
      (oneHost "a.com" 2).matchHost asciiLowercase "a.com" = some (some 2) ∧
      ((oneHost "*.a.com" 1).initializeHosts [new asciiLowercase "a.com" 2,
        new asciiLowercase "*" 3]).2 = .error (.insert "" "*" .emptyPath) ∧
      ((oneHost "*.a.com" 1).initializeHosts [new asciiLowercase "a.com" 2,
          new asciiLowercase "*" 3]).1.matchHost asciiLowercase "a.com" =
        some (some 2) ∧
      (oneHost "*.a.com" 1).matchHost asciiLowercase "a.com" = some none := by
  decide +kernel

/-- **Two leading labels `*` ask for two labels in front.** The engine answers a request that
neither is the host nor has it as `*.` and an end. -/
theorem matchHost_two_stars : ∃ engine : RadixHostMatchEngine ℕ,
    RadixHostMatchEngine.new.initializeHosts
        [new asciiLowercase "*.*.example.com" 1] = (engine, .ok ()) ∧
      engine.matchHost asciiLowercase "a.b.example.com" = some (some 1) ∧
      asciiLowercase "a.b.example.com" ≠ asciiLowercase "*.*.example.com" ∧
      ∀ front d : String, asciiLowercase "*.*.example.com" = "*." ++ d →
        asciiLowercase "a.b.example.com" ≠ front ++ "." ++ d := by
  have hok : (RadixHostMatchEngine.new.initializeHosts
      [new asciiLowercase "*.*.example.com" 1]).2 = .ok () := by
    decide +kernel
  have hanswer : (RadixHostMatchEngine.new.initializeHosts
      [new asciiLowercase "*.*.example.com" 1]).1.matchHost asciiLowercase
        "a.b.example.com" = some (some 1) := by
    decide +kernel
  obtain ⟨engine, hinit⟩ := exists_eq_of_snd hok
  rw [hinit] at hanswer
  refine ⟨engine, hinit, hanswer, by decide +kernel, ?_⟩
  intro front d hd hreq
  have hstar : '*' ∈ d.toList := by
    have := congrArg (fun s => s.toList.drop 2) hd
    have hdrop : (asciiLowercase "*.*.example.com").toList.drop 2 = d.toList := by
      simpa using this
    rw [← hdrop]
    decide
  have hmem : '*' ∈ (asciiLowercase "a.b.example.com").toList := by
    rw [hreq]
    simp [hstar]
  revert hmem
  decide

end Edgion.HostMatch
