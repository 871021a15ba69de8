import Edgion.Common.Percent
import Edgion.RadixTree.Builder
import Edgion.Runtime.RouteMatching

/-!
# HTTP routes — match units

A rule of an HTTPRoute is matched by any of its match items. `HttpRouteRuleUnit` is one rule with
one of them; `deep_match` checks everything of an item but the path, and the listener the request
came in by. The `regex` crate is a parameter, with what it documents of sets of patterns.
-/

namespace Edgion.Http

open Hostname Edgion.Runtime

universe u

/-! ## The `regex` crate -/

/-- **The `regex` crate**, by what is documented of it: a compiled pattern keeps its text, and a set
of patterns reports, in order, those that match on their own. -/
structure RegexLib where
  Regex : Type
  new : String → Except String Regex
  asStr : Regex → String
  isMatch : Regex → String → Bool
  RegexSet : Type
  newSet : List String → Except String RegexSet
  setMatches : RegexSet → String → List ℕ
  asStr_of_new : ∀ pattern regex, new pattern = .ok regex → asStr regex = pattern
  setMatches_of_newSet : ∀ (regexes : List Regex) set, newSet (regexes.map asStr) = .ok set →
    ∀ text, setMatches set text =
      (List.range regexes.length).filter fun i => (regexes[i]?).any fun regex => isMatch regex text

/-! ## The resources -/

structure HTTPPathMatch where
  matchType : Option String
  value : Option String
  deriving DecidableEq

structure HTTPHeaderMatch where
  matchType : Option String
  name : String
  value : String
  deriving DecidableEq

structure HTTPQueryParamMatch where
  matchType : Option String
  name : String
  value : String
  deriving DecidableEq

structure HTTPRouteMatch where
  path : Option HTTPPathMatch
  headers : Option (List HTTPHeaderMatch)
  queryParams : Option (List HTTPQueryParamMatch)
  method : Option String
  deriving DecidableEq

/-- `HTTPRouteRule`: its match items, and what a request that matched is handled with. -/
structure HTTPRouteRule (Actions : Type u) where
  matchItems : Option (List HTTPRouteMatch)
  actions : Actions
  deriving DecidableEq

structure MatchInfo where
  rns : String
  rn : String
  ruleId : ℕ
  matchId : ℕ
  sv : ℕ
  m : HTTPRouteMatch
  deriving DecidableEq

structure HttpRouteRuleUnit (R : RegexLib) (Actions : Type u) where
  matchedInfo : MatchInfo
  rule : HTTPRouteRule Actions
  pathRegex : Option R.Regex
  parentRefs : Option (List ParentReference)
  compiledHeaderRegexes : List (Option R.Regex)
  compiledQueryRegexes : List (Option R.Regex)

/-- The errors of `EdError` that matching and building end in. Those of building carry their cause,
which the source formats into a message. -/
inductive EdError where
  | routeNotFound
  | routeMatchError (message : String)
  | insertError (treeKey : String) (e : RadixTree.RouterError)
  | freezeError (e : RadixTree.RouterError)
  deriving DecidableEq

/-! ## Requests -/

/-- A request's header: a header may be there with a value that is no text. -/
structure RequestHeader where
  method : String
  path : String
  query : Option String
  headers : String → Option (Option String)

/-- What `deep_match` is given, with the configuration the listeners are looked up in. -/
structure Request where
  reqHeader : RequestHeader
  hostname : String
  gatewayInfos : List GatewayInfo
  store : GatewayConfigStore

/-! ## Query strings -/

/-- `char::to_digit(16)`. -/
def toDigit16 (c : Char) : Option ℕ :=
  if '0' ≤ c ∧ c ≤ '9' then some (c.toNat - '0'.toNat)
  else if 'a' ≤ c ∧ c ≤ 'f' then some (c.toNat - 'a'.toNat + 10)
  else if 'A' ≤ c ∧ c ≤ 'F' then some (c.toNat - 'A'.toNat + 10)
  else none

/-- `u8::from_str_radix` of two characters, the first of which may be a plus sign. -/
def fromStrRadix16 (a b : Char) : Option ℕ :=
  match toDigit16 b with
  | none => none
  | some low => if a = '+' then some low else (toDigit16 a).map fun high => high * 16 + low

/-- `url_decode`. Two digits are two bytes, so that the test of the length goes with them. -/
def urlDecode : List Char → List Char
  | [] => []
  | c :: rest =>
    if c = '%' then
      match rest with
      | a :: b :: rest' =>
        match fromStrRadix16 a b with
        | some byte => Char.ofNat byte :: urlDecode rest'
        | none => '%' :: a :: b :: urlDecode rest'
      | [a] => ['%', a]
      | [] => ['%']
    else if c = '+' then ' ' :: urlDecode rest
    else c :: urlDecode rest

/-- One `&`-separated part of a query: key and value. -/
def parsePair (pair : List Char) : String × String :=
  match pair.dropWhile (· != '=') with
  | [] => (String.ofList (urlDecode pair), "")
  | _ :: value =>
    (String.ofList (urlDecode (pair.takeWhile (· != '='))), String.ofList (urlDecode value))

def parseQueryString (query : String) : String → Option String :=
  ((query.toList.splitOn '&').filter (· ≠ [])).foldl
    (fun params pair => Function.update params (parsePair pair).1 (some (parsePair pair).2))
    fun _ => none

/-! ## Matching -/

section Matching

variable (R : RegexLib)

/-- What `match_header` and `match_query_param` do with the value they look up. -/
def matchValue (found : Option String) (matchType : Option String) (expected : String)
    (compiledRegex : Option R.Regex) : Except EdError Bool :=
  match found with
  | none => .ok false
  | some actual =>
    if matchType.getD "Exact" = "RegularExpression" then
      match compiledRegex with
      | some re => .ok (R.isMatch re actual)
      | none =>
        match R.new expected with
        | .error e => .error (.routeMatchError ("Invalid regex: " ++ e))
        | .ok re => .ok (R.isMatch re actual)
    else .ok (actual == expected)

def matchHeader (reqHeader : RequestHeader) (headerMatch : HTTPHeaderMatch)
    (compiledRegex : Option R.Regex) : Except EdError Bool :=
  matchValue R ((reqHeader.headers headerMatch.name).map fun value => value.getD "")
    headerMatch.matchType headerMatch.value compiledRegex

def matchQueryParam (queryParams : String → Option String)
    (queryParamMatch : HTTPQueryParamMatch) (compiledRegex : Option R.Regex) :
    Except EdError Bool :=
  matchValue R (queryParams queryParamMatch.name) queryParamMatch.matchType queryParamMatch.value
    compiledRegex

/-- The two loops of `deep_match_common`, from an index on. -/
def allMatch {M : Type} (matchOne : M → Option R.Regex → Except EdError Bool)
    (compiled : List (Option R.Regex)) : ℕ → List M → Except EdError Bool
  | _, [] => .ok true
  | idx, m :: ms =>
    match matchOne m (compiled[idx]?).join with
    | .error e => .error e
    | .ok false => .ok false
    | .ok true => allMatch matchOne compiled (idx + 1) ms

def deepMatchCommon (matchedInfo : MatchInfo) (request : Request)
    (parentRefs : Option (List ParentReference))
    (compiledHeaderRegexes compiledQueryRegexes : List (Option R.Regex)) :
    Except EdError (Option GatewayInfo) :=
  match parentRefs with
  | none => .ok none
  | some parentRefs =>
    match checkGatewayListenerMatch request.store parentRefs request.gatewayInfos
      ⟨request.hostname, matchedInfo.rns, "HTTPRoute"⟩ with
    | none => .ok none
    | some matchedGi =>
      if matchedInfo.m.method.any (· ≠ request.reqHeader.method) then .ok none
      else
        match allMatch R (matchHeader R request.reqHeader) compiledHeaderRegexes 0
          (matchedInfo.m.headers.getD []) with
        | .error e => .error e
        | .ok false => .ok none
        | .ok true =>
          match allMatch R (matchQueryParam R ((request.reqHeader.query.map parseQueryString).getD
                fun _ => none))
              compiledQueryRegexes 0 (matchedInfo.m.queryParams.getD []) with
          | .error e => .error e
          | .ok false => .ok none
          | .ok true => .ok (some matchedGi)

end Matching

namespace HttpRouteRuleUnit

variable {R : RegexLib} {Actions : Type u} (unit : HttpRouteRuleUnit R Actions)

def isRegexRoute : Bool := unit.pathRegex.isSome

def matchesPath (path : String) : Bool :=
  unit.pathRegex.any fun regex => R.isMatch regex path

def deepMatch (request : Request) : Except EdError (Option GatewayInfo) :=
  deepMatchCommon R unit.matchedInfo request unit.parentRefs unit.compiledHeaderRegexes
    unit.compiledQueryRegexes

def headerMatcherCount : ℕ :=
  (unit.matchedInfo.m.headers.map List.length).getD 0

/-- `extract_paths`: the path of the item, if it has one, and whether it is a prefix. -/
def extractPaths : List (String × Bool) :=
  match unit.matchedInfo.m.path with
  | none => []
  | some path =>
    match path.value with
    | none => []
    | some value => [(value, path.matchType == some "PathPrefix")]

end HttpRouteRuleUnit

structure RouteMatchResult (R : RegexLib) (Actions : Type u) where
  routeUnit : HttpRouteRuleUnit R Actions
  matchedGateway : GatewayInfo

/-! ## A library and a unit to run -/

/-- A `regex` crate whose patterns are plain texts, looked for anywhere. -/
def plainRegex : RegexLib where
  Regex := String
  new := .ok
  asStr := id
  isMatch pattern text := decide (pattern.toList <:+: text.toList)
  RegexSet := List String
  newSet := .ok
  setMatches set text := (List.range set.length).filter fun i =>
    (set[i]?).any fun pattern => decide (pattern.toList <:+: text.toList)
  asStr_of_new := by
    intro pattern regex h
    exact (Except.ok.inj h).symm
  setMatches_of_newSet := by
    intro regexes set h text
    obtain rfl : regexes = set := by simpa using h
    rfl

/-- The first rule of a route in the namespace `default`, attached to the Gateway `gw`, with one
path. -/
def pathUnit (rn matchType path : String) : HttpRouteRuleUnit plainRegex Unit :=
  let m : HTTPRouteMatch := ⟨some ⟨some matchType, some path⟩, none, none, none⟩
  { matchedInfo := ⟨"default", rn, 0, 0, 0, m⟩
    rule := ⟨some [m], ()⟩
    pathRegex := if matchType = "RegularExpression" then some path else none
    parentRefs := some [⟨none, none, none, "gw", none, none⟩]
    compiledHeaderRegexes := []
    compiledQueryRegexes := [] }

/-- A request that came in by the Gateway `gw`. -/
def getRequest (path : String) : Request where
  reqHeader := ⟨"GET", path, none, fun _ => none⟩
  hostname := "example.com"
  gatewayInfos := [⟨some "default", "gw", none⟩]
  store := GatewayConfigStore.new

/-! ## Decoding query strings

`url_decode` makes a character of each encoded byte. A character of several bytes is taken apart
that way, so that only texts of characters of one byte come back. -/

section Decoding

open List Common

variable {bs : List UInt8} {cs : List Char}

/-- **What is decoded**: each byte as a character. -/
theorem urlDecode_encoded (h : PercentEncodes bs cs) :
    urlDecode cs = bs.map fun b => Char.ofNat b.toNat := by
  have hdigit : ∀ x ∈ hexDigits, toDigit16 x.1 = some x.2 ∧ x.1 ≠ '+' ∧ x.2 < 16 := by decide
  induction h with
  | nil => rfl
  | @plain c bs cs hc h ih =>
    obtain ⟨hle, hpercent, hplus⟩ := hc.bounds
    have hbyte : c.toNat % 256 = c.toNat := Nat.mod_eq_of_lt (by omega)
    rw [urlDecode.eq_def]
    simp [hpercent, hplus, ih, hbyte]
  | @percent hi lo m n bs cs hhi hlo h ih =>
    obtain ⟨hm, hplus, hm16⟩ := hdigit _ hhi
    obtain ⟨hn, -, hn16⟩ := hdigit _ hlo
    have hbyte : (m * 16 + n) % 256 = m * 16 + n := Nat.mod_eq_of_lt (by omega)
    simp [urlDecode, fromStrRadix16, hm, hn, hplus, hbyte, ih]

/-- **An encoded text comes back iff all its characters are of one byte**, whichever bytes are
encoded and in whichever case. -/
theorem urlDecode_eq_iff {s text : String}
    (h : PercentEncodes s.toByteArray.data.toList text.toList) :
    String.ofList (urlDecode text.toList) = s ↔ ∀ c ∈ s.toList, c.toNat ≤ 127 := by
  rw [urlDecode_encoded h, toByteArray_toList, ← String.toList_inj, String.toList_ofList]
  constructor
  · intro heq
    refine le_of_length_flatMap ?_
    simpa using congrArg length heq
  · intro hone
    rw [flatMap_utf8EncodeChar hone, map_map]
    refine (map_congr_left fun c hc => ?_).trans (map_id _)
    have hlt := hone c hc
    have hbyte : c.toNat % 256 = c.toNat := Nat.mod_eq_of_lt (by omega)
    simp [hbyte]

theorem urlDecode_eq_iff_space : PercentEncodes "a b".toByteArray.data.toList "a%20b".toList ∧
    (String.ofList (urlDecode "a%20b".toList) = "a b" ↔ ∀ c ∈ "a b".toList, c.toNat ≤ 127) := by
  have h : PercentEncodes "a b".toByteArray.data.toList "a%20b".toList :=
    .plain (.inl rfl) (.percent (m := 2) (n := 0) (by decide) (by decide) (.plain (.inl rfl) .nil))
  exact ⟨h, urlDecode_eq_iff h⟩

/-- **The two bytes of `é` come back as two characters.** -/
theorem urlDecode_splits : PercentEncodes "é".toByteArray.data.toList "%C3%A9".toList ∧
    String.ofList (urlDecode "%C3%A9".toList) = "Ã©" :=
  ⟨.percent (m := 12) (n := 3) (by decide) (by decide)
    (.percent (m := 10) (n := 9) (by decide) (by decide) .nil), by decide⟩

end Decoding

end Edgion.Http
