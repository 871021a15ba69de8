import Edgion.Http.RadixRoutes

/-!
# HTTP routes — a new prefix for a path

`URLRewrite` and `RequestRedirect` put a replacement in the place of the
prefix that a request's path was matched by. The engine matches a
normalized pattern with parameters. The filters cut the path at the length
of the pattern's text. So what they keep need not be what the engine left:
a parameter's value may be longer than its name, consecutive slashes count
in the text only, and a slash at the end of the pattern or of the
replacement is one too few or one too many.
-/

universe u

namespace Edgion.Http

open Common RadixTree Text List Option

variable {R : RegexLib} {Actions : Type u}

/-! ## The filters -/

inductive HTTPPathModifierType where
  | replaceFullPath
  | replacePrefixMatch
  deriving DecidableEq

structure HTTPPathModifier where
  modifierType : HTTPPathModifierType
  replaceFullPath : Option String
  replacePrefixMatch : Option String

/-- The standard library's `&s[k..]`, as bytes: nothing where it panics, as `k` is no boundary
of a character. -/
def byteSliceFrom (s : String) (k : ℕ) : Option Bytes :=
  if String.Pos.Raw.IsValid s ⟨k⟩ then some ((asBytes s).drop k) else none

/-- `matched_prefix_len`, which `RequestRedirect` calls `matched_path_len`. -/
def matchedPrefixLen (routeUnit : Option (HttpRouteRuleUnit R Actions)) : Option ℕ :=
  match routeUnit with
  | none => none
  | some unit =>
    match unit.matchedInfo.m.path with
    | none => none
    | some pathMatch =>
      if pathMatch.matchType = some "PathPrefix" then pathMatch.value.map len else none

/-- What both filters do with a replacement for the prefix. -/
def replacePrefix (replacement originalPath : String) (matchedLen : Option ℕ) : Option Bytes :=
  match matchedLen with
  | none => some (asBytes replacement)
  | some n =>
    if n ≤ len originalPath then (byteSliceFrom originalPath n).map (asBytes replacement ++ ·)
    else some (asBytes replacement)

structure HTTPURLRewriteFilter where
  path : Option HTTPPathModifier

/-- The `rewritten_path` of `rewrite_path`. -/
def rewrittenPath (pathModifier : HTTPPathModifier)
    (routeUnit : Option (HttpRouteRuleUnit R Actions)) (originalPath : String) : Option Bytes :=
  match pathModifier.modifierType with
  | .replaceFullPath => some (asBytes (pathModifier.replaceFullPath.getD originalPath))
  | .replacePrefixMatch =>
    replacePrefix (pathModifier.replacePrefixMatch.getD originalPath) originalPath
      (matchedPrefixLen routeUnit)

/-- What `rewrite_path` puts behind the path. -/
def querySuffix (query : Option String) : Bytes :=
  match query with
  | some q => if q ≠ "" then asBytes ("?" ++ q) else []
  | none => []

/-- `rewrite_path`: the URI it sets, if it sets one. The outer `none` is a panic. -/
def HTTPURLRewriteFilter.rewritePath (config : HTTPURLRewriteFilter)
    (routeUnit : Option (HttpRouteRuleUnit R Actions)) (originalPath : String)
    (query : Option String) : Option (Option Bytes) :=
  match config.path with
  | none => some none
  | some pathModifier =>
    (rewrittenPath pathModifier routeUnit originalPath).map fun path =>
      some (path ++ querySuffix query)

structure HTTPRequestRedirectFilter where
  scheme : Option String
  hostname : Option String
  path : Option HTTPPathModifier
  port : Option ℤ

def defaultPortForScheme (scheme : String) : ℕ := if scheme = "https" then 443 else 80

variable (config : HTTPRequestRedirectFilter)

/-- The `path` of `build_location`, which does not ask for the type of the modifier. -/
def HTTPRequestRedirectFilter.redirectPath
    (originalPath : String) (matchedPathLen : Option ℕ) : Option Bytes :=
  match config.path with
  | none => some (asBytes originalPath)
  | some pathModifier =>
    match pathModifier.replaceFullPath with
    | some replaceFull => some (asBytes replaceFull)
    | none =>
      match pathModifier.replacePrefixMatch with
      | some replacePrefixMatch => replacePrefix replacePrefixMatch originalPath matchedPathLen
      | none => some (asBytes originalPath)

variable (originalScheme : String) (originalHost : Option String)

/-- What `build_location` puts before the path. -/
def HTTPRequestRedirectFilter.locationBase
    (listenerPort : ℕ) : String :=
  let scheme := config.scheme.getD originalScheme
  let hostname :=
    match config.hostname with
    | some hostname => hostname
    | none =>
      match originalHost with
      | some h => String.ofList (h.toList.takeWhile (· != ':'))
      | none => "localhost"
  let finalPort :=
    match config.port with
    | some p => (p % 65536).toNat
    | none => if config.scheme.isSome then defaultPortForScheme scheme else listenerPort
  let portStr :=
    if finalPort = defaultPortForScheme scheme then "" else ":" ++ toString finalPort
  scheme ++ "://" ++ hostname ++ portStr

/-- `build_location`. Nothing stands for a panic. -/
def HTTPRequestRedirectFilter.buildLocation
    (originalPath : String)
    (matchedPathLen : Option ℕ) (listenerPort : ℕ) : Option Bytes :=
  (config.redirectPath originalPath matchedPathLen).map fun path =>
    asBytes (config.locationBase originalScheme originalHost listenerPort) ++ path

/-! ## Boundaries of characters -/

variable {s : String}

theorem isValid_of_slash {k : ℕ} (h : (asBytes s)[k]? = some slash) :
    String.Pos.Raw.IsValid s ⟨k⟩ := by
  obtain ⟨hlt, hget⟩ := List.getElem?_eq_some_iff.1 h
  rw [length_asBytes] at hlt
  refine String.Pos.Raw.isValid_iff_isUTF8FirstByte.2 (.inr ⟨hlt, ?_⟩)
  have hbyte : s.getUTF8Byte ⟨k⟩ hlt = slash := hget
  rw [hbyte]
  decide

theorem isValid_after_slash {k : ℕ} (h : (asBytes s)[k]? = some slash) :
    String.Pos.Raw.IsValid s ⟨k + 1⟩ := by
  have hpre := String.Pos.Raw.isValid_iff_isValidUTF8_extract_zero.1 (isValid_of_slash h)
  obtain ⟨hlt, -⟩ := List.getElem?_eq_some_iff.1 h
  rw [length_asBytes] at hlt
  refine String.Pos.Raw.isValid_iff_isValidUTF8_extract_zero.2 ⟨hlt, ?_⟩
  have hsplit : s.toByteArray.extract 0 (k + 1) = s.toByteArray.extract 0 k ++ "/".toByteArray := by
    have hslash : asBytes "/" = [slash] := by decide
    have htake : (asBytes s).take (k + 1) = (asBytes s).take k ++ asBytes "/" := by
      rw [take_add_one, h, hslash]
      rfl
    refine ByteArray.ext (Array.toList_inj.1 ?_)
    simpa [asBytes] using htake
  rw [hsplit]
  exact hpre.2.append "/".isValidUTF8

/-- **A path may be cut at its end, and before and after a slash.** -/
theorem isValid_of_cut {front rest : Bytes} (h : asBytes s = front ++ rest)
    (hcut : rest = [] ∨ rest.head? = some slash ∨ front.getLast? = some slash) :
    String.Pos.Raw.IsValid s ⟨front.length⟩ := by
  rcases hcut with rfl | hhead | hlast
  · have hend : front.length = s.utf8ByteSize := by rw [← length_asBytes, h, append_nil]
    exact String.Pos.Raw.isValid_iff_isUTF8FirstByte.2 (.inl (String.Pos.Raw.ext hend))
  · obtain ⟨rest, rfl⟩ := head?_eq_some_iff.1 hhead
    exact isValid_of_slash (by rw [h]; simp)
  · obtain ⟨front, rfl⟩ := getLast?_eq_some_iff.1 hlast
    rw [length_append]
    exact isValid_after_slash (by rw [h]; simp)

/-! ## What the engine consumed -/

theorem length_parts (path : Bytes) : (parts slash path).length = segments path := by
  induction path with
  | nil => simp [segments]
  | cons b path ih =>
    by_cases hb : b = slash
    · subst hb
      rw [parts_sep_cons, ih, segments, segments, segmentsFrom_slash]
    · rw [length_parts_cons hb, ih, segments, segments, segmentsFrom_cons _ hb]
      rcases path with _ | ⟨b', path⟩
      · simp
      · by_cases hb' : b' = slash
        · simp [hb', Nat.add_comm]
        · rw [segmentsFrom_cons _ hb', segmentsFrom_cons _ hb']
          simp [hb']

/-- What was consumed ends with the slash that the pattern ends with. -/
theorem getLast?_of_matchTokens {ts : List Tok} {path after : Bytes}
    (h : matchTokens ts path = some after) (hlast : ts.getLast? = some (.lit slash)) :
    ∃ front, path = front ++ slash :: after := by
  induction ts generalizing path with
  | nil => cases hlast
  | cons t ts ih =>
    have hnext : ∀ path', matchTokens ts path' = some after → ts ≠ [] →
        ∃ front, path' = front ++ slash :: after := by
      intro path' h' hne
      rw [getLast?_cons_of_ne_nil hne] at hlast
      exact ih h' hlast
    cases t with
    | lit b =>
      obtain ⟨path, rfl, hrest⟩ := matchTokens_lit_eq_some h
      by_cases hnil : ts = []
      · subst hnil
        cases hrest
        obtain rfl : b = slash := by simpa using hlast
        exact ⟨[], rfl⟩
      · obtain ⟨front, rfl⟩ := hnext path hrest hnil
        exact ⟨b :: front, rfl⟩
    | any =>
      obtain ⟨run, path, -, -, rfl, hrest⟩ := matchTokens_any_eq_some h
      have hne : ts ≠ [] := by
        rintro rfl
        cases hlast
      obtain ⟨front, rfl⟩ := hnext path hrest hne
      exact ⟨run ++ front, by simp⟩

/-- **The prefix is replaced**: the segments are those of the replacement and those of the path
behind the ones the prefix `P` consumed, of which `after` is left; and there are no empty segments
but those of the replacement and of the path from where `P` ended on. -/
structure ReplacesPrefix (P replacement path : String) (after : Bytes) (out : Bytes) : Prop where
  segments_eq : parts slash out = parts slash (asBytes replacement) ++
    (parts slash (asBytes path)).drop (segments (asBytes (normalizePath P)))
  doubled_le : doubled slash out ≤ doubled slash (asBytes replacement) +
    doubled slash ((matched (asBytes path) after).getLast?.toList ++ after)

/-- The text of the path from the length of `P` on is what should be kept, up to slashes. -/
def CutsAtEnd (P replacement path : String) (after : Bytes) : Prop :=
  CutsRight slash (matched (asBytes path) after) after (asBytes replacement)
    ((asBytes path).drop (len P))

section Accepts

variable {unit : HttpRouteRuleUnit R Actions} {P replacement path : String} {after : Bytes}

/-- What a prefix that accepts a path leaves of it. -/
theorem PathAccepts.split (h : PathAccepts unit true path P after) :
    asBytes path = matched (asBytes path) after ++ after ∧
      (parts slash (asBytes path)).drop (segments (asBytes (normalizePath P))) = parts slash after ∧
      (after = [] ∨ after.head? = some slash ∨
        (matched (asBytes path) after).getLast? = some slash) := by
  obtain ⟨front, hpath, -⟩ := segmentsFrom_of_matchTokens (m := .text) (f := false) trivial h.left
  have hmatched : matched (asBytes path) after = front := by
    rw [hpath]
    simp [matched]
  have hends : after = [] ∨ after.head? = some slash ∨ front.getLast? = some slash := by
    rcases h.ends with hnil | ⟨-, hhead | hlast⟩
    · exact .inl hnil
    · exact .inr (.inl hhead)
    · obtain ⟨front', heq⟩ := getLast?_of_matchTokens h.left hlast
      have hfront : front = front' ++ [slash] :=
        append_cancel_right (hpath.symm.trans (heq.trans (by simp)))
      exact .inr (.inr (by simp [hfront]))
  have hcount : (parts slash front).length = segments (asBytes (normalizePath P)) := by
    rw [length_parts, ← hmatched]
    exact (segments_matched h.left).1
  rw [hmatched]
  refine ⟨hpath, ?_, hends⟩
  have hjoin : front = [] ∨ after = [] ∨ front.getLast? = some slash ∨
      after.head? = some slash := by
    tauto
  rw [hpath, parts_append hjoin, ← hcount, drop_left]

/-- Where the path may be cut, there is a boundary of a character. -/
theorem CutsAtEnd.boundary (h : CutsAtEnd P replacement path after)
    (hpath : asBytes path = matched (asBytes path) after ++ after)
    (hends : after = [] ∨ after.head? = some slash ∨
      (matched (asBytes path) after).getLast? = some slash) :
    (asBytes path).drop (len P) = [] ∨ ((asBytes path).drop (len P)).head? = some slash ∨
      ((asBytes path).take (len P)).getLast? = some slash := by
  rcases h with ⟨cut, hpost, hcut, -, -⟩ | ⟨hrest, -⟩
  · have htake : (asBytes path).take (len P) = matched (asBytes path) after ++ cut := by
      refine (append_left_inj ((asBytes path).drop (len P))).1 ?_
      rw [take_append_drop, append_assoc, ← hpost]
      exact hpath
    by_cases hnil : cut = []
    · subst hnil
      rw [htake, append_nil, ← nil_append ((asBytes path).drop _), ← hpost]
      exact hends
    · rw [htake, getLast?_append_of_ne_nil _ hnil]
      exact .inr (.inr (getLast?_of_all hnil hcut))
  · rw [hrest]
    exact .inr (.inl rfl)

/-- **The replacement of a prefix that accepted the path**, at the length of its text. -/
theorem PathAccepts.replacePrefix_iff (h : PathAccepts unit true path P after) :
    (∃ out, replacePrefix replacement path (some (len P)) = some out ∧
      ReplacesPrefix P replacement path after out) ↔ CutsAtEnd P replacement path after := by
  obtain ⟨hpath, hdrop, hends⟩ := h.split
  set front := matched (asBytes path) after with hfront
  set rest := (asBytes path).drop (len P) with hrest
  have hsuf : rest <:+ front ++ after := hpath ▸ drop_suffix _ _
  -- where it does not panic, the filter joins the replacement and the rest
  have hout : ∀ out, ReplacesPrefix P replacement path after out ∧
      out = asBytes replacement ++ rest ↔
      CutsAtEnd P replacement path after ∧ out = asBytes replacement ++ rest := by
    intro out
    refine and_congr_left fun hout => ?_
    rw [CutsAtEnd, ← replace_iff hsuf, ← hout, ← hdrop]
    exact ⟨fun h => ⟨h.segments_eq, h.doubled_le⟩, fun h => ⟨h.1, h.2⟩⟩
  unfold replacePrefix
  dsimp only
  by_cases hlen : len P ≤ len path
  · rw [if_pos hlen]
    constructor
    · rintro ⟨out, hslice, hreplaces⟩
      obtain ⟨kept, hkept, rfl⟩ := map_eq_some_iff.1 hslice
      obtain rfl : rest = kept := some.inj (ite_none_right_eq_some.1 hkept).2
      exact ((hout _).1 ⟨hreplaces, rfl⟩).1
    · intro hcuts
      have hvalid := isValid_of_cut (take_append_drop (len P) (asBytes path)).symm
        (hcuts.boundary hpath hends)
      rw [length_take, length_asBytes,
        Nat.min_eq_left (show len P ≤ path.utf8ByteSize from hlen)] at hvalid
      exact ⟨_, by rw [byteSliceFrom, if_pos hvalid]; rfl, ((hout _).2 ⟨hcuts, rfl⟩).1⟩
  · rw [if_neg hlen]
    have hnil : rest = [] := by
      rw [hrest]
      exact drop_of_length_le (by rw [length_asBytes]; exact (Nat.le_of_not_le hlen))
    constructor
    · rintro ⟨out, hslice, hreplaces⟩
      exact ((hout out).1 ⟨hreplaces, by rw [hnil, ← some.inj hslice, append_nil]⟩).1
    · intro hcuts
      exact ⟨_, rfl, ((hout _).2 ⟨hcuts, by rw [hnil, append_nil]⟩).1⟩

open HTTPRequestRedirectFilter

/-- **Both filters replace a prefix that accepted the path right if and only if the text of the
path from the length of the prefix on is what should be kept, up to slashes.** -/
theorem replacesPrefix_iff (h : PathAccepts unit true path P after) (full query : Option String)
    (redirect : HTTPRequestRedirectFilter) (originalScheme : String) (originalHost : Option String)
    (listenerPort : ℕ) :
    ((∃ out, HTTPURLRewriteFilter.rewritePath ⟨some ⟨.replacePrefixMatch, full, some replacement⟩⟩
      (some unit) path query = some (some (out ++ querySuffix query)) ∧
      ReplacesPrefix P replacement path after out) ↔ CutsAtEnd P replacement path after) ∧
    ((∃ out, buildLocation
      { redirect with path := some ⟨.replacePrefixMatch, none, some replacement⟩ }
      originalScheme originalHost path (matchedPrefixLen (some unit)) listenerPort =
        some (asBytes (redirect.locationBase originalScheme originalHost listenerPort) ++ out) ∧
      ReplacesPrefix P replacement path after out) ↔ CutsAtEnd P replacement path after) := by
  have hlen : matchedPrefixLen (some unit) = some (len P) := by
    have hmem := h.mem
    unfold HttpRouteRuleUnit.extractPaths at hmem
    unfold matchedPrefixLen
    dsimp only
    split at hmem
    · cases hmem
    · next pathMatch heq =>
      split at hmem
      · cases hmem
      · next value hvalue =>
        obtain ⟨rfl, htype⟩ := Prod.mk.inj (mem_singleton.1 hmem)
        have hprefix : pathMatch.matchType = some "PathPrefix" := by simpa using htype.symm
        simp only [*, if_pos, map_some]
  rw [← h.replacePrefix_iff]
  constructor
  · refine exists_congr fun out => and_congr_left fun _ => ?_
    simp [HTTPURLRewriteFilter.rewritePath, rewrittenPath, hlen]
  · refine exists_congr fun out => and_congr_left fun _ => ?_
    have hbase : locationBase
      { redirect with path := some ⟨.replacePrefixMatch, none, some replacement⟩ }
      originalScheme originalHost listenerPort =
        redirect.locationBase originalScheme originalHost listenerPort := rfl
    simp [buildLocation, redirectPath, hlen, hbase]

end Accepts

theorem replacesPrefix_iff_api :
    PathAccepts (pathUnit "r" "PathPrefix" "/api") true "/api/v1" "/api" (asBytes "/v1") ∧
    ∃ out, HTTPURLRewriteFilter.rewritePath ⟨some ⟨.replacePrefixMatch, none, some "/new"⟩⟩
      (some (pathUnit "r" "PathPrefix" "/api")) "/api/v1" none =
        some (some (out ++ querySuffix none)) ∧
      ReplacesPrefix "/api" "/new" "/api/v1" (asBytes "/v1") out := by
  have haccepts :
      PathAccepts (pathUnit "r" "PathPrefix" "/api") true "/api/v1" "/api" (asBytes "/v1") := by
    constructor <;> decide +kernel
  have hcuts : CutsAtEnd "/api" "/new" "/api/v1" (asBytes "/v1") := by
    refine .inl ⟨[], ?_, ?_, ?_, ?_⟩ <;> decide +kernel
  exact ⟨haccepts,
    (replacesPrefix_iff haccepts none none ⟨none, none, none, none⟩ "http" none 80).1.2 hcuts⟩

/-- The prefix `/api/` takes the slash with it, and a segment is merged with the replacement. The
prefix `/api/:v` is shorter than what it consumed, and a segment is cut. -/
theorem not_replacesPrefix_samples :
    (PathAccepts (pathUnit "r" "PathPrefix" "/api/") true "/api/users" "/api/" (asBytes "users") ∧
      HTTPURLRewriteFilter.rewritePath ⟨some ⟨.replacePrefixMatch, none, some "/v2"⟩⟩
        (some (pathUnit "r" "PathPrefix" "/api/")) "/api/users" none =
          some (some (asBytes "/v2users")) ∧
      ¬ ReplacesPrefix "/api/" "/v2" "/api/users" (asBytes "users") (asBytes "/v2users")) ∧
    PathAccepts (pathUnit "r" "PathPrefix" "/api/:v") true "/api/v10/x" "/api/:v" (asBytes "/x") ∧
      HTTPRequestRedirectFilter.buildLocation
        ⟨none, some "h", some ⟨.replacePrefixMatch, none, some "/new"⟩, none⟩ "http" none
        "/api/v10/x" (matchedPrefixLen (some (pathUnit "r" "PathPrefix" "/api/:v"))) 80 =
          some (asBytes "http://h" ++ asBytes "/new0/x") ∧
      ¬ ReplacesPrefix "/api/:v" "/new" "/api/v10/x" (asBytes "/x") (asBytes "/new0/x") := by
  refine ⟨⟨?_, ?_, fun h => ?_⟩, ?_, ?_, fun h => ?_⟩
  · constructor <;> decide +kernel
  · decide +kernel
  · exact absurd h.segments_eq (by decide +kernel)
  · constructor <;> decide +kernel
  · decide +kernel
  · exact absurd h.segments_eq (by decide +kernel)

end Edgion.Http
