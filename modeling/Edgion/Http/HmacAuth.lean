import Edgion.Common.Result
import Edgion.Common.Text
import Mathlib.Data.List.Forall2

/-!
# What an HMAC signature covers

`HmacAuth` reads the list of signed headers from the `Authorization` header and builds the text that
the signature is checked against: a line for each name of the list, joined by newlines. The text
gives everything back that went into it. No line has a newline, a name has no colon, a method no
space and a path no question mark, so `signingString_injective` reads the list, the header values
and the request target off the text.
-/

namespace Edgion.HmacAuth

open Text List Common

/-! ## The request -/

/-- The characters of an HTTP token: of header names and methods. -/
def isTokenChar (c : Char) : Bool := c.isAlphanum || c ∈ "!#$%&'*+-.^_`|~".toList

/-- **What the plugin reads of a request.** The header map holds names in lower case; names and the
method are tokens, and the URI was cut at its first `?`. -/
structure Session where
  method : String
  path : String
  query : Option String
  headers : List (String × HeaderValue)
  method_token : ∀ c ∈ method.toList, isTokenChar c
  path_chars : ∀ c ∈ path.toList, c ≠ '?' ∧ c ≠ '\n'
  query_chars : ∀ q ∈ query, '\n' ∉ q.toList
  name_token : ∀ header ∈ headers, ∀ c ∈ header.1.toList, isTokenChar c

variable (session : Session)

/-- `header_value`: the first value of that name, if it is a text. -/
def Session.headerValue (name : String) : Option String :=
  (session.headers.lookup (toAsciiLowercase name)).bind fun value => value.toStr.map String.ofList

/-! ## Reading the header -/

inductive HmacAlgorithm where
  | hmacSha256
  | hmacSha384
  | hmacSha512
  deriving Repr, DecidableEq

/-- `HmacAlgorithm::parse`, with the error it is given. -/
def HmacAlgorithm.parse (value : String) : Except String HmacAlgorithm :=
  match toAsciiLowercase value with
  | "hmac-sha256" => .ok .hmacSha256
  | "hmac-sha384" => .ok .hmacSha384
  | "hmac-sha512" => .ok .hmacSha512
  | _ => .error "Unsupported algorithm"

structure HmacAuthParams where
  username : String
  algorithm : HmacAlgorithm
  headers : List String
  signature : List UInt8
  deriving Repr, DecidableEq

/-- The loop of `split_auth_params`: a comma outside quotes ends a part. -/
def splitParams (inQuotes escaped : Bool) (part : List Char) : List Char → List (List Char)
  | [] => [trim part]
  | ch :: rest =>
    if escaped then splitParams inQuotes false (part ++ [ch]) rest
    else if inQuotes ∧ ch = '\\' then splitParams inQuotes true (part ++ [ch]) rest
    else if ch = '"' then splitParams (!inQuotes) false (part ++ [ch]) rest
    else if ch = ',' ∧ ¬ inQuotes then trim part :: splitParams inQuotes false [] rest
    else splitParams inQuotes false (part ++ [ch]) rest

def splitAuthParams (input : List Char) : List (List Char) := splitParams false false [] input

/-- The loop of `parse_quoted_value`; `none` where the text ends with an open escape. -/
def unescape (escaped : Bool) (out : List Char) : List Char → Option (List Char)
  | [] => if escaped then none else some out
  | ch :: rest =>
    if escaped then unescape false (out ++ [ch]) rest
    else if ch = '\\' then unescape true out rest
    else unescape false (out ++ [ch]) rest

def parseQuotedValue (raw : List Char) : Except String String :=
  let trimmed := trim raw
  if trimmed.length < 2 ∨ trimmed.head? ≠ some '"' ∨ trimmed.getLast? ≠ some '"' then
    .error "HMAC parameter value must be quoted"
  else
    match unescape false [] trimmed.tail.dropLast with
    | none => .error "Invalid escape in quoted value"
    | some out => .ok (String.ofList out)

/-- The error of everything that is out of form. -/
def badFormat : String := "Invalid HMAC authorization format"

/-- One turn of the loop over the parts. -/
def addParam (params : List (String × String)) (part : List Char) :
    Except String (List (String × String)) :=
  if part = [] then .ok params
  else
    match splitOnce (String.ofList part) '=' with
    | none => .error badFormat
    | some (keyRaw, valueRaw) =>
      let key := toAsciiLowercase (String.ofList (trim keyRaw.toList))
      if key = "" ∨ (params.lookup key).isSome then .error badFormat
      else do
        let value ← parseQuotedValue valueRaw.toList
        return params ++ [(key, value)]

def splitWhitespace (s : String) : List String :=
  ((s.toList.splitOnP isWhitespace).filter (· ≠ [])).map String.ofList

/-- `ok_or` with the error of everything that is out of form. -/
def orBadFormat {α : Type} : Option α → Except String α
  | none => .error badFormat
  | some a => .ok a

/-- What has to hold of the parts, or they are out of form. -/
def ensure (p : Prop) [Decidable p] : Except String Unit := if p then .ok () else .error badFormat

/-- The signed headers: at least one, and none twice. -/
def signedHeaders (headersRaw : String) : Except String (List String) := do
  let headers := (splitWhitespace headersRaw).map toAsciiLowercase
  ensure (headers ≠ [] ∧ headers.Nodup)
  return headers

/-- **`parse_authorization`**, where `decode` is the base64 engine. -/
def parseAuthorization (decode : String → Option (List UInt8)) (authHeader : String) :
    Except String HmacAuthParams := do
  let split ← orBadFormat (splitOnce (String.ofList (trim authHeader.toList)) ' ')
  ensure (eqIgnoreAsciiCase split.1 "hmac")
  let paramsStr := trim split.2.toList
  ensure (paramsStr ≠ [])
  let params ← (splitAuthParams paramsStr).foldlM addParam []
  let username ← orBadFormat ((params.lookup "username").filter fun v => trim v.toList ≠ [])
  let algorithmRaw ← orBadFormat (params.lookup "algorithm")
  let headersRaw ← orBadFormat (params.lookup "headers")
  let signatureRaw ← orBadFormat (params.lookup "signature")
  let algorithm ← HmacAlgorithm.parse algorithmRaw
  let headers ← signedHeaders headersRaw
  let signature ← orBadFormat (decode signatureRaw)
  return { username, algorithm, headers, signature }

/-! ## The signed text -/

/-- The names that stand for the request target. -/
def IsRequestTarget (headerName : String) : Prop :=
  headerName = "@request-target" ∨ headerName = "(request-target)"

instance (headerName : String) : Decidable (IsRequestTarget headerName) :=
  inferInstanceAs (Decidable (_ ∨ _))

/-- The path, and the query where there is one. -/
def Session.target : List Char :=
  match session.query with
  | some query =>
    if query.toList = [] then session.path.toList
    else session.path.toList ++ '?' :: query.toList
  | none => session.path.toList

/-- The line of one name. -/
def signingLine (header : String) : Except String (List Char) :=
  let headerName := toAsciiLowercase header
  if IsRequestTarget headerName then
    .ok (headerName.toList ++ ':' :: ' ' :: ((toAsciiLowercase session.method).toList ++
      ' ' :: session.target))
  else
    match session.headerValue headerName with
    | none => .error "Missing signed header"
    | some value => .ok (headerName.toList ++ ':' :: ' ' :: value.toList)

def buildSigningString (headersList : List String) : Except String String := do
  let lines ← headersList.mapM (signingLine session)
  return String.ofList (['\n'].intercalate lines)

/-! ## Reading the text back -/

variable {session session₁ session₂ : Session} {name : String} {line : List Char}

/-- **The requests agree on a signed name**: on the value of the header, and on the method up to
letter case, the path and the query if it is the request target. -/
structure Session.AgreeOn (session₁ session₂ : Session) (name : String) : Prop where
  value : session₁.headerValue name = session₂.headerValue name
  target : IsRequestTarget name →
    toAsciiLowercase session₁.method = toAsciiLowercase session₂.method ∧
      session₁.path = session₂.path ∧ session₁.query.getD "" = session₂.query.getD ""

variable {c : Char}

/-- Two texts with the same first separator have the same parts before and after it. -/
theorem append_cons_inj {xs xs' ys ys' : List Char} (hxs : c ∉ xs) (hxs' : c ∉ xs')
    (h : xs ++ c :: ys = xs' ++ c :: ys') : xs = xs' ∧ ys = ys' := by
  have hlen := congrArg (idxOf c) h
  rw [idxOf_append_of_notMem hxs, idxOf_append_of_notMem hxs', idxOf_cons_self,
    idxOf_cons_self] at hlen
  obtain ⟨rfl, hrest⟩ := append_inj h hlen
  exact ⟨rfl, (cons.inj hrest).2⟩

theorem not_mem_of_token {cs : List Char} (h : ∀ c ∈ cs, isTokenChar c)
    (hc : isTokenChar c = false) : c ∉ cs := by
  intro hmem
  rw [h c hmem] at hc
  cases hc

/-- Lower case keeps what is no letter out. -/
theorem not_mem_toAsciiLowercase {s : String} (hc : c.toNat < 65) (h : c ∉ s.toList) :
    c ∉ (toAsciiLowercase s).toList := by
  rw [toAsciiLowercase, String.toList_ofList, mem_map]
  rintro ⟨d, hd, heq⟩
  rw [toLower_eq_iff (.inl hc)] at heq
  exact h (heq ▸ hd)

/-- **A header that is there** has a token for a name, and no newline in its value. -/
theorem Session.headerValue_eq_some {value : String} (h : session.headerValue name = some value) :
    (∀ c ∈ (toAsciiLowercase name).toList, isTokenChar c) ∧ '\n' ∉ value.toList := by
  obtain ⟨chars, hget, hstr⟩ := Option.bind_eq_some_iff.1 h
  obtain ⟨l1, l2, heq, -⟩ := lookup_eq_some_iff.1 hget
  refine ⟨session.name_token (toAsciiLowercase name, chars) (by simp [heq]), fun hmem => ?_⟩
  obtain ⟨text, htext, rfl⟩ := Option.map_eq_some_iff.1 hstr
  obtain ⟨hall, hchars⟩ := Option.ite_none_right_eq_some.1 htext
  rw [String.toList_ofList, ← Option.some_inj.1 hchars] at hmem
  have hvis := all_eq_true.1 hall '\n' hmem
  cases hvis

theorem Session.newline_notMem_target (session : Session) : '\n' ∉ session.target := by
  have hpath : '\n' ∉ session.path.toList := fun h => (session.path_chars _ h).2 rfl
  rw [Session.target]
  rcases hquery : session.query with _ | query
  · exact hpath
  · have hq := session.query_chars query hquery
    dsimp only
    split
    · exact hpath
    · simp [hpath, hq]

/-- **The target gives path and query back.** -/
theorem Session.target_injective (h : session₁.target = session₂.target) :
    session₁.path = session₂.path ∧ session₁.query.getD "" = session₂.query.getD "" := by
  -- a target with a query has a question mark, and the first one is where the path ends
  have hcases : ∀ session : Session, session.target = session.path.toList ∧
      session.query.getD "" = "" ∨
      session.target = session.path.toList ++ '?' :: (session.query.getD "").toList := by
    intro session
    rw [Session.target]
    rcases session.query with _ | query
    · exact .inl ⟨rfl, rfl⟩
    · dsimp only
      split
      · rename_i hnil
        exact .inl ⟨rfl, by simpa using hnil⟩
      · exact .inr rfl
  have hmark : ∀ session : Session, '?' ∉ session.path.toList :=
    fun session h => (session.path_chars _ h).1 rfl
  rcases hcases session₁ with ⟨h1, hq1⟩ | h1
  · rcases hcases session₂ with ⟨h2, hq2⟩ | h2
    · rw [h1, h2] at h
      exact ⟨String.toList_injective h, by rw [hq1, hq2]⟩
    · rw [h1, h2] at h
      exact absurd (by simp [h]) (hmark session₁)
  · rcases hcases session₂ with ⟨h2, -⟩ | h2
    · rw [h1, h2] at h
      exact absurd (by simp [← h]) (hmark session₂)
    · rw [h1, h2] at h
      obtain ⟨hpath, hquery⟩ := append_cons_inj (hmark session₁) (hmark session₂) h
      exact ⟨String.toList_injective hpath, String.toList_injective hquery⟩

/-- What a line says after its name. -/
def Session.Says (session : Session) (name : String) (rest : List Char) : Prop :=
  if IsRequestTarget name then
    rest = (toAsciiLowercase session.method).toList ++ ' ' :: session.target ∧
      session.headerValue name = none
  else session.headerValue name = some (String.ofList rest)

/-- **A line is a name without a colon, and what is said of it**, without a newline. -/
theorem signingLine_eq_ok (hlower : toAsciiLowercase name = name)
    (h : signingLine session name = .ok line) :
    ∃ rest, line = name.toList ++ ':' :: ' ' :: rest ∧ ':' ∉ name.toList ∧ '\n' ∉ line ∧
      session.Says name rest := by
  rw [signingLine] at h
  simp only [hlower] at h
  split at h
  · rename_i htgt
    cases h
    have hmethod : '\n' ∉ (toAsciiLowercase session.method).toList :=
      not_mem_toAsciiLowercase (by decide) (not_mem_of_token session.method_token (by decide))
    have hnone : session.headerValue name = none := by
      rw [Option.eq_none_iff_forall_ne_some]
      intro value hval
      have htoken := (Session.headerValue_eq_some hval).1
      rw [hlower] at htoken
      rcases htgt with rfl | rfl
      · exact absurd (htoken '@' (by decide)) (by decide)
      · exact absurd (htoken '(' (by decide)) (by decide)
    have hname : ':' ∉ name.toList ∧ '\n' ∉ name.toList := by
      rcases htgt with rfl | rfl <;> decide
    refine ⟨_, rfl, hname.1, ?_, ?_⟩
    · simp [hname.2, hmethod, session.newline_notMem_target]
    · rw [Session.Says, if_pos htgt]
      exact ⟨rfl, hnone⟩
  · rename_i htgt
    split at h
    · cases h
    · rename_i value hval
      cases h
      obtain ⟨htoken, hnewline⟩ := Session.headerValue_eq_some hval
      rw [hlower] at htoken
      refine ⟨value.toList, rfl, not_mem_of_token htoken (by decide), ?_, ?_⟩
      · simp [not_mem_of_token htoken (show isTokenChar '\n' = false by decide), hnewline]
      · rw [Session.Says, if_neg htgt, hval, String.ofList_toList]

/-- What is said of a name settles what the requests agree on. -/
theorem Session.Says.agreeOn {rest : List Char} (h1 : session₁.Says name rest)
    (h2 : session₂.Says name rest) : session₁.AgreeOn session₂ name := by
  have hspace : ∀ session : Session, ' ' ∉ (toAsciiLowercase session.method).toList :=
    fun session => not_mem_toAsciiLowercase (by decide)
      (not_mem_of_token session.method_token (by decide))
  by_cases htgt : IsRequestTarget name
  · rw [Session.Says, if_pos htgt] at h1 h2
    obtain ⟨hmethod, hrest⟩ :=
      append_cons_inj (hspace session₁) (hspace session₂) (h1.1.symm.trans h2.1)
    exact ⟨h1.2.trans h2.2.symm, fun _ =>
      ⟨String.toList_injective hmethod, Session.target_injective hrest⟩⟩
  · rw [Session.Says, if_neg htgt] at h1 h2
    exact ⟨h1.trans h2.symm, fun h => absurd h htgt⟩

/-- **One line gives back its name and what the requests agree on.** -/
theorem signingLine_injective {name1 name2 : String} (hlower1 : toAsciiLowercase name1 = name1)
    (hlower2 : toAsciiLowercase name2 = name2) (h1 : signingLine session₁ name1 = .ok line)
    (h2 : signingLine session₂ name2 = .ok line) :
    name1 = name2 ∧ session₁.AgreeOn session₂ name1 := by
  obtain ⟨rest1, hline1, hcolon1, -, hsays1⟩ := signingLine_eq_ok hlower1 h1
  obtain ⟨rest2, hline2, hcolon2, -, hsays2⟩ := signingLine_eq_ok hlower2 h2
  obtain ⟨hname, hrest⟩ := append_cons_inj hcolon1 hcolon2 (hline1.symm.trans hline2)
  obtain rfl := String.toList_injective hname
  obtain rfl := (cons.inj hrest).2
  exact ⟨rfl, hsays1.agreeOn hsays2⟩

variable {lines : List (List Char)}

/-- The lines of a list give it back, name by name. -/
theorem lines_injective {names1 names2 : List String}
    (hlower1 : ∀ name ∈ names1, toAsciiLowercase name = name)
    (hlower2 : ∀ name ∈ names2, toAsciiLowercase name = name)
    (h1 : names1.mapM (signingLine session₁) = .ok lines)
    (h2 : names2.mapM (signingLine session₂) = .ok lines) :
    names1 = names2 ∧ ∀ name ∈ names1, session₁.AgreeOn session₂ name := by
  replace h1 := forall₂_of_mapM_eq_ok h1
  replace h2 := forall₂_of_mapM_eq_ok h2
  induction h1 generalizing names2 with
  | nil =>
    cases h2
    exact ⟨rfl, by simp⟩
  | cons hline1 _ ih =>
    rcases h2 with _ | ⟨hline2, hlines2⟩
    rw [forall_mem_cons] at hlower1 hlower2
    obtain ⟨rfl, hagree⟩ := signingLine_injective hlower1.1 hlower2.1 hline1 hline2
    obtain ⟨rfl, hrest⟩ := ih hlower1.2 hlower2.2 hlines2
    exact ⟨rfl, forall_mem_cons.2 ⟨hagree, hrest⟩⟩

/-- No line has a newline. -/
theorem newline_notMem_lines {names : List String}
    (hlower : ∀ name ∈ names, toAsciiLowercase name = name)
    (h : Forall₂ (fun name line => signingLine session name = .ok line) names lines) :
    ∀ line ∈ lines, '\n' ∉ line := by
  induction h with
  | nil => simp
  | cons hline _ ih =>
    rw [forall_mem_cons] at hlower
    obtain ⟨rest, -, -, hnewline, -⟩ := signingLine_eq_ok hlower.1 hline
    exact forall_mem_cons.2 ⟨hnewline, ih hlower.2⟩

variable {decode : String → Option (List UInt8)}

/-- **The list of an accepted header** is not empty, and in lower case. -/
theorem parseAuthorization_eq_ok {authHeader : String}
    {params : HmacAuthParams} (h : parseAuthorization decode authHeader = .ok params) :
    params.headers ≠ [] ∧ ∀ name ∈ params.headers, toAsciiLowercase name = name := by
  unfold parseAuthorization at h
  simp only [bind_eq_ok] at h
  obtain ⟨_, -, _, -, _, -, _, -, _, -, _, -, _, -, _, -, _, -, headers, hheaders, _, -, h⟩ := h
  cases h
  obtain ⟨_, hensure, h⟩ := bind_eq_ok.1 hheaders
  cases h
  rw [ensure] at hensure
  split at hensure
  · rename_i hne
    refine ⟨hne.1, fun name hname => ?_⟩
    obtain ⟨raw, -, rfl⟩ := mem_map.1 hname
    simp only [toAsciiLowercase, String.toList_ofList, map_map, Function.comp_def, toLower_toLower]
  · cases hensure

/-- **Equal signed texts come from equal lists and requests that agree on all of them**: the value
of every listed header, and if the request target is listed the method up to letter case, the path
and the query, an empty one counting as none. -/
theorem signingString_injective
    {authHeader₁ authHeader₂ : String} {params₁ params₂ : HmacAuthParams}
    (hparse₁ : parseAuthorization decode authHeader₁ = .ok params₁)
    (hparse₂ : parseAuthorization decode authHeader₂ = .ok params₂) {text : String}
    (h₁ : buildSigningString session₁ params₁.headers = .ok text)
    (h₂ : buildSigningString session₂ params₂.headers = .ok text) :
    params₁.headers = params₂.headers ∧
      ∀ name ∈ params₁.headers, session₁.AgreeOn session₂ name := by
  -- the text cut at its newlines is the lines of either list
  have hlines : ∀ {session : Session} {authHeader : String} {params : HmacAuthParams},
      parseAuthorization decode authHeader = .ok params →
      buildSigningString session params.headers = .ok text →
      (∀ name ∈ params.headers, toAsciiLowercase name = name) ∧
        params.headers.mapM (signingLine session) = .ok (text.toList.splitOn '\n') := by
    intro session authHeader params hparse h
    obtain ⟨hne, hlower⟩ := parseAuthorization_eq_ok hparse
    obtain ⟨lines, hmap, h⟩ := bind_eq_ok.1 h
    cases h
    have hall := forall₂_of_mapM_eq_ok hmap
    have hsome : lines ≠ [] := by
      rintro rfl
      exact hne (forall₂_nil_right_iff.1 hall)
    refine ⟨hlower, ?_⟩
    rw [String.toList_ofList, splitOn_intercalate _ (newline_notMem_lines hlower hall) hsome, hmap]
  obtain ⟨hlower₁, hmap₁⟩ := hlines hparse₁ h₁
  obtain ⟨hlower₂, hmap₂⟩ := hlines hparse₂ h₂
  exact lines_injective hlower₁ hlower₂ hmap₁ hmap₂

/-- Two requests with the same signed text: the method in another letter case, an empty query and
none, and a header that is not signed. -/
theorem signingString_injective_sample :
    ∃ (session₁ session₂ : Session) (params : HmacAuthParams) (text : String),
      parseAuthorization (fun _ => some [])
        "hmac username=\"u\", algorithm=\"hmac-sha256\", headers=\"Date (request-target)\", signature=\"\"" =
        .ok params ∧
      buildSigningString session₁ params.headers = .ok text ∧
      buildSigningString session₂ params.headers = .ok text ∧
      params.headers = ["date", "(request-target)"] ∧
      ∀ name ∈ params.headers, session₁.AgreeOn session₂ name := by
  have hparse : parseAuthorization (fun _ => some [])
    "hmac username=\"u\", algorithm=\"hmac-sha256\", headers=\"Date (request-target)\", signature=\"\"" =
    .ok ⟨"u", .hmacSha256, ["date", "(request-target)"], []⟩ := by decide +kernel
  let session₁ : Session := ⟨"GET", "/a", some "", [("date", ['1']), ("x-b", ['2'])],
    all_eq_true.1 (by decide +kernel), by simp, by decide +kernel, forall_mem_cons.2
      ⟨all_eq_true.1 (by decide +kernel), forall_mem_singleton.2 (all_eq_true.1 (by decide +kernel))⟩⟩
  let session₂ : Session := ⟨"get", "/a", none, [("date", ['1']), ("date", ['2'])],
    all_eq_true.1 (by decide +kernel), by simp, by decide +kernel, forall_mem_cons.2
      ⟨all_eq_true.1 (by decide +kernel), forall_mem_singleton.2 (all_eq_true.1 (by decide +kernel))⟩⟩
  have h₁ : buildSigningString session₁ ["date", "(request-target)"] =
    .ok "date: 1\n(request-target): get /a" := by decide +kernel
  have h₂ : buildSigningString session₂ ["date", "(request-target)"] =
    .ok "date: 1\n(request-target): get /a" := by decide +kernel
  exact ⟨session₁, session₂, _, _, hparse, h₁, h₂, rfl,
    (signingString_injective hparse hparse h₁ h₂).2⟩

end Edgion.HmacAuth
