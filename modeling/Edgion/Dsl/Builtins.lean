import Edgion.Common.Percent
import Edgion.Dsl.Syntax

/-!
# Built-in functions

`builtins.rs`. The session of a request is reached through `PluginSession`, whose methods are a
parameter here: a call takes the session's state and gives its answer and the next state. Every
call is also recorded, so that runs can be compared by the sequence of calls they make. The log
and the clock are reached in the same way.

Each branch of `call_builtin` pops its arguments before it does anything else; `builtin` has the
arguments as a list, in the order they are written in a program.
-/

namespace Edgion.Dsl

/-! ## The outside -/

/-- What a call answers with. -/
inductive ReplyKind where
  | text | optText | headers | status | unit | seconds
  deriving Repr, DecidableEq

/-- The type of the answer. Of a failed mutation only the failure is used: its error goes to a
debug trace. -/
def ReplyKind.T : ReplyKind → Type
  | .text => String
  | .optText => Option String
  | .headers => List (String × String)
  | .status => Bool
  | .unit => Unit
  | .seconds => Int64

/-- The methods of `PluginSession` that the built-in functions call, with `PluginLog::push` and
the clock. -/
inductive SessionCall : ReplyKind → Type where
  | headerValue (name : String) : SessionCall .optText
  | getMethod : SessionCall .text
  | getPath : SessionCall .text
  | getQueryParam (name : String) : SessionCall .optText
  | getQuery : SessionCall .optText
  | getCookie (name : String) : SessionCall .optText
  | clientAddr : SessionCall .text
  | remoteAddr : SessionCall .text
  | getPathParam (name : String) : SessionCall .optText
  | requestHeaders : SessionCall .headers
  | setRequestHeader (name value : String) : SessionCall .status
  | appendRequestHeader (name value : String) : SessionCall .status
  | removeRequestHeader (name : String) : SessionCall .status
  | setUpstreamUri (uri : String) : SessionCall .status
  | setUpstreamHost (host : String) : SessionCall .status
  | setUpstreamMethod (method : String) : SessionCall .status
  | setResponseHeader (name value : String) : SessionCall .status
  | appendResponseHeader (name value : String) : SessionCall .status
  | removeResponseHeader (name : String) : SessionCall .status
  | getCtxVar (key : String) : SessionCall .optText
  | setCtxVar (key value : String) : SessionCall .status
  | removeCtxVar (key : String) : SessionCall .status
  | logPush (msg : String) : SessionCall .unit
  | timeNow : SessionCall .seconds
  deriving DecidableEq

/-- A session with state in `σ`. -/
structure Session (σ : Type) where
  call : ∀ {r : ReplyKind}, SessionCall r → σ → r.T × σ

/-- The state of the session and the calls made on it, oldest first. -/
structure World (σ : Type) where
  session : σ
  trace : List (Σ r, SessionCall r)

/-- A call on the session. -/
def Session.perform {σ : Type} (S : Session σ) {r : ReplyKind} (c : SessionCall r)
    (w : World σ) : r.T × World σ :=
  ((S.call c w.session).1, ⟨(S.call c w.session).2, w.trace ++ [⟨r, c⟩]⟩)

/-- The functions of the standard library and of other crates that the language uses and this
development does not define. -/
structure Lib where
  toUppercase : String → String
  toLowercase : String → String
  base64Encode : String → String
  base64Decode : String → Option (List UInt8)
  fromUtf8Lossy : List UInt8 → String
  /-- `regex::Regex::new`: the error, or `none` for a pattern that compiles. -/
  regexError : String → Option String
  /-- `Regex::is_match`, pattern first. -/
  regexIsMatch : String → String → Bool

/-! ## Texts -/

variable (s : String)

/-- `str::parse::<i64>`. -/
def parseI64 : Option Int64 :=
  let sign : ℤ := if s.toList.head? = some '-' then -1 else 1
  let digits := if s.toList.head? ∈ [some '-', some '+'] then s.toList.tail else s.toList
  if digits = [] ∨ digits.any (fun c => !c.isDigit) then none
  else toI64 (sign * (digits.foldl (fun n c => 10 * n + (c.toNat - 48)) 0 : ℕ))

/-- An upper-case hexadecimal digit. -/
def hexDigit (n : ℕ) : Char := if n < 10 then Char.ofNat (48 + n) else Char.ofNat (55 + n)

/-- `format!("%{:02X}", b)`. -/
def percentByte (b : UInt8) : List Char := ['%', hexDigit (b.toNat / 16), hexDigit (b.toNat % 16)]

/-- `BuiltinId::UrlEncode`. -/
def urlEncode : String :=
  String.ofList (s.toList.flatMap fun c =>
    if c.isAlphanum ∨ c ∈ ['-', '_', '.', '~'] then [c]
    else (String.utf8EncodeChar c).flatMap percentByte)

/-- The value of a hexadecimal digit, `u8::is_ascii_hexdigit` included. -/
def hexValue (b : UInt8) : Option ℕ :=
  let n := b.toNat
  if 48 ≤ n ∧ n ≤ 57 then some (n - 48)
  else if 65 ≤ n ∧ n ≤ 70 then some (n - 55)
  else if 97 ≤ n ∧ n ≤ 102 then some (n - 87)
  else none

/-- The loop of `BuiltinId::UrlDecode`: `%` and two digits are a byte, `+` is a space. -/
def urlDecodeBytes : List UInt8 → List UInt8
  | [] => []
  | b :: rest =>
    match b == 37, rest with
    | true, hi :: lo :: rest' =>
      match hexValue hi, hexValue lo with
      | some h, some l => UInt8.ofNat (16 * h + l) :: urlDecodeBytes rest'
      | _, _ => b :: urlDecodeBytes (hi :: lo :: rest')
    | _, rest => (if b = 43 then 32 else b) :: urlDecodeBytes rest

/-- `as_int().unwrap_or(0).max(0) as usize`. -/
def asIndex (v : Value) : ℕ := (v.asInt.getD 0).toInt.toNat

/-- `BuiltinId::Substr` on a string: by characters, both ends cut to the length. -/
def substr (start stop : ℕ) : String :=
  let start := min start s.toList.length
  let stop := min stop s.toList.length
  if start ≤ stop then String.ofList ((s.toList.drop start).take (stop - start)) else ""

/-- `MAX_HEADER_NAMES`. -/
def maxHeaderNames : ℕ := 256

/-- The names `BuiltinId::ReqHeaderNames` takes. -/
def headerNames (headers : List (String × String)) : NameList :=
  ⟨(headers.take maxHeaderNames).map Prod.fst, by
    rw [List.length_map]
    exact lt_of_le_of_lt (List.length_take_le _ _) (by decide)⟩

/-- `check_string_len` on every name, in order. -/
def checkNames (limit : Option ℕ) : List String → Except RuntimeError Unit
  | [] => .ok ()
  | name :: names => do
    checkLen (Text.len name) limit
    checkNames limit names

/-! ## The functions -/

/-- How many values the branch of `call_builtin` for a function pops. -/
def BuiltinId.pops : BuiltinId → ℕ
  | .reqHeader | .reqQuery | .reqCookie | .reqPathParam | .reqHasHeader | .reqRemoveHeader
  | .reqSetUri | .reqSetHost | .reqSetMethod | .respRemoveHeader | .ctxGet | .ctxRemove => 1
  | .reqSetHeader | .reqAppendHeader | .respSetHeader | .respAppendHeader | .ctxSet => 2
  | .log | .len | .toInt | .toStr | .toUpper | .toLower | .base64Encode | .base64Decode
  | .urlEncode | .urlDecode => 1
  | .substr => 3
  | _ => 0

section

variable {σ : Type} (lib : Lib) (S : Session σ) (limit : Option ℕ)

/-- A text of the session. -/
def readText (c : SessionCall .text) (w : World σ) : Except RuntimeError Value × World σ :=
  (checkedValueStr (S.perform c w).1 limit, (S.perform c w).2)

/-- An optional text of the session. -/
def readOpt (c : SessionCall .optText) (w : World σ) : Except RuntimeError Value × World σ :=
  (checkedValueOptStr (S.perform c w).1 limit, (S.perform c w).2)

/-- A change to the session, with the name its failure is reported under. -/
def mutate (function : String) (c : SessionCall .status) (w : World σ) :
    Except RuntimeError Value × World σ :=
  let ok : Bool := (S.perform c w).1
  (if ok then .ok .nil else .error (.apiError function "plugin session operation failed"),
    (S.perform c w).2)

variable (w : World σ)

/-- `BuiltinId::ReqScheme`: from the headers proxies set, or `http`. -/
def reqScheme : Except RuntimeError Value × World σ :=
  match S.perform (.headerValue "X-Forwarded-Proto") w with
  | (some scheme, w) => (checkedValueStr scheme limit, w)
  | (none, w) =>
    match S.perform (.headerValue "X-Scheme") w with
    | (some scheme, w) => (checkedValueStr scheme limit, w)
    | (none, w) => (checkedValueStr "http" limit, w)

/-- `BuiltinId::ReqUri`. -/
def reqUri : Except RuntimeError Value × World σ :=
  let path : String := (S.perform .getPath w).1
  match S.perform .getQuery (S.perform .getPath w).2 with
  | (some q, w) =>
    if q = "" then (checkedValueStr path limit, w)
    else (checkedValueStr (path ++ "?" ++ q) limit, w)
  | (none, w) => (checkedValueStr path limit, w)

/-- `BuiltinId::ReqHeaderNames`. -/
def reqHeaderNames : Except RuntimeError Value × World σ :=
  match S.perform .requestHeaders w with
  | (headers, w) =>
    ((checkNames limit (headerNames headers).names).map fun _ => .list (headerNames headers), w)

/-- `BuiltinId::Len`. -/
def lenValue : Value → Except RuntimeError Value
  | .str s => .ok (.int (Int64.ofNat s.toList.length))
  | .nil => .ok (.int 0)
  | .list l => .ok (.int (Int64.ofNat l.names.length))
  | v => .error (.typeError "Str" v.typeName "len()")

/-- `BuiltinId::Substr`. -/
def substrValue (start stop : ℕ) : Value → Except RuntimeError Value
  | .str s => checkedValueStr (substr s start stop) limit
  | .nil => .ok (.str "")
  | v => .error (.typeError "Str" v.typeName "substr()")

/-- `BuiltinId::ToInt`. -/
def toIntValue : Value → Value
  | .str s => match parseI64 s with
    | some n => .int n
    | none => .nil
  | .int n => .int n
  | _ => .nil

/-- A branch of `call_builtin` that is not there; `builtin` never comes here with as many
arguments as `BuiltinId.pops` tells. -/
def noBranch : Except RuntimeError Value × World σ :=
  (.error (.internal "stack underflow"), w)

variable (id : BuiltinId)

/-- The branches of `call_builtin` that pop nothing. -/
def builtin0 (w : World σ) : Except RuntimeError Value × World σ :=
  match id with
  | .reqMethod => readText S limit .getMethod w
  | .reqPath => readText S limit .getPath w
  | .reqQueryString => readOpt S limit .getQuery w
  | .reqClientIp => readText S limit .clientAddr w
  | .reqRemoteIp => readText S limit .remoteAddr w
  | .reqHeaderNames => reqHeaderNames S limit w
  | .reqScheme => reqScheme S limit w
  | .reqHost => readOpt S limit (.headerValue "Host") w
  | .reqUri => reqUri S limit w
  | .reqContentType => readOpt S limit (.headerValue "Content-Type") w
  | .timeNow =>
    let now : Int64 := (S.perform .timeNow w).1
    (.ok (.int now), (S.perform .timeNow w).2)
  | .sha256 => (.error (.apiError "sha256" "sha256() is not yet implemented"), w)
  | .md5 => (.error (.apiError "md5" "md5() is not yet implemented"), w)
  | .regexFind => (.error (.apiError "regex_find" "regex_find() is not yet implemented"), w)
  | .regexReplace =>
    (.error (.apiError "regex_replace" "regex_replace() is not yet implemented"), w)
  | .range => (.error (.apiError "range" "range() is not yet implemented"), w)
  | _ => noBranch w

/-- The branches that pop one value. -/
def builtin1 (v : Value) (w : World σ) : Except RuntimeError Value × World σ :=
  match id with
  | .reqHeader => readOpt S limit (.headerValue v.intoString) w
  | .reqQuery => readOpt S limit (.getQueryParam v.intoString) w
  | .reqCookie => readOpt S limit (.getCookie v.intoString) w
  | .reqPathParam => readOpt S limit (.getPathParam v.intoString) w
  | .reqHasHeader =>
    let reply : Option String := (S.perform (.headerValue v.intoString) w).1
    (.ok (.bool reply.isSome), (S.perform (.headerValue v.intoString) w).2)
  | .reqRemoveHeader => mutate S "req.remove_header" (.removeRequestHeader v.intoString) w
  | .reqSetUri => mutate S "req.set_uri" (.setUpstreamUri v.intoString) w
  | .reqSetHost => mutate S "req.set_host" (.setUpstreamHost v.intoString) w
  | .reqSetMethod => mutate S "req.set_method" (.setUpstreamMethod v.intoString) w
  | .respRemoveHeader => mutate S "resp.remove_header" (.removeResponseHeader v.intoString) w
  | .ctxGet => readOpt S limit (.getCtxVar v.intoString) w
  | .ctxRemove => mutate S "ctx.remove" (.removeCtxVar v.intoString) w
  | .log => (.ok .nil, (S.perform (.logPush v.intoString) w).2)
  | .len => (lenValue v, w)
  | .toStr => (checkedValueStr v.intoString limit, w)
  | .toInt => (.ok (toIntValue v), w)
  | .toUpper => (checkedValueStr (lib.toUppercase v.intoString) limit, w)
  | .toLower => (checkedValueStr (lib.toLowercase v.intoString) limit, w)
  | .base64Encode => (checkedValueStr (lib.base64Encode v.intoString) limit, w)
  | .base64Decode =>
    (checkedValueOptStr ((lib.base64Decode v.intoString).map lib.fromUtf8Lossy) limit, w)
  | .urlEncode => (checkedValueStr (urlEncode v.intoString) limit, w)
  | .urlDecode =>
    let bytes := v.intoString.toByteArray.data.toList
    (checkedValueStr (lib.fromUtf8Lossy (urlDecodeBytes bytes)) limit, w)
  | _ => noBranch w

/-- The branches that pop two values, a name or key and what it is set to. -/
def builtin2 (name value : Value) (w : World σ) : Except RuntimeError Value × World σ :=
  match id with
  | .reqSetHeader =>
    mutate S "req.set_header" (.setRequestHeader name.intoString value.intoString) w
  | .reqAppendHeader =>
    mutate S "req.append_header" (.appendRequestHeader name.intoString value.intoString) w
  | .respSetHeader =>
    mutate S "resp.set_header" (.setResponseHeader name.intoString value.intoString) w
  | .respAppendHeader =>
    mutate S "resp.append_header" (.appendResponseHeader name.intoString value.intoString) w
  | .ctxSet => mutate S "ctx.set" (.setCtxVar name.intoString value.intoString) w
  | _ => noBranch w

/-- **The body of `call_builtin`**, on the arguments it has popped. -/
def builtin (args : List Value) (w : World σ) : Except RuntimeError Value × World σ :=
  match args with
  | [] => builtin0 S limit id w
  | [v] => builtin1 lib S limit id v w
  | [name, value] => builtin2 S id name value w
  | [s, start, stop] =>
    match id with
    | .substr => (substrValue limit (asIndex start) (asIndex stop) s, w)
    | _ => noBranch w
  | _ => noBranch w

end

/-- `state.pop()` as often as given: the values in the order they were pushed, and the rest. -/
def popArgs : ℕ → List Value → Option (List Value × List Value)
  | 0, stack => some ([], stack)
  | _ + 1, [] => none
  | n + 1, v :: stack => (popArgs n stack).map fun (args, rest) => (args ++ [v], rest)

/-- The arguments lie on the stack, the last one on top. -/
theorem popArgs_eq_some {n : ℕ} {stack args rest : List Value} :
    popArgs n stack = some (args, rest) ↔ args.length = n ∧ stack = args.reverse ++ rest := by
  induction n generalizing stack args rest with
  | zero =>
    constructor
    · intro h
      cases h
      exact ⟨rfl, rfl⟩
    · rintro ⟨hlen, rfl⟩
      rw [List.eq_nil_of_length_eq_zero hlen]
      rfl
  | succ n ih =>
    rcases args.eq_nil_or_concat with rfl | ⟨args, u, rfl⟩ <;> rcases stack with - | ⟨v, stack⟩
    · simp [popArgs]
    · simp [popArgs]
    · simp [popArgs]
    · simp [popArgs, ih, and_assoc, @and_comm _ (u = v), @eq_comm _ v]

/-- **`Vm::call_builtin`**: the result and the stack it leaves, and what became of the session. -/
def callBuiltin {σ : Type} (lib : Lib) (S : Session σ) (limit : Option ℕ) (id : BuiltinId)
    (stack : List Value) (w : World σ) :
    Except RuntimeError (Value × List Value) × World σ :=
  match popArgs id.pops stack with
  | none => (.error (.internal "stack underflow"), w)
  | some (args, rest) =>
    ((builtin lib S limit id args w).1.map (·, rest), (builtin lib S limit id args w).2)

/-! ## An outside to run scripts on -/

/-- A library whose conversions change nothing and whose patterns all compile and never match. -/
def Lib.idle : Lib where
  toUppercase s := s
  toLowercase s := s
  base64Encode s := s
  base64Decode s := some s.toByteArray.data.toList
  fromUtf8Lossy bytes := String.ofList (bytes.map fun b => Char.ofNat b.toNat)
  regexError _ := none
  regexIsMatch _ _ := false

/-- A request with nothing in it, on which every change succeeds. -/
def Session.idle : Session Unit where
  call {r} _ s :=
    match r with
    | .text => ("", s)
    | .optText => (none, s)
    | .headers => ([], s)
    | .status => (true, s)
    | .unit => ((), s)
    | .seconds => ((0 : Int64), s)

/-! ## `url_decode` undoes `url_encode`

The encoder writes a percent-encoding of the bytes of its argument, and the decoder gives the bytes
of any percent-encoding back. -/

section

open List Common UInt8 Text Nat

variable {bs : List UInt8} {cs : List Char}

/-- A byte as `url_encode` writes it. -/
theorem encodes_percentByte (b : UInt8) : PercentEncodes [b] (percentByte b) := by
  have hdigit : ∀ n < 16, (hexDigit n, n) ∈ hexDigits := by decide
  have hlt := b.toNat_lt
  have hbyte : ofNat (b.toNat / 16 * 16 + b.toNat % 16) = b := by
    rw [div_add_mod', UInt8.ofNat_toNat]
  have h := PercentEncodes.percent (hdigit (b.toNat / 16) (by omega))
    (hdigit (b.toNat % 16) (mod_lt _ (by decide))) .nil
  rwa [hbyte] at h

/-- **`url_encode` percent-encodes the bytes of its argument.** -/
theorem encodes_urlEncode (s : String) :
    PercentEncodes s.toByteArray.data.toList (urlEncode s).toList := by
  rw [toByteArray_toList, urlEncode, String.toList_ofList]
  induction s.toList with
  | nil => exact .nil
  | cons c cs ih =>
    rw [flatMap_cons, flatMap_cons]
    refine .append ?_ ih
    split
    · rename_i hc
      rw [utf8EncodeChar_of_le (Unreserved.bounds hc).1]
      exact .plain hc .nil
    · induction String.utf8EncodeChar c with
      | nil => exact .nil
      | cons b bs ih => exact (encodes_percentByte b).append ih

/-- **The loop of `url_decode` reads any percent-encoding.** -/
theorem urlDecodeBytes_encoded (h : PercentEncodes bs cs) :
    urlDecodeBytes (cs.map fun c => ofNat c.toNat) = bs := by
  have hdigit : ∀ x ∈ hexDigits, hexValue (ofNat x.1.toNat) = some x.2 := by decide
  induction h with
  | nil => rfl
  | @plain c bs cs hc h ih =>
    obtain ⟨hle, hpercent, hplus⟩ := hc.bounds
    have hne : ∀ d : Char, d.toNat ≤ 127 → c ≠ d → ofNat c.toNat ≠ ofNat d.toNat := by
      intro d hd hcd heq
      have hnat := congrArg toNat heq
      rw [toNat_ofNat_of_lt' (lt_of_le_of_lt hle (by decide)),
        toNat_ofNat_of_lt' (lt_of_le_of_lt hd (by decide))] at hnat
      exact hcd (Char.toNat_inj.1 hnat)
    have h37 := beq_eq_false_iff_ne.2 (hne '%' (by decide) hpercent)
    have h43 := hne '+' (by decide) hplus
    rw [map_cons, urlDecodeBytes.eq_def]
    simp_all
  | @percent hi lo m n bs cs hhi hlo h ih =>
    simp [urlDecodeBytes, hdigit _ hhi, hdigit _ hlo, ih, mul_comm]

/-- **`url_decode` undoes `url_encode`**, wherever that hits no limit on the length. -/
theorem urlDecode_urlEncode {σ : Type} {lib : Lib} {S : Session σ} {limit : Option ℕ}
    (hlossy : ∀ s : String, lib.fromUtf8Lossy s.toByteArray.data.toList = s) {s : String}
    {stack rest : List Value} {encoded : Value} {w : World σ}
    (h : (callBuiltin lib S limit .urlEncode (.str s :: stack) w).1 = .ok (encoded, rest))
    (w' : World σ) :
    (callBuiltin lib S limit .urlDecode (encoded :: rest) w').1 = .ok (.str s, stack) := by
  have hencodes := encodes_urlEncode s
  have hbytes : (urlEncode s).toByteArray.data.toList =
      (urlEncode s).toList.map fun c => ofNat c.toNat := by
    rw [toByteArray_toList, flatMap_utf8EncodeChar hencodes.le]
  have hlen : len s ≤ len (urlEncode s) := by
    have hle := hencodes.length_le
    have hsize := congrArg length hbytes
    rw [length_map] at hsize
    exact hle.trans hsize.ge
  have hdecoded : lib.fromUtf8Lossy (urlDecodeBytes (urlEncode s).toByteArray.data.toList) = s := by
    rw [hbytes, urlDecodeBytes_encoded hencodes, hlossy]
  -- the length is checked before the encoding is pushed
  have hok : checkLen (len (urlEncode s)) limit = .ok () ∧ encoded = .str (urlEncode s) ∧
      rest = stack := by
    change (checkedValueStr (urlEncode s) limit).map (·, stack) = _ at h
    rw [checkedValueStr] at h
    rcases hcheck : checkLen (len (urlEncode s)) limit with e | _
    · rw [hcheck] at h
      cases h
    · rw [hcheck] at h
      cases h
      exact ⟨rfl, rfl, rfl⟩
  obtain ⟨hcheck, rfl, rfl⟩ := hok
  have hfits : checkLen (len s) limit = .ok () := by
    rcases limit with _ | limit
    · rfl
    · rw [checkLen] at hcheck ⊢
      split at hcheck
      · cases hcheck
      · exact if_neg (by omega)
  change (checkedValueStr (lib.fromUtf8Lossy
    (urlDecodeBytes (urlEncode s).toByteArray.data.toList)) limit).map (·, rest) = _
  rw [hdecoded, checkedValueStr, hfits]
  rfl

/-- A library that reads valid UTF-8. -/
def utf8Lib : Lib :=
  { Lib.idle with fromUtf8Lossy := fun bytes => (String.fromUTF8? ⟨bytes.toArray⟩).getD "" }

theorem urlDecode_urlEncode_percent :
    (callBuiltin utf8Lib Session.idle (some 64) .urlDecode [.str "%25%2B%20%C3%A9"] ⟨(), []⟩).1 =
      .ok (.str "%+ é", []) := by
  have hlossy : ∀ s : String, utf8Lib.fromUtf8Lossy s.toByteArray.data.toList = s := by
    intro s
    have hvalid : String.fromUTF8? s.toByteArray = some s := dif_pos s.isValidUTF8
    simp [utf8Lib, hvalid]
  have hencode : (callBuiltin utf8Lib Session.idle (some 64) .urlEncode [.str "%+ é"] ⟨(), []⟩).1 =
      .ok (.str "%25%2B%20%C3%A9", []) := by
    decide +kernel
  exact urlDecode_urlEncode hlossy hencode _

end

end Edgion.Dsl
