import Edgion.Common.BackwardScan
import Edgion.Common.Parts
import Edgion.IpRadix.Rules

/-!
# Real IP — the client's address behind trusted proxies

A trusted proxy appends to a header the address that connected to it. The
extractor reads the header from its end and takes the first address that is
no trusted proxy's. What stands left of that a client may have written. Two
things let such a text through: of several lines of the header only the
first is read, though proxies may append lines, and an entry that is no
address is passed over. `extractRealIp_iff` says when neither matters.
-/

namespace Edgion.IpRadix

open Common Text List IpCidr

/-- The text forms of addresses in `std::net`. -/
structure Net where
  /-- `str::parse::<IpAddr>`. -/
  fromStr : String → Except String IpAddr
  /-- The address of `str::parse::<SocketAddr>`. -/
  socketIp : String → Option IpAddr
  /-- `IpAddr::to_string`. -/
  display : IpAddr → String
  /-- A text is the text of one address at most: it parses as that one. -/
  display_injective : Function.Injective display

/-! ## Headers -/

/-- The lines of a request's header, in their order. -/
structure RequestHeader where
  headers : List (String × HeaderValue)

/-- The values of all lines of a name. -/
def RequestHeader.getAll (h : RequestHeader) (name : String) : List HeaderValue :=
  (h.headers.filter fun line => eqIgnoreAsciiCase line.1 name).map Prod.snd

/-- `HeaderMap::get`: the value of the first line of a name. -/
def RequestHeader.get (h : RequestHeader) (name : String) : Option HeaderValue :=
  (h.getAll name).head?

/-! ## The extractor -/

structure RealIpExtractor where
  trustedProxyMatcher : Option IpRadixMatcher
  realIpHeader : String
  deriving DecidableEq, Repr

/-- One turn of the loop of `new`, with the count of the valid CIDRs: the others are
skipped. -/
def insertTrusted (fromStr : String → Except String IpAddr) (acc : IpRadixMatcherBuilder × ℕ)
    (cidr : String) : IpRadixMatcherBuilder × ℕ :=
  match acc.1.insert fromStr cidr true with
  | .ok builder => (builder, acc.2 + 1)
  | .error _ => acc

def RealIpExtractor.new (fromStr : String → Except String IpAddr) (trustedIps : List String)
    (realIpHeader : String) : Except IpRadixError RealIpExtractor :=
  if !trustedIps.isEmpty then
    let (builder, validCount) := trustedIps.foldl (insertTrusted fromStr) (.new, 0)
    if validCount > 0 then
      match builder.build with
      | .error e => .error e
      | .ok m => .ok ⟨some m, realIpHeader⟩
    else .ok ⟨none, realIpHeader⟩
  else .ok ⟨none, realIpHeader⟩

/-- `is_trusted_proxy`. A lookup in a built matcher does not run off its nodes. -/
def RealIpExtractor.isTrustedProxy (x : RealIpExtractor) (ip : IpAddr) : Bool :=
  match x.trustedProxyMatcher with
  | none => false
  | some m => ((m.matchIp ip).getD none).getD false

variable (N : Net)

def extractIpFromSocketAddr (addr : String) : IpAddr :=
  match N.socketIp addr with
  | some ip => ip
  | none =>
    match N.fromStr addr with
    | .ok ip => ip
    | .error _ => .v4 0

/-- The body of the loop over the entries: the address of one that is not trusted. -/
def RealIpExtractor.foreign (x : RealIpExtractor) (ipStr : List Char) : Option IpAddr :=
  match N.fromStr (String.ofList ipStr) with
  | .ok ipAddr => if !x.isTrustedProxy ipAddr then some ipAddr else none
  | .error _ => none

def RealIpExtractor.extractRealIp (x : RealIpExtractor) (clientAddr : String)
    (headers : RequestHeader) : String :=
  if x.trustedProxyMatcher.isNone then N.display (extractIpFromSocketAddr N clientAddr)
  else
    let clientIp := extractIpFromSocketAddr N clientAddr
    if !x.isTrustedProxy clientIp then N.display clientIp
    else
      match headers.get x.realIpHeader with
      | none => N.display clientIp
      | some headerValue =>
        match headerValue.toStr with
        | none => N.display clientIp
        | some xffStr =>
          let ips := (xffStr.splitOn ',').map trim
          match ips.reverse.findSome? (x.foreign N) with
          | some ipAddr => N.display ipAddr
          | none => N.display clientIp

/-! ## What is trusted -/

/-- A trusted proxy's address: one that a valid CIDR of the configuration covers. -/
def Trusted (fromStr : String → Except String IpAddr) (trustedIps : List String) (ip : IpAddr) :
    Prop :=
  ∃ cidrStr ∈ trustedIps, (∃ cidr, parse fromStr cidrStr = .ok cidr) ∧
    ∃ n, Covers fromStr cidrStr n ip

variable {N} {fromStr : String → Except String IpAddr}

/-- An insert is accepted if and only if the CIDR parses. -/
theorem insert_error_iff {b : IpRadixMatcherBuilder} {cidrStr : String} {allow : Bool} :
    (∃ e, b.insert fromStr cidrStr allow = .error e) ↔
      ¬ ∃ cidr, parse fromStr cidrStr = .ok cidr := by
  unfold IpRadixMatcherBuilder.insert
  cases hparse : parse fromStr cidrStr with
  | error e => simp
  | ok cidr =>
    cases cidr with
    | v4 addr n => simp [IpV4RadixBuilder.insert, hparse]
    | v6 addr n => simp [IpV6RadixBuilder.insert, hparse]

/-- The rules the loop of `new` has inserted: the valid CIDRs, all with the same value. -/
structure Inserted (fromStr : String → Except String IpAddr) (trustedIps : List String)
    (acc : IpRadixMatcherBuilder × ℕ) (rules : List (String × Bool)) : Prop where
  built : Built fromStr rules acc.1
  count : acc.2 = rules.length
  mem_iff : ∀ rule, rule ∈ rules ↔ rule.2 = true ∧ rule.1 ∈ trustedIps ∧
    ∃ cidr, parse fromStr rule.1 = .ok cidr

variable {trustedIps : List String}

/-- **One turn of the loop.** -/
theorem Inserted.step {acc : IpRadixMatcherBuilder × ℕ}
    {rules : List (String × Bool)} (h : Inserted fromStr trustedIps acc rules) (cidrStr : String) :
    ∃ rules', Inserted fromStr (trustedIps ++ [cidrStr]) (insertTrusted fromStr acc cidrStr)
      rules' := by
  cases hins : acc.1.insert fromStr cidrStr true with
  | error e =>
    have hbad := insert_error_iff.1 ⟨e, hins⟩
    have hskip : insertTrusted fromStr acc cidrStr = acc := by
      unfold insertTrusted
      rw [hins]
    rw [hskip]
    refine ⟨rules, h.built, h.count, fun rule => ?_⟩
    rw [h.mem_iff, mem_append, mem_singleton]
    constructor
    · exact fun ⟨hv, hmem, hparse⟩ => ⟨hv, .inl hmem, hparse⟩
    · rintro ⟨hv, hmem | hmem, hparse⟩
      · exact ⟨hv, hmem, hparse⟩
      · exact absurd (hmem ▸ hparse) hbad
  | ok b =>
    have hgood : ∃ cidr, parse fromStr cidrStr = .ok cidr := by
      by_contra hbad
      obtain ⟨e, he⟩ := insert_error_iff.2 hbad
      rw [hins] at he
      cases he
    have hstep : insertTrusted fromStr acc cidrStr = (b, acc.2 + 1) := by
      unfold insertTrusted
      rw [hins]
    rw [hstep]
    refine ⟨rules ++ [(cidrStr, true)], ?_, ?_, fun rule => ?_⟩
    · exact h.built.insert hins
    · simp [h.count]
    · rw [mem_append, h.mem_iff, mem_singleton, mem_append, mem_singleton]
      constructor
      · rintro (⟨hv, hmem, hparse⟩ | rfl)
        · exact ⟨hv, .inl hmem, hparse⟩
        · exact ⟨rfl, .inr rfl, hgood⟩
      · rintro ⟨hv, hmem | hmem, hparse⟩
        · exact .inl ⟨hv, hmem, hparse⟩
        · exact .inr (Prod.ext hmem hv)

/-- **The whole loop.** -/
theorem exists_inserted (fromStr : String → Except String IpAddr) (trustedIps : List String) :
    ∃ rules, Inserted fromStr trustedIps (trustedIps.foldl (insertTrusted fromStr) (.new, 0))
      rules := by
  induction trustedIps using reverseRecOn with
  | nil => exact ⟨[], built_new, rfl, by simp⟩
  | append_singleton trustedIps cidrStr ih =>
    obtain ⟨rules, h⟩ := ih
    rw [foldl_append]
    exact h.step cidrStr

variable {realIpHeader : String} {x : RealIpExtractor}

open RealIpExtractor

/-- What `new` makes of a configuration. -/
theorem new_cases (hnew : new fromStr trustedIps realIpHeader = .ok x) :
    x.realIpHeader = realIpHeader ∧ ∃ rules b n, Inserted fromStr trustedIps (b, n) rules ∧
      (x.trustedProxyMatcher = none ∧ rules = [] ∨
        ∃ m, x.trustedProxyMatcher = some m ∧ b.build = .ok m) := by
  obtain ⟨rules, h⟩ := exists_inserted fromStr trustedIps
  unfold new at hnew
  split at hnew
  · dsimp only at hnew
    split at hnew
    · split at hnew
      · cases hnew
      · next m hm =>
        cases hnew
        exact ⟨rfl, rules, _, _, h, .inr ⟨m, rfl, hm⟩⟩
    · next hcount =>
      cases hnew
      have hempty : rules = [] := eq_nil_of_length_eq_zero (by rw [← h.count]; omega)
      exact ⟨rfl, rules, _, _, h, .inl ⟨rfl, hempty⟩⟩
  · next hempty =>
    cases hnew
    have hnil : trustedIps = [] := by simpa using hempty
    subst hnil
    have hrules : rules = [] := eq_nil_of_length_eq_zero (by rw [← h.count]; rfl)
    exact ⟨rfl, rules, _, _, h, .inl ⟨rfl, hrules⟩⟩

/-- **`is_trusted_proxy` finds the addresses that a valid CIDR covers.** -/
theorem isTrustedProxy_iff
    (hnew : new fromStr trustedIps realIpHeader = .ok x) (ip : IpAddr) :
    x.isTrustedProxy ip ↔ Trusted fromStr trustedIps ip := by
  obtain ⟨-, rules, b, n, h, hx⟩ := new_cases hnew
  have hcovered : Trusted fromStr trustedIps ip ↔
      ¬ ∀ rule ∈ rules, ∀ n, ¬ Covers fromStr rule.1 n ip := by
    push Not
    constructor
    · rintro ⟨cidrStr, hmem, hparse, n, hc⟩
      exact ⟨(cidrStr, true), (h.mem_iff _).2 ⟨rfl, hmem, hparse⟩, n, hc⟩
    · rintro ⟨rule, hmem, n, hc⟩
      obtain ⟨-, hmem, hparse⟩ := (h.mem_iff rule).1 hmem
      exact ⟨rule.1, hmem, hparse, n, hc⟩
  unfold isTrustedProxy
  rcases hx with ⟨hx, rfl⟩ | ⟨m, hx, hm⟩
  · rw [hx, hcovered]
    simp
  · obtain ⟨net, bits, hr, hcov⟩ := h.built.matchIp hm ip
    rw [hx, hcovered, ← longestMatch_writes_eq_none_iff (Covers fromStr · · ip) hcov]
    dsimp only
    rw [hr]
    cases hfound : longestMatch (fun p => lastWrite (writes net p) rules) bits with
    | none => simp
    | some v =>
      -- every rule has the value `true`
      obtain ⟨i, s, n, hi, -⟩ := (longestMatch_writes_eq_some_iff (Covers fromStr · · ip) hcov).1 hfound
      have hv : v = true := ((h.mem_iff _).1 (mem_of_getElem? hi)).1
      simp [hv]

/-! ## What the header says -/

variable (N)

/-- The address an entry is: a text that parses once it is trimmed. -/
def addressOf (entry : List Char) : Option IpAddr :=
  match HeaderValue.toStr entry with
  | none => none
  | some s => (N.fromStr (String.ofList (trim s))).toOption

variable (lines : List HeaderValue)

/-- The entries of all lines, as one comma-separated list. -/
def entries : List (List Char) := lines.flatMap (·.splitOn ',')

/-- The entries of the first line, if it is a text. -/
def entriesRead : List (List Char) :=
  match lines with
  | [] => []
  | value :: _ => if value.all isVisibleAscii then value.splitOn ',' else []

/-- **The address returned is the last entry of all lines that is no trusted proxy's**,
and the peer's if that is no address or there is none. -/
def ReturnsLast (trustedIps : List String) (x : RealIpExtractor) (clientAddr : String)
    (headers : RequestHeader) : Prop :=
  ∃ ip, Stops (addressOf N) (Trusted N.fromStr trustedIps) (extractIpFromSocketAddr N clientAddr)
      (entries (headers.getAll x.realIpHeader)) ip ∧
    x.extractRealIp N clientAddr headers = N.display ip

/-- **The lines say on the first one who wrote last.** All entries are trusted proxies' addresses;
or the last one that is not is an address on the first line, which is text, or the same address as
the last untrusted one there; or it is no address, and the first line has no untrusted ones. -/
def ReadsRight (trustedIps : List String) (lines : List HeaderValue) : Prop :=
  PartTells (addressOf N) (Trusted N.fromStr trustedIps) (entries lines) (entriesRead lines)

variable {N} {trustedIps : List String} {realIpHeader clientAddr : String} {x : RealIpExtractor}

section

variable (hnew : new N.fromStr trustedIps realIpHeader = .ok x)

include hnew

/-- What the loop does with an entry of a text. -/
theorem foreign_trim
    {entry : List Char} (hvis : entry.all isVisibleAscii) (ip : IpAddr) :
    x.foreign N (trim entry) = some ip ↔
      addressOf N entry = some ip ∧ ¬ Trusted N.fromStr trustedIps ip := by
  rw [foreign, addressOf, HeaderValue.toStr, if_pos hvis]
  dsimp only
  cases N.fromStr (String.ofList (trim entry)) with
  | error e => simp [Except.toOption]
  | ok q =>
    simp only [Except.toOption, Option.some.injEq]
    rw [← isTrustedProxy_iff hnew]
    by_cases hq : x.isTrustedProxy q = true
    · simp only [hq, Bool.not_true, Bool.false_eq_true, if_false]
      constructor
      · intro h
        cases h
      · rintro ⟨rfl, hnot⟩
        exact absurd hq hnot
    · simp only [Bool.not_eq_true] at hq
      simp only [hq, Bool.not_false, if_true, Option.some.injEq]
      constructor
      · rintro rfl
        exact ⟨rfl, by simp [hq]⟩
      · exact fun h => h.1

/-- **The loop over the entries of a text finds the last address that is not trusted.** -/
theorem findSome?_foreign_iff
    {value : HeaderValue} (hvis : value.all isVisibleAscii) (ip : IpAddr) :
    ((value.splitOn ',').map trim).reverse.findSome? (x.foreign N) = some ip ↔
      LastForeign (addressOf N) (Trusted N.fromStr trustedIps) (value.splitOn ',') ip := by
  have hentry : ∀ entry ∈ value.splitOn ',', entry.all isVisibleAscii = true := by
    intro entry hmem
    rw [all_eq_true] at hvis ⊢
    exact fun c hc => hvis c (exists_mem_splitOn_iff.1 ⟨entry, hmem, hc⟩).1
  rw [← map_reverse, findSome?_map, findSome?_reverse_eq_some_iff]
  refine exists_congr fun left => exists_congr fun entry => exists_congr fun right => ?_
  refine and_congr_right fun hsplit => ?_
  rw [Function.comp_apply, foreign_trim hnew (hentry entry (by simp [hsplit])), and_assoc]
  refine and_congr_right fun _ => and_congr_right fun _ => forall₂_congr fun e he => ?_
  rw [Function.comp_apply, Option.eq_none_iff_forall_ne_some]
  simp only [ne_eq, foreign_trim hnew (hentry e (by simp [hsplit, he])), not_and, not_not]

/-- **What the extractor returns for a trusted peer.** -/
theorem exists_answer (hpeer : Trusted N.fromStr trustedIps (extractIpFromSocketAddr N clientAddr))
    (headers : RequestHeader) :
    ∃ ip, x.extractRealIp N clientAddr headers = N.display ip ∧
      Answer (LastForeign (addressOf N) (Trusted N.fromStr trustedIps)
        (entriesRead (headers.getAll x.realIpHeader))) (extractIpFromSocketAddr N clientAddr) ip := by
  have htrusted := (isTrustedProxy_iff hnew _).2 hpeer
  have hmatcher : x.trustedProxyMatcher.isNone = false := by
    cases hx : x.trustedProxyMatcher with
    | none => simp [isTrustedProxy, hx] at htrusted
    | some m => rfl
  have hnothing : ∀ ip, ¬ LastForeign (addressOf N) (Trusted N.fromStr trustedIps) [] ip := by
    rintro ip ⟨left, entry, right, hnil, -⟩
    simp at hnil
  unfold extractRealIp
  simp only [hmatcher, htrusted, RequestHeader.get, Bool.false_eq_true, if_false, Bool.not_true]
  cases headers.getAll x.realIpHeader with
  | nil => exact ⟨_, rfl, .inr ⟨rfl, hnothing⟩⟩
  | cons value rest =>
    simp only [head?_cons, HeaderValue.toStr, entriesRead]
    by_cases hvis : value.all isVisibleAscii = true
    · simp only [hvis, if_true]
      have hloop := findSome?_foreign_iff hnew hvis
      cases hfound : ((value.splitOn ',').map trim).reverse.findSome? (x.foreign N) with
      | none =>
        refine ⟨_, rfl, .inr ⟨rfl, fun c hc => ?_⟩⟩
        rw [(hloop c).2 hc] at hfound
        cases hfound
      | some ip => exact ⟨ip, rfl, .inl ((hloop ip).1 hfound)⟩
    · simp only [hvis, Bool.false_eq_true, if_false]
      exact ⟨_, rfl, .inr ⟨rfl, hnothing⟩⟩

end

/-- What the extractor reads is the front of what the proxies wrote. -/
theorem entriesRead_prefix {lines : List HeaderValue} : entriesRead lines <+: entries lines := by
  cases lines with
  | nil => exact prefix_rfl
  | cons value lines =>
    rw [entriesRead, entries, flatMap_cons]
    split_ifs
    · exact prefix_append ..
    · exact nil_prefix

/-- The answer is that for the last entry that is no trusted proxy's. -/
theorem ReturnsLast.eq_display {headers : RequestHeader} {left right : List (List Char)}
    {entry : List Char} (h : ReturnsLast N trustedIps x clientAddr headers)
    (hentries : entries (headers.getAll x.realIpHeader) = left ++ entry :: right)
    (hentry : ¬ IsTrusted (addressOf N) (Trusted N.fromStr trustedIps) entry)
    (hright : ∀ e ∈ right, IsTrusted (addressOf N) (Trusted N.fromStr trustedIps) e) :
    x.extractRealIp N clientAddr headers =
      N.display ((addressOf N entry).getD (extractIpFromSocketAddr N clientAddr)) := by
  obtain ⟨ip, hstops, hip⟩ := h
  rw [hentries, stops_append hentry hright] at hstops
  rw [hip, hstops]

/-- **For a trusted peer the extractor returns the last entry of all lines that is no
trusted proxy's, if and only if it reads the lines right. Then what stands left of that
entry does not matter.** -/
theorem extractRealIp_iff (N : Net) {trustedIps : List String} {realIpHeader clientAddr : String}
    {x : RealIpExtractor} (hnew : new N.fromStr trustedIps realIpHeader = .ok x)
    (hpeer : Trusted N.fromStr trustedIps (extractIpFromSocketAddr N clientAddr)) :
    (∀ headers, ReturnsLast N trustedIps x clientAddr headers ↔
      ReadsRight N trustedIps (headers.getAll realIpHeader)) ∧
    ∀ headers headers' left left' entry right,
      ReadsRight N trustedIps (headers.getAll realIpHeader) →
      ReadsRight N trustedIps (headers'.getAll realIpHeader) →
      entries (headers.getAll realIpHeader) = left ++ entry :: right →
      entries (headers'.getAll realIpHeader) = left' ++ entry :: right →
      ¬ IsTrusted (addressOf N) (Trusted N.fromStr trustedIps) entry →
      (∀ e ∈ right, IsTrusted (addressOf N) (Trusted N.fromStr trustedIps) e) →
      x.extractRealIp N clientAddr headers = x.extractRealIp N clientAddr headers' := by
  obtain ⟨rfl, -⟩ := new_cases hnew
  have hiff : ∀ headers, ReturnsLast N trustedIps x clientAddr headers ↔
      ReadsRight N trustedIps (headers.getAll x.realIpHeader) := by
    intro headers
    obtain ⟨ip, hip, hanswer⟩ := exists_answer hnew hpeer headers
    have hsame := answer_iff (G := LastUntrusted (addressOf N) (Trusted N.fromStr trustedIps)
        (entries (headers.getAll x.realIpHeader))) (fun _ _ => LastForeign.unique)
      (fun _ _ => LastUntrusted.unique) (fun h => h.not_trusted hpeer)
      (fun h => h.not_trusted hpeer) hanswer
    rw [ReadsRight, ← partTells_iff entriesRead_prefix, ← hsame, ← stops_iff_answer]
    constructor
    · rintro ⟨q, hstops, hq⟩
      rwa [N.display_injective (hip.symm.trans hq)]
    · exact fun hstops => ⟨ip, hstops, hip⟩
  refine ⟨hiff, fun headers headers' left left' entry right h h' hl hl' hentry hright => ?_⟩
  rw [((hiff headers).2 h).eq_display hl hentry hright,
    ((hiff headers').2 h').eq_display hl' hentry hright]

/-- **One line with addresses only is read right.** -/
theorem readsRight_of_one (value : HeaderValue) (hvis : value.all isVisibleAscii)
    (haddr : ∀ e ∈ value.splitOn ',', (addressOf N e).isSome = true) :
    ReadsRight N trustedIps [value] := by
  refine (partTells_iff entriesRead_prefix).1 fun ip => ?_
  have hread : entriesRead [value] = value.splitOn ',' := if_pos hvis
  have hall : entries [value] = value.splitOn ',' := flatMap_singleton ..
  rw [hread, hall]
  exact lastForeign_iff_lastUntrusted fun e he => Option.isSome_iff_exists.1 (haddr e he)

/-! ## A trusted network -/

/-- The bits of an address as a text. -/
def bitText {w : ℕ} (addr : BitVec w) : List Char :=
  ofFn fun i : Fin w => if addr.getLsb i then '1' else '0'

theorem bitText_injective {w : ℕ} : Function.Injective (@bitText w) := by
  have hbit : ∀ p q : Bool, (if p then '1' else '0') = (if q then '1' else '0') → p = q := by decide
  intro a b h
  apply BitVec.eq_of_getLsbD_eq
  intro i hi
  exact hbit _ _ (congrFun (ofFn_injective h) ⟨i, hi⟩)

/-- A few addresses, each printed by its bits. -/
def sampleNet : Net where
  fromStr
    | "10.0.0.0" => .ok (.v4 0x0A000000)
    | "10.0.0.1" => .ok (.v4 0x0A000001)
    | "10.0.0.2" => .ok (.v4 0x0A000002)
    | "198.51.100.9" => .ok (.v4 0xC6336409)
    | "203.0.113.7" => .ok (.v4 0xCB007107)
    | _ => .error "invalid IP address syntax"
  socketIp
    | "10.0.0.1:4711" => some (.v4 0x0A000001)
    | _ => none
  display
    | .v4 addr => String.ofList ('4' :: bitText addr)
    | .v6 addr => String.ofList ('6' :: bitText addr)
  display_injective := by
    intro a b h
    cases a <;> cases b <;> simp [← String.toList_inj, bitText_injective.eq_iff] at h ⊢ <;> exact h

/-- The extractor that trusts `10.0.0.0/8`. -/
def sampleExtractor : RealIpExtractor where
  trustedProxyMatcher := some ⟨some ⟨[⟨1, 0, 0, 0⟩, ⟨2, 0, 0, 0⟩, ⟨3, 0, 0, 0⟩, ⟨4, 0, 0, 0⟩,
    ⟨0, 5, 0, 0⟩, ⟨6, 0, 0, 0⟩, ⟨0, 7, 0, 0⟩, ⟨8, 0, 0, 0⟩, ⟨0, 0, 8, 3⟩]⟩, none⟩
  realIpHeader := "X-Forwarded-For"

/-- A request's lines of the header. -/
def forwardedFor (lines : List String) : RequestHeader :=
  ⟨lines.map fun line => ("X-Forwarded-For", line.toList)⟩

theorem new_sample : new sampleNet.fromStr ["10.0.0.0/8"] "X-Forwarded-For" =
    .ok sampleExtractor := by decide +kernel

/-- A client's address behind two proxies, whatever the client wrote in front of it. -/
theorem extractRealIp_iff_sample :
    ReturnsLast sampleNet ["10.0.0.0/8"] sampleExtractor "10.0.0.1:4711"
      (forwardedFor ["198.51.100.9, 203.0.113.7, 10.0.0.2"]) := by
  have htrusted := (isTrustedProxy_iff new_sample
    (extractIpFromSocketAddr sampleNet "10.0.0.1:4711")).1 (by decide +kernel)
  refine ((extractRealIp_iff sampleNet new_sample htrusted).1 _).2 ?_
  exact readsRight_of_one "198.51.100.9, 203.0.113.7, 10.0.0.2".toList (by decide +kernel)
    (by decide +kernel)

/-- With the client's address `203.0.113.7` on a line of its own, and with an entry that is
no address right of what the client wrote, `198.51.100.9` is returned. -/
theorem not_returnsLast_sample :
    ¬ ReturnsLast sampleNet ["10.0.0.0/8"] sampleExtractor "10.0.0.1:4711"
        (forwardedFor ["198.51.100.9", "203.0.113.7"]) ∧
      ¬ ReturnsLast sampleNet ["10.0.0.0/8"] sampleExtractor "10.0.0.1:4711"
        (forwardedFor ["198.51.100.9, unknown"]) := by
  constructor
  · intro h
    have hentry : ¬ IsTrusted (addressOf sampleNet) (Trusted sampleNet.fromStr ["10.0.0.0/8"])
        "203.0.113.7".toList := by
      have haddress : addressOf sampleNet "203.0.113.7".toList = some (.v4 0xCB007107) := by
        decide +kernel
      rw [isTrusted_iff haddress, ← isTrustedProxy_iff new_sample]
      decide +kernel
    have hentries : entries ((forwardedFor ["198.51.100.9", "203.0.113.7"]).getAll "X-Forwarded-For") =
      ["198.51.100.9".toList] ++ "203.0.113.7".toList :: [] := by decide +kernel
    have heq := h.eq_display hentries hentry (by simp)
    revert heq
    decide +kernel
  · intro h
    have hentry : ¬ IsTrusted (addressOf sampleNet) (Trusted sampleNet.fromStr ["10.0.0.0/8"])
        " unknown".toList := by
      have haddress : addressOf sampleNet " unknown".toList = none := by decide +kernel
      rintro ⟨ip, hip, -⟩
      rw [haddress] at hip
      cases hip
    have hentries : entries ((forwardedFor ["198.51.100.9, unknown"]).getAll "X-Forwarded-For") =
      ["198.51.100.9".toList] ++ " unknown".toList :: [] := by decide +kernel
    have heq := h.eq_display hentries hentry (by simp)
    revert heq
    decide +kernel

end Edgion.IpRadix
