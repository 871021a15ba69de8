import Edgion.IpRadix.Lookup

/-!
# IP radix matcher — what a rule list means

A rule's text names a network: the addresses of its family that share the
first `n` bits with the address it writes. Among the rules whose network
holds an address the longest wins, and among rules of that length, which
are then rules for one and the same network, the last one written.
-/

namespace Edgion.IpRadix

open Common List

/-! ## Networks, as the text names them -/

/-- Two addresses of one family agree on their first `n` bits. -/
def SameNetwork (n : ℕ) : IpAddr → IpAddr → Prop
  | .v4 a, .v4 b => a >>> (32 - n) = b >>> (32 - n)
  | .v6 a, .v6 b => a >>> (128 - n) = b >>> (128 - n)
  | _, _ => False

/-- **A CIDR text covers an address with prefix length `n`.** The address
the text writes need not be the first of its network. -/
def Covers (fromStr : String → Except String IpAddr) (cidrStr : String) (n : ℕ)
    (ip : IpAddr) : Prop :=
  ∃ ipStr prefixStr a, splitSlash cidrStr = [ipStr, prefixStr] ∧
    parseU8 prefixStr = .ok n ∧ fromStr ipStr = .ok a ∧ SameNetwork n a ip

/-! ## Networks, as the trees keep them -/

variable {fromStr : String → Except String IpAddr}

/-- The bits a text writes in the IPv4 tree, where it is an IPv4 rule. -/
def net4 (fromStr : String → Except String IpAddr) (cidrStr : String) : Option (List Bool) :=
  match IpCidr.parse fromStr cidrStr with
  | .ok (.v4 addr n) => some (bitsFrom addr 0 n)
  | _ => none

/-- And in the IPv6 tree. -/
def net6 (fromStr : String → Except String IpAddr) (cidrStr : String) : Option (List Bool) :=
  match IpCidr.parse fromStr cidrStr with
  | .ok (.v6 addr n) => some (bitsFrom addr 0 n)
  | _ => none

/-- What a rule writes at the bit string `p`. -/
def writes (net : String → Option (List Bool)) (p : List Bool) (rule : String × Bool) :
    Option Bool :=
  if net rule.1 = some p then some rule.2 else none

variable {n w : ℕ}

/-- The bits of a network that lie in a prefix of length `n`. -/
theorem bitsFrom_normalize (a : BitVec w) : bitsFrom (normalize a n) 0 n = bitsFrom a 0 n := by
  rw [bitsFrom, bitsFrom, map_inj_left]
  intro i hi
  exact getMsbD_normalize a (by simpa using hi)

variable {cidr : IpCidr} {cidrStr : String}

/-- What an accepted text is made of. -/
theorem parse_ok (h : IpCidr.parse fromStr cidrStr = .ok cidr) :
    ∃ ipStr prefixStr n, splitSlash cidrStr = [ipStr, prefixStr] ∧ parseU8 prefixStr = .ok n ∧
      ((∃ a, fromStr ipStr = .ok (.v4 a) ∧ n ≤ 32 ∧ cidr = .v4 (normalize a n) n) ∨
        (∃ a, fromStr ipStr = .ok (.v6 a) ∧ n ≤ 128 ∧ cidr = .v6 (normalize a n) n)) := by
  rw [IpCidr.parse] at h
  split at h
  · rename_i ipStr prefixStr hsplit
    split at h
    · cases h
    rename_i n hn
    refine ⟨ipStr, prefixStr, n, hsplit, hn, ?_⟩
    split at h
    · cases h
    · rename_i a ha
      split at h
      · cases h
      · rename_i hle
        cases h
        exact .inl ⟨a, ha, by omega, rfl⟩
    · rename_i a ha
      split at h
      · cases h
      · rename_i hle
        cases h
        exact .inr ⟨a, ha, by omega, rfl⟩
  · cases h

section Family

variable {w : ℕ} {mk : BitVec w → IpAddr} {net : String → Option (List Bool)}
variable {cidrStr ipStr prefixStr : String} {m n : ℕ} {ip : BitVec w} {a : IpAddr}

variable (hsplit : splitSlash cidrStr = [ipStr, prefixStr]) (hm : parseU8 prefixStr = .ok m)

include hsplit hm

/-- What a text covers is decided by the two parts it splits into. -/
theorem covers_iff_of_split (ha : fromStr ipStr = .ok a) {ip : IpAddr} :
    Covers fromStr cidrStr n ip ↔ n = m ∧ SameNetwork m a ip := by
  constructor
  · rintro ⟨ipStr', prefixStr', a', hs, hp, ha', hnet⟩
    rw [hsplit] at hs
    cases hs
    rw [hm] at hp
    cases hp
    rw [ha] at ha'
    cases ha'
    exact ⟨rfl, hnet⟩
  · rintro ⟨rfl, hnet⟩
    exact ⟨ipStr, prefixStr, a, hsplit, hm, ha, hnet⟩

/-- **A text of the family covers an address exactly when it writes a
prefix of the address's bits in the family's tree.** -/
theorem covers_iff_of_family {a : BitVec w} (ha : fromStr ipStr = .ok (mk a))
    (hsame : SameNetwork m (mk a) (mk ip) ↔ a >>> (w - m) = ip >>> (w - m)) (hle : m ≤ w)
    (hnet : net cidrStr = some (bitsFrom a 0 m)) :
    Covers fromStr cidrStr n (mk ip) ↔
      ∃ p, net cidrStr = some p ∧ p.length = n ∧ p <+: bitsFrom ip 0 w := by
  rw [covers_iff_of_split hsplit hm ha, hsame, ← bitsFrom_prefix_iff a ip hle]
  constructor
  · rintro ⟨rfl, hpre⟩
    exact ⟨_, hnet, by simp, hpre⟩
  · rintro ⟨p, hp, hlen, hpre⟩
    rw [hnet] at hp
    cases hp
    rw [length_bitsFrom] at hlen
    exact ⟨hlen.symm, hpre⟩

/-- A text of the other family covers nothing here and writes nothing. -/
theorem covers_iff_of_other (ha : fromStr ipStr = .ok a)
    (hother : ¬ SameNetwork m a (mk ip)) (hnet : net cidrStr = none) :
    Covers fromStr cidrStr n (mk ip) ↔
      ∃ p, net cidrStr = some p ∧ p.length = n ∧ p <+: bitsFrom ip 0 w := by
  rw [covers_iff_of_split hsplit hm ha, hnet]
  simp [hother]

end Family

/-! ## A run of inserts -/

/-- A family's builder holds what a rule list wrote: every entry the last
value written there, and an empty tree where no rule was counted. -/
structure Holds (net : String → Option (List Bool)) (rules : List (String × Bool))
    (b : RadixBuilder) : Prop where
  root_ne_absent : b.root ≠ .absent
  root_of_isEmpty : b.isEmpty = true → b.root = .new
  entry_eq : ∀ p, b.root.entry p = lastWrite (writes net p) rules

open RadixBuilder

theorem holds_new (net : String → Option (List Bool)) : Holds net [] .new where
  root_ne_absent := by simp [new, BuildNode.new]
  root_of_isEmpty := fun _ => rfl
  entry_eq p := by simp [new]

variable {net : String → Option (List Bool)} {rule : String × Bool} {rules : List (String × Bool)}
variable {b : IpRadixMatcherBuilder}

/-- **One more rule of the family.** -/
theorem Holds.addRule {b : RadixBuilder} (hb : Holds net rules b) {addr : BitVec w} (hn : n ≤ w)
    (hnet : net rule.1 = some (bitsFrom addr 0 n)) :
    Holds net (rules ++ [rule]) (b.addRule addr n rule.2) where
  root_ne_absent := insertHelper_ne_absent _ _ _ _ hb.root_ne_absent
  root_of_isEmpty h := by simp [RadixBuilder.addRule, RadixBuilder.isEmpty] at h
  entry_eq p := by
    rw [lastWrite_concat, ← hb.entry_eq, RadixBuilder.addRule]
    rw [entry_insertHelper addr rule.2 hn n b.root le_rfl hb.root_ne_absent, Nat.sub_self,
      writes, hnet]
    by_cases hp : p = bitsFrom addr 0 n
    · simp [hp]
    · simp [hp, Ne.symm hp]

/-- A rule of the other family changes nothing. -/
theorem Holds.skip {b : RadixBuilder} (hb : Holds net rules b)
    (hnet : net rule.1 = none) : Holds net (rules ++ [rule]) b where
  root_ne_absent := hb.root_ne_absent
  root_of_isEmpty := hb.root_of_isEmpty
  entry_eq p := by rw [lastWrite_concat, ← hb.entry_eq, writes, hnet]; simp

/-- Both families' builders hold the rules accepted so far. -/
structure Built (fromStr : String → Except String IpAddr) (rules : List (String × Bool))
    (b : IpRadixMatcherBuilder) : Prop where
  v4 : Holds (net4 fromStr) rules b.v4Builder
  v6 : Holds (net6 fromStr) rules b.v6Builder
  accepted : ∀ rule ∈ rules, ∃ cidr, IpCidr.parse fromStr rule.1 = .ok cidr

/-- **An accepted insert adds its rule.** -/
theorem Built.insert {b' : IpRadixMatcherBuilder} (hb : Built fromStr rules b)
    (h : b.insert fromStr rule.1 rule.2 = .ok b') : Built fromStr (rules ++ [rule]) b' := by
  have hacc {cidr : IpCidr} (hparse : IpCidr.parse fromStr rule.1 = .ok cidr) :
      ∀ r ∈ rules ++ [rule], ∃ cidr, IpCidr.parse fromStr r.1 = .ok cidr := by
    intro r hr
    rcases mem_append.1 hr with hr | hr
    · exact hb.accepted r hr
    · rw [mem_singleton.1 hr]
      exact ⟨cidr, hparse⟩
  rw [IpRadixMatcherBuilder.insert] at h
  split at h
  · cases h
  · rename_i addr n hparse
    have hn : n ≤ 32 := by
      obtain ⟨-, -, m, -, -, ⟨a, -, hle, heq⟩ | ⟨a, -, -, heq⟩⟩ := parse_ok hparse
      · cases heq; exact hle
      · cases heq
    simp only [IpV4RadixBuilder.insert, hparse, Except.ok.injEq] at h
    subst h
    exact ⟨hb.v4.addRule hn (by simp [net4, hparse]), hb.v6.skip (by simp [net6, hparse]),
      hacc hparse⟩
  · rename_i addr n hparse
    have hn : n ≤ 128 := by
      obtain ⟨-, -, m, -, -, ⟨a, -, -, heq⟩ | ⟨a, -, hle, heq⟩⟩ := parse_ok hparse
      · cases heq
      · cases heq; exact hle
    simp only [IpV6RadixBuilder.insert, hparse, Except.ok.injEq] at h
    subst h
    exact ⟨hb.v4.skip (by simp [net4, hparse]), hb.v6.addRule hn (by simp [net6, hparse]),
      hacc hparse⟩

/-- **A run of accepted inserts adds its rules.** -/
theorem Built.insertAll :
    ∀ {done : List (String × Bool)} {b b' : IpRadixMatcherBuilder}, Built fromStr done b →
      IpRadixMatcherBuilder.insertAll fromStr rules b = .ok b' →
      Built fromStr (done ++ rules) b' := by
  induction rules with
  | nil =>
    intro done b b' hb h
    cases h
    simpa using hb
  | cons rule rules ih =>
    intro done b b' hb h
    rw [IpRadixMatcherBuilder.insertAll] at h
    split at h
    · cases h
    rename_i b1 hins
    simpa using ih (hb.insert hins) h

/-! ## Lookup in a family -/

/-- **A family answers with the longest prefix its rules wrote**, whether
or not it has a tree at all. -/
theorem matchFamily {b : RadixBuilder} (hb : Holds net rules b) {t : Option FrozenTree}
    (h : b.freezeIfAny = .ok t) (ip : BitVec w) :
    matchTree t ip =
      some (longestMatch (fun p => lastWrite (writes net p) rules) (bitsFrom ip 0 w)) := by
  have hentry : b.root.entry = fun p => lastWrite (writes net p) rules := funext hb.entry_eq
  rw [← hentry]
  rw [freezeIfAny] at h
  split at h
  · split at h
    · cases h
    rename_i tree hfreeze
    cases h
    exact matchIp_freeze ip hb.root_ne_absent hfreeze
  · rename_i hempty
    cases h
    have hnone : longestMatch b.root.entry (bitsFrom ip 0 w) = none :=
      longestMatch_eq_none_iff.2 fun p _ => by
        rw [hb.root_of_isEmpty (by simpa using hempty)]
        simp
    rw [hnone, matchTree]

section Selection

variable {net : String → Option (List Bool)} {rules : List (String × Bool)} {bits : List Bool}
variable (covers : String → ℕ → Prop) (hcov : ∀ rule ∈ rules, ∀ n, covers rule.1 n ↔
  ∃ p, net rule.1 = some p ∧ p.length = n ∧ p <+: bits)

include hcov

/-- **Longest prefix, last write**, read off the rule list: `covers` is
what a rule's text means at the address with these bits. -/
theorem longestMatch_writes_eq_some_iff {v : Bool} :
    longestMatch (fun p => lastWrite (writes net p) rules) bits = some v ↔
      ∃ (i : ℕ) (s : String) (n : ℕ), rules[i]? = some (s, v) ∧ covers s n ∧
        ∀ (j : ℕ) (s' : String) (v' : Bool) (n' : ℕ), rules[j]? = some (s', v') → covers s' n' →
          n' < n ∨ n' = n ∧ j ≤ i := by
  have hmem : ∀ {i : ℕ} {rule : String × Bool}, rules[i]? = some rule → rule ∈ rules :=
    fun h => mem_of_getElem? h
  rw [longestMatch_eq_some_iff]
  constructor
  · rintro ⟨p, hp, hlast, hlong⟩
    obtain ⟨i, ⟨s, u⟩, hi, hw, hlater⟩ := lastWrite_eq_some_iff.1 hlast
    simp only [writes] at hw
    split at hw
    · rename_i hnet
      cases hw
      refine ⟨i, s, p.length, hi, (hcov _ (hmem hi) _).2 ⟨p, hnet, rfl, hp⟩, ?_⟩
      intro j s' v' n' hj hc
      obtain ⟨q, hq, rfl, hqp⟩ := (hcov _ (hmem hj) _).1 hc
      rcases Nat.lt_trichotomy q.length p.length with hlt | heq | hgt
      · exact .inl hlt
      · -- two prefixes of one length are one and the same
        refine .inr ⟨heq, ?_⟩
        have hqe : q = p := (prefix_of_prefix_length_le hqp hp (by omega)).eq_of_length heq
        by_contra hji
        have hnone := hlater j (s', v') (by omega) hj
        simp [writes, hq, hqe] at hnone
      · have hnone := lastWrite_eq_none_iff.1 (hlong q hqp hgt) (s', v') (hmem hj)
        simp [writes, hq] at hnone
    · cases hw
  · rintro ⟨i, s, n, hi, hc, hbest⟩
    obtain ⟨p, hnet, rfl, hp⟩ := (hcov _ (hmem hi) _).1 hc
    refine ⟨p, hp, lastWrite_eq_some_iff.2 ⟨i, (s, v), hi, by simp [writes, hnet], ?_⟩, ?_⟩
    · rintro j ⟨s', v'⟩ hij hj
      simp only [writes]
      split
      · rename_i hq
        have := hbest j s' v' p.length hj ((hcov _ (hmem hj) _).2 ⟨p, hq, rfl, hp⟩)
        omega
      · rfl
    · intro q hqp hlt
      refine lastWrite_eq_none_iff.2 ?_
      rintro ⟨s', v'⟩ hr
      obtain ⟨j, hj, hget⟩ := getElem_of_mem hr
      have hj' : rules[j]? = some (s', v') := by rw [getElem?_eq_getElem hj, hget]
      simp only [writes]
      split
      · rename_i hq
        have := hbest j s' v' q.length hj' ((hcov _ hr _).2 ⟨q, hq, rfl, hqp⟩)
        omega
      · rfl

/-- And nothing is found exactly when no rule covers the address. -/
theorem longestMatch_writes_eq_none_iff :
    longestMatch (fun p => lastWrite (writes net p) rules) bits = none ↔
      ∀ rule ∈ rules, ∀ n, ¬ covers rule.1 n := by
  rw [longestMatch_eq_none_iff]
  constructor
  · intro h rule hr n hc
    obtain ⟨p, hnet, -, hp⟩ := (hcov _ hr _).1 hc
    have hnone := lastWrite_eq_none_iff.1 (h p hp) rule hr
    simp [writes, hnet] at hnone
  · intro h p hp
    refine lastWrite_eq_none_iff.2 fun rule hr => ?_
    simp only [writes]
    split
    · rename_i hnet
      exact absurd ((hcov _ hr _).2 ⟨p, hnet, rfl, hp⟩) (h rule hr _)
    · rfl

end Selection

/-! ## The matcher -/

variable {m : IpRadixMatcher}

open IpRadixMatcherBuilder

/-- What the built matcher answers, family by family. -/
theorem matchIp_build (hb : Built fromStr rules b) (hm : b.build = .ok m) :
    (∀ ip, m.matchIp (.v4 ip) =
      some (longestMatch (fun p => lastWrite (writes (net4 fromStr) p) rules) (bitsFrom ip 0 32))) ∧
    (∀ ip, m.matchIp (.v6 ip) =
      some (longestMatch (fun p => lastWrite (writes (net6 fromStr) p) rules)
        (bitsFrom ip 0 128))) := by
  rw [build] at hm
  split at hm
  · cases hm
  split at hm
  · cases hm
  rename_i t4 h4
  split at hm
  · cases hm
  rename_i t6 h6
  cases hm
  exact ⟨fun ip => matchFamily hb.v4 h4 ip, fun ip => matchFamily hb.v6 h6 ip⟩

/-- The rules that cover an IPv4 address. -/
theorem Built.covers_v4 (hb : Built fromStr rules b) (ip : BitVec 32) :
    ∀ rule ∈ rules, ∀ n, Covers fromStr rule.1 n (.v4 ip) ↔
      ∃ p, net4 fromStr rule.1 = some p ∧ p.length = n ∧ p <+: bitsFrom ip 0 32 := by
  intro rule hr n
  obtain ⟨cidr, h⟩ := hb.accepted rule hr
  obtain ⟨_, _, m, hsplit, hm, ⟨a, ha, hle, rfl⟩ | ⟨a, ha, hle, rfl⟩⟩ := parse_ok h
  · exact covers_iff_of_family hsplit hm ha Iff.rfl hle (by simp [net4, h, bitsFrom_normalize])
  · exact covers_iff_of_other hsplit hm ha (by simp [SameNetwork]) (by simp [net4, h])

theorem Built.covers_v6 (hb : Built fromStr rules b) (ip : BitVec 128) :
    ∀ rule ∈ rules, ∀ n, Covers fromStr rule.1 n (.v6 ip) ↔
      ∃ p, net6 fromStr rule.1 = some p ∧ p.length = n ∧ p <+: bitsFrom ip 0 128 := by
  intro rule hr n
  obtain ⟨cidr, h⟩ := hb.accepted rule hr
  obtain ⟨_, _, m, hsplit, hm, ⟨a, ha, hle, rfl⟩ | ⟨a, ha, hle, rfl⟩⟩ := parse_ok h
  · exact covers_iff_of_other hsplit hm ha (by simp [SameNetwork]) (by simp [net6, h])
  · exact covers_iff_of_family hsplit hm ha Iff.rfl hle (by simp [net6, h, bitsFrom_normalize])

/-- **What a built matcher answers**, in either family. -/
theorem Built.matchIp (hb : Built fromStr rules b) (hm : b.build = .ok m) (ip : IpAddr) :
    ∃ net bits, m.matchIp ip = some (longestMatch (fun p => lastWrite (writes net p) rules) bits) ∧
      ∀ rule ∈ rules, ∀ n, Covers fromStr rule.1 n ip ↔
        ∃ p, net rule.1 = some p ∧ p.length = n ∧ p <+: bits := by
  obtain ⟨h4, h6⟩ := matchIp_build hb hm
  cases ip with
  | v4 ip => exact ⟨_, _, h4 ip, hb.covers_v4 ip⟩
  | v6 ip => exact ⟨_, _, h6 ip, hb.covers_v6 ip⟩

theorem built_new : Built fromStr [] new where
  v4 := holds_new _
  v6 := holds_new _
  accepted := by simp

/-- **`match_ip` is longest-prefix match.** For every list of accepted
rules and every address of either family, the lookup returns without
running off the array. It finds a value exactly when some rule covers the
address, and then the value of the longest such rule, the last one
written where a network was written more than once. -/
theorem matchIp_longest_prefix (fromStr : String → Except String IpAddr)
    (rules : List (String × Bool)) (b : IpRadixMatcherBuilder) (m : IpRadixMatcher)
    (hins : insertAll fromStr rules .new = .ok b)
    (hbuild : b.build = .ok m) (ip : IpAddr) :
    ∃ r, m.matchIp ip = some r ∧ (∀ v, r = some v ↔
        ∃ (i : ℕ) (s : String) (n : ℕ), rules[i]? = some (s, v) ∧ Covers fromStr s n ip ∧
          ∀ (j : ℕ) (s' : String) (v' : Bool) (n' : ℕ), rules[j]? = some (s', v') →
            Covers fromStr s' n' ip → n' < n ∨ n' = n ∧ j ≤ i) ∧
      (r = none ↔ ∀ rule ∈ rules, ∀ n, ¬ Covers fromStr rule.1 n ip) := by
  have hb : Built fromStr rules b := by simpa using built_new.insertAll hins
  obtain ⟨net, bits, hr, hcov⟩ := hb.matchIp hbuild ip
  exact ⟨_, hr, fun v => longestMatch_writes_eq_some_iff (Covers fromStr · · ip) hcov,
    longestMatch_writes_eq_none_iff (Covers fromStr · · ip) hcov⟩

/-- The addresses the rules below write. -/
def sampleFromStr : String → Except String IpAddr
  | "128.0.0.0" => .ok (.v4 0x80000000)
  | "192.168.0.1" => .ok (.v4 0xC0A80001)
  | _ => .error "invalid IP address syntax"

/-- One network inside another, the inner one written twice. -/
def sampleRules : List (String × Bool) :=
  [("128.0.0.0/1", true), ("192.168.0.1/2", true), ("192.168.0.1/2", false)]

/-- What the rules build. -/
def sampleBuilder : IpRadixMatcherBuilder where
  v4Builder :=
    ⟨.node .absent (.node .absent (.node .absent .absent (some false) 2) (some true) 1) none 0, 3⟩
  v6Builder := .new

/-- And what is frozen from it. -/
def sampleMatcher : IpRadixMatcher where
  ipv4Tree := some ⟨[⟨0, 1, 0, 0⟩, ⟨0, 2, 1, 3⟩, ⟨0, 0, 2, 1⟩]⟩
  ipv6Tree := none

/-- The last value written for `192.168.0.1/2` answers for `200.0.0.1`. -/
theorem matchIp_longest_prefix_sample :
    insertAll sampleFromStr sampleRules .new = .ok sampleBuilder ∧
      sampleBuilder.build = .ok sampleMatcher ∧
      sampleMatcher.matchIp (.v4 0xC8000001) = some (some false) := by
  have hins : insertAll sampleFromStr sampleRules .new = .ok sampleBuilder := by decide
  have hbuild : sampleBuilder.build = .ok sampleMatcher := by decide
  refine ⟨hins, hbuild, ?_⟩
  obtain ⟨r, hr, hsome, -⟩ := matchIp_longest_prefix sampleFromStr sampleRules sampleBuilder
    sampleMatcher hins hbuild (.v4 0xC8000001)
  have hone : ∀ {n : ℕ}, Covers sampleFromStr "128.0.0.0/1" n (.v4 0xC8000001) → n = 1 :=
    fun h => ((covers_iff_of_split (a := .v4 0x80000000)
      (show splitSlash "128.0.0.0/1" = ["128.0.0.0", "1"] by decide) (by decide)
      (by decide)).1 h).1
  have htwo : ∀ {n : ℕ}, Covers sampleFromStr "192.168.0.1/2" n (.v4 0xC8000001) ↔
      n = 2 ∧ SameNetwork 2 (.v4 0xC0A80001) (.v4 0xC8000001) :=
    covers_iff_of_split (show splitSlash "192.168.0.1/2" = ["192.168.0.1", "2"] by decide)
      (by decide) (by decide)
  rw [hr, (hsome false).2 ⟨2, "192.168.0.1/2", 2, by decide, htwo.2 ⟨rfl, ?_⟩, ?_⟩]
  · show (0xC0A80001 : BitVec 32) >>> (32 - 2) = 0xC8000001 >>> (32 - 2)
    decide
  · intro j s' v' n' hj hc
    match j with
    | 0 =>
      cases hj
      have := hone hc
      omega
    | 1 =>
      cases hj
      have := (htwo.1 hc).1
      omega
    | 2 =>
      cases hj
      have := (htwo.1 hc).1
      omega
    | j + 3 => simp [sampleRules] at hj

end Edgion.IpRadix
