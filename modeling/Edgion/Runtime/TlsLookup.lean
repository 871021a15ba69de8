import Edgion.Runtime.Tls
import Mathlib.Algebra.Order.BigOperators.Group.List
import Mathlib.Algebra.Order.Group.Nat

/-!
# Gateway runtime — which TLS entry answers a handshake

The entry that should answer is that of the most specific hostname among
those matching the name. Registration does not keep to this. It goes
through `get_mut`, which looks names up as a handshake does, so a plain
name that arrives after a wildcard above it is put in with the wildcard;
a wildcard that arrives again replaces the one before; and the lookup
takes any end of the name that has the length of some wildcard key.
-/

namespace Edgion.Runtime

open Text Hostname HostMatch HashHost List Option

universe u

variable {Secret : Type u} {es : List (GatewayTlsEntry Secret)} {e : GatewayTlsEntry Secret}
  {h : HashHost (List (GatewayTlsEntry Secret))}

/-! ## What registration leaves in the map -/

/-- **What holds of a matcher after any entries.** Each key was made by an
entry that still heads its list; what was put in behind it came through
`get_mut`; wildcards are always there, and the lengths are theirs. -/
structure Registered (es : List (GatewayTlsEntry Secret))
    (h : HashHost (List (GatewayTlsEntry Secret))) : Prop where
  key : ∀ k v, h.map k = some v → ∃ e ∈ es, v.head? = some e ∧ hostKey e.hostname = some k
  pushed : ∀ k v, h.map k = some v → ∀ x ∈ v.tail, isValidDomain x.hostname = true
  wildcard : ∀ e ∈ es, IsWildcard e.hostname → ∀ k, hostKey e.hostname = some k → (h.map k).isSome
  lens : ∀ n, n ∈ h.wildcardKeyLens ↔
    ∃ e ∈ es, IsWildcard e.hostname ∧ ∃ k, hostKey e.hostname = some k ∧ len k = n

variable {key x : String} {w : GatewayTlsEntry Secret} {k : String}

/-- An entry whose name is looked up is not a wildcard. -/
theorem isValidDomain_of_getMut {T : Type*} {h : HashHost T}
    (hk : h.getMut k = some key) : isValidDomain k = true := by
  unfold getMut at hk
  by_contra hv
  simp [hv] at hk

section

variable (H : Registered es h)

include H

/-- **One more entry**: a key is made of it, or it is put in behind a head. -/
theorem Registered.extend {h' : HashHost (List (GatewayTlsEntry Secret))}
    (hmap : ∀ k v, h'.map k = some v → (v = [e] ∧ hostKey e.hostname = some k) ∨
      ∃ v0, h.map k = some v0 ∧ (v = v0 ∨ v = v0 ++ [e] ∧ isValidDomain e.hostname = true))
    (hstay : ∀ k, (h.map k).isSome → (h'.map k).isSome)
    (hnew : IsWildcard e.hostname → ∀ k, hostKey e.hostname = some k → (h'.map k).isSome)
    (hlens : ∀ n, n ∈ h'.wildcardKeyLens ↔ n ∈ h.wildcardKeyLens ∨
      IsWildcard e.hostname ∧ ∃ k, hostKey e.hostname = some k ∧ len k = n) :
    Registered (es ++ [e]) h' := by
  constructor
  · intro k v hv
    obtain ⟨rfl, hkey⟩ | ⟨v0, hv0, hcases⟩ := hmap k v hv
    · exact ⟨e, by simp, rfl, hkey⟩
    · obtain ⟨e0, he0, hhead, hkey⟩ := H.key k v0 hv0
      refine ⟨e0, mem_append_left _ he0, ?_, hkey⟩
      obtain rfl | ⟨rfl, -⟩ := hcases
      · exact hhead
      · rw [head?_append, hhead]
        rfl
  · intro k v hv x hx
    obtain ⟨rfl, -⟩ | ⟨v0, hv0, rfl | ⟨rfl, hvalid⟩⟩ := hmap k v hv
    · cases hx
    · exact H.pushed k v hv0 x hx
    · obtain ⟨e0, -, hhead, -⟩ := H.key k v0 hv0
      obtain ⟨rest, rfl⟩ := head?_eq_some_iff.1 hhead
      rw [cons_append, tail_cons, mem_append, mem_singleton] at hx
      obtain hx | rfl := hx
      · exact H.pushed k _ hv0 x hx
      · exact hvalid
  · intro w hw hwild k hk
    rw [mem_append, mem_singleton] at hw
    obtain hw | rfl := hw
    · exact hstay k (H.wildcard w hw hwild k hk)
    · exact hnew hwild k hk
  · intro n
    rw [hlens, H.lens]
    simp only [mem_append, mem_singleton, or_and_right, exists_or, exists_eq_left]

/-- The step of an entry that `get_mut` finds a place for. -/
theorem Registered.push (hget : h.getMut e.hostname = some key) :
    Registered (es ++ [e]) (h.modify key (· ++ [e])) := by
  have hvalid := isValidDomain_of_getMut hget
  have hplain := not_isWildcard_of_valid hvalid
  refine H.extend (fun k v hv => .inr ?_) (fun k hk => by rwa [isSome_modify])
    (fun hw => absurd hw hplain) fun n => by simp [hplain]
  by_cases hk : k = key
  · subst hk
    obtain ⟨v0, hv0, rfl⟩ := map_eq_some_iff.1 ((modify_self h k _).symm.trans hv)
    exact ⟨v0, hv0, .inr ⟨rfl, hvalid⟩⟩
  · rw [modify_of_ne h hk] at hv
    exact ⟨v, hv, .inl rfl⟩

/-- The step of an entry that is inserted. -/
theorem Registered.insertKey
    (hkey : hostKey e.hostname = some key) : Registered (es ++ [e]) (h.insertKey key [e]) := by
  refine H.extend (fun k v hv => ?_) (fun k hk => ?_) (fun _ k hk => ?_) fun n => ?_
  · by_cases hk : k = key
    · subst hk
      rw [insertKey_self, some.injEq] at hv
      exact .inl ⟨hv.symm, hkey⟩
    · rw [insertKey_of_ne h hk] at hv
      exact .inr ⟨v, hv, .inl rfl⟩
  · by_cases hkk : k = key
    · simp [hkk]
    · rwa [insertKey_of_ne h hkk]
  · obtain rfl := some.inj (hk.symm.trans hkey)
    simp
  · rw [mem_insertKey_wildcardKeyLens, startsWith_hostKey_iff hkey]
    simp [hkey]

/-- The step of an entry whose hostname is refused. -/
theorem Registered.refuse (hkey : hostKey e.hostname = none) : Registered (es ++ [e]) h :=
  H.extend (fun _ v hv => .inr ⟨v, hv, .inl rfl⟩) (fun _ => id) (by simp [hkey]) (by simp [hkey])

/-- One entry. -/
theorem Registered.step (e : GatewayTlsEntry Secret) :
    Registered (es ++ [e]) (registerEntry h e) := by
  unfold registerEntry
  cases hget : h.getMut e.hostname with
  | some key => exact H.push hget
  | none =>
    cases hkey : hostKey e.hostname with
    | some key =>
      simp only [insert_of_hostKey h hkey]
      exact H.insertKey hkey
    | none =>
      simp only [insert_of_not_hostKey h hkey]
      exact H.refuse hkey

omit H in
/-- **Any entries.** -/
theorem registered (es : List (GatewayTlsEntry Secret)) : Registered es (register es) := by
  induction es using reverseRecOn with
  | nil => exact ⟨by simp [register], by simp [register], by simp [register], by simp [register]⟩
  | append_singleton es e ih =>
    rw [register, foldl_concat]
    exact ih.step e

/-- **A probe was made by an entry**, and some wildcard has the length. -/
theorem Registered.probe {s : String} (hp : h.Probe x s) : ∃ e ∈ es, hostKey e.hostname = some s ∧
      ∃ w ∈ es, IsWildcard w.hostname ∧ len w.hostname = len s + 1 := by
  obtain ⟨v, hv⟩ := isSome_iff_exists.1 hp.stored
  obtain ⟨e, he, -, hkey⟩ := H.key s v hv
  obtain ⟨w, hw, hwild, k, hk, hlen⟩ := (H.lens _).1 hp.tracked
  refine ⟨e, he, hkey, w, hw, hwild, ?_⟩
  rw [len_of_wildcard hwild hk, ← len_hostKey hk, hlen, len_hostKey hkey]

/-- A wildcard that covers a name is a probe of it. -/
theorem Registered.probe_of_over (hw : w ∈ es)
    {k : String} (hkey : hostKey w.hostname = some k) (hover : Over w.hostname x) :
    h.Probe x k := by
  obtain ⟨hsuf, hlt⟩ := (over_iff_hostKey hover.isWildcard hkey).1 hover
  refine ⟨H.wildcard w hw hover.isWildcard k hkey, hsuf, hlt, ?_⟩
  exact (H.lens _).2 ⟨w, hw, hover.isWildcard, k, hkey, len_hostKey hkey⟩

end

/-! ## The entry that should answer -/

/-- **A hostname matches a server name**: the name itself, or a wildcard
above it. A text that is not a domain name is no server name. -/
def MatchesSni (hostname sni : String) : Prop :=
  IsDomainName sni ∧ (hostname = sni ∨ Over hostname sni)

/-- **The right answer**: an entry of the most specific matching hostname,
or nothing when none matches. -/
def Chosen (es : List (GatewayTlsEntry Secret)) (sni : String) :
    Option (GatewayTlsEntry Secret) → Prop
  | none => ∀ e ∈ es, ¬ MatchesSni e.hostname sni
  | some e => e ∈ es ∧ MatchesSni e.hostname sni ∧
      ∀ e' ∈ es, MatchesSni e'.hostname sni →
        specificity (some e'.hostname) ≤ specificity (some e.hostname)

/-- **Hostnames that registration keeps apart**: each is taken by the
matcher; no plain one lies under a wildcard; no plain one has the length of
a wildcard's key; and no wildcard is there twice. -/
structure Separated (es : List (GatewayTlsEntry Secret)) : Prop where
  valid : ∀ e ∈ es, (hostKey e.hostname).isSome
  uncovered : ∀ e ∈ es, ¬ IsWildcard e.hostname → ∀ w ∈ es, ¬ Over w.hostname e.hostname
  lengths : ∀ e ∈ es, ¬ IsWildcard e.hostname → ∀ w ∈ es, IsWildcard w.hostname →
    len w.hostname ≠ len e.hostname + 1
  single : ∀ w ∈ es, IsWildcard w.hostname → ∀ w' ∈ es, w.hostname = w'.hostname → w = w'

variable {es' : List (GatewayTlsEntry Secret)}

theorem Separated.mono (hsub : ∀ e ∈ es', e ∈ es) (H : Separated es) : Separated es' where
  valid e he := H.valid e (hsub e he)
  uncovered e he hp w hw := H.uncovered e (hsub e he) hp w (hsub w hw)
  lengths e he hp w hw := H.lengths e (hsub e he) hp w (hsub w hw)
  single w hw hwild w' hw' := H.single w (hsub w hw) hwild w' (hsub w' hw')

/-- Among separated hostnames only wildcards above a name are probes of it. -/
theorem Separated.over_of_probe (H : Separated es) {s : String} (hp : (register es).Probe x s) :
    ∃ e ∈ es, hostKey e.hostname = some s ∧ Over e.hostname x := by
  obtain ⟨e, he, hkey, w, hw, hwild, hlen⟩ := (registered es).probe hp
  refine ⟨e, he, hkey, ?_⟩
  by_cases hplain : IsWildcard e.hostname
  · exact (over_iff_hostKey hplain hkey).2 ⟨hp.suffix, hp.shorter⟩
  · obtain ⟨-, rfl⟩ := (hostKey_of_plain hplain).1 hkey
    exact absurd hlen (H.lengths e he hplain w hw hwild)

/-- A separated name finds no place but its own. -/
theorem Separated.getMut_eq_self (H : Separated (es ++ [e]))
    (hget : (register es).getMut e.hostname = some key) : key = e.hostname := by
  have hvalid := isValidDomain_of_getMut hget
  cases hm : (register es).map e.hostname with
  | some v =>
    rw [getMut_of_key hvalid (by rw [hm]; rfl)] at hget
    exact (some.inj hget).symm
  | none =>
    obtain ⟨hp, -⟩ := (getMut_eq_some_iff hvalid hm).1 hget
    have Hes : Separated es := H.mono fun x hx => mem_append_left _ hx
    obtain ⟨w, hw, -, hover⟩ := Hes.over_of_probe hp
    exact absurd hover (H.uncovered e (by simp) (not_isWildcard_of_valid hvalid) w
      (mem_append_left _ hw))

/-- **The list of a plain name holds the entries with that hostname, in the
order of the walk.** -/
theorem Separated.map_plain (H : Separated es) (hx : isValidDomain x) :
    (register es).map x = if es.filter (fun e => e.hostname == x) = [] then none
      else some (es.filter fun e => e.hostname == x) := by
  induction es using reverseRecOn with
  | nil => rfl
  | append_singleton es e ih =>
    have Hes : Separated es := H.mono fun y hy => mem_append_left _ hy
    rw [register, foldl_concat, ← register, filter_append]
    obtain ⟨k, hk⟩ := isSome_iff_exists.1 (H.valid e (by simp))
    by_cases hxe : x = e.hostname
    · subst hxe
      have hone : [e].filter (fun e' => e'.hostname == e.hostname) = [e] := by simp
      have hne : es.filter (fun e' => e'.hostname == e.hostname) ++ [e] ≠ [] := by simp
      rw [hone, if_neg hne, registerEntry]
      cases hget : (register es).getMut e.hostname with
      | some key =>
        obtain rfl := H.getMut_eq_self hget
        have hstored : ((register es).map e.hostname).isSome := by
          by_contra hnone
          rw [Bool.not_eq_true, isSome_eq_false_iff, isNone_iff_eq_none] at hnone
          obtain ⟨hp, -⟩ := (getMut_eq_some_iff hx hnone).1 hget
          exact absurd hp.shorter (Nat.lt_irrefl _)
        rw [ih Hes] at hstored
        rw [modify_self, ih Hes]
        by_cases hnil : es.filter (fun e' => e'.hostname == e.hostname) = []
        · simp [hnil] at hstored
        · rw [if_neg hnil]
          rfl
      | none =>
        rw [insert_of_hostKey _ (hostKey_self_iff.2 hx), insertKey_self]
        have hnone := ((getMut_eq_none_iff hx).1 hget).1
        rw [ih Hes] at hnone
        by_cases hnil : es.filter (fun e' => e'.hostname == e.hostname) = []
        · rw [hnil]
          rfl
        · simp [hnil] at hnone
    · have hone : [e].filter (fun e' => e'.hostname == x) = [] := by simpa using Ne.symm hxe
      rw [hone, append_nil, ← ih Hes, registerEntry]
      cases hget : (register es).getMut e.hostname with
      | some key =>
        obtain rfl := H.getMut_eq_self hget
        exact modify_of_ne _ hxe _
      | none =>
        have hxk : x ≠ k := fun hxk =>
          hxe (hostKey_injective (hostKey_self_iff.2 hx) (hxk ▸ hk))
        rw [insert_of_hostKey _ hk, insertKey_of_ne _ hxk]

/-- A stored plain name is in the list of its key. -/
theorem Separated.exists_map_plain (H : Separated es) (he : e ∈ es)
    (hvalid : isValidDomain e.hostname) :
    ∃ v, (register es).map e.hostname = some v ∧ e ∈ v := by
  have hmem : e ∈ es.filter fun e' => e'.hostname == e.hostname := by simp [he]
  exact ⟨_, by rw [H.map_plain hvalid, if_neg (ne_nil_of_mem hmem)], hmem⟩

/-- **Separated hostnames are answered right.** -/
theorem Separated.chosen (H : Separated es) (sni : String) :
    Chosen es sni (((register es).get sni).bind head?) := by
  by_cases hv : isValidDomain sni = true
  · rw [get_eq_getMut]
    cases hm : (register es).map sni with
    | some v =>
      rw [getMut_of_key hv (by rw [hm]; rfl), bind_some, hm]
      obtain ⟨e, he, hhead, hkey⟩ := (registered es).key sni v hm
      rw [bind_some, hhead]
      have hname : e.hostname = sni := hostKey_injective hkey (hostKey_self_iff.2 hv)
      refine ⟨he, ⟨(isValidDomain_iff.1 hv).1, .inl hname⟩, fun e' _ _ => ?_⟩
      rw [hname, specificity_of_plain (not_isWildcard_of_valid hv)]
      exact le_top
    | none =>
      -- the name is no hostname, so what matches is a wildcard, and a probe
      have hprobe : ∀ e ∈ es, MatchesSni e.hostname sni → ∃ k, hostKey e.hostname = some k ∧
          Over e.hostname sni ∧ (register es).Probe sni k := by
        rintro e he ⟨-, rfl | hover⟩
        · obtain ⟨v, hstored, -⟩ := H.exists_map_plain he hv
          rw [hstored] at hm
          cases hm
        · obtain ⟨k, hk⟩ := isSome_iff_exists.1 (H.valid e he)
          exact ⟨k, hk, hover, (registered es).probe_of_over he hk hover⟩
      cases hg : (register es).getMut sni with
      | none =>
        intro e he hmatch
        obtain ⟨k, -, -, hp⟩ := hprobe e he hmatch
        exact ((getMut_eq_none_iff hv).1 hg).2 k hp
      | some s =>
        obtain ⟨hp, hlong⟩ := (getMut_eq_some_iff hv hm).1 hg
        obtain ⟨v, hstored⟩ := isSome_iff_exists.1 hp.stored
        obtain ⟨e, he, hhead, hkey⟩ := (registered es).key s v hstored
        obtain ⟨w, -, hwkey, hover⟩ := H.over_of_probe hp
        rw [hostKey_injective hwkey hkey] at hover
        rw [bind_some, hstored, bind_some, hhead]
        refine ⟨he, ⟨(isValidDomain_iff.1 hv).1, .inr hover⟩, fun e' he' hmatch => ?_⟩
        obtain ⟨k', hk', hover', hp'⟩ := hprobe e' he' hmatch
        rw [specificity_of_wildcard hover.isWildcard, specificity_of_wildcard hover'.isWildcard,
          WithTop.coe_le_coe, len_of_wildcard hover.isWildcard hkey,
          len_of_wildcard hover'.isWildcard hk']
        have hle := hlong k' hp'
        omega
  · have hget : (register es).get sni = none := by
      unfold HashHost.get
      simp [hv]
    rw [hget]
    -- a domain name without a dot, which no hostname of the map matches
    rintro e he ⟨hname, rfl | hover⟩
    · obtain ⟨k, hk⟩ := isSome_iff_exists.1 (H.valid e he)
      exact hv ((hostKey_of_plain (not_isWildcard_of_name hname)).1 hk).1
    · obtain ⟨t, -, hsuf, -⟩ := over_iff.1 hover
      exact hv (isValidDomain_iff.2 ⟨hname, hsuf.subset mem_cons_self⟩)

/-- **An entry is kept** under its hostname. -/
def Kept (h : HashHost (List (GatewayTlsEntry Secret))) (e : GatewayTlsEntry Secret) : Prop :=
  ∃ k v, hostKey e.hostname = some k ∧ h.map k = some v ∧ e ∈ v

/-- **Separated entries are kept.** -/
theorem Separated.kept (H : Separated es) (he : e ∈ es) : Kept (register es) e := by
  obtain ⟨k, hk⟩ := isSome_iff_exists.1 (H.valid e he)
  by_cases hw : IsWildcard e.hostname
  · obtain ⟨v, hv⟩ := isSome_iff_exists.1 ((registered es).wildcard e he hw k hk)
    obtain ⟨e0, he0, hhead, hkey⟩ := (registered es).key k v hv
    obtain rfl := H.single e he hw e0 he0 (hostKey_injective hk hkey)
    exact ⟨k, v, hk, hv, mem_of_head? hhead⟩
  · obtain ⟨hvalid, rfl⟩ := (hostKey_of_plain hw).1 hk
    obtain ⟨v, hv, hmem⟩ := H.exists_map_plain he hvalid
    exact ⟨_, v, hk, hv, hmem⟩

/-! ## What goes wrong otherwise -/

/-- A key stays. -/
theorem isSome_registerEntry (hx : (h.map x).isSome) (e : GatewayTlsEntry Secret) :
    ((registerEntry h e).map x).isSome := by
  unfold registerEntry
  cases h.getMut e.hostname with
  | some key => simpa using hx
  | none =>
    cases hkey : hostKey e.hostname with
    | none => simpa only [insert_of_not_hostKey h hkey] using hx
    | some k =>
      simp only [insert_of_hostKey h hkey]
      by_cases hxk : x = k
      · subst hxk
        simp
      · rwa [insertKey_of_ne h hxk]

/-- The name of the first entry is a key. -/
theorem isSome_register_first (hvalid : isValidDomain e.hostname)
    (rest : List (GatewayTlsEntry Secret)) : ((register (e :: rest)).map e.hostname).isSome := by
  induction rest using reverseRecOn with
  | nil =>
    have hone : register [e] = new.insertKey e.hostname [e] := by
      rw [register, foldl_cons, registerEntry, getMut_new]
      exact insert_of_hostKey _ (hostKey_self_iff.2 hvalid) _
    rw [hone, insertKey_self]
    rfl
  | append_singleton rest e' ih =>
    rw [register, ← cons_append, foldl_concat]
    exact isSome_registerEntry ih e'

/-- **Under a wildcard that came first a plain name never gets a key**: when
it comes, `get_mut` finds it a place. -/
theorem map_covered (hk : hostKey w.hostname = some k)
    (hover : Over w.hostname x) (hx : isValidDomain x)
    (rest : List (GatewayTlsEntry Secret)) : (register (w :: rest)).map x = none := by
  induction rest using reverseRecOn with
  | nil =>
    have hlt := ((over_iff_hostKey hover.isWildcard hk).1 hover).2
    have hne : x ≠ k := fun e => by
      rw [e] at hlt
      exact Nat.lt_irrefl _ hlt
    rw [register, foldl_cons, foldl_nil, registerEntry, getMut_new]
    simp only [insert_of_hostKey _ hk, insertKey_of_ne _ hne, new_map]
  | append_singleton rest e ih =>
    rw [register, ← cons_append, foldl_concat, ← register, registerEntry]
    cases hget : (register (w :: rest)).getMut e.hostname with
    | some key =>
      rw [← isNone_iff_eq_none, ← isSome_eq_false_iff, isSome_modify, ih]
      rfl
    | none =>
      cases hkey : hostKey e.hostname with
      | none => simpa only [insert_of_not_hostKey _ hkey] using ih
      | some k' =>
        have hne : x ≠ k' := by
          rintro rfl
          obtain rfl := hostKey_injective hkey (hostKey_self_iff.2 hx)
          have hp := (registered (w :: rest)).probe_of_over mem_cons_self hk hover
          exact ((getMut_eq_none_iff hx).1 hget).2 k hp
        simpa only [insert_of_hostKey _ hkey, insertKey_of_ne _ hne] using ih

variable {sni : String} {port : ℕ}

/-- What a lookup answers for a name that is no key is the head of the list
of a longest probe. -/
theorem probe_of_lookup (hv : isValidDomain sni)
    (hm : (register es).map sni = none) (hr : ((register es).get sni).bind head? = some e) :
    ∃ s, hostKey e.hostname = some s ∧ (register es).Probe sni s ∧
      ∀ s', (register es).Probe sni s' → s'.toList.length ≤ s.toList.length := by
  rw [get_eq_getMut] at hr
  obtain ⟨v, hv', hhead⟩ := bind_eq_some_iff.1 hr
  obtain ⟨s, hs, hstored⟩ := bind_eq_some_iff.1 hv'
  obtain ⟨e0, -, hhead0, hkey⟩ := (registered es).key s v hstored
  obtain rfl : e0 = e := some.inj (hhead0.symm.trans hhead)
  exact ⟨s, hkey, (getMut_eq_some_iff hv hm).1 hs⟩

variable {rest : List (GatewayTlsEntry Secret)}

/-- **A wildcard that comes first hides the plain names under it.** -/
theorem not_chosen_of_covered (he : e ∈ w :: rest) (hw : (hostKey w.hostname).isSome)
    (hvalid : isValidDomain e.hostname) (hover : Over w.hostname e.hostname) :
    ¬ Chosen (w :: rest) e.hostname (((register (w :: rest)).get e.hostname).bind head?) := by
  obtain ⟨k, hk⟩ := isSome_iff_exists.1 hw
  have hm := map_covered hk hover hvalid rest
  have hmatch : MatchesSni e.hostname e.hostname := ⟨(isValidDomain_iff.1 hvalid).1, .inl rfl⟩
  cases hr : ((register (w :: rest)).get e.hostname).bind head? with
  | none => exact fun hnone => hnone e he hmatch
  | some r =>
    rintro ⟨-, ⟨-, hrmatch⟩, hmax⟩
    have htop := hmax e he hmatch
    rw [specificity_of_plain (not_isWildcard_of_valid hvalid), top_le_iff] at htop
    -- the answer is as specific as the name, so it has the name, but its key is shorter
    have hplain : ¬ IsWildcard r.hostname := fun hrw => by
      rw [specificity_of_wildcard hrw] at htop
      exact WithTop.coe_ne_top htop
    obtain hname | hrover := hrmatch
    · obtain ⟨s, hkey, hp, -⟩ := probe_of_lookup hvalid hm hr
      rw [hname, hostKey_self_iff.2 hvalid, some.injEq] at hkey
      rw [← hkey] at hp
      exact Nat.lt_irrefl _ hp.shorter
    · exact hplain hrover.isWildcard

/-- A name longer than the hostnames of a list, which ends in one of them. -/
theorem exists_extension (es : List (GatewayTlsEntry Secret)) (hx : isValidDomain x) :
    ∃ sni, isValidDomain sni ∧ x.toList <:+ sni.toList ∧
      x.toList.length < sni.toList.length ∧ (∀ e ∈ es, e.hostname ≠ sni) ∧
      ∀ t, '.' :: t <:+ sni.toList → t.length + 1 < x.toList.length := by
  let n := (es.map fun e => e.hostname.toList.length).sum + 1
  refine ⟨String.ofList (replicate n 'a' ++ x.toList), isValidDomain_replicate hx n, ?_⟩
  simp only [String.toList_ofList, length_append, length_replicate]
  refine ⟨suffix_append _ _, by omega, fun e he heq => ?_, fun t ht => ?_⟩
  · have hle : e.hostname.toList.length ≤ (es.map fun e => e.hostname.toList.length).sum :=
      le_sum_of_mem (mem_map_of_mem he)
    rw [heq, String.toList_ofList, length_append, length_replicate] at hle
    omega
  · -- a longer end begins inside the first label
    by_contra hge
    have hsuf : x.toList <:+ '.' :: t := suffix_of_suffix_length_le
      (suffix_append (replicate n 'a') x.toList) ht (by simp only [length_cons]; omega)
    obtain ⟨p, hp⟩ := hsuf
    obtain ⟨q, hq⟩ := ht
    rw [← hp, ← append_assoc] at hq
    have hall : ∀ c ∈ p, c = 'a' := fun c hc =>
      eq_of_mem_replicate (append_cancel_right hq ▸ mem_append_right q hc)
    cases p with
    | nil => exact (isValidDomain_iff.1 hx).1.ne_dot t hp
    | cons c p =>
      rw [cons_append, cons.injEq] at hp
      exact absurd (hp.1.symm.trans (hall c mem_cons_self)) (by decide)

/-- **A plain name that comes first answers for longer names that end in
it**, once some wildcard key has its length. -/
theorem not_chosen_of_length
    (hw : w ∈ e :: rest) (hwkey : (hostKey w.hostname).isSome) (hwild : IsWildcard w.hostname)
    (hvalid : isValidDomain e.hostname) (hlen : len w.hostname = len e.hostname + 1) :
    ∃ sni, ¬ Chosen (e :: rest) sni (((register (e :: rest)).get sni).bind head?) := by
  obtain ⟨sni, hv, hsuf, hlt, hfresh, hdots⟩ := exists_extension (e :: rest) hvalid
  obtain ⟨k, hk⟩ := isSome_iff_exists.1 hwkey
  have hp : (register (e :: rest)).Probe sni e.hostname := by
    refine ⟨isSome_register_first hvalid rest, hsuf, hlt, ?_⟩
    refine ((registered (e :: rest)).lens _).2 ⟨w, hw, hwild, k, hk, ?_⟩
    have hlen' := len_of_wildcard hwild hk
    rw [len_hostKey hk, ← len_hostKey (hostKey_self_iff.2 hvalid)]
    omega
  have hm : (register (e :: rest)).map sni = none := by
    by_contra hstored
    obtain ⟨v, hmap⟩ := ne_none_iff_exists'.1 hstored
    obtain ⟨e', he', -, hkey⟩ := (registered (e :: rest)).key sni v hmap
    exact hfresh e' he' (hostKey_injective hkey (hostKey_self_iff.2 hv))
  refine ⟨sni, ?_⟩
  cases hr : ((register (e :: rest)).get sni).bind head? with
  | none =>
    -- the probe alone makes the lookup answer
    exfalso
    rw [get_eq_getMut] at hr
    cases hg : (register (e :: rest)).getMut sni with
    | none => exact ((getMut_eq_none_iff hv).1 hg).2 _ hp
    | some s =>
      obtain ⟨v, hmap⟩ := isSome_iff_exists.1 ((getMut_eq_some_iff hv hm).1 hg).1.stored
      obtain ⟨e0, -, hhead, -⟩ := (registered (e :: rest)).key s v hmap
      rw [hg, bind_some, hmap, bind_some, hhead] at hr
      cases hr
  | some r =>
    rintro ⟨hmem, ⟨-, hname | hover⟩, -⟩
    · exact hfresh r hmem hname
    · obtain ⟨s, hkey, -, hlong⟩ := probe_of_lookup hv hm hr
      obtain ⟨t, ht⟩ := isWildcard_iff.1 hover.isWildcard
      obtain ⟨-, rfl⟩ := (hostKey_of_wildcard ht).1 hkey
      have hsuf' := ((over_iff_hostKey hover.isWildcard hkey).1 hover).1
      rw [String.toList_ofList] at hsuf'
      have hle := hlong _ hp
      rw [String.toList_ofList, length_cons] at hle
      have hshort := hdots t hsuf'
      omega

/-- Two entries of one wildcard are not both kept. -/
theorem eq_of_kept {w' : GatewayTlsEntry Secret} (hwild : IsWildcard w.hostname)
    (hsame : w.hostname = w'.hostname) (hw : Kept (register es) w) (hw' : Kept (register es) w') :
    w = w' := by
  obtain ⟨k, v, hk, hv, hmem⟩ := hw
  obtain ⟨k', v', hk', hv', hmem'⟩ := hw'
  rw [← hsame, hk, some.injEq] at hk'
  subst hk'
  rw [hv, some.injEq] at hv'
  subst hv'
  obtain ⟨e0, -, hhead, -⟩ := (registered es).key k v hv
  obtain ⟨rest, rfl⟩ := head?_eq_some_iff.1 hhead
  -- behind the head there are plain names only
  have hfst : ∀ x ∈ e0 :: rest, IsWildcard x.hostname → x = e0 := by
    intro x hx hxw
    rw [mem_cons] at hx
    obtain rfl | hx := hx
    · rfl
    · have hvalid := (registered es).pushed k _ hv x hx
      exact absurd hxw (not_isWildcard_of_valid hvalid)
  rw [hfst w hmem hwild, hfst w' hmem' (hsame ▸ hwild)]

/-! ## All orders of the walk -/

/-- One Gateway, with its listeners in another order. -/
structure SameGateway (gateway gateway' : Gateway Secret) : Prop where
  ns : gateway.ns = gateway'.ns
  nameAny : gateway.nameAny = gateway'.nameAny
  listeners : (gateway.listeners.getD []).Perm (gateway'.listeners.getD [])

/-- **The same Gateways, visited in another order**, each with its listeners
in another order. -/
def Reordered (gateways gateways' : List (Gateway Secret)) : Prop :=
  ∃ mid, mid.Perm gateways ∧ Forall₂ SameGateway mid gateways'

variable {gateways gateways' : List (Gateway Secret)}

theorem SameGateway.refl (gateway : Gateway Secret) : SameGateway gateway gateway :=
  ⟨rfl, rfl, .refl _⟩

theorem Reordered.refl (gateways : List (Gateway Secret)) : Reordered gateways gateways :=
  ⟨gateways, .refl _, forall₂_same.2 fun gateway _ => SameGateway.refl gateway⟩

/-- Where a listener's entry comes from, but for its Gateway's listeners. -/
theorem SameGateway.listenerEntry_eq {gateway gateway' : Gateway Secret}
    (h : SameGateway gateway gateway') : listenerEntry gateway = listenerEntry gateway' := by
  unfold listenerEntry
  rw [h.ns, h.nameAny]

theorem visits_cons (gateway : Gateway Secret) (gateways : List (Gateway Secret)) :
    visits (gateway :: gateways) =
      (gateway.listeners.getD []).filterMap (listenerEntry gateway) ++ visits gateways :=
  flatMap_cons

/-- Another order comes by the same entries. -/
theorem Reordered.visits_perm (h : Reordered gateways gateways') :
    (visits gateways').Perm (visits gateways) := by
  obtain ⟨mid, hperm, hsame⟩ := h
  refine Perm.trans ?_ (hperm.flatMap_right _)
  clear hperm
  induction hsame with
  | nil => exact .refl _
  | cons hg _ ih =>
    rw [visits_cons]
    refine Perm.append ?_ ih
    rw [← hg.listenerEntry_eq]
    exact hg.listeners.symm.filterMap _

theorem Reordered.mem_entriesOn (h : Reordered gateways gateways') :
    e ∈ entriesOn gateways' port ↔ e ∈ entriesOn gateways port := by
  unfold entriesOn
  rw [mem_filter, mem_filter, h.visits_perm.mem_iff]

/-- **Any entry comes first in some order.** -/
theorem exists_first (he : e ∈ entriesOn gateways port) :
    ∃ gateways', Reordered gateways gateways' ∧ ∃ rest, entriesOn gateways' port = e :: rest := by
  obtain ⟨hvisit, hport⟩ := mem_filter.1 he
  obtain ⟨gateway, hgw, hentry⟩ := mem_flatMap.1 hvisit
  obtain ⟨listener, hlistener, hle⟩ := mem_filterMap.1 hentry
  obtain ⟨gs1, gs2, rfl⟩ := append_of_mem hgw
  obtain ⟨ls1, ls2, hls⟩ := append_of_mem hlistener
  -- its Gateway first, and its listener first in that
  let first : Gateway Secret := { gateway with listeners := some (listener :: (ls1 ++ ls2)) }
  have hsame : SameGateway gateway first := ⟨rfl, rfl, by rw [hls]; exact perm_middle⟩
  refine ⟨first :: (gs1 ++ gs2), ⟨gateway :: (gs1 ++ gs2), perm_middle.symm,
    .cons hsame (forall₂_same.2 fun g _ => SameGateway.refl g)⟩, ?_⟩
  have hle' : listenerEntry first listener = some e := by rw [← hsame.listenerEntry_eq, hle]
  refine ⟨((ls1 ++ ls2).filterMap (listenerEntry first) ++ visits (gs1 ++ gs2)).filter
    (fun e => e.port == port), ?_⟩
  have hlisteners : first.listeners.getD [] = listener :: (ls1 ++ ls2) := rfl
  rw [entriesOn, visits_cons, hlisteners, filterMap_cons_some hle']
  exact filter_cons_of_pos hport

/-- **The matcher answers right in every order**, and keeps every entry. -/
def Reliable (gateways : List (Gateway Secret)) : Prop :=
  ∀ gateways', Reordered gateways gateways' → ∀ port, (∀ sni, Chosen (entriesOn gateways' port) sni
      (matchSniWithPort (rebuildFromGateways gateways') port sni)) ∧
    ∀ e ∈ entriesOn gateways' port,
      ∃ h, (rebuildFromGateways gateways').hosts port = some h ∧ Kept h e

/-- **The answer is the same entry in every order.** -/
def OrderFree (gateways : List (Gateway Secret)) : Prop :=
  ∀ gateways', Reordered gateways gateways' → ∀ port sni,
    matchSniWithPort (rebuildFromGateways gateways') port sni =
      matchSniWithPort (rebuildFromGateways gateways) port sni

/-- No two listeners share a hostname. -/
def Unshared (es : List (GatewayTlsEntry Secret)) : Prop :=
  ∀ e ∈ es, ∀ e' ∈ es, e.hostname = e'.hostname → e = e'

/-- The matcher of a port that has an entry. -/
theorem hosts_of_mem (he : e ∈ entriesOn gateways port) :
    (rebuildFromGateways gateways).hosts port = some (register (entriesOn gateways port)) := by
  rw [hosts_rebuild, if_neg (ne_nil_of_mem he)]

theorem separated_of_reliable (H : Reliable gateways) (port : ℕ) :
    Separated (entriesOn gateways port) := by
  have hkept : ∀ e ∈ entriesOn gateways port, Kept (register (entriesOn gateways port)) e := by
    intro e he
    obtain ⟨h, hh, hk⟩ := (H gateways (.refl gateways) port).2 e he
    rw [hosts_of_mem he, some.injEq] at hh
    rwa [← hh] at hk
  have hvalid : ∀ e ∈ entriesOn gateways port, (hostKey e.hostname).isSome := by
    intro e he
    obtain ⟨k, -, hk, -⟩ := hkept e he
    rw [hk]
    rfl
  have hplain : ∀ e ∈ entriesOn gateways port, ¬ IsWildcard e.hostname →
      isValidDomain e.hostname = true := by
    intro e he hp
    obtain ⟨k, hk⟩ := isSome_iff_exists.1 (hvalid e he)
    exact ((hostKey_of_plain hp).1 hk).1
  -- the right answer, in an order that has a given entry first
  have hchosen : ∀ e ∈ entriesOn gateways port, ∃ rest,
      (∀ x, x ∈ e :: rest ↔ x ∈ entriesOn gateways port) ∧
      ∀ sni, Chosen (e :: rest) sni (((register (e :: rest)).get sni).bind head?) := by
    intro e he
    obtain ⟨gateways', hre, rest, hfst⟩ := exists_first he
    refine ⟨rest, fun x => ?_, fun sni => ?_⟩
    · rw [← hfst, hre.mem_entriesOn]
    · have hright := (H gateways' hre port).1 sni
      rwa [matchSniWithPort_eq, hfst] at hright
  refine ⟨hvalid, fun e he hp w hw hover => ?_, fun e he hp w hw hwild hlen => ?_,
    fun w hw hwild w' hw' hsame => eq_of_kept hwild hsame (hkept w hw) (hkept w' hw')⟩
  · obtain ⟨rest, hmem, hright⟩ := hchosen w hw
    exact not_chosen_of_covered ((hmem e).2 he) (hvalid w hw) (hplain e he hp) hover (hright _)
  · obtain ⟨rest, hmem, hright⟩ := hchosen e he
    obtain ⟨sni, hwrong⟩ := not_chosen_of_length ((hmem w).2 hw) (hvalid w hw) hwild
      (hplain e he hp) hlen
    exact hwrong (hright sni)

theorem Reordered.separated (h : Reordered gateways gateways')
    (H : Separated (entriesOn gateways port)) : Separated (entriesOn gateways' port) :=
  H.mono fun _ he => h.mem_entriesOn.1 he

theorem reliable_of_separated (H : ∀ port, Separated (entriesOn gateways port)) :
    Reliable gateways := by
  intro gateways' hre port
  have H' := hre.separated (H port)
  refine ⟨fun sni => ?_, fun e he => ⟨_, hosts_of_mem he, H'.kept he⟩⟩
  rw [matchSniWithPort_eq]
  exact H'.chosen sni

/-- Right answers for one name have one hostname. -/
theorem Chosen.hostname_eq {e e' : GatewayTlsEntry Secret}
    (h : Chosen es sni (some e)) (h' : Chosen es sni (some e')) : e.hostname = e'.hostname := by
  obtain ⟨he, hm, hmax⟩ := h
  obtain ⟨he', hm', hmax'⟩ := h'
  have hspec := le_antisymm (hmax' e he hm) (hmax e' he' hm')
  have hname : ∀ x : GatewayTlsEntry Secret, MatchesSni x.hostname sni →
      ¬ IsWildcard x.hostname → x.hostname = sni := fun x hx hp =>
    hx.2.resolve_right fun hover => hp hover.isWildcard
  have hover : ∀ x : GatewayTlsEntry Secret, MatchesSni x.hostname sni →
      IsWildcard x.hostname → Over x.hostname sni := by
    rintro x ⟨hsni, rfl | hover⟩ hw
    · exact absurd hw (not_isWildcard_of_name hsni)
    · exact hover
  by_cases hw : IsWildcard e.hostname <;> by_cases hw' : IsWildcard e'.hostname
  · rw [specificity_of_wildcard hw, specificity_of_wildcard hw', WithTop.coe_inj] at hspec
    exact (hover e hm hw).eq_of_len (hover e' hm' hw') hspec
  · rw [specificity_of_wildcard hw, specificity_of_plain hw'] at hspec
    exact absurd hspec WithTop.coe_ne_top
  · rw [specificity_of_plain hw, specificity_of_wildcard hw'] at hspec
    exact absurd hspec.symm WithTop.coe_ne_top
  · rw [hname e hm hw, hname e' hm' hw']

/-- Right answers among the same entries, none of which share a hostname,
are the same. -/
theorem Chosen.unique (hmem : ∀ e, e ∈ es' ↔ e ∈ es)
    (hun : Unshared es) {r r' : Option (GatewayTlsEntry Secret)}
    (h : Chosen es sni r) (h' : Chosen es' sni r') : r' = r := by
  cases r with
  | none =>
    cases r' with
    | none => rfl
    | some e' => exact absurd h'.2.1 (h e' ((hmem e').1 h'.1))
  | some e =>
    cases r' with
    | none => exact absurd h.2.1 (h' e ((hmem e).2 h.1))
    | some e' =>
      have hin : Chosen es sni (some e') := ⟨(hmem e').1 h'.1, h'.2.1,
        fun x hx => h'.2.2 x ((hmem x).2 hx)⟩
      rw [hun e' hin.1 e h.1 (hin.hostname_eq h)]

theorem unshared_of_orderFree (H : ∀ port, Separated (entriesOn gateways port))
    (hfree : OrderFree gateways) (port : ℕ) : Unshared (entriesOn gateways port) := by
  intro e he e' he' hsame
  by_cases hw : IsWildcard e.hostname
  · exact (H port).single e he hw e' he' hsame
  obtain ⟨k, hk⟩ := isSome_iff_exists.1 ((H port).valid e he)
  have hvalid := ((hostKey_of_plain hw).1 hk).1
  -- whichever comes first answers
  have hans : ∀ x ∈ entriesOn gateways port, x.hostname = e.hostname →
      matchSniWithPort (rebuildFromGateways gateways) port e.hostname = some x := by
    intro x hx hxe
    obtain ⟨gateways', hre, rest, hfst⟩ := exists_first hx
    have Hx := hre.separated (H port)
    rw [hfst] at Hx
    rw [← hfree gateways' hre, matchSniWithPort_eq, hfst, get_eq_getMut]
    have hmap := Hx.map_plain hvalid
    rw [filter_cons_of_pos (by simpa using hxe)] at hmap
    rw [getMut_of_key hvalid (by rw [hmap]; rfl), bind_some, hmap]
    rfl
  exact some.inj ((hans e he rfl).symm.trans (hans e' he' hsame.symm))

/-- **When the TLS matcher can be relied on.** Over all orders of the
Gateways and their listeners: it answers every name with an entry of the
most specific hostname, and keeps every entry under its hostname, exactly
when the hostnames on each port are separated; and it gives the same entry
in all orders too exactly when moreover no two of them are the same. -/
theorem tls_lookup_iff (gateways : List (Gateway Secret)) :
    (Reliable gateways ↔ ∀ port, Separated (entriesOn gateways port)) ∧
      (Reliable gateways ∧ OrderFree gateways ↔
        ∀ port, Separated (entriesOn gateways port) ∧ Unshared (entriesOn gateways port)) := by
  refine ⟨⟨separated_of_reliable, reliable_of_separated⟩, ?_, ?_⟩
  · rintro ⟨hrel, hfree⟩ port
    have H := separated_of_reliable hrel
    exact ⟨H port, unshared_of_orderFree H hfree port⟩
  · intro H
    have hrel := reliable_of_separated fun port => (H port).1
    refine ⟨hrel, fun gateways' hre port sni => ?_⟩
    exact Chosen.unique (fun _ => hre.mem_entriesOn) (H port).2
      ((hrel gateways (.refl gateways) port).1 sni) ((hrel gateways' hre port).1 sni)

/-- A Gateway with one TLS listener on port 443, named after its Gateway. -/
def tlsGateway (name hostname : String) : Gateway Unit :=
  { ns := some "default"
    nameAny := name
    listeners := some [
      { name
        hostname := some hostname
        port := 443
        tls := some ⟨some [⟨none, none, name, none⟩], none, none⟩
        allowedRoutes := none }] }

/-- The Gateway that answers on port 443. -/
def answers (gateways : List (Gateway Unit)) (sni : String) : Option String :=
  (matchSniWithPort (rebuildFromGateways gateways) 443 sni).map GatewayTlsEntry.gatewayName

/-- **The order decides, and so do lengths.** The wildcard's certificate
answers for a plain name if the wildcard comes first; of two listeners with
one wildcard the first is lost; and the certificate of `example.com` answers
for `badexample.com` because `.other1.com` is as long as `example.com`. -/
theorem tls_lookup_wrong :
    (answers [tlsGateway "api" "api.example.com", tlsGateway "wild" "*.example.com"]
        "api.example.com" = some "api" ∧
      answers [tlsGateway "wild" "*.example.com", tlsGateway "api" "api.example.com"]
        "api.example.com" = some "wild") ∧
    (answers [tlsGateway "one" "*.example.com", tlsGateway "two" "*.example.com"]
        "api.example.com" = some "two" ∧
      ((rebuildFromGateways
        [tlsGateway "one" "*.example.com", tlsGateway "two" "*.example.com"]).hosts 443).bind
          (fun h => (h.map ".example.com").map fun v => v.map GatewayTlsEntry.gatewayName) =
        some ["two"]) ∧
    answers [tlsGateway "plain" "example.com", tlsGateway "other" "*.other1.com"]
      "badexample.com" = some "plain" := by
  decide +kernel

end Edgion.Runtime
