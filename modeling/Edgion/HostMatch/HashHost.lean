import Edgion.Common.OrderedLists
import Edgion.Hostname.Intersection

/-!
# Host matching — the hash map with wildcards

`HashHost` keeps plain names and wildcards in one map, a wildcard
`*.example.com` under the key `.example.com`, and remembers the lengths
of the wildcard keys. A lookup tries the name itself and then, for each
of these lengths, the end of the name that has it. It does not look at
where such an end begins: the ends it tries are those of `Probe`, among
which plain names can be.
-/

namespace Edgion.HostMatch

open Text List Option Function Common Char

/-! ## Valid domains -/

/-- The checks `is_valid_domain` makes on one label. -/
def isValidLabel (label : List Char) : Bool :=
  !label.isEmpty && label.head? != some '-' && label.getLast? != some '-' &&
    label.all fun c => c.isAlphanum || c == '-'

/-- The loop of `is_valid_domain`: `label` is what was read since
`label_start`, and the end of the text closes a label as a dot does. -/
def scanLabels (label : List Char) (hasDot : Bool) : List Char → Bool
  | [] => isValidLabel label && hasDot
  | c :: cs =>
    if c = '.' then isValidLabel label && scanLabels [] true cs
    else scanLabels (label ++ [c]) hasDot cs

def isValidDomain (s : String) : Bool := !s.isEmpty && scanLabels [] false s.toList

/-- **A domain name**: valid labels with dots between them. A single label
is one, though `is_valid_domain` does not take it. -/
def IsDomainName (s : String) : Prop := ∀ label ∈ s.toList.splitOn '.', isValidLabel label = true

instance (s : String) : Decidable (IsDomainName s) :=
  inferInstanceAs (Decidable (∀ label ∈ s.toList.splitOn '.', isValidLabel label = true))

variable {label : List Char}

/-- The loop has read a first part of the first label. -/
theorem scanLabels_iff {hasDot : Bool} {cs : List Char} : scanLabels label hasDot cs ↔
      (∀ l ∈ (cs.splitOn '.').modifyHead (label ++ ·), isValidLabel l = true) ∧
        (hasDot ∨ '.' ∈ cs) := by
  induction cs generalizing label hasDot with
  | nil => simp [scanLabels]
  | cons c cs ih =>
    obtain ⟨p, ps, hps⟩ := exists_cons_of_ne_nil (splitOn_ne_nil '.' cs)
    rw [scanLabels, splitOn_cons_eq_if]
    by_cases hc : c = '.'
    · rw [if_pos hc, if_pos hc, Bool.and_eq_true, ih, hps]
      simp [hc]
    · rw [if_neg hc, if_neg hc, ih, hps]
      simp [Ne.symm hc]

variable {s : String}

/-- **What `is_valid_domain` takes**: domain names with a dot. -/
theorem isValidDomain_iff : isValidDomain s ↔ IsDomainName s ∧ '.' ∈ s.toList := by
  obtain ⟨p, ps, hps⟩ := exists_cons_of_ne_nil (splitOn_ne_nil '.' s.toList)
  unfold isValidDomain IsDomainName
  rw [Bool.and_eq_true, scanLabels_iff, hps]
  simp only [modifyHead_cons, nil_append, Bool.false_eq_true, false_or, and_iff_right_iff_imp]
  rintro ⟨-, hdot⟩
  have hne : s ≠ "" := by
    rintro rfl
    simp at hdot
  simpa using hne

variable {c : Char}

/-- The characters of a domain name. -/
theorem IsDomainName.char (hs : IsDomainName s) (hc : c ∈ s.toList) :
    c.isAlphanum ∨ c = '-' ∨ c = '.' := by
  by_cases hdot : c = '.'
  · exact .inr (.inr hdot)
  obtain ⟨label, hlabel, hmem⟩ := exists_mem_splitOn_iff.2 ⟨hc, hdot⟩
  have hvalid := hs label hlabel
  simp only [isValidLabel, Bool.and_eq_true, List.all_eq_true, Bool.or_eq_true,
    beq_iff_eq] at hvalid
  obtain hal | hdash := hvalid.2 c hmem
  · exact .inl hal
  · exact .inr (.inl hdash)

theorem utf8Size_of_isAlphanum (hc : c.isAlphanum) : c.utf8Size = 1 := by
  have hle : c.val ≤ 127 := by
    delta isAlphanum isAlpha isUpper isLower isDigit at hc
    simp [UInt32.le_iff_toNat_le] at hc ⊢
    omega
  exact if_pos hle

/-- The characters of a domain name are of one byte each. -/
theorem IsDomainName.utf8Size (hs : IsDomainName s) (hc : c ∈ s.toList) : c.utf8Size = 1 := by
  obtain hal | rfl | rfl := hs.char hc
  · exact utf8Size_of_isAlphanum hal
  · decide
  · decide

theorem IsDomainName.not_mem_star (hs : IsDomainName s) : '*' ∉ s.toList := by
  intro hstar
  exact absurd (hs.char hstar) (by decide)

theorem IsDomainName.ne_dot (hs : IsDomainName s) (t : List Char) : s.toList ≠ '.' :: t := by
  intro e
  have hempty := hs [] (by rw [e, splitOn_cons_eq_if, if_pos rfl]; exact mem_cons_self)
  exact absurd hempty (by decide)

/-- A longer first label keeps a name valid. -/
theorem isValidLabel_cons (h : isValidLabel label) : isValidLabel ('a' :: label) = true := by
  obtain ⟨c, cs, rfl⟩ : ∃ c cs, label = c :: cs := by
    cases label with
    | nil => exact absurd h (by decide)
    | cons c cs => exact ⟨c, cs, rfl⟩
  simp only [isValidLabel, Bool.and_eq_true, all_cons] at h ⊢
  refine ⟨⟨⟨rfl, rfl⟩, ?_⟩, rfl, h.2⟩
  rw [getLast?_cons_cons]
  exact h.1.2

theorem isValidDomain_replicate {x : String} (hx : isValidDomain x) (n : ℕ) :
    isValidDomain (String.ofList (replicate n 'a' ++ x.toList)) = true := by
  induction n with
  | zero => simpa using hx
  | succ n ih =>
    rw [isValidDomain_iff, IsDomainName, String.toList_ofList] at ih ⊢
    obtain ⟨p, ps, hps⟩ := exists_cons_of_ne_nil
      (splitOn_ne_nil '.' (replicate n 'a' ++ x.toList))
    rw [replicate_succ, cons_append, splitOn_cons_eq_if, if_neg (by decide), hps, modifyHead_cons]
    rw [hps] at ih
    refine ⟨fun label hlabel => ?_, mem_cons_of_mem _ ih.2⟩
    rw [mem_cons] at hlabel
    obtain rfl | hlabel := hlabel
    · exact isValidLabel_cons (ih.1 p mem_cons_self)
    · exact ih.1 label (mem_cons_of_mem _ hlabel)

/-! ## The map -/

universe u

/-- `HashHost`. The lengths of the wildcard keys are kept in descending
order, and the length of every wildcard key in the map is among them. -/
structure HashHost (T : Type u) where
  map : String → Option T
  wildcardKeyLens : List ℕ
  sorted : wildcardKeyLens.Pairwise (· ≥ ·)
  tracked : ∀ k, (map k).isSome → startsWith k "." = true → len k ∈ wildcardKeyLens

namespace HashHost

variable {T : Type u}

def new : HashHost T where
  map := fun _ => none
  wildcardKeyLens := []
  sorted := .nil
  tracked := fun _ h => absurd h (by simp)

/-- The key `insert` stores a hostname under, where it takes it at all. -/
def hostKey (k : String) : Option String :=
  match stripPrefix k "*." with
  | some rest => if isValidDomain rest then some ("." ++ rest) else none
  | none => if isValidDomain k then some k else none

/-- The insertion at the place `binary_search_by` reports for a length that
is not there yet. -/
def trackLen (lens : List ℕ) (n : ℕ) : List ℕ :=
  if n ∈ lens then lens else lens.orderedInsert (· ≥ ·) n

variable {lens : List ℕ} {n : ℕ}

theorem mem_trackLen {m : ℕ} : m ∈ trackLen lens n ↔ m = n ∨ m ∈ lens := by
  unfold trackLen
  split
  · rename_i hn
    exact ⟨.inr, fun h => h.elim (fun e => e ▸ hn) id⟩
  · exact mem_orderedInsert _

theorem sorted_trackLen (h : lens.Pairwise (· ≥ ·)) : (trackLen lens n).Pairwise (· ≥ ·) := by
  unfold trackLen
  split
  · exact h
  · exact h.orderedInsert _ _

/-- The body of `insert` past its checks. -/
def insertKey (h : HashHost T) (key : String) (v : T) : HashHost T where
  map := update h.map key (some v)
  wildcardKeyLens :=
    if startsWith key "." then trackLen h.wildcardKeyLens (len key) else h.wildcardKeyLens
  sorted := by
    split
    · exact sorted_trackLen h.sorted
    · exact h.sorted
  tracked := by
    intro k hk hdot
    by_cases e : k = key
    · subst e
      rw [if_pos hdot]
      exact mem_trackLen.2 (.inl rfl)
    · rw [update_of_ne e] at hk
      have hold := h.tracked k hk hdot
      split
      · exact mem_trackLen.2 (.inr hold)
      · exact hold

def insert (h : HashHost T) (k : String) (v : T) : HashHost T × Bool :=
  match hostKey k with
  | some key => (h.insertKey key v, true)
  | none => (h, false)

def get (h : HashHost T) (k : String) : Option T :=
  if !isValidDomain k then none
  else
    match h.map k with
    | some value => some value
    | none =>
      h.wildcardKeyLens.findSome? fun wkLen =>
        if len k > wkLen then h.map (sliceFrom k (len k - wkLen)) else none

/-- `HashHost::get_mut`: the key of the value it hands out. -/
def getMut (h : HashHost T) (k : String) : Option String :=
  if !isValidDomain k then none
  else if (h.map k).isSome then some k
  else
    h.wildcardKeyLens.findSome? fun wkLen =>
      if len k > wkLen then
        let suffix := sliceFrom k (len k - wkLen)
        if (h.map suffix).isSome then some suffix else none
      else none

/-- A change made through what `get_mut` hands out. -/
def modify (h : HashHost T) (key : String) (f : T → T) : HashHost T where
  map := update h.map key ((h.map key).map f)
  wildcardKeyLens := h.wildcardKeyLens
  sorted := h.sorted
  tracked := by
    intro k hk hdot
    refine h.tracked k ?_ hdot
    by_cases e : k = key
    · subst e
      simpa using hk
    · rwa [update_of_ne e] at hk

@[simp] theorem new_map (k : String) : (new : HashHost T).map k = none := rfl

@[simp] theorem new_wildcardKeyLens : (new : HashHost T).wildcardKeyLens = [] := rfl

variable {key w : String}

section

variable (h : HashHost T)

include h

variable {k : String}

theorem insert_of_hostKey (hk : hostKey k = some key) (v : T) :
    (h.insert k v).1 = h.insertKey key v := by
  unfold insert
  rw [hk]

theorem insert_of_not_hostKey (hk : hostKey k = none) (v : T) : (h.insert k v).1 = h := by
  unfold insert
  rw [hk]

@[simp] theorem insertKey_self (key : String) (v : T) :
    (h.insertKey key v).map key = some v := update_self ..

theorem insertKey_of_ne (hne : k ≠ key) (v : T) :
    (h.insertKey key v).map k = h.map k := update_of_ne hne ..

theorem mem_insertKey_wildcardKeyLens (key : String) (v : T) {n : ℕ} :
    n ∈ (h.insertKey key v).wildcardKeyLens ↔
      n ∈ h.wildcardKeyLens ∨ (startsWith key "." ∧ len key = n) := by
  have heq : (h.insertKey key v).wildcardKeyLens =
    if startsWith key "." then trackLen h.wildcardKeyLens (len key) else h.wildcardKeyLens := rfl
  rw [heq]
  by_cases hdot : startsWith key "." = true
  · rw [if_pos hdot, mem_trackLen]
    exact ⟨fun hn => hn.elim (fun e => .inr ⟨hdot, e.symm⟩) .inl,
      fun hn => hn.elim .inr fun e => .inl e.2.symm⟩
  · rw [if_neg hdot]
    exact ⟨.inl, fun hn => hn.elim id fun e => absurd e.1 hdot⟩

@[simp] theorem modify_self (key : String) (f : T → T) :
    (h.modify key f).map key = (h.map key).map f := update_self ..

theorem modify_of_ne (hne : k ≠ key) (f : T → T) :
    (h.modify key f).map k = h.map k := update_of_ne hne ..

@[simp] theorem modify_wildcardKeyLens (key : String) (f : T → T) :
    (h.modify key f).wildcardKeyLens = h.wildcardKeyLens := rfl

/-- A change in place adds no key and drops none. -/
@[simp] theorem isSome_modify (key k : String) (f : T → T) :
    ((h.modify key f).map k).isSome = (h.map k).isSome := by
  by_cases e : k = key
  · subst e
    simp
  · rw [modify_of_ne h e]

end

/-! ## Keys -/

open Hostname

theorem not_isWildcard_of_name (h : IsDomainName w) : ¬ IsWildcard w := by
  intro hw
  obtain ⟨t, ht⟩ := isWildcard_iff.1 hw
  exact h.not_mem_star (by rw [ht]; exact mem_cons_self)

theorem not_isWildcard_of_valid (h : isValidDomain w) : ¬ IsWildcard w :=
  not_isWildcard_of_name (isValidDomain_iff.1 h).1

/-- A wildcard is not a valid domain. -/
theorem isValidDomain_of_wildcard (hw : IsWildcard w) : isValidDomain w = false :=
  Bool.eq_false_iff.2 fun h => not_isWildcard_of_valid h hw

theorem hostKey_of_wildcard {t : List Char} (ht : w.toList = '*' :: '.' :: t) :
    hostKey w = some key ↔
      isValidDomain (String.ofList t) ∧ key = String.ofList ('.' :: t) := by
  have hdot : "." ++ String.ofList t = String.ofList ('.' :: t) := String.toList_injective (by simp)
  unfold hostKey
  rw [stripPrefix_eq_some ht]
  simp only [hdot, ite_none_right_eq_some, some.injEq]
  exact and_congr_right fun _ => eq_comm

theorem hostKey_of_plain (hw : ¬ IsWildcard w) :
    hostKey w = some key ↔ isValidDomain w ∧ key = w := by
  unfold hostKey
  rw [stripPrefix_eq_none hw]
  simp only [ite_none_right_eq_some, some.injEq]
  exact and_congr_right fun _ => eq_comm

/-- The keys that start with a dot are those of wildcards. -/
theorem startsWith_hostKey_iff (h : hostKey w = some key) :
    startsWith key "." ↔ IsWildcard w := by
  by_cases hw : IsWildcard w
  · obtain ⟨t, ht⟩ := isWildcard_iff.1 hw
    obtain ⟨-, rfl⟩ := (hostKey_of_wildcard ht).1 h
    simp [hw]
  · obtain ⟨hvalid, rfl⟩ := (hostKey_of_plain hw).1 h
    have hdot : ¬ startsWith key "." := by
      rw [startsWith_iff]
      rintro ⟨t, ht⟩
      exact (isValidDomain_iff.1 hvalid).1.ne_dot t ht.symm
    exact ⟨fun e => absurd e hdot, fun e => absurd e hw⟩

/-- **Hostnames have keys of their own.** -/
theorem hostKey_injective {w' : String} (h : hostKey w = some key)
    (h' : hostKey w' = some key) : w = w' := by
  have hiff := (startsWith_hostKey_iff h).symm.trans (startsWith_hostKey_iff h')
  by_cases hw : IsWildcard w
  · obtain ⟨t, ht⟩ := isWildcard_iff.1 hw
    obtain ⟨t', ht'⟩ := isWildcard_iff.1 (hiff.1 hw)
    have e := ((hostKey_of_wildcard ht).1 h).2
    have e' := ((hostKey_of_wildcard ht').1 h').2
    rw [e] at e'
    have hlist := String.ofList_injective e'
    exact String.toList_injective (by rw [ht, ht', hlist])
  · have e := ((hostKey_of_plain hw).1 h).2
    have e' := ((hostKey_of_plain fun hw' => hw (hiff.2 hw')).1 h').2
    exact e.symm.trans e'

/-- The names that are their own key are the valid ones. -/
theorem hostKey_self_iff : hostKey w = some w ↔ isValidDomain w := by
  by_cases hw : IsWildcard w
  · obtain ⟨t, ht⟩ := isWildcard_iff.1 hw
    rw [isValidDomain_of_wildcard hw, hostKey_of_wildcard ht]
    refine iff_of_false (fun ⟨_, e⟩ => ?_) Bool.false_ne_true
    have e' := congrArg String.toList e
    simp [ht] at e'
  · rw [hostKey_of_plain hw, and_iff_left rfl]

/-- The key of a wildcard, and what the wildcard covers in terms of it. -/
theorem over_iff_hostKey {x : String} (hw : IsWildcard w) (h : hostKey w = some key) :
    Over w x ↔ key.toList <:+ x.toList ∧ key.toList.length < x.toList.length := by
  obtain ⟨t, ht⟩ := isWildcard_iff.1 hw
  obtain ⟨-, rfl⟩ := (hostKey_of_wildcard ht).1 h
  rw [over_iff, String.toList_ofList, length_cons]
  constructor
  · rintro ⟨t', ht', hsuf, hlt⟩
    rw [ht] at ht'
    obtain rfl : t = t' := by simpa using ht'
    exact ⟨hsuf, hlt⟩
  · rintro ⟨hsuf, hlt⟩
    exact ⟨t, ht, hsuf, hlt⟩

/-- The characters of a key are of one byte each. -/
theorem len_hostKey (h : hostKey w = some key) : len key = key.toList.length := by
  refine len_eq_length fun c hc => ?_
  by_cases hw : IsWildcard w
  · obtain ⟨t, ht⟩ := isWildcard_iff.1 hw
    obtain ⟨hvalid, rfl⟩ := (hostKey_of_wildcard ht).1 h
    rw [String.toList_ofList, mem_cons] at hc
    obtain rfl | hc := hc
    · decide
    · exact (isValidDomain_iff.1 hvalid).1.utf8Size (by simpa using hc)
  · obtain ⟨hvalid, rfl⟩ := (hostKey_of_plain hw).1 h
    exact (isValidDomain_iff.1 hvalid).1.utf8Size hc

/-- A wildcard is one longer than its key. -/
theorem len_of_wildcard (hw : IsWildcard w) (h : hostKey w = some key) :
    len w = key.toList.length + 1 := by
  obtain ⟨t, ht⟩ := isWildcard_iff.1 hw
  obtain ⟨-, rfl⟩ := (hostKey_of_wildcard ht).1 h
  have hsplit : w.toList = ['*'] ++ (String.ofList ('.' :: t)).toList := by simp [ht]
  have hstar : len (String.ofList ['*']) = 1 := by decide
  rw [len_of_append hsplit, hstar, len_hostKey h]
  omega

@[simp] theorem getMut_new (k : String) : (new : HashHost T).getMut k = none := by
  unfold getMut
  simp

/-! ## What a lookup finds -/

/-- **The keys a lookup of `k` tries besides `k`**: the shorter ends of `k`
in the map that are as long as some wildcard key. -/
structure Probe (h : HashHost T) (k s : String) : Prop where
  stored : (h.map s).isSome
  suffix : s.toList <:+ k.toList
  shorter : s.toList.length < k.toList.length
  tracked : s.toList.length ∈ h.wildcardKeyLens

variable {h : HashHost T} {k s : String}

/-- The end of a domain name that has a given length. -/
theorem sliceFrom_end (hk : IsDomainName k) (hs : s.toList <:+ k.toList) :
    sliceFrom k (len k - s.toList.length) = s := by
  rw [len_eq_length fun c hc => hk.utf8Size hc]
  refine String.toList_injective ?_
  rw [toList_sliceFrom]
  exact (suffix_iff_eq_drop.1 hs).symm

/-- **`get` reads what `get_mut` points to.** -/
theorem get_eq_getMut (h : HashHost T) (k : String) : h.get k = (h.getMut k).bind h.map := by
  unfold get getMut
  split
  · rfl
  cases hk : h.map k with
  | some value => simp [hk]
  | none =>
    simp only [isSome_none, Bool.false_eq_true, if_false]
    induction h.wildcardKeyLens with
    | nil => rfl
    | cons n lens ih =>
      rw [findSome?_cons, findSome?_cons]
      by_cases hn : len k > n
      · simp only [if_pos hn]
        cases hm : h.map (sliceFrom k (len k - n)) with
        | some value => simp [hm]
        | none => simpa [hm] using ih
      · simpa only [if_neg hn] using ih

/-- What one turn of the loop over the lengths finds. -/
def probeAt (h : HashHost T) (k : String) (wkLen : ℕ) : Option String :=
  if len k > wkLen then
    let suffix := sliceFrom k (len k - wkLen)
    if (h.map suffix).isSome then some suffix else none
  else none

/-- The loop of `get_mut` over the lengths, for a valid name that is not a
key itself. -/
theorem getMut_of_valid (hk : isValidDomain k) :
    h.getMut k = if (h.map k).isSome then some k else h.wildcardKeyLens.findSome? (h.probeAt k) := by
  unfold getMut
  rw [hk]
  rfl

theorem probeAt_eq_some_iff (hk : IsDomainName k) :
    h.probeAt k n = some s ↔ (h.map s).isSome ∧ s.toList <:+ k.toList ∧
      s.toList.length = n ∧ n < k.toList.length := by
  have hlen : len k = k.toList.length := len_eq_length fun c hc => hk.utf8Size hc
  unfold probeAt
  constructor
  · intro hp
    by_cases hn : len k > n
    · rw [if_pos hn] at hp
      obtain ⟨hsome, e⟩ := ite_none_right_eq_some.1 hp
      cases e
      refine ⟨hsome, ?_, ?_, by omega⟩
      · rw [toList_sliceFrom]
        exact drop_suffix _ _
      · rw [toList_sliceFrom, length_drop]
        omega
    · rw [if_neg hn] at hp
      cases hp
  · rintro ⟨hsome, hsuf, rfl, hlt⟩
    rw [if_pos (by omega)]
    simp only [sliceFrom_end hk hsuf]
    rw [if_pos hsome]

/-- A probe is what some turn of the loop finds. -/
theorem probe_iff (hk : IsDomainName k) :
    h.Probe k s ↔ ∃ n ∈ h.wildcardKeyLens, h.probeAt k n = some s := by
  constructor
  · rintro ⟨hstored, hsuf, hlt, htrk⟩
    exact ⟨_, htrk, (probeAt_eq_some_iff hk).2 ⟨hstored, hsuf, rfl, hlt⟩⟩
  · rintro ⟨n, hn, hp⟩
    obtain ⟨hstored, hsuf, rfl, hlt⟩ := (probeAt_eq_some_iff hk).1 hp
    exact ⟨hstored, hsuf, hlt, hn⟩

/-- A lookup fails when neither the name nor any probe is a key. -/
theorem getMut_eq_none_iff (hk : isValidDomain k) :
    h.getMut k = none ↔ h.map k = none ∧ ∀ s, ¬ h.Probe k s := by
  have hname := (isValidDomain_iff.1 hk).1
  rw [getMut_of_valid hk]
  cases hm : h.map k with
  | some value => simp
  | none =>
    simp only [isSome_none, Bool.false_eq_true, if_false, findSome?_eq_none_iff,
      true_and, probe_iff hname]
    constructor
    · rintro hnone s ⟨n, hn, hp⟩
      rw [hnone n hn] at hp
      cases hp
    · intro hno n hn
      rw [eq_none_iff_forall_ne_some]
      exact fun s hp => hno s ⟨n, hn, hp⟩

/-- **A lookup of a name that is not a key finds the longest probe.** -/
theorem getMut_eq_some_iff (hk : isValidDomain k) (hm : h.map k = none) :
    h.getMut k = some s ↔
      h.Probe k s ∧ ∀ s', h.Probe k s' → s'.toList.length ≤ s.toList.length := by
  have hname := (isValidDomain_iff.1 hk).1
  -- what the loop finds is a longest probe
  have hfound : ∀ t, h.getMut k = some t →
      h.Probe k t ∧ ∀ s', h.Probe k s' → s'.toList.length ≤ t.toList.length := by
    intro t ht
    rw [getMut_of_valid hk, hm] at ht
    obtain ⟨n, hn, hp, hlong⟩ := findSome?_best h.sorted ht
    have hlen := ((probeAt_eq_some_iff hname).1 hp).2.2.1
    refine ⟨(probe_iff hname).2 ⟨n, hn, hp⟩, fun s' hs' => ?_⟩
    obtain ⟨m, hmem, hp'⟩ := (probe_iff hname).1 hs'
    have hlen' := ((probeAt_eq_some_iff hname).1 hp').2.2.1
    have hle := hlong m hmem (by simp [hp'])
    omega
  refine ⟨hfound s, fun ⟨hs, hlong⟩ => ?_⟩
  cases hg : h.getMut k with
  | none => exact absurd hs (((getMut_eq_none_iff hk).1 hg).2 s)
  | some t =>
    obtain ⟨ht, htlong⟩ := hfound t hg
    -- two ends of one name that are as long as each other
    have hle := hlong t ht
    have hge := htlong s hs
    have hst : s.toList <:+ t.toList := suffix_of_suffix_length_le hs.suffix ht.suffix (by omega)
    rw [String.toList_injective (hst.eq_of_length (by omega))]

theorem getMut_of_key (hk : isValidDomain k) (hm : (h.map k).isSome) :
    h.getMut k = some k := by
  rw [getMut_of_valid hk, if_pos hm]

end HashHost

end Edgion.HostMatch
