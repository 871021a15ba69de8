import Edgion.Common.Tables
import Edgion.HostMatch.HashHost

/-!
# Host matching — the hash map after a run of insertions

After any run of accepted insertions a lookup should find the name itself,
or else the longest wildcard that covers it. The loop over the lengths of
the wildcard keys does find that wildcard; but it does not look at where
the end it tries begins, so a plain name that is as long as the key of a
wildcard is found by every longer name that ends in it.
-/

namespace Edgion.HostMatch

open Text Hostname Common List

universe u

namespace HashHost

open List Option

variable {T : Type u} (inserts : List (String × T))

/-- The map after a run of insertions. -/
def insertAll : HashHost T :=
  inserts.foldl (fun h x => (h.insert x.1 x.2).1) new

/-- Every insertion of the run is accepted. -/
def Accepted : Prop := ∀ x ∈ inserts, (hostKey x.1).isSome

/-- A hostname that was inserted. -/
def Inserted (host : String) : Prop := ∃ v, (host, v) ∈ inserts

/-- The value last inserted for a hostname. -/
def lastValue (host : String) : Option T :=
  lastWrite (fun x => if x.1 = host then some x.2 else none) inserts

variable {inserts : List (String × T)} {k : String} {host : String}

theorem inserted_concat {x : String × T} :
    Inserted (inserts ++ [x]) host ↔ host = x.1 ∨ Inserted inserts host := by
  constructor
  · rintro ⟨v, hv⟩
    rcases mem_append.1 hv with hv | hv
    · exact .inr ⟨v, hv⟩
    · exact .inl (congrArg Prod.fst (mem_singleton.1 hv))
  · rintro (rfl | ⟨v, hv⟩)
    · exact ⟨x.2, mem_append_right _ mem_cons_self⟩
    · exact ⟨v, mem_append_left _ hv⟩

theorem Accepted.hostKey (h : Accepted inserts) (hhost : Inserted inserts host) :
    ∃ key, hostKey host = some key := by
  obtain ⟨v, hv⟩ := hhost
  exact isSome_iff_exists.1 (h _ hv)

theorem lastValue_isSome_iff : (lastValue inserts host).isSome ↔ Inserted inserts host := by
  rw [isSome_iff_ne_none, Ne, lastValue, lastWrite_eq_none_iff]
  simp only [ite_eq_right_iff, reduceCtorEq, imp_false, not_forall, not_not]
  constructor
  · rintro ⟨x, hx, rfl⟩
    exact ⟨x.2, hx⟩
  · rintro ⟨v, hv⟩
    exact ⟨_, hv, rfl⟩

/-! ## What the map holds -/

/-- **What a run of accepted insertions leaves**: each inserted hostname's
last value under its key and nothing else, and the lengths of the wildcard
keys. -/
structure Holds (inserts : List (String × T)) (h : HashHost T) : Prop where
  value : ∀ host key, hostKey host = some key → h.map key = lastValue inserts host
  stored : ∀ key, (h.map key).isSome → ∃ host, Inserted inserts host ∧ hostKey host = some key
  lens : ∀ n ∈ h.wildcardKeyLens, ∃ host, Inserted inserts host ∧ IsWildcard host ∧ len host = n + 1

section

variable (hacc : Accepted inserts)

include hacc

theorem holds_insertAll : Holds inserts (insertAll inserts) := by
  induction inserts using reverseRecOn with
  | nil =>
    exact ⟨fun _ _ _ => rfl, fun _ h => absurd h (by simp [insertAll]),
      fun _ h => by simp [insertAll] at h⟩
  | append_singleton inserts x ih =>
    have hold := ih fun y hy => hacc y (mem_append_left _ hy)
    obtain ⟨key, hkey⟩ := isSome_iff_exists.1 (hacc x (mem_append_right _ mem_cons_self))
    have hall : insertAll (inserts ++ [x]) = (insertAll inserts).insertKey key x.2 := by
      rw [insertAll, foldl_concat]
      exact insert_of_hostKey _ hkey x.2
    rw [hall]
    refine ⟨fun host key' hkey' => ?_, fun key' hsome => ?_, fun n hn => ?_⟩
    · rw [lastValue, lastWrite_concat]
      by_cases hhost : x.1 = host
      · subst hhost
        obtain rfl := some.inj (hkey.symm.trans hkey')
        rw [if_pos rfl, insertKey_self, some_or]
      · have hne : key' ≠ key := fun e => hhost (hostKey_injective hkey (e ▸ hkey'))
        rw [if_neg hhost, insertKey_of_ne _ hne, none_or]
        exact hold.value host key' hkey'
    · by_cases hne : key' = key
      · exact ⟨x.1, inserted_concat.2 (.inl rfl), hne ▸ hkey⟩
      · rw [insertKey_of_ne _ hne] at hsome
        obtain ⟨host, hhost, hkey'⟩ := hold.stored key' hsome
        exact ⟨host, inserted_concat.2 (.inr hhost), hkey'⟩
    · rcases (mem_insertKey_wildcardKeyLens _ key x.2).1 hn with hn | ⟨hdot, hlen⟩
      · obtain ⟨host, hhost, hrest⟩ := hold.lens n hn
        exact ⟨host, inserted_concat.2 (.inr hhost), hrest⟩
      · have hwild := (startsWith_hostKey_iff hkey).1 hdot
        refine ⟨x.1, inserted_concat.2 (.inl rfl), hwild, ?_⟩
        rw [len_of_wildcard hwild hkey, ← len_hostKey hkey, hlen]

variable {key p : String}

/-- The keys of the inserted hostnames are the keys of the map. -/
theorem isSome_map_iff {host : String} (hkey : hostKey host = some key) :
    ((insertAll inserts).map key).isSome ↔ Inserted inserts host := by
  rw [(holds_insertAll hacc).value host key hkey, lastValue_isSome_iff]

/-- An inserted wildcard that covers a name is tried for it. -/
theorem probe_of_over {w : String} (hw : Inserted inserts w)
    (hkey : hostKey w = some key) (hover : Over w k) : (insertAll inserts).Probe k key := by
  have hstored := (isSome_map_iff hacc hkey).2 hw
  obtain ⟨hsuf, hlt⟩ := (over_iff_hostKey hover.isWildcard hkey).1 hover
  refine ⟨hstored, hsuf, hlt, ?_⟩
  rw [← len_hostKey hkey]
  exact (insertAll inserts).tracked key hstored ((startsWith_hostKey_iff hkey).2 hover.isWildcard)

/-! ## The right entry -/

/-- **The hostname whose entry answers a name**: the name itself; without
it, the longest wildcard that covers the name; without one, none. -/
def Answers (inserts : List (String × T)) (k : String) : Option String → Prop
  | some w => (w = k ∧ Inserted inserts k) ∨
      (¬ Inserted inserts k ∧ Inserted inserts w ∧ Over w k ∧
        ∀ w', Inserted inserts w' → Over w' k → len w' ≤ len w)
  | none => ¬ Inserted inserts k ∧ ∀ w, Inserted inserts w → ¬ Over w k

/-- **A right lookup**: `get` returns the value last inserted for the
hostname that answers, and `get_mut` selects its entry. -/
def Right (inserts : List (String × T)) (k : String) : Prop :=
  ∃ answer, Answers inserts k answer ∧ (insertAll inserts).get k = answer.bind (lastValue inserts) ∧
    (insertAll inserts).getMut k = answer.bind hostKey

/-- `p` is a plain name that a lookup of `k` comes upon: `k` ends in it, and it
is as long as the key of some wildcard. -/
def Intrudes (inserts : List (String × T)) (k p : String) : Prop :=
  Inserted inserts p ∧ ¬ IsWildcard p ∧ endsWith k p = true ∧ len p < len k ∧
    ∃ w, Inserted inserts w ∧ IsWildcard w ∧ len w = len p + 1

/-- **No plain name is in the way** of the name: it is inserted itself, or a
longer wildcard covers it. -/
def Unobstructed (inserts : List (String × T)) (k : String) : Prop :=
  ∀ p, Intrudes inserts k p →
    Inserted inserts k ∨ ∃ w, Inserted inserts w ∧ Over w k ∧ len p + 1 < len w

/-- Where the entry is right, so is the value. -/
theorem right_of_getMut (answer : Option String) (hans : Answers inserts k answer)
    (hget : (insertAll inserts).getMut k = answer.bind hostKey) : Right inserts k := by
  refine ⟨answer, hans, ?_, hget⟩
  rw [get_eq_getMut, hget]
  cases answer with
  | none => rfl
  | some w =>
    have hw : Inserted inserts w := by
      rcases hans with ⟨rfl, hk⟩ | ⟨-, hw, -⟩
      · exact hk
      · exact hw
    obtain ⟨key, hkey⟩ := hacc.hostKey hw
    rw [bind_some, hkey, bind_some, bind_some]
    exact (holds_insertAll hacc).value w key hkey

omit hacc in
/-- The key of a plain name is the name, and it is not the key of a
wildcard. -/
theorem eq_of_plain_key (hp : ¬ IsWildcard p) (hkey : hostKey p = some key) :
    key = p := ((hostKey_of_plain hp).1 hkey).2

/-- What a lookup comes upon besides wildcards are the plain names in the
way. -/
theorem intrudes_of_probe {s : String} (hp : Inserted inserts p)
    (hkey : hostKey p = some s) (hplain : ¬ IsWildcard p) (hk : isValidDomain k)
    (hprobe : (insertAll inserts).Probe k s) : Intrudes inserts k p := by
  obtain rfl := eq_of_plain_key hplain hkey
  obtain ⟨w, hw, hwild, hlen⟩ := (holds_insertAll hacc).lens _ hprobe.tracked
  have hlenk : len k = k.toList.length :=
    len_eq_length fun c hc => (isValidDomain_iff.1 hk).1.utf8Size hc
  refine ⟨hp, hplain, by simpa using hprobe.suffix, ?_, w, hw, hwild, ?_⟩
  · rw [len_hostKey hkey, hlenk]
    exact hprobe.shorter
  · rw [hlen, len_hostKey hkey]

/-- A plain name in the way is tried. -/
theorem probe_of_intrudes (hk : isValidDomain k)
    (h : Intrudes inserts k p) : (insertAll inserts).Probe k p := by
  obtain ⟨hp, hplain, hend, hlt, w, hw, hwild, hlen⟩ := h
  obtain ⟨key, hkey⟩ := hacc.hostKey hp
  obtain rfl := eq_of_plain_key hplain hkey
  obtain ⟨wkey, hwkey⟩ := hacc.hostKey hw
  have hlenk : len k = k.toList.length :=
    len_eq_length fun c hc => (isValidDomain_iff.1 hk).1.utf8Size hc
  rw [hlenk, len_hostKey hkey] at hlt
  refine ⟨(isSome_map_iff hacc hkey).2 hp, by simpa using hend, hlt, ?_⟩
  -- the wildcard's key is as long as the name, and its length is on the list
  have htrk := (insertAll inserts).tracked wkey ((isSome_map_iff hacc hwkey).2 hw)
    ((startsWith_hostKey_iff hwkey).2 hwild)
  rw [len_of_wildcard hwild hwkey, len_hostKey hkey] at hlen
  rw [len_hostKey hwkey] at htrk
  rwa [Nat.add_right_cancel hlen] at htrk

theorem right_of_unobstructed (hk : isValidDomain k)
    (hfree : Unobstructed inserts k) : Right inserts k := by
  have hself : hostKey k = some k := hostKey_self_iff.2 hk
  by_cases hin : Inserted inserts k
  · refine right_of_getMut hacc (some k) (.inl ⟨rfl, hin⟩) ?_
    rw [getMut_of_key hk ((isSome_map_iff hacc hself).2 hin)]
    exact hself.symm
  have hnone : (insertAll inserts).map k = none := by
    rw [← not_isSome_iff_eq_none, isSome_map_iff hacc hself]
    exact hin
  rcases hget : (insertAll inserts).getMut k with _ | s
  · -- nothing is tried, so nothing covers the name
    refine right_of_getMut hacc none ⟨hin, fun w hw hover => ?_⟩ hget
    obtain ⟨key, hkey⟩ := hacc.hostKey hw
    exact ((getMut_eq_none_iff hk).1 hget).2 key (probe_of_over hacc hw hkey hover)
  · obtain ⟨hprobe, hlongest⟩ := (getMut_eq_some_iff hk hnone).1 hget
    obtain ⟨w, hw, hkey⟩ := (holds_insertAll hacc).stored s hprobe.stored
    have hwild : IsWildcard w := by
      by_contra hplain
      obtain rfl := eq_of_plain_key hplain hkey
      rcases hfree s (intrudes_of_probe hacc hw hkey hplain hk hprobe) with
        h | ⟨w', hw', hover, hlt⟩
      · exact hin h
      · -- a longer wildcard would have been found first
        obtain ⟨key', hkey'⟩ := hacc.hostKey hw'
        have hle := hlongest key' (probe_of_over hacc hw' hkey' hover)
        rw [len_of_wildcard hover.isWildcard hkey', len_hostKey hkey] at hlt
        omega
    have hover := (over_iff_hostKey hwild hkey).2 ⟨hprobe.suffix, hprobe.shorter⟩
    refine right_of_getMut hacc (some w) (.inr ⟨hin, hw, hover, fun w' hw' hover' => ?_⟩)
      (hget.trans hkey.symm)
    obtain ⟨key', hkey'⟩ := hacc.hostKey hw'
    have hle := hlongest key' (probe_of_over hacc hw' hkey' hover')
    rw [len_of_wildcard hover'.isWildcard hkey', len_of_wildcard hwild hkey]
    omega

theorem unobstructed_of_right (hk : isValidDomain k)
    (h : Right inserts k) : Unobstructed inserts k := by
  intro p hp
  by_cases hin : Inserted inserts k
  · exact .inl hin
  refine .inr ?_
  obtain ⟨answer, hans, -, hget⟩ := h
  have hprobe := probe_of_intrudes hacc hk hp
  have hnone : (insertAll inserts).map k = none := by
    rw [← not_isSome_iff_eq_none, isSome_map_iff hacc (hostKey_self_iff.2 hk)]
    exact hin
  cases answer with
  | none => exact absurd hprobe (((getMut_eq_none_iff hk).1 hget).2 p)
  | some w =>
    obtain ⟨rfl, hk'⟩ | ⟨-, hw, hover, -⟩ := hans
    · exact absurd hk' hin
    obtain ⟨key, hkey⟩ := hacc.hostKey hw
    rw [bind_some, hkey] at hget
    obtain ⟨hprobe', hlongest⟩ := (getMut_eq_some_iff hk hnone).1 hget
    obtain ⟨pkey, hpkey⟩ := hacc.hostKey hp.1
    obtain rfl := eq_of_plain_key hp.2.1 hpkey
    have hle := hlongest pkey hprobe
    -- two ends of one length are the same, but only one of them starts with a dot
    have hne : pkey.toList.length ≠ key.toList.length := by
      intro e
      have hsuf := suffix_of_suffix_length_le hprobe.suffix hprobe'.suffix e.le
      have hsame : pkey = key := String.toList_injective (hsuf.eq_of_length e)
      exact hp.2.1 (hostKey_injective hpkey (hsame ▸ hkey) ▸ hover.isWildcard)
    refine ⟨w, hw, hover, ?_⟩
    rw [len_of_wildcard hover.isWildcard hkey, len_hostKey hpkey]
    omega

end

/-- **When a lookup is right**, after any run of accepted insertions and for
every valid name. -/
theorem right_iff_unobstructed (hacc : Accepted inserts) (hk : isValidDomain k = true) :
    Right inserts k ↔ Unobstructed inserts k :=
  ⟨unobstructed_of_right hacc hk, right_of_unobstructed hacc hk⟩

/-- A wildcard, and a plain name as long as its key. -/
def wildcardAndName : List (String × ℕ) := [("*.foo.com", 1), ("ab.c.com", 2)]

theorem inserted_wildcardAndName (h : Inserted wildcardAndName host) :
    host = "*.foo.com" ∨ host = "ab.c.com" := by
  obtain ⟨v, hv⟩ := h
  simp only [wildcardAndName, mem_cons, Prod.mk.injEq, not_mem_nil, or_false] at hv
  exact hv.imp And.left And.left

/-- A name under the wildcard is answered by it. -/
theorem right_iff_unobstructed_wildcard : Right wildcardAndName "x.foo.com" ∧
      (insertAll wildcardAndName).get "x.foo.com" = some 1 := by
  refine ⟨(right_iff_unobstructed (by unfold Accepted; decide +kernel) (by decide +kernel)).2
    fun p ⟨hp, hplain, hend, _⟩ => ?_, by decide +kernel⟩
  obtain rfl | rfl := inserted_wildcardAndName hp
  · exact absurd (by decide +kernel) hplain
  · exact absurd hend (by decide +kernel)

/-- **A name that merely ends in an inserted one is answered by it**, though no
wildcard covers it. -/
theorem not_right_longerName : Accepted wildcardAndName ∧ isValidDomain "zab.c.com" = true ∧
      (insertAll wildcardAndName).get "zab.c.com" = some 2 ∧
      Answers wildcardAndName "zab.c.com" none ∧ ¬ Right wildcardAndName "zab.c.com" := by
  have hacc : Accepted wildcardAndName := by
    unfold Accepted
    decide +kernel
  have hout : ¬ Inserted wildcardAndName "zab.c.com" := by
    intro h
    rcases inserted_wildcardAndName h with e | e <;> exact absurd e (by decide +kernel)
  have hcovered : ∀ w, Inserted wildcardAndName w → ¬ Over w "zab.c.com" := by
    intro w hw
    obtain rfl | rfl := inserted_wildcardAndName hw <;> decide +kernel
  refine ⟨hacc, by decide +kernel, by decide +kernel, ⟨hout, hcovered⟩, fun hright => ?_⟩
  have hintrudes : Intrudes wildcardAndName "zab.c.com" "ab.c.com" :=
    ⟨⟨2, by simp [wildcardAndName]⟩, by decide +kernel, by decide +kernel, by decide +kernel,
      "*.foo.com", ⟨1, by simp [wildcardAndName]⟩, by decide +kernel, by decide +kernel⟩
  rcases unobstructed_of_right hacc (by decide +kernel) hright _ hintrudes with h | ⟨w, hw, hover, -⟩
  · exact hout h
  · exact hcovered w hw hover

end HashHost

/-! ## Removals from the hash map

`remove` takes its argument for a key of the map, though `insert` stores a wildcard under another
one. So it undoes the insertion of a plain name only: a wildcard stays, and the lengths of the
wildcard keys are never taken back. -/

namespace HashHost

open List Option Function

variable {T : Type u}

/-- The map without a key. -/
def removeKey (h : HashHost T) (k : String) : HashHost T where
  map := update h.map k none
  wildcardKeyLens := h.wildcardKeyLens
  sorted := h.sorted
  tracked := by
    intro k' hk'
    refine h.tracked k' ?_
    by_cases e : k' = k
    · simp [e] at hk'
    · rwa [update_of_ne e] at hk'

def remove (h : HashHost T) (k : String) : HashHost T × Option T := (h.removeKey k, h.map k)

/-- A call that changes a `HashHost`. -/
inductive Call (T : Type u) where
  | insert (k : String) (v : T)
  | remove (k : String)

variable (calls : List (Call T))

/-- The map after a run of calls. -/
def runCalls : HashHost T :=
  calls.foldl (fun h call => match call with
    | .insert k v => (h.insert k v).1
    | .remove k => (h.remove k).1) new

/-- **The insertions that survive** a run of calls: those of no name that is removed later. -/
def survivors : List (String × T) :=
  calls.foldl (fun inserts call => match call with
    | .insert k v => inserts ++ [(k, v)]
    | .remove k => inserts.filter (·.1 ≠ k)) []

/-- **A removal that can undo an insertion**: of a name that is its own key, or of one under which
nothing is stored, neither as it is nor under the key `insert` would use. -/
def Undoes (h : HashHost T) (k : String) : Prop :=
  hostKey k = some k ∨ h.map k = none ∧ ∀ key, hostKey k = some key → h.map key = none

theorem ext_of {h h' : HashHost T} (hmap : h.map = h'.map)
    (hlens : h.wildcardKeyLens = h'.wildcardKeyLens) : h = h' := by
  cases h
  cases h'
  cases hmap
  cases hlens
  rfl

variable {inserts : List (String × T)} {k : String}

theorem insertAll_concat (inserts : List (String × T)) (x : String × T) :
    insertAll (inserts ++ [x]) = ((insertAll inserts).insert x.1 x.2).1 := by
  rw [insertAll, foldl_concat]
  rfl

/-- **The removal of a plain name undoes its insertions.** -/
theorem removeKey_of_plain (hk : hostKey k = some k) :
    (insertAll inserts).removeKey k = insertAll (inserts.filter (·.1 ≠ k)) := by
  induction inserts using reverseRecOn with
  | nil => exact ext_of (update_eq_self k fun _ => none) rfl
  | append_singleton inserts x ih =>
    rw [insertAll_concat, filter_append]
    by_cases hx : x.1 = k
    · have hfilter : [x].filter (·.1 ≠ k) = [] := by simp [hx]
      -- the name is not a wildcard, so no length was added for it
      have hdot : ¬ startsWith k "." = true := fun hdot =>
        not_isWildcard_of_valid (hostKey_self_iff.1 hk) ((startsWith_hostKey_iff hk).1 hdot)
      rw [hfilter, append_nil, ← ih, hx, insert_of_hostKey _ hk]
      refine ext_of (update_idem ..) ?_
      exact if_neg hdot
    · have hfilter : [x].filter (·.1 ≠ k) = [x] := by simp [hx]
      rw [hfilter, insertAll_concat, ← ih]
      rcases hkey : hostKey x.1 with _ | key
      · rw [insert_of_not_hostKey _ hkey, insert_of_not_hostKey _ hkey]
      · have hne : key ≠ k := fun e => hx (hostKey_injective hkey (e ▸ hk))
        rw [insert_of_hostKey _ hkey, insert_of_hostKey _ hkey]
        exact ext_of (update_comm hne _ _ _) rfl

/-- Where nothing is stored for a name, its insertions were refused. -/
theorem insertAll_filter (hk : ∀ key, hostKey k = some key → (insertAll inserts).map key = none) :
    insertAll (inserts.filter (·.1 ≠ k)) = insertAll inserts := by
  induction inserts using reverseRecOn with
  | nil => rfl
  | append_singleton inserts x ih =>
    rw [insertAll_concat] at hk
    rw [insertAll_concat, filter_append]
    by_cases hx : x.1 = k
    · rcases hkey : hostKey x.1 with _ | key
      · have hfilter : [x].filter (·.1 ≠ k) = [] := by simp [hx]
        rw [insert_of_not_hostKey _ hkey] at hk ⊢
        rw [hfilter, append_nil, ih hk]
      · have hstored := hk key (hx ▸ hkey)
        rw [insert_of_hostKey _ hkey, insertKey_self] at hstored
        cases hstored
    · have hfilter : [x].filter (·.1 ≠ k) = [x] := by simp [hx]
      rw [hfilter, insertAll_concat, ih fun key hkey => ?_]
      have hnone := hk key hkey
      rcases hkey' : hostKey x.1 with _ | key'
      · rwa [insert_of_not_hostKey _ hkey'] at hnone
      · have hne : key ≠ key' := fun e => hx (hostKey_injective hkey' (e ▸ hkey))
        rwa [insert_of_hostKey _ hkey', insertKey_of_ne _ hne] at hnone

/-- **A run of calls leaves what the surviving insertions make**, if each of its removals can undo
an insertion. -/
theorem runCalls_eq {calls : List (Call T)}
    (h : ∀ before k after, calls = before ++ .remove k :: after → Undoes (runCalls before) k) :
    runCalls calls = insertAll (survivors calls) := by
  induction calls using reverseRecOn with
  | nil => rfl
  | append_singleton calls call ih =>
    have hold := ih fun before k after heq => h before k (after ++ [call]) (by simp [heq])
    rw [runCalls, survivors, foldl_concat, foldl_concat, ← runCalls, ← survivors]
    cases call with
    | insert k v => exact hold ▸ (insertAll_concat (survivors calls) (k, v)).symm
    | remove k =>
      rcases h calls k [] rfl with hplain | ⟨hnone, hkey⟩
      · rw [hold]
        exact removeKey_of_plain hplain
      · rw [hold] at hnone hkey
        rw [insertAll_filter hkey, hold]
        exact ext_of (update_eq_self_iff.2 hnone.symm) rfl

/-- **Lookups after a run of calls are those of the surviving insertions**, in every run whose
removals can undo an insertion. -/
theorem lookups_of_survivors {calls : List (Call T)}
    (h : ∀ before k after, calls = before ++ .remove k :: after → Undoes (runCalls before) k)
    (host : String) :
    (runCalls calls).get host = (insertAll (survivors calls)).get host ∧
      (runCalls calls).getMut host = (insertAll (survivors calls)).getMut host := by
  rw [runCalls_eq h]
  exact ⟨rfl, rfl⟩

/-- A plain name is removed and a wildcard of the same length stays. -/
def plainRemoved : List (Call ℕ) :=
  [.insert "*.foo.com" 1, .insert "Ab.c.com" 2, .remove "Ab.c.com"]

theorem lookups_of_survivors_plainRemoved :
    (runCalls plainRemoved).get "x.foo.com" = (insertAll (survivors plainRemoved)).get "x.foo.com" ∧
      (runCalls plainRemoved).getMut "x.foo.com" =
        (insertAll (survivors plainRemoved)).getMut "x.foo.com" := by
  refine lookups_of_survivors (fun before k after heq => .inl ?_) _
  have hk : Call.remove k ∈ plainRemoved := by
    rw [heq]
    simp
  obtain rfl : k = "Ab.c.com" := by simpa [plainRemoved] using hk
  decide +kernel

/-- **A wildcard is not removed**: the lookup still finds it. -/
theorem remove_wildcard_stays :
    (runCalls [.insert "*.foo.com" 1, .remove "*.foo.com"]).get "x.foo.com" = some 1 ∧
      survivors [Call.insert "*.foo.com" 1, .remove "*.foo.com"] = [] ∧
      (insertAll ([] : List (String × ℕ))).get "x.foo.com" = none := by
  decide +kernel

end HashHost

end Edgion.HostMatch
