import Edgion.HostMatch.HashHost
import Edgion.HostMatch.RadixHost

/-!
# Host matching — three readings of a wildcard

A wildcard `*.d` is read on reversed labels by `RadixHost`, as a suffix by
`hostname_matches_listener`, and as a suffix of a registered length by
`HashHost`. On valid names in lower case they accept the same hosts.
-/

namespace Edgion.HostMatch

open Text Hostname List

universe u

variable {T : Type u} {d h : String}

/-- The host ends in `.d`, with something in front. -/
def EndsIn (d h : String) : Prop := ∃ front : String, front ≠ "" ∧ h = front ++ "." ++ d

theorem toList_star (d : String) : ("*." ++ d).toList = '*' :: '.' :: d.toList := by simp

theorem over_star_iff : Over ("*." ++ d) h ↔ EndsIn d h := by
  rw [over_iff, toList_star]
  constructor
  · rintro ⟨t, ht, ⟨front, hfront⟩, hlen⟩
    obtain rfl : d.toList = t := by simpa using ht
    rw [← hfront, length_append, length_cons] at hlen
    refine ⟨String.ofList front, ?_, String.toList_injective (by simp [← hfront])⟩
    rintro heq
    have hnil : front = [] := by simpa using congrArg String.toList heq
    simp [hnil] at hlen
  · rintro ⟨front, hne, rfl⟩
    have hpos : front.toList ≠ [] := by simpa using hne
    refine ⟨d.toList, rfl, ⟨front.toList, by simp⟩, ?_⟩
    have hlen := length_pos_of_ne_nil hpos
    simp
    omega

/-- A wildcard over a domain name has one star, and the name for its fixed part. -/
theorem hostMatches_star_iff (hd : IsDomainName d) : HostMatches ("*." ++ d) h ↔ EndsIn d h := by
  obtain ⟨label, labels, hlabels⟩ := exists_cons_of_ne_nil (splitOn_ne_nil '.' d.toList)
  have hsplit : ("*." ++ d).toList.splitOn '.' = ['*'] :: label :: labels := by
    rw [toList_star, Common.splitOn_cons_eq_if, if_neg (by decide), Common.splitOn_cons_eq_if,
      if_pos rfl, hlabels]
    rfl
  have hlabel : label ≠ ['*'] := by
    rintro rfl
    exact absurd (hd ['*'] (hlabels ▸ mem_cons_self)) (by decide)
  have hcount : wildcardCount ("*." ++ d) = 1 := by
    rw [wildcardCount, hsplit]
    simp [hlabel]
  have hstar : startsWith ("*." ++ d) "*" = true := by
    rw [startsWith_iff, toList_star]
    exact ⟨'.' :: d.toList, rfl⟩
  have hfixed : fixedPart ("*." ++ d) = d := by
    rw [fixedPart, if_pos hstar, hcount, hsplit, drop_one, tail_cons, ← hlabels,
      intercalate_splitOn, String.ofList_toList]
  rw [HostMatches, if_pos hstar, hfixed, hcount]
  refine exists_congr fun front => and_congr_right fun _ => and_iff_left ?_
  exact length_pos_of_ne_nil (splitOn_ne_nil '.' front.toList)

open HashHost

/-- **A map that holds one wildcard** finds the hosts under it. -/
theorem isSome_get_star_iff (hd : isValidDomain d) (hh : IsDomainName h) (v : T) :
    ((new.insert ("*." ++ d) v).1.get h).isSome ↔ EndsIn d h := by
  have hkey : hostKey ("*." ++ d) = some (String.ofList ('.' :: d.toList)) :=
    (hostKey_of_wildcard (toList_star d)).2 ⟨by rwa [String.ofList_toList], rfl⟩
  have hw : IsWildcard ("*." ++ d) := isWildcard_iff.2 ⟨_, toList_star d⟩
  rw [← over_star_iff, over_iff_hostKey hw hkey, insert_of_hostKey _ hkey]
  set key := String.ofList ('.' :: d.toList) with hkeyEq
  have hkeyList : key.toList = '.' :: d.toList := String.toList_ofList
  have hstored : ∀ s, ((new.insertKey key v).map s).isSome ↔ s = key := by
    intro s
    by_cases hs : s = key
    · simp [hs]
    · simp [insertKey_of_ne _ hs, hs]
  by_cases hvalid : isValidDomain h = true
  · have hplain : (new.insertKey key v).map h = none := by
      have hne : h ≠ key := fun heq => hh.ne_dot d.toList (heq ▸ hkeyList)
      rw [insertKey_of_ne _ hne, new_map]
    have htrk : key.toList.length ∈ (new.insertKey key v).wildcardKeyLens := by
      refine (mem_insertKey_wildcardKeyLens _ key v).2 (.inr ⟨?_, ?_⟩)
      · exact (startsWith_hostKey_iff hkey).2 hw
      · exact len_hostKey hkey
    constructor
    · intro hget
      by_contra hnot
      have hnone := (getMut_eq_none_iff hvalid).2 ⟨hplain, fun s hprobe => hnot ?_⟩
      · rw [get_eq_getMut, hnone] at hget
        cases hget
      · obtain rfl := (hstored s).1 hprobe.stored
        exact ⟨hprobe.suffix, hprobe.shorter⟩
    · rintro ⟨hsuf, hshorter⟩
      have hprobe : (new.insertKey key v).Probe h key :=
        ⟨(hstored key).2 rfl, hsuf, hshorter, htrk⟩
      have hfound := (getMut_eq_some_iff hvalid hplain).2
        ⟨hprobe, fun s hs => by rw [(hstored s).1 hs.stored]⟩
      rw [get_eq_getMut, hfound]
      exact (hstored key).2 rfl
  · -- a host without a dot is under no wildcard
    refine iff_of_false (by simp [HashHost.get, hvalid]) fun ⟨hsuf, _⟩ => hvalid ?_
    exact isValidDomain_iff.2 ⟨hh, hsuf.subset (hkeyList ▸ mem_cons_self)⟩

/-- **The three readings of `*.d` agree**: each accepts the hosts that end in `.d` with a label in
front. `toLowercase` leaves a text of lower-case ASCII characters as it is. -/
theorem wildcards_agree {toLowercase : String → String}
    (hlower : ∀ s, (∀ c ∈ s.toList, c.toNat < 128) → LowerCase s → toLowercase s = s)
    (hd : isValidDomain d = true) (hdlower : LowerCase d) (hh : IsDomainName h)
    (hhlower : LowerCase h) (v : T) :
    ((RadixHost.new toLowercase ("*." ++ d) v).matchesHost toLowercase h = true ↔ EndsIn d h) ∧
      (hostnameMatchesListener h ("*." ++ d) = true ↔ EndsIn d h) ∧
      (((new.insert ("*." ++ d) v).1.get h).isSome = true ↔ EndsIn d h) := by
  have hname := (isValidDomain_iff.1 hd).1
  have hascii : ∀ {s : String}, IsDomainName s → ∀ c ∈ s.toList, c.toNat < 128 := by
    intro s hs c hc
    have hsize := Char.utf8Size_eq_one_iff.1 (hs.utf8Size hc)
    have hle : c.toNat ≤ 127 := UInt32.le_iff_toNat_le.1 hsize
    omega
  have hstar : toLowercase ("*." ++ d) = "*." ++ d := by
    refine hlower _ (fun c hc => ?_) fun c hc => ?_ <;>
      rw [toList_star, mem_cons, mem_cons] at hc <;> rcases hc with rfl | rfl | hc
    · decide
    · decide
    · exact hascii hname c hc
    · decide
    · decide
    · exact hdlower c hc
  refine ⟨?_, ?_, isSome_get_star_iff hd hh v⟩
  · rw [RadixHost.matchesHost_iff, hstar, hlower h (hascii hh) hhlower, hostMatches_star_iff hname]
  · rw [hostnameMatchesListener_of_wildcard (isWildcard_iff.2 ⟨_, toList_star d⟩), over_star_iff]

theorem wildcards_agree_sample : EndsIn "example.com" "api.example.com" ∧
      (RadixHost.new id ("*." ++ "example.com") ()).matchesHost id "api.example.com" = true := by
  have hends : EndsIn "example.com" "api.example.com" := ⟨"api", by decide, by decide⟩
  exact ⟨hends, (wildcards_agree (fun _ _ _ => rfl) (by decide +kernel) (by decide +kernel)
    (by decide +kernel) (by decide +kernel) ()).1.2 hends⟩

end Edgion.HostMatch
