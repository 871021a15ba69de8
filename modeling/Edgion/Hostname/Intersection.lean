import Edgion.Common.Nested
import Edgion.Common.Parts
import Edgion.Hostname.Model
import Mathlib.Order.WithBot

/-!
# Hostnames — the intersection of two

A wildcard covers the names that end in its suffix and have more in
front of it. Wildcards that cover one name in common have suffixes of
that name for suffixes, and so lie one inside the other: hostnames are a
nested family, and the controller's intersection is its `meet`. The
controller's test for acceptance and the data plane's matching are then
read on the same family.
-/

namespace Edgion.Hostname

open Text Common List Char

/-! ## Wildcards and what they cover -/

/-- A hostname with a leading `*.`. -/
def IsWildcard (w : String) : Prop := startsWith w "*." = true

instance (w : String) : Decidable (IsWildcard w) := inferInstanceAs (Decidable (_ = true))

/-- **A wildcard covers a text** that ends in its suffix and is longer. -/
def Over (w x : String) : Prop :=
  IsWildcard w ∧ endsWith x (sliceFrom w 1) = true ∧ len (sliceFrom w 1) < len x

instance : DecidableRel Over := fun _ _ => inferInstanceAs (Decidable (_ ∧ _))

variable {w x L R h : String}

theorem isWildcard_iff : IsWildcard w ↔ ∃ t, w.toList = '*' :: '.' :: t := by
  have hpat : "*.".toList = ['*', '.'] := by decide
  unfold IsWildcard
  rw [startsWith_iff, hpat]
  constructor
  · rintro ⟨t, ht⟩
    exact ⟨t, ht.symm⟩
  · rintro ⟨t, ht⟩
    exact ⟨t, ht.symm⟩

/-- Covering, on characters. -/
theorem over_iff : Over w x ↔ ∃ t, w.toList = '*' :: '.' :: t ∧
    '.' :: t <:+ x.toList ∧ t.length + 1 < x.toList.length := by
  unfold Over
  rw [isWildcard_iff, endsWith_iff, toList_sliceFrom]
  constructor
  · rintro ⟨⟨t, ht⟩, hend, hlen⟩
    have hend' : (sliceFrom w 1).toList <:+ x.toList := by rwa [toList_sliceFrom]
    rw [len_lt_iff_of_suffix hend', toList_sliceFrom, ht] at hlen
    rw [ht] at hend
    exact ⟨t, ht, hend, hlen⟩
  · rintro ⟨t, ht, hend, hlen⟩
    have hend' : (sliceFrom w 1).toList <:+ x.toList := by rw [toList_sliceFrom, ht]; exact hend
    refine ⟨⟨t, ht⟩, by rwa [toList_sliceFrom] at hend', ?_⟩
    rw [len_lt_iff_of_suffix hend', toList_sliceFrom, ht]
    exact hlen

theorem Over.isWildcard (hw : Over w x) : IsWildcard w := hw.1

/-- A wildcard covers its own text. -/
theorem IsWildcard.over_self (hw : IsWildcard w) : Over w w := by
  obtain ⟨t, ht⟩ := isWildcard_iff.1 hw
  refine over_iff.2 ⟨t, ht, ?_, ?_⟩
  · rw [ht]
    exact suffix_cons _ _
  · rw [ht]
    simp

variable {t : List Char} {s : List Char}

/-- Between wildcards, covering is the order of their suffixes. -/
theorem over_iff_of_wildcard (hw : w.toList = '*' :: '.' :: s)
    (hx : x.toList = '*' :: '.' :: t) : Over w x ↔ '.' :: s <:+ '.' :: t := by
  rw [over_iff, hx]
  constructor
  · rintro ⟨s', hs', hend, hlen⟩
    rw [hw] at hs'
    obtain rfl : s = s' := by simpa using hs'
    rw [suffix_cons_iff] at hend
    obtain e | hend := hend
    · simp at e
    · exact hend
  · intro hend
    refine ⟨s, hw, hend.trans (suffix_cons _ _), ?_⟩
    have hle := hend.length_le
    simp only [length_cons] at hle ⊢
    omega

/-- **Hostnames are a nested family.** -/
theorem nested_over : Nested Over where
  trans a b c hab hbc := by
    obtain ⟨s, hs⟩ := isWildcard_iff.1 hab.isWildcard
    obtain ⟨t, ht, hend, hlen⟩ := over_iff.1 hbc
    have hst := (over_iff_of_wildcard hs ht).1 hab
    have hle := hst.length_le
    simp only [length_cons] at hle
    exact over_iff.2 ⟨s, hs, hst.trans hend, by omega⟩
  antisymm a b hab hba := by
    obtain ⟨s, hs⟩ := isWildcard_iff.1 hab.isWildcard
    obtain ⟨t, ht⟩ := isWildcard_iff.1 hba.isWildcard
    have h1 := (over_iff_of_wildcard hs ht).1 hab
    have h2 := (over_iff_of_wildcard ht hs).1 hba
    have e : '.' :: s = '.' :: t := h1.eq_of_length (le_antisymm h1.length_le h2.length_le)
    exact String.toList_injective (by rw [hs, ht, e])
  linear a b h ha hb := by
    obtain ⟨s, hs, hends, -⟩ := over_iff.1 ha
    obtain ⟨t, ht, hendt, -⟩ := over_iff.1 hb
    obtain hst | hts := suffix_or_suffix_of_suffix hends hendt
    · exact .inr (.inl ((over_iff_of_wildcard hs ht).2 hst))
    · exact .inr (.inr ((over_iff_of_wildcard ht hs).2 hts))

/-! ## The controller's intersection is the meet -/

/-- The source's test between two wildcards, whose suffixes it compares. -/
theorem suffix_test_iff (hL : IsWildcard L) (hR : IsWildcard R) (hne : L ≠ R) :
    (endsWith (sliceFrom R 1) (sliceFrom L 1) ∧
      len (sliceFrom R 1) > len (sliceFrom L 1)) ↔ Over L R := by
  obtain ⟨s, hs⟩ := isWildcard_iff.1 hL
  obtain ⟨t, ht⟩ := isWildcard_iff.1 hR
  have hsl : (sliceFrom L 1).toList = '.' :: s := by rw [toList_sliceFrom, hs]; rfl
  have htl : (sliceFrom R 1).toList = '.' :: t := by rw [toList_sliceFrom, ht]; rfl
  rw [over_iff_of_wildcard hs ht, endsWith_iff, hsl, htl]
  refine ⟨And.left, fun hend => ⟨hend, ?_⟩⟩
  have hlt : (sliceFrom L 1).toList.length < (sliceFrom R 1).toList.length := by
    rw [hsl, htl]
    refine lt_of_le_of_ne hend.length_le fun hlen => hne (String.toList_injective ?_)
    rw [hs, ht, hend.eq_of_length hlen]
  exact (len_lt_iff_of_suffix (by rw [hsl, htl]; exact hend)).2 hlt

theorem sliceFrom_ne (hL : IsWildcard L) (hR : IsWildcard R) (hne : L ≠ R) :
    sliceFrom L 1 ≠ sliceFrom R 1 := by
  obtain ⟨s, hs⟩ := isWildcard_iff.1 hL
  obtain ⟨t, ht⟩ := isWildcard_iff.1 hR
  intro e
  have e' := congrArg String.toList e
  rw [toList_sliceFrom, toList_sliceFrom, hs, ht] at e'
  exact hne (String.toList_injective (by rw [hs, ht]; exact congrArg _ e'))

/-- **The controller's intersection is the meet of the nested family.** -/
theorem computeHostnameIntersection_eq_meet (L R : String) :
    computeHostnameIntersection L R = meet Over L R := by
  unfold computeHostnameIntersection meet
  by_cases hLR : L = R
  · simp [hLR]
  rw [if_neg hLR, if_neg hLR]
  -- one case for each row of the source's match on the two wildcard flags
  cases hl : startsWith L "*." <;> cases hr : startsWith R "*."
  · have h1 : ¬ Over L R := fun h => by simpa [hl] using h.isWildcard.symm
    have h2 : ¬ Over R L := fun h => by simpa [hr] using h.isWildcard.symm
    simp [h1, h2]
  · have h1 : ¬ Over L R := fun h => by simpa [hl] using h.isWildcard.symm
    have h2 : Over R L ↔ _ := and_iff_right hr
    simp [h1, h2]
  · have h1 : Over L R ↔ _ := and_iff_right hl
    have h2 : ¬ Over R L := fun h => by simpa [hr] using h.isWildcard.symm
    simp [h1, h2]
  · have hne := sliceFrom_ne hl hr hLR
    have h1 := suffix_test_iff hl hr hLR
    have h2 := suffix_test_iff hr hl (Ne.symm hLR)
    simp only [if_neg hne, h1, h2]

/-! ## Valid hostnames -/

/-- The characters of a label are their own lower case. -/
theorem toLower_of_isAlnum {c : Char} (hc : isAlnum c) : c.toLower = c := by
  have hup : ¬ (c.val ≥ 'A'.val ∧ c.val ≤ 'Z'.val) := by
    delta isAlnum isLower isDigit at hc
    simp [UInt32.le_iff_toNat_le] at hc ⊢
    omega
  delta toLower
  exact dif_neg hup

theorem toLower_of_isName {cs : List Char} (hcs : isName cs) {c : Char} (hc : c ∈ cs) :
    c.toLower = c := by
  by_cases hdot : c = '.'
  · rw [hdot]
    decide
  obtain ⟨part, hpart, hmem⟩ := exists_mem_splitOn_iff.2 ⟨hc, hdot⟩
  have hlabel := all_eq_true.1 hcs part hpart
  simp only [isLabel, Bool.and_eq_true, all_eq_true, Bool.or_eq_true, beq_iff_eq] at hlabel
  obtain hal | rfl := hlabel.1.1 c hmem
  · exact toLower_of_isAlnum hal
  · decide

theorem not_isName_dot (cs : List Char) : isName ('.' :: cs) = false := by
  unfold isName
  rw [splitOn_eq_splitOnP, splitOnP_cons_eq_if_modifyHead]
  simp [isLabel]

/-- **A valid hostname is in lower case.** -/
theorem ValidHostname.lowerCase (hs : ValidHostname w) : LowerCase w := by
  intro c hc
  obtain hname | ⟨hwild, hname⟩ := hs
  · exact toLower_of_isName hname hc
  obtain ⟨t, ht⟩ := isWildcard_iff.1 hwild
  rw [ht] at hc hname
  simp only [mem_cons] at hc
  obtain rfl | rfl | hc := hc
  · decide
  · decide
  · exact toLower_of_isName hname hc

/-- A plain valid hostname does not start with a dot. -/
theorem ValidHostname.ne_dot (hs : ValidHostname w) (hw : ¬ IsWildcard w) (t : List Char) :
    w.toList ≠ '.' :: t := by
  intro e
  obtain hname | ⟨hwild, -⟩ := hs
  · rw [e, not_isName_dot] at hname
    simp at hname
  · exact hw hwild

/-! ## The acceptance test -/

theorem stripPrefix_eq_some (hw : w.toList = '*' :: '.' :: t) :
    stripPrefix w "*." = some (String.ofList t) := by
  have hwild : startsWith w "*." = true := isWildcard_iff.2 ⟨t, hw⟩
  have hlen : "*.".toList.length = 2 := by decide
  unfold stripPrefix sliceFrom
  rw [if_pos hwild, hlen, hw]
  rfl

theorem stripPrefix_eq_none (hw : ¬ IsWildcard w) : stripPrefix w "*." = none := if_neg hw

/-- A plain valid hostname that ends in a dot and a wildcard's name is
under the wildcard. -/
theorem endsWith_dot_iff_over (hw : w.toList = '*' :: '.' :: t)
    (hx : ValidHostname x) (hplain : ¬ IsWildcard x) :
    endsWith x ("." ++ String.ofList t) ↔ Over w x := by
  have hdot : ("." ++ String.ofList t).toList = '.' :: t := by simp
  rw [endsWith_iff, over_iff, hdot]
  constructor
  · intro hend
    refine ⟨t, hw, hend, lt_of_le_of_ne hend.length_le fun hlen => ?_⟩
    exact hx.ne_dot hplain t (hend.eq_of_length hlen).symm
  · rintro ⟨t', ht', hend, -⟩
    rw [hw] at ht'
    obtain rfl : t = t' := by simpa using ht'
    exact hend

/-- The same between two wildcards, once their dots are stripped. -/
theorem endsWith_dot_iff_over_wildcard (hw : w.toList = '*' :: '.' :: s)
    (hx : x.toList = '*' :: '.' :: t) (hne : w ≠ x) :
    endsWith (String.ofList t) ("." ++ String.ofList s) ↔ Over w x := by
  have hst : s ≠ t := fun e => hne (String.toList_injective (by rw [hw, hx, e]))
  have hdot : ("." ++ String.ofList s).toList = '.' :: s := by simp
  rw [endsWith_iff, over_iff_of_wildcard hw hx, hdot, suffix_cons_iff]
  simp [hst]

/-- **The acceptance test asks whether the two hostnames meet.** -/
theorem hostnamesIntersect_iff (hL : ValidHostname L) (hR : ValidHostname R) :
    hostnamesIntersect L R ↔ (computeHostnameIntersection L R).isSome := by
  rw [computeHostnameIntersection_eq_meet, meet_isSome_iff]
  unfold hostnamesIntersect
  by_cases hLR : L = R
  · simp [hLR]
  rw [if_neg hLR]
  by_cases hl : IsWildcard L <;> by_cases hr : IsWildcard R
  · obtain ⟨s, hs⟩ := isWildcard_iff.1 hl
    obtain ⟨t, ht⟩ := isWildcard_iff.1 hr
    have hst : ¬ String.ofList t = String.ofList s := fun e =>
      hLR (String.toList_injective (by rw [hs, ht, String.ofList_injective e]))
    have h1 := endsWith_dot_iff_over_wildcard hs ht hLR
    have h2 := endsWith_dot_iff_over_wildcard ht hs (Ne.symm hLR)
    rw [stripPrefix_eq_some hs, stripPrefix_eq_some ht]
    simp only [Bool.or_eq_true, beq_iff_eq, h1, h2, hst, hLR, false_or]
  · obtain ⟨s, hs⟩ := isWildcard_iff.1 hl
    have hno : ¬ Over R L := fun e => hr e.isWildcard
    rw [stripPrefix_eq_some hs, stripPrefix_eq_none hr]
    simp only [endsWith_dot_iff_over hs hR hr, hLR, hno, false_or, or_false]
  · obtain ⟨t, ht⟩ := isWildcard_iff.1 hr
    have hno : ¬ Over L R := fun e => hl e.isWildcard
    rw [stripPrefix_eq_some ht, stripPrefix_eq_none hl]
    simp only [endsWith_dot_iff_over ht hL hl, hLR, hno, false_or]
  · have h1 : ¬ Over L R := fun e => hl e.isWildcard
    have h2 : ¬ Over R L := fun e => hr e.isWildcard
    rw [stripPrefix_eq_none hl, stripPrefix_eq_none hr]
    simp [hLR, h1, h2]

/-! ## The data plane's matching -/

theorem hostnameMatchesListener_of_wildcard (hw : IsWildcard w) :
    hostnameMatchesListener h w ↔ Over w h := by
  have hw' : startsWith w "*." = true := hw
  unfold hostnameMatchesListener Over
  rw [if_pos hw']
  by_cases hend : endsWith h (sliceFrom w 1) = true
  · simp only [hend, hw, Bool.not_true, Bool.false_eq_true, if_false, decide_eq_true_eq, true_and]
    omega
  · simp [hend]

theorem hostnameMatchesListener_of_plain (hw : ¬ IsWildcard w) :
    hostnameMatchesListener h w ↔ eqIgnoreAsciiCase h w := by
  have hw' : ¬ startsWith w "*." = true := hw
  unfold hostnameMatchesListener
  rw [if_neg hw']

/-- **The intersection is exact at a host** when the host matches both
hostnames exactly if it matches what the controller computed. -/
def ExactAt (L R h : String) : Prop :=
  (hostnameMatchesListener h L = true ∧ hostnameMatchesListener h R = true) ↔
    ∃ I, computeHostnameIntersection L R = some I ∧ hostnameMatchesListener h I = true

/-- **A host split by letter case** between a wildcard and a plain name
under it: the plain name is compared ignoring case and takes the host, the
wildcard is compared as written and does not. -/
def CaseSplit (w n h : String) : Prop :=
  Over w n ∧ ¬ IsWildcard n ∧ eqIgnoreAsciiCase h n = true ∧ ¬ Over w h

instance (w n h : String) : Decidable (CaseSplit w n h) := inferInstanceAs (Decidable (_ ∧ _))

theorem exactAt_comm : ExactAt L R h ↔ ExactAt R L h := by
  unfold ExactAt
  rw [computeHostnameIntersection_eq_meet, computeHostnameIntersection_eq_meet,
    nested_over.meet_comm, and_comm]

/-- A wildcard in lower case that covers a host covers the host's lower
case. -/
theorem over_of_eqIgnoreAsciiCase (hw : LowerCase w) (hx : LowerCase x)
    (heq : eqIgnoreAsciiCase h x) (hover : Over w h) : Over w x := by
  obtain ⟨t, ht, hend, hlen⟩ := over_iff.1 hover
  rw [eqIgnoreAsciiCase_iff, hx.map_toLower] at heq
  have hmem : ∀ c ∈ '.' :: t, c.toLower = c := fun c hc =>
    hw c (by rw [ht]; exact mem_cons_of_mem _ hc)
  have hmap : ('.' :: t).map toLower = '.' :: t := by
    rw [map_congr_left (g := id) hmem, map_id]
  refine over_iff.2 ⟨t, ht, ?_, ?_⟩
  · rw [← heq, ← hmap]
    exact hend.map _
  · rw [← heq, length_map]
    exact hlen

theorem exactAt_iff_of_plain (hL : ValidHostname L) (hR : ValidHostname R)
    (hl : ¬ IsWildcard L) (hr : ¬ IsWildcard R) : ExactAt L R h := by
  have h1 : ¬ Over L R := fun e => hl e.isWildcard
  have h2 : ¬ Over R L := fun e => hr e.isWildcard
  unfold ExactAt
  rw [computeHostnameIntersection_eq_meet, meet]
  by_cases hLR : L = R
  · simp [hLR]
  rw [if_neg hLR, if_neg h1, if_neg h2, hostnameMatchesListener_of_plain hl,
    hostnameMatchesListener_of_plain hr, eqIgnoreAsciiCase_iff, eqIgnoreAsciiCase_iff,
    hL.lowerCase.map_toLower, hR.lowerCase.map_toLower]
  have hne : ¬ (h.toList.map toLower = L.toList ∧ h.toList.map toLower = R.toList) :=
    fun e => hLR (String.toList_injective (e.1.symm.trans e.2))
  simp [hne]

theorem exactAt_iff_of_wildcard (hl : IsWildcard L) (hr : IsWildcard R) : ExactAt L R h := by
  have hself : ∀ w, IsWildcard w → (hostnameMatchesListener h w ↔ Reaches Over w h) := by
    intro w hw
    rw [hostnameMatchesListener_of_wildcard hw]
    exact ⟨.inr, fun e => e.elim (fun e => e ▸ hw.over_self) id⟩
  unfold ExactAt
  rw [hself L hl, hself R hr, nested_over.reaches_meet_iff, computeHostnameIntersection_eq_meet]
  refine exists_congr fun I => and_congr_right fun hI => (hself I ?_).symm
  -- the meet of two wildcards is one of them
  unfold meet at hI
  split_ifs at hI <;> · cases hI; assumption

theorem exactAt_iff_of_mixed (hL : ValidHostname L) (hR : ValidHostname R)
    (hl : IsWildcard L) (hr : ¬ IsWildcard R) : ExactAt L R h ↔ ¬ CaseSplit L R h := by
  have hLR : L ≠ R := fun e => hr (e ▸ hl)
  have hno : ¬ Over R L := fun e => hr e.isWildcard
  have hlow : eqIgnoreAsciiCase h R → Over L h → Over L R :=
    over_of_eqIgnoreAsciiCase hL.lowerCase hR.lowerCase
  unfold ExactAt CaseSplit
  rw [computeHostnameIntersection_eq_meet, meet, if_neg hLR, if_neg hno,
    hostnameMatchesListener_of_wildcard hl, hostnameMatchesListener_of_plain hr]
  by_cases hover : Over L R
  · rw [if_pos hover]
    simp only [Option.some.injEq, exists_eq_left', hostnameMatchesListener_of_plain hr,
      and_iff_right_iff_imp, hover, hr, not_false_eq_true, true_and, not_and, not_not]
  · have hnone : ¬ (Over L h ∧ eqIgnoreAsciiCase h R = true) := fun e => hover (hlow e.2 e.1)
    rw [if_neg hover]
    exact iff_of_true (iff_of_false hnone (by simp)) fun e => hover e.1

/-- **Where the intersection is exact**: everywhere but at the hosts that
letter case splits. -/
theorem exactAt_iff (hL : ValidHostname L) (hR : ValidHostname R) (h : String) :
    ExactAt L R h ↔ ¬ CaseSplit L R h ∧ ¬ CaseSplit R L h := by
  have hplain : ∀ {w n}, ¬ IsWildcard w → ¬ CaseSplit w n h := fun hw e => hw e.1.isWildcard
  have hwild : ∀ {w n}, IsWildcard n → ¬ CaseSplit w n h := fun hn e => e.2.1 hn
  by_cases hl : IsWildcard L <;> by_cases hr : IsWildcard R
  · exact iff_of_true (exactAt_iff_of_wildcard hl hr) ⟨hwild hr, hwild hl⟩
  · rw [exactAt_iff_of_mixed hL hR hl hr]
    exact (and_iff_left (hplain hr)).symm
  · rw [exactAt_comm, exactAt_iff_of_mixed hR hL hr hl]
    exact (and_iff_right (hplain hl)).symm
  · exact iff_of_true (exactAt_iff_of_plain hL hR hl hr) ⟨hplain hl, hplain hr⟩

/-- Letter case splits no host in lower case. -/
theorem LowerCase.not_caseSplit (hh : LowerCase h) (hR : ValidHostname R) : ¬ CaseSplit L R h := by
  intro hsplit
  obtain ⟨hover, -, heq, hnot⟩ := hsplit
  rw [eqIgnoreAsciiCase_iff, Text.LowerCase.map_toLower hh, hR.lowerCase.map_toLower] at heq
  rw [String.toList_injective heq] at hnot
  exact hnot hover

/-- **The controller's intersection is exact, the data plane agrees with it
on every host in lower case, and so does the acceptance test.** Request
hosts are put in lower case before they are matched; at other hosts the
one divergence is a host split by letter case. -/
theorem computeHostnameIntersection_exact (hL : ValidHostname L) (hR : ValidHostname R) :
    (∀ h, LowerCase h → ExactAt L R h) ∧
    (∀ h, ExactAt L R h ↔ ¬ CaseSplit L R h ∧ ¬ CaseSplit R L h) ∧
    computeHostnameIntersection L R = computeHostnameIntersection R L ∧
    (hostnamesIntersect L R = true ↔ (computeHostnameIntersection L R).isSome) := by
  refine ⟨fun h hh => ?_, exactAt_iff hL hR, ?_, hostnamesIntersect_iff hL hR⟩
  · exact (exactAt_iff hL hR h).2 ⟨LowerCase.not_caseSplit hh hR, LowerCase.not_caseSplit hh hL⟩
  · rw [computeHostnameIntersection_eq_meet, computeHostnameIntersection_eq_meet,
      nested_over.meet_comm]

/-- A wildcard and a name under it. -/
theorem computeHostnameIntersection_exact_sample :
    ValidHostname "*.example.com" ∧ ValidHostname "foo.example.com" ∧
      ExactAt "*.example.com" "foo.example.com" "foo.example.com" ∧
      computeHostnameIntersection "*.example.com" "foo.example.com" = some "foo.example.com" :=
  ⟨by decide, by decide,
    (computeHostnameIntersection_exact (by decide) (by decide)).1 _ (by decide), by decide⟩

/-- The host in upper case matches the plain name, which is the
intersection, but not the wildcard. -/
theorem not_exactAt_upper_case : ValidHostname "*.example.com" ∧ ValidHostname "foo.example.com" ∧
      ¬ ExactAt "*.example.com" "foo.example.com" "foo.EXAMPLE.com" := by
  refine ⟨by decide, by decide, fun hexact => ?_⟩
  have hboth := hexact.2 ⟨"foo.example.com", by decide, by decide⟩
  exact absurd hboth.1 (by decide)

/-! ## Which of two is more specific

Of the hostnames that match one host the data plane prefers a plain name
to a wildcard, a longer wildcard to a shorter one, and any hostname to
none. `specificity` puts the three into one linear order. Hostnames that
match a host in common are told apart by it, up to letter case: this is
where the wildcards of a host being ends of one text is used. -/

section

open Text

/-- **How specific a hostname is**: no hostname at the bottom, a wildcard
by its length, a plain name at the top. -/
def specificity : Option String → WithTop ℕ
  | none => WithTop.some 0
  | some h => if IsWildcard h then WithTop.some (len h) else ⊤

variable {w w' h : String}

@[simp] theorem specificity_none : specificity none = WithTop.some 0 := rfl

theorem specificity_of_wildcard (hw : IsWildcard w) :
    specificity (some w) = WithTop.some (len w) := if_pos hw

theorem specificity_of_plain (hw : ¬ IsWildcard w) : specificity (some w) = ⊤ := if_neg hw

/-- A wildcard has the length of its suffix and the star. -/
theorem IsWildcard.len_eq (hw : IsWildcard w) : len w = len (sliceFrom w 1) + 1 := by
  obtain ⟨t, ht⟩ := isWildcard_iff.1 hw
  have hsplit : w.toList = ['*'] ++ (sliceFrom w 1).toList := by
    rw [toList_sliceFrom, ht]
    rfl
  have hstar : len (String.ofList ['*']) = 1 := by decide
  rw [len_of_append hsplit, hstar]
  omega

theorem IsWildcard.len_pos (hw : IsWildcard w) : 0 < len w := by
  rw [hw.len_eq]
  omega

/-- Any hostname is more specific than none. -/
theorem specificity_none_lt (h : String) : specificity none < specificity (some h) := by
  rw [specificity_none]
  by_cases hw : IsWildcard h
  · rw [specificity_of_wildcard hw]
    exact WithTop.coe_lt_coe.2 hw.len_pos
  · rw [specificity_of_plain hw]
    exact WithTop.coe_lt_top 0

/-- A wildcard under another is longer. -/
theorem Over.len_lt (hin : Over w w') (hw' : IsWildcard w') (hne : w ≠ w') : len w < len w' := by
  have hsuf := ((suffix_test_iff hin.isWildcard hw' hne).2 hin).2
  have hle := hin.isWildcard.len_eq
  have hle' := hw'.len_eq
  omega

/-- **Wildcards of one host are told apart by their length.** -/
theorem Over.eq_of_len (hw : Over w h) (hw' : Over w' h) (hlen : len w = len w') : w = w' := by
  by_contra hne
  obtain e | hin | hin := nested_over.linear w w' h hw hw'
  · exact hne e
  · exact absurd hlen (Nat.ne_of_lt (hin.len_lt hw'.isWildcard hne))
  · exact absurd hlen.symm (Nat.ne_of_lt (hin.len_lt hw.isWildcard (Ne.symm hne)))

end

end Edgion.Hostname
