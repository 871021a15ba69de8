import Mathlib.Data.List.Basic

/-!
# Reading a list from its end

Parties write at the end of a list, one after the other. Some entries are
addresses, and some addresses are trusted. What is written left of the last
entry that is not of a trusted party may be made up. So a reader that goes
from the end stops there: `Stops`. A reader that skips the entries that are
no addresses finds the last untrusted address: `LastForeign`. `answer_iff`
says when two readers with the same answer for want of a better one agree,
and `partTells_iff` when one that also reads a part only finds the same.
-/

namespace Edgion.Common

open List

variable {α β : Type*}

/-! ## The last entry that differs -/

section LastEntry

variable {p : α → Prop} {l l' r r' : List α} {a a' : α}

/-- **There is one last entry at most that is not `p`.** -/
theorem lastEntry_unique (h : l ++ a :: r = l' ++ a' :: r') (ha : ¬ p a) (hr : ∀ x ∈ r, p x)
    (ha' : ¬ p a') (hr' : ∀ x ∈ r', p x) : l = l' ∧ a = a' ∧ r = r' := by
  rcases append_eq_append_iff.1 h with ⟨m, hl, hm⟩ | ⟨m, hl, hm⟩
  · cases m with
    | nil => simp_all
    | cons b m =>
      -- the entry of the right side stands right of the one of the left side
      have hmem : a' ∈ r := by
        have htail := (cons.inj hm).2
        rw [htail]
        simp
      exact absurd (hr a' hmem) ha'
  · cases m with
    | nil => simp_all
    | cons b m =>
      have hmem : a ∈ r' := by
        have htail := (cons.inj hm).2
        rw [htail]
        simp
      exact absurd (hr' a hmem) ha

/-- **There is one, unless all are `p`.** -/
theorem all_or_lastEntry (p : α → Prop) (l : List α) :
    (∀ x ∈ l, p x) ∨ ∃ left a right, l = left ++ a :: right ∧ ¬ p a ∧ ∀ x ∈ right, p x := by
  induction l with
  | nil => exact .inl (by simp)
  | cons b l ih =>
    rcases ih with hall | ⟨left, a, right, rfl, ha, hright⟩
    · by_cases hb : p b
      · exact .inl (forall_mem_cons.2 ⟨hb, hall⟩)
      · exact .inr ⟨[], b, l, rfl, hb, hall⟩
    · exact .inr ⟨b :: left, a, right, rfl, ha, hright⟩

end LastEntry

/-- **A search from the end.** -/
theorem findSome?_reverse_eq_some_iff {f : α → Option β} {l : List α} {b : β} :
    l.reverse.findSome? f = some b ↔
      ∃ left a right, l = left ++ a :: right ∧ f a = some b ∧ ∀ x ∈ right, f x = none := by
  rw [findSome?_eq_some_iff]
  constructor
  · rintro ⟨before, a, after, hl, ha, hnone⟩
    refine ⟨after.reverse, a, before.reverse, ?_, ha, by simpa using hnone⟩
    rw [← reverse_reverse l, hl]
    simp
  · rintro ⟨left, a, right, rfl, ha, hnone⟩
    exact ⟨right.reverse, a, left.reverse, by simp, ha, by simpa using hnone⟩

/-! ## Trusted parties -/

section Trust

variable (address : α → Option β) (trusted : β → Prop)

/-- The entry is the address of a trusted party. -/
def IsTrusted (a : α) : Prop := ∃ b, address a = some b ∧ trusted b

/-- `b` is the last address in the list that is not trusted. -/
def LastForeign (l : List α) (b : β) : Prop :=
  ∃ left a right, l = left ++ a :: right ∧ address a = some b ∧ ¬ trusted b ∧
    ∀ x ∈ right, ∀ c, address x = some c → trusted c

/-- The last entry of the list that is not of a trusted party is the address `b`. -/
def LastUntrusted (l : List α) (b : β) : Prop :=
  ∃ left a right, l = left ++ a :: right ∧ address a = some b ∧ ¬ trusted b ∧
    ∀ x ∈ right, IsTrusted address trusted x

/-- **What a reader finds that stops at the last entry that is not of a trusted party**:
the address it is, and `peer` if it is none or there is no such entry. -/
def Stops (peer : β) (l : List α) (b : β) : Prop :=
  (∃ left a right, l = left ++ a :: right ∧ ¬ IsTrusted address trusted a ∧
    (∀ x ∈ right, IsTrusted address trusted x) ∧ b = (address a).getD peer) ∨
  (∀ x ∈ l, IsTrusted address trusted x) ∧ b = peer

variable {address trusted} {l : List α} {a : α} {b c peer : β}

theorem isTrusted_iff (h : address a = some b) : IsTrusted address trusted a ↔ trusted b := by
  simp [IsTrusted, h]

/-- A list has one last foreign address at most. -/
theorem LastForeign.unique (hb : LastForeign address trusted l b)
    (hc : LastForeign address trusted l c) : b = c := by
  obtain ⟨left, a, right, rfl, ha, hnb, hright⟩ := hb
  obtain ⟨left', a', right', heq, ha', hnc, hright'⟩ := hc
  obtain ⟨-, rfl, -⟩ := lastEntry_unique (p := fun x => ∀ c, address x = some c → trusted c) heq
    (fun h => hnb (h b ha)) hright (fun h => hnc (h c ha')) hright'
  exact Option.some.inj (ha.symm.trans ha')

theorem LastUntrusted.unique (hb : LastUntrusted address trusted l b)
    (hc : LastUntrusted address trusted l c) : b = c := by
  obtain ⟨left, a, right, rfl, ha, hnb, hright⟩ := hb
  obtain ⟨left', a', right', heq, ha', hnc, hright'⟩ := hc
  obtain ⟨-, rfl, -⟩ := lastEntry_unique heq (mt (isTrusted_iff ha).1 hnb) hright
    (mt (isTrusted_iff ha').1 hnc) hright'
  exact Option.some.inj (ha.symm.trans ha')

/-- The last foreign address is not trusted. -/
theorem LastForeign.not_trusted (h : LastForeign address trusted l b) : ¬ trusted b := by
  obtain ⟨-, -, -, -, -, hb, -⟩ := h
  exact hb

theorem LastUntrusted.not_trusted (h : LastUntrusted address trusted l b) : ¬ trusted b := by
  obtain ⟨-, -, -, -, -, hb, -⟩ := h
  exact hb

/-- Where every entry is an address, both readers find the same. -/
theorem lastForeign_iff_lastUntrusted (h : ∀ x ∈ l, ∃ c, address x = some c) :
    LastForeign address trusted l b ↔ LastUntrusted address trusted l b := by
  constructor
  · rintro ⟨left, a, right, rfl, ha, hb, hright⟩
    refine ⟨left, a, right, rfl, ha, hb, fun x hx => ?_⟩
    obtain ⟨c, hc⟩ := h x (by simp [hx])
    exact ⟨c, hc, hright x hx c hc⟩
  · rintro ⟨left, a, right, rfl, ha, hb, hright⟩
    refine ⟨left, a, right, rfl, ha, hb, fun x hx c hc => ?_⟩
    exact (isTrusted_iff hc).1 (hright x hx)

/-- **What is left of the last entry that is not of a trusted party does not matter.** -/
theorem stops_append {left right : List α} (ha : ¬ IsTrusted address trusted a)
    (hright : ∀ x ∈ right, IsTrusted address trusted x) :
    Stops address trusted peer (left ++ a :: right) b ↔ b = (address a).getD peer := by
  constructor
  · rintro (⟨left', a', right', heq, ha', hright', rfl⟩ | ⟨hall, -⟩)
    · obtain ⟨-, rfl, -⟩ := lastEntry_unique heq ha hright ha' hright'
      rfl
    · exact absurd (hall a (by simp)) ha
  · exact fun h => .inl ⟨left, a, right, rfl, ha, hright, h⟩

/-! ## Two readers -/

/-- What is found, or else `peer`. -/
def Answer (found : β → Prop) (peer b : β) : Prop := found b ∨ b = peer ∧ ∀ c, ¬ found c

/-- An entry with trusted ones behind it is where the scan ends, if it is an address. -/
theorem lastUntrusted_append {left right : List α} (ha : ¬ IsTrusted address trusted a)
    (hright : ∀ x ∈ right, IsTrusted address trusted x) :
    LastUntrusted address trusted (left ++ a :: right) b ↔ address a = some b := by
  constructor
  · rintro ⟨left', a', right', heq, ha', hb, hright'⟩
    obtain ⟨-, rfl, -⟩ := lastEntry_unique heq ha hright (mt (isTrusted_iff ha').1 hb) hright'
    exact ha'
  · exact fun hb => ⟨left, a, right, rfl, hb, mt (isTrusted_iff hb).2 ha, hright⟩

/-- To stop at the last entry that is not trusted is to take the last untrusted address, or else
`peer`. -/
theorem stops_iff_answer :
    Stops address trusted peer l b ↔ Answer (LastUntrusted address trusted l) peer b := by
  obtain hall | ⟨left, a, right, rfl, ha, hright⟩ := all_or_lastEntry (IsTrusted address trusted) l
  · have hnone : ∀ c, ¬ LastUntrusted address trusted l c := by
      rintro c ⟨left, a, right, rfl, ha, hc, -⟩
      exact hc ((isTrusted_iff ha).1 (hall a (by simp)))
    constructor
    · rintro (⟨left, a, right, rfl, ha, -, -⟩ | ⟨-, hb⟩)
      · exact absurd (hall a (by simp)) ha
      · exact .inr ⟨hb, hnone⟩
    · rintro (hb | ⟨hb, -⟩)
      · exact absurd hb (hnone b)
      · exact .inr ⟨hall, hb⟩
  · simp only [stops_append ha hright, Answer, lastUntrusted_append ha hright]
    cases address a with
    | none => simp
    | some c => simpa using eq_comm

/-! ## A reader of a part

A list is read to the end of a part only, and the entries that are no
addresses are skipped. -/

/-- **The part tells who wrote last**: all entries of the list are trusted parties', or the last
one that is not is an address of the part, or of the same value as its last untrusted one, or it
is no address and the part has no untrusted ones. -/
def PartTells (address : α → Option β) (trusted : β → Prop) (l part : List α) : Prop :=
  (∀ x ∈ l, IsTrusted address trusted x) ∨
    ∃ left a right, l = left ++ a :: right ∧ ¬ IsTrusted address trusted a ∧
      (∀ x ∈ right, IsTrusted address trusted x) ∧
      match address a with
      | some b => left.length < part.length ∨ LastForeign address trusted part b
      | none => ∀ x ∈ part, ∀ c, address x = some c → trusted c

/-- There is no last foreign address iff all addresses are trusted. -/
theorem forall_not_lastForeign_iff : (∀ b, ¬ LastForeign address trusted l b) ↔
    ∀ x ∈ l, ∀ c, address x = some c → trusted c := by
  constructor
  · intro hnone
    obtain hall | ⟨left, a, right, rfl, ha, hright⟩ :=
      all_or_lastEntry (fun x => ∀ c, address x = some c → trusted c) l
    · exact hall
    · push Not at ha
      obtain ⟨b, hb, hforeign⟩ := ha
      exact absurd ⟨left, a, right, rfl, hb, hforeign, hright⟩ (hnone b)
  · rintro hall b ⟨left, a, right, rfl, ha, hb, -⟩
    exact hb (hall a (by simp) b ha)

/-- A front part that reaches beyond the foreign entry still gives it. -/
theorem lastForeign_of_length_lt {part left right : List α} (hpart : part <+: left ++ a :: right)
    (hlen : left.length < part.length) (ha : address a = some b) (hb : ¬ trusted b)
    (hright : ∀ x ∈ right, IsTrusted address trusted x) : LastForeign address trusted part b := by
  obtain ⟨rest, hrest⟩ := hpart
  rcases append_eq_append_iff.1 hrest with ⟨m, rfl, -⟩ | ⟨m, rfl, hm⟩
  · rw [length_append] at hlen
    omega
  · cases m with
    | nil => simp at hlen
    | cons a' m =>
      obtain ⟨rfl, rfl⟩ := cons.inj hm
      exact ⟨left, a, m, rfl, ha, hb, fun x hx c hc =>
        (isTrusted_iff hc).1 (hright x (mem_append_left rest hx))⟩

/-- **A reader that skips finds in a part what one that stops finds in all, if and only if the part
tells it.** -/
theorem partTells_iff {part : List α} (hpart : part <+: l) :
    (∀ b, LastForeign address trusted part b ↔ LastUntrusted address trusted l b) ↔
      PartTells address trusted l part := by
  obtain hall | ⟨left, a, right, rfl, ha, hright⟩ := all_or_lastEntry (IsTrusted address trusted) l
  · refine iff_of_true (fun b => iff_of_false ?_ ?_) (.inl hall)
    · rintro ⟨left, a, right, rfl, ha, hb, -⟩
      exact hb ((isTrusted_iff ha).1 (hall a (hpart.subset (by simp))))
    · rintro ⟨left, a, right, rfl, ha, hb, -⟩
      exact hb ((isTrusted_iff ha).1 (hall a (by simp)))
  · have htells : PartTells address trusted (left ++ a :: right) part ↔
        match address a with
        | some b => left.length < part.length ∨ LastForeign address trusted part b
        | none => ∀ x ∈ part, ∀ c, address x = some c → trusted c := by
      refine ⟨?_, fun h => .inr ⟨left, a, right, rfl, ha, hright, h⟩⟩
      rintro (hall | ⟨left', a', right', heq, ha', hright', h⟩)
      · exact absurd (hall a (by simp)) ha
      · obtain ⟨rfl, rfl, -⟩ := lastEntry_unique heq ha hright ha' hright'
        exact h
    rw [htells]
    simp only [lastUntrusted_append ha hright]
    cases hadd : address a with
    | none => simpa using forall_not_lastForeign_iff
    | some b =>
      have hb : ¬ trusted b := mt (isTrusted_iff hadd).2 ha
      refine ⟨fun h => .inr ((h b).2 rfl), fun h c => ?_⟩
      have hlast : LastForeign address trusted part b :=
        h.elim (fun hlen => lastForeign_of_length_lt hpart hlen hadd hb hright) id
      exact ⟨fun hc => congrArg some (hlast.unique hc), fun hc => Option.some.inj hc ▸ hlast⟩

/-- **Two readers have the same answer if and only if they find the same**, if both
find one thing at most and neither finds `peer`. -/
theorem answer_iff {F G : β → Prop} (hunique : ∀ b c, F b → F c → b = c)
    (hunique' : ∀ b c, G b → G c → b = c) (hpeer : ¬ F peer) (hpeer' : ¬ G peer)
    (hb : Answer F peer b) : Answer G peer b ↔ ∀ c, F c ↔ G c := by
  constructor
  · rintro (hb' | ⟨rfl, hnone'⟩)
    · rcases hb with hb | ⟨rfl, -⟩
      · intro c
        constructor
        · intro hc
          rwa [hunique c b hc hb]
        · intro hc
          rwa [hunique' c b hc hb']
      · exact absurd hb' hpeer'
    · rcases hb with hb | ⟨-, hnone⟩
      · exact absurd hb hpeer
      · exact fun c => iff_of_false (hnone c) (hnone' c)
  · intro h
    rcases hb with hb | ⟨rfl, hnone⟩
    · exact .inl ((h b).1 hb)
    · exact .inr ⟨rfl, fun c hc => hnone c ((h c).2 hc)⟩

end Trust

end Edgion.Common
