import Mathlib.Data.List.Basic

/-!
# Common — a relation indexed from both sides

Values are linked to sources. One table lists the values of each source,
the other, by the key of a value, the sources it is linked to; the second
exists only so that a value can be unlinked without a search. Several
values may share a key. Sets are lists without repetition, and a source or
a key without entries is one with the empty list.
-/

namespace Edgion.Common

open Function List

universe u v w

/-- The two tables. -/
structure TwoWayIndex (S : Type u) (V : Type v) (K : Type w) where
  forward : S → List V
  reverse : K → List S

namespace TwoWayIndex

variable {S : Type u} {V : Type v} {K : Type w}

/-- Nothing is linked. -/
def empty : TwoWayIndex S V K := ⟨fun _ => [], fun _ => []⟩

/-- Every key of the index has a property: those that values are linked
under and those that sources are listed for. -/
structure Keyed (key : V → K) (P : K → Prop) (i : TwoWayIndex S V K) : Prop where
  linked : ∀ s v, v ∈ i.forward s → P (key v)
  listed : ∀ k s, s ∈ i.reverse k → P k

variable {P : K → Prop} {l : S × V} {key : V → K}

theorem Keyed.empty : Keyed key P (empty : TwoWayIndex S V K) :=
  ⟨fun _ _ h => (nomatch h), fun _ _ h => (nomatch h)⟩

/-- Nothing is listed for other keys. -/
theorem Keyed.reverse_eq_nil {i : TwoWayIndex S V K} {k : K}
    (h : i.Keyed key P) (hk : ¬ P k) : i.reverse k = [] :=
  eq_nil_iff_forall_not_mem.2 fun s hs => hk (h.listed k s hs)

variable [DecidableEq S] [DecidableEq K]
variable {key : V → K} {i : TwoWayIndex S V K} {s : S} {v : V} {k : K} {p : V → Bool}

/-! ## Unlinking -/

/-- Unlink the values that `p` names, at the sources that are listed for the
key. -/
def unlink (i : TwoWayIndex S V K) (k : K) (p : V → Bool) : TwoWayIndex S V K where
  forward s := if s ∈ i.reverse k then (i.forward s).filter fun v => !p v else i.forward s
  reverse := update i.reverse k []

theorem mem_forward_unlink :
    v ∈ (i.unlink k p).forward s ↔ v ∈ i.forward s ∧ ¬ (s ∈ i.reverse k ∧ p v = true) := by
  simp only [unlink]
  split
  · next hs => simp [hs]
  · next hs => simp [hs]

theorem mem_reverse_unlink {k' : K} :
    s ∈ (i.unlink k p).reverse k' ↔ k' ≠ k ∧ s ∈ i.reverse k' := by
  simp only [unlink]
  by_cases hk : k' = k
  · subst hk
    simp
  · simp [hk]

theorem Keyed.unlink (h : i.Keyed key P) : (i.unlink k p).Keyed key P :=
  ⟨fun s v hv => h.linked s v (mem_forward_unlink.1 hv).1,
    fun k' s hs => h.listed k' s (mem_reverse_unlink.1 hs).2⟩

/-! ## Linking -/

variable [DecidableEq V]

/-- Link a value to a source. -/
def link (key : V → K) (i : TwoWayIndex S V K) (link : S × V) : TwoWayIndex S V K where
  forward := update i.forward link.1 ((i.forward link.1).insert link.2)
  reverse := update i.reverse (key link.2) ((i.reverse (key link.2)).insert link.1)

/-- Link several values. -/
def linkAll (key : V → K) (i : TwoWayIndex S V K) (links : List (S × V)) : TwoWayIndex S V K :=
  links.foldl (link key) i

theorem mem_forward_link : v ∈ (i.link key l).forward s ↔ l = (s, v) ∨ v ∈ i.forward s := by
  simp only [link]
  by_cases hs : s = l.1
  · subst hs
    simp only [update_self, mem_insert_iff]
    constructor
    · rintro (rfl | h)
      · exact .inl rfl
      · exact .inr h
    · rintro (h | h)
      · exact .inl (congrArg Prod.snd h).symm
      · exact .inr h
  · simp only [update_of_ne hs]
    exact ⟨.inr, fun h => h.resolve_left fun heq => hs (congrArg Prod.fst heq).symm⟩

theorem mem_reverse_link :
    s ∈ (i.link key l).reverse k ↔ (k = key l.2 ∧ s = l.1) ∨ s ∈ i.reverse k := by
  simp only [link]
  by_cases hk : k = key l.2
  · subst hk
    simp
  · simp [hk]

variable {links : List (S × V)}

theorem mem_forward_linkAll :
    v ∈ (i.linkAll key links).forward s ↔ (s, v) ∈ links ∨ v ∈ i.forward s := by
  induction links generalizing i with
  | nil => simp [linkAll]
  | cons l links ih =>
    rw [linkAll, foldl_cons, ← linkAll, ih, mem_forward_link, mem_cons]
    constructor
    · rintro (h | rfl | h)
      · exact .inl (.inr h)
      · exact .inl (.inl rfl)
      · exact .inr h
    · rintro ((rfl | h) | h)
      · exact .inr (.inl rfl)
      · exact .inl h
      · exact .inr (.inr h)

theorem Keyed.link (h : i.Keyed key P) (hl : P (key l.2)) : (i.link key l).Keyed key P := by
  refine ⟨fun s v hv => ?_, fun k s hs => ?_⟩
  · rcases mem_forward_link.1 hv with rfl | hv
    · exact hl
    · exact h.linked s v hv
  · rcases mem_reverse_link.1 hs with ⟨rfl, -⟩ | hs
    · exact hl
    · exact h.listed k s hs

theorem Keyed.linkAll (h : i.Keyed key P)
    (hlinks : ∀ l ∈ links, P (key l.2)) : (i.linkAll key links).Keyed key P := by
  induction links generalizing i with
  | nil => exact h
  | cons l links ih =>
    exact ih (h.link (hlinks l mem_cons_self)) fun l' hl' =>
      hlinks l' (mem_cons_of_mem l hl')

end TwoWayIndex

end Edgion.Common
