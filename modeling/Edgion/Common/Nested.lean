import Mathlib.Tactic.SplitIfs

/-!
# Nested families

A family of names, each standing for the members it covers, in which two
names that share a member lie one inside the other. In such a family the
intersection of two names is one of them, or empty: `meet` decides which.
-/

namespace Edgion.Common

universe u

variable {α : Type u}

/-- **A nested family**: `covers a b` when the name `a` covers `b`, itself a
name or a member. -/
structure Nested (covers : α → α → Prop) : Prop where
  trans : ∀ a b c, covers a b → covers b c → covers a c
  antisymm : ∀ a b, covers a b → covers b a → a = b
  linear : ∀ a b h, covers a h → covers b h → a = b ∨ covers a b ∨ covers b a

/-- The members of a name: what it covers, and the name itself. -/
def Reaches (covers : α → α → Prop) (a h : α) : Prop := a = h ∨ covers a h

/-- **The intersection of two names**: the inner one. -/
def meet (covers : α → α → Prop) [DecidableEq α] [DecidableRel covers] (a b : α) : Option α :=
  if a = b then some a
  else if covers a b then some b
  else if covers b a then some a
  else none

variable {covers : α → α → Prop} {a b h : α}

/-- What an inner name reaches, the outer one covers. -/
theorem Nested.over_of_reaches (N : Nested covers) (hab : covers a b) (hb : Reaches covers b h) :
    covers a h := by
  obtain rfl | hb := hb
  · exact hab
  · exact N.trans a b h hab hb

variable [DecidableEq α] [DecidableRel covers]

/-- Two names meet exactly when one is inside the other. -/
theorem meet_isSome_iff : (meet covers a b).isSome ↔ a = b ∨ covers a b ∨ covers b a := by
  unfold meet
  split_ifs with hab h1 h2 <;> simp [*]

namespace Nested

variable (N : Nested covers)

include N

theorem meet_comm (a b : α) : meet covers a b = meet covers b a := by
  unfold meet
  by_cases hab : a = b
  · simp [hab]
  have hba : ¬ b = a := fun e => hab e.symm
  by_cases h1 : covers a b
  · have h2 : ¬ covers b a := fun h2 => hab (N.antisymm a b h1 h2)
    simp [hab, hba, h1, h2]
  · simp [hab, hba, h1]

/-- **The meet is the intersection**: what both names reach is what their
meet reaches. -/
theorem reaches_meet_iff :
    Reaches covers a h ∧ Reaches covers b h ↔ ∃ i, meet covers a b = some i ∧ Reaches covers i h := by
  unfold meet
  split_ifs with hab h1 h2
  · subst hab
    simp
  · have hin : Reaches covers b h → Reaches covers a h := fun hb => .inr (N.over_of_reaches h1 hb)
    simpa using hin
  · have hin : Reaches covers a h → Reaches covers b h := fun ha => .inr (N.over_of_reaches h2 ha)
    simpa using hin
  · -- nothing is shared: a common member would put one name inside the other
    simp only [false_and, exists_false, iff_false, not_and]
    intro ha hb
    obtain rfl | ha := ha
    · obtain rfl | hb := hb
      · exact hab rfl
      · exact h2 hb
    obtain rfl | hb := hb
    · exact h1 ha
    obtain e | e | e := N.linear a b h ha hb
    · exact hab e
    · exact h1 e
    · exact h2 e

end Nested

end Edgion.Common
