import Mathlib.Data.List.Basic

/-!
# Segments of a list

A flat store — an arena of nodes, a string pool, a code vector — is read
at positions. `SegAt xs pos seg` says that `xs` holds `seg` at `pos`. A
segment is found by appending, survives everything appended behind it,
and splits where its own list splits, which is all a layout argument
needs: what was written at a position is what is read there.
-/

namespace Edgion.Common

variable {α : Type*} {xs seg : List α} {pos : ℕ}

/-- **A list holds a segment at a position.** -/
def SegAt (xs : List α) (pos : ℕ) (seg : List α) : Prop :=
  seg <+: xs.drop pos

instance [DecidableEq α] (xs : List α) (pos : ℕ) (seg : List α) : Decidable (SegAt xs pos seg) :=
  inferInstanceAs (Decidable (seg <+: xs.drop pos))

namespace SegAt

/-- What stands between a prefix and a suffix is a segment. -/
theorem mid (pre seg post : List α) : SegAt (pre ++ (seg ++ post)) pre.length seg := by
  simp [SegAt]

/-- What was just appended is a segment. -/
theorem of_append (pre seg : List α) : SegAt (pre ++ seg) pre.length seg := by
  simp [SegAt]

variable {a b : List α}

/-- The two halves of a segment. -/
theorem append_iff : SegAt xs pos (a ++ b) ↔ SegAt xs pos a ∧ SegAt xs (pos + a.length) b := by
  simp only [SegAt, ← List.drop_drop]
  constructor
  · rintro ⟨t, ht⟩
    rw [← ht]
    exact ⟨⟨b ++ t, by simp⟩, by simp⟩
  · rintro ⟨⟨t, ht⟩, hb⟩
    rw [← ht] at hb ⊢
    simpa using hb

theorem left (h : SegAt xs pos (a ++ b)) : SegAt xs pos a :=
  (append_iff.1 h).1

theorem right (h : SegAt xs pos (a ++ b)) : SegAt xs (pos + a.length) b :=
  (append_iff.1 h).2

/-- The head of a segment is what the list holds at its position. -/
theorem head {a : α} (h : SegAt xs pos (a :: seg)) : xs[pos]? = some a := by
  obtain ⟨t, ht⟩ := h
  have := congrArg (fun l => l[0]?) ht
  simpa using this.symm

/-- And its tail starts one position on. -/
theorem tail {a : α} (h : SegAt xs pos (a :: seg)) : SegAt xs (pos + 1) seg :=
  right (a := [a]) h

end SegAt

end Edgion.Common
