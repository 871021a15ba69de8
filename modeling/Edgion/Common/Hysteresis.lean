import Mathlib.Data.List.Infix

/-!
# Two thresholds on a history of results

A history of results, good or bad, is read with two thresholds: a run of
bad results that reaches the first one trips the reading, and a later run
of good ones that reaches the second releases it. The reading is stated
over the whole history (`Tripped`) and then found from one result to the
next, by the length of the run at the end of the history (`streak`).
-/

namespace Edgion.Common

open List

/-- **A run**: at least so many results of one kind, and one at least. -/
structure IsRun (v : Bool) (n : ℕ) (run : List Bool) : Prop where
  ne_nil : run ≠ []
  all : ∀ r ∈ run, r = v
  length : n ≤ run.length

/-- **The reading is tripped**: some run of bad results was long enough, and
no run of good ones after it was. -/
def Tripped (badThreshold goodThreshold : ℕ) (results : List Bool) : Prop :=
  ∃ earlier bad later, results = earlier ++ bad ++ later ∧ IsRun false badThreshold bad ∧
    ∀ good, IsRun true goodThreshold good → ¬ good <:+: later

/-- The length of the run at the end. -/
def streak (v : Bool) (results : List Bool) : ℕ :=
  (results.reverse.takeWhile (· == v)).length

variable {v r : Bool} {n badThreshold goodThreshold : ℕ} {run results : List Bool}

@[simp] theorem streak_concat_self : streak v (results ++ [v]) = streak v results + 1 := by
  simp [streak]

theorem streak_concat_of_ne (h : r ≠ v) : streak v (results ++ [r]) = 0 := by
  simp [streak, h]

/-- The runs at the end are those no longer than the streak. -/
theorem length_le_streak (hsuf : run <:+ results) (hall : ∀ r ∈ run, r = v) :
    run.length ≤ streak v results := by
  induction results using reverseRecOn generalizing run with
  | nil => simp [suffix_nil.1 hsuf]
  | append_singleton results r ih =>
    rcases suffix_concat_iff.1 hsuf with rfl | ⟨shorter, rfl, hshorter⟩
    · exact Nat.zero_le _
    · obtain rfl : r = v := hall r (by simp)
      have hle := ih hshorter fun x hx => hall x (by simp [hx])
      rw [streak_concat_self, length_append, length_singleton]
      omega

/-- The streak is a run at the end. -/
theorem exists_suffix_streak (v : Bool) (results : List Bool) :
    ∃ run, run <:+ results ∧ (∀ r ∈ run, r = v) ∧ run.length = streak v results := by
  induction results using reverseRecOn with
  | nil => exact ⟨[], suffix_rfl, by simp, rfl⟩
  | append_singleton results r ih =>
    by_cases hr : r = v
    · subst hr
      obtain ⟨run, hsuf, hall, hlen⟩ := ih
      refine ⟨run ++ [r], suffix_concat_iff.2 (.inr ⟨run, rfl, hsuf⟩), ?_, ?_⟩
      · intro x hx
        rcases mem_append.1 hx with hx | hx
        · exact hall x hx
        · exact mem_singleton.1 hx
      · rw [streak_concat_self, ← hlen, length_append, length_singleton]
    · exact ⟨[], nil_suffix, by simp, by rw [streak_concat_of_ne hr, length_nil]⟩

/-- A list that ends after a run has its last element there or in the run. -/
theorem last_of_append_eq {earlier bad later : List Bool}
    (h : results ++ [r] = earlier ++ bad ++ later) (hne : bad ≠ []) :
    (later = [] ∧ ∃ shorter, bad = shorter ++ [r]) ∨
      ∃ shorter, later = shorter ++ [r] ∧ results = earlier ++ bad ++ shorter := by
  rcases eq_nil_or_concat later with rfl | ⟨shorter, x, rfl⟩
  · obtain ⟨shorter, x, rfl⟩ := (eq_nil_or_concat bad).resolve_left hne
    rw [append_nil, concat_eq_append, ← append_assoc] at h
    obtain ⟨-, hx⟩ := append_inj' h rfl
    cases hx
    exact .inl ⟨rfl, shorter, concat_eq_append⟩
  · rw [concat_eq_append, ← append_assoc] at h
    obtain ⟨hres, hx⟩ := append_inj' h rfl
    cases hx
    exact .inr ⟨shorter, concat_eq_append, hres⟩

/-- A run of good results at the end begins after the last bad one. -/
theorem suffix_of_all_true {earlier bad later good : List Bool} (hbad : IsRun false n bad)
    (hsuf : good <:+ earlier ++ bad ++ later) (hall : ∀ r ∈ good, r = true) :
    good <:+ later := by
  obtain ⟨shorter, x, rfl⟩ := (eq_nil_or_concat bad).resolve_left hbad.ne_nil
  obtain rfl : x = false := hbad.all x (by simp)
  have hlast : false :: later <:+ earlier ++ shorter.concat false ++ later :=
    ⟨earlier ++ shorter, by simp⟩
  rcases suffix_or_suffix_of_suffix hsuf hlast with h | h
  · rcases suffix_cons_iff.1 h with rfl | h
    · exact absurd (hall false mem_cons_self) (by decide)
    · exact h
  · exact absurd (hall false (h.mem mem_cons_self)) (by decide)

/-- **A bad result trips the reading** when it completes a run that is long
enough, and never releases it. -/
theorem tripped_concat_false : Tripped badThreshold goodThreshold (results ++ [false]) ↔
      Tripped badThreshold goodThreshold results ∨
        badThreshold ≤ streak false (results ++ [false]) := by
  constructor
  · rintro ⟨earlier, bad, later, heq, hbad, hlater⟩
    rcases last_of_append_eq heq hbad.ne_nil with ⟨rfl, -⟩ | ⟨shorter, rfl, hres⟩
    · right
      rw [append_nil] at heq
      have hle := length_le_streak (heq ▸ suffix_append earlier bad) hbad.all
      exact hbad.length.trans hle
    · left
      refine ⟨earlier, bad, shorter, hres, hbad, fun good hgood hinside => ?_⟩
      exact hlater good hgood (hinside.trans (prefix_append shorter [false]).isInfix)
  · rintro (⟨earlier, bad, later, rfl, hbad, hlater⟩ | hle)
    · refine ⟨earlier, bad, later ++ [false], by simp, hbad, fun good hgood hinside => ?_⟩
      rcases infix_concat_iff.1 hinside with hsuf | hinside
      · -- a run of good results does not end in a bad one
        rcases suffix_concat_iff.1 hsuf with rfl | ⟨shorter, rfl, -⟩
        · exact hgood.ne_nil rfl
        · exact absurd (hgood.all false (by simp)) (by decide)
      · exact hlater good hgood hinside
    · obtain ⟨bad, ⟨earlier, heq⟩, hall, hlen⟩ := exists_suffix_streak false (results ++ [false])
      have hpos : 0 < bad.length := by
        rw [hlen, streak_concat_self]
        omega
      refine ⟨earlier, bad, [], by rw [append_nil, heq],
        ⟨length_pos_iff.1 hpos, hall, by rw [hlen]; exact hle⟩, fun good hgood hinside => ?_⟩
      exact hgood.ne_nil (infix_nil.1 hinside)

/-- **A good result releases the reading** when it completes a run that is
long enough, and never trips it. -/
theorem tripped_concat_true : Tripped badThreshold goodThreshold (results ++ [true]) ↔
      Tripped badThreshold goodThreshold results ∧
        ¬ goodThreshold ≤ streak true (results ++ [true]) := by
  constructor
  · rintro ⟨earlier, bad, later, heq, hbad, hlater⟩
    rcases last_of_append_eq heq hbad.ne_nil with ⟨-, shorter, rfl⟩ | ⟨shorter, rfl, hres⟩
    · exact absurd (hbad.all true (by simp)) (by decide)
    · refine ⟨⟨earlier, bad, shorter, hres, hbad, fun good hgood hinside => ?_⟩, fun hle => ?_⟩
      · exact hlater good hgood (hinside.trans (prefix_append shorter [true]).isInfix)
      · -- the run at the end begins after the bad one
        obtain ⟨good, hsuf, hall, hlen⟩ := exists_suffix_streak true (results ++ [true])
        have hpos : 0 < good.length := by
          rw [hlen, streak_concat_self]
          omega
        refine hlater good ⟨length_pos_iff.1 hpos, hall, by rw [hlen]; exact hle⟩ ?_
        exact (suffix_of_all_true hbad (heq ▸ hsuf) hall).isInfix
  · rintro ⟨⟨earlier, bad, later, rfl, hbad, hlater⟩, hle⟩
    refine ⟨earlier, bad, later ++ [true], by simp, hbad, fun good hgood hinside => ?_⟩
    rcases infix_concat_iff.1 hinside with hsuf | hinside
    · have hwhole : good <:+ earlier ++ bad ++ later ++ [true] := by
        refine hsuf.trans ?_
        rw [append_assoc (earlier ++ bad)]
        exact suffix_append _ _
      exact hle (hgood.length.trans (length_le_streak hwhole hgood.all))
    · exact hlater good hgood hinside

end Edgion.Common
