import Mathlib.Data.List.Basic
import Mathlib.Data.List.Induction

/-!
# Tables

A run of writes leaves at each key what the last write to that key put
there. `sel` reads a write at one key: the value it puts there, or
nothing. `lastWrite_eq_some_iff` finds the write by its index in the run.
-/

namespace Edgion.Common

open List Option

variable {α V : Type*}

/-- **What a run of writes leaves at the key `sel` reads.** -/
def lastWrite (sel : α → Option V) (xs : List α) : Option V :=
  xs.foldl (fun acc x => (sel x).or acc) none

variable {sel : α → Option V}

@[simp] theorem lastWrite_nil : lastWrite sel [] = none := rfl

@[simp] theorem lastWrite_concat (xs : List α) (x : α) :
    lastWrite sel (xs ++ [x]) = (sel x).or (lastWrite sel xs) := by
  simp [lastWrite]

variable {xs : List α}

/-- Nothing is left exactly when no write is to the key. -/
theorem lastWrite_eq_none_iff : lastWrite sel xs = none ↔ ∀ x ∈ xs, sel x = none := by
  induction xs using reverseRecOn with
  | nil => simp
  | append_singleton xs x ih =>
    rw [lastWrite_concat, or_eq_none_iff, ih]
    simp only [mem_append, mem_singleton]
    constructor
    · rintro ⟨hx, hxs⟩ y (hy | rfl)
      · exact hxs y hy
      · exact hx
    · exact fun h => ⟨h x (.inr rfl), fun y hy => h y (.inl hy)⟩

/-- **What is left comes from a write no later write covers.** -/
theorem lastWrite_eq_some_iff {v : V} : lastWrite sel xs = some v ↔
      ∃ (i : ℕ) (x : α), xs[i]? = some x ∧ sel x = some v ∧
        ∀ (j : ℕ) (y : α), i < j → xs[j]? = some y → sel y = none := by
  induction xs using reverseRecOn with
  | nil => simp
  | append_singleton xs x ih =>
    rw [lastWrite_concat, or_eq_some_iff, ih]
    constructor
    · rintro (hx | ⟨hx, i, y, hi, hy, hlater⟩)
      · refine ⟨xs.length, x, by simp, hx, fun j y hj hget => ?_⟩
        rw [getElem?_eq_none (by simp; omega)] at hget
        cases hget
      · have hlt : i < xs.length := (List.getElem?_eq_some_iff.1 hi).1
        refine ⟨i, y, by rw [getElem?_append_left hlt]; exact hi, hy, fun j z hj hget => ?_⟩
        rcases Nat.lt_or_ge j xs.length with hjl | hjl
        · rw [getElem?_append_left hjl] at hget
          exact hlater j z hj hget
        · rw [getElem?_append_right hjl, getElem?_singleton] at hget
          split at hget
          · cases hget; exact hx
          · cases hget
    · rintro ⟨i, y, hi, hy, hlater⟩
      rcases Nat.lt_or_ge i xs.length with hlt | hge
      · rw [getElem?_append_left hlt] at hi
        refine .inr ⟨hlater xs.length x hlt (by simp), i, y, hi, hy, fun j z hj hget => ?_⟩
        have hjl : j < xs.length := (List.getElem?_eq_some_iff.1 hget).1
        exact hlater j z hj (by rw [getElem?_append_left hjl]; exact hget)
      · rw [getElem?_append_right hge, getElem?_singleton] at hi
        split at hi
        · cases hi; exact .inl hy
        · cases hi

/-! ## Longest-prefix match

A table assigns values to words, and a lookup wants the value of the
longest word that is a prefix of the query. `longestMatch` is that lookup
by recursion on the query: what the tail finds wins over what the empty
word holds. `longestMatch_eq_some_iff` and `longestMatch_eq_none_iff` say
what it finds without the recursion. -/

section

variable {β V : Type*}

/-- **The value of the longest prefix of `path` the table holds.** -/
def longestMatch (get : List β → Option V) : List β → Option V
  | [] => get []
  | b :: bs => (longestMatch (fun p => get (b :: p)) bs).or (get [])

variable {get : List β → Option V} {path : List β}

/-- Nothing is found exactly when the table holds no prefix of the query. -/
theorem longestMatch_eq_none_iff :
    longestMatch get path = none ↔ ∀ p, p <+: path → get p = none := by
  induction path generalizing get with
  | nil => simp [longestMatch]
  | cons b bs ih =>
    rw [longestMatch, or_eq_none_iff, ih]
    constructor
    · rintro ⟨htail, hnil⟩ p hp
      rcases prefix_cons_iff.1 hp with rfl | ⟨q, rfl, hq⟩
      · exact hnil
      · exact htail q hq
    · intro h
      exact ⟨fun q hq => h _ (cons_prefix_cons.2 ⟨rfl, hq⟩), h [] nil_prefix⟩

/-- **What is found is the longest prefix's value**: it is held at a
prefix of the query, and no longer prefix is held at all. -/
theorem longestMatch_eq_some_iff {v : V} : longestMatch get path = some v ↔
      ∃ p, p <+: path ∧ get p = some v ∧ ∀ q, q <+: path → p.length < q.length → get q = none := by
  induction path generalizing get with
  | nil =>
    simp only [longestMatch, prefix_nil]
    constructor
    · exact fun h => ⟨[], rfl, h, fun q hq hlt => by simp [hq] at hlt⟩
    · rintro ⟨p, rfl, h, -⟩
      exact h
  | cons b bs ih =>
    rw [longestMatch, or_eq_some_iff, ih, longestMatch_eq_none_iff]
    constructor
    · rintro (⟨p, hp, hget, hlong⟩ | ⟨hnone, hget⟩)
      · refine ⟨b :: p, cons_prefix_cons.2 ⟨rfl, hp⟩, hget, fun q hq hlt => ?_⟩
        rcases prefix_cons_iff.1 hq with rfl | ⟨q', rfl, hq'⟩
        · simp at hlt
        · exact hlong q' hq' (by simpa using hlt)
      · refine ⟨[], nil_prefix, hget, fun q hq hlt => ?_⟩
        rcases prefix_cons_iff.1 hq with rfl | ⟨q', rfl, hq'⟩
        · simp at hlt
        · exact hnone q' hq'
    · rintro ⟨p, hp, hget, hlong⟩
      rcases prefix_cons_iff.1 hp with rfl | ⟨p', rfl, hp'⟩
      · refine .inr ⟨fun q hq => ?_, hget⟩
        exact hlong _ (cons_prefix_cons.2 ⟨rfl, hq⟩) (by simp)
      · refine .inl ⟨p', hp', hget, fun q hq hlt => ?_⟩
        exact hlong _ (cons_prefix_cons.2 ⟨rfl, hq⟩) (by simpa using hlt)

end

end Edgion.Common
