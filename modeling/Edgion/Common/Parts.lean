import Edgion.Common.Text

/-!
# Parts of a text

A text is cut at a separator. Its parts are the stretches that are not
empty; where two separators follow each other an empty one lies between
them. `replace_iff` is about a text whose front is replaced: the front is
given by its end, what is kept by where it was cut, and the two need not be
the same place. It says when the parts come out right all the same.
-/

namespace Edgion.Common

open List

variable {α : Type*} [DecidableEq α] (d : α)

/-- The stretches between the separators `d` that are not empty. -/
def parts (xs : List α) : List (List α) := (xs.splitOn d).filter (· ≠ [])

/-- How often two separators follow each other. -/
def doubled : List α → ℕ
  | a :: b :: rest => (if a = d ∧ b = d then 1 else 0) + doubled (b :: rest)
  | _ => 0

variable {d} {xs ys : List α}

/-! ## Cutting at a separator -/

theorem splitOn_cons_eq_if (x : α) (xs : List α) : (x :: xs).splitOn d =
      if x = d then [] :: xs.splitOn d else (xs.splitOn d).modifyHead (x :: ·) := by
  simp [splitOn_cons_eq_if_modifyHead]

theorem flatten_splitOn (xs : List α) : (xs.splitOn d).flatten = xs.filter (· ≠ d) := by
  induction xs with
  | nil => simp
  | cons x xs ih =>
    rw [splitOn_cons_eq_if]
    obtain ⟨p, ps, hps⟩ := exists_cons_of_ne_nil (splitOn_ne_nil d xs)
    by_cases hx : x = d
    · simp [hx, ih]
    · rw [if_neg hx, hps, modifyHead_cons, filter_cons_of_pos (by simpa), ← ih, hps]
      rfl

/-- **What the stretches hold**: all that is no separator. -/
theorem exists_mem_splitOn_iff {c : α} : (∃ part ∈ xs.splitOn d, c ∈ part) ↔ c ∈ xs ∧ c ≠ d := by
  rw [← mem_flatten, flatten_splitOn, mem_filter, decide_eq_true_eq]

/-! ## Parts -/

@[simp] theorem parts_nil : parts d [] = [] := by simp [parts]

theorem parts_append_sep (xs ys : List α) : parts d (xs ++ d :: ys) = parts d xs ++ parts d ys := by
  unfold parts
  rw [splitOn_eq_splitOnP, splitOnP_append_cons _ _ (by simp), filter_append]
  rfl

@[simp] theorem parts_sep_cons (ys : List α) : parts d (d :: ys) = parts d ys :=
  (parts_append_sep [] ys).trans (by rw [parts_nil, nil_append])

/-- **The parts of two texts one after the other**, if there is a separator between them. -/
theorem parts_append (h : xs = [] ∨ ys = [] ∨ xs.getLast? = some d ∨ ys.head? = some d) :
    parts d (xs ++ ys) = parts d xs ++ parts d ys := by
  rcases h with rfl | rfl | h | h
  · simp
  · simp
  · obtain ⟨front, rfl⟩ := getLast?_eq_some_iff.1 h
    rw [append_assoc, singleton_append, parts_append_sep, parts_append_sep, parts_nil, append_nil]
  · obtain ⟨rest, rfl⟩ := head?_eq_some_iff.1 h
    rw [parts_append_sep, parts_sep_cons]

/-- A text that does not begin with a separator begins with a part. -/
theorem length_parts_cons {x : α} (hx : x ≠ d) (xs : List α) : (parts d (x :: xs)).length =
      (parts d xs).length + if xs.head? = none ∨ xs.head? = some d then 1 else 0 := by
  unfold parts
  rw [splitOn_cons_eq_if, if_neg hx]
  cases xs with
  | nil => simp
  | cons y ys =>
    obtain ⟨p, ps, hps⟩ := exists_cons_of_ne_nil (splitOn_ne_nil d ys)
    rw [splitOn_cons_eq_if, hps]
    by_cases hy : y = d
    · simp [hy]
    · simp [hy]

/-- **Without a separator between them, two parts become one.** -/
theorem length_parts_append {x y : α} (hx : xs.getLast? = some x) (hxd : x ≠ d)
    (hy : ys.head? = some y) (hyd : y ≠ d) :
    (parts d (xs ++ ys)).length + 1 = (parts d xs).length + (parts d ys).length := by
  induction xs with
  | nil => cases hx
  | cons a xs ih =>
    rcases xs with _ | ⟨b, xs⟩
    · obtain rfl : a = x := by simpa using hx
      rw [singleton_append, length_parts_cons hxd, length_parts_cons hxd, hy]
      simp [hyd]
      omega
    · have ih := ih (by simpa using hx)
      by_cases ha : a = d
      · subst ha
        rw [cons_append, parts_sep_cons, parts_sep_cons]
        exact ih
      · rw [cons_append, length_parts_cons ha, length_parts_cons ha, cons_append,
          head?_cons, head?_cons]
        rw [cons_append] at ih
        omega

/-- **The parts hold what is no separator.** -/
theorem flatten_parts (xs : List α) : (parts d xs).flatten = xs.filter (· ≠ d) := by
  rw [← flatten_splitOn, parts]
  exact flatten_filter_ne_nil

/-! ## Doubled separators -/

@[simp] theorem doubled_nil : doubled d [] = 0 := rfl

@[simp] theorem doubled_singleton (x : α) : doubled d [x] = 0 := rfl

theorem doubled_append (xs ys : List α) : doubled d (xs ++ ys) = doubled d xs + doubled d ys +
      if xs.getLast? = some d ∧ ys.head? = some d then 1 else 0 := by
  induction xs with
  | nil => simp
  | cons a xs ih =>
    rcases xs with _ | ⟨b, xs⟩
    · cases ys with
      | nil => simp
      | cons y ys =>
        rw [singleton_append, doubled, doubled_singleton]
        simp
        omega
    · rw [cons_append, cons_append, doubled, ← cons_append, ih, doubled, getLast?_cons_cons]
      omega

/-- What is doubled from the end of a text on. -/
theorem doubled_behind (xs ys : List α) : doubled d (xs.getLast?.toList ++ ys) =
      doubled d ys + if xs.getLast? = some d ∧ ys.head? = some d then 1 else 0 := by
  rw [doubled_append]
  cases xs.getLast? with
  | none => simp
  | some x => simp

/-! ## Another front -/

/-- **Where a text may be cut that another front is put before**: `rest` is kept of it, and
`after` should be. Either `rest` is short of separators at most, and comes right after a part or
a separator; or it has the one separator more that the front ends with. -/
def CutsRight (d : α) (front after replacement rest : List α) : Prop :=
  (∃ cut, after = cut ++ rest ∧ (∀ x ∈ cut, x = d) ∧
    (replacement = [] ∨ rest = [] ∨ replacement.getLast? = some d ∨ rest.head? = some d) ∧
    (cut = [] → replacement.getLast? = some d → rest.head? = some d → front.getLast? = some d)) ∨
  rest = d :: after ∧ replacement.getLast? ≠ some d

variable {front after replacement rest : List α}

/-- Where the parts come out right, the two ends differ by separators only. -/
theorem filter_eq_of_parts_append
    (h : parts d (replacement ++ rest) = parts d replacement ++ parts d after) :
    rest.filter (· ≠ d) = after.filter (· ≠ d) := by
  have hflat := congrArg flatten h
  rw [flatten_append, flatten_parts, flatten_parts, flatten_parts, filter_append] at hflat
  exact append_cancel_left hflat

variable {cut : List α}

theorem all_of_filter_append
    (h : (cut ++ rest).filter (· ≠ d) = rest.filter (· ≠ d)) : ∀ x ∈ cut, x = d := by
  rw [filter_append] at h
  have hnil : cut.filter (· ≠ d) = [] := append_left_eq_self.1 h
  simpa using hnil

theorem parts_cut (hcut : ∀ x ∈ cut, x = d) : parts d (cut ++ rest) = parts d rest := by
  induction cut with
  | nil => rfl
  | cons x cut ih =>
    obtain ⟨rfl, hcut⟩ := forall_mem_cons.1 hcut
    rw [cons_append, parts_sep_cons, ih hcut]

/-- What is kept is short of separators at most: it has to be joined right. -/
theorem joined_of_parts_append (hcut : ∀ x ∈ cut, x = d)
    (h : parts d (replacement ++ rest) = parts d replacement ++ parts d (cut ++ rest)) :
    replacement = [] ∨ rest = [] ∨ replacement.getLast? = some d ∨ rest.head? = some d := by
  by_contra hjoin
  simp only [not_or] at hjoin
  obtain ⟨hne, hne', hlast, hhead⟩ := hjoin
  have hx := getLast?_eq_some_getLast hne
  have hy := head?_eq_some_head hne'
  have hxd : replacement.getLast hne ≠ d := fun h => hlast (hx.trans (congrArg some h))
  have hyd : rest.head hne' ≠ d := fun h => hhead (hy.trans (congrArg some h))
  have hmerged := length_parts_append hx hxd hy hyd
  rw [h, parts_cut hcut, length_append] at hmerged
  omega

omit [DecidableEq α] in
theorem getLast?_of_all (hne : cut ≠ []) (hcut : ∀ x ∈ cut, x = d) : cut.getLast? = some d := by
  rw [getLast?_eq_some_getLast hne, hcut _ (getLast_mem hne)]

theorem eq_singleton_of_doubled (hne : cut ≠ []) (hcut : ∀ x ∈ cut, x = d)
    (h : doubled d cut = 0) : cut = [d] := by
  rcases cut with _ | ⟨x, _ | ⟨y, cut⟩⟩
  · exact absurd rfl hne
  · rw [hcut x (by simp)]
  · rw [hcut x (by simp), hcut y (by simp), doubled, if_pos ⟨rfl, rfl⟩] at h
    omega

/-- **A front is replaced right if and only if the text is cut at a right place.** No more
separators are doubled than in the replacement and from the end of the front on. -/
theorem replace_iff (hrest : rest <:+ front ++ after) :
    (parts d (replacement ++ rest) = parts d replacement ++ parts d after ∧
      doubled d (replacement ++ rest) ≤
        doubled d replacement + doubled d (front.getLast?.toList ++ after)) ↔
    CutsRight d front after replacement rest := by
  rw [doubled_behind, doubled_append]
  constructor
  · rintro ⟨hparts, hdoubled⟩
    have hfilter := filter_eq_of_parts_append hparts
    by_cases hshort : rest <:+ after
    · -- not more is kept than should be
      obtain ⟨cut, rfl⟩ := hshort
      have hcut := all_of_filter_append hfilter.symm
      refine .inl ⟨cut, rfl, hcut, joined_of_parts_append hcut hparts, ?_⟩
      rintro rfl hlast hhead
      by_contra hfrontLast
      rw [nil_append, if_pos ⟨hlast, hhead⟩, if_neg fun h => hfrontLast h.1] at hdoubled
      omega
    · -- some of the front is kept, which can only be the separator it ends with
      obtain ⟨cut, rfl⟩ := (suffix_or_suffix_of_suffix hrest
        (suffix_append front after)).resolve_left hshort
      have hcut := all_of_filter_append hfilter
      have hne : cut ≠ [] := by
        rintro rfl
        exact hshort suffix_rfl
      have hhead : (cut ++ after).head? = some d := by
        rw [head?_append_of_ne_nil _ hne, head?_eq_some_head hne, hcut _ (head_mem hne)]
      have hle : (if front.getLast? = some d ∧ after.head? = some d then 1 else 0) ≤
          if after.head? = some d then 1 else 0 := by
        split_ifs <;> simp_all
      rw [doubled_append cut, getLast?_of_all hne hcut, hhead] at hdoubled
      simp only [true_and, and_true] at hdoubled
      have hsingle : doubled d cut + (if replacement.getLast? = some d then 1 else 0) = 0 := by omega
      obtain rfl := eq_singleton_of_doubled hne hcut (by omega)
      refine .inr ⟨rfl, fun hlast => ?_⟩
      rw [if_pos hlast] at hsingle
      omega
  · rintro (⟨cut, rfl, hcut, hjoin, hempty⟩ | ⟨rfl, hlast⟩)
    · refine ⟨by rw [parts_append hjoin, parts_cut hcut], ?_⟩
      rw [doubled_append cut]
      by_cases hboth : replacement.getLast? = some d ∧ rest.head? = some d
      · rw [if_pos hboth]
        by_cases hnil : cut = []
        · subst hnil
          rw [nil_append, if_pos (show front.getLast? = some d ∧ _ from
            ⟨hempty rfl hboth.1 hboth.2, hboth.2⟩)]
          omega
        · rw [if_pos (show cut.getLast? = some d ∧ _ from ⟨getLast?_of_all hnil hcut, hboth.2⟩)]
          omega
      · rw [if_neg hboth]
        omega
    · refine ⟨parts_append_sep replacement after, ?_⟩
      obtain ⟨front', heq⟩ := hrest
      have hfront : front.getLast? = some d := by
        have hcancel : front' ++ [d] = front :=
          append_cancel_right ((append_assoc front' [d] after).trans heq)
        rw [← hcancel, getLast?_append_cons]
        rfl
      rw [if_neg fun h => hlast h.1, hfront, ← singleton_append, doubled_append]
      simp

/-! ## Parts in reverse order

A text cut at a separator, its parts put back together in reverse: a name read from its end, label
by label. `flip` is its own inverse and turns ends into beginnings, which is what a search by
prefix needs of it. -/

section

variable {α : Type*} [DecidableEq α] (d : α)

/-- The parts of `xs` between the separators `d`, in reverse order. -/
def flip (xs : List α) : List α := [d].intercalate (xs.splitOn d).reverse

omit [DecidableEq α] in
theorem intercalate_append {xs ys : List (List α)} (hxs : xs ≠ []) (hys : ys ≠ []) :
    [d].intercalate (xs ++ ys) = [d].intercalate xs ++ d :: [d].intercalate ys := by
  induction xs with
  | nil => exact absurd rfl hxs
  | cons x xs ih =>
    rcases xs with _ | ⟨x', xs⟩
    · simp [intercalate_cons_of_ne_nil hys]
    · rw [cons_append, intercalate_cons_of_ne_nil (by simp), ih (by simp)]
      simp

/-- The parts of the reversal are the parts in reverse. -/
theorem splitOn_flip (xs : List α) : (flip d xs).splitOn d = (xs.splitOn d).reverse := by
  refine splitOn_intercalate d (fun part hpart => ?_) (by simp [splitOn_ne_nil])
  exact fun hd => (exists_mem_splitOn_iff.1 ⟨part, mem_reverse.1 hpart, hd⟩).2 rfl

/-- **Reversing twice gives the text back.** -/
@[simp] theorem flip_flip (xs : List α) : flip d (flip d xs) = xs := by
  rw [flip, splitOn_flip, reverse_reverse, intercalate_splitOn]

/-- **An end becomes a beginning.** -/
theorem flip_append_cons (xs ys : List α) :
    flip d (xs ++ d :: ys) = flip d ys ++ d :: flip d xs := by
  rw [flip, splitOn_append_cons_self, reverse_append,
    intercalate_append d (by simp [splitOn_ne_nil]) (by simp [splitOn_ne_nil]), flip, flip]

@[simp] theorem flip_nil : flip d [] = [] := rfl

theorem flip_eq_nil_iff {xs : List α} : flip d xs = [] ↔ xs = [] := by
  constructor
  · intro h
    rw [← flip_flip d xs, h, flip_nil]
  · rintro rfl
    rfl

theorem flip_injective : Function.Injective (flip d) :=
  Function.LeftInverse.injective (flip_flip d)

/-- The reversal has the same elements. -/
theorem flip_perm (xs : List α) : (flip d xs).Perm xs := by
  have hparts : ∀ parts : List (List α),
      ([d].intercalate parts.reverse).Perm ([d].intercalate parts) := by
    intro parts
    induction parts with
    | nil => exact Perm.refl _
    | cons part parts ih =>
      rcases parts with _ | ⟨part', parts⟩
      · exact Perm.refl _
      · have hcons : [d].intercalate (part :: part' :: parts) =
            part ++ d :: [d].intercalate (part' :: parts) := by simp
        have hsnoc : [d].intercalate (part :: part' :: parts).reverse =
            [d].intercalate (part' :: parts).reverse ++ d :: part := by
          rw [reverse_cons, intercalate_append d (by simp) (by simp)]
          simp
        rw [hcons, hsnoc]
        exact (perm_append_comm.trans (perm_middle.symm.trans (by simp))).trans
          ((ih.cons d).append_left part)
  exact (hparts _).trans (by rw [intercalate_splitOn])

end

end Edgion.Common
