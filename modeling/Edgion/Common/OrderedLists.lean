import Mathlib.Data.List.MinMax
import Mathlib.Data.List.Sort
import Mathlib.Data.List.TakeWhile

/-!
# Ordered lists

A search that takes the first element that answers, in a list already put in order: the element
found stands before every other one that would have answered.
-/

namespace Edgion.Common

variable {α β : Type*} {r : α → α → Prop} {f : α → Option β} {l : List α} {b : β}

/-- **The first hit stands before the other ones.** -/
theorem findSome?_first (hl : l.Pairwise r) (h : l.findSome? f = some b) :
    ∃ a ∈ l, f a = some b ∧ ∀ x ∈ l, f x ≠ none → x = a ∨ r a x := by
  obtain ⟨before, a, after, rfl, ha, hnone⟩ := List.findSome?_eq_some_iff.1 h
  refine ⟨a, by simp, ha, fun x hx hfx => ?_⟩
  rcases List.mem_append.1 hx with hx | hx
  · exact absurd (hnone x hx) hfx
  · rcases List.mem_cons.1 hx with rfl | hx
    · exact .inl rfl
    · exact .inr ((List.pairwise_cons.1 (List.pairwise_append.1 hl).2.1).1 x hx)

/-- **The first hit is a best one.** -/
theorem findSome?_best [Std.Refl r] (hl : l.Pairwise r) (h : l.findSome? f = some b) :
    ∃ a ∈ l, f a = some b ∧ ∀ x ∈ l, f x ≠ none → r a x := by
  obtain ⟨a, hmem, ha, hfst⟩ := findSome?_first hl h
  refine ⟨a, hmem, ha, fun x hx hfx => ?_⟩
  rcases hfst x hx hfx with rfl | hax
  · exact refl_of r x
  · exact hax

/-! ## Stable sorting

A stable sort of a list that is in an order already refines the order sorted by: elements that it
does not tell apart stay in the order they had. Insertion sort is stable, and it computes. -/

section

open List

universe u

variable {α : Type u} {r : α → α → Prop} [DecidableRel r]

/-- **A stable sort of an ordered list** is ordered by the relation first and by the old order
within ties. -/
theorem pairwise_insertionSort_stable [Std.Total r] [IsTrans α r] {old : α → α → Prop} {l : List α}
    (h : l.Pairwise old) :
    (l.insertionSort r).Pairwise fun a b => r a b ∧ (r b a → old a b) := by
  induction l with
  | nil => exact List.Pairwise.nil
  | cons a l ih =>
    obtain ⟨ha, hl⟩ := pairwise_cons.1 h
    have hrec := ih hl
    have hsorted : ((a :: l).insertionSort r).Pairwise r := pairwise_insertionSort r (a :: l)
    rw [insertionSort_cons, orderedInsert_eq_take_drop] at hsorted ⊢
    have hsplit := takeWhile_append_dropWhile (p := fun b => decide ¬ r a b)
      (l := l.insertionSort r)
    rw [← hsplit, pairwise_append] at hrec
    obtain ⟨hfront, hback, hcross⟩ := hrec
    obtain ⟨-, hsortedBack, hsortedCross⟩ := pairwise_append.1 hsorted
    refine pairwise_append.2 ⟨hfront, pairwise_cons.2 ⟨fun b hb => ?_, hback⟩, ?_⟩
    · -- what comes after `a` was after it before
      have hmem : b ∈ l := (mem_insertionSort r).1 ((dropWhile_sublist _).mem hb)
      exact ⟨(pairwise_cons.1 hsortedBack).1 b hb, fun _ => ha b hmem⟩
    · intro b hb c hc
      rcases mem_cons.1 hc with rfl | hc
      · -- what comes before `a` is strictly less
        have hnot : ¬ r c b := by simpa using mem_takeWhile_imp hb
        exact ⟨hsortedCross b hb c mem_cons_self, fun hcb => absurd hcb hnot⟩
      · exact hcross b hb c hc

end

/-! ## Two searches at once -/

section TwoSearches

variable {α β : Type*} {own stray : α → Option β} {l : List α}

/-- **What stray finds is shadowed**: wherever it finds something, `own` has found something
before. -/
def Shadowed (own stray : α → Option β) (l : List α) : Prop :=
  ∀ before a after, l = before ++ a :: after → (stray a).isSome →
    ∃ x ∈ before, (own x).isSome

/-- Nothing stray is found at the first element, nor behind it unless the first one answers. -/
theorem shadowed_cons {a : α} : Shadowed own stray (a :: l) ↔
    stray a = none ∧ (own a = none → Shadowed own stray l) := by
  constructor
  · intro h
    have hhead : stray a = none := by
      by_contra hne
      obtain ⟨x, hx, -⟩ := h [] a l rfl (Option.isSome_iff_ne_none.2 hne)
      cases hx
    refine ⟨hhead, fun hown before b after heq hb => ?_⟩
    obtain ⟨x, hx, hsome⟩ := h (a :: before) b after (congrArg _ heq) hb
    rcases List.mem_cons.1 hx with rfl | hx
    · simp [hown] at hsome
    · exact ⟨x, hx, hsome⟩
  · rintro ⟨hhead, htail⟩ before b after heq hb
    cases before with
    | nil =>
      obtain ⟨rfl, -⟩ := List.cons.inj heq
      simp [hhead] at hb
    | cons c before =>
      obtain ⟨rfl, rfl⟩ := List.cons.inj heq
      cases hown : own a with
      | some b => exact ⟨a, List.mem_cons_self, by simp [hown]⟩
      | none =>
        obtain ⟨x, hx, hsome⟩ := htail hown before b after rfl hb
        exact ⟨x, List.mem_cons_of_mem a hx, hsome⟩

/-- Shadowed values are never found, though each is tried first. -/
theorem findSome?_or_of_shadowed (h : Shadowed own stray l) :
    l.findSome? (fun a => (stray a).or (own a)) = l.findSome? own := by
  induction l with
  | nil => rfl
  | cons a l ih =>
    obtain ⟨hhead, htail⟩ := shadowed_cons.1 h
    rw [List.findSome?_cons, List.findSome?_cons, hhead, Option.none_or]
    cases hown : own a with
    | some b => rfl
    | none => exact ih (htail hown)

/-- **Two searches whose values are told apart find what one finds only if the other is
shadowed.** -/
theorem shadowed_of_findSome?_or (hne : ∀ a x b, stray a = some b → own x ≠ some b)
    (h : l.findSome? (fun a => (stray a).or (own a)) = l.findSome? own) :
    Shadowed own stray l := by
  induction l with
  | nil => exact fun before a after heq => absurd heq (by simp)
  | cons a l ih =>
    rw [List.findSome?_cons] at h
    cases hstray : stray a with
    | some b =>
      rw [hstray] at h
      obtain ⟨x, -, hx⟩ := List.exists_of_findSome?_eq_some h.symm
      exact absurd hx (hne a x b hstray)
    | none =>
      refine shadowed_cons.2 ⟨hstray, fun hown => ih ?_⟩
      rw [hstray, hown, List.findSome?_cons, hown] at h
      exact h

end TwoSearches

/-! ## Popping from a heap

A heap is the list of what is in it; that the element popped is a least one is what heaps are for. -/

section Heap

open List Option

variable {α β : Type*} [LinearOrder α] {f : α → Option β} {steps : ℕ} {heap : List α}

/-- The elements of a heap are popped until one is accepted, with the steps
that are left. -/
def popUntil (f : α → Option β) : ℕ → List α → Option β
  | 0, _ => none
  | steps + 1, heap =>
    heap.min?.bind fun a => (f a).or (popUntil f steps (heap.erase a))

/-- **The least of the accepted elements decides.** -/
theorem popUntil_spec (hsteps : heap.length ≤ steps) :
    match popUntil f steps heap with
    | some b => ∃ a ∈ heap, f a = some b ∧ ∀ a' ∈ heap, (f a').isSome → a ≤ a'
    | none => ∀ a ∈ heap, f a = none := by
  induction steps generalizing heap with
  | zero =>
    rw [length_eq_zero_iff.1 (Nat.le_zero.1 hsteps)]
    exact fun a ha => by cases ha
  | succ steps ih =>
    rw [popUntil]
    cases hmin : heap.min? with
    | none =>
      rw [min?_eq_none_iff.1 hmin]
      exact fun a ha => by cases ha
    | some a =>
      obtain ⟨ha, hle⟩ := min?_eq_some_iff.1 hmin
      rw [bind_some]
      cases hf : f a with
      | some b => exact ⟨a, ha, hf, fun a' ha' _ => hle a' ha'⟩
      | none =>
        rw [none_or]
        -- an element of the heap is the one popped, which is rejected, or stays
        have hrest : ∀ a' ∈ heap, a' = a ∨ a' ∈ heap.erase a := fun a' ha' =>
          or_iff_not_imp_left.2 fun hne => (mem_erase_of_ne hne).2 ha'
        have hlength : (heap.erase a).length ≤ steps := by
          rw [length_erase_of_mem ha]
          omega
        have hspec := ih hlength
        split at hspec
        · obtain ⟨m, hm, hfm, hmle⟩ := hspec
          refine ⟨m, mem_of_mem_erase hm, hfm, fun a' ha' hsome => ?_⟩
          rcases hrest a' ha' with rfl | hmem
          · simp [hf] at hsome
          · exact hmle a' hmem hsome
        · intro a' ha'
          rcases hrest a' ha' with rfl | hmem
          · exact hf
          · exact hspec a' hmem

end Heap

end Edgion.Common
