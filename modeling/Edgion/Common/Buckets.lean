import Mathlib.Data.List.AList

/-!
# Tables that are derived from a store

A store holds values by key, and each value puts some items into some
buckets. What a bucket holds is determined by the store up to order. After
a change of the store only some buckets are made anew: the others are right
if no value that went, came or changed has anything in them (`SameIn`,
`SameIn.perm`).
-/

namespace Edgion.Common

open List AList

universe u v w x

variable {K : Type u} {V : Type v} {B : Type w} {U : Type x}

/-- **What a store puts into a bucket.** -/
def bucket (items : K → V → B → List U) (store : AList fun _ : K => V) (b : B) : List U :=
  store.entries.flatMap fun e => items e.1 e.2 b

variable {items : K → V → B → List U} {store store' : AList fun _ : K => V} {b : B}

/-- Entries without items may be left out. -/
theorem flatMap_filter_isEmpty {α : Type*} (f : α → List U) (l : List α) :
    (l.filter fun a => !(f a).isEmpty).flatMap f = l.flatMap f := by
  induction l with
  | nil => rfl
  | cons a l ih =>
    by_cases ha : f a = []
    · simp [ha, ih]
    · simp [ha, ih]

variable [DecidableEq K]

theorem lookup_insert_eq_some_iff {k k' : K} {v v' : V} : (store.insert k v).lookup k' = some v' ↔
    k' = k ∧ v' = v ∨ k' ≠ k ∧ store.lookup k' = some v' := by
  by_cases hk : k' = k
  · subst hk
    simp [eq_comm]
  · simp [lookup_insert_ne hk, hk]

theorem lookup_erase_eq_some_iff {k k' : K} {v : V} :
    (store.erase k).lookup k' = some v ↔ k' ≠ k ∧ store.lookup k' = some v := by
  by_cases hk : k' = k
  · subst hk
    simp
  · simp [lookup_erase_ne hk, hk]

/-- **Two stores differ only in values that have nothing in the bucket.** -/
def SameIn (items : K → V → B → List U) (b : B) (store store' : AList fun _ : K => V) : Prop :=
  ∀ k, store.lookup k = store'.lookup k ∨ (∀ v, store.lookup k = some v → items k v b = []) ∧
    ∀ v, store'.lookup k = some v → items k v b = []

namespace SameIn

/-- **Then the bucket is the same.** -/
theorem perm (h : SameIn items b store store') :
    (bucket items store b).Perm (bucket items store' b) := by
  unfold bucket
  rw [← flatMap_filter_isEmpty, ← flatMap_filter_isEmpty _ store'.entries]
  refine List.Perm.flatMap_right _ ?_
  refine (perm_ext_iff_of_nodup (store.nodupKeys.nodup.filter _)
    (store'.nodupKeys.nodup.filter _)).2 ?_
  rintro ⟨k, v⟩
  simp only [mem_filter, ← mem_lookup_iff, Option.mem_def, Bool.not_eq_true', isEmpty_eq_false_iff]
  rcases h k with hsame | ⟨hout, hout'⟩
  · rw [hsame]
  · constructor
    · rintro ⟨hget, hne⟩
      exact absurd (hout v hget) hne
    · rintro ⟨hget, hne⟩
      exact absurd (hout' v hget) hne

theorem refl (store : AList fun _ : K => V) : SameIn items b store store := fun _ => .inl rfl

/-- A value without items comes for another one. -/
theorem insert (h : SameIn items b store store') {k : K} {v : V}
    (hold : ∀ v, store.lookup k = some v → items k v b = []) (hnew : items k v b = []) :
    SameIn items b store (store'.insert k v) := by
  intro k'
  by_cases hk : k' = k
  · subst hk
    refine .inr ⟨hold, fun v' hv' => ?_⟩
    rw [lookup_insert] at hv'
    cases hv'
    exact hnew
  · rw [lookup_insert_ne hk]
    exact h k'

/-- A value without items goes. -/
theorem erase (h : SameIn items b store store') {k : K}
    (hold : ∀ v, store.lookup k = some v → items k v b = []) :
    SameIn items b store (store'.erase k) := by
  intro k'
  by_cases hk : k' = k
  · subst hk
    refine .inr ⟨hold, fun v' hv' => ?_⟩
    rw [lookup_erase] at hv'
    cases hv'
  · rw [lookup_erase_ne hk]
    exact h k'

end SameIn

variable {V' : Type x} (f : V → V')

/-- A store is made by inserting the entries of another, each value changed by
a function. -/
def insertAll (store : AList fun _ : K => V) : AList fun _ : K => V' :=
  store.entries.foldl (fun acc e => acc.insert e.1 (f e.2)) ∅

theorem lookup_foldl_insert {f : V → V'} {k : K} :
    ∀ (entries : List ((_ : K) × V)) (acc : AList fun _ : K => V'), entries.NodupKeys →
      (entries.foldl (fun acc e => acc.insert e.1 (f e.2)) acc).lookup k =
        ((entries.dlookup k).map f).or (acc.lookup k) := by
  intro entries
  induction entries with
  | nil =>
    intro acc _
    rfl
  | cons e entries ih =>
    intro acc hnodup
    obtain ⟨hhead, htail⟩ := nodupKeys_cons.1 hnodup
    rw [foldl_cons, ih _ htail]
    by_cases hk : k = e.1
    · subst hk
      have hnone : entries.dlookup e.1 = none := dlookup_eq_none.2 hhead
      have hself : (e :: entries).dlookup e.1 = some e.2 := dlookup_cons_eq entries e.1 e.2
      rw [hnone, hself, lookup_insert]
      rfl
    · have hother : (e :: entries).dlookup k = entries.dlookup k := dlookup_cons_ne entries e hk
      rw [hother, lookup_insert_ne hk]

/-- Every key leads to the value of the other store, changed. -/
theorem lookup_insertAll (store : AList fun _ : K => V) (k : K) :
    (insertAll f store).lookup k = (store.lookup k).map f := by
  unfold insertAll
  rw [lookup_foldl_insert _ _ store.nodupKeys, lookup_empty, Option.or_none]
  rfl

end Edgion.Common
