import Edgion.RadixTree.Prefixes

/-!
# Keys, values and indices

Both engines over a radix tree keep a list of items, several of which may have one key. They number
the distinct keys from 1, put each into the tree under its number, and file the index of an item
under the number of its key, narrowed by `as u32`. `KeyTable` is what they keep for that, and
`Keyed` what is true of it.
-/

namespace Edgion.RadixTree

open List Option Prod Nat

/-- The builder of the tree, the next number, the number of each key, and the indices filed under a
number. -/
structure KeyTable where
  builder : RadixRouter
  nextTreeValue : ℕ
  keyToValue : String → Option ℕ
  treeValueToIdx : ℕ → Option (List ℕ)

namespace KeyTable

/-- A table without keys, on top of indices that are there already. -/
def init (treeValueToIdx : ℕ → Option (List ℕ)) : KeyTable :=
  ⟨RadixRouter.new, 1, fun _ => none, treeValueToIdx⟩

variable (s : KeyTable) (key : String)

/-- The number of a key, inserted with the next one where it is new. -/
def treeValue : Except RouterError (KeyTable × ℕ) :=
  match s.keyToValue key with
  | some existingValue => .ok (s, existingValue)
  | none =>
    match s.builder.insert key s.nextTreeValue with
    | (_, .error e) => .error e
    | (builder, .ok ()) =>
      .ok ({ s with
        builder := builder
        nextTreeValue := s.nextTreeValue + 1
        keyToValue := Function.update s.keyToValue key s.nextTreeValue }, s.nextTreeValue)

/-- `entry(tree_value as u32).or_default().push(idx)`. -/
def push (treeValue idx : ℕ) : KeyTable :=
  { s with
    treeValueToIdx := Function.update s.treeValueToIdx (asU32 treeValue)
      (some ((s.treeValueToIdx (asU32 treeValue)).getD [] ++ [idx])) }

/-- One item: its key gets a number, and its index is filed under it. -/
def add (idx : ℕ) : Except RouterError KeyTable :=
  match s.treeValue key with
  | .error e => .error e
  | .ok (s', value) => .ok (s'.push value idx)

end KeyTable

/-- **The keys of a table and their numbers**: the builder holds them, and they are numbered from 1
without a gap. -/
structure Numbered (s : KeyTable) (routes : List (String × ℕ)) : Prop where
  inserted : RadixRouter.new.insertAll routes = .ok s.builder
  values : routes.map snd = range' 1 routes.length
  next : s.nextTreeValue = routes.length + 1
  nodup : (routes.map fst).Nodup
  known : ∀ key v, s.keyToValue key = some v ↔ (key, v) ∈ routes

/-- **What is true of a table** for the keys of the items so far: the first key has number 1, and the
indices under a number are those of the items with that key, in order. -/
structure Keyed (s : KeyTable) (keys : List String) (routes : List (String × ℕ)) : Prop
    extends Numbered s routes where
  mem_iff : ∀ key, key ∈ keys ↔ ∃ v, (key, v) ∈ routes
  first : ∀ key, keys.head? = some key → (key, 1) ∈ routes
  indexed : ∀ w i, i ∈ (s.treeValueToIdx w).getD [] ↔
    ∃ key v, keys[i]? = some key ∧ (key, v) ∈ routes ∧ asU32 v = w
  sorted : ∀ w, ((s.treeValueToIdx w).getD []).Pairwise (· < ·)

namespace Numbered

variable {s s' : KeyTable} {routes : List (String × ℕ)} (hb : Numbered s routes)

include hb

variable {key : String}

theorem value_unique {v w : ℕ} (hv : (key, v) ∈ routes) (hw : (key, w) ∈ routes) : v = w := by
  have hv' := (hb.known key v).2 hv
  rw [(hb.known key w).2 hw] at hv'
  exact (some.inj hv').symm

theorem value_le : ∀ route ∈ routes, route.2 ≤ routes.length := by
  intro route hroute
  have hmem : route.2 ∈ routes.map snd := mem_map_of_mem hroute
  rw [hb.values, mem_range'_1] at hmem
  omega

theorem values_lt : (routes.map snd).Pairwise (· < ·) := by
  rw [hb.values]
  exact pairwise_lt_range'

/-- A number that `u32` holds is what its key's items are filed under. -/
theorem asU32_eq (hbound : routes.length ≤ u32Max)
    {route : String × ℕ} (hroute : route ∈ routes) : asU32 route.2 = route.2 :=
  mod_eq_of_lt (lt_succ_of_le ((hb.value_le route hroute).trans hbound))

/-- **A key gets its number**, and the table has it and the keys it had. -/
theorem treeValue {value : ℕ} (h : s.treeValue key = .ok (s', value)) :
    ∃ routes', Numbered s' routes' ∧ (∀ route, route ∈ routes' ↔ route ∈ routes ∨
        route = (key, value)) ∧
      s'.treeValueToIdx = s.treeValueToIdx ∧ (routes = [] → value = 1) := by
  unfold KeyTable.treeValue at h
  split at h
  · rename_i v hv
    cases h
    have hmem := (hb.known _ _).1 hv
    refine ⟨routes, hb, fun route => ⟨.inl, ?_⟩, rfl, ?_⟩
    · rintro (hroute | rfl)
      · exact hroute
      · exact hmem
    · rintro rfl
      cases hmem
  · rename_i hnone
    split at h
    · cases h
    · rename_i builder hins
      cases h
      have hnew : ∀ v, (key, v) ∉ routes := by
        intro v hv
        rw [(hb.known _ _).2 hv] at hnone
        cases hnone
      refine ⟨routes ++ [(key, s.nextTreeValue)], ?_, by simp, rfl, ?_⟩
      · constructor
        · exact RadixRouter.insertAll_concat hb.inserted hins
        · rw [map_append, hb.values, hb.next, length_append]
          simp [range'_concat, add_comm]
        · simp [hb.next]
        · rw [map_append, nodup_append]
          refine ⟨hb.nodup, by simp, ?_⟩
          rintro _ hkey key' hmem rfl
          obtain ⟨⟨_, v⟩, hroute, rfl⟩ := mem_map.1 hkey
          obtain rfl := mem_singleton.1 hmem
          exact hnew v hroute
        · intro key' v
          by_cases hkey : key' = key
          · subst hkey
            simp [hnew, eq_comm]
          · simp [hb.known, hkey]
      · rintro rfl
        exact hb.next

end Numbered

namespace KeyTable

/-- A pushed index is the last one under its number. -/
theorem getD_push (s : KeyTable) (value idx w : ℕ) : ((s.push value idx).treeValueToIdx w).getD [] =
      (s.treeValueToIdx w).getD [] ++ if asU32 value = w then [idx] else [] := by
  unfold push
  by_cases hw : w = asU32 value
  · subst hw
    simp
  · simp [Function.update_of_ne hw, Ne.symm hw]

end KeyTable

namespace Keyed

variable {s s' : KeyTable} {keys : List String} {routes : List (String × ℕ)}

theorem init : Keyed (KeyTable.init fun _ => none) [] [] where
  inserted := rfl
  values := rfl
  next := rfl
  nodup := nodup_nil
  known := by simp [KeyTable.init]
  mem_iff := by simp
  first := by simp
  indexed := by simp [KeyTable.init]
  sorted := by simp [KeyTable.init]

/-- The indices under the number of a key are those of the items with the key. -/
theorem mem_idx_iff (hb : Keyed s keys routes) (hbound : routes.length ≤ u32Max)
    {route : String × ℕ} (hroute : route ∈ routes) {i : ℕ} :
    i ∈ (s.treeValueToIdx route.2).getD [] ↔ keys[i]? = some route.1 := by
  rw [hb.indexed]
  constructor
  · rintro ⟨key, v, hkey, hv, hw⟩
    rw [hb.asU32_eq hbound hv] at hw
    have hsame : (key, v) = route := inj_on_of_nodup_map
      (hb.values_lt.imp fun h => h.ne) hv hroute hw
    rw [hkey, ← hsame]
  · intro hkey
    exact ⟨route.1, route.2, hkey, hroute, hb.asU32_eq hbound hroute⟩

/-- **One more item.** Its key gets the number it had or the next one, and its index goes to the
end of those under the number. -/
theorem add (hb : Keyed s keys routes) {key : String}
    (h : s.add key keys.length = .ok s') : ∃ routes', Keyed s' (keys ++ [key]) routes' := by
  unfold KeyTable.add at h
  split at h
  · cases h
  rename_i s1 value hval
  cases h
  obtain ⟨routes', hn, hroutes, hidx, hone⟩ := hb.treeValue hval
  have hmem : (key, value) ∈ routes' := (hroutes _).2 (.inr rfl)
  refine ⟨routes', { hn with }, ?_, ?_, ?_, ?_⟩
  · intro other
    simp only [mem_append, mem_singleton, hb.mem_iff, hroutes, mk.injEq,
      exists_or, exists_and_left, exists_eq, and_true]
  · intro other hhead
    cases keys with
    | nil =>
      obtain rfl : key = other := by simpa using hhead
      have hnil : routes = [] := by
        refine eq_nil_iff_forall_not_mem.2 fun route hroute => ?_
        exact not_mem_nil ((hb.mem_iff route.1).2 ⟨route.2, hroute⟩)
      exact (hone hnil) ▸ hmem
    | cons k ks => exact (hroutes _).2 (.inl (hb.first other (by simpa using hhead)))
  · intro w i
    rw [KeyTable.getD_push, hidx, mem_append, hb.indexed]
    rcases lt_trichotomy i keys.length with hi | rfl | hi
    · -- an index from before: its key was there, so it has no new number
      have hnot : i ∉ (if asU32 value = w then [keys.length] else []) := by
        split
        · simpa using hi.ne
        · simp
      simp only [hnot, or_false, getElem?_append_left hi]
      refine exists_congr fun other => exists_congr fun v => and_congr_right fun hother => ?_
      refine and_congr_left fun _ => ⟨fun hv => (hroutes _).2 (.inl hv), fun hv => ?_⟩
      obtain ⟨v', hv'⟩ := (hb.mem_iff other).1 (mem_of_getElem? hother)
      rwa [hn.value_unique hv ((hroutes _).2 (.inl hv'))]
    · have hnone : keys[keys.length]? = none := by simp
      have hlast : (keys ++ [key])[keys.length]? = some key := by simp
      simp only [hnone, hlast]
      constructor
      · rintro (⟨_, _, hcase, _⟩ | hi)
        · cases hcase
        · refine ⟨key, value, rfl, hmem, ?_⟩
          by_contra hw
          rw [if_neg hw] at hi
          cases hi
      · rintro ⟨other, v, hother, hv, hw⟩
        cases hother
        rw [hn.value_unique hv hmem] at hw
        exact .inr (by simp [hw])
    · have hnone : keys[i]? = none := getElem?_eq_none hi.le
      have hnone' : (keys ++ [key])[i]? = none := getElem?_eq_none (by simpa using succ_le_of_lt hi)
      have hnot : i ∉ (if asU32 value = w then [keys.length] else []) := by
        split
        · simpa using hi.ne'
        · simp
      simp [hnone, hnone', hnot]
  · intro w
    rw [KeyTable.getD_push, hidx, pairwise_append]
    refine ⟨hb.sorted w, by split <;> simp, fun i hi j hj => ?_⟩
    have hlast : j = keys.length := by
      split at hj
      · exact mem_singleton.1 hj
      · cases hj
    rw [hlast]
    obtain ⟨key, -, hkey, -⟩ := (hb.indexed _ _).1 hi
    exact (List.getElem?_eq_some_iff.1 hkey).1

end Keyed

/-! ## Searching by items -/

/-- The items under the values of a search, each with the kind of its match. -/
def itemsOf (treeValueToIdx : ℕ → Option (List ℕ)) (results : List (ℕ × MatchKind)) :
    List (ℕ × MatchKind) :=
  results.flatMap fun result => ((treeValueToIdx result.1).getD []).map (·, result.2)

/-- **The order a search comes to items in**: by what their keys stand for, then by the numbers of
the keys, and with one key by their indices. -/
def Earlier (keys : List String) (routes : List (String × ℕ)) (i j : ℕ) : Prop :=
  ∃ route ∈ routes, ∃ route' ∈ routes, keys[i]? = some route.1 ∧ keys[j]? = some route'.1 ∧
    (Before (readPattern .text (asBytes route.1)) (readPattern .text (asBytes route'.1)) ∨
      readPattern .text (asBytes route.1) = readPattern .text (asBytes route'.1) ∧
        (route.2 < route'.2 ∨ route = route' ∧ i < j))

variable {keys : List String} {routes : List (String × ℕ)} {s : KeyTable}

/-- Nothing that stands for the same comes before the first item. -/
theorem Keyed.before_of_earlier_zero (hb : Keyed s keys routes) {i : ℕ} {key key' : String}
    (hkey : keys[i]? = some key) (hkey' : keys[0]? = some key') (h : Earlier keys routes i 0) :
    Before (readPattern .text (asBytes key)) (readPattern .text (asBytes key')) := by
  obtain ⟨route, hroute, route', hroute', hi, hzero, hpre | ⟨-, hlt | ⟨-, hlt⟩⟩⟩ := h
  · rw [hkey] at hi
    rw [hkey'] at hzero
    cases hi
    cases hzero
    exact hpre
  · have hfst : (route'.1, 1) ∈ routes := hb.first _ (by rwa [head?_eq_getElem?])
    have hone : route'.2 = 1 := hb.value_unique hroute' hfst
    have hmem : route.2 ∈ routes.map snd := mem_map_of_mem hroute
    rw [hb.values, mem_range'_1] at hmem
    omega
  · exact absurd hlt (not_lt_zero i)

theorem flatMap_filterMap {α β γ : Type} (f : α → Option β) (g : β → List γ) (l : List α) :
    (l.filterMap f).flatMap g = l.flatMap fun a => (f a).elim [] g := by
  induction l with
  | nil => rfl
  | cons a l ih =>
    rw [filterMap_cons, flatMap_cons, ← ih]
    rcases f a with _ | b
    · rfl
    · rfl

/-- **A search of the tree finds the items whose keys match the path**, in order. -/
theorem Keyed.matchAllExt_items
    {t : FrozenRadixTree} (hb : Keyed s keys routes) (hbound : routes.length ≤ u32Max)
    (hgood : ∀ key ∈ keys, EscapeLast (asBytes key)) (hfreeze : s.builder.freeze = .ok t)
    (path : String) :
    ∃ results, t.matchAllExt path = some results ∧
      (∀ i kind, (i, kind) ∈ itemsOf s.treeValueToIdx results ↔ ∃ key, keys[i]? = some key ∧
        tokensKind (readPattern .text (asBytes key)) (asBytes path) = some kind) ∧
      (itemsOf s.treeValueToIdx results).Pairwise fun a b => Earlier keys routes a.1 b.1 := by
  have hgoodRoutes : ∀ route ∈ routes, EscapeLast (asBytes route.1) := fun route hroute =>
    hgood _ ((hb.mem_iff _).2 ⟨route.2, hroute⟩)
  obtain ⟨found, hperm, hahead, hres⟩ :=
    matchAllExt_entries hgoodRoutes hb.values_lt hb.inserted hfreeze path
  have hfound : ∀ e, e ∈ found ↔ ∃ route ∈ routes, RadixRouter.entryOf route = e ∧
      (matchTokens e.1 (asBytes path)).isSome = true := by
    intro e
    rw [hperm.mem_iff, matching, mem_filter, List.mem_map]
    constructor
    · rintro ⟨⟨route, hroute, he⟩, hm⟩
      exact ⟨route, hroute, he, hm⟩
    · rintro ⟨route, hroute, he, hm⟩
      exact ⟨⟨route, hroute, he⟩, hm⟩
  have hitems : itemsOf s.treeValueToIdx ((found.filterMap (report (asBytes path))).map narrow) =
      found.flatMap fun e => (report (asBytes path) e).elim [] fun r =>
        ((s.treeValueToIdx (asU32 r.1)).getD []).map (·, r.2) := by
    rw [itemsOf, flatMap_map, flatMap_filterMap]
    rfl
  -- what one entry contributes
  have hone : ∀ route ∈ routes, ∀ i kind,
      (i, kind) ∈ ((report (asBytes path) (RadixRouter.entryOf route)).elim [] fun r =>
        ((s.treeValueToIdx (asU32 r.1)).getD []).map (·, r.2)) ↔
      keys[i]? = some route.1 ∧
        tokensKind (readPattern .text (asBytes route.1)) (asBytes path) = some kind := by
    intro route hroute i kind
    rcases hkind : tokensKind (readPattern .text (asBytes route.1)) (asBytes path) with _ | kind'
    · simp [report, RadixRouter.entryOf, hkind]
    · simp only [report, RadixRouter.entryOf, hkind, map_some, elim_some,
        List.mem_map, mk.injEq, hb.asU32_eq hbound hroute, some.injEq]
      rw [← hb.mem_idx_iff hbound hroute]
      constructor
      · rintro ⟨j, hj, rfl, rfl⟩
        exact ⟨hj, rfl⟩
      · rintro ⟨hj, rfl⟩
        exact ⟨i, hj, rfl, rfl⟩
  refine ⟨_, hres, fun i kind => ?_, ?_⟩
  · rw [hitems, mem_flatMap]
    constructor
    · rintro ⟨e, he, hmem⟩
      obtain ⟨route, hroute, rfl, -⟩ := (hfound e).1 he
      exact ⟨route.1, (hone route hroute i kind).1 hmem⟩
    · rintro ⟨key, hkey, hkind⟩
      obtain ⟨v, hv⟩ := (hb.mem_iff key).1 (mem_of_getElem? hkey)
      refine ⟨RadixRouter.entryOf (key, v), (hfound _).2 ⟨(key, v), hv, rfl, ?_⟩,
        (hone (key, v) hv i kind).2 ⟨hkey, hkind⟩⟩
      obtain ⟨after, hpost, -⟩ := map_eq_some_iff.1 hkind
      exact isSome_iff_exists.2 ⟨after, hpost⟩
  · rw [hitems, pairwise_flatMap]
    constructor
    · intro e he
      obtain ⟨route, hroute, rfl, -⟩ := (hfound e).1 he
      -- with one key, the indices grow
      have hkey := hone route hroute
      generalize report (asBytes path) (RadixRouter.entryOf route) = reported at hkey ⊢
      rcases reported with _ | r
      · exact Pairwise.nil
      · refine pairwise_map.2 ((hb.sorted _).imp_of_mem fun {i j} hi hj hlt => ?_)
        have hi' := ((hkey i r.2).1 (mem_map_of_mem hi)).1
        have hj' := ((hkey j r.2).1 (mem_map_of_mem hj)).1
        exact ⟨route, hroute, route, hroute, hi', hj', .inr ⟨rfl, .inr ⟨rfl, hlt⟩⟩⟩
    · refine hahead.imp_of_mem fun {e e'} he he' hlt x hx y hy => ?_
      obtain ⟨route, hroute, rfl, -⟩ := (hfound e).1 he
      obtain ⟨route', hroute', rfl, -⟩ := (hfound e').1 he'
      have hi := ((hone route hroute x.1 x.2).1 hx).1
      have hj := ((hone route' hroute' y.1 y.2).1 hy).1
      refine ⟨route, hroute, route', hroute', hi, hj, ?_⟩
      rcases hlt with hlt | ⟨hsame, hlt⟩
      · exact .inl hlt
      · exact .inr ⟨hsame, .inl hlt⟩

end Edgion.RadixTree
