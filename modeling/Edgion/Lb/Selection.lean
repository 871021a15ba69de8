import Mathlib.Algebra.Group.Int.Defs
import Mathlib.Algebra.Group.Nat.Defs
import Mathlib.Data.List.Sort

/-!
# Load balancing — selectors over the backends of a service

Two selectors are built from a list of backends and then kept. The round
robin takes the next number of a counter, reads a table in which each
backend stands as often as it weighs, and from there walks the backends
until one is healthy. The consistent hash walks a ring of points from the
one the request's key falls on.

The round robin starves no healthy backend: one of as many selections in
a row as the table is long returns it (`selects_each`). What the ring walk
returns is `select_eq_firstHealthy_iff`. The ring itself is a parameter,
that of the library the source uses.
-/

namespace Edgion.Lb

open List Option Nat

universe u v

/-- `Backend`, without the extension data. -/
structure Backend (Addr : Type u) where
  addr : Addr
  weight : ℕ
deriving DecidableEq, Repr

variable {Addr : Type u}

/-! ## Round robin -/

structure RoundRobinSelector (Addr : Type u) where
  backends : List (Backend Addr)
  weighted : List ℕ
  counter : ℕ
deriving DecidableEq

variable {b : Backend Addr}

namespace RoundRobinSelector

/-- The backends in the order of their addresses. -/
def sorted [LinearOrder Addr] (backends : List (Backend Addr)) : List (Backend Addr) :=
  backends.insertionSort fun a b => a.addr ≤ b.addr

variable {backends : List (Backend Addr)}

theorem mem_sorted [LinearOrder Addr] : b ∈ sorted backends ↔ b ∈ backends :=
  mem_insertionSort _

theorem length_sorted [LinearOrder Addr] (backends : List (Backend Addr)) :
    (sorted backends).length = backends.length :=
  length_insertionSort _ _

/-- Each index as often as its backend weighs, once at least. Indices are
stored as `u16`. -/
def weightedIndices (backends : List (Backend Addr)) : List ℕ :=
  backends.zipIdx.flatMap fun (b, index) => replicate (max b.weight 1) (index % 2 ^ 16)

/-- `RoundRobinSelector::build`, which asserts that the indices fit. -/
def build [LinearOrder Addr] (backends : List (Backend Addr)) : Option (RoundRobinSelector Addr) :=
  if backends.length ≤ 65535 then
    some ⟨sorted backends, weightedIndices (sorted backends), 0⟩
  else none

/-- `RoundRobinSelector::select`. The counter is a machine word. -/
def select (s : RoundRobinSelector Addr) (maxIterations : ℕ)
    (healthFilter : Backend Addr → Bool) : Option (Backend Addr) × RoundRobinSelector Addr :=
  match s.weighted with
  | [] => (none, s)
  | _ :: _ =>
    let start := s.counter
    let next := { s with counter := (s.counter + 1) % 2 ^ 64 }
    let first := (s.weighted[start % s.weighted.length]?).bind fun idx => s.backends[idx]?
    match first.filter healthFilter with
    | some b => (some b, next)
    | none =>
      let blen := s.backends.length
      let offset := start % blen
      let walk := (range' 1 (min maxIterations blen - 1)).filterMap fun step =>
        s.backends[(offset + step) % blen]?
      (walk.find? healthFilter, next)

variable {s : RoundRobinSelector Addr} {maxIterations : ℕ} {healthFilter : Backend Addr → Bool}

/-- A selection gives one of the backends. -/
theorem mem_of_select (h : (s.select maxIterations healthFilter).1 = some b) : b ∈ s.backends := by
  unfold select at h
  split at h
  · cases h
  · dsimp only at h
    split at h
    · next found hfst =>
      obtain rfl : found = b := some.inj h
      have hmem := (filter_eq_some_iff.1 hfst).1
      obtain ⟨idx, -, hidx⟩ := bind_eq_some_iff.1 hmem
      exact mem_of_getElem? hidx
    · obtain ⟨step, -, hstep⟩ := mem_filterMap.1 (mem_of_find?_eq_some h)
      exact mem_of_getElem? hstep

/-- The counter is all that a selection changes. -/
theorem select_snd (hne : s.weighted ≠ []) : (s.select maxIterations healthFilter).2 =
    { s with counter := (s.counter + 1) % 2 ^ 64 } := by
  unfold select
  split
  · next hnil => exact absurd hnil hne
  · dsimp only
    split <;> rfl

/-- The selector after selections with some filters. -/
def after (s : RoundRobinSelector Addr) (maxIterations : ℕ)
    (filters : List (Backend Addr → Bool)) : RoundRobinSelector Addr :=
  filters.foldl (fun s healthFilter => (s.select maxIterations healthFilter).2) s

/-- **What a run changes**: the counter goes up by one with each selection. -/
theorem after_eq (hne : s.weighted ≠ []) (filters : List (Backend Addr → Bool))
    (hfit : s.counter + filters.length < 2 ^ 64) :
    s.after maxIterations filters = { s with counter := s.counter + filters.length } := by
  induction filters generalizing s with
  | nil => rfl
  | cons f filters ih =>
    rw [length_cons] at hfit ⊢
    have hnext : (s.counter + 1) % 2 ^ 64 = s.counter + 1 := mod_eq_of_lt (by omega)
    rw [after, foldl_cons, ← after, select_snd hne, hnext]
    refine (ih (s := { s with counter := s.counter + 1 }) hne ?_).trans ?_
    · dsimp only
      omega
    · dsimp only
      rw [Nat.add_assoc, Nat.add_comm 1]

/-- A selection whose counter is at the place of a healthy backend returns it. -/
theorem select_of_place {n : ℕ} (hn : n < s.weighted.length)
    (hplace : (s.weighted[n]?).bind (fun idx => s.backends[idx]?) = some b)
    (hcounter : s.counter % s.weighted.length = n) (hhealthy : healthFilter b) :
    (s.select maxIterations healthFilter).1 = some b := by
  obtain ⟨w, ws, hws⟩ := exists_cons_of_ne_nil (ne_nil_of_length_pos (n.zero_le.trans_lt hn))
  rw [← hcounter] at hplace
  unfold select
  simp only [hws] at hplace ⊢
  simp only [hplace, filter_some, hhealthy, if_true]

/-- A selector as it was built, whatever its counter. -/
def BuiltFrom [LinearOrder Addr] (s : RoundRobinSelector Addr) (backends : List (Backend Addr)) :
    Prop :=
  s.backends = sorted backends ∧ s.weighted = weightedIndices (sorted backends)

section Run

variable [LinearOrder Addr]

/-- Every backend has a place in the table. -/
theorem BuiltFrom.exists_place (h : s.BuiltFrom backends) (hlen : backends.length ≤ 65535)
    (hb : b ∈ backends) : ∃ n < s.weighted.length,
    (s.weighted[n]?).bind (fun idx => s.backends[idx]?) = some b := by
  have hsorted : b ∈ s.backends := by
    rw [h.1]
    exact mem_sorted.2 hb
  obtain ⟨i, hi, hget⟩ := mem_iff_getElem.1 hsorted
  have hi16 : i < 2 ^ 16 := by
    rw [h.1, length_sorted] at hi
    omega
  have hmem : i ∈ s.weighted := by
    rw [h.2, weightedIndices, ← h.1]
    refine mem_flatMap.2 ⟨(b, i), ?_, ?_⟩
    · rw [mem_zipIdx_iff_getElem?]
      exact hget ▸ getElem?_eq_getElem hi
    · exact mem_replicate.2 ⟨by omega, (mod_eq_of_lt hi16).symm⟩
  obtain ⟨n, hn, hweighted⟩ := mem_iff_getElem.1 hmem
  exact ⟨n, hn, by rw [getElem?_eq_getElem hn, hweighted, bind_some, getElem?_eq_getElem hi, hget]⟩

omit [LinearOrder Addr] in
/-- Some number of steps from the counter leads to each place. -/
theorem exists_add_mod_eq {n len : ℕ} (c : ℕ) (hn : n < len) : ∃ k < len, (c + k) % len = n := by
  have hdiv := div_add_mod c len
  have hmod := mod_lt c (n.zero_le.trans_lt hn)
  by_cases hle : c % len ≤ n
  · refine ⟨n - c % len, by omega, ?_⟩
    rw [show c + (n - c % len) = len * (c / len) + n by omega, mul_add_mod, mod_eq_of_lt hn]
  · refine ⟨n + len - c % len, by omega, ?_⟩
    rw [show c + (n + len - c % len) = len * (c / len) + len + n by omega, ← mul_succ, mul_add_mod,
      mod_eq_of_lt hn]

/-- **No healthy backend is starved.** Among as many selections in a row as the table is long, each
with its own health filter, one returns a backend that all of them take for healthy; and every
selection returns a backend that the selector was built from. -/
theorem selects_each (h : s.BuiltFrom backends) (hlen : backends.length ≤ 65535)
    (hwrap : s.counter + s.weighted.length ≤ 2 ^ 64) (filters : List (Backend Addr → Bool))
    (hfilters : filters.length = s.weighted.length) :
    (∀ b ∈ backends, (∀ f ∈ filters, f b) → ∃ before f later, filters = before ++ f :: later ∧
        ((s.after maxIterations before).select maxIterations f).1 = some b) ∧
      ∀ before f later b, filters = before ++ f :: later →
        ((s.after maxIterations before).select maxIterations f).1 = some b → b ∈ backends := by
  have hafter : ∀ before f later, filters = before ++ f :: later →
      s.after maxIterations before = { s with counter := s.counter + before.length } := by
    intro before f later heq
    have hcount : before.length < s.weighted.length := by
      rw [← hfilters, heq, length_append, length_cons]
      omega
    exact after_eq (ne_nil_of_length_pos (by omega)) before (by omega)
  constructor
  · intro b hb hhealthy
    obtain ⟨n, hn, hplace⟩ := h.exists_place hlen hb
    obtain ⟨k, hk, hmod⟩ := exists_add_mod_eq s.counter hn
    rw [← hfilters] at hk
    have hsplit : filters = filters.take k ++ filters[k] :: filters.drop (k + 1) := by simp
    refine ⟨_, _, _, hsplit, ?_⟩
    rw [hafter _ _ _ hsplit, length_take_of_le hk.le]
    exact select_of_place hn hplace hmod (hhealthy _ (getElem_mem hk))
  · intro before f later b heq hsel
    rw [hafter before f later heq] at hsel
    have hmem := mem_of_select hsel
    dsimp only at hmem
    rw [h.1] at hmem
    exact mem_sorted.1 hmem

end Run

/-- A selector in use, for two backends of the weights 2 and 1. -/
def inUse : RoundRobinSelector ℕ := ⟨[⟨1, 2⟩, ⟨2, 1⟩], [0, 0, 1], 5⟩

/-- The lighter backend is returned by one of three selections, whatever is found of the other. -/
theorem selects_each_inUse : ∃ before f later,
    [fun _ => true, fun b => b.addr = 2, fun _ => true] = before ++ f :: later ∧
      ((inUse.after 256 before).select 256 f).1 = some ⟨2, 1⟩ :=
  (selects_each (⟨by decide, by decide⟩ : inUse.BuiltFrom [⟨1, 2⟩, ⟨2, 1⟩]) (by decide) (by decide) _
    rfl).1 _ (by decide) (by simp)

end RoundRobinSelector

/-! ## Consistent hash -/

/-- `pingora_ketama::Continuum`: from weighted addresses, the addresses around
the ring and the place each key falls on. -/
structure Continuum (Addr : Type u) (Key : Type v) where
  ring : List (Addr × ℕ) → List Addr
  nodeIdx : List (Addr × ℕ) → Key → ℕ

/-- `ConsistentHashRing`. The ring itself and the table from addresses to
indices are functions of the backends. -/
structure ConsistentHashRing (Addr : Type u) where
  backends : List (Backend Addr)
deriving DecidableEq

namespace ConsistentHashRing

variable {Key : Type v}

def build (backends : List (Backend Addr)) : ConsistentHashRing Addr := ⟨backends⟩

/-- The weighted addresses the ring is made of: internet addresses only. -/
def buckets (inet : Addr → Bool) (r : ConsistentHashRing Addr) : List (Addr × ℕ) :=
  (r.backends.filter fun b => inet b.addr).map fun b => (b.addr, max b.weight 1)

/-- `addr_to_idx`: of several backends with one address the last counts. -/
def addrToIdx [DecidableEq Addr] (inet : Addr → Bool) (r : ConsistentHashRing Addr)
    (addr : Addr) : Option ℕ :=
  ((r.backends.zipIdx.filter fun (b, _) => inet b.addr && b.addr = addr).getLast?).map Prod.snd

/-- The loop of `select`, with the steps that are left. -/
def walk [DecidableEq Addr] (inet : Addr → Bool) (r : ConsistentHashRing Addr)
    (ring : List Addr) (healthFilter : Backend Addr → Bool) :
    ℕ → ℕ → List ℕ → Option (Backend Addr)
  | 0, _, _ => none
  | steps + 1, idx, seen =>
    match ring[idx]? with
    | none => none
    | some addr =>
      let next := (idx + 1) % ring.length
      match r.addrToIdx inet addr with
      | none => walk inet r ring healthFilter steps next seen
      | some backendIdx =>
        if backendIdx ∈ seen then walk inet r ring healthFilter steps next seen
        else
          match (r.backends[backendIdx]?).filter healthFilter with
          | some b => some b
          | none => walk inet r ring healthFilter steps next (backendIdx :: seen)

def select [DecidableEq Addr] (inet : Addr → Bool) (c : Continuum Addr Key)
    (r : ConsistentHashRing Addr) (hashKey : Key) (maxIterations : ℕ)
    (healthFilter : Backend Addr → Bool) : Option (Backend Addr) :=
  if r.backends.isEmpty then none
  else
    r.walk inet (c.ring (r.buckets inet)) healthFilter maxIterations
      (c.nodeIdx (r.buckets inet) hashKey) []

variable [DecidableEq Addr] {inet : Addr → Bool} {c : Continuum Addr Key}
variable {r : ConsistentHashRing Addr} {healthFilter : Backend Addr → Bool} {seen : List ℕ}

variable {maxIterations : ℕ}

/-! ## The walk around the ring

The walk of `ConsistentHashRing::select` goes on until a point belongs to
a healthy backend, and no further than the gateway's limit of 256 points.
A backend has many points; where those of ill backends fill the first
256 the walk gives up, however many backends are healthy. -/

/-- The backend that a point belongs to. Points are counted around the ring. -/
def owner (inet : Addr → Bool) (r : ConsistentHashRing Addr) (ring : List Addr) (i : ℕ) :
    Option (Backend Addr) :=
  (ring[i % ring.length]?).bind fun addr =>
    (r.addrToIdx inet addr).bind fun idx => r.backends[idx]?

variable {ring : List Addr} {points points' i : ℕ}

/-- The first healthy owner of so many points. -/
def firstHealthy (inet : Addr → Bool) (r : ConsistentHashRing Addr) (ring : List Addr)
    (healthFilter : Backend Addr → Bool) (i points : ℕ) : Option (Backend Addr) :=
  (range' i points).findSome? fun i => (r.owner inet ring i).filter healthFilter

/-- **The walk finds the first healthy owner** of the points it may look at. -/
theorem walk_eq (hring : ring ≠ [])
    (hseen : ∀ idx ∈ seen, (r.backends[idx]?).filter healthFilter = none) :
    r.walk inet ring healthFilter points (i % ring.length) seen =
      r.firstHealthy inet ring healthFilter i points := by
  induction points generalizing i seen with
  | zero => rfl
  | succ points ih =>
    have hlt : i % ring.length < ring.length := mod_lt _ (length_pos_of_ne_nil hring)
    have hget := getElem?_eq_getElem hlt
    rw [walk, firstHealthy, range'_succ, findSome?_cons, owner]
    simp only [hget, bind_some, mod_add_mod]
    cases r.addrToIdx inet ring[i % ring.length] with
    | none => exact ih hseen
    | some idx =>
      dsimp only [bind_some]
      split_ifs with hidx
      · rw [hseen idx hidx]
        exact ih hseen
      · cases hfilter : (r.backends[idx]?).filter healthFilter with
        | some b => rfl
        | none => exact ih (forall_mem_cons.2 ⟨hfilter, hseen⟩)

/-- Of the points that are looked at, none is passed over. -/
theorem firstHealthy_eq_none : r.firstHealthy inet ring healthFilter i points = none ↔
      ∀ k < points, (r.owner inet ring (i + k)).filter healthFilter = none := by
  simp only [firstHealthy, findSome?_eq_none_iff, mem_range'_1]
  exact ⟨fun h k hk => h (i + k) (by omega), fun h j hj => by
    have := h (j - i) (by omega)
    rwa [Nat.add_sub_cancel' hj.1] at this⟩

/-- Looking at more points does not change what is found. -/
theorem firstHealthy_mono {b : Backend Addr} (hle : points ≤ points')
    (h : r.firstHealthy inet ring healthFilter i points = some b) :
    r.firstHealthy inet ring healthFilter i points' = some b := by
  obtain ⟨more, rfl⟩ := Nat.exists_eq_add_of_le hle
  rw [firstHealthy, ← range'_append_1, findSome?_append]
  exact or_eq_some_iff.2 (.inl h)

/-- Two walks from one place agree iff both find a backend or neither does. -/
theorem firstHealthy_eq_iff : r.firstHealthy inet ring healthFilter i points =
        r.firstHealthy inet ring healthFilter i points' ↔
      (r.firstHealthy inet ring healthFilter i points = none ↔
        r.firstHealthy inet ring healthFilter i points' = none) := by
  refine ⟨fun h => by rw [h], fun h => ?_⟩
  cases hfound : r.firstHealthy inet ring healthFilter i points with
  | none => exact (h.1 hfound).symm
  | some b =>
    rcases le_total points points' with hle | hle
    · exact (firstHealthy_mono hle hfound).symm
    · cases hfound' : r.firstHealthy inet ring healthFilter i points' with
      | none => cases hfound.symm.trans (h.2 hfound')
      | some b' => exact hfound.symm.trans (firstHealthy_mono hle hfound')

theorem select_eq {hashKey : Key}
    (hnode : c.nodeIdx (r.buckets inet) hashKey < (c.ring (r.buckets inet)).length) :
    r.select inet c hashKey maxIterations healthFilter =
      r.firstHealthy inet (c.ring (r.buckets inet)) healthFilter
        (c.nodeIdx (r.buckets inet) hashKey) maxIterations := by
  unfold select
  split_ifs with hempty
  · refine (firstHealthy_eq_none.2 fun k _ => ?_).symm
    simp [owner, isEmpty_iff.1 hempty]
  · rw [← walk_eq (ne_nil_of_length_pos (by omega)) (forall_mem_nil _), mod_eq_of_lt hnode]

/-- **A selection returns the first healthy owner around the whole ring**, and
so a healthy backend wherever the ring has one, exactly if one of the first 256
points belongs to a healthy backend or no point does. -/
theorem select_eq_firstHealthy_iff {hashKey : Key}
    (hnode : c.nodeIdx (r.buckets inet) hashKey < (c.ring (r.buckets inet)).length) :
    let ring := c.ring (r.buckets inet)
    let start := c.nodeIdx (r.buckets inet) hashKey
    let healthy := fun i => (r.owner inet ring i).filter healthFilter
    let selected := r.select inet c hashKey 256 healthFilter
    ((∃ i, healthy i ≠ none) → ∃ b, selected = some b ∧ healthFilter b = true) ∧
        selected = r.firstHealthy inet ring healthFilter start ring.length ↔
      (∃ k < 256, healthy (start + k) ≠ none) ∨ ∀ i, healthy i = none := by
  intro ring start healthy selected
  change start < ring.length at hnode
  have hselected : selected = r.firstHealthy inet ring healthFilter start 256 := select_eq hnode
  -- once around the ring every point has been looked at
  have haround : r.firstHealthy inet ring healthFilter start ring.length = none ↔
      ∀ i, healthy i = none := by
    rw [firstHealthy_eq_none]
    refine ⟨fun h i => ?_, fun h k _ => h (start + k)⟩
    have hmod : (start + (i + ring.length - start) % ring.length) % ring.length =
        i % ring.length := by
      rw [Nat.add_mod_mod, Nat.add_sub_cancel' (by omega), Nat.add_mod_right]
    have hat := h _ (mod_lt (i + ring.length - start) (by omega))
    rwa [owner, hmod] at hat
  have hequal : selected = r.firstHealthy inet ring healthFilter start ring.length ↔
      (∃ k < 256, healthy (start + k) ≠ none) ∨ ∀ i, healthy i = none := by
    rw [hselected, firstHealthy_eq_iff, haround, firstHealthy_eq_none]
    refine ⟨fun h => ?_, fun h => ⟨fun hnone => ?_, fun hnone k _ => hnone _⟩⟩
    · by_cases hfirst : ∀ k < 256, healthy (start + k) = none
      · exact .inr (h.1 hfirst)
      · push Not at hfirst
        exact .inl hfirst
    · rcases h with ⟨k, hk, hsome⟩ | h
      · exact absurd (hnone k hk) hsome
      · exact h
  refine ⟨fun h => hequal.1 h.2, fun h => ⟨fun ⟨i, hi⟩ => ?_, hequal.2 h⟩⟩
  cases hfound : selected with
  | none =>
    rw [hequal.2 h] at hfound
    exact absurd (haround.1 hfound i) hi
  | some b =>
    obtain ⟨j, -, hj⟩ := exists_of_findSome?_eq_some (hselected.symm.trans hfound)
    exact ⟨b, rfl, (filter_eq_some_iff.1 hj).2⟩

/-- A ring with 256 points of one backend and then one of another. -/
def crowdedRing : Continuum ℕ ℕ := ⟨fun _ => replicate 256 1 ++ [2], fun _ key => key⟩

def crowded : ConsistentHashRing ℕ := .build [⟨1, 256⟩, ⟨2, 1⟩]

/-- The second backend is found by the key that falls on its point. -/
theorem select_crowded :
    ∃ b, crowded.select (fun _ => true) crowdedRing 256 256 (fun b => b.addr = 2) = some b ∧
      decide (b.addr = 2) = true := by
  have hnode : crowdedRing.nodeIdx (crowded.buckets fun _ => true) 256 <
    (crowdedRing.ring (crowded.buckets fun _ => true)).length := by decide +kernel
  have hfirst : ∃ k < 256, (crowded.owner (fun _ => true) (crowdedRing.ring []) (256 + k)).filter
    (fun b => b.addr = 2) ≠ none := ⟨0, by decide, by decide +kernel⟩
  obtain ⟨k, hk, hhealthy⟩ := hfirst
  exact ((select_eq_firstHealthy_iff hnode).2 (.inl ⟨k, hk, hhealthy⟩)).1 ⟨_, hhealthy⟩

/-- **The walk gives up** before the only point of a healthy backend. -/
theorem select_gives_up :
    crowded.select (fun _ => true) crowdedRing 0 256 (fun b => b.addr = 2) = none ∧
      crowded.firstHealthy (fun _ => true) (crowdedRing.ring []) (fun b => b.addr = 2) 0 257 =
        some ⟨2, 1⟩ := by
  decide +kernel

end ConsistentHashRing

end Edgion.Lb
