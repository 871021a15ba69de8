import Edgion.Common.OrderedLists
import Edgion.Lb.Selection
import Mathlib.Data.Prod.Lex

/-!
# Load balancing — the least connections and the lowest latency

Both selectors put the active backends of a service in a heap, by a metric of the runtime state and
their place in the list, and pop them until one is healthy or no step is left. With a step for each
active backend, the one returned has the least metric of those that are active and healthy.

The metrics are read while the heap is filled; here they are those of one state.
-/

namespace Edgion.Lb

open Common List Option

universe u

/-! ## The runtime state -/

inductive BackendState
  | active
  | draining
  | removed
deriving DecidableEq, Repr

/-- `ServiceRuntimeState`: what is known of the backends of a service. -/
structure ServiceRuntimeState (Addr : Type u) where
  ewma : Addr → Option ℕ
  connCounts : Addr → Option ℕ
  backendStates : Addr → Option BackendState

/-- `SERVICES`. -/
abbrev Services (Addr : Type u) := String → Option (ServiceRuntimeState Addr)

variable {Addr : Type u}

namespace Services

variable (d : Services Addr) (serviceKey : String)

def getCount (addr : Addr) : ℕ := ((d serviceKey).bind fun s => s.connCounts addr).getD 0

/-- `get_ewma`: a millisecond where nothing was measured. -/
def getEwma (addr : Addr) : ℕ := ((d serviceKey).bind fun s => s.ewma addr).getD 1000

def getBackendState (addr : Addr) : BackendState :=
  ((d serviceKey).bind fun s => s.backendStates addr).getD .active

def isBackendActive (addr : Addr) : Bool := d.getBackendState serviceKey addr = .active

/-! ## The selectors -/

variable (backends : List (Backend Addr))

/-- The active backends, as `select_by_min_metric` pushes them. -/
def activeHeap (metric : Addr → ℕ) : List (ℕ ×ₗ ℕ) :=
  (backends.zipIdx.filter fun (b, _) => d.isBackendActive serviceKey b.addr).map fun (b, i) =>
    toLex (metric b.addr, i)

def selectByMinMetric (maxIterations : ℕ)
    (metricFn : String → Addr → ℕ) (healthFilter : Backend Addr → Bool) :
    Option (Backend Addr) :=
  popUntil (fun entry => (backends[(ofLex entry).2]?).filter healthFilter) maxIterations
    (d.activeHeap serviceKey backends (metricFn serviceKey))

/-- `least_conn::select`. -/
def leastConnSelect (maxIterations : ℕ)
    (healthFilter : Backend Addr → Bool) : Option (Backend Addr) :=
  d.selectByMinMetric serviceKey backends maxIterations d.getCount healthFilter

/-- `ewma::select`. -/
def ewmaSelect (maxIterations : ℕ) (healthFilter : Backend Addr → Bool) : Option (Backend Addr) :=
  d.selectByMinMetric serviceKey backends maxIterations d.getEwma healthFilter

/-- A backend that may be selected, at its place in the list. -/
def Selectable (healthFilter : Backend Addr → Bool) (i : ℕ) (b : Backend Addr) : Prop :=
  backends[i]? = some b ∧ d.isBackendActive serviceKey b.addr = true ∧ healthFilter b = true

/-- **What a selection by a metric returns**: the backend of the least metric
that may be selected, the earliest of several, and none where there is none. -/
def SelectsLeast (metric : Addr → ℕ)
    (healthFilter : Backend Addr → Bool) : Option (Backend Addr) → Prop
  | some b => ∃ i, d.Selectable serviceKey backends healthFilter i b ∧
      ∀ j b', d.Selectable serviceKey backends healthFilter j b' →
        metric b.addr < metric b'.addr ∨ metric b.addr = metric b'.addr ∧ i ≤ j
  | none => ∀ j b', ¬ d.Selectable serviceKey backends healthFilter j b'

variable {d serviceKey} {backends : List (Backend Addr)} {maxIterations : ℕ}
variable {healthFilter : Backend Addr → Bool}

/-- The heap has an entry for each active backend. -/
theorem length_activeHeap (metric : Addr → ℕ) : (d.activeHeap serviceKey backends metric).length =
      (backends.filter fun b => d.isBackendActive serviceKey b.addr).length := by
  rw [activeHeap, length_map, ← countP_eq_length_filter, ← countP_eq_length_filter]
  conv_rhs => rw [← zipIdx_map_fst 0 backends, countP_map]
  rfl

/-- What is in the heap and accepted may be selected. -/
theorem mem_activeHeap {metric : Addr → ℕ} {m i : ℕ} {b : Backend Addr} :
    toLex (m, i) ∈ d.activeHeap serviceKey backends metric ∧
        (backends[i]?).filter healthFilter = some b ↔
      d.Selectable serviceKey backends healthFilter i b ∧ metric b.addr = m := by
  rw [activeHeap, List.mem_map, filter_eq_some_iff]
  constructor
  · rintro ⟨⟨⟨b', i'⟩, hmem, hentry⟩, hb, hhealthy⟩
    obtain ⟨hb', hactive⟩ := mem_filter.1 hmem
    obtain ⟨hmetric, rfl⟩ := Prod.mk.inj (toLex.injective hentry)
    obtain rfl : b' = b := some.inj ((mem_zipIdx_iff_getElem?.1 hb').symm.trans hb)
    exact ⟨⟨hb, hactive, hhealthy⟩, hmetric⟩
  · rintro ⟨⟨hb, hactive, hhealthy⟩, rfl⟩
    exact ⟨⟨(b, i), mem_filter.2 ⟨mem_zipIdx_iff_getElem?.2 hb, hactive⟩, rfl⟩, hb, hhealthy⟩

/-- With a step for each active backend, the backend selected has the least metric. -/
theorem selectByMinMetric_selectsLeast (metricFn : String → Addr → ℕ)
    (hmax : (backends.filter fun b => d.isBackendActive serviceKey b.addr).length ≤ maxIterations) :
    d.SelectsLeast serviceKey backends (metricFn serviceKey) healthFilter
      (d.selectByMinMetric serviceKey backends maxIterations metricFn healthFilter) := by
  rw [← length_activeHeap (metricFn serviceKey)] at hmax
  have hspec := popUntil_spec (f := fun entry => (backends[(ofLex entry).2]?).filter healthFilter)
    hmax
  unfold selectByMinMetric
  split at hspec
  · next b hb =>
    obtain ⟨⟨m, i⟩, hmem, hfound, hle⟩ := hspec
    obtain ⟨hb', rfl⟩ := mem_activeHeap.1 ⟨hmem, hfound⟩
    rw [hb]
    refine ⟨i, hb', fun j b' hj => ?_⟩
    obtain ⟨hmem', hfound'⟩ := mem_activeHeap.2 ⟨hj, rfl⟩
    have hlex := hle _ hmem' (isSome_iff_exists.2 ⟨b', hfound'⟩)
    exact Prod.Lex.toLex_le_toLex.1 hlex
  · next hnone =>
    rw [hnone]
    intro j b' hj
    obtain ⟨hmem', hfound'⟩ := mem_activeHeap.2 ⟨hj, rfl⟩
    cases hfound'.symm.trans (hspec _ hmem')

/-- **The least loaded, or the fastest, of the backends that may be selected
is returned.** -/
theorem select_selectsLeast
    (hmax : (backends.filter fun b => d.isBackendActive serviceKey b.addr).length ≤ maxIterations) :
    d.SelectsLeast serviceKey backends (d.getCount serviceKey) healthFilter
        (d.leastConnSelect serviceKey backends maxIterations healthFilter) ∧
      d.SelectsLeast serviceKey backends (d.getEwma serviceKey) healthFilter
        (d.ewmaSelect serviceKey backends maxIterations healthFilter) :=
  ⟨selectByMinMetric_selectsLeast d.getCount hmax, selectByMinMetric_selectsLeast d.getEwma hmax⟩

/-- Four backends: the first is fast and has three connections, the second has one, the third is
draining, and of the fourth nothing is known. -/
def fourLoads : Services ℕ := fun _ => some {
  ewma := fun addr => if addr = 1 then some 500 else none
  connCounts := fun addr => if addr = 1 then some 3 else if addr = 2 then some 1 else none
  backendStates := fun addr => if addr = 3 then some .draining else none }

/-- The fourth backend, with no connection, is ill. -/
theorem select_selectsLeast_fourLoads :
    SelectsLeast fourLoads "edge/s" [⟨1, 1⟩, ⟨2, 1⟩, ⟨3, 1⟩, ⟨4, 1⟩] (getCount fourLoads "edge/s")
        (fun b => b.addr ≠ 4) (some ⟨2, 1⟩) ∧
      SelectsLeast fourLoads "edge/s" [⟨1, 1⟩, ⟨2, 1⟩, ⟨3, 1⟩, ⟨4, 1⟩] (getEwma fourLoads "edge/s")
        (fun b => b.addr ≠ 4) (some ⟨1, 1⟩) :=
  select_selectsLeast (by decide : (filter _ _).length ≤ 3)

end Services

end Edgion.Lb
