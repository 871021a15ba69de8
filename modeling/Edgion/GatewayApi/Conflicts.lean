import Edgion.Controller.Reconcile
import Edgion.GatewayApi.Handler

/-!
# Gateway API — conflicting listeners

Two listeners conflict if they share a port and are not told apart by
hostname. `parse` registers the ports of a Gateway under `Gateway/ns/name`,
and the conflicts of a Gateway are looked up under `ns/name`. As neither a
namespace nor a name holds a slash, nothing is ever found: no listener is
reported as conflicted, and a Gateway that comes or changes requeues no
other. A Gateway that goes requeues those it conflicted with, under keys
that no Gateway has.
-/

namespace Edgion.GatewayApi

open Controller World Prod
open ConfSync (resourceKey)
open Common (Runs TwoWayIndex)
open List Option

/-! ## Conflicts -/

/-- **Two listeners that conflict**: on one port, and either told apart by
nothing else or of one hostname. -/
def Clash (a b : Listener) : Prop :=
  a.port = b.port ∧
    (byHostname a.protocol = false ∨ byHostname b.protocol = false ∨ a.hostname = b.hostname)

instance (a b : Listener) : Decidable (Clash a b) := inferInstanceAs (Decidable (_ ∧ _))

/-- The Gateways that exist: those in the cache. -/
abbrev Cache := ConfSync.Data Gateway

variable (cache : Cache) (k : String) (i : ℕ)

/-- A listener by the key of its Gateway and its place. -/
def listenerAt : Option Listener :=
  (cache k).bind fun g => g.listenerList[i]?

/-- Some other listener conflicts with this one. -/
def InConflict : Prop :=
  ∃ l k' i' l', listenerAt cache k i = some l ∧ (k', i') ≠ (k, i) ∧
    listenerAt cache k' i' = some l' ∧ Clash l l'

/-- The listeners of a status. -/
def Gateway.listenerStatuses (g : Gateway) : List ListenerStatus :=
  (g.status.bind GatewayStatus.listeners).getD []

/-- The status of a listener has `Conflicted=True`. -/
def ReportsConflict : Prop :=
  ∃ g l, cache k = some g ∧ g.listenerList[i]? = some l ∧
    conflictedStatus g.listenerStatuses l.name = some "True"

/-! ## Keys -/

/-- The slashes of a key. -/
def slashes (key : String) : ℕ := key.toList.count '/'

theorem slashes_append (a b : String) : slashes (a ++ b) = slashes a + slashes b := by
  simp [slashes, String.toList_append, count_append]

/-- A Gateway whose namespace and name hold no slash. -/
def Plain (g : Gateway) : Prop := slashes (g.ns.getD "") = 0 ∧ slashes (g.name.getD "") = 0

theorem slash : slashes "/" = 1 := by decide

variable {g : Gateway}

open GatewayHandler

theorem Plain.slashes_gatewayKey (h : Plain g) : slashes (gatewayKey g) = 1 := by
  rw [gatewayKey, slashes_append, slashes_append, h.1, h.2, slash]

/-- The key of a Gateway has one slash at most. -/
theorem Plain.slashes_resourceKey_lt (h : Plain g) : slashes (resourceKey g) < 2 := by
  obtain ⟨hns, hname⟩ := h
  replace hname : slashes (ConfSync.Resource.nameAny g) = 0 := hname
  unfold resourceKey
  cases hg : ConfSync.Resource.ns g with
  | none =>
    simp only [hname]
    omega
  | some ns =>
    have hns : slashes ns = 0 := by
      rw [show g.ns = some ns from hg] at hns
      exact hns
    simp only [slashes_append, hns, slash, hname]
    omega

/-- The key that a Gateway is registered under has two. -/
theorem two_le_slashes_key (r : ResourceRef) : 2 ≤ slashes r.key := by
  have hkind : slashes (r.kind.asStr) = 0 := by cases r.kind <;> decide
  unfold ResourceRef.key
  cases r.ns with
  | none =>
    rw [slashes_append, slashes_append, hkind, show slashes "//" = 2 by decide]
    omega
  | some ns =>
    simp only [slashes_append, hkind, slash]
    omega

/-- **The registered ports**: every key they are registered under holds two
slashes. -/
abbrev Registered (ports : ListenerPortManager) : Prop :=
  ports.Keyed ListenerRef.gatewayKey fun k => 2 ≤ slashes k

theorem Registered.registerGateway {ports : ListenerPortManager} (h : Registered ports)
    (r : ResourceRef) (listeners : List (String × String)) :
    Registered (ports.registerGateway r.key listeners) := by
  refine h.unlink.linkAll fun l hl => ?_
  obtain ⟨listener, -, rfl⟩ := mem_map.1 hl
  exact two_le_slashes_key r

/-! ## What the handler does to the shared tables -/

namespace World

variable {w : World} {ctx : HandlerContext} (targets : List (String × String))

@[simp] theorem ports_requeueAll : (w.requeueAll ctx targets).ports = w.ports := by
  induction targets generalizing w with
  | nil => rfl
  | cons target targets ih => exact ih

/-- What is requeued comes behind what was requeued before. -/
theorem requeued_requeueAll : (w.requeueAll ctx targets).requeued =
      w.requeued ++ targets.flatMap fun target => ctx.requeue target.1 target.2 := by
  induction targets generalizing w with
  | nil => simp [requeueAll]
  | cons target targets ih =>
    rw [requeueAll, foldl_cons, ← requeueAll, ih, flatMap_cons, requeue, append_assoc]

end World

variable {ctx : HandlerContext} {r : Requeue}

/-- A requeue has the kind and the key that were asked for. -/
theorem mem_requeue {kind key : String}
    (h : r ∈ ctx.requeue kind key) : r.kind = kind ∧ r.key = key := by
  unfold HandlerContext.requeue at h
  split at h
  · cases h
  · obtain rfl := mem_singleton.1 h
    exact ⟨rfl, rfl⟩

theorem mem_requeues {targets : List (String × String)}
    (h : r ∈ targets.flatMap fun target => ctx.requeue target.1 target.2) :
    (r.kind, r.key) ∈ targets := by
  obtain ⟨⟨kind, key⟩, hmem, hr⟩ := mem_flatMap.1 h
  obtain ⟨rfl, rfl⟩ := mem_requeue hr
  exact hmem

/-- A requeue that reaches no Gateway: of another kind, or under a key that no
Gateway has. -/
def Misses (r : Requeue) : Prop := r.kind = "Gateway" → 2 ≤ slashes r.key

namespace GatewayHandler

variable {w : World} {ctx : HandlerContext} {g : Gateway}

theorem foldl_registerCertRef (refs : List SecretObjectReference) (w : World) :
    (refs.foldl (registerCertRef g) w).ports = w.ports ∧
      (refs.foldl (registerCertRef g) w).requeued = w.requeued := by
  induction refs generalizing w with
  | nil => exact ⟨rfl, rfl⟩
  | cons r refs ih => exact ih (registerCertRef g w r)

theorem registered_parse (h : Registered w.ports) : Registered (parse w g).2.ports := by
  simp only [parse]
  split
  · exact h
  · rw [(foldl_registerCertRef _ _).1]
    exact h.registerGateway _ _

@[simp] theorem requeued_parse : (parse w g).2.requeued = w.requeued := by
  simp only [parse]
  split
  · rfl
  · rw [(foldl_registerCertRef _ _).2]

theorem ports_onChange : (onChange ctx w g).ports = w.ports := by
  simp only [onChange]
  split <;> simp

open World

/-- **A change requeues no Gateway**: no ports are found under its key. -/
theorem requeued_onChange (ctx : HandlerContext) (h : Registered w.ports) (hg : Plain g) :
    ∃ requeues, (onChange ctx w g).requeued = w.requeued ++ requeues ∧
      ∀ r ∈ requeues, Misses r := by
  have hnone : w.ports.reverse (gatewayKey g) = [] :=
    h.reverse_eq_nil (by rw [hg.slashes_gatewayKey]; omega)
  have hconflicting : w.ports.getConflictingGateways (gatewayKey g) = [] := by
    simp [ListenerPortManager.getConflictingGateways, hnone]
  simp only [onChange, hconflicting, map_nil, requeueAll, foldl_nil]
  split
  · rw [← requeueAll, requeued_requeueAll]
    refine ⟨_, rfl, fun r hr hkind => ?_⟩
    obtain ⟨route, -, heq⟩ := mem_map.1 (mem_requeues hr)
    -- the routes are of other kinds
    have hroute : route.kind.asStr = "Gateway" := (congrArg fst heq).trans hkind
    cases hk : route.kind <;> rw [hk] at hroute <;> exact absurd hroute (by decide)
  · exact ⟨[], (append_nil _).symm, fun r hr => nomatch hr⟩

theorem registered_onDelete (h : Registered w.ports) : Registered (onDelete ctx w g).ports := by
  simp only [onDelete, ports_requeueAll]
  exact h.unlink

/-- **A deletion requeues no Gateway**: the keys are those the ports are
registered under. -/
theorem requeued_onDelete (h : Registered w.ports) :
    ∃ requeues, (onDelete ctx w g).requeued = w.requeued ++ requeues ∧
      ∀ r ∈ requeues, Misses r := by
  simp only [onDelete, requeued_requeueAll]
  refine ⟨_, rfl, fun r hr _ => ?_⟩
  obtain ⟨key, hkey, heq⟩ := mem_map.1 (mem_requeues hr)
  obtain rfl : key = r.key := congrArg snd heq
  simp only [ListenerPortManager.getConflictingGateways, mem_dedup, mem_flatMap] at hkey
  obtain ⟨portKey, -, hkey⟩ := hkey
  split at hkey
  · obtain ⟨l, hl, hlkey⟩ := mem_map.1 (mem_filter.1 hkey).1
    exact hlkey ▸ h.linked portKey l hl
  · cases hkey

/-- **No status reports a conflict**: no ports are found under the key. -/
theorem conflictedStatus_saved {isValidPem : List UInt8 → Bool} (h : Registered w.ports)
    (hg : Plain g) {l : Listener} (hl : l ∈ (saved isValidPem w g).listenerList) :
    conflictedStatus (saved isValidPem w g).listenerStatuses l.name = some "False" := by
  set parsed := parse w g with hparsed
  have hkey : gatewayKey parsed.1 = gatewayKey g := by
    rw [hparsed]
    simp only [parse]
    split <;> rfl
  have hconflicts : parsed.2.ports.detectConflicts (gatewayKey parsed.1) = ∅ := by
    have hnone : parsed.2.ports.reverse (gatewayKey parsed.1) = [] :=
      (registered_parse (g := g) h).reverse_eq_nil (by rw [hkey, hg.slashes_gatewayKey]; omega)
    rw [ListenerPortManager.detectConflicts, hnone, foldl_nil]
  have hl : l ∈ parsed.1.listenerList := hl
  have hinfos : parsed.1.listenerList.map (listenerInfo isValidPem parsed.2 parsed.1) ≠ [] := by
    simpa using ne_nil_of_mem hl
  have hfind : ∀ statuses : List ListenerStatus,
      findListenerStatus (statuses.filter fun ls => ls.name ∈ parsed.1.listenerList.map
        Listener.name) l.name = findListenerStatus statuses l.name := by
    intro statuses
    rw [findListenerStatus, find?_filter, findListenerStatus]
    refine congrArg (List.find? · statuses) (funext fun ls => ?_)
    by_cases hname : ls.name = l.name
    · have hmem : l.name ∈ parsed.1.listenerList.map Listener.name := List.mem_map.2 ⟨l, hl, rfl⟩
      simpa [hname] using hmem
    · simp [hname]
  simp only [saved, updateStatus, Gateway.listenerStatuses, ← hparsed, hconflicts,
    List.isEmpty_iff, hinfos, if_false, Option.bind_some, Option.getD_some, conflictedStatus, hfind]
  refine (conflictedStatus_foldl_updateListenerStatus ∅ [] _ _ ?_).trans (by simp)
  exact ⟨_, List.mem_map.2 ⟨l, hl, rfl⟩, rfl⟩

end GatewayHandler

/-! ## Runs -/

/-- What may happen: Gateways come with plain names, and the handlers of the
other kinds leave the ports alone; a restart clears them. -/
def Expected (c : ResourceController Gateway World) : Act Gateway World → Prop
  | .initApply g _ _ | .apply g => Plain g
  | .others w _ => w.ports = c.world.ports ∨ w.ports = .empty
  | _ => True

/-- A Gateway with a plain name whose status reports no conflict. -/
def Quiet (g : Gateway) : Prop :=
  Plain g ∧ ∀ l ∈ g.listenerList, conflictedStatus g.listenerStatuses l.name ≠ some "True"

/-- **No conflict is ever found.** -/
structure Blind (c : ResourceController Gateway World) : Prop where
  sound : c.Sound
  stored : ∀ ref g, c.store ref = some g → Plain g
  cached : ∀ k g, c.processor.cache.data k = some g → Quiet g
  registered : Registered c.world.ports

/-- What a step requeued. -/
def requeuedBy (c c' : ResourceController Gateway World) : List Requeue :=
  c'.world.requeued.drop c.world.requeued.length

theorem requeuedBy_eq {c c' : ResourceController Gateway World} {requeues : List Requeue}
    (h : c'.world.requeued = c.world.requeued ++ requeues) : requeuedBy c c' = requeues := by
  rw [requeuedBy, h, drop_left]

section

variable (gatewayClassName : Option String) (isValidPem : List UInt8 → Bool)
variable {c c' : ResourceController Gateway World}

open Processor

/-- What processing a Gateway does: nothing, or it is saved with what the
handler made of it. -/
theorem processResource_gateway (p : Processor Gateway) (w : World) (timestamp : ℕ) (g : Gateway)
    (ctx : HandlerContext) (isInit : Bool) (existing : Option String) :
    (p.processResource (gatewayHandler gatewayClassName isValidPem) w timestamp g ctx isInit
      existing).2 = (p, w) ∨
    ∃ change, (change = .initAdd ∨ change = .eventUpdate) ∧
      (p.processResource (gatewayHandler gatewayClassName isValidPem) w timestamp g ctx isInit
          existing).2 =
        (p.applyChange timestamp change (saved isValidPem w g),
          if isInit then (parse w g).2
          else onChange ctx (parse w g).2
            (saved isValidPem w g)) := by
  rcases render_gatewayHandler gatewayClassName isValidPem ctx w g existing with
    h | ⟨changed, h⟩
  · refine .inl ?_
    simp only [processResource, h]
  · refine .inr ⟨if isInit then .initAdd else .eventUpdate, ?_, ?_⟩
    · cases isInit
      · exact .inr rfl
      · exact .inl rfl
    · simp only [processResource, h]
      cases isInit <;> rfl

variable {g : Gateway} {isValidPem} in
theorem quiet_saved {w : World} (h : Registered w.ports) (hg : Plain g) :
    Quiet (saved isValidPem w g) := by
  refine ⟨?_, fun l hl => ?_⟩
  · unfold saved parse
    cases g.listeners <;> exact hg
  · rw [conflictedStatus_saved h hg hl]
    decide

/-- A change of the cache keeps it quiet. -/
theorem quiet_changed {cache : Cache} {change : ConfSync.ResourceChange} {r : Gateway}
    (h : ∀ k g, cache k = some g → Quiet g) (hr : Quiet r) (k : String) (g : Gateway)
    (hg : changed cache change r k = some g) : Quiet g := by
  by_cases hk : k = resourceKey r
  · subst hk
    cases change with
    | initAdd | eventAdd | eventUpdate =>
      obtain rfl : r = g := by simpa [changed] using hg
      exact hr
    | eventDelete => simp [changed] at hg
    | initStart | initDone => exact h _ g hg
  · refine h k g ?_
    cases change <;> simpa [changed, hk] using hg

/-- What processing leaves: a quiet cache, registered ports, and requeues
that miss. -/
structure Processed (w : World) (p' : Processor Gateway) (w' : World) : Prop where
  cached : ∀ k g, p'.cache.data k = some g → Quiet g
  registered : Registered w'.ports
  requeued : ∃ requeues, w'.requeued = w.requeued ++ requeues ∧ ∀ r ∈ requeues, Misses r

/-- **Processing a Gateway.** -/
theorem processed_processResource {p : Processor Gateway} {w : World} (hp : p.Behind)
    (hcached : ∀ k g, p.cache.data k = some g → Quiet g) (hw : Registered w.ports) (hg : Plain g) (timestamp : ℕ) (ctx : HandlerContext) (isInit : Bool)
    (existing : Option String) :
    Processed w
      (p.processResource (gatewayHandler gatewayClassName isValidPem) w timestamp g ctx isInit
        existing).2.1
      (p.processResource (gatewayHandler gatewayClassName isValidPem) w timestamp g ctx isInit
        existing).2.2 := by
  have hsaved : Quiet (saved isValidPem w g) := quiet_saved hw hg
  have hparse : Registered (parse w g).2.ports := registered_parse hw
  rcases processResource_gateway gatewayClassName isValidPem p w timestamp g ctx isInit existing
    with h | ⟨change, -, h⟩
  · rw [h]
    exact ⟨hcached, hw, [], (append_nil _).symm, fun r hr => by cases hr⟩
  · rw [h]
    have hdata : ∀ k g', (p.applyChange timestamp change
        (saved isValidPem w g)).cache.data k = some g' → Quiet g' := by
      rw [applyChange_data hp]
      exact quiet_changed hcached hsaved
    cases isInit with
    | true =>
      exact ⟨hdata, hparse, [], by simp, fun r hr => by cases hr⟩
    | false =>
      refine ⟨hdata, ?_, ?_⟩
      · simpa [ports_onChange] using hparse
      · obtain ⟨requeues, heq, hmiss⟩ := requeued_onChange ctx hparse hsaved.1
        exact ⟨requeues, by simpa using heq, hmiss⟩

/-- **Processing a work item.** -/
theorem Blind.processed_processWorkItem (hc : Blind c) (timestamp : ℕ) (key : String)
    (existing : Option String) (chain : Workqueue.TriggerChain) :
    Processed c.world
      (c.processor.processWorkItem (gatewayHandler gatewayClassName isValidPem) c.world timestamp
        key (c.stored key) existing chain).2.1
      (c.processor.processWorkItem (gatewayHandler gatewayClassName isValidPem) c.world timestamp
        key (c.stored key) existing chain).2.2 := by
  have hbehind := hc.sound.processor.behind
  cases hstored : c.stored key with
  | some g =>
    exact processed_processResource _ _ hbehind hc.cached hc.registered (hc.stored _ g hstored)
      _ _ _ _
  | none =>
    rcases hcached : c.processor.cache.data key with _ | cached
    · simp only [processWorkItem, hcached]
      exact ⟨hc.cached, hc.registered, [], (append_nil _).symm, fun r hr => by cases hr⟩
    · simp only [processWorkItem, hcached]
      refine ⟨?_, registered_onDelete hc.registered, requeued_onDelete hc.registered⟩
      rw [hc.sound.processor.processDelete_eq c.world timestamp hcached, applyChange_data hbehind]
      exact quiet_changed hc.cached (hc.cached key cached hcached)

/-- A plain Gateway that is stored keeps the store plain. -/
theorem plain_update {store : ObjectRef → Option Gateway}
    (h : ∀ ref g, store ref = some g → Plain g) (hg : Plain g) (ref : ObjectRef) (g' : Gateway)
    (hg' : Function.update store (objectRef g) (some g) ref = some g') : Plain g' := by
  by_cases href : ref = objectRef g
  · subst href
    obtain rfl : g = g' := by simpa using hg'
    exact hg
  · exact h ref g' (by simpa [href] using hg')

variable {gatewayClassName isValidPem} in
/-- **A step finds no conflict**, and either leaves the cache alone or
requeues no Gateway. -/
theorem Blind.step (hc : Blind c) {act : Act Gateway World} (hact : Expected c act)
    (h : c.step (gatewayHandler gatewayClassName isValidPem) act = some c') :
    Blind c' ∧ (c'.processor.cache.data = c.processor.cache.data ∨
      (∀ k, c'.processor.cache.data k = none) ∨ ∀ r ∈ requeuedBy c c', Misses r) := by
  have hsound := hc.sound.step h
  cases act with
  | initApply g existing timestamp =>
    simp only [ResourceController.step] at h
    split at h
    · cases h
      have hproc := processed_processResource gatewayClassName isValidPem
        hc.sound.processor.behind hc.cached hc.registered hact timestamp
        (c.processor.createContext []) true existing
      obtain ⟨requeues, heq, hmiss⟩ := hproc.requeued
      refine ⟨⟨hsound, plain_update hc.stored hact, hproc.cached, hproc.registered⟩, .inr (.inr ?_)⟩
      rw [requeuedBy_eq heq]
      exact hmiss
    · cases h
  | apply g =>
    simp only [ResourceController.step] at h
    split at h
    · cases h
      exact ⟨⟨hsound, plain_update hc.stored hact, hc.cached, hc.registered⟩, .inl rfl⟩
    · cases h
  | delete g =>
    cases h
    refine ⟨⟨hsound, fun ref g' hg' => ?_, hc.cached, hc.registered⟩, .inl rfl⟩
    by_cases href : ref = objectRef g
    · simp [href] at hg'
    · exact hc.stored ref g' (by simpa [href] using hg')
  | workItem key existing chain timestamp =>
    cases h
    have hproc := hc.processed_processWorkItem gatewayClassName isValidPem timestamp key existing
      chain
    obtain ⟨requeues, heq, hmiss⟩ := hproc.requeued
    refine ⟨⟨hsound, hc.stored, hproc.cached, hproc.registered⟩, .inr (.inr ?_)⟩
    rw [requeuedBy_eq heq]
    exact hmiss
  | setNamespaceFilter filter | setMetadataFilter filter =>
    cases h
    exact ⟨⟨hsound, hc.stored, hc.cached, hc.registered⟩, .inl rfl⟩
  | clear =>
    cases h
    exact ⟨⟨hsound, hc.stored, fun k g hg => (by cases hg), hc.registered⟩, .inr (.inl fun _ => rfl)⟩
  | others w lastVersion =>
    simp only [ResourceController.step] at h
    split at h
    · cases h
      refine ⟨⟨hsound, hc.stored, hc.cached, ?_⟩, .inl rfl⟩
      rcases hact with hports | hports
      · exact hports ▸ hc.registered
      · exact hports ▸ .empty
    · cases h

end

/-! ## Right, or blind -/

/-- **The statuses are right**: a listener has `Conflicted=True` exactly if
another conflicts with it. -/
def StatusesRight (cache : Cache) : Prop :=
  ∀ k i l, listenerAt cache k i = some l → (ReportsConflict cache k i ↔ InConflict cache k i)

variable (c c' : ResourceController Gateway World)

/-- **Those affected are requeued**: every Gateway that stays as it is while
its conflicts change is requeued under its key. -/
def RequeuesAffected : Prop :=
  ∀ k g, c.processor.cache.data k = some g → c'.processor.cache.data k = some g →
    (∃ i, ¬ (InConflict c.processor.cache.data k i ↔ InConflict c'.processor.cache.data k i)) →
    ∃ r ∈ requeuedBy c c', r.kind = "Gateway" ∧ r.key = k

/-- A step that affects none: a Gateway that stays as it is has the conflicts
it had. -/
def AffectsNone : Prop :=
  ∀ k g, c.processor.cache.data k = some g → c'.processor.cache.data k = some g →
    ∀ i, InConflict c.processor.cache.data k i ↔ InConflict c'.processor.cache.data k i

variable {gatewayClassName : Option String} {isValidPem : List UInt8 → Bool}

open ResourceController

/-- **When conflicts are reported.** In every state that a run reaches, the
statuses are right if and only if no listener conflicts with another; and a
step from there requeues the Gateways it affects if and only if it affects
none. -/
theorem conflicts_reported_iff (p : Processor Gateway) {w : World} (hw : w.ports = .empty)
    {acts : List (Act Gateway World)} {c : ResourceController Gateway World}
    (hrun : Runs (step (gatewayHandler gatewayClassName isValidPem)) Expected (new p w) acts c) :
    (StatusesRight c.processor.cache.data ↔ ∀ k i, ¬ InConflict c.processor.cache.data k i) ∧
    ∀ act c', Expected c act → c.step (gatewayHandler gatewayClassName isValidPem) act = some c' →
      (RequeuesAffected c c' ↔ AffectsNone c c') := by
  have hnew : Blind (new p w) :=
    ⟨.new p w, fun _ _ h => (nomatch h), fun _ _ h => (nomatch h), hw ▸ .empty⟩
  have hc : Blind c := hrun.invariant hnew fun _ _ _ hc hact h => (hc.step hact h).1
  refine ⟨⟨fun h k i hin => ?_, fun h k i l hl => ⟨?_, fun hin => absurd hin (h k i)⟩⟩, ?_⟩
  · obtain ⟨l, -, -, -, hl, -⟩ := id hin
    obtain ⟨g, l', hg, hl', htrue⟩ := (h k i l hl).2 hin
    exact absurd htrue ((hc.cached k g hg).2 l' (mem_of_getElem? hl'))
  · rintro ⟨g, l', hg, hl', htrue⟩
    exact absurd htrue ((hc.cached k g hg).2 l' (mem_of_getElem? hl'))
  · intro act c' hact hstep
    refine ⟨fun h k g hg hg' i => ?_, fun h k g hg hg' ⟨i, hi⟩ => absurd (h k g hg hg' i) hi⟩
    by_contra hne
    rcases (hc.step hact hstep).2 with hsame | hnone | hmiss
    · exact hne (by rw [hsame])
    · rw [hnone k] at hg'
      cases hg'
    · -- the key of a Gateway has no two slashes
      obtain ⟨r, hr, hkind, hkey⟩ := h k g hg hg' ⟨i, hne⟩
      have hlt := (hc.cached k g hg).1.slashes_resourceKey_lt
      rw [(hc.sound.processor.cached k g hg).1, ← hkey] at hlt
      have := hmiss r hr hkind
      omega

/-! ## Two Gateways on one port -/

/-- A Gateway with one listener. -/
def portGateway (name : String) (port : ℤ) : Gateway where
  ns := some "edge"
  name := some name
  gatewayClassName := "edgion"
  listeners := some [⟨"http", none, port, "HTTP", none, none⟩]
  status := none

/-- A processor for Gateways. -/
def gatewayProcessor : Processor Gateway where
  kind := "Gateway"
  cache := .new 0
  lastVersion := 0
  metadataFilter := none
  namespaceFilter := none
  maxTriggerCycles := 5

/-- A Gateway comes and is processed. -/
def arrives (g : Gateway) (timestamp : ℕ) : List (Act Gateway World) :=
  [.apply g, .workItem (resourceKey g) none [] timestamp]

/-- The handler of the examples. -/
def anyGateway : ProcessorHandler Gateway World := gatewayHandler none fun _ => true

/-- Gateways on two ports. -/
theorem conflicts_reported_twoPorts : ∃ c, Runs (step anyGateway) Expected
        (new gatewayProcessor (new true))
        (arrives (portGateway "a" 80) 1 ++ arrives (portGateway "b" 81) 2) c ∧
      (c.processor.cache.data "edge/b").isSome ∧
      (StatusesRight c.processor.cache.data ↔ ∀ k i, ¬ InConflict c.processor.cache.data k i) := by
  have hreached : ∃ c, Runs (step anyGateway) Expected
      (new gatewayProcessor (new true))
      (arrives (portGateway "a" 80) 1 ++ arrives (portGateway "b" 81) 2) c ∧
      (c.processor.cache.data "edge/b").isSome := by
    refine ⟨_, .cons ?_ rfl (.cons trivial rfl (.cons ?_ rfl (.cons trivial rfl (.nil _)))), ?_⟩
    · exact ⟨by decide, by decide⟩
    · exact ⟨by decide, by decide⟩
    · decide +kernel
  obtain ⟨c, hrun, hcached⟩ := hreached
  exact ⟨c, hrun, hcached, (conflicts_reported_iff gatewayProcessor rfl hrun).1⟩

/-- **Two Gateways on one port.** Both exist, nothing is left to requeue, and
neither status reports the conflict. -/
theorem conflict_unreported : ∃ c, Runs (step anyGateway) Expected
        (new gatewayProcessor (new true))
        (arrives (portGateway "a" 80) 1 ++ arrives (portGateway "b" 80) 2) c ∧
      c.world.requeued = [] ∧
      InConflict c.processor.cache.data "edge/a" 0 ∧
      ¬ ReportsConflict c.processor.cache.data "edge/a" 0 ∧
      InConflict c.processor.cache.data "edge/b" 0 ∧
      ¬ ReportsConflict c.processor.cache.data "edge/b" 0 := by
  have hreached : ∃ c, Runs (step anyGateway) Expected
      (new gatewayProcessor (new true))
      (arrives (portGateway "a" 80) 1 ++ arrives (portGateway "b" 80) 2) c ∧
      c.world.requeued = [] ∧
      (listenerAt c.processor.cache.data "edge/a" 0).map (fun l => (l.port, l.hostname)) =
        some (80, none) ∧
      (listenerAt c.processor.cache.data "edge/b" 0).map (fun l => (l.port, l.hostname)) =
        some (80, none) := by
    refine ⟨_, .cons ?_ rfl (.cons trivial rfl (.cons ?_ rfl (.cons trivial rfl (.nil _)))), ?_⟩
    · exact ⟨by decide, by decide⟩
    · exact ⟨by decide, by decide⟩
    · decide +kernel
  obtain ⟨c, hrun, hrequeued, ha, hb⟩ := hreached
  have hblind : Blind c := hrun.invariant
    ⟨.new gatewayProcessor (new true), fun _ _ h => (nomatch h), fun _ _ h => (nomatch h),
      .empty⟩ fun _ _ _ hc hact h => (hc.step hact h).1
  have hquiet : ∀ k i, ¬ ReportsConflict c.processor.cache.data k i := by
    rintro k i ⟨g, l, hg, hl, htrue⟩
    exact (hblind.cached k g hg).2 l (mem_of_getElem? hl) htrue
  obtain ⟨la, hla, hpa⟩ := map_eq_some_iff.1 ha
  obtain ⟨lb, hlb, hpb⟩ := map_eq_some_iff.1 hb
  obtain ⟨hportA, hhostA⟩ := mk.inj hpa
  obtain ⟨hportB, hhostB⟩ := mk.inj hpb
  refine ⟨c, hrun, hrequeued, ?_, hquiet _ _, ?_, hquiet _ _⟩
  · exact ⟨la, "edge/b", 0, lb, hla, by decide, hlb, hportA.trans hportB.symm,
      .inr (.inr (hhostA.trans hhostB.symm))⟩
  · exact ⟨lb, "edge/a", 0, la, hlb, by decide, hla, hportB.trans hportA.symm,
      .inr (.inr (hhostB.trans hhostA.symm))⟩

end Edgion.GatewayApi
