import Edgion.GatewayApi.Following.Sound

/-!
# Following — the worker for Gateways

What the worker publishes changes the Gateways to come. Routes that do not
name the Gateway are not concerned; of those that do, the condition on the
step says that the functions return the same, or that the worker finds the
route in the index and has it on its list.
-/

namespace Edgion.GatewayApi

open Workqueue

namespace Following

open Option

variable {setting : Setting} {s s' : Following} {kind : RouteKind} {key : String} {g : Gateway}
  {id : ℕ}

/-- The worker has published no Gateway that it has not written. -/
def Unpublished (worker : Phase Gateway RouteEntry) : Prop :=
  ∀ key outcome todo chain, worker ≠ .requeueing key outcome todo chain

theorem coming_eq (h : Unpublished s.gatewayWorker) : s.coming = s.gateways := by
  unfold coming
  split
  · next hwk => exact absurd hwk (h _ _ _ _)
  · next hwk => exact absurd hwk (h _ _ _ _)
  · rfl

namespace Sound

variable (h : s.Sound setting)

include h

/-- **The worker moves on** before it publishes, or without. -/
theorem gatewayProceed {gatewayQueue : Queue}
    {gatewayWorker : Phase Gateway RouteEntry} (hpre : Unpublished s.gatewayWorker)
    (hpost : Unpublished gatewayWorker)
    (hat : ({ s with gatewayQueue, gatewayWorker } : Following).AtGateway)
    (hexclusive : gatewayWorker.isIdle ∨ ∀ kind, (s.routeWorkers kind).isIdle = true) :
    ({ s with gatewayQueue, gatewayWorker } : Following).Sound setting :=
  { h with
    gatewayWorker := hat
    exclusive := hexclusive
    stored := fun kind key route hroute hnot => by
      obtain ⟨hidx, hfollows | honWay | ⟨_, _, _, _, hwk, -⟩⟩ :=
        h.stored kind key route hroute hnot
      · refine ⟨hidx, .inl ?_⟩
        rw [coming_eq hpre] at hfollows
        rw [coming_eq hpost]
        exact hfollows
      · exact ⟨hidx, .inr (.inl honWay)⟩
      · exact absurd hwk (hpre _ _ _ _) }

/-- Before it publishes, the worker keeps routes from being worked on. -/
theorem routesIdle (hwk : s.gatewayWorker.isIdle = false)
    (kind : RouteKind) : (s.routeWorkers kind).isIdle = true :=
  h.exclusive.resolve_left (by simp [hwk]) kind

variable {chain : TriggerChain} {outcome : Option Gateway} {todo : List RouteEntry}

/-- **The worker publishes a Gateway**, or that it is gone. -/
theorem gatewayPublish {index : GatewayRouteIndex} (hbusy : s.gatewayWorker.isIdle = false)
    (hpre : Unpublished s.gatewayWorker)
    (hout : ∀ g, outcome = some g → g.key = key ∧ g.ns.isSome)
    (hindex : index.routes = s.index.routes)
    (hmoved : ∀ kind key' route, s.routes kind key' = some route → References route key →
      Indexed s.index kind route →
      Unmoved setting s ({ s with gatewayWorker := .requeueing key outcome todo chain } :
        Following).coming kind route ∨
      (⟨kind, key'⟩ ∈ todo ∧
        chain.wouldExceedCycleLimit kind.asStr key' setting.maxTriggerCycles = false)) :
    ({ s with index, gatewayWorker := .requeueing key outcome todo chain } :
      Following).Sound setting := by
  have hat : ({ s with gatewayWorker := .requeueing key outcome todo chain } :
      Following).AtGateway := by
    cases outcome with
    | none => trivial
    | some g => exact hout g rfl
  have hidle := h.routesIdle hbusy
  refine { h with
    gatewayWorker := hat
    exclusive := .inr hidle
    routeWorkers := fun kind => atRoute_of_idle (hidle kind)
    stored := fun kind key' route hroute hnot => ?_ }
  obtain ⟨hidx, hfollows⟩ := h.stored kind key' route hroute hnot
  refine ⟨fun hkind gatewayKey hrefs => ?_, ?_⟩
  · simpa only [hindex] using hidx hkind gatewayKey hrefs
  · have hkeyed := coming_keyed
      (s := { s with gatewayWorker := .requeueing key outcome todo chain }) h.gateways hat
    rcases hfollows with hfollows | honWay | ⟨_, _, _, _, hwk, -⟩
    · rw [coming_eq hpre] at hfollows
      by_cases hrefs : References route key
      · rcases hmoved kind key' route hroute hrefs hidx with hsame | hlisted
        · exact .inl (hfollows.congr hsame)
        · exact .inr (.inr ⟨_, _, _, _, rfl, hlisted⟩)
      · refine .inl (hfollows.congr ?_)
        exact findings_of_not_references h.gateways hkeyed (fun _ => lookup_coming rfl) hrefs
    · exact .inr (.inl honWay)
    · exact absurd hwk (hpre _ _ _ _)

/-- The worker requeues a route, or lets it be. -/
theorem gatewayRequeue {entry : RouteEntry} {routeQueues : RouteKind → Queue}
    (hwk : s.gatewayWorker = .requeueing key outcome (entry :: todo) chain)
    (hqueues : ∀ kind, (routeQueues kind).Marked setting.queue)
    (honWay : ∀ kind key', (s.routeQueues kind).OnWay key' → (routeQueues kind).OnWay key')
    (hentry : chain.wouldExceedCycleLimit entry.kind.asStr entry.key
      setting.maxTriggerCycles = false → (routeQueues entry.kind).OnWay entry.key) :
    ({ s with routeQueues, gatewayWorker := .requeueing key outcome todo chain } :
      Following).Sound setting := by
  have hat : ({ s with gatewayWorker := .requeueing key outcome todo chain } :
      Following).AtGateway := by
    have hpre := h.gatewayWorker
    simp only [AtGateway, hwk] at hpre
    cases outcome with
    | none => trivial
    | some g => exact hpre
  have hcoming : ({ s with gatewayWorker := .requeueing key outcome todo chain } :
      Following).coming = s.coming := by
    cases outcome <;> simp only [coming, hwk]
  refine { h with
    gatewayWorker := hat
    routeQueues := hqueues
    exclusive := .inr (h.routesIdle (by rw [hwk]; rfl))
    stored := fun kind key' route hroute hnot => ?_ }
  obtain ⟨hidx, hfollows | hway | ⟨_, _, _, _, hw, hmem, hlimit⟩⟩ :=
    h.stored kind key' route hroute hnot
  · refine ⟨hidx, .inl ?_⟩
    rw [← hcoming] at hfollows
    exact hfollows
  · exact ⟨hidx, .inr (.inl (honWay kind key' hway))⟩
  · rw [hwk] at hw
    cases hw
    rcases List.mem_cons.1 hmem with rfl | hmem
    · exact ⟨hidx, .inr (.inl (hentry hlimit))⟩
    · exact ⟨hidx, .inr (.inr ⟨_, _, _, _, rfl, hmem, hlimit⟩)⟩

/-- The worker writes the Gateway, or removes it. -/
theorem gatewayWrite (hwk : s.gatewayWorker = .requeueing key outcome [] chain) :
    ({ s with gateways := s.coming, gatewayWorker := .idle } : Following).Sound setting := by
  refine { h with
    gateways := coming_keyed h.gateways h.gatewayWorker
    gatewayWorker := trivial
    exclusive := .inl rfl
    routeWorkers := fun kind => atRoute_of_idle (h.routesIdle (by rw [hwk]; rfl) kind)
    stored := fun kind key' route hroute hnot => ?_ }
  obtain ⟨hidx, hfollows | honWay | ⟨_, _, _, _, hw, hmem, -⟩⟩ :=
    h.stored kind key' route hroute hnot
  · exact ⟨hidx, .inl hfollows⟩
  · exact ⟨hidx, .inr (.inl honWay)⟩
  · rw [hwk] at hw
    cases hw
    cases hmem

/-- **A step of the worker for Gateways.** -/
theorem stepGateway (hproper : Proper setting s (.gatewayStep id))
    (hstep : s.stepGateway setting id = some s') : s'.Sound setting := by
  unfold Following.stepGateway at hstep
  cases hwk : s.gatewayWorker with
  | idle =>
    simp only [Proper, hwk] at hproper
    simp only [hwk, stepGatewayQueue, map_map] at hstep
    split at hstep
    · next item hitem =>
      obtain ⟨gatewayQueue, -, rfl⟩ := map_eq_some_iff.1 hstep
      exact h.gatewayProceed (by simp [Unpublished, hwk]) (by simp [Unpublished]) trivial
        (.inr hproper)
    · cases hstep
  | handedOut gatewayKey chain =>
    simp only [Proper, hwk] at hproper
    have hpre : Unpublished s.gatewayWorker := by simp [Unpublished, hwk]
    have hidle := h.routesIdle (by rw [hwk]; rfl)
    simp only [hwk] at hstep
    split at hstep
    · next g hobj =>
      split_ifs at hstep
      · cases hstep
        exact h.gatewayProceed hpre (by simp [Unpublished]) (h.gatewayObjects _ g hobj).2
          (.inr hidle)
      · cases hstep
        exact h.gatewayProceed hpre (by simp [Unpublished]) trivial (.inl rfl)
    · next cached hobj hcached =>
      cases hstep
      obtain ⟨hns, hkey⟩ := h.gateways gatewayKey cached hcached
      rw [Gateway.gatewayKey_eq hns] at hkey
      refine h.gatewayPublish (by rw [hwk]; rfl) hpre (fun _ heq => by cases heq) rfl ?_
      intro kind key route hroute hrefs _
      rw [hkey] at hrefs
      left
      simpa only [coming, hkey] using hproper hobj kind key route hroute hrefs
    · cases hstep
      exact h.gatewayProceed hpre (by simp [Unpublished]) trivial (.inl rfl)
  | rendered g chain =>
    simp only [Proper, hwk] at hproper
    simp only [hwk] at hstep
    cases hstep
    have hns : g.ns.isSome := by simpa only [AtGateway, hwk] using h.gatewayWorker
    refine h.gatewayPublish (by rw [hwk]; rfl) (by simp [Unpublished, hwk]) ?_
      routes_onGatewayChange ?_
    · rintro _ ⟨⟩
      exact ⟨rfl, hns⟩
    · intro kind key route hroute hrefs hidx
      refine (hproper kind key route hroute hrefs).imp_right ?_
      rintro ⟨hkind, hdiffer, hlimit⟩
      refine ⟨?_, hlimit⟩
      obtain ⟨hkey, hroute_ns⟩ := h.cached kind key route hroute
      rw [todo_onGatewayChange hdiffer, Gateway.gatewayKey_eq hns, ← hkey, ← routeEntry_eq hroute_ns]
      exact hidx hkind g.key hrefs
  | requeueing key outcome todo chain =>
    cases todo with
    | cons entry todo =>
      simp only [hwk] at hstep
      split_ifs at hstep with hlimit
      · cases hstep
        exact h.gatewayRequeue hwk h.routeQueues (fun _ _ honWay => honWay) fun hpasses => by
          rw [hlimit] at hpasses
          cases hpasses
      · simp only [Following.stepRouteQueue, map_map] at hstep
        obtain ⟨q, hq, rfl⟩ := map_eq_some_iff.1 hstep
        have hact : requeueCall setting id entry.key chain ≠ .finish := fun heq => by cases heq
        refine h.gatewayRequeue hwk (h.marked_update hq)
          (fun _ _ => h.onWay_update hq hact) fun _ => ?_
        simp only [Function.update_self]
        exact Queue.onWay_call (fun _ => Call.noConfusion) hq
    | nil =>
      have hwrite := h.gatewayWrite hwk
      simp only [hwk] at hstep
      cases outcome with
      | none =>
        cases hstep
        simpa only [coming, hwk] using hwrite
      | some g =>
        cases hstep
        simpa only [coming, hwk] using hwrite

end Sound

end Following

end Edgion.GatewayApi
