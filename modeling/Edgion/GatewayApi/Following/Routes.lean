import Edgion.GatewayApi.Following.Gateways

/-!
# Following — the workers for routes

A route is rendered against the Gateways as they are, and no Gateway is in
work meanwhile. It enters the index before it is saved. Routes of other
kinds and other keys keep their places.
-/

namespace Edgion.GatewayApi

open Workqueue GatewayTable

namespace Following

open Option Function

variable {setting : Setting} {s s' : Following} {kind kind' : RouteKind} {key : String}
  {route : Route} {id : ℕ}

namespace Sound

variable (h : s.Sound setting)

include h

/-- A worker that is at a route keeps Gateways from being worked on. -/
theorem gatewayIdle (hwk : (s.routeWorkers kind).isIdle = false) :
    s.gatewayWorker.isIdle = true :=
  h.exclusive.resolve_right fun hidle => by simp [hidle kind] at hwk

omit h in
/-- While no Gateway is in work, the Gateways to come are those there are. -/
theorem coming_eq_of_idle (hidle : s.gatewayWorker.isIdle) : s.coming = s.gateways :=
  coming_eq fun _ _ _ _ hwk => by simp [hwk, Phase.isIdle] at hidle

variable {gatewayQueue : Queue} {tracker : AttachedRouteTracker} {chain : TriggerChain}
variable {todo : List String} {worker : Phase Route String}

/-- **A worker moves on** with the route it is at, and changes the place of
that route in the index only. -/
theorem work {index : GatewayRouteIndex} (hidle : s.gatewayWorker.isIdle)
    (hkey : ∀ key route, s.routes kind key = some route → routeAt worker ≠ some key →
      routeAt (s.routeWorkers kind) ≠ some key)
    (hindex : ∀ entry gatewayKey, (entry.kind = kind → routeAt worker ≠ some entry.key) →
      entry ∈ s.index.routes.forward gatewayKey → entry ∈ index.routes.forward gatewayKey)
    (hat : AtRoute setting ({ s with
      index, routeWorkers := update s.routeWorkers kind worker } : Following) kind) :
    ({ s with
      index, tracker, gatewayQueue
      routeWorkers := update s.routeWorkers kind worker } : Following).Sound setting := by
  -- A route stays in the index if it is not the one at hand.
  have hidx {kind' : RouteKind} {route : Route} (hns : route.ns.isSome)
      (hother : kind' = kind → routeAt worker ≠ some route.key)
      (hpre : Indexed s.index kind' route) : Indexed index kind' route := by
    intro hkind gatewayKey hrefs
    refine hindex _ gatewayKey ?_ (hpre hkind gatewayKey hrefs)
    rw [routeEntry_eq hns]
    exact hother
  refine { h with
    exclusive := .inl hidle
    routeWorkers := fun kind' => ?_
    stored := fun kind' key route hroute hnot => ?_ }
  · by_cases hkind : kind' = kind
    · subst hkind
      exact hat
    · have hpre := h.routeWorkers kind'
      simp only [AtRoute, update_of_ne hkind] at hpre ⊢
      split at hpre
      · exact hpre
      · refine ⟨hpre.1, hidx hpre.1.2 (fun heq => absurd heq hkind) hpre.2.1, hpre.2.2⟩
      · trivial
  · obtain ⟨hroute_key, hns⟩ := h.cached kind' key route hroute
    by_cases hkind : kind' = kind
    · subst hkind
      simp only [update_self] at hnot
      obtain ⟨hpre, hfollows⟩ := h.stored kind' key route hroute (hkey key route hroute hnot)
      exact ⟨hidx hns (fun _ => hroute_key ▸ hnot) hpre, hfollows⟩
    · simp only [update_of_ne hkind] at hnot
      obtain ⟨hpre, hfollows⟩ := h.stored kind' key route hroute hnot
      exact ⟨hidx hns (fun heq => absurd heq hkind) hpre, hfollows⟩

/-- It moves on and leaves the index alone. -/
theorem proceed
    (hidle : s.gatewayWorker.isIdle) (hkey : routeAt worker = routeAt (s.routeWorkers kind))
    (hat : AtRoute setting ({ s with
      routeWorkers := update s.routeWorkers kind worker } : Following) kind) :
    ({ s with
      gatewayQueue
      routeWorkers := update s.routeWorkers kind worker } : Following).Sound setting :=
  h.work hidle (fun _ _ _ hnot => hkey ▸ hnot) (fun _ _ _ hmem => hmem) hat

/-- It takes a route from its queue. -/
theorem handOut (hidle : s.gatewayWorker.isIdle)
    (hwk : s.routeWorkers kind = .idle) {item : WorkItem}
    (hitem : (s.routeQueues kind).consumer = .holding item) {q : Queue}
    (hstep : (s.routeQueues kind).step setting.queue .finish = some q) :
    ({ s with
        routeQueues := update s.routeQueues kind q
        routeWorkers := update s.routeWorkers kind (.handedOut item.key chain) } :
      Following).Sound setting := by
  refine { h with
    routeQueues := h.marked_update hstep
    exclusive := .inl hidle
    routeWorkers := fun kind' => ?_
    stored := fun kind' key route hroute hnot => ?_ }
  · by_cases hkind : kind' = kind
    · subst hkind
      simp only [AtRoute, update_self]
    · simpa only [AtRoute, update_of_ne hkind] using h.routeWorkers kind'
  · by_cases hkind : kind' = kind
    · subst hkind
      simp only [update_self] at hnot
      obtain ⟨hidx, hfollows | honWay | howed⟩ :=
        h.stored kind' key route hroute (by simp [hwk, routeAt])
      · exact ⟨hidx, .inl hfollows⟩
      · refine ⟨hidx, .inr (.inl ?_)⟩
        simp only [update_self]
        rcases honWay.step (h.routeQueues kind') hstep with honWay | ⟨-, item', hitem', rfl⟩
        · exact honWay
        · rw [hitem] at hitem'
          cases hitem'
          exact absurd rfl hnot
      · exact ⟨hidx, .inr (.inr howed)⟩
    · simp only [update_of_ne hkind] at hnot
      obtain ⟨hidx, hfollows⟩ := h.stored kind' key route hroute hnot
      refine ⟨hidx, hfollows.imp_right fun howed => howed.imp_left fun honWay => ?_⟩
      simpa only [update_of_ne hkind] using honWay

variable {outcome : Option Route}

/-- **It saves a route**, or removes it. -/
theorem write (hwk : s.routeWorkers kind = .requeueing key outcome [] chain) : ({ s with
        routes := update s.routes kind (update (s.routes kind) key outcome)
        routeWorkers := update s.routeWorkers kind .idle } : Following).Sound setting := by
  have hidle := h.gatewayIdle (by rw [hwk]; rfl)
  have hat := h.routeWorkers kind
  refine { h with
    cached := ?_
    exclusive := .inl hidle
    routeWorkers := fun kind' => ?_
    stored := fun kind' key' route hroute hnot => ?_ }
  · refine (forall_update_iff s.routes fun _ routes => ∀ key route,
      routes key = some route → route.key = key ∧ route.ns.isSome).2
      ⟨?_, fun kind' _ => h.cached kind'⟩
    refine (forall_update_iff (s.routes kind) fun key object => ∀ route,
      object = some route → route.key = key ∧ route.ns.isSome).2
      ⟨fun route heq => ?_, fun key _ => h.cached kind key⟩
    subst heq
    simp only [AtRoute, hwk] at hat
    exact hat.1
  · by_cases hkind : kind' = kind
    · subst hkind
      simp only [AtRoute, update_self]
    · simpa only [AtRoute, update_of_ne hkind] using h.routeWorkers kind'
  · by_cases hkind : kind' = kind
    · subst hkind
      by_cases hkey : key' = key
      · subst hkey
        simp only [update_self] at hroute
        subst hroute
        simp only [AtRoute, hwk] at hat
        refine ⟨hat.2.1, .inl ?_⟩
        have hcoming := coming_eq_of_idle hidle
        simp only [coming] at hcoming ⊢
        rw [hcoming]
        exact hat.2.2
      · simp only [update_self, update_of_ne hkey] at hroute
        refine h.stored kind' key' route hroute ?_
        simpa [hwk, routeAt] using fun heq => hkey heq.symm
    · simp only [update_of_ne hkind] at hroute hnot
      exact h.stored kind' key' route hroute hnot

/-- It puts the route into the index. -/
theorem publish (hwk : s.routeWorkers kind = .rendered route chain) : ({ s with
        index := updateRouteIndex s.index kind route
        tracker
        routeWorkers := update s.routeWorkers kind
          (.requeueing route.key (some route) todo chain) } : Following).Sound setting := by
  obtain ⟨hns, hfollows⟩ : route.ns.isSome ∧
      kind.Follows setting.surroundings (list s.gateways) route := by
    simpa only [AtRoute, hwk] using h.routeWorkers kind
  refine h.work (h.gatewayIdle (by rw [hwk]; rfl)) ?_ ?_ ?_
  · intro key _ _ hnot
    rwa [hwk]
  · intro entry gatewayKey hother hmem
    refine mem_updateRouteIndex (fun heq => ?_) hmem
    rw [heq, routeEntry_eq hns] at hother
    exact hother rfl rfl
  · simp only [AtRoute, update_self, true_and]
    exact ⟨hns, indexed_updateRouteIndex, hfollows⟩

/-- It takes a route that is gone out of the index. -/
theorem retract {chain' : TriggerChain} (hwk : s.routeWorkers kind = .handedOut key chain)
    (hcached : s.routes kind key = some route) :
    ({ s with
      index := removeRouteIndex s.index kind route
      tracker
      routeWorkers := update s.routeWorkers kind
        (.requeueing route.key none todo chain') } : Following).Sound setting := by
  obtain ⟨hkey, hns⟩ := h.cached kind key route hcached
  refine h.work (h.gatewayIdle (by rw [hwk]; rfl)) ?_ ?_ ?_
  · intro key' _ _ hnot
    rw [hwk]
    rwa [routeAt, hkey] at hnot
  · intro entry gatewayKey hother hmem
    refine mem_removeRouteIndex (fun heq => ?_) hmem
    rw [heq, routeEntry_eq hns] at hother
    exact hother rfl rfl
  · simp only [AtRoute, update_self]

/-- It requeues a Gateway, or lets it be. -/
theorem requeue {gatewayKey : String}
    (hwk : s.routeWorkers kind = .requeueing key outcome (gatewayKey :: todo) chain) :
    ({ s with
        gatewayQueue
        routeWorkers := update s.routeWorkers kind (.requeueing key outcome todo chain) } :
      Following).Sound setting := by
  refine h.proceed (h.gatewayIdle (by rw [hwk]; rfl)) (by rw [hwk]; rfl) ?_
  have hat := h.routeWorkers kind
  simp only [AtRoute, hwk] at hat
  simp only [AtRoute, update_self]
  cases outcome with
  | none => trivial
  | some route => exact hat

/-- **A step of a worker for routes.** -/
theorem stepRoute (hproper : Proper setting s (.routeStep kind id))
    (hstep : s.stepRoute setting kind id = some s') : s'.Sound setting := by
  simp only [Following.stepRoute] at hstep
  cases hwk : s.routeWorkers kind with
  | idle =>
    have hidle := hproper (by rw [hwk]; rfl)
    simp only [hwk, Following.stepRouteQueue, map_map] at hstep
    split at hstep
    · next item hitem =>
      obtain ⟨q, hq, rfl⟩ := map_eq_some_iff.1 hstep
      exact h.handOut hidle hwk hitem hq
    · cases hstep
  | handedOut key chain =>
    have hbusy : (s.routeWorkers kind).isIdle = false := by rw [hwk]; rfl
    have hidle := h.gatewayIdle hbusy
    simp only [hwk] at hstep
    split at hstep
    · next route hobj =>
      cases hstep
      obtain ⟨⟨hkey, hns⟩, htold⟩ := h.routeObjects kind key route hobj
      have hsame : SameSpec
          (kind.render setting.surroundings (list s.gateways) route) route :=
        sameSpec_render
      refine h.proceed hidle ?_ ?_
      · simp only [hwk, routeAt, hsame.key, hkey]
      · simp only [AtRoute, update_self, hsame.ns]
        exact ⟨hns, follows_render htold⟩
    · next cached _ hcached =>
      cases hstep
      exact h.retract hwk hcached
    · next _ hcached =>
      cases hstep
      refine h.work hidle ?_ (fun _ _ _ hmem => hmem) ?_
      · intro key' route hroute _ heq
        obtain rfl : key = key' := by simpa [hwk, routeAt] using heq
        rw [hcached] at hroute
        cases hroute
      · simp only [AtRoute, update_self]
  | rendered route chain =>
    simp only [hwk] at hstep
    cases hstep
    exact h.publish hwk
  | requeueing key outcome todo chain =>
    cases todo with
    | cons gatewayKey todo =>
      simp only [hwk] at hstep
      split_ifs at hstep
      · cases hstep
        exact h.requeue hwk
      · simp only [Following.stepGatewayQueue, map_map] at hstep
        obtain ⟨gatewayQueue, -, rfl⟩ := map_eq_some_iff.1 hstep
        exact h.requeue hwk
    | nil =>
      simp only [hwk] at hstep
      cases hstep
      exact h.write hwk

/-- **Every proper step keeps what holds.** -/
theorem step {act : FollowingAct} (hproper : Proper setting s act)
    (hstep : s.step setting act = some s') : s'.Sound setting := by
  cases act with
  | setGateway g id =>
    obtain ⟨gatewayQueue, -, rfl⟩ := map_eq_some_iff.1 hstep
    refine { h with gatewayObjects := (forall_update_iff s.gatewayObjects fun key object =>
      ∀ g, object = some g → g.key = key ∧ g.ns.isSome).2 ⟨?_, fun key _ =>
        h.gatewayObjects key⟩ }
    rintro _ ⟨⟩
    exact ⟨rfl, hproper⟩
  | deleteGateway key id =>
    obtain ⟨gatewayQueue, -, rfl⟩ := map_eq_some_iff.1 hstep
    refine { h with gatewayObjects := (forall_update_iff s.gatewayObjects fun key object =>
      ∀ g, object = some g → g.key = key ∧ g.ns.isSome).2 ⟨?_, fun key _ =>
        h.gatewayObjects key⟩ }
    exact fun _ heq => nomatch heq
  | setRoute kind route id =>
    obtain ⟨q, hq, rfl⟩ := map_eq_some_iff.1 hstep
    refine h.routeEvent ?_ hq
    rintro _ ⟨⟩
    exact ⟨⟨rfl, hproper.1⟩, hproper.2⟩
  | deleteRoute kind key id =>
    obtain ⟨q, hq, rfl⟩ := map_eq_some_iff.1 hstep
    exact h.routeEvent (fun _ heq => nomatch heq) hq
  | gatewayQueue act =>
    simp only [Following.step] at hstep
    split_ifs at hstep
    obtain ⟨gatewayQueue, -, rfl⟩ := map_eq_some_iff.1 hstep
    exact { h with }
  | routeQueue kind act =>
    simp only [Following.step] at hstep
    split_ifs at hstep with hown
    obtain ⟨q, hq, rfl⟩ := map_eq_some_iff.1 hstep
    exact h.stepRouteQueue hq h.routeObjects fun hact => by rw [hact] at hown; cases hown
  | gatewayStep id => exact h.stepGateway hproper hstep
  | routeStep kind id => exact h.stepRoute hproper hstep

end Sound

end Following

end Edgion.GatewayApi
