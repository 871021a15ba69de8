import Edgion.GatewayApi.Following.Routes

/-!
# Following — when all is drained

In every run whose steps meet the condition, a Gateway that comes, changes
or goes requeues each stored route for which it makes a difference, and
when all is drained every route follows the Gateways there are. Without
the condition this fails; the simplest case is a Gateway that is deleted.
-/

namespace Edgion.GatewayApi

open Workqueue RouteKind TriggerChain Queue Phase
open Common (Runs runSteps)

namespace Following

open Option

variable {setting : Setting} {s s' : Following} {kind : RouteKind} {id : ℕ}

/-- **A step requeues the routes it makes a difference for**: if, for a stored
route, the functions return something else on the Gateways to come than
before, the worker has the route on its list. -/
def Requeues (setting : Setting) (s s' : Following) : Prop :=
  ∀ kind key route, s.routes kind key = some route →
    kind.findings setting.surroundings (GatewayTable.list s'.coming) route ≠
      kind.findings setting.surroundings (GatewayTable.list s.coming) route →
    ⟨kind, key⟩ ∈ s'.gatewayWorker.todo

theorem requeues_of_coming_eq (h : s'.coming = s.coming) : Requeues setting s s' := by
  intro kind key route _ hmoved
  rw [h] at hmoved
  exact absurd rfl hmoved

/-- A worker for routes changes nothing of the Gateways. -/
theorem stepRoute_frame (hstep : s.stepRoute setting kind id = some s') :
    s'.gateways = s.gateways ∧ s'.gatewayWorker = s.gatewayWorker := by
  simp only [stepRoute] at hstep
  split at hstep
  · split at hstep
    · simp only [stepRouteQueue, map_map] at hstep
      obtain ⟨q, -, rfl⟩ := map_eq_some_iff.1 hstep
      exact ⟨rfl, rfl⟩
    · cases hstep
  · split at hstep <;> cases hstep <;> exact ⟨rfl, rfl⟩
  · cases hstep
    exact ⟨rfl, rfl⟩
  · split_ifs at hstep
    · cases hstep
      exact ⟨rfl, rfl⟩
    · simp only [stepGatewayQueue, map_map] at hstep
      obtain ⟨gatewayQueue, -, rfl⟩ := map_eq_some_iff.1 hstep
      exact ⟨rfl, rfl⟩
  · cases hstep
    exact ⟨rfl, rfl⟩

/-- What a Gateway's worker publishes makes no difference for routes that do
not name the Gateway. -/
theorem findings_coming (h : s.Sound setting) (h' : s'.Sound setting)
    (hpre : Unpublished s.gatewayWorker) (hgateways : s'.gateways = s.gateways) {key : String}
    {outcome : Option Gateway} {todo : List RouteEntry} {chain : TriggerChain}
    (hwk : s'.gatewayWorker = .requeueing key outcome todo chain) {route : Route}
    (hnot : ¬ References route key) :
    kind.findings setting.surroundings (GatewayTable.list s'.coming) route =
      kind.findings setting.surroundings (GatewayTable.list s.coming) route := by
  rw [coming_eq hpre]
  refine findings_of_not_references h.gateways (coming_keyed h'.gateways h'.gatewayWorker)
    (fun key' hne => ?_) hnot
  rw [lookup_coming hwk hne, hgateways]

/-- **The worker for Gateways requeues the routes it makes a difference for.** -/
theorem requeues_stepGateway (h : s.Sound setting) (h' : s'.Sound setting)
    (hproper : Proper setting s (.gatewayStep id)) (hstep : s.stepGateway setting id = some s') :
    Requeues setting s s' := by
  unfold stepGateway at hstep
  cases hwk : s.gatewayWorker with
  | idle =>
    simp only [hwk, stepGatewayQueue, map_map] at hstep
    split at hstep
    · obtain ⟨gatewayQueue, -, rfl⟩ := map_eq_some_iff.1 hstep
      refine requeues_of_coming_eq ?_
      simp only [coming, hwk, Function.comp_apply]
    · cases hstep
  | handedOut gatewayKey chain =>
    have hpre : Unpublished s.gatewayWorker := by simp [Unpublished, hwk]
    simp only [Proper, hwk] at hproper
    simp only [hwk] at hstep
    split at hstep
    · refine requeues_of_coming_eq ?_
      split_ifs at hstep <;> cases hstep <;> simp only [coming, hwk]
    · next cached hobj hcached =>
      cases hstep
      obtain ⟨hns, hkey⟩ := h.gateways gatewayKey cached hcached
      rw [Gateway.gatewayKey_eq hns] at hkey
      intro kind key route hroute hmoved
      refine absurd ?_ hmoved
      by_cases hrefs : References route cached.key
      · rw [coming_eq hpre]
        simpa only [coming, hkey, Unmoved] using
          hproper hobj kind key route hroute (hkey ▸ hrefs)
      · exact findings_coming h h' hpre rfl rfl hrefs
    · refine requeues_of_coming_eq ?_
      cases hstep
      simp only [coming, hwk]
  | rendered g chain =>
    have hpre : Unpublished s.gatewayWorker := by simp [Unpublished, hwk]
    have hns : g.ns.isSome := by simpa only [AtGateway, hwk] using h.gatewayWorker
    simp only [Proper, hwk] at hproper
    simp only [hwk] at hstep
    cases hstep
    intro kind key route hroute hmoved
    by_cases hrefs : References route g.key
    · rcases hproper kind key route hroute hrefs with hsame | ⟨hkind, hdiffer, -⟩
      · rw [coming_eq hpre] at hmoved
        exact absurd hsame hmoved
      · obtain ⟨hkey, hroute_ns⟩ := h.cached kind key route hroute
        have hidle := h.routesIdle (by rw [hwk]; rfl) kind
        rw [isIdle_iff] at hidle
        obtain ⟨hidx, -⟩ := h.stored kind key route hroute (by simp [hidle, routeAt])
        simp only [todo]
        rw [todo_onGatewayChange hdiffer, Gateway.gatewayKey_eq hns, ← hkey,
          ← routeEntry_eq hroute_ns]
        exact hidx hkind g.key hrefs
    · exact absurd (findings_coming h h' hpre rfl rfl hrefs) hmoved
  | requeueing key outcome todo chain =>
    refine requeues_of_coming_eq ?_
    cases todo with
    | cons entry todo =>
      simp only [hwk] at hstep
      split_ifs at hstep
      · cases hstep
        cases outcome <;> simp only [coming, hwk]
      · simp only [stepRouteQueue, map_map] at hstep
        obtain ⟨q, -, rfl⟩ := map_eq_some_iff.1 hstep
        cases outcome <;> simp only [coming, hwk, Function.comp_apply]
    | nil =>
      simp only [hwk] at hstep
      cases outcome with
      | none | some g =>
        cases hstep
        simp only [coming, hwk]

variable {act : FollowingAct}

/-- Every step requeues the routes it makes a difference for. -/
theorem requeues_step (h : s.Sound setting) (hproper : Proper setting s act)
    (hstep : s.step setting act = some s') : Requeues setting s s' := by
  have h' := h.step hproper hstep
  cases act with
  | gatewayStep id => exact requeues_stepGateway h h' hproper hstep
  | routeStep kind id =>
    obtain ⟨hgateways, hwk⟩ := stepRoute_frame hstep
    exact requeues_of_coming_eq (by rw [coming, coming, hgateways, hwk])
  | setGateway _ _ | deleteGateway _ _ | setRoute _ _ _ | deleteRoute _ _ _ =>
    obtain ⟨q, -, rfl⟩ := map_eq_some_iff.1 hstep
    exact requeues_of_coming_eq rfl
  | gatewayQueue act | routeQueue _ act =>
    simp only [step] at hstep
    split_ifs at hstep
    obtain ⟨q, -, rfl⟩ := map_eq_some_iff.1 hstep
    exact requeues_of_coming_eq rfl

variable {acts : List FollowingAct}

/-- **Routes follow their Gateways**, in every run whose steps meet the
condition: each step requeues the stored routes it makes a difference for,
and when all is drained, all stored routes have the hostnames and the
`Accepted` conditions that the functions return on the Gateways there are. -/
theorem routes_follow_gateways (hrun : Runs (step setting) (Proper setting) new acts s) :
    (∀ act s', Proper setting s act → s.step setting act = some s' → Requeues setting s s') ∧
      (s.Drained → s.AllFollow setting) := by
  have h : s.Sound setting := hrun.invariant .new fun _ _ _ h hproper hstep => h.step hproper hstep
  refine ⟨fun act s' => requeues_step h, fun hdrained kind key route hroute => ?_⟩
  have hworker := isIdle_iff.1 (hdrained.routeWorkers kind)
  obtain ⟨-, hfollows | honWay | ⟨_, _, _, _, hbusy, -⟩⟩ :=
    h.stored kind key route hroute (by simp [hworker, routeAt])
  · rwa [Sound.coming_eq_of_idle hdrained.gatewayWorker] at hfollows
  · exact absurd honWay (hdrained.routeQueues kind key)
  · have hidle := hdrained.gatewayWorker
    rw [hbusy] at hidle
    cases hidle

/-! ## Two runs -/

/-- The defaults of the workqueue, and nothing around. -/
def plainSetting : Setting where
  queue := .default
  maxTriggerCycles := 5
  requeueDelay := 100
  gatewayClassName := none
  surroundings := ⟨fun _ => none, fun _ _ => true, .new⟩

/-- A Gateway with one listener, open to all. -/
def edgeGateway : Gateway where
  ns := some "edge"
  name := some "g"
  gatewayClassName := "edgion"
  listeners := some
    [⟨"web", some "a.example.com", 80, "HTTP", none, some ⟨some ⟨some "All", none⟩, none⟩⟩]
  status := none

/-- A route that names it and no hostname. -/
def appRoute : Route where
  ns := some "app"
  name := some "r"
  parentRefs := some [⟨none, none, some "edge", "g", none, none⟩]
  hostnames := none
  resolvedHostnames := none
  backendRefs := []
  parents := []

/-- A call of `enqueue` runs through, and the consumer receives. -/
def through : List Act :=
  [.producer 0, .producer 0, .producer 0, .dequeue, .recv]

/-- A call of `enqueue_after` runs through, the delay passes, and the consumer
receives. -/
def delayedThrough (key : String) (chain : TriggerChain) : List Act :=
  List.replicate 5 (Act.producer 0) ++
    [.recvDelayed, .tick 100, .fire, .pop ⟨key, chain, 100⟩] ++
    List.replicate 4 Act.move ++ [.rest, .dequeue, .recv]

/-- The route comes first. It requeues a Gateway that is not there. -/
def routeFirst : List FollowingAct :=
  [[.setRoute .httpRoute appRoute 0], through.map (.routeQueue .httpRoute),
    List.replicate 5 (.routeStep .httpRoute 0),
    (delayedThrough "edge/g" [⟨"HTTPRoute", "app/r"⟩]).map .gatewayQueue,
    List.replicate 2 (.gatewayStep 0),
    [.setGateway edgeGateway 0], through.map .gatewayQueue, List.replicate 2 (.gatewayStep 0)].flatten

/-- Then comes the Gateway. It requeues the route, which takes its hostname. -/
def gatewaySecond : List FollowingAct :=
  [List.replicate 2 (.gatewayStep 0),
    (delayedThrough "app/r" [⟨"Gateway", "edge/g"⟩]).map (.routeQueue .httpRoute),
    List.replicate 4 (.routeStep .httpRoute 0)].flatten

/-- In the end the Gateway goes. -/
def gatewayGoes : List FollowingAct :=
  [[.deleteGateway "edge/g" 0], through.map .gatewayQueue, List.replicate 3 (.gatewayStep 0)].flatten

/-- A check that is enough for a step to meet the condition, short of the step
in which a Gateway is published. -/
def quiet (s : Following) : FollowingAct → Bool
  | .setGateway g _ => g.ns.isSome
  | .setRoute _ route _ =>
    route.ns.isSome && (route.parentRefs.getD []).length ≤ 1 && route.parents.isEmpty
  | .routeStep kind _ => !(s.routeWorkers kind).isIdle || s.gatewayWorker.isIdle
  | .gatewayStep _ =>
    match s.gatewayWorker with
    | .idle => [httpRoute, .grpcRoute, .tlsRoute, .tcpRoute, .udpRoute].all fun kind =>
      (s.routeWorkers kind).isIdle
    | .handedOut gatewayKey _ => (s.gatewayObjects gatewayKey).isSome || s.gateways.entries.isEmpty
    | .rendered _ _ => false
    | .requeueing _ _ _ _ => true
  | _ => true

theorem proper_of_quiet (h : s.quiet act) : Proper setting s act := by
  cases act with
  | setGateway g id => exact h
  | setRoute kind route id =>
    simp only [quiet, Bool.and_eq_true, List.isEmpty_iff, decide_eq_true_eq] at h
    obtain ⟨⟨hns, hlen⟩, hparents⟩ := h
    refine ⟨hns, ⟨fun a ha b hb _ => ?_, by simp [hparents]⟩⟩
    generalize route.parentRefs.getD [] = parentRefs at *
    rcases parentRefs with _ | ⟨pr, _ | ⟨pr', rest⟩⟩
    · cases ha
    · rw [List.mem_singleton.1 ha, List.mem_singleton.1 hb]
    · simp at hlen
  | routeStep kind id =>
    intro hidle
    simpa [quiet, hidle] using h
  | gatewayStep id =>
    cases hwk : s.gatewayWorker with
    | idle =>
      simp only [quiet, Proper, hwk, List.all_cons, Bool.and_eq_true] at h ⊢
      intro kind
      cases kind <;> simp only [h]
    | handedOut gatewayKey chain =>
      simp only [quiet, Proper, hwk] at h ⊢
      intro hgone kind key route _ _
      have hempty : s.gateways = ∅ := by
        rw [hgone, isSome_none, Bool.false_or, List.isEmpty_iff] at h
        exact AList.ext h
      rw [Unmoved, hempty]
      rfl
    | rendered g chain => simp [quiet, hwk] at h
    | requeueing key outcome todo chain => simp only [Proper, hwk]
  | _ => trivial

/-- A step that has passed the check. -/
def quietStep (s : Following) (act : FollowingAct) : Option Following :=
  if s.quiet act then s.step plainSetting act else none

theorem runs_quiet (h : (runSteps quietStep s acts).isSome) :
    Runs (step plainSetting) (Proper plainSetting) s acts ((runSteps quietStep s acts).getD s) := by
  obtain ⟨s', hs'⟩ := isSome_iff_exists.1 h
  rw [hs', getD_some]
  refine Runs.of_stricter (fun s act _ s' hstep => ?_) hs'
  unfold quietStep at hstep
  split_ifs at hstep with hquiet
  exact ⟨proper_of_quiet hquiet, hstep⟩

/-- The Gateway is about to be published. -/
def waiting : Following := (runSteps quietStep new routeFirst).getD new

/-- It is published; its worker has the route on its list. -/
def published : Following := (waiting.step plainSetting (.gatewayStep 0)).getD waiting

/-- The route has been processed again. -/
def settled : Following := (runSteps quietStep published gatewaySecond).getD published

/-- The Gateway is gone. -/
def deserted : Following := (runSteps (step plainSetting) settled gatewayGoes).getD settled

/-- **Publishing the Gateway meets the condition**: nothing is recorded for it,
and only HTTPRoutes are there. -/
theorem proper_waiting : Proper plainSetting waiting (.gatewayStep 0) := by
  have hwk : waiting.gatewayWorker = .rendered edgeGateway [⟨"Gateway", "edge/g"⟩] := rfl
  have hrecords : RecordsDiffer waiting.index edgeGateway := .inl (by decide +kernel)
  have hlimit (key : String) : wouldExceedCycleLimit [⟨"Gateway", "edge/g"⟩]
      httpRoute.asStr key plainSetting.maxTriggerCycles = false := by
    have hcount : occurrenceCount [⟨"Gateway", "edge/g"⟩] "HTTPRoute" key ≤ 1 :=
      List.length_filter_le _ _
    simp only [wouldExceedCycleLimit, asStr, plainSetting, ge_iff_le, decide_eq_false_iff_not]
    omega
  intro kind key route hroute _
  cases kind with
  | httpRoute => exact .inr ⟨rfl, hrecords, hlimit key⟩
  | _ => cases hroute

theorem runs_settled : Runs (step plainSetting) (Proper plainSetting) new
      (routeFirst ++ .gatewayStep 0 :: gatewaySecond) settled := by
  have hfst : Runs (step plainSetting) (Proper plainSetting) new routeFirst waiting :=
    runs_quiet (by decide +kernel)
  have hpublish : waiting.step plainSetting (.gatewayStep 0) = some published := rfl
  have hsecond : Runs (step plainSetting) (Proper plainSetting) published gatewaySecond settled :=
    runs_quiet (by decide +kernel)
  exact hfst.append (.cons proper_waiting hpublish hsecond)

theorem drained_settled : settled.Drained where
  gatewayQueue := not_onWay (fun id => by cases id <;> rfl) (by decide +kernel)
  routeQueues kind := not_onWay (fun id => by cases kind <;> cases id <;> rfl)
    (by cases kind <;> decide +kernel)
  gatewayWorker := by decide +kernel
  routeWorkers kind := by cases kind <;> decide +kernel

/-- **In the first run the route takes the hostname of the Gateway**, and
follows it. -/
theorem follows_settled : settled.AllFollow plainSetting ∧
      (settled.routes .httpRoute "app/r").map HTTPRoute.resolvedHostnames =
        some (some ["a.example.com"]) :=
  ⟨(routes_follow_gateways runs_settled).2 drained_settled, by decide +kernel⟩

/-- **In the second run the Gateway is deleted, and the route keeps its
hostname**, though the function now returns `*`. No queue holds the route. -/
theorem stale_deserted : Runs (step plainSetting) (fun _ _ => True) new
        ((routeFirst ++ .gatewayStep 0 :: gatewaySecond) ++ gatewayGoes) deserted ∧
      deserted.Drained ∧
      deserted.gatewayObjects "edge/g" = none ∧ deserted.gateways = ∅ ∧
      ∃ route, deserted.routes .httpRoute "app/r" = some route ∧
        route.resolvedHostnames = some ["a.example.com"] ∧
        resolvedHostnames (GatewayTable.list deserted.gateways) route
          (route.parentRefs.getD []) = ["*"] ∧
        ¬ deserted.AllFollow plainSetting := by
  have hrun : Runs (step plainSetting) (fun _ _ => True) settled gatewayGoes deserted :=
    Runs.of_runSteps (fun _ _ => trivial) rfl
  have hdrained : deserted.Drained :=
    { gatewayQueue := not_onWay (fun id => by cases id <;> rfl) (by decide +kernel)
      routeQueues := fun kind => not_onWay (fun id => by cases kind <;> cases id <;> rfl)
        (by cases kind <;> decide +kernel)
      gatewayWorker := by decide +kernel
      routeWorkers := fun kind => by cases kind <;> decide +kernel }
  let route : Route := ((deserted.routes .httpRoute "app/r").getD appRoute)
  have hroute : deserted.routes .httpRoute "app/r" = some route := rfl
  have hkept : route.resolvedHostnames = some ["a.example.com"] := by decide +kernel
  refine ⟨(runs_settled.mono fun _ _ _ => trivial).append hrun, hdrained, by decide +kernel, rfl,
    route, hroute, hkept, by decide +kernel, fun hfollow => ?_⟩
  have hcurrent := (hfollow .httpRoute "app/r" route hroute _ rfl).1 rfl
  revert hcurrent
  decide +kernel

end Following

end Edgion.GatewayApi
