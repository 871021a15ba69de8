import Edgion.GatewayApi.Revalidation.Grants

/-!
# Revalidation — the side of the routes

Each mark is right, or the route is on its way through the queue, or the
worker for grants is still to requeue it. A change of the store puts its
namespace on the list of those to look up, and whoever looks a namespace
up finds every route that has recorded it. A route that is not recorded,
because the worker for routes has just cleared its record, has all its
checks still before it.
-/

namespace Edgion.GatewayApi

open Workqueue Function RefManager Queue ReferenceGrantStore HTTPRoute
open Common (TwoWayIndex)

namespace Revalidation

open List Option

variable {config : WorkqueueConfig} {s s' : Revalidation}

/-- **A check is owed**: the route is on its way, or the worker for grants has
the namespace still to look up, or the route still to requeue. -/
def Owed (s : Revalidation) (ref : ResourceRef) (ns : String) : Prop :=
  s.routeQueue.OnWay ref.resourceKey ∨ ∃ namespaces refs requeued grant present,
    s.grantWorker = .notifying namespaces refs requeued grant present ∧
      ref.key ∉ requeued ∧ (ns ∈ namespaces ∨ ref ∈ refs)

/-- **A mark is right, or a check is owed.** -/
def RightOrOwed (s : Revalidation) (route : HTTPRoute) (backendRef : HTTPBackendRef)
    (ns : String) : Prop :=
  route.Right s.store backendRef ns ∨ s.Owed route.resourceRef ns

/-- What the worker has done for the route it is at: while it adds, what is
not left to add is recorded; when it checks, all is recorded, and each
mark it has made is right or owed a check. -/
def AtRoute (s : Revalidation) : Prop :=
  match s.routeWorker with
  | .clearing route => route.resourceRef.Proper
  | .adding route todo => route.resourceRef.Proper ∧
    ∀ ns ∈ route.crossNamespaces, ns ∈ todo ∨ route.resourceRef ∈ s.refs.forward ns
  | .checking route done todo => route.resourceRef.Proper ∧
    ∀ backendRef ns, route.Crosses backendRef ns →
      (backendRef ∈ done ∨ backendRef ∈ todo → route.resourceRef ∈ s.refs.forward ns) ∧
      (backendRef ∈ done → s.RightOrOwed route backendRef ns)
  | .idle | .handedOut _ | .deleting _ | .removing _ => True

/-- **What holds on the side of the routes.** A stored route is recorded for
the namespaces it refers to, and each mark is right or owed a check; both
may fail for the route the worker is at. -/
structure RouteSide (config : WorkqueueConfig) (s : Revalidation) : Prop where
  queue : s.routeQueue.Marked config
  objects : ∀ key route, s.routeObjects key = some route →
    route.key = key ∧ route.resourceRef.Proper
  cached : ∀ key route, s.routes key = some route → route.key = key ∧ route.resourceRef.Proper
  worker : s.AtRoute
  recorded : ∀ ns, ∀ ref ∈ s.refs.forward ns, ref.Proper
  lookedUp : ∀ namespaces refs requeued grant present,
    s.grantWorker = .notifying namespaces refs requeued grant present → ∀ ref ∈ refs, ref.Proper
  stored : ∀ key route, s.routes key = some route → s.routeWorker.key? ≠ some key →
    ∀ backendRef ∈ route.backendRefs, ∀ ns, route.Crosses backendRef ns →
      route.resourceRef ∈ s.refs.forward ns ∧ s.RightOrOwed route backendRef ns

namespace RouteSide

theorem new : (new : Revalidation).RouteSide config where
  queue := .new
  objects _ _ h := nomatch h
  cached _ _ h := nomatch h
  worker := trivial
  recorded _ _ h := nomatch h
  lookedUp _ _ _ _ _ h := nomatch h
  stored _ _ h := nomatch h

variable (h : s.RouteSide config)

include h

/-- **Any step but the worker's own** is harmless if marks of recorded routes
stay right or owed. -/
theorem frame (hq : s'.routeQueue.Marked config)
    (hobjects : ∀ key route, s'.routeObjects key = some route →
      route.key = key ∧ route.resourceRef.Proper)
    (hlookedUp : ∀ namespaces refs requeued grant present,
      s'.grantWorker = .notifying namespaces refs requeued grant present → ∀ ref ∈ refs, ref.Proper)
    (hroutes : s'.routes = s.routes) (hrefs : s'.refs = s.refs)
    (hwk : s'.routeWorker = s.routeWorker)
    (hkeep : ∀ route backendRef ns, route.resourceRef ∈ s.refs.forward ns →
      s.RightOrOwed route backendRef ns → s'.RightOrOwed route backendRef ns) :
    s'.RouteSide config where
  queue := hq
  objects := hobjects
  cached := by rw [hroutes]; exact h.cached
  worker := by
    have hpre := h.worker
    unfold AtRoute at hpre ⊢
    rw [hwk, hrefs]
    split at hpre
    · exact hpre
    · exact hpre
    · refine ⟨hpre.1, fun backendRef ns hcrosses => ?_⟩
      obtain ⟨hrec, hmarked⟩ := hpre.2 backendRef ns hcrosses
      refine ⟨hrec, fun hdone => ?_⟩
      exact hkeep _ backendRef ns (hrec (.inl hdone)) (hmarked hdone)
    all_goals trivial
  recorded := by rw [hrefs]; exact h.recorded
  lookedUp := hlookedUp
  stored key route hroute hkey backendRef hmem ns hcrosses := by
    rw [hroutes] at hroute
    rw [hwk] at hkey
    rw [hrefs]
    obtain ⟨hrec, hmarked⟩ := h.stored key route hroute hkey backendRef hmem ns hcrosses
    exact ⟨hrec, hkeep route backendRef ns hrec hmarked⟩

variable {routeQueue : Queue} {routeWorker : RouteWorker} {route : HTTPRoute}

/-- A step of the queue that hands nothing out. -/
theorem stepQueue {act : Act} {routeObjects : String → Option HTTPRoute}
    (hobjects : ∀ key route, routeObjects key = some route →
      route.key = key ∧ route.resourceRef.Proper)
    (hstep : s.routeQueue.step config act = some routeQueue) (hact : act ≠ .finish) :
    ({ s with routeObjects, routeQueue } : Revalidation).RouteSide config := by
  refine h.frame (h.queue.step hstep) hobjects h.lookedUp rfl rfl rfl ?_
  rintro route backendRef ns - (hright | honWay | howed)
  · exact .inl hright
  · exact .inr (.inl ((honWay.step h.queue hstep).resolve_right fun hout => hact hout.1))
  · exact .inr (.inr howed)

variable {id : ℕ} {key : String} {object : Option HTTPRoute}

/-- **An event** changes an object. -/
theorem event (hobj : ∀ route, object = some route → route.key = key ∧ route.resourceRef.Proper)
    (hstep : s.routeQueue.step config (.call id (.enqueue key)) = some routeQueue) :
    ({ s with
      routeObjects := update s.routeObjects key object
      routeQueue } : Revalidation).RouteSide config := by
  refine h.stepQueue ?_ hstep Act.noConfusion
  exact (forall_update_iff s.routeObjects fun key object =>
    ∀ route, object = some route → route.key = key ∧ route.resourceRef.Proper).2
    ⟨hobj, fun key _ => h.objects key⟩

/-! ## The worker for grants -/

/-- While it has not changed the store, nothing is owed by it. -/
theorem idle {grantQueue : Queue} {grantWorker : GrantWorker}
    (hpre : Unpublished s.grantWorker) (hpost : Unpublished grantWorker) :
    ({ s with grantQueue, grantWorker } : Revalidation).RouteSide config := by
  refine h.frame h.queue h.objects ?_ rfl rfl rfl ?_
  · exact fun _ _ _ _ _ hwk => absurd hwk (hpost _ _ _ _ _)
  · rintro route backendRef ns - (hright | honWay | ⟨_, _, _, _, _, hwk, -⟩)
    · exact .inl hright
    · exact .inr (.inl honWay)
    · exact absurd hwk (hpre _ _ _ _ _)

variable {grant : ReferenceGrant} {present : Bool}

/-- **The store changes** in a namespace that is to be looked up. -/
theorem publish {store : ReferenceGrantStore} (hwk : Unpublished s.grantWorker)
    (hsame : ∀ ns, grant.ns ≠ some ns → store.getByToNamespace ns = s.store.getByToNamespace ns) :
    ({ s with
        store
        grantWorker := .notifying grant.identifyAffectedNamespaces [] [] grant present } :
      Revalidation).RouteSide config := by
  refine h.frame h.queue h.objects ?_ rfl rfl rfl ?_
  · intro _ _ _ _ _ hw ref hmem
    cases hw
    cases hmem
  · intro route backendRef ns _ hpre
    by_cases hns : grant.ns = some ns
    · refine .inr (.inr ⟨_, _, _, _, _, rfl, not_mem_nil, .inl ?_⟩)
      simp [ReferenceGrant.identifyAffectedNamespaces, hns]
    · rcases hpre with hright | honWay | ⟨_, _, _, _, _, hw, -⟩
      · exact .inl (hright.congr (hsame ns hns))
      · exact .inr (.inl honWay)
      · exact absurd hw (hwk _ _ _ _ _)

/-- A step of the worker on its way through the routes: what was owed by it
still is, or the route is on its way. -/
theorem notify {namespaces namespaces' : List String}
    {refs refs' : List ResourceRef} {requeued requeued' : List String}
    (hwk : s.grantWorker = .notifying namespaces refs requeued grant present)
    (hq : routeQueue.Marked config) (hproper : ∀ ref ∈ refs', ref.Proper)
    (honWay : ∀ key, s.routeQueue.OnWay key → routeQueue.OnWay key)
    (howed : ∀ ref ns, ref.Proper → ref ∈ s.refs.forward ns → ref.key ∉ requeued →
      ns ∈ namespaces ∨ ref ∈ refs → routeQueue.OnWay ref.resourceKey ∨
        (ref.key ∉ requeued' ∧ (ns ∈ namespaces' ∨ ref ∈ refs'))) :
    ({ s with routeQueue, grantWorker := .notifying namespaces' refs' requeued' grant present } :
      Revalidation).RouteSide config := by
  refine h.frame hq h.objects ?_ rfl rfl rfl ?_
  · intro _ _ _ _ _ hw ref hmem
    cases hw
    exact hproper ref hmem
  · rintro route backendRef ns hrec (hright | hpre | ⟨_, _, _, _, _, hw, hnot, hplace⟩)
    · exact .inl hright
    · exact .inr (.inl (honWay _ hpre))
    · rw [hwk] at hw
      cases hw
      rcases howed _ ns (h.recorded ns _ hrec) hrec hnot hplace with hway | hstill
      · exact .inr (.inl hway)
      · exact .inr (.inr ⟨_, _, _, _, _, rfl, hstill⟩)

/-- **A step of the worker for grants.** -/
theorem stepGrant (hgrants : s.GrantSide config)
    (hstep : s.stepGrant config id = some s') : s'.RouteSide config := by
  unfold Revalidation.stepGrant at hstep
  cases hwk : s.grantWorker with
  | idle =>
    simp only [hwk, stepGrantQueue, Option.map_map] at hstep
    split at hstep
    · obtain ⟨grantQueue, -, rfl⟩ := map_eq_some_iff.1 hstep
      exact h.idle (by simp [Unpublished, hwk]) (by simp [Unpublished])
    · cases hstep
  | handedOut key =>
    simp only [hwk] at hstep
    split at hstep <;>
      cases hstep <;>
      exact h.idle (by simp [Unpublished, hwk]) (by simp [Unpublished])
  | upserting grant =>
    simp only [hwk] at hstep
    cases hstep
    refine h.publish (by simp [Unpublished, hwk]) fun ns hns => ?_
    exact getByToNamespace_upsert hns
  | removing cached =>
    simp only [hwk] at hstep
    cases hstep
    have hpre : Unpublished s.grantWorker := by simp [Unpublished, hwk]
    refine h.publish hpre fun ns hns => ?_
    refine getByToNamespace_remove fun old hold => ?_
    have hcached := hgrants.cached_of_removing hwk
    rw [(hgrants.cached _ _ hcached).2.buildKey_eq, hgrants.lookup_eq hpre, hcached] at hold
    cases hold
    exact hns
  | notifying namespaces refs requeued grant present =>
    have hproper := h.lookedUp _ _ _ _ _ hwk
    cases refs with
    | cons ref refs =>
      have htail : ∀ ref' ∈ refs, ref'.Proper := fun ref' hmem =>
        hproper ref' (mem_cons_of_mem ref hmem)
      simp only [hwk] at hstep
      split_ifs at hstep with hrequeued
      · cases hstep
        refine h.notify hwk h.queue htail (fun _ honWay => honWay) ?_
        rintro ref' ns - - hnot (hns | hmem)
        · exact .inr ⟨hnot, .inl hns⟩
        · rcases mem_cons.1 hmem with rfl | hmem
          · exact absurd hrequeued hnot
          · exact .inr ⟨hnot, .inr hmem⟩
      · simp only [stepRouteQueue, Option.map_map] at hstep
        obtain ⟨routeQueue, hq, rfl⟩ := map_eq_some_iff.1 hstep
        have hcalled := onWay_call (fun _ => Call.noConfusion) hq
        refine h.notify hwk (h.queue.step hq) htail (fun key honWay => ?_) ?_
        · exact (honWay.step h.queue hq).resolve_right fun hout => by cases hout.1
        · intro ref' ns href' _ hnot hplace
          -- A reference with the key of the one requeued is to a route that is now on its way.
          by_cases hkey : ref'.key = ref.key
          · rw [href'.resourceKey_eq (hproper ref mem_cons_self) hkey]
            exact .inl hcalled
          · refine .inr ⟨by simp [hkey, hnot], hplace.imp_right fun hmem => ?_⟩
            exact (mem_cons.1 hmem).resolve_left fun heq => hkey (congrArg _ heq)
    | nil =>
      cases namespaces <;> simp only [hwk] at hstep <;> cases hstep
      · refine h.frame h.queue h.objects (fun _ _ _ _ _ hw => by cases hw) rfl rfl rfl ?_
        rintro route backendRef ns - (hright | honWay | ⟨_, _, _, _, _, hw, -, hplace⟩)
        · exact .inl hright
        · exact .inr (.inl honWay)
        · rw [hwk] at hw
          cases hw
          rcases hplace with hmem | hmem <;> cases hmem
      · refine h.notify hwk h.queue (h.recorded _) (fun _ honWay => honWay) ?_
        rintro ref ns' - hrec hnot (hmem | hmem)
        · rcases mem_cons.1 hmem with rfl | hmem
          · exact .inr ⟨hnot, .inr hrec⟩
          · exact .inr ⟨hnot, .inl hmem⟩
        · cases hmem

/-! ## The worker for routes -/

/-- **The worker moves on** with the route it is at. It may forget what is
recorded for that route only. -/
theorem work {refs : RefManager}
    (hkey : ∀ key route, s.routes key = some route → routeWorker.key? ≠ some key →
      s.routeWorker.key? ≠ some key)
    (hrefs : ∀ ref ns, routeWorker.key? ≠ some ref.resourceKey → ref ∈ s.refs.forward ns →
      ref ∈ refs.forward ns)
    (hrec : ∀ ns, ∀ ref ∈ refs.forward ns, ref.Proper)
    (hat : ({ s with refs, routeWorker } : Revalidation).AtRoute) :
    ({ s with refs, routeWorker } : Revalidation).RouteSide config := by
  refine { h with worker := hat, recorded := hrec, stored := ?_ }
  intro key route hroute hnot backendRef hmem ns hcrosses
  obtain ⟨hpre, hmarked⟩ :=
    h.stored key route hroute (hkey key route hroute hnot) backendRef hmem ns hcrosses
  have hroute_key : route.resourceRef.resourceKey = key := (h.cached key route hroute).1
  refine ⟨hrefs _ ns ?_ hpre, hmarked⟩
  rw [hroute_key]
  exact hnot

/-- It moves on and leaves the records alone. -/
theorem proceed (hkey : routeWorker.key? = s.routeWorker.key?)
    (hat : ({ s with routeWorker } : Revalidation).AtRoute) :
    ({ s with routeWorker } : Revalidation).RouteSide config :=
  h.work (fun _ _ _ hnot => hkey ▸ hnot) (fun _ _ _ hmem => hmem) h.recorded hat

/-- It clears the record of the route. -/
theorem clear
    (hpre : s.routeWorker.key? = some route.key) (hkey : routeWorker.key? = some route.key)
    (hat : ({ s with
      refs := clearValueRefs s.refs route.resourceRef
      routeWorker } : Revalidation).AtRoute) :
    ({ s with
      refs := clearValueRefs s.refs route.resourceRef
      routeWorker } : Revalidation).RouteSide config := by
  refine h.work ?_ ?_ ?_ hat
  · intro key _ _ hnot
    rwa [hpre, ← hkey]
  · intro ref ns hnot hmem
    refine TwoWayIndex.mem_forward_unlink.2 ⟨hmem, fun hunlinked => hnot ?_⟩
    rw [of_decide_eq_true hunlinked.2, hkey]
    rfl
  · exact fun ns ref hmem => h.recorded ns ref (TwoWayIndex.mem_forward_unlink.1 hmem).1

/-- It records a namespace. -/
theorem add {ns : String} {todo : List String}
    (hwk : s.routeWorker = .adding route (ns :: todo)) :
    ({ s with
      refs := addRef s.refs ns route.resourceRef
      routeWorker := .adding route todo } : Revalidation).RouteSide config := by
  obtain ⟨hproper, hadding⟩ : route.resourceRef.Proper ∧ ∀ ns' ∈ route.crossNamespaces,
      ns' ∈ ns :: todo ∨ route.resourceRef ∈ s.refs.forward ns' := by
    simpa only [AtRoute, hwk] using h.worker
  have hlink (ref : ResourceRef) (ns' : String) :
      ref ∈ (addRef s.refs ns route.resourceRef).forward ns' ↔
        (ns, route.resourceRef) = (ns', ref) ∨ ref ∈ s.refs.forward ns' :=
    TwoWayIndex.mem_forward_link
  refine h.work ?_ (fun ref ns' _ hmem => (hlink ref ns').2 (.inr hmem)) ?_ ⟨hproper, ?_⟩
  · intro key _ _ hnot
    rwa [hwk]
  · intro ns' ref hmem
    rcases (hlink ref ns').1 hmem with heq | hmem
    · cases heq
      exact hproper
    · exact h.recorded ns' ref hmem
  · intro ns' hns'
    rcases hadding ns' hns' with hmem | hmem
    · rcases mem_cons.1 hmem with rfl | hmem
      · exact .inr ((hlink _ _).2 (.inl rfl))
      · exact .inl hmem
    · exact .inr ((hlink _ _).2 (.inr hmem))

/-- It has recorded all namespaces and starts to check. -/
theorem startChecks (hwk : s.routeWorker = .adding route []) :
    ({ s with routeWorker := .checking route [] route.backendRefs } :
      Revalidation).RouteSide config := by
  obtain ⟨hproper, hadding⟩ : route.resourceRef.Proper ∧ ∀ ns ∈ route.crossNamespaces,
      ns ∈ [] ∨ route.resourceRef ∈ s.refs.forward ns := by
    simpa only [AtRoute, hwk] using h.worker
  refine h.proceed (by rw [hwk]; rfl) ⟨hproper, fun backendRef ns hcrosses => ?_⟩
  refine ⟨fun hmem => ?_, fun hmem => nomatch hmem⟩
  have hmem := hmem.resolve_left not_mem_nil
  have hns := mem_crossNamespaces.2 ⟨backendRef, hmem, hcrosses⟩
  exact (hadding ns hns).resolve_left not_mem_nil

variable {done todo : List HTTPBackendRef}

/-- What the worker has checked, and what it has left. -/
theorem checked (hwk : s.routeWorker = .checking route done todo) :
    route.resourceRef.Proper ∧ ∀ backendRef ns, route.Crosses backendRef ns →
      (backendRef ∈ done ∨ backendRef ∈ todo → route.resourceRef ∈ s.refs.forward ns) ∧
      (backendRef ∈ done → s.RightOrOwed route backendRef ns) := by
  simpa only [AtRoute, hwk] using h.worker

/-- It checks a reference. -/
theorem check {backendRef : HTTPBackendRef}
    (hwk : s.routeWorker = .checking route done (backendRef :: todo)) :
    ({ s with
        routeWorker := .checking route (done ++ [route.markDenied s.store backendRef]) todo } :
      Revalidation).RouteSide config := by
  obtain ⟨hproper, hchecking⟩ := h.checked hwk
  refine h.proceed (by rw [hwk]; rfl) ⟨hproper, fun backendRef' ns hcrosses => ?_⟩
  -- What is new among those done is the reference just marked.
  have hcrosses_marked (heq : backendRef' = route.markDenied s.store backendRef) :
      route.Crosses backendRef ns := by
    rw [heq, Crosses, ns_markDenied] at hcrosses
    exact hcrosses
  refine ⟨fun hmem => ?_, fun hmem => ?_⟩
  · rcases hmem with hmem | hmem
    · rcases mem_append.1 hmem with hmem | hmem
      · exact (hchecking backendRef' ns hcrosses).1 (.inl hmem)
      · have hmarked := hcrosses_marked (mem_singleton.1 hmem)
        exact (hchecking backendRef ns hmarked).1 (.inr mem_cons_self)
    · exact (hchecking backendRef' ns hcrosses).1 (.inr (mem_cons_of_mem _ hmem))
  · rcases mem_append.1 hmem with hmem | hmem
    · exact (hchecking backendRef' ns hcrosses).2 hmem
    · obtain rfl := mem_singleton.1 hmem
      exact .inl (right_markDenied (hcrosses_marked rfl))

/-- It takes a route from the queue. -/
theorem handOut (hwk : s.routeWorker = .idle) {item : WorkItem}
    (hitem : s.routeQueue.consumer = .holding item)
    (hstep : s.routeQueue.step config .finish = some routeQueue) :
    ({ s with routeQueue, routeWorker := .handedOut item.key } : Revalidation).RouteSide config := by
  refine { h with queue := h.queue.step hstep, worker := trivial, stored := ?_ }
  intro key route hroute hnot backendRef hmem ns hcrosses
  obtain ⟨hrec, hmarked⟩ := h.stored key route hroute
    (by simp [hwk, RouteWorker.key?]) backendRef hmem ns hcrosses
  refine ⟨hrec, ?_⟩
  rcases hmarked with hright | honWay | howed
  · exact .inl hright
  · rcases honWay.step h.queue hstep with honWay | ⟨-, item', hitem', hkey⟩
    · exact .inr (.inl honWay)
    · rw [hitem] at hitem'
      cases hitem'
      have hroute_key : route.resourceRef.resourceKey = key := (h.cached key route hroute).1
      exact absurd (congrArg some (hkey.trans hroute_key)) hnot
  · exact .inr (.inr howed)

/-- **It puts a route into the cache**, or takes it out, and is done. -/
theorem write (hwk : s.routeWorker.key? = some key)
    (hobj : ∀ route, object = some route → route.key = key ∧ route.resourceRef.Proper)
    (hmarked : ∀ route, object = some route → ∀ backendRef ∈ route.backendRefs, ∀ ns,
      route.Crosses backendRef ns →
        route.resourceRef ∈ s.refs.forward ns ∧ s.RightOrOwed route backendRef ns) :
    ({ s with
      routes := update s.routes key object
      routeWorker := .idle } : Revalidation).RouteSide config := by
  refine { h with
    cached := (forall_update_iff s.routes fun key object =>
      ∀ route, object = some route → route.key = key ∧ route.resourceRef.Proper).2
      ⟨hobj, fun key _ => h.cached key⟩
    worker := trivial
    stored := fun key' route hroute _ => ?_ }
  by_cases hkey : key' = key
  · subst hkey
    simp only [update_self] at hroute
    exact hmarked route hroute
  · simp only [update_of_ne hkey] at hroute
    refine h.stored key' route hroute ?_
    simpa [hwk] using fun heq => hkey heq.symm

/-- **A step of the worker for routes.** -/
theorem stepRoute (hstep : s.stepRoute config = some s') : s'.RouteSide config := by
  unfold Revalidation.stepRoute at hstep
  split at hstep
  · next hwk =>
    split at hstep
    · next item hitem =>
      simp only [stepRouteQueue, Option.map_map] at hstep
      obtain ⟨routeQueue, hq, rfl⟩ := map_eq_some_iff.1 hstep
      exact h.handOut hwk hitem hq
    · cases hstep
  · next key hwk =>
    split at hstep
    · next route hobj =>
      cases hstep
      obtain ⟨hkey, hproper⟩ := h.objects key route hobj
      exact h.proceed (by simp [hwk, RouteWorker.key?, hkey]) hproper
    · next cached _ hcached =>
      cases hstep
      obtain ⟨hkey, -⟩ := h.cached key cached hcached
      exact h.proceed (by simp [hwk, RouteWorker.key?, hkey]) trivial
    · next _ hcached =>
      -- There is no such route, so there is nothing to say of it.
      cases hstep
      refine h.work (fun key' route hroute _ heq => ?_) (fun _ _ _ hmem => hmem) h.recorded trivial
      simp only [hwk, RouteWorker.key?, some.injEq] at heq
      rw [← heq, hcached] at hroute
      cases hroute
  · next route hwk =>
    cases hstep
    have hproper : route.resourceRef.Proper := by simpa only [AtRoute, hwk] using h.worker
    exact h.clear (by rw [hwk]; rfl) rfl ⟨hproper, fun _ hns => .inl hns⟩
  · next route ns todo hwk =>
    cases hstep
    exact h.add hwk
  · next route hwk =>
    cases hstep
    exact h.startChecks hwk
  · next route done backendRef todo hwk =>
    cases hstep
    exact h.check hwk
  · next route done hwk =>
    cases hstep
    obtain ⟨hproper, hchecking⟩ := h.checked hwk
    refine h.write (by rw [hwk]; rfl) ?_ ?_
    · rintro _ ⟨⟩
      exact ⟨rfl, hproper⟩
    · rintro _ ⟨⟩ backendRef hmem ns hcrosses
      obtain ⟨hrec, hmarked⟩ := hchecking backendRef ns hcrosses
      exact ⟨hrec (.inl hmem), hmarked hmem⟩
  · next cached hwk =>
    cases hstep
    exact h.clear (by rw [hwk]; rfl) rfl trivial
  · next key hwk =>
    cases hstep
    exact h.write (by rw [hwk]; rfl) (fun _ heq => by cases heq) (fun _ heq => by cases heq)

/-- **Every proper step keeps the side of the routes.** -/
theorem step (hgrants : s.GrantSide config) {act : RevalidationAct}
    (hact : Proper act) (hstep : s.step config act = some s') : s'.RouteSide config := by
  cases act with
  | setRoute route id =>
    obtain ⟨routeQueue, hq, rfl⟩ := map_eq_some_iff.1 hstep
    refine h.event (fun route' heq => ?_) hq
    cases heq
    exact ⟨rfl, hact⟩
  | deleteRoute key id =>
    obtain ⟨routeQueue, hq, rfl⟩ := map_eq_some_iff.1 hstep
    exact h.event (fun _ heq => nomatch heq) hq
  | setGrant | deleteGrant =>
    obtain ⟨grantQueue, -, rfl⟩ := map_eq_some_iff.1 hstep
    exact { h with }
  | routeQueue act =>
    simp only [Revalidation.step] at hstep
    split_ifs at hstep with hown
    obtain ⟨routeQueue, hq, rfl⟩ := map_eq_some_iff.1 hstep
    exact h.stepQueue h.objects hq (ne_finish_of_queueOwn hown)
  | grantQueue act =>
    simp only [Revalidation.step] at hstep
    split_ifs at hstep
    obtain ⟨grantQueue, -, rfl⟩ := map_eq_some_iff.1 hstep
    exact { h with }
  | routeStep => exact h.stepRoute hstep
  | grantStep id => exact h.stepGrant hgrants hstep

end RouteSide

end Revalidation

/-! ## When all is drained

In every run in which grants have a namespace and all is drained in the
end, each reference to another namespace is marked as the grants say.
Without that condition it is not: a grant without a namespace and one of
the same name in `default` are two objects, but one entry of the store,
and when the first goes the store loses the second. -/

section

open Workqueue
open Common (Runs runSteps)

namespace Revalidation

variable {config : WorkqueueConfig} {s : Revalidation}

/-- What holds on both sides. -/
structure Sound (config : WorkqueueConfig) (s : Revalidation) : Prop where
  grants : s.GrantSide config
  routes : s.RouteSide config

variable {acts : List RevalidationAct}

/-- **Once all queues are drained, references are marked as the grants say**,
in every run in which grants have a namespace. -/
theorem markedRight_of_drained {acts : List RevalidationAct}
    (hrun : Runs (step config) (fun _ act => Proper act) new acts s) (hdrained : s.Drained) :
    s.MarkedRight := by
  obtain ⟨hgrants, hroutes⟩ : s.Sound config :=
    hrun.invariant ⟨.new, .new⟩ fun _ _ _ h hact hstep =>
      ⟨h.grants.step hact hstep, h.routes.step h.grants hact hstep⟩
  intro key route hroute backendRef hmem ns hcrosses
  obtain ⟨-, hright | honWay | ⟨_, _, _, _, _, hworker, -⟩⟩ := hroutes.stored key route hroute
    (by simp [hdrained.routeWorker, RouteWorker.key?]) backendRef hmem ns hcrosses
  · have hns : (route.reference backendRef ns).fromNs ≠ (route.reference backendRef ns).toNs :=
      fun heq => hcrosses.2 heq.symm
    rw [Right] at hright
    rw [hright, ← Bool.not_eq_true, hgrants.indexed.checkReferenceAllowed_iff hns]
    simp only [hgrants.current_iff hdrained]
    refine not_congr ⟨?_, ?_⟩
    · rintro ⟨grant, ⟨key', hgrant⟩, hpermits⟩
      exact ⟨key', grant, hgrant, hpermits⟩
    · rintro ⟨key', grant, hgrant, hpermits⟩
      exact ⟨grant, ⟨key', hgrant⟩, hpermits⟩
  · exact absurd honWay (hdrained.routeQueue _)
  · rw [hdrained.grantWorker] at hworker
    cases hworker

/-! ### Two runs -/

/-- A route of `app` that refers to a service of `default`. -/
def appRoute : HTTPRoute where
  ns := some "app"
  name := some "r"
  parentRefs := none
  hostnames := none
  resolvedHostnames := none
  backendRefs := [⟨none, none, some "default", "svc", none⟩]
  parents := []

/-- A grant that lets it. -/
def defaultGrant : ReferenceGrant where
  ns := some "default"
  name := some "g"
  from_ := [⟨"gateway.networking.k8s.io", "HTTPRoute", "app"⟩]
  to_ := [⟨"", "Service", none⟩]

/-- A grant of the same name, without a namespace, that permits nothing. -/
def bareGrant : ReferenceGrant where
  ns := none
  name := some "g"
  from_ := []
  to_ := []

/-- The call of producer 0 runs through, and the consumer receives. -/
def through : List Act :=
  [.producer 0, .producer 0, .producer 0, .dequeue, .recv]

/-- A change of a grant is received, and its worker makes some steps. -/
def grantSteps (event : RevalidationAct) (n : ℕ) : List RevalidationAct :=
  event :: through.map .grantQueue ++ List.replicate n (.grantStep 0)

/-- A route is received, and its worker makes some steps. -/
def routeSteps (n : ℕ) : List RevalidationAct :=
  through.map .routeQueue ++ List.replicate n .routeStep

/-- The grant comes while the route is being checked: the route is marked
against the old store, then the store changes, the route is found, requeued
and saved, and processed again. -/
def overtaken : List RevalidationAct :=
  [[.setRoute appRoute 0], routeSteps 5, grantSteps (.setGrant defaultGrant 0) 2, [.routeStep],
    List.replicate 3 (.grantStep 0), [.routeStep], List.replicate 2 (.grantStep 0),
    routeSteps 7].flatten

/-- The grant without a namespace comes first and goes last, then comes the
route. -/
def namesake : List RevalidationAct :=
  [grantSteps (.setGrant bareGrant 0) 4, grantSteps (.setGrant defaultGrant 0) 6,
    grantSteps (.deleteGrant "g" 0) 4, [.setRoute appRoute 0], routeSteps 7].flatten

/-- What a run leads to. -/
def final (acts : List RevalidationAct) : Revalidation :=
  (runSteps (step .default) new acts).getD new

theorem runs_final {ok : RevalidationAct → Prop}
    (hacts : ∀ act ∈ acts, ok act) (h : (runSteps (step .default) new acts).isSome) :
    Runs (step .default) (fun _ act => ok act) new acts (final acts) := by
  refine Runs.of_runSteps hacts ?_
  obtain ⟨s, hs⟩ := Option.isSome_iff_exists.1 h
  rw [final, hs]
  rfl

theorem drained_final (h : acts = overtaken ∨ acts = namesake) : (final acts).Drained := by
  constructor
  · obtain rfl | rfl := h <;> exact not_onWay (fun id => by cases id <;> rfl) (by decide +kernel)
  · obtain rfl | rfl := h <;> exact not_onWay (fun id => by cases id <;> rfl) (by decide +kernel)
  · obtain rfl | rfl := h <;> decide +kernel
  · obtain rfl | rfl := h <;> decide +kernel

theorem appRoute_proper : appRoute.resourceRef.Proper := by
  refine ⟨rfl, fun ns hns => ?_⟩
  obtain rfl : "app" = ns := Option.some.inj hns
  exact ⟨'a', by decide, by decide⟩

theorem defaultGrant_proper : defaultGrant.Proper := ⟨"default", rfl, by decide⟩

/-- In the first run the condition holds, and the reference ends unmarked. -/
theorem markedRight_overtaken :
    (final overtaken).MarkedRight ∧ (final overtaken).routes "app/r" = some appRoute := by
  refine ⟨markedRight_of_drained (runs_final ?_ (by decide +kernel)) (drained_final (.inl rfl)),
    by decide +kernel⟩
  simp [overtaken, routeSteps, grantSteps, through, Proper, appRoute_proper, defaultGrant_proper]

/-- **In the second run the reference is denied**, though the grant that
permits it is there. -/
theorem denied_namesake : Runs (step .default) (fun _ _ => True) new namesake (final namesake) ∧
      (final namesake).Drained ∧
      (final namesake).grantObjects "default/g" = some defaultGrant ∧
      ¬ (final namesake).MarkedRight := by
  have hgrant : (final namesake).grantObjects "default/g" = some defaultGrant := by decide +kernel
  refine ⟨runs_final (fun _ _ => trivial) (by decide +kernel), drained_final (.inr rfl), hgrant,
    fun hright => ?_⟩
  let denied : HTTPBackendRef :=
    ⟨none, none, some "default", "svc", some ⟨"default", "svc", some "NoMatchingReferenceGrant"⟩⟩
  have hroute : (final namesake).routes "app/r" =
    some { appRoute with backendRefs := [denied] } := by decide +kernel
  have hmarked := hright _ _ hroute denied List.mem_cons_self "default" ⟨rfl, by decide⟩
  exact hmarked.1 rfl ⟨_, _, hgrant, rfl, by decide +kernel⟩

end Revalidation

end

end Edgion.GatewayApi
