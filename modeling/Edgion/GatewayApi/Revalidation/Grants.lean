import Edgion.GatewayApi.Revalidation

/-!
# Revalidation — the side of the grants

The store holds what the cache of grants holds or, once the worker has
changed it, what the cache is about to hold, and its two tables agree.
What the cache is to hold is what there is outside, unless the key is on
its way or just handed out. So, when all is drained, a check asks about
the grants there are.

This needs that every grant has a namespace: one without is kept under a
key of `default`, where it hides a grant of that namespace from the table
the checks read.
-/

namespace Edgion.GatewayApi

open Workqueue Option Function AList

variable {config : WorkqueueConfig}

/-! ## Keys -/

/-- A namespace without slashes ends at the first slash of a key. -/
theorem ns_eq_of_key_eq {ns ns' name name' : String} (hns : '/' ∉ ns.toList)
    (hns' : '/' ∉ ns'.toList) (h : ns ++ "/" ++ name = ns' ++ "/" ++ name') : ns = ns' := by
  have hfst (ns name : String) (hns : '/' ∉ ns.toList) :
      (ns ++ "/" ++ name).toList.takeWhile (· ≠ '/') = ns.toList := by
    rw [String.toList_append, String.toList_append, List.append_assoc, List.takeWhile_append_of_pos]
    · simp
    · intro c hc
      simp only [decide_eq_true_eq]
      rintro rfl
      exact hns hc
  have hlist := congrArg (fun s => s.toList.takeWhile (· ≠ '/')) h
  simp only [hfst ns name hns, hfst ns' name' hns'] at hlist
  exact String.toList_inj.1 hlist

/-- A grant in a namespace. -/
def ReferenceGrant.Proper (grant : ReferenceGrant) : Prop :=
  ∃ ns, grant.ns = some ns ∧ '/' ∉ ns.toList

variable {grant : ReferenceGrant}

theorem ReferenceGrant.Proper.buildKey_eq (h : grant.Proper) : grant.buildKey = grant.key := by
  obtain ⟨ns, hns, -⟩ := h
  simp [buildKey, key, hns]

/-- Grants with one key are of one namespace. -/
theorem ReferenceGrant.Proper.ns_eq {grant' : ReferenceGrant} (h : grant.Proper)
    (h' : grant'.Proper) (hkey : grant.key = grant'.key) : grant.ns = grant'.ns := by
  obtain ⟨ns, hns, hslash⟩ := h
  obtain ⟨ns', hns', hslash'⟩ := h'
  simp only [key, hns, hns'] at hkey
  rw [hns, hns', ns_eq_of_key_eq hslash hslash' hkey]

/-- A reference from a route whose namespace, if it has one, is not empty and
does not start with a slash. -/
def ResourceRef.Proper (ref : ResourceRef) : Prop :=
  ref.kind = .httpRoute ∧ ∀ ns, ref.ns = some ns → ∃ c, ns.toList.head? = some c ∧ c ≠ '/'

open ResourceRef

/-- For such references the two kinds of keys tell the same apart. -/
theorem ResourceRef.Proper.resourceKey_eq {ref ref' : ResourceRef} (h : ref.Proper)
    (h' : ref'.Proper) (hkey : ref.key = ref'.key) : ref.resourceKey = ref'.resourceKey := by
  obtain ⟨kind, ns, name⟩ := ref
  obtain ⟨kind', ns', name'⟩ := ref'
  obtain ⟨rfl, hns⟩ := h
  obtain ⟨rfl, hns'⟩ := h'
  -- a key without a namespace goes on with a slash
  have hdiffer (ns name name' : String) (hns : ∃ c, ns.toList.head? = some c ∧ c ≠ '/') :
      key ⟨.httpRoute, none, name⟩ ≠ key ⟨.httpRoute, some ns, name'⟩ := by
    intro heq
    obtain ⟨c, hc, hslash⟩ := hns
    have hlist := congrArg String.toList heq
    cases hchars : ns.toList with
    | nil => simp [hchars] at hc
    | cons d ds =>
      simp [key, ResourceKind.asStr, String.toList_append, hchars] at hlist hc
      exact hslash (hc.symm.trans hlist.1.symm)
  have hlist := congrArg String.toList hkey
  rcases ns with _ | ns <;> rcases ns' with _ | ns'
  · simp only [key, String.toList_append, List.append_cancel_left_eq] at hlist
    exact String.toList_inj.1 hlist
  · exact absurd hkey (hdiffer ns' name name' (hns' ns' rfl))
  · exact absurd hkey.symm (hdiffer ns name' name (hns ns rfl))
  · simp only [key, String.toList_append, List.append_assoc, List.append_cancel_left_eq] at hlist
    refine String.toList_inj.1 ?_
    simpa [resourceKey, String.toList_append] using hlist

namespace Revalidation

variable {s s' : Revalidation}

/-- **The condition on a step**: grants have a namespace. -/
def Proper : RevalidationAct → Prop
  | .setRoute route _ => route.resourceRef.Proper
  | .setGrant grant _ => grant.Proper
  | _ => True

/-! ## The side of the grants -/

/-- The cache as it will be when the worker is done with the grant it has
read. -/
def outcome (s : Revalidation) : String → Option ReferenceGrant :=
  match s.grantWorker with
  | .upserting grant => update s.grants grant.key (some grant)
  | .removing cached => update s.grants cached.key none
  | .notifying _ _ _ grant present =>
    update s.grants grant.key (if present then some grant else none)
  | .idle | .handedOut _ => s.grants

/-- What the store holds: the cache, or, once the worker has changed it, the
cache to come. -/
def published (s : Revalidation) : String → Option ReferenceGrant :=
  match s.grantWorker with
  | .notifying _ _ _ _ _ => s.outcome
  | _ => s.grants

/-- The worker has changed nothing in the store that is not in the cache. -/
def Unpublished (worker : GrantWorker) : Prop :=
  ∀ namespaces refs requeued grant present,
    worker ≠ .notifying namespaces refs requeued grant present

theorem published_eq (h : Unpublished s.grantWorker) : s.published = s.grants := by
  unfold published
  split
  · next hwk => exact absurd hwk (h _ _ _ _ _)
  · rfl

/-- The grant the worker is at is a proper one, and one that it removes is the
cached one. -/
def AtGrant (s : Revalidation) : Prop :=
  match s.grantWorker with
  | .upserting grant | .notifying _ _ _ grant _ => grant.Proper
  | .removing cached => s.grants cached.key = some cached
  | .idle | .handedOut _ => True

/-- **What holds on the side of the grants.** -/
structure GrantSide (config : WorkqueueConfig) (s : Revalidation) : Prop where
  queue : s.grantQueue.Marked config
  objects : ∀ key grant, s.grantObjects key = some grant → grant.key = key ∧ grant.Proper
  cached : ∀ key grant, s.grants key = some grant → grant.key = key ∧ grant.Proper
  worker : s.AtGrant
  indexed : s.store.Indexed
  stored : ∀ key, s.store.grants.lookup key = s.published key
  fresh : ∀ key, s.grantQueue.OnWay key ∨ s.grantWorker = .handedOut key ∨
    s.outcome key = s.grantObjects key

namespace GrantSide

theorem new : (new : Revalidation).GrantSide config where
  queue := .new
  objects _ _ h := nomatch h
  cached _ _ h := nomatch h
  worker := trivial
  indexed := .new
  stored _ := rfl
  fresh _ := .inr (.inr rfl)

variable (h : s.GrantSide config)

include h

/-- The store is the cache while the worker has not changed it. -/
theorem lookup_eq (hwk : Unpublished s.grantWorker) (key : String) :
    s.store.grants.lookup key = s.grants key :=
  (h.stored key).trans (congrFun (published_eq hwk) key)

variable {grantQueue : Queue} {namespaces : List String}

/-- **An event or a step of the queue**: an object may change if its key is
then on its way. -/
theorem stepQueue {act : Act} {grantObjects : String → Option ReferenceGrant}
    (hobjects : ∀ key grant, grantObjects key = some grant → grant.key = key ∧ grant.Proper)
    (hstep : s.grantQueue.step config act = some grantQueue) (hact : act ≠ .finish)
    (hchange : ∀ key, grantQueue.OnWay key ∨ grantObjects key = s.grantObjects key) :
    ({ s with grantObjects, grantQueue } : Revalidation).GrantSide config := by
  refine { h with queue := h.queue.step hstep, objects := hobjects, fresh := fun key => ?_ }
  rcases hchange key with honWay | hsame
  · exact .inl honWay
  · rcases h.fresh key with honWay | hwk | houtcome
    · exact .inl ((honWay.step h.queue hstep).resolve_right fun hout => hact hout.1)
    · exact .inr (.inl hwk)
    · exact .inr (.inr (houtcome.trans hsame.symm))

variable {id : ℕ} {key : String}

/-- **An event** changes an object and puts its key on its way. -/
theorem event {object : Option ReferenceGrant}
    (hobj : ∀ grant, object = some grant → grant.key = key ∧ grant.Proper)
    (hstep : s.grantQueue.step config (.call id (.enqueue key)) = some grantQueue) :
    ({ s with
      grantObjects := update s.grantObjects key object
      grantQueue } : Revalidation).GrantSide config := by
  refine h.stepQueue ?_ hstep Act.noConfusion fun key' => ?_
  · exact (forall_update_iff s.grantObjects fun key object =>
      ∀ grant, object = some grant → grant.key = key ∧ grant.Proper).2
      ⟨hobj, fun key _ => h.objects key⟩
  · by_cases hkey : key' = key
    · subst hkey
      exact .inl (Queue.onWay_call (fun _ => Call.noConfusion) hstep)
    · exact .inr (update_of_ne hkey _ _)

/-- The worker takes a grant from the queue. -/
theorem handOut (hwk : s.grantWorker = .idle) {item : WorkItem}
    (hitem : s.grantQueue.consumer = .holding item)
    (hstep : s.grantQueue.step config .finish = some grantQueue) :
    ({ s with grantQueue, grantWorker := .handedOut item.key } : Revalidation).GrantSide config := by
  refine { h with
    queue := h.queue.step hstep
    worker := trivial
    stored := by simpa only [published, hwk] using h.stored
    fresh := fun key => ?_ }
  rcases h.fresh key with honWay | hhanded | hout
  · rcases honWay.step h.queue hstep with honWay | ⟨-, item', hitem', rfl⟩
    · exact .inl honWay
    · rw [hitem] at hitem'
      cases hitem'
      exact .inr (.inl rfl)
  · rw [hwk] at hhanded
    cases hhanded
  · simp only [outcome, hwk] at hout
    exact .inr (.inr hout)

/-- The worker reads the object. -/
theorem read (hwk : s.grantWorker = .handedOut key)
    {grantWorker : GrantWorker} (hat : ({ s with grantWorker } : Revalidation).AtGrant)
    (hpublished : ({ s with grantWorker } : Revalidation).published = s.grants)
    (hout : ({ s with grantWorker } : Revalidation).outcome =
      update s.grants key (s.grantObjects key)) :
    ({ s with grantWorker } : Revalidation).GrantSide config := by
  refine { h with
    worker := hat
    stored := by simpa only [hpublished] using h.lookup_eq (by simp [Unpublished, hwk])
    fresh := fun key' => ?_ }
  rw [hout]
  by_cases hkey : key' = key
  · subst hkey
    exact .inr (.inr (update_self _ _ _))
  · rw [update_of_ne hkey]
    have hpre := h.fresh key'
    simp only [outcome, hwk, GrantWorker.handedOut.injEq] at hpre
    rcases hpre with honWay | heq | hsame
    · exact .inl honWay
    · exact absurd heq.symm hkey
    · exact .inr (.inr hsame)

variable {present : Bool}

/-- The worker changes the store. -/
theorem publish (hproper : grant.Proper) {store : ReferenceGrantStore}
    (hwk : ∀ key, s.grantWorker ≠ .handedOut key) (hout : s.outcome =
      update s.grants grant.key (if present then some grant else none))
    (hidx : store.Indexed)
    (hstored : ∀ key, store.grants.lookup key = s.outcome key) :
    ({ s with store, grantWorker := .notifying namespaces [] [] grant present } :
      Revalidation).GrantSide config := by
  refine { h with
    worker := hproper
    indexed := hidx
    stored := fun key => (hstored key).trans (congrFun hout key)
    fresh := fun key => ?_ }
  rcases h.fresh key with honWay | hhanded | hsame
  · exact .inl honWay
  · exact absurd hhanded (hwk key)
  · exact .inr (.inr ((congrFun hout key).symm.trans hsame))

variable {refs : List ResourceRef} {requeued : List String}

/-- The worker requeues routes. -/
theorem notify {namespaces' : List String} {refs' : List ResourceRef} {requeued' : List String}
    (hwk : s.grantWorker = .notifying namespaces refs requeued grant present) :
    ({ s with grantWorker := .notifying namespaces' refs' requeued' grant present } :
      Revalidation).GrantSide config :=
  { h with
    worker := by simpa only [AtGrant, hwk] using h.worker
    stored := by simpa only [published, outcome, hwk] using h.stored
    fresh := by simpa only [outcome, hwk, reduceCtorEq] using h.fresh }

/-- The worker saves the grant, or removes it. -/
theorem save (hwk : s.grantWorker = .notifying namespaces refs requeued grant present) :
    ({ s with
      grants := update s.grants grant.key (if present then some grant else none)
      grantWorker := .idle } : Revalidation).GrantSide config := by
  refine { h with
    cached := fun key grant' hcached => ?_
    worker := trivial
    stored := by simpa only [published, outcome, hwk] using h.stored
    fresh := by simpa only [outcome, hwk, reduceCtorEq] using h.fresh }
  by_cases hkey : key = grant.key
  · subst hkey
    simp only [update_self, ite_none_right_eq_some, some.injEq] at hcached
    obtain ⟨-, rfl⟩ := hcached
    exact ⟨rfl, by simpa only [AtGrant, hwk] using h.worker⟩
  · simp only [update_of_ne hkey] at hcached
    exact h.cached key grant' hcached

/-- The grant that is removed is cached. -/
theorem cached_of_removing {cached : ReferenceGrant}
    (hwk : s.grantWorker = .removing cached) : s.grants cached.key = some cached := by
  simpa only [AtGrant, hwk] using h.worker

open ReferenceGrantStore

/-- **A step of the worker for grants.** -/
theorem stepGrant (hstep : s.stepGrant config id = some s') : s'.GrantSide config := by
  unfold Revalidation.stepGrant at hstep
  cases hwk : s.grantWorker with
  | idle =>
    simp only [hwk, stepGrantQueue, map_map] at hstep
    split at hstep
    · next item hitem =>
      obtain ⟨grantQueue, hq, rfl⟩ := map_eq_some_iff.1 hstep
      exact h.handOut hwk hitem hq
    · cases hstep
  | handedOut key =>
    simp only [hwk] at hstep
    split at hstep
    · next grant hobj =>
      cases hstep
      obtain ⟨hkey, hproper⟩ := h.objects key grant hobj
      refine h.read hwk hproper rfl ?_
      simp only [outcome, hobj, hkey]
    · next cached hobj hcached =>
      cases hstep
      have hkey := (h.cached key cached hcached).1
      refine h.read hwk (show s.grants cached.key = some cached by rw [hkey, hcached]) rfl ?_
      simp only [outcome, hobj, hkey]
    · next hobj hcached =>
      cases hstep
      refine h.read hwk trivial rfl ?_
      simp only [outcome, hobj]
      rw [← hcached, update_eq_self]
  | upserting grant =>
    simp only [hwk] at hstep
    cases hstep
    have hproper : grant.Proper := by simpa only [AtGrant, hwk] using h.worker
    have hget := h.lookup_eq (by simp [Unpublished, hwk])
    have ⟨ns, hns, _⟩ := hproper
    refine h.publish hproper (by simp [hwk]) (by simp [outcome, hwk]) ?_ ?_
    · rw [hproper.buildKey_eq]
      refine h.indexed.upsert hns fun old hold => ?_
      obtain ⟨hkey, hold⟩ := h.cached _ _ (hget grant.key ▸ hold)
      rw [hold.ns_eq hproper hkey, hns]
    · intro key
      rw [hproper.buildKey_eq]
      simp only [upsert, hns, grants_rebuildNamespaceIndex, outcome, hwk]
      by_cases hkey : key = grant.key
      · subst hkey
        rw [lookup_insert, update_self]
      · rw [lookup_insert_ne hkey, update_of_ne hkey, hget]
  | removing cached =>
    simp only [hwk] at hstep
    cases hstep
    have hcached := h.cached_of_removing hwk
    have hproper := (h.cached _ _ hcached).2
    have hget := h.lookup_eq (by simp [Unpublished, hwk])
    have ⟨ns, hns, _⟩ := hproper
    refine h.publish hproper (by simp [hwk]) (by simp [outcome, hwk]) ?_ ?_
    · refine h.indexed.remove fun old hold => ?_
      obtain ⟨-, ns', hns', -⟩ := h.cached _ _ (hget _ ▸ hold)
      simp [hns']
    · intro key
      rw [hproper.buildKey_eq]
      simp only [remove, hget, hcached, hns, grants_rebuildNamespaceIndex, outcome, hwk]
      by_cases hkey : key = cached.key
      · subst hkey
        rw [lookup_erase, update_self]
      · rw [lookup_erase_ne hkey, update_of_ne hkey, hget]
  | notifying namespaces refs requeued grant present =>
    cases refs with
    | cons ref refs =>
      simp only [hwk] at hstep
      split_ifs at hstep
      · cases hstep
        exact h.notify hwk
      · simp only [stepRouteQueue, map_map] at hstep
        obtain ⟨routeQueue, -, rfl⟩ := map_eq_some_iff.1 hstep
        exact { h.notify hwk with }
    | nil =>
      cases namespaces <;> simp only [hwk] at hstep <;> cases hstep
      · exact h.save hwk
      · exact h.notify hwk

end GrantSide

/-- What a queue does on its own hands nothing out. -/
theorem ne_finish_of_queueOwn {idle : Bool} {act : Act} (h : queueOwn idle act) :
    act ≠ .finish := by
  rintro rfl
  cases h

/-- **Every proper step keeps the side of the grants.** -/
theorem GrantSide.step (h : s.GrantSide config) {act : RevalidationAct} (hact : Proper act)
    (hstep : s.step config act = some s') : s'.GrantSide config := by
  cases act with
  | setRoute | deleteRoute =>
    obtain ⟨routeQueue, -, rfl⟩ := map_eq_some_iff.1 hstep
    exact { h with }
  | setGrant grant id =>
    obtain ⟨grantQueue, hq, rfl⟩ := map_eq_some_iff.1 hstep
    refine h.event (fun grant' heq => ?_) hq
    cases heq
    exact ⟨rfl, hact⟩
  | deleteGrant key id =>
    obtain ⟨grantQueue, hq, rfl⟩ := map_eq_some_iff.1 hstep
    exact h.event (fun _ heq => nomatch heq) hq
  | routeQueue act =>
    simp only [Revalidation.step] at hstep
    split_ifs at hstep
    obtain ⟨routeQueue, -, rfl⟩ := map_eq_some_iff.1 hstep
    exact { h with }
  | grantQueue act =>
    simp only [Revalidation.step] at hstep
    split_ifs at hstep with hown
    obtain ⟨grantQueue, hq, rfl⟩ := map_eq_some_iff.1 hstep
    exact h.stepQueue h.objects hq (ne_finish_of_queueOwn hown) fun _ => .inr rfl
  | routeStep =>
    -- The worker for routes changes nothing of the grants.
    simp only [Revalidation.step, stepRoute] at hstep
    split at hstep
    · split at hstep
      · simp only [stepRouteQueue, map_map] at hstep
        obtain ⟨routeQueue, -, rfl⟩ := map_eq_some_iff.1 hstep
        exact { h with }
      · cases hstep
    · split at hstep <;> cases hstep <;> exact { h with }
    all_goals
      cases hstep
      exact { h with }
  | grantStep id => exact h.stepGrant hstep

/-- When all is drained, the store holds the grants there are. -/
theorem GrantSide.current_iff (h : s.GrantSide config) (hdrained : s.Drained) :
    s.store.Current grant ↔ ∃ key, s.grantObjects key = some grant := by
  refine exists_congr fun key => ?_
  have hwk := hdrained.grantWorker
  have hfresh := h.fresh key
  simp only [hdrained.grantQueue key, hwk, outcome, reduceCtorEq, false_or] at hfresh
  rw [h.stored, published_eq (by simp [Unpublished, hwk]), hfresh]

end Revalidation

end Edgion.GatewayApi
