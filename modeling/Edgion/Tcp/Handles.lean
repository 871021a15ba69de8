import Edgion.Common.Steps
import Edgion.Tcp.Tables

/-!
# TCP routes — the handles of listeners

The manager takes full sets and partial updates, and in between listeners
start and fetch the table of their Gateway. A handle is right in every
state of a run in which the routes of its Gateway come while the map leads
to it (`handles_follow`).
-/

namespace Edgion.Tcp

open Common Hostname List Option AList

universe u

variable {Rules : Type u}

/-- What happens to the manager. -/
inductive Call (Rules : Type u) where
  | fullSet (data : AList fun _ : String => TCPRoute Rules)
  | partialUpdate (add update : AList fun _ : String => TCPRoute Rules) (remove : List String)
  /-- A listener starts and takes the table of its Gateway. -/
  | getOrCreateGatewayTcpRoutes (ns name : String)

/-- The manager and the handles that listeners hold, with the Gateway of
each. -/
structure Listening (Rules : Type u) where
  manager : TcpRouteManager Rules
  handles : List (String × ℕ)

namespace Listening

variable (initRules : TCPRoute Rules → Rules)

/-- Nothing has happened yet. -/
def start : Listening Rules := ⟨.new, []⟩

/-- What a call does. -/
def take (s : Listening Rules) : Call Rules → Listening Rules
  | .fullSet data => { s with manager := s.manager.fullSet initRules data }
  | .partialUpdate add update remove =>
      { s with manager := s.manager.partialUpdate initRules add update remove }
  | .getOrCreateGatewayTcpRoutes ns name =>
      let (address, manager) := s.manager.getOrCreate (ns ++ "/" ++ name)
      ⟨manager, (ns ++ "/" ++ name, address) :: s.handles⟩

/-- Every call goes through. -/
def step (s : Listening Rules) (call : Call Rules) : Option (Listening Rules) :=
  some (s.take initRules call)

end Listening

/-! ## What a handle should answer -/

/-- The route has a parentRef to this listener of the Gateway. -/
def TCPRoute.RefersTo (route : TCPRoute Rules) (gatewayKey listenerName : String) : Prop :=
  ∃ pr ∈ route.parentRefs.getD [],
    route.gatewayKey pr = gatewayKey ∧ pr.sectionName = some listenerName

instance (route : TCPRoute Rules) (gatewayKey listenerName : String) :
    Decidable (route.RefersTo gatewayKey listenerName) :=
  inferInstanceAs (Decidable (∃ pr ∈ route.parentRefs.getD [],
    route.gatewayKey pr = gatewayKey ∧ pr.sectionName = some listenerName))

/-- Every parentRef of the routes names a listener. -/
def Sectioned (routes : AList fun _ : String => TCPRoute Rules) : Prop :=
  ∀ e ∈ routes.entries, ∀ pr ∈ e.2.parentRefs.getD [], pr.sectionName ≠ none

namespace Call

/-- What the calls so far were about: the routes that are current. -/
def apply (initRules : TCPRoute Rules → Rules) (current : String → Option (TCPRoute Rules)) :
    Call Rules → String → Option (TCPRoute Rules)
  | .fullSet data => fun key =>
      (data.lookup key).map (TcpRouteManager.initializeRoute initRules)
  | .partialUpdate add update remove => fun key =>
      if key ∈ remove then none
      else (((update.lookup key).or (add.lookup key)).map
        (TcpRouteManager.initializeRoute initRules)).or (current key)
  | .getOrCreateGatewayTcpRoutes _ _ => current

/-- **What the manager expects of a call**: routes under their own names, each
parentRef with a section, and new keys in the add set. -/
def Proper (s : Listening Rules) : Call Rules → Prop
  | .fullSet data => TcpRouteManager.Keyed data ∧ Sectioned data
  | .partialUpdate add update _ =>
      TcpRouteManager.Keyed add ∧ Sectioned add ∧ TcpRouteManager.Keyed update ∧ Sectioned update ∧
        ∀ e ∈ add.entries, s.manager.routesByKey.lookup e.1 = none
  | .getOrCreateGatewayTcpRoutes _ _ => True

/-- The call brings a route that refers to the Gateway. -/
def Brings (gatewayKey : String) : Call Rules → Prop
  | .fullSet data => ∃ e ∈ data.entries, ∃ l, e.2.RefersTo gatewayKey l
  | .partialUpdate add update _ =>
      ∃ e ∈ add.entries ++ update.entries, ∃ l, e.2.RefersTo gatewayKey l
  | .getOrCreateGatewayTcpRoutes _ _ => False

/-- **The handles are those of the map**, as far as the call brings routes to
their Gateways. -/
def Reaches (s : Listening Rules) (call : Call Rules) : Prop :=
  ∀ handle ∈ s.handles, call.Brings handle.1 →
    s.manager.gatewayTcpRoutesMap.lookup handle.1 = some handle.2

end Call

/-- The routes that are current after some calls. -/
def currentRoutes (initRules : TCPRoute Rules → Rules) (calls : List (Call Rules)) :
    String → Option (TCPRoute Rules) :=
  calls.foldl (Call.apply initRules) fun _ => none

/-- **The handle answers with the current routes of each listener.** -/
def Listening.Answers (s : Listening Rules) (current : String → Option (TCPRoute Rules))
    (handle : String × ℕ) : Prop :=
  (∀ key, s.manager.routesByKey.lookup key = current key) ∧
    ∀ l, ((s.manager.tables handle.2).getRoutesForListener l).Perm
      ((s.manager.routesByKey.entries.map Sigma.snd).filter fun route => route.RefersTo handle.1 l)

/-! ## The invariant -/

open TcpRouteManager

variable {initRules : TCPRoute Rules → Rules}

/-- **A handle is right** if the map leads to it, or if it was dropped and its
Gateway has no routes. -/
def Held (m : TcpRouteManager Rules) (handle : String × ℕ) : Prop :=
  m.gatewayTcpRoutesMap.lookup handle.1 = some handle.2 ∨
    (m.Orphan handle.2 ∧ ∀ l, bucket routeItems m.routesByKey (handle.1, l) = [])

/-- **What holds between calls.** -/
structure Sound (s : Listening Rules) (current : String → Option (TCPRoute Rules)) : Prop where
  right : s.manager.Right fun _ => False
  current : ∀ key, s.manager.routesByKey.lookup key = current key
  sectioned : Sectioned s.manager.routesByKey
  held : ∀ handle ∈ s.handles, Held s.manager handle

variable {g : String} {route : TCPRoute Rules} {current : String → Option (TCPRoute Rules)}
variable {handle : String × ℕ} {l : String} {s : Listening Rules}

/-- With a section in each parentRef, a pair of the route is a listener it
refers to. -/
theorem mem_gatewayListenerPairs_iff
    (hsections : ∀ pr ∈ route.parentRefs.getD [], pr.sectionName ≠ none) :
    (g, l) ∈ route.gatewayListenerPairs ↔ route.RefersTo g l := by
  simp only [TCPRoute.gatewayListenerPairs, mem_dedup, List.mem_map, Prod.mk.injEq]
  refine exists_congr fun pr => and_congr_right fun hpr => and_congr_right fun _ => ?_
  obtain ⟨section', hsec⟩ := ne_none_iff_exists'.1 (hsections pr hpr)
  rw [hsec, getD_some, some.injEq]

variable {routes : AList fun _ : String => TCPRoute Rules}

/-- The bucket of a listener has the routes that refer to it. -/
theorem bucket_eq_filter (hsect : Sectioned routes) (g l : String) :
    bucket routeItems routes (g, l) =
      (routes.entries.map Sigma.snd).filter fun route => route.RefersTo g l := by
  unfold bucket
  unfold Sectioned at hsect
  generalize routes.entries = entries at hsect
  induction entries with
  | nil => rfl
  | cons e entries ih =>
    have hhead := mem_gatewayListenerPairs_iff (g := g) (l := l) (hsect e mem_cons_self)
    have htail := ih fun e' he' => hsect e' (mem_cons_of_mem e he')
    rw [flatMap_cons, htail, map_cons, filter_cons, routeItems]
    by_cases href : e.2.RefersTo g l
    · simp [hhead, href]
    · simp [hhead, href]

/-- **A right handle answers with the current routes.** -/
theorem Sound.answers (h : Sound s current) (hmem : handle ∈ s.handles) :
    s.Answers current handle := by
  refine ⟨h.current, fun l => ?_⟩
  rw [← bucket_eq_filter h.sectioned]
  rcases h.held handle hmem with hled | ⟨horphan, hempty⟩
  · exact h.right.listed handle.1 l handle.2 (fun hf => hf) hled
  · rw [hempty l, horphan.empty]
    exact Perm.refl _

/-! ## One call -/

variable {call : Call Rules} {key : String}

/-- The current routes after a call come with it, or they were there. -/
theorem refersTo_of_apply (h : call.apply initRules current key = some route)
    (href : route.RefersTo g l) : call.Brings g ∨ current key = some route := by
  cases call with
  | fullSet data =>
    obtain ⟨version, hversion, rfl⟩ := map_eq_some_iff.1 h
    exact .inl ⟨⟨key, version⟩, mem_lookup_iff.1 hversion, l, href⟩
  | partialUpdate add update remove =>
    simp only [Call.apply] at h
    split at h
    · cases h
    rcases or_eq_some_iff.1 h with hbrought | ⟨-, hold⟩
    · obtain ⟨version, hversion, rfl⟩ := map_eq_some_iff.1 hbrought
      left
      rcases or_eq_some_iff.1 hversion with hupd | ⟨-, hadd⟩
      · exact ⟨⟨key, version⟩, mem_append_right _ (mem_lookup_iff.1 hupd), l, href⟩
      · exact ⟨⟨key, version⟩, mem_append_left _ (mem_lookup_iff.1 hadd), l, href⟩
    · exact .inr hold
  | getOrCreateGatewayTcpRoutes ns name => exact .inr h

/-- The sections of the routes that come with a proper call. -/
theorem sectioned_of_apply (hproper : call.Proper s)
    (hcur : ∀ key route, current key = some route →
      ∀ pr ∈ route.parentRefs.getD [], pr.sectionName ≠ none)
    (h : call.apply initRules current key = some route) :
    ∀ pr ∈ route.parentRefs.getD [], pr.sectionName ≠ none := by
  cases call with
  | fullSet data =>
    obtain ⟨version, hversion, rfl⟩ := map_eq_some_iff.1 h
    exact hproper.2 ⟨key, version⟩ (mem_lookup_iff.1 hversion)
  | partialUpdate add update remove =>
    simp only [Call.apply] at h
    split at h
    · cases h
    rcases or_eq_some_iff.1 h with hbrought | ⟨-, hold⟩
    · obtain ⟨version, hversion, rfl⟩ := map_eq_some_iff.1 hbrought
      rcases or_eq_some_iff.1 hversion with hupd | ⟨-, hadd⟩
      · exact hproper.2.2.2.1 ⟨key, version⟩ (mem_lookup_iff.1 hupd)
      · exact hproper.2.1 ⟨key, version⟩ (mem_lookup_iff.1 hadd)
    · exact hcur key route hold
  | getOrCreateGatewayTcpRoutes ns name => exact hcur key route h

/-- A listener has no routes if no current route refers to it. -/
theorem bucket_eq_nil_iff (hsect : Sectioned routes) : bucket routeItems routes (g, l) = [] ↔
      ∀ key route, routes.lookup key = some route → ¬ route.RefersTo g l := by
  rw [bucket_eq_filter hsect, filter_eq_nil_iff]
  constructor
  · intro h key route hget href
    have hmem : (⟨key, route⟩ : (_ : String) × TCPRoute Rules) ∈ routes.entries :=
      mem_lookup_iff.1 hget
    exact h route (mem_map_of_mem hmem) (by simpa using href)
  · intro h route hmem href
    obtain ⟨e, he, rfl⟩ := mem_map.1 hmem
    exact h e.1 e.2 (mem_lookup_iff.2 he) (by simpa using href)

section Take

variable {s : Listening Rules} {current : String → Option (TCPRoute Rules)} {call : Call Rules}

section

variable (h : Sound s current)

include h

/-- **A call makes the current routes current.** -/
theorem Sound.current_take (hproper : call.Proper s) (key : String) :
    (s.take initRules call).manager.routesByKey.lookup key = call.apply initRules current key := by
  cases call with
  | fullSet data => exact lookup_fullSet initRules
  | partialUpdate add update remove =>
    obtain ⟨hadd, -, hupd, -, -⟩ := hproper
    exact (lookup_partialUpdate initRules hadd hupd).trans (by rw [h.current key]; rfl)
  | getOrCreateGatewayTcpRoutes ns name =>
    exact (congrArg (AList.lookup key) routesByKey_getOrCreate).trans (h.current key)

theorem Sound.sectioned_take (hproper : call.Proper s) :
    Sectioned (s.take initRules call).manager.routesByKey := by
  rintro ⟨key, route⟩ hmem
  have hget : (s.take initRules call).manager.routesByKey.lookup key = some route :=
    mem_lookup_iff.2 hmem
  rw [h.current_take hproper] at hget
  refine sectioned_of_apply hproper (fun key route hroute => ?_) hget
  rw [← h.current key] at hroute
  exact h.sectioned ⟨key, route⟩ (mem_lookup_iff.1 hroute)

theorem Sound.right_take (hproper : call.Proper s) :
    (s.take initRules call).manager.Right fun _ => False := by
  cases call with
  | fullSet data => exact h.right.fullSet initRules
  | partialUpdate add update remove =>
    obtain ⟨hadd, -, hupd, -, hnew⟩ := hproper
    exact h.right.partialUpdate initRules hadd hupd hnew
  | getOrCreateGatewayTcpRoutes ns name => exact h.right.getOrCreate _

/-- **No call brings routes to the Gateway of an orphan**, so it stays without
routes. -/
theorem Sound.empty_take (hproper : call.Proper s) (hbrings : ¬ call.Brings g)
    (hempty : ∀ l, bucket routeItems s.manager.routesByKey (g, l) = []) (l : String) :
    bucket routeItems (s.take initRules call).manager.routesByKey (g, l) = [] := by
  refine (bucket_eq_nil_iff (h.sectioned_take hproper)).2 fun key route hget href => ?_
  rw [h.current_take hproper] at hget
  rcases refersTo_of_apply hget href with hbrought | hold
  · exact hbrings hbrought
  · rw [← h.current key] at hold
    exact (bucket_eq_nil_iff h.sectioned).1 (hempty l) key route hold href

/-- The map and the orphans after a call: only a full set drops tables, and only
those of Gateways without routes. -/
theorem Sound.led_take (hled : s.manager.gatewayTcpRoutesMap.lookup handle.1 = some handle.2) :
    Held (s.take initRules call).manager handle := by
  cases call with
  | fullSet data =>
    by_cases hg : handle.1 ∈ gateways (insertAll id (insertAll (initializeRoute initRules) data))
    · exact .inl (lookup_rebuildGatewayRoutesMap hled hg)
    · right
      have hchanged : ({ s.manager with
          routesByKey := insertAll id (insertAll (initializeRoute initRules) data) } :
            TcpRouteManager Rules).Right fun _ => True :=
        h.right.changeRoutes (fun _ _ => trivial) fun _ hnot => absurd trivial hnot
      refine ⟨hchanged.orphan_rebuildGatewayRoutesMap hled hg, fun l => ?_⟩
      refine Eq.trans ?_ (bucket_of_notMem_gateways hg l)
      exact congrArg (fun routes => bucket routeItems routes (handle.1, l))
        routesByKey_rebuildGatewayRoutesMap
  | partialUpdate add update remove =>
    exact .inl ((keeps_partialUpdate initRules).led _ _ hled)
  | getOrCreateGatewayTcpRoutes ns name =>
    exact .inl (keeps_getOrCreate.led _ _ hled)

end

theorem orphan_take (s : Listening Rules) (call : Call Rules) {address : ℕ}
    (h : s.manager.Orphan address) : (s.take initRules call).manager.Orphan address := by
  cases call with
  | fullSet data => exact (keeps_changeRoutes.orphaned _ h).rebuildGatewayRoutesMap
  | partialUpdate add update remove =>
    exact (keeps_partialUpdate initRules).orphaned _ h
  | getOrCreateGatewayTcpRoutes ns name => exact keeps_getOrCreate.orphaned _ h

/-- The handles after a call: those from before, and the one that was fetched. -/
theorem mem_handles_take (hmem : handle ∈ (s.take initRules call).handles) : handle ∈ s.handles ∨
      (s.take initRules call).manager.gatewayTcpRoutesMap.lookup handle.1 = some handle.2 := by
  cases call with
  | fullSet data => exact .inl hmem
  | partialUpdate add update remove => exact .inl hmem
  | getOrCreateGatewayTcpRoutes ns name =>
    rcases mem_cons.1 hmem with rfl | hold
    · exact .inr lookup_getOrCreate
    · exact .inl hold

/-- **One call.** -/
theorem Sound.take (h : Sound s current) (hproper : call.Proper s) (hreaches : call.Reaches s) :
    Sound (s.take initRules call) (call.apply initRules current) where
  right := h.right_take hproper
  current := h.current_take hproper
  sectioned := h.sectioned_take hproper
  held handle hmem := by
    rcases mem_handles_take hmem with hold | hled
    · rcases h.held handle hold with hled | ⟨horphan, hempty⟩
      · exact h.led_take hled
      · have hbrings : ¬ call.Brings handle.1 := fun hbrings =>
          horphan.dropped handle.1 (hreaches handle hold hbrings)
        exact .inr ⟨orphan_take s call horphan, h.empty_take hproper hbrings hempty⟩
    · exact .inl hled

end Take

theorem sound_start : Sound (Listening.start : Listening Rules) fun _ => none where
  right := ⟨fun g g' address h => (by cases h), fun g address h => (by cases h),
    fun g l address _ h => (by cases h), fun g l _ _ => rfl⟩
  current _ := rfl
  sectioned e he := by cases he
  held handle hmem := by cases hmem

/-- **Every run.** -/
theorem Sound.runs {s' : Listening Rules} {calls : List (Call Rules)}
    (hrun : Runs (Listening.step initRules) (fun s call => call.Proper s ∧ call.Reaches s)
      s calls s') :
    ∀ current, Sound s current → Sound s' (calls.foldl (Call.apply initRules) current) := by
  induction hrun with
  | nil s => exact fun current h => h
  | cons hok hstep _ ih =>
    intro current h
    cases hstep
    exact ih _ (h.take hok.1 hok.2)

/-- **A listener's handle follows the routes**: in every run in which routes come
only to Gateways whose handles are those of the map, each handle that was ever
fetched answers with exactly the current routes of its listeners. -/
theorem handles_follow {calls : List (Call Rules)} {s : Listening Rules}
    (hrun : Runs (Listening.step initRules) (fun s call => call.Proper s ∧ call.Reaches s)
      .start calls s) {handle : String × ℕ} (hmem : handle ∈ s.handles) :
    s.Answers (currentRoutes initRules calls) handle :=
  (Sound.runs hrun _ sound_start).answers hmem

/-! ## A run that meets the condition, and one that does not -/

variable (name : String)

/-- A route for the listener `db` of the Gateway `edge`. -/
def dbRoute : TCPRoute Unit :=
  ⟨some "app", some name, some [⟨none, none, some "infra", "edge", some "db", none⟩], ()⟩

/-- One route in a map. -/
def single : AList fun _ : String => TCPRoute Unit :=
  insert ("app" ++ "/" ++ name) (dbRoute name) ∅

/-- What happens while the Gateway always has a route. -/
def served : List (Call Unit) :=
  [.getOrCreateGatewayTcpRoutes "infra" "edge", .partialUpdate (single "one") ∅ [],
    .fullSet (single "two")]

/-- A relist finds the Gateway without a route, and then a route comes. -/
def relisted : List (Call Unit) :=
  [.getOrCreateGatewayTcpRoutes "infra" "edge", .fullSet ∅, .partialUpdate (single "one") ∅ []]

/-- The state after some calls. -/
def after (calls : List (Call Unit)) : Listening Unit :=
  calls.foldl (Listening.take fun _ => ()) .start

theorem proper_single (s : Listening Unit)
    (hnew : s.manager.routesByKey.lookup ("app" ++ "/" ++ name) = none) :
    (Call.partialUpdate (single name) ∅ []).Proper s ∧ (Call.fullSet (single name)).Proper s := by
  have hkeyed : Keyed (single name) := by
    simp [Keyed, single, dbRoute, TCPRoute.keyName]
  have hsect : Sectioned (single name) := by
    simp [Sectioned, single, dbRoute]
  refine ⟨⟨hkeyed, hsect, ?_, ?_, ?_⟩, hkeyed, hsect⟩
  · simp [Keyed]
  · simp [Sectioned]
  · simpa [single] using hnew

/-- The handle of the run in which the Gateway always has a route answers with
the route of the last full set. -/
theorem handles_follow_served : ("infra/edge", 0) ∈ (after served).handles ∧
      (after served).Answers (currentRoutes (fun _ => ()) served) ("infra/edge", 0) ∧
      (((after served).manager.tables 0).getRoutesForListener "db") = [dbRoute "two"] := by
  refine ⟨by decide +kernel, handles_follow ?_ (by decide +kernel), by decide +kernel⟩
  refine .cons ⟨trivial, fun _ hmem => (by cases hmem)⟩ rfl ?_
  refine .cons ⟨(proper_single "one" _ (by decide +kernel)).1, fun handle hmem _ => ?_⟩ rfl ?_
  · obtain rfl := mem_singleton.1 hmem
    decide +kernel
  refine .cons ⟨(proper_single "two" _ (by decide +kernel)).2, fun handle hmem _ => ?_⟩ rfl (.nil _)
  · obtain rfl := mem_singleton.1 hmem
    decide +kernel

/-- **A listener goes stale**: after a relist without a route of the Gateway the
handle answers with nothing, though a current route refers to its listener. -/
theorem stale_dropped :
    Runs (Listening.step fun _ => ()) (fun s call => call.Proper s) .start relisted
        (after relisted) ∧
      ("infra/edge", 0) ∈ (after relisted).handles ∧
      ((after relisted).manager.tables 0).getRoutesForListener "db" = [] ∧
      currentRoutes (fun _ => ()) relisted "app/one" = some (dbRoute "one") ∧
      (dbRoute "one").RefersTo "infra/edge" "db" := by
  refine ⟨?_, by decide +kernel, by decide +kernel, by decide +kernel, by decide +kernel⟩
  refine .cons trivial rfl (.cons ?_ rfl (.cons ?_ rfl (.nil _)))
  · exact ⟨fun e he => (by cases he), fun e he => (by cases he)⟩
  · exact (proper_single "one" _ (by decide +kernel)).1

end Edgion.Tcp
