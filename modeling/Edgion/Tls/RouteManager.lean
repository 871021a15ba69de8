import Edgion.Common.Buckets
import Edgion.Common.Steps
import Edgion.ConfSync.ClientCache
import Edgion.HostMatch.HashHost

/-!
# TLS routes — the tables of the ports

The managers keep the TLSRoutes by key and, for each port, a table of the
routes with the port among their resolved ports, by hostname. A full set
makes every table anew. A partial update makes the tables of the ports it
has collected anew: those of the new versions, and those of the cached
versions of what it updates and removes.

So a table is right after every call that collects the ports of the cached
versions it replaces (`shows_of_runs`). The cached version of a route that
comes in the add set is not looked at.
-/

namespace Edgion.Tls

open Common HostMatch Text List

universe u

/-- `TLSRoute`. What its rules hold is not read here. -/
structure TLSRoute (Rules : Type u) where
  ns : Option String
  name : Option String
  hostnames : Option (List String)
  resolvedPorts : Option (List ℕ)
  rules : Rules
deriving DecidableEq, Repr

variable {Rules : Type u} (route : TLSRoute Rules)

def TLSRoute.keyName : String :=
  match route.ns with
  | some ns => ns ++ "/" ++ route.name.getD ""
  | none => route.name.getD ""

def resolvedPortsForRoute : List ℕ := route.resolvedPorts.getD []

/-- What a route puts into the ports: itself, once for each. -/
def portItems (_ : String) (route : TLSRoute Rules) (port : ℕ) : List (TLSRoute Rules) :=
  if port ∈ resolvedPortsForRoute route then [route] else []

/-! ## The table of a port -/

structure TlsRouteTable (Rules : Type u) where
  hostMap : HashHost (List (TLSRoute Rules))
  catchAllRoutes : Option (List (TLSRoute Rules))

namespace TlsRouteTable

def new : TlsRouteTable Rules := ⟨.new, none⟩

/-- The route is pushed on the bucket of a hostname. -/
def pushRoute (route : TLSRoute Rules) (buckets : AList fun _ : String => List (TLSRoute Rules))
    (hostname : String) : AList fun _ : String => List (TLSRoute Rules) :=
  let lower := toAsciiLowercase hostname
  buckets.insert lower ((buckets.lookup lower).getD [] ++ [route])

def fromRoutes (routes : List (TLSRoute Rules)) : TlsRouteTable Rules :=
  let (buckets, catchAll) := routes.foldl (fun (buckets, catchAll) route =>
    match route.hostnames.getD [] with
    | [] => (buckets, catchAll ++ [route])
    | hostnames => (hostnames.foldl (pushRoute route) buckets, catchAll)) (∅, [])
  { hostMap := buckets.entries.foldl (fun hostMap e => (hostMap.insert e.1 e.2).1) .new
    catchAllRoutes := if catchAll.isEmpty then none else some catchAll }

def matchRoute (table : TlsRouteTable Rules) (sniHostname : String) : Option (TLSRoute Rules) :=
  ((table.hostMap.get (toAsciiLowercase sniHostname)).bind head?).or
    (table.catchAllRoutes.bind head?)

end TlsRouteTable

/-! ## The managers -/

/-- `GlobalTlsRouteManagers`, with the table of each port's manager. -/
structure GlobalTlsRouteManagers (Rules : Type u) where
  routeCache : AList fun _ : String => TLSRoute Rules
  byPort : ℕ → Option (TlsRouteTable Rules)

namespace GlobalTlsRouteManagers

def new : GlobalTlsRouteManagers Rules := ⟨∅, fun _ => none⟩

variable (m : GlobalTlsRouteManagers Rules)

def getOrCreatePortManager (port : ℕ) : GlobalTlsRouteManagers Rules :=
  { m with byPort := Function.update m.byPort port (some ((m.byPort port).getD .new)) }

def insertRoute (route : TLSRoute Rules) : GlobalTlsRouteManagers Rules :=
  { m with routeCache := m.routeCache.insert route.keyName route }

def getRoute (key : String) : Option (TLSRoute Rules) :=
  m.routeCache.lookup key

def removeRoute (resourceKey : String) : GlobalTlsRouteManagers Rules :=
  { m with routeCache := m.routeCache.erase resourceKey }

def clearRouteCache : GlobalTlsRouteManagers Rules :=
  { m with routeCache := ∅ }

/-- `rebuild_all_port_managers`: the ports with routes, then the other ports
that have a manager. -/
def rebuildAllPortManagers : GlobalTlsRouteManagers Rules :=
  { m with byPort := fun port =>
    match bucket portItems m.routeCache port with
    | [] => (m.byPort port).map fun _ => .fromRoutes []
    | routes => some (.fromRoutes routes) }

def rebuildAffectedPortManagers (affectedPorts : List ℕ) : GlobalTlsRouteManagers Rules :=
  { m with byPort := fun port =>
    if port ∈ affectedPorts then some (.fromRoutes (bucket portItems m.routeCache port))
    else m.byPort port }

variable (initRules : TLSRoute Rules → Rules)

/-- `initialize_route`, which fills in the rules and does not fail. -/
def initializeRoute (route : TLSRoute Rules) : TLSRoute Rules :=
  { route with rules := initRules route }

def fullSet (m : GlobalTlsRouteManagers Rules) (data : AList fun _ : String => TLSRoute Rules) :
    GlobalTlsRouteManagers Rules :=
  (data.entries.foldl (fun m e => m.insertRoute (initializeRoute initRules e.2))
    m.clearRouteCache).rebuildAllPortManagers

variable (acc : GlobalTlsRouteManagers Rules × List ℕ) (e : (_ : String) × TLSRoute Rules)

/-- A route of the add set, and the ports collected so far. -/
def addOne :
    GlobalTlsRouteManagers Rules × List ℕ :=
  let initialized := initializeRoute initRules e.2
  (acc.1.insertRoute initialized, acc.2 ++ resolvedPortsForRoute initialized)

/-- A route of the update set. -/
def updateOne :
    GlobalTlsRouteManagers Rules × List ℕ :=
  addOne initRules (acc.1.removeRoute e.1, acc.2) e

def partialUpdate (m : GlobalTlsRouteManagers Rules)
    (add update : AList fun _ : String => TLSRoute Rules) (remove : List String) :
    GlobalTlsRouteManagers Rules :=
  let oldPorts := (remove ++ update.keys).flatMap fun key =>
    ((m.getRoute key).map resolvedPortsForRoute).getD []
  let added := add.entries.foldl (addOne initRules) (m, oldPorts)
  let updated := update.entries.foldl (updateOne initRules) added
  (remove.foldl removeRoute updated.1).rebuildAffectedPortManagers updated.2

/-- The table that the manager of a port has, or would start with. -/
def table (port : ℕ) : TlsRouteTable Rules :=
  (m.byPort port).getD .new

/-- The cached routes of a port. -/
def routesOf (port : ℕ) : List (TLSRoute Rules) :=
  (m.routeCache.entries.map Sigma.snd).filter fun route => port ∈ resolvedPortsForRoute route

/-- **Every port's table is built from its cached routes**, which are read in
some order. -/
def Shows : Prop :=
  ∀ port, ∃ routes, routes.Perm (m.routesOf port) ∧ m.table port = .fromRoutes routes

/-! ## What a call collects -/

/-- **The ports a partial update collects**: those of the routes it brings, and
those of the cached versions of what it updates and removes. -/
def Collected (add update : AList fun _ : String => TLSRoute Rules) (remove : List String)
    (port : ℕ) : Prop :=
  (∃ e ∈ add.entries ++ update.entries, port ∈ resolvedPortsForRoute e.2) ∨
    ∃ key ∈ remove ++ update.keys, ∃ old, m.routeCache.lookup key = some old ∧
      port ∈ resolvedPortsForRoute old

variable {initRules}

/-- The ports that a loop over routes has collected. -/
theorem snd_foldl {f : GlobalTlsRouteManagers Rules × List ℕ → (_ : String) × TLSRoute Rules →
      GlobalTlsRouteManagers Rules × List ℕ}
    (hf : ∀ acc e, (f acc e).2 = acc.2 ++ resolvedPortsForRoute e.2)
    (entries : List ((_ : String) × TLSRoute Rules)) :
    ∀ acc, (entries.foldl f acc).2 =
      acc.2 ++ entries.flatMap fun e => resolvedPortsForRoute e.2 := by
  induction entries with
  | nil => simp
  | cons e entries ih =>
    intro acc
    rw [foldl_cons, ih, hf, flatMap_cons, append_assoc]

variable {add update : AList fun _ : String => TLSRoute Rules} {remove : List String}

/-- What the update has collected at its end. -/
theorem mem_collected (initRules : TLSRoute Rules → Rules) {m : GlobalTlsRouteManagers Rules} {port : ℕ} :
    port ∈ (update.entries.foldl (updateOne initRules) (add.entries.foldl (addOne initRules)
      (m, (remove ++ update.keys).flatMap fun key =>
        ((m.getRoute key).map resolvedPortsForRoute).getD []))).2 ↔
      m.Collected add update remove port := by
  have hold : ∀ key, port ∈ ((m.getRoute key).map resolvedPortsForRoute).getD [] ↔
      ∃ old, m.routeCache.lookup key = some old ∧ port ∈ resolvedPortsForRoute old := by
    intro key
    unfold getRoute
    cases m.routeCache.lookup key <;> simp
  rw [snd_foldl (fun _ _ => rfl), snd_foldl (fun _ _ => rfl), append_assoc,
    ← flatMap_append, mem_append, mem_flatMap, mem_flatMap, or_comm]
  simp only [hold]
  rfl

/-! ## Calls -/

/-- What happens to the managers. -/
inductive Call (Rules : Type u) where
  | fullSet (data : AList fun _ : String => TLSRoute Rules)
  | partialUpdate (add update : AList fun _ : String => TLSRoute Rules) (remove : List String)
  /-- A listener starts. -/
  | getOrCreatePortManager (port : ℕ)

/-- What a call does. -/
def take (initRules : TLSRoute Rules → Rules) (m : GlobalTlsRouteManagers Rules) :
    Call Rules → GlobalTlsRouteManagers Rules
  | .fullSet data => m.fullSet initRules data
  | .partialUpdate add update remove => m.partialUpdate initRules add update remove
  | .getOrCreatePortManager port => m.getOrCreatePortManager port

/-- Every call goes through. -/
def step (initRules : TLSRoute Rules → Rules) (m : GlobalTlsRouteManagers Rules)
    (call : Call Rules) : Option (GlobalTlsRouteManagers Rules) :=
  some (m.take initRules call)

/-- **The ports of what is replaced are collected**: for each route that the call
brings, those of the version that is cached under its name. -/
def Call.Collects : Call Rules → Prop
  | .partialUpdate add update remove =>
      ∀ e ∈ add.entries ++ update.entries, ∀ old, m.routeCache.lookup e.2.keyName = some old →
        ∀ port ∈ resolvedPortsForRoute old, m.Collected add update remove port
  | _ => True

variable {m : GlobalTlsRouteManagers Rules} {port : ℕ}

/-- The bucket of a port has its routes. -/
theorem bucket_portItems (m : GlobalTlsRouteManagers Rules) (port : ℕ) :
    bucket portItems m.routeCache port = m.routesOf port := by
  unfold bucket routesOf
  induction m.routeCache.entries with
  | nil => rfl
  | cons e entries ih =>
    rw [flatMap_cons, ih, map_cons, filter_cons, portItems]
    by_cases hport : port ∈ resolvedPortsForRoute e.2
    · simp [hport]
    · simp [hport]

/-- **A full set makes every table right.** -/
theorem shows_rebuildAllPortManagers (m : GlobalTlsRouteManagers Rules) :
    m.rebuildAllPortManagers.Shows := by
  intro port
  refine ⟨m.routesOf port, Perm.refl _, ?_⟩
  rw [← bucket_portItems]
  unfold table rebuildAllPortManagers
  dsimp only
  split
  next hempty =>
    rw [hempty]
    cases m.byPort port <;> rfl
  next => rfl

/-- **A port that is not collected keeps its routes.** -/
theorem sameIn_partialUpdate
    (hcollects : (Call.partialUpdate add update remove).Collects m)
    (hport : ¬ m.Collected add update remove port) :
    SameIn portItems port m.routeCache
      (m.partialUpdate initRules add update remove).routeCache := by
  have hbrought : ∀ e ∈ add.entries ++ update.entries,
      port ∉ resolvedPortsForRoute (initializeRoute initRules e.2) :=
    fun e he hmem => hport (.inl ⟨e, he, hmem⟩)
  have hrepl : ∀ e ∈ add.entries ++ update.entries, ∀ old,
      m.routeCache.lookup (initializeRoute initRules e.2).keyName = some old →
        port ∉ resolvedPortsForRoute old :=
    fun e he old hget hmem => hport (hcollects e he old hget port hmem)
  have hgone : ∀ key ∈ remove ++ update.keys, ∀ old, m.routeCache.lookup key = some old →
      port ∉ resolvedPortsForRoute old :=
    fun key hkey old hget hmem => hport (.inr ⟨key, hkey, old, hget, hmem⟩)
  -- the three loops, from the last on, each of which keeps the routes of the port
  refine foldlRecOn (motive := fun acc : GlobalTlsRouteManagers Rules =>
    SameIn portItems port m.routeCache acc.routeCache) remove removeRoute ?_
      fun acc h key hkey => h.erase fun old hold =>
        if_neg (hgone key (mem_append_left _ hkey) old hold)
  refine foldlRecOn (motive := fun acc : GlobalTlsRouteManagers Rules × List ℕ =>
    SameIn portItems port m.routeCache acc.1.routeCache) update.entries _ ?_ fun acc h e he => ?_
  · refine foldlRecOn (motive := fun acc : GlobalTlsRouteManagers Rules × List ℕ =>
      SameIn portItems port m.routeCache acc.1.routeCache) add.entries _ (SameIn.refl m.routeCache)
        fun acc h e he => ?_
    have he' : e ∈ add.entries ++ update.entries := mem_append_left _ he
    exact h.insert (fun old hold => if_neg (hrepl e he' old hold)) (if_neg (hbrought e he'))
  · have he' : e ∈ add.entries ++ update.entries := mem_append_right _ he
    have hkey : e.1 ∈ remove ++ update.keys := mem_append_right _ (mem_keys_of_mem he)
    exact (h.erase fun old hold => if_neg (hgone e.1 hkey old hold)).insert
      (fun old hold => if_neg (hrepl e he' old hold)) (if_neg (hbrought e he'))

/-- A loop leaves alone what each of its turns does. -/
theorem foldl_leaves {α β γ : Type*} {f : α → β → α} {g : α → γ} (hf : ∀ acc b, g (f acc b) = g acc)
    (l : List β) (acc : α) : g (l.foldl f acc) = g acc :=
  foldlRecOn (motive := fun acc' => g acc' = g acc) l f rfl
    fun acc' h b _ => (hf acc' b).trans h

/-- The tables after a partial update. -/
theorem table_partialUpdate (initRules : TLSRoute Rules → Rules) (m : GlobalTlsRouteManagers Rules)
    (add update : AList fun _ : String => TLSRoute Rules) (remove : List String) (port : ℕ) :
    (m.Collected add update remove port → (m.partialUpdate initRules add update remove).table port =
        .fromRoutes ((m.partialUpdate initRules add update remove).routesOf port)) ∧
      (¬ m.Collected add update remove port →
        (m.partialUpdate initRules add update remove).table port = m.table port) := by
  rw [← bucket_portItems, ← mem_collected initRules]
  unfold partialUpdate rebuildAffectedPortManagers table
  dsimp only
  refine ⟨fun hmem => by rw [if_pos hmem, Option.getD_some], fun hmem => ?_⟩
  have hadded := fun acc => foldl_leaves (f := addOne initRules) (g := fun acc => acc.1.byPort)
    (fun _ _ => rfl) add.entries acc
  have hupdated := fun acc => foldl_leaves (f := updateOne initRules)
    (g := fun acc => acc.1.byPort) (fun _ _ => rfl) update.entries acc
  have hrem := fun acc : GlobalTlsRouteManagers Rules => foldl_leaves (f := removeRoute)
    (g := byPort) (fun _ _ => rfl) remove acc
  rw [if_neg hmem, hrem, hupdated, hadded]

/-- **One call.** -/
theorem Shows.take (h : m.Shows) {call : Call Rules} (hcollects : call.Collects m) :
    (m.take initRules call).Shows := by
  cases call with
  | fullSet data => exact shows_rebuildAllPortManagers _
  | partialUpdate add update remove =>
    intro port
    obtain ⟨hmade, hkept⟩ := table_partialUpdate initRules m add update remove port
    by_cases hport : m.Collected add update remove port
    · exact ⟨_, Perm.refl _, hmade hport⟩
    · obtain ⟨routes, hperm, htable⟩ := h port
      refine ⟨routes, hperm.trans ?_, (hkept hport).trans htable⟩
      rw [← bucket_portItems, ← bucket_portItems]
      exact (sameIn_partialUpdate hcollects hport).perm
  | getOrCreatePortManager port' =>
    intro port
    obtain ⟨routes, hperm, htable⟩ := h port
    refine ⟨routes, hperm, Eq.trans ?_ htable⟩
    unfold GlobalTlsRouteManagers.take getOrCreatePortManager table
    dsimp only
    by_cases hport : port = port'
    · subst hport
      rw [Function.update_self, Option.getD_some]
    · rw [Function.update_of_ne hport]

/-- **The tables of the ports follow the cache**: in every run of calls that
collect the ports of the versions they replace, every port's table is built
from exactly the cached routes of the port. -/
theorem shows_of_runs {calls : List (Call Rules)}
    (hrun : Runs (step initRules) (fun m call => call.Collects m) new calls m) : m.Shows :=
  hrun.invariant (fun _ => ⟨[], Perm.refl _, rfl⟩) fun m call m' h hcollects hstep => by
    cases hstep
    exact h.take hcollects

/-! ## A route that moves to another port -/

/-- The route at a port. -/
def appRoute (port : ℕ) : TLSRoute Unit :=
  ⟨some "app", some "one", some ["a.example.com"], some [port], ()⟩

/-- The route in a map. -/
def appAt (port : ℕ) : AList fun _ : String => TLSRoute Unit :=
  AList.insert "app/one" (appRoute port) ∅

/-- The route moves by an update. -/
def moved : List (Call Unit) := [.fullSet (appAt 443), .partialUpdate ∅ (appAt 8443) []]

/-- The route is deleted and added again at another port. -/
def readded : List (Call Unit) := [.fullSet (appAt 443), .partialUpdate (appAt 8443) ∅ []]

/-- The managers after some calls. -/
def after (calls : List (Call Unit)) : GlobalTlsRouteManagers Unit :=
  calls.foldl (take fun _ => ()) new

/-- After the update the old port has nothing, and the new port the route. -/
theorem shows_of_runs_moved :
    (after moved).Shows ∧ ((after moved).table 443).matchRoute "a.example.com" = none ∧
      ((after moved).table 8443).matchRoute "a.example.com" = some (appRoute 8443) := by
  have hrun : Runs (step fun _ => ()) (fun m call => call.Collects m) new moved (after moved) := by
    refine .cons trivial rfl (.cons ?_ rfl (.nil _))
    -- the cached version is that of the key that is updated
    intro e he old hlookup port hport
    obtain rfl : e = ⟨"app/one", appRoute 8443⟩ := by simpa [appAt] using he
    exact .inr ⟨"app/one", by decide, old, hlookup, hport⟩
  exact ⟨shows_of_runs hrun, by decide +kernel, by decide +kernel⟩

/-- **The old port keeps the route**: what a tick makes of a delete and an add
of the route is an add, and the table of the port that the route has left still
leads to it. -/
theorem not_shows_readded : ([⟨"app/one", [.eventDelete, .eventAdd]⟩].foldl
        (ConfSync.PartialUpdate.classify (appAt 8443).lookup) .empty).add = appAt 8443 ∧
      Runs (step fun _ => ()) (fun _ _ => True) new readded (after readded) ∧
      ((after readded).table 443).matchRoute "a.example.com" = some (appRoute 443) ∧
      (after readded).routesOf 443 = [] ∧ ¬ (after readded).Shows := by
  have hkept : ((after readded).table 443).matchRoute "a.example.com" = some (appRoute 443) := by
    decide +kernel
  have hnone : (after readded).routesOf 443 = [] := by decide +kernel
  refine ⟨rfl, .cons trivial rfl (.cons trivial rfl (.nil _)), hkept, hnone, fun hshows => ?_⟩
  obtain ⟨routes, hperm, htable⟩ := hshows 443
  rw [hnone] at hperm
  rw [htable, perm_nil.1 hperm] at hkept
  revert hkept
  decide +kernel

end GlobalTlsRouteManagers

end Edgion.Tls
