import Edgion.Tcp.RouteManager

/-!
# TCP routes — what the tables have

A table the map leads to has the routes of its Gateway's listeners
(`Right`). A change of single routes keeps that, and it drops no table
(`Keeps`). A full set makes every table anew, and the tables it drops from
the map are empty and stay empty (`Orphan`).
-/

namespace Edgion.Tcp

open Common Hostname List Option AList Function

universe u

variable {Rules : Type u}

/-! ## What the map and the tables have to do with each other -/

namespace TcpRouteManager

/-- **The tables are right**, but for the pairs that are still to be made
anew. -/
structure Right (m : TcpRouteManager Rules) (pending : String × String → Prop) : Prop where
  injective : ∀ g g' address, m.gatewayTcpRoutesMap.lookup g = some address →
    m.gatewayTcpRoutesMap.lookup g' = some address → g = g'
  fresh : ∀ g address, m.gatewayTcpRoutesMap.lookup g = some address → address < m.next
  listed : ∀ g l address, ¬ pending (g, l) → m.gatewayTcpRoutesMap.lookup g = some address →
    ((m.tables address).getRoutesForListener l).Perm (bucket routeItems m.routesByKey (g, l))
  unlisted : ∀ g l, ¬ pending (g, l) → m.gatewayTcpRoutesMap.lookup g = none →
    bucket routeItems m.routesByKey (g, l) = []

variable {m : TcpRouteManager Rules} {pending pending' : String × String → Prop} {g g' : String}

/-- More may be pending. -/
theorem Right.mono (h : m.Right pending) (hle : ∀ p, pending p → pending' p) : m.Right pending' :=
  { h with
    listed := fun g l address hnot => h.listed g l address fun hp => hnot (hle _ hp)
    unlisted := fun g l hnot => h.unlisted g l fun hp => hnot (hle _ hp) }

variable {routes : AList fun _ : String => TCPRoute Rules} {address : ℕ} {removed : List String}
variable {contents : GatewayTcpRoutes Rules → GatewayTcpRoutes Rules} {route : TCPRoute Rules}
variable {pairs : List (String × String)} {key : String}

/-- **The routes may change**, if the pairs whose routes change are pending. -/
theorem Right.changeRoutes (h : m.Right pending) (hle : ∀ p, pending p → pending' p)
    (hsame : ∀ p, ¬ pending' p →
      (bucket routeItems m.routesByKey p).Perm (bucket routeItems routes p)) :
    ({ m with routesByKey := routes } : TcpRouteManager Rules).Right pending' where
  injective := h.injective
  fresh := h.fresh
  listed g l address hnot hget :=
    (h.listed g l address (fun hp => hnot (hle _ hp)) hget).trans (hsame _ hnot)
  unlisted g l hnot hget := by
    have hempty := h.unlisted g l (fun hp => hnot (hle _ hp)) hget
    have hperm := hsame (g, l) hnot
    rw [hempty] at hperm
    exact nil_perm.1 hperm

/-! ## One table -/

/-- The address is the one the map leads to afterwards. -/
theorem lookup_getOrCreate :
    (m.getOrCreate g).2.gatewayTcpRoutesMap.lookup g = some (m.getOrCreate g).1 := by
  unfold getOrCreate
  split
  · assumption
  · exact lookup_insert _

/-- The map leads elsewhere as before. -/
theorem lookup_getOrCreate_of_ne (hne : g' ≠ g) :
    (m.getOrCreate g).2.gatewayTcpRoutesMap.lookup g' = m.gatewayTcpRoutesMap.lookup g' := by
  unfold getOrCreate
  split
  · rfl
  · exact lookup_insert_ne hne

/-- What the map leads to stays. -/
theorem lookup_getOrCreate_of_some (h : m.gatewayTcpRoutesMap.lookup g' = some address) :
    (m.getOrCreate g).2.gatewayTcpRoutesMap.lookup g' = some address := by
  by_cases hne : g' = g
  · subst hne
    rw [lookup_getOrCreate]
    simp [getOrCreate, h]
  · rw [lookup_getOrCreate_of_ne hne]
    exact h

@[simp] theorem routesByKey_getOrCreate : (m.getOrCreate g).2.routesByKey = m.routesByKey := by
  unfold getOrCreate
  split <;> rfl

/-- **A new table is right**, since a Gateway without one has no routes. -/
theorem Right.getOrCreate (h : m.Right pending) (g : String) :
    (m.getOrCreate g).2.Right pending := by
  unfold TcpRouteManager.getOrCreate
  split
  · exact h
  next hnone =>
  -- no Gateway has the address that is given out
  have hnew : ∀ g', m.gatewayTcpRoutesMap.lookup g' ≠ some m.next := by
    intro g' hget
    have hlt := h.fresh g' m.next hget
    omega
  refine ⟨fun g1 g2 address h1 h2 => ?_, fun g' address hget => ?_,
    fun g' l address hnot hget => ?_, fun g' l hnot hget => ?_⟩
  · rcases lookup_insert_eq_some_iff.1 h1 with ⟨rfl, rfl⟩ | ⟨-, hold1⟩ <;>
      rcases lookup_insert_eq_some_iff.1 h2 with ⟨rfl, hnext⟩ | ⟨-, hold2⟩
    · rfl
    · exact absurd hold2 (hnew g2)
    · exact absurd (hnext ▸ hold1) (hnew g1)
    · exact h.injective g1 g2 address hold1 hold2
  · rcases lookup_insert_eq_some_iff.1 hget with ⟨-, rfl⟩ | ⟨-, hget⟩
    · exact Nat.lt_succ_self _
    · have hlt := h.fresh g' address hget
      dsimp only
      omega
  · rcases lookup_insert_eq_some_iff.1 hget with ⟨rfl, rfl⟩ | ⟨-, hget⟩
    · dsimp only
      rw [update_self, h.unlisted g' l hnot hnone]
      exact Perm.refl _
    · have hne : address ≠ m.next := fun heq => hnew g' (heq ▸ hget)
      dsimp only
      rw [update_of_ne hne]
      exact h.listed g' l address hnot hget
  · have hne : g' ≠ g := by
      rintro rfl
      rw [lookup_insert] at hget
      cases hget
    rw [lookup_insert_ne hne] at hget
    exact h.unlisted g' l hnot hget

@[simp] theorem routesByKey_store : (m.store g contents).routesByKey = m.routesByKey :=
  routesByKey_getOrCreate

/-- **New contents in one table**: what is pending may change at its Gateway, as
far as the new contents are right. -/
theorem Right.store (h : m.Right pending)
    (hothers : ∀ g' l, g' ≠ g → pending (g', l) → pending' (g', l))
    (hhere : ∀ table : GatewayTcpRoutes Rules, (∀ l, ¬ pending (g, l) →
        (table.getRoutesForListener l).Perm (bucket routeItems m.routesByKey (g, l))) →
      ∀ l, ¬ pending' (g, l) →
        ((contents table).getRoutesForListener l).Perm (bucket routeItems m.routesByKey (g, l))) :
    (m.store g contents).Right pending' := by
  have hright := h.getOrCreate g
  have hself := lookup_getOrCreate (m := m) (g := g)
  unfold TcpRouteManager.store
  generalize hm : m.getOrCreate g = created at hright hself
  have hroutes : created.2.routesByKey = m.routesByKey := by
    rw [← hm]
    exact routesByKey_getOrCreate
  refine ⟨hright.injective, hright.fresh, fun g' l address hnot hget => ?_,
    fun g' l hnot hget => ?_⟩
  · by_cases hne : g' = g
    · subst hne
      obtain rfl : created.1 = address := some.inj (hself.symm.trans hget)
      dsimp only
      rw [update_self, hroutes]
      refine hhere _ (fun l' hnot' => ?_) l hnot
      rw [← hroutes]
      exact hright.listed g' l' _ hnot' hself
    · have haddr : address ≠ created.1 := fun heq =>
        hne (hright.injective g' g address hget (heq ▸ hself))
      dsimp only
      rw [update_of_ne haddr]
      exact hright.listed g' l address (fun hp => hnot (hothers g' l hne hp)) hget
  · have hne : g' ≠ g := by
      rintro rfl
      rw [hself] at hget
      cases hget
    exact hright.unlisted g' l (fun hp => hnot (hothers g' l hne hp)) hget

open GatewayTcpRoutes

theorem getRoutesForListener_entry (routes : List (TCPRoute Rules)) :
    (entry routes).getD [] = routes := by
  cases routes <;> rfl

/-! ## Incremental rebuilds -/

/-- **An orphan**: a table that was given out and that the map no longer leads
to. It is empty. -/
structure Orphan (m : TcpRouteManager Rules) (address : ℕ) : Prop where
  givenOut : address < m.next
  dropped : ∀ g, m.gatewayTcpRoutesMap.lookup g ≠ some address
  empty : m.tables address = .new

/-- **A change that drops nothing.** -/
structure Keeps (m m' : TcpRouteManager Rules) : Prop where
  led : ∀ g address, m.gatewayTcpRoutesMap.lookup g = some address →
    m'.gatewayTcpRoutesMap.lookup g = some address
  orphaned : ∀ address, m.Orphan address → m'.Orphan address

theorem Keeps.refl : m.Keeps m :=
  ⟨fun _ _ h => h, fun _ h => h⟩

theorem Keeps.trans {m1 m2 m3 : TcpRouteManager Rules} (h : m1.Keeps m2) (h' : m2.Keeps m3) :
    m1.Keeps m3 where
  led g address hget := h'.led g address (h.led g address hget)
  orphaned address horphan := h'.orphaned address (h.orphaned address horphan)

/-- A run of changes that drop nothing drops nothing. -/
theorem keeps_foldl {α : Type*} {f : TcpRouteManager Rules → α → TcpRouteManager Rules}
    (hf : ∀ {m a}, Keeps m (f m a)) (l : List α) : m.Keeps (l.foldl f m) :=
  foldlRecOn l f Keeps.refl fun _ h _ _ => h.trans hf

theorem keeps_getOrCreate : m.Keeps (m.getOrCreate g).2 := by
  refine ⟨fun g' address h => lookup_getOrCreate_of_some h, fun address h => ?_⟩
  unfold getOrCreate
  split
  · exact h
  · have hne : address ≠ m.next := Nat.ne_of_lt h.givenOut
    refine ⟨Nat.lt_succ_of_lt h.givenOut, fun g' hget => ?_, ?_⟩
    · rcases lookup_insert_eq_some_iff.1 hget with ⟨-, heq⟩ | ⟨-, hget⟩
      · exact hne heq
      · exact h.dropped g' hget
    · exact (update_of_ne hne _ _).trans h.empty

theorem keeps_store : m.Keeps (m.store g contents) := by
  have hkeeps := keeps_getOrCreate (m := m) (g := g)
  refine ⟨hkeeps.led, fun address h => ?_⟩
  have horphan := hkeeps.orphaned address h
  refine ⟨horphan.givenOut, horphan.dropped, ?_⟩
  -- the table that is written is one the map leads to
  have hne : address ≠ (m.getOrCreate g).1 := by
    rintro rfl
    exact horphan.dropped g lookup_getOrCreate
  exact (update_of_ne hne _ _).trans horphan.empty

/-- Skipping keys that are not there skips nothing. -/
theorem bucket_skip
    (hrem : ∀ key ∈ removed, routes.lookup key = none) (pair : String × String) :
    bucket (fun key route pair => if key ∈ removed then [] else routeItems key route pair) routes
      pair = bucket routeItems routes pair := by
  refine flatMap_congr fun e he => ?_
  have hget : routes.lookup e.1 = some e.2 := mem_lookup_iff.2 he
  have hnot : e.1 ∉ removed := by
    intro hmem
    rw [hrem e.1 hmem] at hget
    cases hget
  exact if_neg hnot

/-- **One Gateway's listeners are made anew.** -/
theorem Right.rebuildIncremental (h : m.Right pending) {listeners : List String}
    (hrem : ∀ key ∈ removed, m.routesByKey.lookup key = none)
    (hpend : ∀ g' l, pending (g', l) → pending' (g', l) ∨ (g' = g ∧ l ∈ listeners)) :
    (m.rebuildGatewayListenersIncremental g listeners removed).Right pending' := by
  refine Right.store h (fun g' l hne hp => ?_) fun table htable l hnot => ?_
  · exact (hpend g' l hp).resolve_right fun hthere => hne hthere.1
  · unfold updateListenersIncremental getRoutesForListener
    dsimp only
    by_cases hl : l ∈ listeners
    · rw [if_pos hl, getRoutesForListener_entry, bucket_skip hrem]
    · rw [if_neg hl]
      refine htable l fun hp => ?_
      rcases hpend g l hp with hp | hthere
      · exact hnot hp
      · exact hl hthere.2

/-- The listeners of several Gateways are made anew, one Gateway after the
other. -/
theorem Right.foldl_rebuild (todo : List String) :
    ∀ m : TcpRouteManager Rules, (∀ key ∈ removed, m.routesByKey.lookup key = none) →
      m.Right (fun p => p ∈ pairs ∧ p.1 ∈ todo) →
      (todo.foldl (fun m gatewayKey => m.rebuildGatewayListenersIncremental gatewayKey
        ((pairs.filter fun pair => pair.1 = gatewayKey).map Prod.snd) removed) m).Right
          (fun _ => False) := by
  induction todo with
  | nil =>
    intro m _ h
    exact h.mono fun p hp => by cases hp.2
  | cons g todo ih =>
    intro m hrem h
    rw [foldl_cons]
    refine ih _ (fun key hkey => ?_) (h.rebuildIncremental hrem fun g' l hp => ?_)
    · rw [rebuildGatewayListenersIncremental, routesByKey_store]
      exact hrem key hkey
    · obtain ⟨hmem, htodo⟩ := hp
      rcases mem_cons.1 htodo with hhead | htail
      · right
        refine ⟨hhead, mem_map.2 ⟨(g', l), mem_filter.2 ⟨hmem, ?_⟩, rfl⟩⟩
        simpa using hhead
      · exact .inl ⟨hmem, htail⟩

theorem Right.rebuildAffected
    (h : m.Right (· ∈ pairs)) (hrem : ∀ key ∈ removed, m.routesByKey.lookup key = none) :
    (m.rebuildAffected pairs removed).Right (fun _ => False) := by
  refine Right.foldl_rebuild _ m hrem (h.mono fun p hp => ⟨hp, ?_⟩)
  exact mem_dedup.2 (mem_map_of_mem hp)

theorem routesByKey_rebuildAffected : (m.rebuildAffected pairs removed).routesByKey = m.routesByKey := by
  unfold rebuildAffected
  generalize (pairs.map Prod.fst).dedup = todo
  induction todo generalizing m with
  | nil => rfl
  | cons g todo ih =>
    rw [foldl_cons, ih, rebuildGatewayListenersIncremental, routesByKey_store]

theorem keeps_rebuildAffected : m.Keeps (m.rebuildAffected pairs removed) :=
  keeps_foldl keeps_store _

/-! ## Single routes -/

@[simp] theorem routesByKey_addRoute :
    (m.addRoute route).routesByKey = m.routesByKey.insert route.keyName route :=
  routesByKey_rebuildAffected

@[simp] theorem routesByKey_removeRoute :
    (m.removeRoute key).routesByKey = m.routesByKey.erase key :=
  routesByKey_rebuildAffected

/-- The routes may change: the tables stay. -/
theorem keeps_changeRoutes : m.Keeps { m with routesByKey := routes } where
  led _ _ h := h
  orphaned _ h := ⟨h.givenOut, h.dropped, h.empty⟩

theorem keeps_addRoute : m.Keeps (m.addRoute route) :=
  keeps_changeRoutes.trans keeps_rebuildAffected

theorem keeps_removeRoute : m.Keeps (m.removeRoute key) :=
  keeps_changeRoutes.trans keeps_rebuildAffected

/-- **Adding a route under a new key keeps the tables right.** -/
theorem Right.addRoute (h : m.Right fun _ => False)
    (hnew : m.routesByKey.lookup route.keyName = none) :
    (m.addRoute route).Right fun _ => False := by
  refine Right.rebuildAffected (h.changeRoutes (fun _ hp => hp.elim) fun p hp => ?_)
    fun _ hkey => absurd hkey not_mem_nil
  refine ((SameIn.refl m.routesByKey).insert (fun v hv => ?_) (if_neg hp)).perm
  rw [hnew] at hv
  cases hv

/-- **Removing a route keeps the tables right.** -/
theorem Right.removeRoute (h : m.Right fun _ => False) (resourceKey : String) :
    (m.removeRoute resourceKey).Right fun _ => False := by
  refine Right.rebuildAffected (h.changeRoutes (fun _ hp => hp.elim) fun p hp => ?_)
    fun key hkey => ?_
  · refine ((SameIn.refl m.routesByKey).erase fun v hv => ?_).perm
    rw [hv] at hp
    exact if_neg hp
  · rw [mem_singleton.1 hkey]
    exact lookup_erase _ _

/-! ## Calls -/

section Calls

variable (initRules : TCPRoute Rules → Rules)
variable {data add update : AList fun _ : String => TCPRoute Rules} {remove : List String}

/-- The routes of a map are stored under their own names. -/
def Keyed (routes : AList fun _ : String => TCPRoute Rules) : Prop :=
  ∀ e ∈ routes.entries, e.2.keyName = e.1

/-- The routes after calls that each put a route in place. -/
theorem routesByKey_foldl {entries : List ((_ : String) × TCPRoute Rules)}
    {f : TcpRouteManager Rules → ((_ : String) × TCPRoute Rules) → TcpRouteManager Rules}
    (hf : ∀ m, ∀ e ∈ entries,
      (f m e).routesByKey = m.routesByKey.insert e.1 (initializeRoute initRules e.2)) :
    ∀ m : TcpRouteManager Rules, (entries.foldl f m).routesByKey =
      entries.foldl (fun acc e => acc.insert e.1 (initializeRoute initRules e.2))
        m.routesByKey := by
  induction entries with
  | nil => exact fun m => rfl
  | cons e entries ih =>
    intro m
    rw [foldl_cons, foldl_cons, ih fun m e' he' => hf m e' (mem_cons_of_mem e he'),
      hf m e mem_cons_self]

theorem insert_erase (routes : AList fun _ : String => TCPRoute Rules) (key : String)
    (route : TCPRoute Rules) : (routes.erase key).insert key route = routes.insert key route := by
  apply AList.ext
  rw [entries_insert, entries_insert]
  delta erase
  rw [kerase_of_notMem_keys (notMem_keys_kerase key routes.nodupKeys)]

/-- A map after steps that each erase a key. -/
theorem lookup_foldl_erase {S V : Type*} {f : S → String → S} {map : S → AList fun _ : String => V}
    (hf : ∀ s k, map (f s k) = (map s).erase k) (keys : List String) (s : S) :
    (map (keys.foldl f s)).lookup key = if key ∈ keys then none else (map s).lookup key := by
  induction keys generalizing s with
  | nil => rfl
  | cons k keys ih =>
    rw [foldl_cons, ih, hf]
    by_cases hk : key = k
    · subst hk
      simp
    · simp [hk]

/-- **The routes after a partial update.** -/
theorem lookup_partialUpdate (hadd : Keyed add) (hupd : Keyed update) :
    (m.partialUpdate initRules add update remove).routesByKey.lookup key =
      if key ∈ remove then none
      else (((update.lookup key).or (add.lookup key)).map (initializeRoute initRules)).or
        (m.routesByKey.lookup key) := by
  unfold partialUpdate
  have hadded (m : TcpRouteManager Rules) {e : (_ : String) × TCPRoute Rules}
      (he : e.2.keyName = e.1) : (m.addRoute (initializeRoute initRules e.2)).routesByKey =
        m.routesByKey.insert e.1 (initializeRoute initRules e.2) := by
    rw [routesByKey_addRoute]
    exact congrArg (m.routesByKey.insert · _) he
  have hupdated (m : TcpRouteManager Rules) (e) (he : e ∈ update.entries) :
      ((m.removeRoute e.1).addRoute (initializeRoute initRules e.2)).routesByKey =
        m.routesByKey.insert e.1 (initializeRoute initRules e.2) := by
    rw [hadded _ (hupd e he), routesByKey_removeRoute, insert_erase]
  rw [lookup_foldl_erase fun _ _ => routesByKey_removeRoute, routesByKey_foldl initRules hupdated,
    lookup_foldl_insert _ _ update.nodupKeys,
    routesByKey_foldl initRules fun m e he => hadded m (hadd e he),
    lookup_foldl_insert _ _ add.nodupKeys]
  rw [Option.map_or, Option.or_assoc]
  rfl

theorem keeps_partialUpdate : m.Keeps (m.partialUpdate initRules add update remove) :=
  ((keeps_foldl keeps_addRoute _).trans
    (keeps_foldl (keeps_removeRoute.trans keeps_addRoute) _)).trans (keeps_foldl keeps_removeRoute _)

theorem Right.foldl_addRoute (entries : List ((_ : String) × TCPRoute Rules))
    (hnodup : entries.NodupKeys) (hkeyed : ∀ e ∈ entries, e.2.keyName = e.1) :
    ∀ m : TcpRouteManager Rules, m.Right (fun _ => False) →
      (∀ e ∈ entries, m.routesByKey.lookup e.1 = none) →
      (entries.foldl (fun m e => m.addRoute (initializeRoute initRules e.2)) m).Right
        fun _ => False := by
  induction entries with
  | nil => exact fun m h _ => h
  | cons e entries ih =>
    intro m h hnew
    obtain ⟨hfresh, hnodup⟩ := nodupKeys_cons.1 hnodup
    have hhead : (initializeRoute initRules e.2).keyName = e.1 := hkeyed e mem_cons_self
    have hkeyed' : ∀ e' ∈ entries, e'.2.keyName = e'.1 :=
      fun e' he' => hkeyed e' (mem_cons_of_mem e he')
    refine ih hnodup hkeyed' _ (h.addRoute ?_) fun e' he' => ?_
    · rw [hhead]
      exact hnew e mem_cons_self
    · -- the other keys are still new
      have hne : e'.1 ≠ e.1 := fun heq => hfresh (heq ▸ mem_keys_of_mem he')
      rw [routesByKey_addRoute, hhead, lookup_insert_ne hne]
      exact hnew e' (mem_cons_of_mem e he')

/-- **A partial update keeps the tables right.** -/
theorem Right.partialUpdate (h : m.Right fun _ => False) (hadd : Keyed add) (hupd : Keyed update)
    (hnew : ∀ e ∈ add.entries, m.routesByKey.lookup e.1 = none) :
    (m.partialUpdate initRules add update remove).Right fun _ => False := by
  have hadded := Right.foldl_addRoute initRules _ add.nodupKeys hadd m h hnew
  refine foldlRecOn (motive := (Right · _)) remove _ ?_ fun _ h key _ => h.removeRoute key
  refine foldlRecOn (motive := (Right · _)) _ _ hadded fun m h e he =>
    (h.removeRoute e.1).addRoute ?_
  rw [routesByKey_removeRoute, show (initializeRoute initRules e.2).keyName = e.1 from hupd e he]
  exact lookup_erase _ _

/-! ## Full sets -/

/-- A Gateway without routes has none for any listener. -/
theorem bucket_of_notMem_gateways
    (hnot : g ∉ gateways routes) (l : String) : bucket routeItems routes (g, l) = [] := by
  refine flatMap_eq_nil_iff.2 fun e he => if_neg fun hpair => hnot ?_
  exact mem_dedup.2 (mem_flatMap.2 ⟨e, he, mem_map_of_mem hpair⟩)

/-- The tables of several Gateways are made anew. -/
theorem Right.foldl_store (todo : List String) :
    ∀ (m : TcpRouteManager Rules) (pending : String × String → Prop), m.Right pending →
      (todo.foldl (fun m gatewayKey => m.store gatewayKey fun _ listenerName =>
        entry (bucket routeItems m.routesByKey (gatewayKey, listenerName))) m).Right
          fun p => pending p ∧ p.1 ∉ todo := by
  induction todo with
  | nil => exact fun m pending h => h.mono fun p hp => ⟨hp, not_mem_nil⟩
  | cons g todo ih =>
    intro m pending h
    rw [foldl_cons]
    have hstored : (m.store g fun _ listenerName =>
        entry (bucket routeItems m.routesByKey (g, listenerName))).Right
          fun p => pending p ∧ p.1 ≠ g := by
      refine Right.store h (fun g' l hne hp => ⟨hp, hne⟩) fun table _ l _ => ?_
      unfold getRoutesForListener
      dsimp only
      rw [getRoutesForListener_entry]
    refine (ih _ _ hstored).mono fun p hp => ⟨hp.1.1, ?_⟩
    rintro (_ | ⟨_, htail⟩)
    · exact hp.1.2 rfl
    · exact hp.2 htail

variable {kept : List String}

/-- A table of a Gateway with pending listeners only may be dropped. -/
theorem Right.dropStale (h : m.Right fun p => p.1 ∉ kept) (hg : g ∉ kept) :
    (m.dropStale g).Right fun p => p.1 ∉ kept := by
  refine ⟨fun g1 g2 address h1 h2 => ?_, fun g' address hget => ?_,
    fun g' l address hnot hget => ?_, fun g' l hnot hget => ?_⟩
  · exact h.injective g1 g2 address (lookup_erase_eq_some_iff.1 h1).2 (lookup_erase_eq_some_iff.1 h2).2
  · exact h.fresh g' address (lookup_erase_eq_some_iff.1 hget).2
  · obtain ⟨hne, hold⟩ := lookup_erase_eq_some_iff.1 hget
    have hlisted := h.listed g' l address hnot hold
    unfold TcpRouteManager.dropStale
    dsimp only
    cases hdrop : m.gatewayTcpRoutesMap.lookup g with
    | none => exact hlisted
    | some dropped =>
      have haddr : address ≠ dropped := by
        rintro rfl
        exact hne (h.injective g' g address hold hdrop)
      dsimp only
      rw [update_of_ne haddr]
      exact hlisted
  · have hne : g' ≠ g := fun heq => hnot (heq ▸ hg)
    have hlookup' : (m.gatewayTcpRoutesMap.erase g).lookup g' = none := hget
    rw [lookup_erase_ne hne] at hlookup'
    exact h.unlisted g' l hnot hlookup'

@[simp] theorem routesByKey_foldl_dropStale (stale : List String) :
    (stale.foldl dropStale m).routesByKey = m.routesByKey :=
  foldlRecOn (motive := (routesByKey · = m.routesByKey)) stale _ rfl fun _ h _ _ => h

theorem Orphan.dropStale (h : m.Orphan address) (g : String) : (m.dropStale g).Orphan address := by
  refine ⟨h.givenOut, fun g' hget => h.dropped g' (lookup_erase_eq_some_iff.1 hget).2, ?_⟩
  unfold TcpRouteManager.dropStale
  dsimp only
  cases hdrop : m.gatewayTcpRoutesMap.lookup g with
  | none => exact h.empty
  | some dropped =>
    have hne : address ≠ dropped := by
      rintro rfl
      exact h.dropped g hdrop
    exact (update_of_ne hne _ _).trans h.empty

theorem Orphan.foldl_dropStale (stale : List String) (h : m.Orphan address) :
    (stale.foldl TcpRouteManager.dropStale m).Orphan address :=
  foldlRecOn (motive := (Orphan · _)) stale _ h fun _ h g _ => h.dropStale g

/-- **A dropped table is an orphan**: it is emptied first. -/
theorem Right.orphan_dropStale (h : m.Right pending)
    (hget : m.gatewayTcpRoutesMap.lookup g = some address) :
    (m.dropStale g).Orphan address := by
  refine ⟨h.fresh g address hget, fun g' hlookup' => ?_, ?_⟩
  · obtain ⟨hne, hled⟩ := lookup_erase_eq_some_iff.1 hlookup'
    exact hne (h.injective g' g address hled hget)
  · unfold TcpRouteManager.dropStale
    rw [hget]
    exact update_self _ _ _

theorem Right.orphan_foldl_dropStale (stale : List String)
    (hstale : ∀ g ∈ stale, g ∉ kept) (hg : g ∈ stale) :
    ∀ m : TcpRouteManager Rules, m.Right (fun p => p.1 ∉ kept) →
      m.gatewayTcpRoutesMap.lookup g = some address →
      (stale.foldl TcpRouteManager.dropStale m).Orphan address := by
  induction stale with
  | nil => cases hg
  | cons g' stale ih =>
    intro m h hget
    rw [foldl_cons]
    by_cases heq : g = g'
    · subst heq
      exact Orphan.foldl_dropStale stale (h.orphan_dropStale hget)
    · have htail : g ∈ stale := (mem_cons.1 hg).resolve_left heq
      refine ih (fun k hk => hstale k (mem_cons_of_mem g' hk)) htail _
        (h.dropStale (hstale g' mem_cons_self)) ?_
      have hother : (m.gatewayTcpRoutesMap.erase g').lookup g = m.gatewayTcpRoutesMap.lookup g :=
        lookup_erase_ne heq
      exact hother.trans hget

/-- The tables once the routes of all Gateways are in, before any is dropped. -/
def rebuilt (m : TcpRouteManager Rules) : TcpRouteManager Rules :=
  (gateways m.routesByKey).foldl (fun m gatewayKey => m.store gatewayKey fun _ listenerName =>
    entry (bucket routeItems m.routesByKey (gatewayKey, listenerName))) m

/-- The Gateways whose tables are dropped. -/
def stale (m : TcpRouteManager Rules) : List String :=
  m.rebuilt.gatewayTcpRoutesMap.keys.filter fun key => key ∉ gateways m.routesByKey

theorem rebuildGatewayRoutesMap_eq :
    m.rebuildGatewayRoutesMap = m.stale.foldl dropStale m.rebuilt := rfl

theorem notMem_gateways_of_mem_stale (hg : g ∈ m.stale) : g ∉ gateways m.routesByKey := by
  simpa using (mem_filter.1 hg).2

theorem mem_stale (hget : m.rebuilt.gatewayTcpRoutesMap.lookup g = some address)
    (hg : g ∉ gateways m.routesByKey) : g ∈ m.stale := by
  refine mem_filter.2 ⟨?_, by simpa using hg⟩
  exact mem_keys.2 (lookup_isSome.1 (by rw [hget]; rfl))

theorem keeps_rebuilt : m.Keeps m.rebuilt := keeps_foldl keeps_store _

theorem Right.rebuilt (h : m.Right pending) :
    m.rebuilt.Right fun p => p.1 ∉ gateways m.routesByKey :=
  (Right.foldl_store _ m pending h).mono fun _ hp => hp.2

@[simp] theorem routesByKey_rebuilt : m.rebuilt.routesByKey = m.routesByKey :=
  foldlRecOn (motive := (routesByKey · = m.routesByKey)) _ _ rfl
    fun _ h _ _ => routesByKey_store.trans h

@[simp] theorem routesByKey_rebuildGatewayRoutesMap :
    m.rebuildGatewayRoutesMap.routesByKey = m.routesByKey := by
  rw [rebuildGatewayRoutesMap_eq, routesByKey_foldl_dropStale, routesByKey_rebuilt]

/-- **A full set makes every table right**, whatever was pending. -/
theorem Right.rebuildGatewayRoutesMap (h : m.Right pending) :
    m.rebuildGatewayRoutesMap.Right fun _ => False := by
  have hdrop : m.rebuildGatewayRoutesMap.Right fun p => p.1 ∉ gateways m.routesByKey :=
    foldlRecOn (motive := (Right · _)) m.stale _ h.rebuilt fun _ h g hg =>
      h.dropStale (notMem_gateways_of_mem_stale hg)
  -- a Gateway without routes is not in the map any more
  have hout : ∀ g, g ∉ gateways m.routesByKey →
      m.rebuildGatewayRoutesMap.gatewayTcpRoutesMap.lookup g = none := by
    intro g hg
    rw [rebuildGatewayRoutesMap_eq, lookup_foldl_erase fun _ _ => rfl]
    split
    · rfl
    next hnot =>
    refine eq_none_iff_forall_ne_some.2 fun address hget => ?_
    exact hnot (mem_stale hget hg)
  refine ⟨hdrop.injective, hdrop.fresh, fun g l address _ hget => ?_,
    fun g l _ hget => ?_⟩
  · refine hdrop.listed g l address (fun hg => ?_) hget
    rw [hout g hg] at hget
    cases hget
  · by_cases hg : g ∈ gateways m.routesByKey
    · exact hdrop.unlisted g l (fun hnot => hnot hg) hget
    · rw [routesByKey_rebuildGatewayRoutesMap]
      exact bucket_of_notMem_gateways hg l

/-- A Gateway with routes keeps its table. -/
theorem lookup_rebuildGatewayRoutesMap
    (hget : m.gatewayTcpRoutesMap.lookup g = some address) (hg : g ∈ gateways m.routesByKey) :
    m.rebuildGatewayRoutesMap.gatewayTcpRoutesMap.lookup g = some address := by
  have hnot : g ∉ m.stale := fun hstale => notMem_gateways_of_mem_stale hstale hg
  rw [rebuildGatewayRoutesMap_eq, lookup_foldl_erase fun _ _ => rfl, if_neg hnot]
  exact keeps_rebuilt.led g address hget

/-- A Gateway without routes loses its table. -/
theorem Right.orphan_rebuildGatewayRoutesMap (h : m.Right pending)
    (hget : m.gatewayTcpRoutesMap.lookup g = some address) (hg : g ∉ gateways m.routesByKey) :
    m.rebuildGatewayRoutesMap.Orphan address := by
  have hkept := keeps_rebuilt.led g address hget
  exact Right.orphan_foldl_dropStale m.stale (fun g => notMem_gateways_of_mem_stale)
    (mem_stale hkept hg) _ h.rebuilt hkept

theorem Orphan.rebuildGatewayRoutesMap (h : m.Orphan address) :
    m.rebuildGatewayRoutesMap.Orphan address :=
  Orphan.foldl_dropStale m.stale (keeps_rebuilt.orphaned address h)

/-- **The routes after a full set.** -/
theorem lookup_fullSet : (m.fullSet initRules data).routesByKey.lookup key =
      (data.lookup key).map (initializeRoute initRules) := by
  unfold fullSet replaceAll
  rw [routesByKey_rebuildGatewayRoutesMap]
  dsimp only
  rw [lookup_insertAll, lookup_insertAll, Option.map_id]
  rfl

/-- **A full set makes the tables right.** -/
theorem Right.fullSet (h : m.Right pending) : (m.fullSet initRules data).Right fun _ => False := by
  have hchanged : ({ m with
      routesByKey := insertAll id (insertAll (initializeRoute initRules) data) } :
        TcpRouteManager Rules).Right fun _ => True :=
    h.changeRoutes (fun _ _ => trivial) fun _ hnot => absurd trivial hnot
  exact hchanged.rebuildGatewayRoutesMap

end Calls

end TcpRouteManager

end Edgion.Tcp
