import Edgion.GatewayApi.Status

/-!
# Gateway API — the handler of Gateways

`GatewayHandler`: it fills the secrets of the certificates into the
listeners and registers references and ports (`parse`), reports
conditions (`update_status`), requeues the Gateways it conflicts with
and the routes that name it (`on_change`), and takes its registrations
back (`on_delete`).

The tables are keyed by strings, and not by the same ones: `parse` and
`on_delete` use `ResourceRef::key`, with the kind in front, where
`on_change` and `update_status` write namespace and name.
-/

namespace Edgion.GatewayApi

open Controller (KubeObject SameName HandlerContext ProcessResult ProcessorHandler Requeue)

/-! ## What handlers share -/

/-- What the handlers of all kinds read and write. `requeued` lists, oldest
first, what they have asked the registry to enqueue. -/
structure World where
  secrets : SecretStore
  grants : ReferenceGrantStore
  grantValidation : Bool
  namespaces : NamespaceStore
  secretRefs : RefManager
  crossNsRefs : RefManager
  ports : ListenerPortManager
  routeIndex : GatewayRouteIndex
  tracker : AttachedRouteTracker
  requeued : List Requeue

def World.requeue (w : World) (ctx : HandlerContext) (kind key : String) : World :=
  { w with requeued := w.requeued ++ ctx.requeue kind key }

/-- Requeue several. -/
def World.requeueAll (w : World) (ctx : HandlerContext) (targets : List (String × String)) :
    World :=
  targets.foldl (fun w target => w.requeue ctx target.1 target.2) w

/-- Before the first event. -/
def World.new (grantValidation : Bool) : World where
  secrets := fun _ => none
  grants := .new
  grantValidation
  namespaces := fun _ => none
  secretRefs := .empty
  crossNsRefs := .empty
  ports := .empty
  routeIndex := .new
  tracker := fun _ => none
  requeued := []

/-- The text stands for the JSON of the status. -/
instance : KubeObject Gateway where
  ns := Gateway.ns
  nameAny g := g.name.getD ""
  name := Gateway.name
  extractStatusJson g :=
    match g.status with
    | some status => .present (reprStr status)
    | none => .empty
  cleanMetadata _ g := g
  cleanMetadata_ns _ _ := rfl
  cleanMetadata_name _ _ := rfl
  cleanMetadata_nameAny _ _ := rfl

namespace GatewayHandler

def filter (gatewayClassName : Option String) (g : Gateway) : Bool :=
  match gatewayClassName with
  | some className => g.gatewayClassName = className
  | none => true

variable (g : Gateway)

/-- The reference to a Gateway. -/
def resourceRef : ResourceRef := ⟨.gateway, g.ns, g.name.getD ""⟩

/-- The key `on_change` and `update_status` make. -/
def gatewayKey : String := g.ns.getD "" ++ "/" ++ g.name.getD ""

/-! ## `parse` -/

variable (listeners : List Listener)

/-- The listeners as they are registered: name and port key. -/
def listenerPorts : List (String × String) :=
  listeners.map fun l => (l.name, makePortKey l.port l.protocol l.hostname)

/-- The namespace a certificate reference is looked up in. -/
def secretNs (certRef : SecretObjectReference) : Option String := certRef.ns.or g.ns

variable (secrets : SecretStore)

/-- What the loop over the certificate references resolves. -/
def resolvedSecrets (g : Gateway)
    (certRefs : List SecretObjectReference) : List Secret :=
  certRefs.filterMap fun certRef => getSecret secrets (secretNs g certRef) certRef.name

/-- What that loop registers. -/
def registerCertRef (w : World) (certRef : SecretObjectReference) : World :=
  let certNs := (secretNs g certRef).getD ""
  { w with
    secretRefs :=
      w.secretRefs.addRef (formatSecretKey (secretNs g certRef) certRef.name) (resourceRef g)
    crossNsRefs :=
      if certNs ≠ g.ns.getD "" then w.crossNsRefs.addRef certNs (resourceRef g)
      else w.crossNsRefs }

/-- A listener with its secrets filled in. -/
def fillSecrets (g : Gateway) (l : Listener) : Listener :=
  match l.tls with
  | none => l
  | some tls =>
    match resolvedSecrets secrets g (tls.certificateRefs.getD []) with
    | [] => l
    | resolved => { l with tls := some { tls with secrets := some resolved } }

/-- The certificate references of all listeners. -/
def certRefs : List SecretObjectReference :=
  listeners.flatMap fun l => (l.tls.bind GatewayTlsConfig.certificateRefs).getD []

def parse (w : World) (g : Gateway) : Gateway × World :=
  let w := { w with
    secretRefs := w.secretRefs.clearValueRefs (resourceRef g)
    crossNsRefs := w.crossNsRefs.clearValueRefs (resourceRef g) }
  match g.listeners with
  | none => (g, w)
  | some listeners =>
    let w := { w with
      ports := w.ports.registerGateway (resourceRef g).key (listenerPorts listeners) }
    ({ g with listeners := some (listeners.map (fillSecrets w.secrets g)) },
      (certRefs listeners).foldl (registerCertRef g) w)

/-! ## `on_change` and `on_delete` -/

variable (ctx : HandlerContext)

def onChange (w : World) (g : Gateway) : World :=
  let key := gatewayKey g
  let w := w.requeueAll ctx
    ((w.ports.getConflictingGateways key).map fun conflicting => ("Gateway", conflicting))
  let (hostnamesChanged, routeIndex) :=
    w.routeIndex.updateGatewayHostnames key (g.listenerList.filterMap Listener.hostname)
  let (portsChanged, routeIndex) :=
    routeIndex.updateGatewayPorts key (g.listenerList.map Listener.port)
  let w := { w with routeIndex }
  if hostnamesChanged || portsChanged then
    w.requeueAll ctx ((routeIndex.getRoutesForGateway key).map fun route =>
      (route.kind.asStr, route.key))
  else w

def onDelete (w : World) (g : Gateway) : World :=
  let key := (resourceRef g).key
  let conflictingGateways := w.ports.getConflictingGateways key
  let w := { w with
    secretRefs := w.secretRefs.clearValueRefs (resourceRef g)
    crossNsRefs := w.crossNsRefs.clearValueRefs (resourceRef g)
    ports := w.ports.unregisterGateway key }
  let w := w.requeueAll ctx (conflictingGateways.map fun conflicting => ("Gateway", conflicting))
  { w with routeIndex := (w.routeIndex.removeGatewayHostnames key).removeGatewayPorts key }

/-! ## `update_status` -/

/-- `{:?}` of a list of names without characters to escape. -/
def debugNames (names : List String) : String :=
  "[" ++ ", ".intercalate (names.map fun name => "\"" ++ name ++ "\"") ++ "]"

/-- The conditions of the Gateway itself. -/
def gatewayConditions (conflicts : Conflicts) (validationErrors : List String)
    (conditions : List Condition) : List Condition :=
  let accepted :=
    if validationErrors.isEmpty then conditionTrue "Accepted" "Accepted" "Gateway accepted"
    else conditionFalse "Accepted" "Invalid" ("; ".intercalate validationErrors)
  let conditions := updateCondition conditions accepted
  let conditions :=
    if conflicts.keys.isEmpty then conditions.filter fun c => c.type_ ≠ "ListenersNotValid"
    else updateCondition conditions (conditionTrue "ListenersNotValid" "ListenerConflict"
      ("Listeners have port conflicts: " ++ debugNames conflicts.keys))
  let conditions := updateCondition conditions
    (conditionTrue "Programmed" "Programmed" "Gateway configuration programmed")
  updateCondition conditions (conditionTrue "Ready" "Ready" "Gateway is ready")

variable (isValidPem : List UInt8 → Bool)

/-- What is computed beforehand of a listener. -/
def listenerInfo (w : World) (g : Gateway) (l : Listener) :
    ListenerInfo :=
  let (supportedKinds, kindErrors) := computeSupportedKinds l
  ⟨l.name, supportedKinds,
    validateListenerResolvedRefs isValidPem w.secrets w.grants w.grantValidation g l ++ kindErrors⟩

def updateStatus (w : World) (g : Gateway) (validationErrors : List String) : Gateway :=
  let listenerInfos := g.listenerList.map (listenerInfo isValidPem w g)
  let status := g.status.getD ⟨none, none⟩
  let conflicts := w.ports.detectConflicts (gatewayKey g)
  let conditions := gatewayConditions conflicts validationErrors (status.conditions.getD [])
  let listeners :=
    if listenerInfos.isEmpty then []
    else
      (listenerInfos.foldl (updateListenerStatus conflicts validationErrors)
        (status.listeners.getD [])).filter fun ls => ls.name ∈ g.listenerList.map Listener.name
  { g with status := some ⟨some conditions, some listeners⟩ }

end GatewayHandler

variable (gatewayClassName : Option String) (isValidPem : List UInt8 → Bool)

/-- `GatewayHandler`. It has no validation and no preparse of its own, and
its `parse` never skips. -/
def gatewayHandler : ProcessorHandler Gateway World where
  filter := GatewayHandler.filter gatewayClassName
  cleanMetadata _ g := g
  validate _ w _ := ([], w)
  preparse _ w g := ((g, []), w)
  parse _ w g := (.ok (GatewayHandler.parse w g).1, (GatewayHandler.parse w g).2)
  onDelete := GatewayHandler.onDelete
  onChange := GatewayHandler.onChange
  updateStatus _ w g errors := (GatewayHandler.updateStatus isValidPem w g errors, w)
  cleanMetadata_same _ _ := ⟨rfl, rfl, rfl⟩
  preparse_same _ _ _ := ⟨rfl, rfl, rfl⟩
  parse_same _ w g parsed h := by
    obtain rfl : (GatewayHandler.parse w g).1 = parsed := by simpa using h
    simp only [GatewayHandler.parse]
    split <;> exact ⟨rfl, rfl, rfl⟩
  updateStatus_same _ _ _ _ := ⟨rfl, rfl, rfl⟩

/-- **What is saved of a Gateway** that is not turned away. -/
def GatewayHandler.saved (w : World) (g : Gateway) : Gateway :=
  updateStatus isValidPem (parse w g).2 (parse w g).1 []

/-- A Gateway is turned away, or parsed and given its status. -/
theorem render_gatewayHandler (ctx : HandlerContext) (w : World) (g : Gateway)
    (existing : Option String) :
    (gatewayHandler gatewayClassName isValidPem).render ctx w g existing = (none, w) ∨
    ∃ statusChanged, (gatewayHandler gatewayClassName isValidPem).render ctx w g existing =
      (some (GatewayHandler.saved isValidPem w g, statusChanged), (GatewayHandler.parse w g).2) := by
  have hclean : ctx.cleanMetadata g = g := by
    unfold HandlerContext.cleanMetadata
    split <;> rfl
  simp only [ProcessorHandler.render, gatewayHandler, hclean]
  split_ifs
  · exact .inl rfl
  · exact .inl rfl
  · exact .inr ⟨_, rfl⟩

/-! ## Certificates of other namespaces

A listener may refer to a secret of another namespace, if a grant there
permits it. The grant is asked for only when the status is computed;
`parse`, which fills the secret in, does not ask. So a Gateway is saved
with a secret it may not use exactly where a reference that is not
permitted finds its secret, and the status says `RefNotPermitted` beside
the key it was to withhold. -/

section

open Controller (HandlerContext)

namespace GatewayHandler

/-! ### What is put into a listener -/

/-- A certificate reference of the listener finds the secret. -/
def ResolvesTo (secrets : SecretStore) (g : Gateway) (i : ℕ) (secret : Secret) : Prop :=
  ∃ l tls refs certRef, g.listenerList[i]? = some l ∧ l.tls = some tls ∧
    tls.certificateRefs = some refs ∧ certRef ∈ refs ∧
    getSecret secrets (secretNs g certRef) certRef.name = some secret

/-- The listener carries the secret. -/
def Carries (g : Gateway) (i : ℕ) (secret : Secret) : Prop :=
  ∃ l tls carried, g.listenerList[i]? = some l ∧ l.tls = some tls ∧ tls.secrets = some carried ∧
    secret ∈ carried

/-- A current grant of the secret's namespace permits the Gateway to refer to
it. -/
def Granted (grants : ReferenceGrantStore) (g : Gateway) (secret : Secret) : Prop :=
  ∃ grant ns, grants.Current grant ∧ secret.ns = some ns ∧
    grant.Permits (certReference (g.ns.getD "default") ns (secret.name.getD ""))

/-- The listeners of what `parse` returns. -/
theorem listenerList_parse (w : World) (g : Gateway) :
    (parse w g).1.listenerList = g.listenerList.map (fillSecrets w.secrets g) := by
  simp only [parse, Gateway.listenerList]
  cases hlisteners : g.listeners with
  | none => simp [hlisteners]
  | some listeners => rfl

variable {g : Gateway}

/-- **`parse` puts every secret that is found.** -/
theorem carries_parse {w : World} {i : ℕ} {secret : Secret}
    (h : ResolvesTo w.secrets g i secret) : Carries (parse w g).1 i secret := by
  obtain ⟨l, tls, refs, certRef, hl, htls, hrefs, hmem, hget⟩ := h
  have hfound : secret ∈ resolvedSecrets w.secrets g refs :=
    List.mem_filterMap.2 ⟨certRef, hmem, hget⟩
  have hne := List.ne_nil_of_mem hfound
  refine ⟨fillSecrets w.secrets g l, { tls with secrets := some _ }, _, ?_, ?_, rfl, hfound⟩
  · rw [listenerList_parse, List.getElem?_map, hl, Option.map_some]
  · simp only [fillSecrets, htls, hrefs, Option.getD_some]

/-- **What `parse` leaves in a listener was found, or was there before.** -/
theorem resolvesTo_or_carries {w : World} {i : ℕ} {secret : Secret}
    (h : Carries (parse w g).1 i secret) : ResolvesTo w.secrets g i secret ∨ Carries g i secret := by
  obtain ⟨l', tls', carried, hl', htls', hcarried, hmem⟩ := h
  rw [listenerList_parse, List.getElem?_map] at hl'
  obtain ⟨l, hl, rfl⟩ := Option.map_eq_some_iff.1 hl'
  have hpre (htls : l.tls = some tls') : Carries g i secret :=
    ⟨l, tls', carried, hl, htls, hcarried, hmem⟩
  unfold fillSecrets at htls'
  split at htls'
  · exact .inr (hpre htls')
  next tls htls =>
    split at htls'
    · exact .inr (hpre htls')
    next hfound =>
      obtain rfl := Option.some.inj htls'
      rw [← Option.some.inj hcarried] at hmem
      obtain ⟨certRef, href, hget⟩ := List.mem_filterMap.1 hmem
      cases hrefs : tls.certificateRefs with
      | none => simp [hrefs] at href
      | some refs => exact .inl ⟨l, tls, refs, certRef, hl, htls, hrefs, by simpa [hrefs] using href, hget⟩

/-- What is saved has the listeners that `parse` returned. -/
theorem listeners_render {gatewayClassName : Option String} {isValidPem : List UInt8 → Bool}
    {ctx : HandlerContext} {w : World} {existing : Option String}
    {saved : Gateway × Bool}
    (h : ((gatewayHandler gatewayClassName isValidPem).render ctx w g existing).1 = some saved) :
    saved.1.listeners = (parse w g).1.listeners := by
  rcases render_gatewayHandler gatewayClassName isValidPem ctx w g existing with
    hrender | ⟨changed, hrender⟩
  · rw [hrender] at h
    cases h
  · rw [hrender] at h
    cases h
    rfl

/-- **When only granted secrets are put.** For every Gateway and every state
of the stores, what a listener carries after `parse` was found by one of its
references or was there before. What was found, or was not there before, is
of the Gateway's namespace or granted, if and only if every reference to
another namespace that finds its secret is granted. What `parse` returns is
what is saved and published. -/
theorem carries_only_granted_iff (w : World) (g : Gateway) :
    (∀ i secret, Carries (parse w g).1 i secret →
      ResolvesTo w.secrets g i secret ∨ Carries g i secret) ∧
    ((∀ i secret, Carries (parse w g).1 i secret →
        ResolvesTo w.secrets g i secret ∨ ¬ Carries g i secret →
        secret.ns = g.ns ∨ Granted w.grants g secret) ↔
      ∀ i secret, ResolvesTo w.secrets g i secret → secret.ns ≠ g.ns → Granted w.grants g secret) ∧
    ∀ gatewayClassName isValidPem ctx existing saved,
      ((gatewayHandler gatewayClassName isValidPem).render ctx w g existing).1 = some saved →
        saved.1.listeners = (parse w g).1.listeners := by
  refine ⟨fun _ _ => resolvesTo_or_carries,
    ⟨fun h i secret hresolves hother => ?_, fun h i secret hcarries hput => ?_⟩,
    fun _ _ _ _ _ => listeners_render⟩
  · exact (h i secret (carries_parse hresolves) (.inl hresolves)).resolve_left hother
  · have hresolves : ResolvesTo w.secrets g i secret := by
      rcases resolvesTo_or_carries hcarries with hresolves | hbefore
      · exact hresolves
      · exact hput.resolve_right (not_not_intro hbefore)
    by_cases hns : secret.ns = g.ns
    · exact .inl hns
    · exact .inr (h i secret hresolves hns)

/-- A secret of another namespace. -/
def vaultSecret : Secret :=
  ⟨some "vault", some "prod", some [("tls.crt", [1]), ("tls.key", [2])]⟩

/-- A Gateway whose listener refers to it. -/
def tlsGateway : Gateway where
  ns := some "edge"
  name := some "public"
  gatewayClassName := "edgion"
  listeners := some
    [⟨"https", none, 443, "HTTPS", some ⟨some [⟨none, none, "prod", some "vault"⟩], none⟩, none⟩]
  status := none

/-- The secret is stored, and there is no grant. -/
def vaultWorld : World :=
  { World.new true with
    secrets := fun key => if key = "vault/prod" then some vaultSecret else none }

/-- **A secret that no grant permits is published.** -/
theorem carries_not_granted : vaultWorld.grantValidation = true ∧ vaultSecret.ns ≠ tlsGateway.ns ∧
      ¬ Carries tlsGateway 0 vaultSecret ∧ Carries (parse vaultWorld tlsGateway).1 0 vaultSecret ∧
      ¬ Granted vaultWorld.grants tlsGateway vaultSecret := by
  have hresolves : ResolvesTo vaultWorld.secrets tlsGateway 0 vaultSecret :=
    ⟨_, _, _, ⟨none, none, "prod", some "vault"⟩, rfl, rfl, rfl, List.mem_singleton.2 rfl,
      by decide +kernel⟩
  refine ⟨rfl, by decide, ?_, carries_parse hresolves, ?_⟩
  · rintro ⟨l, tls, carried, hl, htls, hcarried, -⟩
    cases hl
    cases htls
    cases hcarried
  rintro ⟨grant, ns, ⟨key, hkey⟩, -⟩
  simp [vaultWorld, World.new, ReferenceGrantStore.new] at hkey

end GatewayHandler

end

end Edgion.GatewayApi
