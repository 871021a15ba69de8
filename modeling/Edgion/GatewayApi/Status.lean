import Edgion.GatewayApi.Grants
import Edgion.GatewayApi.Index

/-!
# Gateway API — conditions and the status of a listener

A status is a list of conditions, one of each type. Setting a condition
replaces the first of its type, or adds it; in the same way the status of
a listener is found by name, or added. What is found afterwards is what
was set, and what is found under another type or name is as before.
-/

namespace Edgion.GatewayApi

open List

universe u

/-! ## Set the first, or add -/

section

variable {α : Type u} {p q : α → Bool} {f : α → α} {fresh : α}

/-- Change the first element that `p` finds, or push a new one. -/
def updateFirst (p : α → Bool) (f : α → α) (fresh : α) : List α → List α
  | [] => [f fresh]
  | a :: l => if p a then f a :: l else a :: updateFirst p f fresh l

/-- **Of what `p` finds, the first is changed**, or the new one is all there is. -/
theorem filter_updateFirst (hf : ∀ a, p a → p (f a) = true) (hfresh : p fresh)
    (l : List α) :
    (updateFirst p f fresh l).filter p =
      f ((l.filter p).head?.getD fresh) :: (l.filter p).tail := by
  induction l with
  | nil => simp [updateFirst, hf fresh hfresh]
  | cons a l ih =>
    by_cases ha : p a = true
    · simp [updateFirst, ha, hf a ha]
    · simp [updateFirst, ha, ih]

/-- What has nothing to do with `p` is left alone. -/
theorem filter_updateFirst_of_disjoint (hf : ∀ a, p a → q (f a) = false)
    (hdisj : ∀ a, p a → q a = false) (hfresh : p fresh) (l : List α) :
    (updateFirst p f fresh l).filter q = l.filter q := by
  induction l with
  | nil => simp [updateFirst, hf fresh hfresh]
  | cons a l ih =>
    by_cases ha : p a = true
    · simp [updateFirst, ha, hf a ha, hdisj a ha]
    · simp [updateFirst, ha, ih, filter_cons]

theorem find?_updateFirst (hf : ∀ a, p a → p (f a) = true) (hfresh : p fresh)
    (l : List α) : (updateFirst p f fresh l).find? p = some (f ((l.find? p).getD fresh)) := by
  rw [← head?_filter, ← head?_filter, filter_updateFirst hf hfresh, head?_cons]

theorem find?_updateFirst_of_disjoint (hf : ∀ a, p a → q (f a) = false)
    (hdisj : ∀ a, p a → q a = false) (hfresh : p fresh) (l : List α) :
    (updateFirst p f fresh l).find? q = l.find? q := by
  rw [← head?_filter, filter_updateFirst_of_disjoint hf hdisj hfresh, head?_filter]

end

/-! ## Conditions -/

def conditionTrue (type_ reason message : String) : Condition := ⟨type_, "True", reason, message⟩

def conditionFalse (type_ reason message : String) : Condition := ⟨type_, "False", reason, message⟩

@[simp] theorem type_conditionTrue (type_ reason message : String) :
    (conditionTrue type_ reason message).type_ = type_ := rfl

@[simp] theorem type_conditionFalse (type_ reason message : String) :
    (conditionFalse type_ reason message).type_ = type_ := rfl

/-- `update_gateway_condition`, which is `update_condition` of the routes. -/
def updateCondition (conditions : List Condition) (new : Condition) : List Condition :=
  updateFirst (fun c => c.type_ = new.type_) (fun _ => new) new conditions

/-- The condition of a type. -/
def findCondition (conditions : List Condition) (type_ : String) : Option Condition :=
  conditions.find? fun c => c.type_ = type_

variable {conditions : List Condition} {new : Condition} {type_ : String}

theorem findCondition_updateCondition (h : new.type_ = type_) :
    findCondition (updateCondition conditions new) type_ = some new := by
  subst h
  exact find?_updateFirst (by simp) (by simp) conditions

theorem findCondition_updateCondition_of_ne (hne : new.type_ ≠ type_) :
    findCondition (updateCondition conditions new) type_ = findCondition conditions type_ := by
  refine find?_updateFirst_of_disjoint (by simpa using fun _ _ => hne) (fun c hc => ?_) (by simp)
    conditions
  have hc : c.type_ = new.type_ := by simpa using hc
  simpa [hc] using hne

/-! ## References of a listener -/

inductive GatewayResolvedRefsError
  | invalidCertRef (kind : String)
  | secretNotFound (ns name : String)
  | secretInvalid (ns name reason : String)
  | refNotPermitted (ns name : String)
  | invalidRouteKind (group kind protocol : String)
deriving DecidableEq, Repr

namespace GatewayResolvedRefsError

def message : GatewayResolvedRefsError → String
  | .invalidCertRef kind => "Invalid certificateRef kind '" ++ kind ++ "', must be 'Secret'"
  | .secretNotFound ns name => "Secret '" ++ ns ++ "/" ++ name ++ "' not found"
  | .secretInvalid ns name reason => "Secret '" ++ ns ++ "/" ++ name ++ "' invalid: " ++ reason
  | .refNotPermitted ns name =>
    "Cross-namespace reference to Secret '" ++ ns ++ "/" ++ name ++
      "' not allowed by ReferenceGrant"
  | .invalidRouteKind group kind protocol =>
    "Route kind '" ++ group ++ "/" ++ kind ++ "' is not supported for protocol '" ++ protocol ++ "'"

/-- `pick_gateway_resolved_refs_reason`. -/
def pickReason (errors : List GatewayResolvedRefsError) : String :=
  if errors.any fun | .invalidRouteKind .. => true | _ => false then "InvalidRouteKinds"
  else if errors.any fun | .refNotPermitted .. => true | _ => false then "RefNotPermitted"
  else "InvalidCertificateRef"

end GatewayResolvedRefsError

def getSupportedKindsForProtocol (protocol : String) : List RouteGroupKind :=
  let kind (kind : String) : RouteGroupKind := ⟨some "gateway.networking.k8s.io", kind⟩
  match toUppercase protocol with
  | "HTTP" | "HTTPS" => [kind "HTTPRoute", kind "GRPCRoute"]
  | "TCP" => [kind "TCPRoute"]
  | "UDP" => [kind "UDPRoute"]
  | "TLS" => [kind "TLSRoute"]
  | _ => []

def computeSupportedKinds (l : Listener) : List RouteGroupKind × List GatewayResolvedRefsError :=
  let protocolKinds := getSupportedKindsForProtocol l.protocol
  let group (k : RouteGroupKind) := k.group.getD "gateway.networking.k8s.io"
  match (l.allowedRoutes.bind AllowedRoutes.kinds).getD [] with
  | [] => (protocolKinds, [])
  | requestedKinds =>
    let supported (requested : RouteGroupKind) : Bool := protocolKinds.any fun protocolKind =>
      group protocolKind = group requested && protocolKind.kind = requested.kind
    (requestedKinds.filter supported,
      (requestedKinds.filter fun requested => !supported requested).map fun requested =>
        .invalidRouteKind (group requested) requested.kind l.protocol)

/-- `SecretStore::make_key`, which is `format_secret_key`. -/
def formatSecretKey (ns : Option String) (name : String) : String :=
  match ns with
  | some ns => ns ++ "/" ++ name
  | none => name

abbrev SecretStore := String → Option Secret

def getSecret (secrets : SecretStore) (ns : Option String) (name : String) : Option Secret :=
  secrets (formatSecretKey ns name)

variable (isValidPem : List UInt8 → Bool)

/-- What `validate_listener_resolved_refs` finds wrong with a secret;
`isValidPem` is the parser's. -/
def secretErrors (certNs name : String) (secret : Secret) : List GatewayResolvedRefsError :=
  match secret.data with
  | none => [.secretInvalid certNs name "no data"]
  | some data =>
    match data.lookup "tls.crt", data.lookup "tls.key" with
    | some cert, some key =>
      if cert.isEmpty || key.isEmpty then
        [.secretInvalid certNs name "empty certificate or key data"]
      else
        (if isValidPem cert then []
          else [.secretInvalid certNs name "invalid certificate PEM data"]) ++
        (if isValidPem key then []
          else [.secretInvalid certNs name "invalid private key PEM data"])
    | _, _ =>
      [.secretInvalid certNs name "missing required keys 'tls.crt' and/or 'tls.key'"]

/-- The check of a Gateway's reference to a secret. -/
def certReference (gatewayNs certNs name : String) : Reference :=
  ⟨gatewayNs, "gateway.networking.k8s.io", "Gateway", certNs, "", "Secret", some name⟩

variable (secrets : SecretStore) (grants : ReferenceGrantStore) (grantValidation : Bool)
variable (g : Gateway)

/-- `validate_listener_resolved_refs`, for one reference. -/
def validateCertRef (certRef : SecretObjectReference) : List GatewayResolvedRefsError :=
  let gatewayNs := g.ns.getD "default"
  let certKind := certRef.kind.getD "Secret"
  let certGroup := certRef.group.getD ""
  if certKind ≠ "Secret" then [.invalidCertRef certKind]
  else if !isCoreApiGroup certGroup then [.invalidCertRef ("group:" ++ certGroup)]
  else
    let certNs := (certRef.ns.or g.ns).getD "default"
    (match getSecret secrets (some certNs) certRef.name with
      | none => [.secretNotFound certNs certRef.name]
      | some secret => secretErrors isValidPem certNs certRef.name secret) ++
    (if gatewayNs ≠ certNs && grantValidation &&
        !grants.checkReferenceAllowed (certReference gatewayNs certNs certRef.name) then
      [.refNotPermitted certNs certRef.name]
    else [])

def validateListenerResolvedRefs
    (l : Listener) :
    List GatewayResolvedRefsError :=
  ((l.tls.bind GatewayTlsConfig.certificateRefs).getD []).flatMap
    (validateCertRef isValidPem secrets grants grantValidation g)

/-! ## The conditions of a listener -/

def updateListenerConditions (conditions : List Condition) (validationErrors : List String)
    (isConflicted : Bool) (resolvedRefsErrors : List GatewayResolvedRefsError) :
    List Condition :=
  let hasUnresolvedRefs := !resolvedRefsErrors.isEmpty
  let accepted :=
    if validationErrors.isEmpty then conditionTrue "Accepted" "Accepted" "Listener accepted"
    else conditionFalse "Accepted" "Invalid" ("; ".intercalate validationErrors)
  let resolved :=
    if hasUnresolvedRefs then
      conditionFalse "ResolvedRefs" (GatewayResolvedRefsError.pickReason resolvedRefsErrors)
        ("; ".intercalate (resolvedRefsErrors.map GatewayResolvedRefsError.message))
    else conditionTrue "ResolvedRefs" "ResolvedRefs" "All references resolved"
  let programmed :=
    if isConflicted then
      conditionFalse "Programmed" "ListenerConflict" "Listener not programmed due to port conflict"
    else if hasUnresolvedRefs then
      conditionFalse "Programmed" "Invalid" "Listener not programmed due to unresolved references"
    else conditionTrue "Programmed" "Programmed" "Listener configuration programmed"
  let ready :=
    if isConflicted then
      conditionFalse "Ready" "ListenerConflict" "Listener not ready due to port conflict"
    else if hasUnresolvedRefs then
      conditionFalse "Ready" "Pending" "Listener not ready due to unresolved references"
    else conditionTrue "Ready" "Ready" "Listener is ready"
  [accepted, resolved, programmed, ready].foldl updateCondition conditions

/-- The conditions of a listener besides `Conflicted` do not touch it. -/
theorem findCondition_updateListenerConditions (conditions : List Condition)
    (validationErrors : List String) (isConflicted : Bool)
    (resolvedRefsErrors : List GatewayResolvedRefsError) :
    findCondition (updateListenerConditions conditions validationErrors isConflicted
      resolvedRefsErrors) "Conflicted" = findCondition conditions "Conflicted" := by
  simp only [updateListenerConditions, foldl_cons, foldl_nil]
  rw [findCondition_updateCondition_of_ne, findCondition_updateCondition_of_ne,
    findCondition_updateCondition_of_ne, findCondition_updateCondition_of_ne]
  all_goals
    split_ifs <;> simp

structure ListenerInfo where
  name : String
  supportedKinds : List RouteGroupKind
  resolvedRefsErrors : List GatewayResolvedRefsError

variable (conflicts : Conflicts)

/-- The `Conflicted` condition of a listener. -/
def conflictedCondition (name : String) : Condition :=
  match conflicts.lookup name with
  | some (reason, _) => conditionTrue "Conflicted" "ListenerConflict" reason
  | none => conditionFalse "Conflicted" "NoConflicts" "No port conflicts"

theorem type_conflictedCondition (name : String) :
    (conflictedCondition conflicts name).type_ = "Conflicted" := by
  unfold conflictedCondition
  split <;> rfl

theorem status_conflictedCondition (name : String) : (conflictedCondition conflicts name).status =
      if (conflicts.lookup name).isSome then "True" else "False" := by
  unfold conflictedCondition
  split
  · next h => rw [h]; rfl
  · next h => rw [h]; rfl

variable (validationErrors : List String)

/-- What the loop in `update_status` over the listeners makes of a status. -/
def setListenerStatus (info : ListenerInfo) (ls : ListenerStatus) : ListenerStatus :=
  { ls with
    supportedKinds := info.supportedKinds
    conditions := updateListenerConditions
      (updateCondition ls.conditions (conflictedCondition conflicts ls.name)) validationErrors
      (conflicts.lookup ls.name).isSome info.resolvedRefsErrors }

variable (statuses : List ListenerStatus)

/-- The body of that loop. -/
def updateListenerStatus
    (info : ListenerInfo) : List ListenerStatus :=
  updateFirst (fun ls => ls.name = info.name) (setListenerStatus conflicts validationErrors info)
    ⟨info.name, info.supportedKinds, []⟩ statuses

/-- The status of a listener. -/
def findListenerStatus (name : String) : Option ListenerStatus :=
  statuses.find? fun ls => ls.name = name

/-- What a listener's status says of `Conflicted`. -/
def conflictedStatus (name : String) : Option String :=
  ((findListenerStatus statuses name).bind fun ls => findCondition ls.conditions "Conflicted").map
    Condition.status

variable (errors : List String)

/-- **After the update a listener's status says what the conflicts say.** -/
theorem conflictedStatus_updateListenerStatus
    (statuses : List ListenerStatus) (info : ListenerInfo) :
    conflictedStatus (updateListenerStatus conflicts errors statuses info) info.name =
      some (if (conflicts.lookup info.name).isSome then "True" else "False") := by
  have hset : ∀ ls : ListenerStatus, decide (ls.name = info.name) →
      decide ((setListenerStatus conflicts errors info ls).name = info.name) = true :=
    fun _ h => h
  simp only [conflictedStatus, findListenerStatus, updateListenerStatus]
  rw [find?_updateFirst hset (by simp)]
  set ls := (statuses.find? fun ls => ls.name = info.name).getD ⟨info.name, info.supportedKinds, []⟩
    with hls
  have hname : ls.name = info.name := by
    rw [hls]
    cases hfind : statuses.find? fun ls => ls.name = info.name with
    | none => rfl
    | some found => simpa using find?_some hfind
  simp only [setListenerStatus, Option.bind_some, findCondition_updateListenerConditions, hname,
    findCondition_updateCondition (type_conflictedCondition _ _), Option.map_some,
    status_conflictedCondition]

variable {name : String}

/-- The statuses of the others stay as they are. -/
theorem conflictedStatus_updateListenerStatus_of_ne {conflicts : Conflicts}
    {errors : List String} {statuses : List ListenerStatus} {info : ListenerInfo}
    (hne : info.name ≠ name) :
    conflictedStatus (updateListenerStatus conflicts errors statuses info) name =
      conflictedStatus statuses name := by
  have hother : ∀ ls : ListenerStatus, decide (ls.name = info.name) →
      decide (ls.name = name) = false := by
    intro ls hls
    simpa [of_decide_eq_true hls] using hne
  simp only [conflictedStatus, findListenerStatus, updateListenerStatus]
  rw [find?_updateFirst_of_disjoint (f := setListenerStatus conflicts errors info)
    (fun ls hls => hother ls hls) hother (by simp)]

/-- **After the loop** every listener's status says what the conflicts say. -/
theorem conflictedStatus_foldl_updateListenerStatus
    (infos : List ListenerInfo) (statuses : List ListenerStatus)
    (hmem : ∃ info ∈ infos, info.name = name) :
    conflictedStatus (infos.foldl (updateListenerStatus conflicts errors) statuses) name =
      some (if (conflicts.lookup name).isSome then "True" else "False") := by
  -- from the last listener back: the last one of the name decides
  induction infos using reverseRecOn with
  | nil => simp at hmem
  | append_singleton infos info ih =>
    rw [foldl_append, foldl_cons, foldl_nil]
    by_cases hname : info.name = name
    · subst hname
      exact conflictedStatus_updateListenerStatus conflicts errors _ info
    · rw [conflictedStatus_updateListenerStatus_of_ne hname]
      refine ih ?_
      obtain ⟨found, hfound, hfoundName⟩ := hmem
      rcases mem_append.1 hfound with h | h
      · exact ⟨found, h, hfoundName⟩
      · exact absurd (mem_singleton.1 h ▸ hfoundName) hname

end Edgion.GatewayApi
