import Edgion.Controller.Processor
import Edgion.Hostname.Model

/-!
# Gateway API — the resources

What the controller reads and writes of a Gateway: its listeners with
their certificates and their rules for routes, and the status it reports.
Left out are the generation and the time of a condition, the addresses of
a Gateway and the number of routes attached to a listener.
-/

namespace Edgion.GatewayApi

open Controller (KubeObject StatusExtractResult)

/-! ## Labels -/

/-- `serde_json::Value`, as far as label selectors are read. -/
inductive Json
  | null
  | string (s : String)
  | array (items : List Json)
  | object (fields : List (String × Json))
  | other

namespace Json

/-- `Value::get` with the name of a field. -/
def get (key : String) : Json → Option Json
  | .object fields => fields.lookup key
  | _ => none

def asStr : Json → Option String
  | .string s => some s
  | _ => none

def asArray : Json → Option (List Json)
  | .array items => some items
  | _ => none

def asObject : Json → Option (List (String × Json))
  | .object fields => some fields
  | _ => none

end Json

/-- The labels of a namespace. -/
abbrev Labels := String → Option String

def evaluateExpression (expr : Json) (labels : Labels) : Bool :=
  let key := ((expr.get "key").bind Json.asStr).getD ""
  let operator := ((expr.get "operator").bind Json.asStr).getD ""
  let values := (((expr.get "values").bind Json.asArray).map
    fun arr => arr.filterMap Json.asStr).getD []
  match operator with
  | "In" => (labels key).any fun v => v ∈ values
  | "NotIn" => (labels key).all fun v => v ∉ values
  | "Exists" => (labels key).isSome
  | "DoesNotExist" => (labels key).isNone
  | _ => false

def labelSelectorMatches (selector : Json) (labels : Labels) : Bool :=
  match selector.asObject with
  | none => true
  | some fields =>
    let matchLabels := ((fields.lookup "matchLabels").bind Json.asObject).getD []
    let matchExpressions := ((fields.lookup "matchExpressions").bind Json.asArray).getD []
    (matchLabels.all fun (key, val) => labels key = some (val.asStr.getD "")) &&
      matchExpressions.all fun expr => evaluateExpression expr labels

/-- `NamespaceStore`: the labels of the namespaces that are known. -/
abbrev NamespaceStore := String → Option Labels

/-! ## Gateways -/

structure RouteNamespaces where
  from_ : Option String
  selector : Option Json

structure RouteGroupKind where
  group : Option String
  kind : String
deriving DecidableEq, Repr

structure AllowedRoutes where
  namespaces : Option RouteNamespaces
  kinds : Option (List RouteGroupKind)

structure SecretObjectReference where
  group : Option String
  kind : Option String
  name : String
  ns : Option String
deriving DecidableEq, Repr

/-- `Secret`, with its data by key. -/
structure Secret where
  ns : Option String
  name : Option String
  data : Option (List (String × List UInt8))
deriving DecidableEq, Repr

/-- `GatewayTLSConfig`: the references of a listener to its certificates,
and the secrets the controller fills in for them. -/
structure GatewayTlsConfig where
  certificateRefs : Option (List SecretObjectReference)
  secrets : Option (List Secret)
deriving DecidableEq, Repr

structure Listener where
  name : String
  hostname : Option String
  port : ℤ
  protocol : String
  tls : Option GatewayTlsConfig
  allowedRoutes : Option AllowedRoutes

structure Condition where
  type_ : String
  status : String
  reason : String
  message : String
deriving DecidableEq, Repr

structure ListenerStatus where
  name : String
  supportedKinds : List RouteGroupKind
  conditions : List Condition
deriving DecidableEq, Repr

structure GatewayStatus where
  conditions : Option (List Condition)
  listeners : Option (List ListenerStatus)
deriving DecidableEq, Repr

structure Gateway where
  ns : Option String
  name : Option String
  gatewayClassName : String
  listeners : Option (List Listener)
  status : Option GatewayStatus

/-- `spec.listeners`, or none. -/
def Gateway.listenerList (g : Gateway) : List Listener := g.listeners.getD []

/-- What hostnames are resolved from. -/
def Listener.toHostname (l : Listener) : Hostname.Listener := ⟨l.name, l.hostname, l.port⟩

/-- What hostnames are resolved from. -/
def Gateway.toHostname (g : Gateway) : Hostname.Gateway :=
  ⟨g.ns, g.name, g.listeners.map (·.map Listener.toHostname)⟩

variable (gateways : List Gateway) (ns name : String)

/-- `lookup_gateway`, over the Gateways the registry lists. -/
def lookupGateway : Option Gateway :=
  gateways.find? fun gw => gw.ns.getD "default" = ns && gw.name.getD "" = name

/-- The lookup is the one hostnames are resolved with. -/
theorem toHostname_lookupGateway :
    (lookupGateway gateways ns name).map Gateway.toHostname =
      Hostname.lookupGateway (gateways.map Gateway.toHostname) ns name := by
  simp only [lookupGateway, Hostname.lookupGateway, List.find?_map]
  rfl

/-! ## Kinds and references -/

/-- `ResourceKind`, as far as resources refer to each other here. -/
inductive ResourceKind
  | gateway
  | httpRoute
  | secret
  | service
  | referenceGrant
deriving DecidableEq, Repr

/-- `ResourceKind::as_str`, which is also what `{:?}` writes. -/
def ResourceKind.asStr : ResourceKind → String
  | .gateway => "Gateway"
  | .httpRoute => "HTTPRoute"
  | .secret => "Secret"
  | .service => "Service"
  | .referenceGrant => "ReferenceGrant"

structure ResourceRef where
  kind : ResourceKind
  ns : Option String
  name : String
deriving DecidableEq, Repr

namespace ResourceRef

variable (r : ResourceRef)

def key : String :=
  match r.ns with
  | some ns => r.kind.asStr ++ "/" ++ ns ++ "/" ++ r.name
  | none => r.kind.asStr ++ "//" ++ r.name

def resourceKey : String :=
  match r.ns with
  | some ns => ns ++ "/" ++ r.name
  | none => r.name

end ResourceRef

end Edgion.GatewayApi
