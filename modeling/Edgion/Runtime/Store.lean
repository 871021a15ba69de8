import Edgion.HostMatch.HashHost
import Mathlib.Data.List.AList

/-!
# Gateway runtime — the configuration store

The data plane keeps, for each Gateway, its listeners by name. A request
is served through a listener of the Gateway it came in by; of the
listeners on one port whose hostnames match the request only the most
specific may serve it, and `has_more_specific_listener` is the test that
the others fail.
-/

namespace Edgion.Runtime

open Text Hostname HostMatch Option

universe u

/-! ## The resources -/

/-- The JSON values of implementation-specific options, as far as a lookup
of a text in an object tells them apart. -/
inductive Json
  | string (s : String)
  | object (fields : List (String × Json))
  | other

structure SecretObjectReference where
  group : Option String
  kind : Option String
  name : String
  ns : Option String
deriving DecidableEq, Repr

/-- `GatewayTLSConfig`, over the type of the Kubernetes secrets. -/
structure GatewayTlsConfig (Secret : Type u) where
  certificateRefs : Option (List SecretObjectReference)
  options : Option Json
  secrets : Option (List Secret)

/-- `RouteNamespaces`; the selector is evaluated by the controller. -/
structure RouteNamespaces where
  from_ : Option String
deriving DecidableEq, Repr

structure RouteGroupKind where
  kind : String
deriving DecidableEq, Repr

structure AllowedRoutes where
  namespaces : Option RouteNamespaces
  kinds : Option (List RouteGroupKind)
deriving DecidableEq, Repr

/-- `Listener`, as the data plane reads it. -/
structure Listener (Secret : Type u) where
  name : String
  hostname : Option String
  port : ℤ
  tls : Option (GatewayTlsConfig Secret)
  allowedRoutes : Option AllowedRoutes

/-- `Gateway`: its metadata and its listeners. -/
structure Gateway (Secret : Type u) where
  ns : Option String
  nameAny : String
  listeners : Option (List (Listener Secret))

/-! ## One Gateway -/

structure ListenerConfig where
  name : String
  port : ℤ
  hostname : Option String
  allowedRoutes : Option AllowedRoutes
deriving DecidableEq, Repr

/-- `GatewayListenerConfig`. A listener is in the map under its own name. -/
structure GatewayListenerConfig where
  hostMap : Option (String → Option ListenerConfig)
  wildcardHostMap : Option (HashHost ListenerConfig)
  listenerMap : Option (AList fun _ : String => ListenerConfig)
  keyed : ∀ m ∈ listenerMap, ∀ k, ∀ c ∈ m.lookup k, c.name = k

namespace GatewayListenerConfig

def new : GatewayListenerConfig where
  hostMap := none
  wildcardHostMap := none
  listenerMap := none
  keyed := fun _ h => absurd h (by simp)

variable (config : GatewayListenerConfig)

/-- The values of the listener map, in the order of some iteration. -/
def listeners : List ListenerConfig :=
  (config.listenerMap.map fun m => m.entries.map Sigma.snd).getD []

variable (listenerName : String)

def hasListener : Bool :=
  (config.listenerMap.map fun m => (m.lookup listenerName).isSome).getD false

def getListener : Option ListenerConfig :=
  config.listenerMap.bind fun m => m.lookup listenerName

/-- One turn of the loop of `has_more_specific_listener`. -/
def isMoreSpecific (hostname : String) (currentListenerHostname : Option String)
    (currentPort : ℤ) (config : ListenerConfig) : Bool :=
  if config.port ≠ currentPort then false
  else
    match config.hostname with
    | none => false
    | some otherHost =>
      if !hostnameMatchesListener hostname otherHost then false
      else
        match currentListenerHostname with
        | none => true
        | some currentHost =>
          if !startsWith otherHost "*." then true
          else otherHost ≠ currentHost && len otherHost > len currentHost

variable (self : GatewayListenerConfig)

def hasMoreSpecificListener (hostname : String)
    (currentListenerHostname : Option String) (currentPort : ℤ) : Bool :=
  if currentListenerHostname.any fun h => !startsWith h "*." then false
  else self.listeners.any (isMoreSpecific hostname currentListenerHostname currentPort)

def addListener (config : ListenerConfig) :
    GatewayListenerConfig where
  listenerMap := some ((self.listenerMap.getD ∅).insert config.name config)
  wildcardHostMap :=
    match config.hostname with
    | some hostname =>
      if startsWith hostname "*." then
        some ((self.wildcardHostMap.getD HashHost.new).insert hostname config).1
      else self.wildcardHostMap
    | none => self.wildcardHostMap
  hostMap :=
    match config.hostname with
    | some hostname =>
      if startsWith hostname "*." then self.hostMap
      else some (Function.update (self.hostMap.getD fun _ => none) hostname (some config))
    | none => self.hostMap
  keyed := by
    intro m hm k c hc
    obtain rfl : (self.listenerMap.getD ∅).insert config.name config = m := by simpa using hm
    by_cases e : k = config.name
    · subst e
      rw [AList.lookup_insert, mem_some_iff] at hc
      rw [hc]
    · rw [AList.lookup_insert_ne e] at hc
      cases hold : self.listenerMap with
      | none => simp [hold] at hc
      | some old => exact self.keyed old hold k c (by simpa [hold] using hc)

end GatewayListenerConfig

variable {Secret : Type u} (gateway : Gateway Secret)

def parseGatewayToConfig : GatewayListenerConfig :=
  (gateway.listeners.getD []).foldl (fun config listener =>
    config.addListener
      { name := listener.name
        port := listener.port
        hostname := listener.hostname
        allowedRoutes := listener.allowedRoutes }) .new

/-! ## The store -/

/-- The key of a Gateway in the store. -/
def gatewayKeyOf (ns name : String) : String := if ns = "" then name else ns ++ "/" ++ name

def buildGatewayKey : String :=
  gatewayKeyOf (gateway.ns.getD "") gateway.nameAny

/-- `GatewayInfo`, without the fields for metrics. -/
structure GatewayInfo where
  ns : Option String
  name : String
  listenerName : Option String
deriving DecidableEq, Repr

namespace GatewayInfo

variable (gi : GatewayInfo)

def namespaceStr : String := gi.ns.getD ""

def gatewayKey : String :=
  match gi.ns with
  | some ns => if ns ≠ "" then ns ++ "/" ++ gi.name else gi.name
  | none => gi.name

/-- The key is made of the two parts a parentRef is compared with. -/
theorem gatewayKey_eq : gi.gatewayKey = gatewayKeyOf gi.namespaceStr gi.name := by
  unfold gatewayKey gatewayKeyOf namespaceStr
  cases gi.ns with
  | none => rfl
  | some ns =>
    by_cases hns : ns = ""
    · simp [hns]
    · simp [hns]

end GatewayInfo

/-- `GatewayConfigStore`: the Gateways by key, of which only lookups
matter. -/
structure GatewayConfigStore where
  gateways : String → Option GatewayListenerConfig

namespace GatewayConfigStore

variable {Secret : Type u}

def new : GatewayConfigStore := ⟨fun _ => none⟩

def hasListener (store : GatewayConfigStore) (ns gatewayName listenerName : String) : Bool :=
  ((store.gateways (gatewayKeyOf ns gatewayName)).map fun config =>
    config.hasListener listenerName).getD false

variable (store : GatewayConfigStore)

def getListenerConfig (gi : GatewayInfo) : Option ListenerConfig :=
  gi.listenerName.bind fun listenerName =>
    (store.gateways gi.gatewayKey).bind fun config => config.getListener listenerName

def updateGateway (gateway : Gateway Secret) : GatewayConfigStore :=
  ⟨Function.update store.gateways (buildGatewayKey gateway) (some (parseGatewayToConfig gateway))⟩

def fullSet (gateways : List (Gateway Secret)) : GatewayConfigStore :=
  gateways.foldl updateGateway new

def removeGateway (ns name : String) : GatewayConfigStore :=
  ⟨Function.update store.gateways (gatewayKeyOf ns name) none⟩

end GatewayConfigStore

/-! ## The listeners of a map -/

namespace GatewayListenerConfig

variable {config : GatewayListenerConfig} {c : ListenerConfig} {name : String}

/-- **The listeners are what lookups by name find.** -/
theorem mem_listeners : c ∈ config.listeners ↔ config.getListener c.name = some c := by
  unfold listeners getListener
  cases hmap : config.listenerMap with
  | none => simp
  | some m =>
    have hmem : ∀ k, c ∈ m.lookup k ↔ (⟨k, c⟩ : Sigma fun _ : String => ListenerConfig) ∈ m.entries :=
      fun k => List.mem_dlookup_iff m.nodupKeys
    simp only [map_some, getD_some, List.mem_map, bind_some]
    constructor
    · rintro ⟨⟨k, c'⟩, hk, rfl⟩
      have hget := (hmem k).2 hk
      rw [config.keyed m hmap k c' hget]
      exact hget
    · intro h
      exact ⟨⟨c.name, c⟩, (hmem c.name).1 h, rfl⟩

theorem name_of_getListener (h : config.getListener name = some c) : c.name = name := by
  obtain ⟨m, hm, hc⟩ := bind_eq_some_iff.1 h
  exact config.keyed m hm name c hc

/-- A listener a lookup finds is one of the listeners. -/
theorem mem_of_getListener (h : config.getListener name = some c) : c ∈ config.listeners := by
  rw [mem_listeners, name_of_getListener h]
  exact h

end GatewayListenerConfig

end Edgion.Runtime
