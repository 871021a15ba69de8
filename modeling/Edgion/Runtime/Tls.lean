import Edgion.Runtime.Store

/-!
# Gateway runtime — the TLS matcher

The listeners that terminate TLS are registered by port and hostname, and
a handshake is answered with the first entry registered for the name the
client asks for. `rebuild_from_gateways` walks over the Gateways and their
listeners once; `visits` is the list of entries it comes by, and what it
builds for a port depends on the entries of that port alone, in the order
of the walk.
-/

namespace Edgion.Runtime

open Text Hostname HostMatch List Function

universe u

variable {Secret : Type u}

/-! ## The model -/

/-- `GatewayTlsEntry`. The port is a `u16`. -/
structure GatewayTlsEntry (Secret : Type u) where
  gatewayNamespace : String
  gatewayName : String
  listenerName : String
  port : ℕ
  hostname : String
  certificateRefs : List SecretObjectReference
  secrets : Option (List Secret)
deriving DecidableEq

/-- The conversion of an `i32` to a `u16`. -/
def asU16 (n : ℤ) : ℕ := (n % 65536).toNat

/-- `serde_json`'s `Value::get` for a key. -/
def Json.get : Json → String → Option Json
  | .object fields, key => fields.lookup key
  | _, _ => none

/-- `serde_json`'s `Value::as_str`. -/
def Json.asStr : Json → Option String
  | .string s => some s
  | _ => none

variable (tlsConfig : GatewayTlsConfig Secret)

def hasEdgionTlsProvider : Bool :=
  ((tlsConfig.options.bind (·.get "edgion.io/cert-provider")).map fun v =>
    v.asStr == some "EdgionTls").getD false

/-- The certificate references a listener is registered with; `none` skips
the listener. -/
def certRefs : Option (List SecretObjectReference) :=
  match tlsConfig.certificateRefs with
  | some refs =>
    if !refs.isEmpty then some refs
    else if hasEdgionTlsProvider tlsConfig then some [] else none
  | none => if hasEdgionTlsProvider tlsConfig then some [] else none

variable (gateway : Gateway Secret)

/-- The entry of a listener, where it has TLS, certificates and a
hostname. -/
def listenerEntry (listener : Listener Secret) : Option (GatewayTlsEntry Secret) :=
  listener.tls.bind fun tlsConfig =>
    (certRefs tlsConfig).bind fun refs =>
      listener.hostname.map fun hostname =>
        { gatewayNamespace := gateway.ns.getD ""
          gatewayName := gateway.nameAny
          listenerName := listener.name
          port := asU16 listener.port
          hostname
          certificateRefs := refs
          secrets := tlsConfig.secrets }

/-- The matchers by port, and `hostname_entry_count`. -/
structure Registry (Secret : Type u) where
  portMap : ℕ → Option (HashHost (List (GatewayTlsEntry Secret)))
  hostnameEntryCount : ℕ

/-- How an entry enters the matcher of its port: through `get_mut` where
that finds a place, by an insertion otherwise. -/
def registerEntry (hostMatcher : HashHost (List (GatewayTlsEntry Secret)))
    (entry : GatewayTlsEntry Secret) : HashHost (List (GatewayTlsEntry Secret)) :=
  match hostMatcher.getMut entry.hostname with
  | some key => hostMatcher.modify key (· ++ [entry])
  | none => (hostMatcher.insert entry.hostname [entry]).1

variable (r : Registry Secret)

/-- The entry of a listener enters the registry. -/
def Registry.add (entry : GatewayTlsEntry Secret) : Registry Secret where
  portMap := update r.portMap entry.port
    (some (registerEntry ((r.portMap entry.port).getD HashHost.new) entry))
  hostnameEntryCount := r.hostnameEntryCount + 1

variable (e : GatewayTlsEntry Secret)

@[simp] theorem Registry.add_portMap :
    (r.add e).portMap = update r.portMap e.port
      (some (registerEntry ((r.portMap e.port).getD HashHost.new) e)) := rfl

@[simp] theorem Registry.add_count :
    (r.add e).hostnameEntryCount = r.hostnameEntryCount + 1 := rfl

/-- The body of the inner loop of `rebuild_from_gateways`. -/
def Registry.visit (r : Registry Secret) (listener : Listener Secret) : Registry Secret :=
  match listenerEntry gateway listener with
  | some entry => r.add entry
  | none => r

/-- `GatewayTlsMatcher`: the matchers by port, or nothing. -/
structure GatewayTlsMatcher (Secret : Type u) where
  data : Option (ℕ → Option (HashHost (List (GatewayTlsEntry Secret))))

variable (gateways : List (Gateway Secret))

def rebuildFromGateways : GatewayTlsMatcher Secret :=
  let r := gateways.foldl (fun r gateway =>
    (gateway.listeners.getD []).foldl (Registry.visit gateway) r) ⟨fun _ => none, 0⟩
  if r.hostnameEntryCount > 0 then ⟨some r.portMap⟩ else ⟨none⟩

variable (m : GatewayTlsMatcher Secret) (port : ℕ)

/-- The matcher of a port. -/
def GatewayTlsMatcher.hosts :
    Option (HashHost (List (GatewayTlsEntry Secret))) :=
  m.data.bind fun portMap => portMap port

def matchSniWithPort (sni : String) :
    Option (GatewayTlsEntry Secret) :=
  (m.hosts port).bind fun hostMatcher => (hostMatcher.get sni).bind head?

/-! ## The walk -/

/-- **The entries the walk comes by**, in its order. -/
def visits : List (GatewayTlsEntry Secret) :=
  gateways.flatMap fun gateway => (gateway.listeners.getD []).filterMap (listenerEntry gateway)

/-- The entries of one port, in the order of the walk. -/
def entriesOn : List (GatewayTlsEntry Secret) :=
  (visits gateways).filter fun e => e.port == port

/-- What a list of entries of one port builds. -/
def register (es : List (GatewayTlsEntry Secret)) : HashHost (List (GatewayTlsEntry Secret)) :=
  es.foldl registerEntry HashHost.new

theorem foldl_visit (ls : List (Listener Secret)) (r : Registry Secret) :
    ls.foldl (Registry.visit gateway) r = (ls.filterMap (listenerEntry gateway)).foldl .add r := by
  induction ls generalizing r with
  | nil => rfl
  | cons l ls ih =>
    rw [foldl_cons, ih, Registry.visit, filterMap_cons]
    cases listenerEntry gateway l <;> rfl

/-- The two loops add the entries one by one. -/
theorem foldl_gateways :
    gateways.foldl (fun r gateway => (gateway.listeners.getD []).foldl (Registry.visit gateway) r) r =
      (visits gateways).foldl .add r := by
  induction gateways generalizing r with
  | nil => rfl
  | cons gateway gateways ih =>
    have hvisits : visits (gateway :: gateways) =
        (gateway.listeners.getD []).filterMap (listenerEntry gateway) ++ visits gateways :=
      flatMap_cons
    rw [foldl_cons, ih, foldl_visit, hvisits, foldl_append]

variable (es : List (GatewayTlsEntry Secret))

theorem foldl_add_count :
    (es.foldl .add r).hostnameEntryCount = r.hostnameEntryCount + es.length := by
  induction es generalizing r with
  | nil => rfl
  | cons e es ih =>
    rw [foldl_cons, ih, Registry.add_count, length_cons]
    omega

/-- **A port's matcher is built from the port's entries alone.** -/
theorem foldl_add_portMap (port : ℕ) :
    (es.foldl .add (⟨fun _ => none, 0⟩ : Registry Secret)).portMap port =
      if es.filter (fun e => e.port == port) = [] then none
      else some (register (es.filter fun e => e.port == port)) := by
  induction es using reverseRecOn with
  | nil => rfl
  | append_singleton es e ih =>
    rw [foldl_concat, Registry.add_portMap, filter_append]
    by_cases hport : port = e.port
    · subst hport
      have hone : [e].filter (fun e' => e'.port == e.port) = [e] := by simp
      have hne : es.filter (fun e' => e'.port == e.port) ++ [e] ≠ [] := by simp
      rw [update_self, ih, hone, if_neg hne]
      by_cases hnil : es.filter (fun e' => e'.port == e.port) = []
      · rw [if_pos hnil, hnil]
        rfl
      · rw [if_neg hnil, register, register, foldl_concat]
        rfl
    · have hnone : [e].filter (fun e' => e'.port == port) = [] := by simpa using Ne.symm hport
      rw [update_of_ne hport, ih, hnone, append_nil]

/-- **What the rebuild leaves for a port.** -/
theorem hosts_rebuild (port : ℕ) : (rebuildFromGateways gateways).hosts port =
      if entriesOn gateways port = [] then none else some (register (entriesOn gateways port)) := by
  unfold rebuildFromGateways GatewayTlsMatcher.hosts
  rw [foldl_gateways]
  have hportMap := foldl_add_portMap (visits gateways) port
  have hcount := foldl_add_count ⟨fun _ => none, 0⟩ (visits gateways)
  by_cases hnil : visits gateways = []
  · have hon : entriesOn gateways port = [] := by simp [entriesOn, hnil]
    rw [if_neg (by rw [hcount, hnil]; simp), if_pos hon]
    rfl
  · have hpos : 0 < (visits gateways).length := length_pos_iff.2 hnil
    rw [if_pos (by rw [hcount]; omega)]
    exact hportMap

/-- A lookup on a port reads the matcher its entries build. -/
theorem matchSniWithPort_eq (port : ℕ) (sni : String) :
    matchSniWithPort (rebuildFromGateways gateways) port sni =
      ((register (entriesOn gateways port)).get sni).bind head? := by
  unfold matchSniWithPort
  rw [hosts_rebuild]
  split
  · rename_i hnil
    rw [hnil]
    unfold register HashHost.get
    split <;> rfl
  · rfl

end Edgion.Runtime
