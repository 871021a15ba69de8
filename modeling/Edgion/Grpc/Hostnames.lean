import Edgion.Grpc.MatchUnit
import Edgion.HostMatch.Agreement

/-!
# gRPC routes — hostnames, and the tables of the HTTP routes

HTTP routes are filed by hostname into three tables: names in lower case, wildcards and the
catch-all. A gRPC unit goes through the hostnames of its route instead. A route should be served
under the same hosts either way. It is not where `*` stands beside other names, which a unit
compares as a name, and where a host in upper case is under a wildcard, which a unit compares
letter by letter.

Of an HTTPRoute that passed its checks the tables are given the key and the effective hostnames;
its rules and the engines made of them are taken to compile.
-/

namespace Edgion.Grpc

open Common Hostname HostMatch Edgion.Text List
open Http (RegexLib)

universe u

/-! ## The tables -/

/-- What the tables read of an HTTPRoute. -/
structure ServedRoute where
  key : String
  effectiveHostnames : List String
deriving DecidableEq, Repr

/-- `parse_http_routes_to_domain_rules`: the domains, each with the keys of the routes that have
rules under it. -/
def parseHttpRoutesToDomainRules (routes : List ServedRoute) : List (String × List String) :=
  (routes.flatMap ServedRoute.effectiveHostnames).dedup.map fun domain =>
    (domain, (routes.filter fun route => domain ∈ route.effectiveHostnames).map ServedRoute.key)

/-- Where the rules of a domain are kept in `DomainRouteRules`: the exact names, the wildcards, or
the catch-all. -/
inductive HostEntry
  | exact (name : String)
  | wildcard (host : RadixHost Unit)
  | catchAll

section Tables

variable (toLowercase : String → String)

/-- The branches of `full_set`. -/
def hostEntry (domain : String) : HostEntry :=
  if domain = catchAllHostname then .catchAll
  else if startsWith domain "*." then .wildcard (.new toLowercase domain ())
  else .exact (toLowercase domain)

/-- **`full_set`**: the rules of each domain go into one of the tables. Domains in lower case are
keys of their own, so that no entry is over another. -/
def fullSet (routes : List ServedRoute) : List (HostEntry × List String) :=
  (parseHttpRoutesToDomainRules routes).map fun (domain, rules) => (hostEntry toLowercase domain, rules)

/-- **An entry covers a host**: `match_route` finds it, if nothing before it. -/
def HostEntry.covers (requestHost : String) : HostEntry → Bool
  | .exact name => toLowercase requestHost == name
  | .wildcard host => host.matchesHost toLowercase requestHost
  | .catchAll => true

/-- **A route is indexed under an entry that covers the host.** -/
def Indexed (table : List (HostEntry × List String)) (key requestHost : String) : Prop :=
  ∃ entry ∈ table, entry.1.covers toLowercase requestHost = true ∧ key ∈ entry.2

end Tables

/-! ## The names of a list -/

/-- ASCII text. -/
def Ascii (s : String) : Prop := ∀ c ∈ s.toList, c.toNat < 128

instance (s : String) : Decidable (Ascii s) := decidableBAll _ s.toList

/-- **A hostname a Gateway or route can have**: lower-case ASCII text, and if it is a wildcard, one
over a domain name. -/
structure Listable (hn : String) : Prop where
  ascii : Ascii hn
  lower : LowerCase hn
  domain : IsWildcard hn → IsDomainName (String.ofList (hn.toList.drop 2))

/-- **A hostname names a host**: a wildcard over the host as it is written, or the host's name. -/
def Named (hn host : String) : Prop :=
  Over hn host ∨ ¬ IsWildcard hn ∧ hn = toAsciiLowercase host

/-- **A hostname is missed**: the catch-all, or a wildcard over the host in lower case and not as it
is written. -/
def Missed (hn host : String) : Prop :=
  hn = catchAllHostname ∨ Over hn (toAsciiLowercase host) ∧ ¬ Over hn host

section Hosts

variable {toLowercase : String → String} {hn host : String}

theorem lowerCase_toAsciiLowercase : LowerCase (toAsciiLowercase host) := by
  intro c hc
  rw [toAsciiLowercase, String.toList_ofList] at hc
  obtain ⟨c', -, rfl⟩ := mem_map.1 hc
  exact toLower_toLower c'

/-- What a listener or a route may list is in lower case already. -/
theorem Listable.toAsciiLowercase_eq (h : Listable hn) : toAsciiLowercase hn = hn := by
  rw [toAsciiLowercase, h.lower.map_toLower, String.ofList_toList]

/-- On hostnames that may be listed, the comparison of the listeners is that of names. -/
theorem hostnameMatchesListener_iff_named (h : Listable hn) :
    hostnameMatchesListener host hn ↔ Named hn host := by
  unfold Named
  by_cases hw : IsWildcard hn
  · simp [hostnameMatchesListener_of_wildcard hw, hw]
  · have hover : ¬ Over hn host := fun hover => hw hover.isWildcard
    rw [hostnameMatchesListener_of_plain hw, eqIgnoreAsciiCase_iff, h.lower.map_toLower,
      or_iff_right hover, and_iff_right hw, toAsciiLowercase, eq_comm, ← String.toList_inj,
      String.toList_ofList]

/-- A wildcard over a host is over its lower case, which the tables are asked for. -/
theorem Listable.over_toAsciiLowercase (h : Listable hn) (hover : Over hn host) :
    Over hn (toAsciiLowercase host) := by
  refine over_of_eqIgnoreAsciiCase h.lower lowerCase_toAsciiLowercase ?_ hover
  rw [eqIgnoreAsciiCase_iff, lowerCase_toAsciiLowercase.map_toLower, toAsciiLowercase,
    String.toList_ofList]

variable (hlower : ∀ s, Ascii s → toLowercase s = toAsciiLowercase s)

include hlower in
/-- **The entry of a hostname covers** the hosts it names, and those it is missed at. -/
theorem covers_iff (h : Listable hn) (hhost : Ascii host) :
    (hostEntry toLowercase hn).covers toLowercase host ↔ Named hn host ∨ Missed hn host := by
  have hsame : toLowercase hn = hn := by rw [hlower _ h.ascii, h.toAsciiLowercase_eq]
  unfold hostEntry Named Missed
  by_cases hstar : hn = catchAllHostname
  · simp [hstar, HostEntry.covers]
  rw [if_neg hstar, or_iff_right hstar]
  by_cases hw : IsWildcard hn
  · have hd := h.domain hw
    obtain ⟨t, ht⟩ := isWildcard_iff.1 hw
    rw [ht, drop_succ_cons, drop_succ_cons, drop_zero] at hd
    obtain rfl : hn = "*." ++ String.ofList t := String.toList_injective (by simp [ht])
    rw [if_pos (by exact hw), HostEntry.covers, RadixHost.matchesHost_iff, hsame, hlower _ hhost,
      hostMatches_star_iff hd, ← over_star_iff]
    constructor
    · intro hover
      exact (em (Over _ host)).imp .inl fun hwritten => ⟨hover, hwritten⟩
    · rintro ((hover | hplain) | hmissed)
      · exact h.over_toAsciiLowercase hover
      · exact absurd hw hplain.1
      · exact hmissed.1
  · have hover {x : String} : ¬ Over hn x := fun hover => hw hover.isWildcard
    rw [if_neg (by exact hw), HostEntry.covers, beq_iff_eq, hsame, hlower _ hhost,
      or_iff_right hover, and_iff_right hw, or_iff_left fun hmissed => hover hmissed.1, eq_comm]

variable {routes : List ServedRoute} {route : ServedRoute}

/-- A route is indexed under the entries of its hostnames. -/
theorem indexed_iff (hroute : route ∈ routes)
    (hkeys : ∀ other ∈ routes, other.key = route.key → other = route) :
    Indexed toLowercase (fullSet toLowercase routes) route.key host ↔
      ∃ hn ∈ route.effectiveHostnames, (hostEntry toLowercase hn).covers toLowercase host = true := by
  constructor
  · rintro ⟨entry, hentry, hcovers, hkey⟩
    obtain ⟨_, hdomain, rfl⟩ := mem_map.1 hentry
    obtain ⟨domain, -, rfl⟩ := mem_map.1 hdomain
    obtain ⟨other, hother, heq⟩ := mem_map.1 hkey
    obtain ⟨hmem, hin⟩ := mem_filter.1 hother
    obtain rfl := hkeys other hmem heq
    exact ⟨domain, of_decide_eq_true hin, hcovers⟩
  · rintro ⟨hn, hin, hcovers⟩
    have hdomain : hn ∈ (routes.flatMap ServedRoute.effectiveHostnames).dedup :=
      mem_dedup.2 (mem_flatMap.2 ⟨route, hroute, hin⟩)
    exact ⟨_, mem_map_of_mem (mem_map_of_mem hdomain), hcovers,
      mem_map_of_mem (mem_filter.2 ⟨hroute, decide_eq_true hin⟩)⟩

variable {R : RegexLib} {Actions : Type u} {unit : GrpcRouteRuleUnit R Actions}

/-- `matches_hostname` lets every host pass without hostnames and with the catch-all alone. -/
theorem matchesHostname_iff {host : String} :
    unit.matchesHostname host ↔ unit.routeInfo.effectiveHostnames = [] ∨
      unit.routeInfo.effectiveHostnames = [catchAllHostname] ∨
      ∃ hn ∈ unit.routeInfo.effectiveHostnames, hostnameMatchesListener host hn = true := by
  have hread : ∀ hn, (if startsWith hn "*." then hostnameMatchesListener host hn
      else eqIgnoreAsciiCase host hn) = hostnameMatchesListener host hn := by
    intro hn
    unfold hostnameMatchesListener
    split <;> rfl
  unfold GrpcRouteRuleUnit.matchesHostname
  simp only [hread]
  simp [or_assoc]

end Hosts

/-- A Gateway for every host and one for a single name. -/
def openAndNamed : List Gateway :=
  [⟨none, some "open", some [⟨"http", none, 80⟩]⟩,
    ⟨none, some "named", some [⟨"http", some "a.com", 80⟩]⟩]

/-- A unit of a route with both as parents and no hostnames of its own. -/
def unitOfBoth : GrpcRouteRuleUnit Http.plainRegex Unit :=
  ⟨"", .new _ "default" "r" 0 0 ⟨none, none⟩ 0, ⟨none, ()⟩, none,
    (resolveEffectiveHostnames openAndNamed none [⟨none, none, none, "open", none, none⟩,
      ⟨none, none, none, "named", none, none⟩] "default").hostnames⟩

/-- An HTTPRoute with the same parents. -/
def routeOfBoth : ServedRoute := ⟨"default/r", unitOfBoth.routeInfo.effectiveHostnames⟩

end Edgion.Grpc
