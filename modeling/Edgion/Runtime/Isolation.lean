import Edgion.Runtime.Store
import Mathlib.Data.Finset.Max

/-!
# Gateway runtime — listener isolation

A listener gives way when another listener on its port takes the host too
and is more specific. On the linear order `specificity` the test
`has_more_specific_listener` is exactly that, so the listeners that pass
it are those at the maximum, and two listeners that take one host at the
same specificity have the same hostname up to letter case.
-/

namespace Edgion.Runtime

open Text Hostname ListenerConfig List

/-- **A listener takes a host** when it has no hostname or its hostname
matches. -/
def ListenerConfig.takes (c : ListenerConfig) (host : String) : Bool :=
  c.hostname.all (hostnameMatchesListener host)

/-- The same hostname up to letter case, or none for both. -/
def sameHostname : Option String → Option String → Bool
  | none, none => true
  | some h, some h' => eqIgnoreAsciiCase h h'
  | _, _ => false

namespace GatewayListenerConfig

/-- The listeners on a port that take a host and that no more specific
listener stands before. -/
def serving (config : GatewayListenerConfig) (host : String) (port : ℤ) : List ListenerConfig :=
  config.listeners.filter fun c =>
    c.port == port && c.takes host && !config.hasMoreSpecificListener host c.hostname c.port

variable {config : GatewayListenerConfig} {host : String} {port : ℤ}
  {current : Option String} {c c' : ListenerConfig}

/-- One turn of the loop, for a listener that is a candidate at all. -/
theorem isMoreSpecific_iff (hcur : ∀ h ∈ current, IsWildcard h) :
    isMoreSpecific host current port c ↔
      c.port = port ∧ c.takes host ∧ specificity current < specificity c.hostname := by
  unfold isMoreSpecific takes
  by_cases hport : c.port = port
  swap
  · simp [hport]
  rw [if_neg (not_not_intro hport)]
  cases hother : c.hostname with
  | none =>
    -- no hostname is below every other
    have hle : specificity none ≤ specificity current := by
      cases current with
      | none => exact le_rfl
      | some h => exact (specificity_none_lt h).le
    refine iff_of_false (by simp) fun h => hle.not_gt h.2.2
  | some otherHost =>
    by_cases hm : hostnameMatchesListener host otherHost = true
    swap
    · simp [hm]
    simp only [hm, Bool.not_true, Bool.false_eq_true, if_false, hport, Option.all_some, true_and]
    cases current with
    | none => simpa using specificity_none_lt otherHost
    | some currentHost =>
      rw [specificity_of_wildcard (hcur currentHost rfl)]
      by_cases hw : IsWildcard otherHost
      · have hw' : startsWith otherHost "*." = true := hw
        rw [specificity_of_wildcard hw, WithTop.coe_lt_coe]
        simp only [hw', Bool.not_true, Bool.false_eq_true, if_false, Bool.and_eq_true,
          decide_eq_true_eq]
        exact ⟨And.right, fun hlt => ⟨fun e => by rw [e] at hlt; omega, hlt⟩⟩
      · have hw' : startsWith otherHost "*." = false := Bool.eq_false_iff.2 hw
        rw [specificity_of_plain hw]
        simp [hw']

/-- **The test is the order.** -/
theorem hasMoreSpecificListener_iff : config.hasMoreSpecificListener host current port ↔
      ∃ c ∈ config.listeners, c.port = port ∧ c.takes host ∧
        specificity current < specificity c.hostname := by
  unfold hasMoreSpecificListener
  by_cases hcur : ∀ h ∈ current, IsWildcard h
  · have hany : ¬ (current.any fun h => !startsWith h "*.") := by
      cases current with
      | none => simp
      | some h => simpa using startsWith_iff.1 (hcur h rfl)
    rw [if_neg hany, any_eq_true]
    simp only [isMoreSpecific_iff hcur]
  · -- nothing is above a plain name
    obtain ⟨h, rfl, hw⟩ : ∃ h, current = some h ∧ ¬ IsWildcard h := by
      simpa using hcur
    have hplain : startsWith h "*." = false := Bool.eq_false_iff.2 hw
    simp [hplain, specificity_of_plain hw]

theorem mem_serving :
    c ∈ config.serving host port ↔ c ∈ config.listeners ∧ c.port = port ∧ c.takes host ∧
      ∀ c' ∈ config.listeners, c'.port = port → c'.takes host →
        specificity c'.hostname ≤ specificity c.hostname := by
  unfold serving
  rw [mem_filter, Bool.and_eq_true, Bool.and_eq_true, beq_iff_eq, Bool.not_eq_true',
    ← Bool.not_eq_true, hasMoreSpecificListener_iff]
  constructor
  · rintro ⟨hc, ⟨rfl, htakes⟩, hno⟩
    refine ⟨hc, rfl, htakes, fun c' hc' hport htakes' => ?_⟩
    by_contra hlt
    exact hno ⟨c', hc', hport, htakes', not_le.1 hlt⟩
  · rintro ⟨hc, rfl, htakes, hmax⟩
    refine ⟨hc, ⟨rfl, htakes⟩, ?_⟩
    rintro ⟨c', hc', hport, htakes', hlt⟩
    exact absurd (hmax c' hc' hport htakes') (not_le.2 hlt)

/-- **Equally specific listeners of one host have one hostname**, up to
letter case. -/
theorem sameHostname_of_specificity (hc : c.takes host) (hc' : c'.takes host)
    (he : specificity c.hostname = specificity c'.hostname) :
    sameHostname c.hostname c'.hostname = true := by
  unfold takes at hc hc'
  cases hh : c.hostname with
  | none =>
    cases hh' : c'.hostname with
    | none => rfl
    | some h' => rw [hh, hh'] at he; exact absurd he (specificity_none_lt h').ne
  | some h =>
    cases hh' : c'.hostname with
    | none => rw [hh, hh'] at he; exact absurd he.symm (specificity_none_lt h).ne
    | some h' =>
      rw [hh, Option.all_some] at hc
      rw [hh', Option.all_some] at hc'
      rw [hh, hh'] at he
      by_cases hw : IsWildcard h <;> by_cases hw' : IsWildcard h'
      · -- two wildcards of one length
        rw [specificity_of_wildcard hw, specificity_of_wildcard hw', WithTop.coe_inj] at he
        have e := ((hostnameMatchesListener_of_wildcard hw).1 hc).eq_of_len
          ((hostnameMatchesListener_of_wildcard hw').1 hc') he
        simp [sameHostname, e]
      · rw [specificity_of_wildcard hw, specificity_of_plain hw'] at he
        exact absurd he (WithTop.coe_ne_top)
      · rw [specificity_of_plain hw, specificity_of_wildcard hw'] at he
        exact absurd he.symm (WithTop.coe_ne_top)
      · -- two plain names, each the host up to letter case
        rw [hostnameMatchesListener_of_plain hw, eqIgnoreAsciiCase_iff] at hc
        rw [hostnameMatchesListener_of_plain hw', eqIgnoreAsciiCase_iff] at hc'
        simp [sameHostname, ← hc, ← hc']

/-- **Listener isolation.** Where some listener on the port takes the host,
the listeners that pass the test are there, have one hostname up to letter
case, and no listener on the port that takes the host is more specific. -/
theorem serving_most_specific (config : GatewayListenerConfig) (host : String) (port : ℤ)
    (htaken : ∃ c ∈ config.listeners, c.port = port ∧ c.takes host = true) :
    config.serving host port ≠ [] ∧
      (∀ c ∈ config.serving host port, ∀ c' ∈ config.serving host port,
        sameHostname c.hostname c'.hostname = true) ∧
      ∀ c ∈ config.serving host port, ∀ c' ∈ config.listeners, c'.port = port →
        c'.takes host = true → specificity c'.hostname ≤ specificity c.hostname := by
  refine ⟨?_, ?_, fun c hc => (mem_serving.1 hc).2.2.2⟩
  · -- a listener at the maximum
    let candidates := config.listeners.toFinset.filter fun c => c.port = port ∧ c.takes host = true
    have hne : candidates.Nonempty := by
      obtain ⟨c, hc, hport, htakes⟩ := htaken
      exact ⟨c, by simp [candidates, hc, hport, htakes]⟩
    obtain ⟨c, hc, hmax⟩ := candidates.exists_max_image (fun c => specificity c.hostname) hne
    simp only [candidates, Finset.mem_filter, mem_toFinset] at hc hmax
    exact ne_nil_of_mem (mem_serving.2 ⟨hc.1, hc.2.1, hc.2.2,
      fun c' hc' hport htakes => hmax c' ⟨hc', hport, htakes⟩⟩)
  · intro c hc c' hc'
    obtain ⟨hin, hport, htakes, hmax⟩ := mem_serving.1 hc
    obtain ⟨hin', hport', htakes', hmax'⟩ := mem_serving.1 hc'
    exact sameHostname_of_specificity htakes htakes'
      (le_antisymm (hmax' c hin hport htakes) (hmax c' hin' hport' htakes'))

/-- A Gateway with a catch-all, a wildcard and a plain listener on one
port. -/
def threeListeners : Gateway Unit :=
  { ns := some "default"
    nameAny := "gw"
    listeners := some
      [⟨"all", none, 80, none, none⟩, ⟨"wild", some "*.example.com", 80, none, none⟩,
        ⟨"api", some "api.example.com", 80, none, none⟩] }

/-- All three of its listeners take the host, and one of them serves it. -/
theorem serving_most_specific_threeListeners :
    (parseGatewayToConfig threeListeners).serving "api.example.com" 80 ≠ [] :=
  (serving_most_specific _ _ _ ⟨⟨"all", 80, none, none⟩, by decide +kernel, rfl, rfl⟩).1

end GatewayListenerConfig

end Edgion.Runtime
