import Edgion.GatewayApi.Attachment
import Edgion.GatewayApi.HTTPRoute
import Edgion.GatewayApi.Handler
import Mathlib.Data.List.Find

/-!
# Gateway API — the status of a route

A route reports, for each parent it names, whether the parent accepts it
and whether its references are resolved. The entry of a parent is looked
for by name, namespace and section, and kept in the end if name,
namespace, section and port are those of a parent that is still named. So
two parents that differ in the port only share an entry, and an entry
with an outdated port is first written and then dropped. Where neither
occurs, each parent has an entry that says what was last found.
-/

namespace Edgion.GatewayApi

open Hostname (ParentReference)
open List

/-! ## Errors -/

def AcceptedError.message : AcceptedError → String
  | .notAllowedByListeners routeNs =>
    "Route namespace '" ++ routeNs ++ "' not allowed by Gateway listeners"
  | .noMatchingListenerHostname hostnames =>
    "No matching hostname for route hostnames " ++ GatewayHandler.debugNames hostnames
  | .noMatchingParent sectionName =>
    "No matching listener for sectionName '" ++ sectionName ++ "'"

inductive ResolvedRefsError
  | invalidKind (kind name : String)
  | backendNotFound (ns name : String)
  | refNotPermitted (targetNamespace targetName : String)
deriving DecidableEq, Repr

namespace ResolvedRefsError

def message : ResolvedRefsError → String
  | .invalidKind kind name =>
    "Invalid backend ref kind '" ++ kind ++ "' for backend '" ++ name ++ "'"
  | .backendNotFound ns name => "Service '" ++ ns ++ "/" ++ name ++ "' not found"
  | .refNotPermitted targetNamespace targetName =>
    "Cross-namespace reference to " ++ targetNamespace ++ "/" ++ targetName ++
      " not allowed by ReferenceGrant"

/-- `pick_resolved_refs_reason`. -/
def pickReason (errors : List ResolvedRefsError) : String :=
  if errors.any fun | .invalidKind .. => true | _ => false then "InvalidKind"
  else if errors.any fun | .refNotPermitted .. => true | _ => false then "RefNotPermitted"
  else if errors.any fun | .backendNotFound .. => true | _ => false then "BackendNotFound"
  else "RefNotPermitted"

end ResolvedRefsError

def validateBackendRefs (serviceExists : String → String → Bool) (routeNs : String)
    (backendRefs : List HTTPBackendRef) : List ResolvedRefsError :=
  backendRefs.filterMap fun backendRef =>
    let kind := backendRef.kind.getD "Service"
    let backendNs := backendRef.ns.getD routeNs
    if kind ≠ "Service" then some (.invalidKind kind backendRef.name)
    else if !serviceExists backendNs backendRef.name then
      some (.backendNotFound backendNs backendRef.name)
    else none

def collectRefDeniedErrors (backendRefs : List HTTPBackendRef) : List ResolvedRefsError :=
  (backendRefs.filterMap HTTPBackendRef.refDenied).map fun refDenied =>
    .refNotPermitted refDenied.targetNamespace refDenied.targetName

/-! ## Conditions -/

/-- The `Accepted` condition that errors make. -/
def acceptedCondition (acceptedErrors : List AcceptedError) : Condition :=
  match acceptedErrors with
  | [] => conditionTrue "Accepted" "Accepted" "Route accepted"
  | error :: _ =>
    conditionFalse "Accepted" error.reason
      ("; ".intercalate (acceptedErrors.map AcceptedError.message))

variable (errors : List ResolvedRefsError)

def resolvedRefsCondition : Condition :=
  if errors = [] then conditionTrue "ResolvedRefs" "ResolvedRefs" "All references resolved"
  else
    conditionFalse "ResolvedRefs" (ResolvedRefsError.pickReason errors)
      ("; ".intercalate (errors.map ResolvedRefsError.message))

variable (conditions : List Condition)

def setRouteParentConditionsFull
    (acceptedErrors : List AcceptedError) (resolvedRefsErrors : List ResolvedRefsError) :
    List Condition :=
  let conditions := updateCondition conditions (acceptedCondition acceptedErrors)
  let conditions :=
    if acceptedErrors = [] then
      updateCondition (updateCondition conditions
          (conditionTrue "Programmed" "Programmed" "Configuration programmed"))
        (conditionTrue "Ready" "Ready" "Route is ready")
    else conditions
  updateCondition conditions (resolvedRefsCondition resolvedRefsErrors)

@[simp] theorem type_acceptedCondition (acceptedErrors : List AcceptedError) :
    (acceptedCondition acceptedErrors).type_ = "Accepted" := by
  cases acceptedErrors <;> rfl

@[simp] theorem type_resolvedRefsCondition :
    (resolvedRefsCondition errors).type_ = "ResolvedRefs" := by
  unfold resolvedRefsCondition
  split <;> rfl

/-- **The `Accepted` condition is the one that was set.** -/
theorem findCondition_setRouteParentConditionsFull
    (acceptedErrors : List AcceptedError) (resolvedRefsErrors : List ResolvedRefsError) :
    findCondition (setRouteParentConditionsFull conditions acceptedErrors resolvedRefsErrors)
      "Accepted" = some (acceptedCondition acceptedErrors) := by
  have hset : findCondition (updateCondition conditions (acceptedCondition acceptedErrors))
      "Accepted" = some (acceptedCondition acceptedErrors) :=
    findCondition_updateCondition (type_acceptedCondition acceptedErrors)
  simp only [setRouteParentConditionsFull]
  rw [findCondition_updateCondition_of_ne (by simp)]
  split
  · rw [findCondition_updateCondition_of_ne (by simp), findCondition_updateCondition_of_ne (by simp),
      hset]
  · exact hset

/-! ## The entries of the parents -/

variable (a b : ParentReference)

/-- How `update_status` looks for the entry of a parent. -/
def samePlace : Bool :=
  a.name = b.name && a.ns = b.ns && a.sectionName = b.sectionName

/-- What `retain_current_parent_statuses` asks. -/
def sameParent : Bool := samePlace a b && a.port = b.port

/-- `update_status`, for one parent. -/
def updateParentStatus (acceptedErrors : ParentReference → List AcceptedError)
    (resolvedRefsErrors : List ResolvedRefsError) (parents : List RouteParentStatus)
    (pr : ParentReference) : List RouteParentStatus :=
  updateFirst (fun ps => samePlace ps.parentRef pr) (fun ps => { ps with
      conditions := setRouteParentConditionsFull ps.conditions (acceptedErrors pr)
        resolvedRefsErrors })
    ⟨pr, []⟩ parents

variable (parents : List RouteParentStatus)

def retainCurrentParentStatuses (parentRefs : List ParentReference) : List RouteParentStatus :=
  parents.filter fun ps => parentRefs.any fun pr => sameParent ps.parentRef pr

/-- `update_status`, for all parents. -/
def updateParentStatuses (acceptedErrors : ParentReference → List AcceptedError)
    (resolvedRefsErrors : List ResolvedRefsError) (parentRefs : List ParentReference)
    (parents : List RouteParentStatus) : List RouteParentStatus :=
  retainCurrentParentStatuses
    (parentRefs.foldl (updateParentStatus acceptedErrors resolvedRefsErrors) parents) parentRefs

/-- **The `Accepted` condition a status holds for a parent.** -/
def acceptedOf (pr : ParentReference) : Option Condition :=
  (parents.find? fun ps => sameParent ps.parentRef pr).bind fun ps =>
    findCondition ps.conditions "Accepted"

/-- **No two parents share an entry**, and no entry has an outdated port. -/
structure PlacesTold (parentRefs : List ParentReference) (parents : List RouteParentStatus) :
    Prop where
  refs : ∀ a ∈ parentRefs, ∀ b ∈ parentRefs, samePlace a b = true → a = b
  ports : ∀ ps ∈ parents, ∀ pr ∈ parentRefs, samePlace ps.parentRef pr = true →
    ps.parentRef.port = pr.port

section

variable {acceptedErrors : ParentReference → List AcceptedError}
  {resolvedRefsErrors : List ResolvedRefsError} {parentRefs : List ParentReference}
  {parents : List RouteParentStatus} {pr pr' : ParentReference}

theorem samePlace_iff {a b : ParentReference} :
    samePlace a b ↔ a.name = b.name ∧ a.ns = b.ns ∧ a.sectionName = b.sectionName := by
  simp [samePlace, and_assoc]

/-- Entries keep their parents, and a new one is of the parent at hand. -/
theorem parentRef_of_mem_updateParentStatus {ps : RouteParentStatus}
    (h : ps ∈ updateParentStatus acceptedErrors resolvedRefsErrors parents pr) :
    (∃ ps' ∈ parents, ps'.parentRef = ps.parentRef) ∨ ps.parentRef = pr := by
  unfold updateParentStatus at h
  induction parents with
  | nil =>
    rw [updateFirst, mem_singleton] at h
    exact .inr (h ▸ rfl)
  | cons head tail ih =>
    rw [updateFirst] at h
    split_ifs at h
    · rcases mem_cons.1 h with rfl | hmem
      · exact .inl ⟨head, mem_cons_self, rfl⟩
      · exact .inl ⟨ps, mem_cons_of_mem head hmem, rfl⟩
    · rcases mem_cons.1 h with rfl | hmem
      · exact .inl ⟨ps, mem_cons_self, rfl⟩
      · refine (ih hmem).imp_left ?_
        rintro ⟨ps', hps', heq⟩
        exact ⟨ps', mem_cons_of_mem head hps', heq⟩

/-- Setting the entry of another parent leaves an entry alone. -/
theorem filter_updateParentStatus_of_ne (hne : samePlace pr' pr = false) :
    (updateParentStatus acceptedErrors resolvedRefsErrors parents pr').filter
        (fun ps => samePlace ps.parentRef pr) =
      parents.filter fun ps => samePlace ps.parentRef pr := by
  have hdisj (ps : RouteParentStatus) (h : samePlace ps.parentRef pr') :
      samePlace ps.parentRef pr = false := by
    rw [← Bool.not_eq_true, samePlace_iff] at hne ⊢
    obtain ⟨hname, hns, hsec⟩ := samePlace_iff.1 h
    rwa [hname, hns, hsec]
  exact filter_updateFirst_of_disjoint hdisj hdisj (samePlace_iff.2 ⟨rfl, rfl, rfl⟩) parents

variable {todo : List ParentReference}

theorem PlacesTold.foldl (h : PlacesTold parentRefs parents)
    (htodo : ∀ pr ∈ todo, pr ∈ parentRefs) :
    PlacesTold parentRefs
      (todo.foldl (updateParentStatus acceptedErrors resolvedRefsErrors) parents) := by
  induction todo generalizing parents with
  | nil => exact h
  | cons head todo ih =>
    refine ih ⟨h.refs, fun ps hps pr hpr hplace => ?_⟩ fun pr hpr =>
      htodo pr (mem_cons_of_mem head hpr)
    rcases parentRef_of_mem_updateParentStatus hps with ⟨ps', hps', heq⟩ | heq
    · rw [← heq] at hplace ⊢
      exact h.ports ps' hps' pr hpr hplace
    · rw [heq] at hplace ⊢
      rw [h.refs head (htodo head mem_cons_self) pr hpr hplace]

/-- Other parents leave an entry alone. -/
theorem find?_foldl_of_ne (hne : ∀ pr' ∈ todo, samePlace pr' pr = false) :
    (todo.foldl (updateParentStatus acceptedErrors resolvedRefsErrors) parents).find?
        (fun ps => samePlace ps.parentRef pr) =
      parents.find? fun ps => samePlace ps.parentRef pr := by
  induction todo generalizing parents with
  | nil => rfl
  | cons head todo ih =>
    rw [foldl_cons, ih fun pr' hpr' => hne pr' (mem_cons_of_mem head hpr')]
    rw [← head?_filter, filter_updateParentStatus_of_ne (hne head mem_cons_self), head?_filter]

/-- After the loop the entry of each parent says what was found for it. -/
theorem accepted_foldl
    (hrefs : ∀ a ∈ todo, ∀ b ∈ todo, samePlace a b → a = b) (hpr : pr ∈ todo) :
    ((todo.foldl (updateParentStatus acceptedErrors resolvedRefsErrors) parents).find? fun ps =>
        samePlace ps.parentRef pr).bind (fun ps => findCondition ps.conditions "Accepted") =
      some (acceptedCondition (acceptedErrors pr)) := by
  induction todo generalizing parents with
  | nil => cases hpr
  | cons head todo ih =>
    rw [foldl_cons]
    by_cases hmem : pr ∈ todo
    · exact ih (fun a ha b hb => hrefs a (mem_cons_of_mem head ha) b (mem_cons_of_mem head hb)) hmem
    · -- Its last turn is this one: what comes after it is of other parents.
      have hlater : ∀ pr' ∈ todo, samePlace pr' pr = false := fun pr' hpr' => by
        rw [← Bool.not_eq_true]
        intro hplace
        exact hmem (hrefs pr' (mem_cons_of_mem head hpr') pr hpr hplace ▸ hpr')
      obtain rfl : pr = head := (mem_cons.1 hpr).resolve_right hmem
      rw [find?_foldl_of_ne hlater, updateParentStatus, find?_updateFirst]
      · exact findCondition_setRouteParentConditionsFull _ _ _
      · exact fun _ hplace => hplace
      · exact samePlace_iff.2 ⟨rfl, rfl, rfl⟩

/-- **Each parent has an entry that says what was found for it.** -/
theorem acceptedOf_updateParentStatuses (h : PlacesTold parentRefs parents)
    (hpr : pr ∈ parentRefs) :
    acceptedOf (updateParentStatuses acceptedErrors resolvedRefsErrors parentRefs parents) pr =
      some (acceptedCondition (acceptedErrors pr)) := by
  have htold : PlacesTold parentRefs
      (parentRefs.foldl (updateParentStatus acceptedErrors resolvedRefsErrors) parents) :=
    h.foldl fun _ hpr => hpr
  -- An entry in the place of the parent has its port, so it is kept and found.
  have hsame : ∀ ps ∈ parentRefs.foldl (updateParentStatus acceptedErrors resolvedRefsErrors)
      parents, decide ((parentRefs.any fun pr => sameParent ps.parentRef pr) ∧
        sameParent ps.parentRef pr = true) = samePlace ps.parentRef pr := by
    intro ps hps
    rw [Bool.eq_iff_iff, decide_eq_true_eq, any_eq_true]
    constructor
    · rintro ⟨-, hparent⟩
      exact (Bool.and_eq_true_iff.1 hparent).1
    · intro hplace
      have hport := htold.ports ps hps pr hpr hplace
      have hparent : sameParent ps.parentRef pr = true := by simp [sameParent, hplace, hport]
      exact ⟨⟨pr, hpr, hparent⟩, hparent⟩
  rw [acceptedOf, updateParentStatuses, retainCurrentParentStatuses, find?_filter,
    find?_congr hsame]
  exact accepted_foldl h.refs hpr

end

/-! ## The conditions of a parent over many calls

A call of `set_route_parent_conditions_full` puts each condition it makes
in the place of the one of its type, and leaves those of other types. A
call with errors of acceptance makes neither `Programmed` nor `Ready`, so
those of an earlier call without such errors are left over. -/

/-- The conditions that a call makes besides `Accepted` and `ResolvedRefs` where
it has no errors of acceptance. -/
def readyConditions : List Condition :=
  [conditionTrue "Programmed" "Programmed" "Configuration programmed",
    conditionTrue "Ready" "Ready" "Route is ready"]

/-- The conditions after calls on a status without any. -/
def conditionsAfter (calls : List (List AcceptedError × List ResolvedRefsError)) : List Condition :=
  calls.foldl (fun conditions call => setRouteParentConditionsFull conditions call.1 call.2) []

variable (calls : List (List AcceptedError × List ResolvedRefsError))
variable (acceptedErrors : List AcceptedError) (resolvedRefsErrors : List ResolvedRefsError)

/-- **Once a call has no errors of acceptance**, the conditions that it makes
stay; which of them come first depends on the calls before. -/
theorem conditionsAfter_cases :
    let calls := calls ++ [(acceptedErrors, resolvedRefsErrors)]
    let accepted := acceptedCondition acceptedErrors
    let resolved := resolvedRefsCondition resolvedRefsErrors
    conditionsAfter calls = [accepted, resolved] ∧ (∀ call ∈ calls, call.1 ≠ []) ∨
      (conditionsAfter calls = accepted :: readyConditions ++ [resolved] ∨
        conditionsAfter calls = accepted :: resolved :: readyConditions) ∧
          ∃ call ∈ calls, call.1 = [] := by
  induction calls using reverseRecOn generalizing acceptedErrors resolvedRefsErrors with
  | nil =>
    by_cases h : acceptedErrors = []
    · right
      simp [h, conditionsAfter, setRouteParentConditionsFull, updateCondition, updateFirst,
        readyConditions]
    · left
      simp [h, conditionsAfter, setRouteParentConditionsFull, updateCondition, updateFirst]
  | append_singleton calls call ih =>
    have hpost : conditionsAfter (calls ++ [call] ++ [(acceptedErrors, resolvedRefsErrors)]) =
        setRouteParentConditionsFull (conditionsAfter (calls ++ [call])) acceptedErrors
          resolvedRefsErrors := by
      rw [conditionsAfter, foldl_append]
      rfl
    dsimp only
    rw [hpost]
    obtain ⟨heq, hall⟩ | ⟨heq, earlier, hmem, hempty⟩ := ih call.1 call.2
    · by_cases h : acceptedErrors = []
      · refine .inr ⟨.inr ?_, (acceptedErrors, resolvedRefsErrors), by simp, h⟩
        simp [heq, h, setRouteParentConditionsFull, updateCondition, updateFirst, readyConditions]
      · left
        simpa [heq, h, setRouteParentConditionsFull, updateCondition, updateFirst, or_imp,
          forall_and] using hall
    · refine .inr ⟨?_, earlier, mem_append_left _ hmem, hempty⟩
      by_cases h : acceptedErrors = [] <;> rcases heq with heq | heq
      all_goals
        simp [heq, h, setRouteParentConditionsFull, updateCondition, updateFirst, readyConditions]

/-- **What a parent's status should say after a call**: it is ready only if it
is accepted, and every condition is one that the call makes. -/
structure Reflects (conditions : List Condition) : Prop where
  accepted : ∀ c ∈ conditions, c.type_ = "Programmed" ∨ c.type_ = "Ready" → c.status = "True" →
    ∃ a ∈ conditions, a.type_ = "Accepted" ∧ a.status = "True"
  made : ∀ c ∈ conditions, c = acceptedCondition acceptedErrors ∨
    acceptedErrors = [] ∧ c ∈ readyConditions ∨ c = resolvedRefsCondition resolvedRefsErrors

/-- **After calls a status reflects the last one** exactly if that has no
errors of acceptance or every one before had some. -/
theorem reflects_conditionsAfter_iff : Reflects acceptedErrors resolvedRefsErrors
        (conditionsAfter (calls ++ [(acceptedErrors, resolvedRefsErrors)])) ↔
      acceptedErrors = [] ∨ ∀ call ∈ calls, call.1 ≠ [] := by
  obtain ⟨heq, hall⟩ | ⟨heq, call, hmem, hempty⟩ :=
    conditionsAfter_cases calls acceptedErrors resolvedRefsErrors
  · have hcalls : ∀ call ∈ calls, call.1 ≠ [] := fun call hmem => hall call (mem_append_left _ hmem)
    refine ⟨fun _ => .inr hcalls, fun _ => ?_⟩
    rw [heq]
    constructor <;> simp
  · have hmem_iff (c : Condition) :
        c ∈ conditionsAfter (calls ++ [(acceptedErrors, resolvedRefsErrors)]) ↔
          c = acceptedCondition acceptedErrors ∨ c ∈ readyConditions ∨
            c = resolvedRefsCondition resolvedRefsErrors := by
      rcases heq with heq | heq <;> simp [heq, or_comm]
    constructor
    · intro h
      left
      rcases h.made _ ((hmem_iff _).2 (.inr (.inl mem_cons_self))) with heq | ⟨hnil, -⟩ | heq
      · simpa using congrArg Condition.type_ heq
      · exact hnil
      · simpa using congrArg Condition.type_ heq
    · intro h
      obtain rfl : acceptedErrors = [] := by
        rcases h with h | h
        · exact h
        · rcases mem_append.1 hmem with hcall | hcall
          · exact absurd hempty (h call hcall)
          · rwa [mem_singleton.1 hcall] at hempty
      refine ⟨fun _ _ _ _ => ⟨acceptedCondition [], (hmem_iff _).2 (.inl rfl), rfl, rfl⟩, ?_⟩
      simp [hmem_iff]

/-- A parent that no longer accepts the route is still programmed and ready. -/
theorem programmed_left_over : conditionsAfter [([], []), ([.noMatchingParent "web"], [])] =
      [conditionFalse "Accepted" "NoMatchingParent" "No matching listener for sectionName 'web'",
        conditionTrue "Programmed" "Programmed" "Configuration programmed",
        conditionTrue "Ready" "Ready" "Route is ready",
        conditionTrue "ResolvedRefs" "ResolvedRefs" "All references resolved"] := by
  decide +kernel

end Edgion.GatewayApi
