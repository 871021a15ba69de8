import Edgion.GatewayApi.RouteHandlers

/-!
# Gateway API — the parents a route keeps in the data plane

The controller writes an `Accepted` condition for each parent of a route,
and the data plane drops the parents for which it reads a refusal. The two
look an entry up in different ways. The controller goes by name, namespace
and section, and leaves the port out: parentRefs that differ in the port
write to the same entry. The data plane goes by all four, with a default
for the namespace, and takes a parent without an entry to be accepted.
-/

namespace Edgion.GatewayApi

open Hostname (ParentReference)
open List Option RouteParentStatus

/-! ## The data plane -/

variable (ps : RouteParentStatus)

/-- Whether an entry has an `Accepted` condition that is true. -/
def saysAccepted : Bool :=
  ps.conditions.any fun c => c.type_ = "Accepted" && c.status = "True"

/-- How the data plane looks for the entry of a parent. -/
def sameTarget (routeNs : Option String) (a b : ParentReference) : Bool :=
  (a.ns.or routeNs).getD "default" = (b.ns.or routeNs).getD "default" && a.name = b.name &&
    a.sectionName = b.sectionName && a.port = b.port

def isParentRefAccepted (pr : ParentReference) (statusParents : List RouteParentStatus)
    (routeNs : Option String) : Bool :=
  match statusParents.find? fun sp => sameTarget routeNs sp.parentRef pr with
  | some sp => saysAccepted sp
  -- an entry that is not there yet is taken to be a good one
  | none => true

/-- The parentRefs, if there are any. -/
def nonEmpty (parentRefs : List ParentReference) : Option (List ParentReference) :=
  match parentRefs with
  | [] => none
  | _ :: _ => some parentRefs

def filterAcceptedParentRefs (parentRefs : Option (List ParentReference))
    (statusParents : Option (List RouteParentStatus)) (routeNs : Option String) :
    Option (List ParentReference) :=
  match parentRefs with
  | none => none
  | some parentRefs =>
    match statusParents.getD [] with
    | [] => nonEmpty parentRefs
    | statusParents =>
      nonEmpty (parentRefs.filter fun pr => isParentRefAccepted pr statusParents routeNs)

/-! ## Conditions -/

variable (conditions : List Condition)

/-- The `Accepted` conditions. A status may come with more than one. -/
def acceptedConditions : List Condition :=
  conditions.filter fun c => c.type_ = "Accepted"

/-- An `Accepted` condition after the first is true. -/
def secondAccepted : Bool :=
  (acceptedConditions ps.conditions).tail.any fun c => c.status = "True"

theorem saysAccepted_eq :
    saysAccepted ps = (acceptedConditions ps.conditions).any fun c => c.status = "True" := by
  unfold saysAccepted acceptedConditions
  rw [List.any_filter]

variable {new : Condition}

theorem acceptedConditions_updateCondition_of_ne (hne : new.type_ ≠ "Accepted") :
    acceptedConditions (updateCondition conditions new) = acceptedConditions conditions := by
  refine filter_updateFirst_of_disjoint (fun _ _ => by simpa using hne) (fun c hc => ?_) (by simp)
    conditions
  have hc : c.type_ = new.type_ := by simpa using hc
  simpa [hc] using hne

theorem acceptedConditions_updateCondition (h : new.type_ = "Accepted") :
    acceptedConditions (updateCondition conditions new) =
      new :: (acceptedConditions conditions).tail := by
  unfold acceptedConditions updateCondition
  rw [h]
  exact filter_updateFirst (fun _ _ => by simpa using h) (by simpa using h) conditions

variable (acceptedErrors : List AcceptedError)

/-- **Of the `Accepted` conditions the first is set.** -/
theorem acceptedConditions_set (resolvedRefsErrors : List ResolvedRefsError) : acceptedConditions
        (setRouteParentConditionsFull conditions acceptedErrors resolvedRefsErrors) =
      acceptedCondition acceptedErrors :: (acceptedConditions conditions).tail := by
  have hset := acceptedConditions_updateCondition conditions (type_acceptedCondition acceptedErrors)
  simp only [setRouteParentConditionsFull]
  rw [acceptedConditions_updateCondition_of_ne _ (by simp)]
  split
  · rw [acceptedConditions_updateCondition_of_ne _ (by simp),
      acceptedConditions_updateCondition_of_ne _ (by simp), hset]
  · exact hset

theorem status_acceptedCondition :
    (acceptedCondition acceptedErrors).status = "True" ↔ acceptedErrors = [] := by
  cases acceptedErrors <;> simp [acceptedCondition, conditionTrue, conditionFalse]

/-! ## What `update_status` makes of the entries of a place -/

section

variable {errors : ParentReference → List AcceptedError}
  {resolvedRefsErrors : List ResolvedRefsError} {parentRefs : List ParentReference}
  {parents : List RouteParentStatus} {pr pr' : ParentReference}

/-- The entries in the place of a parent. -/
def inPlace (parents : List RouteParentStatus) (pr : ParentReference) : List RouteParentStatus :=
  parents.filter fun ps => samePlace ps.parentRef pr

/-- The parentRefs in the place of a parent. -/
def refsInPlace (parentRefs : List ParentReference) (pr : ParentReference) : List ParentReference :=
  parentRefs.filter fun pr' => samePlace pr' pr

/-- **The entry that is written for a place**: its first one, or else a new one of
its first parentRef. -/
def written (parentRefs : List ParentReference) (parents : List RouteParentStatus)
    (pr : ParentReference) : RouteParentStatus :=
  (inPlace parents pr).head?.getD ⟨(refsInPlace parentRefs pr).head?.getD pr, []⟩

theorem samePlace_congr (h : samePlace pr' pr) (a : ParentReference) :
    samePlace a pr' = samePlace a pr := by
  obtain ⟨hname, hns, hsec⟩ := samePlace_iff.1 h
  simp [samePlace, hname, hns, hsec]

theorem inPlace_update_of_ne (hne : samePlace pr' pr = false) :
    inPlace (updateParentStatus errors resolvedRefsErrors parents pr') pr = inPlace parents pr :=
  filter_updateParentStatus_of_ne hne

/-- What was found for a parentRef is set. -/
def RouteParentStatus.set (resolvedRefsErrors : List ResolvedRefsError)
    (found : List AcceptedError) (ps : RouteParentStatus) : RouteParentStatus :=
  { ps with conditions := setRouteParentConditionsFull ps.conditions found resolvedRefsErrors }

theorem inPlace_update (h : samePlace pr' pr) :
    inPlace (updateParentStatus errors resolvedRefsErrors parents pr') pr =
      set resolvedRefsErrors (errors pr')
        ((inPlace parents pr).head?.getD ⟨pr', []⟩) :: (inPlace parents pr).tail := by
  have hsame : (fun ps : RouteParentStatus => samePlace ps.parentRef pr) =
    fun ps => samePlace ps.parentRef pr' := funext fun ps => (samePlace_congr h ps.parentRef).symm
  unfold inPlace
  rw [hsame]
  exact filter_updateFirst (p := fun ps : RouteParentStatus => samePlace ps.parentRef pr')
    (f := set resolvedRefsErrors (errors pr')) (fun _ hps => hps)
    (samePlace_iff.2 ⟨rfl, rfl, rfl⟩) parents

/-- ParentRefs of other places leave a place alone. -/
theorem inPlace_foldl_of_none {todo : List ParentReference} (hnone : refsInPlace todo pr = []) :
    inPlace (todo.foldl (updateParentStatus errors resolvedRefsErrors) parents) pr =
      inPlace parents pr := by
  induction todo generalizing parents with
  | nil => rfl
  | cons pr' todo ih =>
    obtain ⟨hhead, htail⟩ : samePlace pr' pr = false ∧ refsInPlace todo pr = [] := by
      simpa [refsInPlace, filter_eq_nil_iff] using hnone
    rw [foldl_cons, ih htail, inPlace_update_of_ne hhead]

/-- **The entries of a place after the loop**: the one that is written says what was
found for the last parentRef of the place, and the others are as they were. -/
theorem inPlace_foldl (errors : ParentReference → List AcceptedError)
    (resolvedRefsErrors : List ResolvedRefsError) (parents : List RouteParentStatus)
    (todo : List ParentReference) {first last : ParentReference}
    (hfst : (refsInPlace todo pr).head? = some first)
    (hlast : (refsInPlace todo pr).getLast? = some last) :
    ∃ head, inPlace (todo.foldl (updateParentStatus errors resolvedRefsErrors) parents) pr =
        head :: (inPlace parents pr).tail ∧
      head.parentRef = ((inPlace parents pr).head?.getD ⟨first, []⟩).parentRef ∧
      acceptedConditions head.conditions = acceptedCondition (errors last) ::
        (acceptedConditions ((inPlace parents pr).head?.getD ⟨first, []⟩).conditions).tail := by
  induction todo using reverseRecOn generalizing last with
  | nil => cases hfst
  | append_singleton todo pr' ih =>
    rw [foldl_append, foldl_cons, foldl_nil]
    by_cases hplace : samePlace pr' pr = true
    · have hrefs : refsInPlace (todo ++ [pr']) pr = refsInPlace todo pr ++ [pr'] := by
        simp [refsInPlace, hplace]
      rw [hrefs] at hfst hlast
      obtain rfl : pr' = last := by simpa using hlast
      rw [inPlace_update hplace]
      -- the parentRef is the first of its place, or the entry was written before
      cases hpre : refsInPlace todo pr with
      | nil =>
        obtain rfl : pr' = first := by simpa [hpre] using hfst
        rw [inPlace_foldl_of_none hpre]
        exact ⟨_, rfl, rfl, acceptedConditions_set _ _ _⟩
      | cons a l =>
        rw [hpre] at hfst
        have hsome : (refsInPlace todo pr).head? = some first := by rw [hpre]; exact hfst
        obtain ⟨last', hlast'⟩ : ∃ last', (refsInPlace todo pr).getLast? = some last' := by
          rw [hpre]
          exact ⟨_, getLast?_eq_some_getLast (cons_ne_nil a l)⟩
        obtain ⟨head, hplace', href, hconditions⟩ := ih hsome hlast'
        refine ⟨set resolvedRefsErrors (errors pr') head, ?_, href, ?_⟩
        · rw [hplace', head?_cons, getD_some, tail_cons]
        · refine (acceptedConditions_set _ _ _).trans ?_
          rw [hconditions, tail_cons]
    · have hne : samePlace pr' pr = false := by simpa using hplace
      have hrefs : refsInPlace (todo ++ [pr']) pr = refsInPlace todo pr := by
        simp [refsInPlace, hne]
      rw [hrefs] at hfst hlast
      rw [inPlace_update_of_ne hne]
      exact ih hfst hlast

/-! ## When the status is right -/

/-- **The status is right for its parents**: each has one entry, which says whether
it was accepted, and every entry is of one of them. -/
structure StatusRight (errors : ParentReference → List AcceptedError)
    (parentRefs : List ParentReference) (parents : List RouteParentStatus) : Prop where
  one : ∀ pr ∈ parentRefs, ∃ ps, parents.filter (fun ps => sameParent ps.parentRef pr) = [ps] ∧
    (saysAccepted ps = true ↔ errors pr = [])
  current : ∀ ps ∈ parents, ∃ pr ∈ parentRefs, sameParent ps.parentRef pr = true

/-- **A parent is told apart**: the entry that is written for its place has its
port, no other entry has, and the last parentRef of the place is refused if and
only if this one is. Or another entry is the only one with its port, and already
says the right thing. -/
def ToldApart (errors : ParentReference → List AcceptedError) (parentRefs : List ParentReference)
    (parents : List RouteParentStatus) (pr : ParentReference) : Prop :=
  let others := (inPlace parents pr).tail.filter fun ps => ps.parentRef.port = pr.port
  if (written parentRefs parents pr).parentRef.port = pr.port then
    others = [] ∧ ∀ last, (refsInPlace parentRefs pr).getLast? = some last →
      ((errors last = [] ∨ secondAccepted (written parentRefs parents pr) = true) ↔ errors pr = [])
  else ∃ ps, others = [ps] ∧ (saysAccepted ps = true ↔ errors pr = [])

/-- The entries of a parent, once the others are dropped. -/
theorem filter_retain (hpr : pr ∈ parentRefs) (parents : List RouteParentStatus) :
    (retainCurrentParentStatuses parents parentRefs).filter (fun ps => sameParent ps.parentRef pr) =
      (inPlace parents pr).filter fun ps => ps.parentRef.port = pr.port := by
  unfold retainCurrentParentStatuses inPlace
  rw [List.filter_filter, List.filter_filter]
  refine List.filter_congr fun ps _ => ?_
  rw [Bool.eq_iff_iff, Bool.and_eq_true, Bool.and_eq_true, List.any_eq_true]
  have hparent : sameParent ps.parentRef pr ↔
      samePlace ps.parentRef pr ∧ ps.parentRef.port = pr.port := by
    simp [sameParent]
  constructor
  · rintro ⟨h, -⟩
    obtain ⟨hplace, hport⟩ := hparent.1 h
    exact ⟨by simpa using hport, hplace⟩
  · rintro ⟨hport, hplace⟩
    have h := hparent.2 ⟨hplace, by simpa using hport⟩
    exact ⟨h, pr, hpr, h⟩

/-- **One parent**: it has one entry of its own, with the right condition, if and
only if it is told apart. -/
theorem one_iff_toldApart (hpr : pr ∈ parentRefs) :
    (∃ ps, (updateParentStatuses errors resolvedRefsErrors parentRefs parents).filter
        (fun ps => sameParent ps.parentRef pr) = [ps] ∧
        (saysAccepted ps ↔ errors pr = [])) ↔
      ToldApart errors parentRefs parents pr := by
  have hmem : pr ∈ refsInPlace parentRefs pr := mem_filter.2 ⟨hpr, samePlace_iff.2 ⟨rfl, rfl, rfl⟩⟩
  have hne : refsInPlace parentRefs pr ≠ [] := ne_nil_of_mem hmem
  obtain ⟨first, hfst⟩ : ∃ first, (refsInPlace parentRefs pr).head? = some first :=
    ⟨_, head?_eq_some_head hne⟩
  obtain ⟨last, hlast⟩ : ∃ last, (refsInPlace parentRefs pr).getLast? = some last :=
    ⟨_, getLast?_eq_some_getLast hne⟩
  obtain ⟨head, hplace, href, hconditions⟩ :=
    inPlace_foldl errors resolvedRefsErrors parents parentRefs hfst hlast
  have hwritten : written parentRefs parents pr = (inPlace parents pr).head?.getD ⟨first, []⟩ := by
    rw [written, hfst, getD_some]
  have hsays : saysAccepted head ↔
      errors last = [] ∨ secondAccepted (written parentRefs parents pr) := by
    rw [saysAccepted_eq, hconditions, any_cons, Bool.or_eq_true, decide_eq_true_eq,
      status_acceptedCondition, hwritten]
    rfl
  rw [updateParentStatuses, filter_retain hpr, hplace, filter_cons, href, ← hwritten]
  unfold ToldApart
  dsimp only
  by_cases hport : (written parentRefs parents pr).parentRef.port = pr.port
  · rw [if_pos (by simpa using hport), if_pos hport]
    constructor
    · rintro ⟨ps, hlist, hacc⟩
      obtain ⟨rfl, hothers⟩ := cons.inj hlist
      refine ⟨hothers, fun last' hlast' => ?_⟩
      obtain rfl : last = last' := some.inj (hlast.symm.trans hlast')
      rw [← hsays]
      exact hacc
    · rintro ⟨hothers, hacc⟩
      exact ⟨head, by rw [hothers], hsays.trans (hacc last hlast)⟩
  · rw [if_neg (by simpa using hport), if_neg hport]

/-- **The status is right if and only if every parent is told apart.** -/
theorem statusRight_iff_toldApart (resolvedRefsErrors : List ResolvedRefsError) :
    StatusRight errors parentRefs
        (updateParentStatuses errors resolvedRefsErrors parentRefs parents) ↔
      ∀ pr ∈ parentRefs, ToldApart errors parentRefs parents pr := by
  constructor
  · exact fun h pr hpr => (one_iff_toldApart hpr).1 (h.one pr hpr)
  · exact fun h => ⟨fun pr hpr => (one_iff_toldApart hpr).2 (h pr hpr),
      fun _ hps => any_eq_true.1 (mem_filter.1 hps).2⟩

/-! ## What the data plane reads of it -/

variable {routeNs : Option String} {a b : ParentReference}

theorem sameTarget_iff : sameTarget routeNs a b ↔
      (a.ns.or routeNs).getD "default" = (b.ns.or routeNs).getD "default" ∧ a.name = b.name ∧
        a.sectionName = b.sectionName ∧ a.port = b.port := by
  simp [sameTarget, and_assoc]

/-- The same parent is the same target. -/
theorem sameTarget_of_sameParent (h : sameParent a b) : sameTarget routeNs a b = true := by
  obtain ⟨hplace, hport⟩ := Bool.and_eq_true_iff.1 h
  obtain ⟨hname, hns, hsec⟩ := samePlace_iff.1 hplace
  exact sameTarget_iff.2 ⟨by rw [hns], hname, hsec, by simpa using hport⟩

theorem sameTarget_trans {c : ParentReference} (hab : sameTarget routeNs a b)
    (hac : sameTarget routeNs a c) : sameTarget routeNs b c = true := by
  obtain ⟨hns, hname, hsec, hport⟩ := sameTarget_iff.1 hab
  obtain ⟨hns', hname', hsection', hport'⟩ := sameTarget_iff.1 hac
  exact sameTarget_iff.2 ⟨hns.symm.trans hns', hname.symm.trans hname',
    hsec.symm.trans hsection', hport.symm.trans hport'⟩

/-- The data plane reads the same of two parents with one target. -/
theorem isParentRefAccepted_congr (h : sameTarget routeNs pr pr')
    (parents : List RouteParentStatus) :
    isParentRefAccepted pr parents routeNs = isParentRefAccepted pr' parents routeNs := by
  obtain ⟨hns, hname, hsec, hport⟩ := sameTarget_iff.1 h
  simp only [isParentRefAccepted, sameTarget, hns, hname, hsec, hport]

/-- **ParentRefs with one target meet the same fate.** -/
def Alike (errors : ParentReference → List AcceptedError) (routeNs : Option String)
    (parentRefs : List ParentReference) : Prop :=
  ∀ pr ∈ parentRefs, ∀ pr' ∈ parentRefs, sameTarget routeNs pr pr' = true →
    (errors pr = [] ↔ errors pr' = [])

/-- **The data plane accepts a parent if and only if it was accepted.** -/
theorem StatusRight.isParentRefAccepted_iff (h : StatusRight errors parentRefs parents)
    (halike : Alike errors routeNs parentRefs) (hpr : pr ∈ parentRefs) :
    isParentRefAccepted pr parents routeNs ↔ errors pr = [] := by
  obtain ⟨ps, hone, -⟩ := h.one pr hpr
  have hps : ps ∈ parents.filter fun ps => sameParent ps.parentRef pr := by
    rw [hone]
    exact mem_singleton_self ps
  obtain ⟨hmem, hparent⟩ := mem_filter.1 hps
  have hfound : (parents.find? fun sp => sameTarget routeNs sp.parentRef pr).isSome :=
    find?_isSome.2 ⟨ps, hmem, sameTarget_of_sameParent hparent⟩
  obtain ⟨sp, hsp⟩ := isSome_iff_exists.1 hfound
  -- the entry that is found is that of a parentRef with the same target
  obtain ⟨pr', hpr', hparent'⟩ := h.current sp (mem_of_find?_eq_some hsp)
  obtain ⟨ps', hone', hacc⟩ := h.one pr' hpr'
  have hsp' : sp ∈ parents.filter fun ps => sameParent ps.parentRef pr' :=
    mem_filter.2 ⟨mem_of_find?_eq_some hsp, hparent'⟩
  rw [hone', mem_singleton] at hsp'
  subst hsp'
  have htgt : sameTarget routeNs sp.parentRef pr = true := by simpa using find?_some hsp
  unfold isParentRefAccepted
  rw [hsp]
  exact hacc.trans (halike pr' hpr' pr hpr
    (sameTarget_trans (sameTarget_of_sameParent hparent') htgt))

theorem nonEmpty_injective {a b : List ParentReference} (h : nonEmpty a = nonEmpty b) : a = b := by
  cases a <;> cases b <;> simp_all [nonEmpty]

/-- A right status of a route with parents has entries. -/
theorem StatusRight.ne_nil (h : StatusRight errors parentRefs parents) (hpr : pr ∈ parentRefs) :
    parents ≠ [] := by
  rintro rfl
  obtain ⟨ps, hone, -⟩ := h.one pr hpr
  cases hone

/-- **The data plane drops exactly the parents that were refused** if and only if
parentRefs with one target meet the same fate. -/
theorem StatusRight.filterAcceptedParentRefs_iff (h : StatusRight errors parentRefs parents) :
    filterAcceptedParentRefs (some parentRefs) (some parents) routeNs =
        nonEmpty (parentRefs.filter fun pr => errors pr = []) ↔
      Alike errors routeNs parentRefs := by
  cases parentRefs with
  | nil =>
    have hfilter : filterAcceptedParentRefs (some []) (some parents) routeNs = none := by
      unfold filterAcceptedParentRefs
      dsimp only
      split <;> rfl
    rw [hfilter]
    exact ⟨fun _ pr hpr => absurd hpr not_mem_nil, fun _ => rfl⟩
  | cons pr0 prs =>
    obtain ⟨head, tail, rfl⟩ := exists_cons_of_ne_nil (h.ne_nil mem_cons_self)
    change nonEmpty ((pr0 :: prs).filter fun pr =>
      isParentRefAccepted pr (head :: tail) routeNs) = _ ↔ _
    constructor
    · intro heq pr hpr pr' hpr' htgt
      have hsame := nonEmpty_injective heq
      have hread : ∀ pr ∈ pr0 :: prs,
          (isParentRefAccepted pr (head :: tail) routeNs ↔ errors pr = []) := by
        intro pr hpr
        have hmem := congrArg (pr ∈ ·) hsame
        simpa [mem_filter, hpr] using hmem
      rw [← hread pr hpr, ← hread pr' hpr', isParentRefAccepted_congr htgt]
    · intro halike
      congr 1
      refine filter_congr fun pr hpr => ?_
      rw [Bool.eq_iff_iff, h.isParentRefAccepted_iff halike hpr, decide_eq_true_eq]

end

/-! ## HTTP routes -/

section

variable (surroundings : Surroundings) (gateways : List Gateway) (route : Route)

/-- What `validate_parent_ref_accepted` reports for a parent of an HTTP route. -/
abbrev httpErrors : ParentReference → List AcceptedError :=
  RouteKind.acceptedErrors .httpRoute surroundings gateways route

/-- **The status after `update_status` is right**, and the data plane drops exactly
the parents that were refused. -/
def ReportsParents : Prop :=
  let updated := RouteKind.updateStatus .httpRoute surroundings gateways route
  StatusRight (httpErrors surroundings gateways route) (route.parentRefs.getD []) updated.parents ∧
    filterAcceptedParentRefs updated.parentRefs (some updated.parents) (some updated.routeNs) =
      nonEmpty ((route.parentRefs.getD []).filter fun pr =>
        httpErrors surroundings gateways route pr = [])

/-- **The parents can be told apart by what `update_status` goes by.** -/
structure Separable : Prop where
  /-- A route without parentRefs came without a status. -/
  unset : route.parentRefs = none → route.parents = []
  apart : ∀ pr ∈ route.parentRefs.getD [],
    ToldApart (httpErrors surroundings gateways route) (route.parentRefs.getD []) route.parents pr
  alike : Alike (httpErrors surroundings gateways route) (some route.routeNs)
    (route.parentRefs.getD [])

/-- **The status of an HTTP route is right for its parents, and the data plane drops
the refused ones, if and only if the parents can be told apart.** -/
theorem reportsParents_iff :
    ReportsParents surroundings gateways route ↔ Separable surroundings gateways route := by
  unfold ReportsParents RouteKind.updateStatus
  cases hrefs : route.parentRefs with
  | none =>
    dsimp only
    constructor
    · rintro ⟨hright, -⟩
      refine ⟨fun _ => ?_, ?_, ?_⟩
      · refine eq_nil_iff_forall_not_mem.2 fun ps hps => ?_
        obtain ⟨pr, hpr, -⟩ := hright.current ps hps
        cases hpr
      · rw [hrefs]
        exact fun pr hpr => absurd hpr not_mem_nil
      · rw [hrefs]
        exact fun pr hpr => absurd hpr not_mem_nil
    · intro h
      rw [h.unset hrefs, hrefs]
      exact ⟨⟨fun pr hpr => absurd hpr not_mem_nil, fun ps hps => absurd hps not_mem_nil⟩, rfl⟩
  | some parentRefs =>
    dsimp only
    rw [getD_some]
    constructor
    · rintro ⟨hright, hfilter⟩
      refine ⟨fun hnone => ?_, ?_, ?_⟩
      · rw [hrefs] at hnone
        cases hnone
      · rw [hrefs]
        exact (statusRight_iff_toldApart _).1 hright
      · rw [hrefs]
        exact hright.filterAcceptedParentRefs_iff.1 hfilter
    · intro h
      have hapart := h.apart
      have halike := h.alike
      rw [hrefs, getD_some] at hapart halike
      have hright := (statusRight_iff_toldApart
        (validateBackendRefs surroundings.serviceExists route.routeNs route.backendRefs ++
          collectRefDeniedErrors route.backendRefs)).2 hapart
      exact ⟨hright, hright.filterAcceptedParentRefs_iff.2 halike⟩

end

/-! ## Two parentRefs that differ in the port -/

/-- A Gateway with a listener at 80. -/
def port80 : Gateway :=
  ⟨some "edge", some "g", "edgion", some [⟨"http", none, 80, "HTTP", none, none⟩], none⟩

/-- A parentRef to a port of the Gateway. -/
def toPort (port : ℤ) : ParentReference := ⟨none, none, some "edge", "g", none, some port⟩

/-- A route of the Gateway's namespace with parentRefs to the port of the listener
and to another one, and without a status. -/
def twoPorts : Route :=
  { ns := some "edge", name := some "r", parentRefs := some [toPort 80, toPort 9999],
    hostnames := none, resolvedHostnames := none, backendRefs := [], parents := [] }

/-- **The data plane keeps the refused parent and drops the accepted one**: there is
one entry, of the first parentRef, with what was found for the second. -/
theorem not_reportsParents_twoPorts : ¬ ReportsParents onlyGateways [port80] twoPorts ∧
      httpErrors onlyGateways [port80] twoPorts (toPort 80) = [] ∧
      httpErrors onlyGateways [port80] twoPorts (toPort 9999) ≠ [] ∧
      filterAcceptedParentRefs (some [toPort 80, toPort 9999])
        (some (RouteKind.updateStatus .httpRoute onlyGateways [port80] twoPorts).parents)
        (some "edge") = some [toPort 9999] := by
  have hkept : filterAcceptedParentRefs (some [toPort 80, toPort 9999])
    (some (RouteKind.updateStatus .httpRoute onlyGateways [port80] twoPorts).parents)
    (some "edge") = some [toPort 9999] := by decide +kernel
  refine ⟨fun h => ?_, by decide +kernel, by decide +kernel, hkept⟩
  have hfilter := h.2
  revert hfilter
  decide +kernel

end Edgion.GatewayApi
