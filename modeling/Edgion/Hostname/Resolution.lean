import Edgion.Hostname.Intersection

/-!
# Hostnames — the effective hostnames of a route

What `resolve_effective_hostnames` returns is read hostname by hostname:
each parent adds its own, no matter what the others added before it. What
a route should be served under is said on the listeners themselves. The
two agree except where a parent's listeners without a hostname are passed
over in favour of those with one, where a parent that selects no listener
at all is taken for one without constraint, and where nothing is left and
the catch-all stands in.
-/

namespace Edgion.Hostname

open Text Common List

universe u v

/-! ## Folds that only add -/

/-- A fold whose every turn adds to a predicate adds what its turns add. -/
theorem foldl_iff {σ : Type u} {α : Type v} {f : σ → α → σ} {P : σ → Prop} {Q : α → Prop}
    {xs : List α} (hf : ∀ s, ∀ a ∈ xs, P (f s a) ↔ P s ∨ Q a) (s : σ) :
    P (xs.foldl f s) ↔ P s ∨ ∃ a ∈ xs, Q a := by
  induction xs generalizing s with
  | nil => simp
  | cons a xs ih =>
    have htail : ∀ s, ∀ b ∈ xs, P (f s b) ↔ P s ∨ Q b := fun s b hb =>
      hf s b (mem_cons_of_mem a hb)
    rw [foldl_cons, ih htail, hf s a mem_cons_self, or_assoc]
    simp

variable {gateways : List Gateway} {routeHostnames : Option (List String)} {routeNs : String}
variable {parentRefs : List ParentReference} {pr : ParentReference} {acc : Acc} {x h : String}

namespace Acc

theorem mem_push (acc : Acc) (y : String) :
    x ∈ (acc.push y).allEffective ↔ x ∈ acc.allEffective ∨ x = y := by
  unfold push
  split
  · rename_i hy
    rw [acc.mem_seen] at hy
    exact ⟨.inl, fun e => e.elim id fun e => e ▸ hy⟩
  · simp

@[simp] theorem allEffective_act (acc : Acc) (action : String) :
    (acc.act action).allEffective = acc.allEffective := rfl

theorem mem_pushInherited (acc : Acc) (y : String) :
    x ∈ (acc.pushInherited y).allEffective ↔ x ∈ acc.allEffective ∨ x = y := by
  unfold pushInherited
  split
  · rename_i hy
    rw [acc.mem_seen] at hy
    exact ⟨.inl, fun e => e.elim id fun e => e ▸ hy⟩
  · rw [allEffective_act, mem_push]

theorem mem_pushIntersection (lh : String) (acc : Acc × Bool) (rh : String) :
    x ∈ (pushIntersection lh acc rh).1.allEffective ↔
      x ∈ acc.1.allEffective ∨ computeHostnameIntersection lh rh = some x := by
  unfold pushIntersection
  cases hI : computeHostnameIntersection lh rh with
  | none => simp
  | some I =>
    rw [mem_push, Option.some.injEq]
    exact or_congr_right eq_comm

/-- The two nested loops add the intersections of all pairs. -/
theorem mem_pushIntersections (acc : Acc) (lhs rhs : List String) :
    x ∈ (acc.pushIntersections lhs rhs).1.allEffective ↔ x ∈ acc.allEffective ∨
      ∃ lh ∈ lhs, ∃ rh ∈ rhs, computeHostnameIntersection lh rh = some x := by
  refine foldl_iff (P := fun s : Acc × Bool => x ∈ s.1.allEffective) (fun s lh _ => ?_) (acc, false)
  exact foldl_iff (P := fun s : Acc × Bool => x ∈ s.1.allEffective)
    (fun s rh _ => mem_pushIntersection lh s rh) s

end Acc

/-! ## What one parent adds -/

variable (routeHs listenerHs : List String)

/-- **The hostnames a parent adds**, by the route's hostnames and those of
its listeners. -/
def Adds (x : String) : Prop :=
  if routeHs ≠ [] then
    if listenerHs = [] then x ∈ routeHs
    else ∃ lh ∈ listenerHs, ∃ rh ∈ routeHs, computeHostnameIntersection lh rh = some x
  else if listenerHs = [] then x = "*" else x ∈ listenerHs

theorem mem_resolveListeners (acc : Acc) (listenerHs : List String) :
    x ∈ (resolveListeners routeHostnames acc listenerHs).allEffective ↔
      x ∈ acc.allEffective ∨ Adds (routeHostnames.getD []) listenerHs x := by
  have hpush : ∀ (xs : List String) (f : Acc → String → Acc),
      (∀ acc y, x ∈ (f acc y).allEffective ↔ x ∈ acc.allEffective ∨ x = y) →
      (x ∈ (xs.foldl f acc).allEffective ↔ x ∈ acc.allEffective ∨ x ∈ xs) := by
    intro xs f hf
    have hstep : ∀ (s : Acc), ∀ y ∈ xs, x ∈ (f s y).allEffective ↔ x ∈ s.allEffective ∨ x = y :=
      fun s y _ => hf s y
    have hfold := foldl_iff (P := fun s : Acc => x ∈ s.allEffective) hstep acc
    simpa using hfold
  unfold resolveListeners Adds
  by_cases hroute : routeHostnames.getD [] ≠ []
  · by_cases hls : listenerHs = []
    · simp only [if_pos hroute, if_pos hls, Acc.allEffective_act]
      exact hpush _ _ Acc.mem_push
    · simp only [if_pos hroute, if_neg hls]
      rw [← Acc.mem_pushIntersections]
      split <;> rfl
  · by_cases hls : listenerHs = []
    · simp only [if_neg hroute, if_pos hls, Acc.allEffective_act]
      exact Acc.mem_push acc "*"
    · simp only [if_neg hroute, if_neg hls]
      exact hpush _ _ Acc.mem_pushInherited

/-! ## The listeners of a parent -/

variable (l : Listener)

/-- What a listener's hostname demands; an empty hostname demands nothing. -/
def Listener.constraint : Option String := l.hostname.filter (· ≠ "")

/-- **The listeners a parentRef selects** by its `sectionName` and `port`. -/
def selected (gateways : List Gateway) (routeNs : String) (pr : ParentReference) : List Listener :=
  if pr.isGateway then ((pr.gateway gateways routeNs).map (matchingListeners · pr)).getD [] else []

/-- A parentRef selects a listener with hostname `hn`. -/
def NamedAs (gateways : List Gateway) (routeNs : String) (pr : ParentReference) (hn : String) :
    Prop :=
  ∃ l ∈ selected gateways routeNs pr, l.constraint = some hn

/-- The hostnames the source collects for a parentRef. -/
def collected (gateways : List Gateway) (routeNs : String) (pr : ParentReference) : List String :=
  ((pr.gateway gateways routeNs).map (collectListenerHostnames · pr)).getD []

theorem mem_collectStep (hostnames : List String) (l : Listener) :
    x ∈ collectStep hostnames l ↔ x ∈ hostnames ∨ l.constraint = some x := by
  unfold collectStep Listener.constraint
  cases hl : l.hostname with
  | none => simp
  | some hn =>
    by_cases hne : hn = ""
    · simp [hne]
    by_cases hmem : hn ∈ hostnames
    · simp only [hmem, not_true_eq_false, and_false, if_false]
      refine ⟨.inl, fun e => e.elim id fun e => ?_⟩
      obtain rfl : hn = x := by simpa [Option.filter, hne] using e
      exact hmem
    · simp [hne, hmem, Option.filter, eq_comm]

theorem mem_collected (hpr : pr.isGateway) :
    x ∈ collected gateways routeNs pr ↔ NamedAs gateways routeNs pr x := by
  unfold collected NamedAs selected
  rw [if_pos hpr]
  cases pr.gateway gateways routeNs with
  | none => simp
  | some gateway =>
    have hfold := foldl_iff (P := fun s : List String => x ∈ s)
      (fun s l (_ : l ∈ matchingListeners gateway pr) => mem_collectStep s l) []
    simpa [collectListenerHostnames] using hfold

/-! ## What the parents add together -/

/-- Every parent of a route that is a Gateway is in the registry. -/
def AllFound (gateways : List Gateway) (routeNs : String) (parentRefs : List ParentReference) :
    Prop :=
  ∀ pr ∈ parentRefs, pr.isGateway = true → (pr.gateway gateways routeNs).isSome

instance (gateways : List Gateway) (routeNs : String) (parentRefs : List ParentReference) :
    Decidable (AllFound gateways routeNs parentRefs) :=
  inferInstanceAs (Decidable (∀ _ ∈ _, _))

/-- **Each parent adds its own hostnames**, whatever came before it. -/
theorem mem_foldl_resolveStep (hfound : AllFound gateways routeNs parentRefs) :
    x ∈ (parentRefs.foldl (resolveStep gateways routeHostnames routeNs) Acc.new).allEffective ↔
      ∃ pr ∈ parentRefs, pr.isGateway ∧
        Adds (routeHostnames.getD []) (collected gateways routeNs pr) x := by
  have hstep : ∀ (acc : Acc), ∀ pr ∈ parentRefs,
      x ∈ (resolveStep gateways routeHostnames routeNs acc pr).allEffective ↔
        x ∈ acc.allEffective ∨ (pr.isGateway ∧
          Adds (routeHostnames.getD []) (collected gateways routeNs pr) x) := by
    intro acc pr hmem
    unfold resolveStep collected
    by_cases hpr : pr.isGateway = true
    · obtain ⟨gateway, hgw⟩ := Option.isSome_iff_exists.1 (hfound pr hmem hpr)
      simp only [hpr, hgw, Bool.not_true, Bool.false_eq_true, if_false, Option.map_some,
        Option.getD_some, true_and]
      exact mem_resolveListeners acc _
    · simp [hpr]
  have hfold := foldl_iff (P := fun s : Acc => x ∈ s.allEffective) hstep Acc.new
  simpa [Acc.new] using hfold

/-! ## What a route should be served under -/

/-- **A hostname matches a host**: it is the host, a wildcard over it, or
the catch-all. -/
def Matches (hn h : String) : Prop := hn = "*" ∨ Reaches Over hn h

instance (hn h : String) : Decidable (Matches hn h) :=
  inferInstanceAs (Decidable (hn = "*" ∨ hn = h ∨ Over hn h))

/-- The route's own hostnames match a host; none at all match every host. -/
def RouteMatches (routeHs : List String) (h : String) : Prop :=
  routeHs = [] ∨ ∃ r ∈ routeHs, Matches r h

/-- A listener matches a host; one without a hostname matches every host. -/
def ListenerMatches (h : String) : Prop := ∀ hn ∈ l.constraint, Matches hn h

/-- **A host a route should be served under**: some parent selects a
listener that matches it, and the route's own hostnames match it. -/
def Served (gateways : List Gateway) (routeHostnames : Option (List String))
    (parentRefs : List ParentReference) (routeNs h : String) : Prop :=
  ∃ pr ∈ parentRefs, ∃ l ∈ selected gateways routeNs pr,
    ListenerMatches l h ∧ RouteMatches (routeHostnames.getD []) h

/-! ## Where the two agree -/

/-- No wildcard covers the catch-all, and it covers nothing. -/
theorem not_over_star (w : String) : ¬ Over w "*" := by
  intro hover
  obtain ⟨t, -, -, hlen⟩ := over_iff.1 hover
  have hone : "*".toList.length = 1 := by decide
  omega

theorem not_star_over (x : String) : ¬ Over "*" x := fun hover =>
  absurd hover.isWildcard (by decide)

theorem meet_star_of_ne (hx : x ≠ "*") : meet Over "*" x = none := by
  unfold meet
  rw [if_neg hx.symm, if_neg (not_star_over x), if_neg (not_over_star x)]

/-- **A computed intersection matches a host exactly when both hostnames
do**, unless just one of them is the catch-all, which the source compares
as a plain name. -/
theorem exists_intersection_matches_iff (l r : String) :
    (∃ I, computeHostnameIntersection l r = some I ∧ Matches I h) ↔
      Matches l h ∧ Matches r h ∧ (l = "*" ↔ r = "*") := by
  rw [computeHostnameIntersection_eq_meet]
  by_cases hl : l = "*" <;> by_cases hr : r = "*"
  · simp [hl, hr, meet, Matches]
  · simp [hl, hr, meet_star_of_ne]
  · simp [hl, hr, nested_over.meet_comm l, meet_star_of_ne]
  · have hinner : ∀ I, meet Over l r = some I → I ≠ "*" := by
      intro I hI
      unfold meet at hI
      split_ifs at hI <;> · cases hI; assumption
    have hreach : ∀ {y}, y ≠ "*" → (Matches y h ↔ Reaches Over y h) := fun hy => or_iff_right hy
    rw [hreach hl, hreach hr, iff_of_false hl hr |> iff_true_intro, and_true,
      nested_over.reaches_meet_iff]
    exact exists_congr fun I => and_congr_right fun hI => hreach (hinner I hI)

/-- A listener's hostname and the route's, together. -/
def JointlyMatch (routeHs : List String) (hn h : String) : Prop :=
  Matches hn h ∧ (routeHs = [] ∨ ∃ r ∈ routeHs, Matches r h ∧ (hn = "*" ↔ r = "*"))

/-- **What a parent adds matches a host** when it has no hostnames and the
route matches, or one of its hostnames matches along with the route. -/
theorem exists_adds_matches_iff :
    (∃ x, Adds routeHs listenerHs x ∧ Matches x h) ↔ (listenerHs = [] ∧ RouteMatches routeHs h) ∨
      ∃ hn ∈ listenerHs, JointlyMatch routeHs hn h := by
  unfold Adds RouteMatches JointlyMatch
  by_cases hroute : routeHs = []
  · by_cases hls : listenerHs = []
    · simp [hroute, hls, Matches]
    · simp [hroute, hls]
  · by_cases hls : listenerHs = []
    · simp [hroute, hls]
    · simp only [if_pos hroute, hroute, hls, false_and, false_or]
      constructor
      · rintro ⟨x, ⟨lh, hlh, rh, hrh, hI⟩, hx⟩
        obtain ⟨h1, h2, h3⟩ := (exists_intersection_matches_iff lh rh).1 ⟨x, hI, hx⟩
        exact ⟨lh, hlh, h1, rh, hrh, h2, h3⟩
      · rintro ⟨lh, hlh, h1, rh, hrh, h2, h3⟩
        obtain ⟨x, hI, hx⟩ := (exists_intersection_matches_iff lh rh).2 ⟨h1, h2, h3⟩
        exact ⟨x, ⟨lh, hlh, rh, hrh, hI⟩, hx⟩

section Conditions

variable (gateways : List Gateway) (routeHostnames : Option (List String))
variable (parentRefs : List ParentReference) (routeNs h : String)

/-- No hostname of the route meets a hostname of any parent, and every
parent has one: nothing is left to serve under. -/
def NothingMeets : Prop :=
  parentRefs ≠ [] ∧ ∀ pr ∈ parentRefs, pr.isGateway = true →
    routeHostnames.getD [] ≠ [] ∧ (∃ hn, NamedAs gateways routeNs pr hn) ∧
      ∀ hn, NamedAs gateways routeNs pr hn → ∀ r ∈ routeHostnames.getD [],
        ¬ (hn = r ∨ Over hn r ∨ Over r hn)

/-- Some parent selects no listener with a hostname. -/
def SomeUnnamed : Prop :=
  ∃ pr ∈ parentRefs, pr.isGateway = true ∧ ∀ hn, ¬ NamedAs gateways routeNs pr hn

/-- Some parent selects a listener without a hostname. -/
def SomeOpen : Prop :=
  ∃ pr ∈ parentRefs, ∃ l ∈ selected gateways routeNs pr, l.constraint = none

/-- Some parent selects a listener whose hostname matches the host. -/
def SomeNamedMatch : Prop :=
  ∃ pr ∈ parentRefs, ∃ hn, NamedAs gateways routeNs pr hn ∧ Matches hn h

/-- And does so along with a hostname of the route. -/
def SomeJointMatch : Prop :=
  ∃ pr ∈ parentRefs, ∃ hn, NamedAs gateways routeNs pr hn ∧
    JointlyMatch (routeHostnames.getD []) hn h

/-- **Where the effective hostnames are right.** If nothing meets, the
catch-all that stands in is right only at the hosts to be served anyway.
Otherwise a host the route does not match is never at stake, one that a
listener's hostname and the route match together is always found, and for
the others a parent without named listeners must exist exactly when one of
the listeners takes the host. -/
def Faithful : Prop :=
  (NothingMeets gateways routeHostnames parentRefs routeNs ∧
    Served gateways routeHostnames parentRefs routeNs h) ∨
  (¬ NothingMeets gateways routeHostnames parentRefs routeNs ∧
    (¬ RouteMatches (routeHostnames.getD []) h ∨
      SomeJointMatch gateways routeHostnames parentRefs routeNs h ∨
      (SomeUnnamed gateways parentRefs routeNs ↔ SomeOpen gateways parentRefs routeNs ∨
        SomeNamedMatch gateways parentRefs routeNs h)))

end Conditions

theorem NamedAs.isGateway {hn : String} (hnamed : NamedAs gateways routeNs pr hn) :
    pr.isGateway = true := by
  obtain ⟨l, hl, -⟩ := hnamed
  unfold selected at hl
  by_contra hpr
  rw [if_neg hpr] at hl
  simp at hl

theorem collected_eq_nil_iff (hpr : pr.isGateway) :
    collected gateways routeNs pr = [] ↔ ∀ hn, ¬ NamedAs gateways routeNs pr hn := by
  rw [eq_nil_iff_forall_not_mem]
  exact forall_congr' fun hn => not_congr (mem_collected hpr)

/-- **Served, on the listeners.** -/
theorem served_iff : Served gateways routeHostnames parentRefs routeNs h ↔
    RouteMatches (routeHostnames.getD []) h ∧
      (SomeOpen gateways parentRefs routeNs ∨ SomeNamedMatch gateways parentRefs routeNs h) := by
  unfold Served SomeOpen SomeNamedMatch NamedAs ListenerMatches
  constructor
  · rintro ⟨pr, hpr, l, hl, hmatch, hroute⟩
    refine ⟨hroute, ?_⟩
    cases hc : l.constraint with
    | none => exact .inl ⟨pr, hpr, l, hl, hc⟩
    | some hn => exact .inr ⟨pr, hpr, hn, ⟨l, hl, hc⟩, hmatch hn hc⟩
  · rintro ⟨hroute, ⟨pr, hpr, l, hl, hc⟩ | ⟨pr, hpr, hn, ⟨l, hl, hc⟩, hmatch⟩⟩
    · exact ⟨pr, hpr, l, hl, by simp [hc], hroute⟩
    · refine ⟨pr, hpr, l, hl, fun hn' hc' => ?_, hroute⟩
      obtain rfl : hn = hn' := by rw [hc] at hc'; exact Option.some.inj hc'
      exact hmatch

theorem SomeJointMatch.served_parts (hj : SomeJointMatch gateways routeHostnames parentRefs routeNs h) :
    RouteMatches (routeHostnames.getD []) h ∧ SomeNamedMatch gateways parentRefs routeNs h := by
  obtain ⟨pr, hpr, hn, hnamed, hmatch, hroute⟩ := hj
  refine ⟨?_, pr, hpr, hn, hnamed, hmatch⟩
  obtain hnil | ⟨r, hr, hmr, -⟩ := hroute
  · exact .inl hnil
  · exact .inr ⟨r, hr, hmr⟩

/-- A parent that adds nothing has hostnames that meet none of the route's. -/
theorem not_exists_adds_iff (routeHs listenerHs : List String) :
    (¬ ∃ x, Adds routeHs listenerHs x) ↔ routeHs ≠ [] ∧ listenerHs ≠ [] ∧
      ∀ hn ∈ listenerHs, ∀ r ∈ routeHs, ¬ (hn = r ∨ Over hn r ∨ Over r hn) := by
  have hsome : ∀ hn r, (∃ x, computeHostnameIntersection hn r = some x) ↔
      hn = r ∨ Over hn r ∨ Over r hn := by
    intro hn r
    rw [← Option.isSome_iff_exists, computeHostnameIntersection_eq_meet, meet_isSome_iff]
  unfold Adds
  by_cases hroute : routeHs = []
  · by_cases hls : listenerHs = []
    · simp [hroute, hls]
    · simpa [hroute, hls] using exists_mem_of_ne_nil _ hls
  · by_cases hls : listenerHs = []
    · simpa [hroute, hls] using exists_mem_of_ne_nil _ hroute
    · simp only [hroute, hls, if_false, ne_eq, not_false_eq_true, true_and, ← hsome]
      grind

/-- **Nothing is left exactly when nothing meets.** -/
theorem allEffective_eq_nil_iff (hfound : AllFound gateways routeNs parentRefs)
    (hne : parentRefs ≠ []) :
    (parentRefs.foldl (resolveStep gateways routeHostnames routeNs) Acc.new).allEffective = [] ↔
      NothingMeets gateways routeHostnames parentRefs routeNs := by
  rw [eq_nil_iff_forall_not_mem]
  simp only [mem_foldl_resolveStep hfound]
  unfold NothingMeets
  rw [and_iff_right hne]
  have hparent : ∀ pr ∈ parentRefs, (pr.isGateway →
      ¬ ∃ x, Adds (routeHostnames.getD []) (collected gateways routeNs pr) x) ↔
      (pr.isGateway → routeHostnames.getD [] ≠ [] ∧ (∃ hn, NamedAs gateways routeNs pr hn) ∧
        ∀ hn, NamedAs gateways routeNs pr hn → ∀ r ∈ routeHostnames.getD [],
          ¬ (hn = r ∨ Over hn r ∨ Over r hn)) := by
    intro pr _
    refine imp_congr_right fun hpr => ?_
    rw [not_exists_adds_iff, ne_eq (collected gateways routeNs pr), collected_eq_nil_iff hpr]
    simp only [mem_collected hpr, not_forall, not_not]
  rw [← forall₂_congr hparent]
  constructor
  · intro hnone pr hpr hgw hx
    obtain ⟨x, hx⟩ := hx
    exact hnone x ⟨pr, hpr, hgw, hx⟩
  · rintro hnone x ⟨pr, hpr, hgw, hx⟩
    exact hnone pr hpr hgw ⟨x, hx⟩

/-- What was added matches a host. -/
theorem exists_allEffective_matches_iff (hfound : AllFound gateways routeNs parentRefs) :
    (∃ x ∈ (parentRefs.foldl (resolveStep gateways routeHostnames routeNs)
        Acc.new).allEffective, Matches x h) ↔
      (SomeUnnamed gateways parentRefs routeNs ∧ RouteMatches (routeHostnames.getD []) h) ∨
        SomeJointMatch gateways routeHostnames parentRefs routeNs h := by
  simp only [mem_foldl_resolveStep hfound]
  constructor
  · rintro ⟨x, ⟨pr, hpr, hgw, hadds⟩, hx⟩
    obtain ⟨hnil, hroute⟩ | ⟨hn, hmem, hj⟩ := (exists_adds_matches_iff _ _).1 ⟨x, hadds, hx⟩
    · exact .inl ⟨⟨pr, hpr, hgw, (collected_eq_nil_iff hgw).1 hnil⟩, hroute⟩
    · exact .inr ⟨pr, hpr, hn, (mem_collected hgw).1 hmem, hj⟩
  · rintro (⟨⟨pr, hpr, hgw, hnone⟩, hroute⟩ | ⟨pr, hpr, hn, hnamed, hj⟩)
    · obtain ⟨x, hadds, hx⟩ := (exists_adds_matches_iff _ _).2
        (.inl ⟨(collected_eq_nil_iff hgw).2 hnone, hroute⟩)
      exact ⟨x, ⟨pr, hpr, hgw, hadds⟩, hx⟩
    · have hgw := hnamed.isGateway
      obtain ⟨x, hadds, hx⟩ := (exists_adds_matches_iff _ _).2
        (.inr ⟨hn, (mem_collected hgw).2 hnamed, hj⟩)
      exact ⟨x, ⟨pr, hpr, hgw, hadds⟩, hx⟩

/-- **The effective hostnames match exactly the hosts to be served, at
exactly the hosts where the listeners a parent selects leave no gap.** -/
theorem resolveEffectiveHostnames_matches_iff (hfound : AllFound gateways routeNs parentRefs)
    (h : String) :
    ((∃ hn ∈ (resolveEffectiveHostnames gateways routeHostnames parentRefs routeNs).hostnames,
        Matches hn h) ↔ Served gateways routeHostnames parentRefs routeNs h) ↔
      Faithful gateways routeHostnames parentRefs routeNs h := by
  unfold Faithful
  by_cases hne : parentRefs = []
  · -- no parent: nothing is returned and nothing is served
    subst hne
    have hnot : ¬ NothingMeets gateways routeHostnames [] routeNs := fun e => e.1 rfl
    simp [hnot, resolveEffectiveHostnames, Served, SomeUnnamed, SomeOpen, SomeNamedMatch]
  unfold resolveEffectiveHostnames
  simp only [if_neg hne]
  by_cases hnothing : NothingMeets gateways routeHostnames parentRefs routeNs
  · have hnil := (allEffective_eq_nil_iff hfound hne).2 hnothing
    simp [hnil, hnothing, Matches]
  · have hnil := mt (allEffective_eq_nil_iff hfound hne).1 hnothing
    rw [if_neg hnil, exists_allEffective_matches_iff hfound, served_iff]
    have hparts := @SomeJointMatch.served_parts gateways routeHostnames routeNs parentRefs h
    simp only [hnothing, false_and, false_or, not_false_eq_true, true_and]
    by_cases hroute : RouteMatches (routeHostnames.getD []) h
    · by_cases hj : SomeJointMatch gateways routeHostnames parentRefs routeNs h
      · simp [hroute, hj, (hparts hj).2]
      · simp [hroute, hj]
    · have hj : ¬ SomeJointMatch gateways routeHostnames parentRefs routeNs h :=
        fun hj => hroute (hparts hj).1
      simp [hroute, hj]

/-- A Gateway with an open listener next to one for a single name. -/
def sampleGateways : List Gateway :=
  [{ ns := some "default"
     name := some "gw"
     listeners := some [{ name := "open", hostname := none, port := 80 },
       { name := "named", hostname := some "a.com", port := 80 }] }]

/-- A reference to all of its listeners. -/
def sampleRef : ParentReference :=
  { group := none, kind := none, ns := none, name := "gw", sectionName := none, port := none }

theorem resolveEffectiveHostnames_matches_iff_sample :
    AllFound sampleGateways "default" [sampleRef] ∧
      (((∃ hn ∈ (resolveEffectiveHostnames sampleGateways none [sampleRef] "default").hostnames,
        Matches hn "a.com") ↔ Served sampleGateways none [sampleRef] "default" "a.com") ↔
      Faithful sampleGateways none [sampleRef] "default" "a.com") :=
  ⟨by decide, resolveEffectiveHostnames_matches_iff (by decide) "a.com"⟩

/-- **The open listener is passed over**: the route should be served under
`b.com` and is not. -/
theorem resolveEffectiveHostnames_misses_open_listener :
    AllFound sampleGateways "default" [sampleRef] ∧
      Served sampleGateways none [sampleRef] "default" "b.com" ∧
      ¬ ∃ hn ∈ (resolveEffectiveHostnames sampleGateways none [sampleRef] "default").hostnames,
        Matches hn "b.com" := by
  refine ⟨by decide, ⟨sampleRef, by simp, ⟨"open", none, 80⟩, by decide, ?_, .inl rfl⟩, by decide⟩
  intro hn hc
  cases hc

end Edgion.Hostname
