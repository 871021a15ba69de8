import Edgion.Common.Buckets

/-!
# Gateway API — reference grants

A ReferenceGrant lives in the namespace that is referred to and says who
may refer to what in it. The store keeps the grants by key and, for the
checks, by namespace; the second table is rebuilt for one namespace at a
time. A grant without a namespace is stored under a key of `default` but
never indexed, so the tables agree only while every grant has a namespace
of its own.
-/

namespace Edgion.GatewayApi

open Common AList Option

/-! ## Grants -/

def isCoreApiGroup (group : String) : Bool := group = "" || group = "core"

def apiGroupsMatch (a b : String) : Bool :=
  a = b || (isCoreApiGroup a && isCoreApiGroup b)

structure ReferenceGrantFrom where
  group : String
  kind : String
  ns : String
deriving DecidableEq, Repr

structure ReferenceGrantTo where
  group : String
  kind : String
  name : Option String
deriving DecidableEq, Repr

structure ReferenceGrant where
  ns : Option String
  name : Option String
  from_ : List ReferenceGrantFrom
  to_ : List ReferenceGrantTo
deriving DecidableEq, Repr

/-- What refers to what: the arguments of a check. -/
structure Reference where
  fromNs : String
  fromGroup : String
  fromKind : String
  toNs : String
  toGroup : String
  toKind : String
  toName : Option String
deriving DecidableEq, Repr

variable (g : ReferenceGrant) (r : Reference)

def ReferenceGrant.allowsReference : Bool :=
  let fromMatches := g.from_.any fun f =>
    f.ns = r.fromNs && apiGroupsMatch f.group r.fromGroup && f.kind = r.fromKind
  if !fromMatches then false
  else
    g.to_.any fun t =>
      apiGroupsMatch t.group r.toGroup && t.kind = r.toKind && (t.name.isNone || t.name = r.toName)

/-- **A grant permits a reference**: it lives in the namespace that is
referred to, and allows it. -/
def ReferenceGrant.Permits : Prop :=
  g.ns = some r.toNs ∧ g.allowsReference r = true

instance (g : ReferenceGrant) (r : Reference) : Decidable (g.Permits r) :=
  inferInstanceAs (Decidable (_ ∧ _))

/-! ## The store -/

/-- `ReferenceGrantStore`. A namespace without an entry in the second table
is one with no grants. -/
structure ReferenceGrantStore where
  grants : AList fun _ : String => ReferenceGrant
  grantsByToNamespace : String → List ReferenceGrant

namespace ReferenceGrantStore

def new : ReferenceGrantStore := ⟨∅, fun _ => []⟩

variable (s : ReferenceGrantStore)

def getByToNamespace (toNs : String) : List ReferenceGrant :=
  s.grantsByToNamespace toNs

def checkReferenceAllowed (r : Reference) : Bool :=
  if r.fromNs = r.toNs then true
  else (s.getByToNamespace r.toNs).any fun grant => grant.allowsReference r

def rebuildNamespaceIndex (ns : String) : ReferenceGrantStore :=
  let grantsInNs := (s.grants.entries.map Sigma.snd).filter fun g => g.ns = some ns
  { s with grantsByToNamespace := Function.update s.grantsByToNamespace ns grantsInNs }

def upsert (key : String) (grant : ReferenceGrant) :
    ReferenceGrantStore :=
  let s := { s with grants := s.grants.insert key grant }
  match grant.ns with
  | some ns => s.rebuildNamespaceIndex ns
  | none => s

def remove (key : String) : ReferenceGrantStore :=
  match s.grants.lookup key with
  | none => s
  | some grant =>
    let s := { s with grants := s.grants.erase key }
    match grant.ns with
    | some ns => s.rebuildNamespaceIndex ns
    | none => s

/-! ## The two tables -/

variable {s : ReferenceGrantStore} {g grant : ReferenceGrant} {ns key : String}

/-- **The grants of the store.** -/
def Current (s : ReferenceGrantStore) (g : ReferenceGrant) : Prop :=
  ∃ key, s.grants.lookup key = some g

/-- The second table holds the grants of each namespace. -/
def Indexed (s : ReferenceGrantStore) : Prop :=
  ∀ ns g, g ∈ s.getByToNamespace ns ↔ s.Current g ∧ g.ns = some ns

theorem Indexed.new : new.Indexed := by
  intro ns g
  simp [ReferenceGrantStore.new, getByToNamespace, Current]

/-- A check asks for a grant that permits the reference. -/
theorem Indexed.checkReferenceAllowed_iff (h : s.Indexed) {r : Reference}
    (hns : r.fromNs ≠ r.toNs) :
    s.checkReferenceAllowed r ↔ ∃ g, s.Current g ∧ g.Permits r := by
  simp only [checkReferenceAllowed, hns, if_false, List.any_eq_true, h r.toNs, and_assoc,
    ReferenceGrant.Permits]

@[simp] theorem grants_rebuildNamespaceIndex : (s.rebuildNamespaceIndex ns).grants = s.grants := rfl

theorem mem_rebuildNamespaceIndex_self :
    g ∈ (s.rebuildNamespaceIndex ns).getByToNamespace ns ↔ s.Current g ∧ g.ns = some ns := by
  simp only [rebuildNamespaceIndex, getByToNamespace, Function.update_self, List.mem_filter,
    List.mem_map, decide_eq_true_eq, Current]
  refine and_congr_left fun _ => ⟨?_, ?_⟩
  · rintro ⟨⟨key, g⟩, hmem, rfl⟩
    exact ⟨key, mem_lookup_iff.2 hmem⟩
  · rintro ⟨key, hkey⟩
    exact ⟨⟨key, g⟩, mem_lookup_iff.1 hkey, rfl⟩

theorem getByToNamespace_rebuildNamespaceIndex {ns' : String} (hne : ns' ≠ ns) :
    (s.rebuildNamespaceIndex ns).getByToNamespace ns' = s.getByToNamespace ns' :=
  Function.update_of_ne hne _ _

/-- An upsert leaves the other namespaces alone. -/
theorem getByToNamespace_upsert (h : grant.ns ≠ some ns) :
    (s.upsert key grant).getByToNamespace ns = s.getByToNamespace ns := by
  simp only [upsert]
  split
  · next ns' hns' =>
    refine getByToNamespace_rebuildNamespaceIndex fun heq => h ?_
    rw [hns', heq]
  · rfl

/-- So does a removal. -/
theorem getByToNamespace_remove (h : ∀ old, s.grants.lookup key = some old → old.ns ≠ some ns) :
    (s.remove key).getByToNamespace ns = s.getByToNamespace ns := by
  simp only [remove]
  split
  · rfl
  · next old hold =>
    split
    · next ns' hns' =>
      refine getByToNamespace_rebuildNamespaceIndex fun heq => h old hold ?_
      rw [hns', heq]
    · rfl

/-- **Rebuilding one namespace is enough** if the grants of the others are
the same as before. -/
theorem Indexed.rebuildNamespaceIndex {grants : AList fun _ : String => ReferenceGrant}
    (h : s.Indexed) (hsame : ∀ g, g.ns ≠ some ns →
      ((∃ key, grants.lookup key = some g) ↔ s.Current g)) :
    ({ s with grants } : ReferenceGrantStore).rebuildNamespaceIndex ns |>.Indexed := by
  intro ns' g
  by_cases hne : ns' = ns
  · subst hne
    exact mem_rebuildNamespaceIndex_self
  · rw [getByToNamespace_rebuildNamespaceIndex hne]
    refine (h ns' g).trans (and_congr_left fun hg => (hsame g ?_).symm)
    rw [hg]
    exact fun heq => hne (some.inj heq)

/-- **An upsert keeps the tables in agreement** if the grant has a namespace
and takes the place of none from another. -/
theorem Indexed.upsert (h : s.Indexed) (hns : grant.ns = some ns)
    (hold : ∀ old, s.grants.lookup key = some old → old.ns = some ns) :
    (s.upsert key grant).Indexed := by
  simp only [ReferenceGrantStore.upsert, hns]
  refine h.rebuildNamespaceIndex fun g hg => exists_congr fun key' => ?_
  rw [lookup_insert_eq_some_iff]
  constructor
  · rintro (⟨-, rfl⟩ | ⟨-, hkey'⟩)
    · exact absurd hns hg
    · exact hkey'
  · refine fun hkey' => .inr ⟨?_, hkey'⟩
    rintro rfl
    exact hg (hold g hkey')

/-- So does a removal. -/
theorem Indexed.remove (h : s.Indexed) (hns : ∀ old, s.grants.lookup key = some old →
    old.ns.isSome) : (s.remove key).Indexed := by
  simp only [ReferenceGrantStore.remove]
  cases hold : s.grants.lookup key with
  | none => exact h
  | some old =>
    obtain ⟨ns, hold_ns⟩ := isSome_iff_exists.1 (hns old hold)
    simp only [hold_ns]
    refine h.rebuildNamespaceIndex fun g hg => exists_congr fun key' => ?_
    rw [lookup_erase_eq_some_iff]
    refine and_iff_right_of_imp ?_
    rintro hkey' rfl
    rw [hold] at hkey'
    exact hg (some.inj hkey' ▸ hold_ns)

end ReferenceGrantStore

end Edgion.GatewayApi
