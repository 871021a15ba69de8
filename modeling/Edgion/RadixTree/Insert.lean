import Edgion.RadixTree.Pattern

/-!
# Where an insertion goes

One literal of a pattern goes down the tree in one of a few ways: it ends with the prefix of a
node, inside it, or parts from it; it goes on under a child, or under a new one. `Descends` lists
them. What an insertion keeps is then shown way by way, by induction on the descent; here, that the
children of every node stay in the order of their bytes, together with any property of single nodes
(`BuildNode.All`).
-/

namespace Edgion.RadixTree

open List

mutual

/-- A well-formed tree: static children are filed under the first byte of their prefix, and the
parameter child is a parameter. -/
def BuildNode.Wf : BuildNode → Prop
  | .mk _ cs pc _ _ => cs.Wf ∧ pc.Wf

/-- Every static child is in its place. -/
def Children.Wf : Children → Prop
  | .nil => True
  | .cons b child rest =>
    (child.nodeType = .static ∧ child.pre.head? = some b) ∧ child.Wf ∧ rest.Wf

/-- The parameter child is one. -/
def ParamChild.Wf : ParamChild → Prop
  | .none => True
  | .some child => child.nodeType = .param ∧ child.Wf

end

variable {b : UInt8} {child : BuildNode} {k : BuildNode → BuildNode × Outcome} {literal : Bytes}

namespace Children

/-- The keys of the map. -/
def keys : Children → List UInt8
  | .nil => []
  | .cons b _ rest => b :: rest.keys

/-- `BTreeMap::get`. -/
def get? (b : UInt8) : Children → Option BuildNode
  | .nil => none
  | .cons c child rest => if c = b then some child else rest.get? b

/-- The map with another node under a key it has. -/
def set (b : UInt8) (child : BuildNode) : Children → Children
  | .nil => .nil
  | .cons c n rest => if c = b then .cons c child rest else .cons c n (rest.set b child)

theorem keys_set (b : UInt8) (child : BuildNode) (cs : Children) :
    (cs.set b child).keys = cs.keys := by
  match cs with
  | .nil => rfl
  | .cons c n rest =>
    rw [set]
    split
    · rfl
    · rw [keys, keys, keys_set b child rest]

theorem mem_keys_insert {c : UInt8} {cs : Children} :
    c ∈ (cs.insert b child).keys ↔ c = b ∨ c ∈ cs.keys := by
  match cs with
  | .nil => simp [insert, keys]
  | .cons d n rest =>
    rw [insert]
    split
    · simp [keys]
    · split
      · rename_i hbd
        simp [keys, hbd]
      · simp only [keys, mem_cons, mem_keys_insert]
        tauto

variable {b : UInt8}

/-- A new entry in its place keeps the map well formed. -/
theorem wf_insert {cs : Children} (hcs : cs.Wf) {child : BuildNode}
    (ht : child.nodeType = .static) (hp : child.pre.head? = some b) (hchild : child.Wf) :
    (cs.insert b child).Wf := by
  match cs with
  | .nil => exact ⟨⟨ht, hp⟩, hchild, trivial⟩
  | .cons c n rest =>
    obtain ⟨hn, hnwf, hrest⟩ := hcs
    rw [insert]
    split
    · exact ⟨⟨ht, hp⟩, hchild, hn, hnwf, hrest⟩
    · split
      · rename_i hbc
        exact ⟨⟨ht, hbc ▸ hp⟩, hchild, hrest⟩
      · exact ⟨hn, hnwf, wf_insert hrest ht hp hchild⟩

theorem Wf.get? {cs : Children} (h : cs.Wf) (hget : cs.get? b = some child) :
    child.Wf ∧ child.nodeType = .static ∧ child.pre.head? = some b := by
  match cs with
  | .nil => cases hget
  | .cons c n rest =>
    rw [Children.get?] at hget
    split at hget
    · rename_i hcb
      cases hget
      exact ⟨h.2.1, h.1.1, hcb ▸ h.1.2⟩
    · exact Wf.get? h.2.2 hget

theorem Wf.set {cs : Children} (h : cs.Wf) (hchild : child.Wf) (ht : child.nodeType = .static)
    (hp : child.pre.head? = some b) : (cs.set b child).Wf := by
  match cs with
  | .nil => trivial
  | .cons c n rest =>
    rw [Children.set]
    split
    · rename_i hcb
      exact ⟨⟨ht, hcb ▸ hp⟩, hchild, h.2.2⟩
    · exact ⟨h.1, h.2.1, Wf.set h.2.2 hchild ht hp⟩

/-- A key that is not found is not there. -/
theorem not_mem_keys_of_insertAt
    {cs : Children} (h : cs.insertAt k b literal = none) : b ∉ cs.keys := by
  match cs with
  | .nil => simp [keys]
  | .cons c n rest =>
    rw [insertAt] at h
    split at h
    · cases h
    · rename_i hcb
      rw [Option.map_eq_none_iff] at h
      rw [keys, mem_cons, not_or]
      exact ⟨Ne.symm hcb, not_mem_keys_of_insertAt h⟩

end Children

/-- **Two literals part after their common prefix.** -/
theorem commonLen_spec (p q : Bytes) :
    ∃ common p' q', p = common ++ p' ∧ q = common ++ q' ∧ commonLen p q = common.length ∧
      (p' ≠ [] → q' ≠ [] → p'.headD 0 ≠ q'.headD 0) := by
  induction p generalizing q with
  | nil => exact ⟨[], [], q, rfl, rfl, by simp [commonLen], by simp⟩
  | cons a p ih =>
    rcases q with _ | ⟨b, q⟩
    · exact ⟨[], a :: p, [], rfl, rfl, by simp [commonLen], by simp⟩
    · by_cases hab : a = b
      · obtain ⟨common, p', q', hp, hq, hlen, hpart⟩ := ih q
        refine ⟨a :: common, p', q', by simp [hp], by simp [hq, hab], ?_, hpart⟩
        rw [length_cons, ← hlen]
        simp [commonLen, hab]
      · exact ⟨[], a :: p, b :: q, rfl, rfl, by simp [commonLen, hab], by simpa using hab⟩

/-! ## The ways of a literal -/

/-- **The way a literal goes down from a node**, where the last node is changed by `k`, and the
tree it leaves. -/
inductive Descends (k : BuildNode → BuildNode × Outcome) : BuildNode → Bytes → BuildNode → Prop
  /-- The literal ends with the prefix of the node. -/
  | here {p : Bytes} {cs : Children} {pc : ParamChild} {vs : List ℕ} {node' : BuildNode} :
      k (.mk p cs pc vs .static) = (node', .ok ()) →
      Descends k (.mk p cs pc vs .static) p node'
  /-- It ends inside the prefix, and the node is split there. -/
  | split {common p' : Bytes} {cs : Children} {pc : ParamChild} {vs : List ℕ}
      {node' : BuildNode} : p' ≠ [] →
      k (.mk common (.cons (p'.headD 0) (.mk p' cs pc vs .static) .nil) .none [] .static) =
        (node', .ok ()) →
      Descends k (.mk (common ++ p') cs pc vs .static) common node'
  /-- It parts from the prefix, and the node is split there. -/
  | branch {common p' l' : Bytes} {cs : Children} {pc : ParamChild} {vs : List ℕ}
      {child : BuildNode} : p' ≠ [] → l' ≠ [] → p'.headD 0 ≠ l'.headD 0 →
      k (.withPrefix l') = (child, .ok ()) →
      Descends k (.mk (common ++ p') cs pc vs .static) (common ++ l')
        (.mk common ((Children.cons (p'.headD 0) (.mk p' cs pc vs .static) .nil).insert
          (l'.headD 0) child) .none [] .static)
  /-- It goes on after a static node, under a child. -/
  | child {p l' : Bytes} {cs : Children} {pc : ParamChild} {vs : List ℕ} {c c' : BuildNode} :
      l' ≠ [] → cs.get? (l'.headD 0) = some c → Descends k c l' c' →
      Descends k (.mk p cs pc vs .static) (p ++ l') (.mk p (cs.set (l'.headD 0) c') pc vs .static)
  /-- It goes on after a static node, under a new child. -/
  | newChild {p l' : Bytes} {cs : Children} {pc : ParamChild} {vs : List ℕ} {c : BuildNode} :
      l' ≠ [] → l'.headD 0 ∉ cs.keys → k (.withPrefix l') = (c, .ok ()) →
      Descends k (.mk p cs pc vs .static) (p ++ l') (.mk p (cs.insert (l'.headD 0) c) pc vs .static)
  /-- It goes on after a parameter, under a child. -/
  | paramChild {p l' : Bytes} {cs : Children} {pc : ParamChild} {vs : List ℕ}
      {c c' : BuildNode} : cs.get? (l'.headD 0) = some c → Descends k c l' c' →
      Descends k (.mk p cs pc vs .param) l' (.mk p (cs.set (l'.headD 0) c') pc vs .param)
  /-- It goes on after a parameter, under a new child. -/
  | paramNewChild {p l' : Bytes} {cs : Children} {pc : ParamChild} {vs : List ℕ}
      {c : BuildNode} : l'.headD 0 ∉ cs.keys → k (.withPrefix l') = (c, .ok ()) →
      Descends k (.mk p cs pc vs .param) l' (.mk p (cs.insert (l'.headD 0) c) pc vs .param)

/-- A child is created by `k` on a node for the rest of the literal. -/
theorem addChild_eq_ok {cs cs' : Children} {p : Bytes} (h : addChild k cs p = (cs', .ok ())) :
    ∃ child, k (.withPrefix p) = (child, .ok ()) ∧ cs' = cs.insert (p.headD 0) child := by
  unfold addChild at h
  split at h
  · cases h
  · rcases hkc : k (.withPrefix p) with ⟨child, _ | _⟩
    · rw [hkc] at h
      cases h
    · rw [hkc] at h
      cases h
      exact ⟨child, rfl, rfl⟩

mutual

/-- **`insert_static_segment` goes one of these ways.** -/
theorem BuildNode.descends {k : BuildNode → BuildNode × Outcome} :
    ∀ (node node' : BuildNode) (literal : Bytes),
      node.insertStaticSegment k literal = (node', .ok ()) → Descends k node literal node'
  | .mk p cs pc vs .param, node', literal, h => by
    rw [BuildNode.insertStaticSegment] at h
    rcases hor : orAddChild (cs.insertAt k (literal.headD 0) literal) k cs literal with ⟨cs', r⟩
    rw [hor] at h
    cases h
    rcases Children.descends cs cs' literal hor with ⟨c, c', hget, hc, rfl⟩ | ⟨c, hnew, hc, rfl⟩
    · exact .paramChild hget hc
    · exact .paramNewChild hnew hc
  | .mk p cs pc vs .static, node', literal, h => by
    rw [BuildNode.insertStaticSegment] at h
    obtain ⟨common, p', l', rfl, rfl, hn, hpart⟩ := commonLen_spec p literal
    simp only [hn, drop_left, take_left, length_append] at h
    split at h
    · rename_i hlt
      have hp' : p' ≠ [] := by
        rintro rfl
        simp at hlt
      split at h
      · rename_i hlen
        have hl' : l' = [] := eq_nil_of_length_eq_zero (by omega)
        subst hl'
        rw [append_nil]
        exact .split hp' h
      · rename_i hlen
        have hl' : l' ≠ [] := by
          rintro rfl
          simp at hlen
        rcases hadd : addChild k (.cons (p'.headD 0) (.mk p' cs pc vs .static) .nil) l'
          with ⟨cs', r⟩
        rw [hadd] at h
        cases h
        obtain ⟨c, hc, rfl⟩ := addChild_eq_ok hadd
        exact .branch hp' hl' (hpart hp' hl') hc
    · rename_i hlt
      have hp' : p' = [] := eq_nil_of_length_eq_zero (by omega)
      subst hp'
      rw [append_nil] at h ⊢
      split at h
      · rename_i hlen
        have hl' : l' = [] := eq_nil_of_length_eq_zero (by omega)
        subst hl'
        rw [append_nil]
        exact .here h
      · rename_i hlen
        have hl' : l' ≠ [] := by
          rintro rfl
          simp at hlen
        rcases hor : orAddChild (cs.insertAt k (l'.headD 0) l') k cs l' with ⟨cs', r⟩
        rw [hor] at h
        cases h
        rcases Children.descends cs cs' l' hor with ⟨c, c', hget, hc, rfl⟩ | ⟨c, hnew, hc, rfl⟩
        · exact .child hl' hget hc
        · exact .newChild hl' hnew hc

/-- A literal goes on under the child with its first byte, or under a new one. -/
theorem Children.descends {k : BuildNode → BuildNode × Outcome} :
    ∀ (cs cs' : Children) (literal : Bytes),
      orAddChild (cs.insertAt k (literal.headD 0) literal) k cs literal = (cs', .ok ()) →
      (∃ c c', cs.get? (literal.headD 0) = some c ∧ Descends k c literal c' ∧
        cs' = cs.set (literal.headD 0) c') ∨
      ∃ c, literal.headD 0 ∉ cs.keys ∧ k (.withPrefix literal) = (c, .ok ()) ∧
        cs' = cs.insert (literal.headD 0) c
  | cs, cs', literal, h => by
    rcases hat : cs.insertAt k (literal.headD 0) literal with _ | found
    · rw [hat] at h
      obtain ⟨c, hc, rfl⟩ := addChild_eq_ok h
      exact .inr ⟨c, Children.not_mem_keys_of_insertAt hat, hc, rfl⟩
    · rw [hat] at h
      exact .inl (Children.insertAt_descends cs cs' _ literal (by rw [hat]; exact congrArg some h))

theorem Children.insertAt_descends {k : BuildNode → BuildNode × Outcome} :
    ∀ (cs cs' : Children) (b : UInt8) (literal : Bytes),
      cs.insertAt k b literal = some (cs', .ok ()) →
      ∃ c c', cs.get? b = some c ∧ Descends k c literal c' ∧ cs' = cs.set b c'
  | .nil, _, _, _, h => by cases h
  | .cons d n rest, cs', b, literal, h => by
    rw [Children.insertAt] at h
    split at h
    · rename_i hdb
      rcases hins : n.insertStaticSegment k literal with ⟨n', r⟩
      rw [hins] at h
      cases h
      exact ⟨n, n', by simp [Children.get?, hdb], BuildNode.descends n n' literal hins,
        by simp [Children.set, hdb]⟩
    · rename_i hdb
      obtain ⟨⟨rest', r⟩, hat, heq⟩ := Option.map_eq_some_iff.1 h
      cases heq
      obtain ⟨c, c', hget, hc, rfl⟩ := Children.insertAt_descends rest rest' b literal hat
      exact ⟨c, c', by simp [Children.get?, hdb, hget], hc, by simp [Children.set, hdb]⟩

end

/-! ## Trees in order -/

mutual

/-- **Every node has its children in the order of their bytes**, and `P` of its parameter child
and its values. -/
def BuildNode.All (P : ParamChild → List ℕ → Prop) : BuildNode → Prop
  | .mk _ cs pc vs _ => P pc vs ∧ cs.All P ∧ pc.All P

def Children.All (P : ParamChild → List ℕ → Prop) : Children → Prop
  | .nil => True
  | .cons b child rest => child.All P ∧ (∀ c ∈ rest.keys, b < c) ∧ rest.All P

def ParamChild.All (P : ParamChild → List ℕ → Prop) : ParamChild → Prop
  | .none => True
  | .some child => child.All P

end

section All

variable {P Q : ParamChild → List ℕ → Prop}

mutual

theorem BuildNode.All.mono (hPQ : ∀ pc vs, P pc vs → Q pc vs) :
    ∀ {node : BuildNode}, node.All P → node.All Q
  | .mk _ _ _ _ _, ⟨hP, hcs, hpc⟩ =>
    ⟨hPQ _ _ hP, Children.All.mono hPQ hcs, ParamChild.All.mono hPQ hpc⟩

theorem Children.All.mono (hPQ : ∀ pc vs, P pc vs → Q pc vs) :
    ∀ {cs : Children}, cs.All P → cs.All Q
  | .nil, _ => trivial
  | .cons _ _ _, ⟨hchild, hlt, hrest⟩ =>
    ⟨BuildNode.All.mono hPQ hchild, hlt, Children.All.mono hPQ hrest⟩

theorem ParamChild.All.mono (hPQ : ∀ pc vs, P pc vs → Q pc vs) :
    ∀ {pc : ParamChild}, pc.All P → pc.All Q
  | .none, _ => trivial
  | .some _, h => BuildNode.All.mono hPQ h

end

namespace Children

/-- The keys of a map in order differ. -/
theorem All.not_mem {rest : Children} (h : (cons b child rest).All P) : b ∉ rest.keys :=
  fun hmem => absurd (h.2.1 b hmem) (UInt8.lt_irrefl b)

theorem All.get? {cs : Children} (h : cs.All P) (hget : cs.get? b = some child) : child.All P := by
  match cs with
  | .nil => cases hget
  | .cons c n rest =>
    rw [Children.get?] at hget
    split at hget
    · cases hget
      exact h.1
    · exact All.get? h.2.2 hget

theorem All.set {cs : Children} (h : cs.All P) (hchild : child.All P) : (cs.set b child).All P := by
  match cs with
  | .nil => trivial
  | .cons c n rest =>
    rw [Children.set]
    split
    · exact ⟨hchild, h.2.1, h.2.2⟩
    · refine ⟨h.1, ?_, All.set h.2.2 hchild⟩
      rw [keys_set]
      exact h.2.1

/-- A node goes to its place. -/
theorem All.insert {cs : Children} (h : cs.All P)
    (hchild : child.All P) : (cs.insert b child).All P := by
  match cs with
  | .nil => exact ⟨hchild, by simp [keys], trivial⟩
  | .cons d n rest =>
    obtain ⟨hn, hlt, hrest⟩ := h
    rw [Children.insert]
    split
    · rename_i hbd
      refine ⟨hchild, fun c hc => ?_, hn, hlt, hrest⟩
      rw [keys, mem_cons] at hc
      rcases hc with rfl | hc
      · exact hbd
      · exact UInt8.lt_trans hbd (hlt c hc)
    · split
      · exact ⟨hchild, hlt, hrest⟩
      · rename_i hbd hne
        refine ⟨hn, fun c hc => ?_, All.insert hrest hchild⟩
        rcases mem_keys_insert.1 hc with rfl | hc
        · exact UInt8.lt_of_le_of_ne (UInt8.not_lt.1 hbd) (Ne.symm hne)
        · exact hlt c hc

end Children

/-- `k` takes trees with `P` to trees with `Q`. -/
def Keeps (P Q : ParamChild → List ℕ → Prop) (k : BuildNode → BuildNode × Outcome) : Prop :=
  ∀ ⦃node node' : BuildNode⦄, node.All P → k node = (node', .ok ()) → node'.All Q

/-- **A literal keeps the tree in order.** -/
theorem Descends.all (hPQ : ∀ pc vs, P pc vs → Q pc vs)
    (hnew : P .none []) (hk : Keeps P Q k) {node node' : BuildNode}
    (h : Descends k node literal node') (hnode : node.All P) : node'.All Q := by
  have hmoved : ∀ {p p' : Bytes} {cs : Children} {pc : ParamChild} {vs : List ℕ},
      (BuildNode.mk p cs pc vs .static).All P →
        (Children.cons (p'.headD 0) (.mk p' cs pc vs .static) .nil).All P :=
    fun h => ⟨h, by simp [Children.keys], trivial⟩
  have hleaf : ∀ l' : Bytes, (BuildNode.withPrefix l').All P := fun _ => ⟨hnew, trivial, trivial⟩
  induction h with
  | here hk' => exact hk hnode hk'
  | split _ hk' =>
    refine hk ?_ hk'
    exact ⟨hnew, hmoved hnode, trivial⟩
  | branch _ _ _ hk' =>
    exact ⟨hPQ _ _ hnew, ((hmoved hnode).mono hPQ).insert (hk (hleaf _) hk'), trivial⟩
  | child _ hget _ ih =>
    obtain ⟨hP, hcs, hpc⟩ := hnode
    exact ⟨hPQ _ _ hP, (hcs.mono hPQ).set (ih (hcs.get? hget)), hpc.mono hPQ⟩
  | newChild _ _ hk' =>
    obtain ⟨hP, hcs, hpc⟩ := hnode
    exact ⟨hPQ _ _ hP, (hcs.mono hPQ).insert (hk (hleaf _) hk'), hpc.mono hPQ⟩
  | paramChild hget _ ih =>
    obtain ⟨hP, hcs, hpc⟩ := hnode
    exact ⟨hPQ _ _ hP, (hcs.mono hPQ).set (ih (hcs.get? hget)), hpc.mono hPQ⟩
  | paramNewChild _ hk' =>
    obtain ⟨hP, hcs, hpc⟩ := hnode
    exact ⟨hPQ _ _ hP, (hcs.mono hPQ).insert (hk (hleaf _) hk'), hpc.mono hPQ⟩

variable {path : Bytes} {value : ℕ}

/-- The end of a pattern adds its value. -/
theorem insertSegments_nil_keeps
    (hval : ∀ pc vs, P pc vs → Q pc (vs ++ [value])) (hPQ : ∀ pc vs, P pc vs → Q pc vs) :
    Keeps P Q (insertSegments value path []) := by
  rintro ⟨p, cs, pc, vs, t⟩ node' ⟨hP, hcs, hpc⟩ h
  rw [insertSegments] at h
  split at h
  · cases h
  · cases h
    exact ⟨hval pc vs hP, hcs.mono hPQ, hpc.mono hPQ⟩

/-- **`insert_segments` keeps the tree in order.** -/
theorem insertSegments_keeps
    (hval : ∀ pc vs, P pc vs → Q pc (vs ++ [value])) (hPQ : ∀ pc vs, P pc vs → Q pc vs)
    (hnew : P .none []) (hparam : ∀ pc child vs, P pc vs → Q (.some child) vs)
    (segs : List PathSegment) : Keeps P Q (insertSegments value path segs) := by
  induction segs with
  | nil => exact insertSegments_nil_keeps hval hPQ
  | cons seg rest ih =>
    rintro ⟨p, cs, pc, vs, t⟩ node' hnode h
    rcases seg with literal | _
    · rw [insertSegments] at h
      exact (BuildNode.descends _ _ _ h).all hPQ hnew ih hnode
    · obtain ⟨hP, hcs, hpc⟩ := hnode
      rw [insertSegments] at h
      rcases hins : insertSegments value path rest pc.getOrInsert with ⟨child, r⟩
      rw [hins] at h
      cases h
      have hget : pc.getOrInsert.All P := by
        cases pc with
        | none => exact ⟨hnew, trivial, trivial⟩
        | some child => exact hpc
      exact ⟨hparam pc child vs hP, hcs.mono hPQ, ih hget hins⟩

end All

/-! ## Routers -/

namespace RadixRouter

/-- The router after a sequence of insertions that all succeed. -/
def insertAll (router : RadixRouter) : List (String × ℕ) → Except RouterError RadixRouter
  | [] => .ok router
  | (path, value) :: routes =>
    match router.insert path value with
    | (_, .error e) => .error e
    | (router', .ok ()) => router'.insertAll routes

/-- The root is a static node with an empty prefix, and the tree under it is well formed. -/
def Wf (router : RadixRouter) : Prop :=
  router.root.Wf ∧ router.root.nodeType = .static ∧ router.root.pre = []

variable {pattern : String} {value : ℕ} {router router' : RadixRouter}

/-- A successful insertion put the parsed segments into the tree. -/
theorem insert_eq_ok (h : router.insert pattern value = (router', .ok ())) :
    asBytes pattern ≠ [] ∧ insertSegments value (asBytes pattern) (parsePath (asBytes pattern))
      router.root = (router'.root, .ok ()) := by
  simp only [insert] at h
  split at h
  · cases h
  · rename_i hpat
    refine ⟨hpat, ?_⟩
    split at h
    · cases h
    · rcases hins : insertSegments value (asBytes pattern) (parsePath (asBytes pattern))
        router.root with ⟨root, _ | _⟩
      · rw [hins] at h
        cases h
      · rw [hins] at h
        cases h
        rfl

variable {routes : List (String × ℕ)}

theorem insertAll_cons_eq_ok {route : String × ℕ}
    (h : router.insertAll (route :: routes) = .ok router') :
    ∃ router1, router.insert route.1 route.2 = (router1, .ok ()) ∧
      router1.insertAll routes = .ok router' := by
  rw [insertAll] at h
  rcases hins : router.insert route.1 route.2 with ⟨router1, _ | _⟩
  · rw [hins] at h
    cases h
  · rw [hins] at h
    exact ⟨router1, rfl, h⟩

/-- **The rule of a sequence of insertions**: what each of them keeps, the sequence does. -/
theorem insertAll_keeps {P : RadixRouter → Prop}
    (hstep : ∀ ⦃r r' : RadixRouter⦄, ∀ route ∈ routes, P r →
      r.insert route.1 route.2 = (r', .ok ()) → P r')
    (hrouter : P router) (h : router.insertAll routes = .ok router') : P router' := by
  induction routes generalizing router with
  | nil =>
    cases h
    exact hrouter
  | cons route routes ih =>
    obtain ⟨router1, hins, h⟩ := insertAll_cons_eq_ok h
    exact ih (fun r r' other hother => hstep other (mem_cons_of_mem _ hother))
      (hstep route mem_cons_self hrouter hins) h

/-- One more insertion after a sequence. -/
theorem insertAll_concat {router1 router2 : RadixRouter} (h : router.insertAll routes = .ok router1)
    (hins : router1.insert pattern value = (router2, .ok ())) :
    router.insertAll (routes ++ [(pattern, value)]) = .ok router2 := by
  induction routes generalizing router with
  | nil =>
    cases h
    simp [insertAll, hins]
  | cons route routes ih =>
    obtain ⟨router', hfst, h⟩ := insertAll_cons_eq_ok h
    rw [cons_append, insertAll, hfst]
    exact ih h

/-- A new router is well formed. -/
theorem new_wf : new.Wf := ⟨⟨trivial, trivial⟩, rfl, rfl⟩

end RadixRouter

end Edgion.RadixTree
