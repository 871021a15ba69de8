import Edgion.Common.Result
import Edgion.RadixTree.Frozen

/-!
# The layout of a frozen tree

`BuildNode.Laid t node i`: the arrays of `t` hold the tree `node` at index `i`, its children at
greater indices. `flatten` lays a tree out at the end of the arrays. It appends to all four, and
changes again only the node it has appended first, so what was laid out before stays, and what
is laid out under a node is not touched when the node is linked.
-/

namespace Edgion.RadixTree

open List Nat Common FlatTreeBuilder

/-! ## Slices -/

variable {α : Type}

/-- The slice of what was just appended. -/
theorem slice_append (xs ys : List α) :
    slice (xs ++ ys) xs.length (xs.length + ys.length) = some ys := by
  simp [slice]

/-- A slice stays when the list grows. -/
theorem slice_mono {xs ys seg : List α} {start stop : ℕ} (hp : xs <+: ys)
    (h : slice xs start stop = some seg) : slice ys start stop = some seg := by
  obtain ⟨tail, rfl⟩ := hp
  unfold slice at h ⊢
  split at h
  · rename_i hin
    rw [if_pos ⟨hin.1, by rw [length_append]; omega⟩, ← h,
      drop_append_of_le_length (by omega), take_append_of_le_length (by simp; omega)]
  · cases h

/-! ## Laid out trees -/

mutual

/-- **The arrays hold a node** at an index: its type, prefix and values, and what is under it. The
values have gone through `as u32`. -/
def BuildNode.Laid (t : FrozenRadixTree) : BuildNode → ℕ → Prop
  | .mk p cs pc vs ty, i =>
    ∃ node entries, t.nodes[i]? = some node ∧ node.nodeType = ty ∧
      t.getNodePrefix node = some p ∧ t.getNodeValues node = some (vs.map asU32) ∧
      slice t.children node.childrenOffset (node.childrenOffset + node.childrenCount) =
        some entries ∧
      cs.Laid t i entries ∧ pc.Laid t i node.paramChildIdx

/-- The arrays hold the static children of node `i`, entry by entry. -/
def Children.Laid (t : FrozenRadixTree) (i : ℕ) : Children → List ChildEntry → Prop
  | .nil, [] => True
  | .cons b child rest, e :: entries =>
    e.firstByte = b ∧ i < e.nodeIndex ∧ child.Laid t e.nodeIndex ∧ rest.Laid t i entries
  | .nil, _ :: _ => False
  | .cons _ _ _, [] => False

/-- The arrays hold the parameter child of node `i`, or the index is the sentinel. -/
def ParamChild.Laid (t : FrozenRadixTree) (i : ℕ) : ParamChild → ℕ → Prop
  | .none, idx => idx = noParamChild
  | .some child, idx => idx ≠ noParamChild ∧ i < idx ∧ child.Laid t idx

end

/-- **The arrays grow**: the pools at their ends, and the nodes from index `i` on stay. -/
structure Grows (i : ℕ) (t t' : FrozenRadixTree) : Prop where
  nodes : ∀ j node, i ≤ j → t.nodes[j]? = some node → t'.nodes[j]? = some node
  children : t.children <+: t'.children
  stringPool : t.stringPool <+: t'.stringPool
  valuesPool : t.valuesPool <+: t'.valuesPool

namespace Grows

variable {i j : ℕ} {t t' t'' : FrozenRadixTree}

theorem refl (i : ℕ) (t : FrozenRadixTree) : Grows i t t :=
  ⟨fun _ _ _ h => h, prefix_rfl, prefix_rfl, prefix_rfl⟩

theorem trans (h : Grows i t t') (h' : Grows i t' t'') : Grows i t t'' :=
  ⟨fun j node hj hn => h'.nodes j node hj (h.nodes j node hj hn), h.children.trans h'.children,
    h.stringPool.trans h'.stringPool, h.valuesPool.trans h'.valuesPool⟩

variable {node : FlatNode}

/-- The prefix of a node is read from the pool as before. -/
theorem getNodePrefix (h : Grows i t t') {p : Bytes}
    (hp : t.getNodePrefix node = some p) : t'.getNodePrefix node = some p :=
  slice_mono h.stringPool hp

/-- So are its values. -/
theorem getNodeValues (h : Grows i t t') {vs : List ℕ}
    (hv : t.getNodeValues node = some vs) : t'.getNodeValues node = some vs := by
  unfold FrozenRadixTree.getNodeValues at hv ⊢
  split
  · rwa [if_pos (by assumption)] at hv
  · rename_i hcount
    rw [if_neg hcount] at hv
    split
    · rwa [if_pos (by assumption)] at hv
    · rename_i hflags
      rw [if_neg hflags] at hv
      exact slice_mono h.valuesPool hv

end Grows

mutual

variable {t t' : FrozenRadixTree} {j : ℕ}

/-- **A tree laid out stays so** while the arrays grow and its indices are left alone. -/
theorem BuildNode.Laid.grows (hg : Grows j t t') :
    ∀ (node : BuildNode) (i : ℕ), j ≤ i → node.Laid t i → node.Laid t' i
  | .mk p cs pc vs ty, i, hi, h => by
    obtain ⟨node, entries, hnode, hty, hp, hv, hslice, hcs, hpc⟩ := h
    exact ⟨node, entries, hg.nodes i node hi hnode, hty, hg.getNodePrefix hp, hg.getNodeValues hv,
      slice_mono hg.children hslice, Children.Laid.grows hg cs i entries (by omega) hcs,
      ParamChild.Laid.grows hg pc i _ (by omega) hpc⟩

theorem Children.Laid.grows (hg : Grows j t t') :
    ∀ (cs : Children) (i : ℕ) (entries : List ChildEntry), j ≤ i + 1 → cs.Laid t i entries →
      cs.Laid t' i entries
  | .nil, _, [], _, _ => trivial
  | .nil, _, _ :: _, _, h => h
  | .cons _ _ _, _, [], _, h => h
  | .cons b child rest, i, e :: entries, hi, ⟨hb, he, hchild, hrest⟩ =>
    ⟨hb, he, BuildNode.Laid.grows hg child _ (by omega) hchild,
      Children.Laid.grows hg rest i entries hi hrest⟩

theorem ParamChild.Laid.grows (hg : Grows j t t') :
    ∀ (pc : ParamChild) (i idx : ℕ), j ≤ i + 1 → pc.Laid t i idx → pc.Laid t' i idx
  | .none, _, _, _, h => h
  | .some child, _, idx, hi, ⟨hne, hidx, hchild⟩ =>
    ⟨hne, hidx, BuildNode.Laid.grows hg child idx (by omega) hchild⟩

end

/-! ## Flattening -/

mutual

/-- The number of nodes. -/
def BuildNode.size : BuildNode → ℕ
  | .mk _ cs pc _ _ => cs.size + pc.size + 1

/-- The number of nodes under the static children. -/
def Children.size : Children → ℕ
  | .nil => 0
  | .cons _ child rest => child.size + rest.size

/-- The number of nodes under the parameter child. -/
def ParamChild.size : ParamChild → ℕ
  | .none => 0
  | .some child => child.size

end

/-- A tree has a node. -/
theorem BuildNode.size_pos (node : BuildNode) : 0 < node.size := by
  match node with
  | .mk _ _ _ _ _ => exact succ_pos _

namespace FlatTreeBuilder

/-- **Stored values are read back**, inline or from the pool. -/
theorem storeValues_spec {pool values pool' : List ℕ} {flags : ℕ} {data : ℕ × ℕ}
    (h : storeValues pool values = .ok (flags, data, pool')) :
    pool <+: pool' ∧ ∀ (t : FrozenRadixTree) (node : FlatNode), t.valuesPool = pool' →
      node.valuesCount = values.length → node.valuesFlags = flags → node.valuesData = data →
      t.getNodeValues node = some (values.map asU32) := by
  match values, h with
  | [], h =>
    cases h
    exact ⟨prefix_rfl, fun t node _ hc _ _ => by simp [FrozenRadixTree.getNodeValues, hc]⟩
  | [v], h =>
    cases h
    refine ⟨prefix_rfl, fun t node _ hc hf hd => ?_⟩
    simp [FrozenRadixTree.getNodeValues, hc, hf, hd, slice]
  | [v, w], h =>
    cases h
    refine ⟨prefix_rfl, fun t node _ hc hf hd => ?_⟩
    simp [FrozenRadixTree.getNodeValues, hc, hf, hd, slice]
  | v :: w :: x :: rest, h =>
    rw [storeValues] at h
    · split at h
      · cases h
      · rename_i hfit
        cases h
        have hoff : asU32 pool.length = pool.length := mod_eq_of_lt (by
          unfold u32Max at hfit; omega)
        refine ⟨prefix_append _ _, fun t node ht hc hf hd => ?_⟩
        have hread := slice_append pool ((v :: w :: x :: rest).map asU32)
        rw [length_map] at hread
        rw [FrozenRadixTree.getNodeValues, if_neg (by simp [hc]), if_neg (by simp [hf]), ht, hc, hd,
          hoff, hread]
    all_goals simp

variable {b b' : FlatTreeBuilder}

/-- What `pushNode` leaves: the node at the end, with the pools that hold its prefix and values. -/
theorem pushNode_spec {p : Bytes} {count : ℕ} {vs : List ℕ}
    {ty : NodeType} {i : ℕ} (h : b.pushNode p count vs ty = .ok (i, b')) :
    i = b.nodes.length ∧ i ≠ noParamChild ∧ Grows 0 b.build b'.build ∧
      ∃ node, b'.nodes = b.nodes ++ [node] ∧ node.nodeType = ty ∧
        b'.build.getNodePrefix node = some p ∧
        b'.build.getNodeValues node = some (vs.map asU32) ∧ node.childrenCount = count := by
  unfold pushNode at h
  split at h
  · cases h
  · split at h
    · cases h
    · rcases hst : storeValues b.valuesPool vs with e | ⟨flags, data, pool⟩
      · rw [hst] at h
        cases h
      · simp only [hst] at h
        split at h
        · cases h
        · split at h
          · cases h
          · split at h
            · cases h
            · rename_i hstr hval hlen hcount hnodes
              cases h
              -- every size was checked, so no narrowing loses anything
              have hnode : asU32 b.nodes.length = b.nodes.length := mod_eq_of_lt (by
                unfold u32Max at hnodes; omega)
              have hoff : asU32 b.stringPool.length = b.stringPool.length := mod_eq_of_lt (by
                unfold u32Max at hstr; omega)
              have hpl : asU16 p.length = p.length := mod_eq_of_lt (by
                unfold u16Max at hlen; omega)
              have hcl : asU16 count = count := mod_eq_of_lt (by
                unfold u16Max at hcount; omega)
              have hvl : asU8 vs.length = vs.length := mod_eq_of_lt (by
                unfold u8Max at hval; omega)
              obtain ⟨hpool, hread⟩ := storeValues_spec hst
              have hkeep : ∀ (new : FlatNode) j n, b.nodes[j]? = some n →
                  (b.nodes ++ [new])[j]? = some n := fun new j n hn => by
                rw [getElem?_append_left (List.getElem?_eq_some_iff.1 hn).1]
                exact hn
              refine ⟨hnode, ?_, ⟨fun j n _ => hkeep _ j n, prefix_rfl,
                prefix_append _ _, hpool⟩, _, rfl, rfl, ?_, ?_, hcl⟩
              · rw [hnode, noParamChild]
                omega
              · rw [FrozenRadixTree.getNodePrefix]
                simp only [hoff, hpl]
                exact slice_append _ _
              · exact hread _ _ rfl hvl rfl rfl

/-- What `linkNode` leaves: only node `i` changes, and the entries are at its offset. -/
theorem linkNode_spec {i j idx : ℕ} {entries : List ChildEntry}
    (h : b.linkNode i entries idx = .ok (j, b')) :
    j = i ∧ b'.nodes.length = b.nodes.length ∧ b'.children = b.children ++ entries ∧
      (∀ k, k ≠ i → b'.nodes[k]? = b.nodes[k]?) ∧ Grows (i + 1) b.build b'.build ∧
      ∀ node, b.nodes[i]? = some node → b'.nodes[i]? = some
        { node with paramChildIdx := idx, childrenOffset := b.children.length } := by
  unfold linkNode at h
  split at h
  · cases h
  · rename_i hfit
    cases h
    have hoff : asU32 b.children.length = b.children.length := mod_eq_of_lt (by
      unfold u32Max at hfit; omega)
    have hother : ∀ k, k ≠ i → (b.nodes.modify i fun n =>
      { n with paramChildIdx := idx, childrenOffset := asU32 b.children.length })[k]? =
        b.nodes[k]? := fun k hk => getElem?_modify_ne _ _ (Ne.symm hk)
    refine ⟨rfl, by simp, rfl, hother, ⟨fun k n hk hn => ?_, prefix_append _ _,
      prefix_rfl, prefix_rfl⟩, fun node hnode => ?_⟩
    · exact (hother k (by omega)).trans hn
    · simp [getElem?_modify_eq, hnode, hoff]

end FlatTreeBuilder

variable {t : FrozenRadixTree}

/-- There is an entry for every child. -/
theorem Children.Laid.length_eq {i : ℕ} {cs : Children}
    {entries : List ChildEntry} (h : cs.Laid t i entries) : entries.length = cs.len := by
  match cs, entries, h with
  | .nil, [], _ => rfl
  | .cons _ _ rest, e :: entries, h =>
    rw [length_cons, Children.len, Children.Laid.length_eq h.2.2.2]

mutual

open FlatTreeBuilder

/-- **`flatten_node` lays the tree out** behind what is there, at the index it returns. -/
theorem BuildNode.flatten_spec : ∀ (node : BuildNode) (b b' : FlatTreeBuilder) (i : ℕ),
    node.flatten b = .ok (i, b') →
      i = b.nodes.length ∧ i ≠ noParamChild ∧ b'.nodes.length = b.nodes.length + node.size ∧
        Grows 0 b.build b'.build ∧ node.Laid b'.build i
  | .mk p cs pc vs ty, b, b', i, h => by
    rw [BuildNode.flatten] at h
    obtain ⟨⟨i', b1⟩, hpush, h⟩ := bind_eq_ok.1 h
    obtain ⟨⟨entries, b2⟩, hcs, h⟩ := bind_eq_ok.1 h
    obtain ⟨⟨idx, b3⟩, hpc, hlink⟩ := bind_eq_ok.1 h
    obtain ⟨rfl, hne, hg1, node, hn1, hty, hpre, hval, hcount⟩ := pushNode_spec hpush
    have hlen1 : b1.nodes.length = b.nodes.length + 1 := by simp [hn1]
    obtain ⟨hlen2, hg2, hcsLaid⟩ :=
      Children.flatten_spec cs b1 b2 entries b.nodes.length (by omega) hcs
    obtain ⟨hlen3, hg3, hpcLaid⟩ :=
      ParamChild.flatten_spec pc b2 b3 idx b.nodes.length (by omega) hpc
    obtain ⟨rfl, hlen4, hch4, hother, hg4, hself⟩ := linkNode_spec hlink
    have hg13 : Grows 0 b1.build b3.build := hg2.trans hg3
    have hnode1 : b1.nodes[b.nodes.length]? = some node := by simp [hn1]
    have hnode4 := hself node (hg13.nodes _ _ (zero_le _) hnode1)
    refine ⟨rfl, hne, ?_, ⟨fun j n _ hn => ?_, ?_, ?_, ?_⟩, ?_⟩
    · rw [hlen4, hlen3, hlen2, hlen1, BuildNode.size]
      omega
    · -- a node from before comes before the new one, so linking leaves it
      have hj : j < b.nodes.length := (List.getElem?_eq_some_iff.1 hn).1
      exact (hother j (by omega)).trans ((hg1.trans hg13).nodes j n (zero_le _) hn)
    · exact (hg1.trans hg13).children.trans hg4.children
    · exact (hg1.trans hg13).stringPool.trans hg4.stringPool
    · exact (hg1.trans hg13).valuesPool.trans hg4.valuesPool
    · refine ⟨_, entries, hnode4, hty, hg4.getNodePrefix (hg13.getNodePrefix hpre),
        hg4.getNodeValues (hg13.getNodeValues hval), ?_, ?_, ?_⟩
      · have hslice := slice_append b3.children entries
        rw [hcsLaid.length_eq, ← hcount] at hslice
        rw [build, hch4]
        exact hslice
      · exact Children.Laid.grows hg4 cs _ _ (by omega)
          (Children.Laid.grows hg3 cs _ _ (by omega) hcsLaid)
      · exact ParamChild.Laid.grows hg4 pc _ _ (by omega) hpcLaid

theorem Children.flatten_spec : ∀ (cs : Children) (b b' : FlatTreeBuilder)
    (entries : List ChildEntry) (k : ℕ), k < b.nodes.length → cs.flatten b = .ok (entries, b') →
      b'.nodes.length = b.nodes.length + cs.size ∧ Grows 0 b.build b'.build ∧
        cs.Laid b'.build k entries
  | .nil, b, b', entries, k, _, h => by
    cases h
    exact ⟨by simp [Children.size], Grows.refl 0 _, trivial⟩
  | .cons c child rest, b, b', entries, k, hk, h => by
    rw [Children.flatten] at h
    obtain ⟨⟨i, b1⟩, hchild, h⟩ := bind_eq_ok.1 h
    obtain ⟨⟨tail, b2⟩, hrest, h⟩ := bind_eq_ok.1 h
    cases h
    obtain ⟨rfl, -, hlen1, hg1, hlaid⟩ := BuildNode.flatten_spec child b b1 i hchild
    obtain ⟨hlen2, hg2, hlaids⟩ := Children.flatten_spec rest b1 b' tail k (by omega) hrest
    refine ⟨by rw [hlen2, hlen1, Children.size]; omega, hg1.trans hg2, rfl, hk, ?_, hlaids⟩
    exact BuildNode.Laid.grows hg2 child _ (zero_le _) hlaid

theorem ParamChild.flatten_spec : ∀ (pc : ParamChild) (b b' : FlatTreeBuilder) (idx k : ℕ),
    k < b.nodes.length → pc.flatten b = .ok (idx, b') →
      b'.nodes.length = b.nodes.length + pc.size ∧ Grows 0 b.build b'.build ∧ pc.Laid b'.build k idx
  | .none, b, b', idx, k, _, h => by
    cases h
    exact ⟨by simp [ParamChild.size], Grows.refl 0 _, rfl⟩
  | .some child, b, b', idx, k, hk, h => by
    obtain ⟨rfl, hne, hlen, hg, hlaid⟩ := BuildNode.flatten_spec child b b' idx h
    exact ⟨hlen, hg, hne, hk, hlaid⟩

end

/-- **`freeze` lays the whole tree out at index 0**, and has no other nodes. -/
theorem fromBuilder_spec {root : BuildNode}
    (h : fromBuilder root = .ok t) : root.Laid t 0 ∧ t.nodes.length = root.size := by
  simp only [fromBuilder] at h
  split at h
  · cases h
  · split at h
    · cases h
    · split at h
      · cases h
      · obtain ⟨⟨i, b⟩, hflat, h⟩ := bind_eq_ok.1 h
        cases h
        obtain ⟨rfl, -, hlen, -, hlaid⟩ := BuildNode.flatten_spec root _ b i hflat
        exact ⟨hlaid, by simpa [empty, build] using hlen⟩

end Edgion.RadixTree
