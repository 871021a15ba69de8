import Edgion.RadixTree.Entries
import Mathlib.Data.List.Nodup
import Mathlib.Data.List.Perm.Subperm

/-!
# `match_all_prefixes` on a tree of literals

`match_all_prefixes` follows one way down the tree, byte by byte, and collects the values it comes
by. It never looks at a parameter child, so what it finds is all there is only where no pattern
has a parameter: `Literal` patterns, whose trees are plain. There the way down meets exactly the
patterns that begin the path, the shorter ones first.
-/

namespace Edgion.RadixTree

open List Option Function TreeStatistics

/-! ## The model -/

namespace FrozenRadixTree

variable (t : FrozenRadixTree)

/-- `find_child`. The entries of a node are in the order of their bytes (`Children.All`), so the
linear search and the binary search it chooses between find the same one. -/
def findChild (entries : List ChildEntry) (byte : UInt8) : Option ChildEntry :=
  entries.find? (·.firstByte == byte)

/-- The loop of `match_all_prefixes` over `PrefixMatchIter::next_match`. -/
def prefixLoop : ℕ → ℕ → Bytes → List ℕ → Option (List ℕ)
  | 0, _, _, _ => none
  | fuel + 1, nodeIdx, remaining, results => do
    let node ← t.nodes[nodeIdx]?
    let p ← t.getNodePrefix node
    if p.isPrefixOf remaining then
      let values ← t.getNodeValues node
      let after := remaining.drop p.length
      match after with
      | [] => return results ++ values
      | nextByte :: _ =>
        let entries ← slice t.children node.childrenOffset
          (node.childrenOffset + node.childrenCount)
        match findChild entries nextByte with
        | some entry => prefixLoop fuel entry.nodeIndex after (results ++ values)
        | none => return results ++ values
    else return results

def matchAllPrefixes (path : String) : Option (List ℕ) :=
  if t.nodes = [] then some [] else t.prefixLoop t.nodes.length 0 (asBytes path) []

end FrozenRadixTree

/-! ## The way down -/

mutual

/-- **The values on the way down** a tree along a path, each with what is left of the path. -/
def BuildNode.walk : BuildNode → Bytes → List (ℕ × Bytes)
  | .mk p cs _ vs _, path =>
    if p.isPrefixOf path then
      vs.map (·, path.drop p.length) ++
        if path.drop p.length = [] then [] else cs.walk (path.drop p.length)
    else []

/-- The way down from a map of children: under the next byte of the path. -/
def Children.walk : Children → Bytes → List (ℕ × Bytes)
  | .nil, _ => []
  | .cons b child rest, after => if after.head? = some b then child.walk after else rest.walk after

end

open BuildNode

/-- A node whose prefix begins the path. -/
theorem BuildNode.walk_append (p : Bytes) (cs : Children) (pc : ParamChild) (vs : List ℕ)
    (t : NodeType) (after : Bytes) :
    (mk p cs pc vs t).walk (p ++ after) =
      vs.map (·, after) ++ if after = [] then [] else cs.walk after := by
  rw [walk, if_pos (by simp), drop_left]

theorem BuildNode.walk_of_not {p path : Bytes} (h : ¬ p <+: path) (cs : Children)
    (pc : ParamChild) (vs : List ℕ) (t : NodeType) :
    (mk p cs pc vs t).walk path = [] := by
  rw [walk, if_neg (by simpa using h)]

@[simp] theorem Children.walk_nil_path (cs : Children) : cs.walk [] = [] := by
  match cs with
  | .nil => rfl
  | .cons b child rest => simp [Children.walk, Children.walk_nil_path rest]

variable {after : Bytes}

/-- The way down goes on under the child with the next byte. -/
theorem Children.walk_eq_get? {b : UInt8} (hb : after.head? = some b)
    (cs : Children) : cs.walk after = (cs.get? b).elim [] (·.walk after) := by
  match cs with
  | .nil => rfl
  | .cons c child rest =>
    rw [Children.walk, Children.get?, hb, Children.walk_eq_get? hb rest]
    by_cases hcb : c = b
    · simp [hcb]
    · simp [hcb, Ne.symm hcb]

theorem Children.size_get? {b : UInt8} {c : BuildNode} {cs : Children} (h : cs.get? b = some c) :
    c.size ≤ cs.size := by
  match cs with
  | .nil => cases h
  | .cons d child rest =>
    rw [Children.get?] at h
    rw [Children.size]
    split at h
    · cases h
      omega
    · have := Children.size_get? h
      omega

variable {t : FrozenRadixTree} {i : ℕ}

/-- **The entry that is found is that of the child**, and none is found without one. -/
theorem Children.Laid.findChild {b : UInt8} {cs : Children} {entries : List ChildEntry}
    (h : cs.Laid t i entries) :
    (FrozenRadixTree.findChild entries b).elim (cs.get? b = none) fun entry =>
      ∃ c, cs.get? b = some c ∧ c.Laid t entry.nodeIndex := by
  match cs, entries, h with
  | .nil, [], _ => exact rfl
  | .cons c child rest, entry :: entries, ⟨hc, _, hchild, hrest⟩ =>
    by_cases hcb : c = b
    · simp [FrozenRadixTree.findChild, Children.get?, hc, hcb, hchild]
    · have ih := Children.Laid.findChild (b := b) hrest
      simpa [FrozenRadixTree.findChild, Children.get?, hc, hcb] using ih

/-- **The loop over the arrays follows the way down**, with the values narrowed. -/
theorem prefixLoop_eq {fuel : ℕ} {node : BuildNode} {path : Bytes} {results : List ℕ}
    (h : node.Laid t i) (hfuel : node.size ≤ fuel) :
    t.prefixLoop fuel i path results =
      some (results ++ (node.walk path).map fun x => asU32 x.1) := by
  induction fuel generalizing node i path results with
  | zero => exact absurd node.size_pos (by omega)
  | succ fuel ih =>
    obtain ⟨p, cs, pc, vs, ty⟩ := node
    obtain ⟨node, entries, hnode, -, hp, hv, hslice, hcs, -⟩ := h
    rw [size] at hfuel
    rw [FrozenRadixTree.prefixLoop, hnode, bind_eq_bind, bind_some, hp, bind_eq_bind, bind_some]
    by_cases hpre : p <+: path
    · obtain ⟨after, rfl⟩ := hpre
      rw [hv, drop_left, walk_append]
      simp only [bind_eq_bind, bind_some]
      rcases after with _ | ⟨b, after⟩
      · simp
      · simp only [hslice, bind_some, if_neg (cons_ne_nil b after)]
        have hchild := hcs.findChild (b := b)
        have hwalk : cs.walk (b :: after) = _ := Children.walk_eq_get? rfl cs
        rcases hfind : FrozenRadixTree.findChild entries b with _ | entry
        · rw [hfind, elim_none] at hchild
          simp [hwalk, hchild]
        · rw [hfind] at hchild
          obtain ⟨c, hget, hlaid⟩ := hchild
          have hsize := Children.size_get? hget
          simp [ih hlaid (by omega), hwalk, hget]
    · rw [if_neg (by simpa using hpre), walk_of_not hpre]
      simp

variable {router : RadixRouter} {pattern : Bytes}

/-- **`match_all_prefixes` on a frozen tree** returns, with the values on the way down. -/
theorem matchAllPrefixes_eq (h : router.freeze = .ok t) (path : String) : t.matchAllPrefixes path =
      some ((router.root.walk (asBytes path)).map fun x => asU32 x.1) := by
  obtain ⟨hlaid, hlen⟩ := fromBuilder_spec h
  have hne : t.nodes ≠ [] := by
    intro hnil
    have hpos := router.root.size_pos
    rw [hnil, length_nil] at hlen
    omega
  rw [FrozenRadixTree.matchAllPrefixes, if_neg hne, prefixLoop_eq hlaid hlen.ge, nil_append]

/-! ## Trees of literals -/

/-- The pattern has no parameter and no escape. -/
def Literal (pattern : Bytes) : Prop := ¬ [slash, colon] <:+: pattern

instance (pattern : Bytes) : Decidable (Literal pattern) :=
  inferInstanceAs (Decidable (¬ [slash, colon] <:+: pattern))

theorem Literal.noEscape (h : Literal pattern) : NoEscape pattern :=
  fun hi => h ((infix_append [] [slash, colon] [colon]).trans hi)

/-- **A literal pattern stands for itself.** -/
theorem Literal.readPattern_eq (h : Literal pattern) :
    readPattern .text pattern = pattern.map .lit := by
  induction pattern with
  | nil => rfl
  | cons b rest ih =>
    have hno : ¬ (b = slash ∧ rest.head? = some colon) := by
      rintro ⟨rfl, hc⟩
      obtain ⟨tail, rfl⟩ := head?_eq_some_iff.1 hc
      exact h ⟨[], tail, rfl⟩
    rw [readPattern_literal hno, ih fun hi => h (hi.trans (suffix_cons b rest).isInfix), map_cons]

/-- A node without a parameter child. A tree of such nodes is **plain**. -/
def NoParam (pc : ParamChild) (_ : List ℕ) : Prop := pc = .none

namespace RadixRouter

theorem new_plain : new.root.All NoParam := ⟨rfl, trivial, trivial⟩

variable {router' : RadixRouter}

theorem insert_plain (hplain : router.root.All NoParam)
    {pattern : String} {value : ℕ} (hlit : Literal (asBytes pattern))
    (h : router.insert pattern value = (router', .ok ())) : router'.root.All NoParam := by
  obtain ⟨hpat, hins⟩ := insert_eq_ok h
  obtain ⟨literal, rest, hsegs, -, halt⟩ := hlit.noEscape.escapeLast.parsePath_alternates hpat
  have hrest : rest = [] := by
    have htokens := tokens_parsePath (asBytes pattern)
    rw [hsegs, hlit.readPattern_eq] at htokens
    rcases rest with _ | ⟨_ | _, rest⟩
    · rfl
    · exact halt.elim
    · have hany : Tok.any ∈ tokens (.static literal :: .param :: rest) := by simp [tokens]
      simp [htokens] at hany
  rw [hsegs, hrest] at hins
  have hk : Keeps NoParam NoParam (insertSegments value (asBytes pattern) []) :=
    insertSegments_nil_keeps (fun _ _ h => h) (fun _ _ h => h)
  exact (descends _ _ _ hins).all (fun _ _ h => h) rfl hk hplain

end RadixRouter

/-! ## The way down meets the entries that match -/

/-- The value of an entry with what its tokens leave of a path. -/
def left (path : Bytes) (e : List Tok × ℕ) : Option (ℕ × Bytes) :=
  (matchTokens e.1 path).map (e.2, ·)

/-- The same, of an entry without parameters only. -/
def straight (path : Bytes) (e : List Tok × ℕ) : Option (ℕ × Bytes) :=
  if .any ∈ e.1 then none else left path e

theorem matchTokens_map_lit_iff {p path : Bytes} :
    matchTokens (p.map .lit) path = some after ↔ path = p ++ after := by
  rw [matchTokens_map_lit]
  split
  · rename_i hpre
    obtain ⟨rest, rfl⟩ := isPrefixOf_iff_prefix.1 hpre
    simp
  · rename_i hpre
    refine iff_of_false (by simp) ?_
    rintro rfl
    simp at hpre

theorem straight_lits (p path : Bytes) (v : ℕ) : straight path (p.map .lit, v) =
    if p <+: path then some (v, path.drop p.length) else none := by
  rw [straight, if_neg (by simp), left, matchTokens_map_lit]
  simp only [ isPrefixOf_iff_prefix]
  split <;> rfl

section

variable {P : ParamChild → List ℕ → Prop}

mutual

/-- **The way down meets every entry without parameters that matches.** -/
theorem BuildNode.walk_eq : ∀ (node : BuildNode) (path : Bytes), node.Wf → node.All P →
    node.nodeType = .static → node.walk path = node.entries.filterMap (straight path)
  | .mk p cs pc vs .static, path, hwf, hall, _ => by
    have hlits : Tok.any ∉ ownTokens .static p := by simp [ownTokens]
    have hparam : pc.entries.filterMap (straight path ∘ below (ownTokens .static p)) = [] := by
      rw [filterMap_eq_nil_iff]
      intro e he
      obtain ⟨ts, hts⟩ := hwf.2.head_entries he
      simp [straight, below, hts]
    rw [entries, filterMap_append, filterMap_map, filterMap_map, filterMap_append,
      hparam, nil_append]
    by_cases hpre : p <+: path
    · obtain ⟨after, rfl⟩ := hpre
      have hown : matchTokens (ownTokens .static p) (p ++ after) = some after :=
        matchTokens_map_lit_iff.2 rfl
      have hbelow : straight (p ++ after) ∘ below (ownTokens .static p) = straight after := by
        funext e
        simp [straight, left, below, matchTokens_append, hown, hlits]
      rw [walk_append, hbelow]
      congr 1
      · simp [straight, left, hown, comp_def, hlits]
      · split
        · rename_i hnil
          rw [hnil, ← Children.walk_nil_path cs, Children.walk_eq cs [] hwf.1 hall.2.1]
        · exact Children.walk_eq cs after hwf.1 hall.2.1
    · have hown : matchTokens (ownTokens .static p) path = none := by
        rw [Option.eq_none_iff_forall_ne_some]
        exact fun after h => hpre ⟨after, (matchTokens_map_lit_iff.1 h).symm⟩
      rw [walk_of_not hpre]
      simp [straight, left, below, matchTokens_append, hown, comp_def]
  | .mk _ _ _ _ .param, _, _, _, ht => by cases ht

theorem Children.walk_eq : ∀ (cs : Children) (after : Bytes), cs.Wf → cs.All P →
    cs.walk after = cs.entries.filterMap (straight after)
  | .nil, _, _, _ => rfl
  | .cons b child rest, after, hwf, hall => by
    rw [Children.walk, Children.entries, filterMap_append]
    split
    · rename_i hb
      have hrest : rest.entries.filterMap (straight after) = [] := by
        rw [filterMap_eq_nil_iff]
        exact fun e he => by simp [straight, left, hwf.no_match_rest hall hb he]
      rw [hrest]
      exact BuildNode.walk_eq child after hwf.2.1 hall.1 hwf.1.1
    · rename_i hb
      have hchild : child.entries.filterMap (straight after) = [] := by
        rw [filterMap_eq_nil_iff]
        exact fun e he => by simp [straight, left, hwf.no_match_child hb he]
      rw [hchild, append_nil]
      exact Children.walk_eq rest after hwf.2.2 hall.2.2

end

end

mutual

/-- The byte strings that lead to the nodes. -/
def BuildNode.paths : BuildNode → List Bytes
  | .mk p cs _ _ _ => p :: cs.paths.map (p ++ ·)

def Children.paths : Children → List Bytes
  | .nil => []
  | .cons _ child rest => child.paths ++ rest.paths

end

mutual

theorem BuildNode.length_paths : ∀ node : BuildNode, node.All NoParam → node.paths.length = node.size
  | .mk _ cs .none _ _, hplain => by
    simp [paths, size, ParamChild.size, Children.length_paths cs hplain.2.1]
  | .mk _ _ (.some _) _ _, hplain => by cases hplain.1

theorem Children.length_paths : ∀ cs : Children, cs.All NoParam → cs.paths.length = cs.size
  | .nil, _ => rfl
  | .cons _ child rest, ⟨hchild, _, hrest⟩ => by
    rw [Children.paths, length_append, BuildNode.length_paths child hchild,
      Children.length_paths rest hrest, Children.size]

end

mutual

/-- **A value of the way down stands at a node**, to which the bytes up to what is left lead. -/
theorem BuildNode.mem_walk {x : ℕ × Bytes} : ∀ (node : BuildNode) (path : Bytes), node.Wf →
    x ∈ node.walk path → ∃ q ∈ node.paths, node.pre <+: q ∧ path = q ++ x.2
  | .mk p cs pc vs t, path, hwf, hx => by
    by_cases hpre : p <+: path
    · obtain ⟨after, rfl⟩ := hpre
      rw [walk_append, mem_append, List.mem_map] at hx
      rcases hx with ⟨v, -, rfl⟩ | hx
      · exact ⟨p, by simp [paths], prefix_rfl, rfl⟩
      · split at hx
        · cases hx
        · obtain ⟨q, hq, -, rfl⟩ := Children.mem_walk cs after hwf.1 hx
          exact ⟨p ++ q, by simp [paths, hq], prefix_append _ _, (append_assoc p q x.2).symm⟩
    · rw [walk_of_not hpre] at hx
      cases hx

theorem Children.mem_walk {x : ℕ × Bytes} : ∀ (cs : Children) (after : Bytes), cs.Wf →
    x ∈ cs.walk after → ∃ q ∈ cs.paths, q ≠ [] ∧ after = q ++ x.2
  | .nil, _, _, hx => by cases hx
  | .cons b child rest, after, hwf, hx => by
    rw [Children.walk] at hx
    split at hx
    · obtain ⟨q, hq, hpre, hpost⟩ := BuildNode.mem_walk child after hwf.2.1 hx
      refine ⟨q, mem_append_left _ hq, ?_, hpost⟩
      rintro rfl
      have hb := hwf.1.2
      rw [prefix_nil.1 hpre] at hb
      cases hb
    · obtain ⟨q, hq, hrest⟩ := Children.mem_walk rest after hwf.2.2 hx
      exact ⟨q, mem_append_right _ hq, hrest⟩

end

/-- Below a node less of the path is left. -/
theorem Children.walk_length_lt {cs : Children} (hwf : cs.Wf) {x : ℕ × Bytes}
    (hx : x ∈ cs.walk after) : x.2.length < after.length := by
  obtain ⟨q, -, hne, rfl⟩ := Children.mem_walk cs after hwf hx
  rw [length_append]
  have := length_pos_iff.2 hne
  omega

mutual

/-- **The way down goes from short to long**: less and less of the path is left. -/
theorem BuildNode.walk_pairwise : ∀ (node : BuildNode) (path : Bytes), node.Wf →
    (node.walk path).Pairwise fun x y => y.2.length ≤ x.2.length
  | .mk p cs pc vs t, path, hwf => by
    by_cases hpre : p <+: path
    · obtain ⟨after, rfl⟩ := hpre
      rw [walk_append, pairwise_append]
      refine ⟨?_, ?_, ?_⟩
      · rw [pairwise_map]
        exact pairwise_of_forall fun _ _ => le_rfl
      · split
        · exact List.Pairwise.nil
        · exact Children.walk_pairwise cs after hwf.1
      · intro x hx y hy
        obtain ⟨v, -, rfl⟩ := List.mem_map.1 hx
        split at hy
        · cases hy
        · exact (Children.walk_length_lt hwf.1 hy).le
    · rw [walk_of_not hpre]
      exact List.Pairwise.nil

theorem Children.walk_pairwise : ∀ (cs : Children) (after : Bytes), cs.Wf →
    (cs.walk after).Pairwise fun x y => y.2.length ≤ x.2.length
  | .nil, _, _ => List.Pairwise.nil
  | .cons b child rest, after, hwf => by
    rw [Children.walk]
    split
    · exact BuildNode.walk_pairwise child after hwf.2.1
    · exact Children.walk_pairwise rest after hwf.2.2

end

/-! ## Freezing bounds the number of nodes -/

mutual

theorem BuildNode.nodeCount_countTreeStats : ∀ node : BuildNode,
    node.countTreeStats.nodeCount = node.size
  | .mk _ cs pc _ _ => by
    rw [countTreeStats, ParamChild.nodeCount_countTreeStats pc,
      Children.nodeCount_countTreeStats cs, size]
    simp only
    omega

theorem Children.nodeCount_countTreeStats : ∀ (cs : Children) (stats : TreeStatistics),
    (cs.countTreeStats stats).nodeCount = stats.nodeCount + cs.size
  | .nil, _ => rfl
  | .cons _ child rest, stats => by
    rw [Children.countTreeStats, Children.nodeCount_countTreeStats rest, add,
      BuildNode.nodeCount_countTreeStats child, Children.size, Nat.add_assoc]

theorem ParamChild.nodeCount_countTreeStats : ∀ (pc : ParamChild) (stats : TreeStatistics),
    (pc.countTreeStats stats).nodeCount = stats.nodeCount + pc.size
  | .none, _ => rfl
  | .some child, stats => by
    rw [ParamChild.countTreeStats, add, BuildNode.nodeCount_countTreeStats child, ParamChild.size]

end

/-- `from_builder` refuses a tree with more nodes than `u32` counts. -/
theorem size_le_of_freeze (h : router.freeze = .ok t) : router.root.size ≤ u32Max := by
  rw [← BuildNode.nodeCount_countTreeStats]
  unfold RadixRouter.freeze fromBuilder at h
  by_contra hlt
  rw [if_pos (by omega)] at h
  cases h

@[simp] theorem asBytes_append (s s' : String) : asBytes (s ++ s') = asBytes s ++ asBytes s' := by
  simp [asBytes]

theorem length_asBytes (s : String) : (asBytes s).length = s.utf8ByteSize := by
  simp [asBytes]

theorem asBytes_injective : Function.Injective asBytes := by
  intro s s' h
  exact String.toByteArray_inj.1 (ByteArray.ext (Array.toList_inj.1 h))

/-! ## Finding every literal that begins the path -/

/-- The way down a tree of routes meets those without parameters that begin the path. -/
theorem walk_perm {routes : List (String × ℕ)} {P : ParamChild → List ℕ → Prop}
    (hgood : ∀ route ∈ routes, EscapeLast (asBytes route.1))
    (hins : RadixRouter.new.insertAll routes = .ok router) (hall : router.root.All P) :
    router.Wf ∧ ∀ path : Bytes,
      (router.root.walk path).Perm ((routes.map RadixRouter.entryOf).filterMap (straight path)) := by
  obtain ⟨hwf, hperm⟩ := RadixRouter.insertAll_entries RadixRouter.new_wf hgood hins
  have hempty : RadixRouter.new.root.entries = [] := rfl
  rw [hempty, append_nil] at hperm
  refine ⟨hwf, fun path => ?_⟩
  rw [BuildNode.walk_eq _ _ hwf.1 hall hwf.2.1]
  exact hperm.filterMap _

/-- The routes whose pattern is a byte prefix of a path. -/
def prefixRoutes (routes : List (String × ℕ)) (path : Bytes) : List (String × ℕ) :=
  routes.filter fun route => asBytes route.1 <+: path

section

variable {routes : List (String × ℕ)} (hlit : ∀ route ∈ routes, Literal (asBytes route.1))
  (hins : RadixRouter.new.insertAll routes = .ok router)

include hlit hins

/-- **The way down a tree of literals** meets those that begin the path, from the shortest to the
longest. -/
theorem insertAll_literal : router.Wf ∧ router.root.All NoParam ∧ ∀ path : Bytes,
    ∃ hits : List (String × ℕ), hits.Perm (prefixRoutes routes path) ∧ router.root.walk path =
        hits.map (fun route => (route.2, path.drop (asBytes route.1).length)) ∧
      hits.Pairwise fun a b => (asBytes a.1).length ≤ (asBytes b.1).length := by
  have hplain := RadixRouter.insertAll_keeps (fun _ _ route hroute hr hins =>
    RadixRouter.insert_plain hr (hlit route hroute) hins) RadixRouter.new_plain hins
  obtain ⟨hwf, hperm⟩ :=
    walk_perm (fun route hroute => (hlit route hroute).noEscape.escapeLast) hins hplain
  refine ⟨hwf, hplain, fun path => ?_⟩
  let rest := fun route : String × ℕ => (route.2, path.drop (asBytes route.1).length)
  have hwalk : (router.root.walk path).Perm ((prefixRoutes routes path).map rest) := by
    rw [prefixRoutes, ← filterMap_eq_map, filterMap_filter]
    refine (hperm path).trans (Perm.of_eq ?_)
    rw [filterMap_map]
    refine filterMap_congr fun route hroute => ?_
    rw [comp_apply, RadixRouter.entryOf, (hlit route hroute).readPattern_eq, straight_lits]
    simp [rest]
  have hrel : Forall₂ (fun x route => rest route = x) ((prefixRoutes routes path).map rest)
      (prefixRoutes routes path) := forall₂_map_left_iff.2 (forall₂_same.2 fun _ _ => rfl)
  obtain ⟨hits, hforall, hhits⟩ := perm_comp_forall₂ hwalk hrel
  have heq : router.root.walk path = hits.map rest := by
    rw [← forall₂_eq_eq_eq, forall₂_map_right_iff]
    exact hforall.imp fun _ _ h => h.symm
  refine ⟨hits, hhits, heq, ?_⟩
  have hsorted := BuildNode.walk_pairwise router.root path hwf.1
  rw [heq, pairwise_map] at hsorted
  refine hsorted.imp_of_mem fun {a b} ha hb hlen => ?_
  have hle : ∀ route ∈ hits, (asBytes route.1).length ≤ path.length := fun route hroute =>
    (of_decide_eq_true (mem_filter.1 (hhits.subset hroute)).2 : asBytes route.1 <+: path).length_le
  have := hle a ha
  simp only [rest, length_drop] at hlen
  omega

/-- A tree with a key for each route has a node for each. -/
theorem length_le_size (hkeys : (routes.map Prod.fst).Nodup) :
    routes.length ≤ router.root.size := by
  obtain ⟨hwf, hplain, hwalk⟩ := insertAll_literal hlit hins
  have hnodup : (routes.map fun route => asBytes route.1).Nodup := by
    have := hkeys.map asBytes_injective
    rwa [List.map_map] at this
  have hsub : (routes.map fun route => asBytes route.1) ⊆ router.root.paths := by
    intro c hc
    obtain ⟨route, hroute, rfl⟩ := List.mem_map.1 hc
    obtain ⟨hits, hhits, heq, -⟩ := hwalk (asBytes route.1)
    have hmem : (route.2, []) ∈ router.root.walk (asBytes route.1) := by
      rw [heq, List.mem_map]
      exact ⟨route, hhits.mem_iff.2 (mem_filter.2 ⟨hroute, by simp⟩), by simp⟩
    obtain ⟨q, hq, -, heq⟩ := BuildNode.mem_walk _ _ hwf.1 hmem
    rwa [heq, append_nil]
  have hle := (hnodup.subperm hsub).length_le
  rwa [length_map, BuildNode.length_paths _ hplain] at hle

/-- **`match_all_prefixes` finds the routes whose literal begins the path**, each once, from the
shortest to the longest. Values that count the routes are not narrowed, because a frozen tree has
no more nodes than `u32` counts. -/
theorem matchAllPrefixes_hits (hkeys : (routes.map Prod.fst).Nodup)
    (hbound : ∀ route ∈ routes, route.2 ≤ routes.length)
    (hfreeze : router.freeze = .ok t) (path : String) :
    ∃ hits : List (String × ℕ), t.matchAllPrefixes path = some (hits.map Prod.snd) ∧
      (∀ route, route ∈ hits ↔ route ∈ routes ∧ asBytes route.1 <+: asBytes path) ∧
      hits.Pairwise fun a b => (asBytes a.1).length ≤ (asBytes b.1).length := by
  obtain ⟨hits, hhits, heq, hsorted⟩ := (insertAll_literal hlit hins).2.2 (asBytes path)
  have hmem : ∀ route, route ∈ hits ↔ route ∈ routes ∧ asBytes route.1 <+: asBytes path := by
    intro route
    rw [hhits.mem_iff, prefixRoutes, mem_filter, decide_eq_true_iff]
  refine ⟨hits, ?_, hmem, hsorted⟩
  rw [matchAllPrefixes_eq hfreeze, heq, List.map_map]
  refine congrArg some (List.map_congr_left fun route hroute => ?_)
  have hle : route.2 ≤ u32Max := ((hbound _ ((hmem route).1 hroute).1).trans
    (length_le_size hlit hins hkeys)).trans (size_le_of_freeze hfreeze)
  exact Nat.mod_eq_of_lt (Nat.lt_succ_of_le hle)

end

end Edgion.RadixTree
