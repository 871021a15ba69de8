import Edgion.RadixTree.Layout
import Edgion.RadixTree.Pattern

/-!
# The order of a search

`match_all_ext` searches with a stack, so what it finds comes in an order: the values of a node,
then what is found under its parameter child, then under the static child. `hits` is that list, as
the tree gives it, and the search over the arrays finds it, its values narrowed by `as u32`.
-/

namespace Edgion.RadixTree

open List Nat

/-- A reported value as the frozen tree holds it. -/
def narrow (report : ℕ × MatchKind) : ℕ × MatchKind := (asU32 report.1, report.2)

/-- What the path is left with after a node of the given type and prefix. -/
def consumeAs (t : NodeType) (p path : Bytes) : Option (Bytes × Bool) :=
  match t with
  | .param => consumeParam path
  | .static => consumeStatic p path

mutual

/-- **What a search finds in a tree**, in the order it finds it. -/
def BuildNode.hits : BuildNode → Bytes → List (ℕ × MatchKind)
  | .mk p cs pc vs t, path =>
    (consumeAs t p path).elim [] fun x =>
      vs.map (·, matchKind x.1 x.2) ++ if x.1 = [] then [] else pc.hits x.1 ++ cs.hits x.1

/-- The static children are pushed in order, so the last of them comes first. -/
def Children.hits : Children → Bytes → List (ℕ × MatchKind)
  | .nil, _ => []
  | .cons b child rest, after =>
    rest.hits after ++ if after.head? = some b then child.hits after else []

def ParamChild.hits : ParamChild → Bytes → List (ℕ × MatchKind)
  | .none, _ => []
  | .some child, after => child.hits after

end

/-! ## The search over the arrays -/

/-- **Searching a part of the tree**: from any stack, the frames are popped, everything they lead
to is searched within `cost` turns, what is found is added to the results, and the stack below is
as before. -/
def Finds (t : FrozenRadixTree) (frames : List (ℕ × Bytes)) (cost : ℕ)
    (found : List (ℕ × MatchKind)) : Prop :=
  ∃ spent ≤ cost, ∀ fuel stack results, t.matchLoop (fuel + spent) (frames ++ stack) results =
    t.matchLoop fuel stack (results ++ found.map narrow)

namespace Finds

variable {t : FrozenRadixTree} {frames frames' : List (ℕ × Bytes)} {cost cost' : ℕ}
  {found found' : List (ℕ × MatchKind)}

/-- No frames, nothing to do. -/
theorem nil (t : FrozenRadixTree) : Finds t [] 0 [] :=
  ⟨0, le_rfl, fun fuel stack results => by simp⟩

theorem mono (h : Finds t frames cost found) (hc : cost ≤ cost') : Finds t frames cost' found := by
  obtain ⟨spent, hspent, hrun⟩ := h
  exact ⟨spent, hspent.trans hc, hrun⟩

/-- Frames on top of others are searched first. -/
theorem append (h : Finds t frames cost found) (h' : Finds t frames' cost' found') :
    Finds t (frames ++ frames') (cost + cost') (found ++ found') := by
  obtain ⟨spent, hspent, hrun⟩ := h
  obtain ⟨spent', hspent', hrun'⟩ := h'
  refine ⟨spent' + spent, by omega, fun fuel stack results => ?_⟩
  rw [append_assoc, ← add_assoc, hrun, hrun', map_append, append_assoc]

/-- One turn, and then what it pushed. -/
theorem visit {i : ℕ} {path : Bytes} {own : List (ℕ × MatchKind)}
    (hvisit : t.visit i path = some (own.map narrow, frames))
    (h : Finds t frames.reverse cost found) :
    Finds t [(i, path)] (cost + 1) (own ++ found) := by
  obtain ⟨spent, hspent, hrun⟩ := h
  refine ⟨spent + 1, by omega, fun fuel stack results => ?_⟩
  rw [singleton_append, ← add_assoc, FrozenRadixTree.matchLoop, hvisit]
  exact (hrun fuel stack _).trans (by rw [map_append, append_assoc])

end Finds

/-- What the source consumes at a laid out node is what the tree does there. -/
theorem consume_eq {t : FrozenRadixTree} {node : FlatNode} {ty : NodeType} {p : Bytes}
    (hty : node.nodeType = ty) (hp : t.getNodePrefix node = some p) (path : Bytes) :
    t.consume node path = some (consumeAs ty p path) := by
  subst hty
  unfold FrozenRadixTree.consume consumeAs
  rcases node.nodeType with _ | _
  · rw [hp]
    rfl
  · rfl

mutual

variable {t : FrozenRadixTree}

/-- **The search of a laid out node** finds its hits. -/
theorem BuildNode.finds : ∀ (node : BuildNode) (i : ℕ) (path : Bytes),
    node.Laid t i → Finds t [(i, path)] node.size (node.hits path)
  | .mk p cs pc vs ty, i, path, h => by
    obtain ⟨node, entries, hnode, hty, hp, hv, hslice, hcs, hpc⟩ := h
    rw [BuildNode.hits, BuildNode.size]
    have hconsume := consume_eq hty hp path
    rcases hstep : consumeAs ty p path with _ | ⟨after, e⟩
    · have hvisit : t.visit i path = some (([] : List (ℕ × MatchKind)).map narrow, []) := by
        simp [FrozenRadixTree.visit, hnode, hconsume, hstep]
      exact (Finds.visit hvisit (.nil t)).mono (by omega)
    · have hown : (vs.map asU32).map (·, matchKind after e) =
          (vs.map (·, matchKind after e)).map narrow := by
        rw [map_map, map_map]
        rfl
      rw [Option.elim_some]
      rcases after with _ | ⟨b, after⟩
      · have hvisit : t.visit i path = some ((vs.map (·, matchKind [] e)).map narrow, []) := by
          simp [FrozenRadixTree.visit, hnode, hconsume, hstep, hv, FrozenRadixTree.pushes, ← hown]
        exact (Finds.visit hvisit (.nil t)).mono (by omega)
      · -- the parameter child was pushed last, so it is searched first
        have hsub := (ParamChild.finds pc i node.paramChildIdx (b :: after) hpc).append
          (Children.finds cs i entries b (b :: after) rfl hcs)
        rw [if_neg (cons_ne_nil b after), add_comm cs.size]
        have hvisit : t.visit i path = some ((vs.map (·, matchKind (b :: after) e)).map narrow,
              ((entries.filter (·.firstByte == b)).map fun e => (e.nodeIndex, b :: after)) ++
                if node.paramChildIdx = noParamChild then [] else
                  [(node.paramChildIdx, b :: after)]) := by
          simp [FrozenRadixTree.visit, hnode, hconsume, hstep, hv, FrozenRadixTree.pushes, hslice,
            ← hown]
        refine Finds.visit hvisit ?_
        convert hsub using 1
        rw [reverse_append]
        split
        · rfl
        · rfl

theorem Children.finds : ∀ (cs : Children) (i : ℕ)
    (entries : List ChildEntry) (b : UInt8) (after : Bytes), after.head? = some b →
    cs.Laid t i entries →
      Finds t ((entries.filter (·.firstByte == b)).map fun e => (e.nodeIndex, after)).reverse
        cs.size (cs.hits after)
  | .nil, _, [], _, _, _, _ => Finds.nil t
  | .nil, _, _ :: _, _, _, _, h => h.elim
  | .cons _ _ _, _, [], _, _, _, h => h.elim
  | .cons c child rest, i, e :: entries, b, after, hb, ⟨hc, _, hchild, hrest⟩ => by
    have hsub := Children.finds rest i entries b after hb hrest
    rw [Children.hits, Children.size, hb]
    by_cases hcb : c = b
    · subst hcb
      have hsplit := hsub.append (BuildNode.finds child e.nodeIndex after hchild)
      rw [if_pos rfl, add_comm child.size]
      simpa [filter_cons, hc] using hsplit
    · rw [if_neg (by simpa using Ne.symm hcb), append_nil]
      simpa [filter_cons, hc, hcb] using hsub.mono (le_add_left _ child.size)

theorem ParamChild.finds : ∀ (pc : ParamChild) (i idx : ℕ) (after : Bytes), pc.Laid t i idx →
      Finds t (if idx = noParamChild then [] else [(idx, after)]) pc.size (pc.hits after)
  | .none, _, idx, _, h => by
    have hidx : idx = noParamChild := h
    rw [if_pos hidx]
    exact Finds.nil t
  | .some child, _, idx, after, ⟨hne, _, hchild⟩ => by
    rw [if_neg hne]
    exact BuildNode.finds child idx after hchild

end

/-- **`match_all_ext` on a frozen tree** never runs out of fuel and never panics; it returns the
hits in their order, with the values narrowed. -/
theorem matchAllExt_hits {router : RadixRouter} {t : FrozenRadixTree} (h : router.freeze = .ok t)
    (path : String) :
    t.matchAllExt path = some ((router.root.hits (asBytes path)).map narrow) := by
  obtain ⟨hlaid, hlen⟩ := fromBuilder_spec h
  obtain ⟨spent, hspent, hrun⟩ := BuildNode.finds router.root 0 (asBytes path) hlaid
  have hne : t.nodes ≠ [] := by
    intro hnil
    have hpos := router.root.size_pos
    rw [hnil, length_nil] at hlen
    omega
  have hloop := hrun (router.root.size - spent) [] []
  rw [Nat.sub_add_cancel hspent, ← hlen] at hloop
  rw [FrozenRadixTree.matchAllExt, if_neg hne]
  exact hloop.trans (by simp [FrozenRadixTree.matchLoop])

end Edgion.RadixTree
