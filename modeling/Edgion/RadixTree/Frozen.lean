import Edgion.RadixTree.Builder
import Mathlib.Algebra.Group.Nat.Defs

/-!
# The frozen radix tree

`core/common/matcher/radix_tree/frozen.rs`: `freeze` lays the tree out in four arrays, and
`match_all_ext` searches them with an explicit stack.

Every narrowing `as` is written out. An index out of range is a panic in the source: the
functions that read the arrays return `none` there.
-/

namespace Edgion.RadixTree

variable (n : ℕ)

/-- `as u8`. -/
def asU8 : ℕ := n % 2 ^ 8

/-- `as u16`. -/
def asU16 : ℕ := n % 2 ^ 16

/-- `as u32`. -/
def asU32 : ℕ := n % 2 ^ 32

/-- How much of the request path a matched pattern consumed. -/
inductive MatchKind where
  | fullyConsumed
  | segmentBoundary
  | partialSegment
  deriving Repr, DecidableEq

/-- `NO_PARAM_CHILD`. -/
def noParamChild : ℕ := u32Max

/-- `FlatNode`, without its padding. -/
structure FlatNode where
  prefixOffset : ℕ
  childrenOffset : ℕ
  valuesData : ℕ × ℕ
  paramChildIdx : ℕ
  prefixLen : ℕ
  childrenCount : ℕ
  valuesCount : ℕ
  valuesFlags : ℕ
  nodeType : NodeType

structure ChildEntry where
  firstByte : UInt8
  nodeIndex : ℕ

/-- `FrozenRadixTree`, exported as `RadixTree`. -/
structure FrozenRadixTree where
  nodes : List FlatNode
  children : List ChildEntry
  stringPool : Bytes
  valuesPool : List ℕ

/-! ## Flattening -/

structure TreeStatistics where
  nodeCount : ℕ
  childCount : ℕ
  totalStringBytes : ℕ
  totalValuesExternal : ℕ

/-- The four `+=` of `count_tree_stats`. -/
def TreeStatistics.add (a b : TreeStatistics) : TreeStatistics :=
  ⟨a.nodeCount + b.nodeCount, a.childCount + b.childCount,
    a.totalStringBytes + b.totalStringBytes, a.totalValuesExternal + b.totalValuesExternal⟩

mutual

def BuildNode.countTreeStats : BuildNode → TreeStatistics
  | .mk p cs pc vs _ =>
    let external := if 2 < vs.length then vs.length else 0
    pc.countTreeStats (cs.countTreeStats ⟨1, cs.len, p.length, external⟩)

/-- The loop of `count_tree_stats` over the static children. -/
def Children.countTreeStats : Children → TreeStatistics → TreeStatistics
  | .nil, stats => stats
  | .cons _ child rest, stats => rest.countTreeStats (stats.add child.countTreeStats)

/-- The parameter child in `count_tree_stats`. -/
def ParamChild.countTreeStats : ParamChild → TreeStatistics → TreeStatistics
  | .none, stats => stats
  | .some child, stats => stats.add child.countTreeStats

end

structure FlatTreeBuilder where
  nodes : List FlatNode
  children : List ChildEntry
  stringPool : Bytes
  valuesPool : List ℕ

namespace FlatTreeBuilder

/-- `FlatTreeBuilder::with_capacity`. -/
def empty : FlatTreeBuilder := ⟨[], [], [], []⟩

variable (b : FlatTreeBuilder)

def build : FrozenRadixTree :=
  ⟨b.nodes, b.children, b.stringPool, b.valuesPool⟩

/-- The values of a node in `flatten_node`: flags, data and the pool after. One or two values
are stored inline, more in the pool. -/
def storeValues (pool values : List ℕ) : Except RouterError (ℕ × (ℕ × ℕ) × List ℕ) :=
  match values with
  | [] => .ok (0, (0, 0), pool)
  | [v] => .ok (0, (asU32 v, 0), pool)
  | [v, w] => .ok (0, (asU32 v, asU32 w), pool)
  | _ =>
    if u32Max < pool.length + values.length then
      .error (.valuesPoolTooLarge (pool.length + values.length) u32Max)
    else .ok (1, (asU32 pool.length, 0), pool ++ values.map asU32)

/-- The part of `flatten_node` before the recursive calls: the checks and the node itself, with
its children still unset. The path of the `tooManyValues` error goes through
`from_utf8_lossy` in the source. -/
def pushNode (p : Bytes) (childrenCount : ℕ) (values : List ℕ)
    (nodeType : NodeType) : Except RouterError (ℕ × FlatTreeBuilder) :=
  if u32Max < b.stringPool.length + p.length then
    .error (.stringPoolTooLarge (b.stringPool.length + p.length) u32Max)
  else if u8Max < values.length then
    .error (.tooManyValues p values.length u8Max)
  else
    match storeValues b.valuesPool values with
    | .error e => .error e
    | .ok (flags, data, valuesPool) =>
      if u16Max < p.length then .error (.pathTooLong p.length u16Max)
      else if u16Max < childrenCount then .error (.tooManyChildren childrenCount u16Max)
      else if u32Max ≤ b.nodes.length then
        .error (.tooManyNodes (b.nodes.length + 1) u32Max)
      else
        let node : FlatNode :=
          ⟨asU32 b.stringPool.length, 0, data, noParamChild, asU16 p.length,
            asU16 childrenCount, asU8 values.length, flags, nodeType⟩
        .ok (asU32 b.nodes.length, ⟨b.nodes ++ [node], b.children, b.stringPool ++ p, valuesPool⟩)

/-- The part of `flatten_node` after the recursive calls: the node gets its parameter child and
the offset of its child entries, which are pushed only now. -/
def linkNode (nodeIndex : ℕ) (childIndices : List ChildEntry)
    (paramChildIdx : ℕ) : Except RouterError (ℕ × FlatTreeBuilder) :=
  if u32Max < b.children.length then
    .error (.tooManyChildren b.children.length u32Max)
  else
    .ok (nodeIndex,
      { b with
        nodes := b.nodes.modify nodeIndex fun n =>
          { n with paramChildIdx, childrenOffset := asU32 b.children.length }
        children := b.children ++ childIndices })

end FlatTreeBuilder

mutual

/-- **`FlatTreeBuilder::flatten_node`**: the index of the node and the builder after. -/
def BuildNode.flatten : BuildNode → FlatTreeBuilder → Except RouterError (ℕ × FlatTreeBuilder)
  | .mk p cs pc vs t, b => do
    let (nodeIndex, b₁) ← b.pushNode p cs.len vs t
    let (childIndices, b₂) ← cs.flatten b₁
    let (paramChildIdx, b₃) ← pc.flatten b₂
    b₃.linkNode nodeIndex childIndices paramChildIdx

/-- The loop of `flatten_node` over the static children. -/
def Children.flatten :
    Children → FlatTreeBuilder → Except RouterError (List ChildEntry × FlatTreeBuilder)
  | .nil, b => .ok ([], b)
  | .cons firstByte child rest, b => do
    let (childIndex, b₁) ← child.flatten b
    let (childIndices, b₂) ← rest.flatten b₁
    return (⟨firstByte, childIndex⟩ :: childIndices, b₂)

/-- The parameter child in `flatten_node`. -/
def ParamChild.flatten : ParamChild → FlatTreeBuilder → Except RouterError (ℕ × FlatTreeBuilder)
  | .none, b => .ok (noParamChild, b)
  | .some child, b => child.flatten b

end

def fromBuilder (root : BuildNode) : Except RouterError FrozenRadixTree :=
  let stats := root.countTreeStats
  if u32Max < stats.nodeCount then .error (.tooManyNodes stats.nodeCount u32Max)
  else if u32Max < stats.totalStringBytes then
    .error (.stringPoolTooLarge stats.totalStringBytes u32Max)
  else if u32Max < stats.totalValuesExternal then
    .error (.valuesPoolTooLarge stats.totalValuesExternal u32Max)
  else do
    let (_, b) ← root.flatten .empty
    return b.build

def RadixRouter.freeze (router : RadixRouter) : Except RouterError FrozenRadixTree :=
  fromBuilder router.root

/-! ## Matching -/

/-- `&xs[start..end]`; `none` is the panic of an end out of range. -/
def slice {α : Type} (xs : List α) (start stop : ℕ) : Option (List α) :=
  if start ≤ stop ∧ stop ≤ xs.length then some ((xs.drop start).take (stop - start)) else none

/-- A parameter node consumes the bytes up to the next `/`, and at least one. The flag tells
that what was consumed ends with `/`. -/
def consumeParam (remaining : Bytes) : Option (Bytes × Bool) :=
  let stop := remaining.findIdx (· == slash)
  if stop = 0 then none else some (remaining.drop stop, false)

/-- A static node consumes its prefix. -/
def consumeStatic (p remaining : Bytes) : Option (Bytes × Bool) :=
  if p.isPrefixOf remaining then
    some (remaining.drop p.length, p.getLast? == some slash)
  else none

/-- The kind reported for the values of a node, from the path left after it. -/
def matchKind (after : Bytes) (endsSlash : Bool) : MatchKind :=
  match after with
  | [] => .fullyConsumed
  | b :: _ => if b = slash ∨ endsSlash = true then .segmentBoundary else .partialSegment

namespace FrozenRadixTree

variable (t : FrozenRadixTree) (node : FlatNode)

def getNodePrefix : Option Bytes :=
  slice t.stringPool node.prefixOffset (node.prefixOffset + node.prefixLen)

def getNodeValues : Option (List ℕ) :=
  if node.valuesCount = 0 then some []
  else if node.valuesFlags = 0 then
    slice [node.valuesData.1, node.valuesData.2] 0 node.valuesCount
  else
    slice t.valuesPool node.valuesData.1 (node.valuesData.1 + node.valuesCount)

/-- What the path is left with after a node, in the first half of the loop's body; the inner
`none` is its `continue`. -/
def consume (remaining : Bytes) : Option (Option (Bytes × Bool)) :=
  match node.nodeType with
  | .param => some (consumeParam remaining)
  | .static => (t.getNodePrefix node).map (consumeStatic · remaining)

/-- The frames pushed for a node, in the order of the pushes: the children under the next byte,
then the parameter child. -/
def pushes (after : Bytes) : Option (List (ℕ × Bytes)) :=
  match after with
  | [] => some []
  | nextByte :: _ => do
    let entries ← slice t.children node.childrenOffset (node.childrenOffset + node.childrenCount)
    let static := (entries.filter (·.firstByte == nextByte)).map fun e => (e.nodeIndex, after)
    let param := if node.paramChildIdx = noParamChild then [] else [(node.paramChildIdx, after)]
    return static ++ param

/-- The body of the loop of `match_all_ext`: what it reports and what it pushes. -/
def visit (nodeIdx : ℕ) (remaining : Bytes) : Option (List (ℕ × MatchKind) × List (ℕ × Bytes)) := do
  let node ← t.nodes[nodeIdx]?
  match ← t.consume node remaining with
  | none => return ([], [])
  | some (after, endsSlash) =>
    let values ← t.getNodeValues node
    let frames ← t.pushes node after
    return (values.map (·, matchKind after endsSlash), frames)

/-- The loop of `match_all_ext`; the head of the list is the top of the stack. -/
def matchLoop : ℕ → List (ℕ × Bytes) → List (ℕ × MatchKind) → Option (List (ℕ × MatchKind))
  | _, [], results => some results
  | 0, _ :: _, _ => none
  | fuel + 1, (nodeIdx, remaining) :: stack, results => do
    let (found, frames) ← t.visit nodeIdx remaining
    matchLoop fuel (frames.reverse ++ stack) (results ++ found)

/-- **`FrozenRadixTree::match_all_ext`**. No node of a frozen tree is visited twice, so their
number is enough fuel (`matchAllExt_hits`). -/
def matchAllExt (path : String) : Option (List (ℕ × MatchKind)) :=
  if t.nodes = [] then some [] else t.matchLoop t.nodes.length [(0, asBytes path)] []

end FrozenRadixTree

end Edgion.RadixTree
