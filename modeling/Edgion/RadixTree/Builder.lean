import Mathlib.Data.List.Basic

/-!
# The radix tree builder

The mutable tree of `core/common/matcher/radix_tree/builder.rs`: the parser of route patterns,
the nodes, and the insertion that splits a node where two literals part.

A `&mut BuildNode` becomes the node handed back together with the `Result`, because a failed
insertion can leave a node split or a parameter child created. `insertSegments` and
`insertStaticSegment` call each other in the source. Here the descent through one literal is
structural on the node, and takes what follows the literal as its argument `k`, which is
`insertSegments` on the segments that remain.
-/

namespace Edgion.RadixTree

/-- Byte strings: `&[u8]` and `Vec<u8>`. -/
abbrev Bytes := List UInt8

/-- `b'/'`. -/
def slash : UInt8 := 47

/-- `b':'`. -/
def colon : UInt8 := 58

/-- `u8::MAX as usize`. -/
def u8Max : ℕ := 255

/-- `u16::MAX as usize`. -/
def u16Max : ℕ := 65535

/-- `u32::MAX as usize`. -/
def u32Max : ℕ := 4294967295

def asBytes (s : String) : Bytes := s.toByteArray.data.toList

/-- The errors of `error.rs`. A path is kept as its bytes. -/
inductive RouterError where
  | emptyPath
  | pathTooLong (length max : ℕ)
  | tooManyValues (path : Bytes) (count max : ℕ)
  | tooManyNodes (count max : ℕ)
  | tooManyChildren (count max : ℕ)
  | stringPoolTooLarge (size max : ℕ)
  | valuesPoolTooLarge (size max : ℕ)
  deriving Repr, DecidableEq

/-- `Result<(), RouterError>`. -/
abbrev Outcome := Except RouterError Unit

/-- Whether a node matches a literal or a parameter. -/
inductive NodeType where
  | static
  | param
  deriving Repr, DecidableEq

/-- A segment of a parsed pattern. -/
inductive PathSegment where
  | static (bytes : Bytes)
  | param
  deriving Repr, DecidableEq

/-! ## Nodes -/

mutual

/-- A node of the tree being built. -/
inductive BuildNode where
  | mk (pre : Bytes) (children : Children) (paramChild : ParamChild) (values : List ℕ)
      (nodeType : NodeType)

/-- `BTreeMap<u8, BuildNode>`, in the order of the keys. -/
inductive Children where
  | nil
  | cons (firstByte : UInt8) (child : BuildNode) (rest : Children)

/-- `Option<Box<BuildNode>>`. -/
inductive ParamChild where
  | none
  | some (child : BuildNode)

end

namespace Children

def len : Children → ℕ
  | .nil => 0
  | .cons _ _ rest => rest.len + 1

/-- `BTreeMap::insert`: the entry goes to its place in key order, over one with the same key. -/
def insert (firstByte : UInt8) (child : BuildNode) : Children → Children
  | .nil => .cons firstByte child .nil
  | .cons b n rest =>
    if firstByte < b then .cons firstByte child (.cons b n rest)
    else if firstByte = b then .cons b child rest
    else .cons b n (rest.insert firstByte child)

end Children

namespace BuildNode

/-- `BuildNode::prefix`. -/
def pre : BuildNode → Bytes
  | .mk p _ _ _ _ => p

def nodeType : BuildNode → NodeType
  | .mk _ _ _ _ t => t

def new : BuildNode := .mk [] .nil .none [] .static

def withPrefix (p : Bytes) : BuildNode := .mk p .nil .none [] .static

def newParam : BuildNode := .mk [] .nil .none [] .param

end BuildNode

/-- `Option::get_or_insert_with(BuildNode::new_param)`. -/
def ParamChild.getOrInsert : ParamChild → BuildNode
  | .none => .newParam
  | .some child => child

/-! ## Parsing -/

/-- **The loop of `parse_path`.** `remaining` is `path[i..]` and `acc` is `path[static_start..i]`.
Each turn consumes at least one byte, so the length of `remaining` is enough `fuel`. -/
def parseLoop : ℕ → Bytes → Bytes → List PathSegment
  | 0, _, _ => []
  | _ + 1, [], acc => if acc = [] then [] else [.static acc]
  | fuel + 1, b :: rest, acc =>
    if b = slash ∧ rest.head? = some colon then
      if rest.tail.head? = some colon then
        -- the escape: the text up to the next `/` joins the literal, without the second colon
        let name := rest.tail.tail.takeWhile (· != slash)
        .static (acc ++ [slash, colon] ++ name) ::
          parseLoop fuel (rest.tail.tail.dropWhile (· != slash)) []
      else
        .static (acc ++ [slash]) :: .param :: parseLoop fuel (rest.tail.dropWhile (· != slash)) []
    else parseLoop fuel rest (acc ++ [b])

def parsePath (path : Bytes) : List PathSegment :=
  let segments := parseLoop (path.length + 1) path []
  if segments = [] ∧ path ≠ [] then [.static path] else segments

/-! ## Insertion -/

/-- The length of the longest common prefix, as `insert_static_segment` counts it. -/
def commonLen (a b : Bytes) : ℕ := ((a.zip b).takeWhile (fun x => x.1 == x.2)).length

/-- The block that creates a static child: the new node is put in the map only when the rest of
the pattern went in. The literals of a pattern are never empty, so `prefix[0]` is in range. -/
def addChild (k : BuildNode → BuildNode × Outcome) (children : Children) (p : Bytes) :
    Children × Outcome :=
  if u16Max ≤ children.len then
    (children, .error (.tooManyChildren (children.len + 1) u16Max))
  else
    match k (.withPrefix p) with
    | (_, .error e) => (children, .error e)
    | (child, .ok ()) => (children.insert (p.headD 0) child, .ok ())

/-- `if let Some(child) = children.get_mut(..)`: the map with the child found changed, or with a
new child. -/
def orAddChild (found : Option (Children × Outcome)) (k : BuildNode → BuildNode × Outcome)
    (children : Children) (p : Bytes) : Children × Outcome :=
  match found with
  | some changed => changed
  | none => addChild k children p

mutual

/-- `RadixRouter::insert_static_segment`, with `k` for `insert_segments` on the remaining
segments. -/
def BuildNode.insertStaticSegment (k : BuildNode → BuildNode × Outcome) :
    BuildNode → Bytes → BuildNode × Outcome
  | .mk p cs pc vs .param, literal =>
    let (cs', r) := orAddChild (cs.insertAt k (literal.headD 0) literal) k cs literal
    (.mk p cs' pc vs .param, r)
  | .mk p cs pc vs .static, literal =>
    let n := commonLen p literal
    if n < p.length then
      -- split: what the node held moves to a child for the rest of its prefix
      let old := BuildNode.mk (p.drop n) cs pc vs .static
      let moved := Children.cons ((p.drop n).headD 0) old .nil
      if n = literal.length then k (.mk (p.take n) moved .none [] .static)
      else
        -- `p` and `literal` part at `n`, so the moved child is not the one looked up
        let (cs', r) := addChild k moved (literal.drop n)
        (.mk (p.take n) cs' .none [] .static, r)
    else if n = literal.length then k (.mk p cs pc vs .static)
    else
      let (cs', r) := orAddChild (cs.insertAt k ((literal.drop n).headD 0) (literal.drop n)) k cs
        (literal.drop n)
      (.mk p cs' pc vs .static, r)

/-- `children.get_mut(&first_byte)` and the recursive call on the child found; `none` when the
map has no such key. -/
def Children.insertAt (k : BuildNode → BuildNode × Outcome) :
    Children → UInt8 → Bytes → Option (Children × Outcome)
  | .nil, _, _ => none
  | .cons b child rest, firstByte, literal =>
    if b = firstByte then
      let (child', r) := child.insertStaticSegment k literal
      some (.cons b child' rest, r)
    else (rest.insertAt k firstByte literal).map fun (rest', r) => (.cons b child rest', r)

end

def insertSegments (value : ℕ) (originalPath : Bytes) :
    List PathSegment → BuildNode → BuildNode × Outcome
  | [], .mk p cs pc vs t =>
    if u8Max ≤ vs.length then
      (.mk p cs pc vs t, .error (.tooManyValues originalPath (vs.length + 1) u8Max))
    else (.mk p cs pc (vs ++ [value]) t, .ok ())
  | .static literal :: rest, node =>
    node.insertStaticSegment (insertSegments value originalPath rest) literal
  | .param :: rest, .mk p cs pc vs t =>
    let (child, r) := insertSegments value originalPath rest pc.getOrInsert
    (.mk p cs (.some child) vs t, r)

/-- `RadixRouter`, exported as `RadixTreeBuilder`. -/
structure RadixRouter where
  root : BuildNode
  routeCount : ℕ

namespace RadixRouter

def new : RadixRouter := ⟨.new, 0⟩

variable (router : RadixRouter)

def insert (path : String) (value : ℕ) : RadixRouter × Outcome :=
  let pathBytes := asBytes path
  if pathBytes = [] then (router, .error .emptyPath)
  else if u16Max < pathBytes.length then
    (router, .error (.pathTooLong pathBytes.length u16Max))
  else
    match insertSegments value pathBytes (parsePath pathBytes) router.root with
    | (root, .error e) => ({ router with root }, .error e)
    | (root, .ok ()) => (⟨root, router.routeCount + 1⟩, .ok ())

end RadixRouter

end Edgion.RadixTree
