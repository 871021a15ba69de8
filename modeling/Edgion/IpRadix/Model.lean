import Mathlib.Data.BitVec

/-!
# IP radix matcher — the model

The matcher keeps one binary trie per address family. Rules are inserted
into a pointer tree (`BuildNode`), `freeze` lays the tree out in one
array of `FlatNode`s, and `matchIp` walks that array bit by bit. The two
families run the same code at widths 32 and 128, so the tree, the layout
and the walk are written once over a width `w`.

`IpAddr::from_str` is the standard library's text format for addresses.
Nothing here depends on it, so it is a parameter, `fromStr`.
-/

namespace Edgion.IpRadix

/-- `u32::MAX`. -/
def u32Max : ℕ := 2 ^ 32 - 1

inductive IpRadixError
  | invalidCidr (input reason : String)
  | prefixTooLong (prefixLen max : ℕ)
  | tooManyNodes (count max : ℕ)
  | emptyTree
  | invalidIpAddress (input error : String)
  deriving DecidableEq, Repr

/-- `std::net::IpAddr`, each address as the integer it converts to. -/
inductive IpAddr
  | v4 (addr : BitVec 32)
  | v6 (addr : BitVec 128)
  deriving DecidableEq, Repr

inductive IpCidr
  | v4 (addr : BitVec 32) (prefixLen : ℕ)
  | v6 (addr : BitVec 128) (prefixLen : ℕ)
  deriving DecidableEq, Repr

/-! ## CIDR text -/

/-- The digits of a `u8`, most significant first, on top of `acc`. -/
def parseU8Digits (acc : ℕ) : List Char → Except String ℕ
  | [] => .ok acc
  | c :: cs =>
    if c.isDigit then
      let acc' := acc * 10 + (c.toNat - '0'.toNat)
      if acc' > 255 then .error "number too large to fit in target type"
      else parseU8Digits acc' cs
    else .error "invalid digit found in string"

/-- `str::parse::<u8>`: an optional `+`, then decimal digits. -/
def parseU8 (s : String) : Except String ℕ :=
  match s.toList with
  | [] => .error "cannot parse integer from empty string"
  | ['+'] => .error "invalid digit found in string"
  | '+' :: cs => parseU8Digits 0 cs
  | cs => parseU8Digits 0 cs

/-- `str::split('/')`. -/
def splitSlash (s : String) : List String :=
  (List.splitOn '/' s.toList).map String.ofList

/-- Zero out the bits beyond the prefix. -/
def normalize {w : ℕ} (addr : BitVec w) (prefixLen : ℕ) : BitVec w :=
  if prefixLen = 0 then 0
  else if prefixLen ≥ w then addr
  else addr &&& (BitVec.allOnes w <<< (w - prefixLen))

variable (fromStr : String → Except String IpAddr)

def IpCidr.parse (cidrStr : String) :
    Except IpRadixError IpCidr :=
  match splitSlash cidrStr with
  | [ipStr, prefixStr] =>
    match parseU8 prefixStr with
    | .error e => .error (.invalidCidr cidrStr ("invalid prefix length: " ++ e))
    | .ok prefixLen =>
      match fromStr ipStr with
      | .error e => .error (.invalidIpAddress ipStr e)
      | .ok (.v4 addr) =>
        if prefixLen > 32 then .error (.prefixTooLong prefixLen 32)
        else .ok (.v4 (normalize addr prefixLen) prefixLen)
      | .ok (.v6 addr) =>
        if prefixLen > 128 then .error (.prefixTooLong prefixLen 128)
        else .ok (.v6 (normalize addr prefixLen) prefixLen)
  | _ => .error (.invalidCidr cidrStr "CIDR must be in format 'address/prefix_len'")

/-! ## The build tree -/

/-- A build node; `absent` is the `None` of an optional child. -/
inductive BuildNode
  | absent
  | node (left right : BuildNode) (value : Option Bool) (prefixLen : ℕ)
  deriving DecidableEq, Repr

def BuildNode.new : BuildNode := .node .absent .absent none 0

/-- `Option::get_or_insert_with(BuildNode::new)`. -/
def BuildNode.getOrNew : BuildNode → BuildNode
  | .absent => .new
  | n => n

/-- The bit at a position, counted from the most significant. -/
def bitAt {w : ℕ} (ip : BitVec w) (currentBit : ℕ) : BitVec w :=
  (ip >>> (w - 1 - currentBit)) &&& 1

/-- `insert_helper`, by the number of bits still to go: the source's
`current_bit` is `prefixLen - left`. -/
def insertHelper {w : ℕ} (ip : BitVec w) (prefixLen : ℕ) (allow : Bool) :
    (left : ℕ) → BuildNode → BuildNode
  | _, .absent => .absent
  | 0, .node l r _ _ => .node l r (some allow) prefixLen
  | left + 1, .node l r v p =>
    if bitAt ip (prefixLen - (left + 1)) = 0 then
      .node (insertHelper ip prefixLen allow left l.getOrNew) r v p
    else
      .node l (insertHelper ip prefixLen allow left r.getOrNew) v p

/-- `IpV4RadixBuilder` and `IpV6RadixBuilder`, which differ in the width
their addresses are read at. -/
structure RadixBuilder where
  root : BuildNode
  ruleCount : ℕ
  deriving DecidableEq, Repr

def RadixBuilder.new : RadixBuilder := ⟨.new, 0⟩

variable (b : RadixBuilder)

def RadixBuilder.isEmpty : Bool := b.ruleCount == 0

variable {w : ℕ}

/-- The tree and the counter after an accepted rule. -/
def RadixBuilder.addRule (b : RadixBuilder) (addr : BitVec w) (prefixLen : ℕ)
    (allow : Bool) : RadixBuilder :=
  ⟨insertHelper addr prefixLen allow prefixLen b.root, b.ruleCount + 1⟩

def IpV4RadixBuilder.insert (cidrStr : String) (allow : Bool) : Except IpRadixError RadixBuilder :=
  match IpCidr.parse fromStr cidrStr with
  | .error e => .error e
  | .ok (.v4 addr prefixLen) => .ok (b.addRule addr prefixLen allow)
  | .ok (.v6 _ _) => .error (.invalidCidr cidrStr "IPv6 CIDR not supported in IPv4 builder")

def IpV6RadixBuilder.insert (cidrStr : String) (allow : Bool) : Except IpRadixError RadixBuilder :=
  match IpCidr.parse fromStr cidrStr with
  | .error e => .error e
  | .ok (.v6 addr prefixLen) => .ok (b.addRule addr prefixLen allow)
  | .ok (.v4 _ _) => .error (.invalidCidr cidrStr "IPv4 CIDR not supported in IPv6 builder")

/-! ## The frozen tree -/

structure FlatNode where
  leftIndex : ℕ
  rightIndex : ℕ
  prefixLen : ℕ
  flags : BitVec 8
  deriving DecidableEq, Repr

def FlatNode.hasValue (n : FlatNode) : Bool := n.flags &&& 0x01 != 0

def FlatNode.getValue (n : FlatNode) : Bool := n.flags &&& 0x02 != 0

def encodeFlags : Option Bool → BitVec 8
  | some true => 0x03
  | some false => 0x01
  | none => 0x00

/-- `count_nodes`, an absent child counting for nothing. -/
def countNodes : BuildNode → ℕ
  | .absent => 0
  | .node l r _ _ => 1 + countNodes l + countNodes r

/-- `flatten_node` on an optional child: nothing is pushed for an absent
one, and its index is `0`. The slot is reserved first, the children are
laid out behind it, and their indices are written back. -/
def flattenNode : BuildNode → List FlatNode → Except IpRadixError (List FlatNode × ℕ)
  | .absent, nodes => .ok (nodes, 0)
  | .node l r v p, nodes =>
    if nodes.length ≥ u32Max then .error (.tooManyNodes (nodes.length + 1) u32Max)
    else
      let nodeIdx := nodes.length
      match flattenNode l (nodes ++ [⟨0, 0, p, encodeFlags v⟩]) with
      | .error e => .error e
      | .ok (nodes, leftIdx) =>
        match flattenNode r nodes with
        | .error e => .error e
        | .ok (nodes, rightIdx) =>
          .ok (nodes.set nodeIdx ⟨leftIdx, rightIdx, p, encodeFlags v⟩, nodeIdx % 2 ^ 32)

/-- `FrozenIpV4RadixTree` and `FrozenIpV6RadixTree`. -/
structure FrozenTree where
  nodes : List FlatNode
  deriving DecidableEq, Repr

def FrozenTree.fromBuilder (root : BuildNode) : Except IpRadixError FrozenTree :=
  if countNodes root > u32Max then .error (.tooManyNodes (countNodes root) u32Max)
  else
    match flattenNode root [] with
    | .error e => .error e
    | .ok (nodes, _) => .ok ⟨nodes⟩

def RadixBuilder.freeze : Except IpRadixError FrozenTree :=
  if b.isEmpty then .error .emptyTree else FrozenTree.fromBuilder b.root

/-- The loop of `match_ip`, by the number of bits still to go: the
source's `current_bit` is `w - left`. An index out of the array, where
the source would panic, gives `none`. -/
def matchLoop {w : ℕ} (nodes : List FlatNode) (ip : BitVec w) :
    (left : ℕ) → (nodeIdx : ℕ) → (lastMatch : Option Bool) → Option (Option Bool)
  | left, nodeIdx, lastMatch =>
    match nodes[nodeIdx]? with
    | none => none
    | some node =>
      let lastMatch := if node.hasValue then some node.getValue else lastMatch
      match left with
      | 0 => some lastMatch
      | left + 1 =>
        let nextIdx :=
          if bitAt ip (w - (left + 1)) = 0 then node.leftIndex else node.rightIndex
        if nextIdx = 0 then some lastMatch else matchLoop nodes ip left nextIdx lastMatch

def FrozenTree.matchIp (t : FrozenTree) (ip : BitVec w) : Option (Option Bool) :=
  if t.nodes.isEmpty then some none else matchLoop t.nodes ip w 0 none

/-! ## The two families together -/

structure IpRadixMatcher where
  ipv4Tree : Option FrozenTree
  ipv6Tree : Option FrozenTree
  deriving DecidableEq, Repr

/-- `match_ipv4` and `match_ipv6`: a family without rules has no tree and
matches nothing. -/
def matchTree (tree : Option FrozenTree) (ip : BitVec w) : Option (Option Bool) :=
  match tree with
  | none => some none
  | some t => t.matchIp ip

def IpRadixMatcher.matchIp (m : IpRadixMatcher) : IpAddr → Option (Option Bool)
  | .v4 ip => matchTree m.ipv4Tree ip
  | .v6 ip => matchTree m.ipv6Tree ip

structure IpRadixMatcherBuilder where
  v4Builder : RadixBuilder
  v6Builder : RadixBuilder
  deriving DecidableEq, Repr

def IpRadixMatcherBuilder.new : IpRadixMatcherBuilder := ⟨.new, .new⟩

/-- The text is parsed once to choose the family and once more by the
family's builder. -/
def IpRadixMatcherBuilder.insert (fromStr : String → Except String IpAddr)
    (b : IpRadixMatcherBuilder) (cidrStr : String) (allow : Bool) :
    Except IpRadixError IpRadixMatcherBuilder :=
  match IpCidr.parse fromStr cidrStr with
  | .error e => .error e
  | .ok (.v4 _ _) =>
    match IpV4RadixBuilder.insert fromStr b.v4Builder cidrStr allow with
    | .error e => .error e
    | .ok v4 => .ok { b with v4Builder := v4 }
  | .ok (.v6 _ _) =>
    match IpV6RadixBuilder.insert fromStr b.v6Builder cidrStr allow with
    | .error e => .error e
    | .ok v6 => .ok { b with v6Builder := v6 }

/-- A run of inserts, every one of which has to be accepted. -/
def IpRadixMatcherBuilder.insertAll (fromStr : String → Except String IpAddr) :
    List (String × Bool) → IpRadixMatcherBuilder → Except IpRadixError IpRadixMatcherBuilder
  | [], b => .ok b
  | (cidrStr, allow) :: rules, b =>
    match b.insert fromStr cidrStr allow with
    | .error e => .error e
    | .ok b => insertAll fromStr rules b

/-- The tree of one family, where the family has rules. -/
def RadixBuilder.freezeIfAny : Except IpRadixError (Option FrozenTree) :=
  if !b.isEmpty then
    match b.freeze with
    | .error e => .error e
    | .ok t => .ok (some t)
  else .ok none

def IpRadixMatcherBuilder.build (b : IpRadixMatcherBuilder) : Except IpRadixError IpRadixMatcher :=
  if b.v4Builder.isEmpty && b.v6Builder.isEmpty then .error .emptyTree
  else
    match b.v4Builder.freezeIfAny with
    | .error e => .error e
    | .ok ipv4Tree =>
      match b.v6Builder.freezeIfAny with
      | .error e => .error e
      | .ok ipv6Tree => .ok ⟨ipv4Tree, ipv6Tree⟩

end Edgion.IpRadix
