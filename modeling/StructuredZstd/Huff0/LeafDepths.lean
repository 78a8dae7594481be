import StructuredZstd.Bits.Buckets
import StructuredZstd.Huff0.HuffmanEncoder

namespace Huff0.Encoder

open Bits
open Fse.Decoder (highestBitSet)

/-- A leaf or an internal node of the code tree. -/
structure HuffNode where
  count : Nat
  symbol : Nat
  parent : Nat
  nbBits : Nat
deriving Repr, DecidableEq

def noParent : Nat := 2 ^ 16 - 1

/-- A slot the tree has not built yet: its count is one no subtree reaches. -/
def unbuilt : HuffNode := ⟨2 ^ 32 - 1, 2 ^ 16 - 1, noParent, 0⟩

/-- What the entry points assert of a histogram. -/
def histogramFits (counts : List Nat) : Bool := counts.length ≤ 256 && counts.sum < 2 ^ 32 - 1

/-- The leaves of the symbols that occur, in symbol order. -/
def presentLeaves (counts : List Nat) : List HuffNode :=
  (counts.zipIdx.filter fun c => 0 < c.1).map fun c => ⟨c.1, c.2, noParent, 0⟩

/-- Small counts have a bucket each, large ones share a bucket by their highest bit. -/
def bucketOf (leaf : HuffNode) : Nat :=
  if leaf.count < 165 then leaf.count else highestBitSet leaf.count - 1 + 158

def bucketSizes (leaves : List HuffNode) : List Nat :=
  (List.range 192).map fun bucket => leaves.countP (bucketOf · = bucket)

/-- Where each bucket starts: the buckets of higher counts come first. -/
def bucketStarts : List Nat → List Nat
  | [] => []
  | _ :: above => above.sum :: bucketStarts above

def leafBefore (left right : HuffNode) : Bool :=
  right.count < left.count || (left.count = right.count && left.symbol ≤ right.symbol)

def sortBetween (lo hi : Nat) (nodes : List HuffNode) : List HuffNode :=
  nodes.take lo ++ ((nodes.take hi).drop lo).mergeSort leafBefore ++ nodes.drop hi

/-- The leaves by falling count. Only the shared buckets mix counts and are sorted. -/
def sortLeaves (counts : List Nat) : List HuffNode :=
  let leaves := presentLeaves counts
  let start := bucketStarts (bucketSizes leaves)
  let (cursor, nodes) :=
    place bucketOf leaves start (List.replicate leaves.length ⟨0, 0, noParent, 0⟩)
  (List.range' 165 27).foldl
    (fun nodes bucket =>
      let lo := start.getD bucket 0
      let hi := cursor.getD bucket 0
      if 1 < hi - lo then sortBetween lo hi nodes else nodes)
    nodes

/-- The tree being built: the leaves not yet taken, from the back (`low_s + 1`), and the next
built node. -/
structure MergeState where
  nodes : List HuffNode
  leavesLeft : Nat
  nextNode : Nat
deriving Repr, DecidableEq

/-- Take the rarer of the next leaf and the next built node. -/
def MergeState.pick (m : MergeState) : Nat × MergeState :=
  let leafCount :=
    if 0 < m.leavesLeft then (m.nodes.getD (m.leavesLeft - 1) unbuilt).count else 2 ^ 32 - 1
  let nodeCount := (m.nodes.getD m.nextNode unbuilt).count
  if leafCount < nodeCount then (m.leavesLeft - 1, { m with leavesLeft := m.leavesLeft - 1 })
  else (m.nextNode, { m with nextNode := m.nextNode + 1 })

def setParent (nodes : List HuffNode) (child parent : Nat) : List HuffNode :=
  nodes.set child { nodes.getD child unbuilt with parent := parent }

/-- Build `node` over two nodes. -/
def joinNodes (nodes : List HuffNode) (first second node : Nat) : List HuffNode :=
  let a := nodes.getD first unbuilt
  let b := nodes.getD second unbuilt
  let joined := { nodes.getD node unbuilt with
    count := a.count + b.count
    symbol := min a.symbol b.symbol }
  setParent (setParent (nodes.set node joined) first node) second node

def mergeRound (m : MergeState) (node : Nat) : MergeState :=
  let (first, m) := m.pick
  let (second, m) := m.pick
  { m with nodes := joinNodes m.nodes first second node }

/-- Every node's parent stands above it, so the walk down finds the depth done. -/
def assignDepths (root : Nat) (nodes : List HuffNode) : List HuffNode :=
  (List.range root).reverse.foldl
    (fun nodes n =>
      let node := nodes.getD n unbuilt
      nodes.set n { node with nbBits := (nodes.getD node.parent unbuilt).nbBits + 1 })
    (nodes.set root { nodes.getD root unbuilt with nbBits := 0 })

/-- The depths of the unlimited code, for two leaves or more. -/
def treeDepths (leaves : List HuffNode) : List HuffNode :=
  let leafCount := leaves.length
  let root := leafCount + (leafCount - 1) - 1
  let nodes := leaves ++ List.replicate (leafCount - 1) unbuilt
  let first : MergeState :=
    ⟨joinNodes nodes (leafCount - 1) (leafCount - 2) leafCount, leafCount - 2, leafCount⟩
  let merged := (List.range' (leafCount + 1) (leafCount - 2)).foldl mergeRound first
  (assignDepths root merged.nodes).take leafCount

/-- `build_huffman_leaf_depths`: the leaves with the lengths of the unlimited code. -/
def buildHuffmanLeafDepths (counts : List Nat) : List HuffNode :=
  let leaves := presentLeaves counts
  if leaves.length ≤ 1 then leaves else treeDepths (sortLeaves counts)

end Huff0.Encoder
