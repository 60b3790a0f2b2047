import Pclsync.Trees.Ptree

/-! Loops that go down a balanced tree: a search for a node, and the way to a free place for a new one. What
the nodes are compared by is known to the user of a tree. -/

namespace Pclsync.Ptree
open Library

/-- What is sought is compared with the node: it is on the left if it is less. -/
def search (compare : ℕ → Ordering) : ℕ → Heap → Option ℕ → Option (Option ℕ)
  | _, _, none => some none
  | 0, _, some _ => none
  | fuel + 1, heap, some node =>
    match compare node with
    | .lt => search compare fuel heap (heap node).left
    | .gt => search compare fuel heap (heap node).right
    | .eq => some (some node)

/-- The side of a node where the way goes on. -/
def sideOf (goesLeft : ℕ → Bool) (node : ℕ) : Side := if goesLeft node then .left else .right

/-- The last node on the way down, and its free side. -/
def place (goesLeft : ℕ → Bool) : ℕ → Heap → ℕ → Option (ℕ × Side)
  | 0, _, _ => none
  | fuel + 1, heap, node =>
    match (heap node).child (sideOf goesLeft node) with
    | some child => place goesLeft fuel heap child
    | none => some (node, sideOf goesLeft node)

/-- The nodes that are met on the way. -/
def met (goesLeft : ℕ → Bool) : ℕ → Heap → Option ℕ → List ℕ
  | _, _, none => []
  | 0, _, some _ => []
  | fuel + 1, heap, some node => node :: met goesLeft fuel heap ((heap node).child (sideOf goesLeft node))

/-- A new node goes to the free place on its way down. -/
def insert (goesLeft : ℕ → Bool) (fuel : ℕ) (heap : Heap) (tree : Option ℕ) (newnode : ℕ) : Option (Heap × Option ℕ) :=
  match tree with
  | none => getAddAfter fuel heap tree none newnode
  | some root => do
    match ← place goesLeft fuel heap root with
    | (node, .left) => getAddBefore fuel heap tree (some node) newnode
    | (node, .right) => getAddAfter fuel heap tree (some node) newnode

end Pclsync.Ptree
