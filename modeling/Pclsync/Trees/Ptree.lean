import Pclsync.Library.Shape

/-! The balanced trees whose nodes are parts of other structures. A node is known by its address, and what
the functions do is done to the memory. Where a function is there twice, mirrored, the side is a parameter. -/

namespace Pclsync.Ptree
open Library

/-- `psync_tree` -/
structure Node where
  left : Option ℕ
  right : Option ℕ
  parent : Option ℕ
  height : ℤ
deriving DecidableEq, Repr

namespace Node

def child (side : Side) (node : Node) : Option ℕ :=
  match side with
  | .left => node.left
  | .right => node.right

def setChild (side : Side) (child : Option ℕ) (node : Node) : Node :=
  match side with
  | .left => { node with left := child }
  | .right => { node with right := child }

end Node

/-- What is in memory at an address. -/
abbrev Heap := ℕ → Node

namespace Heap

def set (heap : Heap) (id : ℕ) (change : Node → Node) : Heap := Function.update heap id (change (heap id))
def setChild (heap : Heap) (id : ℕ) (side : Side) (child : Option ℕ) : Heap := heap.set id (Node.setChild side child)
def setParent (heap : Heap) (id : ℕ) (parent : Option ℕ) : Heap := heap.set id fun node => { node with parent }
def setHeight (heap : Heap) (id : ℕ) (height : ℤ) : Heap := heap.set id fun node => { node with height }

end Heap

/-- The parent of a node, if there is one. -/
def reparent (heap : Heap) (node parent : Option ℕ) : Heap :=
  match node with
  | none => heap
  | some node => heap.setParent node parent

/-- `ptree_height` -/
def height (heap : Heap) (tree : Option ℕ) : ℤ :=
  match tree with
  | none => 0
  | some tree => (heap tree).height

/-- `ptree_recalc_height` -/
def recalcHeight (heap : Heap) (e : ℕ) : Heap :=
  heap.setHeight e (max (height heap (heap e).left) (height heap (heap e).right) + 1)

/-- The new child of `e` gets its parent, and `e` its height. -/
def adopt (side : Side) (heap : Heap) (e : ℕ) : Heap :=
  match (heap e).child side with
  | some moved => recalcHeight (heap.setParent moved (some e)) e
  | none => heap.setHeight e (height heap ((heap e).child side.opposite) + 1)

/-- The child on the side of `e` takes the place of `e`. -/
def rotate (side : Side) (heap : Heap) (e : ℕ) : Option (Heap × ℕ) :=
  match (heap e).child side with
  | none => none
  | some e2 =>
    let heap := heap.setParent e2 (heap e).parent
    let heap := heap.setChild e side ((heap e2).child side.opposite)
    let heap := adopt side heap e
    let heap := heap.setParent e (some e2)
    let heap := heap.setChild e2 side.opposite (some e)
    some (recalcHeight heap e2, e2)

/-- `ptree_rotate_left` -/
def rotateLeft : Heap → ℕ → Option (Heap × ℕ) := rotate .right

/-- `ptree_rotate_right` -/
def rotateRight : Heap → ℕ → Option (Heap × ℕ) := rotate .left

/-- The rotation that takes from the side that is too high. -/
def rotateFrom : Side → Heap → ℕ → Option (Heap × ℕ)
  | .left => rotateRight
  | .right => rotateLeft

/-- `ptree_init_node` -/
def initNode (heap : Heap) (node : ℕ) : Heap := Function.update heap node ⟨none, none, none, 1⟩

/-- The child of `e` is rotated if it is too high on the inner side. -/
def straighten (side : Side) (heap : Heap) (e child : ℕ) : Option Heap :=
  if height heap ((heap child).child side.opposite) > height heap ((heap child).child side) then do
    let (heap, child) ← rotateFrom side.opposite heap child
    some (heap.setChild e side (some child))
  else some heap

/-- What both loops do with a node one side of which is too high: the tree, and the node above, unless the
node is the root. -/
def rebalance (side : Side) (heap : Heap) (tree : Option ℕ) (e : ℕ) : Option (Heap × Option ℕ × Option ℕ) := do
  let child ← (heap e).child side
  let heap ← straighten side heap e child
  if some e = tree then do
    let (heap, top) ← rotateFrom side heap e
    some (heap, some top, none)
  else do
    let e2 ← (heap e).parent
    if (heap e2).left = some e then do
      let (heap, top) ← rotateFrom side heap e
      some (heap.setChild e2 .left (some top), tree, some e2)
    else do
      let (heap, top) ← rotateFrom side heap e
      some (heap.setChild e2 .right (some top), tree, some e2)

/-- `ptree_go_up_rebalance_add` -/
def goUpRebalanceAdd : ℕ → Heap → Option ℕ → ℕ → Option (Heap × Option ℕ)
  | 0, _, _, _ => none
  | fuel + 1, heap, tree, e =>
    let lheight := height heap (heap e).left
    let rheight := height heap (heap e).right
    let dheight := lheight - rheight
    if dheight = 0 then some (heap, tree)
    else if dheight = 1 ∨ dheight = -1 then
      let heap := heap.setHeight e (rheight + (dheight + 1) / 2 + 1)
      match (heap e).parent with
      | some parent => goUpRebalanceAdd fuel heap tree parent
      | none => some (heap, tree)
    else do
      let (heap, tree, _) ← rebalance (if dheight = 2 then .left else .right) heap tree e
      some (heap, tree)

/-- `ptree_go_up_rebalance_del` -/
def goUpRebalanceDel : ℕ → Heap → Option ℕ → ℕ → Option (Heap × Option ℕ)
  | 0, _, _, _ => none
  | fuel + 1, heap, tree, e =>
    let lheight := height heap (heap e).left
    let rheight := height heap (heap e).right
    let dheight := lheight - rheight
    if dheight = 0 then
      let heap := heap.setHeight e (rheight + 1)
      match (heap e).parent with
      | some parent => goUpRebalanceDel fuel heap tree parent
      | none => some (heap, tree)
    else if dheight = 1 ∨ dheight = -1 then some (heap, tree)
    else do
      let (heap, tree, above) ← rebalance (if dheight = 2 then .left else .right) heap tree e
      match above with
      | some e2 => goUpRebalanceDel fuel heap tree e2
      | none => some (heap, tree)

/-- The last node on one side. -/
def walk (side : Side) : ℕ → Heap → ℕ → Option ℕ
  | 0, _, _ => none
  | fuel + 1, heap, tree =>
    match (heap tree).child side with
    | some child => walk side fuel heap child
    | none => some tree

/-- `ptree_get_first` and `ptree_get_last` -/
def getEnd (side : Side) (fuel : ℕ) (heap : Heap) (tree : Option ℕ) : Option (Option ℕ) :=
  match tree with
  | none => some none
  | some tree => (walk side fuel heap tree).map some

def getFirst : ℕ → Heap → Option ℕ → Option (Option ℕ) := getEnd .left
def getLast : ℕ → Heap → Option ℕ → Option (Option ℕ) := getEnd .right

/-- The new node next to one that is there. -/
def addBeside (side : Side) (fuel : ℕ) (heap : Heap) (tree : Option ℕ) (node newnode : ℕ) : Option (Heap × Option ℕ) :=
  let heap := initNode heap newnode
  match (heap node).child side with
  | some child => do
    let last ← walk side.opposite fuel heap child
    let heap := heap.setChild last side.opposite (some newnode)
    let heap := heap.setParent newnode (some last)
    goUpRebalanceAdd fuel heap tree last
  | none =>
    let heap := heap.setChild node side (some newnode)
    let heap := heap.setParent newnode (some node)
    goUpRebalanceAdd fuel heap tree node

/-- Without a node the new one goes to the end of the tree on the opposite side. -/
def getAdd (side : Side) (fuel : ℕ) (heap : Heap) (tree node : Option ℕ) (newnode : ℕ) : Option (Heap × Option ℕ) :=
  match tree with
  | none => some (initNode heap newnode, some newnode)
  | some root =>
    match node with
    | some node => addBeside side fuel heap tree node newnode
    | none => do addBeside side.opposite fuel heap tree (← walk side.opposite fuel heap root) newnode

/-- `ptree_get_add_after` -/
def getAddAfter : ℕ → Heap → Option ℕ → Option ℕ → ℕ → Option (Heap × Option ℕ) := getAdd .right

/-- `ptree_get_add_before` -/
def getAddBefore : ℕ → Heap → Option ℕ → Option ℕ → ℕ → Option (Heap × Option ℕ) := getAdd .left

/-- `ptree_get_added_at` -/
def getAddedAt (fuel : ℕ) (heap : Heap) (tree parent : Option ℕ) (newnode : ℕ) : Option (Heap × Option ℕ) :=
  let heap := (initNode heap newnode).setParent newnode parent
  match parent with
  | some parent => goUpRebalanceAdd fuel heap tree parent
  | none => some (heap, tree)

/-- What the callers of `ptree_get_added_at` do before it: the child, or the whole tree. -/
def putAt (heap : Heap) (tree : Option ℕ) (place : Option (ℕ × Side)) (newnode : ℕ) : Heap × Option ℕ :=
  match place with
  | some (parent, side) => (heap.setChild parent side (some newnode), tree)
  | none => (heap, some newnode)

/-- `ptree_replace_me_with` -/
def replaceMeWith (fuel : ℕ) (heap : Heap) (tree : Option ℕ) (node : ℕ) (repl : Option ℕ) : Option (Heap × Option ℕ) :=
  let parent := (heap node).parent
  let (heap, tree) : Heap × Option ℕ :=
    match parent with
    | none => (heap, repl)
    | some parent =>
      if some node = (heap parent).left then (heap.setChild parent .left repl, tree)
      else (heap.setChild parent .right repl, tree)
  let heap := reparent heap repl parent
  match parent, tree with
  | some parent, _ => goUpRebalanceDel fuel heap tree parent
  | none, none => some (heap, none)
  | none, some root => goUpRebalanceDel fuel heap tree root

/-- The walk to the node that replaces a deleted one, with the address of the pointer to it. -/
def walkAddr (side : Side) : ℕ → Heap → ℕ × Side → ℕ → Option ((ℕ × Side) × ℕ)
  | 0, _, _, _ => none
  | fuel + 1, heap, addr, el =>
    match (heap el).child side with
    | some child => walkAddr side fuel heap (el, side) child
    | none => some (addr, el)

/-- A node with two children is replaced by the nearest one on its `side`. -/
def replaceBy (side : Side) (fuel : ℕ) (heap : Heap) (tree : Option ℕ) (node child : ℕ) : Option (Heap × Option ℕ) := do
  let (addr, el) ← walkAddr side.opposite fuel heap (node, side) child
  let parent ← (heap el).parent
  let below := (heap el).child side
  let heap := heap.setChild addr.1 addr.2 below
  let heap := reparent heap below (some parent)
  -- `memcpy`
  let heap : Heap := Function.update heap el (heap node)
  let parent := if parent = node then el else parent
  let heap := reparent heap (heap node).left (some el)
  let heap := reparent heap (heap node).right (some el)
  match (heap node).parent with
  | some above =>
    if (heap above).left = some node then goUpRebalanceDel fuel (heap.setChild above .left (some el)) tree parent
    else goUpRebalanceDel fuel (heap.setChild above .right (some el)) tree parent
  | none => goUpRebalanceDel fuel heap (some el) parent

/-- `ptree_get_del` -/
def getDel (fuel : ℕ) (heap : Heap) (tree : Option ℕ) (node : ℕ) : Option (Heap × Option ℕ) :=
  match (heap node).left, (heap node).right with
  | none, none => replaceMeWith fuel heap tree node none
  | none, some right => replaceMeWith fuel heap tree node (some right)
  | some left, none => replaceMeWith fuel heap tree node (some left)
  | some left, some right =>
    if (heap left).height > (heap right).height then replaceBy .left fuel heap tree node left
    else replaceBy .right fuel heap tree node right

/-- Up to the first node that is reached from the opposite side. -/
def climb (side : Side) : ℕ → Heap → ℕ → Option (Option ℕ)
  | 0, _, _ => none
  | fuel + 1, heap, tree =>
    match (heap tree).parent with
    | none => some none
    | some parent => if some tree = (heap parent).child side then climb side fuel heap parent else some (some parent)

def getBeside (side : Side) (fuel : ℕ) (heap : Heap) (tree : ℕ) : Option (Option ℕ) :=
  match (heap tree).child side with
  | some child => (walk side.opposite fuel heap child).map some
  | none => climb side fuel heap tree

/-- `ptree_get_next` -/
def getNext : ℕ → Heap → ℕ → Option (Option ℕ) := getBeside .right

/-- `ptree_get_prev` -/
def getPrev : ℕ → Heap → ℕ → Option (Option ℕ) := getBeside .left

/-- Down to a leaf, to the left where that goes. -/
def walkSafe : ℕ → Heap → ℕ → Option ℕ
  | 0, _, _ => none
  | fuel + 1, heap, tree =>
    match (heap tree).left, (heap tree).right with
    | some left, _ => walkSafe fuel heap left
    | none, some right => walkSafe fuel heap right
    | none, none => some tree

/-- `ptree_get_first_safe` -/
def getFirstSafe (fuel : ℕ) (heap : Heap) (tree : Option ℕ) : Option (Option ℕ) :=
  match tree with
  | none => some none
  | some tree => (walkSafe fuel heap tree).map some

/-- `ptree_get_next_safe` -/
def getNextSafe (fuel : ℕ) (heap : Heap) (tree : ℕ) : Option (Option ℕ) :=
  match (heap tree).parent with
  | none => some none
  | some parent =>
    match (heap parent).right with
    | none => some (some parent)
    | some right => if right = tree then some (some parent) else (walkSafe fuel heap right).map some

/-- The loop of `ptree_for_each_element_call_safe`. The function that is called may leave anything in a node. -/
def callSafe (junk : ℕ → Node) (fuel : ℕ) : ℕ → Heap → Option ℕ → Option (List ℕ)
  | _, _, none => some []
  | 0, _, some _ => none
  | steps + 1, heap, some tree => do
    let next ← getNextSafe fuel heap tree
    let rest ← callSafe junk fuel steps (Function.update heap tree (junk tree)) next
    some (tree :: rest)

/-- `ptree_for_each_element_call_safe` -/
def forEachCallSafe (junk : ℕ → Node) (fuel : ℕ) (heap : Heap) (tree : Option ℕ) : Option (List ℕ) := do
  callSafe junk fuel fuel heap (← getFirstSafe fuel heap tree)

/-- What may be done with a tree. -/
inductive Op
  | addBefore (node : Option ℕ) (newnode : ℕ)
  | addAfter (node : Option ℕ) (newnode : ℕ)
  | addedAt (place : Option (ℕ × Side)) (newnode : ℕ)
  | del (node : ℕ)
deriving DecidableEq, Repr

def apply (fuel : ℕ) (heap : Heap) (tree : Option ℕ) : Op → Option (Heap × Option ℕ)
  | .addBefore node newnode => getAddBefore fuel heap tree node newnode
  | .addAfter node newnode => getAddAfter fuel heap tree node newnode
  | .addedAt place newnode =>
    let (heap, tree) := putAt heap tree place newnode
    getAddedAt fuel heap tree (place.map Prod.fst) newnode
  | .del node => getDel fuel heap tree node

end Pclsync.Ptree
