import Pclsync.Trees.Ptree

/-! Sets of offsets as trees of intervals, on the balanced trees. The node of an interval is known by its address;
what `malloc` returns is a parameter. -/

namespace Pclsync.IntervalTree
open Library Ptree

/-- `psync_interval_tree_t` at each address: the node, `from` and `to` -/
structure Memory where
  heap : Heap
  lo : ℕ → ℕ
  hi : ℕ → ℕ

namespace Memory

def interval (memory : Memory) (id : ℕ) : ℕ × ℕ := (memory.lo id, memory.hi id)
def setLo (memory : Memory) (id point : ℕ) : Memory := { memory with lo := Function.update memory.lo id point }
def setHi (memory : Memory) (id point : ℕ) : Memory := { memory with hi := Function.update memory.hi id point }

end Memory

/-- `psync_interval_new` -/
def intervalNew (memory : Memory) (newnode lo hi : ℕ) : Memory := (memory.setLo newnode lo).setHi newnode hi

/-- `psync_interval_tree_new` -/
def new (fuel : ℕ) (memory : Memory) (newnode lo hi : ℕ) : Option (Memory × Option ℕ) := do
  let memory := intervalNew memory newnode lo hi
  let (heap, tree) ← getAddAfter fuel memory.heap none none newnode
  some ({ memory with heap }, tree)

/-- `psync_interval_tree_del` -/
def del (fuel : ℕ) (memory : Memory) (tree : Option ℕ) (node : ℕ) : Option (Memory × Option ℕ) := do
  let (heap, tree) ← getDel fuel memory.heap tree node
  some ({ memory with heap }, tree)

/-- `psync_interval_tree_consume_intervals`, with a bound on the passes. -/
def consumeIntervals (fuel : ℕ) : ℕ → Memory → Option ℕ → ℕ → Option (Memory × Option ℕ)
  | 0, _, _, _ => none
  | passes + 1, memory, tree, e => do
    match ← getNext fuel memory.heap e with
    | none => some (memory, tree)
    | some next =>
      if memory.lo next > memory.hi e then some (memory, tree)
      else
        let (memory, tree) ← del fuel memory tree next
        if memory.hi next ≥ memory.hi e then some (memory.setHi e (memory.hi next), tree)
        else consumeIntervals fuel passes memory tree e

/-- The end of both branches of `psync_interval_tree_get_add` that need a new node. -/
def addNew (side : Side) (fuel : ℕ) (memory : Memory) (tree : Option ℕ) (e newnode lo hi : ℕ) : Option (Memory × Option ℕ) := do
  let memory := intervalNew memory newnode lo hi
  let (heap, tree) ← getAdd side fuel memory.heap tree (some e) newnode
  consumeIntervals fuel fuel { memory with heap } tree newnode

/-- The loop of `psync_interval_tree_get_add`. -/
def descend (fuel : ℕ) (newnode lo hi : ℕ) : ℕ → Memory → Option ℕ → ℕ → Option (Memory × Option ℕ)
  | 0, _, _, _ => none
  | passes + 1, memory, tree, e =>
    if memory.lo e ≤ lo ∧ memory.hi e ≥ lo then
      if memory.hi e ≥ hi then some (memory, tree)
      else consumeIntervals fuel fuel (memory.setHi e hi) tree e
    else if memory.lo e > lo then
      match (memory.heap e).left with
      | some left => descend fuel newnode lo hi passes memory tree left
      | none =>
        if memory.lo e ≤ hi ∧ memory.hi e ≥ hi then some (memory.setLo e lo, tree)
        else addNew .left fuel memory tree e newnode lo hi
    else
      match (memory.heap e).right with
      | some right => descend fuel newnode lo hi passes memory tree right
      | none => addNew .right fuel memory tree e newnode lo hi

/-- `psync_interval_tree_get_add` -/
def add (fuel : ℕ) (memory : Memory) (tree : Option ℕ) (newnode lo hi : ℕ) : Option (Memory × Option ℕ) :=
  match tree with
  | none => new fuel memory newnode lo hi
  | some root => descend fuel newnode lo hi fuel memory tree root

/-- `psync_interval_tree_first_interval_containing_or_after`, from a node on, with a bound on the passes. -/
def firstFrom (fuel : ℕ) (memory : Memory) (point : ℕ) : ℕ → ℕ → Option (Option ℕ)
  | 0, _ => none
  | passes + 1, tree =>
    if point ≥ memory.hi tree then
      match (memory.heap tree).right with
      | some right => firstFrom fuel memory point passes right
      | none => getNext fuel memory.heap tree
    else if point ≥ memory.lo tree then some (some tree)
    else
      match (memory.heap tree).left with
      | some left => firstFrom fuel memory point passes left
      | none => some (some tree)

/-- `psync_interval_tree_first_interval_containing_or_after` -/
def firstIntervalContainingOrAfter (fuel : ℕ) (memory : Memory) (tree : Option ℕ) (point : ℕ) : Option (Option ℕ) :=
  match tree with
  | none => some none
  | some root => firstFrom fuel memory point fuel root

/-- The loop of `psync_interval_tree_remove`. -/
def removeFrom (fuel : ℕ) (newnode lo hi : ℕ) : ℕ → Memory → Option ℕ → Option ℕ → Option (Memory × Option ℕ)
  | _, memory, tree, none => some (memory, tree)
  | 0, _, _, some _ => none
  | passes + 1, memory, tree, some tr =>
    if memory.lo tr < lo ∧ memory.hi tr > hi then do
      -- the only case that splits an interval
      let memory := intervalNew memory newnode hi (memory.hi tr)
      let (heap, tree) ← getAddAfter fuel memory.heap tree (some tr) newnode
      some ({ memory with heap }.setHi tr lo, tree)
    else do
      let ntr ← getNext fuel memory.heap tr
      if lo ≤ memory.lo tr ∧ memory.lo tr < hi then
        let memory := memory.setLo tr hi
        if memory.lo tr ≥ memory.hi tr then
          let (memory, tree) ← del fuel memory tree tr
          removeFrom fuel newnode lo hi passes memory tree ntr
        else removeFrom fuel newnode lo hi passes memory tree ntr
      else if memory.lo tr < lo then removeFrom fuel newnode lo hi passes (memory.setHi tr lo) tree ntr
      else some (memory, tree)

/-- `psync_interval_tree_remove` -/
def remove (fuel : ℕ) (memory : Memory) (tree : Option ℕ) (newnode lo hi : ℕ) : Option (Memory × Option ℕ) := do
  removeFrom fuel newnode lo hi fuel memory tree (← firstIntervalContainingOrAfter fuel memory tree lo)

/-- The loop of `psync_interval_tree_get_cut_end`. -/
def cutFrom (fuel : ℕ) (point : ℕ) : ℕ → Memory → Option ℕ → Option ℕ → Option (Memory × Option ℕ)
  | _, memory, tree, none => some (memory, tree)
  | 0, _, _, some _ => none
  | passes + 1, memory, tree, some last =>
    if memory.hi last > point then
      if memory.lo last < point then some (memory.setHi last point, tree)
      else do
        let prev ← getPrev fuel memory.heap last
        let (memory, tree) ← del fuel memory tree last
        cutFrom fuel point passes memory tree prev
    else some (memory, tree)

/-- `psync_interval_tree_get_cut_end` -/
def cutEnd (fuel : ℕ) (memory : Memory) (tree : Option ℕ) (point : ℕ) : Option (Memory × Option ℕ) := do
  cutFrom fuel point fuel memory tree (← getLast fuel memory.heap tree)

/-- What may be done with a tree; an operation that may need a new node has its address. -/
inductive Op
  | add (lo hi newnode : ℕ)
  | remove (lo hi newnode : ℕ)
  | cutEnd (point : ℕ)
deriving DecidableEq, Repr

def apply (fuel : ℕ) (memory : Memory) (tree : Option ℕ) : Op → Option (Memory × Option ℕ)
  | .add lo hi newnode => add fuel memory tree newnode lo hi
  | .remove lo hi newnode => remove fuel memory tree newnode lo hi
  | .cutEnd point => cutEnd fuel memory tree point

end Pclsync.IntervalTree
