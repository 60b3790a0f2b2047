import Pclsync.Trees.Search
import Pclsync.Fs.Folder

/-! The trees of the tasks of a folder in memory. One insertion and one search serve four structures: they
are told where the name and the task id of an element are. -/

namespace Pclsync.NamedTrees
open Library Ptree
open Fs (strcmp Name)

inductive Kind
  | mkdir
  | rmdir
  | creat
  | unlink
deriving DecidableEq, Repr

/-- `offsetof` of the name in `psync_fstask_mkdir_t` and the others. -/
def nameOffset : Kind → ℕ
  | .mkdir => 72
  | .rmdir => 48
  | .creat => 56
  | .unlink => 48

/-- `bytes` is the memory from the name of the element on. -/
structure Element where
  taskid : ℕ
  bytes : List UInt8
deriving DecidableEq, Repr

/-- The string at an offset in an element. No offset that is used is before the name. -/
def Element.string (kind : Kind) (nameoff : ℕ) (element : Element) : Name :=
  (element.bytes.drop (nameoff - nameOffset kind)).takeWhile (· ≠ 0)

def Element.name (kind : Kind) (element : Element) : Name := element.string kind (nameOffset kind)

/-- A tree with the elements that its nodes are parts of. -/
structure Tree where
  heap : Heap
  root : Option ℕ
  element : ℕ → Element

section Generic

variable (kind : Kind) (tree : Tree)

/-- The comparison on the way of a new element. -/
def goesLeft (nameoff : ℕ) (element : Element) (node : ℕ) : Bool :=
  strcmp (element.string kind nameoff) ((tree.element node).string kind nameoff) = .lt

/-- `psync_fstask_insert_into_tree` -/
def insertIntoTree (nameoff fuel newnode : ℕ) (element : Element) : Option Tree := do
  let (heap, root) ← Ptree.insert (goesLeft kind tree nameoff element) fuel tree.heap tree.root newnode
  return ⟨heap, root, Function.update tree.element newnode element⟩

/-- `ptree_del` -/
def deleteFromTree (fuel node : ℕ) : Option Tree := do
  let (heap, root) ← getDel fuel tree.heap tree.root node
  return { tree with heap, root }

/-- The loops over the neighbours on one side, as far as they have the name. -/
def scan (side : Side) (name : Name) (taskid fuel : ℕ) : ℕ → ℕ → Option (Option ℕ)
  | 0, _ => none
  | steps + 1, node => do
    match ← getBeside side fuel tree.heap node with
    | none => some none
    | some next =>
      if strcmp name ((tree.element next).name kind) ≠ .eq then some none
      else if (tree.element next).taskid = taskid then some (some next)
      else scan side name taskid fuel steps next

/-- `psync_fstask_search_tree` -/
def searchTree (name : Name) (taskid fuel : ℕ) : Option (Option ℕ) := do
  match ← search (fun node => strcmp name ((tree.element node).name kind)) fuel tree.heap tree.root with
  | none => some none
  | some node =>
    if taskid = 0 ∨ (tree.element node).taskid = taskid then some (some node)
    else
      match ← scan kind tree .left name taskid fuel fuel node with
      | some found => some (some found)
      | none => scan kind tree .right name taskid fuel fuel node

end Generic

/-- The four trees of a folder. -/
abbrev Folder := Kind → Tree

inductive Op
  /-- An entry is added, by the drive or at its start. -/
  | add (kind : Kind) (newnode : ℕ) (element : Element)
  | injectCreat (newnode : ℕ) (element : Element)
  | injectUnlink (newnode : ℕ) (element : Element)
  | del (kind : Kind) (node : ℕ)
deriving DecidableEq, Repr

/-- The tree that an operation changes. -/
def Op.kind : Op → Kind
  | .add kind _ _ => kind
  | .injectCreat _ _ => .creat
  | .injectUnlink _ _ => .unlink
  | .del kind _ => kind

/-- The offset of the name that is passed with a new entry. -/
def Op.nameoff : Op → ℕ
  | .add kind _ _ => nameOffset kind
  | .injectCreat _ _ => nameOffset .creat
  -- This is the offset in another structure.
  | .injectUnlink _ _ => nameOffset .creat
  | .del kind _ => nameOffset kind

/-- What an operation makes of its tree. -/
def Op.change (op : Op) (fuel : ℕ) (tree : Tree) : Option Tree :=
  match op with
  | .add _ newnode element => insertIntoTree op.kind tree op.nameoff fuel newnode element
  | .injectCreat newnode element => insertIntoTree op.kind tree op.nameoff fuel newnode element
  | .injectUnlink newnode element => insertIntoTree op.kind tree op.nameoff fuel newnode element
  | .del _ node => deleteFromTree tree fuel node

def apply (fuel : ℕ) (folder : Folder) (op : Op) : Option Folder := do
  let tree ← op.change fuel (folder op.kind)
  return Function.update folder op.kind tree

end Pclsync.NamedTrees
