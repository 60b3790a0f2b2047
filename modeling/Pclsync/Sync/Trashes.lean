import Mathlib.Data.List.Basic

/-! Removal of a local folder in which only what is ignored is left. The walkers remove as they go,
and the system can refuse any of their calls. -/

namespace Pclsync.Trashes

abbrev Name := List UInt8

mutual

/-- What a folder has an entry for. `other` is neither a regular file nor a folder. -/
inductive Entry
  | file
  | other
  | folder (entries : Entries)

inductive Entries
  | nil
  | cons (name : Name) (entry : Entry) (rest : Entries)

end

def Entries.isEmpty : Entries → Bool
  | .nil => true
  | .cons _ _ _ => false

/-- Which calls the system answers. `first` and `last` are those of `rmdir` for the folder that is to
be removed. -/
structure System where
  opendir : List Name → Bool
  lstat : List Name → Bool
  unlink : List Name → Bool
  rmdir : List Name → Bool
  first : Bool
  last : Bool

section Walk

variable (system : System) (ignored : Name → Bool)

mutual

/-- What a walker leaves of an entry. `all` is set for `rm_all`, which takes every name for ignored. -/
def remove (all : Bool) (path : List Name) (name : Name) : Entry → Option Entry
  | .other => some .other
  | .file => if (all || ignored name) && system.unlink path then none else some .file
  | .folder entries =>
    let left := if system.opendir path then ls (all || ignored name) path entries else entries
    if left.isEmpty && system.rmdir path then none else some (.folder left)

/-- `ppath_ls` with a walker. What cannot be looked at, and what is neither a file nor a folder, is
passed over. -/
def ls (all : Bool) (path : List Name) : Entries → Entries
  | .nil => .nil
  | .cons name entry rest =>
    match if system.lstat (path ++ [name]) then remove all (path ++ [name]) name entry else some entry with
    | none => ls all path rest
    | some left => .cons name left (ls all path rest)

end

/-- `rm_all` -/
def rmAll : List Name → Name → Entry → Option Entry := remove system ignored true

/-- `rm_ign` -/
def rmIgn : List Name → Name → Entry → Option Entry := remove system ignored false

/-- `psync_rmdir_with_trashes`. The folder is gone, or it has what is left. -/
def rmdirWithTrashes (path : List Name) (entries : Entries) : Option Entries :=
  if system.first && entries.isEmpty then none
  else if system.first && system.opendir path then
    let left := ls system ignored false path entries
    if left.isEmpty && system.last then none else some left
  else some entries

end Walk

end Pclsync.Trashes
