import Pclsync.Crypto.Filename

/-! The status of a path of the drive. The walk goes down the components of the path, first below a read lock and, once
it finds a row that is not in the cache, again below a write lock. In an encrypted folder a name is looked up as it is
stored, so it is encoded first. -/

namespace Pclsync.Paths.Status
open Crypto

abbrev Name := List UInt8

abbrev slash : UInt8 := 47

/-- `psync_path_status_t` -/
inductive PathStatus
  | inSync
  | inProg
  | paused
  | notFound
deriving DecidableEq, Repr

/-- The names in the trees of a `psync_fstask_folder_t`. -/
structure FolderTasks where
  mkdirs : List Name
  rmdirs : List Name
  creats : List Name
  unlinks : List Name

/-- A row of `folder`, with `PSYNC_FOLDER_FLAG_ENCRYPTED` of its flags. -/
structure FolderRow where
  id : ℕ
  parentfolderid : ℕ
  name : Name
  encrypted : Bool

/-- A row of `file`. -/
structure FileRow where
  id : ℕ
  parentfolderid : ℕ
  name : Name

/-- What the walk reads: the tables, the pending changes of a folder, which folders have tasks in or below them, and
`pstatus_ok_status_arr`. -/
structure World where
  folder : List FolderRow
  file : List FileRow
  fstasks : ℕ → Option FolderTasks
  hasTasks : ℕ → Bool
  ok : Bool

/-- `path_cache_entry_t` -/
structure Entry (H : Type) where
  hash : H
  itemid : ℕ
  folder : Bool
  encrypted : Bool

/-- `path_cache_entries` by their places, `path_cache_lru`, and the entries that are in `path_cache_hash` in the order
in which they came there. -/
structure Cache (H : Type) where
  slot : ℕ → Entry H
  lru : List ℕ
  linked : List ℕ

section Cache

variable {H : Type} [DecidableEq H]

/-- The first entry with a hash, which has to be of a folder if that is asked for. -/
def Cache.find (cache : Cache H) (hash : H) (folder : Bool) : Option ℕ :=
  cache.linked.find? fun slot => (cache.slot slot).hash = hash ∧ (folder = true → (cache.slot slot).folder = true)

/-- An entry was used. -/
def Cache.touch (cache : Cache H) (wrlocked : Bool) (slot : ℕ) : Cache H :=
  if wrlocked then { cache with lru := cache.lru.erase slot ++ [slot] } else cache

/-- The entry that was not used for the longest time is replaced. -/
def Cache.add (cache : Cache H) (entry : Entry H) : Cache H :=
  match cache.lru with
  | [] => cache
  | slot :: rest =>
    { slot := Function.update cache.slot slot entry, lru := rest ++ [slot], linked := cache.linked.erase slot ++ [slot] }

end Cache

/-- `pcryptofolder_fldencode_filename` of a name, up to the terminator. -/
def encname (encoder : TextEncdec) (name : Name) : Name :=
  match fldencodeFilename encoder (name ++ [0]) with
  | .ok encoded => cstring encoded
  | .error _ => []

/-- `sizeof(buff)` in `psync_path_status_drive`. -/
abbrev buffSize : ℕ := 2048

/-- `sizeof(buff)` in `move_encname_to_buff`, where it is a pointer. -/
abbrev sizeofBuff : ℕ := 8

/-- `move_encname_to_buff`: what is in the buffer, if the function does not fail. -/
def moveEncnameToBuff (encoder : Option TextEncdec) (name : Name) : Option Name :=
  if buffSize ≤ name.length then none
  else match encoder with
    | none => none
    | some encoder => if sizeofBuff ≤ (encname encoder name).length then none else some (encname encoder name)

/-- A name that is looked up for a component in a folder, or the attempt to encode it. -/
structure Lookup where
  folderid : ℕ
  comp : Name
  used : Option Name

/-- What is kept over the walk: the cache, and what was looked up. -/
structure Run (H : Type) where
  cache : Cache H
  looked : List Lookup

def Run.look {H : Type} (run : Run H) (folderid : ℕ) (comp : Name) (used : Option Name) : Run H :=
  { run with looked := run.looked ++ [⟨folderid, comp, used⟩] }

/-- How the walk goes on after a component. -/
inductive Step
  | status (status : PathStatus)
  | restart
  | next (folderid : ℕ) (encrypted : Bool)

section Walk

variable {H : Type} [DecidableEq H] (compHash : Name → ℕ → H) (encoder : ℕ → Option TextEncdec) (world : World)

/-- `rdunlock_return_in_prog` -/
def returnInProg : PathStatus := if world.ok then .inProg else .paused

/-- `psync_path_status_drive_folder_locked` -/
def driveFolderLocked (folderid : ℕ) : PathStatus := if world.hasTasks folderid then returnInProg world else .inSync

/-- The name that the buffer has for a component. -/
def bufferName (folderid : ℕ) (encrypted : Bool) (comp : Name) : Option Name :=
  if encrypted then moveEncnameToBuff (encoder folderid) comp
  else if buffSize ≤ comp.length then none
  else some comp

/-- The name that a query has for a component. -/
def queryName (folderid : ℕ) (encrypted : Bool) (comp : Name) : Option Name :=
  if encrypted then moveEncnameToBuff (encoder folderid) comp else some comp

/-- The rows with a name in a folder. -/
def findFolder (folderid : ℕ) (name : Name) : Option FolderRow :=
  world.folder.find? fun row => row.parentfolderid = folderid ∧ row.name = name

def findFile (folderid : ℕ) (name : Name) : Option FileRow :=
  world.file.find? fun row => row.parentfolderid = folderid ∧ row.name = name

/-- The pending changes for a component that is not the last one. -/
def pending (folderid : ℕ) (encrypted : Bool) (comp : Name) (run : Run H) : Option PathStatus × Run H :=
  match world.fstasks folderid with
  | none => (none, run)
  | some folder =>
    let used := bufferName encoder folderid encrypted comp
    let run := run.look folderid comp used
    match used with
    | none => (some .inSync, run)
    | some name =>
      if name ∈ folder.mkdirs then (some (returnInProg world), run)
      else if name ∈ folder.rmdirs then (some .notFound, run)
      else (none, run)

/-- A component that is not the last one: it is in the cache or is looked up. -/
def enter (wrlocked : Bool) (folderid : ℕ) (encrypted : Bool) (comp : Name) (run : Run H) : Step × Run H :=
  match run.cache.find (compHash comp folderid) true with
  | some slot =>
    let entry := run.cache.slot slot
    let run := { run with cache := run.cache.touch wrlocked slot }
    if world.hasTasks entry.itemid then (.next entry.itemid entry.encrypted, run) else (.status .inSync, run)
  | none =>
    let used := queryName encoder folderid encrypted comp
    let run := run.look folderid comp used
    match used with
    | none => (.status .inSync, run)
    | some name =>
      match findFolder world folderid name with
      | none => (.status .notFound, run)
      | some row =>
        if wrlocked then
          let run := { run with cache := run.cache.add ⟨compHash comp folderid, row.id, true, row.encrypted⟩ }
          if world.hasTasks row.id then (.next row.id row.encrypted, run) else (.status .inSync, run)
        else (.restart, run)

/-- The body of the loop for a component. -/
def component (wrlocked : Bool) (folderid : ℕ) (encrypted : Bool) (comp : Name) (run : Run H) : Step × Run H :=
  match pending encoder world folderid encrypted comp run with
  | (some status, run) => (.status status, run)
  | (none, run) => enter compHash encoder world wrlocked folderid encrypted comp run

/-- The pending changes for the last component, and the name for it. -/
def pendingLast (folderid : ℕ) (encrypted : Bool) (comp : Name) (run : Run H) : Option PathStatus × Name × Run H :=
  match world.fstasks folderid with
  | none => (none, comp, run)
  | some folder =>
    let used := queryName encoder folderid encrypted comp
    let run := run.look folderid comp used
    match used with
    | none => (some .inSync, comp, run)
    | some name =>
      if name ∈ folder.mkdirs then (some (returnInProg world), name, run)
      else if name ∈ folder.creats then (some (returnInProg world), name, run)
      else (none, name, run)

/-- Whether a name is in one of the trees of a folder. -/
def isPending (folderid : ℕ) (tree : FolderTasks → List Name) (name : Name) : Prop :=
  ∃ folder ∈ world.fstasks folderid, name ∈ tree folder

instance (folderid : ℕ) (tree : FolderTasks → List Name) (name : Name) : Decidable (isPending world folderid tree name) :=
  inferInstanceAs (Decidable (∃ folder ∈ world.fstasks folderid, name ∈ tree folder))

/-- The last component is in the cache. -/
def lastCached (folderid : ℕ) (entry : Entry H) (name : Name) : PathStatus :=
  if entry.folder then
    if isPending world folderid FolderTasks.rmdirs name then .notFound else driveFolderLocked world entry.itemid
  else if isPending world folderid FolderTasks.unlinks name then .notFound
  else .inSync

/-- The last component is looked up by its name. What is pending is looked up by the component as it is. -/
def lastQuery (wrlocked : Bool) (folderid : ℕ) (encrypted : Bool) (comp name : Name) (run : Run H) : Step × Run H :=
  let run := run.look folderid comp (some name)
  let known := if isPending world folderid FolderTasks.rmdirs comp then none else findFolder world folderid name
  match known with
  | none =>
    if isPending world folderid FolderTasks.unlinks comp then (.status .notFound, run)
    else match findFile world folderid name with
      | none => (.status .notFound, run)
      | some row =>
        if wrlocked then
          (.status .inSync, { run with cache := run.cache.add ⟨compHash comp folderid, row.id, false, encrypted⟩ })
        else (.restart, run)
  | some row =>
    if wrlocked then
      (.status (driveFolderLocked world row.id), { run with cache := run.cache.add ⟨compHash comp folderid, row.id, true, false⟩ })
    else (.restart, run)

/-- What follows the loop. -/
def last (wrlocked : Bool) (folderid : ℕ) (encrypted : Bool) (comp : Name) (run : Run H) : Step × Run H :=
  if comp = [] then (.status (driveFolderLocked world folderid), run)
  else match pendingLast encoder world folderid encrypted comp run with
    | (some status, _, run) => (.status status, run)
    | (none, name, run) =>
      match run.cache.find (compHash comp folderid) false with
      | some slot =>
        (.status (lastCached world folderid (run.cache.slot slot) name), { run with cache := run.cache.touch wrlocked slot })
      | none =>
        if (world.fstasks folderid).isNone ∧ encrypted = true then
          match moveEncnameToBuff (encoder folderid) comp with
          | none => (.status .inSync, run.look folderid comp none)
          | some name => lastQuery compHash world wrlocked folderid encrypted comp name run
        else lastQuery compHash world wrlocked folderid encrypted comp name run

/-- The loop, with what it has of the component so far. -/
def walk (wrlocked : Bool) : List UInt8 → Name → ℕ → Bool → Run H → Option PathStatus × Run H
  | [], comp, folderid, encrypted, run =>
    match last compHash encoder world wrlocked folderid encrypted comp run with
    | (.status status, run) => (some status, run)
    | (_, run) => (none, run)
  | char :: rest, comp, folderid, encrypted, run =>
    if char ≠ slash then walk wrlocked rest (comp ++ [char]) folderid encrypted run
    else if comp = [] then walk wrlocked rest [] folderid encrypted run
    else
      match component compHash encoder world wrlocked folderid encrypted comp run with
      | (.status status, run) => (some status, run)
      | (.restart, run) => (none, run)
      | (.next folderid encrypted, run) => walk wrlocked rest [] folderid encrypted run

/-- `psync_path_status_drive`. Below the write lock it does not restart. -/
def pathStatusDrive (path : List UInt8) (cache : Cache H) : PathStatus × Run H :=
  let path := path.dropWhile (· = slash)
  let run : Run H := ⟨cache, []⟩
  if ¬world.hasTasks 0 then (.inSync, run)
  else if path = [] then (driveFolderLocked world 0, run)
  else match walk compHash encoder world false path [] 0 false run with
    | (some status, run) => (status, run)
    | (none, run) =>
      match walk compHash encoder world true path [] 0 false run with
      | (some status, run) => (status, run)
      | (none, run) => (.inSync, run)

end Walk

/-- The folders and files with the names that they have for the user, and what is pending. -/
structure Tree where
  folder : List (ℕ × ℕ × Name)
  file : List FileRow
  fstasks : ℕ → Option FolderTasks
  hasTasks : ℕ → Bool
  ok : Bool

/-- The name of an entry as it is stored. -/
def stored (encoders : ℕ → TextEncdec) (encrypted : ℕ → Bool) (folderid : ℕ) (name : Name) : Name :=
  if encrypted folderid then encname (encoders folderid) name else name

def FolderTasks.map (change : Name → Name) (tasks : FolderTasks) : FolderTasks where
  mkdirs := tasks.mkdirs.map change
  rmdirs := tasks.rmdirs.map change
  creats := tasks.creats.map change
  unlinks := tasks.unlinks.map change

/-- A tree some folders of which are encrypted. -/
def Tree.world (tree : Tree) (encoders : ℕ → TextEncdec) (encrypted : ℕ → Bool) : World where
  folder := tree.folder.map fun (id, parent, name) => ⟨id, parent, stored encoders encrypted parent name, encrypted id⟩
  file := tree.file.map fun row => { row with name := stored encoders encrypted row.parentfolderid row.name }
  fstasks folderid := (tree.fstasks folderid).map (FolderTasks.map (stored encoders encrypted folderid))
  hasTasks := tree.hasTasks
  ok := tree.ok

end Pclsync.Paths.Status
