import Pclsync.Fs.Resolve
/-! The three resolvers go through the same folders of a path. They agree, whatever else is pending
in these folders, exactly if none of them is an invisible one and the permissions only narrow. -/

namespace Pclsync.Proofs.Resolve
open Fs

/-- The components of a path. -/
def components (path : Name) : List Name :=
  if skipSlashes path = [] then []
  else component (skipSlashes path) :: components (behind (skipSlashes path))
termination_by path.length
decreasing_by
  apply length_behind_skipSlashes
  assumption

theorem components_slashes {path : Name} (none : skipSlashes path = []) : components path = [] := by
  rw [components, if_pos none]

section Loops
variable {Place : Type} (step : Place → Name → Except NoFolder Place)

theorem walk_components (place : Place) (path : Name) : walk step place path = (components path).foldlM step place := by
  induction place, path using walk.induct step with
  | case1 place path none => rw [walk, components, if_pos none, if_pos none]; rfl
  | case2 place path more next stepped ih =>
    rw [walk, components, if_neg more, if_neg more, List.foldlM_cons, stepped]
    exact ih
  | case3 place path more reason failed =>
    rw [walk, components, if_neg more, if_neg more, List.foldlM_cons, failed]
    rfl

variable {name : Name} (named : name ≠ []) (plain : slash ∉ name)
include named plain

theorem skipSlashes_name : skipSlashes name = name := by
  obtain ⟨byte, rest, rfl⟩ := List.exists_cons_of_ne_nil named
  have other : byte ≠ slash := fun same => plain (same ▸ List.mem_cons_self)
  rw [skipSlashes, List.dropWhile_cons_of_neg (by simpa using other)]

theorem skipSlashes_append (dir : Name) : skipSlashes (dir ++ slash :: name) =
    if skipSlashes dir = [] then name else skipSlashes dir ++ slash :: name := by
  unfold skipSlashes
  rw [List.dropWhile_append]
  simp only [List.isEmpty_iff]
  split
  · rw [List.dropWhile_cons_of_pos (by simp)]
    exact skipSlashes_name named plain
  · rfl

omit named plain in
theorem component_append (dir : Name) : component (dir ++ slash :: name) = component dir := by
  unfold component
  rw [List.takeWhile_append]
  split
  next whole =>
    rw [List.takeWhile_cons_of_neg (by simp), List.append_nil]
    exact ((List.takeWhile_prefix _).eq_of_length whole).symm
  next => rfl

omit named plain in
theorem behind_append (dir : Name) : behind (dir ++ slash :: name) = behind dir ++ slash :: name := by
  unfold behind
  rw [List.dropWhile_append]
  simp only [List.isEmpty_iff]
  split
  next none => rw [none, List.dropWhile_cons_of_neg (by simp), List.nil_append]
  next => rfl

theorem walkToLast_components (place : Place) (dir : Name) :
    walkToLast step place (dir ++ slash :: name) = (fun place => (place, name)) <$> (components dir).foldlM step place := by
  induction place, dir using walk.induct step with
  | case1 place dir none =>
    rw [walkToLast, components, if_pos none, skipSlashes_append named plain, if_pos none, if_neg named, if_pos plain]
    rfl
  | case2 place dir more next stepped ih =>
    rw [walkToLast, components, if_neg more, skipSlashes_append named plain, if_neg more, if_neg (by simp), if_neg (by simp),
      component_append, behind_append, stepped, List.foldlM_cons, stepped]
    exact ih
  | case3 place dir more reason failed =>
    rw [walkToLast, components, if_neg more, skipSlashes_append named plain, if_neg more, if_neg (by simp), if_neg (by simp),
      component_append, failed, List.foldlM_cons, failed]
    rfl

theorem components_append (dir : Name) : components (dir ++ slash :: name) = components dir ++ [name] := by
  induction dir using components.induct with
  | case1 dir none =>
    have other : ∀ byte ∈ name, decide (byte ≠ slash) = true := by
      intro byte member
      have distinct : byte ≠ slash := by
        rintro rfl
        exact plain member
      simpa using distinct
    have whole : component name = name := List.takeWhile_eq_self_iff.mpr other
    have rest : behind name = [] := List.dropWhile_eq_nil_iff.mpr other
    rw [components, skipSlashes_append named plain, if_pos none, if_neg named, whole, rest, components_slashes none,
      components_slashes rfl]
    rfl
  | case2 dir more ih =>
    rw [components, skipSlashes_append named plain, if_neg more, if_neg (by simp), component_append, behind_append, ih,
      components.eq_1 dir, if_neg more]
    rfl

end Loops

/-- The folder that a component leads to: one that is made by a pending task, or one with a row. -/
inductive Hop where
  | made (task : Mkdir)
  | stored (row : PathRow)
deriving DecidableEq

namespace Hop

def folderid : Hop → ℤ
  | .made task => task.folderid
  | .stored row => row.id

def flags : Hop → ℕ
  | .made task => task.flags
  | .stored row => row.flags

def Invisible : Hop → Prop
  | .made task => task.flags &&& flagInvisible ≠ 0
  | .stored _ => False

instance (hop : Hop) : Decidable hop.Invisible :=
  match hop with
  | .made task => inferInstanceAs (Decidable (task.flags &&& flagInvisible ≠ 0))
  | .stored _ => inferInstanceAs (Decidable False)

/-- The permissions of a row. -/
def permissions : Hop → Option (BitVec 32)
  | .made _ => none
  | .stored row => some row.permissions

end Hop

section Trail
variable (view : View)

/-- Where a component leads to from a folder. -/
def hop (folderid : ℤ) (flags : ℕ) (component : Name) : Except NoFolder Hop := do
  let ename ← view.ename folderid flags component
  match (view.folders folderid).bind (·.findMkdir ename 0), view.folder folderid ename with
  | some task, _ => .ok (.made task)
  | none, some row =>
    if ((view.folders folderid).bind (·.findRmdir ename 0)).isSome then .error .notFound else .ok (.stored row)
  | none, none => .error .notFound

/-- The folders that some components lead through, each with whether the folder it is in has tasks,
and why the walk ends early if it does. -/
def trail : ℤ → ℕ → List Name → List (Hop × Bool) × Option NoFolder
  | _, _, [] => ([], none)
  | folderid, flags, component :: rest =>
    match hop view folderid flags component with
    | .error reason => ([], some reason)
    | .ok dest =>
      let (hops, reason) := trail dest.folderid dest.flags rest
      ((dest, (view.folders folderid).isSome) :: hops, reason)

/-- What a walk makes of a trail. -/
def follow {Place : Type} (move : Place → Hop × Bool → Except NoFolder Place) (place : Place)
    (trail : List (Hop × Bool) × Option NoFolder) : Except NoFolder Place := do
  let place ← trail.1.foldlM move place
  match trail.2 with
  | some reason => .error reason
  | none => .ok place

/-- A walk whose steps look at nothing but where the component leads to. -/
theorem foldlM_trail {Place : Type} {step : Place → Name → Except NoFolder Place}
    {move : Place → Hop × Bool → Except NoFolder Place} (folderid : Place → ℤ) (flags : Place → ℕ)
    (looks : ∀ place component, step place component = (hop view (folderid place) (flags place) component).bind
      fun dest => move place (dest, (view.folders (folderid place)).isSome))
    (moves : ∀ place dest later, move place dest = .ok later → folderid later = dest.1.folderid ∧ flags later = dest.1.flags)
    (place : Place) (components : List Name) :
    components.foldlM step place = follow move place (trail view (folderid place) (flags place) components) := by
  induction components generalizing place with
  | nil => rfl
  | cons component rest ih =>
    rw [List.foldlM_cons, looks, trail]
    cases hop view (folderid place) (flags place) component with
    | error reason => rfl
    | ok dest =>
      cases moved : move place (dest, (view.folders (folderid place)).isSome) with
      | error reason => simp [follow, Except.bind, moved, bind, Except.bind]
      | ok later =>
        obtain ⟨folderids, flagss⟩ := moves place _ later moved
        have next := ih later
        rw [folderids, flagss] at next
        simp only [Except.bind, moved, bind, follow, List.foldlM_cons] at next ⊢
        exact next

def moveById (_ : ById) (dest : Hop × Bool) : Except NoFolder ById := .ok ⟨dest.1.folderid, dest.1.flags⟩

def moveByIdPerm (place : ByIdPerm) (dest : Hop × Bool) : Except NoFolder ByIdPerm :=
  .ok ⟨dest.1.folderid, dest.1.flags, dest.1.permissions.getD place.permissions⟩

/-- A row below a folder with tasks narrows the permissions, another one replaces them. -/
def narrow (permissions : BitVec 32) (dest : Hop × Bool) : BitVec 32 :=
  match dest.1.permissions with
  | none => permissions
  | some own => if dest.2 then permissions &&& own else own

def moveShare (shareid : ℕ) : Hop → ℕ
  | .made _ => shareid
  | .stored row => view.checkUserid row.userid row.id shareid

def moveResolving (place : Resolving) (dest : Hop × Bool) : Except NoFolder Resolving :=
  if dest.1.Invisible then .error .notFound
  else .ok ⟨dest.1.folderid, narrow place.permissions dest, dest.1.flags, moveShare view place.shareid dest.1⟩

theorem byPathStep_hop (place : ById) (component : Name) :
    view.byPathStep place component = (hop view place.cfolderid place.flags component).bind
      fun dest => moveById place (dest, (view.folders place.cfolderid).isSome) := by
  unfold View.byPathStep hop
  cases view.ename place.cfolderid place.flags component with
  | error reason => rfl
  | ok ename =>
    simp only [bind, Except.bind]
    cases view.folders place.cfolderid with
    | none => cases view.folder place.cfolderid ename <;> rfl
    | some folder =>
      simp only [Option.bind_some]
      cases folder.findMkdir ename 0 with
      | some task => rfl
      | none =>
        cases view.folder place.cfolderid ename with
        | none => rfl
        | some row =>
          simp only []
          split <;> rfl

theorem permByPathStep_hop (place : ByIdPerm) (component : Name) :
    view.permByPathStep place component = (hop view place.cfolderid place.flags component).bind
      fun dest => moveByIdPerm place (dest, (view.folders place.cfolderid).isSome) := by
  unfold View.permByPathStep hop
  cases view.ename place.cfolderid place.flags component with
  | error reason => rfl
  | ok ename =>
    simp only [bind, Except.bind]
    cases view.folders place.cfolderid with
    | none => cases view.folder place.cfolderid ename <;> rfl
    | some folder =>
      simp only [Option.bind_some]
      cases folder.findMkdir ename 0 with
      | some task => rfl
      | none =>
        cases view.folder place.cfolderid ename with
        | none => rfl
        | some row =>
          simp only []
          split <;> rfl

theorem resolveStep_hop (place : Resolving) (component : Name) :
    view.resolveStep place component = (hop view place.cfolderid place.flags component).bind
      fun dest => moveResolving view place (dest, (view.folders place.cfolderid).isSome) := by
  unfold View.resolveStep hop
  cases view.ename place.cfolderid place.flags component with
  | error reason => rfl
  | ok ename =>
    simp only [bind, Except.bind]
    cases view.folders place.cfolderid with
    | none => cases view.folder place.cfolderid ename <;> rfl
    | some folder =>
      simp only [Option.bind_some]
      cases folder.findMkdir ename 0 with
      | some task => rfl
      | none =>
        cases view.folder place.cfolderid ename with
        | none => rfl
        | some row =>
          simp only []
          split <;> rfl

end Trail

section Moves
variable {view : View} (hops : List (Hop × Bool))

/-- Where some folders lead to. -/
def endOf (start : ℤ × ℕ) : ℤ × ℕ := hops.foldl (fun _ dest => (dest.1.folderid, dest.1.flags)) start

/-- The permissions that the rows of some folders have. -/
def rowPermissions : List (BitVec 32) := hops.filterMap fun dest => dest.1.permissions

variable {hops} {dest : Hop × Bool}

theorem rowPermissions_made (own : dest.1.permissions = none) (rest : List (Hop × Bool)) :
    rowPermissions (dest :: rest) = rowPermissions rest := by
  simp [rowPermissions, own]

theorem rowPermissions_stored {permissions : BitVec 32} (own : dest.1.permissions = some permissions) (rest : List (Hop × Bool)) :
    rowPermissions (dest :: rest) = permissions :: rowPermissions rest := by
  simp [rowPermissions, own]

theorem rowPermissions_append (before rest : List (Hop × Bool)) :
    rowPermissions (before ++ rest) = rowPermissions before ++ rowPermissions rest :=
  List.filterMap_append ..

variable (hops)

theorem moveById_hops (place : ById) :
    hops.foldlM moveById place = .ok ⟨(endOf hops (place.cfolderid, place.flags)).1, (endOf hops (place.cfolderid, place.flags)).2⟩ := by
  induction hops generalizing place with
  | nil => rfl
  | cons dest rest ih => exact ih ⟨dest.1.folderid, dest.1.flags⟩

theorem moveByIdPerm_hops (place : ByIdPerm) :
    hops.foldlM moveByIdPerm place = .ok ⟨(endOf hops (place.cfolderid, place.flags)).1,
      (endOf hops (place.cfolderid, place.flags)).2, (rowPermissions hops).getLast?.getD place.permissions⟩ := by
  induction hops generalizing place with
  | nil => rfl
  | cons dest rest ih =>
    have next := ih ⟨dest.1.folderid, dest.1.flags, dest.1.permissions.getD place.permissions⟩
    rw [List.foldlM_cons]
    refine Eq.trans next ?_
    cases own : dest.1.permissions with
    | none => rw [rowPermissions_made own]; rfl
    | some permissions =>
      rw [rowPermissions_stored own, List.getLast?_cons]
      rfl

/-- One invisible folder ends the walk of `psync_fsfolder_resolve_path`. -/
theorem moveResolving_hops (place : Resolving) :
    hops.foldlM (moveResolving view) place =
      if ∃ dest ∈ hops, dest.1.Invisible then .error .notFound
      else .ok ⟨(endOf hops (place.cfolderid, place.flags)).1, hops.foldl narrow place.permissions,
        (endOf hops (place.cfolderid, place.flags)).2, (hops.map Prod.fst).foldl (moveShare view) place.shareid⟩ := by
  induction hops generalizing place with
  | nil => simp [endOf]; rfl
  | cons dest rest ih =>
    rw [List.foldlM_cons, moveResolving]
    by_cases invisible : dest.1.Invisible
    · rw [if_pos invisible, if_pos ⟨dest, List.mem_cons_self, invisible⟩]
      rfl
    · rw [if_neg invisible]
      refine (ih _).trans ?_
      simp only [List.exists_mem_cons_iff, invisible, false_or]
      rfl

end Moves

section Permissions
variable (hops : List (Hop × Bool))

/-- The last of some permissions is there, and within all of them and the first ones. -/
def Narrowing (permissions : List (BitVec 32)) : Prop :=
  ∃ last, permissions.getLast? = some last ∧ last &&& PSYNC_PERM_ALL = last ∧ ∀ other ∈ permissions, last &&& other = last

theorem narrow_above {hops : List (Hop × Bool)} {last start : BitVec 32} (begin : last &&& start = last)
    (within : ∀ other ∈ rowPermissions hops, last &&& other = last) : last &&& hops.foldl narrow start = last := by
  induction hops generalizing start with
  | nil => exact begin
  | cons dest rest ih =>
    rw [List.foldl_cons]
    cases own : dest.1.permissions with
    | none =>
      rw [rowPermissions_made own] at within
      refine ih ?_ within
      rw [narrow, own]
      exact begin
    | some permissions =>
      rw [rowPermissions_stored own] at within
      have below : last &&& permissions = last := within permissions List.mem_cons_self
      refine ih ?_ (fun other member => within other (List.mem_cons_of_mem _ member))
      rw [narrow, own]
      simp only []
      split
      · rw [← BitVec.and_assoc, begin, below]
      · exact below

theorem narrow_below {hops : List (Hop × Bool)} {last start : BitVec 32} (ends : (rowPermissions hops).getLast? = some last) :
    hops.foldl narrow start &&& last = hops.foldl narrow start := by
  induction hops using List.reverseRecOn with
  | nil => simp [rowPermissions] at ends
  | append_singleton before dest ih =>
    rw [List.foldl_append, List.foldl_cons, List.foldl_nil]
    rw [rowPermissions_append] at ends
    cases own : dest.1.permissions with
    | none =>
      rw [rowPermissions_made own, show rowPermissions [] = [] from rfl, List.append_nil] at ends
      rw [narrow, own]
      exact ih ends
    | some permissions =>
      rw [rowPermissions_stored own, show rowPermissions [] = [] from rfl, List.getLast?_concat] at ends
      cases ends
      rw [narrow, own]
      simp only []
      split
      · rw [BitVec.and_assoc, BitVec.and_self]
      · exact BitVec.and_self

/-- Permissions that narrow come out the same whatever folders have tasks. -/
theorem narrow_narrowing (narrowing : Narrowing (rowPermissions hops)) :
    hops.foldl narrow PSYNC_PERM_ALL = (rowPermissions hops).getLast?.getD 0 := by
  obtain ⟨last, ends, begin, within⟩ := narrowing
  have above := narrow_above begin within
  have below : hops.foldl narrow PSYNC_PERM_ALL &&& last = _ := narrow_below ends
  rw [ends, Option.getD_some, ← below, BitVec.and_comm]
  exact above

theorem foldl_and_within (start : BitVec 32) (permissions : List (BitVec 32)) :
    permissions.foldl (· &&& ·) start &&& start = permissions.foldl (· &&& ·) start ∧
      ∀ other ∈ permissions, permissions.foldl (· &&& ·) start &&& other = permissions.foldl (· &&& ·) start := by
  induction permissions generalizing start with
  | nil => exact ⟨BitVec.and_self, fun _ absent => absurd absent List.not_mem_nil⟩
  | cons own rest ih =>
    rw [List.foldl_cons]
    obtain ⟨begin, within⟩ := ih (start &&& own)
    have first : rest.foldl (· &&& ·) (start &&& own) &&& start = rest.foldl (· &&& ·) (start &&& own) := by
      rw [← begin, BitVec.and_assoc, BitVec.and_assoc, BitVec.and_comm own start, ← BitVec.and_assoc start start,
        BitVec.and_self]
    have second : rest.foldl (· &&& ·) (start &&& own) &&& own = rest.foldl (· &&& ·) (start &&& own) := by
      rw [← begin, BitVec.and_assoc, BitVec.and_assoc, BitVec.and_self]
    refine ⟨first, ?_⟩
    intro other member
    cases member with
    | head => exact second
    | tail _ member => exact within other member

/-- Where every folder has tasks, all rows narrow. -/
theorem narrow_tasks {hops : List (Hop × Bool)} (tasks : ∀ dest ∈ hops, dest.2 = true) (start : BitVec 32) :
    hops.foldl narrow start = (rowPermissions hops).foldl (· &&& ·) start := by
  induction hops generalizing start with
  | nil => rfl
  | cons dest rest ih =>
    rw [List.foldl_cons, ih (fun other member => tasks other (List.mem_cons_of_mem _ member))]
    cases own : dest.1.permissions with
    | none => rw [rowPermissions_made own, narrow, own]
    | some permissions =>
      rw [rowPermissions_stored own, List.foldl_cons, narrow, own]
      simp only [tasks dest List.mem_cons_self, if_true]

theorem narrowing_of_tasks {permissions : List (BitVec 32)}
    (same : permissions.foldl (· &&& ·) PSYNC_PERM_ALL = permissions.getLast?.getD 0) : Narrowing permissions := by
  cases ends : permissions.getLast? with
  | none =>
    rw [List.getLast?_eq_none_iff.mp ends] at same
    exact absurd same (by decide)
  | some last =>
    rw [ends, Option.getD_some] at same
    have within := foldl_and_within PSYNC_PERM_ALL permissions
    rw [same] at within
    exact ⟨last, ends, within⟩

end Permissions

section Paths
variable (view : View) (dir name : Name)

/-- The path of the folder that `dir`, a slash and a name are in. -/
def parentPath : Name := if dir = [] then [slash] else dir

/-- The folders that the path of a parent leads through. -/
def passed : List (Hop × Bool) × Option NoFolder := trail view 0 0 (components dir)

/-- The name as the result has it. -/
def lastName (folder : ℤ × ℕ) : Except NoFolder Name :=
  if folder.2 &&& flagEncrypted ≠ 0 ∧ ¬view.fakePrefix <+: name then
    match view.encode folder.1 name with
    | none => .error .cryptoError
    | some encname => .ok encname
  else .ok name

theorem retFolderData_lastName (folder : ℤ × ℕ) (permissions : BitVec 32) (shareid : ℕ) :
    view.retFolderData folder.1 name permissions folder.2 shareid =
      (lastName view name folder).map fun stored => ⟨folder.1, stored, permissions, folder.2, shareid⟩ := by
  unfold View.retFolderData lastName
  split
  · cases view.encode folder.1 name <;> rfl
  · rfl

theorem components_parentPath : components (parentPath dir) = components dir := by
  unfold parentPath
  split
  next top =>
    rw [top, components_slashes rfl, components_slashes rfl]
  next => rfl

theorem head_parentPath : (parentPath dir).head? = (dir ++ slash :: name).head? := by
  unfold parentPath
  cases dir with
  | nil => rfl
  | cons byte rest => rfl

/-- What `psync_fsfolder_resolve_path` returns, but for the permissions. -/
def outcome (permissions : BitVec 32) : Except NoFolder FsPath :=
  if ∃ dest ∈ (passed view dir).1, dest.1.Invisible then .error .notFound
  else
    match (passed view dir).2 with
    | some reason => .error reason
    | none => (lastName view name (endOf (passed view dir).1 (0, 0))).map fun stored =>
        ⟨(endOf (passed view dir).1 (0, 0)).1, stored, permissions, (endOf (passed view dir).1 (0, 0)).2,
          ((passed view dir).1.map Prod.fst).foldl (moveShare view) 0⟩

variable {dir}

theorem folderidByPath_passed (absolute : (parentPath dir).head? = some slash) :
    view.folderidByPath (parentPath dir) =
      match (passed view dir).2 with
      | some reason => .error reason
      | none => .ok ⟨(endOf (passed view dir).1 (0, 0)).1, (endOf (passed view dir).1 (0, 0)).2⟩ := by
  rw [View.folderidByPath, if_neg (not_not.mpr absolute), walk_components, components_parentPath,
    foldlM_trail view ById.cfolderid ById.flags (byPathStep_hop view) (by rintro place dest later ⟨⟩; exact ⟨rfl, rfl⟩),
    follow, moveById_hops]
  rfl

theorem folderidpermByPath_passed (absolute : (parentPath dir).head? = some slash) :
    view.folderidpermByPath (parentPath dir) =
      match (passed view dir).2 with
      | some reason => .error reason
      | none => .ok ⟨(endOf (passed view dir).1 (0, 0)).1, (endOf (passed view dir).1 (0, 0)).2,
          (rowPermissions (passed view dir).1).getLast?.getD 0⟩ := by
  rw [View.folderidpermByPath, if_neg (not_not.mpr absolute), walk_components, components_parentPath,
    foldlM_trail view ByIdPerm.cfolderid ByIdPerm.flags (permByPathStep_hop view) (by rintro place dest later ⟨⟩; exact ⟨rfl, rfl⟩),
    follow, moveByIdPerm_hops]
  rfl

theorem moveResolving_moves (place : Resolving) (dest : Hop × Bool) (later : Resolving)
    (moved : moveResolving view place dest = .ok later) : later.cfolderid = dest.1.folderid ∧ later.flags = dest.1.flags := by
  unfold moveResolving at moved
  split at moved
  · cases moved
  · cases moved
    exact ⟨rfl, rfl⟩

variable {name} (named : name ≠ []) (plain : slash ∉ name)
include named plain

theorem resolvePath_passed (absolute : (dir ++ slash :: name).head? = some slash) :
    view.resolvePath (dir ++ slash :: name) = outcome view dir name ((passed view dir).1.foldl narrow PSYNC_PERM_ALL) := by
  rw [View.resolvePath, if_neg (not_not.mpr absolute), walkToLast_components _ named plain,
    foldlM_trail view Resolving.cfolderid Resolving.flags (resolveStep_hop view) (moveResolving_moves view), follow,
    moveResolving_hops, outcome]
  by_cases invisible : ∃ dest ∈ (passed view dir).1, dest.1.Invisible
  · rw [if_pos invisible]
    simp only [passed] at invisible
    rw [if_pos invisible]
    rfl
  · rw [if_neg invisible]
    simp only [passed] at invisible ⊢
    rw [if_neg invisible]
    simp only [bind, Except.bind]
    cases (trail view 0 0 (components dir)).2 with
    | some reason => rfl
    | none => exact retFolderData_lastName view name _ _ _

end Paths

section Added

/-- One more task, of a name that is allowed. -/
inductive Added (allowed : Name → Prop) (tasks : FolderTasks) : FolderTasks → Prop where
  | mkdir (task : Mkdir) : allowed task.name → Added allowed tasks (tasks.addMkdir task)
  | rmdir (task : Rmdir) : allowed task.name → Added allowed tasks (tasks.addRmdir task)
  | creat (task : Creat) : allowed task.name → Added allowed tasks (tasks.addCreat task)
  | unlink (task : Unlink) : allowed task.name → Added allowed tasks (tasks.addUnlink task)

/-- A name that is not on the path, in a folder. -/
def OffPath (view : View) (path : Name) (folderid : ℤ) (name : Name) : Prop :=
  ∀ component ∈ components path, name ≠ component ∧ view.encode folderid component ≠ some name

/-- Folders with more tasks than before, all of names that are not on the path. -/
def Adds (view : View) (path : Name) (folders : ℤ → Option FolderTasks) : Prop :=
  ∀ folderid, folders folderid = view.folders folderid ∨ ∃ tasks, folders folderid = some tasks ∧
    Relation.TransGen (Added (OffPath view path folderid)) ((view.folders folderid).getD .empty) tasks

theorem searchTree_insert {α : Type} [Entry α] {name : Name} {element : α} (other : Entry.name element ≠ name) (tree : List α) :
    searchTree name 0 (insertIntoTree element tree) = searchTree name 0 tree := by
  have passes : wanted name 0 element = false := by simp [wanted, other]
  unfold searchTree
  induction tree with
  | nil => simp [insertIntoTree, passes]
  | cons node rest ih =>
    unfold insertIntoTree
    split
    · rw [List.find?_cons, passes]
    · rw [List.find?_cons, List.find?_cons, ih]

variable {allowed : Name → Prop} {tasks later : FolderTasks} {name : Name}

theorem Added.finds (added : Added allowed tasks later) (refused : ¬allowed name) :
    later.findMkdir name 0 = tasks.findMkdir name 0 ∧ later.findRmdir name 0 = tasks.findRmdir name 0 := by
  have differs {other : Name} (free : allowed other) : other ≠ name := by
    rintro rfl
    exact refused free
  cases added with
  | mkdir task free => exact ⟨searchTree_insert (differs free) _, rfl⟩
  | rmdir task free => exact ⟨rfl, searchTree_insert (differs free) _⟩
  | creat task free => exact ⟨rfl, rfl⟩
  | unlink task free => exact ⟨rfl, rfl⟩

theorem finds_added (added : Relation.TransGen (Added allowed) tasks later) (refused : ¬allowed name) :
    later.findMkdir name 0 = tasks.findMkdir name 0 ∧ later.findRmdir name 0 = tasks.findRmdir name 0 := by
  induction added with
  | single first => exact first.finds refused
  | tail _ last ih =>
    obtain ⟨mkdir, rmdir⟩ := last.finds refused
    exact ⟨mkdir.trans ih.1, rmdir.trans ih.2⟩

variable {view : View} {path : Name} {folders : ℤ → Option FolderTasks}

theorem Adds.finds (adds : Adds view path folders) (folderid : ℤ) (refused : ¬OffPath view path folderid name) :
    (folders folderid).bind (·.findMkdir name 0) = (view.folders folderid).bind (·.findMkdir name 0) ∧
      (folders folderid).bind (·.findRmdir name 0) = (view.folders folderid).bind (·.findRmdir name 0) := by
  obtain same | ⟨tasks, there, added⟩ := adds folderid
  · rw [same]
    exact ⟨rfl, rfl⟩
  · have finds := finds_added added refused
    rw [there]
    cases before : view.folders folderid with
    | none => rwa [before] at finds
    | some tasks => rwa [before] at finds

/-- The components lead to the same folders. -/
theorem hop_adds (adds : Adds view path folders) (folderid : ℤ) (flags : ℕ) {component : Name}
    (member : component ∈ components path) :
    hop { view with folders := folders } folderid flags component = hop view folderid flags component := by
  unfold hop
  have same : View.ename { view with folders := folders } folderid flags component = view.ename folderid flags component := rfl
  rw [same]
  cases encoded : view.ename folderid flags component with
  | error reason => rfl
  | ok ename =>
    have refused : ¬OffPath view path folderid ename := by
      intro off
      obtain ⟨plain, crypted⟩ := off component member
      unfold View.ename at encoded
      split at encoded
      · split at encoded
        · cases encoded
        next stored =>
          cases encoded
          exact crypted stored
      · cases encoded
        exact plain rfl
    obtain ⟨mkdir, rmdir⟩ := adds.finds folderid refused
    simp only [bind, Except.bind]
    rw [mkdir, rmdir]

theorem trail_adds (adds : Adds view path folders) (folderid : ℤ) (flags : ℕ) {some : List Name}
    (within : ∀ component ∈ some, component ∈ components path) :
    (trail { view with folders := folders } folderid flags some).1.map Prod.fst = (trail view folderid flags some).1.map Prod.fst ∧
      (trail { view with folders := folders } folderid flags some).2 = (trail view folderid flags some).2 := by
  induction some generalizing folderid flags with
  | nil => exact ⟨rfl, rfl⟩
  | cons component rest ih =>
    rw [trail, trail, hop_adds adds folderid flags (within component List.mem_cons_self)]
    cases hop view folderid flags component with
    | error reason => exact ⟨rfl, rfl⟩
    | ok dest =>
      obtain ⟨hops, reason⟩ := ih dest.folderid dest.flags (fun other member => within other (List.mem_cons_of_mem _ member))
      exact ⟨congrArg (dest :: ·) hops, reason⟩

/-- In every folder there can be a task that has nothing to do with the path. -/
theorem exists_off (view : View) (path : Name) (folderid : ℤ) : ∃ name, OffPath view path folderid name := by
  classical
  obtain ⟨name, off⟩ := Infinite.exists_notMem_finset
    ((components path).flatMap fun component => component :: (view.encode folderid component).toList).toFinset
  refine ⟨name, ?_⟩
  intro component member
  simp only [List.mem_toFinset, List.mem_flatMap, List.mem_cons, Option.mem_toList, not_exists, not_and, not_or] at off
  exact off component member

theorem exists_adds (view : View) (path : Name) :
    ∃ folders, Adds view path folders ∧ ∀ folderid, (folders folderid).isSome = true := by
  choose name off using exists_off view path
  refine ⟨fun folderid => some (((view.folders folderid).getD .empty).addMkdir ⟨name folderid, 0, 0, 0⟩), ?_, fun _ => rfl⟩
  intro folderid
  exact .inr ⟨_, rfl, .single (.mkdir _ (off folderid))⟩

theorem trail_tasks (there : ∀ folderid, (view.folders folderid).isSome = true) (folderid : ℤ) (flags : ℕ) (some : List Name) :
    ∀ dest ∈ (trail view folderid flags some).1, dest.2 = true := by
  induction some generalizing folderid flags with
  | nil => exact fun _ absent => absurd absent List.not_mem_nil
  | cons component rest ih =>
    rw [trail]
    cases hop view folderid flags component with
    | error reason => exact fun _ absent => absurd absent List.not_mem_nil
    | ok dest =>
      intro other member
      cases member with
      | head => exact there folderid
      | tail _ member => exact ih dest.folderid dest.flags other member

end Added

/-- What only depends on where the components lead to. -/
theorem same_dests {hops others : List (Hop × Bool)} (same : hops.map Prod.fst = others.map Prod.fst) :
    endOf hops = endOf others ∧ rowPermissions hops = rowPermissions others ∧
      ((∃ dest ∈ hops, dest.1.Invisible) ↔ ∃ dest ∈ others, dest.1.Invisible) := by
  refine ⟨?_, ?_, ?_⟩
  · have ends (some : List (Hop × Bool)) (start : ℤ × ℕ) :
        endOf some start = (some.map Prod.fst).foldl (fun _ dest => (dest.folderid, dest.flags)) start := by
      rw [List.foldl_map]
      rfl
    funext start
    rw [ends, ends, same]
  · have rows (some : List (Hop × Bool)) : rowPermissions some = (some.map Prod.fst).filterMap Hop.permissions := by
      rw [List.filterMap_map]
      rfl
    rw [rows, rows, same]
  · have invisible (some : List (Hop × Bool)) :
        (∃ dest ∈ some, dest.1.Invisible) ↔ ∃ dest ∈ some.map Prod.fst, dest.Invisible := by
      simp
    rw [invisible, invisible, same]

section Claims
variable (view : View) (dir name : Name)

/-- The functions say the same of a path's parent. -/
def Agree : Prop :=
  match view.resolvePath (dir ++ slash :: name) with
  | .ok found => view.folderidByPath (parentPath dir) = .ok ⟨found.folderid, found.flags⟩ ∧
      view.folderidpermByPath (parentPath dir) = .ok ⟨found.folderid, found.flags, found.permissions⟩
  | .error .notFound => view.folderidByPath (parentPath dir) = .error .notFound ∧
      view.folderidpermByPath (parentPath dir) = .error .notFound
  | .error .cryptoError => view.folderidByPath (parentPath dir) ≠ .error .notFound ∧
      view.folderidpermByPath (parentPath dir) ≠ .error .notFound

/-- What they say is the same with more tasks of names that are not on the path. -/
def Stable : Prop :=
  ∀ folders, Adds view (dir ++ slash :: name) folders →
    View.resolvePath { view with folders := folders } (dir ++ slash :: name) = view.resolvePath (dir ++ slash :: name) ∧
    View.folderidByPath { view with folders := folders } (parentPath dir) = view.folderidByPath (parentPath dir) ∧
    View.folderidpermByPath { view with folders := folders } (parentPath dir) = view.folderidpermByPath (parentPath dir)

/-- A component of the parent is not found, or no folder on the way is invisible, and the rows on
the way, if they matter because there is a result, have permissions that narrow to the last. -/
def Regular : Prop :=
  (dir ++ slash :: name).head? = some slash → (passed view dir).2 ≠ some .notFound →
    (¬∃ dest ∈ (passed view dir).1, dest.1.Invisible) ∧
    ((passed view dir).2 = none → lastName view name (endOf (passed view dir).1 (0, 0)) ≠ .error .cryptoError →
      Narrowing (rowPermissions (passed view dir).1))

variable {view dir name}

theorem lastName_ne_notFound (folder : ℤ × ℕ) : lastName view name folder ≠ .error .notFound := by
  unfold lastName
  split
  · split
    · exact fun same => by cases same
    · exact fun same => by cases same
  · exact fun same => by cases same

theorem relative_notFound (relative : (dir ++ slash :: name).head? ≠ some slash) :
    view.resolvePath (dir ++ slash :: name) = .error .notFound ∧ view.folderidByPath (parentPath dir) = .error .notFound ∧
      view.folderidpermByPath (parentPath dir) = .error .notFound := by
  have above : (parentPath dir).head? ≠ some slash := by rwa [head_parentPath dir name]
  exact ⟨if_pos relative, if_pos above, if_pos above⟩

section Adds
variable {folders : ℤ → Option FolderTasks} (named : name ≠ []) (plain : slash ∉ name)
  (adds : Adds view (dir ++ slash :: name) folders)
include named plain adds

theorem passed_adds :
    (passed { view with folders := folders } dir).1.map Prod.fst = (passed view dir).1.map Prod.fst ∧
      (passed { view with folders := folders } dir).2 = (passed view dir).2 := by
  apply trail_adds adds
  intro component member
  rw [components_append named plain]
  exact List.mem_append_left _ member

theorem folderidByPath_adds :
    View.folderidByPath { view with folders := folders } (parentPath dir) = view.folderidByPath (parentPath dir) := by
  by_cases absolute : (parentPath dir).head? = some slash
  · obtain ⟨dests, reason⟩ := passed_adds named plain adds
    rw [folderidByPath_passed _ absolute, folderidByPath_passed _ absolute, reason, (same_dests dests).1]
  · exact (if_pos absolute).trans (if_pos absolute).symm

theorem folderidpermByPath_adds :
    View.folderidpermByPath { view with folders := folders } (parentPath dir) = view.folderidpermByPath (parentPath dir) := by
  by_cases absolute : (parentPath dir).head? = some slash
  · obtain ⟨dests, reason⟩ := passed_adds named plain adds
    rw [folderidpermByPath_passed _ absolute, folderidpermByPath_passed _ absolute, reason, (same_dests dests).1,
      (same_dests dests).2.1]
  · exact (if_pos absolute).trans (if_pos absolute).symm

/-- More tasks only change which rows narrow the permissions. -/
theorem resolvePath_adds (absolute : (dir ++ slash :: name).head? = some slash) :
    View.resolvePath { view with folders := folders } (dir ++ slash :: name) =
      outcome view dir name ((passed { view with folders := folders } dir).1.foldl narrow PSYNC_PERM_ALL) := by
  obtain ⟨dests, reason⟩ := passed_adds named plain adds
  rw [resolvePath_passed _ named plain absolute, outcome, outcome, reason, (same_dests dests).1, dests]
  simp only [(same_dests dests).2.2]
  rfl

/-- The permissions that rows on the way have do not depend on the tasks. -/
theorem narrow_adds (narrowing : Narrowing (rowPermissions (passed view dir).1)) :
    (passed { view with folders := folders } dir).1.foldl narrow PSYNC_PERM_ALL = (passed view dir).1.foldl narrow PSYNC_PERM_ALL := by
  have rows := (same_dests (passed_adds named plain adds).1).2.1
  rw [narrow_narrowing _ narrowing, narrow_narrowing _ (by rwa [rows]), rows]

end Adds

theorem regular_holds (named : name ≠ []) (plain : slash ∉ name) (regular : Regular view dir name) :
    Agree view dir name ∧ Stable view dir name := by
  by_cases relative : (dir ++ slash :: name).head? ≠ some slash
  · obtain ⟨resolve, byPath, perm⟩ : view.resolvePath (dir ++ slash :: name) = _ ∧ _ ∧ _ := relative_notFound relative
    refine ⟨?_, ?_⟩
    · rw [Agree, resolve]
      exact ⟨byPath, perm⟩
    · intro folders adds
      refine ⟨?_, folderidByPath_adds named plain adds, folderidpermByPath_adds named plain adds⟩
      rw [resolve]
      exact (relative_notFound relative).1
  have absolute : (dir ++ slash :: name).head? = some slash := not_not.mp relative
  have above : (parentPath dir).head? = some slash := by rwa [head_parentPath dir name]
  have resolve := resolvePath_passed view named plain absolute
  unfold outcome at resolve
  have byPath := folderidByPath_passed view above
  have perm := folderidpermByPath_passed view above
  have stable (unchanged : ∀ folders, Adds view (dir ++ slash :: name) folders →
      outcome view dir name ((passed { view with folders := folders } dir).1.foldl narrow PSYNC_PERM_ALL) =
        outcome view dir name ((passed view dir).1.foldl narrow PSYNC_PERM_ALL)) : Stable view dir name := by
    intro folders adds
    refine ⟨?_, folderidByPath_adds named plain adds, folderidpermByPath_adds named plain adds⟩
    rw [resolvePath_adds named plain adds absolute, unchanged folders adds, resolvePath_passed view named plain absolute]
  cases ended : (passed view dir).2 with
  | some reason =>
    refine ⟨?_, stable (fun folders adds => by simp only [outcome, ended])⟩
    simp only [ended] at resolve byPath perm
    cases reason with
    | notFound =>
      rw [ite_self] at resolve
      rw [Agree, resolve]
      exact ⟨byPath, perm⟩
    | cryptoError =>
      obtain ⟨visible, _⟩ := regular absolute (by simp [ended])
      rw [if_neg visible] at resolve
      rw [Agree, resolve, byPath, perm]
      exact ⟨by simp, by simp⟩
  | none =>
    obtain ⟨visible, narrows⟩ := regular absolute (by simp [ended])
    simp only [ended, if_neg visible] at resolve byPath perm
    cases last : lastName view name (endOf (passed view dir).1 (0, 0)) with
    | error reason =>
      refine ⟨?_, stable (fun folders adds => by simp only [outcome, ended, last]; rfl)⟩
      rw [last] at resolve
      have crypto : reason = .cryptoError := by
        cases reason with
        | notFound => exact absurd last (lastName_ne_notFound _)
        | cryptoError => rfl
      subst crypto
      rw [Agree, resolve, byPath, perm]
      exact ⟨by simp, by simp⟩
    | ok stored =>
      have narrowing := narrows ended (by rw [last]; exact fun same => by cases same)
      refine ⟨?_, stable (fun folders adds => by rw [narrow_adds named plain adds narrowing])⟩
      rw [last] at resolve
      rw [Agree, resolve]
      refine ⟨byPath, ?_⟩
      rw [perm, ← narrow_narrowing _ narrowing]

theorem regular_of_holds (named : name ≠ []) (plain : slash ∉ name) (agree : Agree view dir name) (stable : Stable view dir name) :
    Regular view dir name := by
  intro absolute found
  have above : (parentPath dir).head? = some slash := by rwa [head_parentPath dir name]
  have resolve := resolvePath_passed view named plain absolute
  have byPath := folderidByPath_passed view above
  have perm := folderidpermByPath_passed view above
  have visible : ¬∃ dest ∈ (passed view dir).1, dest.1.Invisible := by
    intro invisible
    rw [outcome, if_pos invisible] at resolve
    rw [Agree, resolve, byPath] at agree
    cases ended : (passed view dir).2 with
    | some reason =>
      rw [ended] at agree found
      cases agree.1
      exact found rfl
    | none =>
      rw [ended] at agree
      cases agree.1
  refine ⟨visible, ?_⟩
  intro ended encoded
  cases last : lastName view name (endOf (passed view dir).1 (0, 0)) with
  | error reason =>
    cases reason with
    | notFound => exact absurd last (lastName_ne_notFound _)
    | cryptoError => exact absurd last encoded
  | ok stored =>
    have returned (permissions : BitVec 32) : outcome view dir name permissions =
        .ok ⟨(endOf (passed view dir).1 (0, 0)).1, stored, permissions, (endOf (passed view dir).1 (0, 0)).2,
          ((passed view dir).1.map Prod.fst).foldl (moveShare view) 0⟩ := by
      simp only [outcome, if_neg visible, ended, last]
      rfl
    rw [returned] at resolve
    simp only [ended] at perm
    rw [Agree, resolve, perm] at agree
    have permissions : (rowPermissions (passed view dir).1).getLast?.getD 0 = (passed view dir).1.foldl narrow PSYNC_PERM_ALL :=
      congrArg ByIdPerm.permissions (Except.ok.inj agree.2)
    -- With a task in every folder, all rows on the way narrow.
    obtain ⟨folders, adds, there⟩ := exists_adds view (dir ++ slash :: name)
    have later := (stable folders adds).1
    rw [resolvePath_adds named plain adds absolute, returned, resolve] at later
    have unchanged : (passed { view with folders := folders } dir).1.foldl narrow PSYNC_PERM_ALL =
        (passed view dir).1.foldl narrow PSYNC_PERM_ALL :=
      congrArg FsPath.permissions (Except.ok.inj later)
    have all : ∀ dest ∈ (passed { view with folders := folders } dir).1, dest.2 = true := trail_tasks there 0 0 _
    rw [narrow_tasks all, (same_dests (passed_adds named plain adds).1).2.1, ← permissions] at unchanged
    exact narrowing_of_tasks unchanged

/-- The resolvers agree on the parent of a path, whatever is pending beside the path, if and only
if the folders on the way are visible and their permissions narrow. -/
theorem resolvers_agree (named : name ≠ []) (plain : slash ∉ name) :
    (Agree view dir name ∧ Stable view dir name) ↔ Regular view dir name :=
  ⟨fun holds => regular_of_holds named plain holds.1 holds.2, regular_holds named plain⟩

/-- A folder with another in it, which may be written while the first may only be read. -/
def nested : View where
  folder := fun folderid name =>
    if folderid = 0 ∧ name = [97] then some ⟨1, 1, 0, 0⟩
    else if folderid = 1 ∧ name = [98] then some ⟨2, 15, 0, 0⟩
    else none
  folders := fun _ => none
  encode := fun _ _ => none
  sharedfolder := fun _ _ => none
  myUserid := 0
  fakePrefix := [46]

theorem resolvers_agree_nested :
    (Agree nested [47, 97, 47, 98] [99] ∧ Stable nested [47, 97, 47, 98] [99]) ↔ Regular nested [47, 97, 47, 98] [99] :=
  resolvers_agree (by decide) (by decide)

/-- A file is made beside the inner folder. -/
def beside (folderid : ℤ) : Option FolderTasks :=
  if folderid = 1 then some (FolderTasks.empty.addCreat ⟨[100], -1, 0, 1⟩) else none

theorem components_nested : components [47, 97, 47, 98] = [[97], [98]] := by
  simp [components, skipSlashes, component, behind, slash]

/-- The permissions for a file in the inner folder change with it, and those of the other function
do not. -/
theorem beside_narrows :
    Adds nested [47, 97, 47, 98, 47, 99] beside ∧
      nested.resolvePath [47, 97, 47, 98, 47, 99] = .ok ⟨2, [99], 15, 0, 0⟩ ∧
      View.resolvePath { nested with folders := beside } [47, 97, 47, 98, 47, 99] = .ok ⟨2, [99], 1, 0, 0⟩ ∧
      View.folderidpermByPath { nested with folders := beside } [47, 97, 47, 98] = .ok ⟨2, 0, 15⟩ ∧
      ¬Stable nested [47, 97, 47, 98] [99] := by
  have adds : Adds nested [47, 97, 47, 98, 47, 99] beside := by
    intro folderid
    by_cases inner : folderid = 1
    · refine .inr ⟨_, if_pos inner, .single (.creat _ ?_)⟩
      intro component member
      rw [show ([47, 97, 47, 98, 47, 99] : Name) = [47, 97, 47, 98] ++ slash :: [99] from rfl,
        components_append (by decide) (by decide), components_nested] at member
      refine ⟨?_, fun encoded => by cases encoded⟩
      rintro rfl
      exact absurd member (by decide)
    · exact .inl (if_neg inner)
  have before : nested.resolvePath [47, 97, 47, 98, 47, 99] = .ok ⟨2, [99], 15, 0, 0⟩ := by
    refine (resolvePath_passed nested (by decide) (by decide)
      (show (([47, 97, 47, 98] : Name) ++ slash :: [99]).head? = some slash from rfl)).trans ?_
    rw [outcome, passed, components_nested]
    decide
  have later : View.resolvePath { nested with folders := beside } [47, 97, 47, 98, 47, 99] = .ok ⟨2, [99], 1, 0, 0⟩ := by
    refine (resolvePath_passed _ (by decide) (by decide)
      (show (([47, 97, 47, 98] : Name) ++ slash :: [99]).head? = some slash from rfl)).trans ?_
    rw [outcome, passed, components_nested]
    decide
  have perm : View.folderidpermByPath { nested with folders := beside } [47, 97, 47, 98] = .ok ⟨2, 0, 15⟩ := by
    refine (folderidpermByPath_passed _ (show (parentPath [47, 97, 47, 98]).head? = some slash from rfl)).trans ?_
    rw [passed, components_nested]
    decide
  refine ⟨adds, before, later, perm, ?_⟩
  intro stable
  have same := (stable beside adds).1
  rw [show [47, 97, 47, 98] ++ slash :: [99] = ([47, 97, 47, 98, 47, 99] : Name) from rfl, before, later] at same
  exact absurd same (by decide)

end Claims

end Pclsync.Proofs.Resolve
