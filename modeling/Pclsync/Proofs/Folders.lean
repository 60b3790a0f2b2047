import Pclsync.Fs.Folder

/-! The counts of folders. `Counted` says that the counts of every folder are right
for a list of references that are out, and each way to get, change and release a
folder keeps it. -/

namespace Pclsync.Proofs.Folders
open Pclsync.Fs

section Trees
variable {α : Type} [Entry α] {element entry : α} {name : Name} {taskid : ℕ} {tree : List α}

theorem mem_insertIntoTree : entry ∈ insertIntoTree element tree ↔ entry = element ∨ entry ∈ tree := by
  induction tree with
  | nil => simp [insertIntoTree]
  | cons node rest ih =>
    rw [insertIntoTree]
    split
    · exact List.mem_cons
    · rw [List.mem_cons, ih, List.mem_cons]
      tauto

@[simp] theorem length_insertIntoTree : (insertIntoTree element tree).length = tree.length + 1 := by
  induction tree with
  | nil => rfl
  | cons node rest ih =>
    rw [insertIntoTree]
    split
    · rfl
    · rw [List.length_cons, ih, List.length_cons]

theorem mem_of_mem_deleteFromTree (member : entry ∈ deleteFromTree name taskid tree) : entry ∈ tree :=
  List.mem_of_mem_eraseP member

theorem mem_of_searchTree (found : searchTree name taskid tree = some entry) : entry ∈ tree :=
  List.mem_of_find?_eq_some found

theorem deleteFromTree_absent (absent : searchTree name taskid tree = none) :
    deleteFromTree name taskid tree = tree :=
  List.eraseP_of_forall_not (List.find?_eq_none.mp absent)

theorem length_deleteFromTree (present : (searchTree name taskid tree).isSome = true) :
    ((deleteFromTree name taskid tree).length : ℤ) = tree.length - 1 := by
  obtain ⟨found, same⟩ := Option.isSome_iff_exists.mp present
  have member := mem_of_searchTree same
  have matched : wanted name taskid found = true := List.find?_some same
  have length := List.length_eraseP_of_mem member matched
  have positive := List.length_pos_of_mem member
  rw [deleteFromTree, length]
  omega

end Trees

section Count
variable {tasks : FolderTasks} {name : Name} {taskid : ℕ}

theorem count_addMkdir (task : Mkdir) : (tasks.addMkdir task).count = tasks.count + 1 := by
  simp only [FolderTasks.addMkdir, FolderTasks.count, length_insertIntoTree]
  omega

theorem count_addRmdir (task : Rmdir) : (tasks.addRmdir task).count = tasks.count + 1 := by
  simp only [FolderTasks.addRmdir, FolderTasks.count, length_insertIntoTree]
  omega

theorem count_addCreat (task : Creat) : (tasks.addCreat task).count = tasks.count + 1 := by
  simp only [FolderTasks.addCreat, FolderTasks.count, length_insertIntoTree]
  omega

theorem count_addUnlink (task : Unlink) : (tasks.addUnlink task).count = tasks.count + 1 := by
  simp only [FolderTasks.addUnlink, FolderTasks.count, length_insertIntoTree]
  omega

theorem count_delMkdir (present : (tasks.findMkdir name taskid).isSome = true) :
    (tasks.delMkdir name taskid).count = tasks.count - 1 := by
  simp only [FolderTasks.delMkdir, FolderTasks.count, length_deleteFromTree present]
  omega

theorem count_delRmdir (present : (tasks.findRmdir name taskid).isSome = true) :
    (tasks.delRmdir name taskid).count = tasks.count - 1 := by
  simp only [FolderTasks.delRmdir, FolderTasks.count, length_deleteFromTree present]
  omega

theorem count_delCreat (present : (tasks.findCreat name taskid).isSome = true) :
    (tasks.delCreat name taskid).count = tasks.count - 1 := by
  simp only [FolderTasks.delCreat, FolderTasks.count, length_deleteFromTree present]
  omega

theorem count_delUnlink (present : (tasks.findUnlink name taskid).isSome = true) :
    (tasks.delUnlink name taskid).count = tasks.count - 1 := by
  simp only [FolderTasks.delUnlink, FolderTasks.count, length_deleteFromTree present]
  omega

/-- Only an empty folder has no entries. -/
theorem eq_empty (none : tasks.count = 0) : tasks = .empty := by
  obtain ⟨mkdirs, rmdirs, creats, unlinks⟩ := tasks
  simp only [FolderTasks.count] at none
  rw [FolderTasks.empty, FolderTasks.mk.injEq, ← List.length_eq_zero_iff, ← List.length_eq_zero_iff,
    ← List.length_eq_zero_iff, ← List.length_eq_zero_iff]
  omega

end Count

/-- A change of a folder that keeps its identity and its references. -/
structure Kept (change : Folder → Folder) : Prop where
  addr : ∀ folder, (change folder).addr = folder.addr
  refcnt : ∀ folder, (change folder).refcnt = folder.refcnt

/-- It also keeps the count of tasks in step with the trees. -/
structure Balanced (change : Folder → Folder) : Prop extends Kept change where
  taskscnt : ∀ folder, (change folder).taskscnt - (change folder).tasks.count = folder.taskscnt - folder.tasks.count

namespace Balanced
variable {change next : Folder → Folder} (name : Name) (taskid : ℕ)

theorem comp (outer : Balanced next) (inner : Balanced change) : Balanced fun folder => next (change folder) where
  addr folder := by rw [outer.addr, inner.addr]
  refcnt folder := by rw [outer.refcnt, inner.refcnt]
  taskscnt folder := by rw [outer.taskscnt, inner.taskscnt]

theorem put {add : FolderTasks → FolderTasks} (one : ∀ tasks : FolderTasks, (add tasks).count = tasks.count + 1) :
    Balanced (Folder.put add) where
  addr _ := rfl
  refcnt _ := rfl
  taskscnt folder := by
    simp only [Folder.put, Folder.change, Folder.addCount, one]
    omega

theorem take {present : FolderTasks → Bool} {del : FolderTasks → FolderTasks}
    (one : ∀ tasks : FolderTasks, present tasks = true → (del tasks).count = tasks.count - 1) :
    Balanced (Folder.take present del) where
  addr folder := by rw [Folder.take]; split <;> rfl
  refcnt folder := by rw [Folder.take]; split <;> rfl
  taskscnt folder := by
    rw [Folder.take]
    split
    · next found =>
      simp only [Folder.change, Folder.addCount, one _ found]
      omega
    · rfl

/-- A change of the trees that keeps how many entries there are. -/
theorem trees {edit : FolderTasks → FolderTasks}
    (same : ∀ tasks : FolderTasks, (edit tasks).count = tasks.count) : Balanced (·.change edit) where
  addr _ := rfl
  refcnt _ := rfl
  taskscnt folder := by simp only [Folder.change, same]

theorem putMkdir (task : Mkdir) : Balanced (·.putMkdir task) := put fun _ => count_addMkdir task
theorem putRmdir (task : Rmdir) : Balanced (·.putRmdir task) := put fun _ => count_addRmdir task
theorem putCreat (task : Creat) : Balanced (·.putCreat task) := put fun _ => count_addCreat task
theorem putUnlink (task : Unlink) : Balanced (·.putUnlink task) := put fun _ => count_addUnlink task
theorem takeMkdir : Balanced (·.takeMkdir name taskid) := take fun _ => count_delMkdir
theorem takeRmdir : Balanced (·.takeRmdir name taskid) := take fun _ => count_delRmdir
theorem takeCreat : Balanced (·.takeCreat name taskid) := take fun _ => count_delCreat
theorem takeUnlink : Balanced (·.takeUnlink name taskid) := take fun _ => count_delUnlink

end Balanced

/-- The counts of references are right when `refs` are those that are out, and a
folder without tasks and references is not in the tree. -/
structure Linked (refs : List ℕ) (state : Folders) : Prop where
  addrs : (state.folders.map (·.addr)).Nodup
  fresh : ∀ folder ∈ state.folders, folder.addr < state.next
  held : ∀ addr ∈ refs, ∃ folder ∈ state.folders, folder.addr = addr
  refcnt : ∀ folder ∈ state.folders, folder.refcnt = refs.count folder.addr
  alive : ∀ folder ∈ state.folders, folder.refcnt ≠ 0 ∨ folder.taskscnt ≠ 0

/-- Also the counts of tasks are right, and only empty folders were freed. -/
structure Counted (refs : List ℕ) (state : Folders) : Prop extends Linked refs state where
  taskscnt : ∀ folder ∈ state.folders, folder.taskscnt = folder.tasks.count
  freed : ∀ folder ∈ state.freed, folder.refcnt = 0 ∧ folder.tasks = .empty

section Pointers
variable {state : Folders} {refs : List ℕ} {addr : ℕ} {folder : Folder} {folderid : ℤ}

theorem eq_of_addr {other : Folder} (addrs : (state.folders.map (·.addr)).Nodup) (member : folder ∈ state.folders)
    (otherMember : other ∈ state.folders) (same : folder.addr = other.addr) : folder = other :=
  List.inj_on_of_nodup_map addrs member otherMember same

theorem deref_of_mem (addrs : (state.folders.map (·.addr)).Nodup) (member : folder ∈ state.folders) :
    state.deref folder.addr = folder := by
  rw [Folders.deref]
  cases found : state.folders.find? fun other => other.addr = folder.addr with
  | none =>
    have absent := List.find?_eq_none.mp found folder member
    simp at absent
  | some other =>
    have matched := List.find?_some found
    exact eq_of_addr addrs (List.mem_of_find?_eq_some found) member (of_decide_eq_true matched)

theorem lookup_mem (found : state.lookup folderid = some folder) :
    folder ∈ state.folders ∧ folder.folderid = folderid := by
  have matched := List.find?_some found
  exact ⟨List.mem_of_find?_eq_some found, of_decide_eq_true matched⟩

theorem mem_update {change : Folder → Folder} : folder ∈ (state.update addr change).folders ↔
    ∃ before ∈ state.folders, (if before.addr = addr then change before else before) = folder :=
  List.mem_map

theorem mem_updated (member : folder ∈ state.folders) (addr : ℕ) (change : Folder → Folder) :
    (if folder.addr = addr then change folder else folder) ∈ (state.update addr change).folders :=
  mem_update.mpr ⟨folder, member, rfl⟩

theorem addrs_update (change : Folder → Folder) (same : ∀ folder, (change folder).addr = folder.addr) :
    (state.update addr change).folders.map (·.addr) = state.folders.map (·.addr) := by
  rw [Folders.update, List.map_map]
  apply List.map_congr_left
  intro folder _
  simp only [Function.comp_apply]
  split
  · exact same folder
  · rfl

end Pointers

namespace Linked
variable {state : Folders} {refs more : List ℕ} {addr : ℕ} {folderid : ℤ}

theorem empty : Linked [] .empty := by
  constructor <;> simp [Folders.empty]

theorem perm (linked : Linked refs state) (same : refs.Perm more) : Linked more state where
  addrs := linked.addrs
  fresh := linked.fresh
  held addr member := linked.held addr (same.mem_iff.mpr member)
  refcnt folder member := by rw [linked.refcnt folder member, same.count_eq]
  alive := linked.alive

/-- A folder with a reference out can change. -/
theorem update (linked : Linked refs state) {change : Folder → Folder} (held : addr ∈ refs) (kept : Kept change) :
    Linked refs (state.update addr change) where
  addrs := by
    rw [addrs_update change kept.addr]
    exact linked.addrs
  fresh folder member := by
    obtain ⟨before, inside, rfl⟩ := mem_update.mp member
    split
    · rw [kept.addr]
      exact linked.fresh before inside
    · exact linked.fresh before inside
  held other member := by
    obtain ⟨before, inside, rfl⟩ := linked.held other member
    refine ⟨_, mem_update.mpr ⟨before, inside, rfl⟩, ?_⟩
    split
    · exact kept.addr before
    · rfl
  refcnt folder member := by
    obtain ⟨before, inside, rfl⟩ := mem_update.mp member
    split
    · rw [kept.addr, kept.refcnt]
      exact linked.refcnt before inside
    · exact linked.refcnt before inside
  alive folder member := by
    obtain ⟨before, inside, rfl⟩ := mem_update.mp member
    split
    · next own =>
      left
      rw [kept.refcnt, linked.refcnt before inside, own]
      have positive := List.count_pos_iff.mpr held
      omega
    · exact linked.alive before inside

theorem getRef (linked : Linked refs state) {folder : Folder} (inside : folder ∈ state.folders) :
    Linked (folder.addr :: refs) (state.getRef folder.addr) where
  addrs := by
    have same : (state.getRef folder.addr).folders.map (·.addr) = state.folders.map (·.addr) :=
      addrs_update (fun folder => { folder with refcnt := folder.refcnt + 1 }) fun _ => rfl
    rw [same]
    exact linked.addrs
  fresh other member := by
    obtain ⟨before, inside, rfl⟩ := mem_update.mp member
    split <;> exact linked.fresh before inside
  held other member := by
    have present : ∃ before ∈ state.folders, before.addr = other := by
      cases List.mem_cons.mp member with
      | inl same => exact ⟨folder, inside, same.symm⟩
      | inr later => exact linked.held other later
    obtain ⟨before, inside, rfl⟩ := present
    refine ⟨_, mem_update.mpr ⟨before, inside, rfl⟩, ?_⟩
    split <;> rfl
  refcnt other member := by
    obtain ⟨before, inside, rfl⟩ := mem_update.mp member
    split
    · next own =>
      have count := linked.refcnt before inside
      simp only [own, List.count_cons_self, Nat.cast_add, Nat.cast_one] at count ⊢
      omega
    · next other =>
      rw [List.count_cons_of_ne (Ne.symm other)]
      exact linked.refcnt before inside
  alive other member := by
    obtain ⟨before, inside, rfl⟩ := mem_update.mp member
    have count := linked.refcnt before inside
    split
    · left
      simp only
      omega
    · exact linked.alive before inside

theorem getOrCreate (linked : Linked refs state) (folderid : ℤ) :
    Linked ((state.getOrCreate folderid).1 :: refs) (state.getOrCreate folderid).2 := by
  rw [Folders.getOrCreate]
  split
  · next folder found => exact linked.getRef (lookup_mem found).1
  · have unused : state.next ∉ refs := by
      intro member
      obtain ⟨folder, inside, same⟩ := linked.held _ member
      have below := linked.fresh folder inside
      omega
    refine ⟨?_, ?_, ?_, ?_, ?_⟩
    · rw [List.map_append, List.nodup_append]
      refine ⟨linked.addrs, List.nodup_singleton _, ?_⟩
      intro addr old other new same
      obtain ⟨folder, inside, rfl⟩ := List.mem_map.mp old
      have below := linked.fresh folder inside
      rw [List.map_singleton, List.mem_singleton] at new
      simp only at new
      omega
    · intro folder member
      cases List.mem_append.mp member with
      | inl old =>
        have below := linked.fresh folder old
        simp only
        omega
      | inr new =>
        rw [List.mem_singleton.mp new]
        exact Nat.lt_succ_self _
    · intro addr member
      cases List.mem_cons.mp member with
      | inl same => exact ⟨_, List.mem_append_right _ (List.mem_singleton_self _), same.symm⟩
      | inr later =>
        obtain ⟨folder, inside, same⟩ := linked.held addr later
        exact ⟨folder, List.mem_append_left _ inside, same⟩
    · intro folder member
      cases List.mem_append.mp member with
      | inl old =>
        have below := linked.fresh folder old
        rw [List.count_cons_of_ne (by omega)]
        exact linked.refcnt folder old
      | inr new =>
        rw [List.mem_singleton.mp new, List.count_cons_self, List.count_eq_zero.mpr unused]
        rfl
    · intro folder member
      cases List.mem_append.mp member with
      | inl old => exact linked.alive folder old
      | inr new =>
        rw [List.mem_singleton.mp new]
        exact .inl one_ne_zero

theorem release (linked : Linked (addr :: refs) state) : Linked refs (state.release addr) := by
  obtain ⟨folder, inside, rfl⟩ := linked.held addr List.mem_cons_self
  have here := deref_of_mem linked.addrs inside
  have count := linked.refcnt folder inside
  rw [List.count_cons_self, Nat.cast_add, Nat.cast_one] at count
  rw [Folders.release, here]
  have others : ∀ other ∈ refs, ∃ before ∈ state.folders, before.addr = other :=
    fun other member => linked.held other (List.mem_cons_of_mem _ member)
  have sameCount : ∀ other : Folder, other.addr ≠ folder.addr →
      List.count other.addr (folder.addr :: refs) = List.count other.addr refs :=
    fun other different => List.count_cons_of_ne (Ne.symm different)
  simp only
  split
  · next unused =>
    have gone : folder.addr ∉ refs := by
      rw [← List.count_eq_zero]
      omega
    refine ⟨?_, ?_, ?_, ?_, ?_⟩
    · exact linked.addrs.sublist (List.filter_sublist.map _)
    · intro other member
      exact linked.fresh other (List.mem_filter.mp member).1
    · intro other member
      obtain ⟨before, present, rfl⟩ := others other member
      refine ⟨before, List.mem_filter.mpr ⟨present, ?_⟩, rfl⟩
      rw [decide_eq_true_iff]
      intro same
      rw [same] at member
      exact gone member
    · intro other member
      obtain ⟨present, different⟩ := List.mem_filter.mp member
      rw [linked.refcnt other present, sameCount other (of_decide_eq_true different)]
    · intro other member
      exact linked.alive other (List.mem_filter.mp member).1
  · next used =>
    have different : ∀ other : Folder, (if other.addr = folder.addr then
        { folder with refcnt := folder.refcnt - 1 } else other).addr = other.addr := by
      intro other
      split
      · next same => exact same.symm
      · rfl
    refine ⟨?_, ?_, ?_, ?_, ?_⟩
    · have same : (state.update folder.addr fun _ => { folder with refcnt := folder.refcnt - 1 }).folders.map
          (·.addr) = state.folders.map (·.addr) := by
        rw [Folders.update, List.map_map]
        exact List.map_congr_left fun other _ => different other
      rw [same]
      exact linked.addrs
    · intro other member
      obtain ⟨before, present, rfl⟩ := mem_update.mp member
      rw [different]
      exact linked.fresh before present
    · intro other member
      obtain ⟨before, present, rfl⟩ := others other member
      exact ⟨_, mem_update.mpr ⟨before, present, rfl⟩, different before⟩
    · intro other member
      obtain ⟨before, present, rfl⟩ := mem_update.mp member
      split
      · simp only
        omega
      · next apart => rw [linked.refcnt before present, sameCount before apart]
    · intro other member
      obtain ⟨before, present, rfl⟩ := mem_update.mp member
      split
      · rw [or_iff_not_and_not, not_not, not_not]
        exact used
      · exact linked.alive before present

end Linked

namespace Counted
variable {state : Folders} {refs more : List ℕ} {addr : ℕ} {folderid : ℤ}

theorem empty : Counted [] .empty := ⟨.empty, by simp [Folders.empty], by simp [Folders.empty]⟩

theorem perm (counted : Counted refs state) (same : refs.Perm more) : Counted more state :=
  ⟨counted.toLinked.perm same, counted.taskscnt, counted.freed⟩

/-- A folder with a reference out can change in step with its count. -/
theorem update (counted : Counted refs state) {change : Folder → Folder} (held : addr ∈ refs)
    (balanced : Balanced change) : Counted refs (state.update addr change) := by
  refine ⟨counted.toLinked.update held balanced.toKept, ?_, counted.freed⟩
  intro folder member
  obtain ⟨before, inside, rfl⟩ := mem_update.mp member
  split
  · have same := balanced.taskscnt before
    rw [counted.taskscnt before inside] at same
    omega
  · exact counted.taskscnt before inside

theorem getRef (counted : Counted refs state) {folder : Folder} (inside : folder ∈ state.folders) :
    Counted (folder.addr :: refs) (state.getRef folder.addr) := by
  refine ⟨counted.toLinked.getRef inside, ?_, counted.freed⟩
  intro other member
  obtain ⟨before, inside, rfl⟩ := mem_update.mp member
  split <;> exact counted.taskscnt before inside

theorem getOrCreate (counted : Counted refs state) (folderid : ℤ) :
    Counted ((state.getOrCreate folderid).1 :: refs) (state.getOrCreate folderid).2 := by
  have linked := counted.toLinked.getOrCreate folderid
  rw [Folders.getOrCreate] at linked ⊢
  cases found : state.lookup folderid with
  | some folder => exact counted.getRef (lookup_mem found).1
  | none =>
    rw [found] at linked
    refine ⟨linked, ?_, counted.freed⟩
    intro folder member
    cases List.mem_append.mp member with
    | inl old => exact counted.taskscnt folder old
    | inr new =>
      rw [List.mem_singleton.mp new]
      rfl

theorem release (counted : Counted (addr :: refs) state) : Counted refs (state.release addr) := by
  have linked := counted.toLinked.release
  obtain ⟨folder, inside, rfl⟩ := counted.held addr List.mem_cons_self
  have here := deref_of_mem counted.addrs inside
  rw [Folders.release, here] at linked ⊢
  simp only at linked ⊢
  split at linked
  · next unused =>
    rw [if_pos unused]
    refine ⟨linked, ?_, ?_⟩
    · intro other member
      exact counted.taskscnt other (List.mem_filter.mp member).1
    · intro other member
      cases List.mem_append.mp member with
      | inl old => exact counted.freed other old
      | inr new =>
        rw [List.mem_singleton.mp new]
        refine ⟨unused.1, eq_empty ?_⟩
        rw [← counted.taskscnt folder inside]
        exact unused.2
  · next used =>
    rw [if_neg used]
    refine ⟨linked, ?_, counted.freed⟩
    intro other member
    obtain ⟨before, present, rfl⟩ := mem_update.mp member
    split
    · exact counted.taskscnt folder inside
    · exact counted.taskscnt before present

end Counted

/-- What an invariant has to satisfy to hold while folders are got and released. -/
structure Access (Inv : List ℕ → Folders → Prop) : Prop where
  perm : ∀ {state refs more}, Inv refs state → refs.Perm more → Inv more state
  getRef : ∀ {state refs folder}, Inv refs state → folder ∈ state.folders →
    Inv (folder.addr :: refs) (state.getRef folder.addr)
  getOrCreate : ∀ {state refs} folderid, Inv refs state →
    Inv ((state.getOrCreate folderid).1 :: refs) (state.getOrCreate folderid).2
  release : ∀ {state refs addr}, Inv (addr :: refs) state → Inv refs (state.release addr)
  openfiles : ∀ {state refs} files, Inv refs state → Inv refs { state with openfiles := files }

/-- What an invariant has to satisfy to hold through every operation: it is kept by
each way to get, change and release a folder. -/
structure Rules (Inv : List ℕ → Folders → Prop) (Allowed : (Folder → Folder) → Prop) : Prop extends Access Inv where
  update : ∀ {state refs addr change}, Inv refs state → addr ∈ refs → Allowed change →
    Inv refs (state.update addr change)
  balanced : ∀ {change}, Balanced change → Allowed change

theorem linkedRules : Rules Linked Kept where
  perm linked same := linked.perm same
  update linked held kept := linked.update held kept
  getRef linked inside := linked.getRef inside
  getOrCreate folderid linked := linked.getOrCreate folderid
  release linked := linked.release
  openfiles _ linked := ⟨linked.addrs, linked.fresh, linked.held, linked.refcnt, linked.alive⟩
  balanced change := change.toKept

theorem countedRules : Rules Counted Balanced where
  perm counted same := counted.perm same
  update counted held balanced := counted.update held balanced
  getRef counted inside := counted.getRef inside
  getOrCreate folderid counted := counted.getOrCreate folderid
  release counted := counted.release
  openfiles files counted := ⟨linkedRules.openfiles files counted.toLinked, counted.taskscnt, counted.freed⟩
  balanced change := change

/-- The references that the open files hold. -/
abbrev refsOf (state : Folders) : List ℕ := state.openfiles.map (·.currentfolder)

/-- The invariant between two operations: only open files hold references. -/
def Settled (Inv : List ℕ → Folders → Prop) (state : Folders) : Prop := Inv (refsOf state) state

/-- The first file with an id holds one of the references. -/
theorem refsOf_found {state : Folders} {fileid : ℤ} {fl : OpenFile}
    (found : state.openfiles.find? (fun fl => fl.fileid = fileid) = some fl) : (refsOf state).Perm
      (fl.currentfolder :: (state.openfiles.eraseP fun fl => fl.fileid = fileid).map (·.currentfolder)) := by
  have member := List.mem_of_find?_eq_some found
  have matched := List.find?_some found
  obtain ⟨taken, earlier, later, misses, hit, files, rest⟩ :=
    List.exists_of_eraseP (p := fun fl => decide (fl.fileid = fileid)) member matched
  have first : state.openfiles.find? (fun fl => fl.fileid = fileid) = some taken := by
    rw [files, List.find?_append, List.find?_eq_none.mpr misses, Option.none_or]
    simp only [List.find?_cons, hit]
  have same : taken = fl := Option.some.inj (first.symm.trans found)
  subst same
  rw [refsOf, rest, files, List.map_append, List.map_cons, List.map_append]
  exact List.perm_middle

section Openfiles
variable (state : Folders) (addr : ℕ) (folderid : ℤ) (change : Folder → Folder)

@[simp] theorem openfiles_update : (state.update addr change).openfiles = state.openfiles := rfl

@[simp] theorem openfiles_getOrCreate : (state.getOrCreate folderid).2.openfiles = state.openfiles := by
  rw [Folders.getOrCreate]
  split <;> rfl

@[simp] theorem openfiles_get : (state.get folderid).2.openfiles = state.openfiles := by
  rw [Folders.get]
  split <;> rfl

@[simp] theorem openfiles_release : (state.release addr).openfiles = state.openfiles := by
  rw [Folders.release]
  simp only
  split <;> rfl

@[simp] theorem openfiles_releaseIf (folder : Option ℕ) : (state.releaseIf folder).openfiles = state.openfiles := by
  cases folder with
  | none => rfl
  | some addr => exact openfiles_release state addr

end Openfiles

namespace Access
variable {Inv : List ℕ → Folders → Prop} (rules : Access Inv)
include rules
variable {state : Folders} {refs : List ℕ} {folder : ℕ}

theorem swap {addr other : ℕ} (inv : Inv (addr :: other :: refs) state) : Inv (other :: addr :: refs) state :=
  rules.perm inv (.swap _ _ _)

/-- A folder that is there is got with a reference; else nothing changes. -/
theorem get (inv : Inv refs state) (folderid : ℤ) :
    Inv ((state.get folderid).1.toList ++ refs) (state.get folderid).2 := by
  rw [Folders.get]
  split
  · next folder found => exact rules.getRef inv (lookup_mem found).1
  · exact inv

theorem releaseIf {folder : Option ℕ} (inv : Inv (folder.toList ++ refs) state) : Inv refs (state.releaseIf folder) := by
  cases folder with
  | none => exact inv
  | some addr => exact rules.release inv

theorem renameOpenfile (inv : Inv (folder :: refsOf state) state) (fileid folderid : ℤ) :
    Inv (folder :: refsOf (state.renameOpenfile fileid folderid)) (state.renameOpenfile fileid folderid) := by
  rw [Folders.renameOpenfile]
  split
  · exact inv
  next fl found =>
  split
  · exact inv
  have out : (folder :: refsOf state).Perm
      (fl.currentfolder :: folder :: (state.openfiles.eraseP fun fl => fl.fileid = fileid).map (·.currentfolder)) :=
    .trans (.cons _ (refsOf_found found)) (.swap _ _ _)
  have moved := rules.getOrCreate folderid (rules.release (rules.perm inv out))
  have back := rules.openfiles (⟨fileid, ((state.release fl.currentfolder).getOrCreate folderid).1⟩ ::
    state.openfiles.eraseP fun fl => fl.fileid = fileid) (rules.swap moved)
  simp only [openfiles_getOrCreate, openfiles_release]
  exact back

theorem settle (held : Inv (folder :: refsOf state) state) : Settled Inv (state.release folder) := by
  rw [Settled, refsOf, openfiles_release]
  exact rules.release held

theorem settleIf {folder : Option ℕ} (held : Inv (folder.toList ++ refsOf state) state) :
    Settled Inv (state.releaseIf folder) := by
  rw [Settled, refsOf, openfiles_releaseIf]
  exact rules.releaseIf held

/-- A folder that was got, with the reference to it. -/
theorem hold (settled : Settled Inv state) (folderid : ℤ) :
    Inv ((state.getOrCreate folderid).1 :: refsOf (state.getOrCreate folderid).2) (state.getOrCreate folderid).2 := by
  rw [refsOf, openfiles_getOrCreate]
  exact rules.getOrCreate folderid settled

theorem holdIf (settled : Settled Inv state) (folderid : ℤ) :
    Inv ((state.get folderid).1.toList ++ refsOf (state.get folderid).2) (state.get folderid).2 := by
  rw [refsOf, openfiles_get]
  exact rules.get settled folderid

theorem openFile (settled : Settled Inv state) (fileid folderid : ℤ) :
    Settled Inv (state.openFile fileid folderid) := by
  have held := rules.getOrCreate folderid settled
  have opened := rules.openfiles (⟨fileid, (state.getOrCreate folderid).1⟩ :: (state.getOrCreate folderid).2.openfiles)
    held
  rw [Settled, refsOf, Folders.openFile]
  simp only [openfiles_getOrCreate, List.map_cons] at opened ⊢
  exact opened

theorem closeFile (settled : Settled Inv state) {fl : OpenFile} (member : fl ∈ state.openfiles) :
    Settled Inv (state.closeFile fl) := by
  rw [Settled, refsOf, Folders.closeFile, openfiles_release]
  apply rules.release
  refine rules.openfiles _ (rules.perm settled ?_)
  exact (List.perm_cons_erase member).map _

end Access
end Pclsync.Proofs.Folders
