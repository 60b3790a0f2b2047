import Pclsync.Proofs.FolderViews

/-! The tasks of all folders as a function of the folder's id. With one folder for
each id and right counts, working on a folder is an edit of that function at one
place, and releasing a folder changes nothing in it. -/

namespace Pclsync.Proofs.FolderOverlay
open Pclsync.Fs Folders FolderViews

variable {state : Folders} {refs more : List ℕ} {addr : ℕ} {folder : Folder} {folderid : ℤ}
  {change next : Folder → Folder} {edit : FolderTasks → FolderTasks}

/-- The counts are right, and no two folders have one id. -/
structure Sound (refs : List ℕ) (state : Folders) : Prop extends Counted refs state where
  keyed : (state.folders.map (·.folderid)).Nodup

/-- A change of a folder that is an edit of its tasks. -/
structure Edits (change : Folder → Folder) (edit : FolderTasks → FolderTasks) : Prop extends Balanced change where
  folderid : ∀ folder, (change folder).folderid = folder.folderid
  tasks : ∀ folder, (change folder).tasks = edit folder.tasks

section Edit
variable {present : FolderTasks → Bool} {del : FolderTasks → FolderTasks} (name : Name) (taskid : ℕ)

theorem Edits.comp {nextEdit : FolderTasks → FolderTasks} (outer : Edits next nextEdit) (inner : Edits change edit) :
    Edits (fun folder => next (change folder)) fun tasks => nextEdit (edit tasks) where
  toBalanced := outer.toBalanced.comp inner.toBalanced
  folderid folder := by rw [outer.folderid, inner.folderid]
  tasks folder := by rw [outer.tasks, inner.tasks]

theorem Edits.take (balanced : Balanced (Folder.take present del))
    (same : ∀ tasks, present tasks = false → del tasks = tasks) : Edits (Folder.take present del) del where
  toBalanced := balanced
  folderid folder := by rw [Folder.take]; split <;> rfl
  tasks folder := by
    rw [Folder.take]
    split
    · rfl
    · next absent => rw [same _ (Bool.eq_false_iff.mpr absent)]

theorem Edits.putMkdir (task : Mkdir) : Edits (·.putMkdir task) (·.addMkdir task) :=
  ⟨.putMkdir task, fun _ => rfl, fun _ => rfl⟩

theorem Edits.putRmdir (task : Rmdir) : Edits (·.putRmdir task) (·.addRmdir task) :=
  ⟨.putRmdir task, fun _ => rfl, fun _ => rfl⟩

theorem Edits.putCreat (task : Creat) : Edits (·.putCreat task) (·.addCreat task) :=
  ⟨.putCreat task, fun _ => rfl, fun _ => rfl⟩

theorem Edits.putUnlink (task : Unlink) : Edits (·.putUnlink task) (·.addUnlink task) :=
  ⟨.putUnlink task, fun _ => rfl, fun _ => rfl⟩

theorem Edits.putUnlinkAt (place : ℕ) (task : Unlink) :
    Edits (·.putUnlinkAt place task) (·.addUnlinkAt place task) := by
  refine ⟨.put fun tasks => ?_, fun _ => rfl, fun _ => rfl⟩
  have length := congrArg List.length (List.take_append_drop place tasks.unlinks)
  rw [List.length_append] at length
  simp only [FolderTasks.addUnlinkAt, FolderTasks.count, List.length_append, List.length_cons]
  omega

theorem Edits.takeMkdir : Edits (·.takeMkdir name taskid) (·.delMkdir name taskid) := by
  apply Edits.take (.takeMkdir name taskid)
  intro tasks absent
  rw [FolderTasks.delMkdir, deleteFromTree_absent (Option.isSome_eq_false_iff.mp absent |> Option.isNone_iff_eq_none.mp)]

theorem Edits.takeCreat : Edits (·.takeCreat name taskid) (·.delCreat name taskid) := by
  apply Edits.take (.takeCreat name taskid)
  intro tasks absent
  rw [FolderTasks.delCreat, deleteFromTree_absent (Option.isSome_eq_false_iff.mp absent |> Option.isNone_iff_eq_none.mp)]

end Edit

section Lookup

theorem lookup_of_mem (keyed : (state.folders.map (·.folderid)).Nodup) (member : folder ∈ state.folders) :
    state.lookup folder.folderid = some folder := by
  cases found : state.lookup folder.folderid with
  | none =>
    have absent := List.find?_eq_none.mp found folder member
    simp at absent
  | some other =>
    obtain ⟨inside, same⟩ := lookup_mem found
    rw [List.inj_on_of_nodup_map keyed inside member same]

theorem tasksOf_of_mem (keyed : (state.folders.map (·.folderid)).Nodup) (member : folder ∈ state.folders) :
    state.tasksOf folder.folderid = folder.tasks := by
  rw [Folders.tasksOf, lookup_of_mem keyed member]

theorem tasksOf_absent (absent : ∀ folder ∈ state.folders, folder.folderid ≠ folderid) :
    state.tasksOf folderid = .empty := by
  rw [Folders.tasksOf]
  cases found : state.lookup folderid with
  | none => rfl
  | some folder => exact absurd (lookup_mem found).2 (absent folder (lookup_mem found).1)

end Lookup

namespace Sound

theorem empty : Sound [] .empty := ⟨.empty, List.nodup_nil⟩

theorem perm (sound : Sound refs state) (same : refs.Perm more) : Sound more state :=
  ⟨sound.toCounted.perm same, sound.keyed⟩

theorem update (sound : Sound refs state) (held : addr ∈ refs) (edits : Edits change edit) :
    Sound refs (state.update addr change) := by
  refine ⟨sound.toCounted.update held edits.toBalanced, ?_⟩
  have same : (state.update addr change).folders.map (·.folderid) = state.folders.map (·.folderid) := by
    rw [Folders.update, List.map_map]
    apply List.map_congr_left
    intro folder _
    simp only [Function.comp_apply]
    split
    · exact edits.folderid folder
    · rfl
  rw [same]
  exact sound.keyed

theorem getRef (sound : Sound refs state) (inside : folder ∈ state.folders) :
    Sound (folder.addr :: refs) (state.getRef folder.addr) := by
  refine ⟨sound.toCounted.getRef inside, ?_⟩
  have same : (state.getRef folder.addr).folders.map (·.folderid) = state.folders.map (·.folderid) := by
    rw [Folders.getRef, Folders.update, List.map_map]
    apply List.map_congr_left
    intro folder _
    simp only [Function.comp_apply]
    split <;> rfl
  rw [same]
  exact sound.keyed

theorem getOrCreate (sound : Sound refs state) (folderid : ℤ) :
    Sound ((state.getOrCreate folderid).1 :: refs) (state.getOrCreate folderid).2 := by
  have counted := sound.toCounted.getOrCreate folderid
  rw [Folders.getOrCreate] at counted ⊢
  cases found : state.lookup folderid with
  | some folder => exact sound.getRef (lookup_mem found).1
  | none =>
    rw [found] at counted
    refine ⟨counted, ?_⟩
    rw [List.map_append, List.nodup_append]
    refine ⟨sound.keyed, List.nodup_singleton _, ?_⟩
    intro id old other new same
    obtain ⟨folder, inside, rfl⟩ := List.mem_map.mp old
    have absent := List.find?_eq_none.mp found folder inside
    rw [List.map_singleton, List.mem_singleton] at new
    simp only [same, new, decide_true, not_true_eq_false] at absent

theorem release (sound : Sound (addr :: refs) state) : Sound refs (state.release addr) := by
  refine ⟨sound.toCounted.release, ?_⟩
  obtain ⟨folder, inside, rfl⟩ := sound.held addr List.mem_cons_self
  rw [Folders.release, deref_of_mem sound.addrs inside]
  simp only
  split
  · exact sound.keyed.sublist (List.filter_sublist.map _)
  · have same : (state.update folder.addr fun _ => { folder with refcnt := folder.refcnt - 1 }).folders.map
        (·.folderid) = state.folders.map (·.folderid) := by
      rw [Folders.update, List.map_map]
      apply List.map_congr_left
      intro other member
      simp only [Function.comp_apply]
      split
      · next own => rw [eq_of_addr sound.addrs member inside own]
      · rfl
    rw [same]
    exact sound.keyed

theorem openfiles (files : List OpenFile) (sound : Sound refs state) : Sound refs { state with openfiles := files } :=
  ⟨countedRules.openfiles files sound.toCounted, sound.keyed⟩

/-- What a release takes out of the tree had no tasks. -/
theorem tasksOf_release (sound : Sound (addr :: refs) state) (folderid : ℤ) :
    (state.release addr).tasksOf folderid = state.tasksOf folderid := by
  have after := sound.release
  obtain ⟨folder, inside, rfl⟩ := sound.held addr List.mem_cons_self
  have here := deref_of_mem sound.addrs inside
  by_cases present : ∃ other ∈ state.folders, other.folderid = folderid
  · obtain ⟨other, member, rfl⟩ := present
    rw [tasksOf_of_mem sound.keyed member]
    rw [Folders.release, here] at after ⊢
    simp only at after ⊢
    split at after
    · next unused =>
      rw [if_pos unused]
      by_cases own : other = folder
      · subst own
        have empty : other.tasks = .empty := by
          apply eq_empty
          rw [← sound.taskscnt other member]
          exact unused.2
        rw [empty]
        apply tasksOf_absent
        intro node kept same
        obtain ⟨old, apart⟩ := List.mem_filter.mp kept
        have both := List.inj_on_of_nodup_map sound.keyed old member same
        rw [both] at apart
        simp at apart
      · apply tasksOf_of_mem after.keyed
        refine List.mem_filter.mpr ⟨member, ?_⟩
        rw [decide_eq_true_iff]
        intro same
        exact own (eq_of_addr sound.addrs member inside same)
    · next used =>
      rw [if_neg used]
      have kept := mem_updated member folder.addr fun _ => { folder with refcnt := folder.refcnt - 1 }
      by_cases own : other.addr = folder.addr
      · have same : other = folder := eq_of_addr sound.addrs member inside own
        subst same
        rw [if_pos rfl] at kept
        have view := tasksOf_of_mem after.keyed kept
        exact view
      · rw [if_neg own] at kept
        exact tasksOf_of_mem after.keyed kept
  · push Not at present
    rw [tasksOf_absent present]
    apply tasksOf_absent
    rw [Folders.release, here]
    simp only
    split
    · intro other member
      exact present other (List.mem_filter.mp member).1
    · intro other member
      obtain ⟨before, old, rfl⟩ := mem_update.mp member
      split
      · exact present folder inside
      · exact present before old

/-- An edit shows in the tasks of its folder. -/
theorem tasksOf_update (sound : Sound refs state) (held : addr ∈ refs) (place : At Folder.folderid addr folderid state)
    (edits : Edits change edit) :
    (state.update addr change).tasksOf = Function.update state.tasksOf folderid (edit (state.tasksOf folderid)) := by
  obtain ⟨folder, inside, rfl⟩ := sound.held addr held
  have own : folder.folderid = folderid := place folder inside rfl
  subst own
  have changed := sound.update held edits
  funext id
  by_cases present : ∃ other ∈ state.folders, other.folderid = id
  · obtain ⟨other, member, rfl⟩ := present
    have after := mem_updated member folder.addr change
    by_cases same : other = folder
    · subst same
      rw [if_pos rfl] at after
      have view := tasksOf_of_mem changed.keyed after
      rw [edits.folderid] at view
      rw [view, Function.update_self, edits.tasks, tasksOf_of_mem sound.keyed member]
    · have apart : other.addr ≠ folder.addr := fun both => same (eq_of_addr sound.addrs member inside both)
      have distinct : other.folderid ≠ folder.folderid :=
        fun both => same (List.inj_on_of_nodup_map sound.keyed member inside both)
      rw [if_neg apart] at after
      rw [tasksOf_of_mem changed.keyed after, Function.update_of_ne distinct, tasksOf_of_mem sound.keyed member]
  · push Not at present
    rw [Function.update_of_ne (present folder inside).symm, tasksOf_absent present]
    apply tasksOf_absent
    intro other member
    obtain ⟨before, old, rfl⟩ := mem_update.mp member
    split
    · rw [edits.folderid]
      exact present before old
    · exact present before old

end Sound

theorem soundAccess : Access Sound where
  perm sound same := sound.perm same
  getRef sound inside := sound.getRef inside
  getOrCreate folderid sound := sound.getOrCreate folderid
  release sound := sound.release
  openfiles files sound := sound.openfiles files

/-- The folder that was got is the one of the id. -/
theorem place_getOrCreate (sound : Sound refs state) (folderid : ℤ) :
    At Folder.folderid (state.getOrCreate folderid).1 folderid (state.getOrCreate folderid).2 := by
  have after := sound.getOrCreate folderid
  intro folder member own
  rw [Folders.getOrCreate] at after member own
  cases found : state.lookup folderid with
  | some node =>
    rw [found] at after member own
    obtain ⟨inside, same⟩ := lookup_mem found
    have kept : { node with refcnt := node.refcnt + 1 } ∈ (state.getRef node.addr).folders :=
      mem_update.mpr ⟨node, inside, if_pos rfl⟩
    rw [eq_of_addr after.addrs member kept own]
    exact same
  | none =>
    rw [found] at after member own
    rw [eq_of_addr after.addrs member (List.mem_append_right _ (List.mem_singleton_self _)) own]

/-- Work on a folder that was got, and its release. -/
theorem put_view (sound : Sound (addr :: refs) state) (place : At Folder.folderid addr folderid state)
    (edits : Edits change edit) : Sound refs ((state.update addr change).release addr) ∧
      ((state.update addr change).release addr).tasksOf =
        Function.update state.tasksOf folderid (edit (state.tasksOf folderid)) := by
  have updated := sound.update List.mem_cons_self edits
  refine ⟨updated.release, ?_⟩
  rw [← sound.tasksOf_update List.mem_cons_self place edits]
  funext id
  exact updated.tasksOf_release id

theorem releaseIf_view {folder : Option ℕ} (sound : Sound (folder.toList ++ refs) state) :
    (state.releaseIf folder).tasksOf = state.tasksOf := by
  cases folder with
  | none => rfl
  | some addr =>
    funext id
    exact sound.tasksOf_release id

/-- The same between two operations. -/
theorem settled_put (sound : Sound (addr :: refsOf state) state) (place : At Folder.folderid addr folderid state)
    (edits : Edits change edit) : Settled Sound ((state.update addr change).release addr) ∧
      ((state.update addr change).release addr).tasksOf =
        Function.update state.tasksOf folderid (edit (state.tasksOf folderid)) := by
  obtain ⟨kept, view⟩ := put_view sound place edits
  refine ⟨?_, view⟩
  rw [Settled, refsOf, openfiles_release]
  exact kept

/-- A folder is got or created, worked on and released. -/
def work (state : Folders) (folderid : ℤ) (change : Folder → Folder) : Folders :=
  ((state.getOrCreate folderid).2.update (state.getOrCreate folderid).1 change).release (state.getOrCreate folderid).1

theorem work_view (sound : Settled Sound state) (edits : Edits change edit) (folderid : ℤ) :
    Settled Sound (work state folderid change) ∧ (work state folderid change).tasksOf =
      Function.update state.tasksOf folderid (edit (state.tasksOf folderid)) := by
  have views : (state.getOrCreate folderid).2.tasksOf = state.tasksOf :=
    funext fun id => tasksOf_getOrCreate folderid id
  obtain ⟨kept, view⟩ := settled_put (soundAccess.hold sound folderid) (place_getOrCreate sound folderid) edits
  rw [views] at view
  exact ⟨kept, view⟩

/-- An open file moves without an effect on tasks, or on a folder that is held. -/
theorem renameOpenfile_view (sound : Sound (addr :: refsOf state) state) (place : At Folder.folderid addr folderid state)
    (fileid toFolderid : ℤ) : (state.renameOpenfile fileid toFolderid).tasksOf = state.tasksOf ∧
      At Folder.folderid addr folderid (state.renameOpenfile fileid toFolderid) := by
  rw [Folders.renameOpenfile]
  split
  · exact ⟨rfl, place⟩
  next fl found =>
  split
  · exact ⟨rfl, place⟩
  have out : Sound (fl.currentfolder :: addr :: (state.openfiles.eraseP fun fl => fl.fileid = fileid).map
      (·.currentfolder)) state :=
    sound.perm (.trans (.cons _ (refsOf_found found)) (.swap _ _ _))
  have released := out.release
  constructor
  · funext id
    calc
      ((state.release fl.currentfolder).getOrCreate toFolderid).2.tasksOf id
          = (state.release fl.currentfolder).tasksOf id := tasksOf_getOrCreate toFolderid id
      _ = state.tasksOf id := out.tasksOf_release id
  · have left := place.release (fun _ _ => rfl) fl.currentfolder
    exact left.getOrCreate (fun _ _ => rfl) released.toLinked List.mem_cons_self toFolderid

end Pclsync.Proofs.FolderOverlay
