import Pclsync.Fs.Tasks
import Pclsync.Proofs.Folders

/-! What an operation sees of the folders. Getting a folder shows its tasks and
changes no others; getting one and giving it back changes nothing. -/

namespace Pclsync.Proofs.FolderViews
open Pclsync.Fs Folders

variable {state : Folders} {refs : List ℕ} {addr other : ℕ} {folder : Folder} {folderid : ℤ}
  {change next : Folder → Folder}

section Update

theorem update_update (change next : Folder → Folder) (kept : ∀ folder, (change folder).addr = folder.addr) :
    (state.update addr change).update addr next = state.update addr fun folder => next (change folder) := by
  simp only [Folders.update, List.map_map, Folders.mk.injEq, and_true]
  apply List.map_congr_left
  intro folder _
  by_cases same : folder.addr = addr
  · simp [same, kept]
  · simp [same]

theorem update_congr (same : ∀ folder ∈ state.folders, folder.addr = addr → change folder = next folder) :
    state.update addr change = state.update addr next := by
  simp only [Folders.update, Folders.mk.injEq, and_true]
  apply List.map_congr_left
  intro folder member
  split
  · next own => exact same folder member own
  · rfl

theorem update_eq_self (same : ∀ folder ∈ state.folders, folder.addr = addr → change folder = folder) :
    state.update addr change = state := by
  have identity : state.update addr change = state.update addr id := update_congr same
  rw [identity]
  simp [Folders.update]

/-- Two changes that keep the address and commute. -/
theorem update_comm (change next : Folder → Folder) (kept : ∀ folder, (change folder).addr = folder.addr)
    (nextKept : ∀ folder, (next folder).addr = folder.addr)
    (commute : ∀ folder, next (change folder) = change (next folder)) :
    (state.update addr change).update other next = (state.update other next).update addr change := by
  simp only [Folders.update, List.map_map, Folders.mk.injEq, and_true]
  apply List.map_congr_left
  intro folder _
  simp only [Function.comp_apply]
  by_cases own : folder.addr = addr
  · by_cases both : folder.addr = other
    · simp only [if_pos own, if_pos both, kept, nextKept, commute]
    · simp only [if_pos own, if_neg both, kept]
  · by_cases both : folder.addr = other
    · simp only [if_neg own, if_pos both, nextKept]
    · simp only [if_neg own, if_neg both]

/-- A change that keeps the ids keeps where each folder is found. -/
theorem lookup_update (change : Folder → Folder) (kept : ∀ folder, (change folder).folderid = folder.folderid)
    (folderid : ℤ) :
    (state.update addr change).lookup folderid =
      (state.lookup folderid).map fun folder => if folder.addr = addr then change folder else folder := by
  rw [Folders.lookup, Folders.update, List.find?_map]
  congr 2
  funext folder
  simp only [Function.comp_apply]
  split
  · rw [kept]
  · rfl

theorem deref_update (change : Folder → Folder) (addrs : (state.folders.map (·.addr)).Nodup)
    (kept : ∀ folder, (change folder).addr = folder.addr) (member : folder ∈ state.folders) (own : folder.addr = addr) :
    (state.update addr change).deref addr = change folder := by
  have inside : change folder ∈ (state.update addr change).folders := mem_update.mpr ⟨folder, member, if_pos own⟩
  have nodup : ((state.update addr change).folders.map (·.addr)).Nodup := by
    rw [addrs_update change kept]
    exact addrs
  have here := deref_of_mem nodup inside
  rw [kept, own] at here
  exact here

/-- A change that keeps the trees is not seen in them. -/
theorem tasksAt_update (change : Folder → Folder) (kept : ∀ folder, (change folder).addr = folder.addr)
    (same : ∀ folder, (change folder).tasks = folder.tasks) (folder : Option ℕ) :
    tasksAt (state.update addr change) folder = tasksAt state folder := by
  cases folder with
  | none => rfl
  | some pointer =>
    have matching : (fun folder => decide (folder.addr = pointer)) ∘
        (fun folder => if folder.addr = addr then change folder else folder) =
        fun folder : Folder => decide (folder.addr = pointer) := by
      funext folder
      simp only [Function.comp_apply]
      split
      · rw [kept]
      · rfl
    simp only [tasksAt, Folders.deref, Folders.update, List.find?_map, matching]
    cases state.folders.find? fun folder => folder.addr = pointer with
    | none => rfl
    | some folder =>
      simp only [Option.map_some, Option.getD_some]
      split
      · exact same folder
      · rfl

end Update

section Get

/-- Getting a folder and changing one can happen in either order. -/
theorem get_update (change : Folder → Folder) (kept : ∀ folder, (change folder).addr = folder.addr)
    (ids : ∀ folder, (change folder).folderid = folder.folderid)
    (counts : ∀ folder, change { folder with refcnt := folder.refcnt + 1 } =
      { change folder with refcnt := (change folder).refcnt + 1 }) (folderid : ℤ) :
    (state.update addr change).get folderid =
      ((state.get folderid).1, (state.get folderid).2.update addr change) := by
  rw [Folders.get, Folders.get, lookup_update change ids]
  cases state.lookup folderid with
  | none => rfl
  | some folder =>
    have same : (if folder.addr = addr then change folder else folder).addr = folder.addr := by
      split
      · exact kept folder
      · rfl
    simp only [Option.map_some, same, Folders.getRef]
    rw [update_comm change (fun folder => { folder with refcnt := folder.refcnt + 1 }) kept (fun _ => rfl)
      fun folder => (counts folder).symm]

@[simp] theorem tasksOf_getRef (addr : ℕ) (folderid : ℤ) :
    (state.getRef addr).tasksOf folderid = state.tasksOf folderid := by
  rw [Folders.tasksOf, Folders.tasksOf, Folders.getRef,
    lookup_update (fun folder => { folder with refcnt := folder.refcnt + 1 }) fun _ => rfl]
  cases state.lookup folderid with
  | none => rfl
  | some folder =>
    simp only [Option.map_some]
    split <;> rfl

@[simp] theorem tasksOf_get (source folderid : ℤ) :
    (state.get source).2.tasksOf folderid = state.tasksOf folderid := by
  rw [Folders.get]
  split
  · exact tasksOf_getRef _ _
  · rfl

@[simp] theorem tasksOf_getOrCreate (source folderid : ℤ) :
    (state.getOrCreate source).2.tasksOf folderid = state.tasksOf folderid := by
  rw [Folders.getOrCreate]
  split
  · exact tasksOf_getRef _ _
  · simp only [Folders.tasksOf, Folders.lookup, List.find?_append]
    cases state.folders.find? fun folder => folder.folderid = folderid with
    | some folder => rfl
    | none =>
      by_cases same : source = folderid <;> simp [same]

theorem tasksAt_get (folderid : ℤ) (folder : Option ℕ) :
    tasksAt (state.get folderid).2 folder = tasksAt state folder := by
  rw [Folders.get]
  split
  · exact tasksAt_update (fun folder => { folder with refcnt := folder.refcnt + 1 }) (fun _ => rfl) (fun _ => rfl)
      folder
  · rfl

/-- The folder that was got, in the state after. -/
theorem mem_getOrCreate (state : Folders) (folderid : ℤ) :
    ∃ folder ∈ (state.getOrCreate folderid).2.folders,
      folder.addr = (state.getOrCreate folderid).1 ∧ folder.tasks = state.tasksOf folderid := by
  rw [Folders.getOrCreate, Folders.tasksOf]
  cases found : state.lookup folderid with
  | some folder =>
    refine ⟨_, mem_update.mpr ⟨folder, (lookup_mem found).1, if_pos rfl⟩, rfl, rfl⟩
  | none => exact ⟨_, List.mem_append_right _ (List.mem_singleton_self _), rfl, rfl⟩

theorem tasks_getOrCreate (linked : Linked refs state) (folderid : ℤ) :
    ((state.getOrCreate folderid).2.deref (state.getOrCreate folderid).1).tasks = state.tasksOf folderid := by
  obtain ⟨folder, member, own, same⟩ := mem_getOrCreate state folderid
  rw [← own, deref_of_mem (linked.getOrCreate folderid).addrs member, same]

theorem tasks_get (linked : Linked refs state) (folderid : ℤ) :
    tasksAt (state.get folderid).2 (state.get folderid).1 = state.tasksOf folderid := by
  have held := linkedRules.get linked folderid
  rw [Folders.get, Folders.tasksOf] at *
  cases found : state.lookup folderid with
  | none => rfl
  | some folder =>
    rw [found] at held
    have inside : { folder with refcnt := folder.refcnt + 1 } ∈ (state.getRef folder.addr).folders :=
      mem_update.mpr ⟨folder, (lookup_mem found).1, if_pos rfl⟩
    have here := deref_of_mem held.addrs inside
    simp only [tasksAt]
    rw [here]

end Get

section Release

/-- A reference that was just taken is given back. -/
theorem release_getRef (linked : Linked refs state) (member : folder ∈ state.folders) :
    (state.getRef folder.addr).release folder.addr = state := by
  have here : (state.getRef folder.addr).deref folder.addr = { folder with refcnt := folder.refcnt + 1 } :=
    deref_update (fun folder => { folder with refcnt := folder.refcnt + 1 }) linked.addrs (fun _ => rfl) member rfl
  have alive := linked.alive folder member
  rw [Folders.release, here]
  simp only [add_sub_cancel_right]
  rw [if_neg (by tauto), Folders.getRef,
    update_update (fun folder => { folder with refcnt := folder.refcnt + 1 }) (fun _ => folder) fun _ => rfl]
  exact update_eq_self fun other inside own => eq_of_addr linked.addrs member inside own.symm

theorem releaseIf_get (linked : Linked refs state) (folderid : ℤ) :
    (state.get folderid).2.releaseIf (state.get folderid).1 = state := by
  rw [Folders.get]
  cases found : state.lookup folderid with
  | none => rfl
  | some folder => exact release_getRef linked (lookup_mem found).1

theorem release_getOrCreate (linked : Linked refs state) (folderid : ℤ) :
    ((state.getOrCreate folderid).2.release (state.getOrCreate folderid).1).folders = state.folders := by
  have created := linked.getOrCreate folderid
  rw [Folders.getOrCreate] at created ⊢
  cases found : state.lookup folderid with
  | some folder =>
    simp only
    rw [release_getRef linked (lookup_mem found).1]
  | none =>
    rw [found] at created
    simp only at created ⊢
    have here := deref_of_mem created.addrs (List.mem_append_right _ (List.mem_singleton_self _))
    rw [Folders.release, here]
    have others : state.folders.filter (fun folder => folder.addr ≠ state.next) = state.folders := by
      rw [List.filter_eq_self]
      intro folder member
      have below := linked.fresh folder member
      rw [decide_eq_true_iff]
      omega
    simp only [sub_self, and_self, if_true, List.filter_append, others]
    simp

end Release

/-- What is read of whatever is at an address. -/
def At {α : Type} (read : Folder → α) (addr : ℕ) (value : α) (state : Folders) : Prop :=
  ∀ folder ∈ state.folders, folder.addr = addr → read folder = value

namespace At
variable {α : Type} {read : Folder → α} {value : α}

theorem update (reads : At read addr value state) (change : Folder → Folder) (other : ℕ)
    (kept : ∀ folder, (change folder).addr = folder.addr) (same : ∀ folder, read (change folder) = read folder) :
    At read addr value (state.update other change) := by
  intro folder member own
  obtain ⟨before, inside, rfl⟩ := mem_update.mp member
  split at own
  · rw [kept] at own
    rw [if_pos (by assumption), same]
    exact reads before inside own
  · rw [if_neg (by assumption)]
    exact reads before inside own

variable (unread : ∀ (folder : Folder) count, read { folder with refcnt := count } = read folder)
include unread

theorem get (reads : At read addr value state) (folderid : ℤ) : At read addr value (state.get folderid).2 := by
  rw [Folders.get]
  split
  · exact reads.update (fun folder => { folder with refcnt := folder.refcnt + 1 }) _ (fun _ => rfl)
      fun folder => unread folder _
  · exact reads

theorem release (reads : At read addr value state) (other : ℕ) : At read addr value (state.release other) := by
  rw [Folders.release]
  simp only
  split
  · intro folder member own
    exact reads folder (List.mem_filter.mp member).1 own
  · intro folder member own
    obtain ⟨before, inside, rfl⟩ := mem_update.mp member
    split at own
    · next here =>
      rw [if_pos here, unread]
      rw [Folders.deref] at own ⊢
      cases found : state.folders.find? fun folder => folder.addr = other with
      | none =>
        have absent := List.find?_eq_none.mp found before inside
        simp [here] at absent
      | some folder =>
        rw [found] at own
        exact reads folder (List.mem_of_find?_eq_some found) own
    · next apart =>
      rw [if_neg apart]
      exact reads before inside own

theorem releaseIf (reads : At read addr value state) (other : Option ℕ) :
    At read addr value (state.releaseIf other) := by
  cases other with
  | none => exact reads
  | some other => exact reads.release unread other

/-- A folder that is made meanwhile is elsewhere. -/
theorem getOrCreate (reads : At read addr value state) (linked : Linked refs state) (held : addr ∈ refs)
    (folderid : ℤ) : At read addr value (state.getOrCreate folderid).2 := by
  rw [Folders.getOrCreate]
  split
  · exact reads.update (fun folder => { folder with refcnt := folder.refcnt + 1 }) _ (fun _ => rfl)
      fun folder => unread folder _
  · intro folder member own
    cases List.mem_append.mp member with
    | inl old => exact reads folder old own
    | inr new =>
      rw [List.mem_singleton.mp new] at own
      obtain ⟨other, inside, same⟩ := linked.held addr held
      have below := linked.fresh other inside
      simp only at own
      omega

end At
end Pclsync.Proofs.FolderViews
