import Pclsync.Fs.OpenFiles
import Pclsync.Proofs.TreeSearch

/-! The open files are sorted by their ids as long as no two of these are half of the range apart. -/

namespace Pclsync.Proofs.OpenFiles
open Library Pclsync.OpenFiles TreeSearch
open Pclsync.Ptree (Heap met search sideOf place getAdd getAddBefore getAddAfter getAddedAt putAt)
open Shape (insertAt)
open PtreeChange (Stands)

/-- No difference of the two ids overflows. -/
def Close (one two : Int64) : Prop := |one.toInt - two.toInt| < 2 ^ 63

theorem difference_close {one two : Int64} (close : Close one two) : difference one two = one.toInt - two.toInt := by
  rw [Close, abs_lt] at close
  rw [difference, Int64.toInt_sub]
  exact Int.bmod_eq_of_le (by omega) (by omega)

theorem difference_eq_zero {one two : Int64} : difference one two = 0 ↔ one = two := by
  have low := one.le_toInt
  have high := one.toInt_lt
  have lowTwo := two.le_toInt
  have highTwo := two.toInt_lt
  rw [difference, Int64.toInt_sub, ← Int64.toInt_inj]
  constructor
  · intro zero
    have dvd : ((2 ^ 64 : ℕ) : ℤ) ∣ one.toInt - two.toInt := Int.dvd_of_bmod_eq_zero zero
    obtain ⟨times, equal⟩ := dvd
    omega
  · intro same
    rw [same, sub_self]
    rfl

section Files

variable {files : Files} {live ids : List ℕ} {fuel : ℕ} {fileid : Int64} {file : ℕ}

/-- A file with the id is found, or none is open. -/
def Found (files : Files) (live : List ℕ) (fileid : Int64) : Option ℕ → Prop
  | some file => file ∈ live ∧ files.fileid file = fileid
  | none => ∀ file ∈ live, files.fileid file ≠ fileid

/-- What the tree of the open files is for. -/
structure Sorted (files : Files) (live : List ℕ) : Prop where
  sorted : ∃ ids, ids.Perm live ∧ Stands files.heap files.openfiles ids ∧ ids.Pairwise fun x y => (files.fileid x).toInt < (files.fileid y).toInt
  finds : ∀ fileid fuel, live.length ≤ fuel → ∃ result, files.lookup fuel fileid = some result ∧ Found files live fileid result

/-- The files are sorted, and no two ids are far apart. -/
structure Good (files : Files) (live ids : List ℕ) : Prop where
  perm : ids.Perm live
  stands : Stands files.heap files.openfiles ids
  sorted : ids.Pairwise fun x y => (files.fileid x).toInt < (files.fileid y).toInt
  near : ∀ x ∈ ids, ∀ y ∈ ids, Close (files.fileid x) (files.fileid y)

theorem compare_eq : files.compare fileid file = .eq ↔ files.fileid file = fileid := by
  unfold Files.compare
  rw [eq_comm (a := files.fileid file), ← difference_eq_zero]
  split
  · exact iff_of_false (by decide) (by omega)
  · split
    · exact iff_of_false (by decide) (by omega)
    · exact iff_of_true rfl (by omega)

theorem compare_lt : files.compare fileid file = .lt ↔ difference fileid (files.fileid file) < 0 := by
  unfold Files.compare
  split
  · exact iff_of_true rfl (by omega)
  · split
    · exact iff_of_false (by decide) (by omega)
    · exact iff_of_false (by decide) (by omega)

theorem compare_gt : files.compare fileid file = .gt ↔ 0 < difference fileid (files.fileid file) := by
  unfold Files.compare
  split
  · exact iff_of_false (by decide) (by omega)
  · split
    · exact iff_of_true rfl (by omega)
    · exact iff_of_false (by decide) (by omega)

theorem lookup_good (good : Good files live ids) (enough : ids.length ≤ fuel) (fileid : Int64) :
    ∃ result, files.lookup fuel fileid = some result ∧ Found files live fileid result := by
  by_cases isOpen : ∃ file ∈ ids, files.fileid file = fileid
  · obtain ⟨file, member, rfl⟩ := isOpen
    have follows : ids.Pairwise (Follows (files.compare (files.fileid file))) :=
      good.sorted.imp_of_mem fun {x y} first second less => by
        unfold Follows
        rw [compare_lt, compare_lt, compare_gt, compare_gt, difference_close (good.near file member x first),
          difference_close (good.near file member y second)]
        omega
    obtain ⟨result, searched, finds⟩ := search_stands good.stands follows enough
    refine ⟨result, searched, ?_⟩
    cases result with
    | some other => exact ⟨good.perm.mem_iff.mp finds.1, compare_eq.mp finds.2⟩
    | none => exact fun other there same => finds other (good.perm.mem_iff.mpr there) (compare_eq.mpr same)
  · obtain ⟨result, searched, inside⟩ := @search_total (files.compare fileid) _ _ _ _ good.stands enough
    refine ⟨result, searched, ?_⟩
    cases result with
    | some other => exact absurd ⟨other, (inside other rfl).1, compare_eq.mp (inside other rfl).2⟩ isOpen
    | none => exact fun other there same => isOpen ⟨other, good.perm.mem_iff.mpr there, same⟩

theorem Good.toSorted (good : Good files live ids) : Sorted files live :=
  ⟨⟨ids, good.perm, good.stands, good.sorted⟩, fun fileid _ enough => lookup_good good (good.perm.length_eq ▸ enough) fileid⟩

/-- A file with the id stops the loop. -/
theorem locate_found {root : ℕ} (found : search (files.compare fileid) fuel files.heap (some root) = some (some file)) :
    files.locate fileid fuel root = some (file, 0) := by
  induction fuel generalizing root with
  | zero => cases found
  | succ fuel ih =>
    have empty : search (files.compare fileid) fuel files.heap none = some none := by cases fuel <;> rfl
    rw [search] at found
    rw [Files.locate]
    cases compared : files.compare fileid root with
    | lt =>
      rw [compared] at found
      dsimp only at found
      rw [if_pos (compare_lt.mp compared)]
      cases child : (files.heap root).left with
      | none =>
        rw [child, empty] at found
        cases found
      | some left =>
        rw [child] at found
        exact ih found
    | gt =>
      rw [compared] at found
      dsimp only at found
      have more := compare_gt.mp compared
      rw [if_neg (by omega), if_pos more]
      cases child : (files.heap root).right with
      | none =>
        rw [child, empty] at found
        cases found
      | some right =>
        rw [child] at found
        exact ih found
    | eq =>
      rw [compared] at found
      cases found
      have zero := difference_eq_zero.mpr (compare_eq.mp compared).symm
      rw [if_neg (by omega), if_neg (by omega), zero]

/-- Otherwise it ends at the free place. -/
theorem locate_place {root : ℕ} (absent : ∀ other ∈ met (files.goesLeft fileid) fuel files.heap (some root), files.fileid other ≠ fileid) :
    files.locate fileid fuel root = (place (files.goesLeft fileid) fuel files.heap root).map fun spot =>
      (spot.1, difference fileid (files.fileid spot.1)) := by
  induction fuel generalizing root with
  | zero => rfl
  | succ fuel ih =>
    rw [met, List.forall_mem_cons] at absent
    rw [Files.locate, place]
    by_cases less : difference fileid (files.fileid root) < 0
    · have side : sideOf (files.goesLeft fileid) root = .left := if_pos (decide_eq_true less)
      rw [if_pos less, side]
      rw [side] at absent
      change (match (files.heap root).left with | some left => files.locate fileid fuel left | none => _) =
        Option.map _ (match (files.heap root).left with | some child => place _ fuel files.heap child | none => _)
      have rest := absent.2
      change ∀ other ∈ met _ fuel files.heap (files.heap root).left, _ at rest
      cases child : (files.heap root).left with
      | none => rfl
      | some left =>
        rw [child] at rest
        exact ih rest
    · have more : 0 < difference fileid (files.fileid root) := by
        have := mt difference_eq_zero.mp fun same => absent.1 same.symm
        omega
      have side : sideOf (files.goesLeft fileid) root = .right := if_neg fun left => less (of_decide_eq_true left)
      rw [if_neg less, if_pos more, side]
      rw [side] at absent
      change (match (files.heap root).right with | some right => files.locate fileid fuel right | none => _) =
        Option.map _ (match (files.heap root).right with | some child => place _ fuel files.heap child | none => _)
      have rest := absent.2
      change ∀ other ∈ met _ fuel files.heap (files.heap root).right, _ at rest
      cases child : (files.heap root).right with
      | none => rfl
      | some right =>
        rw [child] at rest
        exact ih rest

theorem close_comm {one two : Int64} (close : Close one two) : Close two one := by
  unfold Close at *
  rwa [abs_sub_comm]

theorem close_self (one : Int64) : Close one one := by
  unfold Close
  rw [sub_self]
  decide

/-- The id of a file is one that can be told from those of the others. -/
def Apart (files : Files) (fileid : Int64) (others : List ℕ) : Prop :=
  ∀ other ∈ others, Close fileid (files.fileid other) ∧ fileid ≠ files.fileid other

/-- A file that came to its place. -/
theorem good_placed {heap : Heap} {root : Option ℕ} {more : List ℕ} (good : Good files live ids) (apart : Apart files (files.fileid file) ids)
    {goes : ℕ → Bool} (agree : ∀ other ∈ ids, goes other = files.goesLeft (files.fileid file) other) (enough : ids.length ≤ fuel)
    (placed : Placed goes file fuel files.heap files.openfiles ids more) (stands : Stands heap root more) :
    Good { files with heap, openfiles := root } (file :: live) more := by
  refine ⟨placed.perm.trans (good.perm.cons file), stands, ?_, fun x first y second => ?_⟩
  · refine (placed.pairwise (fun x y => (files.fileid x).toInt < (files.fileid y).toInt) (fun x y z => lt_trans) good.sorted).mpr
      fun other member => ?_
    have inside := met_subset good.stands enough other member
    obtain ⟨close, differ⟩ := apart other inside
    have notSame := mt Int64.toInt_inj.mp differ
    rw [agree other inside, Files.goesLeft, decide_eq_true_eq, decide_eq_false_iff_not, difference_close close]
    omega
  · rcases List.mem_cons.mp (placed.perm.mem_iff.mp first) with rfl | firstOld
    · rcases List.mem_cons.mp (placed.perm.mem_iff.mp second) with rfl | secondOld
      · exact close_self _
      · exact (apart y secondOld).1
    · rcases List.mem_cons.mp (placed.perm.mem_iff.mp second) with rfl | secondOld
      · exact close_comm (apart x firstOld).1
      · exact good.near x firstOld y secondOld

/-- A file is put where the loop ends. The ids of the files that are there are known to the loop. -/
theorem add_good (old : Files) (good : Good files live ids) (fresh : file ∉ ids) (apart : Apart files (files.fileid file) ids)
    (enough : ids.length < fuel) (heaps : old.heap = files.heap) (roots : old.openfiles = files.openfiles)
    (same : ∀ other ∈ ids, old.fileid other = files.fileid other) :
    ∃ spot after more, old.locateRoot fuel (files.fileid file) = some spot ∧ (∀ near d, spot = some (near, d) → d ≠ 0) ∧
      files.addAt fuel spot file = some after ∧ Good after (file :: live) more := by
  obtain ⟨heap, openfiles, fileids⟩ := files
  dsimp only at heaps roots same ⊢
  cases openfiles with
  | none =>
    have stands : Stands heap none ids := good.stands
    have empty : ids = [] := by
      obtain ⟨shape, isRoot, -, -, rfl, -⟩ := stands
      rw [Shape.root_eq_none.mp isRoot.symm]
      rfl
    subst empty
    obtain ⟨after, final, added, result⟩ : ∃ after final, getAdd .left fuel heap none none file = some (after, final) ∧
        Stands after final (insertAt .left none file []) := PtreeChange.getAdd_stands stands fresh (fun _ none => by cases none) enough
    refine ⟨none, ⟨after, final, fileids⟩, [file], ?_, fun _ _ none => (by cases none), ?_, ?_⟩
    · rw [Files.locateRoot, roots]
    · rw [Files.addAt, getAddBefore, added]
      rfl
    · exact good_placed good apart (fun other member => absurd member List.not_mem_nil) (Nat.zero_le fuel)
        (placed_empty : Placed (fun _ => true) file fuel heap none [] [file]) result
  | some root =>
    have stands : Stands heap (some root) ids := good.stands
    have agree : ∀ other ∈ ids, old.goesLeft (fileids file) other = Files.goesLeft ⟨heap, some root, fileids⟩ (fileids file) other :=
      fun other member => by rw [Files.goesLeft, Files.goesLeft, same other member]
    obtain ⟨near, side, found, member, way, -, placed⟩ : ∃ near side, place (old.goesLeft (fileids file)) fuel heap root = some (near, side) ∧
        near ∈ ids ∧ side = sideOf (old.goesLeft (fileids file)) near ∧ (heap near).child side = none ∧
        Placed (old.goesLeft (fileids file)) file fuel heap (some root) ids (insertAt side (some near) file ids) :=
      place_stands stands enough.le
    have absent : ∀ other ∈ met (old.goesLeft (fileids file)) fuel old.heap (some root), old.fileid other ≠ fileids file :=
      fun other there => by
        rw [heaps] at there
        have inside := met_subset stands enough.le other there
        rw [same other inside]
        exact fun equal => (apart other inside).2 equal.symm
    obtain ⟨after, final, added, result⟩ : ∃ after final, getAdd side fuel heap (some root) (some near) file = some (after, final) ∧
        Stands after final (insertAt side (some near) file ids) :=
      PtreeChange.getAdd_stands stands fresh (fun other equal => by cases equal; exact member) enough
    have nonzero : difference (fileids file) (old.fileid near) ≠ 0 := fun zero => by
      rw [difference_eq_zero, same near member] at zero
      exact (apart near member).2 zero
    refine ⟨some (near, difference (fileids file) (old.fileid near)), ⟨after, final, fileids⟩, insertAt side (some near) file ids, ?_,
      fun _ _ equal => ?_, ?_, ?_⟩
    · rw [Files.locateRoot, roots]
      dsimp only
      rw [locate_place absent, heaps, found]
      rfl
    · cases equal
      exact nonzero
    · rw [Files.addAt]
      dsimp only
      by_cases less : difference (fileids file) (old.fileid near) < 0
      · have left : side = .left := way.trans (if_pos (decide_eq_true less))
        rw [left] at added
        rw [if_pos less, getAddBefore, added]
        rfl
      · have right : side = .right := way.trans (if_neg fun left => less (of_decide_eq_true left))
        rw [right] at added
        rw [if_neg less, getAddAfter, added]
        rfl
    · exact good_placed good apart agree enough.le placed result

theorem delete_good (good : Good files live ids) (there : file ∈ ids) (enough : ids.length < fuel) :
    ∃ after, files.delete fuel file = some after ∧ after.fileid = files.fileid ∧ Good after (live.erase file) (ids.erase file) := by
  obtain ⟨heap, openfiles, deleted, result⟩ := PtreeChange.getDel_stands good.stands there enough
  refine ⟨{ files with heap, openfiles }, ?_, rfl, good.perm.erase file, result, good.sorted.sublist List.erase_sublist, ?_⟩
  · rw [Files.delete, deleted]
    rfl
  · exact fun x first y second => good.near x (List.mem_of_mem_erase first) y (List.mem_of_mem_erase second)

/-- A file that is not in the tree can get any id. -/
theorem setFileid_good (good : Good files live ids) (fresh : file ∉ ids) (fileid : Int64) : Good (files.setFileid file fileid) live ids := by
  have same : ∀ other ∈ ids, (files.setFileid file fileid).fileid other = files.fileid other := fun other member =>
    Function.update_of_ne (fun equal : other = file => fresh (equal ▸ member)) _ _
  refine ⟨good.perm, good.stands, good.sorted.imp_of_mem fun {x y} first second less => ?_, fun x first y second => ?_⟩
  · rwa [same x first, same y second]
  · rw [same x first, same y second]
    exact good.near x first y second

theorem apart_setFileid (apart : Apart files fileid ids) (fresh : file ∉ ids) :
    Apart (files.setFileid file fileid) ((files.setFileid file fileid).fileid file) ids := by
  intro other member
  have same : (files.setFileid file fileid).fileid other = files.fileid other := Function.update_of_ne (fun equal : other = file => fresh (equal ▸ member)) _ _
  have own : (files.setFileid file fileid).fileid file = fileid := Function.update_self _ _ _
  rw [same, own]
  exact apart other member

/-- A file becomes the child of the last one on its way. -/
theorem addedAt_good (good : Good files live ids) (fresh : file ∉ ids) (apart : Apart files (files.fileid file) ids) (enough : ids.length < fuel) :
    ∃ near heap root more, files.placeRoot fuel (files.fileid file) = some near ∧
      getAddedAt fuel (putAt files.heap files.openfiles near file).1 (putAt files.heap files.openfiles near file).2 (near.map Prod.fst) file =
        some (heap, root) ∧ Good { files with heap, openfiles := root } (file :: live) more := by
  obtain ⟨heap, openfiles, fileids⟩ := files
  cases openfiles with
  | none =>
    have stands : Stands heap none ids := good.stands
    have empty : ids = [] := by
      obtain ⟨shape, isRoot, -, -, rfl, -⟩ := stands
      rw [Shape.root_eq_none.mp isRoot.symm]
      rfl
    subst empty
    obtain ⟨after, final, added, result⟩ : ∃ after final, getAddedAt fuel (putAt heap none none file).1 (putAt heap none none file).2 none file =
        some (after, final) ∧ Stands after final [file] := PtreeChange.getAddedAt_empty fuel none
    exact ⟨none, after, final, [file], rfl, added, good_placed good apart (fun other member => absurd member List.not_mem_nil) (Nat.zero_le fuel)
      (placed_empty : Placed (fun _ => true) file fuel heap none [] [file]) result⟩
  | some root =>
    have stands : Stands heap (some root) ids := good.stands
    obtain ⟨near, side, found, member, -, free, placed⟩ : ∃ near side,
        place (Files.goesLeft ⟨heap, some root, fileids⟩ (fileids file)) fuel heap root = some (near, side) ∧ near ∈ ids ∧
        side = sideOf (Files.goesLeft ⟨heap, some root, fileids⟩ (fileids file)) near ∧ (heap near).child side = none ∧
        Placed (Files.goesLeft ⟨heap, some root, fileids⟩ (fileids file)) file fuel heap (some root) ids (insertAt side (some near) file ids) :=
      place_stands stands enough.le
    obtain ⟨after, final, added, result⟩ := PtreeChange.getAddedAt_stands stands fresh member free enough
    refine ⟨some (near, side), after, final, _, ?_, added, good_placed good apart (fun _ _ => rfl) enough.le placed result⟩
    rw [Files.placeRoot]
    dsimp only
    rw [found]
    rfl

/-- A file takes the id of another one that is sought from then on. -/
theorem rekey_good (good : Good files live ids) (there : file ∈ ids) (enough : ids.length < fuel) (apart : Apart files fileid (ids.erase file)) :
    ∃ after more, files.updateOpenfileFileidLocked fuel file fileid = some after ∧ Good after live more := by
  have nodup : ids.Nodup := by
    obtain ⟨shape, -, -, -, -, nodup⟩ := good.stands
    exact nodup
  obtain ⟨without, deleted, fileids, goodWithout⟩ := delete_good good there enough
  have fresh : file ∉ ids.erase file := fun member => (nodup.mem_erase_iff.mp member).1 rfl
  have shorter : (ids.erase file).length < fuel := List.length_erase_le.trans_lt enough
  have apartWithout : Apart without fileid (ids.erase file) := fun other member => by
    rw [fileids]
    exact apart other member
  obtain ⟨near, heap, root, more, found, added, goodAfter⟩ :=
    addedAt_good (setFileid_good goodWithout fresh fileid) fresh (apart_setFileid apartWithout fresh) shorter
  have member : file ∈ live := good.perm.mem_iff.mp there
  refine ⟨_, more, ?_, ⟨goodAfter.perm.trans (List.perm_cons_erase member).symm, goodAfter.stands, goodAfter.sorted, goodAfter.near⟩⟩
  have own : (without.setFileid file fileid).fileid file = fileid := Function.update_self _ _ _
  rw [own] at found
  rw [Files.updateOpenfileFileidLocked, deleted]
  simp only [Option.bind_eq_bind, Option.bind_some]
  rw [found]
  simp only [Option.bind_some]
  rw [added]
  rfl

/-- A file is opened for the first time, or is open already. -/
theorem create_good (good : Good files live ids) (fresh : file ∉ ids) (close : ∀ other ∈ ids, Close fileid (files.fileid other))
    (enough : ids.length < fuel) : ∃ result after more, files.createFile fuel fileid file = some (result, after) ∧
      Good after (if ∃ other ∈ live, files.fileid other = fileid then live else file :: live) more := by
  obtain ⟨found, searched, finds⟩ := lookup_good good enough.le fileid
  cases found with
  | some other =>
    have isOpen : ∃ other ∈ live, files.fileid other = fileid := ⟨other, finds⟩
    cases root : files.openfiles with
    | none =>
      rw [Files.lookup, root] at searched
      cases fuel <;> cases searched
    | some root =>
      rw [Files.lookup, root] at searched
      refine ⟨other, files, ids, ?_, by rwa [if_pos isOpen]⟩
      rw [Files.createFile, Files.locateRoot, root]
      dsimp only
      rw [locate_found searched]
      rfl
  | none =>
    have notOpen : ¬∃ other ∈ live, files.fileid other = fileid := fun ⟨other, member, same⟩ => finds other member same
    have apart : Apart files fileid ids := fun other member =>
      ⟨close other member, fun same => finds other (good.perm.mem_iff.mp member) same.symm⟩
    have own : (files.setFileid file fileid).fileid file = fileid := Function.update_self _ _ _
    have unchanged : ∀ other ∈ ids, files.fileid other = (files.setFileid file fileid).fileid other := fun other member =>
      (Function.update_of_ne (fun equal : other = file => fresh (equal ▸ member)) _ _).symm
    obtain ⟨spot, after, more, located, nonzero, added, goodAfter⟩ :=
      add_good files (setFileid_good good fresh fileid) fresh (apart_setFileid apart fresh) enough rfl rfl unchanged
    rw [own] at located
    refine ⟨file, after, more, ?_, by rwa [if_neg notOpen]⟩
    rw [Files.createFile, located]
    cases spot with
    | none =>
      simp only [Option.bind_eq_bind, Option.bind_some]
      rw [added]
      rfl
    | some spot =>
      simp only [Option.bind_eq_bind, Option.bind_some]
      rw [if_neg (nonzero spot.1 spot.2 rfl), added]
      rfl

/-- A file that was uploaded gets the id that it has on the server. -/
theorem update_good (good : Good files live ids) {taskid newfileid : Int64} {sameWriteid : Bool} (enough : ids.length < fuel)
    (apart : sameWriteid = true → ∀ file ∈ ids, files.fileid file = -taskid → Apart files newfileid (ids.erase file)) :
    ∃ after more, files.updateOpenfile fuel taskid newfileid sameWriteid = some after ∧ Good after live more := by
  obtain ⟨found, searched, finds⟩ := lookup_good good enough.le (-taskid)
  rw [Files.updateOpenfile, searched]
  simp only [Option.bind_eq_bind, Option.bind_some]
  cases found with
  | none => exact ⟨files, ids, rfl, good⟩
  | some file =>
    cases sameWriteid with
    | false => exact ⟨files, ids, rfl, good⟩
    | true =>
      have there : file ∈ ids := good.perm.mem_iff.mpr finds.1
      have nodup : ids.Nodup := by
        obtain ⟨shape, -, -, -, -, nodup⟩ := good.stands
        exact nodup
      obtain ⟨without, deleted, fileids, goodWithout⟩ := delete_good good there enough
      have fresh : file ∉ ids.erase file := fun member => (nodup.mem_erase_iff.mp member).1 rfl
      have shorter : (ids.erase file).length < fuel := List.length_erase_le.trans_lt enough
      have apartWithout : Apart without newfileid (ids.erase file) := fun other member => by
        rw [fileids]
        exact apart rfl file there finds.2 other member
      have own : (without.setFileid file newfileid).fileid file = newfileid := Function.update_self _ _ _
      obtain ⟨spot, after, more, located, -, added, goodAfter⟩ :=
        add_good (without.setFileid file newfileid) (setFileid_good goodWithout fresh newfileid) fresh (apart_setFileid apartWithout fresh)
          shorter rfl rfl (fun _ _ => rfl)
      rw [own] at located
      refine ⟨after, more, ?_, ⟨goodAfter.perm.trans (List.perm_cons_erase finds.1).symm, goodAfter.stands, goodAfter.sorted, goodAfter.near⟩⟩
      have swapped : (files.setFileid file newfileid).delete fuel file = some (without.setFileid file newfileid) := by
        unfold Files.delete at deleted ⊢
        obtain ⟨heap, openfiles, removed, -⟩ := PtreeChange.getDel_stands good.stands there enough
        rw [removed] at deleted
        rw [show (files.setFileid file newfileid).heap = files.heap from rfl,
          show (files.setFileid file newfileid).openfiles = files.openfiles from rfl, removed]
        cases deleted
        rfl
      dsimp only
      rw [if_pos rfl, swapped]
      simp only [Option.bind_some]
      rw [located]
      simp only [Option.bind_some]
      exact added

end Files

/-! Runs of opens, closes and changes of ids. -/

/-- The file is new, or is open. -/
def Valid (live : List ℕ) : Op → Prop
  | .create _ file => file ∉ live
  | .update _ _ _ => True
  | .rekey file _ => file ∈ live
  | .close file => file ∈ live

/-- The open files after the operation. -/
def livesOn (files : Files) (live : List ℕ) : Op → List ℕ
  | .create fileid file => if ∃ other ∈ live, files.fileid other = fileid then live else file :: live
  | .update _ _ _ => live
  | .rekey _ _ => live
  | .close file => live.erase file

/-- No difference with an open file overflows, and no file gets the id of another one. -/
def Fits (files : Files) (live : List ℕ) : Op → Prop
  | .create fileid _ => ∀ other ∈ live, Close fileid (files.fileid other)
  | .update taskid newfileid sameWriteid =>
    sameWriteid = true → ∀ file ∈ live, files.fileid file = -taskid → Apart files newfileid (live.erase file)
  | .rekey file fileid => Apart files fileid (live.erase file)
  | .close _ => True

/-- The states that can be reached, with the open files. `allowed` is what the steps meet. -/
inductive Run (allowed : Files → List ℕ → Op → Prop) : Files → List ℕ → Prop
  | start {files : Files} (empty : files.openfiles = none) : Run allowed files []
  | step {files after : Files} {live : List ℕ} (op : Op) (before : Run allowed files live) (valid : Valid live op) (meets : allowed files live op)
      (ran : apply (live.length + 1) files op = some after) : Run allowed after (livesOn files live op)

theorem apart_perm {files : Files} {live ids : List ℕ} {fileid : Int64} (perm : ids.Perm live) (apart : Apart files fileid live) :
    Apart files fileid ids := fun other member => apart other (perm.mem_iff.mp member)

/-- One step keeps the files in order, and does end. -/
theorem apply_good {files : Files} {live ids : List ℕ} (good : Good files live ids) (op : Op) (valid : Valid live op) (fits : Fits files live op) :
    ∃ after more, apply (live.length + 1) files op = some after ∧ Good after (livesOn files live op) more := by
  have enough : ids.length < live.length + 1 := by
    rw [good.perm.length_eq]
    exact Nat.lt_succ_self _
  cases op with
  | create fileid file =>
    obtain ⟨result, after, more, ran, goodAfter⟩ := create_good good (fun member => valid (good.perm.mem_iff.mp member))
      (fun other member => fits other (good.perm.mem_iff.mp member)) enough
    exact ⟨after, more, by rw [apply, ran]; rfl, goodAfter⟩
  | update taskid newfileid sameWriteid =>
    exact update_good good enough fun same file member equal =>
      apart_perm (good.perm.erase file) (fits same file (good.perm.mem_iff.mp member) equal)
  | rekey file fileid => exact rekey_good good (good.perm.mem_iff.mpr valid) enough (apart_perm (good.perm.erase file) fits)
  | close file =>
    obtain ⟨after, deleted, -, goodAfter⟩ := delete_good good (good.perm.mem_iff.mpr valid) enough
    exact ⟨after, _, deleted, goodAfter⟩

theorem run_good {files : Files} {live : List ℕ} (run : Run Fits files live) : ∃ ids, Good files live ids := by
  induction run with
  | @start files empty =>
    exact ⟨[], List.Perm.refl [], ⟨.nil, empty, trivial, trivial, rfl, List.nodup_nil⟩, List.Pairwise.nil,
      fun x member => absurd member List.not_mem_nil⟩
  | step op before valid meets ran ih =>
    obtain ⟨ids, good⟩ := ih
    obtain ⟨after, more, also, goodAfter⟩ := apply_good good op valid meets
    cases ran.symm.trans also
    exact ⟨more, goodAfter⟩

/-- The tree is sorted and every loop finds what is open, as long as no difference overflows and no id is given twice. -/
theorem run_open_sorted {files : Files} {live : List ℕ} (run : Run Fits files live) : Sorted files live := by
  obtain ⟨ids, good⟩ := run_good run
  exact good.toSorted

/-- No file is open. -/
def noFiles : Files := ⟨fun _ => ⟨none, none, none, 0⟩, none, fun _ => 0⟩

/-- A task and a file of the server. -/
theorem run_open_sorted_two : ∃ files live, Run Fits files live ∧ live = [2, 1] ∧ Sorted files live := by
  have one : Run Fits _ _ := .step (.create (-5) 1) (.start (rfl : noFiles.openfiles = none)) List.not_mem_nil
    (fun other member => absurd member List.not_mem_nil) rfl
  have two : Run Fits _ _ := .step (.create 3 2) one (by decide : 2 ∉ [1])
    (fun other member => by
      cases List.mem_singleton.mp member
      exact (by decide : |(3 : Int64).toInt - (-5 : Int64).toInt| < 2 ^ 63)) rfl
  exact ⟨_, _, two, by decide, run_open_sorted two⟩

/-- A static file comes to the left of a task. It is not found after that was closed. -/
theorem run_not_found : ¬∀ files live, Run (fun _ _ _ => True) files live → Sorted files live := fun all => by
  have one : Run (fun _ _ _ => True) _ _ := .step (.create (-5) 1) (.start (rfl : noFiles.openfiles = none)) List.not_mem_nil trivial rfl
  have two : Run (fun _ _ _ => True) _ _ := .step (.create 9223372036854775807 2) one (by decide : 2 ∉ [1]) trivial rfl
  have three : Run (fun _ _ _ => True) _ _ := .step (.create 3 3) two (by decide : 3 ∉ [2, 1]) trivial rfl
  have four : Run (fun _ _ _ => True) _ _ := .step (.close 1) three (by decide : 1 ∈ [3, 2, 1]) trivial rfl
  obtain ⟨result, searched, found⟩ := (all _ _ four).finds 9223372036854775807 3 (by decide)
  have nothing : result = none := Option.some.inj (searched.symm.trans rfl)
  subst nothing
  exact found 2 (by decide) (by decide)

end Pclsync.Proofs.OpenFiles
