import Pclsync.Sync.Scan

/-! Moved items are told from others by numbers of the system. The comparators are orders as long as
the numbers are on one half of the circle that a signed difference can tell apart. -/

namespace Pclsync.Proofs.ScanRename
open Pclsync.Scan Library.Sorting

/-- Both comparators look at one field after the other. -/
def compareFields : List (Element → UInt64) → Element → Element → ℤ
  | [], _, _ => 0
  | field :: fields, f1, f2 =>
    if diff (field f1) (field f2) < 0 then -1 else if 0 < diff (field f1) (field f2) then 1 else compareFields fields f1 f2

theorem compareInode_eq : compareInode = compareFields [Element.inode] := rfl

theorem compareSizeinodemtime_eq : compareSizeinodemtime = compareFields [Element.size, Element.inode, Element.mtimenat] := rfl

/-- The numbers are less than half of the circle apart from one of them. -/
def Arc (values : List UInt64) : Prop := ∃ base, ∀ value ∈ values, (value - base).toNat < 2 ^ 63

/-- All items have the first field on an arc, and those with one value of it have the next ones so. -/
def Arcs : List (Element → UInt64) → List Element → Prop
  | [], _ => True
  | field :: fields, items => Arc (items.map field) ∧ ∀ value, Arcs fields (items.filter fun item => field item = value)

/-- The difference in terms of the numbers on the circle. -/
theorem diff_eq (first second : UInt64) : ∃ gap : ℕ, gap < 2 ^ 64 ∧ (first - second).toNat = gap ∧
    (gap + second.toNat) % 2 ^ 64 = first.toNat ∧ diff first second = if gap < 2 ^ 63 then (gap : ℤ) else gap - 2 ^ 64 := by
  refine ⟨(first - second).toNat, (first - second).toNat_lt, rfl, ?_, ?_⟩
  · rw [UInt64.toNat_sub]
    have := first.toNat_lt
    have := second.toNat_lt
    omega
  · have cond := BitVec.toInt_eq_toNat_cond (first - second).toBitVec
    rw [diff, cond]
    have : (first - second).toBitVec.toNat = (first - second).toNat := rfl
    rw [this]
    split <;> split <;> first | rfl | omega

theorem diff_eq_zero {first second : UInt64} : diff first second = 0 ↔ first = second := by
  obtain ⟨gap, bound, -, sum, eq⟩ := diff_eq first second
  have := first.toNat_lt
  have := second.toNat_lt
  rw [eq, ← UInt64.toNat_inj]
  split <;> omega

/-- On an arc the difference is that of the distances from its start. -/
theorem diff_arc {base first second : UInt64} (left : (first - base).toNat < 2 ^ 63) (right : (second - base).toNat < 2 ^ 63) :
    diff first second = (first - base).toNat - (second - base).toNat := by
  obtain ⟨gap, bound, -, sum, eq⟩ := diff_eq first second
  obtain ⟨one, oneLt, oneEq, oneSum, -⟩ := diff_eq first base
  obtain ⟨two, twoLt, twoEq, twoSum, -⟩ := diff_eq second base
  rw [oneEq] at left ⊢
  rw [twoEq] at right ⊢
  have := base.toNat_lt
  rw [eq]
  split <;> omega

theorem compareFields_eq_zero {fields : List (Element → UInt64)} {f1 f2 : Element} :
    compareFields fields f1 f2 = 0 ↔ ∀ field ∈ fields, field f1 = field f2 := by
  induction fields with
  | nil => simp [compareFields]
  | cons field fields ih =>
    rw [compareFields, List.forall_mem_cons, ← diff_eq_zero, ← ih]
    split
    · omega
    · split <;> omega

theorem compareFields_same {field : Element → UInt64} {fields : List (Element → UInt64)} {f1 f2 : Element}
    (equal : field f1 = field f2) : compareFields (field :: fields) f1 f2 = compareFields fields f1 f2 := by
  have zero := diff_eq_zero.mpr equal
  rw [compareFields, if_neg (by omega), if_neg (by omega)]

section Cons

variable {field : Element → UInt64} {fields : List (Element → UInt64)} {items : List Element}

/-- The numbers of an order start with that of its first item. -/
theorem arc_of_ordered (ordered : Ordered (compareFields (field :: fields)) {item | item ∈ items}) : Arc (items.map field) := by
  by_cases empty : items = []
  · exact ⟨0, by simp [empty]⟩
  · obtain ⟨first, member, before⟩ := ordered.exists_first empty
    refine ⟨field first, List.forall_mem_map.mpr fun item there => ?_⟩
    by_contra far
    obtain ⟨gap, bound, gapEq, sum, eq⟩ := diff_eq (field item) (field first)
    have negative : diff (field item) (field first) < 0 := by
      rw [eq, if_neg (by omega)]
      omega
    have less : compareFields (field :: fields) item first < 0 := by
      rw [compareFields, if_pos negative]
      decide
    have := (ordered.swap first member item there).mpr less
    have := before item there
    omega

theorem ordered_filter (ordered : Ordered (compareFields (field :: fields)) {item | item ∈ items}) (value : UInt64) :
    Ordered (compareFields fields) {item | item ∈ items.filter fun item => field item = value} := by
  refine (ordered.subset fun item member => List.mem_of_mem_filter member).congr fun x first y second => ?_
  have left : field x = value := by simpa using (List.mem_filter.mp first).2
  have right : field y = value := by simpa using (List.mem_filter.mp second).2
  exact compareFields_same (left.trans right.symm)

/-- On an arc the first field decides by its distance from the start. -/
theorem compareFields_arc {base : UInt64} {x y : Element} (left : (field x - base).toNat < 2 ^ 63) (right : (field y - base).toNat < 2 ^ 63) :
    compareFields (field :: fields) x y =
      if (field x - base).toNat < (field y - base).toNat then -1
      else if (field y - base).toNat < (field x - base).toNat then 1
      else compareFields fields x y := by
  rw [compareFields, diff_arc left right]
  by_cases less : (field x - base).toNat < (field y - base).toNat
  · rw [if_pos (by omega), if_pos less]
  · rw [if_neg (by omega), if_neg less]
    by_cases more : (field y - base).toNat < (field x - base).toNat
    · rw [if_pos (by omega), if_pos more]
    · rw [if_neg (by omega), if_neg more]

theorem ordered_of_arc (arc : Arc (items.map field))
    (rest : ∀ value, Ordered (compareFields fields) {item | item ∈ items.filter fun item => field item = value}) :
    Ordered (compareFields (field :: fields)) {item | item ∈ items} := by
  obtain ⟨base, near⟩ := arc
  rw [List.forall_mem_map] at near
  have equal : ∀ {x y : Element}, x ∈ items → y ∈ items → ¬(field x - base).toNat < (field y - base).toNat →
      ¬(field y - base).toNat < (field x - base).toNat → field x = field y := fun {x y} first second one two => by
    have distance := diff_arc (near x first) (near y second)
    exact diff_eq_zero.mp (by omega)
  constructor
  · intro x first y second
    rw [compareFields_arc (near x first) (near y second), compareFields_arc (near y second) (near x first)]
    by_cases less : (field x - base).toNat < (field y - base).toNat
    · rw [if_pos less, if_neg (Nat.lt_asymm less), if_pos less]
      decide
    · by_cases more : (field y - base).toNat < (field x - base).toNat
      · rw [if_neg less, if_pos more, if_pos more]
        decide
      · rw [if_neg less, if_neg more, if_neg more, if_neg less]
        have same := equal first second less more
        exact (rest (field x)).swap x (List.mem_filter.mpr ⟨first, decide_eq_true rfl⟩) y
          (List.mem_filter.mpr ⟨second, decide_eq_true same.symm⟩)
  · intro x first y second z third
    rw [compareFields_arc (near x first) (near y second), compareFields_arc (near y second) (near z third),
      compareFields_arc (near x first) (near z third)]
    intro left right
    by_cases less : (field x - base).toNat < (field z - base).toNat
    · rw [if_pos less]
      decide
    · -- The three have the same field, as neither of the two steps can lead back.
      have one : ¬(field y - base).toNat < (field x - base).toNat := fun back => by
        rw [if_neg (Nat.lt_asymm back), if_pos back] at left
        exact absurd left (by decide)
      have two : ¬(field z - base).toNat < (field y - base).toNat := fun back => by
        rw [if_neg (Nat.lt_asymm back), if_pos back] at right
        exact absurd right (by decide)
      rw [if_neg (by omega), if_neg one] at left
      rw [if_neg (by omega), if_neg two] at right
      rw [if_neg less, if_neg (by omega)]
      have same := equal first second (by omega) one
      have next := equal second third (by omega) two
      exact (rest (field x)).trans x (List.mem_filter.mpr ⟨first, decide_eq_true rfl⟩) y
        (List.mem_filter.mpr ⟨second, decide_eq_true same.symm⟩) z
        (List.mem_filter.mpr ⟨third, decide_eq_true (same.trans next).symm⟩) left right

end Cons

/-- The items are ordered by their first fields, and by the next ones where these are the same. -/
theorem ordered_iff_arcs (fields : List (Element → UInt64)) (items : List Element) :
    Ordered (compareFields fields) {item | item ∈ items} ↔ Arcs fields items := by
  induction fields generalizing items with
  | nil =>
    refine iff_of_true ⟨fun _ _ _ _ => ?_, fun _ _ _ _ _ _ _ _ => le_rfl⟩ trivial
    simp [compareFields]
  | cons field fields ih =>
    constructor
    · exact fun ordered => ⟨arc_of_ordered ordered, fun value => (ih _).mp (ordered_filter ordered value)⟩
    · exact fun arcs => ordered_of_arc arcs.1 fun value => (ih _).mpr (arcs.2 value)

/-- The items are equal on all fields that are compared. -/
def Equal (fields : List (Element → UInt64)) (f1 f2 : Element) : Prop := ∀ field ∈ fields, field f1 = field f2

instance (fields : List (Element → UInt64)) (f1 f2 : Element) : Decidable (Equal fields f1 f2) :=
  inferInstanceAs (Decidable (∀ field ∈ fields, _))

/-- What the matching of gone with new items is for. `calls` are the pairs that are taken for one
item each. -/
structure Matched (cmp : Element → Element → ℤ) (fields : List (Element → UInt64)) (device : Element → UInt64) (olds news : List Element)
    (result : Extracted Element) (calls : List (Element × Element)) : Prop where
  preorder : Ordered cmp {item | item ∈ olds ++ news}
  kept1 : (result.extracted1 ++ result.list1).Perm olds
  kept2 : (result.extracted2 ++ result.list2).Perm news
  lengths : result.extracted1.length = result.extracted2.length
  oneByOne : calls = result.extracted1.zip result.extracted2
  equal : ∀ pair ∈ calls, Equal fields pair.1 pair.2
  others : ∀ old ∈ result.list1, ∀ new ∈ result.list2, ¬Equal fields old new
  stable : ∀ item ∈ olds, (calls.filter fun pair => Equal fields item pair.1) =
    (olds.filter fun old => Equal fields item old).zip (news.filter fun new => Equal fields item new)
  devices : ∀ pair ∈ calls, device pair.1 = device pair.2

/-- The items that are equal to one of them are, one by one, on the same devices before and after. -/
def SameDevices (fields : List (Element → UInt64)) (device : Element → UInt64) (olds news : List Element) : Prop :=
  ∀ item ∈ olds, ∀ pair ∈ (olds.filter fun old => Equal fields item old).zip (news.filter fun new => Equal fields item new),
    device pair.1 = device pair.2

theorem same_eq {fields : List (Element → UInt64)} (item : Element) :
    same (compareFields fields) item = fun other => decide (Equal fields item other) := by
  funext other
  exact decide_eq_decide.mpr compareFields_eq_zero

theorem mem_filter_same {fields : List (Element → UInt64)} {list : List Element} {item other : Element} (member : other ∈ list)
    (equal : Equal fields item other) : other ∈ list.filter (same (compareFields fields) item) := by
  rw [same_eq]
  exact List.mem_filter.mpr ⟨member, decide_eq_true equal⟩

section Match

variable {fields : List (Element → UInt64)} {device : Element → UInt64} {olds news : List Element}

theorem split_of_arcs (arcs : Arcs fields (olds ++ news)) {item : Element} (member : item ∈ olds) :
    Split (compareFields fields) olds news item (extractRepeating (compareFields fields) olds news) :=
  extractRepeating_split ((ordered_iff_arcs fields _).mpr arcs) (List.mem_append_left _ member)
    (fun _ there => List.mem_append_left _ there) (fun _ there => List.mem_append_right _ there)

/-- What is left of the one list and of the other one is not equal. -/
theorem left_differ (arcs : Arcs fields (olds ++ news)) :
    ∀ old ∈ (extractRepeating (compareFields fields) olds news).list1, ∀ new ∈ (extractRepeating (compareFields fields) olds news).list2,
      ¬Equal fields old new := by
  intro old there new here equal
  have member : old ∈ olds := (extractRepeating_perm olds news).1.mem_iff.mp (List.mem_append_right _ there)
  have split := split_of_arcs arcs member
  have one := mem_filter_same there (fun _ _ => rfl : Equal fields old old)
  have two := mem_filter_same here equal
  rw [split.left1] at one
  rw [split.left2] at two
  have fewer := List.length_pos_of_mem one
  have more := List.length_pos_of_mem two
  rw [List.length_drop] at fewer more
  omega

theorem matched_iff (fields : List (Element → UInt64)) (device : Element → UInt64) (olds news : List Element) :
    Matched (compareFields fields) fields device olds news (extractRepeating (compareFields fields) olds news)
        (renames (extractRepeating (compareFields fields) olds news)) ↔
      Arcs fields (olds ++ news) ∧ SameDevices fields device olds news := by
  constructor
  · intro matched
    refine ⟨(ordered_iff_arcs fields _).mp matched.preorder, fun item member pair there => ?_⟩
    rw [← matched.stable item member] at there
    exact matched.devices pair (List.mem_of_mem_filter there)
  · rintro ⟨arcs, devices⟩
    obtain ⟨oldsPerm, newsPerm, lengths⟩ := @extractRepeating_perm _ (compareFields fields) olds news
    have stable : ∀ item ∈ olds, ((renames (extractRepeating (compareFields fields) olds news)).filter fun pair => Equal fields item pair.1) =
        (olds.filter fun old => Equal fields item old).zip (news.filter fun new => Equal fields item new) := fun item member => by
      have pairs := (split_of_arcs arcs member).pairs
      rwa [same_eq item] at pairs
    refine ⟨(ordered_iff_arcs fields _).mpr arcs, oldsPerm, newsPerm, lengths, rfl, fun pair member => ?_, left_differ arcs, stable,
      fun pair member => ?_⟩
    · exact compareFields_eq_zero.mp (extract_equal _ _ pair member)
    · have old : pair.1 ∈ olds := oldsPerm.mem_iff.mp (List.mem_append_left _ (List.of_mem_zip member).1)
      refine devices pair.1 old pair ?_
      rw [← stable pair.1 old]
      exact List.mem_filter.mpr ⟨member, decide_eq_true fun _ _ => rfl⟩

end Match

/-- The items that are taken for one are the right ones if and only if all numbers that are compared
are on arcs, and no item on another device is equal to one that is gone. -/
theorem renames_matched_iff (device : Element → UInt64) (delfolders newfolders delfiles newfiles : List Element) :
    Matched compareInode [Element.inode] Element.deviceid delfolders newfolders (extractRepeating compareInode delfolders newfolders)
          (renameFolders delfolders newfolders) ∧
        Matched compareSizeinodemtime [Element.size, Element.inode, Element.mtimenat] device delfiles newfiles
          (extractRepeating compareSizeinodemtime delfiles newfiles) (renameFiles delfiles newfiles) ↔
      (Arcs [Element.inode] (delfolders ++ newfolders) ∧ SameDevices [Element.inode] Element.deviceid delfolders newfolders) ∧
        Arcs [Element.size, Element.inode, Element.mtimenat] (delfiles ++ newfiles) ∧
          SameDevices [Element.size, Element.inode, Element.mtimenat] device delfiles newfiles := by
  unfold renameFolders renameFiles
  rw [compareInode_eq, compareSizeinodemtime_eq, matched_iff, matched_iff]

/-- A folder with the inode 7. -/
def folderOn (deviceid : UInt64) : Element := ⟨0, 0, 7, deviceid, 0, 0, true, [97]⟩

/-- A folder that is gone from one device is taken for one that is new on another. -/
theorem renames_other_device : ¬∀ (device : Element → UInt64) (delfolders newfolders delfiles newfiles : List Element),
    Matched compareInode [Element.inode] Element.deviceid delfolders newfolders (extractRepeating compareInode delfolders newfolders)
        (renameFolders delfolders newfolders) ∧
      Matched compareSizeinodemtime [Element.size, Element.inode, Element.mtimenat] device delfiles newfiles
        (extractRepeating compareSizeinodemtime delfiles newfiles) (renameFiles delfiles newfiles) := fun matched => by
  have folders := (matched (fun _ => 0) [folderOn 1] [folderOn 2] [] []).1
  have devices := ((matched_iff [Element.inode] Element.deviceid [folderOn 1] [folderOn 2]).mp folders).2
  exact absurd (devices (folderOn 1) List.mem_cons_self (folderOn 1, folderOn 2) (by decide)) (by decide)

end Pclsync.Proofs.ScanRename
