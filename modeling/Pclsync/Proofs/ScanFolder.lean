import Pclsync.Sync.Scan

/-! A name is compared with the rows that have it, whatever its neighbours are. -/

namespace Pclsync.Proofs.ScanFolder
open Pclsync.Scan Library.Sorting

theorem strcmp_self (s1 : Name) : strcmp s1 s1 = 0 := by
  induction s1 with
  | nil => rfl
  | cons first s1 ih => rw [strcmp, if_neg (UInt8.lt_irrefl _), if_neg (UInt8.lt_irrefl _), ih]

theorem strcmp_eq_zero {s1 s2 : Name} : strcmp s1 s2 = 0 ↔ s1 = s2 := by
  constructor
  · intro equal
    induction s1, s2 using strcmp.induct with
    | case1 => rfl
    | case2 => exact absurd equal (by simp [strcmp])
    | case3 => exact absurd equal (by simp [strcmp])
    | case4 first s1 second s2 less => exact absurd equal (by simp [strcmp, less])
    | case5 first s1 second s2 notLess more => exact absurd equal (by simp [strcmp, notLess, more])
    | case6 first s1 second s2 notLess notMore ih =>
      rw [strcmp, if_neg notLess, if_neg notMore] at equal
      rw [ih equal, UInt8.le_antisymm (UInt8.not_lt.mp notMore) (UInt8.not_lt.mp notLess)]
  · rintro rfl
    exact strcmp_self s1

theorem strcmp_swap (s1 s2 : Name) : strcmp s2 s1 = -strcmp s1 s2 := by
  induction s1, s2 using strcmp.induct with
  | case1 => rfl
  | case2 => rfl
  | case3 => rfl
  | case4 first s1 second s2 less => rw [strcmp, strcmp, if_neg (UInt8.lt_asymm less), if_pos less, if_pos less, neg_neg]
  | case5 first s1 second s2 notLess more => rw [strcmp, strcmp, if_pos more, if_neg notLess, if_pos more]
  | case6 first s1 second s2 notLess notMore ih =>
    rw [strcmp, strcmp, if_neg notMore, if_neg notLess, if_neg notLess, if_neg notMore, ih]

theorem strcmp_trans {s1 s2 s3 : Name} (left : strcmp s1 s2 ≤ 0) (right : strcmp s2 s3 ≤ 0) : strcmp s1 s3 ≤ 0 := by
  induction s1, s2 using strcmp.induct generalizing s3 with
  | case1 => exact right
  | case2 second s2 =>
    cases s3 with
    | nil => exact absurd right (by simp [strcmp])
    | cons third s3 => simp [strcmp]
  | case3 => exact absurd left (by simp [strcmp])
  | case4 first s1 second s2 less =>
    cases s3 with
    | nil => exact absurd right (by simp [strcmp])
    | cons third s3 =>
      rw [strcmp] at right
      by_cases more : third < second
      · rw [if_neg (UInt8.lt_asymm more), if_pos more] at right
        exact absurd right (by decide)
      · rw [strcmp, if_pos (UInt8.lt_of_lt_of_le less (UInt8.not_lt.mp more))]
        decide
  | case5 first s1 second s2 notLess more =>
    rw [strcmp, if_neg notLess, if_pos more] at left
    exact absurd left (by decide)
  | case6 first s1 second s2 notLess notMore ih =>
    have same : first = second := UInt8.le_antisymm (UInt8.not_lt.mp notMore) (UInt8.not_lt.mp notLess)
    subst same
    cases s3 with
    | nil => exact absurd right (by simp [strcmp])
    | cons third s3 =>
      rw [strcmp, if_neg notLess, if_neg notMore] at left
      rw [strcmp] at right ⊢
      split
      · decide
      · rw [if_neg (by assumption)] at right
        split at right
        · exact absurd right (by decide)
        · rw [if_neg (by assumption)]
          exact ih left right

theorem ordered : Ordered folderlistCmp Set.univ where
  swap x _ y _ := by
    have := strcmp_swap x.name y.name
    unfold folderlistCmp
    omega
  trans _ _ _ _ _ _ left right := strcmp_trans left right

theorem same_eq (item : Element) : same folderlistCmp item = fun other => decide (other.name = item.name) := by
  funext other
  exact decide_eq_decide.mpr (strcmp_eq_zero.trans eq_comm)

/-- The elements with a name. -/
def named (name : Name) (elements : List Element) : List Element := elements.filter fun element => element.name = name

theorem named_sort (name : Name) (elements : List Element) : named name (sort folderlistCmp elements) = named name elements := by
  have stable := sort_filter ordered (fun element _ => Set.mem_univ element : ∀ element ∈ elements, element ∈ Set.univ)
    (Set.mem_univ (⟨0, 0, 0, 0, 0, 0, false, name⟩ : Element))
  rwa [same_eq] at stable

theorem sorted (elements : List Element) : Sorted folderlistCmp (sort folderlistCmp elements) :=
  sort_sorted ordered fun element _ => Set.mem_univ element

theorem named_cons_pos {name : Name} {element : Element} {elements : List Element} (here : element.name = name) :
    named name (element :: elements) = element :: named name elements :=
  List.filter_cons_of_pos (decide_eq_true here)

theorem named_cons_neg {name : Name} {element : Element} {elements : List Element} (differ : element.name ≠ name) :
    named name (element :: elements) = named name elements :=
  List.filter_cons_of_neg (by simpa using differ)

/-- A name that comes before the first one of a list is not in it. -/
theorem named_later {fdisk fdb : Element} {elements : List Element} (sorted : Sorted folderlistCmp (fdb :: elements))
    (before : strcmp fdisk.name fdb.name < 0) : named fdisk.name (fdb :: elements) = [] := by
  have none := filter_same_later ordered (Set.mem_univ fdisk) (Set.mem_univ fdisk) (fun element _ => Set.mem_univ element) sorted before
    (decide_eq_true (strcmp_self fdisk.name))
  rwa [same_eq] at none

theorem walk_nil (disklist : List Element) : walk disklist [] = disklist.map .disk := by
  induction disklist with
  | nil => rw [walk, List.map_nil, List.map_nil]
  | cons fdisk disklist ih => rw [walk, ih, List.map_cons]

/-- What is found for a name. -/
def foundFor (name : Name) (steps : List Found) : List Found := steps.filter fun found => found.name = name

theorem foundFor_cons_pos (name : Name) (found : Found) {steps : List Found} (here : found.name = name) :
    foundFor name (found :: steps) = found :: foundFor name steps :=
  List.filter_cons_of_pos (decide_eq_true here)

theorem foundFor_cons_neg (name : Name) (found : Found) {steps : List Found} (differ : found.name ≠ name) :
    foundFor name (found :: steps) = foundFor name steps :=
  List.filter_cons_of_neg (by simpa using differ)

/-- It depends on the elements with this name alone. -/
theorem foundFor_walk (name : Name) {disklist dblist : List Element} (sortedDisk : Sorted folderlistCmp disklist)
    (sortedDb : Sorted folderlistCmp dblist) :
    foundFor name (walk disklist dblist) = walk (named name disklist) (named name dblist) := by
  induction disklist, dblist using walk.induct with
  | case1 dblist =>
    rw [walk, foundFor, List.filter_map]
    exact (walk.eq_1 (named name dblist)).symm
  | case2 fdisk disklist ih =>
    rw [walk_nil, foundFor, List.filter_map]
    exact (walk_nil (named name (fdisk :: disklist))).symm
  | case3 fdisk disklist fdb dblist equal ih =>
    have rest := ih sortedDisk.tail sortedDb.tail
    have names := strcmp_eq_zero.mp equal
    rw [walk, if_pos equal]
    by_cases here : fdisk.name = name
    · rw [foundFor_cons_pos name (.both fdisk fdb) here, rest, named_cons_pos here, named_cons_pos (names ▸ here), walk, if_pos equal]
    · rw [foundFor_cons_neg name (.both fdisk fdb) here, rest, named_cons_neg here, named_cons_neg (names ▸ here)]
  | case4 fdisk disklist fdb dblist differ less ih =>
    have rest := ih sortedDisk.tail sortedDb
    rw [walk, if_neg differ, if_pos less]
    by_cases here : fdisk.name = name
    · subst here
      rw [foundFor_cons_pos fdisk.name (.disk fdisk) rfl, rest, named_cons_pos rfl, named_later sortedDb less, walk_nil, walk_nil, List.map_cons]
    · rw [foundFor_cons_neg name (.disk fdisk) here, rest, named_cons_neg here]
  | case5 fdisk disklist fdb dblist differ notLess ih =>
    have rest := ih sortedDisk sortedDb.tail
    rw [walk, if_neg differ, if_neg notLess]
    by_cases here : fdb.name = name
    · subst here
      have before : strcmp fdb.name fdisk.name < 0 := by
        rw [strcmp_swap]
        omega
      rw [foundFor_cons_pos fdb.name (.row fdb) rfl, rest, named_cons_pos rfl, named_later sortedDisk before, walk, walk, List.map_cons]
    · rw [foundFor_cons_neg name (.row fdb) here, rest, named_cons_neg here]

/-- The element with a name, where no two have one. -/
def find (name : Name) (elements : List Element) : Option Element := elements.find? fun element => element.name = name

theorem named_eq {name : Name} {elements : List Element} (names : (elements.map Element.name).Nodup) :
    named name elements = (find name elements).toList := by
  induction elements with
  | nil => rfl
  | cons element elements ih =>
    rw [List.map_cons, List.nodup_cons] at names
    unfold find
    by_cases here : element.name = name
    · have none : named name elements = [] := List.filter_eq_nil_iff.mpr fun other member => by
        rw [decide_eq_true_eq]
        rintro rfl
        exact names.1 (here ▸ List.mem_map_of_mem member)
      have first : (element :: elements).find? (fun element => element.name = name) = some element :=
        List.find?_cons_of_pos (decide_eq_true here)
      rw [named_cons_pos here, none, first, Option.toList_some]
    · rw [named_cons_neg here, ih names.2, List.find?_cons_of_neg (by simpa using here)]
      rfl

theorem find_mem {name : Name} {elements : List Element} {element : Element} (found : find name elements = some element) :
    element ∈ elements ∧ element.name = name :=
  ⟨List.mem_of_find?_eq_some found, by simpa using List.find?_some found⟩

/-- The steps of a scan. -/
def steps (disk : Disk) (rows : Rows) : List Found := walk (sort folderlistCmp disk.entries) (sort folderlistCmp rows.list)

/-- The steps for a name are those of the loop for this name alone. -/
theorem foundFor_steps (disk : Disk) (rows : Rows) (name : Name) : foundFor name (steps disk rows) =
    walk (find name disk.entries).toList ((find name rows.folders).toList ++ (find name rows.files).toList) := by
  have split : named name rows.list = named name rows.folders ++ named name rows.files := List.filter_append _ _
  rw [steps, foundFor_walk name (sorted _) (sorted _), named_sort, named_sort, split, named_eq disk.names, named_eq rows.folderNames,
    named_eq rows.fileNames]

/-- Both elements of a step have one name. -/
theorem walk_both {disklist dblist : List Element} {fdisk fdb : Element} (member : .both fdisk fdb ∈ walk disklist dblist) :
    fdisk.name = fdb.name := by
  induction disklist, dblist using walk.induct with
  | case1 dblist =>
    rw [walk] at member
    simp at member
  | case2 fdisk disklist ih =>
    rw [walk_nil] at member
    simp at member
  | case3 other disklist row dblist equal ih =>
    rw [walk, if_pos equal] at member
    rcases List.mem_cons.mp member with same | later
    · cases same
      exact strcmp_eq_zero.mp equal
    · exact ih later
  | case4 other disklist row dblist differ less ih =>
    rw [walk, if_neg differ, if_pos less] at member
    rcases List.mem_cons.mp member with same | later
    · cases same
    · exact ih later
  | case5 other disklist row dblist differ notLess ih =>
    rw [walk, if_neg differ, if_neg notLess] at member
    rcases List.mem_cons.mp member with same | later
    · cases same
    · exact ih later

section Scan

variable {scanner : Scanner}

theorem addNewElement_name {element : Element} {event : Event} (member : event ∈ scanner.addNewElement element) :
    event.name = element.name := by
  unfold Scanner.addNewElement at member
  split at member
  · cases member
  · split at member
    · cases member
    · split at member
      · cases member
      · rw [List.mem_singleton.mp member]
        rfl

theorem events_name {disklist dblist : List Element} {found : Found} (member : found ∈ walk disklist dblist) {event : Event}
    (reported : event ∈ scanner.events found) : event.name = found.name := by
  cases found with
  | disk fdisk => exact addNewElement_name reported
  | row fdb =>
    rw [List.mem_singleton.mp reported]
    rfl
  | both fdisk fdb =>
    have names := walk_both member
    rw [Scanner.events] at reported
    split at reported
    · split at reported
      · rw [List.mem_singleton.mp reported]
        rfl
      · cases reported
    · rcases List.mem_cons.mp reported with same | later
      · rw [same]
        exact names.symm
      · exact addNewElement_name later

theorem filter_flatMap {steps : List Found} (name : Name) (names : ∀ found ∈ steps, ∀ event ∈ scanner.events found, event.name = found.name) :
    ((steps.flatMap scanner.events).filter fun event => event.name = name) = (foundFor name steps).flatMap scanner.events := by
  induction steps with
  | nil => rfl
  | cons found steps ih =>
    rw [List.flatMap_cons, List.filter_append, ih fun found member => names found (List.mem_cons_of_mem _ member)]
    have own := names found List.mem_cons_self
    by_cases here : found.name = name
    · rw [foundFor_cons_pos name found here, List.flatMap_cons,
        List.filter_eq_self.mpr fun event member => decide_eq_true ((own event member).trans here)]
    · have none : ((scanner.events found).filter fun event => event.name = name) = [] := List.filter_eq_nil_iff.mpr fun event member => by
        rw [decide_eq_true_eq, own event member]
        exact here
      rw [foundFor_cons_neg name found here, none, List.nil_append]

/-- What is reported for a name depends on what has it on the disk and in the database. -/
theorem scanFolder_filter (disk : Disk) (rows : Rows) (name : Name) :
    ((scanner.scanFolder disk rows).1.filter fun event => event.name = name) =
      (walk (find name disk.entries).toList ((find name rows.folders).toList ++ (find name rows.files).toList)).flatMap scanner.events := by
  rw [← foundFor_steps]
  exact filter_flatMap name fun found member event reported => events_name member reported

end Scan

/-- What is to be reported for a name that an entry of the disk, a folder and a file of the database
can have. -/
def expected (scanner : Scanner) : Option Element → Option Element → Option Element → List Event
  | none, folder, file => (folder.toList ++ file.toList).map .deleted
  | some fdisk, folder, file =>
    if fdisk.isfolder then file.toList.map .deleted ++ if folder.isSome then [] else scanner.addNewElement fdisk
    else folder.toList.map .deleted ++ match file with
      | none => scanner.addNewElement fdisk
      | some fdb => if fileChanged fdisk fdb then [.modified (withIds fdisk fdb)] else []

/-- A file on the disk has the name of a folder and of a file. -/
def Doubled (disk : Disk) (rows : Rows) (name : Name) : Prop :=
  (∃ fdisk, find name disk.entries = some fdisk ∧ fdisk.isfolder = false) ∧
    find name rows.folders ≠ none ∧ find name rows.files ≠ none

/-- What the scan of a folder is for. -/
structure Difference (scanner : Scanner) (disk : Disk) (rows : Rows) (result : List Event × List Element) : Prop where
  events : ∀ name, ¬Doubled disk rows name → (result.1.filter fun event => event.name = name) =
    expected scanner (find name disk.entries) (find name rows.folders) (find name rows.files)
  folders : ∀ element, element ∈ result.2 ↔ ∃ fdisk ∈ disk.entries, ∃ fdb ∈ rows.folders, fdisk.name = fdb.name ∧ fdisk.isfolder = true ∧
    fdisk.deviceid = scanner.deviceid ∧ folderChanged fdisk fdb = false ∧ element = withIds fdisk fdb
  once : (result.2.map Element.name).Nodup

theorem walk_pair {fdisk fdb : Element} {disklist dblist : List Element} (names : fdisk.name = fdb.name) :
    walk (fdisk :: disklist) (fdb :: dblist) = .both fdisk fdb :: walk disklist dblist := by
  rw [walk, if_pos (strcmp_eq_zero.mpr names)]

theorem walk_rows (dblist : List Element) : walk [] dblist = dblist.map .row := by
  rw [walk]

theorem flatMap_rows (scanner : Scanner) (dblist : List Element) :
    (dblist.map Found.row).flatMap scanner.events = dblist.map .deleted := by
  induction dblist with
  | nil => rfl
  | cons fdb dblist ih =>
    rw [List.map_cons, List.flatMap_cons, ih]
    rfl

theorem events_expected (scanner : Scanner) (disk : Disk) (rows : Rows) (name : Name) (single : ¬Doubled disk rows name) :
    ((scanner.scanFolder disk rows).1.filter fun event => event.name = name) =
      expected scanner (find name disk.entries) (find name rows.folders) (find name rows.files) := by
  rw [scanFolder_filter]
  cases onDisk : find name disk.entries with
  | none => rw [Option.toList_none, walk_rows, flatMap_rows, expected]
  | some fdisk =>
    have diskName := (find_mem onDisk).2
    rw [Option.toList_some]
    cases folder : find name rows.folders with
    | some row =>
      have areFolder := (rows.areFolders row (find_mem folder).1).1
      rw [Option.toList_some, List.singleton_append, walk_pair (diskName.trans (find_mem folder).2.symm), walk_rows, List.flatMap_cons,
        flatMap_rows, expected.eq_def, Scanner.events, areFolder]
      cases kind : fdisk.isfolder with
      | true => simp [kind]
      | false =>
        cases file : find name rows.files with
        | none => simp [kind]
        | some other => exact absurd ⟨⟨fdisk, onDisk, kind⟩, by rw [folder]; exact Option.some_ne_none _, by rw [file]; exact Option.some_ne_none _⟩ single
    | none =>
      rw [Option.toList_none, List.nil_append]
      cases file : find name rows.files with
      | none =>
        rw [Option.toList_none, walk_nil, List.map_singleton, List.flatMap_singleton, expected.eq_def, Scanner.events]
        cases fdisk.isfolder <;> simp
      | some row =>
        have areFile := rows.areFiles row (find_mem file).1
        rw [Option.toList_some, walk_pair (diskName.trans (find_mem file).2.symm), walk_nil, List.map_nil, List.flatMap_singleton, expected,
          Scanner.events, areFile]
        cases fdisk.isfolder <;> simp

theorem find_of_mem {elements : List Element} {element : Element} (names : (elements.map Element.name).Nodup) (member : element ∈ elements) :
    find element.name elements = some element := by
  have one : named element.name elements = _ := named_eq names
  have here : element ∈ named element.name elements := List.mem_filter.mpr ⟨member, decide_eq_true rfl⟩
  rw [one, Option.mem_toList] at here
  exact here

/-- The elements of a step are from the two lists. -/
theorem walk_disk_mem {disklist dblist : List Element} : ∀ found ∈ walk disklist dblist,
    (∀ fdisk, found = .disk fdisk → fdisk ∈ disklist) ∧ ∀ fdisk fdb, found = .both fdisk fdb → fdisk ∈ disklist ∧ fdb ∈ dblist := by
  induction disklist, dblist using walk.induct with
  | case1 dblist =>
    rw [walk_rows]
    exact List.forall_mem_map.mpr fun fdb _ => ⟨fun _ same => (by cases same), fun _ _ same => (by cases same)⟩
  | case2 fdisk disklist ih =>
    rw [walk_nil]
    refine List.forall_mem_map.mpr fun other member => ⟨fun _ same => ?_, fun _ _ same => (by cases same)⟩
    cases same
    exact member
  | case3 fdisk disklist fdb dblist equal ih =>
    rw [walk, if_pos equal]
    refine List.forall_mem_cons.mpr ⟨⟨fun _ same => (by cases same), fun _ _ same => ?_⟩, fun found member => ?_⟩
    · cases same
      exact ⟨List.mem_cons_self, List.mem_cons_self⟩
    · exact ⟨fun other same => List.mem_cons_of_mem _ ((ih found member).1 other same),
        fun other row same => ((ih found member).2 other row same).imp (List.mem_cons_of_mem _) (List.mem_cons_of_mem _)⟩
  | case4 fdisk disklist fdb dblist differ less ih =>
    rw [walk, if_neg differ, if_pos less]
    refine List.forall_mem_cons.mpr ⟨⟨fun _ same => ?_, fun _ _ same => (by cases same)⟩, fun found member => ?_⟩
    · cases same
      exact List.mem_cons_self
    · exact ⟨fun other same => List.mem_cons_of_mem _ ((ih found member).1 other same),
        fun other row same => ((ih found member).2 other row same).imp_left (List.mem_cons_of_mem _)⟩
  | case5 fdisk disklist fdb dblist differ notLess ih =>
    rw [walk, if_neg differ, if_neg notLess]
    refine List.forall_mem_cons.mpr ⟨⟨fun _ same => (by cases same), fun _ _ same => (by cases same)⟩, fun found member => ?_⟩
    exact ⟨(ih found member).1, fun other row same => ((ih found member).2 other row same).imp_right (List.mem_cons_of_mem _)⟩

section Subfolders

variable {scanner : Scanner} {disk : Disk} {rows : Rows}

theorem mem_sort {elements : List Element} {element : Element} : element ∈ sort folderlistCmp elements ↔ element ∈ elements :=
  (sort_perm elements).mem_iff

/-- An entry that is known as a folder is found with its row, though a file may have the name too. -/
theorem both_mem_steps {fdisk fdb : Element} (onDisk : fdisk ∈ disk.entries) (inDb : fdb ∈ rows.folders) (names : fdisk.name = fdb.name) :
    .both fdisk fdb ∈ steps disk rows := by
  have one := find_of_mem disk.names onDisk
  have two := find_of_mem rows.folderNames inDb
  rw [← names] at two
  have found := foundFor_steps disk rows fdisk.name
  rw [one, two, Option.toList_some, Option.toList_some, List.singleton_append, walk_pair names] at found
  have member : Found.both fdisk fdb ∈ foundFor fdisk.name (steps disk rows) := by
    rw [found]
    exact List.mem_cons_self
  exact List.mem_of_mem_filter member

/-- Both are folders, and the entry is another folder there than its row says, or it is not. -/
theorem after_both {fdisk fdb : Element} (kinds : fdisk.isfolder = fdb.isfolder) (here : fdisk.deviceid = scanner.deviceid)
    (folder : fdisk.isfolder = true) : scanner.after (.both fdisk fdb) =
      some (if folderChanged fdisk fdb then { withIds fdisk fdb with localid := 0 } else withIds fdisk fdb) := by
  rw [Scanner.after, if_pos kinds, folder, Bool.true_and, here, decide_eq_true rfl, Bool.and_true]
  split <;> rfl

theorem mem_subfolders (element : Element) : element ∈ (scanner.scanFolder disk rows).2 ↔
    ∃ fdisk ∈ disk.entries, ∃ fdb ∈ rows.folders, fdisk.name = fdb.name ∧ fdisk.isfolder = true ∧ fdisk.deviceid = scanner.deviceid ∧
      folderChanged fdisk fdb = false ∧ element = withIds fdisk fdb := by
  have unfolded : element ∈ (scanner.scanFolder disk rows).2 ↔ (∃ found ∈ steps disk rows, scanner.after found = some element) ∧
      element.isfolder = true ∧ element.localid ≠ 0 ∧ element.deviceid = scanner.deviceid := by
    unfold Scanner.scanFolder Scanner.subfolders
    rw [List.mem_filter, List.mem_filterMap]
    simp [steps, and_assoc]
  rw [unfolded]
  constructor
  · rintro ⟨⟨found, member, left⟩, folder, known, device⟩
    have within := walk_disk_mem found member
    cases found with
    | disk fdisk =>
      cases left
      exact absurd (disk.fresh _ (mem_sort.mp (within.1 _ rfl))) known
    | row fdb => cases left
    | both fdisk fdb =>
      obtain ⟨onDisk, inDb⟩ := within.2 fdisk fdb rfl
      rw [mem_sort] at onDisk inDb
      by_cases kinds : fdisk.isfolder = fdb.isfolder
      · have same : element.isfolder = fdisk.isfolder ∧ element.deviceid = fdisk.deviceid := by
          rw [Scanner.after, if_pos kinds] at left
          split at left <;> cases left <;> exact ⟨rfl, rfl⟩
        rw [same.1] at folder
        rw [same.2] at device
        rw [after_both kinds device folder, Option.some_inj] at left
        have row : fdb ∈ rows.folders := by
          rcases List.mem_append.mp inDb with inFolders | inFiles
          · exact inFolders
          · rw [kinds, rows.areFiles fdb inFiles] at folder
            cases folder
        cases changed : folderChanged fdisk fdb with
        | true =>
          rw [changed, if_pos rfl] at left
          exact absurd (by rw [← left]) known
        | false =>
          rw [changed, if_neg Bool.false_ne_true] at left
          exact ⟨fdisk, onDisk, fdb, row, walk_both member, folder, device, changed, left.symm⟩
      · rw [Scanner.after, if_neg kinds] at left
        cases left
        exact absurd (disk.fresh _ onDisk) known
  · rintro ⟨fdisk, onDisk, fdb, inDb, names, folder, device, unchanged, rfl⟩
    have isFolder := rows.areFolders fdb inDb
    refine ⟨⟨.both fdisk fdb, both_mem_steps onDisk inDb names, ?_⟩, folder, isFolder.2, device⟩
    rw [after_both (folder.trans isFolder.1.symm) device folder, unchanged, if_neg Bool.false_ne_true]

/-- Each entry of the disk is there after the loop. -/
theorem after_names (disklist dblist : List Element) :
    ((walk disklist dblist).filterMap scanner.after).map Element.name = disklist.map Element.name := by
  induction disklist, dblist using walk.induct with
  | case1 dblist =>
    rw [walk_rows, List.filterMap_map]
    have none : scanner.after ∘ Found.row = fun _ => none := rfl
    rw [none]
    simp
  | case2 fdisk disklist ih =>
    rw [walk, List.filterMap_cons_some (show scanner.after (.disk fdisk) = some fdisk from rfl), List.map_cons, ih, List.map_cons]
  | case3 fdisk disklist fdb dblist equal ih =>
    have kept : ∃ left, scanner.after (.both fdisk fdb) = some left ∧ left.name = fdisk.name := by
      rw [Scanner.after]
      split
      · split <;> exact ⟨_, rfl, rfl⟩
      · exact ⟨_, rfl, rfl⟩
    obtain ⟨left, same, name⟩ := kept
    rw [walk, if_pos equal, List.filterMap_cons_some same, List.map_cons, ih, name, List.map_cons]
  | case4 fdisk disklist fdb dblist differ less ih =>
    rw [walk, if_neg differ, if_pos less, List.filterMap_cons_some (show scanner.after (.disk fdisk) = some fdisk from rfl), List.map_cons, ih, List.map_cons]
  | case5 fdisk disklist fdb dblist differ notLess ih =>
    rw [walk, if_neg differ, if_neg notLess, List.filterMap_cons_none rfl, ih]

theorem subfolders_once : ((scanner.scanFolder disk rows).2.map Element.name).Nodup := by
  have names : ((steps disk rows).filterMap scanner.after).map Element.name = (sort folderlistCmp disk.entries).map Element.name :=
    after_names _ _
  have all : (((steps disk rows).filterMap scanner.after).map Element.name).Nodup := by
    rw [names]
    exact ((sort_perm disk.entries).map Element.name).nodup_iff.mpr disk.names
  exact all.sublist (List.filter_sublist.map Element.name)

end Subfolders

/-- A file on the disk. -/
def fileOn : Element := ⟨0, 0, 5, 1, 0, 0, false, [97]⟩

end Pclsync.Proofs.ScanFolder
