import Mathlib

/-! Tables with a primary key, and sums over their rows. What a statement does to a sum depends only on
the row that has the key. -/

namespace Pclsync.Library

/-- Rows of which no two have the same key. -/
@[ext] structure Keyed {κ α : Type} (key : α → κ) where
  rows : List α
  distinct : (rows.map key).Nodup

namespace Keyed

variable {κ α M : Type} {key : α → κ}

instance : Membership α (Keyed key) := ⟨fun table row => row ∈ table.rows⟩

theorem mem_rows {table : Keyed key} {row : α} : row ∈ table ↔ row ∈ table.rows := Iff.rfl

/-- `UPDATE` of some rows, whose keys are not changed. -/
def update (which : α → Bool) (change : α → α) (kept : ∀ row, key (change row) = key row) (table : Keyed key) : Keyed key where
  rows := table.rows.map fun row => if which row then change row else row
  distinct := by
    have same : (table.rows.map fun row => if which row then change row else row).map key = table.rows.map key := by
      rw [List.map_map]
      refine List.map_congr_left fun row _ => ?_
      dsimp only [Function.comp_apply]
      split
      · exact kept row
      · rfl
    rw [same]
    exact table.distinct

/-- `DELETE` of some rows. -/
def delete (which : α → Bool) (table : Keyed key) : Keyed key where
  rows := table.rows.filter fun row => !which row
  distinct := table.distinct.sublist (List.filter_sublist.map key)

/-- The sum of a weight that each row has. -/
def sum [AddCommGroup M] (weight : α → M) (table : Keyed key) : M := (table.rows.map weight).sum

theorem mem_update {table : Keyed key} {row : α} {which : α → Bool} {change : α → α}
    (kept : ∀ row, key (change row) = key row) :
    row ∈ table.update which change kept ↔ ∃ old ∈ table, row = if which old then change old else old := by
  rw [mem_rows, update, List.mem_map]
  exact ⟨fun ⟨old, member, same⟩ => ⟨old, member, same.symm⟩, fun ⟨old, member, same⟩ => ⟨old, member, same.symm⟩⟩

theorem mem_delete {table : Keyed key} {row : α} {which : α → Bool} : row ∈ table.delete which ↔ row ∈ table ∧ which row = false := by
  rw [mem_rows, delete, List.mem_filter]
  simp only [Bool.not_eq_true']
  rfl

/-- A change that leaves the weight of each row. -/
theorem sum_update [AddCommGroup M] {table : Keyed key} {which : α → Bool} {change : α → α} {weight : α → M}
    (kept : ∀ row, key (change row) = key row) (same : ∀ row, weight (change row) = weight row) :
    (table.update which change kept).sum weight = table.sum weight := by
  rw [sum, sum, update, List.map_map]
  congr 1
  refine List.map_congr_left fun row _ => ?_
  dsimp only [Function.comp_apply]
  split
  · exact same row
  · rfl

theorem sum_eq_zero [AddCommGroup M] {table : Keyed key} {weight : α → M} (each : ∀ row ∈ table, weight row = 0) :
    table.sum weight = 0 := by
  refine List.sum_eq_zero fun value listed => ?_
  obtain ⟨row, member, rfl⟩ := List.mem_map.mp listed
  exact each row member

/-- Weights that are not negative add up to nothing only if they are nothing. -/
theorem weight_eq_zero {table : Keyed key} {weight : α → ℤ} (nonneg : ∀ row, 0 ≤ weight row) (zero : table.sum weight = 0) :
    ∀ row ∈ table, weight row = 0 := by
  intro row member
  refine List.all_zero_of_le_zero_le_of_sum_eq_zero (fun value listed => ?_) zero (List.mem_map_of_mem member)
  obtain ⟨other, _, rfl⟩ := List.mem_map.mp listed
  exact nonneg other

variable [DecidableEq κ] [AddCommGroup M] {table : Keyed key} {row other old : α} {id : κ} {change : α → α}
  {weight : α → M}

def find (id : κ) (table : Keyed key) : Option α := table.rows.find? fun row => key row = id

/-- `INSERT OR IGNORE` -/
def insert (row : α) (table : Keyed key) : Keyed key :=
  if fresh : key row ∈ table.rows.map key then table
  else
    { rows := table.rows ++ [row]
      distinct := by
        rw [List.map_append, List.map_singleton, List.nodup_append]
        refine ⟨table.distinct, List.nodup_singleton _, fun one listed other last same => fresh ?_⟩
        rw [List.mem_singleton.mp last] at same
        exact same ▸ listed }

/-- `UPDATE ... WHERE id=?` -/
def set (id : κ) (change : α → α) (kept : ∀ row, key (change row) = key row) (table : Keyed key) : Keyed key :=
  table.update (fun row => key row = id) change kept

/-- `DELETE ... WHERE id=?` -/
def erase (id : κ) (table : Keyed key) : Keyed key := table.delete fun row => key row = id

variable (kept : ∀ row, key (change row) = key row)

theorem find_eq_some : table.find id = some row ↔ row ∈ table ∧ key row = id := by
  have passes : ∀ {row}, table.find id = some row → row ∈ table ∧ key row = id := by
    intro row there
    have fits := List.find?_some there
    exact ⟨List.mem_of_find?_eq_some there, by simpa using fits⟩
  refine ⟨passes, ?_⟩
  rintro ⟨member, same⟩
  obtain ⟨other, there⟩ : ∃ other, table.find id = some other := by
    rw [← Option.isSome_iff_exists, find, List.find?_isSome]
    exact ⟨row, member, decide_eq_true same⟩
  obtain ⟨also, alike⟩ := passes there
  rw [there, List.inj_on_of_nodup_map table.distinct also member (alike.trans same.symm)]

theorem find_eq_none : table.find id = none ↔ ∀ row ∈ table, key row ≠ id := by
  rw [find, List.find?_eq_none]
  simp only [decide_eq_true_eq]
  rfl

theorem mem_set : row ∈ table.set id change kept ↔ ∃ old ∈ table, row = if key old = id then change old else old := by
  rw [mem_rows, set, update, List.mem_map]
  simp only [decide_eq_true_eq]
  exact ⟨fun ⟨old, member, same⟩ => ⟨old, member, same.symm⟩, fun ⟨old, member, same⟩ => ⟨old, member, same.symm⟩⟩

theorem mem_erase : row ∈ table.erase id ↔ row ∈ table ∧ key row ≠ id := by
  rw [mem_rows, erase, delete, List.mem_filter]
  simp only [Bool.not_eq_true', decide_eq_false_iff_not]
  rfl

/-- The rows that are there have the keys that they had. -/
theorem forall_mem_set {p : κ → Prop} :
    (∀ row ∈ table.set id change kept, p (key row)) ↔ ∀ row ∈ table, p (key row) := by
  have same : ∀ row, key (if key row = id then change row else row) = key row := by
    intro row
    split
    · exact kept row
    · rfl
  constructor
  · intro all row member
    exact same row ▸ all _ ((mem_set kept).mpr ⟨row, member, rfl⟩)
  · intro all row member
    obtain ⟨old, there, rfl⟩ := (mem_set kept).mp member
    exact (same old).symm ▸ all old there

theorem find_set_eq_none {any : κ} : (table.set id change kept).find any = none ↔ table.find any = none := by
  rw [find_eq_none, find_eq_none]
  exact forall_mem_set (p := fun held => held ≠ any) kept

theorem find_erase : (table.erase id).find id = none :=
  find_eq_none.mpr fun _ member => (mem_erase.mp member).2

theorem find_erase_of_ne {any : κ} (differ : any ≠ id) : (table.erase id).find any = table.find any := by
  cases there : table.find any with
  | none => exact find_eq_none.mpr fun row member => find_eq_none.mp there row (mem_erase.mp member).1
  | some row =>
    obtain ⟨member, same⟩ := find_eq_some.mp there
    exact find_eq_some.mpr ⟨mem_erase.mpr ⟨member, same.trans_ne differ⟩, same⟩

theorem mem_insert : row ∈ table.insert other ↔ row ∈ table ∨ (table.find (key other) = none ∧ row = other) := by
  unfold insert
  split
  · next listed =>
    refine ⟨.inl, ?_⟩
    rintro (member | ⟨missing, _⟩)
    · exact member
    · obtain ⟨old, member, same⟩ := List.mem_map.mp listed
      exact absurd same (find_eq_none.mp missing old member)
  · next fresh =>
    have missing : table.find (key other) = none :=
      find_eq_none.mpr fun old member same => fresh (List.mem_map.mpr ⟨old, member, same⟩)
    rw [mem_rows, List.mem_append, List.mem_singleton]
    exact ⟨Or.imp_right fun last => ⟨missing, last⟩, Or.imp_right And.right⟩

theorem insert_found (there : table.find (key row) = some other) : table.insert row = table := by
  obtain ⟨member, same⟩ := find_eq_some.mp there
  rw [insert, dif_pos (List.mem_map.mpr ⟨other, member, same⟩)]

theorem set_rows : (table.set id change kept).rows = table.rows.map fun row => if key row = id then change row else row := by
  rw [set, update]
  simp only [decide_eq_true_eq]

theorem erase_rows : (table.erase id).rows = table.rows.filter fun row => key row ≠ id := by
  rw [erase, delete]
  refine List.filter_congr fun row _ => ?_
  rw [decide_not]

theorem map_others {rows : List α} (others : ∀ row ∈ rows, key row ≠ id) :
    (rows.map fun row => if key row = id then change row else row) = rows :=
  (List.map_congr_left fun row member => if_neg (others row member)).trans (List.map_id' _)

theorem filter_others {rows : List α} (others : ∀ row ∈ rows, key row ≠ id) :
    (rows.filter fun row => key row ≠ id) = rows :=
  List.filter_eq_self.mpr fun row member => decide_eq_true (others row member)

theorem set_missing (missing : table.find id = none) : table.set id change kept = table := by
  ext1
  rw [set_rows, map_others (find_eq_none.mp missing)]

theorem erase_missing (missing : table.find id = none) : table.erase id = table := by
  ext1
  rw [erase_rows, filter_others (find_eq_none.mp missing)]

/-- The one row with a key among the others. -/
theorem exists_split (there : table.find id = some old) :
    ∃ before after, table.rows = before ++ old :: after ∧ (∀ row ∈ before, key row ≠ id) ∧ ∀ row ∈ after, key row ≠ id := by
  obtain ⟨member, rfl⟩ := find_eq_some.mp there
  obtain ⟨before, after, split⟩ := List.append_of_mem member
  have distinct := table.distinct
  rw [split, List.map_append, List.map_cons, List.nodup_append, List.nodup_cons] at distinct
  refine ⟨before, after, split, fun row early same => ?_, fun row late same => ?_⟩
  · exact distinct.2.2 _ (List.mem_map_of_mem early) _ List.mem_cons_self same
  · exact distinct.2.1.1 (same ▸ List.mem_map_of_mem late)

theorem sum_insert (missing : table.find (key row) = none) : (table.insert row).sum weight = table.sum weight + weight row := by
  have fresh : key row ∉ table.rows.map key := by
    intro listed
    obtain ⟨old, member, same⟩ := List.mem_map.mp listed
    exact find_eq_none.mp missing old member same
  rw [insert, dif_neg fresh, sum, sum, List.map_append, List.sum_append, List.map_singleton, List.sum_singleton]

theorem sum_set (there : table.find id = some old) :
    (table.set id change kept).sum weight = table.sum weight - weight old + weight (change old) := by
  obtain ⟨before, after, rows, early, late⟩ := exists_split there
  have same : key old = id := (find_eq_some.mp there).2
  rw [sum, sum, set_rows, rows, List.map_append, List.map_cons, map_others early, map_others late, if_pos same]
  simp only [List.map_append, List.map_cons, List.sum_append, List.sum_cons]
  abel

theorem sum_erase (there : table.find id = some old) : (table.erase id).sum weight = table.sum weight - weight old := by
  obtain ⟨before, after, rows, early, late⟩ := exists_split there
  have same : ¬decide (key old ≠ id) = true := by simpa using (find_eq_some.mp there).2
  rw [sum, sum, erase_rows, rows, List.filter_append, List.filter_cons_of_neg (p := fun row => decide (key row ≠ id)) same, filter_others early, filter_others late]
  simp only [List.map_append, List.map_cons, List.sum_append, List.sum_cons]
  abel

end Keyed
end Pclsync.Library
