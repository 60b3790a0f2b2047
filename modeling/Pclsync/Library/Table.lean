import Mathlib

/-! Tables of a database with conditions on their rows. A statement that would break one changes
nothing, so the order of statements matters unless what they do together is allowed. -/

namespace Pclsync.Library

/-- Rows that meet the conditions of their table. -/
structure Table (α : Type) (Valid : List α → Prop) where
  rows : List α
  valid : Valid rows

namespace Table

variable {α ι κ : Type} {Valid : List α → Prop} [DecidablePred Valid]

/-- `UPDATE`, which fails as a whole. -/
def update (table : Table α Valid) (change : α → α) : Table α Valid :=
  if valid : Valid (table.rows.map change) then ⟨table.rows.map change, valid⟩ else table

theorem update_rows {table : Table α Valid} {change : α → α} (valid : Valid (table.rows.map change)) :
    (table.update change).rows = table.rows.map change := by
  rw [update, dif_pos valid]

/-- A column that the statement does not set. -/
theorem update_column (table : Table α Valid) {change : α → α} {column : α → κ} (kept : ∀ row, column (change row) = column row) :
    (table.update change).rows.map column = table.rows.map column := by
  unfold update
  split
  · rw [List.map_map]
    exact List.map_congr_left (fun row _ => kept row)
  · rfl

/-- Some statements in a row, when all that they do on the way is allowed. `view` has the rows behind
those of a set. -/
theorem foldl_update {change : ι → α → α} {view : Set ι → List α} {allowed : Set ι → Prop} (ids : List ι)
    (grows : ∀ done, allowed done → ∀ id ∈ ids, allowed (insert id done)) (valid : ∀ done, allowed done → Valid (view done))
    (step : ∀ done, allowed done → ∀ id ∈ ids, (view done).map (change id) = view (insert id done)) {table : Table α Valid}
    {done : Set ι} (begin : allowed done) (rows : table.rows = view done) :
    (ids.foldl (fun table id => table.update (change id)) table).rows = view (done ∪ {id | id ∈ ids}) := by
  induction ids generalizing table done with
  | nil => simpa using rows
  | cons id rest ih =>
    have member : id ∈ id :: rest := List.mem_cons_self
    have next : (table.update (change id)).rows = view (insert id done) := by
      have same := step done begin id member
      rw [← rows] at same
      have kept : Valid (table.rows.map (change id)) := same ▸ valid _ (grows done begin id member)
      rw [update_rows kept, same]
    rw [List.foldl_cons, ih (fun done ok other within => grows done ok other (List.mem_cons_of_mem _ within))
      (fun done ok other within => step done ok other (List.mem_cons_of_mem _ within)) (grows done begin id member) next]
    congr 1
    ext other
    simp only [Set.mem_union, Set.mem_insert_iff, Set.mem_ofPred_eq, List.mem_cons]
    tauto

/-- Rows of which some have moved have different keys, if they have where none has and where all
have, and none is in the way of another only as long as it has not moved. -/
theorem nodup_mixed {rows : List α} {key : α → κ} {move : α → α} (before : (rows.map key).Nodup)
    (after : ((rows.map move).map key).Nodup) (moved : α → Prop) [DecidablePred moved]
    (free : ∀ row ∈ rows, ∀ other ∈ rows, moved row → ¬moved other → key (move row) = key other → key (move other) = key other) :
    ((rows.map fun row => if moved row then move row else row).map key).Nodup := by
  have distinct : rows.Nodup := before.of_map
  rw [List.map_map] at after ⊢
  rw [List.nodup_map_iff_inj_on distinct] at before after ⊢
  intro row member other within same
  simp only [Function.comp_apply] at same
  split at same
  next left =>
    split at same
    next right => exact after row member other within same
    next right => exact after row member other within (same.trans (free row member other within left right same).symm)
  next left =>
    split at same
    next right => exact after row member other within ((free other within row member right left same.symm).trans same)
    next right => exact before row member other within same

end Table

end Pclsync.Library
