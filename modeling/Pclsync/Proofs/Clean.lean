import Pclsync.Pages.Clean
import Pclsync.Library.Rounds
import Pclsync.Proofs.Qpartition
import Pclsync.Proofs.Pqsort
import Pclsync.Proofs.PqsortMap

/-! What the cleaning of the disk cache keeps. Its rounds choose by flags that
are made from the time of the last use in place of the page id; where the two
agree, and no number is too wide for the comparisons, the kept pages are those
that were meant. -/

namespace Pclsync.Proofs.Clean
open Pclsync.Pages.Clean Pclsync.Pages.Pqsort Library

variable {rows : List PageRow} {cnt : ℕ} {waiting : ℕ → Bool}

/-- The rows that take part. -/
def reads (rows : List PageRow) : List PageRow := rows.filter fun row => row.type = .read

section Reading

theorem reads_append (first second : List PageRow) : reads (first ++ second) = reads first ++ reads second :=
  List.filter_append ..

/-- Of the rows the first ones have been read, and `e` lies between. -/
structure ReadTo (rows : List PageRow) (seen left : List PageRow) (e : ℕ) (entries : List Entry) : Prop where
  split : rows = seen ++ left
  entries : entries = (reads seen).map toEntry
  below : ∀ row ∈ seen, row.id ≤ e
  above : ∀ row ∈ left, e < row.id

theorem ReadTo.filter {seen left : List PageRow} {e : ℕ} {entries : List Entry} (done : ReadTo rows seen left e entries) :
    rows.filter (e < ·.id) = left := by
  rw [done.split, List.filter_append, List.filter_eq_nil_iff.mpr, List.filter_eq_self.mpr, List.nil_append]
  · intro row member
    simpa using done.above row member
  · intro row member
    simpa using done.below row member

/-- The next row moves over. -/
theorem ReadTo.next {seen left : List PageRow} {row : PageRow} {e : ℕ} {entries : List Entry}
    (ordered : rows.Pairwise fun row next => row.id < next.id) (done : ReadTo rows seen (row :: left) e entries) :
    ReadTo rows (seen ++ [row]) left row.id (entries ++ (reads [row]).map toEntry) := by
  have later := done.above row List.mem_cons_self
  constructor
  · rw [done.split, List.append_assoc, List.singleton_append]
  · rw [done.entries, reads_append, List.map_append]
  · intro other member
    rcases List.mem_append.mp member with old | new
    · have := done.below other old
      omega
    · rw [List.mem_singleton.mp new]
  · rw [done.split, List.pairwise_append] at ordered
    exact (List.pairwise_cons.mp ordered.2.1).1

theorem reads_single_of {row : PageRow} (read : row.type = .read) : reads [row] = [row] := by simp [reads, read]

theorem reads_single_not {row : PageRow} (other : row.type ≠ .read) : reads [row] = [] := by simp [reads, other]

/-- One query moves over at least one row, if there is any and room for it. -/
theorem readRows_reads (ordered : rows.Pairwise fun row next => row.id < next.id) {batch seen left : List PageRow} {e : ℕ}
    {entries : List Entry} (done : ReadTo rows seen (batch ++ left) e entries) :
    ∃ more rest, ReadTo rows (seen ++ more) rest (readRows cnt waiting batch (e, entries)).1
        (readRows cnt waiting batch (e, entries)).2 ∧ (batch ≠ [] → entries.length < cnt → more ≠ []) := by
  induction batch generalizing seen e entries with
  | nil => exact ⟨[], left, by simpa [readRows] using done, by simp⟩
  | cons row batch ih =>
    rw [readRows]
    by_cases full : cnt ≤ entries.length
    · rw [if_pos full]
      exact ⟨[], _, by rw [List.append_nil]; exact done, fun _ room => by omega⟩
    · rw [if_neg full]
      have step := done.next ordered
      by_cases read : row.type = .read
      · rw [if_pos read]
        rw [reads_single_of read] at step
        simp only [List.map_cons, List.map_nil] at step
        by_cases break_off : (entries ++ [toEntry row]).length &&& 0x3ff = 0x3ff ∧ waiting (entries ++ [toEntry row]).length
        · rw [if_pos break_off]
          exact ⟨[row], _, step, fun _ _ => by simp⟩
        · rw [if_neg break_off]
          obtain ⟨more, rest, further, _⟩ := ih step
          refine ⟨row :: more, rest, ?_, fun _ _ => by simp⟩
          rw [show seen ++ row :: more = seen ++ [row] ++ more by simp]
          exact further
      · rw [if_neg read]
        rw [reads_single_not read] at step
        simp only [List.map_nil, List.append_nil] at step
        obtain ⟨more, rest, further, _⟩ := ih step
        refine ⟨row :: more, rest, ?_, fun _ _ => by simp⟩
        rw [show seen ++ row :: more = seen ++ [row] ++ more by simp]
        exact further

theorem le_maxId {row : PageRow} (member : row ∈ rows) : row.id ≤ maxId rows := by
  unfold maxId
  induction rows with
  | nil => cases member
  | cons other rows ih =>
    rw [List.map_cons, List.foldr_cons]
    rcases List.mem_cons.mp member with rfl | inside
    · exact le_max_left _ _
    · exact (ih inside).trans (le_max_right _ _)

/-- Rows with different identifiers from one on are at most as many as the
largest identifier. -/
theorem length_le_of_ids {bound : ℕ} (ordered : rows.Pairwise fun row next => row.id < next.id)
    (ids : ∀ row ∈ rows, 0 < row.id ∧ row.id ≤ bound) : rows.length ≤ bound := by
  have once : (rows.map PageRow.id).Nodup := by
    rw [List.Nodup, List.pairwise_map]
    exact ordered.imp fun less => less.ne
  have inside : (rows.map PageRow.id).toFinset ⊆ Finset.Icc 1 bound := by
    intro id member
    rw [List.mem_toFinset, List.mem_map] at member
    obtain ⟨row, present, rfl⟩ := member
    exact Finset.mem_Icc.mpr (ids row present)
  have few := Finset.card_le_card inside
  rwa [List.toFinset_card_of_nodup once, List.length_map, Nat.card_Icc, Nat.add_sub_cancel] at few

theorem readEntries_reads (table : PageTable) (waiting : ℕ → Bool) {fuel : ℕ} {seen left : List PageRow} {e : ℕ}
    {entries : List Entry} (done : ReadTo table.rows seen left e entries) (enough : left.length < fuel) :
    readEntries table.rows (maxId table.rows) waiting fuel (e, entries) = some ((reads table.rows).map toEntry) := by
  induction fuel generalizing seen left e entries with
  | zero => omega
  | succ fuel ih =>
    rw [readEntries]
    by_cases room : entries.length < maxId table.rows
    · rw [if_pos room]
      simp only [done.filter]
      by_cases finished : left.take 50000 = []
      · have none_left : left = [] := by
          rcases List.take_eq_nil_iff.mp finished with zero | nil
          · omega
          · exact nil
        rw [if_pos finished, done.entries, done.split, none_left, List.append_nil]
      · rw [if_neg finished]
        have batch : ReadTo table.rows seen (left.take 50000 ++ left.drop 50000) e entries := by
          rwa [List.take_append_drop]
        obtain ⟨more, rest, further, moved⟩ := @readRows_reads _ (maxId table.rows) waiting table.ordered _ _ _ _ _ batch
        refine ih further ?_
        have some_read := List.length_pos_iff.mpr (moved finished room)
        have same := congrArg List.length (done.split.symm.trans further.split)
        simp only [List.length_append] at same
        omega
    · rw [if_neg room]
      -- the array is full only when every identifier belongs to a row already read
      have whole := length_le_of_ids table.ordered fun row member => ⟨table.positive row member, le_maxId member⟩
      have parts := congrArg List.length done.split
      have count := congrArg List.length done.entries
      have few : (reads seen).length ≤ seen.length := List.length_filter_le _ _
      rw [List.length_append] at parts
      rw [List.length_map] at count
      have none_left : left = [] := List.length_eq_zero_iff.mp (by omega)
      rw [done.entries, done.split, none_left, List.append_nil]

end Reading

section Comparisons

theorem cmpLastuse_comparator : Comparator (cmpLastuse id) := by
  constructor
  · intro left right
    simp only [cmpLastuse, id]
    omega
  · intro left middle right
    simp only [cmpLastuse, id]
    omega

theorem cmpUsecntLastuse_comparator (uses : ℕ) : Comparator (cmpUsecntLastuse id uses) := by
  constructor
  · intro left right
    simp only [cmpUsecntLastuse, id]
    split_ifs <;> omega
  · intro left middle right
    simp only [cmpUsecntLastuse, id]
    split_ifs <;> omega

theorem cmpId_comparator : Comparator (cmpId id) := by
  constructor
  · intro left right
    simp only [cmpId, id]
    omega
  · intro left middle right
    simp only [cmpId, id]
    omega

theorem cmpXfirstPages_comparator : Comparator (cmpXfirstPages id) := by
  constructor
  · rintro ⟨_, _, _, _, left⟩ ⟨_, _, _, _, right⟩
    cases left <;> cases right <;> simp [cmpXfirstPages]
  · rintro ⟨_, _, _, _, left⟩ ⟨_, _, _, _, middle⟩ ⟨_, _, _, _, right⟩
    cases left <;> cases middle <;> cases right <;> simp [cmpXfirstPages] <;> omega

theorem cmpFirstPages_comparator : Comparator (cmpFirstPages id) := by
  have ranked := cmpXfirstPages_comparator
  have recent := cmpLastuse_comparator
  -- first pages by their last use, the others by the second comparison
  have cases_of : ∀ one two : Entry, cmpFirstPages id one two =
      if one.isfirst = two.isfirst then if one.isfirst then cmpLastuse id one two else cmpXfirstPages id one two
      else if one.isfirst then -1 else 1 := by
    rintro ⟨_, _, _, one, _⟩ ⟨_, _, _, two, _⟩
    cases one <;> cases two <;> rfl
  constructor
  · intro left right
    rw [cases_of, cases_of]
    have first := ranked.flip left right
    have second := recent.flip left right
    cases left.isfirst <;> cases right.isfirst <;> simp [first, second]
  · intro left middle right
    rw [cases_of, cases_of, cases_of]
    have first := ranked.trans left middle right
    have second := recent.trans left middle right
    cases left.isfirst <;> cases middle.isfirst <;> cases right.isfirst <;> simp <;> assumption

end Comparisons

section Ranges
variable {base : ℕ} {row one two : PageRow}

/-- Numbers that the comparisons can tell apart. -/
structure InRange (base : ℕ) (row : PageRow) : Prop where
  after : base ≤ row.lastuse
  near : row.lastuse < base + 2 ^ 31
  word : row.lastuse < 2 ^ 32
  id : row.id < 2 ^ 31

theorem int32_eq {number : ℤ} (low : -2 ^ 31 ≤ number) (high : number < 2 ^ 31) : int32 number = number :=
  Int.bmod_eq_of_le (by omega) (by omega)

theorem toEntry_lastuse (inRange : InRange base row) : (toEntry row).lastuse = row.lastuse :=
  Nat.mod_eq_of_lt inRange.word

theorem toEntry_id (inRange : InRange base row) : (toEntry row).id = row.id := by
  have := inRange.id
  exact Nat.mod_eq_of_lt (by omega)

theorem difference_narrow (first : InRange base one) (second : InRange base two) :
    int32 (((toEntry two).lastuse : ℤ) - (toEntry one).lastuse) = ((toEntry two).lastuse : ℤ) - (toEntry one).lastuse := by
  rw [toEntry_lastuse first, toEntry_lastuse second]
  have := first.after
  have := first.near
  have := second.after
  have := second.near
  exact int32_eq (by omega) (by omega)

/-- On such rows a comparison is a total preorder, and the narrowing harmless. -/
structure Sound (base : ℕ) (cmp : (ℤ → ℤ) → Entry → Entry → ℤ) : Prop where
  comparator : Comparator (cmp id)
  narrow : ∀ one two, InRange base one → InRange base two →
    cmp int32 (toEntry one) (toEntry two) = cmp id (toEntry one) (toEntry two)

theorem sound_lastuse : Sound base cmpLastuse :=
  ⟨cmpLastuse_comparator, fun one two first second => by simp only [cmpLastuse, difference_narrow first second, id]⟩

theorem sound_usecnt (uses : ℕ) : Sound base fun narrow => cmpUsecntLastuse narrow uses :=
  ⟨cmpUsecntLastuse_comparator uses, fun one two first second => by
    simp only [cmpUsecntLastuse, difference_narrow first second, id]⟩

theorem sound_xfirst : Sound base cmpXfirstPages :=
  ⟨cmpXfirstPages_comparator, fun one two first second => by
    simp only [cmpXfirstPages, difference_narrow first second, id]⟩

theorem sound_first : Sound base cmpFirstPages :=
  ⟨cmpFirstPages_comparator, fun one two first second => by
    simp only [cmpFirstPages, difference_narrow first second, id]⟩

theorem sound_id : Sound base cmpId := by
  refine ⟨cmpId_comparator, fun one two first second => ?_⟩
  have left := first.id
  have right := second.id
  simp only [cmpId, id, toEntry_id first, toEntry_id second]
  rw [@int32_eq one.id (by omega) (by omega), @int32_eq two.id (by omega) (by omega), int32_eq (by omega) (by omega)]

end Ranges

section Rounds
variable {base : ℕ} {sweep : Sweep} {pool : List PageRow}

abbrev Row (base : ℕ) : Type := {row : PageRow // InRange base row}

/-- The part of the array that is left stands for the rows of the pool. -/
def Standing (base : ℕ) (sweep : Sweep) (pool : List PageRow) : Prop :=
  ∃ good : ℕ → Row base, (∀ place, sweep.items (sweep.start + place) = toEntry (good place)) ∧
    (contents sweep.cnt good).map Subtype.val = pool

/-- A comparison of the rows that entries stand for. -/
def onRows (cmp : Entry → Entry → ℤ) (one two : PageRow) : ℤ := cmp (toEntry one) (toEntry two)

theorem reserve_step {cmp : (ℤ → ℤ) → Entry → Entry → ℤ} {rcnt : ℕ} (sound : Sound base cmp)
    (standing : Standing base sweep pool) (share : rcnt < sweep.cnt ∨ sweep.cnt = 0 ∧ rcnt = 0) :
    ∃ enough next best others, (∀ fuel ≥ enough, reserve fuel (cmp int32) rcnt sweep = some next) ∧
      next.cnt = sweep.cnt - rcnt ∧ Standing base next others ∧ (best ++ others).Perm pool ∧ best.length = rcnt ∧
      ∀ one ∈ best, ∀ other ∈ others, onRows (cmp id) one other ≤ 0 := by
  obtain ⟨good, stands, rfl⟩ := standing
  have same : ∀ one two : Row base, cmp int32 (toEntry one) (toEntry two) = cmp id (toEntry one) (toEntry two) :=
    fun one two => sound.narrow one two one.2 two.2
  have comparator : Comparator fun one two : Row base => cmp id (toEntry one) (toEntry two) :=
    ⟨fun one two => sound.comparator.flip _ _, fun one two three => sound.comparator.trans _ _ _⟩
  have inside : rcnt < sweep.cnt ∨ sweep.cnt ≤ qsortMtr + 1 := by
    simp only [qsortMtr]
    omega
  obtain ⟨enough, part, last, done, selected⟩ := Qpartition.qpartition_selects comparator good sweep.state
    (inside.imp_right .inl)
  have entries : (fun place => sweep.items (sweep.start + place)) = (fun row : Row base => toEntry row) ∘ good :=
    funext stands
  have runs : ∀ fuel ≥ enough, qpartition (cmp int32) fuel (fun place => sweep.items (sweep.start + place)) sweep.cnt rcnt
      sweep.state = some ((fun row : Row base => toEntry row) ∘ part, last) := by
    intro fuel more
    rw [entries, PqsortMap.qpartition_comp same, done fuel more]
    rfl
  have halves : sweep.cnt = rcnt + (sweep.cnt - rcnt) := by omega
  have split : contents rcnt part ++ contents (sweep.cnt - rcnt) (fun place => part (rcnt + place)) =
      contents sweep.cnt part := by
    rw [← contents_add, ← halves]
  refine ⟨enough,
    { items := fun place => if place < sweep.start then sweep.items place else toEntry (part (place - sweep.start))
      start := sweep.start + rcnt
      cnt := sweep.cnt - rcnt
      state := last },
    (contents rcnt part).map Subtype.val,
    (contents (sweep.cnt - rcnt) fun place => part (rcnt + place)).map Subtype.val, ?_, rfl, ?_, ?_, ?_, ?_⟩
  · intro fuel more
    simp only [reserve, runs fuel more, bind, Option.bind]
    rfl
  · refine ⟨fun place => part (rcnt + place), fun place => ?_, rfl⟩
    dsimp only
    rw [if_neg (by omega), show sweep.start + rcnt + place - sweep.start = rcnt + place by omega]
  · rw [← List.map_append, split]
    exact selected.perm.map _
  · rw [List.length_map, length_contents]
  · intro first one second other
    obtain ⟨row, early, rfl⟩ := List.mem_map.mp one
    obtain ⟨next, late, rfl⟩ := List.mem_map.mp other
    obtain ⟨place, small, rfl⟩ := mem_contents.mp early
    obtain ⟨beyond, inside, rfl⟩ := mem_contents.mp late
    exact selected.parted place small (rcnt + beyond) (Nat.le_add_right _ _) (by omega)

/-- Rounds one after the other, with the comparisons narrowed. -/
def reserveAll (fuel : ℕ) : List (((ℤ → ℤ) → Entry → Entry → ℤ) × ℕ) → Sweep → Option Sweep
  | [], sweep => some sweep
  | (cmp, rcnt) :: rounds, sweep => reserve fuel (cmp int32) rcnt sweep >>= reserveAll fuel rounds

/-- The rounds as comparisons of rows. -/
def rowRounds (view : PageRow → Entry) (rounds : List (((ℤ → ℤ) → Entry → Entry → ℤ) × ℕ)) :
    List ((PageRow → PageRow → ℤ) × ℕ) :=
  rounds.map fun round => (fun one two => round.1 id (view one) (view two), round.2)

theorem reserveAll_chooses {rounds : List (((ℤ → ℤ) → Entry → Entry → ℤ) × ℕ)}
    (sound : ∀ round ∈ rounds, Sound base round.1) (standing : Standing base sweep pool)
    (few : (rounds.map Prod.snd).sum < sweep.cnt ∨ sweep.cnt = 0 ∧ (rounds.map Prod.snd).sum = 0) :
    ∃ enough next rest, (∀ fuel ≥ enough, reserveAll fuel rounds sweep = some next) ∧
      next.cnt = sweep.cnt - (rounds.map Prod.snd).sum ∧ Standing base next rest ∧
      Chosen (rowRounds toEntry rounds) pool rest := by
  induction rounds generalizing sweep pool with
  | nil => exact ⟨0, sweep, pool, fun _ _ => rfl, rfl, standing, List.Perm.refl _⟩
  | cons round rounds ih =>
    rw [List.map_cons, List.sum_cons] at few
    obtain ⟨enough, next, best, others, done, count, stands, split, share, better⟩ :=
      @reserve_step _ _ _ _ round.2 (sound round List.mem_cons_self) standing (by omega)
    obtain ⟨later, last, rest, further, left, final, chosen⟩ :=
      ih (fun round member => sound round (List.mem_cons_of_mem _ member)) stands (by omega)
    refine ⟨max enough later, last, rest, ?_, ?_, final, best, others, split, share, better, chosen⟩
    · intro fuel more
      rw [reserveAll, done fuel (le_of_max_le_left more)]
      exact further fuel (le_of_max_le_right more)
    · rw [left, count, List.map_cons, List.sum_cons]
      omega

end Rounds

section Whole
variable {base : ℕ}

/-- The shares of the first two rounds, out of all entries. -/
def firstRounds (ocnt : ℕ) : List (((ℤ → ℤ) → Entry → Entry → ℤ) × ℕ) :=
  [(cmpFirstPages, 15 * ocnt / 100), (cmpXfirstPages, 5 * ocnt / 100)]

/-- The shares of the other rounds, out of the entries that are left then. -/
def lastRounds (ocnt : ℕ) : List (((ℤ → ℤ) → Entry → Entry → ℤ) × ℕ) :=
  [(cmpLastuse, 40 * ocnt / 100), (fun narrow => cmpUsecntLastuse narrow 2, 20 * ocnt / 100),
    (fun narrow => cmpUsecntLastuse narrow 4, 15 * ocnt / 100), (fun narrow => cmpUsecntLastuse narrow 8, 10 * ocnt / 100),
    (fun narrow => cmpUsecntLastuse narrow 16, 5 * ocnt / 100)]

def cleanRounds (ocnt : ℕ) : List (((ℤ → ℤ) → Entry → Entry → ℤ) × ℕ) :=
  firstRounds ocnt ++ lastRounds (ocnt - (15 * ocnt / 100 + 5 * ocnt / 100))

theorem foldl_freePage (ids : List ℕ) (rows : List PageRow) :
    ids.foldl freePage rows = rows.map fun row => if row.id ∈ ids then freed row else row := by
  induction ids generalizing rows with
  | nil => simp
  | cons id ids ih =>
    rw [List.foldl_cons, ih, freePage, List.map_map]
    apply List.map_congr_left
    intro row _
    simp only [Function.comp, List.mem_cons]
    by_cases here : row.id = id
    · simp only [here, if_true, true_or]
      split <;> rfl
    · simp only [here, if_false, false_or]

/-- Among the rows of a table the identifier names the row. -/
theorem mem_of_id {rows deleted : List PageRow} (ordered : rows.Pairwise fun row next => row.id < next.id)
    (subset : ∀ row ∈ deleted, row ∈ rows) {row : PageRow} (member : row ∈ rows) :
    row.id ∈ deleted.map PageRow.id ↔ row ∈ deleted := by
  rw [List.mem_map]
  constructor
  · rintro ⟨other, present, same⟩
    have once : ∀ one ∈ rows, ∀ two ∈ rows, one.id = two.id → one = two := by
      intro one first two second equal
      by_contra apart
      rcases List.pairwise_iff_getElem.mp ordered with less
      obtain ⟨i, inside, rfl⟩ := List.getElem_of_mem first
      obtain ⟨j, within, rfl⟩ := List.getElem_of_mem second
      rcases Nat.lt_trichotomy i j with before | here | after
      · have := less i j inside within before
        omega
      · subst here
        exact apart rfl
      · have := less j i within inside after
        omega
    exact once other (subset other present) row member same ▸ present
  · exact fun present => ⟨row, present, rfl⟩

/-- The array as it is filled stands for the rows read. -/
theorem standing_start {pool : List PageRow} {state : PqState} (inRange : ∀ row ∈ pool, InRange base row)
    (filler : InRange base (pool.headD default)) :
    Standing base
      ⟨fun place => (pool.map toEntry).getD place ((pool.map toEntry).headD default), 0, (pool.map toEntry).length, state⟩
      pool := by
  have all : ∀ place, InRange base (pool.getD place (pool.headD default)) := by
    intro place
    by_cases inside : place < pool.length
    · rw [List.getD_eq_getElem _ _ inside]
      exact inRange _ (List.getElem_mem inside)
    · rw [List.getD_eq_default _ _ (by omega)]
      exact filler
  have head : (pool.map toEntry).headD default = toEntry (pool.headD default) := by
    cases pool <;> rfl
  refine ⟨fun place => ⟨_, all place⟩, fun place => ?_, ?_⟩
  · simp only [Nat.zero_add, head, List.getD_map]
  · simp only [contents, List.map_map, List.length_map]
    apply List.ext_getElem
    · simp
    · intro place _ inside
      simp only [List.getElem_map, List.getElem_range, Function.comp]
      exact List.getD_eq_getElem _ _ inside

/-- The rows after `deleted` have been given up. -/
def without (rows deleted : List PageRow) : List PageRow := rows.map fun row => if row ∈ deleted then freed row else row

/-- The sort by identifier permutes what is to be deleted. -/
theorem doomed_sorted {sweep : Sweep} {pool : List PageRow} (standing : Standing base sweep pool)
    (fits : sweep.cnt < 2 ^ stackSize) :
    ∃ (doomed : ℕ → Entry) (last : PqState) (deleted : List PageRow), (∀ fuel ≥ sweep.cnt, pqsort (cmpId int32) fuel (fun place => sweep.items (sweep.start + place))
        sweep.cnt sweep.cnt 12 sweep.state = some (doomed, last)) ∧
      (contents sweep.cnt doomed).map Entry.id = deleted.map PageRow.id ∧ deleted.Perm pool := by
  obtain ⟨good, stands, rfl⟩ := standing
  have sound := @sound_id base
  have same : ∀ one two : Row base, cmpId int32 (toEntry one) (toEntry two) = cmpId id (toEntry one) (toEntry two) :=
    fun one two => sound.narrow one two one.2 two.2
  have comparator : Comparator fun one two : Row base => cmpId id (toEntry one) (toEntry two) :=
    ⟨fun one two => sound.comparator.flip _ _, fun one two three => sound.comparator.trans _ _ _⟩
  obtain ⟨sorted, last, done, order⟩ := Pqsort.pqsort_sorted comparator good sweep.cnt sweep.cnt 12 sweep.state (by decide) fits
  have entries : (fun place => sweep.items (sweep.start + place)) = (fun row : Row base => toEntry row) ∘ good :=
    funext stands
  refine ⟨(fun row : Row base => toEntry row) ∘ sorted, last, (contents sweep.cnt sorted).map Subtype.val, ?_, ?_, ?_⟩
  · intro fuel more
    rw [entries, PqsortMap.pqsort_comp same, done fuel more]
    rfl
  · simp only [contents, List.map_map]
    apply List.map_congr_left
    intro place _
    exact toEntry_id (sorted place).2
  · exact order.perm.map _

/-- What the code does: the rounds as they are, by the flags as they are. -/
theorem cleanCache_chooses (table : PageTable) (waiting : ℕ → Bool) (freeDbPages : ℕ) (state : PqState)
    (inRange : ∀ row ∈ reads table.rows, InRange base row) :
    ∃ enough after deleted, (∀ fuel ≥ enough, cleanCache waiting fuel ⟨table.rows, freeDbPages, state⟩ = some after) ∧
      Chosen (rowRounds toEntry (cleanRounds (reads table.rows).length)) (reads table.rows) deleted ∧
      after.rows = without table.rows deleted ∧ after.freeDbPages = freeDbPages + deleted.length := by
  by_cases empty : maxId table.rows = 0
  · have none_there : table.rows = [] := by
      by_contra present
      obtain ⟨row, member⟩ := List.exists_mem_of_ne_nil _ present
      have := table.positive row member
      have := le_maxId member
      omega
    refine ⟨0, _, [], fun fuel _ => by rw [cleanCache, if_pos empty], ?_, ?_, rfl⟩
    · rw [none_there]
      exact Chosen.empty (by simp [reads, rowRounds, cleanRounds, firstRounds, lastRounds])
    · simp [none_there, without]
  · obtain ⟨low, within, filler⟩ : ∃ low, (∀ row ∈ reads table.rows, InRange low row) ∧
        InRange low ((reads table.rows).headD default) := by
      cases head : reads table.rows with
      | nil => exact ⟨0, by simp, ⟨Nat.zero_le _, by decide, by decide, by decide⟩⟩
      | cons row rest => exact ⟨base, head ▸ inRange, inRange row (head ▸ List.mem_cons_self)⟩
    have bounded : (reads table.rows).length ≤ 2 ^ 31 := by
      apply length_le_of_ids (table.ordered.sublist List.filter_sublist)
      intro row member
      exact ⟨table.positive row (List.mem_of_mem_filter member), (inRange row member).id.le⟩
    have known : ∀ row ∈ reads table.rows, row ∈ table.rows := fun row => List.mem_of_mem_filter
    generalize pool_eq : reads table.rows = pool at within filler bounded known ⊢
    have start : ReadTo table.rows [] table.rows 0 [] :=
      { split := rfl, entries := rfl, below := by simp, above := table.positive }
    have entries := fun fuel => @readEntries_reads table waiting fuel _ _ _ _ start
    rw [pool_eq] at entries
    have standing := @standing_start low pool state within filler
    obtain ⟨enough, middle, left, first, count, stands, chosen⟩ :=
      @reserveAll_chooses low _ pool (firstRounds pool.length) (by simp [firstRounds, sound_first, sound_xfirst]) standing
        (by simp only [firstRounds, List.map_cons, List.map_nil, List.sum_cons, List.sum_nil, List.length_map]; omega)
    simp only [firstRounds, List.map_cons, List.map_nil, List.sum_cons, List.sum_nil, Nat.add_zero, List.length_map] at count
    obtain ⟨later, final, rest, last, total, ends, more_chosen⟩ :=
      @reserveAll_chooses low middle left (lastRounds middle.cnt) (by simp [lastRounds, sound_lastuse, sound_usecnt]) stands
        (by simp only [lastRounds, List.map_cons, List.map_nil, List.sum_cons, List.sum_nil]; omega)
    obtain ⟨doomed, turned, deleted, sorted, ids, permuted⟩ := doomed_sorted ends (by simp only [stackSize]; omega)
    have all_chosen : Chosen (rowRounds toEntry (cleanRounds pool.length)) pool deleted := by
      rw [cleanRounds, rowRounds, List.map_append, ← count]
      exact (chosen.append more_chosen).of_perm permuted
    refine ⟨max (table.rows.length + 1) (max enough (max later final.cnt)),
      { rows := (deleted.map PageRow.id).foldl freePage table.rows
        freeDbPages := freeDbPages + (deleted.map PageRow.id).length
        state := turned }, deleted, ?_, all_chosen, ?_, ?_⟩
    · intro fuel more
      simp only [ge_iff_le, max_le_iff] at more
      have one := first fuel more.2.1
      have two := last fuel more.2.2.1
      simp only [firstRounds, reserveAll, Option.bind_eq_bind, Option.bind_eq_some_iff, Option.some.injEq] at one
      simp only [lastRounds, reserveAll, Option.bind_eq_bind, Option.bind_eq_some_iff, Option.some.injEq] at two
      obtain ⟨after_one, done_one, after_two, done_two, rfl⟩ := one
      obtain ⟨after_three, done_three, after_four, done_four, after_five, done_five, after_six, done_six, after_seven,
        done_seven, rfl⟩ := two
      have number := congrArg List.length ids
      simp only [cleanCache, empty, if_false, entries fuel (by omega), bind, Option.bind, List.length_map] at done_one number ⊢
      simp only [number, done_one, done_two, done_three, done_four, done_five, done_six, done_seven, sorted fuel more.2.2.2, ids]
    · rw [foldl_freePage, without]
      apply List.map_congr_left
      intro row member
      simp only [mem_of_id table.ordered (fun row present => known row (all_chosen.subset row present)) member]
    · rw [List.length_map]

end Whole

section Intended

/-- The entry that a row should have given: the flags are about its page id. -/
def intended (row : PageRow) : Entry :=
  { lastuse := row.lastuse
    id := row.id
    usecnt := row.usecnt
    isfirst := row.pageid.getD 0 < firstPagesUnderId
    isxfirst := row.pageid.getD 0 < xfirstPagesUnderId }

/-- The cleaning ends, and what it gives up is what the rounds leave when the
pages are valued by page id, last use and number of uses. The shares are those
of the code, so the kept pages are as many as they add up to. -/
def Evicts (waiting : ℕ → Bool) (rows : List PageRow) (freeDbPages : ℕ) (state : PqState) : Prop :=
  ∃ enough after kept deleted, (∀ fuel ≥ enough, cleanCache waiting fuel ⟨rows, freeDbPages, state⟩ = some after) ∧
    Chosen (rowRounds intended (cleanRounds (reads rows).length)) (reads rows) deleted ∧
    (kept ++ deleted).Perm (reads rows) ∧ kept.length = ((cleanRounds (reads rows).length).map Prod.snd).sum ∧
    after.rows = without rows deleted ∧ after.freeDbPages = freeDbPages + deleted.length

/-- Rows whose last use and page id are on the same side of both bounds, and
whose numbers the comparisons can tell apart. -/
structure Plain (rows : List PageRow) : Prop where
  inRange : ∃ base, ∀ row ∈ reads rows, InRange base row
  first : ∀ row ∈ reads rows, row.lastuse < firstPagesUnderId ↔ row.pageid.getD 0 < firstPagesUnderId
  xfirst : ∀ row ∈ reads rows, row.lastuse < xfirstPagesUnderId ↔ row.pageid.getD 0 < xfirstPagesUnderId

variable {base : ℕ} {row one two : PageRow}

/-- What the comparisons look at. -/
structure Alike (entry other : Entry) : Prop where
  lastuse : entry.lastuse = other.lastuse
  uses : ∀ uses ≤ 16, entry.usecnt ≥ uses ↔ other.usecnt ≥ uses
  isfirst : entry.isfirst = other.isfirst
  isxfirst : entry.isxfirst = other.isxfirst

theorem alike_intended (inRange : InRange base row)
    (first : row.lastuse < firstPagesUnderId ↔ row.pageid.getD 0 < firstPagesUnderId)
    (xfirst : row.lastuse < xfirstPagesUnderId ↔ row.pageid.getD 0 < xfirstPagesUnderId) :
    Alike (toEntry row) (intended row) := by
  constructor
  · exact toEntry_lastuse inRange
  · intro uses few
    simp only [toEntry, intended]
    split <;> omega
  · simp only [toEntry, intended, first]
  · simp only [toEntry, intended, xfirst]

/-- The comparison looks at nothing else. -/
def Sees (cmp : (ℤ → ℤ) → Entry → Entry → ℤ) : Prop :=
  ∀ e1 e2 f1 f2, Alike e1 f1 → Alike e2 f2 → cmp id e1 e2 = cmp id f1 f2

theorem sees_usecnt {uses : ℕ} (few : uses ≤ 16) : Sees fun narrow => cmpUsecntLastuse narrow uses := by
  intro e1 e2 f1 f2 left right
  have one := left.uses uses few
  have two := right.uses uses few
  simp only [cmpUsecntLastuse, ← Nat.not_le, ge_iff_le, left.lastuse, right.lastuse] at one two ⊢
  simp only [one, two]

theorem sees_others : Sees cmpLastuse ∧ Sees cmpXfirstPages ∧ Sees cmpFirstPages := by
  refine ⟨?_, ?_, ?_⟩
  · intro e1 e2 f1 f2 left right
    rw [cmpLastuse, left.lastuse, right.lastuse]
    rfl
  · intro e1 e2 f1 f2 left right
    simp only [cmpXfirstPages, left.lastuse, right.lastuse, left.isxfirst, right.isxfirst]
  · intro e1 e2 f1 f2 left right
    simp only [cmpFirstPages, left.lastuse, right.lastuse, left.isfirst, right.isfirst, left.isxfirst, right.isxfirst]

theorem rounds_alike {rounds : List (((ℤ → ℤ) → Entry → Entry → ℤ) × ℕ)} (sees : ∀ round ∈ rounds, Sees round.1) :
    List.Forall₂ (fun round other : (PageRow → PageRow → ℤ) × ℕ => round.2 = other.2 ∧
      ∀ one two, Alike (toEntry one) (intended one) → Alike (toEntry two) (intended two) →
        round.1 one two ≤ 0 → other.1 (id one) (id two) ≤ 0)
      (rowRounds toEntry rounds) (rowRounds intended rounds) := by
  induction rounds with
  | nil => exact .nil
  | cons round rounds ih =>
    refine .cons ⟨rfl, fun one two left right ranked => ?_⟩ (ih fun round member => sees round (List.mem_cons_of_mem _ member))
    have same := sees round List.mem_cons_self _ _ _ _ left right
    exact same.ge.trans ranked

theorem sees_clean (ocnt : ℕ) : ∀ round ∈ cleanRounds ocnt, Sees round.1 := by
  simp [cleanRounds, firstRounds, lastRounds, sees_others, sees_usecnt]

/-- Where page ids and last uses agree on the flags, the intended pages stay. -/
theorem cleanCache_evicts (table : PageTable) (waiting : ℕ → Bool) (freeDbPages : ℕ) (state : PqState)
    (plain : Plain table.rows) : Evicts waiting table.rows freeDbPages state := by
  obtain ⟨base, inRange⟩ := plain.inRange
  obtain ⟨enough, after, deleted, done, chosen, rows, free⟩ :=
    cleanCache_chooses table waiting freeDbPages state inRange
  have alike : ∀ row ∈ reads table.rows, Alike (toEntry row) (intended row) := fun row member =>
    alike_intended (inRange row member) (plain.first row member) (plain.xfirst row member)
  have meant := chosen.map alike (rounds_alike (sees_clean _))
  rw [List.map_id, List.map_id] at meant
  obtain ⟨kept, parts, number⟩ := meant.parts
  refine ⟨enough, after, kept, deleted, done, meant, parts, ?_, rows, free⟩
  rw [number, rowRounds, List.map_map]
  rfl

/-- Pages of one file, the last uses in the order of the page ids. -/
theorem cleanCache_evicts_three :
    Evicts (fun _ => false)
      [⟨1, some 5, some 3, .read, 20, 1, none⟩, ⟨2, some 5, some 40, .read, 50, 2, none⟩,
        ⟨3, some 5, some 300, .read, 1000, 9, none⟩] 0 PqState.start :=
  cleanCache_evicts ⟨_, by decide, by decide⟩ (fun _ => false) 0 PqState.start
    { inRange := ⟨20, fun row member => by
        have bounds : ∀ row ∈ reads [⟨1, some 5, some 3, .read, 20, 1, none⟩, ⟨2, some 5, some 40, .read, 50, 2, none⟩,
            ⟨3, some 5, some 300, .read, 1000, 9, none⟩],
            20 ≤ row.lastuse ∧ row.lastuse < 20 + 2 ^ 31 ∧ row.lastuse < 2 ^ 32 ∧ row.id < 2 ^ 31 := by decide
        obtain ⟨after, near, word, id⟩ := bounds row member
        exact ⟨after, near, word, id⟩⟩
      first := by decide
      xfirst := by decide }

/-- The first page of a file, used longer ago than six other pages. -/
def firstPage : PageRow := ⟨1, some 5, some 0, .read, 1700000000, 1, none⟩

def sevenPages : List PageRow :=
  firstPage :: [2, 3, 4, 5, 6, 7].map fun id => ⟨id, some 5, some (300 + id), .read, 1700003600 + id, 1, none⟩

/-- One page is reserved for first pages, and the only first page is given up. -/
theorem cleanCache_first_page : ¬ Evicts (fun _ => false) sevenPages 0 PqState.start := by
  rintro ⟨enough, after, kept, deleted, done, meant, _, _, rows, _⟩
  have bounds : ∀ row ∈ reads sevenPages,
      1700000000 ≤ row.lastuse ∧ row.lastuse < 1700000000 + 2 ^ 31 ∧ row.lastuse < 2 ^ 32 ∧ row.id < 2 ^ 31 := by decide
  obtain ⟨other, result, given, runs, chosen, left, _⟩ :=
    @cleanCache_chooses 1700000000 ⟨sevenPages, by decide, by decide⟩ (fun _ => false) 0 PqState.start
      (fun row member => ⟨(bounds row member).1, (bounds row member).2.1, (bounds row member).2.2.1, (bounds row member).2.2.2⟩)
  have one := done (max enough other) (le_max_left _ _)
  have two := runs (max enough other) (le_max_right _ _)
  have same := Option.some.inj (one.symm.trans two)
  have gone : firstPage ∈ given := chosen.worst_left (by decide) (by decide) (by decide)
  have stays : firstPage ∉ deleted := by
    apply Chosen.best_kept meant
    · decide
    · decide
    · decide
  rw [← same, rows] at left
  simp only [without, sevenPages, List.map_cons, if_pos gone, if_neg stays] at left
  have heads := List.head_eq_of_cons_eq left
  exact absurd heads (by decide)

end Intended
end Pclsync.Proofs.Clean
