import Pclsync.Fs.Modified

/-! A modified file is a flat array of bytes, as long as every write is complete and the
file is not cut off below the size of the remote one. -/

namespace Pclsync.Proofs.Modified
open Pclsync.Library Pclsync.Fs.Modified

variable {base : File} {of next : OpenFile} {flat : Flat} {io : Io} {offset size lo hi x : ℕ} {buf : List UInt8}

/-- What holds of a file and the array that it stands for. What was cut off stays in the
interval tree. -/
structure Refines (base : File) (of : OpenFile) (flat : Flat) : Prop where
  size : of.currentsize = flat.bytes.length
  data : of.datafile.length = of.currentsize
  start : base.length = of.initialsize
  grown : of.initialsize ≤ of.currentsize
  longest : of.currentsize ≤ flat.longest
  bytes : ∀ x < of.currentsize,
    flat.bytes.byteAt x = if x ∈ of.writeintervals then of.datafile.byteAt x else base.byteAt x
  held : ∀ x, x ∈ of.writeintervals ↔ x ∈ flat.held ∨ (of.currentsize ≤ x ∧ x < flat.longest)
  inside : ∀ x ∈ flat.held, x < of.currentsize
  covered : ∀ x, of.initialsize ≤ x → x < flat.longest → x ∈ of.writeintervals
  index : loadIntervalTree of.indexfile = some of.writeintervals
  off : of.indexoff = of.indexfile.length

/-- When an action does what it is meant to do: no record of the index file is lost, a write
that is cut short is inside the file, and the file does not get shorter than the remote one. -/
def Sound (of : OpenFile) : Action → Prop
  | .write io buf offset =>
    (of.currentsize < offset ∧ io.resized = false) ∨
      ((of.currentsize < offset → io.gapIndexed = true) ∧ io.indexed = true ∧
        ∃ bw, io.written = some bw ∧ 0 < bw ∧ bw ≤ buf.length ∧ (bw = buf.length ∨ offset + buf.length ≤ of.currentsize))
  | .truncate io size => io.resized = false ∨ ((of.currentsize < size → io.gapIndexed = true) ∧ of.initialsize ≤ size)
  | .reopen => True

/-- The runs of a file from its remote content on, where every action does what it is meant
to do, with the array beside it. -/
inductive Run (base : File) : OpenFile → Flat → Prop where
  | init : Run base (.init base.length) (.init base)
  | step {of next : OpenFile} {flat : Flat} {action : Action} :
    Run base of flat → Sound of action → perform of action = some next → Run base next (flat.apply action)

theorem putRecord_end (record : ℕ × ℕ) (records : List (ℕ × ℕ)) : putRecord record records.length records = records ++ [record] := by
  simp [putRecord]

theorem load_append {records : List (ℕ × ℕ)} {tree : Intervals} (load : loadIntervalTree records = some tree) (nonempty : lo < hi) :
    loadIntervalTree (records ++ [(lo, hi - lo)]) = some (tree.add lo hi nonempty) := by
  rw [loadIntervalTree] at load ⊢
  rw [List.foldlM_append, load]
  have whole : lo + (hi - lo) = hi := by omega
  simp [whole, nonempty]

theorem init_refines : Refines base (.init base.length) (.init base) where
  size := rfl
  data := File.length_resize
  start := rfl
  grown := le_rfl
  longest := le_rfl
  bytes := fun x _ => (if_neg Intervals.not_mem_empty).symm
  held := by
    intro x
    simp only [OpenFile.init, Flat.init, Intervals.not_mem_empty, Set.mem_empty_iff_false, false_or, false_iff]
    omega
  inside := fun x member => absurd member (Set.notMem_empty x)
  covered := fun x above below => absurd below (Nat.not_lt.mpr above)
  index := rfl
  off := rfl

/-- New bytes from somewhere in the file on. -/
theorem Refines.extend (refines : Refines base of flat) (nonempty : lo < hi) (within : lo ≤ of.currentsize) (data bytes : File)
    (held : Set ℕ) (dataLength : data.length = max of.currentsize hi) (bytesLength : bytes.length = max of.currentsize hi)
    (dataKept : ∀ x, ¬ (lo ≤ x ∧ x < hi) → data.byteAt x = of.datafile.byteAt x)
    (bytesKept : ∀ x, ¬ (lo ≤ x ∧ x < hi) → bytes.byteAt x = flat.bytes.byteAt x)
    (new : ∀ x, lo ≤ x → x < hi → bytes.byteAt x = data.byteAt x) (newHeld : ∀ x, x ∈ held ↔ x ∈ flat.held ∨ (lo ≤ x ∧ x < hi)) :
    Refines base
      { of with
        currentsize := max of.currentsize hi
        datafile := data
        indexfile := of.indexfile ++ [(lo, hi - lo)]
        indexoff := of.indexoff + 1
        writeintervals := of.writeintervals.add lo hi nonempty } (flat.become bytes held) where
  size := bytesLength.symm
  data := dataLength
  start := refines.start
  grown := refines.grown.trans (le_max_left _ _)
  longest := by
    rw [Flat.become, bytesLength]
    exact le_max_right _ _
  bytes := by
    intro x inside
    simp only [Intervals.mem_add, Flat.become]
    by_cases fresh : lo ≤ x ∧ x < hi
    · rw [if_pos (.inl fresh)]
      exact new x fresh.1 fresh.2
    · simp only [fresh, false_or]
      rw [dataKept x fresh, bytesKept x fresh]
      exact refines.bytes x (by simp only at inside; omega)
  held := by
    intro x
    have longest := refines.longest
    have old := refines.held x
    simp only [Intervals.mem_add, Flat.become, bytesLength, newHeld, old]
    by_cases fresh : lo ≤ x ∧ x < hi
    · simp only [fresh, and_self, true_or, or_true]
    · simp only [fresh, false_or, or_false]
      apply or_congr_right
      omega
  inside := by
    intro x member
    obtain old | fresh := (newHeld x).mp member
    · have before := refines.inside x old
      simp only
      omega
    · simp only
      omega
  covered := by
    intro x start inside
    simp only [Flat.become, bytesLength] at inside
    rw [Intervals.mem_add]
    by_cases fresh : lo ≤ x ∧ x < hi
    · exact .inl fresh
    · have longest := refines.longest
      exact .inr (refines.covered x start (by omega))
  index := load_append refines.index nonempty
  off := by simp [refines.off]

/-- The array after the file was made longer. -/
def grownTo (flat : Flat) (size : ℕ) : Flat :=
  flat.become (if flat.bytes.length < size then flat.bytes.resize size else flat.bytes)
    (flat.held ∪ {x | flat.bytes.length ≤ x ∧ x < size})

theorem grown_refines (refines : Refines base of flat) (indexed : of.currentsize < size → io.gapIndexed = true)
    (resized : size ≤ of.currentsize ∨ io.resized = true) :
    (modfileCheckSizeOk io of size).1 = true ∧ Refines base (modfileCheckSizeOk io of size).2 (grownTo flat size) ∧
      (modfileCheckSizeOk io of size).2.currentsize = max of.currentsize size := by
  rw [modfileCheckSizeOk]
  split
  next grows =>
    have resized : io.resized = true := resized.resolve_left (by omega)
    have longer : max of.currentsize size = size := by omega
    have past : flat.bytes.length < size := refines.size ▸ grows
    simp only [resized, indexed grows, not_true_eq_false, if_false, true_and, refines.off, putRecord_end, longer, and_true]
    rw [grownTo, if_pos past]
    have grown := refines.extend grows le_rfl (of.datafile.resize size) (flat.bytes.resize size)
      (flat.held ∪ {x | flat.bytes.length ≤ x ∧ x < size}) ?_ ?_ ?_ ?_ ?_ ?_
    · rw [longer, refines.off] at grown
      exact grown
    · simp [longer]
    · simp [longer]
    · intro x outside
      rw [File.byteAt_resize]
      split
      · rfl
      · exact (File.byteAt_past (by rw [refines.data]; omega)).symm
    · intro x outside
      rw [File.byteAt_resize]
      split
      · rfl
      · exact (File.byteAt_past (by rw [← refines.size]; omega)).symm
    · intro x past inside
      rw [File.byteAt_resize, File.byteAt_resize, File.byteAt_past (refines.size ▸ past), File.byteAt_past (refines.data ▸ past)]
    · intro x
      simp [refines.size]
  next enough =>
    have same : grownTo flat size = flat := by
      have none : {x | flat.bytes.length ≤ x ∧ x < size} = ∅ := by
        ext x
        simp only [Set.mem_ofPred_eq, Set.mem_empty_iff_false, iff_false]
        rw [← refines.size]
        omega
      have longest : max flat.longest flat.bytes.length = flat.longest := max_eq_left (refines.size ▸ refines.longest)
      rw [grownTo, none, Set.union_empty, if_neg (by rw [← refines.size]; exact enough), Flat.become, longest]
    rw [same]
    exact ⟨rfl, refines, by simp only; omega⟩

theorem write_refines (refines : Refines base of flat) (sound : Sound of (.write io buf offset)) :
    ∃ next, perform of (.write io buf offset) = some next ∧ Refines base next (flat.apply (.write io buf offset)) := by
  rw [perform, writeModified, Flat.apply]
  by_cases fails : of.currentsize < offset ∧ io.resized = false
  · have stays : modfileCheckSizeOk io of offset = (false, of) := by
      rw [modfileCheckSizeOk, dif_pos fails.1, if_pos (by simp [fails.2])]
    rw [stays, if_pos ⟨refines.size ▸ fails.1, by simp [fails.2]⟩]
    exact ⟨of, rfl, refines⟩
  · obtain ⟨gapIndexed, indexed, bw, written, some, whole, last⟩ := sound.resolve_left fails
    have resized : offset ≤ of.currentsize ∨ io.resized = true := by
      rw [not_and_or, Bool.not_eq_false, Nat.not_lt] at fails
      exact fails
    obtain ⟨ok, grown, reaches⟩ := grown_refines refines gapIndexed resized
    revert ok grown reaches
    generalize modfileCheckSizeOk io of offset = checked
    obtain ⟨_, of'⟩ := checked
    rintro ⟨rfl⟩ grown reaches
    simp only at grown reaches
    have enough : ¬ (flat.bytes.length < offset ∧ ¬ io.resized = true) := by
      rw [refines.size, ← Bool.not_eq_true] at fails
      exact fails
    have within : offset ≤ of'.currentsize := by omega
    have nonempty : offset < offset + bw := Nat.lt_add_of_pos_right some
    have length : (buf.take bw).length = bw := by
      rw [List.length_take]
      omega
    have bytes : buf.take bw ≠ [] := by
      rw [← List.length_pos_iff, length]
      exact some
    simp only [written, indexed, nonempty, not_true_eq_false, if_false, dif_pos, Option.map_some, enough, grown.off, putRecord_end]
    refine ⟨_, rfl, ?_⟩
    have after := grown.extend nonempty within (of'.datafile.pwrite offset (buf.take bw)) (flat.bytes.pwrite offset (buf.take bw))
      (flat.held ∪ {x | flat.bytes.length ≤ x ∧ x < offset} ∪ {x | offset ≤ x ∧ x < offset + bw}) ?_ ?_ ?_ ?_ ?_ ?_
    · -- a write that is cut short does not reach the end
      have longer : max of'.currentsize (offset + bw) =
          if of'.currentsize < offset + buf.length then offset + buf.length else of'.currentsize := by
        split <;> omega
      have longest : (grownTo flat offset).become (flat.bytes.pwrite offset (buf.take bw)) = flat.become (flat.bytes.pwrite offset (buf.take bw)) := by
        funext held
        have size := grown.size
        simp only [grownTo, Flat.become, File.length_pwrite, if_neg bytes, length, Flat.mk.injEq, true_and] at size ⊢
        rw [← size, reaches, refines.size]
        omega
      rw [longer, Nat.add_sub_cancel_left, grown.off, longest] at after
      exact after
    · rw [File.length_pwrite, if_neg bytes, grown.data, length]
    · rw [File.length_pwrite, if_neg bytes, reaches, refines.size, length]
      omega
    · intro x outside
      rw [File.byteAt_pwrite, length, if_neg outside]
    · intro x outside
      rw [File.byteAt_pwrite, length, if_neg outside, grownTo, Flat.become]
      split
      next past =>
        rw [File.byteAt_resize]
        split
        · rfl
        · exact File.byteAt_past (by omega)
      next => rfl
    · intro x past inside
      rw [File.byteAt_pwrite, File.byteAt_pwrite, length, if_pos ⟨past, inside⟩, if_pos ⟨past, inside⟩]
    · intro x
      simp [grownTo, Flat.become]

theorem cut_refines (refines : Refines base of flat) (shorter : size ≤ of.currentsize) (enough : of.initialsize ≤ size) :
    Refines base { of with datafile := of.datafile.resize size, currentsize := size }
      (flat.become (flat.bytes.resize size) {x | (x ∈ flat.held ∨ flat.bytes.length ≤ x) ∧ x < size}) where
  size := by simp [Flat.become]
  data := by simp
  start := refines.start
  grown := enough
  longest := by simp [Flat.become]
  bytes := by
    intro x inside
    simp only [Flat.become]
    rw [File.byteAt_resize, File.byteAt_resize, if_pos inside, if_pos inside]
    exact refines.bytes x (by simp only at inside; omega)
  held := by
    intro x
    have longest := refines.longest
    have inside := refines.inside x
    have covered := refines.covered x
    simp only [Flat.become, Set.mem_ofPred_eq, File.length_resize, refines.held, ← refines.size] at covered ⊢
    constructor
    · rintro (held | ⟨past, below⟩)
      · have before := inside held
        by_cases kept : x < size
        · exact .inl ⟨.inl held, kept⟩
        · exact .inr (by omega)
      · exact .inr (by omega)
    · rintro (⟨held | past, kept⟩ | ⟨cut, below⟩)
      · exact .inl held
      · omega
      · exact covered (by omega) (by omega)
  inside := fun x member => member.2
  covered := by
    intro x above below
    have longest := refines.longest
    simp only [Flat.become, File.length_resize] at below
    exact refines.covered x above (by omega)
  index := refines.index
  off := refines.off

theorem truncate_refines (refines : Refines base of flat) (sound : Sound of (.truncate io size)) :
    Refines base (ftruncateOf io of size).2 (flat.apply (.truncate io size)) := by
  rw [ftruncateOf, Flat.apply]
  by_cases resized : io.resized = true
  · obtain ⟨gapIndexed, enough⟩ := sound.resolve_left (by simp [resized])
    simp only [resized, not_true_eq_false, if_false]
    split
    next same =>
      have whole : { of with datafile := of.datafile.resize size, currentsize := size } = of := by
        rw [← same, ← refines.data, File.resize, List.take_length, Nat.sub_self, List.replicate_zero, List.append_nil, refines.data]
      have cut := cut_refines refines same.ge enough
      rwa [whole] at cut
    next differs =>
      by_cases grows : of.currentsize < size
      · obtain ⟨ok, grown, reaches⟩ : (modfileCheckSizeOk io of size).1 = true ∧ _ :=
          grown_refines refines gapIndexed (.inr resized)
        have longer : (modfileCheckSizeOk io of size).2.currentsize = size := by omega
        simp only [ok, not_true_eq_false, if_false, longer, if_true]
        have past : flat.bytes.length < size := refines.size ▸ grows
        have same : {x | (x ∈ flat.held ∨ flat.bytes.length ≤ x) ∧ x < size} = flat.held ∪ {x | flat.bytes.length ≤ x ∧ x < size} := by
          ext x
          have inside := refines.inside x
          simp only [Set.mem_ofPred_eq, Set.mem_union, or_and_right]
          apply or_congr_left
          rw [and_iff_left_iff_imp]
          intro member
          exact (inside member).trans grows
        rwa [grownTo, if_pos past, ← same] at grown
      · have kept : modfileCheckSizeOk io of size = (true, of) := by rw [modfileCheckSizeOk, dif_neg grows]
        simp only [kept, not_true_eq_false, if_false, differs]
        exact cut_refines refines (Nat.not_lt.mp grows) enough
  · simp only [resized, not_false_eq_true, if_true, Bool.false_eq_true]
    split
    · exact refines
    next differs =>
      by_cases grows : of.currentsize < size
      · have fails : modfileCheckSizeOk io of size = (false, of) := by rw [modfileCheckSizeOk, dif_pos grows, if_pos resized]
        simp only [fails, Bool.false_eq_true, not_false_eq_true, if_true]
        exact refines
      · have kept : modfileCheckSizeOk io of size = (true, of) := by rw [modfileCheckSizeOk, dif_neg grows]
        simp only [kept, not_true_eq_false, if_false, differs]
        exact refines

theorem reopen_refines (refines : Refines base of flat) : reopen of = some of := by
  rw [reopen, refines.index, Option.map_some, ← refines.off, refines.data]

/-- Each action that does what it is meant to do does the same to the array. -/
theorem perform_refines {action : Action} (refines : Refines base of flat) (sound : Sound of action) :
    ∃ next, perform of action = some next ∧ Refines base next (flat.apply action) := by
  cases action with
  | write io buf offset => exact write_refines refines sound
  | truncate io size => exact ⟨_, rfl, truncate_refines refines sound⟩
  | reopen => exact ⟨of, reopen_refines refines, refines⟩

theorem run_refines (run : Run base of flat) : Refines base of flat := by
  induction run with
  | init => exact init_refines
  | step _ sound performed refines =>
    obtain ⟨next, same, after⟩ := perform_refines refines sound
    rw [performed, Option.some.injEq] at same
    exact same ▸ after

section Read
variable {datafile : File} {list rest : List (ℕ × ℕ)} {low rd : ℕ}

/-- What is read of one interval. -/
def piece (datafile : File) (size offset lo hi : ℕ) : List UInt8 :=
  datafile.pread (max lo offset) (min hi (offset + size) - max lo offset)

theorem readIntervals_cons (before : lo < offset + size) (past : offset < hi) :
    readIntervals datafile size offset ((lo, hi) :: rest) (buf, rd) =
      readIntervals datafile size offset rest (File.pwrite (max lo offset - offset) (piece datafile size offset lo hi) buf,
        if rd = size then rd else max rd ((piece datafile size offset lo hi).length + max lo offset - offset)) := by
  have start : (if lo < offset then offset else lo) = max lo offset := by
    split <;> omega
  have length : (if offset + size < max lo offset + (if lo < offset then hi - lo - (offset - lo) else hi - lo) then
      offset + size - max lo offset else if lo < offset then hi - lo - (offset - lo) else hi - lo) =
        min hi (offset + size) - max lo offset := by
    split <;> split <;> omega
  rw [readIntervals, if_pos before]
  simp only [start, length]
  rw [← piece]
  congr 2
  by_cases all : rd = size
  · simp [all]
  · simp only [all, ne_eq, not_false_eq_true, true_and, if_false]
    split <;> omega

/-- What some intervals add to a read. -/
structure Overlaid (datafile : File) (size offset : ℕ) (covers : ℕ → Prop) (before after : List UInt8 × ℕ) : Prop where
  length : after.1.length = size
  covered : ∀ i < size, covers (offset + i) → offset + i < datafile.length → File.byteAt after.1 i = datafile.byteAt (offset + i)
  kept : ∀ i < size, ¬ covers (offset + i) → File.byteAt after.1 i = File.byteAt before.1 i
  more : before.2 ≤ after.2
  reaches : ∀ x, offset ≤ x → x < offset + size → covers x → x < datafile.length → x + 1 - offset ≤ after.2
  stops : after.2 ≤ max before.2 (min datafile.length (offset + size) - offset)

theorem readIntervals_overlaid (ordered : Ordered low list) (after : ∀ interval ∈ list, offset < interval.2)
    (starts : ∀ interval ∈ list, interval.1 ≤ datafile.length) (length : buf.length = size) :
    Overlaid datafile size offset (Intervals.Covers list) (buf, rd) (readIntervals datafile size offset list (buf, rd)) := by
  induction list generalizing low buf rd with
  | nil =>
    refine ⟨length, ?_, fun _ _ _ => rfl, le_rfl, ?_, le_max_left _ _⟩
    · intro i _ covers
      exact absurd covers Intervals.not_covers_nil
    · intro x _ _ covers
      exact absurd covers Intervals.not_covers_nil
  | cons first rest ih =>
    obtain ⟨lo, hi⟩ := first
    obtain ⟨above, nonempty, later⟩ := ordered
    have past : offset < hi := after (lo, hi) List.mem_cons_self
    have start : lo ≤ datafile.length := starts (lo, hi) List.mem_cons_self
    by_cases before : lo < offset + size
    · have read : (piece datafile size offset lo hi).length =
          min (min hi (offset + size) - max lo offset) (datafile.length - max lo offset) := File.length_pread
      rw [readIntervals_cons before past]
      have written : (File.pwrite (max lo offset - offset) (piece datafile size offset lo hi) buf).length = size := by
        rw [File.length_pwrite, read]
        split
        · exact length
        · omega
      have others := @ih (File.pwrite (max lo offset - offset) (piece datafile size offset lo hi) buf) (hi + 1)
        (if rd = size then rd else max rd ((piece datafile size offset lo hi).length + max lo offset - offset)) later
        (fun interval member => after interval (List.mem_cons_of_mem _ member))
        (fun interval member => starts interval (List.mem_cons_of_mem _ member)) written
      have apart : ∀ x, Intervals.Covers rest x → hi < x := fun x covers => Intervals.le_of_covers later covers
      refine ⟨others.length, ?_, ?_, ?_, ?_, ?_⟩
      · intro i inside covers exists_
        obtain here | there := Intervals.covers_cons.mp covers
        · rw [others.kept i inside fun there => by have beyond := apart _ there; omega, File.byteAt_pwrite, if_pos (by omega)]
          have same : File.byteAt (piece datafile size offset lo hi) (i - (max lo offset - offset)) = datafile.byteAt (offset + i) := by
            rw [piece, File.byteAt_pread (by omega)]
            congr 1
            omega
          exact same
        · exact others.covered i inside there exists_
      · intro i inside uncovered
        rw [Intervals.covers_cons, not_or] at uncovered
        rw [others.kept i inside uncovered.2, File.byteAt_pwrite, if_neg (by omega)]
      · refine le_trans ?_ others.more
        split
        · exact le_rfl
        · exact le_max_left _ _
      · intro x above below covers exists_
        obtain here | there := Intervals.covers_cons.mp covers
        · refine le_trans ?_ others.more
          split
          · omega
          · omega
        · exact others.reaches x above below there exists_
      · refine others.stops.trans ?_
        apply max_le _ (le_max_right _ _)
        split
        · exact le_max_left _ _
        · apply max_le (le_max_left _ _)
          refine le_trans ?_ (le_max_right _ _)
          omega
    · -- the other intervals are behind the end as well
      have none : ∀ x < offset + size, ¬ Intervals.Covers ((lo, hi) :: rest) x := by
        intro x inside covers
        obtain here | there := Intervals.covers_cons.mp covers
        · omega
        · have beyond := Intervals.le_of_covers later there
          omega
      rw [readIntervals, if_neg before]
      refine ⟨length, ?_, fun _ _ _ => rfl, le_rfl, ?_, le_max_left _ _⟩
      · intro i inside covers
        exact absurd covers (none _ (by omega))
      · intro x _ inside covers
        exact absurd covers (none x inside)

/-- No interval is in the range that is read. -/
theorem readIntervals_none {read : List UInt8 × ℕ} (apart : (list.head?.all fun interval => decide (offset + size ≤ interval.1)) = true) :
    readIntervals datafile size offset list read = read := by
  cases list with
  | nil => rfl
  | cons first rest =>
    have past : offset + size ≤ first.1 := by simpa using apart
    rw [readIntervals, if_neg (by omega)]

end Read

/-- No interval starts past the end. -/
theorem Refines.starts (refines : Refines base of flat) {interval : ℕ × ℕ} (member : interval ∈ of.writeintervals.list) :
    interval.1 ≤ of.datafile.length := by
  obtain ⟨lo, hi⟩ := interval
  rw [refines.data]
  by_contra past
  obtain ⟨before, rfl⟩ : ∃ before, lo = before + 1 := ⟨lo - 1, by omega⟩
  have nonempty := Intervals.nonempty_of_mem of.writeintervals.ordered member
  have first : before + 1 ∈ of.writeintervals := ⟨_, member, le_rfl, nonempty⟩
  have inside : before + 1 < flat.longest := by
    obtain held | ⟨_, below⟩ := (refines.held _).mp first
    · have before := refines.inside _ held
      have longest := refines.longest
      omega
    · exact below
  have start := refines.grown
  have covers : before ∈ of.writeintervals := refines.covered before (by omega) (by omega)
  exact Intervals.not_covers_before of.writeintervals.ordered member covers

/-- A read of the local file alone. -/
theorem readLocal_refines (refines : Refines base of flat)
    (whole : ∀ x, offset ≤ x → x < offset + size → x ∈ of.writeintervals) :
    of.datafile.pread offset size = flat.bytes.pread offset size := by
  apply File.ext
  · rw [File.length_pread, File.length_pread, refines.data, refines.size]
  · intro index
    by_cases inside : index < size
    · rw [File.byteAt_pread inside, File.byteAt_pread inside]
      by_cases exists_ : offset + index < of.currentsize
      · rw [refines.bytes _ exists_, if_pos (whole _ (by omega) (by omega))]
      · rw [File.byteAt_past (by rw [refines.data]; omega), File.byteAt_past (by rw [← refines.size]; omega)]
    · rw [File.byteAt_past (by rw [File.length_pread]; omega), File.byteAt_past (by rw [File.length_pread]; omega)]

/-- A read of the remote file with the intervals over it. -/
theorem readRemote_refines (refines : Refines base of flat) (buf : List UInt8) (offset : ℕ) :
    let remote := base.pread offset buf.length
    let read := readIntervals of.datafile buf.length offset (Intervals.firstFrom offset of.writeintervals.list)
      (remote ++ buf.drop remote.length, remote.length)
    read.1.take read.2 = flat.bytes.pread offset buf.length := by
  intro remote read
  have length : remote.length = min buf.length (of.initialsize - offset) := by
    rw [← refines.start]
    exact File.length_pread
  have grown := refines.grown
  have longest := refines.longest
  obtain ⟨after, low, ordered⟩ := Intervals.firstFrom_ordered of.writeintervals.ordered
  have starts : ∀ interval ∈ Intervals.firstFrom offset of.writeintervals.list, interval.1 ≤ of.datafile.length :=
    fun interval member => refines.starts (List.dropWhile_subset _ member)
  have full : (remote ++ buf.drop remote.length).length = buf.length := by
    rw [List.length_append, List.length_drop]
    omega
  have overlaid : Overlaid _ _ _ _ _ read := readIntervals_overlaid ordered after starts full
  have more : remote.length ≤ read.2 := overlaid.more
  have stops : read.2 ≤ max remote.length (min of.datafile.length (offset + buf.length) - offset) := overlaid.stops
  rw [refines.data] at stops
  have count : read.2 = min buf.length (of.currentsize - offset) := by
    apply le_antisymm
    · omega
    · by_contra short
      -- the last byte is past the remote file, so it is local
      have last := overlaid.reaches (offset + min buf.length (of.currentsize - offset) - 1) (by omega) (by omega)
        ((Intervals.covers_firstFrom (by omega)).mpr (refines.covered _ (by omega) (by omega))) (by rw [refines.data]; omega)
      omega
  apply File.ext
  · rw [List.length_take, overlaid.length, File.length_pread, count, refines.size]
    omega
  · intro index
    rw [File.byteAt_take]
    split
    next inside =>
      have below : index < buf.length := by omega
      rw [File.byteAt_pread below, refines.bytes _ (by omega)]
      split
      next covers =>
        exact overlaid.covered index below ((Intervals.covers_firstFrom (by omega)).mpr covers) (by rw [refines.data]; omega)
      next uncovered =>
        have early : offset + index < of.initialsize := by
          by_contra late
          exact uncovered (refines.covered _ (by omega) (by omega))
        rw [overlaid.kept index below fun covers => uncovered ((Intervals.covers_firstFrom (by omega)).mp covers),
          File.byteAt_append, if_pos (by omega), File.byteAt_pread below]
    next past =>
      rw [File.byteAt_past]
      rw [File.length_pread, ← refines.size]
      omega

theorem read_refines (refines : Refines base of flat) (buf : List UInt8) (offset : ℕ) :
    readModified base of buf offset = flat.bytes.pread offset buf.length := by
  rw [readModified]
  have remote := readRemote_refines refines buf offset
  simp only at remote
  rw [← remote]
  split
  next whole =>
    rw [remote]
    apply readLocal_refines refines
    intro x above below
    obtain ⟨interval, first, inside⟩ := (Option.any_eq_true _ _).mp whole
    have inside : interval.1 ≤ offset ∧ offset + buf.length ≤ interval.2 := by simpa using inside
    have member : interval ∈ of.writeintervals.list := List.dropWhile_subset _ (List.mem_of_mem_head? first)
    exact ⟨interval, member, by omega, by omega⟩
  next =>
    split
    next apart =>
      rw [readIntervals_none (by simpa using apart), List.take_left']
      rfl
    next => rfl

/-- Two bytes that are written behind the end. -/
def gap : Action := .write ⟨true, true, some 2, true⟩ [9, 8] 4

theorem gap_sound : Sound (.init 3) gap := .inr ⟨fun _ => rfl, rfl, 2, rfl, Nat.two_pos, le_rfl, .inl rfl⟩

end Pclsync.Proofs.Modified
