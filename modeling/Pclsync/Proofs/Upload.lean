import Pclsync.Fs.Upload
import Pclsync.Proofs.Modified

/-! The requests of an upload are the file from its start to its end, and the server is
asked for nothing that the remote file does not have, when every offset past the end of the
remote file is in the interval tree. -/

namespace Pclsync.Proofs.Upload
open Pclsync.Library Pclsync.Fs.Upload

variable {tree : Intervals} {old new coff reqs lo hi x : ℕ} {intervals : List (ℕ × ℕ)} {turns : List Turn} {rest : List Req}

/-- A request takes its bytes from the right file. -/
def Req.Right (tree : Intervals) (req : Req) : Prop :=
  match req.source with
  | .remote => (∀ x, req.offset ≤ x → x < req.offset + req.length → x ∉ tree) ∧ req.length ≤ maxCopyFromReq
  | .datafile => ∀ x, req.offset ≤ x → x < req.offset + req.length → x ∈ tree

/-- Requests one after another from one offset to another, each from the right file. -/
def Assembles (tree : Intervals) : ℕ → ℕ → List Req → Prop
  | lo, hi, [] => lo = hi
  | lo, hi, req :: rest => req.offset = lo ∧ 0 < req.length ∧ Req.Right tree req ∧ Assembles tree (lo + req.length) hi rest

/-- No copy is past the end of the remote file. -/
def Within (old : ℕ) (issued : List Req) : Prop := ∀ req ∈ issued, req.source = .remote → req.offset + req.length ≤ old

/-- The intervals that are left at an offset. -/
structure At (tree : Intervals) (coff : ℕ) (intervals : List (ℕ × ℕ)) : Prop where
  ordered : ∃ low, Ordered low intervals
  past : ∀ interval ∈ intervals, coff < interval.2
  covers : ∀ x, coff ≤ x → (x ∈ tree ↔ Intervals.Covers intervals x)

theorem at_first : At tree 0 tree.list where
  ordered := ⟨0, tree.ordered⟩
  past := by
    intro interval member
    have nonempty := Intervals.nonempty_of_mem tree.ordered member
    omega
  covers := fun x _ => Iff.rfl

/-- Without an interval before it the offset can go on. -/
theorem At.mono {next : ℕ} (here : At tree coff intervals) (later : coff ≤ next) (past : ∀ interval ∈ intervals, next < interval.2) :
    At tree next intervals :=
  ⟨here.ordered, past, fun x above => here.covers x (by omega)⟩

theorem request_right (here : At tree coff intervals) (inside : coff < new) :
    ∃ req next left, request new coff intervals = some (req, next, left) ∧ req.offset = coff ∧ 0 < req.length ∧
      coff + req.length = min next new ∧ Req.Right tree req ∧ At tree next left := by
  cases intervals with
  | nil =>
    have some : 0 < min (new - coff) maxCopyFromReq := by
      have positive : 0 < maxCopyFromReq := by decide
      omega
    refine ⟨_, _, _, rfl, rfl, some, ?_, ⟨?_, min_le_right _ _⟩, ?_⟩
    · simp only
      omega
    · intro x above below member
      exact Intervals.not_covers_nil ((here.covers x above).mp member)
    · exact here.mono (Nat.le_add_right _ _) (by simp)
  | cons first rest =>
    obtain ⟨lo, hi⟩ := first
    obtain ⟨low, _, nonempty, later⟩ := here.ordered
    have upper : coff < hi := here.past (lo, hi) List.mem_cons_self
    rw [request]
    split
    next before =>
      have some : 0 < min (min lo new - coff) maxCopyFromReq := by
        have positive : 0 < maxCopyFromReq := by decide
        omega
      refine ⟨_, _, _, rfl, rfl, some, ?_, ⟨?_, min_le_right _ _⟩, ?_⟩
      · simp only
        omega
      · intro x above below member
        simp only at above below
        obtain here | there := Intervals.covers_cons.mp ((here.covers x above).mp member)
        · omega
        · have beyond := Intervals.le_of_covers later there
          omega
      · apply here.mono (Nat.le_add_right _ _)
        intro interval member
        obtain rfl | member := List.mem_cons.mp member
        · simp only
          omega
        · have beyond := Intervals.le_of_covers later ⟨interval, member, le_rfl, Intervals.nonempty_of_mem later member⟩
          have whole := Intervals.nonempty_of_mem later member
          omega
    next reached =>
      refine ⟨_, _, _, rfl, rfl, ?_, ?_, ?_, ⟨hi + 1, later⟩, ?_, ?_⟩
      · simp only
        omega
      · simp only
        omega
      · intro x above below
        simp only at above below
        exact (here.covers x above).mpr (Intervals.covers_cons.mpr (.inl (by omega)))
      · intro interval member
        have beyond := Intervals.le_of_covers later ⟨interval, member, le_rfl, Intervals.nonempty_of_mem later member⟩
        have whole := Intervals.nonempty_of_mem later member
        omega
      · intro x above
        rw [here.covers x (by omega), Intervals.covers_cons, or_iff_right]
        omega

/-- A loop that comes to its end asked for the whole file. -/
theorem sendAll_assembles (here : At tree coff intervals) (ends : (sendAll new turns coff reqs intervals).pending ≠ none) :
    Assembles tree (min coff new) new (sendAll new turns coff reqs intervals).issued := by
  induction turns generalizing coff reqs intervals with
  | nil =>
    rw [sendAll] at ends ⊢
    have past : ¬ coff < new := by
      intro inside
      exact ends (if_pos inside)
    exact min_eq_right (Nat.not_lt.mp past)
  | cons turn turns ih =>
    rw [sendAll] at ends ⊢
    by_cases inside : coff < new
    · obtain ⟨req, next, left, same, start, some, reaches, right, after⟩ := request_right here inside
      rw [if_pos inside, same] at ends ⊢
      split at ends
      · exact absurd rfl ends
      next read =>
        rw [if_neg read]
        simp only at ends ⊢
        split at ends
        · exact absurd rfl ends
        next sent =>
          rw [if_neg sent]
          have first : min coff new = coff := min_eq_left inside.le
          refine ⟨start.trans first.symm, some, right, ?_⟩
          rw [first, reaches]
          exact ih after ends
    · rw [if_neg inside]
      exact min_eq_right (Nat.not_lt.mp inside)

/-- Without errors the loop comes to its end. -/
theorem sendAll_ends (here : At tree coff intervals) {passes : ℕ} (enough : new - coff ≤ passes) (reqs : ℕ) :
    (sendAll new (List.replicate passes ⟨false, true, true, false⟩) coff reqs intervals).pending ≠ none := by
  induction passes generalizing coff reqs intervals with
  | zero =>
    rw [List.replicate_zero, sendAll, if_neg (by omega)]
    exact Option.some_ne_none _
  | succ passes ih =>
    rw [List.replicate_succ, sendAll]
    split
    next inside =>
      obtain ⟨req, next, left, same, start, some, reaches, right, after⟩ := request_right here inside
      simp only [same, Bool.false_eq_true, and_false, if_false, not_true_eq_false, or_self]
      exact ih after (by omega) _
    next => exact Option.some_ne_none _

/-- The rest of the file can be asked for from everywhere. -/
theorem At.completes (here : At tree coff intervals) : ∃ rest, Assembles tree (min coff new) new rest :=
  ⟨_, sendAll_assembles here (sendAll_ends here le_rfl 0)⟩

/-- A loop that stops early asked for a part from the start on. -/
theorem sendAll_prefix (here : At tree coff intervals) :
    ∃ rest, Assembles tree (min coff new) new ((sendAll new turns coff reqs intervals).issued ++ rest) := by
  induction turns generalizing coff reqs intervals with
  | nil => exact here.completes
  | cons turn turns ih =>
    rw [sendAll]
    split
    next inside =>
      split
      · exact here.completes
      next =>
        obtain ⟨req, next, left, same, start, some, reaches, right, after⟩ := request_right here inside
        have first : min coff new = coff := min_eq_left inside.le
        have joined {others : List Req} (assembles : Assembles tree (min next new) new others) :
            Assembles tree (min coff new) new (req :: others) := by
          refine ⟨start.trans first.symm, some, right, ?_⟩
          rwa [first, reaches]
        simp only [same]
        split
        · obtain ⟨rest, assembles⟩ := after.completes
          exact ⟨rest, joined assembles⟩
        next =>
          obtain ⟨rest, assembles⟩ := ih after
          exact ⟨rest, joined assembles⟩
    next past => exact ⟨[], min_eq_right (Nat.not_lt.mp past)⟩

theorem Assembles.ordered (assembles : Assembles tree lo hi rest) : lo ≤ hi := by
  induction rest generalizing lo with
  | nil => exact Nat.le_of_eq assembles
  | cons first others ih =>
    have later := ih assembles.2.2.2
    omega

/-- Each request is in the range, from the right file. -/
theorem Assembles.mem (assembles : Assembles tree lo hi rest) :
    ∀ req ∈ rest, 0 < req.length ∧ req.offset + req.length ≤ hi ∧ Req.Right tree req := by
  induction rest generalizing lo with
  | nil => simp
  | cons first others ih =>
    obtain ⟨start, some, right, later⟩ := assembles
    intro req member
    obtain rfl | member := List.mem_cons.mp member
    · exact ⟨some, start ▸ later.ordered, right⟩
    · exact ih later req member

/-- Each offset of the range is in a request. -/
theorem Assembles.covers (assembles : Assembles tree lo hi rest) (above : lo ≤ x) (below : x < hi) :
    ∃ req ∈ rest, req.offset ≤ x ∧ x < req.offset + req.length := by
  induction rest generalizing lo with
  | nil =>
    have same : lo = hi := assembles
    omega
  | cons first others ih =>
    obtain ⟨start, _, _, later⟩ := assembles
    by_cases inside : x < lo + first.length
    · exact ⟨first, List.mem_cons_self, by omega, by omega⟩
    · obtain ⟨req, member, here⟩ := ih later (Nat.not_lt.mp inside)
      exact ⟨req, List.mem_cons_of_mem _ member, here⟩

/-- What the requests of an upload are to be: the file in order, without gap or overlap, from
the local file inside the intervals and from the remote one elsewhere, as long as it is. -/
def Right (tree : Intervals) (old new : ℕ) : Prop :=
  (∀ turns replies, (∃ rest, Assembles tree 0 new ((uploadModify new tree turns replies).1 ++ rest)) ∧
    ((uploadModify new tree turns replies).2 = true → Assembles tree 0 new (uploadModify new tree turns replies).1) ∧
    Within old (uploadModify new tree turns replies).1) ∧
  ∃ turns replies, (uploadModify new tree turns replies).2 = true

theorem uploadModify_starts (tree : Intervals) (new : ℕ) (turns : List Turn) (replies : List Bool) :
    ∃ rest, Assembles tree 0 new ((uploadModify new tree turns replies).1 ++ rest) := by
  have first : At tree 0 tree.list := at_first
  obtain ⟨rest, started⟩ : ∃ rest, Assembles tree (min 0 new) new ((sendAll new turns 0 0 tree.list).issued ++ rest) :=
    sendAll_prefix first
  exact ⟨rest, (Nat.zero_min new) ▸ started⟩

theorem uploadModify_assembles {replies : List Bool} (saved : (uploadModify new tree turns replies).2 = true) :
    Assembles tree 0 new (uploadModify new tree turns replies).1 := by
  have ends : (sendAll new turns 0 0 tree.list).pending ≠ none := by
    intro stopped
    rw [uploadModify, stopped] at saved
    cases saved
  have whole := sendAll_assembles at_first ends
  rwa [Nat.zero_min] at whole

theorem uploadModify_saves (tree : Intervals) (new : ℕ) : ∃ turns replies, (uploadModify new tree turns replies).2 = true := by
  have first : At tree 0 tree.list := at_first
  obtain ⟨reqs, pending⟩ := Option.ne_none_iff_exists'.mp (sendAll_ends first (Nat.le_refl (new - 0)) 0)
  refine ⟨List.replicate (new - 0) ⟨false, true, true, false⟩, List.replicate reqs true, ?_⟩
  simp only [uploadModify, pending, Option.any_some, List.take_replicate, min_self, decide_true]

theorem uploadModify_right : Right tree old new ↔ ∀ x, old ≤ x → x < new → x ∈ tree := by
  constructor
  · rintro ⟨every, turns, replies, saved⟩ x past inside
    obtain ⟨_, assembles, within⟩ := every turns replies
    obtain ⟨req, member, above, below⟩ := (assembles saved).covers (Nat.zero_le x) inside
    obtain ⟨_, _, right⟩ := (assembles saved).mem req member
    cases source : req.source with
    | remote =>
      have bound := within req member source
      omega
    | datafile =>
      rw [Req.Right, source] at right
      exact right x above below
  · intro covered
    refine ⟨fun turns replies => ⟨uploadModify_starts tree new turns replies, uploadModify_assembles, ?_⟩, uploadModify_saves tree new⟩
    intro req member source
    obtain ⟨rest, assembles⟩ := uploadModify_starts tree new turns replies
    obtain ⟨some, inside, right⟩ := assembles.mem req (List.mem_append_left _ member)
    rw [Req.Right, source] at right
    by_contra beyond
    -- the last byte of the copy is in no interval
    exact right.1 (req.offset + req.length - 1) (by omega) (by omega) (covered _ (by omega) (by omega))

/-- A write that was cut short, another one behind it, and the interval tree of the file that
they leave. -/
def cutShort : List Fs.Modified.Action :=
  [.write ⟨true, true, some 1, true⟩ [7, 7, 7, 7] 1, .write ⟨true, true, some 1, true⟩ [8] 6]

def cutShortTree : Intervals := ⟨[(1, 2), (5, 7)], by decide⟩

theorem cutShort_copied : ¬ Right cutShortTree 1 7 ∧
    ∃ of, Fs.Modified.performAll (.init 1) cutShort = some of ∧ of.writeintervals = cutShortTree ∧ of.datafile.length = 7 ∧
      (uploadModify 7 cutShortTree (List.replicate 4 ⟨false, true, true, false⟩) (List.replicate 4 true)).1 =
        [⟨.remote, 0, 1⟩, ⟨.datafile, 1, 1⟩, ⟨.remote, 2, 3⟩, ⟨.datafile, 5, 2⟩] := by
  refine ⟨?_, _, rfl, rfl, rfl, by decide⟩
  intro right
  have bound := (right.1 (List.replicate 4 ⟨false, true, true, false⟩) []).2.2 ⟨.remote, 2, 3⟩ (by decide) rfl
  exact absurd bound (by decide)

section Content
open Modified Fs.Modified
variable {base : File} {of next : OpenFile} {flat : Flat}

/-- What the server puts together. -/
def content (base datafile : File) (issued : List Req) : File :=
  issued.flatMap fun req => match req.source with
    | .remote => base.pread req.offset req.length
    | .datafile => datafile.pread req.offset req.length

theorem req_content (refines : Refines base of flat) {req : Req} (right : Req.Right of.writeintervals req)
    (inside : req.offset + req.length ≤ of.currentsize) :
    (match req.source with
      | .remote => base.pread req.offset req.length
      | .datafile => of.datafile.pread req.offset req.length) = flat.bytes.pread req.offset req.length := by
  rw [Req.Right] at right
  cases source : req.source with
  | remote =>
    rw [source] at right
    simp only at right ⊢
    have grown := refines.grown
    have longest := refines.longest
    have within : req.offset + req.length ≤ base.length ∨ req.length = 0 := by
      by_contra beyond
      exact right.1 (req.offset + req.length - 1) (by omega) (by omega)
        (refines.covered _ (by rw [← refines.start]; omega) (by omega))
    apply File.ext
    · rw [File.length_pread, File.length_pread, ← refines.size]
      omega
    · intro index
      by_cases below : index < req.length
      · rw [File.byteAt_pread below, File.byteAt_pread below, refines.bytes _ (by omega), if_neg (right.1 _ (by omega) (by omega))]
      · rw [File.byteAt_past (by rw [File.length_pread]; omega), File.byteAt_past (by rw [File.length_pread]; omega)]
  | datafile =>
    rw [source] at right
    exact readLocal_refines refines right

theorem content_flat (refines : Refines base of flat) {issued : List Req}
    (assembles : Assembles of.writeintervals lo of.currentsize issued) : content base of.datafile issued = flat.bytes.drop lo := by
  induction issued generalizing lo with
  | nil =>
    have whole : lo = of.currentsize := assembles
    rw [whole, refines.size, List.drop_length]
    rfl
  | cons req rest ih =>
    obtain ⟨start, _, right, later⟩ := assembles
    have inside := later.ordered
    have others := ih later
    rw [content] at others ⊢
    rw [List.flatMap_cons, others, req_content refines right (by omega), start, File.pread, ← List.drop_drop, List.take_append_drop]

/-- An upload that is saved has the bytes of the array that the file stands for. -/
theorem run_uploaded (run : Run base of flat) {turns : List Turn} {replies : List Bool} {tree : Intervals}
    (load : loadIntervalTree of.indexfile = some tree) (saved : (uploadModify of.datafile.length tree turns replies).2 = true) :
    content base of.datafile (uploadModify of.datafile.length tree turns replies).1 = flat.bytes ∧
      Within base.length (uploadModify of.datafile.length tree turns replies).1 := by
  have refines := run_refines run
  obtain rfl : of.writeintervals = tree := Option.some.inj (refines.index.symm.trans load)
  have assembles := uploadModify_assembles saved
  have right : Upload.Right of.writeintervals base.length of.datafile.length := by
    apply uploadModify_right.mpr
    intro x past inside
    have longest := refines.longest
    rw [refines.data] at inside
    exact refines.covered x (refines.start ▸ past) (by omega)
  refine ⟨?_, (right.1 turns replies).2.2⟩
  rw [refines.data] at assembles ⊢
  exact content_flat refines assembles

end Content

end Pclsync.Proofs.Upload
