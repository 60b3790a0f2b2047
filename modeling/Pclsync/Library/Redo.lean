import Pclsync.Library.File

/-! Redo: a list of operations on files that is applied again after it was cut off
anywhere. What a first attempt leaves behind differs from the old file only where
the list is going to write, so the second one ends in the same files. -/

namespace Pclsync.Library

/-- One operation on a file. -/
inductive FileOp where
  | resize (len : ℕ)
  | write (offset : ℕ) (bytes : List UInt8)
deriving DecidableEq, Repr

namespace FileOp

def apply : FileOp → File → File
  | .resize len, file => file.resize len
  | .write offset bytes, file => file.pwrite offset bytes

def applyAll (ops : List FileOp) (file : File) : File := ops.foldl (fun file op => op.apply file) file

/-- Some write of the list goes over the place. -/
def Covers (ops : List FileOp) (index : ℕ) : Prop :=
  ∃ offset bytes, .write offset bytes ∈ ops ∧ offset ≤ index ∧ index < offset + bytes.length

/-- How far the writes of the list reach. -/
def extent : List FileOp → ℕ
  | [] => 0
  | .resize _ :: ops => extent ops
  | .write offset bytes :: ops => max (if bytes = [] then 0 else offset + bytes.length) (extent ops)

/-- `after` differs from `before` only where the list will write. -/
structure Within (ops : List FileOp) (before after : File) : Prop where
  bytes : ∀ index, ¬Covers ops index → after.byteAt index = before.byteAt index
  start : before.length ≤ after.length
  stop : after.length ≤ max before.length (extent ops)

/-- An operation that the list can have done, in part or whole, on a file of this length. -/
inductive Inside (ops : List FileOp) (len : ℕ) : FileOp → Prop where
  | resize : Inside ops len (.resize len)
  | write (offset : ℕ) (bytes part : List UInt8) (member : .write offset bytes ∈ ops) (front : part <+: bytes) :
      Inside ops len (.write offset part)

section
variable {ops more : List FileOp} {op : FileOp} {index len : ℕ} {before after file : File}

theorem applyAll_append : applyAll (ops ++ more) file = applyAll more (applyAll ops file) := List.foldl_append

theorem Covers.cons (covered : Covers ops index) : Covers (op :: ops) index := by
  obtain ⟨offset, bytes, member, inside⟩ := covered
  exact ⟨offset, bytes, List.mem_cons_of_mem _ member, inside⟩

theorem extent_le {offset : ℕ} {bytes : List UInt8} (member : .write offset bytes ∈ ops) (nonempty : bytes ≠ []) :
    offset + bytes.length ≤ extent ops := by
  induction ops with
  | nil => cases member
  | cons first ops ih =>
    cases List.mem_cons.mp member with
    | inl same =>
      subst same
      rw [extent, if_neg nonempty]
      exact le_max_left _ _
    | inr later =>
      cases first with
      | resize _ => exact ih later
      | write _ _ => exact le_trans (ih later) (le_max_right _ _)

/-- Whatever lies within a list is overwritten by it. -/
theorem Within.applyAll_eq (within : Within ops before after) : applyAll ops after = applyAll ops before := by
  induction ops generalizing before after with
  | nil =>
    obtain ⟨bytes, start, stop⟩ := within
    apply File.ext
    · rw [extent] at stop
      change after.length = before.length
      omega
    · intro index
      apply bytes
      rintro ⟨_, _, member, _⟩
      cases member
  | cons op ops ih =>
    obtain ⟨bytes, start, stop⟩ := within
    apply ih
    cases op with
    | resize len =>
      refine ⟨?_, by simp [apply], by simp [apply]⟩
      intro index uncovered
      simp only [apply, File.byteAt_resize]
      split
      · apply bytes
        rintro ⟨offset, piece, member, inside⟩
        cases List.mem_cons.mp member with
        | inl same => cases same
        | inr later => exact uncovered ⟨offset, piece, later, inside⟩
      · rfl
    | write offset piece =>
      simp only [extent] at stop
      refine ⟨?_, ?_, ?_⟩
      · intro index uncovered
        simp only [apply, File.byteAt_pwrite]
        split
        · rfl
        · next outside =>
          apply bytes
          rintro ⟨_, _, member, inside⟩
          cases List.mem_cons.mp member with
          | inl same =>
            cases same
            exact outside inside
          | inr later => exact uncovered ⟨_, _, later, inside⟩
      · simp only [apply, File.length_pwrite]
        split <;> omega
      · simp only [apply, File.length_pwrite]
        split at stop <;> simp only [*, if_true, if_false] <;> omega

theorem Within.refl (file : File) : Within ops file file := ⟨fun _ _ => rfl, le_rfl, le_max_left _ _⟩

/-- Doing part of the list stays within it. -/
theorem Within.apply (within : Within ops before after) (inside : op.Inside ops before.length) :
    Within ops before (op.apply after) := by
  obtain ⟨bytes, start, stop⟩ := within
  cases inside with
  | resize =>
    refine ⟨?_, by simp [FileOp.apply], by simp [FileOp.apply]⟩
    intro index uncovered
    simp only [FileOp.apply, File.byteAt_resize]
    split
    · exact bytes index uncovered
    · next past => rw [File.byteAt_past (Nat.not_lt.mp past)]
  | write offset whole part member front =>
    have shorter := front.length_le
    refine ⟨?_, ?_, ?_⟩
    · intro index uncovered
      simp only [FileOp.apply, File.byteAt_pwrite]
      split
      · next covered => exact absurd ⟨offset, whole, member, covered.1, by omega⟩ uncovered
      · exact bytes index uncovered
    · simp only [FileOp.apply, File.length_pwrite]
      split <;> omega
    · simp only [FileOp.apply, File.length_pwrite]
      split
      · exact stop
      · next nonempty =>
        have reached := extent_le member (by
          intro empty
          rw [empty] at front
          exact nonempty (List.prefix_nil.mp front))
        omega

theorem Within.applyAll (within : Within ops before after) (inside : ∀ op ∈ more, op.Inside ops before.length) :
    Within ops before (applyAll more after) := by
  induction more generalizing after with
  | nil => exact within
  | cons op more ih =>
    apply ih
    · exact within.apply (inside op List.mem_cons_self)
    · intro other later
      exact inside other (List.mem_cons_of_mem _ later)

end

/-- The list sets the length of a file before it writes to it, and sets no other
length later. -/
def Settles (ops : List FileOp) : Prop :=
  ops = [] ∨ ∃ len rest, ops = .resize len :: rest ∧ ∀ other, .resize other ∈ rest → other = len

/-- What was done when a list was cut off: a front part of it, the last write
perhaps in part. -/
inductive CutOff (ops : List FileOp) : List FileOp → Prop where
  | between (done rest : List FileOp) (parts : ops = done ++ rest) : CutOff ops done
  | torn (done rest : List FileOp) (offset count : ℕ) (bytes : List UInt8)
      (parts : ops = done ++ .write offset bytes :: rest) :
      CutOff ops (done ++ [.write offset (bytes.take count)])

section
variable {ops done : List FileOp} {len : ℕ}

theorem inside_of_mem {rest : List FileOp} {op : FileOp} (same : ∀ other, .resize other ∈ rest → other = len)
    (member : op ∈ rest) : op.Inside rest len := by
  cases op with
  | resize other =>
    rw [same other member]
    exact .resize
  | write offset bytes => exact .write offset bytes bytes member (List.prefix_refl _)

theorem CutOff.inside {rest : List FileOp} (same : ∀ other, .resize other ∈ rest → other = len)
    (cut : CutOff (.resize len :: rest) done) :
    done = [] ∨ ∃ more, done = .resize len :: more ∧ ∀ op ∈ more, op.Inside rest len := by
  cases cut with
  | between _ left parts =>
    cases done with
    | nil => exact .inl rfl
    | cons op done =>
      obtain ⟨rfl, rfl⟩ := List.cons_eq_cons.mp parts
      refine .inr ⟨done, rfl, ?_⟩
      intro op member
      exact inside_of_mem same (List.mem_append_left _ member)
  | torn front left offset count bytes parts =>
    cases front with
    | nil => cases parts
    | cons op front =>
      obtain ⟨rfl, rfl⟩ := List.cons_eq_cons.mp parts
      refine .inr ⟨_, rfl, ?_⟩
      intro op member
      cases List.mem_append.mp member with
      | inl early => exact inside_of_mem same (List.mem_append_left _ early)
      | inr last =>
        cases List.mem_singleton.mp last
        exact .write offset bytes _ (by simp) (List.take_prefix _ _)

/-- A list that settles the length first can be cut off and done again. -/
theorem Settles.redo (settles : Settles ops) (cut : CutOff ops done) (file : File) :
    applyAll ops (applyAll done file) = applyAll ops file := by
  cases settles with
  | inl empty =>
    subst empty
    cases cut with
    | between _ rest parts =>
      obtain ⟨rfl, -⟩ := List.append_eq_nil_iff.mp parts.symm
      rfl
    | torn front rest offset count bytes parts => simp at parts
  | inr settled =>
    obtain ⟨len, rest, rfl, same⟩ := settled
    cases cut.inside same with
    | inl nothing =>
      subst nothing
      rfl
    | inr started =>
      obtain ⟨more, rfl, inside⟩ := started
      have length : (file.resize len).length = len := File.length_resize
      have reached : Within rest (file.resize len) (applyAll more (file.resize len)) :=
        (Within.refl _).applyAll (by rwa [length])
      have again : Inside rest (file.resize len).length (.resize len) := by
        rw [length]
        exact .resize
      exact (reached.apply again).applyAll_eq

end
end FileOp

/-- What was done of operations on several files when they were cut off. -/
inductive CutOff {τ : Type} (ops : List (τ × FileOp)) : List (τ × FileOp) → Prop where
  | between (done rest : List (τ × FileOp)) (parts : ops = done ++ rest) : CutOff ops done
  | torn (done rest : List (τ × FileOp)) (target : τ) (offset count : ℕ) (bytes : List UInt8)
      (parts : ops = done ++ (target, .write offset bytes) :: rest) :
      CutOff ops (done ++ [(target, .write offset (bytes.take count))])

section Targets
variable {τ : Type} [DecidableEq τ] {ops done : List (τ × FileOp)}

def applyOp (files : τ → File) (op : τ × FileOp) : τ → File :=
  Function.update files op.1 (op.2.apply (files op.1))

def applyAll (ops : List (τ × FileOp)) (files : τ → File) : τ → File := ops.foldl applyOp files

/-- The operations on one of the files. -/
def opsOf (target : τ) (ops : List (τ × FileOp)) : List FileOp := (ops.filter (·.1 = target)).map (·.2)

theorem opsOf_append (target : τ) (more : List (τ × FileOp)) :
    opsOf target (ops ++ more) = opsOf target ops ++ opsOf target more := by
  rw [opsOf, List.filter_append, List.map_append]
  rfl

theorem opsOf_own (target : τ) (op : FileOp) : opsOf target ((target, op) :: ops) = op :: opsOf target ops := by
  simp [opsOf]

theorem opsOf_other {target other : τ} (different : other ≠ target) (op : FileOp) :
    opsOf target ((other, op) :: ops) = opsOf target ops := by
  simp [opsOf, different]

theorem applyAll_apply (files : τ → File) (target : τ) :
    applyAll ops files target = FileOp.applyAll (opsOf target ops) (files target) := by
  induction ops generalizing files with
  | nil => rfl
  | cons op ops ih =>
    obtain ⟨owner, op⟩ := op
    have next : applyAll ((owner, op) :: ops) files target =
      FileOp.applyAll (opsOf target ops) (applyOp files (owner, op) target) := ih _
    rw [next]
    by_cases own : owner = target
    · subst own
      rw [opsOf_own, applyOp, Function.update_self]
      rfl
    · rw [opsOf_other own, applyOp, Function.update_of_ne (Ne.symm own)]

theorem CutOff.opsOf (cut : CutOff ops done) (target : τ) : FileOp.CutOff (opsOf target ops) (opsOf target done) := by
  cases cut with
  | between _ rest parts =>
    apply FileOp.CutOff.between _ (Library.opsOf target rest)
    rw [parts, opsOf_append]
  | torn front rest owner offset count bytes parts =>
    rw [parts, opsOf_append, opsOf_append]
    by_cases own : owner = target
    · subst own
      rw [opsOf_own, opsOf_own]
      exact .torn _ _ offset count bytes rfl
    · rw [opsOf_other own, opsOf_other own]
      exact .between _ (Library.opsOf target rest) (by simp [Library.opsOf])

/-- A list of operations that settles the length of every file it writes to. -/
def Redo (ops : List (τ × FileOp)) : Prop := ∀ target, FileOp.Settles (opsOf target ops)

theorem Redo.replay (redo : Redo ops) (cut : CutOff ops done) (files : τ → File) :
    applyAll ops (applyAll done files) = applyAll ops files := by
  funext target
  rw [applyAll_apply, applyAll_apply, applyAll_apply]
  exact (redo target).redo (cut.opsOf target) (files target)

/-- The files after any number of attempts that were all cut off. -/
inductive Attempted (ops : List (τ × FileOp)) (files : τ → File) : (τ → File) → Prop where
  | start : Attempted ops files files
  | again (left : τ → File) (done : List (τ × FileOp)) (before : Attempted ops files left) (cut : CutOff ops done) :
      Attempted ops files (applyAll done left)

theorem Redo.attempted {files left : τ → File} (redo : Redo ops) (attempted : Attempted ops files left) :
    applyAll ops left = applyAll ops files := by
  induction attempted with
  | start => rfl
  | again left done before cut ih => rw [redo.replay cut, ih]

end Targets
end Pclsync.Library
