import Pclsync.Library.Census

/-! A shared object with a reference count that a mutex guards. A thread that is done with it
takes its reference away with the mutex, and the last one destroys the object behind it. -/

namespace Pclsync.Library.LastOut

/-- What a thread still does with the object: it uses it; it found that it is the last one; it
took its reference away, with the mutex, and read that none is left or some are; it destroys. -/
inductive Phase where
  | sharing
  | last
  | leaving (zero : Bool)
  | destroying
  | gone
deriving DecidableEq, Repr

/-- The threads that have a reference. -/
def refs : Phase → ℕ
  | .sharing => 1
  | .last => 1
  | .leaving _ => 0
  | .destroying => 0
  | .gone => 0

/-- The threads that will destroy, with their own reference taken away. -/
def ends : Phase → ℕ
  | .sharing => 0
  | .last => 0
  | .leaving false => 0
  | .leaving true => 1
  | .destroying => 1
  | .gone => 0

/-- The threads with the mutex. -/
def holds : Phase → ℕ
  | .sharing => 0
  | .last => 0
  | .leaving _ => 1
  | .destroying => 0
  | .gone => 0

structure Shared (T : Type) where
  phase : T → Phase
  locked : Bool
  refcnt : ℕ
  frees : ℕ

/-- What the phases of the threads weigh together. -/
def total {T : Type} [Fintype T] (weight : Phase → ℕ) (object : Shared T) : ℕ := ∑ t, weight (object.phase t)

variable {T : Type} [Fintype T] {object next : Shared T} {t : T} {zero : Bool} {new : Phase}

structure Inv (object : Shared T) : Prop where
  counted : object.frees = 0 → object.refcnt = total refs object
  ended : object.frees = 0 → total ends object = if object.refcnt = 0 then 1 else 0
  held : total holds object = if object.locked then 1 else 0
  zero : ∀ t zero, object.phase t = .leaving zero → (zero = true ↔ object.refcnt = 0)
  alone : ∀ t, object.phase t = .last → ∀ other, other ≠ t → object.phase other = .gone
  freed : object.frees ≠ 0 → object.frees = 1 ∧ ∀ t, object.phase t = .gone

/-- A thread that is not gone sees the object. -/
theorem Inv.present (inv : Inv object) (there : object.phase t ≠ .gone) : object.frees = 0 := by
  by_contra freed
  exact there ((inv.freed freed).2 t)

variable [DecidableEq T]

theorem sum_moves (phase : next.phase = Function.update object.phase t new) (weight : Phase → ℕ) :
    total weight next + weight (object.phase t) = total weight object + weight new := by
  rw [total, phase]
  exact Census.sum_update (Finset.mem_univ t) weight object.phase new

omit [DecidableEq T] in
theorem weight_le (weight : Phase → ℕ) (object : Shared T) (t : T) : weight (object.phase t) ≤ total weight object :=
  Finset.single_le_sum (f := fun other => weight (object.phase other)) (fun _ _ => Nat.zero_le _) (Finset.mem_univ t)

/-- Two threads. -/
theorem two_weights (weight : Phase → ℕ) (object : Shared T) {other : T} (distinct : t ≠ other) :
    weight (object.phase t) + weight (object.phase other) ≤ total weight object := by
  rw [total, ← Finset.sum_pair (f := fun thread => weight (object.phase thread)) distinct]
  exact Finset.sum_le_sum_of_subset (Finset.subset_univ _)

omit [DecidableEq T] in
/-- Nobody has the mutex. -/
theorem Inv.unheld (inv : Inv object) (unlocked : object.locked = false) (t : T) (zero : Bool) : object.phase t ≠ .leaving zero := by
  intro leaving
  have held := inv.held
  have one := weight_le holds object t
  rw [held, unlocked, leaving] at one
  simp [holds] at one

omit [DecidableEq T] in
/-- No reference is left behind, unless one thread destroys. -/
theorem Inv.undestroyed (inv : Inv object) (there : object.frees = 0) (some : object.refcnt ≠ 0) (t : T) : ends (object.phase t) = 0 := by
  have ended := inv.ended there
  rw [if_neg some] at ended
  have one := weight_le ends object t
  omega

/-- A thread that destroys is alone. -/
theorem Inv.destroyer (inv : Inv object) (own : object.phase t = .destroying ∨ object.phase t = .last) :
    (∀ other, other ≠ t → object.phase other = .gone) ∧ object.locked = false := by
  have others : ∀ other, other ≠ t → object.phase other = .gone := by
    rcases own with own | own
    · have there : object.frees = 0 := inv.present (t := t) (by rw [own]; exact Phase.noConfusion)
      have one := weight_le ends object t
      have ended := inv.ended there
      have none : object.refcnt = 0 := by
        by_contra some
        rw [if_neg some] at ended
        rw [ended, own] at one
        exact absurd one (by decide)
      rw [if_pos none] at ended
      have counted := inv.counted there
      intro other distinct
      have both := two_weights ends object (Ne.symm distinct)
      have one := weight_le refs object other
      rw [own] at both
      cases phase : object.phase other with
      | sharing =>
        rw [phase] at one
        simp only [refs] at one
        omega
      | last =>
        rw [phase] at one
        simp only [refs] at one
        omega
      | leaving zero =>
        have last := (inv.zero other zero phase).mpr none
        subst last
        rw [phase] at both
        simp only [ends] at both
        omega
      | destroying =>
        rw [phase] at both
        simp only [ends] at both
        omega
      | gone => rfl
    · exact inv.alone t own
  refine ⟨others, ?_⟩
  by_contra locked
  have held := inv.held
  rw [if_pos (by simpa using locked)] at held
  have none : total holds object = 0 := by
    apply Finset.sum_eq_zero
    intro other _
    by_cases same : other = t
    · rw [same]
      rcases own with own | own
      · rw [own]
        rfl
      · rw [own]
        rfl
    · rw [others other same]
      rfl
  omega

omit [DecidableEq T] in
/-- Every thread has a reference. -/
theorem init_inv (some : 0 < Fintype.card T) : Inv (⟨fun _ : T => .sharing, false, Fintype.card T, 0⟩) where
  counted _ := by simp [total, refs]
  ended _ := by simp [total, ends, some.ne']
  held := by simp [total, holds]
  zero _ _ own := Phase.noConfusion own
  alone _ own := Phase.noConfusion own
  freed freed := absurd rfl freed

/-- A thread takes its reference away. -/
theorem Inv.leave (inv : Inv object) (own : object.phase t = .sharing) (unlocked : object.locked = false)
    (phase : next.phase = Function.update object.phase t (.leaving (object.refcnt - 1 = 0))) (locked : next.locked = true)
    (refcnt : next.refcnt = object.refcnt - 1) (frees : next.frees = object.frees) : Inv next := by
  have there : object.frees = 0 := inv.present (t := t) (by rw [own]; exact Phase.noConfusion)
  have counted := inv.counted there
  have some : object.refcnt ≠ 0 := by
    have one := weight_le refs object t
    rw [own, ← counted] at one
    exact Nat.one_le_iff_ne_zero.mp one
  have ended := inv.ended there
  rw [if_neg some] at ended
  have held := inv.held
  rw [unlocked] at held
  have refsMove := sum_moves phase refs
  have endsMove := sum_moves phase ends
  have holdsMove := sum_moves phase holds
  rw [own] at refsMove endsMove holdsMove
  refine ⟨fun _ => ?_, fun _ => ?_, ?_, ?_, ?_, ?_⟩
  · simp only [refs] at refsMove counted
    omega
  · rw [refcnt]
    by_cases zero : object.refcnt - 1 = 0
    · simp only [zero, decide_true, ends] at endsMove ended
      rw [if_pos zero]
      omega
    · simp only [zero, decide_false, ends] at endsMove ended
      rw [if_neg zero]
      omega
  · simp only [holds] at holdsMove held
    rw [locked, if_pos rfl]
    simp only [Bool.false_eq_true, if_false] at held
    omega
  · intro other zero leaving
    rw [phase] at leaving
    by_cases same : other = t
    · subst same
      rw [Function.update_self] at leaving
      cases leaving
      rw [refcnt]
      exact decide_eq_true_iff
    · rw [Function.update_of_ne same] at leaving
      exact absurd leaving (inv.unheld unlocked other zero)
  · intro other last
    rw [phase] at last
    by_cases same : other = t
    · subst same
      rw [Function.update_self] at last
      cases last
    · rw [Function.update_of_ne same] at last
      have gone := inv.alone other last t (Ne.symm same)
      rw [own] at gone
      cases gone
  · rw [frees, there]
    exact fun freed => absurd rfl freed

/-- A thread gives the mutex back. -/
theorem Inv.unlock (inv : Inv object) (own : object.phase t = .leaving zero)
    (phase : next.phase = Function.update object.phase t (if zero then .destroying else .gone)) (locked : next.locked = false)
    (refcnt : next.refcnt = object.refcnt) (frees : next.frees = object.frees) : Inv next := by
  have there : object.frees = 0 := inv.present (t := t) (by rw [own]; exact Phase.noConfusion)
  have counted := inv.counted there
  have ended := inv.ended there
  have held := inv.held
  have isLocked : object.locked = true := by
    by_contra unlocked
    exact inv.unheld (by simpa using unlocked) t zero own
  rw [if_pos isLocked] at held
  have refsMove := sum_moves phase refs
  have endsMove := sum_moves phase ends
  have holdsMove := sum_moves phase holds
  rw [own] at refsMove endsMove holdsMove
  refine ⟨fun _ => ?_, fun _ => ?_, ?_, ?_, ?_, ?_⟩
  · rw [refcnt]
    cases zero
    · simp only [refs, Bool.false_eq_true, if_false] at refsMove
      omega
    · simp only [refs, if_true] at refsMove
      omega
  · rw [refcnt, ← ended]
    cases zero
    · simp only [ends, Bool.false_eq_true, if_false] at endsMove
      omega
    · simp only [ends, if_true] at endsMove
      omega
  · rw [locked]
    simp only [Bool.false_eq_true, if_false]
    cases zero
    · simp only [holds, Bool.false_eq_true, if_false] at holdsMove
      omega
    · simp only [holds, if_true] at holdsMove
      omega
  · intro other zero' leaving
    rw [phase] at leaving
    by_cases same : other = t
    · subst same
      rw [Function.update_self] at leaving
      cases zero <;> cases leaving
    · rw [Function.update_of_ne same] at leaving
      rw [refcnt]
      exact inv.zero other zero' leaving
  · intro other last
    rw [phase] at last
    by_cases same : other = t
    · subst same
      rw [Function.update_self] at last
      cases zero <;> cases last
    · rw [Function.update_of_ne same] at last
      have gone := inv.alone other last t (Ne.symm same)
      rw [own] at gone
      cases gone
  · rw [frees, there]
    exact fun freed => absurd rfl freed

/-- A thread finds that its reference is the only one. -/
theorem Inv.check (inv : Inv object) (own : object.phase t = .sharing) (unlocked : object.locked = false) (one : object.refcnt = 1)
    (phase : next.phase = Function.update object.phase t .last) (locked : next.locked = object.locked)
    (refcnt : next.refcnt = object.refcnt) (frees : next.frees = object.frees) : Inv next := by
  have there : object.frees = 0 := inv.present (t := t) (by rw [own]; exact Phase.noConfusion)
  have others : ∀ other, other ≠ t → object.phase other = .gone := by
    intro other distinct
    have counted := inv.counted there
    have quiet := inv.undestroyed there (by omega) other
    have free := inv.unheld unlocked other
    have both := two_weights refs object (Ne.symm distinct)
    rw [← counted, one, own] at both
    cases place : object.phase other with
    | sharing => simp [place, refs] at both
    | last => simp [place, refs] at both
    | leaving zero => exact absurd place (free zero)
    | destroying => simp [place, ends] at quiet
    | gone => rfl
  have refsMove := sum_moves phase refs
  have endsMove := sum_moves phase ends
  have holdsMove := sum_moves phase holds
  rw [own] at refsMove endsMove holdsMove
  have elsewhere : ∀ other, other ≠ t → next.phase other = .gone := by
    intro other distinct
    rw [phase, Function.update_of_ne distinct]
    exact others other distinct
  have here : next.phase t = .last := by rw [phase, Function.update_self]
  refine ⟨fun _ => ?_, fun _ => ?_, ?_, ?_, ?_, ?_⟩
  · have counted := inv.counted there
    simp only [refs] at refsMove
    omega
  · rw [refcnt, ← inv.ended there]
    simp only [ends] at endsMove
    omega
  · rw [locked, ← inv.held]
    simp only [holds] at holdsMove
    omega
  · intro other zero leaving
    by_cases same : other = t
    · rw [same, here] at leaving
      cases leaving
    · rw [elsewhere other same] at leaving
      cases leaving
  · intro other last
    by_cases same : other = t
    · rw [same]
      exact elsewhere
    · rw [elsewhere other same] at last
      cases last
  · rw [frees, there]
    exact fun freed => absurd rfl freed

/-- The last thread destroys. -/
theorem Inv.destroy (inv : Inv object) (own : object.phase t = .destroying ∨ object.phase t = .last)
    (phase : next.phase = Function.update object.phase t .gone) (locked : next.locked = object.locked)
    (frees : next.frees = object.frees + 1) : Inv next ∧ object.frees = 0 ∧ object.locked = false := by
  obtain ⟨others, unlocked⟩ := inv.destroyer own
  have there : object.frees = 0 := inv.present (t := t) (by
    rcases own with own | own
    · rw [own]
      exact Phase.noConfusion
    · rw [own]
      exact Phase.noConfusion)
  have gone : ∀ other, next.phase other = .gone := by
    intro other
    rw [phase]
    by_cases same : other = t
    · rw [same, Function.update_self]
    · rw [Function.update_of_ne same]
      exact others other same
  have freed : next.frees = 1 := by omega
  refine ⟨⟨?_, ?_, ?_, ?_, ?_, fun _ => ⟨freed, gone⟩⟩, there, unlocked⟩
  · intro zero
    omega
  · intro zero
    omega
  · rw [locked, unlocked]
    apply Finset.sum_eq_zero
    intro other _
    rw [gone other]
    rfl
  · intro other zero leaving
    rw [gone other] at leaving
    cases leaving
  · intro other last
    rw [gone other] at last
    cases last

omit [DecidableEq T] in
/-- When every thread is gone the object is. -/
theorem Inv.over [Nonempty T] (inv : Inv object) (gone : ∀ t, object.phase t = .gone) : object.frees = 1 := by
  by_cases there : object.frees = 0
  · have none (weight : Phase → ℕ) (zero : weight .gone = 0) : total weight object = 0 := by
      apply Finset.sum_eq_zero
      intro t _
      rw [gone t, zero]
    have counted := inv.counted there
    have ended := inv.ended there
    rw [none refs rfl] at counted
    rw [none ends rfl, if_pos counted] at ended
    cases ended
  · exact (inv.freed there).1

end Pclsync.Library.LastOut
