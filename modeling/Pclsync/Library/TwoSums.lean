import Mathlib

/-! Checksums of two sums: one of the numbers, one of the first sum as it was after each of them. -/

namespace Pclsync.Library.TwoSums

variable {R : Type} [CommRing R]

def add (sums : R × R) (x : R) : R × R := (sums.1 + x, sums.2 + (sums.1 + x))

def run (sums : R × R) (list : List R) : R × R := list.foldl add sums

variable {sums : R × R} {list rest : List R} {x y : R}

theorem run_append : run sums (list ++ rest) = run (run sums list) rest := List.foldl_append

/-- What the sums start with stays in the first and is counted in the second once for each number. -/
theorem run_add (first second : R) :
    run (sums.1 + first, sums.2 + second) list = ((run sums list).1 + first, (run sums list).2 + list.length * first + second) := by
  induction list generalizing sums second with
  | nil => simp [run]
  | cons x rest ih =>
    have step : add (sums.1 + first, sums.2 + second) x = ((add sums x).1 + first, (add sums x).2 + (second + first)) := by
      simp only [add, Prod.mk.injEq]
      constructor <;> ring
    change run (add (sums.1 + first, sums.2 + second) x) rest = _
    rw [step, ih]
    change _ = ((run (add sums x) rest).1 + first, (run (add sums x) rest).2 + ((rest.length + 1 : ℕ) : R) * first + second)
    push_cast
    simp only [Prod.mk.injEq, true_and]
    ring

/-- The first number leaves and another one comes in at the end. -/
theorem run_roll : run sums (rest ++ [y]) =
    ((run sums (x :: rest)).1 + y - x,
      (run sums (x :: rest)).2 - (rest.length + 1 : ℕ) * x - sums.1 + ((run sums (x :: rest)).1 + y - x)) := by
  have start : run sums (x :: rest) = run (sums.1 + x, sums.2 + (sums.1 + x)) rest := rfl
  have last : run (run sums rest) [y] = ((run sums rest).1 + y, (run sums rest).2 + ((run sums rest).1 + y)) := rfl
  rw [start, run_add, run_append, last]
  simp only [Prod.mk.injEq]
  push_cast
  constructor <;> ring

end Pclsync.Library.TwoSums
