import Pclsync.Library.Census

/-! Reference counts. Each client holds one object at most, and the count of an object is the
number of the clients that hold it. -/

namespace Pclsync.Library

variable {T E : Type} [Fintype T] [DecidableEq E]

/-- Each count is the number of holders. -/
def Counted (count : E → ℕ) (held : T → Option E) : Prop := ∀ e, count e = Census.tally Finset.univ held (some e)

namespace Counted
variable {count after : E → ℕ} {held : T → Option E} {t : T} {e : E}

theorem pos (counted : Counted count held) (own : held t = some e) : 0 < count e := by
  rw [counted e]
  exact Census.tally_pos (Finset.mem_univ t) own

theorem none_of_zero (counted : Counted count held) (zero : count e = 0) (t : T) : held t ≠ some e := by
  rw [counted e] at zero
  exact Census.ne_of_tally zero (Finset.mem_univ t)

/-- Nothing changes for the holders. -/
theorem congr (counted : Counted count held) (same : ∀ e, after e = count e) : Counted after held :=
  fun e => (same e).trans (counted e)

variable [DecidableEq T]

theorem acquire (counted : Counted count held) (free : held t = none) (more : after e = count e + 1)
    (others : ∀ other, other ≠ e → after other = count other) : Counted after (Function.update held t (some e)) := by
  intro object
  rw [Census.tally_update (Finset.mem_univ t)]
  have before := counted object
  rw [Census.tally_erase (Finset.mem_univ t), free, if_neg (Option.some_ne_none object).symm, Nat.add_zero] at before
  by_cases same : object = e
  · rw [same] at before ⊢
    rw [if_pos rfl, more, before]
  · rw [others object same, before, if_neg fun equal => same (Option.some.inj equal).symm, Nat.add_zero]

theorem release (counted : Counted count held) (own : held t = some e) (less : after e = count e - 1)
    (others : ∀ other, other ≠ e → after other = count other) : Counted after (Function.update held t none) := by
  intro object
  rw [Census.tally_update (Finset.mem_univ t), if_neg (Option.some_ne_none object).symm, Nat.add_zero]
  have before := counted object
  rw [Census.tally_erase (Finset.mem_univ t), own] at before
  by_cases same : object = e
  · rw [same] at before ⊢
    rw [if_pos rfl] at before
    rw [less, before, Nat.add_sub_cancel]
  · rw [if_neg fun equal => same (Option.some.inj equal).symm, Nat.add_zero] at before
    rw [others object same, before]

end Counted
end Pclsync.Library
