import Mathlib

/-! Patterns for names. The name is a C string: a pointer into it is the list of
bytes before its terminator. -/

namespace Pclsync.Paths.Pattern

abbrev Bytes := List UInt8

/-- `'*'` -/
abbrev starByte : UInt8 := 42

/-- `'?'` -/
abbrev questionByte : UInt8 := 63

/-- `strchr`, where the terminator counts as a byte of the string. -/
def strchr (name : Bytes) (byte : UInt8) : Option Bytes :=
  if byte = 0 then some []
  else
    match name with
    | [] => none
    | first :: rest => if first = byte then some (first :: rest) else strchr rest byte

theorem strchr_length {name found : Bytes} {byte : UInt8} (same : strchr name byte = some found) :
    found.length ≤ name.length := by
  induction name with
  | nil =>
    rw [strchr] at same
    split at same
    · cases same
      exact le_rfl
    · cases same
  | cons first rest ih =>
    rw [strchr] at same
    split at same
    · cases same
      exact Nat.zero_le _
    · split at same
      · cases same
        exact le_rfl
      · exact (ih same).trans (Nat.le_succ _)

/-- The last loop of `psync_match_pattern`: the rest of the pattern is tried behind
each occurrence of a byte. `none` is a step past the terminator. -/
def tryAll (matchRest : Bytes → Option Bool) (byte : UInt8) (name : Option Bytes) : Option Bool :=
  match name with
  | none => some false
  | some [] => none
  | some (_ :: rest) =>
    match matchRest rest with
    | none => none
    | some true => some true
    | some false => tryAll matchRest byte (strchr rest byte)
termination_by name.elim 0 fun name => name.length + 1
decreasing_by
  cases found : strchr rest byte with
  | none => simp
  | some next =>
    have shorter := strchr_length found
    simp only [Option.elim, List.length_cons]
    omega

mutual

/-- `psync_match_pattern`, with the outer loop; both pointers move on together. -/
def matchPattern : Bytes → Bytes → Option Bool
  | name, [] => some name.isEmpty
  | name, byte :: pattern =>
    if byte = starByte then matchStar name pattern
    else
      match name with
      | [] => some false
      | first :: rest => if byte ≠ first ∧ byte ≠ questionByte then some false else matchPattern rest pattern

/-- The inner loop, behind a star. -/
def matchStar : Bytes → Bytes → Option Bool
  | _, [] => some true
  | name, byte :: pattern =>
    if byte = questionByte then
      match name with
      | [] => some false
      | _ :: rest => matchStar rest pattern
    else if byte = starByte then matchStar name pattern
    else tryAll (fun rest => matchPattern rest pattern) byte (strchr name byte)

end

end Pclsync.Paths.Pattern
