import Pclsync.Api.Prepare

/-! A request is read back from its bytes. Each part tells its own length before
its contents, so that a reader that takes the parts in order finds them all. -/

namespace Pclsync.Proofs.Prepare
open Pclsync.Api.Prepare Library

/-- A parameter as the macros for parameters build it, with a short name. -/
structure Admitted (param : Binparam) : Prop where
  short : param.paramname.length < 64
  str : ∀ str, param.value = .str str → str.length < 2 ^ 32
  num : ∀ num, param.value = .num num → num < 2 ^ 64
  bool : ∀ num, param.value = .bool num → num ≤ 1

section Reader

/-- The first `count` bytes and the rest. -/
def split (count : ℕ) (bytes : List UInt8) : Option (List UInt8 × List UInt8) :=
  if count ≤ bytes.length then some (bytes.take count, bytes.drop count) else none

def readNumber (width : ℕ) (bytes : List UInt8) : Option (ℕ × List UInt8) := do
  let (number, rest) ← split width bytes
  return (leNumber number, rest)

/-- A value of a type. -/
def readValue (paramtype : ℕ) (bytes : List UInt8) : Option (Value × List UInt8) :=
  match paramtype with
  | 0 => do
    let (length, rest) ← readNumber 4 bytes
    let (str, rest) ← split length rest
    return (.str str, rest)
  | 1 => do
    let (num, rest) ← readNumber 8 bytes
    return (.num num, rest)
  | 2 => do
    let (num, rest) ← readNumber 1 bytes
    return (.bool num, rest)
  | _ => none

def readParam (bytes : List UInt8) : Option (Binparam × List UInt8) := do
  let (head, rest) ← readNumber 1 bytes
  let (paramname, rest) ← split (head % 64) rest
  let (value, rest) ← readValue (head / 64) rest
  return (⟨paramname, value⟩, rest)

def readParams : ℕ → List UInt8 → Option (List Binparam × List UInt8)
  | 0, bytes => some ([], bytes)
  | count + 1, bytes => do
    let (param, rest) ← readParam bytes
    let (params, rest) ← readParams count rest
    return (param :: params, rest)

/-- The command and the length of the data, `-1` where there are none. -/
def readCommand (bytes : List UInt8) : Option ((List UInt8 × ℤ) × List UInt8) := do
  let (head, rest) ← readNumber 1 bytes
  if head < 128 then
    let (command, rest) ← split head rest
    return ((command, -1), rest)
  else
    let (datalen, rest) ← readNumber 8 rest
    let (command, rest) ← split (head - 128) rest
    return ((command, (datalen : ℤ).bmod (2 ^ 64)), rest)

/-- A request that takes up all bytes. -/
def readRequest (bytes : List UInt8) : Option (List UInt8 × List Binparam × ℤ) := do
  let (plen, rest) ← readNumber 2 bytes
  let ((command, datalen), params) ← readCommand rest
  let (count, params) ← readNumber 1 params
  let (params, after) ← readParams count params
  if rest.length = plen ∧ after = [] then return (command, params, datalen) else none

end Reader

variable {command bytes rest : List UInt8} {param : Binparam} {params : List Binparam} {value : Value}
variable {datalen : ℤ} {width number plen : ℕ}

section Reading

theorem split_append : split bytes.length (bytes ++ rest) = some (bytes, rest) := by
  rw [split, if_pos (by simp), List.take_left, List.drop_left]

theorem readNumber_append (small : number < 256 ^ width) :
    readNumber width (leBytes width number ++ rest) = some (number, rest) := by
  have parts : split width (leBytes width number ++ rest) = some (leBytes width number, rest) := by
    have := @split_append (leBytes width number) rest
    rwa [length_leBytes] at this
  rw [readNumber, parts]
  simp only [bind, Option.bind, pure, leNumber_leBytes, Nat.mod_eq_of_lt small]

theorem readNumber_cons (small : number < 256) : readNumber 1 (UInt8.ofNat number :: rest) = some (number, rest) :=
  @readNumber_append rest 1 number small

theorem readValue_append (admitted : Admitted param) :
    readValue param.value.paramtype (writeValue param.value ++ rest) = some (param.value, rest) := by
  cases shape : param.value with
  | str str =>
    have small : str.length < 256 ^ 4 := admitted.str str shape
    simp only [Value.paramtype, writeValue, readValue, List.append_assoc, readNumber_append small, split_append, bind,
      Option.bind, pure]
  | num num =>
    have small : num < 256 ^ 8 := admitted.num num shape
    simp only [Value.paramtype, writeValue, readValue, readNumber_append small, bind, Option.bind, pure]
  | bool num =>
    have bit : num &&& 1 = num := by
      rw [Nat.and_one_is_mod]
      exact Nat.mod_eq_of_lt (Nat.lt_succ_of_le (admitted.bool num shape))
    have small : num < 256 := lt_of_le_of_lt (admitted.bool num shape) (by decide)
    simp only [Value.paramtype, writeValue, readValue, bit, List.singleton_append, readNumber_cons small, bind,
      Option.bind, pure]

theorem readParam_append (admitted : Admitted param) :
    readParam (writeParam param ++ rest) = some (param, rest) := by
  have short := admitted.short
  have type_small : param.value.paramtype < 3 := by cases param.value <;> simp [Value.paramtype]
  have head : (param.value.paramtype <<< 6) + param.paramname.length < 256 := by
    rw [Nat.shiftLeft_eq]
    omega
  have type_of : ((param.value.paramtype <<< 6) + param.paramname.length) / 64 = param.value.paramtype := by
    rw [Nat.shiftLeft_eq]
    omega
  have name_of : ((param.value.paramtype <<< 6) + param.paramname.length) % 64 = param.paramname.length := by
    rw [Nat.shiftLeft_eq]
    omega
  rw [writeParam, List.cons_append, List.append_assoc, readParam]
  simp only [readNumber_cons head, bind, Option.bind, name_of, type_of, split_append, readValue_append admitted, pure]

theorem readParams_append (admitted : ∀ param ∈ params, Admitted param) :
    readParams params.length (params.flatMap writeParam ++ rest) = some (params, rest) := by
  induction params with
  | nil => rfl
  | cons param params ih =>
    have first := admitted param List.mem_cons_self
    have others := ih fun other member => admitted other (List.mem_cons_of_mem _ member)
    rw [List.flatMap_cons, List.append_assoc, List.length_cons, readParams, readParam_append first]
    simp only [bind, Option.bind, others, pure]

theorem readCommand_append (short : command.length < 128) (word : -2 ^ 63 ≤ datalen ∧ datalen < 2 ^ 63) :
    readCommand (writeCommand command datalen ++ rest) = some ((command, datalen), rest) := by
  by_cases none_sent : datalen = -1
  · have small : command.length < 256 := by omega
    rw [writeCommand, if_neg (by simpa using none_sent), List.append_assoc, List.singleton_append, readCommand]
    simp only [readNumber_cons small, bind, Option.bind, short, if_true, split_append, pure, none_sent]
  · have flag : command.length ||| 128 = command.length + 128 := by
      have disjoint := Nat.shiftLeft_add_eq_or_of_lt (show command.length < 2 ^ 7 from short) 1
      rw [Nat.lor_comm, Nat.add_comm]
      exact disjoint.symm
    have small : command.length + 128 < 256 := by omega
    have large : ¬ command.length + 128 < 128 := by omega
    have length : (datalen % 2 ^ 64).toNat < 256 ^ 8 := by omega
    have signed : (((datalen % 2 ^ 64).toNat : ℕ) : ℤ).bmod (2 ^ 64) = datalen := by
      rw [Int.toNat_of_nonneg (by omega), Int.bmod_def]
      omega
    rw [writeCommand, if_pos none_sent, List.append_assoc, List.cons_append, readCommand, flag]
    simp only [readNumber_cons small, bind, Option.bind, large, if_false, datalenBytes, readNumber_append length,
      Nat.add_sub_cancel, split_append, pure, signed]

end Reading

section Sizing

theorem length_writeParam : (writeParam param).length = paramLen param := by
  obtain ⟨paramname, value⟩ := param
  cases value <;> simp only [writeParam, writeValue, paramLen, List.length_cons, List.length_append, length_leBytes,
    List.length_nil] <;> omega

theorem length_writeCommand :
    (writeCommand command datalen).length = command.length + 1 + if datalen ≠ -1 then 8 else 0 := by
  rw [writeCommand]
  split
  · rw [List.length_append, List.length_cons, datalenBytes, length_leBytes]
    omega
  · rw [List.length_append, List.length_singleton]
    omega

/-- What the second pass writes behind the length. -/
def written (command : List UInt8) (params : List Binparam) (datalen : ℤ) : List UInt8 :=
  writeCommand command datalen ++ [UInt8.ofNat params.length] ++ params.flatMap writeParam

theorem foldl_addLen (room : plen + (params.map paramLen).sum < 2 ^ 64) :
    params.foldl (fun plen param => addLen plen (paramLen param)) plen = plen + (params.map paramLen).sum := by
  induction params generalizing plen with
  | nil => rfl
  | cons param params ih =>
    rw [List.map_cons, List.sum_cons, ← Nat.add_assoc] at room ⊢
    have inside : plen + paramLen param < 2 ^ 64 := by omega
    rw [List.foldl_cons, addLen, Nat.mod_eq_of_lt inside]
    exact ih room

/-- The parameters of a request never add up to a wrapped size. -/
theorem sum_paramLen (admitted : ∀ param ∈ params, Admitted param) :
    (params.map paramLen).sum ≤ params.length * (2 ^ 32 + 128) := by
  induction params with
  | nil => rfl
  | cons param params ih =>
    have rest := ih fun other member => admitted other (List.mem_cons_of_mem _ member)
    have first := admitted param List.mem_cons_self
    have one : paramLen param ≤ 2 ^ 32 + 128 := by
      have short := first.short
      rw [paramLen]
      cases shape : param.value with
      | str str =>
        have long := first.str str shape
        dsimp only
        omega
      | num num =>
        dsimp only
        omega
      | bool num =>
        dsimp only
        omega
    rw [List.map_cons, List.sum_cons, List.length_cons, Nat.succ_mul]
    omega

/-- The first pass counts the bytes that the second one writes. -/
theorem sizing_eq (short : command.length < 128) (few : params.length < 256)
    (admitted : ∀ param ∈ params, Admitted param) :
    sizing command params datalen = (written command params datalen).length := by
  have total := sum_paramLen admitted
  have bound : params.length * (2 ^ 32 + 128) ≤ 255 * (2 ^ 32 + 128) := Nat.mul_le_mul_right _ (by omega)
  have params_length : (params.flatMap writeParam).length = (params.map paramLen).sum := by
    rw [List.length_flatMap]
    congr 1
    exact List.map_congr_left fun param _ => length_writeParam
  rw [written, List.length_append, List.length_append, length_writeCommand, List.length_singleton, params_length, sizing]
  have head : addLen command.length 2 = command.length + 2 := Nat.mod_eq_of_lt (by omega)
  rw [head]
  split
  · have data : addLen (command.length + 2) 8 = command.length + 2 + 8 := Nat.mod_eq_of_lt (by omega)
    rw [data, foldl_addLen (by omega)]
  · rw [foldl_addLen (by omega)]

end Sizing

end Pclsync.Proofs.Prepare
