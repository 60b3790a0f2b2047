import Pclsync.Api.Grammar
import Pclsync.Library.Memory

/-! The first pass against the grammar of responses. It accepts a response that
begins with a complete value, looks outside of one that ends right behind an
opening byte, and rejects every other one. -/

namespace Pclsync.Proofs.ResultLength
open Pclsync.Api Library

/-- The state of the first pass at a suffix of the response. -/
abbrev at_ (data : Bytes) (strcnt : ℕ) : Input := ⟨data, data.length, strcnt⟩

section Bytes
variable {strcnt : ℕ}

theorem needData_eq (data : Bytes) (cnt : ℕ) :
    (at_ data strcnt).needData cnt = if data.length < cnt then .error .reject else .ok () := rfl

theorem advance_append (front rest : Bytes) :
    (at_ (front ++ rest) strcnt).advance front.length = .ok (at_ rest strcnt) := by
  rw [Input.advance, if_pos (by simp), List.drop_left' rfl]
  simp

theorem skip_append (front rest : Bytes) :
    (do (at_ (front ++ rest) strcnt).needData front.length; (at_ (front ++ rest) strcnt).advance front.length) =
      .ok (at_ rest strcnt) := by
  rw [needData_eq, if_neg (by simp), advance_append]
  rfl

theorem number_append (digits rest : Bytes) :
    (at_ (digits ++ rest) strcnt).number digits.length = .ok (leNumber digits, at_ rest strcnt) := by
  rw [Input.number, needData_eq, if_neg (by simp), Input.copy, if_pos (by simp), List.take_left' rfl, advance_append]
  rfl

theorem number_short {data : Bytes} {cnt : ℕ} (short : data.length < cnt) :
    (at_ data strcnt).number cnt = .error .reject := by
  rw [Input.number, needData_eq, if_pos short]
  rfl

/-- Either there are `cnt` more bytes or not. -/
theorem split_data (data : Bytes) (cnt : ℕ) :
    data.length < cnt ∨ ∃ front rest, data = front ++ rest ∧ front.length = cnt := by
  rcases Nat.lt_or_ge data.length cnt with short | enough
  · exact .inl short
  · exact .inr ⟨data.take cnt, data.drop cnt, (List.take_append_drop cnt data).symm, by
      rw [List.length_take, Nat.min_eq_left enough]⟩

end Bytes

section Types
variable {fuel strcnt : ℕ} {type : UInt8} {data : Bytes}

theorem calc_empty : calcRetLen (fuel + 1) (at_ [] strcnt) = .error .reject := rfl

theorem peek_cons : (at_ (type :: data) strcnt).peek = .ok type.toNat := rfl

theorem advance_one : (at_ (type :: data) strcnt).advance 1 = .ok (at_ data strcnt) := advance_append [type] data

theorem needData_one : (at_ (type :: data) strcnt).needData 1 = .ok () := by
  rw [needData_eq, if_neg (by simp)]

theorem calc_str (range : isStr type.toNat) : calcRetLen (fuel + 1) (at_ (type :: data) strcnt) = (do
    let (len, input) ← if isShortStr type.toNat then .ok (type.toNat - 100, at_ data strcnt)
      else (at_ data strcnt).number (type.toNat + 1)
    input.needData len
    let input ← input.advance len
    return (8 + (len + 8) / 8 * 8, { input with strcnt := input.strcnt + 1 })) := by
  rw [calcRetLen, needData_one, peek_cons, advance_one]
  simp only [ok_bind, if_pos range]
  rfl

theorem calc_rstr (range : isRstr type.toNat) : calcRetLen (fuel + 1) (at_ (type :: data) strcnt) = (do
    let (len, input) ← if isLongRstr type.toNat then (at_ data strcnt).number (type.toNat - 4 + 1)
      else .ok (type.toNat - 150, at_ data strcnt)
    if len < input.strcnt then return (0, input) else .error .reject) := by
  have str : ¬isStr type.toNat := by omega
  rw [calcRetLen, needData_one, peek_cons, advance_one]
  simp only [ok_bind, if_neg str, if_pos range]

theorem calc_num (range : isNum type.toNat) : calcRetLen (fuel + 1) (at_ (type :: data) strcnt) = (do
    (at_ data strcnt).needData (type.toNat - 8 + 1)
    let input ← (at_ data strcnt).advance (type.toNat - 8 + 1)
    return (16, input)) := by
  have str : ¬isStr type.toNat := by omega
  have rstr : ¬isRstr type.toNat := by omega
  rw [calcRetLen, needData_one, peek_cons, advance_one]
  simp only [ok_bind, if_neg str, if_neg rstr, if_pos range]

theorem calc_small (range : isSmallNum type.toNat) :
    calcRetLen (fuel + 1) (at_ (type :: data) strcnt) = .ok (0, at_ data strcnt) := by
  have str : ¬isStr type.toNat := by omega
  have rstr : ¬isRstr type.toNat := by omega
  have num : ¬isNum type.toNat := by omega
  rw [calcRetLen, needData_one, peek_cons, advance_one]
  simp only [ok_bind, if_neg str, if_neg rstr, if_neg num, if_pos range]
  rfl

theorem calc_bool (range : type.toNat = 18 ∨ type.toNat = 19) :
    calcRetLen (fuel + 1) (at_ (type :: data) strcnt) = .ok (0, at_ data strcnt) := by
  have str : ¬isStr type.toNat := by omega
  have rstr : ¬isRstr type.toNat := by omega
  have num : ¬isNum type.toNat := by omega
  have small : ¬isSmallNum type.toNat := by omega
  rw [calcRetLen, needData_one, peek_cons, advance_one]
  simp only [ok_bind, if_neg str, if_neg rstr, if_neg num, if_neg small, if_pos range]
  rfl

/-- Behind the header of a string come the bytes of its text. -/
theorem calc_str_header {head : Bytes} {len : ℕ} (header : Carries 100 50 0 head len) :
    calcRetLen (fuel + 1) (at_ (head ++ data) strcnt) = (do
      (at_ data strcnt).needData len
      let input ← (at_ data strcnt).advance len
      return (8 + (len + 8) / 8 * 8, { input with strcnt := input.strcnt + 1 })) := by
  cases header with
  | short type range =>
    rw [List.singleton_append, calc_str (.inl range), if_pos range]
    rfl
  | long type digits range width =>
    have long : ¬isShortStr type.toNat := by omega
    rw [List.cons_append, calc_str (.inr range), if_neg long, show type.toNat + 1 = digits.length by omega,
      number_append]
    rfl

/-- A reference to a string is accepted when the string was defined before. -/
theorem calc_rstr_header {head : Bytes} {id : ℕ} (header : Carries 150 50 4 head id) :
    calcRetLen (fuel + 1) (at_ (head ++ data) strcnt) =
      if id < strcnt then .ok (0, at_ data strcnt) else .error .reject := by
  cases header with
  | short type range =>
    have short : ¬isLongRstr type.toNat := by omega
    rw [List.singleton_append, calc_rstr (.inr range), if_neg short]
    rfl
  | long type digits range width =>
    rw [List.cons_append, calc_rstr (.inl range), if_pos range, ← width, number_append]
    rfl

theorem calc_array : calcRetLen (fuel + 1) (at_ (17 :: data) strcnt) = (do
    let (ret, cnt, input) ← calcArray fuel 16 0 (at_ data strcnt)
    return (ret + 8 * cnt, input)) := by
  rw [calcRetLen, needData_one, peek_cons, advance_one]
  rfl

theorem calc_hash : calcRetLen (fuel + 1) (at_ (16 :: data) strcnt) = (do
    let (ret, cnt, input) ← calcHash fuel 16 0 (at_ data strcnt)
    return (ret + 16 * cnt, input)) := by
  rw [calcRetLen, needData_one, peek_cons, advance_one]
  rfl

theorem calc_data : calcRetLen (fuel + 1) (at_ (20 :: data) strcnt) = (do
    (at_ data strcnt).needData 8
    let input ← (at_ data strcnt).advance 8
    return (16, input)) := by
  rw [calcRetLen, needData_one, peek_cons, advance_one]
  rfl

theorem calc_unknown (str : ¬isStr type.toNat) (rstr : ¬isRstr type.toNat) (num : ¬isNum type.toNat)
    (small : ¬isSmallNum type.toNat) (other : type.toNat < 16 ∨ 20 < type.toNat) :
    calcRetLen (fuel + 1) (at_ (type :: data) strcnt) = .error .reject := by
  rw [calcRetLen, needData_one, peek_cons, advance_one]
  simp only [ok_bind, if_neg str, if_neg rstr, if_neg num, if_neg small]
  rw [if_neg (by omega), if_neg (by omega), if_neg (by omega), if_neg (by omega)]

theorem calcArray_end {ret cnt : ℕ} :
    calcArray (fuel + 1) ret cnt (at_ (255 :: data) strcnt) = .ok (ret, cnt, at_ data strcnt) := by
  rw [calcArray, peek_cons, advance_one]
  rfl

theorem calcHash_end {ret cnt : ℕ} :
    calcHash (fuel + 1) ret cnt (at_ (255 :: data) strcnt) = .ok (ret, cnt, at_ data strcnt) := by
  rw [calcHash, peek_cons, advance_one]
  rfl

theorem calcArray_next {ret cnt : ℕ} (more : type.toNat ≠ 255) :
    calcArray (fuel + 1) ret cnt (at_ (type :: data) strcnt) = (do
      let (r, input) ← calcRetLen fuel (at_ (type :: data) strcnt)
      input.needData 1
      calcArray fuel (ret + r) ((cnt + 1) % 2 ^ 32) input) := by
  rw [calcArray, peek_cons]
  simp only [ok_bind, if_pos more]

theorem calcHash_next {ret cnt : ℕ} (more : type.toNat ≠ 255) :
    calcHash (fuel + 1) ret cnt (at_ (type :: data) strcnt) = (do
      let (r, input) ← calcRetLen fuel (at_ (type :: data) strcnt)
      let (r', input) ← calcRetLen fuel input
      input.needData 1
      calcHash fuel (ret + r + r') ((cnt + 1) % 2 ^ 32) input) := by
  rw [calcHash, peek_cons]
  simp only [ok_bind, if_pos more]

end Types

/-! Every denoted response is accepted, with its size as long as the counters of
entries do not wrap. -/

/-- The part of the first pass that belongs to a shape. -/
def scan (shape : Shape) (fuel ret cnt : ℕ) (input : Input) : Pass (ℕ × ℕ × Input) :=
  match shape with
  | .value => do
    let (r, input) ← calcRetLen fuel input
    return (ret + r, cnt + 1, input)
  | .elements => calcArray fuel ret cnt input
  | .pairs => calcHash fuel ret cnt input

/-- How many entries the trees are for a loop over this shape. -/
def Shape.entries : Shape → List Tree → ℕ
  | .pairs, trees => trees.length / 2
  | _, trees => trees.length

theorem scan_value {fuel ret cnt ret' cnt' : ℕ} {input after : Input}
    (run : scan .value fuel ret cnt input = .ok (ret', cnt', after)) :
    ∃ r, calcRetLen fuel input = .ok (r, after) ∧ ret' = ret + r := by
  rw [scan] at run
  cases found : calcRetLen fuel input with
  | error stop =>
    rw [found] at run
    cases run
  | ok pair =>
    rw [found] at run
    cases run
    exact ⟨pair.1, rfl, rfl⟩

theorem reads_even {texts after : List Bytes} {bytes : Bytes} {trees : List Tree} {size : ℕ}
    (reads : Reads .pairs texts bytes trees size after) : trees.length % 2 = 0 := by
  generalize shapeDef : Shape.pairs = shape at reads
  induction reads with
  | pairsEnd => rfl
  | pair head body tail first second third =>
    have rest := third rfl
    simp only [List.length_cons]
    omega
  | _ => cases shapeDef

/-- Fuel for a shape over `length` bytes. -/
def needed : Shape → ℕ → ℕ
  | .value, length => 2 * length
  | _, length => 2 * length + 1

theorem fuel_succ {shape : Shape} {length fuel : ℕ} (nonempty : 0 < length) (enough : needed shape length ≤ fuel) :
    ∃ more, fuel = more + 1 := by
  apply Nat.exists_eq_succ_of_ne_zero
  cases shape <;> simp only [needed] at enough <;> omega

theorem reads_scan {shape : Shape} {texts after : List Bytes} {bytes : Bytes} {trees : List Tree} {size : ℕ}
    (reads : Reads shape texts bytes trees size after) (fuel ret cnt : ℕ) (rest : Bytes)
    (enough : needed shape bytes.length ≤ fuel) :
    ∃ ret' cnt', scan shape fuel ret cnt (at_ (bytes ++ rest) texts.length) =
        .ok (ret', cnt', at_ rest after.length) ∧
      (cnt + bytes.length < 2 ^ 32 → ret' = ret + size ∧ cnt' = cnt + Shape.entries shape trees) := by
  induction reads generalizing fuel ret cnt rest with
  | @str texts head text header =>
    obtain ⟨type, digits, rfl, _⟩ := header.nonempty
    obtain ⟨fuel, rfl⟩ := fuel_succ (by simp) enough
    refine ⟨ret + (8 + (text.length + 8) / 8 * 8), cnt + 1, ?_, fun _ => ⟨rfl, rfl⟩⟩
    rw [scan, List.append_assoc, calc_str_header header, needData_eq, if_neg (by simp), advance_append,
      List.length_append]
    rfl
  | @rstr texts head text id header known =>
    obtain ⟨type, digits, rfl, _⟩ := header.nonempty
    obtain ⟨fuel, rfl⟩ := fuel_succ (by simp) enough
    obtain ⟨defined, _⟩ := List.getElem?_eq_some_iff.mp known
    refine ⟨ret, cnt + 1, ?_, fun _ => ⟨rfl, rfl⟩⟩
    rw [scan, calc_rstr_header header, if_pos defined]
    rfl
  | @num texts digits type range width =>
    obtain ⟨fuel, rfl⟩ := fuel_succ (by simp) enough
    refine ⟨ret + 16, cnt + 1, ?_, fun _ => ⟨rfl, rfl⟩⟩
    rw [scan, List.cons_append, calc_num range, ← width, needData_eq, if_neg (by simp), advance_append]
    rfl
  | @small texts type range =>
    obtain ⟨fuel, rfl⟩ := fuel_succ (by simp) enough
    refine ⟨ret, cnt + 1, ?_, fun _ => ⟨rfl, rfl⟩⟩
    rw [scan, List.singleton_append, calc_small range]
    rfl
  | @bool texts value =>
    obtain ⟨fuel, rfl⟩ := fuel_succ (by simp) enough
    refine ⟨ret, cnt + 1, ?_, fun _ => ⟨rfl, rfl⟩⟩
    rw [scan, List.singleton_append, calc_bool (by cases value <;> decide)]
    rfl
  | @data texts digits width =>
    obtain ⟨fuel, rfl⟩ := fuel_succ (by simp) enough
    refine ⟨ret + 16, cnt + 1, ?_, fun _ => ⟨rfl, rfl⟩⟩
    rw [scan, List.cons_append, calc_data, ← width, needData_eq, if_neg (by simp), advance_append]
    rfl
  | @array texts after body trees size entries ih =>
    obtain ⟨fuel, rfl⟩ := fuel_succ (by simp) enough
    obtain ⟨total, count, run, exact_⟩ := ih fuel 16 0 rest (by simp [needed] at enough ⊢; omega)
    refine ⟨ret + (total + 8 * count), cnt + 1, ?_, ?_⟩
    · rw [scan, List.cons_append, calc_array]
      rw [scan] at run
      rw [run]
      rfl
    · intro small
      obtain ⟨sized, counted⟩ := exact_ (by simp at small ⊢; omega)
      rw [sized, counted]
      exact ⟨by simp [Shape.entries], rfl⟩
  | @hash texts after body trees size entries ih =>
    obtain ⟨fuel, rfl⟩ := fuel_succ (by simp) enough
    obtain ⟨total, count, run, exact_⟩ := ih fuel 16 0 rest (by simp [needed] at enough ⊢; omega)
    refine ⟨ret + (total + 16 * count), cnt + 1, ?_, ?_⟩
    · rw [scan, List.cons_append, calc_hash]
      rw [scan] at run
      rw [run]
      rfl
    · intro small
      obtain ⟨sized, counted⟩ := exact_ (by simp at small ⊢; omega)
      have even := reads_even entries
      rw [sized, counted]
      exact ⟨by simp [Shape.entries]; omega, rfl⟩
  | elementsEnd =>
    obtain ⟨fuel, rfl⟩ := fuel_succ (by simp) enough
    exact ⟨ret, cnt, calcArray_end, fun _ => ⟨rfl, rfl⟩⟩
  | @element texts middle after front body tree trees size more head tail first second =>
    obtain ⟨type, front, rfl, valued⟩ := head.nonempty
    obtain ⟨next, body, rfl, _⟩ := tail.nonempty
    obtain ⟨fuel, rfl⟩ := fuel_succ (by simp) enough
    simp only [needed, List.length_append, List.length_cons] at enough
    obtain ⟨total, _, run, exact_⟩ := first fuel 0 0 (next :: body ++ rest) (by simp only [needed, List.length_cons]; omega)
    obtain ⟨r, found, sum⟩ := scan_value run
    obtain ⟨ret', cnt', loop, exactRest⟩ := second fuel (ret + r) ((cnt + 1) % 2 ^ 32) rest (by
      simp only [needed, List.length_cons]
      omega)
    refine ⟨ret', cnt', ?_, ?_⟩
    · rw [scan, List.append_assoc]
      rw [scan] at loop
      rw [List.cons_append, calcArray_next (valued rfl), ← List.cons_append, found]
      simp only [ok_bind]
      rw [List.cons_append, needData_one]
      exact loop
    · intro small
      simp only [List.length_append, List.length_cons] at small
      have unwrapped : (cnt + 1) % 2 ^ 32 = cnt + 1 := Nat.mod_eq_of_lt (by omega)
      obtain ⟨sized, _⟩ := exact_ (by simp only [List.length_cons]; omega)
      obtain ⟨total', counted⟩ := exactRest (by simp only [List.length_cons]; omega)
      refine ⟨by omega, ?_⟩
      rw [counted, unwrapped]
      simp only [Shape.entries, List.length_cons]
      omega
  | pairsEnd =>
    obtain ⟨fuel, rfl⟩ := fuel_succ (by simp) enough
    exact ⟨ret, cnt, calcHash_end, fun _ => ⟨rfl, rfl⟩⟩
  | @pair texts middle third after front next body key value trees size other more head inner tail first second last =>
    obtain ⟨type, front, rfl, valued⟩ := head.nonempty
    obtain ⟨close, body, rfl, _⟩ := tail.nonempty
    obtain ⟨fuel, rfl⟩ := fuel_succ (by simp) enough
    simp only [needed, List.length_append, List.length_cons] at enough
    obtain ⟨total, _, run, exact_⟩ := first fuel 0 0 (next ++ (close :: body) ++ rest) (by
      simp only [needed, List.length_cons]
      omega)
    obtain ⟨r, found, sum⟩ := scan_value run
    obtain ⟨total', _, run', exact'⟩ := second fuel 0 0 (close :: body ++ rest) (by
      simp only [needed]
      omega)
    obtain ⟨r', found', sum'⟩ := scan_value run'
    obtain ⟨ret', cnt', loop, exactRest⟩ := last fuel (ret + r + r') ((cnt + 1) % 2 ^ 32) rest (by
      simp only [needed, List.length_cons]
      omega)
    refine ⟨ret', cnt', ?_, ?_⟩
    · rw [scan, List.append_assoc]
      rw [scan] at loop
      rw [List.append_assoc] at found
      rw [List.cons_append, calcHash_next (valued rfl), ← List.cons_append, List.append_assoc, found]
      simp only [ok_bind]
      rw [found']
      simp only [ok_bind]
      rw [List.cons_append, needData_one]
      exact loop
    · intro small
      simp only [List.length_append, List.length_cons] at small
      have unwrapped : (cnt + 1) % 2 ^ 32 = cnt + 1 := Nat.mod_eq_of_lt (by omega)
      obtain ⟨sized, _⟩ := exact_ (by simp only [List.length_cons]; omega)
      obtain ⟨sized', _⟩ := exact' (by omega)
      obtain ⟨total'', counted⟩ := exactRest (by simp only [List.length_cons]; omega)
      refine ⟨by omega, ?_⟩
      rw [counted, unwrapped]
      simp only [Shape.entries, List.length_cons]
      omega

/-! Every outcome has its reason in the bytes. -/

/-- What the first pass can come to over `data`. -/
inductive Verdict (shape : Shape) (texts : List Bytes) (data : Bytes) : Pass (ℕ × ℕ × Input) → Prop where
  | accepted {ret cnt size : ℕ} {front rest : Bytes} {trees : List Tree} {after : List Bytes}
      (split : data = front ++ rest) (reads : Reads shape texts front trees size after) :
      Verdict shape texts data (.ok (ret, cnt, at_ rest after.length))
  | rejected : Verdict shape texts data (.error .reject)
  | outside (dangles : Dangling shape texts data) : Verdict shape texts data (.error .outside)

theorem verdict_str {fuel ret cnt : ℕ} {texts : List Bytes} {head rest : Bytes} {len : ℕ}
    (header : Carries 100 50 0 head len) :
    Verdict .value texts (head ++ rest) (scan .value (fuel + 1) ret cnt (at_ (head ++ rest) texts.length)) := by
  rw [scan, calc_str_header header, needData_eq]
  rcases split_data rest len with short | ⟨text, more, rfl, rfl⟩
  · rw [if_pos short]
    exact .rejected
  · rw [if_neg (by simp), ok_bind, advance_append]
    have after : texts.length + 1 = (texts ++ [text]).length := by simp
    simp only [ok_bind, after]
    exact .accepted (List.append_assoc head text more).symm (.str header)

theorem verdict_rstr {fuel ret cnt : ℕ} {texts : List Bytes} {head rest : Bytes} {id : ℕ}
    (header : Carries 150 50 4 head id) :
    Verdict .value texts (head ++ rest) (scan .value (fuel + 1) ret cnt (at_ (head ++ rest) texts.length)) := by
  rw [scan, calc_rstr_header header]
  by_cases defined : id < texts.length
  · rw [if_pos defined]
    exact .accepted rfl (.rstr header (List.getElem?_eq_getElem defined))
  · rw [if_neg defined]
    exact .rejected

/-- The number behind a type byte is there or the response is too short. -/
theorem carried (base limit wide : ℕ) (type : UInt8) (data : Bytes)
    (range : (base ≤ type.toNat ∧ type.toNat < base + limit) ∨ (wide ≤ type.toNat ∧ type.toNat ≤ wide + 3)) :
    (∃ head rest id, type :: data = head ++ rest ∧ Carries base limit wide head id) ∨
      (wide ≤ type.toNat ∧ type.toNat ≤ wide + 3 ∧ data.length < type.toNat - wide + 1) := by
  rcases range with short | long
  · exact .inl ⟨[type], data, _, rfl, .short type short⟩
  · rcases split_data data (type.toNat - wide + 1) with missing | ⟨digits, rest, rfl, width⟩
    · exact .inr ⟨long.1, long.2, missing⟩
    · exact .inl ⟨type :: digits, rest, _, rfl, .long type digits long width⟩

/-- A value of any type but array and hash. -/
theorem verdict_plain {fuel ret cnt : ℕ} {texts : List Bytes} {type : UInt8} {data : Bytes} (hash : type ≠ 16)
    (array : type ≠ 17) :
    Verdict .value texts (type :: data) (scan .value (fuel + 1) ret cnt (at_ (type :: data) texts.length)) := by
  by_cases str : isStr type.toNat
  · rcases carried 100 50 0 type data (by omega) with ⟨head, rest, len, split, header⟩ | ⟨low, high, missing⟩
    · rw [split]
      exact verdict_str header
    · have long : ¬isShortStr type.toNat := by omega
      rw [scan, calc_str str, if_neg long, number_short (by omega)]
      exact .rejected
  by_cases rstr : isRstr type.toNat
  · rcases carried 150 50 4 type data (by omega) with ⟨head, rest, id, split, header⟩ | ⟨low, high, missing⟩
    · rw [split]
      exact verdict_rstr header
    · rw [scan, calc_rstr rstr, if_pos ⟨low, high⟩, number_short missing]
      exact .rejected
  by_cases num : isNum type.toNat
  · rw [scan, calc_num num, needData_eq]
    rcases split_data data (type.toNat - 8 + 1) with short | ⟨digits, rest, rfl, width⟩
    · rw [if_pos short]
      exact .rejected
    · rw [← width, if_neg (by simp), ok_bind, advance_append]
      exact .accepted (List.cons_append ..).symm (.num type num width)
  by_cases small : isSmallNum type.toNat
  · rw [scan, calc_small small]
    exact .accepted (List.singleton_append ..).symm (.small type small)
  rcases Nat.lt_or_ge type.toNat 18 with low | high
  · have neither : type.toNat ≠ 16 ∧ type.toNat ≠ 17 :=
      ⟨fun same => hash (UInt8.toNat_inj.mp same), fun same => array (UInt8.toNat_inj.mp same)⟩
    rw [scan, calc_unknown str rstr num small (by omega)]
    exact .rejected
  rcases Nat.lt_or_ge 20 type.toNat with unknown | known
  · rw [scan, calc_unknown str rstr num small (.inr unknown)]
    exact .rejected
  obtain rfl | rfl | rfl : type = 18 ∨ type = 19 ∨ type = 20 := by
    rw [← UInt8.toNat_inj, ← UInt8.toNat_inj, ← UInt8.toNat_inj]
    simp only [UInt8.reduceToNat]
    omega
  · rw [scan, calc_bool (by decide)]
    exact .accepted (List.singleton_append ..).symm (.bool false)
  · rw [scan, calc_bool (by decide)]
    exact .accepted (List.singleton_append ..).symm (.bool true)
  · rw [scan, calc_data, needData_eq]
    rcases split_data data 8 with short | ⟨digits, rest, rfl, width⟩
    · rw [if_pos short]
      exact .rejected
    · rw [← width, if_neg (by simp), ok_bind, advance_append]
      exact .accepted (List.cons_append ..).symm (.data width)

theorem verdict_array {fuel ret cnt : ℕ} {texts : List Bytes} {data : Bytes}
    (loop : data ≠ [] → Verdict .elements texts data (scan .elements (fuel + 1) 16 0 (at_ data texts.length))) :
    Verdict .value texts (17 :: data) (scan .value (fuel + 2) ret cnt (at_ (17 :: data) texts.length)) := by
  rw [scan, calc_array]
  cases data with
  | nil => exact .outside .array
  | cons type data =>
    have outcome := loop nofun
    rw [scan] at outcome
    generalize calcArray (fuel + 1) 16 0 (at_ (type :: data) texts.length) = result at outcome
    cases outcome with
    | accepted split reads =>
      rw [split]
      exact .accepted (List.cons_append ..).symm (.array reads)
    | rejected => exact .rejected
    | outside dangles => exact .outside (.inArray dangles)

theorem verdict_hash {fuel ret cnt : ℕ} {texts : List Bytes} {data : Bytes}
    (loop : data ≠ [] → Verdict .pairs texts data (scan .pairs (fuel + 1) 16 0 (at_ data texts.length))) :
    Verdict .value texts (16 :: data) (scan .value (fuel + 2) ret cnt (at_ (16 :: data) texts.length)) := by
  rw [scan, calc_hash]
  cases data with
  | nil => exact .outside .hash
  | cons type data =>
    have outcome := loop nofun
    rw [scan] at outcome
    generalize calcHash (fuel + 1) 16 0 (at_ (type :: data) texts.length) = result at outcome
    cases outcome with
    | accepted split reads =>
      rw [split]
      exact .accepted (List.cons_append ..).symm (.hash reads)
    | rejected => exact .rejected
    | outside dangles => exact .outside (.inHash dangles)

theorem reads_value {texts after : List Bytes} {bytes : Bytes} {trees : List Tree} {size : ℕ}
    (reads : Reads .value texts bytes trees size after) : ∃ tree, trees = [tree] := by
  cases reads <;> exact ⟨_, rfl⟩

/-- A value in front, seen from the loop that reads it. -/
theorem value_verdict {fuel : ℕ} {texts : List Bytes} {data : Bytes}
    (verdict : Verdict .value texts data (scan .value fuel 0 0 (at_ data texts.length))) :
    (∃ r front rest tree size after, calcRetLen fuel (at_ data texts.length) = .ok (r, at_ rest after.length) ∧
        data = front ++ rest ∧ Reads .value texts front [tree] size after) ∨
      calcRetLen fuel (at_ data texts.length) = .error .reject ∨
      calcRetLen fuel (at_ data texts.length) = .error .outside ∧ Dangling .value texts data := by
  generalize outcome : scan .value fuel 0 0 (at_ data texts.length) = result at verdict
  cases verdict with
  | accepted split reads =>
    obtain ⟨r, found, _⟩ := scan_value outcome
    obtain ⟨tree, rfl⟩ := reads_value reads
    exact .inl ⟨r, _, _, tree, _, _, found, split, reads⟩
  | rejected =>
    cases found : calcRetLen fuel (at_ data texts.length) with
    | error stop =>
      rw [scan, found] at outcome
      cases outcome
      exact .inr (.inl rfl)
    | ok pair =>
      rw [scan, found] at outcome
      cases outcome
  | outside dangles =>
    cases found : calcRetLen fuel (at_ data texts.length) with
    | error stop =>
      rw [scan, found] at outcome
      cases outcome
      exact .inr (.inr ⟨rfl, dangles⟩)
    | ok pair =>
      rw [scan, found] at outcome
      cases outcome

theorem value_outside {fuel ret cnt : ℕ} {input : Input} (run : scan .value fuel ret cnt input = .error .outside) :
    calcRetLen fuel input = .error .outside := by
  rw [scan] at run
  cases found : calcRetLen fuel input with
  | error stop =>
    rw [found] at run
    cases run
    rfl
  | ok pair =>
    rw [found] at run
    cases run

section Turns
variable {fuel ret cnt : ℕ} {texts : List Bytes} {type : UInt8} {data : Bytes}

/-- One turn of the loop over an array. -/
theorem verdict_elements
    (head : Verdict .value texts (type :: data) (scan .value fuel 0 0 (at_ (type :: data) texts.length)))
    (loop : ∀ rest after ret cnt, rest ≠ [] → rest.length ≤ data.length →
      Verdict .elements after rest (scan .elements fuel ret cnt (at_ rest after.length))) :
    Verdict .elements texts (type :: data) (scan .elements (fuel + 1) ret cnt (at_ (type :: data) texts.length)) := by
  rw [scan]
  by_cases close : type = 255
  · rw [close, calcArray_end]
    exact .accepted (List.singleton_append ..).symm .elementsEnd
  rw [calcArray_next (fun same => close (UInt8.toNat_inj.mp same))]
  rcases value_verdict head with ⟨r, front, rest, tree, size, after, found, split, reads⟩ | found | ⟨found, dangles⟩
  · have lengths := congrArg List.length split
    obtain ⟨_, _, frontDef, _⟩ := reads.nonempty
    rw [found]
    simp only [ok_bind]
    cases rest with
    | nil => exact .rejected
    | cons next rest =>
      rw [needData_one, ok_bind]
      have outcome := loop (next :: rest) after (ret + r) ((cnt + 1) % 2 ^ 32) nofun (by
        simp only [frontDef, List.length_append, List.length_cons] at lengths ⊢
        omega)
      rw [scan] at outcome
      generalize calcArray fuel (ret + r) ((cnt + 1) % 2 ^ 32) (at_ (next :: rest) after.length) = result at outcome
      cases outcome with
      | accepted splitRest readsRest =>
        rw [split, splitRest, ← List.append_assoc]
        exact .accepted rfl (.element reads readsRest)
      | rejected => exact .rejected
      | outside dangles =>
        rw [split]
        exact .outside (.later reads dangles)
  · rw [found]
    exact .rejected
  · rw [found]
    exact .outside (.element dangles)

/-- One turn of the loop over a hash. -/
theorem verdict_pairs
    (value : ∀ rest after, rest.length ≤ data.length + 1 →
      Verdict .value after rest (scan .value fuel 0 0 (at_ rest after.length)))
    (loop : ∀ rest after ret cnt, rest ≠ [] → rest.length ≤ data.length →
      Verdict .pairs after rest (scan .pairs fuel ret cnt (at_ rest after.length))) :
    Verdict .pairs texts (type :: data) (scan .pairs (fuel + 1) ret cnt (at_ (type :: data) texts.length)) := by
  rw [scan]
  by_cases close : type = 255
  · rw [close, calcHash_end]
    exact .accepted (List.singleton_append ..).symm .pairsEnd
  rw [calcHash_next (fun same => close (UInt8.toNat_inj.mp same))]
  rcases value_verdict (value (type :: data) texts le_rfl) with
    ⟨r, front, rest, key, size, second, found, split, reads⟩ | found | ⟨found, dangles⟩
  · have lengths := congrArg List.length split
    obtain ⟨_, _, frontDef, _⟩ := reads.nonempty
    simp only [frontDef, List.length_append, List.length_cons] at lengths
    rw [found]
    simp only [ok_bind]
    rcases value_verdict (value rest second (by omega)) with
      ⟨r', next, rest, tree, other, third, found', split', reads'⟩ | found' | ⟨found', dangles⟩
    · have lengths' := congrArg List.length split'
      rw [List.length_append] at lengths'
      rw [found']
      simp only [ok_bind]
      cases rest with
      | nil => exact .rejected
      | cons byte rest =>
        rw [needData_one, ok_bind]
        have outcome := loop (byte :: rest) third (ret + r + r') ((cnt + 1) % 2 ^ 32) nofun (by omega)
        rw [scan] at outcome
        generalize calcHash fuel (ret + r + r') ((cnt + 1) % 2 ^ 32) (at_ (byte :: rest) third.length) = result
          at outcome
        rw [split, split']
        cases outcome with
        | accepted splitRest readsRest =>
          rw [splitRest, ← List.append_assoc next, ← List.append_assoc]
          exact .accepted rfl (.pair reads reads' readsRest)
        | rejected => exact .rejected
        | outside dangles => exact .outside (.laterPair reads reads' dangles)
    · rw [found']
      exact .rejected
    · rw [found', split]
      exact .outside (.value reads dangles)
  · rw [found]
    exact .rejected
  · rw [found]
    exact .outside (.key dangles)

end Turns

/-- By induction on the fuel: one turn of a loop takes one value off, and a
value that opens an array or a hash leaves the shorter rest to a loop. -/
theorem scan_verdict (shape : Shape) (texts : List Bytes) (data : Bytes) (fuel ret cnt : ℕ)
    (more : shape ≠ .value → data ≠ []) (enough : 2 * data.length + (if shape = .value then 1 else 2) ≤ fuel) :
    Verdict shape texts data (scan shape fuel ret cnt (at_ data texts.length)) := by
  induction fuel generalizing shape texts data ret cnt with
  | zero => split at enough <;> omega
  | succ fuel ih =>
    have value : ∀ rest after, 2 * rest.length + 1 ≤ fuel →
        Verdict .value after rest (scan .value fuel 0 0 (at_ rest after.length)) := fun rest after enough =>
      ih .value after rest 0 0 (fun other => absurd rfl other) (by rw [if_pos rfl]; exact enough)
    have loop : ∀ shape, shape ≠ .value → ∀ rest after ret cnt, rest ≠ [] → 2 * rest.length + 2 ≤ fuel →
        Verdict shape after rest (scan shape fuel ret cnt (at_ rest after.length)) :=
      fun shape other rest after ret cnt nonempty enough =>
        ih shape after rest ret cnt (fun _ => nonempty) (by rw [if_neg other]; exact enough)
    cases data with
    | nil =>
      cases shape with
      | value => exact .rejected
      | elements => exact absurd rfl (more nofun)
      | pairs => exact absurd rfl (more nofun)
    | cons type data =>
      simp only [List.length_cons] at enough
      cases shape with
      | value =>
        rw [if_pos rfl] at enough
        obtain ⟨fuel, rfl⟩ : ∃ less, fuel = less + 1 := Nat.exists_eq_succ_of_ne_zero (by omega)
        by_cases array : type = 17
        · rw [array]
          exact verdict_array fun nonempty => loop .elements nofun data texts 16 0 nonempty (by omega)
        by_cases hash : type = 16
        · rw [hash]
          exact verdict_hash fun nonempty => loop .pairs nofun data texts 16 0 nonempty (by omega)
        · exact verdict_plain hash array
      | elements =>
        rw [if_neg nofun] at enough
        apply verdict_elements
        · exact value (type :: data) texts (by rw [List.length_cons]; omega)
        · exact fun rest after ret cnt nonempty shorter =>
            loop .elements nofun rest after ret cnt nonempty (by omega)
      | pairs =>
        rw [if_neg nofun] at enough
        apply verdict_pairs
        · exact fun rest after shorter => value rest after (by omega)
        · exact fun rest after ret cnt nonempty shorter => loop .pairs nofun rest after ret cnt nonempty (by omega)

theorem reads_calc {texts after : List Bytes} {bytes : Bytes} {trees : List Tree} {size : ℕ}
    (reads : Reads .value texts bytes trees size after) (fuel : ℕ) (rest : Bytes) (enough : 2 * bytes.length ≤ fuel) :
    ∃ ret, calcRetLen fuel (at_ (bytes ++ rest) texts.length) = .ok (ret, at_ rest after.length) ∧
      (bytes.length < 2 ^ 32 → ret = size) := by
  obtain ⟨_, _, run, sized⟩ := reads_scan reads fuel 0 0 rest enough
  obtain ⟨ret, found, sum⟩ := scan_value run
  exact ⟨ret, found, fun small => by have exact_ := (sized (by omega)).1; omega⟩

/-- The first pass reads up to a dangling opener and then looks beyond it. -/
theorem dangling_scan {shape : Shape} {texts : List Bytes} {data : Bytes} (dangles : Dangling shape texts data)
    (fuel ret cnt : ℕ) (enough : needed shape data.length ≤ fuel) :
    scan shape fuel ret cnt (at_ data texts.length) = .error .outside := by
  induction dangles generalizing fuel ret cnt with
  | array =>
    obtain ⟨fuel, rfl⟩ : ∃ less, fuel = less + 2 := ⟨fuel - 2, by simp [needed] at enough; omega⟩
    rw [scan, calc_array]
    rfl
  | hash =>
    obtain ⟨fuel, rfl⟩ : ∃ less, fuel = less + 2 := ⟨fuel - 2, by simp [needed] at enough; omega⟩
    rw [scan, calc_hash]
    rfl
  | inArray dangles ih =>
    obtain ⟨fuel, rfl⟩ := fuel_succ (by simp) enough
    have loop := ih fuel 16 0 (by simp [needed] at enough ⊢; omega)
    rw [scan] at loop
    rw [scan, calc_array, loop]
    rfl
  | inHash dangles ih =>
    obtain ⟨fuel, rfl⟩ := fuel_succ (by simp) enough
    have loop := ih fuel 16 0 (by simp [needed] at enough ⊢; omega)
    rw [scan] at loop
    rw [scan, calc_hash, loop]
    rfl
  | element dangles ih =>
    obtain ⟨type, rest, rfl, open_⟩ := dangles.nonempty
    obtain ⟨fuel, rfl⟩ := fuel_succ (by simp) enough
    have inner := value_outside (ih fuel 0 0 (by simp [needed] at enough ⊢; omega))
    rw [scan, calcArray_next open_, inner]
    rfl
  | @later texts middle first rest trees size head dangles ih =>
    obtain ⟨type, front, rfl, valued⟩ := head.nonempty
    obtain ⟨next, tail, rfl, _⟩ := dangles.nonempty
    obtain ⟨fuel, rfl⟩ := fuel_succ (by simp) enough
    simp only [needed, List.length_append, List.length_cons] at enough
    obtain ⟨r, found, _⟩ := reads_calc head fuel (next :: tail) (by simp only [List.length_cons]; omega)
    have loop := ih fuel (ret + r) ((cnt + 1) % 2 ^ 32) (by simp only [needed, List.length_cons]; omega)
    rw [scan] at loop
    rw [scan, List.cons_append, calcArray_next (valued rfl), ← List.cons_append, found]
    simp only [ok_bind]
    rw [needData_one, ok_bind, loop]
  | key dangles ih =>
    obtain ⟨type, rest, rfl, open_⟩ := dangles.nonempty
    obtain ⟨fuel, rfl⟩ := fuel_succ (by simp) enough
    have inner := value_outside (ih fuel 0 0 (by simp [needed] at enough ⊢; omega))
    rw [scan, calcHash_next open_, inner]
    rfl
  | @value texts middle first rest trees size head dangles ih =>
    obtain ⟨type, front, rfl, valued⟩ := head.nonempty
    obtain ⟨fuel, rfl⟩ := fuel_succ (by simp) enough
    simp only [needed, List.length_append, List.length_cons] at enough
    obtain ⟨r, found, _⟩ := reads_calc head fuel rest (by simp only [List.length_cons]; omega)
    have inner := value_outside (ih fuel 0 0 (by simp only [needed]; omega))
    rw [scan, List.cons_append, calcHash_next (valued rfl), ← List.cons_append, found]
    simp only [ok_bind]
    rw [inner]
    rfl
  | @laterPair texts second third first next rest trees others size other head body dangles ih =>
    obtain ⟨type, front, rfl, valued⟩ := head.nonempty
    obtain ⟨close, tail, rfl, _⟩ := dangles.nonempty
    obtain ⟨fuel, rfl⟩ := fuel_succ (by simp) enough
    simp only [needed, List.length_append, List.length_cons] at enough
    obtain ⟨r, found, _⟩ := reads_calc head fuel (next ++ close :: tail) (by simp only [List.length_cons]; omega)
    obtain ⟨r', found', _⟩ := reads_calc body fuel (close :: tail) (by omega)
    have loop := ih fuel (ret + r + r') ((cnt + 1) % 2 ^ 32) (by simp only [needed, List.length_cons]; omega)
    rw [scan] at loop
    rw [scan, List.cons_append, calcHash_next (valued rfl), ← List.cons_append, found]
    simp only [ok_bind]
    rw [found']
    simp only [ok_bind]
    rw [needData_one, ok_bind, loop]

/-- The first pass ends inside the response, and accepts exactly the responses
that begin with a complete value, unless one ends right behind an opening byte. -/
theorem ret_len_safe_iff (message : Bytes) :
    ((retLen message = .error .reject ∨ ∃ size input, retLen message = .ok (size, input)) ∧
      ((∃ size input, retLen message = .ok (size, input)) ↔
        ∃ front rest trees size after, message = front ++ rest ∧ Reads .value [] front trees size after)) ↔
      ¬Dangling .value [] message := by
  constructor
  · rintro ⟨ends, _⟩ dangles
    have run := value_outside (dangling_scan dangles (parseFuel message) 0 0 (by rw [needed, parseFuel]; omega))
    rw [retLen, show calcRetLen (parseFuel message) ⟨message, message.length, 0⟩ = _ from run] at ends
    rcases ends with bad | ⟨_, _, bad⟩
    · cases bad
    · cases bad
  · intro whole
    have verdict := scan_verdict .value [] message (parseFuel message) 0 0 (fun other => absurd rfl other) (by
      rw [if_pos rfl, parseFuel]
      omega)
    have complete : (∃ front rest trees size after, message = front ++ rest ∧ Reads .value [] front trees size after) →
        ∃ size input, retLen message = .ok (size, input) := by
      rintro ⟨front, rest, trees, size, after, rfl, reads⟩
      obtain ⟨ret, found, _⟩ := reads_calc reads (parseFuel (front ++ rest)) rest (by
        rw [parseFuel, List.length_append]
        omega)
      exact ⟨ret, _, found⟩
    rcases value_verdict verdict with ⟨r, front, rest, tree, size, after, found, split, reads⟩ | found | ⟨_, dangles⟩
    · exact ⟨.inr ⟨r, _, found⟩, fun _ => ⟨front, rest, [tree], size, after, split, reads⟩, complete⟩
    · refine ⟨.inl found, fun accepted => ?_, complete⟩
      obtain ⟨_, _, accepted⟩ := accepted
      rw [retLen] at accepted
      rw [show calcRetLen (parseFuel message) ⟨message, message.length, 0⟩ = _ from found] at accepted
      cases accepted
    · exact absurd dangles whole

/-- An array without its first element and its end. -/
theorem ret_len_array_opener :
    ¬(retLen [17] = .error .reject ∨ ∃ size input, retLen [17] = .ok (size, input)) := by
  have run : retLen [17] = .error .outside := rfl
  rw [run]
  simp

end Pclsync.Proofs.ResultLength
