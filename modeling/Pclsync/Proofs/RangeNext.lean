import Pclsync.Pages.RangeNext

/-! The announcement of further ranges is exact or refused. All stores stay in
the buffer: twenty digits and four separators fit wherever a number is begun. -/

namespace Pclsync.Proofs.RangeNext
open Pclsync.Pages.RangeNext Library.Backward

variable {range : Range} {ranges : List Range} {dwltag text : List UInt8} {buff : ℕ → UInt8} {out : Out} {number : ℕ}

abbrev Written (out : Out) (text : List UInt8) : Prop := Holds buffSize out text

/-- `first-last` -/
def pairText (range : Range) : List UInt8 := decimal range.offset ++ 45 :: decimal (lastByte range)

/-- The cookie line, for a tag of at most 40 bytes. -/
def cookieText (dwltag : List UInt8) : List UInt8 :=
  if dwltag.length ≤ 40 ∧ 0 < dwltag.length then dwltagHeader ++ dwltag ++ [13, 10] else []

/-- What follows the ranges, with the zero byte. -/
def endText (dwltag : List UInt8) : List UInt8 := [13, 10] ++ cookieText dwltag ++ [0]

/-- Ranges as they are written, each after a comma and a space. -/
def listText (ranges : List Range) : List UInt8 := ranges.flatMap fun range => [44, 32] ++ pairText range

/-- The whole header. -/
def headerText (ranges : List Range) (dwltag : List UInt8) : List UInt8 :=
  constructHeader ++ [32] ++ List.intercalate [44, 32] (ranges.map pairText) ++ [13, 10] ++ cookieText dwltag

/-- The room that the code asks for, range by range from the last one back, when
`written` bytes are in place: a number is begun with more than 24 bytes left. -/
def Room : List Range → ℕ → Prop
  | [], written => written ≤ 2033
  | range :: before, written =>
    written < 2023 ∧ written + (decimal (lastByte range)).length + 1 < 2023 ∧
      Room before (written + (pairText range).length + 2)

instance : ∀ ranges written, Decidable (Room ranges written)
  | [], _ => inferInstanceAs (Decidable (_ ≤ _))
  | _ :: before, _ =>
    have := instDecidableRoom before
    inferInstanceAs (Decidable (_ ∧ _ ∧ _))

section Writing

/-- A 64-bit number has at most twenty digits. -/
theorem length_number (word : number < 2 ^ 64) : (decimal number).length ≤ 20 :=
  length_decimal (by decide) (word.trans (by decide))

theorem addNumber_refused (full : out.off ≤ 24) : addNumber number out = .error .refused := if_pos full

theorem addNumber_written (written : Written out text) (room : 24 < out.off) (word : number < 2 ^ 64) :
    ∃ next, addNumber number out = .ok next ∧ next.off = out.off - (decimal number).length ∧
      Written next (decimal number ++ text) := by
  have digits := length_number word
  rw [addNumber, if_neg (by omega)]
  exact putDigits_holds written (by omega) (by decide)

theorem lastByte_lt : lastByte range < 2 ^ 64 := Nat.mod_lt _ (by decide)

theorem addEnd_written (dwltag : List UInt8) (buff : ℕ → UInt8) :
    ∃ out, addEnd dwltag buff = .ok out ∧ Written out (endText dwltag) := by
  have empty : Written ⟨buff, buffSize - 1⟩ [] := ⟨rfl, rfl⟩
  obtain ⟨zero, done_zero, off_zero, at_zero⟩ := put_holds empty (by simp only [buffSize]; omega) (by decide) 0
  have place : zero.off = 2046 := off_zero
  obtain ⟨feed, done_feed, off_feed, at_feed⟩ := put_holds at_zero (by omega) (by decide) 10
  obtain ⟨line, done_line, off_line, at_line⟩ := put_holds at_feed (by omega) (by decide) 13
  have start : line.off = 2044 := by omega
  simp only [addEnd, done_zero, done_feed, done_line, bind, Except.bind]
  by_cases tagged : dwltag.length ≤ 40 ∧ 0 < dwltag.length
  · rw [if_pos tagged]
    simp only [start]
    obtain ⟨with_tag, done_tag, at_tag⟩ := @copy_suffix buffSize (2044 - (dwltag.length - 1)) line.buff dwltag
      (by simp only [buffSize]; omega)
    obtain ⟨with_header, done_header, at_header⟩ :=
      @copy_suffix buffSize (2044 - (dwltag.length - 1) - dwltagHeader.length) with_tag dwltagHeader
        (by simp only [buffSize, dwltagHeader, List.length_cons, List.length_nil]; omega)
    simp only [done_tag, done_header]
    have header_length : dwltagHeader.length = 15 := rfl
    have whole : Written ⟨with_header, 2044 - (dwltag.length - 1) - dwltagHeader.length - 1⟩
        (dwltagHeader ++ (dwltag ++ [13, 10, 0])) := by
      constructor
      · simp only [List.length_append, header_length, List.length_cons, List.length_nil, buffSize]
        omega
      · dsimp only
        rw [Nat.sub_add_cancel (by omega), at_header, Nat.sub_add_cancel (by omega), at_tag,
          show 2044 - (dwltag.length - 1) + dwltag.length = line.off + 1 by omega, at_line.bytes]
    obtain ⟨before, done_before, off_before, at_before⟩ := put_holds whole (by dsimp only; omega) (by decide) 10
    dsimp only at off_before
    obtain ⟨out, done, _, at_out⟩ := put_holds at_before (by omega) (by decide) 13
    refine ⟨out, by simp only [done_before, done], ?_⟩
    have text : endText dwltag = 13 :: 10 :: (dwltagHeader ++ (dwltag ++ [13, 10, 0])) := by
      simp [endText, cookieText, tagged]
    rw [text]
    exact at_out
  · rw [if_neg tagged]
    refine ⟨line, rfl, ?_⟩
    have text : endText dwltag = [13, 10, 0] := by simp [endText, cookieText, tagged]
    rw [text]
    exact at_line

theorem listText_append (first second : List Range) : listText (first ++ second) = listText first ++ listText second :=
  List.flatMap_append

theorem length_begun (begin last text : List UInt8) :
    (44 :: 32 :: (begin ++ 45 :: (last ++ text))).length = text.length + (begin ++ 45 :: last).length + 2 := by
  simp only [List.length_cons, List.length_append]
  omega

/-- The text after one range more. -/
theorem listText_cons {before : List Range} : listText (range :: before).reverse ++ text =
    listText before.reverse ++ (44 :: 32 :: (decimal range.offset ++ 45 :: (decimal (lastByte range) ++ text))) := by
  rw [listText, listText, List.reverse_cons, List.flatMap_append, List.flatMap_singleton, pairText]
  rw [List.append_assoc, List.append_assoc, List.append_assoc, List.cons_append, List.cons_append, List.nil_append,
    List.cons_append]

/-- One range is written in front, or there is no room to begin one of its numbers. -/
theorem addRanges_written {back : List Range} {first : Range} (written : Written out text)
    (words : ∀ range ∈ back, range.offset < 2 ^ 64) :
    (∃ next, addRanges (back ++ [first]) out = .ok next ∧ Written next (listText back.reverse ++ text) ∧
        (Room back text.length ↔ 14 ≤ next.off)) ∨
      addRanges (back ++ [first]) out = .error .refused ∧ ¬ Room back text.length := by
  induction back generalizing out text with
  | nil =>
    have room := written.room
    refine .inl ⟨out, rfl, written, ?_⟩
    simp only [Room]
    simp only [buffSize] at room
    omega
  | cons range before ih =>
    have more : (before ++ [first]).isEmpty = false := by simp
    have room := written.room
    have start := words range List.mem_cons_self
    have last_word := @lastByte_lt range
    simp only [buffSize] at room
    rw [List.cons_append, addRanges, more, listText_cons]
    simp only [Bool.false_eq_true, if_false, Room, pairText]
    -- Only that the two numbers are words matters.
    generalize lastByte range = last at last_word ⊢
    generalize range.offset = begin at start ⊢
    have digits := length_number last_word
    have early := length_number start
    by_cases full : out.off ≤ 24
    · refine .inr ⟨by simp only [addNumber_refused full, bind, Except.bind], fun enough => ?_⟩
      omega
    · obtain ⟨one, done_one, off_one, at_one⟩ := addNumber_written written (by omega) last_word
      obtain ⟨two, done_two, off_two, at_two⟩ := put_holds at_one (by omega) (by decide) 45
      simp only [done_one, done_two, bind, Except.bind]
      by_cases tight : two.off ≤ 24
      · refine .inr ⟨by rw [addNumber_refused tight], fun enough => ?_⟩
        omega
      · have begun : text.length < 2023 ∧ text.length + (decimal last).length + 1 < 2023 := by omega
        obtain ⟨three, done_three, off_three, at_three⟩ := addNumber_written at_two (by omega) start
        obtain ⟨four, done_four, off_four, at_four⟩ := put_holds at_three (by omega) (by decide) 32
        obtain ⟨five, done_five, off_five, at_five⟩ := put_holds at_four (by omega) (by decide) 44
        simp only [done_three, done_four, done_five]
        have count := length_begun (decimal begin) (decimal last) text
        have rest := ih at_five fun other member => words other (List.mem_cons_of_mem _ member)
        rw [count] at rest
        simpa only [begun, true_and] using rest

end Writing

theorem intercalate_cons (sep one two : List UInt8) (rest : List (List UInt8)) :
    List.intercalate sep (one :: two :: rest) = one ++ sep ++ List.intercalate sep (two :: rest) := by
  simp [List.intercalate]

/-- Behind the first comma the list reads as the ranges joined by commas. -/
theorem listText_eq (some_range : ranges ≠ []) :
    listText ranges = 44 :: 32 :: List.intercalate [44, 32] (ranges.map pairText) := by
  induction ranges with
  | nil => exact absurd rfl some_range
  | cons range ranges ih =>
    cases ranges with
    | nil => simp [listText, List.intercalate]
    | cons next ranges =>
      have rest := ih (by simp)
      rw [List.map_cons, List.map_cons, intercalate_cons, ← List.map_cons, listText, List.flatMap_cons]
      rw [listText] at rest
      rw [rest]
      simp

section Header
variable {back others : List Range} {first : Range}

/-- The text behind a written list: the name of the header covers its first byte. -/
theorem finish_written (end_done : addEnd dwltag buff = .ok out) {next : Out}
    (ranges_done : addRanges ranges.reverse out = .ok next) (written : Written next text) (some_text : text ≠ []) :
    constructRangeNextHeader ranges dwltag buff =
      if 14 ≤ next.off then .ok ((constructHeader ++ text.tail).takeWhile (· ≠ 0)) else .error .refused := by
  have room := written.room
  have header_length : constructHeader.length = 13 := rfl
  obtain ⟨byte, rest, rfl⟩ := List.exists_cons_of_ne_nil some_text
  simp only [buffSize, List.length_cons] at room
  simp only [constructRangeNextHeader, end_done, ranges_done, bind, Except.bind, header_length]
  by_cases enough : 14 ≤ next.off
  · rw [if_neg (by omega), if_pos enough]
    obtain ⟨after, done, at_after⟩ := @copy_suffix buffSize (next.off - 14 + 3) next.buff constructHeader
      (by simp only [buffSize, header_length]; omega)
    have behind : suffix buffSize next.buff (next.off - 14 + 3 + constructHeader.length) = rest := by
      have whole := written.bytes
      rw [suffix_cons (by simp only [buffSize]; omega)] at whole
      rw [show next.off - 14 + 3 + constructHeader.length = next.off + 1 + 1 by rw [header_length]; omega]
      exact List.tail_eq_of_cons_eq whole
    simp only [pure, Except.pure, done, at_after, behind, List.tail_cons]
  · rw [if_pos (by omega), if_neg enough]
    rfl

theorem endText_ne_zero (whole : 0 ∉ dwltag) : ∀ byte ∈ [13, 10] ++ cookieText dwltag, byte ≠ 0 := by
  have name : ∀ byte ∈ dwltagHeader, byte ≠ 0 := by decide +kernel
  intro byte member
  unfold cookieText at member
  split at member
  · simp only [List.mem_append, List.mem_cons, List.not_mem_nil, or_false] at member
    rcases member with (rfl | rfl) | (inside | inside) | rfl | rfl
    · decide
    · decide
    · exact name byte inside
    · exact fun zero => whole (zero ▸ inside)
    · decide
    · decide
  · simp only [List.append_nil, List.mem_cons, List.not_mem_nil, or_false] at member
    rcases member with rfl | rfl <;> decide

theorem listText_ne_zero (ranges : List Range) : ∀ byte ∈ listText ranges, byte ≠ 0 := by
  intro byte member
  obtain ⟨range, _, inside⟩ := List.mem_flatMap.mp member
  simp only [pairText, List.mem_append, List.mem_cons, List.not_mem_nil, or_false] at inside
  rcases inside with (rfl | rfl) | digit | rfl | digit
  · decide
  · decide
  · exact decimal_ne_zero byte digit
  · decide
  · exact decimal_ne_zero byte digit

theorem headerText_ne_zero (some_range : others ≠ []) (whole : 0 ∉ dwltag) :
    ∀ byte ∈ headerText others dwltag, byte ≠ 0 := by
  have name : ∀ byte ∈ constructHeader ++ [32], byte ≠ 0 := by decide +kernel
  intro byte member
  rw [headerText, List.append_assoc, List.append_assoc] at member
  rcases List.mem_append.mp member with inside | inside
  · exact name byte inside
  · rcases List.mem_append.mp inside with list | last
    · apply listText_ne_zero others
      rw [listText_eq some_range]
      exact List.mem_cons_of_mem _ (List.mem_cons_of_mem _ list)
    · exact endText_ne_zero whole byte last

theorem construct_several (some_range : others ≠ []) (words : ∀ range ∈ others, range.offset < 2 ^ 64)
    (whole : 0 ∉ dwltag) :
    constructRangeNextHeader (first :: others) dwltag buff =
      if Room others.reverse (endText dwltag).length then .ok (headerText others dwltag) else .error .refused := by
  obtain ⟨out, end_done, written⟩ := addEnd_written dwltag buff
  have back := @addRanges_written _ _ others.reverse first written
    fun range member => words range (List.mem_reverse.mp member)
  rw [← List.reverse_cons, List.reverse_reverse] at back
  rcases back with ⟨next, done, listed, room⟩ | ⟨refused, tight⟩
  · rw [listText_eq some_range] at listed
    have text : (constructHeader ++
          (44 :: 32 :: List.intercalate [44, 32] (others.map pairText) ++ endText dwltag).tail).takeWhile (· ≠ 0) =
        headerText others dwltag := by
      have shape : constructHeader ++
          (44 :: 32 :: List.intercalate [44, 32] (others.map pairText) ++ endText dwltag).tail =
          headerText others dwltag ++ [0] := by
        simp only [headerText, endText, List.cons_append, List.tail_cons, List.append_assoc, List.nil_append]
      rw [shape, List.takeWhile_append_of_pos]
      · simp
      · intro byte member
        exact decide_eq_true (headerText_ne_zero some_range whole byte member)
    rw [finish_written end_done done listed (List.cons_ne_nil _ _), text]
    by_cases enough : 14 ≤ next.off
    · rw [if_pos enough, if_pos (room.mpr enough)]
    · rw [if_neg enough, if_neg fun fits => enough (room.mp fits)]
  · rw [if_neg tight]
    simp only [constructRangeNextHeader, end_done, refused, bind, Except.bind]

/-- No store of the function leaves the buffer, whatever the ranges. -/
theorem construct_inside (words : ∀ range ∈ ranges, range.offset < 2 ^ 64) :
    constructRangeNextHeader ranges dwltag buff ≠ .error .outside := by
  obtain ⟨out, end_done, written⟩ := addEnd_written dwltag buff
  have some_text : ∀ list : List UInt8, list ++ endText dwltag ≠ [] := by simp [endText]
  have inside : ∀ next text, addRanges ranges.reverse out = .ok next → Written next text → text ≠ [] →
      constructRangeNextHeader ranges dwltag buff ≠ .error .outside := by
    intro next text done listed some_text
    rw [finish_written end_done done listed some_text]
    by_cases enough : 14 ≤ next.off
    · rw [if_pos enough]
      intro outside
      cases outside
    · rw [if_neg enough]
      intro outside
      cases outside
  cases ranges with
  | nil =>
    have done : addRanges [] out = .ok out := by rw [addRanges]
    exact inside out (endText dwltag) done written (some_text [])
  | cons first others =>
    have back := @addRanges_written _ _ others.reverse first written
      fun range member => words range (List.mem_cons_of_mem _ (List.mem_reverse.mp member))
    rw [← List.reverse_cons] at back
    rcases back with ⟨next, done, listed, _⟩ | ⟨refused, _⟩
    · exact inside next _ done listed (some_text _)
    · have stopped : constructRangeNextHeader (first :: others) dwltag buff = .error .refused := by
        simp only [constructRangeNextHeader, end_done, refused, bind, Except.bind]
      rw [stopped]
      intro outside
      cases outside

end Header

/-- With two or more ranges the function gives the exact header, with the tag when
it has at most 40 bytes, or refuses when a number would begin in the last bytes
of the buffer; it stays in the buffer; and it is not asked about a single range. -/
theorem constructRangeNextHeader_exact (ranges : List Range) (dwltag : List UInt8) (buff : ℕ → UInt8)
    (words : ∀ range ∈ ranges, range.offset < 2 ^ 64) (whole : 0 ∉ dwltag) :
    (2 ≤ ranges.length → constructRangeNextHeader ranges dwltag buff =
      if Room ranges.tail.reverse (endText dwltag).length then .ok (headerText ranges.tail dwltag)
      else .error .refused) ∧
    constructRangeNextHeader ranges dwltag buff ≠ .error .outside ∧
    (ranges.length = 1 → ∀ request ∈ requests ranges dwltag buff, request.2 = .cookie) := by
  refine ⟨?_, construct_inside words, ?_⟩
  · intro several
    cases ranges with
    | nil => simp at several
    | cons first others =>
      have some_range : others ≠ [] := by
        rintro rfl
        simp at several
      exact construct_several some_range (fun range member => words range (List.mem_cons_of_mem _ member)) whole
  · intro single request member
    obtain ⟨range, rfl⟩ := List.length_eq_one_iff.mp single
    have alone : ¬ (0 = 0 ∧ 0 + 1 ≠ [range].length) := fun several => several.2 rfl
    rw [requests, List.mapIdx_cons, List.mapIdx_nil, List.mem_singleton, if_neg alone] at member
    rw [member]

theorem constructRangeNextHeader_exact_two :
    constructRangeNextHeader [⟨0, 4⟩, ⟨8, 4⟩] [97] (fun _ => 0) = .ok (headerText [⟨8, 4⟩] [97]) := by
  have exact_header := (constructRangeNextHeader_exact [⟨0, 4⟩, ⟨8, 4⟩] [97] (fun _ => 0) (by simp) (by decide)).1
  have first := @length_number 8 (by decide)
  have last := @length_number 11 (by decide)
  have room : Room [⟨8, 4⟩] (endText [97]).length := by
    have ended : (endText [97]).length = 21 := rfl
    have sum : lastByte ⟨8, 4⟩ = 11 := rfl
    simp only [Room, pairText, ended, sum, List.length_append, List.length_cons]
    omega
  rw [exact_header le_rfl]
  exact if_pos room

/-- Each range takes at least five bytes. -/
theorem room_le : ∀ {back : List Range} {written : ℕ}, Room back written → written + 5 * back.length ≤ 2033
  | [], _, room => room
  | range :: before, written, room => by
    have rest := room_le room.2.2
    have first := decimal_pos range.offset
    have last := decimal_pos (lastByte range)
    rw [pairText, List.length_append, List.length_cons] at rest
    rw [List.length_cons]
    omega

/-- A long list of ranges is refused. -/
theorem construct_long (words : ∀ range ∈ ranges, range.offset < 2 ^ 64) (whole : 0 ∉ dwltag)
    (long : 408 ≤ ranges.length) : constructRangeNextHeader ranges dwltag buff = .error .refused := by
  cases ranges with
  | nil => exact absurd long (by decide)
  | cons first others =>
    rw [List.length_cons] at long
    have some_range : others ≠ [] := by
      rintro rfl
      exact absurd long (by decide)
    rw [construct_several some_range (fun range member => words range (List.mem_cons_of_mem _ member)) whole, if_neg]
    intro room
    have wide := room_le room
    rw [List.length_reverse] at wide
    omega

/-- Six hundred ranges are refused, and of a single range a broken line is made. -/
theorem constructRangeNextHeader_limits :
    constructRangeNextHeader (List.replicate 600 ⟨0, 1⟩) [] (fun _ => 0) = .error .refused ∧
    constructRangeNextHeader [⟨0, 1⟩] [] (fun _ => 0) = .ok (constructHeader ++ [10]) := by
  constructor
  · apply construct_long
    · intro range member
      rw [List.eq_of_mem_replicate member]
      exact Nat.two_pow_pos 64
    · exact List.not_mem_nil
    · exact (by decide : 408 ≤ 600).trans_eq List.length_replicate.symm
  · obtain ⟨out, end_done, written⟩ := addEnd_written [] (fun _ => 0)
    have none_done : addRanges [⟨0, 1⟩].reverse out = .ok out := rfl
    have ended : endText [] = [13, 10, 0] := rfl
    rw [ended] at written
    have room : out.off + 1 + 3 = 2048 := written.room
    rw [finish_written end_done none_done written (by simp), if_pos (by omega)]
    decide +kernel

end Pclsync.Proofs.RangeNext
