import Pclsync.Status.Line
import Pclsync.Library.Decimal

/-! The lines as texts of numbers, and how long they are. What is written for a time repeats after `2 ^ 32` days. -/

namespace Pclsync.Proofs.StatusLine
open Pclsync.Status Library Library.Decimal

/-- A number as it is written. -/
def number (num : ℕ) : Text := (decimal num).map .digit

def chars (text : String) : Text := text.toList.map .char

def width (num : ℕ) : ℕ := Nat.log 10 num + 1

section Numbers

variable {num : ℕ} {str : Text}

theorem length_number : (number num).length = width num := by
  rw [number, List.length_map, length_decimal, width]

theorem width_le {digits : ℕ} (small : num < 10 ^ (digits + 1)) : width num ≤ digits + 1 := by
  rw [width, ← length_decimal]
  exact length_le small

theorem number_digit {value : ℕ} (member : .digit value ∈ number num) : value ≤ 9 := by
  obtain ⟨digit, inside, same⟩ := List.mem_map.mp member
  cases same
  exact digit_le inside

theorem lastDigits_eq (num : ℕ) (str : Text) : lastDigits num str = number num ++ str := by
  induction num using Nat.strong_induction_on generalizing str with
  | _ num ih =>
    rw [lastDigits]
    split
    next small =>
      have few : num < 10 := by omega
      rw [number, decimal_small few, Nat.mod_eq_of_lt few]
      rfl
    next large =>
      have many : 10 ≤ num := by omega
      rw [ih (num / 10) (by omega), number, number, decimal_large many, List.map_append, List.append_assoc]
      rfl

theorem number_small (small : num < 10) : number num = [.digit num] := by
  rw [number, decimal_small small]
  rfl

theorem number_large (large : 10 ≤ num) : number num = number (num / 10) ++ [.digit (num % 10)] := by
  rw [number, number, decimal_large large, List.map_append]
  rfl

theorem catUint32_eq (src : Text) (num : UInt32) : catUint32 src num = src ++ number num.toNat := by
  unfold catUint32 catUint32l
  split
  next => rw [lastDigits_eq, List.append_nil]
  next below =>
    dsimp only
    split
    next one => rw [number_small one]
    next more =>
      rw [number_large (Nat.not_lt.mp more)]
      split
      next two => rw [number_small (by omega)]; rfl
      next three =>
        rw [number_large (by omega), number_small (by omega), Nat.div_div_eq_div_mul, List.append_assoc,
          show num.toNat % 100 / 10 = num.toNat / 10 % 10 by omega, show num.toNat % 100 % 10 = num.toNat % 10 by omega]
        rfl

theorem catStr_eq (src : Text) (app : String) : catStr src app = src ++ chars app := rfl

/-- Digits up to a character show the number and the character. -/
theorem number_char_inj {other : ℕ} {c d : Char} {rest last : Text} (same : number num ++ .char c :: rest = number other ++ .char d :: last) :
    num = other ∧ c = d := by
  have lists : ∀ {digits others : List ℕ}, digits.map Glyph.digit ++ .char c :: rest = others.map Glyph.digit ++ .char d :: last →
      digits = others ∧ c = d := by
    intro digits
    induction digits with
    | nil =>
      intro others equal
      cases others with
      | nil =>
        simp only [List.map_nil, List.nil_append, List.cons.injEq, Glyph.char.injEq] at equal
        exact ⟨rfl, equal.1⟩
      | cons => simp at equal
    | cons digit digits ih =>
      intro others equal
      cases others with
      | nil => simp at equal
      | cons first others =>
        simp only [List.map_cons, List.cons_append, List.cons.injEq, Glyph.digit.injEq] at equal
        obtain ⟨rest, ends⟩ := ih equal.2
        exact ⟨by rw [equal.1, rest], ends⟩
  obtain ⟨digits, ends⟩ := lists same
  exact ⟨decimal_injective digits, ends⟩

end Numbers

section Bytes

/-- The unit that is used. -/
def unit (bytes : ℕ) : ℕ := min 4 (Nat.log 1024 bytes)

/-- How many of these units. -/
def whole (bytes : ℕ) : ℕ := bytes / 1024 ^ unit bytes

/-- The length of what is written for so many bytes. -/
def bytesWidth (bytes : ℕ) : ℕ :=
  if unit bytes = 0 then width (whole bytes) + 5 else if whole bytes < 100 then 6 else width (whole bytes) + 2

theorem scale_eq (left bytes rem sz : ℕ) : ∃ part, scale left bytes rem sz =
    (bytes / 1024 ^ min left (Nat.log 1024 bytes), part, sz + min left (Nat.log 1024 bytes)) ∧ (rem < 1024 → part < 1024) := by
  induction left generalizing bytes rem sz with
  | zero => exact ⟨rem, by simp [scale], id⟩
  | succ left ih =>
    rw [scale]
    split
    next large =>
      obtain ⟨part, scaled, small⟩ := ih (bytes / 1024) (bytes % 1024) (sz + 1)
      refine ⟨part, ?_, fun _ => small (Nat.mod_lt _ (by decide))⟩
      rw [scaled, Nat.log_of_one_lt_of_le (by decide) large, Nat.succ_min_succ, Nat.pow_succ', Nat.div_div_eq_div_mul]
      simp only [Prod.mk.injEq, true_and]
      omega
    next small =>
      have none : Nat.log 1024 bytes = 0 := Nat.log_of_lt (Nat.not_le.mp small)
      exact ⟨rem, by rw [none, Nat.min_zero, pow_zero, Nat.div_one, Nat.add_zero], id⟩

variable {bytes : UInt64}

/-- The digits behind the point. -/
def fraction (whole part : ℕ) : Text :=
  if whole < 10 then [.digit (part * 1000 / 1024 / 10 / 10), .digit (part * 1000 / 1024 / 10 % 10)] else [.digit (part * 1000 / 1024 / 100)]

theorem whole_small (bytes : UInt64) : whole bytes.toNat < 2 ^ 24 := by
  have bound := bytes.toNat_lt
  unfold whole unit
  by_cases large : Nat.log 1024 bytes.toNat < 4
  · have next := Nat.lt_pow_succ_log_self (by decide : 1 < 1024) bytes.toNat
    rw [Nat.min_eq_right large.le, Nat.div_lt_iff_lt_mul (Nat.pow_pos (by decide))]
    rw [Nat.pow_succ'] at next
    exact next.trans_le (Nat.mul_le_mul_right _ (by decide))
  · rw [Nat.min_eq_left (Nat.not_lt.mp large)]
    omega

/-- What is left over of the last division. -/
def part (bytes : ℕ) : ℕ := (scale 4 bytes 0 0).2.1

theorem scale_parts (bytes : ℕ) : scale 4 bytes 0 0 = (whole bytes, part bytes, unit bytes) ∧ part bytes < 1024 := by
  obtain ⟨left, scaled, small⟩ := scale_eq 4 bytes 0 0
  rw [Nat.zero_add] at scaled
  have same : part bytes = left := by rw [part, scaled]
  rw [same]
  exact ⟨scaled, small (by decide)⟩

/-- What is written for so many bytes. -/
def bytesText (bytes : ℕ) : Text :=
  number (whole bytes) ++
    ((if unit bytes ≠ 0 ∧ whole bytes < 100 then .char '.' :: fraction (whole bytes) (part bytes) else []) ++ chars (sizes.getD (unit bytes) ""))

theorem fillFormattedBytes_eq (str : Text) (bytes : UInt64) : fillFormattedBytes str bytes = str ++ bytesText bytes.toNat := by
  have few := whole_small bytes
  have counted : (UInt32.ofNat (whole bytes.toNat)).toNat = whole bytes.toNat := UInt32.toNat_ofNat_of_lt' (by
    rw [UInt32.size]
    omega)
  unfold fillFormattedBytes
  rw [show sizes.length - 1 = 4 by rfl, (scale_parts bytes.toNat).1]
  dsimp only
  rw [catUint32_eq, counted, catStr_eq, bytesText, fraction]
  split
  · split <;> simp only [List.append_assoc, List.cons_append, List.nil_append]
  · simp only [List.append_assoc, List.nil_append]

theorem bytesText_digit {bytes value : ℕ} (member : .digit value ∈ bytesText bytes) : value ≤ 9 := by
  have small := (scale_parts bytes).2
  unfold bytesText at member
  rw [List.mem_append, List.mem_append] at member
  obtain high | low | letter := member
  · exact number_digit high
  · split at low
    · unfold fraction at low
      split at low
      · simp only [List.mem_cons, reduceCtorEq, Glyph.digit.injEq, List.not_mem_nil, or_false, false_or] at low
        omega
      · simp only [List.mem_cons, reduceCtorEq, Glyph.digit.injEq, List.not_mem_nil, or_false, false_or] at low
        omega
    · cases low
  · obtain ⟨c, _, same⟩ := List.mem_map.mp letter
    cases same

theorem length_unit {bytes : ℕ} : (chars (sizes.getD (unit bytes) "")).length = if unit bytes = 0 then 5 else 2 := by
  have names : ∀ index ≤ 4, (chars (sizes.getD index "")).length = if index = 0 then 5 else 2 := by decide
  exact names (unit bytes) (Nat.min_le_left _ _)

theorem length_bytesText {bytes : ℕ} : (bytesText bytes).length = bytesWidth bytes := by
  unfold bytesText bytesWidth
  rw [List.length_append, List.length_append, length_number, length_unit]
  by_cases none : unit bytes = 0
  · rw [if_pos none, if_pos none, if_neg (fun both => both.1 none), List.length_nil, Nat.zero_add]
  · rw [if_neg none, if_neg none]
    by_cases few : whole bytes < 100
    · rw [if_pos ⟨none, few⟩, if_pos few, List.length_cons, fraction]
      by_cases one : whole bytes < 10
      · rw [if_pos one, width, Nat.log_of_lt one]
        rfl
      · have two : Nat.log 10 (whole bytes) = 1 := by
          rw [Nat.log_eq_iff (Or.inl one_ne_zero)]
          omega
        rw [if_neg one, width, two]
        rfl
    · rw [if_neg few, if_neg fun both => few both.2, List.length_nil, Nat.zero_add]

theorem bytesWidth_le (bytes : UInt64) : bytesWidth bytes.toNat ≤ 10 := by
  have few := whole_small bytes
  unfold bytesWidth
  split
  next none =>
    have log : Nat.log 1024 bytes.toNat = 0 := by
      unfold unit at none
      omega
    have small : whole bytes.toNat < 10 ^ (3 + 1) := by
      rw [Nat.log_eq_zero_iff] at log
      unfold whole
      rw [none, pow_zero, Nat.div_one]
      omega
    have := width_le small
    omega
  next =>
    split
    next => decide
    next =>
      have small : whole bytes.toNat < 10 ^ (7 + 1) := by omega
      have := width_le small
      omega

end Bytes

section Time

def seconds (sec : ℕ) : ℕ := sec % 60
def minutes (sec : ℕ) : ℕ := sec / 60 % 60
def hours (sec : ℕ) : ℕ := sec / 60 / 60 % 24
def days (sec : ℕ) : ℕ := sec / 60 / 60 / 24

/-- A count of units that is rounded by the next smaller one. -/
def rounded (count smaller : ℕ) : ℕ := if smaller ≥ 30 then count + 1 else count

/-- A time as it is to be shown, of whatever length it is. -/
def timeText (sec : ℕ) : Text :=
  if days sec ≠ 0 then number (days sec) ++ chars "d " ++ number (rounded (hours sec) (minutes sec)) ++ chars "h"
  else if hours sec ≠ 0 then number (hours sec) ++ chars "h " ++ number (rounded (minutes sec) (seconds sec)) ++ chars "m"
  else if minutes sec ≠ 0 then number (minutes sec) ++ chars "m " ++ number (seconds sec) ++ chars "s"
  else number (max 1 (seconds sec)) ++ chars "s"

/-- The days are kept in 32 bits. -/
def period : ℕ := 86400 * 2 ^ 32

variable {sec : ℕ}

theorem days_mod : days (sec % period) = days sec % 2 ^ 32 := by
  unfold days period
  omega

theorem hours_mod : hours (sec % period) = hours sec := by
  unfold hours period
  omega

theorem minutes_mod : minutes (sec % period) = minutes sec := by
  unfold minutes period
  omega

theorem seconds_mod : seconds (sec % period) = seconds sec := by
  unfold seconds period
  omega

theorem clock_small (sec : ℕ) : hours sec < 24 ∧ minutes sec < 60 ∧ seconds sec < 60 :=
  ⟨Nat.mod_lt _ (by decide), Nat.mod_lt _ (by decide), Nat.mod_lt _ (by decide)⟩

theorem fillFormattedTime_eq (str : Text) (totalsec : UInt64) :
    fillFormattedTime str totalsec = str ++ timeText (totalsec.toNat % period) := by
  obtain ⟨hoursSmall, minutesSmall, secondsSmall⟩ := clock_small totalsec.toNat
  have kept : ∀ count < 100, (UInt32.ofNat count).toNat = count := fun count small => UInt32.toNat_ofNat_of_lt' (by
    rw [UInt32.size]
    omega)
  have dayCount : (UInt32.ofNat (days totalsec.toNat)).toNat = days totalsec.toNat % 2 ^ 32 := UInt32.toNat_ofNat'
  have dayZero : UInt32.ofNat (days totalsec.toNat) ≠ 0 ↔ days totalsec.toNat % 2 ^ 32 ≠ 0 := by
    rw [← dayCount, ne_eq, ne_eq, ← UInt32.toNat_inj]
    rfl
  unfold timeText
  rw [days_mod, hours_mod, minutes_mod, seconds_mod]
  unfold fillFormattedTime
  change (if UInt32.ofNat (days totalsec.toNat) ≠ 0 then _ else if hours totalsec.toNat ≠ 0 then _ else if minutes totalsec.toNat ≠ 0 then _ else _) = _
  simp only [dayZero, catUint32_eq, catStr_eq]
  split
  next =>
    change str ++ number (UInt32.ofNat (days totalsec.toNat)).toNat ++ _ ++
      number (UInt32.ofNat (rounded (hours totalsec.toNat) (minutes totalsec.toNat))).toNat ++ _ = _
    rw [dayCount, kept (rounded _ _) (by unfold rounded; split <;> omega)]
    simp only [List.append_assoc]
  next =>
    split
    next =>
      change str ++ number (UInt32.ofNat (hours totalsec.toNat)).toNat ++ _ ++
        number (UInt32.ofNat (rounded (minutes totalsec.toNat) (seconds totalsec.toNat))).toNat ++ _ = _
      rw [kept _ (by omega), kept _ (by unfold rounded; split <;> omega)]
      simp only [List.append_assoc]
    next =>
      split
      next =>
        change str ++ number (UInt32.ofNat (minutes totalsec.toNat)).toNat ++ _ ++ number (UInt32.ofNat (seconds totalsec.toNat)).toNat ++ _ = _
        rw [kept _ (by omega), kept _ (by omega)]
        simp only [List.append_assoc]
      next =>
        change str ++ number (UInt32.ofNat (if seconds totalsec.toNat = 0 then 1 else seconds totalsec.toNat)).toNat ++ _ = _
        have shown : (if seconds totalsec.toNat = 0 then 1 else seconds totalsec.toNat) = max 1 (seconds totalsec.toNat) := by
          split <;> omega
        rw [shown, kept _ (by omega), List.append_assoc]

/-- What comes first in the text of a time. -/
def leading (sec : ℕ) : ℕ × Char :=
  if days sec ≠ 0 then (days sec, 'd') else if hours sec ≠ 0 then (hours sec, 'h') else if minutes sec ≠ 0 then (minutes sec, 'm')
  else (max 1 (seconds sec), 's')

theorem timeText_leading (sec : ℕ) : ∃ rest, timeText sec = number (leading sec).1 ++ .char (leading sec).2 :: rest := by
  unfold timeText leading
  split
  next => exact ⟨.char ' ' :: (number _ ++ chars "h"), by simp only [List.append_assoc]; rfl⟩
  next =>
    split
    next => exact ⟨.char ' ' :: (number _ ++ chars "m"), by simp only [List.append_assoc]; rfl⟩
    next =>
      split
      next => exact ⟨.char ' ' :: (number _ ++ chars "s"), by simp only [List.append_assoc]; rfl⟩
      next => exact ⟨[], rfl⟩

theorem leading_eq {other : ℕ} (same : timeText sec = timeText other) : leading sec = leading other := by
  obtain ⟨rest, first⟩ := timeText_leading sec
  obtain ⟨last, second⟩ := timeText_leading other
  rw [first, second] at same
  obtain ⟨number, unit⟩ := number_char_inj same
  exact Prod.ext number unit

theorem unit_ne {count other : ℕ} {c d : Char} (differ : c ≠ d) : (count, c) ≠ (other, d) := fun same => differ (congrArg Prod.snd same)

/-- A time is shown as it is unless it is too long. -/
theorem timeText_mod : timeText (sec % period) = timeText sec ↔ sec < period := by
  constructor
  · intro same
    by_contra long
    have first := leading_eq same
    have many : 2 ^ 32 ≤ days sec := by
      unfold days period at *
      omega
    have few : days (sec % period) < 2 ^ 32 := by
      rw [days_mod]
      exact Nat.mod_lt _ (by decide)
    unfold leading at first
    rw [if_pos (show days sec ≠ 0 by omega)] at first
    split at first
    next =>
      have := congrArg Prod.fst first
      dsimp only at this
      omega
    next =>
      split at first
      next => exact absurd first (unit_ne (by decide))
      next => split at first <;> exact absurd first (unit_ne (by decide))
  · intro short
    rw [Nat.mod_eq_of_lt short]

/-- The shortest time. -/
theorem timeText_zero : timeText sec = timeText 0 ↔ sec ≤ 1 := by
  constructor
  · intro same
    have first : leading sec = (1, 's') := leading_eq same
    unfold leading at first
    split at first
    next => exact absurd first (unit_ne (by decide))
    next noDays =>
      split at first
      next => exact absurd first (unit_ne (by decide))
      next noHours =>
        split at first
        next => exact absurd first (unit_ne (by decide))
        next noMinutes =>
          have count := congrArg Prod.fst first
          dsimp only at count
          unfold days hours minutes seconds at *
          omega
  · intro short
    obtain rfl | rfl : sec = 0 ∨ sec = 1 := by omega
    · rfl
    · rfl

theorem timeText_digit {value : ℕ} (member : .digit value ∈ timeText sec) : value ≤ 9 := by
  have letters : ∀ text : String, .digit value ∉ chars text := by
    intro text inside
    obtain ⟨c, _, same⟩ := List.mem_map.mp inside
    cases same
  unfold timeText at member
  split at member
  · simp only [List.mem_append, letters, or_false] at member
    exact member.elim number_digit number_digit
  · split at member
    · simp only [List.mem_append, letters, or_false] at member
      exact member.elim number_digit number_digit
    · split at member
      · simp only [List.mem_append, letters, or_false] at member
        exact member.elim number_digit number_digit
      · simp only [List.mem_append, letters, or_false] at member
        exact number_digit member

theorem length_days (long : days sec ≠ 0) : (timeText sec).length = width (days sec) + width (rounded (hours sec) (minutes sec)) + 3 := by
  unfold timeText
  rw [if_pos long, List.length_append, List.length_append, List.length_append, length_number, length_number]
  change width _ + 2 + width _ + 1 = _
  omega

theorem length_short (short : days sec = 0) : (timeText sec).length ≤ 7 := by
  obtain ⟨hoursSmall, minutesSmall, secondsSmall⟩ := clock_small sec
  have two : ∀ count < 100, (number count).length ≤ 2 := fun count small => by
    rw [length_number]
    exact @width_le count 1 small
  have letters : (chars "h ").length = 2 ∧ (chars "m ").length = 2 ∧ (chars "m").length = 1 ∧ (chars "s").length = 1 := by decide
  have first := two (hours sec) (by omega)
  have second := two (minutes sec) (by omega)
  have third := two (seconds sec) (by omega)
  have fourth := two (max 1 (seconds sec)) (by omega)
  have fifth := two (rounded (minutes sec) (seconds sec)) (by unfold rounded; split <;> omega)
  unfold timeText
  rw [if_neg (not_not.mpr short)]
  split
  · simp only [List.length_append]
    omega
  · split <;> simp only [List.length_append] <;> omega

end Time

section Line

/-- What is left to transfer, as it is shown. -/
def remaining (dir : Direction) : ℕ := dir.total.toNat - dir.transferred.toNat

def remainingText (dir : Direction) : Text :=
  chars "Remaining: " ++ number dir.files.toNat ++ chars " files, " ++ bytesText (remaining dir)

/-- Nothing is transferred, or the speed is not known. -/
def Halted (status : UInt32) (dir : Direction) : Prop := status = paused ∨ status = stopped ∨ dir.full ≠ 0 ∨ dir.speed = 0

instance (status : UInt32) (dir : Direction) : Decidable (Halted status dir) := inferInstanceAs (Decidable (_ ∨ _ ∨ _ ∨ _))

/-- Why nothing is transferred. -/
def reason (status : UInt32) (dir : Direction) : Text :=
  if status = paused then chars "Paused. " else if status = stopped then chars "Stopped. " else if dir.full ≠ 0 then chars dir.fullText else []

/-- The line without the time. -/
def amounts (status : UInt32) (dir : Direction) : Text :=
  if dir.files = 0 then chars dir.doneText
  else if Halted status dir then reason status dir ++ remainingText dir
  else bytesText dir.speed.toNat ++ chars "/sec, " ++ remainingText dir

/-- A line is as it should be: it fits with its terminator, its digits are digits, and a time that it shows is that of the
bytes that it shows. -/
structure Formatted (status : UInt32) (dir : Direction) (line : Text) : Prop where
  fits : line.length < maxStatusStrLen
  digits : ∀ value, .digit value ∈ line → value ≤ 9
  time : line = amounts status dir ∨ line = amounts status dir ++ .char ' ' :: timeText (remaining dir / dir.speed.toNat)

/-- The difference of the counters, by the speed. -/
def remsec (dir : Direction) : ℕ := (dir.total - dir.transferred).toNat / dir.speed.toNat

/-- The line has a time. -/
def ShowsTime (status : UInt32) (dir : Direction) : Prop :=
  dir.files ≠ 0 ∧ ¬Halted status dir ∧ (remsec dir < 2 * 86400 ∨ 4 * 1024 ≤ dir.speed.toNat)

instance (status : UInt32) (dir : Direction) : Decidable (ShowsTime status dir) := inferInstanceAs (Decidable (_ ∧ _ ∧ _))

variable {status : UInt32} {dir : Direction}

theorem subNoUnderf_eq (a b : UInt64) : (subNoUnderf a b).toNat = a.toNat - b.toNat := by
  unfold subNoUnderf
  split
  next less => exact UInt64.toNat_sub_of_le _ _ (UInt64.le_of_lt less)
  next more =>
    rw [UInt64.lt_iff_toNat_lt] at more
    rw [UInt64.toNat_zero]
    omega

theorem fillRemaining_eq (str : Text) :
    fillRemaining str dir.files (subNoUnderf dir.total dir.transferred) = str ++ remainingText dir := by
  unfold fillRemaining
  rw [fillFormattedBytes_eq, catStr_eq, catUint32_eq, catStr_eq, subNoUnderf_eq, remainingText]
  simp only [List.append_assoc]
  rfl

theorem remsec_eq : ((dir.total - dir.transferred) / dir.speed.toUInt64).toNat = remsec dir := by
  rw [UInt64.toNat_div, UInt32.toNat_toUInt64, remsec]

theorem reason_eq : (if status = paused then catStr [] "Paused. " else if status = stopped then catStr [] "Stopped. "
    else if dir.full ≠ 0 then catStr [] dir.fullText else []) = reason status dir := rfl

theorem fillLine_eq : fillLine status dir =
    amounts status dir ++ if ShowsTime status dir then .char ' ' :: timeText (remsec dir % period) else [] := by
  unfold fillLine amounts
  by_cases none : dir.files = 0
  · rw [if_neg (not_not.mpr none), if_pos none, if_neg fun shows => shows.1 none, List.append_nil]
    rfl
  · rw [if_pos none, if_neg none]
    by_cases halted : Halted status dir
    · have stops : status = paused ∨ status = stopped ∨ dir.full ≠ 0 ∨ dir.speed = 0 := halted
      have quiet : ¬ShowsTime status dir := fun shows => shows.2.1 halted
      rw [if_pos stops, if_pos halted, if_neg quiet, List.append_nil]
      dsimp only
      rw [reason_eq, fillRemaining_eq]
    · have runs : ¬(status = paused ∨ status = stopped ∨ dir.full ≠ 0 ∨ dir.speed = 0) := halted
      rw [if_neg runs, if_neg halted]
      dsimp only
      rw [fillFormattedBytes_eq, List.nil_append, UInt32.toNat_toUInt64, catStr_eq, fillRemaining_eq, fillFormattedTime_eq, remsec_eq]
      have shown : ((dir.total - dir.transferred) / dir.speed.toUInt64 < dontShowTimeIfSecOver ∨ dir.speed ≥ dontShowTimeIfSpeedBelow) ↔
          ShowsTime status dir := by
        rw [UInt64.lt_iff_toNat_lt, remsec_eq, ge_iff_le, UInt32.le_iff_toNat_le]
        exact ⟨fun either => ⟨none, halted, either⟩, fun shows => shows.2.2⟩
      by_cases shows : ShowsTime status dir
      · rw [if_pos (shown.mpr shows), if_pos shows, List.append_assoc]
        rfl
      · rw [if_neg fun either => shows (shown.mp either), if_neg shows, List.append_nil]

theorem chars_digit {value : ℕ} {text : String} : .digit value ∉ chars text := by
  intro inside
  obtain ⟨c, _, same⟩ := List.mem_map.mp inside
  cases same

theorem remainingText_digit {value : ℕ} (member : .digit value ∈ remainingText dir) : value ≤ 9 := by
  unfold remainingText at member
  simp only [List.mem_append, chars_digit, or_false, false_or] at member
  exact member.elim number_digit bytesText_digit

theorem amounts_digit {value : ℕ} (member : .digit value ∈ amounts status dir) : value ≤ 9 := by
  unfold amounts reason at member
  split at member
  · exact absurd member chars_digit
  · split at member
    · rw [List.mem_append] at member
      obtain why | left := member
      · split at why
        · exact absurd why chars_digit
        · split at why
          · exact absurd why chars_digit
          · split at why
            · exact absurd why chars_digit
            · cases why
      · exact remainingText_digit left
    · simp only [List.mem_append, chars_digit, or_false] at member
      exact member.elim bytesText_digit remainingText_digit

theorem length_remainingText : (remainingText dir).length = 19 + width dir.files.toNat + bytesWidth (remaining dir) := by
  unfold remainingText
  simp only [List.length_append, length_number, length_bytesText]
  change 11 + width dir.files.toNat + 8 + _ = _
  omega

theorem remaining_toNat : remaining dir = (subNoUnderf dir.total dir.transferred).toNat := (subNoUnderf_eq _ _).symm

theorem remainingText_short : (remainingText dir).length ≤ 39 := by
  have files : width dir.files.toNat ≤ 10 := @width_le _ 9 (dir.files.toNat_lt.trans (by decide))
  have bytes := bytesWidth_le (subNoUnderf dir.total dir.transferred)
  rw [← remaining_toNat] at bytes
  rw [length_remainingText]
  omega

/-- The texts of a direction are short. -/
structure Short (dir : Direction) : Prop where
  full : (chars dir.fullText).length ≤ 14
  done : (chars dir.doneText).length ≤ 21

theorem amounts_short (short : Short dir) : (amounts status dir).length ≤ 55 := by
  have left := @remainingText_short dir
  unfold amounts
  split
  · exact short.done.trans (by decide)
  · split
    · have why : (reason status dir).length ≤ 14 := by
        unfold reason
        split
        · decide
        · split
          · decide
          · split
            · exact short.full
            · decide
      rw [List.length_append]
      omega
    · have speed := bytesWidth_le dir.speed.toUInt64
      rw [UInt32.toNat_toUInt64] at speed
      rw [List.length_append, List.length_append, length_bytesText]
      change _ + 6 + _ ≤ 55
      omega

/-- The counters for which a line with a time is as it should be. Either no more is transferred than announced, and the days
fit in 32 bits, or the difference that wraps around has the shortest time. With days the numbers must not be too long. -/
structure Fits (dir : Direction) : Prop where
  known : dir.transferred ≤ dir.total → remsec dir < period
  wrapped : dir.total < dir.transferred → remsec dir % period ≤ 1
  short : days (remsec dir % period) ≠ 0 →
    bytesWidth dir.speed.toNat + width dir.files.toNat + bytesWidth (remaining dir) + width (days (remsec dir % period)) +
      width (rounded (hours (remsec dir)) (minutes (remsec dir))) < 35

theorem amounts_running (shows : ShowsTime status dir) :
    amounts status dir = bytesText dir.speed.toNat ++ chars "/sec, " ++ remainingText dir := by
  rw [amounts, if_neg shows.1, if_neg shows.2.1]

theorem length_amounts (shows : ShowsTime status dir) :
    (amounts status dir).length = 25 + bytesWidth dir.speed.toNat + width dir.files.toNat + bytesWidth (remaining dir) := by
  rw [amounts_running shows, List.length_append, List.length_append, length_bytesText, length_remainingText]
  change _ + 6 + _ = _
  omega

/-- The time that belongs to the bytes that are shown. -/
theorem time_known (known : dir.transferred ≤ dir.total) : remaining dir / dir.speed.toNat = remsec dir := by
  rw [remaining, remsec, UInt64.toNat_sub_of_le _ _ known]

theorem time_wrapped (wrapped : dir.total < dir.transferred) : remaining dir / dir.speed.toNat = 0 := by
  rw [UInt64.lt_iff_toNat_lt] at wrapped
  rw [remaining, Nat.sub_eq_zero_of_le wrapped.le, Nat.zero_div]

/-- The right time is shown. -/
theorem time_iff : timeText (remsec dir % period) = timeText (remaining dir / dir.speed.toNat) ↔
    (dir.transferred ≤ dir.total → remsec dir < period) ∧ (dir.total < dir.transferred → remsec dir % period ≤ 1) := by
  by_cases known : dir.transferred ≤ dir.total
  · rw [time_known known, timeText_mod]
    exact ⟨fun short => ⟨fun _ => short, fun wrapped => absurd known (UInt64.not_le.mpr wrapped)⟩, fun both => both.1 known⟩
  · have wrapped : dir.total < dir.transferred := UInt64.not_le.mp known
    rw [time_wrapped wrapped, timeText_zero]
    exact ⟨fun short => ⟨fun yes => absurd yes known, fun _ => short⟩, fun both => both.2 wrapped⟩

/-- The line with the time fits. -/
theorem length_iff (shows : ShowsTime status dir) (short : Short dir) :
    (amounts status dir ++ .char ' ' :: timeText (remsec dir % period)).length < maxStatusStrLen ↔
      (days (remsec dir % period) ≠ 0 →
        bytesWidth dir.speed.toNat + width dir.files.toNat + bytesWidth (remaining dir) + width (days (remsec dir % period)) +
          width (rounded (hours (remsec dir)) (minutes (remsec dir))) < 35) := by
  rw [List.length_append, List.length_cons, maxStatusStrLen]
  by_cases long : days (remsec dir % period) = 0
  · have time := length_short long
    have front := @amounts_short status dir short
    exact ⟨fun _ more => absurd long more, fun _ => by omega⟩
  · rw [length_amounts shows, length_days long, hours_mod, minutes_mod]
    exact ⟨fun fits _ => by omega, fun fits => by have := fits long; omega⟩

/-- What is written in front of the time is always as it should be. -/
theorem formatted_amounts (short : Short dir) : Formatted status dir (amounts status dir) where
  fits := (amounts_short short).trans_lt (by decide)
  digits _ := amounts_digit
  time := Or.inl rfl

theorem formatted_line (short : Short dir) : Formatted status dir (fillLine status dir) ↔ (ShowsTime status dir → Fits dir) := by
  rw [fillLine_eq]
  by_cases shows : ShowsTime status dir
  · rw [if_pos shows]
    constructor
    · intro formatted _
      have same : timeText (remsec dir % period) = timeText (remaining dir / dir.speed.toNat) := by
        obtain none | time := formatted.time
        · have lengths := congrArg List.length none
          rw [List.length_append, List.length_cons] at lengths
          omega
        · exact (List.cons.inj (List.append_cancel_left time)).2
      obtain ⟨known, wrapped⟩ := time_iff.mp same
      exact ⟨known, wrapped, (length_iff shows short).mp formatted.fits⟩
    · intro fits
      have good := fits shows
      refine ⟨(length_iff shows short).mpr good.short, fun value member => ?_, Or.inr ?_⟩
      · rw [List.mem_append, List.mem_cons] at member
        obtain front | space | time := member
        · exact amounts_digit front
        · cases space
        · exact timeText_digit time
      · rw [time_iff.mpr ⟨good.known, good.wrapped⟩]
  · rw [if_neg shows, List.append_nil]
    exact ⟨fun _ yes => absurd yes shows, fun _ => formatted_amounts short⟩

end Line

section Status

theorem download_short (status : Pstatus) : Short status.download :=
  ⟨(by decide : (chars "Disk full. ").length ≤ 14), (by decide : (chars "Everything Downloaded").length ≤ 21)⟩

theorem upload_short (status : Pstatus) : Short status.upload :=
  ⟨(by decide : (chars "Account full. ").length ≤ 14), (by decide : (chars "Everything Uploaded").length ≤ 21)⟩

/-- Both lines are as they should be exactly if the counters of each line that has a time fit. -/
theorem formatted_iff (status : Pstatus) :
    (Formatted status.status status.download (statusFillFormattedStr status).1 ∧
      Formatted status.status status.upload (statusFillFormattedStr status).2) ↔
    (ShowsTime status.status status.download → Fits status.download) ∧ (ShowsTime status.status status.upload → Fits status.upload) :=
  and_congr (formatted_line (download_short status)) (formatted_line (upload_short status))

/-- One byte more than announced is downloaded. -/
def beyond : Pstatus where
  bytestoupload := 0
  bytesuploaded := 0
  bytestodownload := 0
  bytesdownloaded := 1
  status := 1
  filestoupload := 0
  uploadspeed := 0
  filestodownload := 1
  downloadspeed := 4096
  remoteisfull := 0
  localisfull := 0

theorem unformatted : ¬∀ status : Pstatus, Formatted status.status status.download (statusFillFormattedStr status).1 ∧
    Formatted status.status status.upload (statusFillFormattedStr status).2 := by
  intro all
  have fits := (formatted_line (download_short beyond)).mp (all beyond).1 ⟨by decide, by decide, Or.inr (by decide)⟩
  exact absurd (fits.wrapped (by decide)) (by decide)

end Status

end Pclsync.Proofs.StatusLine
