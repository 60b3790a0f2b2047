import Pclsync.Fs.WriteSpace

/-! When a write that finds little space is slowed down as it is meant to be. -/

namespace Pclsync.Proofs.WriteSpace
open Fs.WriteSpace

section Throttle

variable {views : Views} {speed : ℕ}

/-- What a writer adds keeps below the speed in each second. -/
structure Paced (speed start : ℕ) (additions : List Addition) : Prop where
  below : ∀ addition ∈ additions, addition.writtenthissec ≤ speed ∧ addition.bytes ≤ speed
  later : ∀ addition ∈ additions, start ≤ addition.second
  apart : additions.Pairwise fun one two => one.second < two.second

theorem Paced.weaken {start before : ℕ} {additions : List Addition} (paced : Paced speed start additions) (earlier : before ≤ start) :
    Paced speed before additions :=
  ⟨paced.below, fun addition inside => le_trans earlier (paced.later addition inside), paced.apart⟩

/-- A pass adds at most what is left of the second, and does not stop the program. -/
theorem throttlePass_paced (shared : Shared) (currsec : ℕ) {size : ℕ} (fits : size + speed ≤ u64) :
    match (throttlePass shared currsec size speed).2 with
    | .wait rest => rest = size
    | .goOn rest addition => rest ≤ size ∧ addition.second = currsec ∧ addition.writtenthissec ≤ speed ∧ addition.bytes ≤ speed
    | .finish addition => addition.second = currsec ∧ addition.writtenthissec ≤ speed ∧ addition.bytes ≤ speed
    | .abort => False := by
  unfold throttlePass
  dsimp only
  generalize (if currsec ≠ shared.thissec then (⟨0, currsec⟩ : Shared) else shared) = found
  by_cases free : found.writtenthissec < speed
  · rw [if_pos free]
    have exact : (found.writtenthissec + size) % u64 = found.writtenthissec + size := Nat.mod_eq_of_lt (by omega)
    rw [exact]
    by_cases more : found.writtenthissec + size > speed
    · rw [if_pos more]
      refine ⟨by omega, rfl, le_rfl, ?_⟩
      dsimp only
      omega
    · have small : size ≤ speed := by omega
      rw [if_neg more]
      simp only [small, ite_true]
      exact ⟨trivial, by omega, trivial⟩
  · rw [if_neg free]

theorem throttleLoop_paced (left cnt size : ℕ) (fits : size + speed ≤ u64) :
    ∃ additions, throttleLoop views speed left cnt size = some additions ∧ Paced speed (views.clock cnt) additions ∧
      additions.length ≤ left := by
  induction left generalizing cnt size with
  | zero => exact ⟨[], rfl, ⟨fun _ none => absurd none List.not_mem_nil, fun _ none => absurd none List.not_mem_nil, .nil⟩, le_rfl⟩
  | succ left ih =>
    have pass := throttlePass_paced (views.shared cnt) (views.clock cnt) fits
    have ahead : views.clock cnt < views.clock (cnt + 1) := views.ahead (Nat.lt_succ_self cnt)
    unfold throttleLoop
    cases found : (throttlePass (views.shared cnt) (views.clock cnt) size speed).2 with
    | wait rest =>
      rw [found] at pass
      obtain ⟨additions, looped, paced, few⟩ := ih (cnt + 1) rest (by omega)
      exact ⟨additions, looped, paced.weaken ahead.le, by omega⟩
    | goOn rest addition =>
      rw [found] at pass
      obtain ⟨less, second, written, bytes⟩ := pass
      obtain ⟨additions, looped, paced, few⟩ := ih (cnt + 1) rest (by omega)
      refine ⟨addition :: additions, by dsimp only; rw [looped]; rfl, ?_, ?_⟩
      · refine ⟨List.forall_mem_cons.mpr ⟨⟨written, bytes⟩, paced.below⟩, List.forall_mem_cons.mpr ⟨second.ge, (paced.weaken ahead.le).later⟩,
          List.pairwise_cons.mpr ⟨fun other inside => ?_, paced.apart⟩⟩
        rw [second]
        exact lt_of_lt_of_le ahead (paced.later other inside)
      · rw [List.length_cons]
        omega
    | finish addition =>
      rw [found] at pass
      obtain ⟨second, written, bytes⟩ := pass
      refine ⟨[addition], rfl, ⟨List.forall_mem_singleton.mpr ⟨written, bytes⟩, List.forall_mem_singleton.mpr second.ge, List.pairwise_singleton _ _⟩, ?_⟩
      rw [List.length_singleton]
      omega
    | abort =>
      rw [found] at pass
      exact pass.elim

/-- The writer comes to an end without a failed assertion, and in no second it adds more than the speed. -/
def Throttles (size speed : ℕ) : Prop :=
  ∀ views : Views, ∃ additions, psyncFsThrottle views size speed = some additions ∧ additions.length ≤ maxShaperSleepSec ∧
    (∀ addition ∈ additions, addition.writtenthissec ≤ speed ∧ addition.bytes ≤ speed) ∧
    additions.Pairwise fun one two => one.second < two.second

theorem throttles {size : ℕ} (positive : 0 < speed) (fits : size + speed ≤ u64) : Throttles size speed := by
  intro views
  obtain ⟨additions, looped, paced, few⟩ := @throttleLoop_paced views speed maxShaperSleepSec 0 size fits
  refine ⟨additions, ?_, few, paced.below, paced.apart⟩
  unfold psyncFsThrottle
  rw [if_pos positive]
  exact looped

end Throttle

/-- A write that finds less than the minimum and its own size. -/
structure Input where
  freespc : ℕ
  minlocal : ℕ
  size : ℕ
  uploadspeed : ℕ
  pages : ℕ × ℕ
  throttle : Bool
  freespc_lt : freespc < 2 ^ 63
  minlocal_lt : minlocal < u64
  size_lt : size < u64
  uploadspeed_lt : uploadspeed < 2 ^ 32
  little : freespc < minlocal + size

variable (input : Input)

namespace Input

def result : Except Fault Return :=
  doCheckWriteSpace (some input.freespc) input.minlocal input.size input.uploadspeed input.pages input.throttle

/-- The first test on little space. -/
def low : Prop := input.freespc ≤ input.minlocal / 2 ∨ input.minlocal ≤ pageSize ∨ input.freespc ≤ input.size

/-- The read cache does not have twice the size. -/
def refused : Prop := ppagecacheFreeRead input.pages.1 (input.size * 2 % u64) < input.size * 2 % u64

/-- The read cache has the size when it is asked, or had it before. -/
def freed : Prop :=
  input.low ∨ (input.freespc ≤ input.minlocal / 4 * 3 ∧ ppagecacheFreeRead input.pages.1 input.size ≥ input.size) ∨
    ppagecacheFreeRead input.pages.2 input.size ≥ input.size

end Input

/-- The write fails, or the cache made room for it while nothing is uploaded, or it goes on at a speed that was computed in
numbers that fit. The file is locked if the write goes on. -/
def Meets : Prop :=
  ∃ done, input.result = .ok done ∧ (done.locked = true ↔ 0 < done.ret) ∧ done.throttle = true ∧
    (done.ret < 0 ∨ (done.limit = none ∧ input.uploadspeed = 0) ∨
      ∃ mult speed, done.limit = some (mult, speed) ∧ 1 ≤ mult ∧ mult ≤ 1024 ∧ 0 < speed ∧ done.wrapped = false ∧
        Throttles input.size speed)

/-- The free space is below the sum as it is computed, and either the write fails, or nothing is uploaded and the cache has
room, or the numbers fit and the free space is not above the minimum by more than a part of it. -/
def Fits : Prop :=
  input.freespc < (input.minlocal + input.size) % u64 ∧
    ((input.low ∧ input.refused) ∨ (input.uploadspeed = 0 ∧ input.freed) ∨
      (input.minlocal + input.size < u64 ∧ input.uploadspeed * 3 < 2 ^ 32 ∧
        ((input.low ∧ input.size * 2 < u64 ∧ 2 ≤ input.minlocal) ∨
          (¬input.low ∧ (input.freespc - input.minlocal / 2) * 1023 < 1024 * (input.minlocal / 2) ∧
            (input.freespc - input.minlocal / 2) * 1023 < u64))))

/-- The multiplier is small enough if and only if the excess is below what it divides, but for one part. -/
theorem mult_le {excess half : ℕ} (positive : 0 < half) : excess * 1023 / half + 1 ≤ 1024 ↔ excess * 1023 < 1024 * half := by
  rw [← Nat.div_lt_iff_lt_mul positive]
  omega

/-- What `shape` leaves if the writer is slowed down and all numbers fit. -/
def Shaped (done : Return) : Prop :=
  ∃ mult speed, done.limit = some (mult, speed) ∧ done.ret = 1 ∧ done.locked = true ∧ done.throttle = true ∧ done.wrapped = false ∧
    1 ≤ mult ∧ mult ≤ 1024 ∧ 0 < speed ∧ speed ≤ 2 ^ 32

/-- The speed keeps within 32 bits. -/
theorem speed_small {uploadspeed mult : ℕ} (least : 1 ≤ mult) (most : mult ≤ 1024) :
    let speed := uploadspeed * 3 % 2 ^ 32 / 2
    let speed := if speed < minInitialWriteShaper then minInitialWriteShaper else speed
    speed * mult < u64 ∧ 0 < speed * mult % u64 / 1024 ∧ speed * mult % u64 / 1024 ≤ 2 ^ 32 := by
  intro raw speed
  have rawSmall : raw < 2 ^ 31 := by omega
  have initial : minInitialWriteShaper = 204800 := rfl
  have speedLeast : 204800 ≤ speed := by
    change 204800 ≤ if raw < minInitialWriteShaper then minInitialWriteShaper else raw
    split <;> omega
  have speedMost : speed < 2 ^ 31 := by
    change (if raw < minInitialWriteShaper then minInitialWriteShaper else raw) < 2 ^ 31
    split <;> omega
  have atLeast : 204800 * 1 ≤ speed * mult := Nat.mul_le_mul speedLeast least
  have atMost : speed * mult ≤ 2 ^ 31 * 1024 := Nat.mul_le_mul speedMost.le most
  have fits : speed * mult < u64 := by
    have : u64 = 2 ^ 64 := rfl
    omega
  rw [Nat.mod_eq_of_lt fits]
  omega

/-- When something is uploaded or the cache has no room, the multiplier and the speed are in their bounds if the program goes on. -/
theorem shape_ok {freespc minlocal size uploadspeed pages : ℕ} {freed wrapped : Bool} {done : Return}
    (busy : ¬(uploadspeed = 0 ∧ (freed = true ∨ ppagecacheFreeRead pages size ≥ size)))
    (ok : shape freespc minlocal size uploadspeed freed pages wrapped = .ok done) (exactly : done.wrapped = false) : Shaped done := by
  unfold shape at ok
  rw [if_neg busy] at ok
  dsimp only at ok
  split at ok
  · cases ok
  · split at ok
    · cases ok
    · rename_i between
      injection ok with ok
      subst ok
      obtain ⟨least, most⟩ := not_not.mp between
      obtain ⟨_, positive, small⟩ := @speed_small uploadspeed _ least most
      exact ⟨_, _, rfl, rfl, rfl, rfl, exactly, least, most, positive, small⟩

/-- The end of the check, when something is uploaded or the cache has no room. -/
theorem shape_spec {freespc minlocal size uploadspeed pages : ℕ} {freed wrapped : Bool} (above : minlocal / 2 ≤ freespc)
    (freespcSmall : freespc < u64) (busy : ¬(uploadspeed = 0 ∧ (freed = true ∨ ppagecacheFreeRead pages size ≥ size))) :
    (∃ done, shape freespc minlocal size uploadspeed freed pages wrapped = .ok done ∧ Shaped done) ↔
      wrapped = false ∧ uploadspeed * 3 < 2 ^ 32 ∧ (freespc - minlocal / 2) * 1023 < 1024 * (minlocal / 2) ∧
        (freespc - minlocal / 2) * 1023 < u64 := by
  unfold shape
  rw [if_neg busy]
  dsimp only
  by_cases none : minlocal / 2 = 0
  · rw [if_pos none]
    constructor
    · rintro ⟨done, equal, _⟩
      cases equal
    · rintro ⟨_, _, below, _⟩
      rw [none] at below
      omega
  · have positive : 0 < minlocal / 2 := Nat.pos_of_ne_zero none
    have exact : (freespc + (u64 - minlocal / 2)) % u64 = freespc - minlocal / 2 := by
      have : freespc + (u64 - minlocal / 2) = freespc - minlocal / 2 + u64 := by omega
      rw [this, Nat.add_mod_right]
      exact Nat.mod_eq_of_lt (by omega)
    rw [if_neg none, exact]
    generalize freespc - minlocal / 2 = excess
    have small : excess * 1023 / (minlocal / 2) + 1 ≤ 1024 ↔ excess * 1023 < 1024 * (minlocal / 2) := mult_le positive
    have divided : excess * 1023 / (minlocal / 2) ≤ excess * 1023 := Nat.div_le_self _ _
    have sixtyFour : u64 = 2 ^ 64 := rfl
    have notBelow : ¬freespc < minlocal / 2 := not_lt.mpr above
    constructor
    · rintro ⟨done, equal, mult, speed, _, _, _, _, exactly, _⟩
      split at equal
      · cases equal
      · rename_i between
        injection equal with equal
        subst equal
        simp only [notBelow, Bool.or_eq_false_iff, decide_eq_false_iff_not] at exactly
        obtain ⟨⟨⟨⟨unwrapped, _⟩, fits⟩, upload⟩, _⟩ := exactly
        rw [not_not, Nat.mod_eq_of_lt (not_le.mp fits)] at between
        refine ⟨unwrapped, not_le.mp upload, small.mp ?_, not_le.mp fits⟩
        generalize excess * 1023 / (minlocal / 2) = quotient at between divided
        have inside : quotient < u64 := lt_of_le_of_lt divided (not_le.mp fits)
        rw [sixtyFour] at between inside
        omega
    · rintro ⟨unwrapped, upload, below, fits⟩
      have most : excess * 1023 / (minlocal / 2) + 1 ≤ 1024 := small.mpr below
      have whole : (excess * 1023 % u64 / (minlocal / 2) + 1) % u64 = excess * 1023 / (minlocal / 2) + 1 := by
        rw [Nat.mod_eq_of_lt fits]
        exact Nat.mod_eq_of_lt (by omega)
      obtain ⟨fitsToo, positiveToo, smallToo⟩ := @speed_small uploadspeed _ (Nat.le_add_left 1 (excess * 1023 / (minlocal / 2))) most
      rw [whole, if_neg (not_not.mpr ⟨Nat.le_add_left 1 _, most⟩)]
      refine ⟨_, rfl, _, _, rfl, rfl, rfl, rfl, ?_, Nat.le_add_left 1 _, most, positiveToo, smallToo⟩
      simp only [unwrapped, notBelow, Bool.or_eq_false_iff, decide_eq_false_iff_not, not_le]
      exact ⟨⟨⟨⟨trivial, not_false⟩, fits⟩, upload⟩, fitsToo⟩

theorem shape_limit {freespc minlocal size uploadspeed pages : ℕ} {freed wrapped : Bool} {done : Return}
    (busy : ¬(uploadspeed = 0 ∧ (freed = true ∨ ppagecacheFreeRead pages size ≥ size)))
    (ok : shape freespc minlocal size uploadspeed freed pages wrapped = .ok done) : done.limit ≠ none ∧ done.ret = 1 := by
  unfold shape at ok
  rw [if_neg busy] at ok
  dsimp only at ok
  split at ok
  · cases ok
  · split at ok
    · cases ok
    · injection ok with ok
      subst ok
      exact ⟨Option.some_ne_none _, rfl⟩

variable {input : Input}

/-- What the check does once the read cache was asked and had room, or was not asked. -/
theorem meets_of_shape {freespc minlocal size uploadspeed pages : ℕ} {freed wrapped : Bool}
    (result : input.result = shape freespc minlocal size uploadspeed freed pages wrapped) (same : uploadspeed = input.uploadspeed)
    (above : minlocal / 2 ≤ freespc) (freespcSmall : freespc < u64) (sizeSmall : wrapped = false → input.size < 2 ^ 63) :
    Meets input ↔ (uploadspeed = 0 ∧ (freed = true ∨ ppagecacheFreeRead pages size ≥ size)) ∨
      (wrapped = false ∧ uploadspeed * 3 < 2 ^ 32 ∧ (freespc - minlocal / 2) * 1023 < 1024 * (minlocal / 2) ∧
        (freespc - minlocal / 2) * 1023 < u64) := by
  by_cases idle : uploadspeed = 0 ∧ (freed = true ∨ ppagecacheFreeRead pages size ≥ size)
  · have done : shape freespc minlocal size uploadspeed freed pages wrapped = .ok ⟨1, true, true, some true, none, wrapped⟩ := by
      unfold shape
      rw [if_pos idle]
    refine iff_of_true ⟨_, result.trans done, ?_, rfl, Or.inr (Or.inl ⟨rfl, same.symm.trans idle.1⟩)⟩ (Or.inl idle)
    simp
  · rw [or_iff_right idle, ← shape_spec above freespcSmall idle]
    constructor
    · rintro ⟨done, equal, _, _, outcome⟩
      rw [result] at equal
      refine ⟨done, equal, ?_⟩
      obtain ⟨limited, returned⟩ := shape_limit idle equal
      obtain negative | ⟨unlimited, _⟩ | ⟨_, _, _, _, _, _, exactly, _⟩ := outcome
      · omega
      · exact absurd unlimited limited
      · exact shape_ok idle equal exactly
    · rintro ⟨done, equal, shaped⟩
      have exact : wrapped = false := ((shape_spec above freespcSmall idle).mp ⟨done, equal, shaped⟩).1
      obtain ⟨mult, speed, limit, ret, locked, throttle, unwrapped, least, most, positive, small⟩ := shaped
      have loops : Throttles input.size speed := by
        have := sizeSmall exact
        have sixtyFour : u64 = 2 ^ 64 := rfl
        exact throttles positive (by omega)
      refine ⟨done, result.trans equal, ?_, throttle, Or.inr (Or.inr ⟨mult, speed, limit, least, most, positive, unwrapped, loops⟩)⟩
      rw [locked, ret]
      simp

/-- For every free space, minimum, size and upload speed, a write that finds too little space fails, goes on as the cache made
room, or is slowed down in numbers that fit, if and only if the condition holds. -/
theorem throttled_iff (input : Input) : Meets input ↔ Fits input := by
  have freespcSmall := input.freespc_lt
  have minlocalSmall := input.minlocal_lt
  have sizeSmall := input.size_lt
  have uploadSmall := input.uploadspeed_lt
  have sixtyFour : u64 = 2 ^ 64 := rfl
  unfold Fits
  by_cases enough : (input.minlocal + input.size) % u64 ≤ input.freespc
  · refine iff_of_false ?_ fun fits => absurd fits.1 (not_lt.mpr enough)
    rintro ⟨done, equal, _, throttle, _⟩
    have ok : input.result = .ok ⟨1, true, false, some false, none, decide (u64 ≤ input.minlocal + input.size)⟩ := by
      unfold Input.result doCheckWriteSpace
      dsimp only
      rw [if_pos enough]
    rw [ok] at equal
    injection equal with equal
    subst equal
    cases throttle
  · rw [and_iff_right (not_le.mp enough)]
    by_cases low : input.low
    · by_cases refused : input.refused
      · have ok : input.result = .ok ⟨-4, false, true, some true, none, decide (u64 ≤ input.minlocal + input.size)⟩ := by
          unfold Input.result doCheckWriteSpace
          dsimp only
          rw [if_neg enough]
          exact (if_pos low).trans (if_pos refused)
        refine iff_of_true ⟨_, ok, ?_, rfl, Or.inl ?_⟩ (Or.inl ⟨low, refused⟩) <;> dsimp only <;> decide
      · have shaped : input.result = shape (input.minlocal / 2 + 1) input.minlocal input.size input.uploadspeed true input.pages.2
            (decide (u64 ≤ input.minlocal + input.size) || decide (u64 ≤ input.size * 2)) := by
          unfold Input.result doCheckWriteSpace
          dsimp only
          rw [if_neg enough]
          exact (if_pos low).trans (if_neg refused)
        rw [meets_of_shape shaped rfl (by omega) (by omega) ?_]
        · have one : input.minlocal / 2 + 1 - input.minlocal / 2 = 1 := Nat.add_sub_cancel_left _ _
          have half : 1 * 1023 < 1024 * (input.minlocal / 2) ↔ 2 ≤ input.minlocal := by omega
          have small : 1 * 1023 < u64 := by decide
          have freed : input.freed := Or.inl low
          simp only [one, half, small, low, refused, freed, Bool.or_eq_false_iff, decide_eq_false_iff_not, not_le, true_or, and_true, true_and,
            false_or, not_true, false_and, or_false, and_false]
          refine or_congr Iff.rfl ⟨fun fits => ?_, fun fits => ?_⟩
          · exact ⟨fits.1.1, fits.2.1, fits.1.2, fits.2.2⟩
          · exact ⟨⟨fits.1, fits.2.2.1⟩, fits.2.1, fits.2.2.2⟩
        · intro wrapped
          simp only [Bool.or_eq_false_iff, decide_eq_false_iff_not, not_le] at wrapped
          omega
    · have shaped : input.result = shape input.freespc input.minlocal input.size input.uploadspeed
          (if input.freespc ≤ input.minlocal / 4 * 3 then decide (ppagecacheFreeRead input.pages.1 input.size ≥ input.size) else false)
          input.pages.2 (decide (u64 ≤ input.minlocal + input.size)) := by
        unfold Input.result doCheckWriteSpace
        dsimp only
        rw [if_neg enough]
        exact if_neg low
      have high : input.minlocal / 2 < input.freespc ∧ input.size < input.freespc := by
        unfold Input.low at low
        omega
      rw [meets_of_shape shaped rfl high.1.le (by omega) ?_]
      · have freed : ((if input.freespc ≤ input.minlocal / 4 * 3 then decide (ppagecacheFreeRead input.pages.1 input.size ≥ input.size) else false) = true ∨
            ppagecacheFreeRead input.pages.2 input.size ≥ input.size) ↔ input.freed := by
          unfold Input.freed
          rw [or_iff_right low]
          refine or_congr ?_ Iff.rfl
          split <;> simp [*]
        simp only [freed, low, decide_eq_false_iff_not, not_le, false_and, false_or, not_false_eq_true, true_and]
      · exact fun _ => by omega

/-- Nothing is the least that must stay free, and there are pages to give: an upload leads to a division by half of nothing. -/
theorem divides_by_zero :
    ¬∀ input : Input, Meets input := by
  intro all
  obtain ⟨done, equal, _⟩ := all ⟨100, 0, 4096, 1000, (4, 4), false, by decide, by decide, by decide, by decide, by decide⟩
  have fails : doCheckWriteSpace (some 100) 0 4096 1000 (4, 4) false = .error .division := by decide
  rw [show doCheckWriteSpace (some 100) 0 4096 1000 (4, 4) false = .ok done from equal] at fails
  cases fails

end Pclsync.Proofs.WriteSpace
