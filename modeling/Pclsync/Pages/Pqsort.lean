import Pclsync.Library.Rearrange

/-! Partial selection and partial sorting of the entries of the page cache.
Pointers are counted in elements from the base of the array; a read before its
start or past its end has no result. -/

namespace Pclsync.Pages.Pqsort
open Library

/-- `QSORT_TRESH` -/
abbrev qsortTresh : ℕ := 8

/-- `QSORT_MTR` -/
abbrev qsortMtr : ℕ := 64

/-- `QSORT_REC_M` -/
abbrev qsortRecM : ℕ := 16 * 1024

/-- The static words of `pq_rnd`. -/
structure PqState where
  a : UInt32
  b : UInt32
  c : UInt32
  d : UInt32
deriving DecidableEq, Repr

def PqState.start : PqState := ⟨0x95ae3d25, 0xe225d755, 0xc63a2ae7, 0xe4556265⟩

def rot (x k : UInt32) : UInt32 := (x <<< k) ||| (x >>> (32 - k))

/-- `pq_rnd`; the number it returns is the new `d`. -/
def pqRnd (state : PqState) : PqState :=
  let e := state.a - rot state.b 27
  let a := state.b ^^^ rot state.c 17
  let b := state.c + state.d
  let c := state.d + e
  ⟨a, b, c, e + a⟩

section
variable {α : Type} (compar : α → α → ℤ)

/-- `med5` -/
def med5 (items : ℕ → α) (a b c d e : ℕ) : ℕ :=
  let (a, b) := if compar (items b) (items a) < 0 then (b, a) else (a, b)
  let (c, d) := if compar (items d) (items c) < 0 then (d, c) else (c, d)
  let (a, b, c, d) :=
    if compar (items a) (items c) < 0 then
      if compar (items b) (items e) < 0 then (b, e, c, d) else (e, b, c, d)
    else if compar (items d) (items e) < 0 then (a, b, d, e) else (a, b, e, d)
  let (a, c) := if compar (items a) (items c) < 0 then (b, c) else (a, d)
  if compar (items a) (items c) < 0 then a else c

/-- `pq_choose_part`; the arguments of `med5` are evaluated from left to right. -/
def pqChoosePart (items : ℕ → α) (base cnt : ℕ) (state : PqState) : ℕ × PqState :=
  if qsortRecM ≤ cnt then
    let (a, state) := pqChoosePart items base (cnt / 5) state
    let (b, state) := pqChoosePart items (base + cnt / 5) (cnt / 5) state
    let (c, state) := pqChoosePart items (base + cnt / 5 * 2) (cnt / 5) state
    let (d, state) := pqChoosePart items (base + cnt / 5 * 3) (cnt / 5) state
    let (e, state) := pqChoosePart items (base + cnt / 5 * 4) (cnt / 5) state
    (med5 compar items a b c d e, state)
  else
    let first := pqRnd state
    let second := pqRnd first
    let third := pqRnd second
    let fourth := pqRnd third
    let fifth := pqRnd fourth
    (med5 compar items (base + first.d.toNat % cnt) (base + second.d.toNat % cnt) (base + third.d.toNat % cnt)
      (base + fourth.d.toNat % cnt) (base + fifth.d.toNat % cnt), fifth)
termination_by cnt
decreasing_by all_goals
  simp only [qsortRecM] at *
  omega

/-- The three exchanges that put `lo`, `mid` and `hi` in order. -/
def sort3 (items : ℕ → α) (lo mid hi : ℕ) : ℕ → α :=
  let items := if compar (items mid) (items lo) < 0 then exchange items mid lo else items
  if compar (items hi) (items mid) < 0 then
    let items := exchange items mid hi
    if compar (items mid) (items lo) < 0 then exchange items mid lo else items
  else items

/-- What the exchange loop of a round starts from. Here `l` is the next element
it looks at, one further on than in the source. -/
structure Start (α : Type) where
  items : ℕ → α
  mid : ℕ
  l : ℕ
  r : ℕ
  state : PqState

/-- The choice of the pivot, the same in both functions. -/
def choosePivot (items : ℕ → α) (lo hi : ℕ) (state : PqState) : Start α :=
  let n := hi - lo
  if n ≤ qsortMtr then
    let mid := lo + n / 2
    { items := sort3 compar items lo mid hi, mid, l := lo + 1, r := hi, state }
  else
    let (mid, state) := pqChoosePart compar items lo n state
    { items, mid, l := lo, r := hi + 1, state }

/-- `do l += size; while (compar(l, mid) < 0)` -/
def scanUp (items : ℕ → α) (cnt mid l : ℕ) : Option ℕ :=
  if l < cnt then
    if compar (items l) (items mid) < 0 then scanUp items cnt mid (l + 1) else some l
  else none
termination_by cnt - l

/-- `do r -= size; while (compar(mid, r) < 0)` -/
def scanDown (items : ℕ → α) (mid : ℕ) : ℕ → Option ℕ
  | 0 => none
  | r + 1 => if compar (items mid) (items r) < 0 then scanDown items mid r else some r

variable {compar} in
theorem scanUp_ge {items : ℕ → α} {cnt mid l found : ℕ} (up : scanUp compar items cnt mid l = some found) :
    l ≤ found := by
  fun_induction scanUp compar items cnt mid l with
  | case1 l _ _ ih => exact (Nat.le_succ l).trans (ih up)
  | case2 l _ _ => exact (Option.some.inj up).le
  | case3 => contradiction

variable {compar} in
theorem scanDown_lt {items : ℕ → α} {mid r found : ℕ} (down : scanDown compar items mid r = some found) : found < r := by
  induction r with
  | zero => contradiction
  | succ r ih =>
    rw [scanDown] at down
    split at down
    · exact (ih down).trans (Nat.lt_succ_self r)
    · rw [← Option.some.inj down]
      exact Nat.lt_succ_self r

/-- The exchange loop of a round: the array and where the pivot ends up. -/
def exchangeLoop (items : ℕ → α) (cnt mid l r : ℕ) : Option ((ℕ → α) × ℕ) :=
  match up : scanUp compar items cnt mid l, down : scanDown compar items mid r with
  | some left, some right =>
    if right ≤ left then some (items, mid)
    else if mid = left then exchangeLoop (exchange items left right) cnt right (left + 1) (right + 1)
    else if mid = right then exchangeLoop (exchange items left right) cnt left left right
    else exchangeLoop (exchange items left right) cnt mid (left + 1) right
  | _, _ => none
termination_by r - l
decreasing_by all_goals
  have := scanUp_ge up
  have := scanDown_lt down
  omega

section
variable {compar} {items : ℕ → α} {cnt mid l r : ℕ}

theorem exchangeLoop_stuck (stuck : scanUp compar items cnt mid l = none ∨ scanDown compar items mid r = none) :
    exchangeLoop compar items cnt mid l r = none := by
  rw [exchangeLoop]
  split
  · rename_i left right up down
    rcases stuck with none | none
    · rw [none] at up
      cases up
    · rw [none] at down
      cases down
  · rfl

theorem exchangeLoop_found {left right : ℕ} (up : scanUp compar items cnt mid l = some left)
    (down : scanDown compar items mid r = some right) :
    exchangeLoop compar items cnt mid l r =
      if right ≤ left then some (items, mid)
      else if mid = left then exchangeLoop compar (exchange items left right) cnt right (left + 1) (right + 1)
      else if mid = right then exchangeLoop compar (exchange items left right) cnt left left right
      else exchangeLoop compar (exchange items left right) cnt mid (left + 1) right := by
  rw [exchangeLoop]
  split
  case h_2 absent => exact absurd down (absent left right up)
  case h_1 first second up' down' =>
  obtain rfl : left = first := Option.some.inj (up.symm.trans up')
  obtain rfl : right = second := Option.some.inj (down.symm.trans down')
  rfl

end

/-- What a round of `psync_qpartition` starts with. -/
structure Segment (α : Type) where
  items : ℕ → α
  lo : ℕ
  hi : ℕ
  state : PqState

/-- The end of a round: the function returns or goes on with `σ`. -/
inductive Round (α σ : Type) where
  | finished (items : ℕ → α) (state : PqState)
  | again (next : σ)

/-- One round of `psync_qpartition`. With `hi` below `lo` their difference wraps
round and the pivot is looked for outside of the array. -/
def qpartitionRound (cnt sf : ℕ) (segment : Segment α) : Option (Round α (Segment α)) :=
  if segment.hi < segment.lo then none
  else
    let start := choosePivot compar segment.items segment.lo segment.hi segment.state
    if segment.hi - segment.lo ≤ 2 then some (.finished start.items start.state)
    else do
      let (items, mid) ← exchangeLoop compar start.items cnt start.mid start.l start.r
      if mid < sf then some (.again ⟨items, mid + 1, segment.hi, start.state⟩)
      else if sf < mid then some (.again ⟨items, segment.lo, mid - 1, start.state⟩)
      else some (.finished items start.state)

def qpartitionRounds (cnt sf : ℕ) : ℕ → Segment α → Option ((ℕ → α) × PqState)
  | 0, _ => none
  | fuel + 1, segment =>
    match qpartitionRound compar cnt sf segment with
    | none => none
    | some (.finished items state) => some (items, state)
    | some (.again segment) => qpartitionRounds cnt sf fuel segment

/-- `psync_qpartition`, in at most `fuel` rounds. -/
def qpartition (fuel : ℕ) (items : ℕ → α) (cnt sortFirst : ℕ) (state : PqState) : Option ((ℕ → α) × PqState) :=
  if cnt ≤ 1 then some (items, state)
  else qpartitionRounds compar cnt sortFirst fuel ⟨items, 0, cnt - 1, state⟩

/-- What a round of `psync_pqsort` starts with; the stack holds the ranges
between its first, unused element and `top`. -/
structure Pending (α : Type) where
  items : ℕ → α
  lo : ℕ
  hi : ℕ
  stack : List (ℕ × ℕ)
  state : PqState

/-- `sizeof(size_t) * 8`, the elements of the stack. -/
abbrev stackSize : ℕ := 64

/-- `top--`, and the end of the loop when nothing is left. -/
def pop (items : ℕ → α) (state : PqState) : List (ℕ × ℕ) → Round α (Pending α)
  | [] => .finished items state
  | (lo, hi) :: stack => .again ⟨items, lo, hi, stack, state⟩

/-- One round of the quicksort of `psync_pqsort`; a push above the end of the
stack has no result. -/
def pqsortRound (cnt sf : ℕ) (pending : Pending α) : Option (Round α (Pending α)) := do
  let lo := pending.lo
  let hi := pending.hi
  let start := choosePivot compar pending.items lo hi pending.state
  let (items, mid) ← exchangeLoop compar start.items cnt start.mid start.l start.r
  if hi - mid ≤ qsortTresh ∨ sf ≤ mid then
    if mid - lo ≤ qsortTresh then some (pop items start.state pending.stack)
    else some (.again ⟨items, lo, mid - 1, pending.stack, start.state⟩)
  else if mid - lo ≤ qsortTresh then some (.again ⟨items, mid + 1, hi, pending.stack, start.state⟩)
  else if stackSize ≤ pending.stack.length + 1 then none
  else if hi - mid < mid - lo then some (.again ⟨items, mid + 1, hi, (lo, mid - 1) :: pending.stack, start.state⟩)
  else some (.again ⟨items, lo, mid - 1, (mid + 1, hi) :: pending.stack, start.state⟩)

def pqsortRounds (cnt sf : ℕ) : ℕ → Pending α → Option ((ℕ → α) × PqState)
  | 0, _ => none
  | fuel + 1, pending =>
    match pqsortRound compar cnt sf pending with
    | none => none
    | some (.finished items state) => some (items, state)
    | some (.again pending) => pqsortRounds cnt sf fuel pending

/-- The loop that looks for the smallest of the first elements, up to `last`. -/
def smallest (items : ℕ → α) : ℕ → ℕ
  | 0 => 0
  | last + 1 =>
    let lo := smallest items last
    if compar (items (last + 1)) (items lo) < 0 then last + 1 else lo

/-- `while (compar(l, lo) < 0) lo -= size; lo += size;` -/
def seat (items : ℕ → α) (l : ℕ) : ℕ → Option ℕ
  | 0 => if compar (items l) (items 0) < 0 then none else some 1
  | lo + 1 => if compar (items l) (items (lo + 1)) < 0 then seat items l lo else some (lo + 2)

/-- The insertion loop, `turns` times from `l` on. -/
def insertLoop : ℕ → ℕ → (ℕ → α) → Option (ℕ → α)
  | 0, _, items => some items
  | turns + 1, l, items => do
    let lo ← seat compar items (l + 1) l
    insertLoop turns (l + 1) (if lo ≠ l + 1 then moveDown items lo (l + 1) else items)

/-- The insertion sort behind the quicksort. The search for the smallest element
ends four bytes after element `QSORT_TRESH`. -/
def insertionSort (items : ℕ → α) (cnt sortFirst size : ℕ) : Option (ℕ → α) :=
  let hi := min (cnt - 1) (sortFirst + qsortTresh)
  let r := min ((qsortTresh * size + 4) / size) hi
  insertLoop compar (hi - 1) 1 (exchange items 0 (smallest compar items r))

/-- `psync_pqsort`, in at most `fuel` rounds of its quicksort. -/
def pqsort (fuel : ℕ) (items : ℕ → α) (cnt sortFirst size : ℕ) (state : PqState) : Option ((ℕ → α) × PqState) :=
  if qsortTresh < cnt then do
    let (items, state) ← pqsortRounds compar cnt sortFirst fuel ⟨items, 0, cnt - 1, [], state⟩
    let items ← insertionSort compar items cnt sortFirst size
    some (items, state)
  else if cnt ≤ 1 then some (items, state)
  else do
    let items ← insertionSort compar items cnt sortFirst size
    some (items, state)

end
end Pclsync.Pages.Pqsort
