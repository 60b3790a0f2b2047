import Mathlib.Tactic.Common
import Pclsync.Sync.Delayed

/-! When the tests on two paths find that one of them is in the other, and what follows for the syncs that are registered. -/

namespace Pclsync.Proofs.Delayed
open Library.Separated
open Sync.Delayed (slash readAt sameBytes strip slashAt psyncerStrHasPrefix eitherSlashAt psyncerStrStartsWith Path Tables DelayedRow SyncRow Answers
  conflicts checkRow checkFirst psyncerCheckDelayed delete Event step Next)

section Bytes

theorem slashAt_inside {str : List UInt8} {index : ℕ} (inside : index < str.length) : slashAt str index = some (decide (str[index] = slash)) := by
  unfold slashAt readAt
  rw [List.getElem?_append_left inside, List.getElem?_eq_getElem inside]
  rfl

theorem slashAt_end (str : List UInt8) : slashAt str str.length = some false := by
  unfold slashAt readAt
  rw [List.getElem?_append_right le_rfl, Nat.sub_self]
  rfl

theorem slashAt_isSome {str : List UInt8} {index : ℕ} : (slashAt str index).isSome ↔ index ≤ str.length := by
  unfold slashAt readAt
  rw [Option.isSome_map, Option.isSome_iff_ne_none, ne_eq, List.getElem?_eq_none_iff, List.length_append, List.length_singleton]
  omega

theorem concat_begins {front str : List UInt8} {byte : UInt8} :
    front ++ [byte] <+: str ↔ str.take front.length = front ∧ str[front.length]? = some byte := by
  constructor
  · rintro ⟨rest, rfl⟩
    simp
  · rintro ⟨taken, found⟩
    refine ⟨str.drop (front.length + 1), ?_⟩
    obtain ⟨inside, found⟩ := List.getElem?_eq_some_iff.mp found
    calc front ++ [byte] ++ str.drop (front.length + 1)
        = str.take front.length ++ (str[front.length] :: str.drop (front.length + 1)) := by rw [taken, found, List.append_assoc]; rfl
      _ = str := by rw [← List.drop_eq_getElem_cons inside, List.take_append_drop]

theorem sameBytes_inside {str1 str2 : List UInt8} {len : ℕ} (inside1 : len ≤ str1.length) (inside2 : len ≤ str2.length) :
    sameBytes str1 str2 len = some (decide (str1.take len = str2.take len)) := by
  unfold sameBytes
  rw [if_pos ⟨by omega, by omega⟩, List.take_append_of_le_length inside1, List.take_append_of_le_length inside2]

/-- The two reads after the lengths are known: a text and a slash begin the string. -/
theorem follows {front str1 str2 : List UInt8} (begins : str1.take front.length = front) (inside : front.length ≤ str2.length)
    (short : front.length ≤ str1.length) :
    (do if !(← slashAt str2 front.length) then some false else sameBytes str1 str2 front.length) = some (decide (front ++ [slash] <+: str2)) := by
  rw [sameBytes_inside short inside, begins]
  obtain here | there := Nat.lt_or_eq_of_le inside
  · rw [slashAt_inside here]
    by_cases found : str2[front.length] = slash
    · have get : str2[front.length]? = some slash := by rw [List.getElem?_eq_getElem here, found]
      have same : front ++ [slash] <+: str2 ↔ front = str2.take front.length := by
        rw [concat_begins, and_iff_left get, eq_comm]
      simp [found, same]
    · have get : ¬front ++ [slash] <+: str2 := by
        rw [concat_begins, List.getElem?_eq_getElem here]
        exact fun both => found (Option.some.inj both.2)
      simp [found, get]
  · have get : ¬front ++ [slash] <+: str2 := fun both => by
      have := both.length_le
      rw [List.length_append, List.length_singleton] at this
      omega
    rw [there, slashAt_end]
    simp [get]

theorem sameBytes_comm (str1 str2 : List UInt8) (len : ℕ) : sameBytes str1 str2 len = sameBytes str2 str1 len := by
  unfold sameBytes
  simp only [and_comm (a := len ≤ str1.length + 1), eq_comm (a := (str1 ++ [0]).take len)]

theorem strip_descends {isSlash : ℕ → Option Bool} {low high : ℕ} (positive : 1 ≤ low) (below : low ≤ high)
    (slashes : ∀ index, low ≤ index → index < high → isSlash index = some true) : strip isSlash high = strip isSlash low := by
  induction high, below using Nat.le_induction with
  | base => rfl
  | succ high below ih =>
    obtain ⟨before, rfl⟩ := Nat.exists_eq_add_of_le' (le_trans positive below)
    rw [← ih fun index from_low to_high => slashes index from_low (Nat.lt_succ_of_lt to_high)]
    rw [strip, slashes (before + 1) below (Nat.lt_succ_self _)]
    rfl

theorem strip_stops {isSlash : ℕ → Option Bool} {last : ℕ} (different : isSlash last = some false) : strip isSlash (last + 1) = some (last + 1) := by
  cases last with
  | zero => rfl
  | succ last =>
    rw [strip, different]
    rfl

end Bytes

section Paths

variable (path : Path)

theorem bare_positive : 1 ≤ path.bare.length := by
  unfold Path.bare
  split
  · exact le_rfl
  · rename_i some
    exact List.length_pos_of_ne_nil fun none => some (joined_eq_nil.mp none)

theorem text_length : path.text.length = path.bare.length + path.trailing := by
  unfold Path.text
  rw [List.length_append, List.length_replicate]

theorem text_take : path.text.take path.bare.length = path.bare := by
  unfold Path.text
  exact List.take_left

theorem text_trailing {index : ℕ} (low : path.bare.length ≤ index) (high : index < path.text.length) : slashAt path.text index = some true := by
  have found : path.text[index] = slash := (List.getElem_append_right low).trans (List.getElem_replicate _)
  rw [slashAt_inside high, found]
  rfl

/-- The last byte of a path that is not the root is no slash. -/
theorem text_last (some : path.names ≠ []) :
    ∃ before, path.bare.length = before + 1 ∧ ∀ str : List UInt8, path.bare <+: str → slashAt str before = .some false := by
  obtain ⟨front, letter, spelled, different⟩ := getLast_joined some
  have bare : path.bare = front ++ [letter] := by
    unfold Path.bare
    rw [if_neg some, spelled]
  refine ⟨front.length, by rw [bare, List.length_append]; rfl, ?_⟩
  rintro str ⟨rest, rfl⟩
  rw [bare]
  have inside : front.length < (front ++ [letter] ++ rest).length := by simp
  rw [slashAt_inside inside]
  simp [different]

theorem text_stripped : strip (slashAt path.text) path.text.length = some path.bare.length := by
  have below : path.bare.length ≤ path.text.length := by
    rw [text_length]
    exact Nat.le_add_right _ _
  rw [strip_descends (bare_positive path) below fun index low high => text_trailing path low high]
  by_cases root : path.names = []
  · have bare : path.bare = [slash] := if_pos root
    rw [bare]
    rfl
  · obtain ⟨before, length, last⟩ := text_last path root
    rw [length]
    exact strip_stops (last path.text ⟨_, rfl⟩)

end Paths

section HasPrefix

variable (first second : Path)

/-- The test compares the first path without slashes after it to the second one as it is. -/
theorem hasPrefix_eq : psyncerStrHasPrefix first.text second.text =
    some (decide (second.text ++ [slash] <+: first.bare ∨ first.bare ++ [slash] <+: second.text)) := by
  have whole : second.text.take second.text.length = second.text := List.take_length
  have bareShort : first.bare.length ≤ first.text.length := by
    rw [text_length]
    exact Nat.le_add_right _ _
  unfold psyncerStrHasPrefix
  rw [text_stripped, Option.bind_eq_bind, Option.bind_some]
  dsimp only
  by_cases shorter : second.text.length < first.bare.length
  · have neither : ¬first.bare ++ [slash] <+: second.text := fun begins => by
      have := begins.length_le
      rw [List.length_append] at this
      omega
    have inside : second.text ++ [slash] <+: first.text ↔ second.text ++ [slash] <+: first.bare := by
      refine ⟨fun begins => List.prefix_of_prefix_length_le begins ⟨_, rfl⟩ ?_, fun begins => begins.trans ⟨_, rfl⟩⟩
      rw [List.length_append, List.length_singleton]
      exact shorter
    rw [if_pos shorter, sameBytes_comm, follows whole (by omega) le_rfl]
    simp only [inside, neither, or_false]
  · have neither : ¬second.text ++ [slash] <+: first.bare := fun begins => by
      have := begins.length_le
      rw [List.length_append, List.length_singleton] at this
      omega
    rw [if_neg shorter, follows (text_take first) (not_lt.mp shorter) bareShort]
    simp only [neither, false_or]

variable {first second}

theorem bare_root (root : first.names = []) : first.bare = [slash] := if_pos root

theorem bare_joined (some : first.names ≠ []) : first.bare = joined first.names := if_neg some

/-- Slashes at the end of a path are those of the text, and the root has one more. -/
theorem text_root (root : first.names = []) : first.text = List.replicate (first.trailing + 1) slash := by
  unfold Path.text
  rw [bare_root root, List.replicate_succ]
  rfl

theorem text_joined (some : first.names ≠ []) : first.text = joined first.names ++ List.replicate first.trailing slash := by
  unfold Path.text
  rw [bare_joined some]

theorem second_inside : second.text ++ [slash] <+: first.bare ↔
    second.names ≠ [] ∧ second.trailing = 0 ∧ second.names <+: first.names ∧ second.names ≠ first.names := by
  by_cases firstRoot : first.names = []
  · have long : 1 ≤ second.text.length := le_trans (bare_positive second) (by rw [text_length]; exact Nat.le_add_right _ _)
    rw [bare_root firstRoot, firstRoot]
    refine iff_of_false (fun begins => ?_) fun all => all.1 (List.prefix_nil.mp all.2.2.1)
    have := begins.length_le
    rw [List.length_append, List.length_singleton] at this
    omega
  · rw [bare_joined firstRoot]
    by_cases secondRoot : second.names = []
    · refine iff_of_false ?_ fun all => all.1 secondRoot
      rw [text_root secondRoot, ← List.replicate_succ', List.replicate_succ, List.replicate_succ]
      exact not_twice [] first.names _
    · rw [text_joined secondRoot]
      cases trailing : second.trailing with
      | zero =>
        have := @joined_begins _ slash second.names first.names 0
        rw [List.replicate_zero, List.append_nil] at this
        rw [List.replicate_zero, List.append_nil, this]
        exact ⟨fun both => ⟨secondRoot, rfl, both.1, fun same => absurd (both.2 same) (by omega)⟩, fun all =>
          ⟨all.2.2.1, fun same => absurd same all.2.2.2⟩⟩
      | succ trailing =>
        refine iff_of_false ?_ fun all => absurd all.2.1 (Nat.succ_ne_zero _)
        rw [List.append_assoc, ← List.replicate_succ', List.replicate_succ, List.replicate_succ]
        exact not_twice second.names first.names _

theorem first_inside : first.bare ++ [slash] <+: second.text ↔
    (first.names = [] ↔ second.names = []) ∧ first.names <+: second.names ∧ (first.names = second.names → 1 ≤ second.trailing) := by
  by_cases firstRoot : first.names = []
  · rw [bare_root firstRoot, firstRoot]
    by_cases secondRoot : second.names = []
    · rw [text_root secondRoot, secondRoot]
      cases second.trailing with
      | zero => simp
      | succ trailing => simp [List.replicate_succ, List.cons_prefix_cons]
    · refine iff_of_false ?_ fun all => secondRoot (all.1.mp rfl)
      rw [text_joined secondRoot]
      cases spelled : second.names with
      | nil => exact absurd spelled secondRoot
      | cons name names =>
        obtain ⟨letter, rest, text⟩ := List.exists_cons_of_ne_nil name.nonempty
        have different : slash ≠ letter := fun same => name.clean (by rw [text, same]; exact List.mem_cons_self)
        simp [text, List.cons_prefix_cons, different]
  · rw [bare_joined firstRoot]
    by_cases secondRoot : second.names = []
    · have := joined_begins first.names [] (second.trailing + 1)
      rw [text_root secondRoot, secondRoot]
      refine iff_of_false (fun begins => ?_) fun all => firstRoot (all.1.mpr rfl)
      exact firstRoot (List.prefix_nil.mp (this.mp begins).1)
    · rw [text_joined secondRoot, joined_begins]
      simp only [firstRoot, secondRoot, true_and]

end HasPrefix

section StartsWith

variable {isSlash : ℕ → Option Bool}

theorem strip_le {high low : ℕ} (stripped : strip isSlash high = some low) : low ≤ high := by
  fun_induction strip isSlash high with
  | case1 => exact (Option.some.inj stripped).ge
  | case2 => exact (Option.some.inj stripped).ge
  | case3 len ih =>
    cases found : isSlash (len + 1) with
    | none => simp [found] at stripped
    | some slash =>
      cases slash with
      | false => simp [found] at stripped; omega
      | true => exact Nat.le_succ_of_le (ih (by simpa [found] using stripped))

/-- The loop does not go below a byte that is no slash. -/
theorem le_strip {high low stop : ℕ} (stripped : strip isSlash high = some low) (different : isSlash stop = some false) (below : stop < high) :
    stop < low := by
  fun_induction strip isSlash high with
  | case1 => omega
  | case2 =>
    have := Option.some.inj stripped
    omega
  | case3 len ih =>
    cases found : isSlash (len + 1) with
    | none => simp [found] at stripped
    | some slash =>
      cases slash with
      | false => simp [found] at stripped; omega
      | true =>
        refine ih (by simpa [found] using stripped) (lt_of_le_of_ne (Nat.lt_succ_iff.mp below) fun same => ?_)
        rw [same, found] at different
        cases different

theorem strip_some {high : ℕ} (inside : ∀ index < high, (isSlash index).isSome) : ∃ low, strip isSlash high = some low := by
  fun_induction strip isSlash high with
  | case1 => exact ⟨0, rfl⟩
  | case2 => exact ⟨1, rfl⟩
  | case3 len ih =>
    obtain ⟨slash, found⟩ := Option.isSome_iff_exists.mp (inside (len + 1) (Nat.lt_succ_self _))
    cases slash with
    | false => exact ⟨len + 2, by simp [found]⟩
    | true => simpa [found] using ih fun index below => inside index (Nat.lt_succ_of_lt below)

theorem strip_positive {high low : ℕ} (stripped : strip isSlash high = some low) (positive : 1 ≤ high) : 1 ≤ low := by
  fun_induction strip isSlash high with
  | case1 => omega
  | case2 => exact (Option.some.inj stripped).le
  | case3 len ih =>
    cases found : isSlash (len + 1) with
    | none => simp [found] at stripped
    | some slash =>
      cases slash with
      | false => simp [found] at stripped; omega
      | true => exact ih (by simpa [found] using stripped) (Nat.le_add_left 1 len)

variable (first second : Path)

theorem either_second {index : ℕ} {str1 str2 : List UInt8} (found : slashAt str2 index = some true) : eitherSlashAt str1 str2 index = some true := by
  unfold eitherSlashAt
  rw [found]
  rfl

theorem either_first {index : ℕ} {str1 str2 : List UInt8} (found : slashAt str2 index = some false) :
    eitherSlashAt str1 str2 index = slashAt str1 index := by
  unfold eitherSlashAt
  rw [found]
  rfl

theorem either_strip : strip (eitherSlashAt first.text second.text) second.text.length =
    strip (eitherSlashAt first.text second.text) second.bare.length := by
  refine strip_descends (bare_positive second) ?_ fun index low high => either_second (text_trailing second low high)
  rw [text_length]
  exact Nat.le_add_right _ _

/-- The second path is longer than the first one by more than a byte: the loop reads behind the end of the first one. -/
theorem startsWith_outside (long : first.text.length + 1 < second.bare.length) : psyncerStrStartsWith first.text second.text = none := by
  have positive : 1 ≤ first.text.length := le_trans (bare_positive first) (by rw [text_length]; exact Nat.le_add_right _ _)
  have notRoot : second.names ≠ [] := fun root => by
    rw [bare_root root, List.length_singleton] at long
    omega
  obtain ⟨before, length, last⟩ := text_last second notRoot
  have outside : slashAt first.text before = none := by
    rw [← Option.not_isSome_iff_eq_none, slashAt_isSome]
    omega
  obtain ⟨prior, rfl⟩ : ∃ prior, before = prior + 1 := ⟨before - 1, by omega⟩
  have stuck : strip (eitherSlashAt first.text second.text) (prior + 2) = none := by
    rw [strip, either_first (last second.text ⟨_, rfl⟩), outside]
    rfl
  unfold psyncerStrStartsWith
  rw [text_stripped, Option.bind_eq_bind, Option.bind_some, either_strip, length, stuck]
  rfl

/-- Otherwise the test looks whether the text of the first path begins that of the second one. -/
theorem startsWith_eq (short : second.bare.length ≤ first.text.length + 1) :
    psyncerStrStartsWith first.text second.text = some (decide (first.bare <+: second.bare)) := by
  have bareShort : first.bare.length ≤ first.text.length := by
    rw [text_length]
    exact Nat.le_add_right _ _
  have bareShort2 : second.bare.length ≤ second.text.length := by
    rw [text_length]
    exact Nat.le_add_right _ _
  obtain ⟨low, stripped⟩ : ∃ low, strip (eitherSlashAt first.text second.text) second.bare.length = some low := by
    refine strip_some fun index below => ?_
    obtain ⟨slash, found⟩ := Option.isSome_iff_exists.mp ((@slashAt_isSome second.text index).mpr (by omega))
    cases slash with
    | true => rw [either_second found]; rfl
    | false =>
      rw [either_first found, slashAt_isSome]
      omega
  have down : low ≤ second.bare.length := strip_le stripped
  -- Where the first text begins the second one, the loop stops at its last byte.
  have stays : first.bare <+: second.bare → first.bare.length ≤ low := by
    intro begins
    by_cases root : first.names = []
    · rw [bare_root root, List.length_singleton]
      exact strip_positive stripped (bare_positive second)
    · obtain ⟨before, length, last⟩ := text_last first root
      have here := last second.text (begins.trans ⟨_, rfl⟩)
      have there := last first.text ⟨_, rfl⟩
      have := begins.length_le
      rw [length]
      exact le_strip stripped ((either_first here).trans there) (by omega)
  unfold psyncerStrStartsWith
  rw [text_stripped, Option.bind_eq_bind, Option.bind_some, either_strip, stripped, Option.bind_some]
  by_cases shorter : low < first.bare.length
  · rw [if_pos shorter, decide_eq_false fun begins => absurd (stays begins) (not_le.mpr shorter)]
  · have taken : second.text.take first.bare.length = second.bare.take first.bare.length := by
      unfold Path.text
      exact List.take_append_of_le_length (by omega)
    rw [if_neg shorter, sameBytes_inside bareShort (by omega), text_take, taken]
    simp only [List.prefix_iff_eq_take]

end StartsWith

section Nested

/-- The first path is that of a folder and the second one that of something in it. -/
def Ancestor (first second : Path) : Prop := first.names <+: second.names ∧ first.names ≠ second.names

/-- One of the folders is in the other, or they are the same. -/
def Nested (first second : Path) : Prop := first.names <+: second.names ∨ second.names <+: first.names

/-- The first test stays in the strings and finds exactly the ancestors. -/
def PrefixMeets (first second : Path) : Prop :=
  ∃ found, psyncerStrHasPrefix first.text second.text = some found ∧ (found = true ↔ Ancestor first second ∨ Ancestor second first)

/-- Both paths are the root or none is, and the second one has no slashes after it if the first one is in it or is the same. -/
def PrefixFits (first second : Path) : Prop :=
  (first.names = [] ↔ second.names = []) ∧ (second.names <+: first.names → second.trailing = 0)

/-- The second test stays in the strings and finds exactly the ancestors and the path itself. -/
def StartsMeets (first second : Path) : Prop :=
  ∃ found, psyncerStrStartsWith first.text second.text = some found ∧ (found = true ↔ first.names <+: second.names)

/-- The second path is not longer than the first one by two bytes, and it has the names of the first one if it begins with its
text. -/
def StartsFits (first second : Path) : Prop :=
  second.bare.length ≤ first.text.length + 1 ∧ (first.bare <+: second.bare → first.names <+: second.names)

theorem prefix_of_names {first second : Path} (names : first.names <+: second.names) : first.bare <+: second.bare := by
  obtain ⟨rest, joinedNames⟩ := names
  by_cases root : first.names = []
  · rw [bare_root root]
    by_cases secondRoot : second.names = []
    · rw [bare_root secondRoot]
    · rw [bare_joined secondRoot]
      cases spelled : second.names with
      | nil => exact absurd spelled secondRoot
      | cons name names => exact ⟨_, rfl⟩
  · have some : second.names ≠ [] := by
      rw [← joinedNames]
      exact List.append_ne_nil_of_left_ne_nil root _
    rw [bare_joined root, bare_joined some, ← joinedNames, joined_append]
    exact ⟨_, rfl⟩

theorem prefix_iff (first second : Path) : PrefixMeets first second ↔ PrefixFits first second := by
  unfold PrefixMeets PrefixFits Ancestor
  rw [hasPrefix_eq]
  simp only [Option.some.injEq, exists_eq_left', decide_eq_true_eq, second_inside, first_inside]
  have sameBoth : first.names <+: second.names → second.names <+: first.names → first.names = second.names :=
    fun begins back => begins.eq_of_length_le back.length_le
  have rootFirst : first.names = [] → first.names <+: second.names := fun root => root ▸ List.nil_prefix
  have rootSecond : second.names = [] → second.names <+: first.names := fun root => root ▸ List.nil_prefix
  have zero : second.trailing = 0 ↔ ¬1 ≤ second.trailing := by omega
  by_cases same : first.names = second.names
  · simp [same]
  · have different : second.names ≠ first.names := fun back => same back.symm
    have notBoth : first.names <+: second.names → ¬second.names <+: first.names := fun begins back => same (sameBoth begins back)
    have roots : first.names = [] → second.names ≠ [] := fun root back => same (root.trans back.symm)
    clear sameBoth
    simp only [same, different, ne_eq, not_false_eq_true, and_true, false_imp_iff]
    generalize (first.names <+: second.names) = down at *
    generalize (second.names <+: first.names) = up at *
    generalize (first.names = []) = one at *
    generalize (second.names = []) = two at *
    grind

theorem starts_iff (first second : Path) : StartsMeets first second ↔ StartsFits first second := by
  unfold StartsMeets StartsFits
  by_cases short : second.bare.length ≤ first.text.length + 1
  · rw [startsWith_eq first second short, and_iff_right short]
    simp only [Option.some.injEq, exists_eq_left', decide_eq_true_eq]
    exact ⟨Iff.mp, fun names => ⟨names, prefix_of_names⟩⟩
  · rw [startsWith_outside first second (not_le.mp short)]
    refine iff_of_false ?_ fun both => short both.1
    rintro ⟨found, equal, _⟩
    cases equal

end Nested

section Runs

/-- No two registered folders are nested. -/
def Apart (tables : Tables) : Prop := tables.syncs.Pairwise fun one two => ¬Nested one.localpath two.localpath

/-- If the paths are nested, the test on them can see it. -/
def Seen (first second : Path) : Prop :=
  Nested first second → (first.names = [] ↔ second.names = []) ∧
    (Ancestor second first → second.trailing = 0) ∧ (first.names = second.names → second.trailing = 0 → first.trailing = 0)

theorem conflicts_of_seen {sync : SyncRow} {localpath : Path} (seen : Seen sync.localpath localpath) (nested : Nested sync.localpath localpath) :
    conflicts sync localpath = true := by
  obtain ⟨roots, ancestor, equal⟩ := seen nested
  unfold conflicts
  rw [hasPrefix_eq, Bool.or_eq_true, beq_iff_eq, beq_iff_eq, Option.some.injEq, decide_eq_true_eq, second_inside, first_inside]
  by_cases same : sync.localpath.names = localpath.names
  · by_cases bare : localpath.trailing = 0
    · right
      unfold Path.text Path.bare
      rw [same, bare, equal same bare]
    · left
      right
      exact ⟨roots, same ▸ List.prefix_rfl, fun _ => Nat.one_le_iff_ne_zero.mpr bare⟩
  · left
    obtain inside | inside := nested
    · exact Or.inr ⟨roots, inside, fun equal => absurd equal same⟩
    · have notRoot : localpath.names ≠ [] := fun root => same ((roots.mpr root).trans root.symm)
      exact Or.inl ⟨notRoot, ancestor ⟨inside, fun back => same back.symm⟩, inside, fun back => same back.symm⟩

/-- What looking at a row does to the registered syncs. -/
theorem checkRow_syncs (tables : Tables) (row : DelayedRow) (answers : Answers) :
    (checkRow tables row answers).1.syncs = tables.syncs ∨
      ((∀ sync ∈ tables.syncs, conflicts sync row.localpath = false) ∧
        ∃ added, added.localpath = row.localpath ∧ (checkRow tables row answers).1.syncs = tables.syncs ++ [added]) := by
  unfold checkRow
  cases answers.stat with
  | none => exact Or.inl rfl
  | some st =>
    dsimp only
    generalize (if row.synctype &&& Sync.Delayed.downloadOnly ≠ 0 then 7 else 5) = mode
    split
    · exact Or.inl rfl
    · split
      · exact Or.inl rfl
      · rename_i free
        rw [List.any_eq_true, not_exists] at free
        have free : ∀ sync ∈ tables.syncs, conflicts sync row.localpath = false := fun sync inside =>
          Bool.eq_false_iff.mpr fun found => free sync ⟨inside, found⟩
        cases answers.remote with
        | offline => exact Or.inl rfl
        | refused => exact Or.inl rfl
        | folder folderid =>
          dsimp only
          split
          · split <;> exact Or.inl rfl
          · split
            · unfold Sync.Delayed.insert
              split
              · exact Or.inl rfl
              · exact Or.inr ⟨free, _, rfl, rfl⟩
            · exact Or.inl rfl

/-- The first row can be told from each registered sync that it is nested with. -/
def FirstSeen (tables : Tables) : Prop := ∀ row ∈ tables.delayed.head?, ∀ sync ∈ tables.syncs, Seen sync.localpath row.localpath

/-- One row keeps the registered syncs apart. -/
theorem checkFirst_apart {tables : Tables} {answers : Answers} (apart : Apart tables) (seen : FirstSeen tables) :
    Apart (checkFirst tables answers).1 := by
  unfold checkFirst
  cases delayed : tables.delayed with
  | nil => exact apart
  | cons row rest =>
    dsimp only
    unfold Apart
    obtain same | ⟨free, added, path, more⟩ := checkRow_syncs tables row answers
    · rw [same]
      exact apart
    · rw [more, List.pairwise_append]
      refine ⟨apart, List.pairwise_singleton _ _, fun sync inside other last => ?_⟩
      rw [List.mem_singleton.mp last, path]
      intro nested
      have found := conflicts_of_seen (seen row (by rw [delayed]; rfl) sync inside) nested
      rw [free sync inside] at found
      cases found

/-- The tables whenever a call looks at a row. -/
def visited (answers : ℕ → Answers) : (rows : ℕ) → Tables → List Tables
  | 0, _ => []
  | rows + 1, tables =>
    tables :: if (checkFirst tables (answers rows)).2 = .goOn then visited answers rows (checkFirst tables (answers rows)).1 else []

theorem checkDelayed_apart {answers : ℕ → Answers} {rows : ℕ} {tables : Tables} (apart : Apart tables)
    (seen : ∀ at_row ∈ visited answers rows tables, FirstSeen at_row) : Apart (psyncerCheckDelayed answers rows tables) := by
  induction rows generalizing tables with
  | zero => exact apart
  | succ rows ih =>
    have first : Apart (checkFirst tables (answers rows)).1 := checkFirst_apart apart (seen tables List.mem_cons_self)
    unfold psyncerCheckDelayed
    dsimp only
    split
    · rename_i goesOn
      refine ih first fun at_row inside => seen at_row (List.mem_cons_of_mem _ ?_)
      rw [if_pos goesOn]
      exact inside
    · exact first

/-- Each row that a step looks at can be told from the registered syncs. -/
def StepSeen (tables : Tables) : Event → Prop
  | .arrive _ => True
  | .check answers rows => ∀ at_row ∈ visited answers rows tables, FirstSeen at_row

/-- Each step of a run meets the condition. -/
def RunSeen : Tables → List Event → Prop
  | _, [] => True
  | tables, event :: events => StepSeen tables event ∧ RunSeen (step tables event) events

theorem step_apart {tables : Tables} {event : Event} (apart : Apart tables) (seen : StepSeen tables event) : Apart (step tables event) := by
  cases event with
  | arrive row => exact apart
  | check answers rows => exact checkDelayed_apart apart seen

theorem run_apart {tables : Tables} {events : List Event} (apart : Apart tables) (seen : RunSeen tables events) :
    Apart (events.foldl step tables) := by
  induction events generalizing tables with
  | nil => exact apart
  | cons event events ih => exact ih (step_apart apart seen.1) seen.2

/-- Delayed syncs that arrive and are checked, from tables whose syncs are apart. -/
structure Run where
  start : Tables
  apart : Apart start
  events : List Event

def Run.final (run : Run) : Tables := run.events.foldl step run.start

/-- The tests on two paths are right exactly if the conditions on the paths hold, and the registered folders stay apart in each
run in which nested folders can be told. -/
theorem exclusion (first second : Path) (run : Run) :
    (PrefixMeets first second ↔ PrefixFits first second) ∧ (StartsMeets first second ↔ StartsFits first second) ∧
      (RunSeen run.start run.events → Apart run.final) :=
  ⟨prefix_iff first second, starts_iff first second, run_apart run.apart⟩

/-- The folder of a user is in the root, and the first test does not say so. -/
theorem root_missed : ¬((∀ first second : Path, PrefixMeets first second) ∧ (∀ first second : Path, StartsMeets first second) ∧
    ∀ run : Run, Apart run.final) := by
  rintro ⟨all, _⟩
  let word : Word slash := ⟨[97], by decide, by decide⟩
  let root : Path := ⟨[], 0, fun _ none => absurd none List.not_mem_nil⟩
  let folder : Path := ⟨[word], 0, by decide⟩
  obtain ⟨found, equal, exactly⟩ := all root folder
  have missed : psyncerStrHasPrefix root.text folder.text = some false := by decide
  rw [missed] at equal
  have here := exactly.mpr (Or.inl ⟨List.nil_prefix, by decide⟩)
  rw [← Option.some.inj equal] at here
  cases here

end Runs

end Pclsync.Proofs.Delayed
