import Pclsync.Proofs.Filename
import Pclsync.Paths.Status

/-! The walk over a tree with encrypted folders against the walk over the same tree without them. They agree as long as
no name is looked up in an encrypted folder; once one is, it is not looked up as it is stored. -/

namespace Pclsync.Proofs.PathStatus
open Pclsync.Library Pclsync.Crypto Pclsync.Paths.Status
open Pclsync.Proofs.Filename (padded length_padded encodeText_short encodeText_long longText length_longText alignA256Bs_spec alphabet_safe)
open Pclsync.Proofs.Base32 (symbol symbol_mem base32Encode_spec byteStream)

section Encoder

variable (encoder : TextEncdec) {name : Name}

theorem encodeText_length (nonempty : name ≠ []) :
    ∃ sealed, encodeText encoder (name ++ [0]) name.length = .ok (sealed, sealed.length) ∧
      name.length ≤ sealed.length ∧ 16 ≤ sealed.length := by
  have positive := List.length_pos_iff.mpr nonempty
  rcases Nat.lt_or_ge 16 name.length with long | short
  · obtain ⟨above, tight, whole⟩ := alignA256Bs_spec name.length
    obtain ⟨count, size⟩ := Nat.exists_eq_add_of_le above
    have outLength := length_longText encoder count long (by omega)
    refine ⟨longText encoder name count, ?_, by omega, by omega⟩
    rw [outLength]
    exact encodeText_long encoder long size
  · have sealed : (encoder.aes.encrypt (xorBytes (padded name (16 - name.length)) (encoder.iv.take 16))).length = 16 := by
      have enough := encoder.ivlen
      rw [aesBlockSize] at enough
      apply encoder.aes.length_encrypt
      rw [length_xorBytes, length_padded, List.length_take, aesBlockSize]
      omega
    refine ⟨encoder.aes.encrypt (xorBytes (padded name (16 - name.length)) (encoder.iv.take 16)), ?_, by omega, by omega⟩
    rw [sealed]
    exact encodeText_short encoder positive short

/-- An encoded name is longer than the name, and longer than a pointer. -/
theorem encname_long (nonempty : name ≠ []) (noNul : 0 ∉ name) :
    name.length < (encname encoder name).length ∧ sizeofBuff ≤ (encname encoder name).length := by
  obtain ⟨sealed, encoded, above, block⟩ := encodeText_length encoder nonempty
  obtain ⟨values, zeros, written, small, same, short⟩ := base32Encode_spec sealed sealed.length le_rfl
  have noNulEncoded : 0 ∉ values.map symbol := by
    intro inside
    obtain ⟨value, member, zero⟩ := List.mem_map.mp inside
    exact (alphabet_safe 0 (zero ▸ symbol_mem value (small value member))).1 rfl
  have stored : fldencodeFilename encoder (name ++ [0]) = .ok (values.map symbol ++ [0]) := by
    rw [fldencodeFilename, strlenAt_append name [] rfl noNul, ok_bind, encoded, ok_bind]
    simp only [written, ok_bind]
    rfl
  have text : encname encoder name = values.map symbol := by
    simp only [encname, stored]
    exact show cstring (padded (values.map symbol) (0 + 1)) = _ from Filename.cstring_padded noNulEncoded
  have bits := congrArg List.length same
  simp only [byteStream, List.take_length, List.length_append, length_stream, List.length_map] at bits
  rw [text, List.length_map, sizeofBuff]
  omega

/-- No name of a component is encoded into the buffer. -/
theorem moveEncnameToBuff_none (nonempty : name ≠ []) (noNul : 0 ∉ name) (encoder : Option TextEncdec) :
    moveEncnameToBuff encoder name = none := by
  unfold moveEncnameToBuff
  split
  · rfl
  · cases encoder with
    | none => rfl
    | some encoder => exact if_pos (encname_long encoder nonempty noNul).2

end Encoder

section Log

/-- A component of a path was looked up as it is, or it could not be encoded. -/
structure Honest (look : Lookup) : Prop where
  nonempty : look.comp ≠ []
  noNul : 0 ∉ look.comp
  used : look.used = none ∨ look.used = some look.comp

variable {H : Type} {run after last : Run H}

/-- What was looked up on the way from one state of the walk to another. -/
def Follows (run after : Run H) : Prop := ∃ more, after.looked = run.looked ++ more ∧ ∀ look ∈ more, Honest look

theorem follows_same (same : after.looked = run.looked) : Follows run after :=
  ⟨[], by rw [same, List.append_nil], fun _ inside => absurd inside List.not_mem_nil⟩

theorem Follows.trans (first : Follows run after) (second : Follows after last) : Follows run last := by
  obtain ⟨more, early, honest⟩ := first
  obtain ⟨others, late, honestLate⟩ := second
  refine ⟨more ++ others, by rw [late, early, List.append_assoc], fun look inside => ?_⟩
  rcases List.mem_append.mp inside with inside | inside
  · exact honest look inside
  · exact honestLate look inside

theorem follows_look {folderid : ℕ} {comp : Name} {used : Option Name} (honest : Honest ⟨folderid, comp, used⟩)
    (same : after.looked = (run.look folderid comp used).looked) : Follows run after :=
  ⟨[⟨folderid, comp, used⟩], same, fun look inside => by rwa [List.mem_singleton.mp inside]⟩

variable {encrypted : ℕ → Bool}

/-- No name was looked up in an encrypted folder. -/
def Plain (encrypted : ℕ → Bool) (run : Run H) : Prop := ∀ look ∈ run.looked, encrypted look.folderid = false

theorem Follows.plain (follows : Follows run after) (plain : Plain encrypted after) : Plain encrypted run := by
  obtain ⟨more, same, -⟩ := follows
  exact fun look inside => plain look (by rw [same]; exact List.mem_append_left _ inside)

theorem plain_look {folderid : ℕ} {comp : Name} {used : Option Name} (same : after.looked = (run.look folderid comp used).looked)
    (plain : Plain encrypted after) : encrypted folderid = false :=
  plain ⟨folderid, comp, used⟩ (by rw [same]; exact List.mem_append_right _ (List.mem_singleton_self _))

end Log

section Walk

variable {H : Type} {compHash : Name → ℕ → H} {encoder : ℕ → Option TextEncdec} {world : World}
  {wrlocked : Bool} {folderid : ℕ} {flag : Bool} {comp : Name} {run : Run H}

theorem queryName_honest (nonempty : comp ≠ []) (noNul : 0 ∉ comp) :
    Honest ⟨folderid, comp, queryName encoder folderid flag comp⟩ := by
  refine ⟨nonempty, noNul, ?_⟩
  cases flag with
  | false => exact .inr rfl
  | true => exact .inl (moveEncnameToBuff_none nonempty noNul _)

theorem bufferName_honest (nonempty : comp ≠ []) (noNul : 0 ∉ comp) :
    Honest ⟨folderid, comp, bufferName encoder folderid flag comp⟩ := by
  refine ⟨nonempty, noNul, ?_⟩
  cases flag with
  | false =>
    by_cases long : buffSize ≤ comp.length
    · exact .inl (if_pos long)
    · exact .inr (if_neg long)
  | true => exact .inl (moveEncnameToBuff_none nonempty noNul _)

theorem pending_idle (idle : world.fstasks folderid = none) : pending encoder world folderid flag comp run = (none, run) := by
  rw [pending, idle]

theorem pending_run {folder : FolderTasks} (busy : world.fstasks folderid = some folder) :
    (pending encoder world folderid flag comp run).2 = run.look folderid comp (bufferName encoder folderid flag comp) := by
  simp only [pending, busy]
  cases bufferName encoder folderid flag comp with
  | none => rfl
  | some name =>
    by_cases made : name ∈ folder.mkdirs
    · simp only [made, ite_true]
    · by_cases removed : name ∈ folder.rmdirs
      · simp only [made, removed, ite_true, ite_false]
      · simp only [made, removed, ite_false]

theorem pending_cache : (pending encoder world folderid flag comp run).2.cache = run.cache := by
  cases busy : world.fstasks folderid with
  | none => rw [pending_idle busy]
  | some folder =>
    rw [pending_run busy]
    rfl

theorem pending_follows (nonempty : comp ≠ []) (noNul : 0 ∉ comp) :
    Follows run (pending encoder world folderid flag comp run).2 := by
  cases busy : world.fstasks folderid with
  | none =>
    rw [pending_idle busy]
    exact follows_same rfl
  | some folder =>
    rw [pending_run busy]
    exact follows_look (bufferName_honest nonempty noNul) rfl

theorem pendingLast_idle (idle : world.fstasks folderid = none) :
    pendingLast encoder world folderid flag comp run = (none, comp, run) := by
  rw [pendingLast, idle]

theorem pendingLast_run {folder : FolderTasks} (busy : world.fstasks folderid = some folder) :
    (pendingLast encoder world folderid flag comp run).2.2 = run.look folderid comp (queryName encoder folderid flag comp) := by
  simp only [pendingLast, busy]
  cases queryName encoder folderid flag comp with
  | none => rfl
  | some name =>
    by_cases made : name ∈ folder.mkdirs
    · simp only [made, ite_true]
    · by_cases created : name ∈ folder.creats
      · simp only [made, created, ite_true, ite_false]
      · simp only [made, created, ite_false]

theorem pendingLast_cache : (pendingLast encoder world folderid flag comp run).2.2.cache = run.cache := by
  cases busy : world.fstasks folderid with
  | none => rw [pendingLast_idle busy]
  | some folder =>
    rw [pendingLast_run busy]
    rfl

theorem pendingLast_follows (nonempty : comp ≠ []) (noNul : 0 ∉ comp) :
    Follows run (pendingLast encoder world folderid flag comp run).2.2 := by
  cases busy : world.fstasks folderid with
  | none =>
    rw [pendingLast_idle busy]
    exact follows_same rfl
  | some folder =>
    rw [pendingLast_run busy]
    exact follows_look (queryName_honest nonempty noNul) rfl

/-- The name for what follows is the component as it is. -/
theorem pendingLast_name (nonempty : comp ≠ []) (noNul : 0 ∉ comp) :
    (pendingLast encoder world folderid flag comp run).2.1 = comp := by
  cases busy : world.fstasks folderid with
  | none => rw [pendingLast_idle busy]
  | some folder =>
    have honest : Honest ⟨folderid, comp, queryName encoder folderid flag comp⟩ := queryName_honest nonempty noNul
    simp only [pendingLast, busy]
    rcases honest.used with refused | same
    · simp only at refused
      simp only [refused]
    · simp only at same
      simp only [same]
      by_cases made : comp ∈ folder.mkdirs
      · simp only [made, ite_true]
      · by_cases created : comp ∈ folder.creats
        · simp only [made, created, ite_true, ite_false]
        · simp only [made, created, ite_false]

theorem lastQuery_looked {name : Name} :
    (lastQuery compHash world wrlocked folderid flag comp name run).2.looked = (run.look folderid comp (some name)).looked := by
  unfold lastQuery
  by_cases removed : isPending world folderid FolderTasks.rmdirs comp <;>
    by_cases unlinked : isPending world folderid FolderTasks.unlinks comp <;>
    cases findFolder world folderid name <;> cases findFile world folderid name <;> cases wrlocked <;>
    simp [removed, unlinked, Run.look]

theorem lastQuery_follows (nonempty : comp ≠ []) (noNul : 0 ∉ comp) :
    Follows run (lastQuery compHash world wrlocked folderid flag comp comp run).2 :=
  follows_look ⟨nonempty, noNul, .inr rfl⟩ lastQuery_looked

variable [DecidableEq H]

theorem enter_looked (missing : run.cache.find (compHash comp folderid) true = none) :
    (enter compHash encoder world wrlocked folderid flag comp run).2.looked =
      (run.look folderid comp (queryName encoder folderid flag comp)).looked := by
  unfold enter
  rw [missing]
  cases queryName encoder folderid flag comp with
  | none => rfl
  | some name =>
    cases found : findFolder world folderid name with
    | none => simp only [found]
    | some row =>
      by_cases below : world.hasTasks row.id <;> cases wrlocked <;> simp [found, below, Run.look]

theorem enter_cached {slot : ℕ} (cached : run.cache.find (compHash comp folderid) true = some slot) :
    (enter compHash encoder world wrlocked folderid flag comp run).2 = { run with cache := run.cache.touch wrlocked slot } := by
  unfold enter
  rw [cached]
  by_cases below : world.hasTasks (run.cache.slot slot).itemid <;> simp [below]

theorem enter_follows (nonempty : comp ≠ []) (noNul : 0 ∉ comp) :
    Follows run (enter compHash encoder world wrlocked folderid flag comp run).2 := by
  cases cached : run.cache.find (compHash comp folderid) true with
  | none => exact follows_look (queryName_honest nonempty noNul) (enter_looked cached)
  | some slot => exact follows_same (by rw [enter_cached cached])

theorem component_follows (nonempty : comp ≠ []) (noNul : 0 ∉ comp) :
    Follows run (component compHash encoder world wrlocked folderid flag comp run).2 := by
  have before : Follows run (pending encoder world folderid flag comp run).2 := pending_follows nonempty noNul
  unfold component
  generalize pending encoder world folderid flag comp run = result at before ⊢
  obtain ⟨status, middle⟩ := result
  cases status with
  | some status => exact before
  | none => exact before.trans (enter_follows nonempty noNul)

/-- What `last` does once the pending changes did not settle the status. -/
def settle (compHash : Name → ℕ → H) (encoder : ℕ → Option TextEncdec) (world : World) (wrlocked : Bool) (folderid : ℕ)
    (encrypted : Bool) (comp name : Name) (run : Run H) : Step × Run H :=
  match run.cache.find (compHash comp folderid) false with
  | some slot =>
    (.status (lastCached world folderid (run.cache.slot slot) name), { run with cache := run.cache.touch wrlocked slot })
  | none =>
    if (world.fstasks folderid).isNone ∧ encrypted = true then
      match moveEncnameToBuff (encoder folderid) comp with
      | none => (.status .inSync, run.look folderid comp none)
      | some name => lastQuery compHash world wrlocked folderid encrypted comp name run
    else lastQuery compHash world wrlocked folderid encrypted comp name run

theorem last_eq (nonempty : comp ≠ []) :
    last compHash encoder world wrlocked folderid flag comp run =
      match pendingLast encoder world folderid flag comp run with
      | (some status, _, run) => (.status status, run)
      | (none, name, run) => settle compHash encoder world wrlocked folderid flag comp name run := by
  rw [last, if_neg nonempty]
  rfl

theorem settle_missing (missing : run.cache.find (compHash comp folderid) false = none) (nonempty : comp ≠ []) (noNul : 0 ∉ comp) :
    settle compHash encoder world wrlocked folderid flag comp comp run =
      if (world.fstasks folderid).isNone ∧ flag = true then (.status .inSync, run.look folderid comp none)
      else lastQuery compHash world wrlocked folderid flag comp comp run := by
  rw [settle, missing, moveEncnameToBuff_none nonempty noNul]

theorem settle_follows (nonempty : comp ≠ []) (noNul : 0 ∉ comp) :
    Follows run (settle compHash encoder world wrlocked folderid flag comp comp run).2 := by
  cases cached : run.cache.find (compHash comp folderid) false with
  | some slot =>
    rw [settle, cached]
    exact follows_same rfl
  | none =>
    rw [settle_missing cached nonempty noNul]
    split
    · exact follows_look ⟨nonempty, noNul, .inl rfl⟩ rfl
    · exact lastQuery_follows nonempty noNul

theorem last_follows (noNul : 0 ∉ comp) : Follows run (last compHash encoder world wrlocked folderid flag comp run).2 := by
  by_cases nonempty : comp = []
  · rw [last, if_pos nonempty]
    exact follows_same rfl
  · have before : Follows run (pendingLast encoder world folderid flag comp run).2.2 := pendingLast_follows nonempty noNul
    have same : (pendingLast encoder world folderid flag comp run).2.1 = comp := pendingLast_name nonempty noNul
    rw [last_eq nonempty]
    generalize pendingLast encoder world folderid flag comp run = result at before same ⊢
    obtain ⟨status, name, middle⟩ := result
    cases same
    cases status with
    | some status => exact before
    | none => exact before.trans (settle_follows nonempty noNul)

theorem walk_follows {path : List UInt8} (clean : 0 ∉ path) (noNul : 0 ∉ comp) :
    Follows run (walk compHash encoder world wrlocked path comp folderid flag run).2 := by
  induction path generalizing comp folderid flag run with
  | nil =>
    have before : Follows run (last compHash encoder world wrlocked folderid flag comp run).2 := last_follows noNul
    unfold walk
    generalize last compHash encoder world wrlocked folderid flag comp run = result at before ⊢
    obtain ⟨step, after⟩ := result
    cases step <;> exact before
  | cons char rest ih =>
    obtain ⟨other, cleanRest⟩ := not_or.mp (mt List.mem_cons.mpr clean)
    unfold walk
    by_cases named : char ≠ slash
    · rw [if_pos named]
      refine ih cleanRest fun inside => ?_
      rcases List.mem_append.mp inside with inside | inside
      · exact noNul inside
      · exact other (List.mem_singleton.mp inside)
    · rw [if_neg named]
      by_cases nonempty : comp = []
      · rw [if_pos nonempty]
        exact ih cleanRest List.not_mem_nil
      · rw [if_neg nonempty]
        have before : Follows run (component compHash encoder world wrlocked folderid flag comp run).2 :=
          component_follows nonempty noNul
        generalize component compHash encoder world wrlocked folderid flag comp run = result at before ⊢
        obtain ⟨step, after⟩ := result
        cases step with
        | status status => exact before
        | restart => exact before
        | next folderid flag => exact before.trans (ih cleanRest List.not_mem_nil)

theorem pathStatusDrive_follows {path : List UInt8} (clean : 0 ∉ path) {cache : Cache H} :
    Follows ⟨cache, []⟩ (pathStatusDrive compHash encoder world path cache).2 := by
  unfold pathStatusDrive
  have cleanRest : 0 ∉ path.dropWhile (· = slash) := fun inside => clean ((List.dropWhile_sublist _).mem inside)
  dsimp only
  split
  · exact follows_same rfl
  · split
    · exact follows_same rfl
    · have first : Follows ⟨cache, []⟩ (walk compHash encoder world false (path.dropWhile (· = slash)) [] 0 false ⟨cache, []⟩).2 :=
        walk_follows cleanRest List.not_mem_nil
      generalize walk compHash encoder world false (path.dropWhile (· = slash)) [] 0 false ⟨cache, []⟩ = result at first ⊢
      obtain ⟨status, middle⟩ := result
      cases status with
      | some status => exact first
      | none =>
        have second : Follows middle (walk compHash encoder world true (path.dropWhile (· = slash)) [] 0 false middle).2 :=
          walk_follows cleanRest List.not_mem_nil
        dsimp only
        generalize walk compHash encoder world true (path.dropWhile (· = slash)) [] 0 false middle = result at second ⊢
        obtain ⟨status, after⟩ := result
        cases status <;> exact first.trans second

end Walk

section Cache

variable {H : Type} {encrypted : ℕ → Bool} {cache : Cache H}

/-- The entries of a cache without the encrypted flag. -/
def unmark (cache : Cache H) : Cache H := { cache with slot := fun slot => { cache.slot slot with encrypted := false } }

/-- A folder has the encrypted flag in the cache only if it is encrypted. -/
def Marked (encrypted : ℕ → Bool) (cache : Cache H) : Prop :=
  ∀ slot, (cache.slot slot).folder = true → (cache.slot slot).encrypted = true → encrypted (cache.slot slot).itemid = true

theorem unmark_touch {wrlocked : Bool} {slot : ℕ} : (unmark cache).touch wrlocked slot = unmark (cache.touch wrlocked slot) := by
  cases wrlocked <;> rfl

theorem marked_touch {wrlocked : Bool} {slot : ℕ} (marked : Marked encrypted cache) :
    Marked encrypted (cache.touch wrlocked slot) := by
  cases wrlocked <;> exact marked

theorem unmark_add (entry : Entry H) :
    (unmark cache).add { entry with encrypted := false } = unmark (cache.add entry) := by
  obtain ⟨slot, lru, linked⟩ := cache
  cases lru with
  | nil => rfl
  | cons first rest =>
    have slots : Function.update (fun place => { slot place with encrypted := false }) first { entry with encrypted := false } =
        fun place => { Function.update slot first entry place with encrypted := false } := by
      funext place
      by_cases same : place = first
      · subst same
        simp only [Function.update_self]
      · simp only [Function.update_of_ne same]
    simp only [Cache.add, unmark, slots]

theorem marked_add {entry : Entry H} (marked : Marked encrypted cache)
    (known : entry.folder = true → entry.encrypted = true → encrypted entry.itemid = true) : Marked encrypted (cache.add entry) := by
  obtain ⟨slot, lru, linked⟩ := cache
  cases lru with
  | nil => exact marked
  | cons first rest =>
    intro place
    by_cases same : place = first
    · subst same
      simpa only [Cache.add, Function.update_self] using known
    · simpa only [Cache.add, Function.update_of_ne same] using marked place

theorem find_folder [DecidableEq H] {hash : H} {slot : ℕ} (found : cache.find hash true = some slot) :
    (cache.slot slot).folder = true := by
  have holds := List.find?_some found
  exact (of_decide_eq_true holds).2 rfl

end Cache

section Simulation

/-- Two worlds that differ only in what the encrypted folders hold, in the second of which no folder is encrypted. -/
structure Agree (encrypted : ℕ → Bool) (world plain : World) : Prop where
  marked : ∀ row ∈ world.folder, row.encrypted = encrypted row.id
  idle : ∀ folderid, world.fstasks folderid = none → plain.fstasks folderid = none
  fstasks : ∀ folderid, encrypted folderid = false → plain.fstasks folderid = world.fstasks folderid
  folder : ∀ folderid name, encrypted folderid = false →
    findFolder plain folderid name = (findFolder world folderid name).map fun row => { row with encrypted := false }
  file : ∀ folderid name, encrypted folderid = false → findFile plain folderid name = findFile world folderid name
  hasTasks : plain.hasTasks = world.hasTasks
  ok : plain.ok = world.ok

variable {H : Type} {compHash : Name → ℕ → H} {encoder : ℕ → Option TextEncdec} {encrypted : ℕ → Bool} {world plain : World}
  {wrlocked : Bool} {folderid : ℕ} {flag : Bool} {comp : Name} {run : Run H}

def unmarkRun (run : Run H) : Run H := { run with cache := unmark run.cache }

def unmarkStep : Step → Step
  | .next folderid _ => .next folderid false
  | step => step

/-- The folder that the walk goes on with has the flag only if it is encrypted. -/
def Known (encrypted : ℕ → Bool) : Step → Prop
  | .next folderid flag => flag = true → encrypted folderid = true
  | _ => True

/-- The step on the plain side is the one on the other side without the flags. -/
structure Mirrors (encrypted : ℕ → Bool) (result other : Step × Run H) : Prop where
  same : other = (unmarkStep result.1, unmarkRun result.2)
  marked : Marked encrypted result.2.cache
  known : Known encrypted result.1

theorem unflagged (known : flag = true → encrypted folderid = true) (open' : encrypted folderid = false) : flag = false := by
  cases flag with
  | false => rfl
  | true => exact absurd ((known rfl).symm.trans open') Bool.noConfusion

variable (agree : Agree encrypted world plain)

include agree

theorem returnInProg_same : returnInProg plain = returnInProg world := by rw [returnInProg, returnInProg, agree.ok]

theorem driveFolderLocked_same : driveFolderLocked plain folderid = driveFolderLocked world folderid := by
  rw [driveFolderLocked, driveFolderLocked, agree.hasTasks, returnInProg_same agree]

omit agree in
theorem isPending_same (same : plain.fstasks folderid = world.fstasks folderid) {tree : FolderTasks → List Name} {name : Name} :
    isPending plain folderid tree name ↔ isPending world folderid tree name := by
  rw [isPending, isPending, same]

theorem lastCached_same (same : plain.fstasks folderid = world.fstasks folderid) (entry : Entry H) (name : Name) :
    lastCached plain folderid { entry with encrypted := false } name = lastCached world folderid entry name := by
  simp only [lastCached, isPending_same same, driveFolderLocked_same agree]

theorem pending_same (known : flag = true → encrypted folderid = true)
    (clear : Plain encrypted (pending encoder world folderid flag comp run).2) :
    pending encoder plain folderid false comp (unmarkRun run) =
      ((pending encoder world folderid flag comp run).1, unmarkRun (pending encoder world folderid flag comp run).2) := by
  cases busy : world.fstasks folderid with
  | none => rw [pending_idle busy, pending_idle (agree.idle folderid busy)]
  | some folder =>
    have outside := plain_look (congrArg Run.looked (pending_run busy)) clear
    cases unflagged known outside
    simp only [pending, busy, agree.fstasks folderid outside, returnInProg_same agree]
    cases bufferName encoder folderid false comp with
    | none => rfl
    | some name =>
      by_cases made : name ∈ folder.mkdirs
      · simp only [made, ite_true]
        rfl
      · by_cases removed : name ∈ folder.rmdirs
        · simp only [made, removed, ite_true, ite_false]
          rfl
        · simp only [made, removed, ite_false]
          rfl

theorem pendingLast_same (known : flag = true → encrypted folderid = true)
    (clear : Plain encrypted (pendingLast encoder world folderid flag comp run).2.2) :
    pendingLast encoder plain folderid false comp (unmarkRun run) =
        ((pendingLast encoder world folderid flag comp run).1, (pendingLast encoder world folderid flag comp run).2.1,
          unmarkRun (pendingLast encoder world folderid flag comp run).2.2) ∧
      plain.fstasks folderid = world.fstasks folderid := by
  cases busy : world.fstasks folderid with
  | none =>
    have idle := agree.idle folderid busy
    exact ⟨by rw [pendingLast_idle busy, pendingLast_idle idle], idle⟩
  | some folder =>
    have outside := plain_look (congrArg Run.looked (pendingLast_run busy)) clear
    have same := (agree.fstasks folderid outside).trans busy
    refine ⟨?_, same⟩
    cases unflagged known outside
    simp only [pendingLast, busy, same, returnInProg_same agree]
    cases queryName encoder folderid false comp with
    | none => rfl
    | some name =>
      by_cases made : name ∈ folder.mkdirs
      · simp only [made, ite_true]
        rfl
      · by_cases created : name ∈ folder.creats
        · simp only [made, created, ite_true, ite_false]
          rfl
        · simp only [made, created, ite_false]
          rfl

omit agree in
theorem findFolder_mem {name : Name} {row : FolderRow} (found : findFolder world folderid name = some row) : row ∈ world.folder :=
  List.mem_of_find?_eq_some found

theorem lastQuery_mirrors (same : plain.fstasks folderid = world.fstasks folderid) (marked : Marked encrypted run.cache)
    (outside : encrypted folderid = false) :
    Mirrors encrypted (lastQuery compHash world wrlocked folderid false comp comp run)
      (lastQuery compHash plain wrlocked folderid false comp comp (unmarkRun run)) := by
  have folder : (if isPending world folderid FolderTasks.rmdirs comp then none else findFolder plain folderid comp) =
      (if isPending world folderid FolderTasks.rmdirs comp then none else findFolder world folderid comp).map
        fun row => { row with encrypted := false } := by
    rw [agree.folder folderid comp outside]
    split <;> rfl
  simp only [lastQuery, isPending_same same, folder, agree.file folderid comp outside]
  generalize (if isPending world folderid FolderTasks.rmdirs comp then none else findFolder world folderid comp) = found
  cases found with
  | none =>
    simp only [Option.map_none]
    by_cases unlinked : isPending world folderid FolderTasks.unlinks comp
    · simp only [unlinked, ite_true]
      exact ⟨rfl, marked, trivial⟩
    · simp only [unlinked, ite_false]
      cases findFile world folderid comp with
      | none => exact ⟨rfl, marked, trivial⟩
      | some row =>
        cases wrlocked with
        | false => exact ⟨rfl, marked, trivial⟩
        | true =>
          have added : (unmark run.cache).add _ = _ := unmark_add ⟨compHash comp folderid, row.id, false, false⟩
          refine ⟨?_, marked_add marked fun absurd _ => Bool.noConfusion absurd, trivial⟩
          exact congrArg (fun cache => (Step.status .inSync, ({ (run.look folderid comp (some comp)) with cache := cache } : Run H))) added
  | some row =>
    simp only [Option.map_some]
    cases wrlocked with
    | false => exact ⟨rfl, marked, trivial⟩
    | true =>
      have added : (unmark run.cache).add _ = _ := unmark_add ⟨compHash comp folderid, row.id, true, false⟩
      refine ⟨?_, marked_add marked fun _ absurd => Bool.noConfusion absurd, trivial⟩
      simp only [ite_true, driveFolderLocked_same agree]
      exact congrArg (fun cache => (Step.status (driveFolderLocked world row.id), ({ (run.look folderid comp (some comp)) with cache := cache } : Run H))) added

variable [DecidableEq H]

theorem enter_mirrors (marked : Marked encrypted run.cache) (known : flag = true → encrypted folderid = true)
    (clear : Plain encrypted (enter compHash encoder world wrlocked folderid flag comp run).2) :
    Mirrors encrypted (enter compHash encoder world wrlocked folderid flag comp run)
      (enter compHash encoder plain wrlocked folderid false comp (unmarkRun run)) := by
  cases cached : run.cache.find (compHash comp folderid) true with
  | some slot =>
    have other : (unmarkRun run).cache.find (compHash comp folderid) true = some slot := cached
    have folder := find_folder cached
    simp only [enter, cached, other, agree.hasTasks]
    by_cases below : world.hasTasks (run.cache.slot slot).itemid = true
    · have belowPlain : world.hasTasks ((unmarkRun run).cache.slot slot).itemid = true := below
      simp only [below, belowPlain, ite_true]
      exact ⟨by simp only [unmarkRun, unmarkStep, unmark_touch]; rfl, marked_touch marked, marked slot folder⟩
    · have belowPlain : ¬world.hasTasks ((unmarkRun run).cache.slot slot).itemid = true := below
      simp only [below, belowPlain]
      exact ⟨by simp only [unmarkRun, unmarkStep, unmark_touch]; rfl, marked_touch marked, trivial⟩
  | none =>
    have other : (unmarkRun run).cache.find (compHash comp folderid) true = none := cached
    have outside := plain_look (enter_looked cached) clear
    cases unflagged known outside
    simp only [enter, cached, other, queryName, agree.folder folderid _ outside, agree.hasTasks, Bool.false_eq_true, ite_false]
    cases found : findFolder world folderid comp with
    | none => exact ⟨rfl, marked, trivial⟩
    | some row =>
      have flagged := agree.marked row (findFolder_mem found)
      cases wrlocked with
      | false => exact ⟨rfl, marked, trivial⟩
      | true =>
        have added : Marked encrypted (run.cache.add ⟨compHash comp folderid, row.id, true, row.encrypted⟩) :=
          marked_add marked fun _ flag => flagged.symm.trans flag
        have same : (unmark run.cache).add ⟨compHash comp folderid, row.id, true, false⟩ =
            unmark (run.cache.add ⟨compHash comp folderid, row.id, true, row.encrypted⟩) :=
          unmark_add ⟨compHash comp folderid, row.id, true, row.encrypted⟩
        simp only [Option.map_some, ite_true]
        by_cases below : world.hasTasks row.id = true
        · simp only [below, ite_true]
          exact ⟨by simp only [unmarkStep, unmarkRun, Run.look, same], added, fun flag => flagged.symm.trans flag⟩
        · simp only [below]
          exact ⟨by simp only [unmarkStep, unmarkRun, Run.look, same]; rfl, added, trivial⟩

theorem component_mirrors (nonempty : comp ≠ []) (noNul : 0 ∉ comp) (marked : Marked encrypted run.cache)
    (known : flag = true → encrypted folderid = true)
    (clear : Plain encrypted (component compHash encoder world wrlocked folderid flag comp run).2) :
    Mirrors encrypted (component compHash encoder world wrlocked folderid flag comp run)
      (component compHash encoder plain wrlocked folderid false comp (unmarkRun run)) := by
  have follows : Plain encrypted (pending encoder world folderid flag comp run).2 → _ := pending_same agree known
  have cache : (pending encoder world folderid flag comp run).2.cache = run.cache := pending_cache
  unfold component at clear ⊢
  generalize pending encoder world folderid flag comp run = result at follows cache clear ⊢
  obtain ⟨status, middle⟩ := result
  cases status with
  | some status =>
    rw [follows clear]
    exact ⟨rfl, cache ▸ marked, trivial⟩
  | none =>
    rw [follows ((enter_follows nonempty noNul).plain clear)]
    exact enter_mirrors agree (cache ▸ marked) known clear

theorem settle_mirrors (nonempty : comp ≠ []) (noNul : 0 ∉ comp) (marked : Marked encrypted run.cache)
    (known : flag = true → encrypted folderid = true) (same : plain.fstasks folderid = world.fstasks folderid)
    (clear : Plain encrypted (settle compHash encoder world wrlocked folderid flag comp comp run).2) :
    Mirrors encrypted (settle compHash encoder world wrlocked folderid flag comp comp run)
      (settle compHash encoder plain wrlocked folderid false comp comp (unmarkRun run)) := by
  cases cached : run.cache.find (compHash comp folderid) false with
  | some slot =>
    have other : (unmarkRun run).cache.find (compHash comp folderid) false = some slot := cached
    have status : lastCached plain folderid ((unmarkRun run).cache.slot slot) comp = lastCached world folderid (run.cache.slot slot) comp :=
      lastCached_same agree same (run.cache.slot slot) comp
    simp only [settle, cached, other, status]
    exact ⟨by simp only [unmarkStep, unmarkRun, unmark_touch], marked_touch marked, trivial⟩
  | none =>
    have other : (unmarkRun run).cache.find (compHash comp folderid) false = none := cached
    have outside : encrypted folderid = false := by
      rw [settle_missing cached nonempty noNul] at clear
      split at clear
      · exact plain_look rfl clear
      · exact plain_look lastQuery_looked clear
    cases unflagged known outside
    rw [settle_missing cached nonempty noNul, settle_missing other nonempty noNul]
    simp only [Bool.false_eq_true, and_false, ite_false]
    exact lastQuery_mirrors agree same marked outside

theorem last_mirrors (noNul : 0 ∉ comp) (marked : Marked encrypted run.cache) (known : flag = true → encrypted folderid = true)
    (clear : Plain encrypted (last compHash encoder world wrlocked folderid flag comp run).2) :
    Mirrors encrypted (last compHash encoder world wrlocked folderid flag comp run)
      (last compHash encoder plain wrlocked folderid false comp (unmarkRun run)) := by
  by_cases nonempty : comp = []
  · rw [last, last, if_pos nonempty, if_pos nonempty, driveFolderLocked_same agree]
    exact ⟨rfl, marked, trivial⟩
  · have same : Plain encrypted (pendingLast encoder world folderid flag comp run).2.2 → _ := pendingLast_same agree known
    have cache : (pendingLast encoder world folderid flag comp run).2.2.cache = run.cache := pendingLast_cache
    have name : (pendingLast encoder world folderid flag comp run).2.1 = comp := pendingLast_name nonempty noNul
    rw [last_eq nonempty] at clear ⊢
    rw [last_eq nonempty]
    generalize pendingLast encoder world folderid flag comp run = result at same cache name clear ⊢
    obtain ⟨status, found, middle⟩ := result
    cases name
    cases status with
    | some status =>
      rw [(same clear).1]
      exact ⟨rfl, cache ▸ marked, trivial⟩
    | none =>
      obtain ⟨pending, fstasks⟩ := same ((settle_follows nonempty noNul).plain clear)
      rw [pending]
      exact settle_mirrors agree nonempty noNul (cache ▸ marked) known fstasks clear

theorem walk_mirrors {path : List UInt8} (clean : 0 ∉ path) (noNul : 0 ∉ comp) (marked : Marked encrypted run.cache)
    (known : flag = true → encrypted folderid = true)
    (clear : Plain encrypted (walk compHash encoder world wrlocked path comp folderid flag run).2) :
    walk compHash encoder plain wrlocked path comp folderid false (unmarkRun run) =
        ((walk compHash encoder world wrlocked path comp folderid flag run).1,
          unmarkRun (walk compHash encoder world wrlocked path comp folderid flag run).2) ∧
      Marked encrypted (walk compHash encoder world wrlocked path comp folderid flag run).2.cache := by
  induction path generalizing comp folderid flag run with
  | nil =>
    have mirrors : Plain encrypted (last compHash encoder world wrlocked folderid flag comp run).2 → _ :=
      last_mirrors agree noNul marked known
    unfold walk at clear ⊢
    generalize last compHash encoder world wrlocked folderid flag comp run = result at mirrors clear ⊢
    obtain ⟨step, after⟩ := result
    cases step with
    | status status =>
      have done := mirrors clear
      rw [done.same]
      exact ⟨rfl, done.marked⟩
    | restart =>
      have done := mirrors clear
      rw [done.same]
      exact ⟨rfl, done.marked⟩
    | next folderid flag =>
      have done := mirrors clear
      rw [done.same]
      exact ⟨rfl, done.marked⟩
  | cons char rest ih =>
    obtain ⟨other, cleanRest⟩ := not_or.mp (mt List.mem_cons.mpr clean)
    unfold walk at clear ⊢
    by_cases named : char ≠ slash
    · rw [if_pos named] at clear
      rw [if_pos named, if_pos named]
      refine ih cleanRest (fun inside => ?_) marked known clear
      rcases List.mem_append.mp inside with inside | inside
      · exact noNul inside
      · exact other (List.mem_singleton.mp inside)
    · rw [if_neg named] at clear
      rw [if_neg named, if_neg named]
      by_cases nonempty : comp = []
      · rw [if_pos nonempty] at clear
        rw [if_pos nonempty, if_pos nonempty]
        exact ih cleanRest List.not_mem_nil marked known clear
      · rw [if_neg nonempty] at clear
        rw [if_neg nonempty, if_neg nonempty]
        have mirrors : Plain encrypted (component compHash encoder world wrlocked folderid flag comp run).2 → _ :=
          component_mirrors agree nonempty noNul marked known
        generalize component compHash encoder world wrlocked folderid flag comp run = result at mirrors clear ⊢
        obtain ⟨step, after⟩ := result
        cases step with
        | status status =>
          have done := mirrors clear
          rw [done.same]
          exact ⟨rfl, done.marked⟩
        | restart =>
          have done := mirrors clear
          rw [done.same]
          exact ⟨rfl, done.marked⟩
        | next folderid flag =>
          have done := mirrors ((walk_follows cleanRest List.not_mem_nil).plain clear)
          rw [done.same]
          exact ih cleanRest List.not_mem_nil done.marked done.known clear

theorem pathStatusDrive_mirrors {path : List UInt8} (clean : 0 ∉ path) {cache : Cache H} (marked : Marked encrypted cache)
    (clear : Plain encrypted (pathStatusDrive compHash encoder world path cache).2) :
    (pathStatusDrive compHash encoder plain path (unmark cache)).1 = (pathStatusDrive compHash encoder world path cache).1 := by
  have cleanRest : 0 ∉ path.dropWhile (· = slash) := fun inside => clean ((List.dropWhile_sublist _).mem inside)
  unfold pathStatusDrive at clear ⊢
  dsimp only at clear ⊢
  rw [agree.hasTasks, driveFolderLocked_same agree]
  by_cases tasks : ¬world.hasTasks 0 = true
  · rw [if_pos tasks, if_pos tasks]
  · rw [if_neg tasks] at clear
    rw [if_neg tasks, if_neg tasks]
    by_cases root : path.dropWhile (· = slash) = []
    · rw [if_pos root, if_pos root]
    · rw [if_neg root] at clear
      rw [if_neg root, if_neg root]
      have start : (⟨unmark cache, []⟩ : Run H) = unmarkRun ⟨cache, []⟩ := rfl
      have first : Plain encrypted (walk compHash encoder world false (path.dropWhile (· = slash)) [] 0 false ⟨cache, []⟩).2 → _ :=
        walk_mirrors agree cleanRest List.not_mem_nil marked fun absurd => Bool.noConfusion absurd
      rw [start]
      generalize walk compHash encoder world false (path.dropWhile (· = slash)) [] 0 false ⟨cache, []⟩ = result at first clear ⊢
      obtain ⟨status, middle⟩ := result
      cases status with
      | some status => rw [(first clear).1]
      | none =>
        have follows : Follows middle (walk compHash encoder world true (path.dropWhile (· = slash)) [] 0 false middle).2 :=
          walk_follows cleanRest List.not_mem_nil
        have second : Marked encrypted middle.cache →
            Plain encrypted (walk compHash encoder world true (path.dropWhile (· = slash)) [] 0 false middle).2 → _ :=
          fun marked => walk_mirrors agree cleanRest List.not_mem_nil marked fun absurd => Bool.noConfusion absurd
        dsimp only at clear ⊢
        generalize walk compHash encoder world true (path.dropWhile (· = slash)) [] 0 false middle = result at follows second clear ⊢
        obtain ⟨status, after⟩ := result
        have clearAfter : Plain encrypted after := by cases status <;> exact clear
        obtain ⟨sameFirst, markedMiddle⟩ := first (follows.plain clearAfter)
        rw [sameFirst]
        dsimp only
        rw [(second markedMiddle clearAfter).1]
        cases status <;> rfl

end Simulation

section Tree

variable {tree : Tree} {encoders : ℕ → TextEncdec} {encrypted : ℕ → Bool} {folderid : ℕ}

/-- No folder is encrypted. -/
abbrev nowhere : ℕ → Bool := fun _ => false

theorem stored_outside (outside : encrypted folderid = false) (name : Name) : stored encoders encrypted folderid name = name :=
  if_neg (by rw [outside]; exact Bool.false_ne_true)

theorem findFolder_agree (outside : encrypted folderid = false) (name : Name) :
    findFolder (tree.world encoders nowhere) folderid name =
      (findFolder (tree.world encoders encrypted) folderid name).map fun row => { row with encrypted := false } := by
  simp only [findFolder, Tree.world]
  induction tree.folder with
  | nil => rfl
  | cons row rest ih =>
    obtain ⟨id, parent, own⟩ := row
    simp only [List.map_cons, List.find?_cons]
    by_cases here : parent = folderid
    · subst here
      rw [stored_outside outside, stored_outside rfl]
      by_cases same : own = name
      · simp [same]
      · simpa [same] using ih
    · simpa [here] using ih

theorem findFile_agree (outside : encrypted folderid = false) (name : Name) :
    findFile (tree.world encoders nowhere) folderid name = findFile (tree.world encoders encrypted) folderid name := by
  simp only [findFile, Tree.world]
  induction tree.file with
  | nil => rfl
  | cons row rest ih =>
    simp only [List.map_cons, List.find?_cons]
    by_cases here : row.parentfolderid = folderid
    · subst here
      rw [stored_outside outside, stored_outside rfl]
      by_cases same : row.name = name
      · simp [same]
      · simpa [same] using ih
    · simpa [here] using ih

theorem tree_agree : Agree encrypted (tree.world encoders encrypted) (tree.world encoders nowhere) where
  marked row inside := by
    obtain ⟨⟨id, parent, name⟩, -, rfl⟩ := List.mem_map.mp inside
    rfl
  idle folderid idle := by
    have none : tree.fstasks folderid = none := Option.map_eq_none_iff.mp idle
    simp only [Tree.world, none, Option.map_none]
  fstasks folderid outside := by
    have same : stored encoders nowhere folderid = stored encoders encrypted folderid := by
      funext name
      rw [stored_outside outside, stored_outside rfl]
    simp only [Tree.world, same]
  folder folderid name outside := findFolder_agree outside name
  file folderid name outside := findFile_agree outside name
  hasTasks := rfl
  ok := rfl

end Tree

section Status

/-- The status of a path is asked for: the tree, which folders are encrypted, the encoders and which of them are there, and
what is in the cache. -/
structure Input (H : Type) where
  compHash : Name → ℕ → H
  tree : Tree
  encrypted : ℕ → Bool
  encoders : ℕ → TextEncdec
  available : ℕ → Bool
  path : List UInt8
  clean : 0 ∉ path
  cache : Cache H
  marked : Marked encrypted cache

variable {H : Type} [DecidableEq H] (input : Input H)

/-- `pcryptofolder_fldencoder_get` -/
def Input.encoder (folderid : ℕ) : Option TextEncdec :=
  if input.available folderid then some (input.encoders folderid) else none

/-- The status and what was looked up for it. -/
def Input.result : PathStatus × Run H :=
  pathStatusDrive input.compHash input.encoder (input.tree.world input.encoders input.encrypted) input.path input.cache

/-- The status if no folder were encrypted. -/
def Input.plain : PathStatus :=
  (pathStatusDrive input.compHash input.encoder (input.tree.world input.encoders nowhere) input.path (unmark input.cache)).1

/-- The status is that of the same tree without encryption, and each name in an encrypted folder is looked up as it is
stored. -/
def Meets : Prop :=
  input.result.1 = input.plain ∧ ∀ look ∈ input.result.2.looked, input.encrypted look.folderid = true →
    look.used = some (encname (input.encoders look.folderid) look.comp)

/-- On the way no name is looked up in an encrypted folder. -/
def Fits : Prop := Plain input.encrypted input.result.2

theorem honest {look : Lookup} (inside : look ∈ input.result.2.looked) : Honest look := by
  obtain ⟨more, same, honest⟩ : Follows ⟨input.cache, []⟩ input.result.2 := pathStatusDrive_follows input.clean
  rw [same, List.nil_append] at inside
  exact honest look inside

/-- What an honest lookup uses is not the name as it is stored. -/
theorem honest_used {look : Lookup} (honest : Honest look) (encoder : TextEncdec) : look.used ≠ some (encname encoder look.comp) := by
  rcases honest.used with refused | plain
  · rw [refused]
    exact Option.some_ne_none _ ∘ Eq.symm
  · rw [plain]
    intro same
    have longer := (encname_long encoder honest.nonempty honest.noNul).1
    rw [← Option.some.inj same] at longer
    exact lt_irrefl _ longer

/-- The status below encrypted folders is right exactly when no name has to be looked up there. -/
theorem status_iff : Meets input ↔ Fits input := by
  constructor
  · rintro ⟨-, copied⟩ look inside
    cases secret : input.encrypted look.folderid with
    | false => rfl
    | true => exact absurd (copied look inside secret) (honest_used (honest input inside) _)
  · intro fits
    refine ⟨(pathStatusDrive_mirrors tree_agree input.clean input.marked fits).symm, fun look inside secret => ?_⟩
    exact absurd ((fits look inside).symm.trans secret) Bool.noConfusion

/-- The folder `E` is encrypted, and `a` is being created in it. -/
def createdBelow : Input (Name × ℕ) where
  compHash comp folderid := (comp, folderid)
  tree :=
    { folder := [(1, 0, [69])]
      file := []
      fstasks := fun folderid => if folderid = 1 then some ⟨[[97]], [], [], []⟩ else none
      hasTasks := fun folderid => folderid < 2
      ok := true }
  encrypted folderid := folderid = 1
  encoders _ := ⟨default, default, List.replicate 16 9, by decide⟩
  available _ := true
  path := [slash, 69, slash, 97]
  clean := by decide
  cache := { slot := fun _ => ⟨([], 0), 0, false, false⟩, lru := [0], linked := [] }
  marked _ absurd := Bool.noConfusion absurd

/-- The change in the encrypted folder is not seen. -/
theorem status_differs : ¬Meets createdBelow := by
  rintro ⟨same, -⟩
  have refused : ∀ encoder, moveEncnameToBuff encoder [97] = none := moveEncnameToBuff_none (by decide) (by decide)
  have folder : (69 : UInt8) ≠ slash := by decide
  have name : (97 : UInt8) ≠ slash := by decide
  have encrypted : createdBelow.result.1 = .inSync := by
    simp [Input.result, createdBelow, pathStatusDrive, walk, component, pending, enter, last, pendingLast, queryName, Cache.find,
      Cache.add, Run.look, Tree.world, findFolder, stored, refused, FolderTasks.map, folder, name]
  have plain : createdBelow.plain = .inProg := by decide +kernel
  rw [encrypted, plain] at same
  cases same

end Status

end Pclsync.Proofs.PathStatus
