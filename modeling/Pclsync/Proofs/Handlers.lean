import Pclsync.Rpc.Handlers

/-! Registered handlers are found by their types until one is registered for the id right behind the end of the table.
-/

namespace Pclsync.Proofs.Handlers
open Rpc

/-- The handler that was registered last for an id. -/
def lastRegistered : List Op → ℤ → Option Handler
  | [], _ => none
  | .register cmdid handler :: earlier, id => if cmdid.toInt = id then handler else lastRegistered earlier id
  | .request _ :: earlier, id => lastRegistered earlier id

/-- The end of the table: the least id above those that were registered, or above those that there is room for at the
start. -/
def top : List Op → ℤ
  | [] => 35
  | .register cmdid _ :: earlier => max (top earlier) (cmdid.toInt + 1)
  | .request _ :: earlier => top earlier

/-- No handler is registered for the id at the end of the table, and none after the one for the greatest number. -/
def Fits : List Op → Prop
  | [] => True
  | .register cmdid _ :: earlier => Fits earlier ∧ (lowerBand ≤ cmdid.toInt → cmdid.toInt ≠ top earlier ∧ top earlier ≤ intMax)
  | .request _ :: earlier => Fits earlier

/-- A request is answered by a handler, or by an error if there is none. -/
def Answers (handler : Option Handler) (request : Message) (reply : Reply) : Prop :=
  match handler with
  | none => reply = .invalidType ∨ reply = .noCallback
  | some handler => reply = outcome (handler request.value)

/-- No access was outside of the table, and requests are answered by the handlers that were registered last. -/
def Meets (ops : List Op) : Prop :=
  ∃ handlers, exec ops = some handlers ∧ ∀ request : Message, 20 ≤ request.type →
    ∃ reply, respond handlers request = some reply ∧ Answers (lastRegistered ops request.type.toNat) request reply

variable {handlers : Table} {ops : List Op}

/-- What is known of the table. -/
structure Kept (ops : List Op) (handlers : Table) : Prop where
  size : lowerBand + handlers.length = top ops
  found : ∀ index : ℕ, (handlers[index]?).join = lastRegistered ops (lowerBand + index)

theorem kept_start : Kept [] start := by
  constructor
  · rfl
  · intro index
    simp only [start, prpcInit, List.getElem?_replicate, lastRegistered]
    split <;> rfl

theorem length_grow (size : ℕ) (larger : handlers.length ≤ size) : (grow handlers size).length = size := by
  simp only [grow, prpcInit, List.length_append, List.length_drop, List.length_replicate]
  omega

theorem join_grow (size index : ℕ) : ((grow handlers size)[index]?).join = (handlers[index]?).join := by
  unfold grow
  by_cases inside : index < handlers.length
  · rw [List.getElem?_append_left inside]
  · have absent : handlers[index]? = none := List.getElem?_eq_none (by omega)
    rw [List.getElem?_append_right (by omega), absent, List.getElem?_drop, prpcInit, List.getElem?_replicate]
    split <;> rfl

theorem join_set {index place : ℕ} (inside : place < handlers.length) (handler : Option Handler) :
    ((handlers.set place handler)[index]?).join = if place = index then handler else (handlers[index]?).join := by
  rw [List.getElem?_set]
  by_cases same : place = index
  · simp only [same, ite_true] at inside ⊢
    simp only [inside, ite_true]
    rfl
  · simp only [same, ite_false]

/-- A handler that is registered is found from then on, and so are the others. -/
theorem register_kept (kept : Kept ops handlers) {cmdid : Int32} {handler : Option Handler}
    (fits : lowerBand ≤ cmdid.toInt → cmdid.toInt ≠ top ops ∧ top ops ≤ intMax) :
    ∃ code after, prpcRegister handlers cmdid handler = some (code, after) ∧ Kept (.register cmdid handler :: ops) after := by
  have size := kept.size
  unfold prpcRegister
  by_cases below : cmdid.toInt < lowerBand
  · refine ⟨-1, handlers, if_pos below, ?_, ?_⟩
    · unfold top
      omega
    · intro index
      have other : ¬cmdid.toInt = lowerBand + index := by omega
      simp only [lastRegistered, other, ite_false]
      exact kept.found index
  · obtain ⟨notNext, small⟩ := fits (by omega)
    rw [if_neg below, if_neg (by omega)]
    have grown : ∃ table, (if cmdid.toInt > lowerBand + handlers.length then grow handlers (cmdid.toInt - lowerBand + 1).toNat else handlers) = table ∧
        (lowerBand + table.length : ℤ) = max (top ops) (cmdid.toInt + 1) ∧ ∀ index : ℕ, (table[index]?).join = (handlers[index]?).join := by
      by_cases above : cmdid.toInt > lowerBand + handlers.length
      · refine ⟨_, if_pos above, ?_, fun index => join_grow _ index⟩
        have length : (grow handlers (cmdid.toInt - lowerBand + 1).toNat).length = (cmdid.toInt - lowerBand + 1).toNat := length_grow _ (by omega)
        rw [length]
        omega
      · exact ⟨handlers, if_neg above, by omega, fun _ => rfl⟩
    obtain ⟨table, same, length, joined⟩ := grown
    rw [same]
    have inside : (cmdid.toInt - lowerBand).toNat < table.length := by omega
    refine ⟨0, table.set (cmdid.toInt - lowerBand).toNat handler, if_pos inside, ?_, ?_⟩
    · rw [List.length_set]
      exact length
    · intro index
      rw [join_set inside, joined, kept.found]
      by_cases here : cmdid.toInt = lowerBand + index
      · rw [lastRegistered, if_pos here, if_pos (by omega)]
      · rw [lastRegistered, if_neg here, if_neg (by omega)]

/-- Each request is answered. -/
theorem respond_kept (kept : Kept ops handlers) {request : Message} (api : 20 ≤ request.type) :
    ∃ reply, respond handlers request = some reply ∧ Answers (lastRegistered ops request.type.toNat) request reply := by
  have band : 20 ≤ request.type.toNat := UInt32.le_iff_toNat_le.mp api
  have found := kept.found (request.type.toNat - 20)
  have lower : lowerBand = 20 := rfl
  have named : lowerBand + ((request.type.toNat - 20 : ℕ) : ℤ) = (request.type.toNat : ℤ) := by omega
  have place : ((request.type.toNat : ℤ) - lowerBand).toNat = request.type.toNat - 20 := by omega
  rw [named] at found
  unfold respond respondApi
  rw [if_neg (UInt32.not_lt.mpr api)]
  by_cases outside : lowerBand + handlers.length ≤ request.type.toNat
  · refine ⟨.invalidType, if_pos outside, ?_⟩
    rw [List.getElem?_eq_none (by omega)] at found
    rw [← found]
    exact .inl rfl
  · simp only [outside, place, ite_false]
    rw [if_neg (by omega)]
    have inside : request.type.toNat - 20 < handlers.length := by omega
    rw [List.getElem?_eq_getElem inside] at found ⊢
    rw [← found]
    cases handlers[request.type.toNat - 20] with
    | none => exact ⟨.noCallback, rfl, .inr rfl⟩
    | some handler => exact ⟨outcome (handler request.value), rfl, rfl⟩

/-- While the ids fit, no access is outside of the table. -/
theorem exec_kept (fits : Fits ops) : ∃ handlers, exec ops = some handlers ∧ Kept ops handlers := by
  induction ops with
  | nil => exact ⟨start, rfl, kept_start⟩
  | cons op earlier ih =>
    cases op with
    | register cmdid handler =>
      obtain ⟨fitsEarlier, fitsNow⟩ := fits
      obtain ⟨handlers, executed, kept⟩ := ih fitsEarlier
      obtain ⟨code, after, registered, keptAfter⟩ := register_kept kept fitsNow
      refine ⟨after, ?_, keptAfter⟩
      simp only [exec, executed, Option.bind_some, apply, registered, Option.map_some]
    | request request =>
      obtain ⟨handlers, executed, kept⟩ := ih fits
      have answered : ∃ reply, respond handlers request = some reply := by
        by_cases status : request.type < 20
        · exact ⟨.status, if_pos status⟩
        · obtain ⟨reply, responded, -⟩ := respond_kept kept (UInt32.not_lt.mp status)
          exact ⟨reply, responded⟩
      obtain ⟨reply, responded⟩ := answered
      refine ⟨handlers, ?_, kept.size, kept.found⟩
      simp only [exec, executed, Option.bind_some, apply, responded, Option.map_some]

/-- A registration behind the end of the table has no result. -/
theorem register_outside (kept : Kept ops handlers) {cmdid : Int32} {handler : Option Handler} {result : ℤ × Table}
    (registered : prpcRegister handlers cmdid handler = some result) (api : lowerBand ≤ cmdid.toInt) :
    cmdid.toInt ≠ top ops ∧ top ops ≤ intMax := by
  have size := kept.size
  unfold prpcRegister at registered
  rw [if_neg (by omega)] at registered
  by_cases overflow : intMax < lowerBand + handlers.length
  · rw [if_pos overflow] at registered
    cases registered
  · rw [if_neg overflow] at registered
    refine ⟨fun next => ?_, by omega⟩
    have notAbove : ¬cmdid.toInt > lowerBand + handlers.length := by omega
    rw [if_neg notAbove] at registered
    dsimp only at registered
    rw [if_neg (by omega)] at registered
    cases registered

theorem exec_fits (executed : exec ops = some handlers) : Fits ops := by
  induction ops generalizing handlers with
  | nil => trivial
  | cons op earlier ih =>
    obtain ⟨before, executedBefore, applied⟩ := Option.bind_eq_some_iff.mp executed
    have fits := ih executedBefore
    cases op with
    | request request => exact fits
    | register cmdid handler =>
      obtain ⟨other, executedOther, kept⟩ := exec_kept fits
      obtain rfl : before = other := Option.some.inj (executedBefore.symm.trans executedOther)
      obtain ⟨result, registered, -⟩ := Option.map_eq_some_iff.mp applied
      exact ⟨fits, fun api => register_outside kept registered api⟩

/-- Dispatch is right, and stays inside of the table, exactly as long as no handler is registered right behind its end.
-/
theorem dispatch_iff (ops : List Op) : Meets ops ↔ Fits ops := by
  constructor
  · rintro ⟨handlers, executed, -⟩
    exact exec_fits executed
  · intro fits
    obtain ⟨handlers, executed, kept⟩ := exec_kept fits
    exact ⟨handlers, executed, fun request api => respond_kept kept api⟩

/-- The first handler behind the end of the table that there is at the start. -/
theorem dispatch_outside : ¬Meets [.register 35 none] := by
  rintro ⟨handlers, executed, -⟩
  cases executed

end Pclsync.Proofs.Handlers
