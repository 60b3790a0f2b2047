import Mathlib.Data.List.Basic
import Mathlib.Data.UInt

/-! The handlers of requests by their type. The table starts at a lower band and grows when a handler is registered
above its end; an access outside of it has no result. -/

namespace Pclsync.Rpc

abbrev Text := List UInt8

/-- A handler of `prpc_handler`, which gets the value of the request. -/
abbrev Handler := Text → Int32

/-- `calbacks_lower_band` -/
abbrev lowerBand : ℤ := 20

/-- `INT_MAX` -/
abbrev intMax : ℤ := 2 ^ 31 - 1

/-- `rpc_message_t` without its length. -/
structure Message where
  type : UInt32
  value : Text

/-- What a request is answered with. -/
inductive Reply
  | status
  | invalidType
  | noCallback
  | done
  | failed (code : UInt32)
deriving DecidableEq, Repr

/-- The type and the value of a response of `respond_api`. -/
def Reply.message : Reply → Option (UInt32 × String)
  | .status => none
  | .invalidType => some (13, "Invalid type.")
  | .noCallback => some (13, "No callback with this id registered.")
  | .done => some (0, "")
  | .failed code => some (code, "Callback returned error code.")

/-- The block at `handlers`, whose length is `handlers_size`. -/
abbrev Table := List (Option Handler)

/-- `prpc_init` -/
def prpcInit (handlersSize : ℕ) : Table := List.replicate handlersSize none

/-- The table after the start. -/
def start : Table := prpcInit 15

/-- The table after `prpc_init` with another size and the `memcpy` of the old one. -/
def grow (handlers : Table) (handlersSize : ℕ) : Table := handlers ++ (prpcInit handlersSize).drop handlers.length

/-- `prpc_register`: what it returns, and the table. -/
def prpcRegister (handlers : Table) (cmdid : Int32) (handler : Option Handler) : Option (ℤ × Table) :=
  if cmdid.toInt < lowerBand then some (-1, handlers)
  else if intMax < lowerBand + handlers.length then none
  else
    let grown :=
      if cmdid.toInt > lowerBand + handlers.length then grow handlers (cmdid.toInt - lowerBand + 1).toNat else handlers
    if (cmdid.toInt - lowerBand).toNat < grown.length then some (0, grown.set (cmdid.toInt - lowerBand).toNat handler)
    else none

/-- What a callback returned. -/
def outcome (cbret : Int32) : Reply := if cbret = 0 then .done else .failed cbret.toUInt32

/-- `respond_api` -/
def respondApi (handlers : Table) (request : Message) : Option Reply :=
  let cbidx : ℤ := request.type.toNat - lowerBand
  if lowerBand + handlers.length ≤ request.type.toNat then some .invalidType
  else if cbidx < 0 then none
  else
    match handlers[cbidx.toNat]? with
    | none => none
    | some none => some .noCallback
    | some (some handler) => some (outcome (handler request.value))

/-- The part of `respond` that chooses who answers. -/
def respond (handlers : Table) (request : Message) : Option Reply :=
  if request.type < 20 then some .status else respondApi handlers request

/-- What is done with the table. -/
inductive Op
  | register (cmdid : Int32) (handler : Option Handler)
  | request (request : Message)

def apply (handlers : Table) : Op → Option Table
  | .register cmdid handler => (prpcRegister handlers cmdid handler).map Prod.snd
  | .request request => (respond handlers request).map fun _ => handlers

/-- The table after what was done, the last of which comes first. -/
def exec : List Op → Option Table
  | [] => some start
  | op :: earlier => (exec earlier).bind fun handlers => apply handlers op

end Pclsync.Rpc
