import Pclsync.Fs.Modified

/-! The upload of a modified file. The server puts the new file together from what it is
sent of the local one and from what it copies itself of the remote one. -/

namespace Pclsync.Fs.Upload
open Pclsync.Library

/-- `PSYNC_MAX_COPY_FROM_REQ` -/
def maxCopyFromReq : ℕ := 32 * 1024 * 1024

/-- Where the bytes of a request are. -/
inductive Source where
  | remote
  | datafile
deriving DecidableEq, Repr

/-- `upload_modify_send_copy_from` or `upload_modify_send_local` -/
structure Req where
  source : Source
  offset : ℕ
  length : ℕ
deriving DecidableEq, Repr

/-- What happens in one pass through the loop: whether there is a reply to read and it has no
error, whether the request could be sent, and whether the upload is to stop. -/
structure Turn where
  ready : Bool
  reply : Bool
  sent : Bool
  stop : Bool
deriving DecidableEq, Repr

/-- The request of a pass through the loop of `upload_modify`, with the next offset and the
intervals that are left. There is none if the interval tree is broken. -/
def request (fsize coff : ℕ) : List (ℕ × ℕ) → Option (Req × ℕ × List (ℕ × ℕ))
  | (lo, hi) :: rest =>
    if coff < lo then
      let len := min (min lo fsize - coff) maxCopyFromReq
      some (⟨.remote, coff, len⟩, coff + len, (lo, hi) :: rest)
    else if coff < hi then some (⟨.datafile, coff, min hi fsize - coff⟩, hi, rest)
    else none
  | [] =>
    let len := min (fsize - coff) maxCopyFromReq
    some (⟨.remote, coff, len⟩, coff + len, [])

/-- What was asked for, and how many replies are left to read if the loop came to its end. -/
structure Sent where
  issued : List Req
  pending : Option ℕ
deriving DecidableEq, Repr

/-- The loop of `upload_modify`. -/
def sendAll (fsize : ℕ) : List Turn → ℕ → ℕ → List (ℕ × ℕ) → Sent
  | [], coff, reqs, _ => ⟨[], if coff < fsize then none else some reqs⟩
  | turn :: turns, coff, reqs, intervals =>
    if coff < fsize then
      if reqs ≠ 0 ∧ turn.ready ∧ ¬ turn.reply then ⟨[], none⟩
      else
        let reqs := if reqs ≠ 0 ∧ turn.ready then reqs - 1 else reqs
        match request fsize coff intervals with
        | none => ⟨[], some reqs⟩
        | some (req, coff, intervals) =>
          if ¬ turn.sent ∨ turn.stop then ⟨[req], none⟩
          else
            let rest := sendAll fsize turns coff (reqs + 1) intervals
            ⟨req :: rest.issued, rest.pending⟩
    else ⟨[], some reqs⟩

/-- `upload_modify` up to `large_upload_save`: the requests, and whether all of them have a
reply without an error. -/
def uploadModify (fsize : ℕ) (tree : Intervals) (turns : List Turn) (replies : List Bool) : List Req × Bool :=
  let sent := sendAll fsize turns 0 0 tree.list
  (sent.issued, sent.pending.any fun reqs => replies.take reqs = List.replicate reqs true)

end Pclsync.Fs.Upload
