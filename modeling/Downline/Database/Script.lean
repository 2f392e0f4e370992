import Downline.Database.Client

/-!
A server that follows a script: it answers each statement with the next reply of the script, and
keeps what it was sent.
-/

namespace Downline.Database

/-- A server with its script and what it was sent. -/
structure Script where
  refusal : Option String := none
  /-- The replies to come; after them there are no rows. -/
  replies : List Reply := []
  presented : Option (String × String) := none
  /-- The statements that were sent, the last one first. -/
  sent : List Statement := []
  /-- After so many statements everything stops; if there may be none, already before the login. -/
  limit : Option Nat := none
deriving Inhabited

namespace Script

/-- The statements that were sent, in their order. -/
def statements (s : Script) : List Statement := s.sent.reverse

def logIn (user password : String) (s : Script) : Except Fault Unit × Script :=
  if s.limit = some 0 then (.error (.halt .stopped), s)
  else
    let s := { s with presented := some (user, password) }
    match s.refusal with
    | some reason => (.error (.error (.connection reason)), s)
    | none => (.ok (), s)

def send (q : Statement) (s : Script) : Except Halt Reply × Script :=
  let s := { s with sent := q :: s.sent }
  if s.limit.any fun n => n ≤ s.sent.length then (.error .stopped, s)
  else
    match s.replies with
    | [] => (.ok (.rows []), s)
    | reply :: rest => (.ok reply, { s with replies := rest })

def link : Link Script where
  logIn := logIn
  send := send
  now _ := 0

end Script

end Downline.Database
