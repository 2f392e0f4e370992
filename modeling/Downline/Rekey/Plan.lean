import Downline.Store.Call

/-!
What re-keying makes of a freshly read path: the people to write and the login to give them, or
the reason to leave the path alone.
-/

namespace Downline

/-- Why a path is left alone. None of these is an error. -/
inductive SkipReason where
  /-- The end no longer lies below the start. -/
  | pathGone
  /-- The start no longer holds a real login. -/
  | startNotFull
  /-- Someone between start and end no longer holds the placeholder. -/
  | interiorChanged
  | nothingToWrite
deriving DecidableEq, Inhabited, Repr

/-- The people to write and the login to give them. -/
structure RekeyPlan where
  credentials : Credentials
  /-- Holders of the placeholder, written only while they still hold it. -/
  targets : List PersonId
  /-- An end with no login, written only while it is not full. -/
  emptyEnd : Option PersonId
deriving DecidableEq, Inhabited, Repr

/-- Plans the re-keying of a path, its start first. Everyone between start and end must hold the
placeholder, and either there is someone in between or the end holds it too. -/
def planRekey (path : List PathNode) (placeholder : String) : Except SkipReason RekeyPlan :=
  match path with
  | [] => .error .pathGone
  | [_] => .error .pathGone
  | start :: next :: below =>
    let interior := (next :: below).dropLast
    let last := (next :: below).getLast (List.cons_ne_nil next below)
    if start.state placeholder ≠ .full then .error .startNotFull
    else
      match start.credentials? with
      | none => .error .startNotFull
      | some credentials =>
        if !interior.all (·.holdsPlaceholder placeholder) then .error .interiorChanged
        else if interior.isEmpty && !last.holdsPlaceholder placeholder then
          .error .nothingToWrite
        else if last.holdsPlaceholder placeholder then
          .ok { credentials, targets := interior.map (·.id) ++ [last.id], emptyEnd := none }
        else
          .ok {
            credentials
            targets := interior.map (·.id)
            emptyEnd := if last.state placeholder = .empty then some last.id else none }

end Downline
