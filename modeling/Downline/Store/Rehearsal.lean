import Std.Data.HashMap
import Downline.Store.Memory

/-!
A memory store under rehearsal: calls take time on a clock of the store's own, and scripted
interventions change the store or break a call off when a given call of an operation comes.
-/

namespace Downline

/-- Whether an intervention comes before a call reaches the memory or after it has succeeded there. -/
inductive Moment where
  | before
  | after
deriving DecidableEq, Inhabited, Repr

/-- A scripted disturbance of one call. -/
structure Intervention where
  moment : Moment
  operation : Operation
  /-- Which call of the operation is meant, counted from one. -/
  nth : Nat
  edits : List Edit := []
  /-- How the call is broken off after the edits, if it is. -/
  fault : Option Fault := none

/-- A memory store with its clock and the interventions that await it. -/
structure Rehearsal where
  memory : MemoryStore := {}
  interventions : List Intervention := []
  /-- How many calls of each operation have come. -/
  counts : Std.HashMap Operation Nat := ∅
  latency : Nat := 0
  now : Nat := 0
  /-- The time after which nothing happens any more. -/
  deadline : Option Nat := none

namespace Rehearsal

def nextNumber (r : Rehearsal) (op : Operation) : Nat :=
  r.counts[op]?.getD 0 + 1

/-- The interventions meant for one call, in their order. -/
def meant (r : Rehearsal) (moment : Moment) (op : Operation) (number : Nat) : List Intervention :=
  r.interventions.filter fun i => i.moment == moment && i.operation == op && i.nth == number

def edit (r : Rehearsal) (edits : List Edit) : Rehearsal :=
  { r with memory := edits.foldl MemoryStore.edit r.memory }

/-- Carries out interventions in order. The first that breaks the call off is the last. -/
def intervene (r : Rehearsal) : List Intervention → Option Fault × Rehearsal
  | [] => (none, r)
  | i :: rest =>
    let r := r.edit i.edits
    match i.fault with
    | some f => (some f, r)
    | none => intervene r rest

/-- Takes a call in. One that is broken off before it reaches the memory leaves no trace there. -/
def enter (c : Call) (r : Rehearsal) : Except Fault Ticket × Rehearsal :=
  let number := r.nextNumber c.operation
  let r := { r with counts := r.counts.insert c.operation number }
  match r.intervene (r.meant .before c.operation number) with
  | (some f, r) => (.error f, r)
  | (none, r) =>
    (.ok { number, due := r.now + r.latency }, { r with memory := r.memory.arrive })

/-- Whether a call falls due only after the deadline. -/
def isLate (r : Rehearsal) (t : Ticket) : Bool :=
  match r.deadline with
  | some d => decide (d < t.due)
  | none => false

/-- Carries out a call when it is due. One that is broken off afterwards has taken effect. -/
def finish (c : Call) (t : Ticket) (r : Rehearsal) : Except Fault c.Answer × Rehearsal :=
  if r.isLate t then (.error (.halt .stopped), r)
  else
    let (answer, memory) := MemoryStore.store.finish c t r.memory
    let r := { r with now := max r.now t.due, memory }
    match answer with
    | .error f => (.error f, r)
    | .ok a =>
      match r.intervene (r.meant .after c.operation t.number) with
      | (some f, r) => (.error f, r)
      | (none, r) => (.ok a, r)

/-- A rehearsal as a store. -/
def store : Store Rehearsal where
  enter := enter
  finish := finish
  now r := r.now

end Rehearsal

end Downline
