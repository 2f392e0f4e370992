import Downline.Decimal.Literal

/-!
The arguments of the command line: a command, its own options, and the option for the settings file,
which may stand before the command or behind it.
-/

namespace Downline.CommandLine

/-- A command with its own options. -/
inductive Command where
  | propagate
  /-- Re-keys the chains of placeholder holders, in at most so many passes. -/
  | rekey (passes : Option Nat)
  | census
  | person (id : String)
  /-- Works again and again. -/
  | daemon
deriving DecidableEq, Inhabited, Repr

/-- What the command line asks for. -/
structure Invocation where
  /-- The settings file, with or without its extension. -/
  settings : String := "lineage"
  command : Command
deriving DecidableEq, Inhabited, Repr

/-- Why nothing is done. -/
inductive Refusal where
  | help
  | misuse
deriving DecidableEq, Inhabited, Repr

/-- The options that take a value. -/
inductive Key where
  | settings
  | passes
  | id
deriving DecidableEq, Inhabited, Repr

/-- An argument by its form. -/
inductive Argument where
  /-- An option, with its value if that is part of the argument. -/
  | option (name : String) (value : Option String)
  | word (s : String)
  | dashes
deriving DecidableEq, Inhabited, Repr

/-- The form of an argument. The value of a long option follows an equals sign; that of a short one
follows at once or behind an equals sign. -/
def Argument.of (s : String) : Argument :=
  match s.toList with
  | '-' :: '-' :: [] => .dashes
  | '-' :: '-' :: cs =>
    let name := String.ofList (cs.takeWhile (· != '='))
    match cs.dropWhile (· != '=') with
    | _ :: value => .option ("--" ++ name) (some (String.ofList value))
    | [] => .option ("--" ++ name) none
  | '-' :: c :: '=' :: value => .option (String.ofList ['-', c]) (some (String.ofList value))
  | ['-', c] => .option (String.ofList ['-', c]) none
  | '-' :: c :: value => .option (String.ofList ['-', c]) (some (String.ofList value))
  | _ => .word s

/-- Whether an argument can be the value of the option before it. -/
def isValue (s : String) : Bool := s == "-" || !s.startsWith "-"

def keyOf? (name : String) : Option Key :=
  if name = "-c" || name = "--config" then some .settings
  else if name = "--passes" then some .passes
  else if name = "--id" then some .id
  else none

/-- A number of passes: a whole number of 64 bits with a sign that fits 32 bits without one. -/
def passesOf? (s : String) : Option Nat :=
  (Literal.int64? s.toList).bind fun n =>
    if 0 ≤ n && n < UInt32.size then some n.toNat else none

/-- The values of the options that were read. -/
structure Options where
  settings : Option String := none
  passes : Option Nat := none
  id : Option String := none
deriving DecidableEq, Inhabited, Repr

/-- Sets an option to a value of its type. It must not be set yet. -/
def Options.set (o : Options) (key : Key) (value : String) : Except Refusal Options :=
  match key with
  | .settings =>
    if o.settings.isSome then .error .misuse else .ok { o with settings := some value }
  | .id => if o.id.isSome then .error .misuse else .ok { o with id := some value }
  | .passes =>
    match o.passes, passesOf? value with
    | none, some n => .ok { o with passes := some n }
    | _, _ => .error .misuse

/-- Options on the way: a value in an argument of its own waits until the next option shows up. -/
structure Reading where
  options : Options := {}
  waiting : Option (Key × String) := none
deriving DecidableEq, Inhabited, Repr

def Reading.settle (r : Reading) : Except Refusal Options :=
  match r.waiting with
  | none => .ok r.options
  | some (key, value) => r.options.set key value

/-- Reads the options at the front, up to the first argument that is none. -/
def readOptions (allowed : List Key) : Reading → List String →
    Except Refusal (Reading × List String)
  | r, [] => .ok (r, [])
  | r, arg :: rest =>
    match Argument.of arg with
    | .word _ | .dashes => .ok (r, arg :: rest)
    | .option name value =>
      if name = "-h" || (name = "--help" && value.isNone) then do
        let _ ← r.settle
        throw .help
      else
        match (keyOf? name).filter allowed.contains, value, rest with
        | none, _, _ => .error .misuse
        | some key, some value, rest => do
          let options ← r.settle
          readOptions allowed { options := ← options.set key value } rest
        | some key, none, value :: rest =>
          if isValue value then do
            readOptions allowed { options := ← r.settle, waiting := some (key, value) } rest
          else .error .misuse
        | some _, none, [] => .error .misuse

/-- The keys that a command allows besides that of the settings file. -/
def keysOf? : (name : String) → Option (List Key)
  | "propagate" | "census" | "daemon" => some []
  | "rekey" => some [.passes]
  | "show" => some [.id]
  | _ => none

def commandOf (name : String) (options : Options) : Except Refusal Command :=
  match name with
  | "propagate" => .ok .propagate
  | "census" => .ok .census
  | "daemon" => .ok .daemon
  | "rekey" => .ok (.rekey options.passes)
  | "show" =>
    match options.id with
    | some id => .ok (.person id)
    | none => .error .misuse
  | _ => .error .misuse

/-- What a request for help comes to. It may name one command, or help itself. -/
def helpOn : List String → Refusal
  | [] => .help
  | [name] => if (keysOf? name).isSome || name == "help" then .help else .misuse
  | _ => .misuse

/-- What the arguments ask for. An option for the settings file behind the command counts more than
one before it. A value that waits before the command is settled last, so that help on the command
comes first. -/
def parse (args : List String) : Except Refusal Invocation := do
  let (before, rest) ← readOptions [.settings] {} args
  match rest with
  | [] => throw .misuse
  | name :: rest =>
    if name = "help" then throw (helpOn rest)
    match keysOf? name with
    | none => throw .misuse
    | some keys =>
      let (behind, rest) ← readOptions (.settings :: keys) {} rest
      if rest != [] && rest != ["--"] then throw .misuse
      let inner ← behind.settle
      let command ← commandOf name inner
      let outer ← before.settle
      let settings := (inner.settings.orElse fun _ => outer.settings).getD "lineage"
      return { settings, command }

end Downline.CommandLine
