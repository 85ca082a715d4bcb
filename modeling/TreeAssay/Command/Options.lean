import TreeAssay.Command.Argument
/-!
# Options

The options of the command are read from its arguments one by one. A value for
the colour mode and the path are set aside and checked when the next argument
is recognized or the arguments end, so that of several faults the one that is
checked first is reported.
-/

namespace TreeAssay.Command

structure Options where
  path : String
  quiet : Bool
  verbose : Bool
  dump : Bool
  color : ColorMode
  deriving DecidableEq, Repr

inductive Refusal
  | missingPath
  /-- An option that there is not, or a second path. -/
  | unknownArgument
  | repeatedOption
  /-- A value that an option or the path cannot take, or none where there has to be
  one. -/
  | invalidValue
  /-- A value for a switch. -/
  | unexpectedValue
  | help
  | version
  deriving DecidableEq, Repr

def Refusal.exitStatus : Refusal → Nat
  | .help | .version => 0
  | _ => 2

def Refusal.message : Refusal → String
  | .missingPath => "a path is required"
  | .unknownArgument => "unexpected argument"
  | .repeatedOption => "an option is given more than once"
  | .invalidValue => "invalid or missing value"
  | .unexpectedValue => "unexpected value for a switch"
  | .help => "help requested"
  | .version => "version requested"

/-- A value that is not checked yet. -/
inductive Pending
  | nothing
  /-- A colour mode, whose value may still come. -/
  | color (value : Option String)
  | path (value : String)
  deriving DecidableEq, Repr

structure Parsing where
  path : Option String := none
  quiet : Bool := false
  verbose : Bool := false
  dump : Bool := false
  color : Option ColorMode := none
  pending : Pending := .nothing
  /-- Every further argument is plain. -/
  onlyPlain : Bool := false
  deriving DecidableEq, Repr

namespace Parsing

def setColor (p : Parsing) (value : String) : Except Refusal Parsing :=
  if p.color.isSome then .error .repeatedOption
  else
    match ColorMode.ofName? value with
    | some mode => .ok { p with color := some mode }
    | none => .error .invalidValue

def settle (p : Parsing) : Except Refusal Parsing :=
  let cleared := { p with pending := .nothing }
  match p.pending with
  | .nothing => .ok cleared
  | .color none => .error .invalidValue
  | .color (some value) => cleared.setColor value
  | .path value =>
    if value = "" then .error .invalidValue else .ok { cleared with path := some value }

def throwSwitch (p : Parsing) : Switch → Except Refusal Parsing
  | .quiet => if p.quiet then .error .repeatedOption else .ok { p with quiet := true }
  | .verbose => if p.verbose then .error .repeatedOption else .ok { p with verbose := true }
  | .dump => if p.dump then .error .repeatedOption else .ok { p with dump := true }
  | .help => .error .help
  | .version => .error .version

def takeSwitch (p : Parsing) (switch : Switch) : Except Refusal Parsing := do
  (← p.settle).throwSwitch switch

def takeLetter (p : Parsing) (letter : Char) : Except Refusal Parsing :=
  match Switch.ofLetter? letter with
  | some switch => p.takeSwitch switch
  | none => .error .unknownArgument

/-- Takes the option that sets the colour mode. A value after an equals sign is
checked at once. -/
def takeColor (p : Parsing) (value : Option String) : Except Refusal Parsing := do
  let p ← p.settle
  match value with
  | some value => p.setColor value
  | none => return { p with pending := .color none }

def takeLong (p : Parsing) (name : String) (value : Option String) : Except Refusal Parsing :=
  if name = ColorMode.optionName then p.takeColor value
  else
    match Switch.ofName? name with
    | none => .error .unknownArgument
    | some switch => if value.isSome then .error .unexpectedValue else p.takeSwitch switch

def hasPath (p : Parsing) : Bool :=
  p.path.isSome ||
    match p.pending with
    | .path _ => true
    | _ => false

def takePath (p : Parsing) (text : String) : Except Refusal Parsing :=
  if p.hasPath then .error .unknownArgument
  else return { ← p.settle with pending := .path text }

def take (p : Parsing) (text : String) : Except Refusal Parsing :=
  if p.onlyPlain then p.takePath text
  else
    match Argument.ofText text with
    | .separator => .ok { p with onlyPlain := true }
    | .long name value => p.takeLong name value
    | .short letters => letters.foldlM takeLetter p
    | .plain text =>
      if p.pending = .color none then .ok { p with pending := .color (some text) }
      else p.takePath text

def finish (p : Parsing) : Except Refusal Options := do
  let p ← p.settle
  match p.path with
  | none => .error .missingPath
  | some path => return ⟨path, p.quiet, p.verbose, p.dump, p.color.getD .auto⟩

end Parsing

def Options.ofArguments (arguments : List String) : Except Refusal Options := do
  (← arguments.foldlM Parsing.take {}).finish

end TreeAssay.Command
