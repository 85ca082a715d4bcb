/-!
# Arguments

What the arguments of a command look like, before they mean anything.
-/

namespace TreeAssay.Command

inductive Argument
  /-- Two dashes: after them every argument is plain. -/
  | separator
  /-- Two dashes and a name, and after an equals sign a value. -/
  | long (name : String) (value : Option String)
  /-- One dash and letters. -/
  | short (letters : List Char)
  /-- Anything else, also a single dash. -/
  | plain (text : String)
  deriving DecidableEq, Repr

def Argument.ofText (text : String) : Argument :=
  match text.toList with
  | ['-', '-'] => .separator
  | '-' :: '-' :: rest =>
    let name := String.ofList (rest.takeWhile (· ≠ '='))
    match rest.dropWhile (· ≠ '=') with
    | [] => .long name none
    | _ :: value => .long name (some (String.ofList value))
  | '-' :: letter :: letters => .short (letter :: letters)
  | _ => .plain text

inductive Switch
  | quiet
  | verbose
  | dump
  | help
  | version
  deriving DecidableEq, Repr

namespace Switch

def all : List Switch := [.quiet, .verbose, .dump, .help, .version]

def name : Switch → String
  | .quiet => "quiet"
  | .verbose => "verbose"
  | .dump => "dump"
  | .help => "help"
  | .version => "version"

def letter? : Switch → Option Char
  | .quiet => some 'q'
  | .verbose => some 'v'
  | .dump => none
  | .help => some 'h'
  | .version => some 'V'

def ofName? (name : String) : Option Switch :=
  all.find? (·.name = name)

def ofLetter? (letter : Char) : Option Switch :=
  all.find? (·.letter? = some letter)

end Switch

inductive ColorMode
  | auto
  | always
  | never
  deriving DecidableEq, Repr

namespace ColorMode

def all : List ColorMode := [.auto, .always, .never]

def name : ColorMode → String
  | .auto => "auto"
  | .always => "always"
  | .never => "never"

def ofName? (name : String) : Option ColorMode :=
  all.find? (·.name = name)

def colored (mode : ColorMode) (onTerminal : Bool) : Bool :=
  match mode with
  | .auto => onTerminal
  | .always => true
  | .never => false

def optionName : String := "color"

end ColorMode

end TreeAssay.Command
