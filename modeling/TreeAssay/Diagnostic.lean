import TreeAssay.Tree.Scaffold
/-!
# Load errors

What keeps a suite from being loaded, and where in its text.
-/

namespace TreeAssay

structure Source where
  name : String
  content : String
  deriving DecidableEq, Repr

/-- A stand-in for a text that could not be read. -/
def Source.standIn (subject : String) : Source :=
  ⟨subject, "<!-- " ++ subject ++ " -->"⟩

structure Span where
  offset : Nat
  length : Nat
  deriving DecidableEq, Repr

/-- The empty range, of errors that have no place in a text. -/
def Span.nowhere : Span := ⟨0, 0⟩

inductive LoadCause
  | unreadable (path message : String)
  | unrecognizedOperation (name : String)
  | unknownKind (name : String)
  | malformedNode (reason : String)
  | invalidContent (op content : String)
  | unbalanced (reason : String)
  | misplaced (reason : String)
  deriving DecidableEq, Repr

namespace LoadCause

def suffix : LoadCause → String
  | .unreadable .. => "io"
  | .unrecognizedOperation _ => "unrecognized_operation"
  | .unknownKind _ => "unresolved_nonterminal"
  | .malformedNode _ => "malformed_node"
  | .invalidContent .. => "invalid_content"
  | .unbalanced _ => "unbalanced_tree"
  | .misplaced _ => "misplaced_node"

def message : LoadCause → String
  | .unreadable path message => "Load error: cannot read '" ++ path ++ "': " ++ message
  | .unrecognizedOperation name =>
    "Load error: " ++ (LookupError.unrecognizedOperation name).message
  | .unknownKind name => "Load error: " ++ (LookupError.unknownKind name).message
  | .malformedNode reason => "Load error: malformed node: " ++ reason
  | .invalidContent op content => "Load error: " ++ ContentError.describe op content
  | .unbalanced reason => "Load error: unbalanced tree: " ++ reason
  | .misplaced reason => "Load error: misplaced node: " ++ reason

def label : LoadCause → String
  | .unreadable .. => "unreadable input"
  | .unrecognizedOperation _ => "unknown op"
  | .unknownKind _ => "unknown kind"
  | .malformedNode _ => "malformed node"
  | .invalidContent .. => "invalid content"
  | .unbalanced _ => "unbalanced here"
  | .misplaced _ => "misplaced node"

def help? : LoadCause → Option String
  | .malformedNode _ => some "every <Node> needs either op=\"...\" or null=\"true\", not both"
  | .unbalanced _ => some "each <Node> must be closed before its <Testcase> ends"
  | .unknownKind _ => some ("known kinds: " ++ ", ".intercalate (Kind.all.map Kind.name))
  | _ => none

def ofLookup : LookupError → LoadCause
  | .unrecognizedOperation name => .unrecognizedOperation name
  | .unknownKind name => .unknownKind name

def ofBuild : BuildError → LoadCause
  | .nullWithChildren => .malformedNode BuildError.nullWithChildren.message
  | error => .unbalanced error.message

def ofContent (error : ContentError) : LoadCause :=
  .invalidContent error.op.name error.content

end LoadCause

structure LoadError where
  cause : LoadCause
  source : Source
  span : Span
  phase : String := "load"
  deriving DecidableEq, Repr

namespace LoadError

def code (e : LoadError) : String :=
  "treecheck::" ++ e.phase ++ "::" ++ e.cause.suffix

def unreadable (path message : String) : LoadError :=
  ⟨.unreadable path message, .standIn path, .nowhere, "load"⟩

end LoadError

end TreeAssay
