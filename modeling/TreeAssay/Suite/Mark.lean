import TreeAssay.Diagnostic
import TreeAssay.Markup.Attributes
import TreeAssay.Markup.Tag
import TreeAssay.Testcase
import TreeAssay.Text.Lines
/-!
# Marks of a suite

What the lines of a suite say. Only the first tag of a line counts, and only
the tags of testcases and nodes mean anything.
-/

namespace TreeAssay.Suite

inductive Subject
  | testcase
  | node
  deriving DecidableEq, Repr

def Subject.tag : Subject → String
  | .testcase => "Testcase"
  | .node => "Node"

def Subject.ofName? (name : List Char) : Option Subject :=
  [Subject.testcase, .node].find? fun subject => name = subject.tag.toList

inductive Mark
  | foreign
  /-- A tag that neither starts nor ends. -/
  | unreadable (subject : Subject)
  | tag (subject : Subject) (form : Tag.Form)
  deriving DecidableEq, Repr

def Mark.ofLine (line : List Char) : Mark :=
  match Tag.name? line with
  | none => .foreign
  | some name =>
    match Subject.ofName? name with
    | none => .foreign
    | some subject =>
      match Tag.form? line name with
      | none => .unreadable subject
      | some form => .tag subject form

/-- The range of a line without its indentation and the blank characters at its
end. -/
def span (line : Line) : Span where
  offset := line.offset + Text.byteLength (line.text.takeWhile Tag.isIndent)
  length := Text.byteLength (Text.trimEnd (Tag.unindent line.text))

/-- The expectation that the attributes of a testcase state. Without a
reachability question, a value is expected. -/
def expectation (attrs : Attributes) : Except LookupError Expectation :=
  match attrs.nonEmpty? "canProduce", attrs.nonEmpty? "cannotProduce" with
  | some name, _ => Expectation.canProduce <$> Kind.resolve name
  | none, some name => Expectation.cannotProduce <$> Kind.resolve name
  | none, none =>
    (Expectation.value · ((attrs.get? "expected").getD "")) <$>
      Kind.resolve ((attrs.get? "type").getD "")

/-- What the attributes of a node put into the tree: a null slot, or an operation
with its content, but not both. -/
def entry (attrs : Attributes) : Except LoadCause Entry :=
  match attrs.nonEmpty? "op", attrs.isTruthy "null" with
  | some _, true => .error (.malformedNode "node has both op and a true null attribute")
  | none, false => .error (.malformedNode "node has neither op nor a true null attribute")
  | none, true => .ok .null
  | some name, false =>
    match Operation.resolve name with
    | .error error => .error (.ofLookup error)
    | .ok op =>
      match Leaf.ofContent op (attrs.get? "content") with
      | .error error => .error (.ofContent error)
      | .ok leaf => .ok (.node leaf)

end TreeAssay.Suite
