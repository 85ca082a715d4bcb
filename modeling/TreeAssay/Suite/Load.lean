import TreeAssay.Suite.Mark
/-!
# Loading suites

The marks of a suite are taken line by line. Testcases do not nest, every node
stands in a testcase and is closed before its testcase ends, and a testcase has
at most one tree. A line that breaks a rule rejects the whole suite; a tag that
cannot be read is passed over with a warning.
-/

namespace TreeAssay.Suite

inductive Concern
  /-- A tag that neither starts nor ends was passed over. -/
  | unreadable (subject : Subject)
  /-- The attributes broke off after so many were read. -/
  | malformedAttributes (decoded : Nat)
  deriving DecidableEq, Repr

def Concern.message : Concern → String
  | .unreadable subject => "skipping unreadable " ++ subject.tag ++ " tag"
  | .malformedAttributes _ => "malformed attributes, continuing with what was decoded"

structure Warning where
  file : String
  line : Nat
  concern : Concern
  deriving DecidableEq, Repr

structure Loaded where
  testcases : List Testcase
  warnings : List Warning

/-- Why a suite was rejected, and the warnings given up to there. -/
structure Rejection where
  error : LoadError
  warnings : List Warning

structure Progress where
  scaffold : Scaffold := .empty
  /-- The places of the starts of the open nodes, the innermost first. -/
  openSpans : List Span := []
  inTestcase : Bool := false
  /-- The testcases so far, the last one first. -/
  testcases : List Testcase := []
  warnings : List Warning := []

namespace Progress

def reject (p : Progress) (source : Source) (span : Span) (cause : LoadCause) : Rejection :=
  ⟨⟨cause, source, span, "load"⟩, p.warnings.reverse⟩

def warn (p : Progress) (source : Source) (line : Line) (concern : Concern) : Progress :=
  { p with warnings := ⟨source.name, line.number, concern⟩ :: p.warnings }

/-- Gives a warning when the attributes of a line broke off. -/
def heed (p : Progress) (source : Source) (line : Line) (attrs : Attributes) : Progress :=
  if attrs.malformed then p.warn source line (.malformedAttributes attrs.size) else p

/-- Gives a complete tree to the last testcase, which has none yet. -/
def attach (p : Progress) (source : Source) (span : Span) :
    Option Tree → Except Rejection Progress
  | none => .ok p
  | some tree =>
    match p.testcases with
    | [] => .error (p.reject source span (.misplaced "tree completed outside any testcase"))
    | last :: earlier =>
      if last.root.isSome then
        .error (p.reject source span (.misplaced "testcase already has a root tree"))
      else .ok { p with testcases := { last with root := some tree } :: earlier }

def startTestcase (p : Progress) (source : Source) (line : Line) (form : Tag.Form) :
    Except Rejection Progress :=
  if !p.scaffold.isIdle then
    .error (p.reject source (span line) (.unbalanced "testcase starts while a node is still open"))
  else if p.inTestcase then
    .error (p.reject source (span line) (.unbalanced "testcase starts inside another testcase"))
  else
    let attrs := Attributes.ofTag line.text
    let p := p.heed source line attrs
    match expectation attrs with
    | .error error => .error (p.reject source (span line) (.ofLookup error))
    | .ok expectation =>
      let testcase : Testcase :=
        { name := (attrs.get? "name").getD ""
          expectation
          root := none
          origin := ⟨source.name, line.number⟩ }
      .ok { p with testcases := testcase :: p.testcases, inTestcase := form = .opening }

/-- Ends the testcase that is open, if one is. -/
def endTestcase (p : Progress) (source : Source) (line : Line) : Except Rejection Progress :=
  if !p.scaffold.isIdle then
    .error (p.reject source (span line) (.unbalanced "testcase ends while a node is still open"))
  else .ok { p with inTestcase := false }

def place (p : Progress) (source : Source) (line : Line) (form : Tag.Form) (entry : Entry) :
    Except Rejection Progress :=
  let ⟨scaffold, openSpans, inTestcase, testcases, warnings⟩ := p
  match scaffold.start entry (form = .selfClosing) with
  | .error error =>
    .error ⟨⟨.ofBuild error, source, span line, "load"⟩, warnings.reverse⟩
  | .ok (scaffold, completed) =>
    let openSpans := if form = .selfClosing then openSpans else span line :: openSpans
    attach ⟨scaffold, openSpans, inTestcase, testcases, warnings⟩ source (span line) completed

def startNode (p : Progress) (source : Source) (line : Line) (form : Tag.Form) :
    Except Rejection Progress :=
  if !p.inTestcase then
    .error (p.reject source (span line) (.misplaced "node outside any testcase"))
  else
    let attrs := Attributes.ofTag line.text
    let p := p.heed source line attrs
    match entry attrs with
    | .error cause => .error (p.reject source (span line) cause)
    | .ok entry => p.place source line form entry

def endNode (p : Progress) (source : Source) (line : Line) : Except Rejection Progress :=
  let ⟨scaffold, openSpans, inTestcase, testcases, warnings⟩ := p
  match scaffold.close with
  | .error error =>
    .error ⟨⟨.ofBuild error, source, span line, "load"⟩, warnings.reverse⟩
  | .ok (scaffold, completed) =>
    attach ⟨scaffold, openSpans.tail, inTestcase, testcases, warnings⟩ source (span line) completed

def take (source : Source) (p : Progress) (line : Line) : Except Rejection Progress :=
  match Mark.ofLine line.text with
  | .foreign => .ok p
  | .unreadable subject => .ok (p.warn source line (.unreadable subject))
  | .tag .testcase .closing => p.endTestcase source line
  | .tag .testcase form => p.startTestcase source line form
  | .tag .node .closing => p.endNode source line
  | .tag .node form => p.startNode source line form

def finish (source : Source) (p : Progress) : Except Rejection Loaded :=
  match p.scaffold.finish with
  | .ok () => .ok ⟨p.testcases.reverse, p.warnings.reverse⟩
  | .error error => .error (p.reject source (p.openSpans.headD .nowhere) (.ofBuild error))

end Progress

def load (source : Source) : Except Rejection Loaded :=
  match (Line.ofText source.content.toList).foldlM (Progress.take source) {} with
  | .error rejection => .error rejection
  | .ok progress => progress.finish source

end TreeAssay.Suite
