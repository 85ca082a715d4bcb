import TreeAssay.Text.Blank
/-!
# Tags of a line

What the first tag of a line is called and whether it opens, closes, or opens
and closes at once. Only spaces and tabs may stand before it.
-/

namespace TreeAssay.Tag

open TreeAssay.Text

/-- What a line does to the tag that it names. -/
inductive Form
  | opening
  | selfClosing
  | closing
  deriving DecidableEq, Repr

def isIndent (c : Char) : Bool :=
  c == ' ' || c == '\t'

def unindent (line : List Char) : List Char :=
  line.dropWhile isIndent

def endsName (c : Char) : Bool :=
  c == ' ' || c == '>' || c == '/'

/-- After its indentation the line begins with `<` and the tag, and a space or
`>` follows. -/
def isStart (line tag : List Char) : Bool :=
  match unindent line with
  | '<' :: rest =>
    match tag.isPrefixOf? rest with
    | some (c :: _) => c == ' ' || c == '>'
    | _ => false
  | _ => false

/-- Blank characters apart, the line ends in `/>`. -/
def endsSelfClosed (line : List Char) : Bool :=
  match line.reverse.dropWhile isBlank with
  | '>' :: '/' :: _ => true
  | _ => false

/-- The line closes the tag: it is a start tag that ends in `/>`, or it begins
with `</` and the tag. -/
def isEnd (line tag : List Char) : Bool :=
  if isStart line tag then endsSelfClosed line
  else (['<', '/'] ++ tag).isPrefixOf (unindent line)

/-- What the line does to the tag, if it concerns the tag at all. -/
def form? (line tag : List Char) : Option Form :=
  match isStart line tag, isEnd line tag with
  | true, true => some .selfClosing
  | true, false => some .opening
  | false, true => some .closing
  | false, false => none

def readName? (text : List Char) : Option (List Char) :=
  match text.takeWhile (!endsName ·) with
  | [] => none
  | name => some name

/-- The name of the first tag of the line, whether it opens or closes. -/
def name? (line : List Char) : Option (List Char) :=
  match unindent line with
  | '<' :: '/' :: rest => readName? rest
  | '<' :: rest => readName? rest
  | _ => none

end TreeAssay.Tag
