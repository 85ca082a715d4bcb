import TreeAssay.Text.Blank
/-!
# Lines

A text is cut after each line feed. A line knows its number and the bytes before
it; its text is kept without the line feeds and carriage returns at its end.
-/

namespace TreeAssay

structure Line where
  /-- Counted from one. -/
  number : Nat
  /-- The bytes before the line. -/
  offset : Nat
  /-- The line without the characters that end it. -/
  text : List Char
  deriving DecidableEq, Repr

namespace Line

/-- Cuts a text after each line feed. `done` holds the pieces cut before, the last
one first, and `current` the characters since, likewise. -/
def cut (done : List (List Char)) (current : List Char) : List Char → List (List Char)
  | [] => if current.isEmpty then done.reverse else (current.reverse :: done).reverse
  | '\n' :: rest => cut (('\n' :: current).reverse :: done) [] rest
  | c :: rest => cut done (c :: current) rest

/-- The pieces of a text, each but perhaps the last with its line feed. -/
def pieces (text : List Char) : List (List Char) :=
  cut [] [] text

def isEnd (c : Char) : Bool :=
  c == '\n' || c == '\r'

def trimEnd (piece : List Char) : List Char :=
  (piece.reverse.dropWhile isEnd).reverse

/-- Gives the pieces their numbers and offsets, after the lines already done, the
last one first. -/
def locate (number offset : Nat) (done : List Line) : List (List Char) → List Line
  | [] => done.reverse
  | piece :: rest =>
    locate (number + 1) (offset + Text.byteLength piece) (⟨number, offset, trimEnd piece⟩ :: done)
      rest

def ofText (text : List Char) : List Line :=
  locate 1 0 [] (pieces text)

end Line

end TreeAssay
