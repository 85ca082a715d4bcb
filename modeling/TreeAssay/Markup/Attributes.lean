/-!
# Attributes of a tag

Pairs `name="value"` in the text of one tag. Nothing is escaped: a value runs
to the next quote, and a name begins after the nearest space before its `="`,
wherever in the tag that space stands. The scan stops at the first pair that
lacks either; the pairs read before it stay.
-/

namespace TreeAssay

structure Attributes where
  /-- The pairs, the last one first. -/
  pairs : List (String × String) := []
  /-- The scan met a pair without a space before it or a quote after it. -/
  malformed : Bool := false
  deriving DecidableEq, Repr

namespace Attributes

/-- The last value given to a name. -/
def get? (attrs : Attributes) (name : String) : Option String :=
  attrs.pairs.lookup name

/-- The last value given to a name, where an empty one counts as absent. -/
def nonEmpty? (attrs : Attributes) (name : String) : Option String :=
  (attrs.get? name).filter (· ≠ "")

def truthy : List String := ["yes", "true", "1"]

def isTruthyText (text : String) : Bool :=
  truthy.contains text

def isTruthy (attrs : Attributes) (name : String) : Bool :=
  (attrs.get? name).any isTruthyText

def size (attrs : Attributes) : Nat :=
  (attrs.pairs.map Prod.fst).eraseDups.length

def isEmpty (attrs : Attributes) : Bool :=
  attrs.pairs.isEmpty

def add (attrs : Attributes) (name value : List Char) : Attributes :=
  { attrs with pairs := (String.ofList name, String.ofList value) :: attrs.pairs }

/-- Keeps the text since the last space, its last character first. Before the
first space there is none. -/
def advance (word : Option (List Char)) (c : Char) : Option (List Char) :=
  if c = ' ' then some [] else word.map (c :: ·)

/-- Reads the pairs in the rest of a tag, where `word` is the text since the last
space before it. -/
def scan (attrs : Attributes) (word : Option (List Char)) : List Char → Attributes
  | '=' :: '"' :: rest =>
    match word, h : rest.dropWhile (· ≠ '"') with
    | some name, _ :: after =>
      let value := rest.takeWhile (· ≠ '"')
      have : after.length < rest.length := by
        have := (List.dropWhile_sublist (l := rest) (· ≠ '"')).length_le
        rw [h] at this
        exact this
      scan (attrs.add name.reverse value)
        (advance (value.foldl advance (advance (advance word '=') '"')) '"') after
    | _, _ => { attrs with malformed := true }
  | c :: rest => scan attrs (advance word c) rest
  | [] => attrs
termination_by text => text.length

def ofTag (tag : List Char) : Attributes :=
  scan {} none tag

end Attributes

end TreeAssay
