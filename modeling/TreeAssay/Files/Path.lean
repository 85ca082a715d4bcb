/-!
# Paths

A path is Unicode text: names between slashes. The order of paths compares them
name by name, so that what is in a directory stands together.
-/

namespace TreeAssay.Path

def parts : List Char → List (List Char)
  | [] => [[]]
  | '/' :: rest => [] :: parts rest
  | c :: rest =>
    match parts rest with
    | [] => [[c]]
    | part :: more => (c :: part) :: more

/-- The names in a path. Empty parts and single dots stay where they are and name
nothing. -/
def names (path : String) : List String :=
  ((parts path.toList).filter fun part => part ≠ [] ∧ part ≠ ['.']).map String.ofList

def join (directory name : String) : String :=
  if directory = "" ∨ directory.toList.getLast? = some '/' then directory ++ name
  else directory ++ "/" ++ name

def nameBefore (a b : String) : Bool :=
  List.lex a.toList b.toList fun c d => decide (c.toNat < d.toNat)

def le (a b : String) : Bool :=
  !List.lex (names b) (names a) nameBefore

def extension : String := ".xml"

/-- The last name in a path is that of a suite: something and the extension. -/
def isSuite (path : String) : Bool :=
  (names path).getLast?.any fun name =>
    extension.toList.isSuffixOf name.toList && name ≠ extension

end TreeAssay.Path
