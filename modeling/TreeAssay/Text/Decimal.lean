import TreeAssay.Text.Word
/-!
# Decimal text

Numbers are written with the fewest digits and a minus sign where needed. A
signed word is read from an optional sign and at least one digit, with nothing
before, between or after them.
-/

namespace TreeAssay.Decimal

def digit (n : Nat) : Char :=
  Char.ofNat (48 + n)

def digits (n : Nat) : List Char :=
  if _ : n < 10 then [digit n] else digits (n / 10) ++ [digit (n % 10)]
termination_by n
decreasing_by omega

def ofNat (n : Nat) : String :=
  String.ofList (digits n)

def ofInt (n : Int) : String :=
  if n < 0 then String.ofList ('-' :: digits n.natAbs) else ofNat n.natAbs

def ofInt64 (n : Int64) : String :=
  ofInt n.toInt

/-- No word has a magnitude above this one. -/
def magnitudeLimit : Nat := Int64.minValue.toInt.natAbs

/-- Appends one digit to a magnitude; refuses anything but a digit, and a
magnitude that no word has. -/
def appendDigit? (n : Nat) (c : Char) : Option Nat :=
  if c.isDigit then
    let next := n * 10 + (c.toNat - 48)
    if next ≤ magnitudeLimit then some next else none
  else none

def magnitude? : List Char → Option Nat
  | [] => none
  | row => row.foldlM appendDigit? 0

def read? (text : List Char) : Option Int64 :=
  match text with
  | '-' :: row => (magnitude? row).bind fun n => Word.ofInt? (-n)
  | '+' :: row => (magnitude? row).bind fun n => Word.ofInt? n
  | row => (magnitude? row).bind fun n => Word.ofInt? n

end TreeAssay.Decimal
