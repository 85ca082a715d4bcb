import TreeAssay.Text.Decimal
/-!
# Values

Integers and texts: what literals carry and what reductions yield.
-/

namespace TreeAssay

/-- A 64-bit integer or a text. -/
inductive Value
  | int (n : Int64)
  | text (s : String)
  deriving DecidableEq

inductive ValueType
  | integer
  | string
  deriving DecidableEq, Repr

def ValueType.name : ValueType → String
  | .integer => "integer"
  | .string => "string"

namespace Value

def type : Value → ValueType
  | .int _ => .integer
  | .text _ => .string

def int? : Value → Option Int64
  | .int n => some n
  | .text _ => none

def text? : Value → Option String
  | .int _ => none
  | .text s => some s

/-- A value as it is shown: an integer in decimal, a text as it is. -/
def display : Value → String
  | .int n => Decimal.ofInt64 n
  | .text s => s

end Value

end TreeAssay
