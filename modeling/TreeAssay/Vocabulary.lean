/-!
# Operations and kinds

The two closed sets of names: the operations that tree nodes carry and the
kinds of value that a tree can be asked for. Names are read letter for letter.
-/

namespace TreeAssay

inductive Operation
  | add
  | addStrict
  | concat
  | divide
  | intLiteral
  | multiply
  | negate
  | qualifiedLiteral
  | shortLiteral
  | stringLiteral
  | subtract
  deriving DecidableEq, Repr

/-- The kind of value that a tree is asked for. -/
inductive Kind
  | int
  | short
  | string
  deriving DecidableEq, Repr

/-- A name that is in none of the two sets. -/
inductive LookupError
  | unrecognizedOperation (name : String)
  | unknownKind (name : String)
  deriving DecidableEq, Repr

def LookupError.message : LookupError → String
  | .unrecognizedOperation name => "unrecognized operation '" ++ name ++ "'"
  | .unknownKind name => "unknown target kind '" ++ name ++ "'"

namespace Operation

/-- Every operation, in alphabetical order. -/
def all : List Operation :=
  [.add, .addStrict, .concat, .divide, .intLiteral, .multiply, .negate,
    .qualifiedLiteral, .shortLiteral, .stringLiteral, .subtract]

def name : Operation → String
  | .add => "Add"
  | .addStrict => "AddStrict"
  | .concat => "Concat"
  | .divide => "Divide"
  | .intLiteral => "IntLiteral"
  | .multiply => "Multiply"
  | .negate => "Negate"
  | .qualifiedLiteral => "QualifiedLiteral"
  | .shortLiteral => "ShortLiteral"
  | .stringLiteral => "StringLiteral"
  | .subtract => "Subtract"

def resolve (name : String) : Except LookupError Operation :=
  match all.find? (·.name = name) with
  | some op => .ok op
  | none => .error (.unrecognizedOperation name)

/-- String literals keep their content letter for letter; every other operation
reads it as an integer. -/
def isStringLiteral (op : Operation) : Bool :=
  op = .stringLiteral

theorem resolve_name (op : Operation) : resolve op.name = .ok op := by
  cases op <;> rfl

end Operation

namespace Kind

def all : List Kind := [.int, .short, .string]

def name : Kind → String
  | .int => "Int"
  | .short => "Short"
  | .string => "String"

def resolve (name : String) : Except LookupError Kind :=
  match all.find? (·.name = name) with
  | some kind => .ok kind
  | none => .error (.unknownKind name)

/-- How an expected text is compared with a value. -/
inductive Class
  | integer
  | text
  deriving DecidableEq, Repr

/-- Strings compare as texts, the other kinds as integers. -/
def valueClass : Kind → Class
  | .int | .short => .integer
  | .string => .text

theorem resolve_name (kind : Kind) : resolve kind.name = .ok kind := by
  cases kind <;> rfl

end Kind

end TreeAssay
