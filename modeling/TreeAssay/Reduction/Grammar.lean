import TreeAssay.Tree.Node
/-!
# The grammar of reductions

Patterns say which nodes derive which kind from which kinds of children;
conversions turn a value of one kind into one of another. Each use of a rule has
a cost.
-/

namespace TreeAssay

/-- The children that a pattern takes, and the kind that each has to derive. -/
inductive Operands
  | leaf
  | exactly (count : Nat) (kind : Kind)
  | oneOrMore (kind : Kind)
  deriving DecidableEq, Repr

namespace Operands

def accepts : Operands → Nat → Bool
  | .leaf, count => count == 0
  | .exactly n _, count => count == n
  | .oneOrMore _, count => 1 ≤ count

def kind? : Operands → Option Kind
  | .leaf => none
  | .exactly _ kind | .oneOrMore kind => some kind

end Operands

inductive Action
  | literal
  | sum
  | difference
  | product
  | quotient
  | negation
  | concatenation
  deriving DecidableEq, Repr

inductive Pattern
  | intLiteral
  | shortLiteral
  | stringLiteral
  | add
  | addStrict
  | subtract
  | multiply
  | divide
  | negate
  | concat
  deriving DecidableEq, Repr, Hashable

namespace Pattern

/-- Every pattern, in the order in which they are tried. -/
def all : List Pattern :=
  [.intLiteral, .shortLiteral, .stringLiteral, .add, .addStrict, .subtract, .multiply,
    .divide, .negate, .concat]

def op : Pattern → Operation
  | .intLiteral => .intLiteral
  | .shortLiteral => .shortLiteral
  | .stringLiteral => .stringLiteral
  | .add => .add
  | .addStrict => .addStrict
  | .subtract => .subtract
  | .multiply => .multiply
  | .divide => .divide
  | .negate => .negate
  | .concat => .concat

def produces : Pattern → Kind
  | .shortLiteral => .short
  | .stringLiteral | .concat => .string
  | _ => .int

def operands : Pattern → Operands
  | .intLiteral | .shortLiteral | .stringLiteral => .leaf
  | .add => .oneOrMore .int
  | .addStrict | .subtract | .multiply | .divide => .exactly 2 .int
  | .negate => .exactly 1 .int
  | .concat => .oneOrMore .string

/-- The condition on the literal of a node. -/
def guard : Pattern → Leaf → Bool
  | .intLiteral, leaf => leaf.int?.isSome
  | .shortLiteral, leaf => leaf.int?.any Word.isShort
  | .stringLiteral, leaf => leaf.text?.isSome
  | _, _ => true

def cost (_ : Pattern) : UInt32 := 1

def action : Pattern → Action
  | .intLiteral | .shortLiteral | .stringLiteral => .literal
  | .add | .addStrict => .sum
  | .subtract => .difference
  | .multiply => .product
  | .divide => .quotient
  | .negate => .negation
  | .concat => .concatenation

def index (pattern : Pattern) : Nat :=
  all.idxOf pattern

end Pattern

inductive Conversion
  /-- A short integer as an integer. -/
  | widen
  /-- An integer as its decimal text. -/
  | format
  deriving DecidableEq, Repr, Hashable

namespace Conversion

/-- Every conversion, in the order in which they are tried. -/
def all : List Conversion := [.widen, .format]

def source : Conversion → Kind
  | .widen => .short
  | .format => .int

def target : Conversion → Kind
  | .widen => .int
  | .format => .string

def cost (_ : Conversion) : UInt32 := 1

def name : Conversion → String
  | .widen => "widening"
  | .format => "formatting"

def index (conversion : Conversion) : Nat :=
  all.idxOf conversion

end Conversion

inductive Rule
  | pattern (pattern : Pattern)
  | conversion (conversion : Conversion)
  deriving DecidableEq, Repr, Hashable

end TreeAssay
