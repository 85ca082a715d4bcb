import TreeAssay.Reduction.Grammar
/-!
# Failed reductions

Why a tree does not reduce to a value of the kind that it is asked for.
-/

namespace TreeAssay

inductive ReductionError
  | emptyTree (goal : Kind)
  /-- A node has no label, or one that no state has. -/
  | unlabeled (node : Nat)
  | noDerivation (node : Nat) (op : Operation) (goal : Kind)
  | divisionByZero
  | overflow (op : Operation)
  | arity (op : Operation) (count : Nat)
  /-- What acts on a value takes values of another sort. The texts name the action, that
  sort, and what was found in its place. -/
  | operandMismatch (action expected found : String)
  deriving DecidableEq, Repr

def ReductionError.message : ReductionError → String
  | .emptyTree goal => "empty tree cannot produce " ++ goal.name
  | .unlabeled node => "node " ++ Decimal.ofNat node ++ " was never labeled"
  | .noDerivation node op goal =>
    "no derivation of " ++ goal.name ++ " for " ++ op.name ++ " at node " ++ Decimal.ofNat node
  | .divisionByZero => "division by zero"
  | .overflow op => "integer overflow in " ++ op.name
  | .arity op count => op.name ++ " cannot take " ++ Decimal.ofNat count ++ " operands"
  | .operandMismatch action expected found =>
    action ++ " expected a " ++ expected ++ " operand, got " ++ found

end TreeAssay
