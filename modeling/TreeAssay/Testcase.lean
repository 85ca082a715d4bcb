import TreeAssay.Text.Decimal
import TreeAssay.Tree.Arena
/-!
# Testcases

A testcase is a named tree and what is expected of it.
-/

namespace TreeAssay

inductive Expectation
  /-- It reduces to a value of the kind that the text denotes. -/
  | value (kind : Kind) (expected : String)
  /-- It has a derivation of the kind. -/
  | canProduce (kind : Kind)
  | cannotProduce (kind : Kind)
  deriving DecidableEq, Repr

namespace Expectation

def kind : Expectation → Kind
  | .value kind _ | .canProduce kind | .cannotProduce kind => kind

def expected? : Expectation → Option String
  | .value _ expected => some expected
  | _ => none

/-- The question whether a derivation exists, and the answer that is expected. -/
def query? : Expectation → Option (Kind × Bool)
  | .value .. => none
  | .canProduce kind => some (kind, true)
  | .cannotProduce kind => some (kind, false)

end Expectation

def Kind.describeReach (kind : Kind) (reachable : Bool) : String :=
  (if reachable then "can produce " else "cannot produce ") ++ kind.name

def Expectation.describe : Expectation → String
  | .value kind expected => kind.name ++ " = " ++ expected
  | .canProduce kind => kind.describeReach true
  | .cannotProduce kind => kind.describeReach false

/-- Where a testcase starts: the name of its source and the number of a line. -/
structure Origin where
  file : String
  line : Nat
  deriving DecidableEq, Repr

def Origin.display (origin : Origin) : String :=
  origin.file ++ ":" ++ Decimal.ofNat origin.line

structure Testcase where
  name : String
  expectation : Expectation
  /-- Absent where the testcase holds no node. -/
  root : Option Tree
  origin : Origin

end TreeAssay
