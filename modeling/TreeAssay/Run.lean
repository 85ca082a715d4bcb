import TreeAssay.Dump.Render
import TreeAssay.Reduction.Reducer
import TreeAssay.Testcase
/-!
# Runs

A run holds testcases against a reducer, one after the other. Each testcase
starts without labels and asks one question; no answer ends the run. What the
question leaves of the state, the next testcase starts from.
-/

namespace TreeAssay

/-- What came of a testcase. A failure shows the labelled tree. -/
inductive Outcome
  | succeeded (name : String)
  /-- The answer is not the expected one. -/
  | mismatch (name expected actual dump : String)
  /-- There is no value to compare. -/
  | reductionFailed (name : String) (error : ReductionError) (dump : String)
  deriving DecidableEq, Repr

namespace Outcome

def name : Outcome → String
  | .succeeded name | .mismatch name .. | .reductionFailed name .. => name

def isSuccess : Outcome → Bool
  | .succeeded _ => true
  | _ => false

def dump? : Outcome → Option String
  | .succeeded _ => none
  | .mismatch _ _ _ dump | .reductionFailed _ _ dump => some dump

end Outcome

/-- A value is what an expected text denotes: for kinds of integers an integer in
decimal, and for texts the text itself. -/
def Kind.denotes (kind : Kind) (expected : String) (actual : Value) : Bool :=
  match kind.valueClass with
  | .text => actual.text? = some expected
  | .integer =>
    match Decimal.read? expected.toList, actual.int? with
    | some expected, some actual => expected = actual
    | _, _ => false

namespace Testcase

/-- What comes of a testcase that asks for a value. -/
def judgeResult (testcase : Testcase) (kind : Kind) (expected : String) (dump : Unit → String)
    (result : Except ReductionError Value) : Outcome :=
  match result with
  | .ok actual =>
    if kind.denotes expected actual then .succeeded testcase.name
    else .mismatch testcase.name expected actual.display (dump ())
  | .error error => .reductionFailed testcase.name error (dump ())

/-- What comes of a testcase that asks whether a kind has a derivation. -/
def judgeReach (testcase : Testcase) (kind : Kind) (wanted : Bool) (dump : Unit → String)
    (actual : Bool) : Outcome :=
  if actual = wanted then .succeeded testcase.name
  else
    .mismatch testcase.name (kind.describeReach wanted) (kind.describeReach actual) (dump ())

end Testcase

namespace Reducer

variable {State Label : Type} [ToString Label]

/-- Asks the question of a testcase about its labelled tree. -/
def ask (reducer : Reducer State Label) (testcase : Testcase) (labels : Labels Label) :
    StateM State Outcome := fun state =>
  let dump (_ : Unit) := Dump.ofLabelled testcase.root labels
  let query (kind : Kind) (wanted : Bool) : Outcome × State :=
    let (state, actual) := reducer.canProduce state testcase.root labels kind
    (testcase.judgeReach kind wanted dump actual, state)
  match testcase.expectation with
  | .value kind expected =>
    let (state, result) := reducer.reduce state testcase.root labels kind
    (testcase.judgeResult kind expected dump result, state)
  | .canProduce kind => query kind true
  | .cannotProduce kind => query kind false

def run (reducer : Reducer State Label) (testcase : Testcase) : StateM State Outcome := fun state =>
  let (state, labels) := reducer.label state testcase.root .empty
  reducer.ask testcase labels state

def runAll (reducer : Reducer State Label) (testcases : List Testcase) :
    StateM State (List Outcome) :=
  testcases.mapM reducer.run

end Reducer

structure Summary where
  outcomes : List Outcome
  deriving DecidableEq, Repr

namespace Summary

def total (summary : Summary) : Nat :=
  summary.outcomes.length

def succeeded (summary : Summary) : Nat :=
  summary.outcomes.countP Outcome.isSuccess

def failed (summary : Summary) : Nat :=
  summary.total - summary.succeeded

theorem succeeded_add_failed (summary : Summary) :
    summary.succeeded + summary.failed = summary.total := by
  have := List.countP_le_length (l := summary.outcomes) (p := Outcome.isSuccess)
  simp only [failed, total, succeeded] at this ⊢
  omega

theorem failed_eq_countP (summary : Summary) :
    summary.failed = summary.outcomes.countP (!·.isSuccess) := by
  have hcount := List.length_eq_countP_add_countP Outcome.isSuccess (l := summary.outcomes)
  simp only [Bool.not_eq_true, Bool.decide_eq_false] at hcount
  rw [failed, total, succeeded]
  omega

def hasFailures (summary : Summary) : Bool :=
  0 < summary.failed

/-- The number of failures as the status of a process, which can be 255 at most. -/
def exitStatus (summary : Summary) : Nat :=
  min summary.failed 255

end Summary

end TreeAssay
