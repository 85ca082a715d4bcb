import TreeAssay.Run
/-!
# Reports

What a run and a list of testcases look like, in plain text or in colour.
-/

namespace TreeAssay.Report

inductive Color
  | red
  | green
  | yellow
  deriving DecidableEq, Repr

def Color.digit : Color → String
  | .red => "1"
  | .green => "2"
  | .yellow => "3"

def plain : String := "\x1b[0m"

def paint (colored : Bool) (color : Color) (text : String) : String :=
  if colored then plain ++ "\x1b[1m\x1b[3" ++ color.digit ++ "m" ++ text ++ plain else text

/-- The lines of an outcome. A quiet report leaves successes out. -/
def outcome (colored quiet : Bool) : Outcome → String
  | .succeeded name =>
    if quiet then "" else paint colored .green "Succeeded" ++ ": " ++ name ++ "\n"
  | .mismatch name expected actual dump =>
    paint colored .red "FAILED" ++ ": " ++ name ++ ", expected " ++ expected ++ " != actual " ++
      actual ++ "\n" ++ dump ++ "\n"
  | .reductionFailed name error dump =>
    paint colored .red "FAILED" ++ ": " ++ name ++ ", exception " ++ error.message ++ "\n" ++
      dump ++ "\n"

def summary (colored : Bool) (summary : Summary) : String :=
  let failed := Decimal.ofNat summary.failed ++ " failed"
  "Test summary: " ++ Decimal.ofNat summary.total ++ " total, " ++
    Decimal.ofNat summary.succeeded ++ " succeeded, " ++
    (if summary.hasFailures then paint colored .red failed else failed) ++ "\n"

/-- The report of a run: its outcomes in order, then their count. -/
def run (colored quiet : Bool) (results : Summary) : String :=
  String.join (results.outcomes.map (outcome colored quiet)) ++ summary colored results

/-- The lines of a testcase: its name, its origin and what is expected, then its
tree. -/
def testcase (colored : Bool) (testcase : Testcase) : String :=
  paint colored .yellow testcase.name ++ " (" ++ testcase.origin.display ++ "): " ++
    testcase.expectation.describe ++ "\n" ++ Dump.ofTree testcase.root ++ "\n"

def listing (colored : Bool) (testcases : List Testcase) : String :=
  String.join (testcases.map (testcase colored))

end TreeAssay.Report
