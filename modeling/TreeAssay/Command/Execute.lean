import TreeAssay.Command.Options
import TreeAssay.Files.Collect
import TreeAssay.Reduction.Calculator
import TreeAssay.Report
/-!
# The command

The command loads every suite before it runs any testcase. Its status is the
number of failures, or one if a suite cannot be loaded.
-/

namespace TreeAssay.Command

structure Answer where
  status : Nat
  output : String := ""
  refusal : Option Refusal := none
  error : Option LoadError := none
  warnings : List Suite.Warning := []

def versionText : String := "treecheck 0.1.0\n"

def Refusal.answer (refusal : Refusal) : Answer where
  status := refusal.exitStatus
  output := if refusal = .version then versionText else ""
  refusal := some refusal

/-- The status and the output for loaded testcases: a list of them, or the report of
their run. -/
def Options.perform (options : Options) (colored : Bool) (testcases : List Testcase) :
    Nat × String :=
  if options.dump then (0, Report.listing colored testcases)
  else
    let summary : Summary := ⟨(calculator.runAll testcases .empty).1⟩
    (summary.exitStatus, Report.run colored options.quiet summary)

def execute (files : FileSystem) (onTerminal : Bool) (options : Options) : Answer :=
  match files.load options.path with
  | .error rejection =>
    { status := 1, error := some rejection.error, warnings := rejection.warnings }
  | .ok loaded =>
    let (status, output) := options.perform (options.color.colored onTerminal) loaded.testcases
    { status, output, warnings := loaded.warnings }

/-- What there is to tell beside the output, line by line. -/
def Answer.notices (answer : Answer) : List String :=
  (answer.warnings.map fun warning =>
    "warning: " ++ (Origin.mk warning.file warning.line).display ++ ": " ++
      warning.concern.message) ++
  (answer.error.toList.flatMap fun error =>
    ("error: " ++ error.code ++ ": " ++ error.cause.message) ::
      (error.cause.help?.toList.map ("help: " ++ ·))) ++
  (if answer.status = 0 then [] else
    answer.refusal.toList.map fun refusal => "error: " ++ refusal.message)

def run (files : FileSystem) (onTerminal : Bool) (arguments : List String) : Answer :=
  match Options.ofArguments arguments with
  | .error refusal => refusal.answer
  | .ok options => execute files onTerminal options

end TreeAssay.Command
