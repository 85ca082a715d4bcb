import TreeAssay.Diagnostic
import TreeAssay.Files.FileSystem
import TreeAssay.Files.Path
/-!
# Discovery

The suites under a path: the path itself if it leads to a file, and otherwise the
suites below it, in the order of their paths.
-/

namespace TreeAssay.FileSystem

def suites (entries : List FileEntry) : List String :=
  (entries.filter fun entry => entry.isRegular && Path.isSuite entry.path).map FileEntry.path

def discover (files : FileSystem) (root : String) : Except LoadError (List String) :=
  if files.isFile root then .ok [root]
  else
    match (files.walk root).mapM id with
    | .error message => .error (.unreadable root message)
    | .ok entries => .ok ((suites entries).mergeSort Path.le)

end TreeAssay.FileSystem
