import TreeAssay.Files.Discovery
import TreeAssay.Suite.Load
/-!
# Loading files

All the suites under a path are loaded, one after the other. The first that
cannot be loaded rejects them all.
-/

namespace TreeAssay.FileSystem

def loadFile (files : FileSystem) (path : String) : Except Suite.Rejection Suite.Loaded :=
  match files.readText path with
  | .error message => .error ⟨.unreadable path message, []⟩
  | .ok content => Suite.load ⟨path, content⟩

/-- Loads one more suite. The warnings given before stay in front. -/
def loadNext (files : FileSystem) (loaded : Suite.Loaded) (path : String) :
    Except Suite.Rejection Suite.Loaded :=
  match files.loadFile path with
  | .error rejection => .error ⟨rejection.error, loaded.warnings ++ rejection.warnings⟩
  | .ok next => .ok ⟨loaded.testcases ++ next.testcases, loaded.warnings ++ next.warnings⟩

def load (files : FileSystem) (root : String) : Except Suite.Rejection Suite.Loaded :=
  match files.discover root with
  | .error error => .error ⟨error, []⟩
  | .ok paths => paths.foldlM files.loadNext ⟨[], []⟩

end TreeAssay.FileSystem
