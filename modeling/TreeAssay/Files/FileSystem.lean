/-!
# File systems

What a program can learn about files: which paths are files, what lies below a
path, and what the files hold. Names and paths are Unicode text; a name that is not
text has no path here. What cannot be learned comes with the message of the system.
-/

namespace TreeAssay

structure FileEntry where
  path : String
  /-- It is a file itself, and not a directory or a link. -/
  isRegular : Bool
  deriving DecidableEq, Repr

structure FileSystem where
  isFile : String → Bool
  /-- The path and everything below it, each directory before its entries. Links
  below the path are not followed. -/
  walk : String → List (Except String FileEntry)
  read : String → Except String ByteArray

def FileSystem.readText (files : FileSystem) (path : String) : Except String String :=
  match files.read path with
  | .error message => .error message
  | .ok bytes =>
    match String.fromUTF8? bytes with
    | some text => .ok text
    | none => .error "stream did not contain valid UTF-8"

end TreeAssay
