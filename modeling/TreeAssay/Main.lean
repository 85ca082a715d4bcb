import TreeAssay.Command.Execute
/-!
# Entry point

Learns from the system what the command asks about files, prints the answer of
the command and ends with its status.
-/

namespace TreeAssay.Main

/-- The text of a numbered error. Some numbers come with their sign reversed. -/
def numbered (code : UInt32) (details : String) : String :=
  let number := min code.toNat (UInt32.size - code.toNat)
  let text :=
    match number with
    | 2 => "No such file or directory"
    | 20 => "Not a directory"
    | 21 => "Is a directory"
    | 36 => "File name too long"
    | 40 => "Too many levels of symbolic links"
    | _ => details
  text ++ " (os error " ++ Decimal.ofNat number ++ ")"

def message : IO.Error → String
  | .unexpectedEof => "unexpected end of file"
  | .userError text => text
  | .alreadyExists _ code details | .noFileOrDirectory _ code details
  | .invalidArgument _ code details | .permissionDenied _ code details
  | .resourceExhausted _ code details | .inappropriateType _ code details
  | .noSuchThing _ code details | .interrupted _ code details
  | .otherError code details | .resourceBusy code details | .resourceVanished code details
  | .unsupportedOperation code details | .hardwareFault code details
  | .unsatisfiedConstraints code details | .illegalOperation code details
  | .protocolError code details | .timeExpired code details =>
    numbered code details

/-- What the system knows of a path, itself or after links. -/
def typeOf (followed : Bool) (path : String) : IO (Except String IO.FS.FileType) := do
  let place := (IO.FS.DirEntry.mk path "").root
  let found ← (if followed then place.metadata else place.symlinkMetadata).toBaseIO
  return match found with
    | .ok data => .ok data.type
    | .error error => .error (message error)

def fault (path text : String) : Except String FileEntry :=
  .error ("IO error for operation on " ++ path ++ ": " ++ text)

partial def walkBelow (directory : String) (met : Array (Except String FileEntry)) :
    IO (Array (Except String FileEntry)) := do
  match ← (IO.FS.DirEntry.mk directory "").root.readDir.toBaseIO with
  | .error error => return met.push (fault directory (message error))
  | .ok entries =>
    entries.foldlM (fun met entry => do
      let path := Path.join directory entry.fileName
      match ← typeOf false path with
      | .error text => return met.push (fault path text)
      | .ok type =>
        let met := met.push (.ok ⟨path, type == .file⟩)
        if type == .dir then walkBelow path met else return met) met

def walk (root : String) : IO (Array (Except String FileEntry)) := do
  match ← typeOf false root, ← typeOf true root with
  | .error text, _ | _, .error text => return #[fault root text]
  | .ok itself, .ok type =>
    let met := #[.ok ⟨root, itself == .file⟩]
    if type == .dir then walkBelow root met else return met

def read (path : String) : IO (Except String ByteArray) := do
  match ← (IO.FS.readBinFile path).toBaseIO with
  | .ok bytes => return .ok bytes
  | .error error => return .error (message error)

def observe (root : String) : IO FileSystem := do
  let isFile := match ← typeOf true root with
    | .ok type => type == .file
    | .error _ => false
  let met ← if isFile then pure #[] else walk root
  let unread : FileSystem :=
    { isFile := fun path => path = root && isFile
      walk := fun path => if path = root then met.toList else []
      read := fun path => .error ("never read: " ++ path) }
  let contents ← (unread.discover root).toOption.getD [] |>.mapM fun path => do
    return (path, ← read path)
  return { unread with read := fun path => (contents.lookup path).getD (unread.read path) }

end TreeAssay.Main

def main (arguments : List String) : IO UInt32 := do
  let files ← TreeAssay.Main.observe <|
    match TreeAssay.Command.Options.ofArguments arguments with
    | .ok options => options.path
    | .error _ => ""
  let output ← IO.getStdout
  let answer := TreeAssay.Command.run files (← output.isTty) arguments
  let errors ← IO.getStderr
  answer.notices.forM errors.putStrLn
  output.putStr answer.output
  output.flush
  return answer.status.toUInt32
