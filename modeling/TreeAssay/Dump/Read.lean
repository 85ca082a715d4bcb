import TreeAssay.Dump.Render
import TreeAssay.Dump.Tags
import TreeAssay.Markup.Attributes
import TreeAssay.Markup.Tag
import TreeAssay.Tree.Scaffold
/-!
# Reading dumps

The tags of a dump are taken one by one into a scaffold. A dump holds at most
one tree; labels are ignored.
-/

namespace TreeAssay

inductive DumpError
  | lookup (error : LookupError)
  | content (error : ContentError)
  | build (error : BuildError)
  /-- Text that is not a tag. -/
  | stray (text : String)
  | extraTree
  deriving DecidableEq, Repr

def DumpError.message : DumpError → String
  | .lookup error => error.message
  | .content error => error.message
  | .build error => error.message
  | .stray text => "unexpected text in dump: " ++ text
  | .extraTree => "dump holds more than one tree"

namespace Dump

structure Reading where
  scaffold : Scaffold := .empty
  tree : Option Tree := none

/-- What a start tag puts into the tree. -/
def entry (name tag : List Char) : Except DumpError Entry :=
  if String.ofList name = nullTag then .ok .null
  else
    match Operation.resolve (String.ofList name) with
    | .error error => .error (.lookup error)
    | .ok op =>
      match Leaf.ofContent op ((Attributes.ofTag tag).get? "content") with
      | .error error => .error (.content error)
      | .ok leaf => .ok (.node leaf)

/-- Takes the outcome of a start or an end: at most one tree may be completed. -/
def Reading.accept (tree : Option Tree) :
    Except BuildError (Scaffold × Option Tree) → Except DumpError Reading
  | .error error => .error (.build error)
  | .ok (scaffold, none) => .ok ⟨scaffold, tree⟩
  | .ok (scaffold, some completed) =>
    match tree with
    | none => .ok ⟨scaffold, some completed⟩
    | some _ => .error .extraTree

def Reading.step (reading : Reading) (tag : List Char) : Except DumpError Reading :=
  match reading, Tag.name? tag with
  | _, none => .error (.stray (String.ofList tag))
  | ⟨scaffold, tree⟩, some name =>
    match Tag.form? tag name with
    | none => .error (.stray (String.ofList tag))
    | some .closing => accept tree scaffold.close
    | some form =>
      match entry name tag with
      | .error error => .error error
      | .ok entry => accept tree (scaffold.start entry (form = .selfClosing))

/-- The tree of a dump, if it holds one. -/
def read (text : String) : Except DumpError (Option Tree) :=
  match splitTags [] text.toList with
  | .error stray => .error (.stray (String.ofList stray))
  | .ok tags =>
    match tags.foldlM Reading.step {} with
    | .error error => .error error
    | .ok reading =>
      match reading.scaffold.finish with
      | .error error => .error (.build error)
      | .ok () => .ok reading.tree

end Dump

end TreeAssay
