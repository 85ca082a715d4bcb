import TreeAssay.Tree.Labels
import TreeAssay.Tree.Walk
/-!
# Writing dumps

A dump shows a tree on one line. A node is a tag named after its operation, with
its literal as `content` and its label as `state`; its children stand inside it.
A null slot, and a tree that is absent, is the tag `null`.
-/

namespace TreeAssay.Dump

def nullTag : String := "null"

/-- One attribute with the space before it. -/
def pair (name value : String) : String :=
  " " ++ name ++ "=\"" ++ value ++ "\""

/-- The attributes of a node: its literal and its label, where it has them. -/
def attributes (node : Node) (label : Option String) : String :=
  (match node.payload with
    | some payload => pair "content" payload.display
    | none => "") ++
  (match label with
    | some label => pair "state" label
    | none => "")

def startTag (node : Node) (label : Option String) : String :=
  "<" ++ node.op.name ++ attributes node label ++ ">"

/-- The tag of a node without child slots. A space keeps a bare name apart from
the slash, without which the tag could not be read. -/
def leafTag (node : Node) (label : Option String) : String :=
  let attrs := attributes node label
  "<" ++ node.op.name ++ attrs ++ (if attrs = "" then " />" else "/>")

def endTag (node : Node) : String :=
  "</" ++ node.op.name ++ ">"

def nullSlot : String :=
  "<" ++ nullTag ++ " />"

def visitText (label : Nat → Option String) : Visit → String
  | .leaf id node => leafTag node (label id)
  | .enter id node => startTag node (label id)
  | .null => nullSlot
  | .leave node => endTag node

def render (tree : Option Tree) (label : Nat → Option String) : String :=
  match tree with
  | some tree => tree.visits.foldl (fun out visit => out ++ visitText label visit) ""
  | none => nullSlot

def ofTree (tree : Option Tree) : String :=
  render tree fun _ => none

def ofLabelled {α : Type} [ToString α] (tree : Option Tree) (labels : Labels α) : String :=
  render tree fun id => (labels.get? id).map toString

end TreeAssay.Dump
