import TreeAssay.Value
import TreeAssay.Vocabulary
/-!
# Nodes

A leaf is an operation with an optional literal. A node is a leaf with a row of
child slots, each of which names another node or is left null on purpose.
-/

namespace TreeAssay

structure Leaf where
  op : Operation
  payload : Option Value := none
  deriving DecidableEq

/-- A content text that its operation cannot carry. -/
structure ContentError where
  op : Operation
  content : String
  deriving DecidableEq, Repr

def ContentError.describe (opName content : String) : String :=
  "content '" ++ content ++ "' of " ++ opName ++ " is not an integer"

def ContentError.message (e : ContentError) : String :=
  describe e.op.name e.content

namespace Leaf

def int? (leaf : Leaf) : Option Int64 :=
  leaf.payload.bind Value.int?

def text? (leaf : Leaf) : Option String :=
  leaf.payload.bind Value.text?

def stringLiteral (s : String) : Leaf :=
  ⟨.stringLiteral, some (.text s)⟩

/-- The leaf of an operation and its content text: kept as it is by a string
literal, an integer for every other operation. -/
def ofContent (op : Operation) : Option String → Except ContentError Leaf
  | none => .ok ⟨op, none⟩
  | some content =>
    if op.isStringLiteral then .ok (stringLiteral content)
    else match Decimal.read? content.toList with
      | some n => .ok ⟨op, some (.int n)⟩
      | none => .error ⟨op, content⟩

end Leaf

/-- A place for a child: the number of a node, or null. -/
inductive Slot
  | null
  | node (id : Nat)
  deriving DecidableEq, Repr

def Slot.node? : Slot → Option Nat
  | .null => none
  | .node id => some id

structure Node extends Leaf where
  slots : Array Slot := #[]
  deriving DecidableEq

def Node.addSlot (node : Node) (slot : Slot) : Node :=
  { node with slots := node.slots.push slot }

end TreeAssay
