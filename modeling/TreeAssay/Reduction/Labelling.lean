import TreeAssay.Reduction.States
import TreeAssay.Tree.Arena
/-!
# Labelling

Every node of a tree is labelled with the state of its cost table, children
before their parents: the table of a node follows from its operation, its
literal and the tables of its children.
-/

namespace TreeAssay

namespace States

def slotCost? (s : States) (labels : Labels StateId) (kind : Kind) : Slot → Option UInt32
  | .null => none
  | .node id => ((s.tableOf? labels id).bind (·.get? kind)).map Derivation.cost

/-- The cost of a row of slots on top of a given one. -/
def slotsCost? (s : States) (labels : Labels StateId) (kind : Kind) (cost : UInt32)
    (slots : List Slot) : Option UInt32 :=
  slots.foldlM (fun total slot => (s.slotCost? labels kind slot).map (Cost.plus total)) cost

def patternCost? (s : States) (labels : Labels StateId) (node : Node) (pattern : Pattern) :
    Option UInt32 :=
  if pattern.operands.accepts node.slots.size && pattern.guard node.toLeaf then
    match pattern.operands.kind? with
    | none => some pattern.cost
    | some kind => s.slotsCost? labels kind pattern.cost node.slots.toList
  else none

def offerPattern (s : States) (labels : Labels StateId) (node : Node) (table : CostTable)
    (pattern : Pattern) : CostTable :=
  match s.patternCost? labels node pattern with
  | some cost => table.offer pattern.produces ⟨cost, .pattern pattern⟩
  | none => table

/-- The cost table of a node whose children are labelled. -/
def tableAt (s : States) (labels : Labels StateId) (node : Node) : CostTable :=
  ((Pattern.all.filter fun pattern => pattern.op = node.op).foldl
    (s.offerPattern labels node) {}).close

def labelNode (a : Arena) (labelled : States × Labels StateId) (id : Nat) :
    States × Labels StateId :=
  match a.node? id with
  | none => labelled
  | some node =>
    let (states, labels) := labelled
    let table := states.tableAt labels node
    let (states, state) := states.intern table
    (states, labels.set id state)

def label (s : States) (tree : Tree) (labels : Labels StateId) : States × Labels StateId :=
  tree.bottomUp.foldl (labelNode tree.toArena) (s, labels)

end States

end TreeAssay
