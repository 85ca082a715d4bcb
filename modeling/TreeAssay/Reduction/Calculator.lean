import TreeAssay.Reduction.Arithmetic
import TreeAssay.Reduction.Labelling
import TreeAssay.Reduction.Plan
import TreeAssay.Reduction.Reducer
/-!
# The calculator

The calculator reduces a labelled tree by the cheapest rules. First every node
gets its plan, then the plans are carried out, children before their parents;
so a plan that fails takes precedence over a calculation that fails. A plan is put
away when it is carried out, and a value when the parent takes it.
-/

namespace TreeAssay

/-- What is left of a reduction: the plans that wait, and the values that no parent has
taken. -/
structure Workbench where
  plans : Labels Plan
  values : Labels Value

namespace Plan

def takeValue (id : Nat) : StateT (Labels Value) (Except ReductionError) Value := fun values =>
  match values.get? id with
  | some value => .ok (value, values.erase id)
  | none => .error (.unlabeled id)

/-- Takes the values of the nodes in slots, in order. -/
def takeOperands (slots : List Slot) (values : Labels Value) :
    Except ReductionError (List Value × Labels Value) :=
  (slots.filterMap Slot.node?).mapM takeValue values

/-- The pattern on the values below a node, and then the conversions. -/
def carryOut (plan : Plan) (leaf : Leaf) (operands : List Value) :
    Except ReductionError Value := do
  let value ← plan.pattern.action.apply leaf operands
  plan.conversions.reverse.foldlM (fun value conversion => conversion.apply value) value

/-- The value of a node, and the values that are left. -/
def evaluate (plan : Plan) (node : Node) (values : Labels Value) :
    Except ReductionError (Value × Labels Value) := do
  let (operands, values) ←
    match plan.pattern.operands.kind? with
    | none => .ok ([], values)
    | some _ => takeOperands node.slots.toList values
  let value ← plan.carryOut node.toLeaf operands
  return (value, values)

end Plan

/-- Carries out the plan of a node, if it has one. -/
def Arena.evaluateNode (a : Arena) (bench : Workbench) (id : Nat) :
    Except ReductionError Workbench :=
  match a.node? id, bench.plans.get? id with
  | some node, some plan =>
    match plan.evaluate node bench.values with
    | .error error => .error error
    | .ok (value, values) => .ok ⟨bench.plans.erase id, values.set id value⟩
  | _, _ => .ok bench

namespace Tree

def evaluate (tree : Tree) (plans : Labels Plan) : Except ReductionError Value :=
  match tree.bottomUp.foldlM tree.evaluateNode ⟨plans, .empty⟩ with
  | .error error => .error error
  | .ok bench =>
    match bench.values.get? tree.root with
    | some value => .ok value
    | none => .error (.unlabeled tree.root)

def reduce (tree : Tree) (states : States) (labels : Labels StateId) (goal : Kind) :
    Except ReductionError Value :=
  match tree.plans states labels goal with
  | .error error => .error error
  | .ok plans => tree.evaluate plans

def canProduce (tree : Tree) (states : States) (labels : Labels StateId) (goal : Kind) : Bool :=
  (states.tableOf? labels tree.root).any fun table => (table.get? goal).isSome

end Tree

/-- The calculator keeps the states that it has met. No question changes them. -/
def calculator : Reducer States StateId where
  label states tree labels :=
    match tree with
    | none => (states, labels)
    | some tree => states.label tree labels
  reduce states tree labels goal :=
    (states,
      match tree with
      | none => .error (.emptyTree goal)
      | some tree => tree.reduce states labels goal)
  canProduce states tree labels goal :=
    (states, tree.any fun tree => tree.canProduce states labels goal)

end TreeAssay
