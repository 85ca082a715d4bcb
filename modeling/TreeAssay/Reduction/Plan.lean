import TreeAssay.Reduction.Error
import TreeAssay.Reduction.States
import TreeAssay.Tree.Walk
/-!
# Plans

A plan says how a labelled node comes to be a value of the kind that it is asked
for: by a pattern, and then by conversions. Planning starts at the root and
asks the children of a node for the kinds that its pattern takes. The last
child comes first, with everything below it; the first failure ends it.
-/

namespace TreeAssay

structure Plan where
  /-- The conversions after the pattern, the last one first. -/
  conversions : List Conversion
  pattern : Pattern
  deriving DecidableEq, Repr

/-- A node and the kind that it is asked for. -/
structure Demand where
  id : Nat
  goal : Kind
  deriving DecidableEq, Repr

/-- Asks the nodes in a row of slots for a kind, in front of the demands that are
left. A null slot meets no demand. -/
def Demand.ofSlots? (kind : Kind) (rest : List Demand) : List Slot → Option (List Demand)
  | [] => some rest
  | .null :: _ => none
  | .node id :: slots => ofSlots? kind (⟨id, kind⟩ :: rest) slots

namespace Plan

def ofNode (states : States) (labels : Labels StateId) (node : Node) (demand : Demand) :
    Except ReductionError Plan :=
  match states.tableOf? labels demand.id with
  | none => .error (.unlabeled demand.id)
  | some table =>
    match table.chain? demand.goal with
    | none => .error (.noDerivation demand.id node.op demand.goal)
    | some (conversions, pattern) => .ok ⟨conversions, pattern⟩

/-- What a plan demands of the children, in front of the demands that are left. -/
def demands? (plan : Plan) (node : Node) (rest : List Demand) : Option (List Demand) :=
  match plan.pattern.operands.kind? with
  | none => some rest
  | some kind => Demand.ofSlots? kind rest node.slots.toList

end Plan

namespace Arena

def demandsWeight (a : Arena) (demands : List Demand) : Nat :=
  totalWeight (demands.map fun demand => a.weight demand.id)

theorem demandsWeight_ofSlots? {a : Arena} {kind : Kind} {rest demands : List Demand}
    {slots : List Slot} (h : Demand.ofSlots? kind rest slots = some demands) :
    a.demandsWeight demands = totalWeight (slots.map a.slotWeight) + a.demandsWeight rest := by
  fun_induction Demand.ofSlots? kind rest slots with
  | case1 => cases h; simp [totalWeight]
  | case2 => cases h
  | case3 rest id slots ih =>
    rw [ih h]
    simp only [demandsWeight, List.map_cons, totalWeight, slotWeight]
    omega

theorem demandsWeight_demands? {a : Arena} {plan : Plan} {node : Node}
    {rest demands : List Demand} (h : plan.demands? node rest = some demands) :
    a.demandsWeight demands ≤
      totalWeight (node.slots.toList.map a.slotWeight) + a.demandsWeight rest := by
  unfold Plan.demands? at h
  split at h
  · cases h; omega
  · exact Nat.le_of_eq (demandsWeight_ofSlots? h)

/-- Meets the demands in order, with the plans already made. -/
def plans (a : Arena) (states : States) (labels : Labels StateId) (made : Labels Plan) :
    List Demand → Except ReductionError (Labels Plan)
  | [] => .ok made
  | demand :: rest =>
    match _hn : a.node? demand.id with
    | none => .error (.unlabeled demand.id)
    | some node =>
      match Plan.ofNode states labels node demand with
      | .error error => .error error
      | .ok plan =>
        match _hd : plan.demands? node rest with
        | none => .error (.noDerivation demand.id node.op demand.goal)
        | some demands => plans a states labels (made.set demand.id plan) demands
termination_by demands => a.demandsWeight demands
decreasing_by
  have := a.demandsWeight_demands? _hd
  simp only [demandsWeight, List.map_cons, totalWeight, weight_eq_of_node? _hn] at this ⊢
  omega

end Arena

def Tree.plans (tree : Tree) (states : States) (labels : Labels StateId) (goal : Kind) :
    Except ReductionError (Labels Plan) :=
  tree.toArena.plans states labels .empty [⟨tree.root, goal⟩]

end TreeAssay
