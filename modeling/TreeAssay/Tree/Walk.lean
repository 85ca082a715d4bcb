import TreeAssay.Tree.Arena
/-!
# Walks

A walk lists what is met on the way through a tree, each node before its
children and its children in order. It keeps the work that is left on a stack,
so that the depth of a tree is no limit.
-/

namespace TreeAssay

inductive Visit
  | leaf (id : Nat) (node : Node)
  /-- A node with child slots, before them. -/
  | enter (id : Nat) (node : Node)
  | null
  /-- A node with child slots, after them. -/
  | leave (node : Node)
  deriving DecidableEq

/-- What is left to do on a walk. -/
inductive Errand
  | visit (id : Nat)
  | note (visit : Visit)

namespace Arena

def errand : Slot → Errand
  | .null => .note .null
  | .node id => .visit id

def errandWeight (a : Arena) : Errand → Nat
  | .visit id => a.weight id
  | .note _ => 1

theorem weight_pos (a : Arena) (id : Nat) : 0 < a.weight id := by
  rw [weight]
  split <;> omega

theorem errandWeight_errand (a : Arena) (slot : Slot) :
    a.errandWeight (errand slot) = a.slotWeight slot := by
  cases slot <;> rfl

/-- Does the errands in order, after the visits already made. -/
def walk (a : Arena) (visits : Array Visit) : List Errand → Array Visit
  | [] => visits
  | .note v :: rest => walk a (visits.push v) rest
  | .visit id :: rest =>
    match _h : a.node? id with
    | none => walk a visits rest
    | some n =>
      if n.slots.isEmpty then walk a (visits.push (.leaf id n)) rest
      else walk a (visits.push (.enter id n))
        (n.slots.toList.map errand ++ .note (.leave n) :: rest)
termination_by errands => totalWeight (errands.map a.errandWeight)
decreasing_by
  · simp [errandWeight, totalWeight]
  · simpa [errandWeight, totalWeight] using a.weight_pos id
  · simpa [errandWeight, totalWeight] using a.weight_pos id
  · simp only [List.map_append, List.map_map, List.map_cons, totalWeight_append, totalWeight,
      errandWeight, weight_eq_of_node? _h]
    have : totalWeight (n.slots.toList.map (a.errandWeight ∘ errand)) =
        totalWeight (n.slots.toList.map a.slotWeight) := by
      congr 1
      exact List.map_congr_left fun slot _ => a.errandWeight_errand slot
    omega

end Arena

namespace Tree

def visits (t : Tree) : Array Visit :=
  t.walk #[] [.visit t.root]

end Tree

end TreeAssay
