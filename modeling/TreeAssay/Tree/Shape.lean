import TreeAssay.Tree.Arena
/-!
# Shapes

Two trees have the same shape when they agree in everything but the numbers of
their nodes: operations, literals, and slots in order, null or not.
-/

namespace TreeAssay

namespace Arena

/-- Pairs the nodes in two rows of slots and puts the pairs in front of the given
ones. Fails where the rows differ in length or in a null slot. -/
def pairSlots? (pairs : List (Nat × Nat)) : List Slot → List Slot → Option (List (Nat × Nat))
  | [], [] => some pairs
  | .null :: xs, .null :: ys => pairSlots? pairs xs ys
  | .node i :: xs, .node j :: ys => pairSlots? ((i, j) :: pairs) xs ys
  | _, _ => none

/-- The steps that a list of pairs takes, counted in the first arena. -/
def pairsWeight (a : Arena) (pairs : List (Nat × Nat)) : Nat :=
  totalWeight (pairs.map fun pair => a.weight pair.1)

theorem pairsWeight_pairSlots? {a : Arena} {pairs paired : List (Nat × Nat)} {xs ys : List Slot}
    (h : pairSlots? pairs xs ys = some paired) :
    a.pairsWeight paired ≤ totalWeight (xs.map a.slotWeight) + a.pairsWeight pairs := by
  fun_induction pairSlots? pairs xs ys with
  | case1 => cases h; simp
  | case2 pairs xs ys ih =>
    have := ih h
    simp only [List.map_cons, totalWeight]
    omega
  | case3 pairs i xs j ys ih =>
    have := ih h
    simp only [pairsWeight, List.map_cons, totalWeight, slotWeight] at this ⊢
    omega
  | case4 => cases h

def agree (a b : Arena) : List (Nat × Nat) → Bool
  | [] => true
  | (i, j) :: rest =>
    match _hx : a.node? i, b.node? j with
    | some x, some y =>
      if x.toLeaf = y.toLeaf then
        match _hp : pairSlots? rest x.slots.toList y.slots.toList with
        | some pairs => agree a b pairs
        | none => false
      else false
    | _, _ => false
termination_by pairs => a.pairsWeight pairs
decreasing_by
  have := a.pairsWeight_pairSlots? _hp
  simp only [pairsWeight, List.map_cons, totalWeight, weight_eq_of_node? _hx] at this ⊢
  omega

end Arena

/-- The trees agree in everything but the numbers of their nodes. -/
def Tree.sameShape (a b : Tree) : Bool :=
  a.agree b.toArena [(a.root, b.root)]

end TreeAssay
