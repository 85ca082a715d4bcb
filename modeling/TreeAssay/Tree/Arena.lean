import TreeAssay.Tree.Node
/-!
# Arenas and trees

An arena holds nodes under their numbers, in the order in which they were
added. A child always comes after its parent, so that every walk downwards ends
and the numbers in reverse lead from the children to the parents. A tree is an
arena with a root.
-/

namespace TreeAssay

/-- Numbered nodes, each of which comes before its children. -/
structure Arena where
  nodes : Array Node := #[]
  children_later : ∀ i n, nodes[i]? = some n →
    ∀ j, Slot.node j ∈ n.slots → i < j ∧ j < nodes.size := by simp

namespace Arena

def size (a : Arena) : Nat :=
  a.nodes.size

def empty : Arena := {}

def node? (a : Arena) (id : Nat) : Option Node :=
  a.nodes[id]?

def push (a : Arena) (leaf : Leaf) : Arena where
  nodes := a.nodes.push { toLeaf := leaf }
  children_later := by
    intro i n h j hj
    rw [Array.getElem?_push] at h
    split at h
    next => cases h; simp at hj
    next =>
      have := a.children_later i n h j hj
      rw [Array.size_push]
      omega

/-- The arena with a slot added to a node; a node in the slot comes after its
parent. -/
def addSlot (a : Arena) (parent : Nat) (slot : Slot)
    (later : ∀ j, slot = .node j → parent < j ∧ j < a.nodes.size) : Arena where
  nodes := a.nodes.modify parent (·.addSlot slot)
  children_later := by
    intro i n h j hj
    rw [Array.getElem?_modify] at h
    rw [Array.size_modify]
    split at h
    next same =>
      subst same
      obtain ⟨old, hold, rfl⟩ := Option.map_eq_some_iff.1 h
      rcases Array.mem_push.1 hj with hj | hj
      · exact a.children_later _ _ hold _ hj
      · exact later j hj.symm
    next => exact a.children_later i n h j hj

def totalWeight : List Nat → Nat
  | [] => 0
  | weight :: rest => weight + totalWeight rest

theorem totalWeight_append (xs ys : List Nat) :
    totalWeight (xs ++ ys) = totalWeight xs + totalWeight ys := by
  induction xs with
  | nil => simp [totalWeight]
  | cons weight rest ih => simp only [List.cons_append, totalWeight, ih]; omega

/-- The number of steps in which a walk from a node visits everything below it
and comes back. It bounds walks and is never computed. -/
def weight (a : Arena) (id : Nat) : Nat :=
  match a.nodes[id]? with
  | none => 1
  | some n =>
    2 + totalWeight (n.slots.toList.map fun
      | .null => 1
      | .node j => if _ : id < j ∧ j < a.nodes.size then weight a j else 1)
termination_by a.nodes.size - id

def slotWeight (a : Arena) : Slot → Nat
  | .null => 1
  | .node j => a.weight j

theorem weight_eq_of_node? {a : Arena} {id : Nat} {n : Node} (h : a.node? id = some n) :
    a.weight id = 2 + totalWeight (n.slots.toList.map a.slotWeight) := by
  have h : a.nodes[id]? = some n := h
  rw [weight, h]
  dsimp only
  congr 2
  apply List.map_congr_left
  intro slot mem
  cases slot with
  | null => rfl
  | node j =>
    have later := a.children_later id n h j (by simpa using mem)
    simp only [later, and_self, dite_true, slotWeight]

end Arena

structure Tree extends Arena where
  root : Nat
  root_lt : root < nodes.size

namespace Tree

def leaf (l : Leaf) : Tree where
  toArena := Arena.empty.push l
  root := 0
  root_lt := by simp [Arena.push]

def rootNode (t : Tree) : Node :=
  have := t.root_lt
  t.nodes[t.root]

/-- The numbers of the nodes, children before their parents. -/
def bottomUp (t : Tree) : List Nat :=
  (List.range t.size).reverse

end Tree

end TreeAssay
