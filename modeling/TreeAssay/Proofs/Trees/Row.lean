import TreeAssay.Tree.Walk
/-!
# Rows of ordered trees

A row is what stands in the child slots of a node: nulls and nodes in order, each
node with the row below it.  It knows nothing of numbers.  A row is laid out by
numbering its nodes in the order in which they start, and `Arena.row` reads a
row back by following the numbers in the slots.
-/

namespace TreeAssay

/-- Child slots in order, each null or a node with the row below it. -/
inductive Row
  | nil
  | null (next : Row)
  | node (leaf : Leaf) (below next : Row)
  deriving DecidableEq

namespace Row

def length : Row → Nat
  | nil => 0
  | null next => next.length + 1
  | node _ _ next => next.length + 1

/-- The number of nodes, those further below included. -/
def size : Row → Nat
  | nil => 0
  | null next => next.size
  | node _ below next => 1 + below.size + next.size

def append : Row → Row → Row
  | nil, row => row
  | null next, row => null (next.append row)
  | node leaf below next, row => node leaf below (next.append row)

instance : Append Row := ⟨append⟩

/-- The nodes of a row, each before those below it. -/
def leaves : Row → List Leaf
  | nil => []
  | null next => next.leaves
  | node leaf below next => leaf :: below.leaves ++ next.leaves

/-- The slots of a row whose nodes are numbered from `start`. -/
def slots (start : Nat) : Row → List Slot
  | nil => []
  | null next => .null :: next.slots start
  | node _ below next => .node start :: next.slots (start + 1 + below.size)

def nodes (start : Nat) : Row → List Node
  | nil => []
  | null next => next.nodes start
  | node leaf below next =>
    ⟨leaf, (below.slots (start + 1)).toArray⟩ :: below.nodes (start + 1) ++
      next.nodes (start + 1 + below.size)

theorem null_append (next row : Row) : null next ++ row = null (next ++ row) := rfl

theorem node_append (leaf : Leaf) (below next row : Row) :
    node leaf below next ++ row = node leaf below (next ++ row) := rfl

theorem append_nil (row : Row) : row ++ nil = row := by
  induction row with
  | nil => rfl
  | null next ih => rw [null_append, ih]
  | node leaf below next _ ih => rw [node_append, ih]

theorem append_assoc (a b c : Row) : a ++ b ++ c = a ++ (b ++ c) := by
  induction a with
  | nil => rfl
  | null next ih => rw [null_append, null_append, null_append, ih]
  | node leaf below next _ ih => rw [node_append, node_append, node_append, ih]

theorem leaves_append (a b : Row) : (a ++ b).leaves = a.leaves ++ b.leaves := by
  induction a with
  | nil => rfl
  | null next ih => rw [null_append, leaves, ih, leaves]
  | node leaf below next _ ih => rw [node_append, leaves, ih, leaves, List.append_assoc]

theorem slots_append (start : Nat) (a b : Row) :
    (a ++ b).slots start = a.slots start ++ b.slots (start + a.size) := by
  induction a generalizing start with
  | nil => rfl
  | null next ih => rw [null_append, slots, ih, slots, size, List.cons_append]
  | node leaf below next _ ih =>
      rw [node_append, slots, ih, slots, size, List.cons_append]
      simp only [Nat.add_assoc]

theorem nodes_append (start : Nat) (a b : Row) :
    (a ++ b).nodes start = a.nodes start ++ b.nodes (start + a.size) := by
  induction a generalizing start with
  | nil => rfl
  | null next ih => rw [null_append, nodes, ih, nodes, size]
  | node leaf below next _ ih =>
      rw [node_append, nodes, ih, nodes, size, List.cons_append, List.cons_append,
        List.cons_append, List.append_assoc]
      simp only [Nat.add_assoc]

theorem length_nodes (start : Nat) (row : Row) : (row.nodes start).length = row.size := by
  induction row generalizing start with
  | nil => rfl
  | null next ih => rw [nodes, ih, size]
  | node leaf below next ihBelow ihNext =>
      rw [nodes, List.length_append, List.length_cons, ihBelow, ihNext, size]
      omega

/-- The numbers of a row that begins with a node. -/
theorem range'_size_node (start : Nat) (leaf : Leaf) (below next : Row) :
    List.range' start (node leaf below next).size =
      start :: (List.range' (start + 1) below.size ++
        List.range' (start + 1 + below.size) next.size) := by
  rw [size, Nat.add_assoc, Nat.add_comm 1, List.range'_succ, List.range'_append_1]

theorem map_toLeaf_nodes (start : Nat) (row : Row) :
    (row.nodes start).map Node.toLeaf = row.leaves := by
  induction row generalizing start with
  | nil => rfl
  | null next ih => rw [nodes, ih, leaves]
  | node leaf below next ihBelow ihNext =>
      rw [nodes, List.map_append, List.map_cons, ihBelow, ihNext, leaves]

theorem slots_bounds {start id : Nat} {row : Row} (h : Slot.node id ∈ row.slots start) :
    start ≤ id ∧ id < start + row.size := by
  induction row generalizing start with
  | nil => simp [slots] at h
  | null next ih =>
      have h' : Slot.node id ∈ next.slots start := by simpa [slots] using h
      simpa only [size] using ih h'
  | node leaf below next _ ih =>
      rw [slots, List.mem_cons] at h
      rw [size]
      rcases h with h | h
      · injection h with h
        omega
      · have := ih h
        omega

theorem children_later {start : Nat} {row : Row} {i : Nat} {n : Node}
    (h : (row.nodes start)[i]? = some n) {id : Nat} (hid : Slot.node id ∈ n.slots) :
    start + i < id ∧ id < start + row.size := by
  induction row generalizing start i with
  | nil => simp [nodes] at h
  | null next ih => simpa only [size] using ih h
  | node leaf below next ihBelow ihNext =>
      rw [nodes, List.cons_append] at h
      rw [size]
      cases i with
      | zero =>
          simp only [List.getElem?_cons_zero, Option.some.injEq] at h
          subst h
          have := slots_bounds (List.mem_toArray.1 hid)
          omega
      | succ i =>
          rw [List.getElem?_cons_succ, List.getElem?_append, length_nodes] at h
          split at h
          · have := ihBelow h
            omega
          · have := ihNext h
            omega

end Row

/-- The tree of a node and the row below it, numbered from zero. -/
def Tree.plant (leaf : Leaf) (below : Row) : Tree where
  nodes := ((Row.node leaf below .nil).nodes 0).toArray
  children_later := by
    intro i n h id hid
    rw [List.getElem?_toArray] at h
    have := Row.children_later h hid
    rw [List.size_toArray, Row.length_nodes]
    omega
  root := 0
  root_lt := by
    rw [List.size_toArray, Row.length_nodes, Row.size]
    omega

namespace Arena

/-- From the number `start` on, an arena holds the nodes of a row as they are laid
out. -/
def Holds (a : Arena) (start : Nat) : Row → Prop
  | .nil => True
  | .null next => a.Holds start next
  | .node leaf below next =>
    a.node? start = some ⟨leaf, (below.slots (start + 1)).toArray⟩ ∧
      a.Holds (start + 1) below ∧ a.Holds (start + 1 + below.size) next

theorem holds_of_getElem? {a : Arena} {start : Nat} {row : Row}
    (h : ∀ i, i < row.size → a.node? (start + i) = (row.nodes start)[i]?) :
    a.Holds start row := by
  induction row generalizing start with
  | nil => trivial
  | null next ih => exact ih h
  | node leaf below next ihBelow ihNext =>
      refine ⟨?_, ihBelow ?_, ihNext ?_⟩
      · simpa [Row.nodes] using h 0 (by rw [Row.size]; omega)
      · intro i hi
        have := h (1 + i) (by rw [Row.size]; omega)
        rw [← Nat.add_assoc, Row.nodes, List.cons_append, Nat.add_comm 1 i,
          List.getElem?_cons_succ, List.getElem?_append_left (by rwa [Row.length_nodes])] at this
        exact this
      · intro i hi
        have := h (below.size + i + 1) (by rw [Row.size]; omega)
        rw [Row.nodes, List.cons_append, List.getElem?_cons_succ,
          List.getElem?_append_right (by rw [Row.length_nodes]; omega), Row.length_nodes,
          Nat.add_sub_cancel_left] at this
        rw [← this]
        congr 1
        omega

theorem holds_plant (leaf : Leaf) (below : Row) :
    (Tree.plant leaf below).Holds 0 (.node leaf below .nil) := by
  apply holds_of_getElem?
  intro i _
  simp only [Tree.plant, node?, List.getElem?_toArray, Nat.zero_add]

/-- Less is left to do behind the first slot of a row. -/
theorem totalWeight_rest_lt (a : Arena) (slot : Slot) (rest : List Slot) :
    totalWeight (rest.map a.slotWeight) < totalWeight ((slot :: rest).map a.slotWeight) := by
  have hpos : 0 < a.slotWeight slot := by
    cases slot with
    | null => exact Nat.one_pos
    | node id => exact a.weight_pos id
  simp only [List.map_cons, totalWeight]
  omega

/-- Less is left to do below the first node of a row. -/
theorem totalWeight_below_lt {a : Arena} {id : Nat} {n : Node} (h : a.node? id = some n)
    (rest : List Slot) :
    totalWeight (n.slots.toList.map a.slotWeight) <
      totalWeight ((Slot.node id :: rest).map a.slotWeight) := by
  simp only [List.map_cons, totalWeight, slotWeight, weight_eq_of_node? h]
  omega

/-- The row that the numbers in a list of slots stand for. -/
def row (a : Arena) : List Slot → Row
  | [] => .nil
  | .null :: rest => .null (a.row rest)
  | .node id :: rest =>
    match _h : a.node? id with
    | none => .null (a.row rest)
    | some n => .node n.toLeaf (a.row n.slots.toList) (a.row rest)
termination_by slots => totalWeight (slots.map a.slotWeight)
decreasing_by
  · exact a.totalWeight_rest_lt _ rest
  · exact a.totalWeight_rest_lt _ rest
  · exact totalWeight_below_lt _h rest
  · exact a.totalWeight_rest_lt _ rest

theorem row_nil {a : Arena} : a.row [] = .nil := by
  rw [row]

theorem row_null {a : Arena} (rest : List Slot) : a.row (.null :: rest) = .null (a.row rest) := by
  rw [row]

theorem row_node {a : Arena} {id : Nat} {n : Node} (h : a.node? id = some n) (rest : List Slot) :
    a.row (.node id :: rest) = .node n.toLeaf (a.row n.slots.toList) (a.row rest) := by
  rw [row]
  split
  next hnone => simp [h] at hnone
  next m hm =>
    obtain rfl : m = n := Option.some.inj (hm.symm.trans h)
    rfl

theorem row_slots {a : Arena} {start : Nat} {row : Row} (h : a.Holds start row) :
    a.row (row.slots start) = row := by
  induction row generalizing start with
  | nil => exact row_nil
  | null next ih => rw [Row.slots, row_null, ih h]
  | node leaf below next ihBelow ihNext =>
      obtain ⟨hnode, hbelow, hnext⟩ := h
      rw [Row.slots, row_node hnode, ihBelow hbelow, ihNext hnext]

end Arena

namespace Tree

def below (t : Tree) : Row :=
  t.toArena.row t.rootNode.slots.toList

theorem rootNode_plant (leaf : Leaf) (below : Row) :
    (plant leaf below).rootNode = ⟨leaf, (below.slots 1).toArray⟩ := rfl

@[simp] theorem below_plant (leaf : Leaf) (below : Row) : (plant leaf below).below = below := by
  rw [Tree.below, rootNode_plant]
  exact Arena.row_slots (Arena.holds_plant leaf below).2.1

theorem size_plant (leaf : Leaf) (below : Row) : (plant leaf below).size = 1 + below.size := by
  simp only [plant, Arena.size, List.size_toArray, Row.length_nodes, Row.size]
  rfl

theorem leaf_eq_plant (l : Leaf) : leaf l = plant l .nil := rfl

theorem map_toLeaf_plant (leaf : Leaf) (below : Row) :
    (plant leaf below).nodes.toList.map Node.toLeaf = leaf :: below.leaves := by
  rw [plant, Row.map_toLeaf_nodes, Row.leaves, Row.leaves, List.append_nil]

theorem forall_nodes_plant {leaf : Leaf} {below : Row} {P : Leaf → Prop} :
    (∀ n ∈ (plant leaf below).nodes, P n.toLeaf) ↔ ∀ l ∈ leaf :: below.leaves, P l := by
  rw [← map_toLeaf_plant, List.forall_mem_map]
  simp only [Array.mem_toList_iff]

end Tree

end TreeAssay
