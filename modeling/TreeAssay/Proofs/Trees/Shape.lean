import Mathlib.Data.List.Forall2
import TreeAssay.Proofs.Trees.Construction
import TreeAssay.Tree.Shape
/-!
# Same shapes

Two trees have the same shape exactly when they are the same ordered tree: the same node above
the same row.  The comparison works on pairs of numbers, and what it still has to find out is
that the two numbers of each pair stand for the same ordered tree (`agree_iff`).  A completed
tree is told by its shape, since its numbers follow from the order of its nodes.
-/

namespace TreeAssay

namespace Arena

variable {a b : Arena}

/-! ## Rows, slot by slot -/

/-- Every number in the slots is that of a node. -/
def Knows (a : Arena) (slots : List Slot) : Prop :=
  ∀ id, Slot.node id ∈ slots → id < a.size

theorem exists_node_of_lt {id : Nat} (h : id < a.size) : ∃ n, a.node? id = some n :=
  ⟨_, Array.getElem?_eq_getElem h⟩

theorem knows_slots {id : Nat} {n : Node} (h : a.node? id = some n) : a.Knows n.slots.toList :=
  fun child hchild => (a.children_later id n h child (Array.mem_toList_iff.1 hchild)).2

theorem knows_cons {slot : Slot} {rest : List Slot} :
    a.Knows (slot :: rest) ↔ a.Knows [slot] ∧ a.Knows rest := by
  simp [Knows, or_imp, forall_and]

/-- What a slot puts at the front of a row. -/
theorem row_cons_cases (slot : Slot) (rest : List Slot) :
    (∃ leaf below, a.row [slot] = .node leaf below .nil ∧
        a.row (slot :: rest) = .node leaf below (a.row rest)) ∨
      a.row [slot] = .null .nil ∧ a.row (slot :: rest) = .null (a.row rest) := by
  cases slot with
  | null => exact .inr ⟨by rw [row_null, row_nil], row_null rest⟩
  | node id =>
      cases hnode : a.node? id with
      | none =>
          have hrow (rest : List Slot) : a.row (.node id :: rest) = .null (a.row rest) := by
            rw [row]
            split
            next => rfl
            next hsome => simp [hnode] at hsome
          exact .inr ⟨by rw [hrow, row_nil], hrow rest⟩
      | some n => exact .inl ⟨n.toLeaf, _, by rw [row_node hnode, row_nil], row_node hnode rest⟩

theorem row_cons_eq_iff {x y : Slot} {xs ys : List Slot} :
    a.row (x :: xs) = b.row (y :: ys) ↔ a.row [x] = b.row [y] ∧ a.row xs = b.row ys := by
  rcases a.row_cons_cases x xs with ⟨leaf, below, hx, hxs⟩ | ⟨hx, hxs⟩ <;>
    rcases b.row_cons_cases y ys with ⟨leaf', below', hy, hys⟩ | ⟨hy, hys⟩ <;>
    simp [hx, hxs, hy, hys, and_assoc]

theorem row_cons_ne_nil (slot : Slot) (rest : List Slot) : a.row (slot :: rest) ≠ .nil := by
  rcases a.row_cons_cases slot rest with ⟨leaf, below, _, hrow⟩ | ⟨_, hrow⟩ <;> simp [hrow]

/-- Two rows are the same when they are the same slot by slot. -/
theorem row_eq_iff {xs ys : List Slot} :
    a.row xs = b.row ys ↔ List.Forall₂ (fun x y => a.row [x] = b.row [y]) xs ys := by
  induction xs generalizing ys with
  | nil =>
      cases ys with
      | nil => simp [row_nil]
      | cons y ys => simp [row_nil, (b.row_cons_ne_nil y ys).symm]
  | cons x xs ih =>
      cases ys with
      | nil => simp [row_nil, a.row_cons_ne_nil x xs]
      | cons y ys => rw [row_cons_eq_iff, ih, List.forall₂_cons]

theorem row_node_eq_iff {i j : Nat} {x y : Node} (hx : a.node? i = some x)
    (hy : b.node? j = some y) :
    a.row [.node i] = b.row [.node j] ↔
      x.toLeaf = y.toLeaf ∧ a.row x.slots.toList = b.row y.slots.toList := by
  rw [row_node hx, row_node hy, row_nil, row_nil, Row.node.injEq]
  simp

/-- Two slots that stand for the same are both null, or hold nodes that stand for the same. -/
theorem null_or_node {x y : Slot} (hx : a.Knows [x]) (hy : b.Knows [y])
    (hrow : a.row [x] = b.row [y]) :
    x = .null ∧ y = .null ∨ ∃ i j n m, x = .node i ∧ y = .node j ∧ a.node? i = some n ∧
      b.node? j = some m ∧ a.row n.slots.toList = b.row m.slots.toList := by
  cases x with
  | null =>
      cases y with
      | null => exact .inl ⟨rfl, rfl⟩
      | node j =>
          obtain ⟨m, hm⟩ := exists_node_of_lt (hy j (by simp))
          rw [row_null, row_node hm] at hrow
          cases hrow
  | node i =>
      obtain ⟨n, hn⟩ := exists_node_of_lt (hx i (by simp))
      cases y with
      | null =>
          rw [row_null, row_node hn] at hrow
          cases hrow
      | node j =>
          obtain ⟨m, hm⟩ := exists_node_of_lt (hy j (by simp))
          exact .inr ⟨i, j, n, m, rfl, rfl, hn, hm, ((row_node_eq_iff hn hm).1 hrow).2⟩

/-! ## Comparing pair by pair -/

/-- Each number of the pairs is that of a node. -/
def KnowsPairs (a b : Arena) (pairs : List (Nat × Nat)) : Prop :=
  ∀ pair ∈ pairs, pair.1 < a.size ∧ pair.2 < b.size

/-- The numbers of each pair stand for the same ordered tree. -/
def Matches (a b : Arena) (pairs : List (Nat × Nat)) : Prop :=
  ∀ pair ∈ pairs, a.row [.node pair.1] = b.row [.node pair.2]

theorem matches_cons {pair : Nat × Nat} {rest : List (Nat × Nat)} :
    Matches a b (pair :: rest) ↔ a.row [.node pair.1] = b.row [.node pair.2] ∧ Matches a b rest :=
  List.forall_mem_cons

/-- Pairing two rows leaves to be found out whether they are the same, and fails only if they are
not. -/
theorem pairSlots?_spec {pairs : List (Nat × Nat)} {xs ys : List Slot} (hxs : a.Knows xs)
    (hys : b.Knows ys) (hpairs : KnowsPairs a b pairs) :
    match pairSlots? pairs xs ys with
    | some paired => KnowsPairs a b paired ∧
        (Matches a b paired ↔ a.row xs = b.row ys ∧ Matches a b pairs)
    | none => a.row xs ≠ b.row ys := by
  fun_induction pairSlots? pairs xs ys with
  | case1 => exact ⟨hpairs, by simp [row_nil]⟩
  | case2 pairs xs ys ih =>
    have hrest := ih (knows_cons.1 hxs).2 (knows_cons.1 hys).2 hpairs
    simpa [row_null] using hrest
  | case3 pairs i xs j ys ih =>
    obtain ⟨hi, hxs⟩ := knows_cons.1 hxs
    obtain ⟨hj, hys⟩ := knows_cons.1 hys
    have hpair : i < a.size ∧ j < b.size := ⟨hi i (by simp), hj j (by simp)⟩
    have hrest := ih hxs hys (List.forall_mem_cons.2 ⟨hpair, hpairs⟩)
    split at hrest
    next paired _ =>
      obtain ⟨hknows, hmatches⟩ := hrest
      refine ⟨hknows, ?_⟩
      rw [hmatches, matches_cons, and_left_comm, ← and_assoc, ← row_cons_eq_iff]
    next => exact fun hrows => hrest (row_cons_eq_iff.1 hrows).2
  | case4 xs pairs ys hnil hnulls hnodes =>
    intro hrows
    cases row_eq_iff.1 hrows with
    | nil => exact hnil rfl rfl
    | cons hslot _ =>
        rcases null_or_node (knows_cons.1 hxs).1 (knows_cons.1 hys).1 hslot with
          ⟨rfl, rfl⟩ | ⟨i, j, _, _, rfl, rfl, _⟩
        · exact hnulls _ _ rfl rfl
        · exact hnodes _ _ _ _ rfl rfl

/-- The comparison answers what is to be found out, from the pair on top on. -/
theorem agree_iff {pairs : List (Nat × Nat)} (hpairs : KnowsPairs a b pairs) :
    agree a b pairs ↔ Matches a b pairs := by
  fun_induction agree a b pairs with
  | case1 => simp [Matches]
  | case2 i j rest x y hx hy hleaf pairs hpaired ih =>
    have hspec :=
      pairSlots?_spec (knows_slots hx) (knows_slots hy) (List.forall_mem_cons.1 hpairs).2
    rw [hpaired] at hspec
    obtain ⟨hknows, hmatches⟩ := hspec
    rw [ih hknows, hmatches, matches_cons, row_node_eq_iff hx hy, and_iff_right hleaf]
  | case3 i j rest x y hx hy hleaf hnone =>
    have hspec :=
      pairSlots?_spec (knows_slots hx) (knows_slots hy) (List.forall_mem_cons.1 hpairs).2
    rw [hnone] at hspec
    simp [matches_cons, row_node_eq_iff hx hy, show ¬ _ from hspec]
  | case4 i j rest x y hx hy hleaf => simp [matches_cons, row_node_eq_iff hx hy, hleaf]
  | case5 i j rest hnone =>
    obtain ⟨⟨hi, hj⟩, _⟩ := List.forall_mem_cons.1 hpairs
    obtain ⟨x, hx⟩ := exists_node_of_lt hi
    obtain ⟨y, hy⟩ := exists_node_of_lt hj
    exact (hnone x y hx hy).elim

/-! ## Slots on a path -/

/-- The slot that a path leads to, starting in a slot: at each node, the path tells how many of its
slots to pass over. -/
def slotAt? (a : Arena) : List Nat → Slot → Option Slot
  | [], slot => some slot
  | _ :: _, .null => none
  | place :: path, .node id =>
    (a.node? id).bind fun n => n.slots.toList[place]?.bind (a.slotAt? path)

/-- From slots that stand for the same, a path leads to a null slot in both or in neither. -/
theorem slotAt?_eq_null {x y : Slot} (hx : a.Knows [x]) (hy : b.Knows [y])
    (hrow : a.row [x] = b.row [y]) (path : List Nat) :
    a.slotAt? path x = some .null ↔ b.slotAt? path y = some .null := by
  induction path generalizing x y with
  | nil =>
      rcases null_or_node hx hy hrow with ⟨rfl, rfl⟩ | ⟨i, j, _, _, rfl, rfl, _⟩
      · rfl
      · simp [slotAt?]
  | cons place path ih =>
      rcases null_or_node hx hy hrow with ⟨rfl, rfl⟩ | ⟨i, j, n, m, rfl, rfl, hn, hm, hrows⟩
      · rfl
      · have hslots := row_eq_iff.1 hrows
        simp only [slotAt?, hn, hm, Option.bind_some]
        by_cases hplace : place < n.slots.toList.length
        · have hplace' : place < m.slots.toList.length := hslots.length_eq ▸ hplace
          rw [List.getElem?_eq_getElem hplace, List.getElem?_eq_getElem hplace']
          have hknows {c : Arena} {k : Nat} {node : Node} (hnode : c.node? k = some node)
              (h : place < node.slots.toList.length) : c.Knows [node.slots.toList[place]] :=
            fun id hid => knows_slots hnode id (List.mem_singleton.1 hid ▸ List.getElem_mem h)
          exact ih (hknows hn hplace) (hknows hm hplace') (hslots.get hplace hplace')
        · have hplace' : ¬ place < m.slots.toList.length := hslots.length_eq ▸ hplace
          rw [List.getElem?_eq_none (by omega), List.getElem?_eq_none (by omega)]
          rfl

end Arena

namespace Tree

theorem node?_root (t : Tree) : t.node? t.root = some t.rootNode :=
  Array.getElem?_eq_getElem t.root_lt

/-- Any two trees have the same shape exactly when they are the same ordered tree. -/
theorem sameShape_iff {s t : Tree} :
    s.sameShape t ↔ s.rootNode.toLeaf = t.rootNode.toLeaf ∧ s.below = t.below := by
  have hknows : Arena.KnowsPairs s.toArena t.toArena [(s.root, t.root)] :=
    List.forall_mem_singleton.2 ⟨s.root_lt, t.root_lt⟩
  rw [sameShape, Arena.agree_iff hknows, Arena.Matches, List.forall_mem_singleton,
    Arena.row_node_eq_iff s.node?_root t.node?_root]
  rfl

theorem sameShape_plant {leaf leaf' : Leaf} {below below' : Row} :
    (plant leaf below).sameShape (plant leaf' below') ↔ leaf = leaf' ∧ below = below' := by
  rw [sameShape_iff, below_plant, below_plant, rootNode_plant, rootNode_plant]

/-- The numbers of a completed tree follow from its shape. -/
theorem Built.sameShape_iff_eq {s t : Tree} (hs : s.Built) (ht : t.Built) :
    s.sameShape t ↔ s = t := by
  obtain ⟨leaf, below, rfl⟩ := hs.eq_plant
  obtain ⟨leaf', below', rfl⟩ := ht.eq_plant
  rw [sameShape_plant]
  constructor
  · rintro ⟨rfl, rfl⟩
    rfl
  · intro heq
    exact sameShape_plant.1 (heq ▸ sameShape_iff.2 ⟨rfl, rfl⟩)

/-- The slot that a path leads to from the root. -/
def slotAt? (t : Tree) (path : List Nat) : Option Slot :=
  t.toArena.slotAt? path (.node t.root)

theorem slotAt?_eq_null_of_sameShape {s t : Tree} (h : s.sameShape t) (path : List Nat) :
    s.slotAt? path = some .null ↔ t.slotAt? path = some .null := by
  have hroot (t : Tree) : t.Knows [.node t.root] := by
    intro id hid
    obtain rfl : id = t.root := by simpa using hid
    exact t.root_lt
  refine Arena.slotAt?_eq_null (hroot s) (hroot t) ?_ path
  rw [Arena.row_node_eq_iff s.node?_root t.node?_root]
  exact sameShape_iff.1 h

/-- Trees have the same shape when they are the same ordered tree, which makes it an equivalence.
A null slot is never taken for a node, wherever it is.  Completed trees of the same shape are the
same down to the numbers of their nodes. -/
theorem sameShape_structural :
    (∀ s t : Tree, s.sameShape t ↔ s.rootNode.toLeaf = t.rootNode.toLeaf ∧ s.below = t.below) ∧
      (∀ s t : Tree, s.Built → t.Built → (s.sameShape t ↔ s = t)) ∧
      Equivalence (fun s t : Tree => s.sameShape t) ∧
      ∀ (s t : Tree) (path : List Nat) (id : Nat), s.slotAt? path = some .null →
        t.slotAt? path = some (.node id) → ¬ s.sameShape t ∧ ¬ t.sameShape s := by
  refine ⟨fun _ _ => sameShape_iff, fun _ _ => Built.sameShape_iff_eq, ⟨?_, ?_, ?_⟩, ?_⟩
  · exact fun t => sameShape_iff.2 ⟨rfl, rfl⟩
  · intro s t h
    obtain ⟨hleaf, hbelow⟩ := sameShape_iff.1 h
    exact sameShape_iff.2 ⟨hleaf.symm, hbelow.symm⟩
  · intro r s t hrs hst
    obtain ⟨hleaf, hbelow⟩ := sameShape_iff.1 hrs
    obtain ⟨hleaf', hbelow'⟩ := sameShape_iff.1 hst
    exact sameShape_iff.2 ⟨hleaf.trans hleaf', hbelow.trans hbelow'⟩
  · intro s t path id hnull hnode
    refine ⟨fun h => ?_, fun h => ?_⟩
    · have := (slotAt?_eq_null_of_sameShape h path).1 hnull
      simp [hnode] at this
    · have := (slotAt?_eq_null_of_sameShape h path).2 hnull
      simp [hnode] at this

/-- A null slot deep in a tree sets it apart from a tree that has a node there. -/
theorem sameShape_structural_null :
    let one : Leaf := ⟨.intLiteral, some (.int 1)⟩
    let short := plant ⟨.add, none⟩
      (.null (.node ⟨.negate, none⟩ (.node one .nil (.null .nil)) .nil))
    let full := plant ⟨.add, none⟩
      (.null (.node ⟨.negate, none⟩ (.node one .nil (.node one .nil .nil)) .nil))
    short.Built ∧ full.Built ∧ (short.sameShape full ↔ short = full) ∧
      short.slotAt? [1, 1] = some .null ∧ full.slotAt? [1, 1] = some (.node 3) ∧
      ¬ short.sameShape full ∧ ¬ full.sameShape short := by
  intro one short full
  have hshort : short.Built := built_plant _ _
  have hfull : full.Built := built_plant _ _
  have hnull : short.slotAt? [1, 1] = some .null := by decide +kernel
  have hnode : full.slotAt? [1, 1] = some (.node 3) := by decide +kernel
  obtain ⟨_, hsame, _, hpath⟩ := sameShape_structural
  exact ⟨hshort, hfull, hsame short full hshort hfull, hnull, hnode,
    hpath short full [1, 1] 3 hnull hnode⟩

end Tree

end TreeAssay
