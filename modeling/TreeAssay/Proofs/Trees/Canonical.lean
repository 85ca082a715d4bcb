import Mathlib.Data.List.Nodup
import Mathlib.Data.List.Pairwise
import Mathlib.Logic.Relation
import TreeAssay.Proofs.Suite.Loaded
/-!
# How completed trees are numbered

The numbers of a completed tree tell how its nodes are nested: what stands below a node
has the numbers right behind its own.  So it is enough to look at the row below a node, and at
the number where the row starts.
-/

namespace TreeAssay

open Relation (ReflTransGen TransGen)
open scoped List

namespace Arena

/-- The numbers in the slots of a node, in order. -/
def children (a : Arena) (id : Nat) : List Nat :=
  match a.node? id with
  | none => []
  | some n => n.slots.toList.filterMap Slot.node?

def Child (a : Arena) (parent id : Nat) : Prop :=
  id ∈ a.children parent

theorem children_of_node? {a : Arena} {id : Nat} {n : Node} (h : a.node? id = some n) :
    a.children id = n.slots.toList.filterMap Slot.node? := by
  rw [children, h]

theorem Child.later {a : Arena} {parent id : Nat} (h : a.Child parent id) :
    parent < id ∧ id < a.size := by
  rw [Child, children] at h
  split at h
  next => cases h
  next n hnode =>
    obtain ⟨slot, hslot, hid⟩ := List.mem_filterMap.1 h
    cases slot with
    | null => cases hid
    | node id' =>
        cases hid
        exact a.children_later parent n hnode id (Array.mem_toList_iff.1 hslot)

theorem lt_of_transGen {a : Arena} {parent id : Nat} (h : TransGen a.Child parent id) :
    parent < id := by
  induction h with
  | single hchild => exact hchild.later.1
  | tail _ hchild ih => exact ih.trans hchild.later.1

end Arena

/-! ## The numbers of a row -/

namespace Row

/-- The numbers in the slots of a row. -/
def tops (start : Nat) (row : Row) : List Nat :=
  (row.slots start).filterMap Slot.node?

theorem tops_node (start : Nat) (leaf : Leaf) (below next : Row) :
    (node leaf below next).tops start = start :: next.tops (start + 1 + below.size) := rfl

theorem tops_bounds {start id : Nat} {row : Row} (h : id ∈ row.tops start) :
    start ≤ id ∧ id < start + row.size := by
  obtain ⟨slot, hslot, hid⟩ := List.mem_filterMap.1 h
  cases slot with
  | null => cases hid
  | node id' =>
      cases hid
      exact slots_bounds hslot

theorem pairwise_tops (start : Nat) (row : Row) : (row.tops start).Pairwise (· < ·) := by
  induction row generalizing start with
  | nil => exact List.Pairwise.nil
  | null next ih => exact ih start
  | node leaf below next _ ih =>
      rw [tops_node, List.pairwise_cons]
      refine ⟨fun id hid => ?_, ih _⟩
      have := tops_bounds hid
      omega

end Row

namespace Arena

variable {a : Arena} {start id : Nat} {row : Row}

theorem children_of_slots {leaf : Leaf} {below : Row}
    (h : a.node? id = some ⟨leaf, (below.slots (id + 1)).toArray⟩) :
    a.children id = below.tops (id + 1) :=
  children_of_node? h

/-- Each number in a row is that of a node, and what stands below the node is within the row. -/
theorem Holds.exists_below (h : a.Holds start row) (hle : start ≤ id)
    (hlt : id < start + row.size) :
    ∃ below : Row, a.children id = below.tops (id + 1) ∧ a.Holds (id + 1) below ∧
      id + 1 + below.size ≤ start + row.size := by
  induction row generalizing start with
  | nil =>
      rw [Row.size] at hlt
      omega
  | null next ih => exact ih h hle hlt
  | node leaf below next ihBelow ihNext =>
      obtain ⟨hnode, hbelow, hnext⟩ := h
      rw [Row.size] at hlt ⊢
      by_cases hfirst : id = start
      · subst hfirst
        exact ⟨below, children_of_slots hnode, hbelow, by omega⟩
      · by_cases hinside : id < start + 1 + below.size
        · obtain ⟨below', hchildren, hholds, hend⟩ := ihBelow hbelow (by omega) hinside
          exact ⟨below', hchildren, hholds, by omega⟩
        · obtain ⟨below', hchildren, hholds, hend⟩ := ihNext hnext (by omega) (by omega)
          exact ⟨below', hchildren, hholds, by omega⟩

/-- A node is reached from itself or from one of its children. -/
theorem reaches_iff_of_children {stop other : Nat} (hlt : id < stop)
    (h : (∃ child ∈ a.children id, ReflTransGen a.Child child other) ↔
      id + 1 ≤ other ∧ other < stop) :
    ReflTransGen a.Child id other ↔ id ≤ other ∧ other < stop := by
  have hcases : ReflTransGen a.Child id other ↔
      id = other ∨ ∃ child ∈ a.children id, ReflTransGen a.Child child other :=
    ReflTransGen.cases_head_iff
  rw [hcases, h]
  omega

/-- From the slots of a row, the nodes of the row are reached and no others. -/
theorem Holds.reaches_iff (h : a.Holds start row) :
    (∃ top ∈ row.tops start, ReflTransGen a.Child top id) ↔
      start ≤ id ∧ id < start + row.size := by
  induction row generalizing start with
  | nil =>
      rw [Row.size, Row.tops, Row.slots]
      simp
  | null next ih => exact ih h
  | node leaf below next ihBelow ihNext =>
      obtain ⟨hnode, hbelow, hnext⟩ := h
      have hfirst : ReflTransGen a.Child start id ↔ start ≤ id ∧ id < start + 1 + below.size :=
        reaches_iff_of_children (by omega) (by rw [children_of_slots hnode, ihBelow hbelow])
      rw [Row.tops_node, List.exists_mem_cons_iff, hfirst, ihNext hnext, Row.size]
      omega

/-- Each number in a row stands in exactly one slot, of the row itself or of a node in it. -/
theorem Holds.perm_range' (h : a.Holds start row) :
    row.tops start ++ (List.range' start row.size).flatMap a.children ~
      List.range' start row.size := by
  induction row generalizing start with
  | nil => exact List.Perm.nil
  | null next ih => exact ih h
  | node leaf below next ihBelow ihNext =>
      obtain ⟨hnode, hbelow, hnext⟩ := h
      rw [Row.range'_size_node, Row.tops_node, List.flatMap_cons, children_of_slots hnode,
        List.flatMap_append, List.cons_append]
      refine List.Perm.cons start ?_
      -- The slots of the row are all before those of its nodes, so what follows the node and what
      -- is below it change places.
      calc next.tops _ ++ (below.tops _ ++ ((List.range' _ _).flatMap a.children ++ _))
          = next.tops _ ++ ((below.tops _ ++ (List.range' _ _).flatMap a.children) ++ _) := by
            rw [List.append_assoc]
        _ ~ (below.tops _ ++ (List.range' _ _).flatMap a.children) ++ (next.tops _ ++ _) :=
            List.perm_append_comm_assoc _ _ _
        _ ~ _ := (ihBelow hbelow).append (ihNext hnext)

/-- If no number stands in two slots, no node has two parents. -/
theorem Child.unique {parent parent' : Nat}
    (hnodup : ((List.range a.size).flatMap a.children).Nodup) (h : a.Child parent id)
    (h' : a.Child parent' id) : parent = parent' := by
  obtain ⟨_, hdisjoint⟩ := List.nodup_flatMap.1 hnodup
  have hsymm : Std.Symm (Function.onFun List.Disjoint a.children) := ⟨fun _ _ => List.disjoint_symm⟩
  have hmem {parent : Nat} (hchild : a.Child parent id) : parent ∈ List.range a.size :=
    List.mem_range.2 (hchild.later.1.trans hchild.later.2)
  by_contra hne
  exact hdisjoint.forall (hmem h) (hmem h') hne h h'

end Arena

/-! ## Canonical trees -/

namespace Tree

/-- The numbers tell how the nodes are nested: the root comes first, each other node stands in
exactly one slot, and each subtree has all the numbers from its root on up to some other.  So the
nodes are met from the root, each of them once, and backwards no parent is met before its
children. -/
structure Canonical (t : Tree) : Prop where
  root_eq : t.root = 0
  root_free : ∀ parent, ¬ t.Child parent t.root
  parent : ∀ id, id < t.size → id ≠ t.root → ∃! parent, t.Child parent id
  once : ∀ parent id, t.Child parent id → (t.children parent).count id = 1
  later : ∀ parent id, t.Child parent id → parent < id ∧ id < t.size
  increasing : ∀ parent, parent < t.size → (t.children parent).Pairwise (· < ·)
  contiguous : ∀ id, id < t.size → ∃ stop, stop ≤ t.size ∧
    ∀ other, ReflTransGen t.Child id other ↔ id ≤ other ∧ other < stop
  /-- No node is an orphan. -/
  reached : ∀ id, id < t.size ↔ ReflTransGen t.Child t.root id
  acyclic : ∀ id, ¬ TransGen t.Child id id
  children_first : ∀ front id back, t.bottomUp = front ++ id :: back →
    ∀ child, t.Child id child → child ∈ front

theorem mem_of_bottomUp_eq {t : Tree} {front back : List Nat} {id child : Nat}
    (h : t.bottomUp = front ++ id :: back) (hchild : t.Child id child) : child ∈ front := by
  obtain ⟨hlater, hlt⟩ := hchild.later
  have hmem : child ∈ t.bottomUp := List.mem_reverse.2 (List.mem_range.2 hlt)
  have hdown : t.bottomUp.Pairwise (· > ·) := List.pairwise_reverse.2 List.pairwise_lt_range
  rw [h] at hmem hdown
  obtain ⟨_, hback, _⟩ := List.pairwise_append.1 hdown
  rcases List.mem_append.1 hmem with hfront | hmem
  · exact hfront
  · rcases List.mem_cons.1 hmem with rfl | hmem
    · exact absurd hlater (Nat.lt_irrefl _)
    · have := List.rel_of_pairwise_cons hback hmem
      omega

section Plant

variable (leaf : Leaf) (below : Row)

theorem exists_below_plant {id : Nat} (h : id < (plant leaf below).size) :
    ∃ below' : Row, (plant leaf below).children id = below'.tops (id + 1) ∧
      (plant leaf below).Holds (id + 1) below' ∧
        id + 1 + below'.size ≤ (plant leaf below).size := by
  rw [size_plant] at h ⊢
  have hbelow := (Arena.holds_plant leaf below).exists_below (Nat.zero_le id)
    (by rw [Row.size, Row.size]; omega)
  rwa [Row.size, Row.size, Nat.zero_add, Nat.add_zero] at hbelow

/-- Each number but that of the root is in exactly one slot. -/
theorem perm_children_plant :
    0 :: (List.range (plant leaf below).size).flatMap (plant leaf below).children ~
      List.range (plant leaf below).size := by
  have h := (Arena.holds_plant leaf below).perm_range'
  rwa [Row.size, Row.size, Nat.add_zero, ← size_plant leaf below, ← List.range_eq_range'] at h

theorem pairwise_children_plant {id : Nat} (h : id < (plant leaf below).size) :
    ((plant leaf below).children id).Pairwise (· < ·) := by
  obtain ⟨below', hchildren, _, _⟩ := exists_below_plant leaf below h
  rw [hchildren]
  exact below'.pairwise_tops (id + 1)

theorem reaches_iff_plant (id : Nat) :
    ReflTransGen (plant leaf below).Child 0 id ↔ id < (plant leaf below).size := by
  obtain ⟨hnode, hbelow, _⟩ := Arena.holds_plant leaf below
  have hreaches : ReflTransGen (plant leaf below).Child 0 id ↔
      0 ≤ id ∧ id < 0 + 1 + below.size :=
    Arena.reaches_iff_of_children (by omega)
      (by rw [Arena.children_of_slots hnode, hbelow.reaches_iff])
  rw [hreaches, size_plant]
  omega

theorem canonical_plant : (plant leaf below).Canonical := by
  have hperm := perm_children_plant leaf below
  obtain ⟨hroot, hnodup⟩ := List.nodup_cons.1 (hperm.nodup_iff.2 List.nodup_range)
  refine {
    root_eq := rfl
    root_free := fun parent h => hroot ?_
    parent := fun id hlt hne => ?_
    once := fun parent id h => ?_
    later := fun parent id => Arena.Child.later
    increasing := fun id => pairwise_children_plant leaf below
    contiguous := fun id hlt => ?_
    reached := fun id => (reaches_iff_plant leaf below id).symm
    acyclic := fun id h => Nat.lt_irrefl id (Arena.lt_of_transGen h)
    children_first := fun front id back h child => mem_of_bottomUp_eq h }
  · obtain ⟨hlater, hlt⟩ := h.later
    exact List.mem_flatMap.2 ⟨parent, List.mem_range.2 (hlater.trans hlt), h⟩
  · have hmem := hperm.mem_iff.2 (List.mem_range.2 hlt)
    obtain ⟨parent, _, hparent⟩ := List.mem_flatMap.1 ((List.mem_cons.1 hmem).resolve_left hne)
    exact ⟨parent, hparent, fun parent' hparent' => hparent'.unique hnodup hparent⟩
  · obtain ⟨hlater, hlt⟩ := h.later
    exact List.count_eq_one_of_mem (pairwise_children_plant leaf below (hlater.trans hlt)).nodup h
  · obtain ⟨below', hchildren, hholds, hend⟩ := exists_below_plant leaf below hlt
    refine ⟨id + 1 + below'.size, hend, fun other => ?_⟩
    exact Arena.reaches_iff_of_children (by omega) (by rw [hchildren, hholds.reaches_iff])

end Plant

theorem Built.canonical {t : Tree} (h : t.Built) : t.Canonical := by
  obtain ⟨leaf, below, rfl⟩ := h.eq_plant
  exact canonical_plant leaf below

theorem FromTags.built {t : Tree} (h : t.FromTags) : t.Built := by
  obtain ⟨leaf, below, rfl, _⟩ := h
  exact built_plant leaf below

/-- Every tree that comes out of a scaffold is canonical, and so is every tree that is loaded with
a testcase or read from a dump. -/
theorem built_loaded_read_canonical :
    (∀ t : Tree, t.Built → t.Canonical) ∧
      (∀ source loaded, Suite.load source = .ok loaded → ∀ testcase ∈ loaded.testcases,
        ∀ t, testcase.root = some t → t.Built ∧ t.Canonical) ∧
      ∀ text t, Dump.read text = .ok (some t) → t.Built ∧ t.Canonical := by
  refine ⟨fun t => Built.canonical, fun source loaded hload testcase hmem t ht => ?_,
    fun text t hread => ?_⟩
  · have hbuilt := ((Suite.fromLines_of_load hload hmem).fromTags t ht).built
    exact ⟨hbuilt, hbuilt.canonical⟩
  · have hbuilt := (Dump.fromTags_of_read hread).built
    exact ⟨hbuilt, hbuilt.canonical⟩

theorem built_loaded_read_canonical_nested :
    let one : Leaf := ⟨.intLiteral, some (.int 1)⟩
    let nested := plant ⟨.add, none⟩
      (.node ⟨.negate, none⟩ (.node one .nil .nil) (.null (.node one .nil .nil)))
    let source : Source := ⟨"one.xml",
      "<Testcase type=\"Int\" expected=\"2\">\n <Node op=\"Add\">\n" ++
      "  <Node op=\"IntLiteral\" content=\"1\"/>\n  <Node null=\"1\"/>\n </Node>\n</Testcase>\n"⟩
    let text := "<Negate> <IntLiteral content=\"1\"/></Negate>\n"
    nested.Built ∧ nested.Canonical ∧ nested.children 0 = [1, 3] ∧
      (∃ loaded testcase t, Suite.load source = .ok loaded ∧ testcase ∈ loaded.testcases ∧
        testcase.root = some t ∧ t.Canonical) ∧
      ∃ t, Dump.read text = .ok (some t) ∧ t.Canonical := by
  intro one nested source text
  have hbuilt : nested.Built := built_plant _ _
  have hroots : (Suite.load source).toOption.map
      (fun loaded => loaded.testcases.map fun testcase => testcase.root.isSome) = some [true] := by
    decide +kernel
  have htree : (Dump.read text).toOption.bind id |>.isSome := by decide +kernel
  obtain ⟨hscaffold, hloads, hreads⟩ := built_loaded_read_canonical
  obtain ⟨loaded, hloaded, hmap⟩ := Option.map_eq_some_iff.1 hroots
  obtain ⟨testcase, htestcases, hsome⟩ := List.map_eq_singleton_iff.1 hmap
  obtain ⟨t, ht⟩ := Option.isSome_iff_exists.1 hsome
  have hload : Suite.load source = .ok loaded := toOption_eq_some.1 hloaded
  have hmem : testcase ∈ loaded.testcases := by rw [htestcases, List.mem_singleton]
  obtain ⟨u, hu⟩ := Option.isSome_iff_exists.1 htree
  obtain ⟨tree, htree, rfl⟩ := Option.bind_eq_some_iff.1 hu
  have hread : Dump.read text = .ok (some u) := toOption_eq_some.1 htree
  exact ⟨hbuilt, hscaffold nested hbuilt, by decide +kernel,
    ⟨loaded, testcase, t, hload, hmem, ht, (hloads source loaded hload testcase hmem t ht).2⟩,
    u, hread, (hreads text u hread).2⟩

end Tree

end TreeAssay
