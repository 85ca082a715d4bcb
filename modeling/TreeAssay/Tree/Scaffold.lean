import TreeAssay.Tree.Arena
/-!
# Scaffolds

A scaffold is a tree under construction: the nodes read so far and the row of
those that are still open. Starts and ends come one at a time; the tree is
handed out when its root closes, and the scaffold is empty again.
-/

namespace TreeAssay

inductive Entry
  | null
  | node (leaf : Leaf)
  deriving DecidableEq

inductive BuildError
  | nothingToClose
  | leftOpen
  /-- A null slot that is left open. -/
  | nullWithChildren
  deriving DecidableEq, Repr

def BuildError.message : BuildError → String
  | .nothingToClose => "end tag without an open node"
  | .leftOpen => "node left open at end of input"
  | .nullWithChildren => "a null placeholder cannot have children"

structure Scaffold where
  arena : Arena
  /-- The numbers of the open nodes, the innermost first. -/
  openNodes : List Nat
  open_lt : ∀ i ∈ openNodes, i < arena.nodes.size

namespace Scaffold

def empty : Scaffold := ⟨.empty, [], by simp⟩

def depth (s : Scaffold) : Nat :=
  s.openNodes.length

def isIdle (s : Scaffold) : Bool :=
  s.openNodes.isEmpty

/-- Adds a null slot to the innermost open node; without one it is dropped. -/
def addNull (s : Scaffold) : Scaffold :=
  match s with
  | ⟨arena, [], lt⟩ => ⟨arena, [], lt⟩
  | ⟨arena, parent :: outer, lt⟩ =>
    ⟨arena.addSlot parent .null (by simp), parent :: outer, by
      simpa [Arena.addSlot] using lt⟩

/-- Adds a node that closes at once. Without an open node around it, it is a
whole tree. -/
def addLeaf (s : Scaffold) (leaf : Leaf) : Scaffold × Option Tree :=
  match s with
  | ⟨arena, [], _⟩ =>
    let id := arena.size
    (.empty, some ⟨arena.push leaf, id, by simp [Arena.push, Arena.size, id]⟩)
  | ⟨arena, parent :: outer, lt⟩ =>
    have parent_lt := lt parent (by simp)
    let id := arena.size
    (⟨(arena.push leaf).addSlot parent (.node id) (by
        simp [Arena.push, Arena.size, id]; omega), parent :: outer, by
      intro i hi
      have := lt i hi
      simp [Arena.addSlot, Arena.push]
      omega⟩, none)

def addOpen (s : Scaffold) (leaf : Leaf) : Scaffold :=
  match s with
  | ⟨arena, [], _⟩ =>
    let id := arena.size
    ⟨arena.push leaf, [id], by simp [Arena.push, Arena.size, id]⟩
  | ⟨arena, parent :: outer, lt⟩ =>
    have parent_lt := lt parent (by simp)
    let id := arena.size
    ⟨(arena.push leaf).addSlot parent (.node id) (by
        simp [Arena.push, Arena.size, id]; omega), id :: parent :: outer, by
      intro i hi
      simp only [Arena.addSlot, Arena.push, Array.size_modify, Array.size_push]
      rcases List.mem_cons.1 hi with rfl | hi
      · simp [Arena.size, id]
      · have := lt i hi
        omega⟩

/-- Takes a start. A null slot has to close at once. -/
def start (s : Scaffold) (entry : Entry) (selfClosing : Bool) :
    Except BuildError (Scaffold × Option Tree) :=
  match entry, selfClosing with
  | .null, false => .error .nullWithChildren
  | .null, true => .ok (s.addNull, none)
  | .node leaf, true => .ok (s.addLeaf leaf)
  | .node leaf, false => .ok (s.addOpen leaf, none)

/-- Takes an end, which closes the innermost open node. With the outermost one
the tree is complete. -/
def close (s : Scaffold) : Except BuildError (Scaffold × Option Tree) :=
  match s with
  | ⟨_, [], _⟩ => .error .nothingToClose
  | ⟨arena, [root], lt⟩ => .ok (.empty, some ⟨arena, root, lt root (by simp)⟩)
  | ⟨arena, _ :: parent :: outer, lt⟩ =>
    .ok (⟨arena, parent :: outer, fun i hi => lt i (List.mem_cons_of_mem _ hi)⟩, none)

def finish (s : Scaffold) : Except BuildError Unit :=
  if s.isIdle then .ok () else .error .leftOpen

end Scaffold

end TreeAssay
