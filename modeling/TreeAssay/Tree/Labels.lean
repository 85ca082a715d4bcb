import Std.Data.HashMap
/-!
# Labels

What is known of the nodes of a tree, kept beside the tree under the numbers of
its nodes.
-/

namespace TreeAssay

/-- Notes of one type under the numbers of nodes. -/
structure Labels (α : Type) where
  entries : Std.HashMap Nat α := {}

namespace Labels

variable {α : Type}

def empty : Labels α := {}

def set (labels : Labels α) (id : Nat) (label : α) : Labels α :=
  ⟨labels.entries.insert id label⟩

def get? (labels : Labels α) (id : Nat) : Option α :=
  labels.entries[id]?

def erase (labels : Labels α) (id : Nat) : Labels α :=
  ⟨labels.entries.erase id⟩

def size (labels : Labels α) : Nat :=
  labels.entries.size

def isEmpty (labels : Labels α) : Bool :=
  labels.entries.isEmpty

@[simp] theorem get?_empty (id : Nat) : (empty : Labels α).get? id = none := by
  simp [empty, get?]

theorem get?_set (labels : Labels α) (id other : Nat) (label : α) :
    (labels.set id label).get? other = if id = other then some label else labels.get? other := by
  simp [set, get?, Std.HashMap.getElem?_insert]

theorem get?_erase (labels : Labels α) (id other : Nat) :
    (labels.erase id).get? other = if id = other then none else labels.get? other := by
  simp [erase, get?, Std.HashMap.getElem?_erase]

end Labels

end TreeAssay
