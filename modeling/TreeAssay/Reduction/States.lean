import Std.Data.HashMap
import TreeAssay.Reduction.CostTable
import TreeAssay.Tree.Labels
/-!
# States

Equal cost tables are kept once. The number of a table is its state, and nodes
are labelled with states.
-/

namespace TreeAssay

structure StateId where
  number : Nat
  deriving DecidableEq, Repr

instance : ToString StateId where
  toString state := Decimal.ofNat state.number

/-- Numbered cost tables, all different. -/
structure States where
  /-- The tables under their numbers, in the order in which they were first met. -/
  tables : Array CostTable := #[]
  states : Std.HashMap CostTable StateId := {}

namespace States

def empty : States := {}

def count (s : States) : Nat :=
  s.tables.size

def table? (s : States) (state : StateId) : Option CostTable :=
  s.tables[state.number]?

/-- The state of a table, which gets the next number when it is new. -/
def intern (s : States) (table : CostTable) : States × StateId :=
  match s.states[table]? with
  | some state => (s, state)
  | none =>
    let ⟨tables, states⟩ := s
    let state : StateId := ⟨tables.size⟩
    (⟨tables.push table, states.insert table state⟩, state)

def tableOf? (s : States) (labels : Labels StateId) (id : Nat) : Option CostTable :=
  (labels.get? id).bind s.table?

end States

end TreeAssay
