import TreeAssay.Reduction.Error
import TreeAssay.Tree.Arena
import TreeAssay.Tree.Labels
/-!
# Reducers

A reducer labels trees and reduces labelled trees to values. It carries a state
from each call to the next, whether it is told to label a tree or is asked about one.
-/

namespace TreeAssay

/-- A way to label and to reduce trees. -/
structure Reducer (State Label : Type) where
  /-- Labels the nodes of a tree, on top of given labels. -/
  label : State → Option Tree → Labels Label → State × Labels Label
  /-- Reduces a labelled tree to a value of a kind. -/
  reduce : State → Option Tree → Labels Label → Kind → State × Except ReductionError Value
  /-- Tells whether a labelled tree has a derivation of a kind. -/
  canProduce : State → Option Tree → Labels Label → Kind → State × Bool

end TreeAssay
