import TreeAssay.Proofs.Trees.Construction
import TreeAssay.Reduction.Error
/-!
# The meaning of trees

Which kinds a tree derives, and the value that it then has, by recursion on rows
alone: no states, no plans, no numbers.  The nodes of a row are evaluated from the
last to the first, each after the row below it.
-/

namespace TreeAssay

/-! ## Derivable kinds -/

/-- The kinds that a node with `count` slots below it derives, where `operands` says
which kinds all those slots derive. -/
inductive Leaf.Derives (leaf : Leaf) (count : Nat) (operands : Kind → Prop) : Kind → Prop
  | intLiteral {n} : leaf = ⟨.intLiteral, some (.int n)⟩ → count = 0 →
      Derives leaf count operands .int
  | shortLiteral {n} : leaf = ⟨.shortLiteral, some (.int n)⟩ → -32768 ≤ n.toInt →
      n.toInt ≤ 32767 → count = 0 → Derives leaf count operands .short
  | stringLiteral {s} : leaf = ⟨.stringLiteral, some (.text s)⟩ → count = 0 →
      Derives leaf count operands .string
  | add : leaf.op = .add → 1 ≤ count → operands .int → Derives leaf count operands .int
  | binary : leaf.op ∈ [.addStrict, .subtract, .multiply, .divide] → count = 2 →
      operands .int → Derives leaf count operands .int
  | negate : leaf.op = .negate → count = 1 → operands .int → Derives leaf count operands .int
  | concat : leaf.op = .concat → 1 ≤ count → operands .string →
      Derives leaf count operands .string
  | widen : Derives leaf count operands .short → Derives leaf count operands .int
  | format : Derives leaf count operands .int → Derives leaf count operands .string

def Row.Derives : Row → Kind → Prop
  | .nil, _ => True
  | .null _, _ => False
  | .node leaf below next, kind =>
    leaf.Derives below.length (fun operand => below.Derives operand) kind ∧ next.Derives kind

/-! ## Values -/

inductive CalcFault
  | divisionByZero
  | overflow (op : Operation)
  deriving DecidableEq

def CalcFault.error : CalcFault → ReductionError
  | .divisionByZero => .divisionByZero
  | .overflow op => .overflow op

/-- An exact result as a word, where it fits. -/
def Operation.exact (op : Operation) (n : Int) : Except CalcFault Int64 :=
  if Word.Fits n then .ok (Int64.ofInt n) else .error (.overflow op)

namespace Leaf

def ofTwo (f : Int64 → Int64 → Except CalcFault Int64) : List Int64 → Except CalcFault Int64
  | [a, b] => f a b
  | _ => .ok 0

/-- The integer of a node that derives one, given the integers below it. -/
def integer (leaf : Leaf) (operands : Except CalcFault (List Int64)) : Except CalcFault Int64 :=
  match leaf.op with
  | .add => do
    (← operands).foldlM (fun total n => Operation.add.exact (total.toInt + n.toInt)) 0
  | .addStrict => do ofTwo (fun a b => Operation.addStrict.exact (a.toInt + b.toInt)) (← operands)
  | .subtract => do ofTwo (fun a b => Operation.subtract.exact (a.toInt - b.toInt)) (← operands)
  | .multiply => do ofTwo (fun a b => Operation.multiply.exact (a.toInt * b.toInt)) (← operands)
  | .divide => do
    ofTwo (fun a b =>
      if b = 0 then .error .divisionByZero
      else Operation.divide.exact (a.toInt.tdiv b.toInt)) (← operands)
  | .negate => do
    match ← operands with
    | [a] => Operation.negate.exact (-a.toInt)
    | _ => .ok 0
  | _ => .ok (leaf.int?.getD 0)

/-- The text of a node that derives one, given the integers and the texts below it.
What derives an integer is shown in decimal. -/
def text (leaf : Leaf) (integers : Except CalcFault (List Int64))
    (texts : Except CalcFault (List String)) : Except CalcFault String :=
  match leaf.op with
  | .stringLiteral => .ok (leaf.text?.getD "")
  | .concat => do return String.join (← texts)
  | _ => do return toString (← leaf.integer integers).toInt

end Leaf

namespace Row

def integers : Row → Except CalcFault (List Int64)
  | .nil => .ok []
  | .null next => next.integers
  | .node leaf below next => do
    let later ← next.integers
    let n ← leaf.integer below.integers
    return n :: later

def texts : Row → Except CalcFault (List String)
  | .nil => .ok []
  | .null next => next.texts
  | .node leaf below next => do
    let later ← next.texts
    let s ← leaf.text below.integers below.texts
    return s :: later

def values (row : Row) : Kind → Except CalcFault (List Value)
  | .int | .short => (·.map .int) <$> row.integers
  | .string => (·.map .text) <$> row.texts

end Row

def Leaf.value (leaf : Leaf) (below : Row) : Kind → Except CalcFault Value
  | .int | .short => .int <$> leaf.integer below.integers
  | .string => .text <$> leaf.text below.integers below.texts

namespace Tree

def Derives (t : Tree) (goal : Kind) : Prop :=
  t.rootNode.toLeaf.Derives t.below.length (fun operand => t.below.Derives operand) goal

/-- The value of a tree as a kind that it derives. -/
def meaning (t : Tree) (goal : Kind) : Except CalcFault Value :=
  t.rootNode.toLeaf.value t.below goal

end Tree

theorem Row.values_node (leaf : Leaf) (below next : Row) (kind : Kind) :
    (Row.node leaf below next).values kind = do
      let later ← next.values kind
      let value ← leaf.value below kind
      return value :: later := by
  cases kind with
  | string =>
      simp only [values, texts, Leaf.value]
      cases next.texts with
      | error fault => rfl
      | ok later => cases leaf.text below.integers below.texts <;> rfl
  | int | short =>
      simp only [values, integers, Leaf.value]
      cases next.integers with
      | error fault => rfl
      | ok later => cases leaf.integer below.integers <;> rfl

end TreeAssay
