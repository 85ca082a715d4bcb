import TreeAssay.Reduction.Error
/-!
# Actions on values

What actions and conversions do: exact arithmetic on 64-bit integers, which
fails rather than wraps, and the joining of texts.
-/

namespace TreeAssay

/-- An action that takes values of a type has met a value of another one. -/
def ValueType.mismatch (type : ValueType) (action : String) (value : Value) : ReductionError :=
  .operandMismatch action type.name value.type.name

def Operation.intOperand (op : Operation) (value : Value) : Except ReductionError Int64 :=
  match value.int? with
  | some n => .ok n
  | none => .error (ValueType.integer.mismatch op.name value)

def Operation.textOperand (op : Operation) (value : Value) : Except ReductionError String :=
  match value.text? with
  | some s => .ok s
  | none => .error (ValueType.string.mismatch op.name value)

/-- The integers of exactly two operands. -/
def Operation.intPair (op : Operation) (operands : List Value) :
    Except ReductionError (Int64 × Int64) :=
  match operands with
  | [a, b] => do
    let x ← op.intOperand a
    let y ← op.intOperand b
    return (x, y)
  | _ => .error (.arity op operands.length)

def Operation.checked (op : Operation) : Option Int64 → Except ReductionError Value
  | some n => .ok (.int n)
  | none => .error (.overflow op)

def Operation.addTo (op : Operation) (total : Int64) (value : Value) :
    Except ReductionError Int64 := do
  let n ← op.intOperand value
  match Word.add? total n with
  | some sum => return sum
  | none => .error (.overflow op)

def Operation.joinTo (op : Operation) (joined : String) (value : Value) :
    Except ReductionError String := do
  let s ← op.textOperand value
  return joined ++ s

def Action.apply (action : Action) (leaf : Leaf) (operands : List Value) :
    Except ReductionError Value :=
  let op := leaf.op
  match action with
  | .literal =>
    match leaf.payload with
    | some value => .ok value
    | none => .error (.operandMismatch op.name "literal" "nothing")
  | .sum => Value.int <$> operands.foldlM op.addTo 0
  | .difference => do
    let (a, b) ← op.intPair operands
    op.checked (Word.sub? a b)
  | .product => do
    let (a, b) ← op.intPair operands
    op.checked (Word.mul? a b)
  | .quotient => do
    let (a, b) ← op.intPair operands
    if b = 0 then .error .divisionByZero else op.checked (Word.div? a b)
  | .negation =>
    match operands with
    | [a] => do op.checked (Word.neg? (← op.intOperand a))
    | _ => .error (.arity op operands.length)
  | .concatenation => Value.text <$> operands.foldlM op.joinTo ""

def Conversion.apply (conversion : Conversion) (value : Value) : Except ReductionError Value :=
  match conversion, value with
  | .widen, .int n => .ok (.int n)
  | .format, .int n => .ok (.text (Decimal.ofInt64 n))
  | _, .text _ => .error (ValueType.integer.mismatch conversion.name value)

end TreeAssay
