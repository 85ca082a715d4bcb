import TreeAssay.Reduction.Grammar
/-!
# Cost tables

For each kind, the cheapest known derivation at a node: its cost and its
outermost rule. Costs stop at the greatest 32-bit number.
-/

namespace TreeAssay

structure Derivation where
  cost : UInt32
  rule : Rule
  deriving DecidableEq, Repr, Hashable

/-- The sum of two costs, or the greatest cost where it is too great. -/
def Cost.plus (a b : UInt32) : UInt32 :=
  UInt32.ofNat (min (a.toNat + b.toNat) (UInt32.size - 1))

structure CostTable where
  int : Option Derivation := none
  short : Option Derivation := none
  string : Option Derivation := none
  deriving DecidableEq, Repr, Hashable

namespace CostTable

def get? (table : CostTable) : Kind → Option Derivation
  | .int => table.int
  | .short => table.short
  | .string => table.string

def set (table : CostTable) (kind : Kind) (derivation : Derivation) : CostTable :=
  match kind with
  | .int => { table with int := some derivation }
  | .short => { table with short := some derivation }
  | .string => { table with string := some derivation }

theorem get?_set (table : CostTable) (kind other : Kind) (derivation : Derivation) :
    (table.set kind derivation).get? other =
      if kind = other then some derivation else table.get? other := by
  cases kind <;> cases other <;> rfl

/-- Takes a derivation of a kind if it is cheaper than the one known. -/
def offer (table : CostTable) (kind : Kind) (derivation : Derivation) : CostTable :=
  match table.get? kind with
  | some known => if known.cost ≤ derivation.cost then table else table.set kind derivation
  | none => table.set kind derivation

def convert (table : CostTable) (conversion : Conversion) : CostTable :=
  match table.get? conversion.source with
  | some known =>
    table.offer conversion.target ⟨Cost.plus known.cost conversion.cost, .conversion conversion⟩
  | none => table

def convertAll (table : CostTable) : CostTable :=
  Conversion.all.foldl convert table

/-- A derivation counts as its cost, and none as more than any cost. -/
def burden : Option Derivation → Nat
  | some derivation => derivation.cost.toNat
  | none => UInt32.size

def totalBurden (table : CostTable) : Nat :=
  burden table.int + burden table.short + burden table.string

theorem totalBurden_set {table : CostTable} {kind : Kind} {derivation : Derivation}
    (h : burden (some derivation) < burden (table.get? kind)) :
    (table.set kind derivation).totalBurden < table.totalBurden := by
  cases kind <;> simp only [get?] at h <;> simp only [set, totalBurden] <;> omega

theorem totalBurden_offer (table : CostTable) (kind : Kind) (derivation : Derivation) :
    table.offer kind derivation = table ∨
      (table.offer kind derivation).totalBurden < table.totalBurden := by
  unfold offer
  split
  next known hknown =>
    split
    next => exact Or.inl rfl
    next cheaper =>
      right
      apply totalBurden_set
      rw [hknown]
      exact UInt32.lt_iff_toNat_lt.1 (UInt32.not_le.1 cheaper)
  next hnone =>
    right
    apply totalBurden_set
    rw [hnone]
    exact derivation.cost.toNat_lt

theorem totalBurden_convert (table : CostTable) (conversion : Conversion) :
    table.convert conversion = table ∨
      (table.convert conversion).totalBurden < table.totalBurden := by
  unfold convert
  split
  · exact totalBurden_offer ..
  · exact Or.inl rfl

theorem totalBurden_convertAll {table : CostTable} (h : table.convertAll ≠ table) :
    table.convertAll.totalBurden < table.totalBurden := by
  have first := table.totalBurden_convert .widen
  have second := (table.convert .widen).totalBurden_convert .format
  have unfolded : table.convertAll = (table.convert .widen).convert .format := rfl
  rw [unfolded] at h ⊢
  rcases first with first | first <;> rcases second with second | second
  · exact absurd (second.trans first) h
  · rw [first] at second ⊢
    exact second
  · rw [second]
    exact first
  · omega

/-- Applies conversions until none of them improves the table. -/
def close (table : CostTable) : CostTable :=
  if _h : table.convertAll = table then table else close table.convertAll
termination_by table.totalBurden
decreasing_by exact totalBurden_convertAll _h

/-- Follows conversions from a kind down to a pattern, the outermost conversion
first, through no more entries than allowed. -/
def chainWithin? (table : CostTable) : Nat → Kind → Option (List Conversion × Pattern)
  | 0, _ => none
  | entries + 1, kind =>
    match table.get? kind with
    | none => none
    | some ⟨_, .pattern pattern⟩ => some ([], pattern)
    | some ⟨_, .conversion conversion⟩ =>
      (table.chainWithin? entries conversion.source).map fun (conversions, pattern) =>
        (conversion :: conversions, pattern)

/-- The conversions and the pattern by which a kind is derived. No kind is needed
twice, so there are at most as many entries as kinds. -/
def chain? (table : CostTable) (kind : Kind) : Option (List Conversion × Pattern) :=
  table.chainWithin? Kind.all.length kind

end CostTable

end TreeAssay
