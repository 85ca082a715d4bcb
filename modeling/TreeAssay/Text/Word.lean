/-!
# Signed 64-bit words

Exact integer results brought back into 64 bits, or refused when they do not
fit. Nothing here ever wraps around.
-/

namespace TreeAssay.Word

def Fits (n : Int) : Prop :=
  Int64.minValue.toInt ≤ n ∧ n ≤ Int64.maxValue.toInt

instance (n : Int) : Decidable (Fits n) :=
  inferInstanceAs (Decidable (_ ∧ _))

def ofInt? (n : Int) : Option Int64 :=
  if Fits n then some (Int64.ofInt n) else none

def add? (a b : Int64) : Option Int64 :=
  ofInt? (a.toInt + b.toInt)

def sub? (a b : Int64) : Option Int64 :=
  ofInt? (a.toInt - b.toInt)

def mul? (a b : Int64) : Option Int64 :=
  ofInt? (a.toInt * b.toInt)

/-- The exact quotient rounded toward zero, if it fits. Only the least word
divided by minus one does not; the divisor is not zero. -/
def div? (a b : Int64) : Option Int64 :=
  ofInt? (a.toInt.tdiv b.toInt)

def neg? (a : Int64) : Option Int64 :=
  ofInt? (-a.toInt)

/-- The words that fit into sixteen bits. -/
def isShort (a : Int64) : Bool :=
  decide (Int16.minValue.toInt ≤ a.toInt ∧ a.toInt ≤ Int16.maxValue.toInt)

theorem toInt_of_ofInt? {n : Int} {a : Int64} (h : ofInt? n = some a) :
    a.toInt = n := by
  unfold ofInt? at h
  split at h
  next fits =>
    cases h
    simp only [Fits, Int64.toInt_minValue, Int64.toInt_maxValue] at fits
    exact Int64.toInt_ofInt_of_le (by omega) (by omega)
  next => cases h

theorem ofInt?_toInt (a : Int64) : ofInt? a.toInt = some a := by
  have fits : Fits a.toInt := ⟨Int64.minValue_le_toInt a, Int64.toInt_le a⟩
  simp [ofInt?, fits]

end TreeAssay.Word
