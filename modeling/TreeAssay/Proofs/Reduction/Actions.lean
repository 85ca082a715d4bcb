import Mathlib.Data.List.Basic
import Mathlib.Data.List.Induction
import TreeAssay.Proofs.Reduction.Evaluation
/-!
# What actions yield

Actions compute on words, but what they yield is told on integers: the exact result where it
is a word, and otherwise the first thing in the way of it.  A sum takes its operands one by
one, so a sum on the way to a total may be in the way of the total.
-/

namespace TreeAssay

/-! ## The range of words -/

namespace Word

theorem ofInt?_eq_none {n : Int} : ofInt? n = none ↔ ¬ Fits n := by
  rw [ofInt?]
  split <;> simp_all

theorem Fits.exists_word {n : Int} (h : Fits n) : ∃ a : Int64, a.toInt = n := by
  cases hword : ofInt? n with
  | none => exact absurd h (ofInt?_eq_none.1 hword)
  | some a => exact ⟨a, toInt_of_ofInt? hword⟩

theorem fits_toInt (a : Int64) : Fits a.toInt :=
  ⟨Int64.minValue_le_toInt a, Int64.toInt_le a⟩

theorem fits_iff {n : Int} : Fits n ↔ -9223372036854775808 ≤ n ∧ n ≤ 9223372036854775807 := by
  rw [Fits, Int64.toInt_minValue, Int64.toInt_maxValue]
  omega

theorem toInt_eq_least {a : Int64} : a.toInt = -9223372036854775808 ↔ a = Int64.minValue := by
  rw [← Int64.toInt_inj, Int64.toInt_minValue]
  omega

/-- Only the least word has no opposite. -/
theorem not_fits_neg {a : Int64} : ¬ Fits (-a.toInt) ↔ a = Int64.minValue := by
  have hword := fits_iff.1 (fits_toInt a)
  rw [fits_iff, ← toInt_eq_least]
  omega

/-- A quotient is no larger than its dividend, so only the sign can take it out of the range. -/
theorem not_fits_tdiv {a b : Int64} :
    ¬ Fits (a.toInt.tdiv b.toInt) ↔ a = Int64.minValue ∧ b = -1 := by
  have hword := fits_iff.1 (fits_toInt a)
  have hle := Int.natAbs_tdiv_le_natAbs a.toInt b.toInt
  have hminus : b = -1 ↔ b.toInt = -1 := by
    rw [← Int64.toInt_inj]
    rfl
  rw [fits_iff, ← toInt_eq_least, hminus]
  constructor
  · intro hout
    have hleast : a.toInt = -9223372036854775808 := by omega
    refine ⟨hleast, ?_⟩
    rcases Int.lt_trichotomy b.toInt 0 with hneg | hzero | hpos
    · by_contra hne
      have hhalf : (a.toInt.tdiv b.toInt).natAbs ≤ a.toInt.natAbs / 2 := by
        rw [Int.natAbs_tdiv]
        exact Nat.div_le_div_left (by omega) (by decide)
      omega
    · rw [hzero, Int.tdiv_zero] at hout
      omega
    · have hsign : 0 ≤ (-a.toInt).tdiv b.toInt := Int.tdiv_nonneg (by omega) (by omega)
      rw [Int.neg_tdiv] at hsign
      omega
  · rintro ⟨hleast, hone⟩
    rw [hleast, hone]
    decide

end Word

open Word (Fits)

/-! ## Operands of one type -/

theorem Value.ints_or_text (operands : List Value) :
    (∃ ns : List Int64, operands = ns.map .int) ∨ ∃ s, .text s ∈ operands := by
  induction operands with
  | nil => exact .inl ⟨[], rfl⟩
  | cons value operands ih =>
      cases value with
      | text s => exact .inr ⟨s, List.mem_cons_self⟩
      | int n =>
          rcases ih with ⟨ns, rfl⟩ | ⟨s, hs⟩
          · exact .inl ⟨n :: ns, rfl⟩
          · exact .inr ⟨s, List.mem_cons_of_mem _ hs⟩

namespace Action

/-- The exact sum. -/
def total : List Int64 → Int
  | [] => 0
  | n :: rest => n.toInt + total rest

theorem total_concat (ns : List Int64) (n : Int64) : total (ns ++ [n]) = total ns + n.toInt := by
  induction ns with
  | nil => simp [total]
  | cons m ns ih =>
      rw [List.cons_append, total, total, ih]
      omega

/-- Neither the total nor any sum on the way to it leaves the range of words. -/
def StaysInRange (ns : List Int64) : Prop :=
  ∀ front, front <+: ns → Fits (total front)

theorem staysInRange_nil : StaysInRange [] := by
  intro front hfront
  rw [List.prefix_nil.1 hfront]
  decide

theorem staysInRange_concat {ns : List Int64} {n : Int64} :
    StaysInRange (ns ++ [n]) ↔ StaysInRange ns ∧ Fits (total ns + n.toInt) := by
  rw [← total_concat]
  constructor
  · intro h
    exact ⟨fun front hfront => h front (hfront.trans (List.prefix_append ns [n])),
      h _ List.prefix_rfl⟩
  · rintro ⟨hns, hlast⟩ front hfront
    rcases List.prefix_concat_iff.1 hfront with rfl | hfront
    · exact hlast
    · exact hns front hfront

/-- The number of operands that an action takes, where it takes a fixed number. -/
def arity? : Action → Option Nat
  | .difference | .product | .quotient => some 2
  | .negation => some 1
  | .literal | .sum | .concatenation => none

/-- The exact result of an action on integers, where there is one. -/
def onIntegers? : Action → List Int64 → Option Int
  | .sum, ns => some (total ns)
  | .difference, [a, b] => some (a.toInt - b.toInt)
  | .product, [a, b] => some (a.toInt * b.toInt)
  | .quotient, [a, b] => if b = 0 then none else some (a.toInt.tdiv b.toInt)
  | .negation, [a] => some (-a.toInt)
  | _, _ => none

/-- What an action yields at a leaf, given its operands. -/
inductive Yields (leaf : Leaf) : Action → List Value → Except ReductionError Value → Prop
  | literal {operands value} : leaf.payload = some value →
      Yields leaf .literal operands (.ok value)
  | noLiteral {operands} : leaf.payload = none →
      Yields leaf .literal operands
        (.error (.operandMismatch leaf.op.name "literal" "nothing"))
  | sum {ns n} : StaysInRange ns → n.toInt = total ns →
      Yields leaf .sum (ns.map .int) (.ok (.int n))
  | sumOfText {ns s rest} : StaysInRange ns →
      Yields leaf .sum (ns.map .int ++ .text s :: rest)
        (.error (.operandMismatch leaf.op.name "integer" "string"))
  | sumOverflow {ns n rest} : StaysInRange ns → ¬ Fits (total (ns ++ [n])) →
      Yields leaf .sum (ns.map .int ++ .int n :: rest) (.error (.overflow leaf.op))
  | arity {action count operands} : arity? action = some count → operands.length ≠ count →
      Yields leaf action operands (.error (.arity leaf.op operands.length))
  | text {action operands s} : arity? action = some operands.length → .text s ∈ operands →
      Yields leaf action operands
        (.error (.operandMismatch leaf.op.name "integer" "string"))
  | divisionByZero {a} : Yields leaf .quotient [.int a, .int 0] (.error .divisionByZero)
  | exact {action ns n} : arity? action = some ns.length → onIntegers? action ns = some n.toInt →
      Yields leaf action (ns.map .int) (.ok (.int n))
  | overflow {action ns n} : arity? action = some ns.length → onIntegers? action ns = some n →
      ¬ Fits n → Yields leaf action (ns.map .int) (.error (.overflow leaf.op))
  | concatenation {texts : List String} :
      Yields leaf .concatenation (texts.map .text) (.ok (.text (String.join texts)))
  | concatenationOfInt {texts : List String} {n rest} :
      Yields leaf .concatenation (texts.map .text ++ .int n :: rest)
        (.error (.operandMismatch leaf.op.name "string" "integer"))

variable {leaf : Leaf}

/-! ## Operands one by one -/

theorem foldlM_addTo_ints (op : Operation) {ns : List Int64} (h : StaysInRange ns) :
    ∃ n, (ns.map Value.int).foldlM op.addTo 0 = .ok n ∧ n.toInt = total ns := by
  induction ns using List.reverseRecOn with
  | nil => exact ⟨0, rfl, rfl⟩
  | append_singleton ns m ih =>
      obtain ⟨hns, hfits⟩ := staysInRange_concat.1 h
      obtain ⟨n, hfold, hn⟩ := ih hns
      obtain ⟨sum, hsum⟩ := hfits.exists_word
      have hadd : Word.add? n m = some sum := by
        rw [Word.add?, hn]
        exact Decimal.ofInt?_eq_some.2 hsum
      refine ⟨sum, ?_, by rw [hsum, total_concat]⟩
      rw [List.map_append, List.map_singleton, foldlM_concat_eq_ok]
      refine ⟨n, hfold, ?_⟩
      rw [Operation.addTo, Operation.intOperand]
      simp only [Value.int?, ok_bind, hadd]
      rfl

theorem addTo_overflow (op : Operation) {total n : Int64} (h : ¬ Fits (total.toInt + n.toInt)) :
    op.addTo total (.int n) = .error (.overflow op) := by
  rw [Operation.addTo_int, Operation.exact, if_neg h]
  rfl

/-- Taken from the left, the operands of a sum are all taken, or one of them stops it. -/
theorem taken_or_stopped (leaf : Leaf) (operands : List Value) :
    (∃ ns, operands = ns.map .int ∧ StaysInRange ns) ∨
      ∃ error, ∀ more, Yields leaf .sum (operands ++ more) (.error error) := by
  induction operands using List.reverseRecOn with
  | nil => exact .inl ⟨[], rfl, staysInRange_nil⟩
  | append_singleton operands last ih =>
      rcases ih with ⟨ns, rfl, hns⟩ | ⟨error, hstop⟩
      · cases last with
        | text s =>
            refine .inr ⟨.operandMismatch leaf.op.name "integer" "string",
              fun more => ?_⟩
            rw [List.append_assoc]
            exact .sumOfText hns
        | int n =>
            by_cases hfits : Fits (total (ns ++ [n]))
            · refine .inl ⟨ns ++ [n], by simp, ?_⟩
              exact staysInRange_concat.2 ⟨hns, total_concat ns n ▸ hfits⟩
            · refine .inr ⟨.overflow leaf.op, fun more => ?_⟩
              rw [List.append_assoc]
              exact .sumOverflow hns hfits
      · refine .inr ⟨error, fun more => ?_⟩
        rw [List.append_assoc]
        exact hstop _

theorem exists_yields_concatenation (leaf : Leaf) (operands : List Value) :
    ∃ result, Yields leaf .concatenation operands result := by
  have hsplit : (∃ texts : List String, operands = texts.map .text) ∨
      ∃ (texts : List String) (n : Int64) (rest : List Value),
        operands = texts.map .text ++ .int n :: rest := by
    induction operands with
    | nil => exact .inl ⟨[], rfl⟩
    | cons value operands ih =>
        cases value with
        | int n => exact .inr ⟨[], n, operands, rfl⟩
        | text s =>
            rcases ih with ⟨texts, rfl⟩ | ⟨texts, n, rest, rfl⟩
            · exact .inl ⟨s :: texts, rfl⟩
            · exact .inr ⟨s :: texts, n, rest, rfl⟩
  rcases hsplit with ⟨texts, rfl⟩ | ⟨texts, n, rest, rfl⟩
  · exact ⟨_, .concatenation⟩
  · exact ⟨_, .concatenationOfInt⟩

/-! ## A fixed number of operands -/

theorem apply_of_length_ne {action : Action} {count : Nat} (h : action.arity? = some count)
    {operands : List Value} (hlength : operands.length ≠ count) :
    action.apply leaf operands = .error (.arity leaf.op operands.length) := by
  have hpair (htwo : operands.length ≠ 2) :
      leaf.op.intPair operands = .error (.arity leaf.op operands.length) := by
    rw [Operation.intPair]
    rintro a b rfl
    exact htwo rfl
  cases action with
  | literal | sum | concatenation => cases h
  | difference | product | quotient =>
      cases h
      simp only [apply, hpair hlength]
      rfl
  | negation =>
      cases h
      rw [apply]
      rintro a rfl
      exact hlength rfl

theorem apply_of_text {action : Action} {operands : List Value}
    (h : action.arity? = some operands.length) {s : String} (hs : .text s ∈ operands) :
    action.apply leaf operands =
      .error (.operandMismatch leaf.op.name "integer" "string") := by
  have hpair {a b : Value} (hmem : .text s ∈ [a, b]) : leaf.op.intPair [a, b] =
      .error (.operandMismatch leaf.op.name "integer" "string") := by
    cases a with
    | text _ => rfl
    | int _ =>
        cases b with
        | text _ => rfl
        | int _ => simp at hmem
  cases action with
  | literal | sum | concatenation => cases h
  | difference | product | quotient =>
      obtain ⟨a, b, rfl⟩ := List.length_eq_two.1 (Option.some.inj h).symm
      simp only [apply, hpair hs]
      rfl
  | negation =>
      obtain ⟨a, rfl⟩ := List.length_eq_one_iff.1 (Option.some.inj h).symm
      cases a with
      | text _ => rfl
      | int _ => simp at hs

theorem apply_ints {action : Action} {ns : List Int64} (h : action.arity? = some ns.length)
    {n : Int} (hexact : action.onIntegers? ns = some n) :
    action.apply leaf (ns.map .int) = leaf.op.checked (Word.ofInt? n) := by
  cases action with
  | literal | sum | concatenation => cases h
  | difference | product =>
      match ns, h with
      | [a, b], _ =>
          cases hexact
          rfl
  | quotient =>
      match ns, h with
      | [a, b], _ =>
          rw [onIntegers?] at hexact
          split at hexact
          next => cases hexact
          next hzero =>
            cases hexact
            exact if_neg hzero
  | negation =>
      match ns, h with
      | [a], _ =>
          cases hexact
          rfl

theorem onIntegers?_eq_none {action : Action} {ns : List Int64} (h : action.arity? = some ns.length)
    (hnone : action.onIntegers? ns = none) : action = .quotient ∧ ∃ a, ns = [a, 0] := by
  cases action with
  | literal | sum | concatenation => cases h
  | difference | product =>
      match ns, h with
      | [a, b], _ => cases hnone
  | quotient =>
      match ns, h with
      | [a, b], _ =>
          rw [onIntegers?] at hnone
          split at hnone
          next hzero => exact ⟨rfl, a, by rw [hzero]⟩
          next => cases hnone
  | negation =>
      match ns, h with
      | [a], _ => cases hnone

theorem exists_yields_of_arity (leaf : Leaf) {action : Action} {count : Nat}
    (h : action.arity? = some count) (operands : List Value) :
    ∃ result, Yields leaf action operands result := by
  by_cases hlength : operands.length = count
  · subst hlength
    rcases Value.ints_or_text operands with ⟨ns, rfl⟩ | ⟨s, hs⟩
    · rw [List.length_map] at h
      cases hexact : action.onIntegers? ns with
      | none =>
          obtain ⟨rfl, a, rfl⟩ := onIntegers?_eq_none h hexact
          exact ⟨_, .divisionByZero⟩
      | some n =>
          by_cases hfits : Fits n
          · obtain ⟨word, rfl⟩ := hfits.exists_word
            exact ⟨_, .exact h hexact⟩
          · exact ⟨_, .overflow h hexact hfits⟩
    · exact ⟨_, .text h hs⟩
  · exact ⟨_, .arity h hlength⟩

/-! ## Actions and what they yield -/

theorem Yields.apply_eq {action : Action} {operands : List Value}
    {result : Except ReductionError Value} (h : Yields leaf action operands result) :
    action.apply leaf operands = result := by
  cases h with
  | literal hpayload => simp only [apply, hpayload]
  | noLiteral hpayload => simp only [apply, hpayload]
  | sum hns hn =>
      obtain ⟨m, hfold, hm⟩ := foldlM_addTo_ints leaf.op hns
      rw [apply, hfold, Int64.toInt_inj.1 (hm.trans hn.symm)]
      rfl
  | sumOfText hns =>
      obtain ⟨m, hfold, _⟩ := foldlM_addTo_ints leaf.op hns
      rw [apply, foldlM_append_of_ok hfold]
      rfl
  | sumOverflow hns hout =>
      obtain ⟨m, hfold, hm⟩ := foldlM_addTo_ints leaf.op hns
      rw [total_concat, ← hm] at hout
      rw [apply, foldlM_append_of_ok hfold, List.foldlM_cons, addTo_overflow leaf.op hout]
      rfl
  | arity harity hlength => exact apply_of_length_ne harity hlength
  | text harity hs => exact apply_of_text harity hs
  | divisionByZero => rfl
  | exact harity hexact =>
      rw [apply_ints harity hexact, Word.ofInt?_toInt]
      rfl
  | overflow harity hexact hout =>
      rw [apply_ints harity hexact, Word.ofInt?_eq_none.2 hout]
      rfl
  | concatenation =>
      rw [apply, Operation.foldlM_joinTo, String.empty_append]
      rfl
  | concatenationOfInt =>
      rw [apply, foldlM_append_of_ok (Operation.foldlM_joinTo leaf.op _ "")]
      rfl

theorem exists_yields (leaf : Leaf) (action : Action) (operands : List Value) :
    ∃ result, Yields leaf action operands result := by
  cases action with
  | literal =>
      cases hpayload : leaf.payload with
      | none => exact ⟨_, .noLiteral hpayload⟩
      | some value => exact ⟨_, .literal hpayload⟩
  | sum =>
      rcases taken_or_stopped leaf operands with ⟨ns, rfl, hns⟩ | ⟨error, hstop⟩
      · obtain ⟨n, hn⟩ := (hns ns List.prefix_rfl).exists_word
        exact ⟨_, .sum hns hn⟩
      · have hall := hstop []
        rw [List.append_nil] at hall
        exact ⟨_, hall⟩
  | difference | product | quotient | negation => exact exists_yields_of_arity leaf rfl operands
  | concatenation => exact exists_yields_concatenation leaf operands

theorem apply_eq_iff {action : Action} {operands : List Value}
    {result : Except ReductionError Value} :
    action.apply leaf operands = result ↔ Yields leaf action operands result := by
  constructor
  · rintro rfl
    obtain ⟨result, hyields⟩ := exists_yields leaf action operands
    rwa [hyields.apply_eq]
  · exact Yields.apply_eq

theorem Yields.exact_of_int {action : Action} {operands : List Value} {n : Int64}
    (h : Yields leaf action operands (.ok (.int n))) (hliteral : action ≠ .literal) :
    ∃ ns, operands = ns.map .int ∧ action.onIntegers? ns = some n.toInt := by
  cases h with
  | literal _ => exact absurd rfl hliteral
  | sum _ hn => exact ⟨_, rfl, by rw [onIntegers?, hn]⟩
  | exact _ hexact => exact ⟨_, rfl, hexact⟩

theorem map_int_inj {ns ms : List Int64} : ns.map Value.int = ms.map .int ↔ ns = ms :=
  List.map_inj_right fun _ _ h => Value.int.inj h

/-- Once a sum on the way is out of the range, the total is of no use. -/
theorem sum_ints_of_not_staysInRange (leaf : Leaf) {ns : List Int64} (h : ¬ StaysInRange ns) :
    Action.sum.apply leaf (ns.map .int) = .error (.overflow leaf.op) := by
  obtain ⟨result, hyields⟩ := exists_yields leaf .sum (ns.map .int)
  rw [hyields.apply_eq]
  generalize hoperands : ns.map Value.int = operands at hyields
  cases hyields with
  | sum hns _ =>
      rw [map_int_inj.1 hoperands] at h
      exact absurd hns h
  | @sumOfText _ s _ _ =>
      have hmem : Value.text s ∈ ns.map Value.int := by simp [hoperands]
      simp at hmem
  | sumOverflow _ _ => rfl
  | arity harity _ | text harity _ | exact harity _ | overflow harity _ _ => cases harity

theorem Yields.out_of_range {action : Action} {operands : List Value}
    (h : Yields leaf action operands (.error (.overflow leaf.op))) (hne : action ≠ .sum) :
    ∃ ns n, operands = ns.map .int ∧ action.arity? = some ns.length ∧
      action.onIntegers? ns = some n ∧ ¬ Fits n := by
  cases h with
  | sumOverflow _ _ => exact absurd rfl hne
  | overflow harity hexact hout => exact ⟨_, _, rfl, harity, hexact, hout⟩

theorem quotient_overflow_iff {operands : List Value} :
    Action.quotient.apply leaf operands = .error (.overflow leaf.op) ↔
      operands = [.int Int64.minValue, .int (-1)] := by
  rw [apply_eq_iff]
  constructor
  · intro h
    obtain ⟨ns, n, rfl, harity, hexact, hout⟩ := h.out_of_range nofun
    match ns, harity with
    | [a, b], _ =>
        rw [onIntegers?] at hexact
        split at hexact
        next => cases hexact
        next =>
          cases hexact
          obtain ⟨rfl, rfl⟩ := Word.not_fits_tdiv.1 hout
          rfl
  · rintro rfl
    change Yields leaf .quotient ([Int64.minValue, -1].map .int) _
    exact .overflow rfl rfl (Word.not_fits_tdiv.2 ⟨rfl, rfl⟩)

theorem negation_overflow_iff {operands : List Value} :
    Action.negation.apply leaf operands = .error (.overflow leaf.op) ↔
      operands = [.int Int64.minValue] := by
  rw [apply_eq_iff]
  constructor
  · intro h
    obtain ⟨ns, n, rfl, harity, hexact, hout⟩ := h.out_of_range nofun
    match ns, harity with
    | [a], _ =>
        cases hexact
        rw [Word.not_fits_neg.1 hout]
        rfl
  · rintro rfl
    change Yields leaf .negation ([Int64.minValue].map .int) _
    exact .overflow rfl rfl (Word.not_fits_neg.2 rfl)

theorem divisionByZero_iff {action : Action} {operands : List Value} :
    action.apply leaf operands = .error .divisionByZero ↔
      action = .quotient ∧ ∃ a, operands = [.int a, .int 0] := by
  rw [apply_eq_iff]
  constructor
  · intro h
    cases h with
    | divisionByZero => exact ⟨rfl, _, rfl⟩
  · rintro ⟨rfl, a, rfl⟩
    exact .divisionByZero

/-- An action yields what `Yields` says, and nothing else.  So an integer that is computed is the
exact result and never one that has wrapped around: a sum fails as soon as it leaves the range,
wherever it would end, only the least word has no quotient by minus one and no opposite, and only
a quotient has a divisor that can be zero. -/
theorem apply_exact (leaf : Leaf) (operands : List Value) :
    (∀ action result,
      action.apply leaf operands = result ↔ Yields leaf action operands result) ∧
    (∀ (action : Action) (n : Int64), action ≠ .literal →
      action.apply leaf operands = .ok (.int n) →
      ∃ ns : List Int64, operands = ns.map .int ∧ action.onIntegers? ns = some n.toInt) ∧
    (∀ ns : List Int64, operands = ns.map .int → ¬ StaysInRange ns →
      Action.sum.apply leaf operands = .error (.overflow leaf.op)) ∧
    (Action.quotient.apply leaf operands = .error (.overflow leaf.op) ↔
      operands = [.int Int64.minValue, .int (-1)]) ∧
    (Action.negation.apply leaf operands = .error (.overflow leaf.op) ↔
      operands = [.int Int64.minValue]) ∧
    ∀ action : Action, action.apply leaf operands = .error .divisionByZero ↔
      action = .quotient ∧ ∃ a, operands = [.int a, .int 0] := by
  refine ⟨fun action result => apply_eq_iff, fun action n hliteral happly => ?_, ?_,
    quotient_overflow_iff, negation_overflow_iff, fun action => divisionByZero_iff⟩
  · exact (apply_eq_iff.1 happly).exact_of_int hliteral
  · rintro ns rfl hout
    exact sum_ints_of_not_staysInRange leaf hout

/-- The total fits, but the sum of the first two operands does not. -/
theorem apply_exact_on_the_way :
    let ns : List Int64 := [Int64.maxValue, 1, -1]
    Fits (total ns) ∧ ¬ StaysInRange ns ∧
      Action.sum.apply ⟨.add, none⟩ (ns.map .int) = .error (.overflow .add) ∧
      Action.sum.apply ⟨.add, none⟩ [.int 1, .int 2] = .ok (.int 3) ∧
      onIntegers? .sum [1, 2] = some 3 := by
  intro ns
  have hout : ¬ StaysInRange ns := fun h =>
    absurd (h [Int64.maxValue, 1] (by simp [ns])) (by decide)
  obtain ⟨_, _, hsum, _⟩ := apply_exact ⟨.add, none⟩ (ns.map .int)
  obtain ⟨_, hexact, _⟩ := apply_exact ⟨.add, none⟩ [.int 1, .int 2]
  have hthree : Action.sum.apply ⟨.add, none⟩ [.int 1, .int 2] = .ok (.int 3) := by decide +kernel
  obtain ⟨ms, hms, hms'⟩ := hexact .sum 3 nofun hthree
  have hsame : [1, 2] = ms := map_int_inj.1 hms
  exact ⟨by decide, hout, hsum ns rfl hout, hthree, hsame ▸ hms'⟩

end Action

end TreeAssay
