import TreeAssay.Proofs.Runs.Independence
import TreeAssay.Proofs.Text.Decimal
import TreeAssay.Report
/-!
# What a tree can be expected to be

A testcase asks its tree for a value or for a derivation.  The answers come from one pair of
functions, whatever is expected, so different expectations of one tree cannot contradict one
another, and what a mismatch reports as the actual answer is what should have been expected.
-/

namespace TreeAssay

/-! ## Texts that denote a value -/

/-- The text is a way to write the value: an integer has many, a text is written as it is. -/
def Value.SpelledBy : Value → String → Prop
  | .int n, spelling => Decimal.Spells spelling.toList n
  | .text s, spelling => spelling = s

theorem Value.spelledBy_display (v : Value) : v.SpelledBy v.display := by
  cases v with
  | int n => exact Decimal.spells_ofInt64 n
  | text s => rfl

/-- The type of the values that a kind is held against. -/
def Kind.type : Kind → ValueType
  | .int | .short => .integer
  | .string => .string

/-- The value is one that the text denotes as the kind: an integer of which the text is a spelling,
or, where a text is expected, that text. -/
def Kind.Denoted (kind : Kind) (expected : String) (v : Value) : Prop :=
  v.type = kind.type ∧ v.SpelledBy expected

theorem Kind.denotes_iff_denoted {kind : Kind} {expected : String} {v : Value} :
    kind.denotes expected v = true ↔ kind.Denoted expected v := by
  cases v with
  | int n =>
      have hinteger (hclass : kind.valueClass = .integer) :
          kind.denotes expected (.int n) = true ↔ Decimal.Spells expected.toList n := by
        rw [← Decimal.read?_eq_some, denotes, hclass]
        cases Decimal.read? expected.toList <;> simp [Value.int?]
      cases kind with
      | int => exact (hinteger rfl).trans (iff_and_self.2 fun _ => rfl)
      | short => exact (hinteger rfl).trans (iff_and_self.2 fun _ => rfl)
      | string => simp [denotes, valueClass, Value.text?, Denoted, Value.type, Kind.type]
  | text s =>
      cases kind <;>
        simp [denotes, valueClass, Value.text?, Value.int?, Denoted, Value.type, Kind.type,
          Value.SpelledBy, eq_comm]

theorem Kind.Admits.type_eq {kind : Kind} {v : Value} (h : kind.Admits v) : v.type = kind.type := by
  cases v with
  | int n =>
      cases kind with
      | int | short => rfl
      | string => exact h.elim
  | text s =>
      cases kind with
      | int | short => exact h.elim
      | string => rfl

theorem Kind.denotes_iff {kind : Kind} {v : Value} (hadmits : kind.Admits v)
    (expected : String) : kind.denotes expected v = true ↔ v.SpelledBy expected :=
  denotes_iff_denoted.trans (and_iff_right hadmits.type_eq)

theorem Kind.describeReach_ne (kind : Kind) :
    kind.describeReach true ≠ kind.describeReach false := by
  cases kind <;> decide

/-! ## The answers about a tree -/

/-- Why there is nothing to reduce: there is no tree, or its root has no derivation. -/
def Kind.refusal (goal : Kind) : Option Tree → ReductionError
  | none => .emptyTree goal
  | some t => .noDerivation t.root t.rootNode.op goal

/-- The answers about a kind: whether it can be produced, and what the tree is reduced to. -/
inductive Kind.Answered (goal : Kind) (root : Option Tree) :
    Bool → Except ReductionError Value → Prop
  | refused : (∀ t, root = some t → ¬ t.Derives goal) →
      Answered goal root false (.error (goal.refusal root))
  | produced {t} : root = some t → t.Derives goal →
      Answered goal root true ((t.meaning goal).mapError CalcFault.error)

theorem Kind.Answered.cases {goal : Kind} {root : Option Tree} {can : Bool}
    {result : Except ReductionError Value} (h : goal.Answered root can result) :
    can = false ∧ result = .error (goal.refusal root) ∨ can = true ∧ goal.Yields result := by
  cases h with
  | refused _ => exact .inl ⟨rfl, rfl⟩
  | produced _ hderives => exact .inr ⟨rfl, Tree.yields_meaning hderives⟩

theorem Kind.Answered.admits {goal : Kind} {root : Option Tree} {can : Bool}
    {result : Except ReductionError Value} (h : goal.Answered root can result) {v : Value}
    (hvalue : result = .ok v) : goal.Admits v := by
  obtain ⟨_, hrefused⟩ | ⟨_, hyields⟩ := h.cases
  · rw [hrefused] at hvalue
    cases hvalue
  · rw [hvalue] at hyields
    cases hyields with
    | value hadmits => exact hadmits

theorem Kind.Answered.of_derives {goal : Kind} {t : Tree} {can : Bool}
    {result : Except ReductionError Value} (h : goal.Answered (some t) can result)
    (hderives : t.Derives goal) :
    can = true ∧ result = (t.meaning goal).mapError CalcFault.error := by
  cases h with
  | refused hnot => exact absurd hderives (hnot t rfl)
  | produced ht _ =>
      cases ht
      exact ⟨rfl, rfl⟩

theorem States.Labelled.answered {s : States} {labels : Labels StateId} {leaf : Leaf}
    {below : Row} (hlabelled : s.Labelled labels 0 (.node leaf below .nil)) (goal : Kind) :
    goal.Answered (some (.plant leaf below)) ((Tree.plant leaf below).canProduce s labels goal)
      ((Tree.plant leaf below).reduce s labels goal) := by
  by_cases hderives : (Tree.plant leaf below).Derives goal
  · rw [(Tree.canProduce_plant hlabelled).2 hderives, Tree.reduce_plant hlabelled hderives]
    exact .produced rfl hderives
  · have hcan := mt (Tree.canProduce_plant hlabelled).1 hderives
    rw [eq_false_of_ne_true hcan, Tree.reduce_plant_of_not_derives hlabelled hderives]
    apply Kind.Answered.refused
    intro t ht
    cases ht
    exact hderives

namespace Testcase

/-- The testcase with another expectation of its tree. -/
def expecting (testcase : Testcase) (expectation : Expectation) : Testcase :=
  { testcase with expectation }

theorem Fit.answered {testcase : Testcase} (hfit : testcase.Fit) {s : States}
    (hs : States.empty.Leads s) (kind : Kind) :
    let labelled := calculator.label s testcase.root .empty
    kind.Answered testcase.root
      (calculator.canProduce labelled.1 testcase.root labelled.2 kind).2
      (calculator.reduce labelled.1 testcase.root labelled.2 kind).2 := by
  cases hroot : testcase.root with
  | none => exact .refused nofun
  | some t =>
      obtain ⟨leaf, below, rfl⟩ := (hfit t hroot).eq_plant
      exact States.Labelled.answered (hs.labelled .refl) kind

/-- All expectations of one tree are held against the same answers, whichever trees the
calculator has labelled before. -/
theorem Fit.exists_answers {testcase : Testcase} (hfit : testcase.Fit) :
    ∃ reduce canProduce,
      (∀ kind : Kind, kind.Answered testcase.root (canProduce kind) (reduce kind)) ∧
      ∀ expectation s, States.empty.Leads s → ∃ dump,
        (calculator.run (testcase.expecting expectation) s).1 =
          (testcase.expecting expectation).outcome dump reduce canProduce := by
  -- A calculator that has met no tree yet answers as any other does.
  refine ⟨_, _, hfit.answered .refl, fun expectation s hs => ?_⟩
  obtain ⟨hreduce, hcan⟩ := hfit.answers_congr hs .refl
  have hroot : (testcase.expecting expectation).root = testcase.root := rfl
  simp only [Reducer.run_fst, hroot, hreduce, hcan]
  exact ⟨_, rfl⟩

section Outcomes

variable {testcase : Testcase} {dump : Unit → String}
  {reduce : Kind → Except ReductionError Value} {canProduce : Kind → Bool} {kind : Kind}

theorem outcome_of_ok {expected : String} {v : Value}
    (hexpects : testcase.expectation = .value kind expected) (hreduce : reduce kind = .ok v) :
    testcase.outcome dump reduce canProduce =
      if kind.denotes expected v then .succeeded testcase.name
      else .mismatch testcase.name expected v.display (dump ()) := by
  simp only [outcome, hexpects, hreduce, judgeResult]

theorem outcome_of_error {expected : String} {error : ReductionError}
    (hexpects : testcase.expectation = .value kind expected)
    (hreduce : reduce kind = .error error) :
    testcase.outcome dump reduce canProduce =
      .reductionFailed testcase.name error (dump ()) := by
  simp only [outcome, hexpects, hreduce, judgeResult]

theorem outcome_of_query {wanted : Bool}
    (hquery : testcase.expectation.query? = some (kind, wanted)) :
    testcase.outcome dump reduce canProduce =
      if canProduce kind = wanted then .succeeded testcase.name
      else .mismatch testcase.name (kind.describeReach wanted)
        (kind.describeReach (canProduce kind)) (dump ()) := by
  cases hexpects : testcase.expectation <;> rw [hexpects] at hquery <;> cases hquery <;>
    simp only [outcome, hexpects, judgeReach]

theorem outcome_value {v : Value} (hreduce : reduce kind = .ok v) (expected : String) :
    (testcase.expecting (.value kind expected)).outcome dump reduce canProduce =
      if kind.denotes expected v then .succeeded testcase.name
      else .mismatch testcase.name expected v.display (dump ()) :=
  outcome_of_ok rfl hreduce

theorem outcome_value_of_error {error : ReductionError} (hreduce : reduce kind = .error error)
    (expected : String) :
    (testcase.expecting (.value kind expected)).outcome dump reduce canProduce =
      .reductionFailed testcase.name error (dump ()) :=
  outcome_of_error rfl hreduce

theorem outcome_canProduce :
    (testcase.expecting (.canProduce kind)).outcome dump reduce canProduce =
      if canProduce kind then .succeeded testcase.name
      else .mismatch testcase.name (kind.describeReach true) (kind.describeReach false)
        (dump ()) := by
  cases hcan : canProduce kind <;> simp [outcome, expecting, judgeReach, hcan]

theorem outcome_cannotProduce :
    (testcase.expecting (.cannotProduce kind)).outcome dump reduce canProduce =
      if canProduce kind then
        .mismatch testcase.name (kind.describeReach false) (kind.describeReach true) (dump ())
      else .succeeded testcase.name := by
  cases hcan : canProduce kind <;> simp [outcome, expecting, judgeReach, hcan]

/-- What can come of a testcase, as far as a report tells, with the dump that a failure shows. -/
inductive Ended (testcase : Testcase) (reduce : Kind → Except ReductionError Value)
    (dump : String) : Outcome → Prop
  | succeeded : Ended testcase reduce dump (.succeeded testcase.name)
  | otherValue {kind expected v} :
      testcase.expectation.expected? = some expected → reduce kind = .ok v →
      Ended testcase reduce dump (.mismatch testcase.name expected v.display dump)
  | otherReach {kind : Kind} {wanted actual : Bool} :
      Ended testcase reduce dump
        (.mismatch testcase.name (kind.describeReach wanted) (kind.describeReach actual) dump)
  | reductionFailed {kind error} : reduce kind = .error error →
      Ended testcase reduce dump (.reductionFailed testcase.name error dump)

theorem ended_outcome (testcase : Testcase) (dump : Unit → String)
    (reduce : Kind → Except ReductionError Value) (canProduce : Kind → Bool) :
    testcase.Ended reduce (dump ()) (testcase.outcome dump reduce canProduce) := by
  have hasked {kind : Kind} {wanted : Bool}
      (hquery : testcase.expectation.query? = some (kind, wanted)) :
      testcase.Ended reduce (dump ()) (testcase.outcome dump reduce canProduce) := by
    rw [outcome_of_query hquery]
    split
    · exact .succeeded
    · exact .otherReach
  cases hexpects : testcase.expectation with
  | value kind expected =>
      cases hreduce : reduce kind with
      | error error =>
          rw [outcome_of_error hexpects hreduce]
          exact .reductionFailed hreduce
      | ok v =>
          rw [outcome_of_ok hexpects hreduce]
          split
          · exact .succeeded
          · exact .otherValue (by rw [hexpects]; rfl) hreduce
  | canProduce kind => exact hasked (by rw [hexpects]; rfl)
  | cannotProduce kind => exact hasked (by rw [hexpects]; rfl)

theorem isSuccess_value {v : Value} (hreduce : reduce kind = .ok v) (hadmits : kind.Admits v)
    (expected : String) :
    ((testcase.expecting (.value kind expected)).outcome dump reduce canProduce).isSuccess = true ↔
      v.SpelledBy expected := by
  rw [outcome_value hreduce, ← Kind.denotes_iff hadmits]
  cases kind.denotes expected v <;> simp [Outcome.isSuccess]

theorem isSuccess_canProduce :
    ((testcase.expecting (.canProduce kind)).outcome dump reduce canProduce).isSuccess =
      canProduce kind := by
  rw [outcome_canProduce]
  cases canProduce kind <;> rfl

theorem isSuccess_cannotProduce :
    ((testcase.expecting (.cannotProduce kind)).outcome dump reduce canProduce).isSuccess =
      !canProduce kind := by
  rw [outcome_cannotProduce]
  cases canProduce kind <;> rfl

end Outcomes

/-- A testcase whose tree derives the kind that is asked for succeeds on the texts that spell the
value of the tree, if there is a value. -/
theorem Fit.isSuccess_iff_exists {testcase : Testcase} (hfit : testcase.Fit) {t : Tree}
    (hroot : testcase.root = some t) {kind : Kind} {expected : String}
    (hexpects : testcase.expectation = .value kind expected) (hderives : t.Derives kind)
    {s : States} (hs : States.empty.Leads s) :
    (calculator.run testcase s).1.isSuccess = true ↔
      ∃ v, t.meaning kind = .ok v ∧ v.SpelledBy expected := by
  obtain ⟨reduce, canProduce, hanswered, hrun⟩ := hfit.exists_answers
  have hsame : testcase = testcase.expecting (.value kind expected) := by
    rw [expecting, ← hexpects]
  obtain ⟨dump, houtcome⟩ := hrun (.value kind expected) s hs
  have hanswer := hanswered kind
  rw [hroot] at hanswer
  have hreduce := (hanswer.of_derives hderives).2
  rw [hsame, houtcome]
  cases hvalue : t.meaning kind with
  | ok v =>
      rw [hvalue] at hreduce
      rw [isSuccess_value hreduce (hanswer.admits hreduce)]
      simp only [Except.ok.injEq, exists_eq_left']
  | error fault =>
      rw [hvalue] at hreduce
      rw [outcome_value_of_error hreduce]
      simp only [Outcome.isSuccess, Bool.false_eq_true, reduceCtorEq, false_and, exists_false]

/-- A testcase whose tree has a value succeeds on the texts that spell the value. -/
theorem Fit.isSuccess_iff {testcase : Testcase} (hfit : testcase.Fit) {t : Tree}
    (hroot : testcase.root = some t) {kind : Kind} {expected : String}
    (hexpects : testcase.expectation = .value kind expected) (hderives : t.Derives kind) {v : Value}
    (hvalue : t.meaning kind = .ok v) {s : States} (hs : States.empty.Leads s) :
    (calculator.run testcase s).1.isSuccess = true ↔ v.SpelledBy expected := by
  rw [hfit.isSuccess_iff_exists hroot hexpects hderives hs, hvalue]
  simp only [Except.ok.injEq, exists_eq_left']

end Testcase

/-! ## Expectations of one tree -/

/-- The expectations of a tree, each held against it by a calculator that may have labelled
any other trees before, do not contradict one another.  Either a kind can be produced or it
cannot.  If it cannot, there is no value to expect, for want of a derivation at the root or
of a tree.  If it can, the arithmetic fails whatever value is expected, or there is a value
of the kind and the texts that may be expected are those that spell it. -/
theorem expectations_consistent {testcase : Testcase} (hfit : testcase.Fit)
    {on : Expectation → States} (hon : ∀ expectation, States.empty.Leads (on expectation))
    (kind : Kind) :
    let outcome (expectation : Expectation) : Outcome :=
      (calculator.run (testcase.expecting expectation) (on expectation)).1
    let accepts (expectation : Expectation) : Prop := (outcome expectation).isSuccess = true
    let fails (error : ReductionError) (expectation : Expectation) : Prop :=
      ∃ dump, outcome expectation = .reductionFailed testcase.name error dump
    (accepts (.canProduce kind) ↔ ¬ accepts (.cannotProduce kind)) ∧
      (∀ expected, accepts (.value kind expected) → accepts (.canProduce kind)) ∧
      (accepts (.cannotProduce kind) →
        ∀ expected, fails (kind.refusal testcase.root) (.value kind expected)) ∧
      (accepts (.canProduce kind) →
        (∃ error, (error = .divisionByZero ∨ ∃ op, error = .overflow op) ∧
          ∀ expected, fails error (.value kind expected)) ∨
        ∃ v, kind.Admits v ∧ accepts (.value kind v.display) ∧
          ∀ expected, accepts (.value kind expected) ↔ v.SpelledBy expected) := by
  intro outcome accepts fails
  obtain ⟨reduce, canProduce, hanswered, hrun⟩ := hfit.exists_answers
  have houtcome (expectation : Expectation) : ∃ dump, outcome expectation =
      (testcase.expecting expectation).outcome dump reduce canProduce :=
    hrun expectation _ (hon expectation)
  have hcan : accepts (.canProduce kind) ↔ canProduce kind = true := by
    obtain ⟨dump, hsame⟩ := houtcome (.canProduce kind)
    simp only [accepts, hsame, Testcase.isSuccess_canProduce]
  have hcannot : accepts (.cannotProduce kind) ↔ canProduce kind = false := by
    obtain ⟨dump, hsame⟩ := houtcome (.cannotProduce kind)
    simp only [accepts, hsame, Testcase.isSuccess_cannotProduce, Bool.not_eq_true']
  have hvalue {v : Value} (hreduce : reduce kind = .ok v) (hadmits : kind.Admits v)
      (expected : String) : accepts (.value kind expected) ↔ v.SpelledBy expected := by
    obtain ⟨dump, hsame⟩ := houtcome (.value kind expected)
    simp only [accepts, hsame, Testcase.isSuccess_value hreduce hadmits]
  have hfails {error : ReductionError} (hreduce : reduce kind = .error error)
      (expected : String) : fails error (.value kind expected) := by
    obtain ⟨dump, hsame⟩ := houtcome (.value kind expected)
    exact ⟨dump (), hsame.trans (Testcase.outcome_value_of_error hreduce expected)⟩
  rw [hcan, hcannot]
  obtain ⟨hfalse, hrefused⟩ | ⟨htrue, hyields⟩ := (hanswered kind).cases
  · simp only [hfalse]
    refine ⟨by simp, fun expected haccepts => ?_, fun _ => hfails hrefused, nofun⟩
    obtain ⟨dump, hfailed⟩ := hfails hrefused expected
    simp only [accepts, hfailed] at haccepts
    cases haccepts
  · simp only [htrue]
    refine ⟨by simp, fun _ _ => trivial, nofun, fun _ => ?_⟩
    cases hreduce : reduce kind with
    | ok v =>
        have hadmits := (hanswered kind).admits hreduce
        have hspelled := hvalue hreduce hadmits
        exact .inr ⟨v, hadmits, (hspelled _).2 v.spelledBy_display, hspelled⟩
    | error error =>
        rw [hreduce] at hyields
        refine .inl ⟨error, ?_, hfails hreduce⟩
        cases hyields with
        | divisionByZero => exact .inl rfl
        | overflow op => exact .inr ⟨op, rfl⟩

/-- A negated literal, of which every spelling of its value may be expected and nothing else. -/
theorem expectations_consistent_negate :
    let minus := Tree.plant ⟨.negate, none⟩ (.node ⟨.shortLiteral, some (.int 7)⟩ .nil .nil)
    let testcase : Testcase := ⟨"minus seven", .cannotProduce .int, some minus, ⟨"cases", 1⟩⟩
    let outcome (expectation : Expectation) : Outcome :=
      (calculator.run (testcase.expecting expectation) .empty).1
    testcase.Fit ∧ States.empty.Leads .empty ∧
      (outcome (.value .int "-7")).isSuccess = true ∧
      (outcome (.canProduce .int)).isSuccess = true ∧
      ¬ (outcome (.cannotProduce .int)).isSuccess = true ∧
      ∀ expected, (outcome (.value .int expected)).isSuccess = true ↔
        Decimal.Spells expected.toList (-7) := by
  intro minus testcase outcome
  have hfit : testcase.Fit := Testcase.fit_of_plant rfl
  have hderives : minus.Derives .int := by
    rw [Tree.Derives, Tree.below_plant]
    exact .negate rfl rfl ⟨.widen (.shortLiteral rfl (by decide) (by decide) rfl), trivial⟩
  have hseven : (outcome (.value .int "-7")).isSuccess = true := by
    obtain ⟨reduce, canProduce, hanswered, hrun⟩ := hfit.exists_answers
    obtain ⟨dump, hsame⟩ := hrun (.value .int "-7") .empty .refl
    have hreduce : reduce .int = .ok (.int (-7)) := by
      rw [((hanswered .int).of_derives hderives).2, Tree.meaning, Tree.below_plant]
      rfl
    simp only [outcome, hsame, Testcase.isSuccess_value hreduce trivial]
    exact Decimal.read?_eq_some.1 (by decide)
  obtain ⟨hpolarity, hproducible, _, haccepted⟩ :=
    expectations_consistent hfit (fun _ => States.Leads.refl) .int
  have hcan := hproducible "-7" hseven
  refine ⟨hfit, .refl, hseven, hcan, hpolarity.1 hcan, fun expected => ?_⟩
  obtain ⟨error, _, hfails⟩ | ⟨v, hadmits, _, hspelled⟩ := haccepted hcan
  · obtain ⟨dump, hfailed⟩ := hfails "-7"
    simp only [outcome, hfailed] at hseven
    cases hseven
  · cases v with
    | text s => exact hadmits.elim
    | int n =>
        have hn := Decimal.read?_eq_some.2 ((hspelled "-7").1 hseven)
        obtain rfl : -7 = n := Option.some.inj hn
        exact hspelled expected

/-! ## What a mismatch says -/

/-- The expectation that an actual answer calls for. -/
def Expectation.corrected (actual : String) : Expectation → Expectation
  | .value kind _ => .value kind actual
  | .canProduce kind => .cannotProduce kind
  | .cannotProduce kind => .canProduce kind

/-- Where the answers are those about a tree, the actual text of a mismatch is not the expected
one and is what is to be expected. -/
theorem Testcase.outcome_corrected {testcase : Testcase} {expectation : Expectation}
    {root : Option Tree} {reduce : Kind → Except ReductionError Value}
    {canProduce : Kind → Bool}
    (hanswered : ∀ kind : Kind, kind.Answered root (canProduce kind) (reduce kind))
    {dump : Unit → String} {name expected actual text : String}
    (hmismatch : (testcase.expecting expectation).outcome dump reduce canProduce =
      .mismatch name expected actual text) :
    expected ≠ actual ∧
      (expectation.query?.isSome → (expectation.corrected actual).describe = actual) ∧
      ∀ dump', (testcase.expecting (expectation.corrected actual)).outcome dump' reduce canProduce =
        .succeeded name := by
  cases expectation with
  | value kind spelling =>
      cases hreduce : reduce kind with
      | error error =>
          rw [outcome_value_of_error hreduce] at hmismatch
          cases hmismatch
      | ok v =>
          -- This needs a value of the kind: no text denotes one that is not.
          have hdisplay : kind.denotes v.display v = true :=
            (Kind.denotes_iff ((hanswered kind).admits hreduce) _).2 v.spelledBy_display
          rw [outcome_value hreduce] at hmismatch
          split at hmismatch
          next => cases hmismatch
          next hdenotes =>
            cases hmismatch
            refine ⟨?_, nofun, fun dump' => ?_⟩
            · rintro rfl
              exact hdenotes hdisplay
            · rw [Expectation.corrected, outcome_value hreduce, if_pos hdisplay]
  | canProduce kind =>
      rw [outcome_canProduce] at hmismatch
      split at hmismatch
      next => cases hmismatch
      next hcan =>
        cases hmismatch
        refine ⟨kind.describeReach_ne, fun _ => rfl, fun dump' => ?_⟩
        rw [Expectation.corrected, outcome_cannotProduce, if_neg hcan]
  | cannotProduce kind =>
      rw [outcome_cannotProduce] at hmismatch
      split at hmismatch
      next hcan =>
        cases hmismatch
        refine ⟨kind.describeReach_ne.symm, fun _ => rfl, fun dump' => ?_⟩
        rw [Expectation.corrected, outcome_canProduce, if_pos hcan]
      next => cases hmismatch

/-- The report of a mismatch shows two texts that differ.  The second says what to expect
instead: with that, the testcase succeeds, whatever the calculator has labelled by then. -/
theorem mismatch_actionable {testcase : Testcase} (hfit : testcase.Fit) {s s' : States}
    (hs : States.empty.Leads s) (hs' : States.empty.Leads s')
    {name expected actual dump : String}
    (hmismatch : (calculator.run testcase s).1 = .mismatch name expected actual dump) :
    expected ≠ actual ∧
      (∀ colored quiet, Report.outcome colored quiet (calculator.run testcase s).1 =
        Report.paint colored .red "FAILED" ++ ": " ++ name ++ ", expected " ++ expected ++
          " != actual " ++ actual ++ "\n" ++ dump ++ "\n") ∧
      (testcase.expectation.query?.isSome →
        (testcase.expectation.corrected actual).describe = actual) ∧
      (calculator.run (testcase.expecting (testcase.expectation.corrected actual)) s').1 =
        .succeeded name := by
  obtain ⟨reduce, canProduce, hanswered, hrun⟩ := hfit.exists_answers
  obtain ⟨_, hfirst⟩ := hrun testcase.expectation s hs
  obtain ⟨dump', hagain⟩ := hrun (testcase.expectation.corrected actual) s' hs'
  obtain ⟨hne, hdescribe, hsucceeds⟩ :=
    Testcase.outcome_corrected hanswered (hfirst.symm.trans hmismatch)
  refine ⟨hne, fun colored quiet => ?_, hdescribe, hagain.trans (hsucceeds dump')⟩
  rw [hmismatch]
  rfl

/-- The lowest integer, held against one that is out of range. -/
theorem mismatch_actionable_lowest :
    let lowest := Tree.plant ⟨.intLiteral, some (.int Int64.minValue)⟩ .nil
    let testcase : Testcase :=
      ⟨"lowest", .value .int "9223372036854775808", some lowest, ⟨"cases", 1⟩⟩
    let met := (calculator.label .empty (some lowest) .empty).1
    testcase.Fit ∧ States.empty.Leads .empty ∧ States.empty.Leads met ∧ ∃ dump,
      (calculator.run testcase .empty).1 =
          .mismatch "lowest" "9223372036854775808" "-9223372036854775808" dump ∧
        (calculator.run (testcase.expecting (.value .int "-9223372036854775808")) met).1 =
          .succeeded "lowest" := by
  intro lowest testcase met
  have hfit : testcase.Fit := Testcase.fit_of_plant rfl
  have hmet : States.empty.Leads met := .label _ _ .refl
  have hderives : lowest.Derives .int := by
    rw [Tree.Derives, Tree.below_plant]
    exact .intLiteral rfl rfl
  have hmismatch : ∃ dump, (calculator.run testcase .empty).1 =
      .mismatch "lowest" "9223372036854775808" "-9223372036854775808" dump := by
    obtain ⟨reduce, canProduce, hanswered, hrun⟩ := hfit.exists_answers
    obtain ⟨dump, hsame⟩ := hrun testcase.expectation .empty .refl
    have hreduce : reduce .int = .ok (.int Int64.minValue) := by
      rw [((hanswered .int).of_derives hderives).2, Tree.meaning, Tree.below_plant]
      rfl
    have hdisplay : (Value.int Int64.minValue).display = "-9223372036854775808" := by
      decide +kernel
    refine ⟨dump (), hsame.trans ?_⟩
    rw [Testcase.outcome_value hreduce, if_neg (by decide), hdisplay]
  obtain ⟨dump, hmismatch⟩ := hmismatch
  obtain ⟨_, _, _, hcorrected⟩ := mismatch_actionable hfit .refl hmet hmismatch
  exact ⟨hfit, .refl, hmet, dump, hmismatch, hcorrected⟩

end TreeAssay
