import TreeAssay.Proofs.Runs.Expectations
/-!
# Runs against any reducer

A run has every tree labelled once, without labels at first, and then asks one question about it.
Nothing else of a reducer reaches the report, so this is exact for all reducers, those included that
give values of another type, fail without need or change when they are asked.
-/

namespace TreeAssay

namespace Reducer

variable {State Label : Type} [ToString Label] (reducer : Reducer State Label)

/-! ## Judging and running -/

/-- How a testcase is judged whose tree has been labelled.  Its expectation decides which one
question is asked, and the answer decides the outcome and what becomes of the state.  A failure
shows the tree with these labels. -/
inductive Judges (testcase : Testcase) (state : State) (labels : Labels Label) :
    Outcome → State → Prop
  | denoted {kind expected v after} : testcase.expectation = .value kind expected →
      reducer.reduce state testcase.root labels kind = (after, .ok v) → kind.Denoted expected v →
      Judges testcase state labels (.succeeded testcase.name) after
  | otherValue {kind expected v after} : testcase.expectation = .value kind expected →
      reducer.reduce state testcase.root labels kind = (after, .ok v) → ¬ kind.Denoted expected v →
      Judges testcase state labels
        (.mismatch testcase.name expected v.display (Dump.ofLabelled testcase.root labels)) after
  | reductionFailed {kind expected error after} : testcase.expectation = .value kind expected →
      reducer.reduce state testcase.root labels kind = (after, .error error) →
      Judges testcase state labels
        (.reductionFailed testcase.name error (Dump.ofLabelled testcase.root labels)) after
  | reached {kind wanted after} : testcase.expectation.query? = some (kind, wanted) →
      reducer.canProduce state testcase.root labels kind = (after, wanted) →
      Judges testcase state labels (.succeeded testcase.name) after
  | otherReach {kind wanted actual after} : testcase.expectation.query? = some (kind, wanted) →
      reducer.canProduce state testcase.root labels kind = (after, actual) → actual ≠ wanted →
      Judges testcase state labels
        (.mismatch testcase.name (kind.describeReach wanted) (kind.describeReach actual)
          (Dump.ofLabelled testcase.root labels)) after

/-- What a reducer is told and asked for testcases, one after the other: to label a tree that has no
labels, and then the question of its testcase.  Each starts from the state that the one before it
has left. -/
inductive Reports : State → List Testcase → List Outcome → State → Prop
  | nil {state} : Reports state [] [] state
  | cons {state labelled labels after final testcase rest outcome outcomes} :
      reducer.label state testcase.root .empty = (labelled, labels) →
      reducer.Judges testcase labelled labels outcome after →
      Reports after rest outcomes final →
      Reports state (testcase :: rest) (outcome :: outcomes) final

/-- The state after a testcase: its tree is labelled, and its question is asked. -/
def after (state : State) (testcase : Testcase) : State :=
  let labelled := reducer.label state testcase.root .empty
  match testcase.expectation with
  | .value kind _ => (reducer.reduce labelled.1 testcase.root labelled.2 kind).1
  | .canProduce kind | .cannotProduce kind =>
    (reducer.canProduce labelled.1 testcase.root labelled.2 kind).1

def afterAll (state : State) (testcases : List Testcase) : State :=
  testcases.foldl reducer.after state

variable {reducer} {testcase : Testcase} {state : State} {labels : Labels Label}

/-! ## One testcase -/

theorem ask_of_value {kind : Kind} {expected : String}
    (h : testcase.expectation = .value kind expected) :
    let answer := reducer.reduce state testcase.root labels kind
    reducer.ask testcase labels state =
      (testcase.judgeResult kind expected (fun _ => Dump.ofLabelled testcase.root labels) answer.2,
        answer.1) := by
  intro answer
  rw [ask, h]

theorem ask_of_query {kind : Kind} {wanted : Bool}
    (h : testcase.expectation.query? = some (kind, wanted)) :
    let answer := reducer.canProduce state testcase.root labels kind
    reducer.ask testcase labels state =
      (testcase.judgeReach kind wanted (fun _ => Dump.ofLabelled testcase.root labels) answer.2,
        answer.1) := by
  intro answer
  cases hexpects : testcase.expectation <;> rw [hexpects] at h <;> cases h <;>
    rw [ask, hexpects]

variable (reducer testcase state labels) in
theorem judges_ask :
    reducer.Judges testcase state labels (reducer.ask testcase labels state).1
      (reducer.ask testcase labels state).2 := by
  have hasked {kind : Kind} {wanted : Bool}
      (hquery : testcase.expectation.query? = some (kind, wanted)) :
      reducer.Judges testcase state labels (reducer.ask testcase labels state).1
        (reducer.ask testcase labels state).2 := by
    rw [ask_of_query hquery, Testcase.judgeReach]
    split
    next hreached => exact .reached hquery (Prod.ext rfl hreached)
    next hother => exact .otherReach hquery rfl hother
  cases hexpects : testcase.expectation with
  | value kind expected =>
      rw [ask_of_value hexpects]
      cases hanswer : reducer.reduce state testcase.root labels kind with
      | mk after result =>
          cases result with
          | error error => exact .reductionFailed hexpects hanswer
          | ok v =>
              dsimp only [Testcase.judgeResult]
              split
              next hdenotes =>
                exact .denoted hexpects hanswer (Kind.denotes_iff_denoted.1 hdenotes)
              next hother =>
                exact .otherValue hexpects hanswer (mt Kind.denotes_iff_denoted.2 hother)
  | canProduce kind => exact hasked (by rw [hexpects]; rfl)
  | cannotProduce kind => exact hasked (by rw [hexpects]; rfl)

/-- The question has one answer, so there is one way in which a testcase is judged. -/
theorem judges_iff {outcome : Outcome} {after : State} :
    reducer.Judges testcase state labels outcome after ↔
      reducer.ask testcase labels state = (outcome, after) := by
  constructor
  · intro h
    cases h with
    | denoted hexpects hanswer hdenoted =>
        rw [ask_of_value hexpects, hanswer]
        dsimp only [Testcase.judgeResult]
        rw [if_pos (Kind.denotes_iff_denoted.2 hdenoted)]
    | otherValue hexpects hanswer hother =>
        rw [ask_of_value hexpects, hanswer]
        dsimp only [Testcase.judgeResult]
        rw [if_neg (mt Kind.denotes_iff_denoted.1 hother)]
    | reductionFailed hexpects hanswer =>
        rw [ask_of_value hexpects, hanswer]
        rfl
    | reached hquery hanswer =>
        rw [ask_of_query hquery, hanswer]
        dsimp only [Testcase.judgeReach]
        rw [if_pos rfl]
    | otherReach hquery hanswer hother =>
        rw [ask_of_query hquery, hanswer]
        dsimp only [Testcase.judgeReach]
        rw [if_neg hother]
  · intro h
    have hjudges := reducer.judges_ask testcase state labels
    rwa [h] at hjudges

theorem Judges.name_eq {outcome : Outcome} {after : State}
    (h : reducer.Judges testcase state labels outcome after) : outcome.name = testcase.name := by
  cases h <;> rfl

variable (reducer testcase state) in
theorem run_snd : (reducer.run testcase state).2 = reducer.after state testcase := by
  change (reducer.ask testcase _ _).2 = _
  rw [ask, after]
  cases testcase.expectation <;> rfl

/-! ## All testcases -/

theorem reports_iff {testcases : List Testcase} {outcomes : List Outcome} {final : State} :
    reducer.Reports state testcases outcomes final ↔
      reducer.runAll testcases state = (outcomes, final) := by
  constructor
  · intro h
    induction h with
    | nil => rfl
    | cons hlabel hjudges _ ih =>
        rw [runAll_cons, run, hlabel]
        simp only [judges_iff.1 hjudges, ih]
  · intro h
    induction testcases generalizing state outcomes with
    | nil =>
        cases h
        exact .nil
    | cons testcase rest ih =>
        rw [runAll_cons] at h
        cases h
        exact .cons rfl (reducer.judges_ask testcase _ _) (ih rfl)

theorem Reports.map_name {testcases : List Testcase} {outcomes : List Outcome} {final : State}
    (h : reducer.Reports state testcases outcomes final) :
    outcomes.map Outcome.name = testcases.map Testcase.name := by
  induction h with
  | nil => rfl
  | cons _ hjudges _ ih => rw [List.map_cons, List.map_cons, ih, hjudges.name_eq]

variable (reducer)

theorem runAll_snd (testcases : List Testcase) (state : State) :
    (reducer.runAll testcases state).2 = reducer.afterAll state testcases := by
  induction testcases generalizing state with
  | nil => rfl
  | cons testcase rest ih =>
      rw [runAll_cons, run_snd]
      exact ih _

theorem runAll_append (front back : List Testcase) (state : State) :
    (reducer.runAll (front ++ back) state).1 =
      (reducer.runAll front state).1 ++
        (reducer.runAll back (reducer.afterAll state front)).1 := by
  induction front generalizing state with
  | nil => rfl
  | cons testcase front ih =>
      rw [List.cons_append, runAll_cons, runAll_cons, ih, run_snd]
      rfl

/-- A run reports on every testcase, in order and by name.  What it reports is what comes of having
each tree labelled once, without labels at first, and of the one question that its testcase asks
then.  What comes behind a testcase starts from the state that these two calls leave, whatever was
reported. -/
theorem runAll_judged (state : State) :
    (∀ testcases : List Testcase,
      let run := reducer.runAll testcases state
      let summary : Summary := ⟨run.1⟩
      (∀ outcomes final,
          reducer.Reports state testcases outcomes final ↔ run = (outcomes, final)) ∧
        run.2 = reducer.afterAll state testcases ∧
        summary.outcomes.map Outcome.name = testcases.map Testcase.name ∧
        summary.total = testcases.length ∧
        summary.succeeded + summary.failed = summary.total) ∧
      ∀ (front : List Testcase) (testcase : Testcase) (back : List Testcase),
        let before := reducer.afterAll state front
        let labelled := reducer.label before testcase.root .empty
        let behind := reducer.after before testcase
        ∃ outcome,
          (reducer.runAll (front ++ testcase :: back) state).1 =
            (reducer.runAll front state).1 ++ outcome :: (reducer.runAll back behind).1 ∧
          ∀ other left, reducer.Judges testcase labelled.1 labelled.2 other left ↔
            other = outcome ∧ left = behind := by
  refine ⟨fun testcases => ?_, fun front testcase back => ?_⟩
  · intro run summary
    have hreports : reducer.Reports state testcases summary.outcomes run.2 := reports_iff.2 rfl
    have hnames := hreports.map_name
    have htotal : summary.total = testcases.length := by
      rw [Summary.total, ← List.length_map Outcome.name, hnames, List.length_map]
    exact ⟨fun _ _ => reports_iff, reducer.runAll_snd testcases state, hnames, htotal,
      summary.succeeded_add_failed⟩
  · intro before labelled behind
    refine ⟨(reducer.run testcase before).1, ?_, fun other left => ?_⟩
    · rw [runAll_append, runAll_cons, run_snd]
    · have hasked : reducer.ask testcase labelled.2 labelled.1 =
          ((reducer.run testcase before).1, behind) :=
        Prod.ext rfl (reducer.run_snd testcase before)
      rw [judges_iff, hasked, Prod.mk.injEq, eq_comm, @eq_comm _ behind]

/-- A reducer that only counts how often it is called.  A text in place of an integer, an error of
its own and the integer come of three calls to it, and only the last is what is expected. -/
example :
    let mismatch : ReductionError := .operandMismatch "counter" "third call" "second one"
    let counter : Reducer Nat Nat :=
      { label := fun count _ labels => (count + 1, labels)
        reduce := fun count _ _ _ =>
          (count + 1,
            if count = 1 then .ok (.text "7") else if count = 3 then .error mismatch
            else .ok (.int 7))
        canProduce := fun count _ _ _ => (count + 1, true) }
    let testcase (name : String) : Testcase := ⟨name, .value .int "+07", none, ⟨"cases", 1⟩⟩
    let run := counter.runAll [testcase "text", testcase "failure", testcase "integer"] 0
    run.1 = [.mismatch "text" "+07" "7" "<null />", .reductionFailed "failure" mismatch "<null />",
      .succeeded "integer"] ∧ run.2 = 6 := by
  decide +kernel

end Reducer

end TreeAssay
