import TreeAssay.Proofs.Runs.Dumps
import TreeAssay.Proofs.Runs.Unbroken
/-!
# The lines of a report

A plain report has a line for every success and two for every failure, and after them a line with
their numbers.  As everything that it shows of a loaded testcase is a single line, these are also
the lines that a reader finds who cuts the report at its line feeds.
-/

namespace TreeAssay

/-! ## Lines -/

/-- Cut at its line feeds, the text falls into the lines, with nothing behind the last of them. -/
def HasLines (text : String) (lines : List String) : Prop :=
  (text.split '\n').toList.map (·.copy) = lines ++ [""]

/-- The lines one below the other, each with a line feed behind it. -/
def stack (lines : List String) : String :=
  String.join (lines.map (· ++ "\n"))

theorem stack_append (front back : List String) :
    stack (front ++ back) = stack front ++ stack back := by
  rw [stack, List.map_append, String.join_append]
  rfl

theorem join_stack {α : Type} (lines : α → List String) (row : List α) :
    String.join (row.map fun a => stack (lines a)) = stack (row.flatMap lines) := by
  induction row with
  | nil => rfl
  | cons a row ih =>
      rw [List.map_cons, String.join_cons, ih, List.flatMap_cons, stack_append]

theorem stack_eq_intercalate (lines : List String) :
    stack lines = "\n".intercalate (lines ++ [""]) := by
  induction lines with
  | nil => rfl
  | cons line lines ih =>
      rw [List.cons_append, String.intercalate_cons_of_ne_nil (by simp), ← ih, stack, List.map_cons,
        String.join_cons]
      rfl

theorem hasLines_stack {lines : List String} (h : ∀ line ∈ lines, Unbroken line) :
    HasLines (stack lines) lines := by
  have hpieces : ∀ line ∈ lines ++ [""], Unbroken line :=
    List.forall_mem_append.2 ⟨h, List.forall_mem_singleton.2 (by decide)⟩
  have hsplit := String.toList_split_intercalate hpieces
  rw [if_neg (by simp)] at hsplit
  rw [HasLines, stack_eq_intercalate]
  exact hsplit

theorem forall_of_forall₂ {α β : Type} {R : α → β → Prop} {P : β → Prop} {row : List α}
    {other : List β} (h : List.Forall₂ R row other) (himp : ∀ a b, R a b → P b) :
    ∀ b ∈ other, P b := by
  induction h with
  | nil => simp
  | cons hfirst _ ih => exact List.forall_mem_cons.2 ⟨himp _ _ hfirst, ih⟩

/-- A text does not start in two ways of which neither continues the other. -/
theorem startsWith_eq_false {front text : String} (h : text.startsWith front = true)
    (other : String) (hfront : ¬ front.toList <+: other.toList)
    (hother : ¬ other.toList <+: front.toList) : text.startsWith other = false := by
  rw [String.startsWith_string_iff] at h
  rw [String.startsWith_string_eq_false_iff]
  intro hstarts
  exact (List.prefix_or_prefix_of_prefix h hstarts).elim hfront hother

theorem startsWith_append (front back : String) : (front ++ back).startsWith front = true := by
  rw [String.startsWith_string_iff, String.toList_append]
  exact List.prefix_append _ _

theorem countP_flatMap_eq {α β : Type} {f : α → List β} {p : β → Bool} {q : α → Bool}
    {row : List α} (h : ∀ a ∈ row, (f a).countP p = if q a then 1 else 0) :
    (row.flatMap f).countP p = row.countP q := by
  induction row with
  | nil => rfl
  | cons a row ih =>
      obtain ⟨hfirst, hrest⟩ := List.forall_mem_cons.1 h
      rw [List.flatMap_cons, List.countP_append, List.countP_cons, hfirst, ih hrest,
        Nat.add_comm]

/-! ## Outcomes -/

/-- The first of the lines that a report has about an outcome. -/
def Outcome.headline : Outcome → String
  | .succeeded name => "Succeeded: " ++ name
  | .mismatch name expected actual _ =>
    "FAILED: " ++ name ++ ", " ++ ("expected " ++ expected ++ " != actual " ++ actual)
  | .reductionFailed name error _ => "FAILED: " ++ name ++ ", " ++ ("exception " ++ error.message)

/-- The lines that a report has about an outcome. -/
def Outcome.lines (outcome : Outcome) : List String :=
  outcome.headline :: outcome.dump?.toList

theorem Outcome.report_loud (outcome : Outcome) :
    Report.outcome false false outcome = stack outcome.lines := by
  rw [← String.toList_inj]
  cases outcome <;>
    simp [Report.outcome, Report.paint, stack, lines, headline, dump?, String.join_cons]

theorem Outcome.report_quiet (outcome : Outcome) :
    Report.outcome false true outcome =
      stack (if outcome.isSuccess then [] else outcome.lines) := by
  cases outcome with
  | succeeded name => rfl
  | mismatch name expected actual dump => exact report_loud (.mismatch name expected actual dump)
  | reductionFailed name error dump => exact report_loud (.reductionFailed name error dump)

/-- Lines that tell whether the testcase succeeded: one if it did, and else two, the second of
which shows its tree. -/
inductive Testcase.Told (testcase : Testcase) : Bool → List String → Prop
  | succeeded : Told testcase true ["Succeeded: " ++ testcase.name]
  | failed {reason dump : String} : dump.startsWith "<" → Dump.read dump = .ok testcase.root →
      Told testcase false ["FAILED: " ++ testcase.name ++ ", " ++ reason, dump]

namespace Testcase.Told

variable {testcase : Testcase} {success : Bool} {lines : List String}

/-- One line starts as that of a success if there is one, and one as that of a failure if not. -/
theorem map_startsWith (h : testcase.Told success lines) :
    lines.map (·.startsWith "Succeeded: ") = (if success then [true] else [false, false]) ∧
      lines.map (·.startsWith "FAILED: ") = if success then [false] else [true, false] := by
  cases h with
  | succeeded =>
      have hline := startsWith_append "Succeeded: " testcase.name
      have hother := startsWith_eq_false hline "FAILED: " (by decide) (by decide)
      simp only [List.map_cons, hline, hother]
      exact ⟨rfl, rfl⟩
  | @failed reason dump hdump _ =>
      have hline :
          ("FAILED: " ++ testcase.name ++ ", " ++ reason).startsWith "FAILED: " = true := by
        rw [String.append_assoc, String.append_assoc]
        exact startsWith_append _ _
      have hother := startsWith_eq_false hline "Succeeded: " (by decide) (by decide)
      have hsucceeded := startsWith_eq_false hdump "Succeeded: " (by decide) (by decide)
      have hfailed := startsWith_eq_false hdump "FAILED: " (by decide) (by decide)
      simp only [List.map_cons, hline, hother, hsucceeded, hfailed]
      exact ⟨rfl, rfl⟩

theorem countP_succeeded (h : testcase.Told success lines) :
    lines.countP (·.startsWith "Succeeded: ") = if success then 1 else 0 := by
  rw [← Function.id_comp (fun line : String => line.startsWith "Succeeded: "), ← List.countP_map,
    h.map_startsWith.1]
  cases success <;> rfl

theorem countP_failed (h : testcase.Told success lines) :
    lines.countP (·.startsWith "FAILED: ") = if !success then 1 else 0 := by
  rw [← Function.id_comp (fun line : String => line.startsWith "FAILED: "), ← List.countP_map,
    h.map_startsWith.2]
  cases success <;> rfl

/-- Without the line of a success, only a failure has lines. -/
theorem filter_not_succeeded (h : testcase.Told success lines) :
    lines.filter (fun line => !line.startsWith "Succeeded: ") = if success then [] else lines := by
  have hstarts := h.map_startsWith.1
  have hmem : ∀ line ∈ lines, line.startsWith "Succeeded: " = success := by
    intro line hline
    have := List.mem_map_of_mem (f := (·.startsWith "Succeeded: ")) hline
    rw [hstarts] at this
    cases success <;> simpa using this
  cases success with
  | true =>
      rw [if_pos rfl, List.filter_eq_nil_iff]
      intro line hline
      simp [hmem line hline]
  | false =>
      rw [if_neg Bool.false_ne_true, List.filter_eq_self]
      intro line hline
      simp [hmem line hline]

end Testcase.Told

/-! ## Loaded testcases -/

theorem Outcome.told {outcome : Outcome} {testcase : Testcase}
    {reduce : Kind → Except ReductionError Value} {dump : String}
    (hended : testcase.Ended reduce dump outcome) (hstarts : dump.startsWith "<")
    (hread : Dump.read dump = .ok testcase.root) :
    testcase.Told outcome.isSuccess outcome.lines := by
  cases hended with
  | succeeded => exact .succeeded
  | otherValue _ _ => exact .failed hstarts hread
  | otherReach => exact .failed hstarts hread
  | reductionFailed _ => exact .failed hstarts hread

theorem Outcome.unbroken_lines {outcome : Outcome} {testcase : Testcase}
    (h : testcase.draft.Writable) {reduce : Kind → Except ReductionError Value} {dump : String}
    (hended : testcase.Ended reduce dump outcome)
    (hreduce : ∀ kind v, reduce kind = .ok v → Unbroken v.display)
    (herror : ∀ kind error, reduce kind = .error error → Unbroken error.message)
    (hdump : Unbroken dump) : ∀ line ∈ outcome.lines, Unbroken line := by
  have hname : Unbroken testcase.name := h.name.2
  have hfailed {reason : String} (hreason : Unbroken reason) :
      ∀ line ∈ ["FAILED: " ++ testcase.name ++ ", " ++ reason, dump], Unbroken line := by
    rw [List.forall_mem_cons, List.forall_mem_singleton]
    simp only [unbroken_append, hname, hreason, hdump]
    decide
  have hcompared {wanted actual : String} (hwanted : Unbroken wanted) (hactual : Unbroken actual) :
      Unbroken ("expected " ++ wanted ++ " != actual " ++ actual) := by
    simp only [unbroken_append, hwanted, hactual]
    decide
  cases hended with
  | succeeded =>
      rw [lines, List.forall_mem_cons]
      exact ⟨unbroken_append.2 ⟨by decide, hname⟩, nofun⟩
  | otherValue hexpected hvalue =>
      exact hfailed (hcompared (h.expected _ hexpected).2 (hreduce _ _ hvalue))
  | otherReach =>
      exact hfailed (hcompared (Kind.unbroken_describeReach _ _) (Kind.unbroken_describeReach _ _))
  | reductionFailed hfails =>
      exact hfailed (unbroken_append.2 ⟨by decide, herror _ _ hfails⟩)

theorem unbroken_state (labels : Labels StateId) (id : Nat) (text : String)
    (htext : (labels.get? id).map toString = some text) : Unbroken text := by
  obtain ⟨state, _, rfl⟩ := Option.map_eq_some_iff.1 htext
  exact Decimal.unbroken_ofNat state.number

/-- No value that a calculator reduces a writable tree to has a line feed. -/
theorem Kind.Answered.unbroken_display {goal : Kind} {d : Draft} (h : d.Writable) {can : Bool}
    {result : Except ReductionError Value} (hanswered : goal.Answered d.root can result) {v : Value}
    (hvalue : result = .ok v) : Unbroken v.display := by
  cases hanswered with
  | refused _ => cases hvalue
  | @produced t hroot _ =>
      obtain ⟨leaf, below, rfl⟩ := (h.built t hroot).eq_plant
      have hleaves := Tree.forall_nodes_plant.1 (h.nodes _ hroot)
      cases hmeaning : (Tree.plant leaf below).meaning goal with
      | error fault =>
          rw [hmeaning] at hvalue
          cases hvalue
      | ok w =>
          rw [hmeaning] at hvalue
          cases hvalue
          exact Tree.unbroken_meaning hleaves hmeaning

/-- In whatever state a calculator is, its lines about a loaded testcase tell how it ended, and
none of them is broken. -/
theorem Suite.FromLines.told_run {source : Source} {testcase : Testcase}
    (h : FromLines source testcase) {s : States} (hs : States.empty.Leads s) :
    let outcome := (calculator.run testcase s).1
    testcase.Told outcome.isSuccess outcome.lines ∧ ∀ line ∈ outcome.lines, Unbroken line := by
  intro outcome
  have hwritable := h.writable
  have hfit : testcase.Fit := hwritable.built
  let labelled := calculator.label s testcase.root .empty
  have hended : testcase.Ended
      (fun kind => (calculator.reduce labelled.1 testcase.root labelled.2 kind).2)
      (Dump.ofLabelled testcase.root labelled.2) outcome := by
    simp only [outcome, Reducer.run_fst]
    exact testcase.ended_outcome (fun _ => Dump.ofLabelled testcase.root labelled.2) _ _
  refine ⟨Outcome.told hended ?_ ?_, Outcome.unbroken_lines hwritable hended ?_ ?_ ?_⟩
  · exact Dump.startsWith_render hfit _
  · exact Dump.read_render_of_fromTags h.fromTags (quotable_state labelled.2)
  · exact fun kind v => (hfit.answered hs kind).unbroken_display hwritable
  · exact fun kind error => (hfit.answered hs kind).unbroken_message
  · exact Dump.unbroken_render hwritable (unbroken_state labelled.2)

/-! ## Reports -/

/-- The first of the two lines of a testcase in a listing. -/
def Testcase.headline (testcase : Testcase) : String :=
  testcase.name ++ " (" ++ testcase.origin.display ++ "): " ++ testcase.expectation.describe

theorem Testcase.unbroken_headline {testcase : Testcase} (h : testcase.draft.Writable)
    (hfile : Unbroken testcase.origin.file) : Unbroken testcase.headline := by
  have hname : Unbroken testcase.name := h.name.2
  have hexpected := h.expected
  simp only [draft] at hexpected
  have hdescribe : Unbroken testcase.expectation.describe := by
    generalize testcase.expectation = expectation at hexpected
    cases expectation with
    | value kind expected =>
        have hexpected : Unbroken expected := (hexpected expected rfl).2
        unfold Expectation.describe
        simp only [unbroken_append, kind.unbroken_name, hexpected]
        decide
    | canProduce kind => exact kind.unbroken_describeReach true
    | cannotProduce kind => exact kind.unbroken_describeReach false
  unfold headline Origin.display
  simp only [unbroken_append, hname, hfile, hdescribe, Decimal.unbroken_ofNat]
  decide

/-- The line that ends a report. -/
def countLine (succeeded failed : Nat) : String :=
  "Test summary: " ++ toString (succeeded + failed) ++ " total, " ++ toString succeeded ++
    " succeeded, " ++ toString failed ++ " failed"

theorem summary_eq (results : Summary) :
    Report.summary false results = stack [countLine results.succeeded results.failed] := by
  unfold Report.summary Report.paint countLine stack
  rw [results.succeeded_add_failed, ← String.toList_inj]
  simp [Decimal.ofNat_eq_repr]

theorem run_eq {quiet : Bool} {shown : Outcome → List String}
    (h : ∀ outcome, Report.outcome false quiet outcome = stack (shown outcome))
    (outcomes : List Outcome) :
    Report.run false quiet ⟨outcomes⟩ =
      stack (outcomes.flatMap shown ++
        [countLine (outcomes.countP (·.isSuccess)) (outcomes.countP (!·.isSuccess))]) := by
  have hshown : Report.outcome false quiet = fun outcome => stack (shown outcome) := funext h
  rw [Report.run, summary_eq, Summary.failed_eq_countP, stack_append, ← join_stack, hshown]
  rfl

/-- The lines that a plain report of testcases shows are those of the testcases in order. -/
theorem listing_eq (testcases : List Testcase) :
    Report.listing false testcases =
      stack (testcases.flatMap fun testcase => [testcase.headline, Dump.ofTree testcase.root]) := by
  rw [← join_stack, Report.listing]
  congr 2
  funext testcase
  unfold Report.testcase Report.paint Testcase.headline stack
  rw [← String.toList_inj]
  simp

theorem unbroken_countLine (succeeded failed : Nat) : Unbroken (countLine succeeded failed) := by
  have hnumber (n : Nat) : Unbroken (toString n) := by
    rw [Nat.toString_eq_repr, ← Decimal.ofNat_eq_repr]
    exact Decimal.unbroken_ofNat n
  unfold countLine
  simp only [unbroken_append, hnumber]
  decide

theorem startsWith_countLine (succeeded failed : Nat) :
    (countLine succeeded failed).startsWith "Test summary: " = true := by
  unfold countLine
  simp only [String.append_assoc]
  exact startsWith_append _ _

theorem told_runAll {testcases : List Testcase}
    (h : ∀ testcase ∈ testcases, ∃ source, Suite.FromLines source testcase) {s : States}
    (hs : States.empty.Leads s) :
    testcases.Forall₂ (fun testcase outcome =>
      testcase.Told outcome.isSuccess outcome.lines ∧ ∀ line ∈ outcome.lines, Unbroken line)
      (calculator.runAll testcases s).1 := by
  refine ((List.forall₂_and_left _ _).2 ⟨h, forall₂_runAll testcases hs⟩).imp ?_
  rintro testcase _ ⟨⟨source, hlines⟩, s', hs', rfl⟩
  exact hlines.told_run hs'

theorem countP_lines {outcomes : List Outcome} {succeeded failed : Nat} {word : String}
    {p : Outcome → Bool}
    (hlines : ∀ outcome ∈ outcomes,
      outcome.lines.countP (·.startsWith word) = if p outcome then 1 else 0)
    (hlast : (countLine succeeded failed).startsWith word = false) :
    (outcomes.flatMap Outcome.lines ++ [countLine succeeded failed]).countP (·.startsWith word) =
      outcomes.countP p := by
  rw [List.countP_append, List.countP_singleton, hlast, countP_flatMap_eq hlines]
  rfl

theorem filter_lines {outcomes : List Outcome}
    (htold : ∀ outcome ∈ outcomes, ∃ testcase : Testcase,
      testcase.Told outcome.isSuccess outcome.lines) {succeeded failed : Nat}
    (hlast : (countLine succeeded failed).startsWith "Succeeded: " = false) :
    (outcomes.flatMap Outcome.lines ++ [countLine succeeded failed]).filter
      (fun line => !line.startsWith "Succeeded: ") =
      outcomes.flatMap (fun outcome => if outcome.isSuccess then [] else outcome.lines) ++
        [countLine succeeded failed] := by
  have hrest : (outcomes.flatMap Outcome.lines).filter
      (fun line => !line.startsWith "Succeeded: ") =
        outcomes.flatMap fun outcome => if outcome.isSuccess then [] else outcome.lines := by
    rw [List.filter_flatMap]
    apply List.flatMap_congr
    intro outcome hmem
    obtain ⟨testcase, htold⟩ := htold outcome hmem
    exact htold.filter_not_succeeded
  rw [List.filter_append, hrest, List.filter_cons, hlast]
  rfl

/-- A plain report of loaded testcases has, in their order, the line of each success, the two lines
of each failure, of which the second is read back to the tree, and a last line with their numbers.
No line but these starts as that of a success or a failure does.  A quiet report leaves out the
lines of successes and nothing else.  A plain listing has two lines for each testcase, unless the
name of a source has a line feed. -/
theorem report_lines {sources : List Source} {testcases : List Testcase}
    (hloaded : ∀ testcase ∈ testcases, ∃ source ∈ sources, ∃ loaded,
      Suite.load source = .ok loaded ∧ testcase ∈ loaded.testcases)
    {s : States} (hs : States.empty.Leads s) :
    let outcomes := (calculator.runAll testcases s).1
    let successes := outcomes.countP (·.isSuccess)
    let failures := outcomes.countP (!·.isSuccess)
    let lines := outcomes.flatMap Outcome.lines ++ [countLine successes failures]
    testcases.Forall₂ (fun testcase outcome => testcase.Told outcome.isSuccess outcome.lines)
        outcomes ∧
      successes + failures = testcases.length ∧
      HasLines (Report.run false false ⟨outcomes⟩) lines ∧
      HasLines (Report.run false true ⟨outcomes⟩)
        (lines.filter fun line => !line.startsWith "Succeeded: ") ∧
      lines.countP (·.startsWith "Succeeded: ") = successes ∧
      lines.countP (·.startsWith "FAILED: ") = failures ∧
      (∀ testcase ∈ testcases, Dump.read (Dump.ofTree testcase.root) = .ok testcase.root) ∧
      ((∀ source ∈ sources, Unbroken source.name) → HasLines (Report.listing false testcases)
        (testcases.flatMap fun testcase => [testcase.headline, Dump.ofTree testcase.root])) := by
  intro outcomes successes failures lines
  have hfrom : ∀ testcase ∈ testcases, ∃ source ∈ sources, Suite.FromLines source testcase := by
    intro testcase hmem
    obtain ⟨source, hsource, loaded, hload, htestcase⟩ := hloaded testcase hmem
    exact ⟨source, hsource, Suite.fromLines_of_load hload htestcase⟩
  have hruns := told_runAll (fun testcase hmem => (hfrom testcase hmem).imp fun _ h => h.2) hs
  have htold : ∀ outcome ∈ outcomes, ∃ testcase : Testcase,
      testcase.Told outcome.isSuccess outcome.lines :=
    forall_of_forall₂ hruns fun testcase _ h => ⟨testcase, h.1⟩
  have hunbroken : ∀ outcome ∈ outcomes, ∀ line ∈ outcome.lines, Unbroken line :=
    forall_of_forall₂ hruns fun _ _ h => h.2
  have hlines : ∀ line ∈ lines, Unbroken line := by
    refine List.forall_mem_append.2 ⟨?_, ?_⟩
    · exact List.forall_mem_flatMap.2 hunbroken
    · exact List.forall_mem_singleton.2 (unbroken_countLine successes failures)
  have hlast := startsWith_countLine successes failures
  have hsucceeded := startsWith_eq_false hlast "Succeeded: " (by decide) (by decide)
  have hfailed := startsWith_eq_false hlast "FAILED: " (by decide) (by decide)
  refine ⟨hruns.imp fun _ _ h => h.1, ?_, ?_, ?_, countP_lines (fun outcome hmem => ?_) hsucceeded,
    countP_lines (fun outcome hmem => ?_) hfailed, fun testcase hmem => ?_, fun hnames => ?_⟩
  · have hcount := (Summary.mk outcomes).succeeded_add_failed
    rw [Summary.failed_eq_countP] at hcount
    exact hcount.trans hruns.length_eq.symm
  · rw [run_eq Outcome.report_loud]
    exact hasLines_stack hlines
  · rw [run_eq Outcome.report_quiet, ← filter_lines htold hsucceeded]
    exact hasLines_stack fun line hmem => hlines line (List.mem_of_mem_filter hmem)
  · obtain ⟨testcase, htold⟩ := htold outcome hmem
    exact htold.countP_succeeded
  · obtain ⟨testcase, htold⟩ := htold outcome hmem
    exact htold.countP_failed
  · obtain ⟨source, _, hlines⟩ := hfrom testcase hmem
    exact Dump.read_render_of_fromTags hlines.fromTags fun _ => Dump.quotable_none
  · rw [listing_eq]
    apply hasLines_stack
    refine List.forall_mem_flatMap.2 fun testcase hmem => ?_
    obtain ⟨source, hsource, hlines⟩ := hfrom testcase hmem
    have hfile : Unbroken testcase.origin.file := by
      rw [hlines.file]
      exact hnames source hsource
    have hdump : Unbroken (Dump.ofTree testcase.root) := Dump.unbroken_render hlines.writable nofun
    rw [List.forall_mem_cons, List.forall_mem_singleton]
    exact ⟨Testcase.unbroken_headline hlines.writable hfile, hdump⟩

/-- A testcase without a tree, which is what it asks for, and one whose expected text is no
number. -/
theorem report_lines_two :
    let source : Source := ⟨"two.xml",
      "<Testcase name=\"nothing\" cannotProduce=\"Int\"/>\n" ++
      "<Testcase name=\"three\" type=\"Int\" expected=\"three\">\n" ++
      " <Node op=\"IntLiteral\" content=\"3\"/>\n</Testcase>\n"⟩
    ∃ loaded, Suite.load source = .ok loaded ∧ States.empty.Leads .empty ∧
      Unbroken source.name ∧ ∃ reason dump,
        HasLines (Report.run false false ⟨(calculator.runAll loaded.testcases .empty).1⟩)
          ["Succeeded: nothing", "FAILED: three, " ++ reason, dump,
            "Test summary: 2 total, 1 succeeded, 1 failed"] := by
  intro source
  have hsummaries : (Suite.load source).toOption.map (fun loaded => loaded.testcases.map
      fun testcase => (testcase.name, testcase.expectation, testcase.root.isNone)) =
        some [("nothing", .cannotProduce .int, true), ("three", .value .int "three", false)] := by
    decide +kernel
  obtain ⟨loaded, hloaded, hmap⟩ := Option.map_eq_some_iff.1 hsummaries
  have hload : Suite.load source = .ok loaded := toOption_eq_some.1 hloaded
  obtain ⟨nothing, rest, hrest, hnothing, hothers⟩ := List.map_eq_cons_iff.1 hmap
  obtain ⟨three, rfl, hthree⟩ := List.map_eq_singleton_iff.1 hothers
  obtain ⟨hname, hexpects, hroot⟩ : nothing.name = "nothing" ∧
      nothing.expectation = .cannotProduce .int ∧ nothing.root.isNone = true := by
    simpa only [Prod.mk.injEq] using hnothing
  obtain ⟨hname', hexpects', _⟩ : three.name = "three" ∧
      three.expectation = .value .int "three" ∧ three.root.isNone = false := by
    simpa only [Prod.mk.injEq] using hthree
  let first := (calculator.run nothing .empty).1
  let second := (calculator.run three (calculator.run nothing .empty).2).1
  have hruns : (calculator.runAll loaded.testcases .empty).1 = [first, second] := by
    rw [hrest, Reducer.runAll_cons, Reducer.runAll_cons]
    rfl
  have hfirst : first.isSuccess = true := by
    simp only [first]
    rw [Reducer.run_fst, Testcase.outcome, hexpects, Option.isNone_iff_eq_none.1 hroot]
    rfl
  have hsecond : second.isSuccess = false := by
    -- No value is denoted by a text that spells no number.
    simp only [second]
    rw [Reducer.run_fst, Testcase.outcome, hexpects']
    dsimp only [Testcase.judgeResult]
    split
    next actual _ => cases actual <;> rfl
    next => rfl
  have hall : ∀ testcase ∈ loaded.testcases, ∃ source' ∈ [source], ∃ loaded',
      Suite.load source' = .ok loaded' ∧ testcase ∈ loaded'.testcases :=
    fun testcase hmem => ⟨source, List.mem_singleton_self _, loaded, hload, hmem⟩
  obtain ⟨htold, _, hloud, _⟩ := report_lines hall .refl
  rw [hruns, hrest, List.forall₂_cons, List.forall₂_cons, hfirst, hsecond] at htold
  obtain ⟨hlines, hlines', _⟩ := htold
  generalize hshown : first.lines = shown at hlines
  generalize hshown' : second.lines = shown' at hlines'
  cases hlines with
  | succeeded =>
      cases hlines' with
      | @failed reason dump _ _ =>
          refine ⟨loaded, hload, .refl, by decide, reason, dump, ?_⟩
          simp only [hruns, List.flatMap_cons, List.flatMap_nil, List.countP_cons, List.countP_nil,
            hfirst, hsecond, hshown, hshown', hname, hname'] at hloud
          rw [hruns]
          exact hloud

end TreeAssay
