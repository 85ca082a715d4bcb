import TreeAssay.Command.Execute
import TreeAssay.Proofs.Files.Loading
import TreeAssay.Proofs.Runs.Independence
/-!
# The outcome of the command

Nothing is run and nothing is printed unless every suite is loaded.  Then the status counts the
failures and stops counting at the greatest status that a process can have.
-/

namespace TreeAssay

theorem Summary.exitStatus_eq_zero_iff (summary : Summary) :
    summary.exitStatus = 0 ↔ ∀ outcome ∈ summary.outcomes, outcome.isSuccess = true := by
  have hmin : summary.exitStatus = 0 ↔ summary.failed = 0 := by
    rw [exitStatus]
    omega
  rw [hmin, failed_eq_countP, List.countP_eq_zero]
  simp only [Bool.not_eq_true', Bool.not_eq_false]

namespace Command

variable {files : FileSystem} {options : Options}

theorem execute_of_failsFirst {error : LoadError} (h : files.FailsFirst options.path error)
    (onTerminal : Bool) :
    ∃ warnings, execute files onTerminal options =
      { status := 1, error := some error, warnings := warnings } := by
  obtain ⟨warnings, hload⟩ := FileSystem.load_of_failsFirst h
  exact ⟨warnings, by rw [execute, hload]⟩

theorem execute_of_holdsAll {loads : List Suite.Loaded} (h : files.HoldsAll options.path loads)
    (onTerminal : Bool) :
    let performed := options.perform (options.color.colored onTerminal)
      (loads.flatMap (·.testcases))
    execute files onTerminal options =
      { status := performed.1, output := performed.2, warnings := loads.flatMap (·.warnings) } := by
  rw [execute, FileSystem.load_of_holdsAll h]

/-- The command loads everything or runs nothing.  The first failure under the path is its only
answer; without one all the testcases are listed, or run and counted. -/
theorem execute_all_or_nothing (files : FileSystem) (onTerminal : Bool) (options : Options) :
    let answer := execute files onTerminal options
    let colored := options.color.colored onTerminal
    (∀ error, files.FailsFirst options.path error →
      (∃ warnings, files.load options.path = .error ⟨error, warnings⟩) ∧
        answer.status = 1 ∧ answer.output = "" ∧ answer.error = some error) ∧
    (∀ loads, files.HoldsAll options.path loads →
      let testcases := loads.flatMap (·.testcases)
      let outcomes := (calculator.runAll testcases .empty).1
      (∃ warnings, files.load options.path = .ok ⟨testcases, warnings⟩) ∧ answer.error = none ∧
        (options.dump = true →
          answer.status = 0 ∧ answer.output = Report.listing colored testcases) ∧
        (options.dump = false →
          answer.output = Report.run colored options.quiet ⟨outcomes⟩ ∧
            testcases.Forall₂ (fun testcase outcome =>
              ∃ s, States.empty.Leads s ∧ (calculator.run testcase s).1 = outcome) outcomes ∧
            answer.status = min (outcomes.countP (!·.isSuccess)) 255 ∧ answer.status < 256 ∧
            (answer.status = 0 ↔ ∀ outcome ∈ outcomes, outcome.isSuccess = true))) ∧
    ((∃ error, files.FailsFirst options.path error) ∨
      ∃ loads, files.HoldsAll options.path loads) ∧
    ∀ paths, files.discover options.path = .ok paths →
      paths.Pairwise fun a b => Path.names a ≤ Path.names b := by
  intro answer colored
  refine ⟨fun error herror => ?_, fun loads hloads => ?_,
    FileSystem.failsFirst_or_holdsAll files options.path,
    fun paths => FileSystem.pairwise_discover⟩
  · obtain ⟨warnings, hanswer⟩ := execute_of_failsFirst herror onTerminal
    refine ⟨FileSystem.load_of_failsFirst herror, ?_⟩
    simp only [answer, hanswer, and_self]
  · have hanswer := execute_of_holdsAll hloads onTerminal
    intro testcases outcomes
    refine ⟨⟨_, FileSystem.load_of_holdsAll hloads⟩, ?_, fun hdump => ?_, fun hdump => ?_⟩
    · simp only [answer, hanswer]
    · have hperform :
          options.perform colored testcases = (0, Report.listing colored testcases) := by
        rw [Options.perform, if_pos hdump]
      simp only [answer, hanswer]
      exact ⟨congrArg Prod.fst hperform, congrArg Prod.snd hperform⟩
    · let summary : Summary := ⟨outcomes⟩
      have hperform : options.perform colored testcases =
          (summary.exitStatus, Report.run colored options.quiet summary) := by
        rw [Options.perform, if_neg (by rw [hdump]; exact Bool.false_ne_true)]
      have hstatus : answer.status = summary.exitStatus := by
        simp only [answer, hanswer]
        exact congrArg Prod.fst hperform
      have hbound : answer.status ≤ 255 := by
        rw [hstatus]
        exact Nat.min_le_right _ _
      refine ⟨?_, forall₂_runAll testcases .refl, ?_, by omega, ?_⟩
      · simp only [answer, hanswer]
        exact congrArg Prod.snd hperform
      · rw [hstatus, Summary.exitStatus, Summary.failed_eq_countP]
      · rw [hstatus]
        exact summary.exitStatus_eq_zero_iff

/-- Two suites, of which the first holds a testcase without a tree.  While the second cannot be
read, the first is not run either. -/
theorem execute_all_or_nothing_two :
    let treeless : String := "<Testcase name=\"none\" type=\"Int\" expected=\"1\"/>"
    let half : FileSystem :=
      { isFile := fun _ => false
        walk := fun _ => [.ok ⟨"s", false⟩, .ok ⟨"s/b.xml", true⟩, .ok ⟨"s/a.xml", true⟩]
        read := fun path =>
          if path = "s/a.xml" then .ok treeless.toUTF8 else .error "unknown" }
    let whole : FileSystem := { half with read := fun _ => .ok treeless.toUTF8 }
    let options : Options := ⟨"s", true, false, false, .never⟩
    let error : LoadError := .unreadable "s/b.xml" "unknown"
    half.FailsFirst "s" error ∧ (execute half true options).status = 1 ∧
      (execute half true options).output = "" ∧ (execute half true options).error = some error ∧
      (∃ loads, whole.HoldsAll "s" loads) ∧ (execute whole true options).status = 2 := by
  intro treeless half whole options error
  have hsuites : FileSystem.suites [⟨"s", false⟩, ⟨"s/b.xml", true⟩, ⟨"s/a.xml", true⟩] =
      ["s/b.xml", "s/a.xml"] := by
    decide +kernel
  have hsorted : ["s/b.xml", "s/a.xml"].mergeSort Path.le = ["s/a.xml", "s/b.xml"] := by
    have hle : Path.le "s/b.xml" "s/a.xml" = false := by decide +kernel
    simp [List.mergeSort, hle]
  have hdiscover : half.discover "s" = .ok ["s/a.xml", "s/b.xml"] := by
    rw [← hsorted, ← hsuites]
    rfl
  have hload (path : String)
      (h : (Suite.load ⟨path, treeless⟩).toOption.map (fun loaded =>
        loaded.testcases.map fun testcase => (testcase.expectation, testcase.root.isNone)) =
          some [(.value .int "1", true)]) :
      ∃ name origin warnings, Suite.load ⟨path, treeless⟩ =
        .ok ⟨[⟨name, .value .int "1", none, origin⟩], warnings⟩ := by
    obtain ⟨⟨testcases, warnings⟩, hok, htestcases⟩ := Option.map_eq_some_iff.1 h
    obtain ⟨⟨name, _, _, origin⟩, rfl, heq⟩ := List.map_eq_singleton_iff.1 htestcases
    obtain ⟨rfl, hroot⟩ := Prod.mk.inj heq
    obtain rfl := Option.isNone_iff_eq_none.1 hroot
    exact ⟨name, origin, warnings, toOption_eq_some.1 hok⟩
  obtain ⟨_, _, _, ha⟩ := hload "s/a.xml" (by decide +kernel)
  obtain ⟨_, _, _, hb⟩ := hload "s/b.xml" (by decide +kernel)
  have hfront : List.Forall₂ half.Holds ["s/a.xml"] _ := .cons (.suite rfl ha) .nil
  have hfails : half.FailsFirst "s" error := .file hdiscover hfront (.unreadable rfl)
  have hholds : whole.HoldsAll "s" _ :=
    ⟨_, hdiscover, .cons (.suite rfl ha) (.cons (.suite rfl hb) .nil)⟩
  obtain ⟨-, hstatus, houtput, herror⟩ := (execute_all_or_nothing half true options).1 error hfails
  obtain ⟨-, -, -, hrun⟩ := (execute_all_or_nothing whole true options).2.1 _ hholds
  obtain ⟨-, -, hcount, -, -⟩ := hrun rfl
  refine ⟨hfails, hstatus, houtput, herror, ⟨_, hholds⟩, ?_⟩
  rw [hcount]
  rfl

end Command

end TreeAssay
