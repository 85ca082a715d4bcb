import TreeAssay.Proofs.Reduction.Subtrees
import TreeAssay.Proofs.Runs.Independence
/-!
# Repeated runs

Once a tree is labelled, all its tables have their numbers.  Labelling it again, whatever was
labelled in between, finds these numbers and gives out none, so a run that is repeated
reports the same, down to the states in its dumps.
-/

namespace TreeAssay

/-! ## Running again -/

variable {s s' : States}

theorem Testcase.Fit.label_again {testcase : Testcase} (hfit : testcase.Fit)
    (hs : States.empty.Leads s) (hs' : (calculator.label s testcase.root .empty).1.Leads s') :
    (calculator.label s' testcase.root .empty).1 = s' ∧
      ∀ id, (calculator.label s' testcase.root .empty).2.get? id =
        (calculator.label s testcase.root .empty).2.get? id := by
  cases hroot : testcase.root with
  | none => exact ⟨rfl, fun _ => rfl⟩
  | some t =>
      rw [hroot] at hs'
      have ht := hfit t hroot
      exact ⟨hs.fst_label_again ht hs' .empty, hs.get?_label_again ht hs' fun _ _ => rfl⟩

theorem run_again {testcase : Testcase} (hfit : testcase.Fit) (hs : States.empty.Leads s)
    (hs' : (calculator.run testcase s).2.Leads s') :
    calculator.run testcase s' = ((calculator.run testcase s).1, s') := by
  rw [calculator_run_snd] at hs'
  obtain ⟨hstate, hlabels⟩ := hfit.label_again hs hs'
  have hreached : States.empty.Leads s' := (hs.label testcase.root .empty).trans hs'
  obtain ⟨hreduce, hcan⟩ := hfit.answers_congr hreached hs
  apply Prod.ext
  · simp only [Reducer.run_fst, hreduce, hcan, Dump.ofLabelled, hlabels]
  · rw [calculator_run_snd, hstate]

theorem leads_runAll (testcases : List Testcase) (s : States) :
    s.Leads (calculator.runAll testcases s).2 := by
  induction testcases generalizing s with
  | nil => exact .refl
  | cons testcase rest ih =>
      rw [Reducer.runAll_cons]
      exact (States.Leads.refl.run testcase).trans (ih _)

/-- A list of testcases that has been run reports the same when it is run again and leaves
the states as they are, whatever a calculator has labelled in between.  Among what it can
do in between is to run any testcases, these again included. -/
theorem runAll_again {testcases : List Testcase} (hfit : ∀ testcase ∈ testcases, testcase.Fit)
    (hs : States.empty.Leads s) (hs' : (calculator.runAll testcases s).2.Leads s') :
    calculator.runAll testcases s' = ((calculator.runAll testcases s).1, s') ∧
      ∀ between, (calculator.runAll testcases s).2.Leads (calculator.runAll between s').2 := by
  refine ⟨?_, fun between => hs'.trans (leads_runAll between s')⟩
  induction testcases generalizing s with
  | nil => rfl
  | cons testcase rest ih =>
      rw [Reducer.runAll_cons] at hs'
      have hfirst : (calculator.run testcase s).2.Leads s' := (leads_runAll rest _).trans hs'
      have hrest := ih (fun other hmem => hfit other (List.mem_cons_of_mem _ hmem))
        (hs.run testcase) hs'
      rw [Reducer.runAll_cons, run_again (hfit testcase List.mem_cons_self) hs hfirst, hrest,
        Reducer.runAll_cons]

/-- Two testcases, of which the first fails and shows its states, and then once more after
a testcase with another tree. -/
theorem runAll_again_between :
    let seven := Tree.plant ⟨.shortLiteral, some (.int 7)⟩ .nil
    let minus := Tree.plant ⟨.negate, none⟩ (.node ⟨.shortLiteral, some (.int 7)⟩ .nil .nil)
    let both : List Testcase :=
      [⟨"minus seven", .value .int "7", some minus, ⟨"cases", 1⟩⟩,
        ⟨"nothing", .cannotProduce .string, none, ⟨"cases", 6⟩⟩]
    let other : Testcase := ⟨"seven", .canProduce .short, some seven, ⟨"cases", 9⟩⟩
    let once := (calculator.runAll both .empty).2
    let between := (calculator.runAll [other] once).2
    (∀ testcase ∈ both, testcase.Fit) ∧ States.empty.Leads .empty ∧ once.Leads between ∧
      calculator.runAll both between = ((calculator.runAll both .empty).1, between) := by
  intro seven minus both other once between
  have hfit : ∀ testcase ∈ both, testcase.Fit := by
    intro testcase hmem
    rcases List.mem_pair.1 hmem with rfl | rfl
    · exact Testcase.fit_of_plant rfl
    · exact nofun
  have hbetween : once.Leads between := leads_runAll [other] once
  exact ⟨hfit, .refl, hbetween, (runAll_again hfit .refl hbetween).1⟩

end TreeAssay
