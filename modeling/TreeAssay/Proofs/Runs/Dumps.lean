import TreeAssay.Proofs.Runs.Expectations
import TreeAssay.Proofs.Suite.Loaded
/-!
# Printed trees are read back

The nodes of a loaded testcase are what the attributes of some tags say, like those of a
tree that a dump was read back to.  So nothing in a tree that can be printed stands in the
way of reading it back, and neither do the numbers of states.
-/

namespace TreeAssay

theorem quotable_state (labels : Labels StateId) (id : Nat) :
    Dump.Quotable ((labels.get? id).map toString) := by
  intro text htext
  obtain ⟨state, _, rfl⟩ := Option.map_eq_some_iff.1 htext
  exact Decimal.quote_notMem_ofNat state.number

/-- The only dump that an outcome can show is the one it is given. -/
theorem Testcase.eq_of_dump?_outcome {testcase : Testcase} {dump : Unit → String}
    {reduce : Kind → Except ReductionError Value} {canProduce : Kind → Bool} {d : String}
    (h : (testcase.outcome dump reduce canProduce).dump? = some d) : d = dump () := by
  have hended := testcase.ended_outcome dump reduce canProduce
  generalize testcase.outcome dump reduce canProduce = outcome at h hended
  cases hended <;> cases h <;> rfl

/-- The tree of a loaded testcase, or its absence, is read back from its dump and from the
dump that a failure shows, whatever states the calculator starts from.  Printing what was
read from any text and reading it again changes nothing. -/
theorem read_printed :
    (∀ source loaded, Suite.load source = .ok loaded → ∀ testcase ∈ loaded.testcases,
        Dump.read (Dump.ofTree testcase.root) = .ok testcase.root ∧
          ∀ s dump, (calculator.run testcase s).1.dump? = some dump →
            Dump.read dump = .ok testcase.root) ∧
      ∀ text tree, Dump.read text = .ok tree → Dump.read (Dump.ofTree tree) = .ok tree := by
  refine ⟨fun source loaded hload testcase hmem => ⟨?_, ?_⟩, ?_⟩
  · exact Dump.read_render_of_fromTags (Suite.fromLines_of_load hload hmem).fromTags
      fun _ => Dump.quotable_none
  · intro s dump hdump
    rw [Reducer.run_fst] at hdump
    rw [Testcase.eq_of_dump?_outcome hdump]
    exact Dump.read_render_of_fromTags (Suite.fromLines_of_load hload hmem).fromTags
      (quotable_state _)
  · rintro text tree hread
    refine Dump.read_render_of_fromTags ?_ fun _ => Dump.quotable_none
    rintro t rfl
    exact Dump.fromTags_of_read hread

/-- A failure whose text could be taken for markup. -/
theorem read_printed_failure :
    let source : Source := ⟨"one.xml",
      "<Testcase type=\"Int\" expected=\"three\">\n" ++
      " <Node op=\"StringLiteral\" content=\"<Null/>\"/>\n</Testcase>\n"⟩
    let text := "<Negate  state=\"x\"> <IntLiteral content=\"+07\" /></Negate>\n"
    (∃ loaded testcase dump, Suite.load source = .ok loaded ∧ testcase ∈ loaded.testcases ∧
      (calculator.run testcase .empty).1.dump? = some dump ∧
      Dump.read (Dump.ofTree testcase.root) = .ok testcase.root ∧
      Dump.read dump = .ok testcase.root) ∧
    ∃ tree, Dump.read text = .ok tree ∧ Dump.read (Dump.ofTree tree) = .ok tree := by
  intro source text
  have hexpectations : (Suite.load source).toOption.map
      (fun loaded => loaded.testcases.map Testcase.expectation) =
        some [.value .int "three"] := by
    decide +kernel
  have htree : (Dump.read text).toOption.isSome := by decide +kernel
  obtain ⟨loaded, hloaded, hmap⟩ := Option.map_eq_some_iff.1 hexpectations
  obtain ⟨testcase, htestcases, hexpectation⟩ := List.map_eq_singleton_iff.1 hmap
  have hload : Suite.load source = .ok loaded := toOption_eq_some.1 hloaded
  have hmem : testcase ∈ loaded.testcases := by rw [htestcases, List.mem_singleton]
  have hdump : ∃ dump, (calculator.run testcase .empty).1.dump? = some dump := by
    -- No value is denoted by a text that spells no number.
    rw [Reducer.run_fst, Testcase.outcome, hexpectation]
    dsimp only [Testcase.judgeResult]
    split
    next actual _ =>
      cases actual <;> exact ⟨_, rfl⟩
    next => exact ⟨_, rfl⟩
  obtain ⟨dump, hdump⟩ := hdump
  obtain ⟨tree, hsome⟩ := Option.isSome_iff_exists.1 htree
  have hread : Dump.read text = .ok tree := toOption_eq_some.1 hsome
  obtain ⟨hplain, hlabelled⟩ := read_printed.1 source loaded hload testcase hmem
  exact ⟨⟨loaded, testcase, dump, hload, hmem, hdump, hplain,
    hlabelled .empty dump hdump⟩, tree, hread, read_printed.2 text tree hread⟩

end TreeAssay
