import TreeAssay.Proofs.Runs.Expectations
import TreeAssay.Proofs.Suite.Written
/-!
# Literals and what is expected of them

The content of a literal and the text that is expected of it are read by different functions, and
an integer that is asked for as a text is printed by a third.  A suite of a single literal shows
that the three agree on every text that an attribute can hold.
-/

namespace TreeAssay

namespace Suite

/-- A suite whose only tree is a literal. -/
def ofLiteral (name : String) (kind : Kind) (expected : String) (op : Operation)
    (content : String) : String :=
  "<Testcase name=\"" ++ name ++ "\" type=\"" ++ kind.name ++ "\" expected=\"" ++ expected ++
    "\">\n<Node op=\"" ++ op.name ++ "\" content=\"" ++ content ++ "\"/>\n</Testcase>\n"

def literalPairs (op : Operation) (content : String) : List (String × Option String) :=
  [("op", some op.name), ("content", some content)]

variable {name expected content : String} {kind : Kind} {op : Operation}

theorem laid_feeds (tags : List (List Char)) : Laid tags (tags.flatMap (· ++ ['\n'])) := by
  induction tags with
  | nil => exact .nil
  | cons tag tags ih =>
      rw [List.flatMap_cons]
      exact @Laid.cons [] tag ['\n'] tags _ (List.all_eq_true.1 rfl) (.inl rfl) ih

theorem toList_ofLiteral :
    (ofLiteral name kind expected op content).toList =
      [startChars .testcase (Draft.pairs ⟨name, .value kind expected, none⟩) false,
        startChars .node (literalPairs op content) true, endChars .testcase].flatMap
          (· ++ ['\n']) := by
  have hname : "<Testcase name=\"".toList =
      '<' :: "Testcase".toList ++ ' ' :: "name".toList ++ ['=', '"'] := by decide
  have htype : "\" type=\"".toList = '"' :: ' ' :: "type".toList ++ ['=', '"'] := by decide
  have hexpected : "\" expected=\"".toList = '"' :: ' ' :: "expected".toList ++ ['=', '"'] := by
    decide
  have hop : "\">\n<Node op=\"".toList =
      '"' :: '>' :: '\n' :: '<' :: "Node".toList ++ ' ' :: "op".toList ++ ['=', '"'] := by decide
  have hcontent : "\" content=\"".toList = '"' :: ' ' :: "content".toList ++ ['=', '"'] := by
    decide
  have hend : "\"/>\n</Testcase>\n".toList =
      '"' :: '/' :: '>' :: '\n' :: '<' :: '/' :: "Testcase".toList ++ ['>', '\n'] := by decide
  unfold ofLiteral
  simp only [String.toList_append, hname, htype, hexpected, hop, hcontent, hend, startChars,
    endChars, literalPairs, Draft.pairs, Expectation.pairs, Attributes.pairsChars,
    Attributes.pairChars, Subject.tag, List.flatMap_cons, List.flatMap_nil, List.append_assoc,
    List.cons_append, List.nil_append, List.append_nil, Bool.false_eq_true, if_true, if_false]

section Loading

variable (hname : Attributes.IsValue name) (hexpected : Attributes.IsValue expected)
  (hcontent : Attributes.IsValue content)

include hname hexpected in
theorem writable_draft (kind : Kind) : Draft.Writable ⟨name, .value kind expected, none⟩ where
  name := hname
  expected := by
    rintro _ ⟨⟩
    exact hexpected
  built := nofun
  nodes := nofun

variable (op : Operation)

include hcontent in
theorem areWritable_literalPairs : Attributes.AreWritable (literalPairs op content) := by
  refine (Attributes.areWritable_nil.cons Dump.isName_content ?_).cons ⟨by decide, by decide⟩ ?_
  · rintro _ ⟨⟩
    exact hcontent.1
  · rintro _ ⟨⟩
    cases op <;> decide

include hcontent in
theorem feed_notMem_literalPairs : '\n' ∉ Attributes.pairsChars (literalPairs op content) := by
  have hop : '\n' ∉ op.name.toList := by
    cases op <;> decide
  apply feed_notMem_pairsChars
  simp [literalPairs, hop, hcontent.2]

variable (kind : Kind)

/-- The source has the three lines of a literal and what is expected of it. -/
structure IsLiteral (source : Source) (name : String) (kind : Kind) (expected : String)
    (op : Operation) (content : String) (first second last : Line) : Prop where
  lines : Line.ofText source.content.toList = [first, second, last]
  first : Bears first (startChars .testcase (Draft.pairs ⟨name, .value kind expected, none⟩) false)
  second : Bears second (startChars .node (literalPairs op content) true)
  last : Bears last (endChars .testcase)

include hname hexpected hcontent in
theorem exists_isLiteral (file : String) : ∃ first second last,
    IsLiteral ⟨file, ofLiteral name kind expected op content⟩ name kind expected op content
      first second last := by
  have hdraft := writable_draft hname hexpected kind
  have hbears := bears_of_laid (laid_feeds
    [startChars .testcase (Draft.pairs ⟨name, .value kind expected, none⟩) false,
      startChars .node (literalPairs op content) true, endChars .testcase]) (by
    simp only [List.forall_mem_cons, List.not_mem_nil, false_implies, implies_true, and_true]
    exact ⟨isSealed_startChars .testcase (feed_notMem_draft hdraft) false,
      isSealed_startChars .node (feed_notMem_literalPairs hcontent op) true,
      isSealed_endChars .testcase⟩)
  rw [← toList_ofLiteral] at hbears
  obtain ⟨first, _, hfirst, hbehind, hlines⟩ := List.forall₂_cons_right_iff.1 hbears
  obtain ⟨second, _, hsecond, hend, rfl⟩ := List.forall₂_cons_right_iff.1 hbehind
  obtain ⟨last, _, hlast, hnil, rfl⟩ := List.forall₂_cons_right_iff.1 hend
  obtain rfl := List.forall₂_nil_right_iff.1 hnil
  exact ⟨first, second, last, hlines, hfirst, hsecond, hlast⟩

variable {op kind} {source : Source} {first second last : Line}
  (hliteral : IsLiteral source name kind expected op content first second last)

include hname hexpected hcontent hliteral

/-- Where the content fits the operation, the suite holds the literal that it gives. -/
theorem IsLiteral.load_of_ok {leaf : Leaf} (hleaf : Leaf.ofContent op (some content) = .ok leaf) :
    ∃ testcase, load source = .ok ⟨[testcase], []⟩ ∧
      testcase.draft = ⟨name, .value kind expected, some (.leaf leaf)⟩ := by
  have henters : (Attributes.ofPairs (literalPairs op content)).Enters (.node leaf) := by
    rw [← entry_eq_ok, literalPairs, Entry.entry_pairs, hleaf]
  obtain ⟨hevent, hsilent⟩ :=
    hliteral.second.starts (areWritable_literalPairs hcontent op) (List.cons_ne_nil _ _)
  have hconveys : List.Forall₂ Conveys [first, second, last]
      [.testcase ⟨first.number, name, .value kind expected⟩ false,
        .node (.start (.node leaf) true), .endTestcase] :=
    .cons (hliteral.first.conveys_startTestcase (writable_draft hname hexpected kind))
      (.cons ⟨.start hevent henters, hsilent⟩ (.cons hliteral.last.conveys_endTestcase .nil))
  have hbody : FormsBody [.node (.start (.node leaf) true)] (some (leaf, .nil)) :=
    formsBody_of_spelled areNulls_nil (.leaf .nil)
  rw [← hliteral.lines] at hconveys
  exact ⟨_, load_of_conveys hconveys (.closed hbody .nil), rfl⟩

/-- Where the content does not fit the operation, the suite is rejected for its sake. -/
theorem IsLiteral.load_of_error {error : ContentError}
    (herror : Leaf.ofContent op (some content) = .error error) :
    ∃ rejection, load source = .error rejection ∧ rejection.error.cause = .ofContent error := by
  have htells := (hliteral.first.conveys_startTestcase (writable_draft hname hexpected kind)).tells
  have hstep : Stage.step source {} (.testcase ⟨first.number, name, .value kind expected⟩ false) =
      some ⟨[], true, [Heading.testcase source ⟨first.number, name, .value kind expected⟩]⟩ := rfl
  have hfollows := at_start.take_of_tells source htells
  rw [hstep] at hfollows
  obtain ⟨p, htake, hat⟩ := hfollows.exists_progress
  obtain ⟨indent, hindent, htext⟩ := hliteral.second
  have hpairs : Attributes.pairsChars (literalPairs op content) ≠ [] := List.cons_ne_nil _ _
  have hmark := mark_startChars hindent .node hpairs true
  have hattrs := ofTag_startChars hindent .node (areWritable_literalPairs hcontent op) true
  rw [← htext] at hmark hattrs
  obtain ⟨rejection, hreject, hcause⟩ : ∃ rejection,
      Progress.take source p second = .error rejection ∧
        rejection.error.cause = .ofContent error := by
    refine ⟨(p.heed source second (.ofPairs (literalPairs op content))).reject source
      (span second) (.ofContent error), ?_, rfl⟩
    unfold Progress.take
    rw [hmark]
    simp only [if_true]
    rw [Progress.startNode, hat.inTestcase, hattrs]
    simp only [Bool.not_true, Bool.false_eq_true, if_false]
    rw [literalPairs, Entry.entry_pairs, herror]
  have hfold : (Line.ofText source.content.toList).foldlM (Progress.take source) {} =
      .error rejection := by
    rw [hliteral.lines]
    exact foldlM_eq_error.2 ⟨[first], second, [last], p, rfl,
      foldlM_cons_eq_ok.2 ⟨p, htake, rfl⟩, hreject⟩
  exact ⟨rejection, by rw [load, hfold], hcause⟩

end Loading

end Suite

/-! ## Running a literal -/

theorem Leaf.ofContent_intLiteral_of_spells {content : String} {n : Int64}
    (h : Decimal.Spells content.toList n) :
    ofContent .intLiteral (some content) = .ok ⟨.intLiteral, some (.int n)⟩ := by
  rw [ofContent]
  simp only [Operation.isStringLiteral, Decimal.read?_eq_some.2 h]
  rfl

theorem Leaf.ofContent_intLiteral_of_not {content : String}
    (h : ¬ ∃ n, Decimal.Spells content.toList n) :
    ofContent .intLiteral (some content) = .error ⟨.intLiteral, content⟩ := by
  have hnone : Decimal.read? content.toList = none := by
    rw [Option.eq_none_iff_forall_not_mem]
    exact fun n hn => h ⟨n, Decimal.read?_eq_some.1 hn⟩
  rw [ofContent]
  simp only [Operation.isStringLiteral, hnone]
  rfl

/-- A testcase of a lone literal with a value succeeds on the texts that spell the value. -/
theorem Testcase.isSuccess_of_draft {testcase : Testcase} {name expected : String} {kind : Kind}
    {leaf : Leaf} (hdraft : testcase.draft = ⟨name, .value kind expected, some (.leaf leaf)⟩)
    (hderives : leaf.Derives 0 (fun operand => Row.nil.Derives operand) kind) {v : Value}
    (hvalue : leaf.value .nil kind = .ok v) {s : States} (hs : States.empty.Leads s) :
    (calculator.run testcase s).1.isSuccess = true ↔ v.SpelledBy expected := by
  have hroot : testcase.root = some (.plant leaf .nil) := congrArg Draft.root hdraft
  have hexpects : testcase.expectation = .value kind expected := congrArg Draft.expectation hdraft
  refine (Testcase.fit_of_plant hroot).isSuccess_iff hroot hexpects ?_ ?_ hs
  · rw [Tree.Derives, Tree.below_plant]
    exact hderives
  · rw [Tree.meaning, Tree.below_plant]
    exact hvalue

/-- A suite of an integer literal is rejected for its content if that spells no integer; if it
spells one, what may be expected is a spelling of the same integer, or its standard spelling where
a text is asked for.  A text literal is the text that is expected, character for character. -/
theorem literal_as_expected {name expected content : String} (hname : Attributes.IsValue name)
    (hexpected : Attributes.IsValue expected) (hcontent : Attributes.IsValue content)
    (file : String) {s : States} (hs : States.empty.Leads s) :
    let load (kind : Kind) (op : Operation) :=
      Suite.load ⟨file, Suite.ofLiteral name kind expected op content⟩
    let succeeds (testcase : Testcase) : Prop := (calculator.run testcase s).1.isSuccess = true
    (∀ kind, (∃ rejection, load kind .intLiteral = .error rejection ∧
        rejection.error.cause = .invalidContent "IntLiteral" content) ↔
      ¬ ∃ n, Decimal.Spells content.toList n) ∧
    (∀ n, Decimal.Spells content.toList n →
      (∃ testcase, load .int .intLiteral = .ok ⟨[testcase], []⟩ ∧
        (succeeds testcase ↔ Decimal.Spells expected.toList n)) ∧
      ∃ testcase, load .string .intLiteral = .ok ⟨[testcase], []⟩ ∧
        (succeeds testcase ↔ expected = toString n.toInt)) ∧
    ∃ testcase, load .string .stringLiteral = .ok ⟨[testcase], []⟩ ∧
      (succeeds testcase ↔ expected = content) := by
  intro load succeeds
  have hloads (kind : Kind) {op : Operation} {leaf : Leaf}
      (hleaf : Leaf.ofContent op (some content) = .ok leaf) :
      ∃ testcase, load kind op = .ok ⟨[testcase], []⟩ ∧
        testcase.draft = ⟨name, .value kind expected, some (.leaf leaf)⟩ := by
    obtain ⟨first, second, last, hliteral⟩ :=
      Suite.exists_isLiteral hname hexpected hcontent op kind file
    exact hliteral.load_of_ok hname hexpected hcontent hleaf
  refine ⟨fun kind => ⟨?_, fun hnot => ?_⟩, fun n hn => ⟨?_, ?_⟩, ?_⟩
  · rintro ⟨rejection, hreject, _⟩ ⟨n, hn⟩
    obtain ⟨testcase, hload, _⟩ := hloads kind (Leaf.ofContent_intLiteral_of_spells hn)
    rw [hload] at hreject
    cases hreject
  · obtain ⟨first, second, last, hliteral⟩ :=
      Suite.exists_isLiteral hname hexpected hcontent .intLiteral kind file
    exact hliteral.load_of_error hname hexpected hcontent (Leaf.ofContent_intLiteral_of_not hnot)
  · obtain ⟨testcase, hload, hdraft⟩ := hloads .int (Leaf.ofContent_intLiteral_of_spells hn)
    exact ⟨testcase, hload, Testcase.isSuccess_of_draft (v := .int n) hdraft
      (.intLiteral rfl rfl) rfl hs⟩
  · obtain ⟨testcase, hload, hdraft⟩ := hloads .string (Leaf.ofContent_intLiteral_of_spells hn)
    exact ⟨testcase, hload, Testcase.isSuccess_of_draft (v := .text (toString n.toInt)) hdraft
      (.format (.intLiteral rfl rfl)) rfl hs⟩
  · have htext : Leaf.ofContent .stringLiteral (some content) = .ok (.stringLiteral content) := rfl
    obtain ⟨testcase, hload, hdraft⟩ := hloads .string htext
    exact ⟨testcase, hload, Testcase.isSuccess_of_draft (v := .text content) hdraft
      (.stringLiteral rfl rfl) rfl hs⟩

/-- A sign and zeros in front do not matter to an integer.  They matter to a text, and a blank
matters to both. -/
theorem literal_as_expected_seven :
    let load (kind : Kind) (op : Operation) (content : String) :=
      Suite.load ⟨"seven.xml", Suite.ofLiteral "n" kind "7" op content⟩
    let succeeds (testcase : Testcase) : Prop :=
      (calculator.run testcase .empty).1.isSuccess = true
    (∃ testcase, load .int .intLiteral "+007" = .ok ⟨[testcase], []⟩ ∧ succeeds testcase) ∧
      (∃ testcase, load .string .intLiteral "+007" = .ok ⟨[testcase], []⟩ ∧ succeeds testcase) ∧
      (∃ testcase, load .string .stringLiteral "+007" = .ok ⟨[testcase], []⟩ ∧
        ¬ succeeds testcase) ∧
      ∃ rejection, load .int .intLiteral " 7" = .error rejection ∧
        rejection.error.cause = .invalidContent "IntLiteral" " 7" := by
  intro load succeeds
  have hname : Attributes.IsValue "n" := ⟨by decide, by decide⟩
  have hexpected : Attributes.IsValue "7" := ⟨by decide, by decide⟩
  have hsigned : Attributes.IsValue "+007" := ⟨by decide, by decide⟩
  have hblank : Attributes.IsValue " 7" := ⟨by decide, by decide⟩
  have hspells : Decimal.Spells "+007".toList 7 := Decimal.read?_eq_some.1 (by decide)
  have hnot : ¬ ∃ n, Decimal.Spells " 7".toList n := by
    rintro ⟨n, hn⟩
    have hread := Decimal.read?_eq_some.2 hn
    rw [show Decimal.read? " 7".toList = none by decide] at hread
    cases hread
  obtain ⟨_, hinteger, htext⟩ :=
    literal_as_expected hname hexpected hsigned "seven.xml" .refl
  obtain ⟨⟨first, hfirst, hsame⟩, second, hsecond, hshown⟩ := hinteger 7 hspells
  obtain ⟨third, hthird, hkept⟩ := htext
  obtain ⟨hrejected, _⟩ := literal_as_expected hname hexpected hblank "seven.xml" .refl
  exact ⟨⟨first, hfirst, hsame.2 (Decimal.read?_eq_some.1 (by decide))⟩,
    ⟨second, hsecond, hshown.2 (by decide)⟩, ⟨third, hthird, mt hkept.1 (by decide)⟩,
    (hrejected .int).2 hnot⟩

end TreeAssay
