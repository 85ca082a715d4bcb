import TreeAssay.Proofs.Markup.Classification
import TreeAssay.Proofs.Suite.Retelling
/-!
# What is warned about

A suite that is loaded is warned about line by line: a tag of a testcase or a node that neither
starts nor ends is passed over, and attributes may break off.  The tags that are passed over do
nothing else, so without their lines the suite has the same testcases, on other lines.
-/

namespace TreeAssay.Suite

/-! ## Lines to warn about -/

/-- What there is to be said against a line that names a tag of a subject. -/
inductive Concern.Against (line : List Char) : Concern → Prop
  | unreadable {subject : Subject} : Tag.name? line = some subject.tag.toList →
      ¬ Tag.BeginsEnd line → ¬ Tag.Delimited line subject.tag.toList →
      Against line (.unreadable subject)
  | malformed {subject : Subject} : Tag.name? line = some subject.tag.toList →
      Tag.Delimited line subject.tag.toList → (Attributes.ofTag line).malformed →
      Against line (.malformedAttributes (Attributes.ofTag line).size)

theorem Subject.canName (subject : Subject) : Tag.CanName subject.tag.toList := by
  cases subject <;> exact ⟨by decide, by decide, by decide, by decide⟩

theorem Subject.ofName?_eq_some {name : List Char} {subject : Subject} :
    ofName? name = some subject ↔ name = subject.tag.toList := by
  constructor
  · intro h
    have hfound := List.find?_some h
    exact of_decide_eq_true hfound
  · rintro rfl
    cases subject <;> decide

/-- A line names a tag of a subject, or it says nothing. -/
theorem exists_name_or_foreign (line : List Char) :
    (∃ subject : Subject, Tag.name? line = some subject.tag.toList) ∨
      Mark.ofLine line = .foreign := by
  unfold Mark.ofLine
  cases Tag.name? line with
  | none => exact .inr rfl
  | some name =>
      cases hsubject : Subject.ofName? name with
      | none =>
          right
          simp only [hsubject]
      | some subject => exact .inl ⟨subject, congrArg some (Subject.ofName?_eq_some.1 hsubject)⟩

section Named

variable {line : List Char} {subject : Subject} {concern : Concern}

theorem Mark.ofLine_of_name? (h : Tag.name? line = some subject.tag.toList) :
    Mark.ofLine line = match Tag.form? line subject.tag.toList with
      | none => .unreadable subject
      | some form => .tag subject form := by
  have hsubject : Subject.ofName? subject.tag.toList = some subject :=
    Subject.ofName?_eq_some.2 rfl
  cases hform : Tag.form? line subject.tag.toList with
  | none => simp [Mark.ofLine, h, hsubject, hform]
  | some form => simp [Mark.ofLine, h, hsubject, hform]

theorem Concern.ofLine?_of_beginsEnd (h : Tag.name? line = some subject.tag.toList)
    (hend : Tag.BeginsEnd line) : ofLine? line = none := by
  have hform := (Tag.form?_eq_closing_iff h).2 hend
  rw [ofLine?, Mark.ofLine_of_name? h, hform]

theorem Concern.ofLine?_of_delimited (h : Tag.name? line = some subject.tag.toList)
    (hdelimited : Tag.Delimited line subject.tag.toList) :
    ofLine? line = ofAttributes? (.ofTag line) := by
  have hform := Tag.form?_of_delimited hdelimited
  rw [ofLine?, Mark.ofLine_of_name? h, hform]
  cases Tag.endsSelfClosed line <;> rfl

theorem Mark.ofLine_of_not_delimited (h : Tag.name? line = some subject.tag.toList)
    (hend : ¬ Tag.BeginsEnd line) (hnot : ¬ Tag.Delimited line subject.tag.toList) :
    Mark.ofLine line = .unreadable subject := by
  rw [Mark.ofLine_of_name? h, (Tag.form?_eq_none_iff hend).2 hnot]

theorem Concern.ofAttributes?_eq_some {attrs : Attributes} :
    ofAttributes? attrs = some concern ↔
      attrs.malformed ∧ concern = .malformedAttributes attrs.size := by
  rw [ofAttributes?]
  split
  next h => simp [h, eq_comm]
  next h => simp [h]

/-- What is said against a line is what there is to be said against it. -/
theorem Concern.ofLine?_eq_some : ofLine? line = some concern ↔ Against line concern := by
  constructor
  · intro h
    rcases exists_name_or_foreign line with ⟨subject, hname⟩ | hforeign
    · by_cases hend : Tag.BeginsEnd line
      · rw [ofLine?_of_beginsEnd hname hend] at h
        cases h
      · by_cases hdelimited : Tag.Delimited line subject.tag.toList
        · rw [ofLine?_of_delimited hname hdelimited, ofAttributes?_eq_some] at h
          obtain ⟨hmalformed, rfl⟩ := h
          exact .malformed hname hdelimited hmalformed
        · rw [ofLine?, Mark.ofLine_of_not_delimited hname hend hdelimited] at h
          cases h
          exact .unreadable hname hend hdelimited
    · rw [ofLine?, hforeign] at h
      cases h
  · intro h
    cases h with
    | unreadable hname hend hnot => rw [ofLine?, Mark.ofLine_of_not_delimited hname hend hnot]
    | malformed hname hdelimited hmalformed =>
        rw [ofLine?_of_delimited hname hdelimited, ofAttributes?_eq_some]
        exact ⟨hmalformed, rfl⟩

theorem Concern.Against.unique {other : Concern} (h : Against line concern)
    (h' : Against line other) : concern = other :=
  Option.some.inj ((ofLine?_eq_some.2 h).symm.trans (ofLine?_eq_some.2 h'))

/-- Nothing is said against a line that begins with `</`. -/
theorem Concern.Against.not_beginsEnd (h : Against line concern) : ¬ Tag.BeginsEnd line := by
  cases h with
  | unreadable _ hend _ => exact hend
  | @malformed subject _ hdelimited _ => exact hdelimited.not_beginsEnd subject.canName

end Named

/-! ## The warnings of a suite -/

/-- The warnings about the lines, in order: one for each line with something to be said against
it, and none for any other. -/
inductive Warned (file : String) : List Line → List Warning → Prop
  | nil : Warned file [] []
  | quiet {line lines warnings} : (∀ concern, ¬ Concern.Against line.text concern) →
      Warned file lines warnings → Warned file (line :: lines) warnings
  | warned {line lines concern warnings} : Concern.Against line.text concern →
      Warned file lines warnings →
      Warned file (line :: lines) (⟨file, line.number, concern⟩ :: warnings)

theorem warned_about (source : Source) (lines : List Line) :
    Warned source.name lines
      (lines.flatMap fun line => Warning.about source line (Concern.ofLine? line.text)) := by
  induction lines with
  | nil => exact .nil
  | cons line lines ih =>
      rw [List.flatMap_cons]
      cases hconcern : Concern.ofLine? line.text with
      | none =>
          refine .quiet (fun concern hagainst => ?_) ih
          cases hconcern.symm.trans (Concern.ofLine?_eq_some.2 hagainst)
      | some concern => exact .warned (Concern.ofLine?_eq_some.1 hconcern) ih

theorem warned_of_load {source : Source} {loaded : Loaded} (hload : load source = .ok loaded) :
    Warned source.name (Line.ofText source.content.toList) loaded.warnings := by
  obtain ⟨p, _, hfold, _, _, rfl⟩ := exists_progress_of_load hload
  rw [reverse_warnings_of_foldlM hfold]
  exact warned_about source _

/-! ## Lines that are passed over -/

/-- The line is a tag of a testcase or a node that is passed over. -/
def Unreadable (line : List Char) : Prop :=
  ∃ subject, Concern.Against line (.unreadable subject)

def Mark.isUnreadable : Mark → Bool
  | .unreadable _ => true
  | .foreign | .tag _ _ => false

theorem unreadable_iff {line : List Char} : (Mark.ofLine line).isUnreadable ↔ Unreadable line := by
  have hconcern (subject : Subject) : Concern.ofLine? line = some (.unreadable subject) ↔
      Concern.Against line (.unreadable subject) := Concern.ofLine?_eq_some
  simp only [Unreadable, ← hconcern]
  unfold Concern.ofLine?
  cases Mark.ofLine line with
  | foreign => simp [Mark.isUnreadable]
  | unreadable subject => simp [Mark.isUnreadable]
  | tag subject form => cases form <;> simp [Mark.isUnreadable, Concern.ofAttributes?]

instance : DecidablePred Unreadable := fun _ => decidable_of_iff _ unreadable_iff

theorem Unreadable.event? {line : List Char} (h : Unreadable line) :
    Event.ofLine? line = none := by
  rw [← event?_ofLine]
  cases hmark : Mark.ofLine line with
  | foreign => rfl
  | unreadable subject => rfl
  | tag subject form =>
      have hunreadable := unreadable_iff.2 h
      rw [hmark] at hunreadable
      cases hunreadable

/-- The text without the lines that are passed over. -/
def readable (text : List Char) : List Char :=
  ((Line.pieces text).filter fun piece => ¬ Unreadable (Line.trimEnd piece)).flatten

/-- The number that a line has in the text without the lines that are passed over. -/
def readableNumber (text : List Char) (number : Nat) : Nat :=
  ((Line.pieces text).take number).countP fun piece => ¬ Unreadable (Line.trimEnd piece)

section Rows

variable {body : List Char}

theorem readable_last (h : '\n' ∉ body) :
    readable body = if Unreadable (Line.trimEnd body) then [] else body := by
  by_cases hne : body = []
  · subst hne
    rfl
  · rw [readable, Line.pieces_last h hne]
    by_cases hunreadable : Unreadable (Line.trimEnd body) <;> simp [hunreadable]

theorem readable_feed (h : '\n' ∉ body) (rest : List Char) :
    readable (body ++ '\n' :: rest) =
      if Unreadable (Line.trimEnd body) then readable rest else body ++ '\n' :: readable rest := by
  rw [readable, Line.pieces_cons h, List.filter_cons, Line.trimEnd_feed]
  by_cases hunreadable : Unreadable (Line.trimEnd body)
  · simp [hunreadable, readable]
  · simp [hunreadable, readable]

theorem readableNumber_last (h : '\n' ∉ body) (hne : body ≠ []) :
    readableNumber body 1 = if Unreadable (Line.trimEnd body) then 0 else 1 := by
  rw [readableNumber, Line.pieces_last h hne]
  by_cases hunreadable : Unreadable (Line.trimEnd body) <;> simp [hunreadable]

theorem readableNumber_feed (h : '\n' ∉ body) (rest : List Char) (number : Nat) :
    readableNumber (body ++ '\n' :: rest) (number + 1) =
      readableNumber rest number + if Unreadable (Line.trimEnd body) then 0 else 1 := by
  rw [readableNumber, Line.pieces_cons h, List.take_succ_cons, List.countP_cons, Line.trimEnd_feed]
  by_cases hunreadable : Unreadable (Line.trimEnd body) <;> simp [hunreadable, readableNumber]

end Rows

/-- The line has the text of the other, on a line with another number. -/
structure Line.Moved (number : Nat → Nat) (line line' : Line) : Prop where
  text : line'.text = line.text
  number : line'.number = number line.number

theorem forall₂_shift {number number' : Nat → Nat} {bytes bytes' extra : Nat}
    {lines lines' : List Line} (h : List.Forall₂ (Line.Moved number) lines lines')
    (hnumber : ∀ n, number' (n + 1) = number n + extra) :
    List.Forall₂ (Line.Moved number') (lines.map (Line.shift 1 bytes))
      (lines'.map (Line.shift extra bytes')) := by
  rw [List.forall₂_map_left_iff, List.forall₂_map_right_iff]
  exact h.imp fun line line' hline =>
    ⟨hline.text, (congrArg (· + extra) hline.number).trans (hnumber _).symm⟩

/-- The lines that are not passed over are those of the text without the others. -/
theorem lines_readable (text : List Char) :
    List.Forall₂ (Line.Moved (readableNumber text))
      ((Line.ofText text).filter fun line => ¬ Unreadable line.text)
      (Line.ofText (readable text)) := by
  induction text using Line.feed_induction with
  | hlast body h =>
      by_cases hne : body = []
      · subst hne
        exact .nil
      · rw [readable_last h, Line.ofText_last h hne]
        by_cases hunreadable : Unreadable (Line.trimEnd body)
        · simp [hunreadable, Line.ofText, Line.pieces, Line.cut, Line.locate]
        · have hnumber := readableNumber_last h hne
          rw [if_neg hunreadable] at hnumber ⊢
          rw [Line.ofText_last h hne]
          simp only [hunreadable, not_false_eq_true, decide_true, List.filter_cons_of_pos,
            List.filter_nil]
          exact .cons ⟨rfl, hnumber.symm⟩ .nil
  | hfeed body rest h ih =>
      have hnumber := readableNumber_feed h rest
      have hmoved (bytes : Nat) :
          ((Line.ofText rest).map (Line.shift 1 bytes)).filter
              (fun line => ¬ Unreadable line.text) =
            ((Line.ofText rest).filter fun line => ¬ Unreadable line.text).map
              (Line.shift 1 bytes) :=
        List.filter_map
      rw [readable_feed h, Line.ofText_cons h]
      by_cases hunreadable : Unreadable (Line.trimEnd body)
      · simp only [if_pos hunreadable] at hnumber ⊢
        rw [List.filter_cons_of_neg (by simpa using hunreadable), hmoved]
        have hsame : (Line.ofText (readable rest)).map (Line.shift 0 0) =
            Line.ofText (readable rest) := List.map_id _
        rw [← hsame]
        exact forall₂_shift ih hnumber
      · simp only [if_neg hunreadable] at hnumber ⊢
        rw [List.filter_cons_of_pos (by simpa using hunreadable), hmoved, Line.ofText_cons h]
        exact .cons ⟨rfl, (hnumber 0).symm⟩ (forall₂_shift ih hnumber)

/-! ## Tokens on other lines -/

def Token.renumber (number : Nat → Nat) : Token → Token
  | .testcase heading selfClosing =>
    .testcase { heading with line := number heading.line } selfClosing
  | .endTestcase => .endTestcase
  | .node st => .node st

def Stage.renumber (number : Nat → Nat) (stage : Stage) : Stage :=
  { stage with testcases := stage.testcases.map (Testcase.renumber number) }

section Renumbered

variable {number : Nat → Nat} {part whole : Source}

theorem Tells.renumber {line line' : Line} {token : Token} (h : Tells line token)
    (hmoved : Line.Moved number line line') : Tells line' (token.renumber number) := by
  have htext := hmoved.text
  cases h with
  | @testcase attrs selfClosing expectation hevent hexpects =>
      rw [← htext] at hevent
      have htells := Tells.testcase hevent hexpects
      rw [hmoved.number] at htells
      exact htells
  | endTestcase hevent => exact .endTestcase (htext ▸ hevent)
  | start hevent henters => exact .start (htext ▸ hevent) henters
  | close hevent => exact .close (htext ▸ hevent)

theorem Decoded.renumber {lines lines' : List Line} {tokens : List Token}
    (h : Decoded lines tokens) (hmoved : List.Forall₂ (Line.Moved number) lines lines') :
    Decoded lines' (tokens.map (Token.renumber number)) := by
  induction h generalizing lines' with
  | nil =>
      cases hmoved
      exact .nil
  | skip hnone _ ih =>
      cases hmoved with
      | cons hline hlines => exact .skip (hline.text ▸ hnone) (ih hlines)
  | take htells _ ih =>
      cases hmoved with
      | cons hline hlines => exact .take (htells.renumber hline) (ih hlines)

/-- Lines without an event may be left out. -/
theorem Decoded.filter {lines : List Line} {tokens : List Token} (h : Decoded lines tokens)
    {keep : Line → Bool} (hkeep : ∀ line, ¬ keep line → Event.ofLine? line.text = none) :
    Decoded (lines.filter keep) tokens := by
  induction h with
  | nil => exact .nil
  | @skip line lines _ hnone _ ih =>
      rw [List.filter_cons]
      split
      · exact .skip hnone ih
      · exact ih
  | @take line lines token _ htells _ ih =>
      have hkept : keep line = true := by
        by_contra hnot
        obtain ⟨subject, form, hmark⟩ := htells.exists_mark
        have hevent := hkeep line hnot
        rw [← event?_ofLine, hmark] at hevent
        cases subject <;> cases form <;> cases hevent
      rw [List.filter_cons_of_pos hkept]
      exact .take htells ih

theorem Stage.attach_renumber (stage : Stage) (result : List Frame × Option (Leaf × Row)) :
    (stage.renumber number).attach result = (stage.attach result).map (renumber number) := by
  obtain ⟨frames, completed⟩ := result
  cases completed with
  | none => rfl
  | some tree =>
      obtain ⟨_, inTestcase, testcases⟩ := stage
      cases testcases with
      | nil => rfl
      | cons last earlier =>
          simp only [attach, renumber, List.map_cons]
          by_cases hroot : last.root.isSome
          · rw [if_pos hroot, if_pos (show (last.renumber number).root.isSome from hroot)]
            rfl
          · rw [if_neg hroot, if_neg (show ¬ (last.renumber number).root.isSome from hroot)]
            rfl

theorem Stage.build_renumber (stage : Stage) (st : BuildStep) :
    (stage.renumber number).build st = (stage.build st).map (renumber number) := by
  unfold build
  cases hstep : Frame.step stage.frames st with
  | error error =>
      have hsame : Frame.step (stage.renumber number).frames st = .error error := hstep
      rw [hsame]
      rfl
  | ok result =>
      have hsame : Frame.step (stage.renumber number).frames st = .ok result := hstep
      rw [hsame]
      exact stage.attach_renumber result

/-- What a token does does not hang on the lines that the testcases so far stand on. -/
theorem Stage.step_renumber (hname : whole.name = part.name) (stage : Stage) (token : Token) :
    (stage.renumber number).step whole (token.renumber number) =
      (stage.step part token).map (renumber number) := by
  have hframes : (stage.renumber number).frames = stage.frames := rfl
  have hin : (stage.renumber number).inTestcase = stage.inTestcase := rfl
  match token with
  | .testcase heading selfClosing =>
      simp only [step, Token.renumber, hframes, hin]
      by_cases h : stage.frames.isEmpty && !stage.inTestcase
      · rw [if_pos h, if_pos h, Heading.testcase, hname]
        rfl
      · rw [if_neg h, if_neg h]
        rfl
  | .endTestcase =>
      simp only [step, Token.renumber, hframes]
      by_cases h : stage.frames.isEmpty
      · rw [if_pos h, if_pos h]
        rfl
      · rw [if_neg h, if_neg h]
        rfl
  | .node (.start e selfClosing) =>
      simp only [step, Token.renumber, hin]
      by_cases h : stage.inTestcase
      · rw [if_pos h, if_pos h]
        exact stage.build_renumber _
      · rw [if_neg h, if_neg h]
        rfl
  | .node .close => exact stage.build_renumber .close

theorem Stage.run_renumber (hname : whole.name = part.name) (stage : Stage)
    (tokens : List Token) :
    (stage.renumber number).run whole (tokens.map (Token.renumber number)) =
      (stage.run part tokens).map (renumber number) := by
  induction tokens generalizing stage with
  | nil => rfl
  | cons token tokens ih =>
      rw [List.map_cons, run_cons, run_cons, step_renumber hname]
      cases stage.step part token with
      | none => rfl
      | some next => exact ih next

end Renumbered

/-! ## Loading -/

theorem load_readable (name : String) {text : List Char} {loaded : Loaded}
    (hload : load ⟨name, .ofList text⟩ = .ok loaded) :
    ∃ loaded', load ⟨name, .ofList (readable text)⟩ = .ok loaded' ∧
      loaded'.testcases = loaded.testcases.map (Testcase.renumber (readableNumber text)) := by
  obtain ⟨tokens, inTestcase, hdecoded, hrun⟩ := load_eq_ok.1 ⟨loaded, hload, rfl⟩
  refine load_eq_ok.2 ⟨tokens.map (Token.renumber (readableNumber text)), inTestcase, ?_, ?_⟩
  · rw [String.toList_ofList] at hdecoded ⊢
    refine (hdecoded.filter fun line hline => ?_).renumber (lines_readable text)
    have hunreadable : Unreadable line.text := by simpa using hline
    exact hunreadable.event?
  · have hstart : ({} : Stage) = Stage.renumber (readableNumber text) {} := rfl
    have hname : (Source.mk name (.ofList (readable text))).name =
        (Source.mk name (.ofList text)).name := rfl
    rw [hstart, Stage.run_renumber hname, hrun, Option.map_some, Stage.renumber, List.map_reverse]

/-- A suite that is loaded has a warning for each line with something to be said against it, and
no other, in order; a line has at most one, and none where it ends something.  Without the lines
that are passed over it is loaded to the same testcases, on other lines. -/
theorem load_warned (name : String) (text : List Char) {loaded : Loaded}
    (hload : load ⟨name, .ofList text⟩ = .ok loaded) :
    Warned name (Line.ofText text) loaded.warnings ∧
      (∀ line concern concern', Concern.Against line concern → Concern.Against line concern' →
        concern = concern') ∧
      (∀ line, Tag.BeginsEnd line → ∀ concern, ¬ Concern.Against line concern) ∧
      ∃ loaded', load ⟨name, .ofList (readable text)⟩ = .ok loaded' ∧
        loaded'.testcases = loaded.testcases.map (Testcase.renumber (readableNumber text)) := by
  have hwarned := warned_of_load hload
  rw [String.toList_ofList] at hwarned
  exact ⟨hwarned, fun _ _ _ h h' => h.unique h', fun _ hend _ h => h.not_beginsEnd hend,
    load_readable name hload⟩

/-- Tags outside and inside a testcase are passed over, and an attribute of the testcase breaks
off. -/
theorem load_warned_three :
    let text := "<Node\n<Testcase type=\"Int\" name=\"a>\n<Node/>\n</Testcase>".toList
    let rest := "<Testcase type=\"Int\" name=\"a>\n</Testcase>".toList
    readable text = rest ∧ readableNumber text 2 = 1 ∧
      ∃ loaded loaded', load ⟨"a.xml", .ofList text⟩ = .ok loaded ∧
        loaded.warnings = [⟨"a.xml", 1, .unreadable .node⟩,
          ⟨"a.xml", 2, .malformedAttributes 1⟩, ⟨"a.xml", 3, .unreadable .node⟩] ∧
        Warned "a.xml" (Line.ofText text) loaded.warnings ∧
        load ⟨"a.xml", .ofList rest⟩ = .ok loaded' ∧
        loaded'.testcases = loaded.testcases.map (Testcase.renumber (readableNumber text)) := by
  intro text rest
  have hrest : readable text = rest := by decide +kernel
  obtain ⟨loaded, hload⟩ := exists_eq_ok (x := load ⟨"a.xml", .ofList text⟩) (by decide +kernel)
  have hwarnings : ((load ⟨"a.xml", .ofList text⟩).map Loaded.warnings).toOption =
      some [⟨"a.xml", 1, .unreadable .node⟩, ⟨"a.xml", 2, .malformedAttributes 1⟩,
        ⟨"a.xml", 3, .unreadable .node⟩] := by
    decide +kernel
  rw [hload] at hwarnings
  obtain ⟨hwarned, _, _, loaded', hload', htestcases⟩ := load_warned "a.xml" text hload
  rw [hrest] at hload'
  exact ⟨hrest, by decide +kernel, loaded, loaded', hload, Option.some.inj hwarnings, hwarned,
    hload', htestcases⟩

end TreeAssay.Suite
