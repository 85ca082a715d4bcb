import TreeAssay.Proofs.Suite.Tokens
import TreeAssay.Suite.Load
/-!
# Loading, seen through tokens

What counts of a suite that is loaded half-way is a stage: the frames of the tree under
construction, whether a testcase is open, and the testcases so far.  Taking a line does
to the stage what its token does; spans and warnings never decide anything.
-/

namespace TreeAssay.Suite

structure Stage where
  frames : List Frame := []
  inTestcase : Bool := false
  /-- The testcases so far, the last one first. -/
  testcases : List Testcase := []

def Heading.testcase (source : Source) (heading : Heading) : Testcase :=
  ⟨heading.name, heading.expectation, none, ⟨source.name, heading.line⟩⟩

namespace Stage

def attach (stage : Stage) : List Frame × Option (Leaf × Row) → Option Stage
  | (frames, none) => some { stage with frames }
  | (frames, some (leaf, below)) =>
    match stage.testcases with
    | [] => none
    | last :: earlier =>
      if last.root.isSome then none
      else some ⟨frames, stage.inTestcase,
        { last with root := some (.plant leaf below) } :: earlier⟩

def build (stage : Stage) (st : BuildStep) : Option Stage :=
  (Frame.step stage.frames st).toOption.bind stage.attach

/-- Takes a token, if it fits.  Testcases start outside testcases and nodes inside, and
what starts or ends a testcase stands between trees. -/
def step (source : Source) (stage : Stage) : Token → Option Stage
  | .testcase heading selfClosing =>
    if stage.frames.isEmpty && !stage.inTestcase then
      some ⟨[], !selfClosing, heading.testcase source :: stage.testcases⟩
    else none
  | .endTestcase => if stage.frames.isEmpty then some { stage with inTestcase := false } else none
  | .node (.start e selfClosing) =>
    if stage.inTestcase then stage.build (.start e selfClosing) else none
  | .node .close => stage.build .close

end Stage

namespace Progress

structure At (p : Progress) (stage : Stage) : Prop where
  shows : p.scaffold.Shows stage.frames
  inTestcase : p.inTestcase = stage.inTestcase
  testcases : p.testcases = stage.testcases

/-- The outcome of a line is at the stage, or there is none for either. -/
inductive Follows : Except Rejection Progress → Option Stage → Prop
  | rejected {rejection} : Follows (.error rejection) none
  | taken {p stage} : p.At stage → Follows (.ok p) (some stage)

theorem Follows.exists_stage {p : Progress} {next : Option Stage} (h : Follows (.ok p) next) :
    ∃ stage, next = some stage ∧ p.At stage := by
  cases h with
  | taken hat => exact ⟨_, rfl, hat⟩

theorem Follows.exists_progress {outcome : Except Rejection Progress} {stage : Stage}
    (h : Follows outcome (some stage)) : ∃ p, outcome = .ok p ∧ p.At stage := by
  cases h with
  | taken hat => exact ⟨_, rfl, hat⟩

variable {p : Progress} {stage : Stage} (source : Source) {line : Line}

theorem At.isIdle (h : p.At stage) : p.scaffold.isIdle = stage.frames.isEmpty := by
  rw [Scaffold.isIdle, h.shows.2]
  cases stage.frames <;> rfl

theorem At.heed (h : p.At stage) (line : Line) (attrs : Attributes) :
    (p.heed source line attrs).At stage := by
  rw [Progress.heed]
  split
  · exact ⟨h.shows, h.inTestcase, h.testcases⟩
  · exact h

theorem At.attach (h : p.At stage) (span : Span) {s : Scaffold} {frames : List Frame}
    (hshows : s.Shows frames) (spans : List Span) (completed : Option (Leaf × Row)) :
    Follows (Progress.attach ⟨s, spans, p.inTestcase, p.testcases, p.warnings⟩ source span
      (completed.map fun (leaf, below) => .plant leaf below))
      (stage.attach (frames, completed)) := by
  cases completed with
  | none => exact .taken ⟨hshows, h.inTestcase, h.testcases⟩
  | some tree =>
      rw [Option.map_some, Progress.attach, Stage.attach, h.testcases]
      cases stage.testcases with
      | nil => exact .rejected
      | cons last earlier =>
          dsimp only
          by_cases hroot : last.root.isSome
          · rw [if_pos hroot, if_pos hroot]
            exact .rejected
          · rw [if_neg hroot, if_neg hroot]
            exact .taken ⟨hshows, h.inTestcase, rfl⟩

theorem At.build (h : p.At stage) (span : Span) (spans : List Span) (st : BuildStep)
    (reject : BuildError → Rejection) :
    Follows
      (match p.scaffold.step st with
      | .error error => .error (reject error)
      | .ok (scaffold, completed) =>
        Progress.attach ⟨scaffold, spans, p.inTestcase, p.testcases, p.warnings⟩ source span
          completed)
      (stage.build st) := by
  unfold Stage.build
  cases hframes : Frame.step stage.frames st with
  | error error =>
      have hstep := Scaffold.step_of_shows h.shows st
      rw [hframes] at hstep
      rw [hstep]
      exact .rejected
  | ok result =>
      obtain ⟨s, hs, hshows⟩ := Scaffold.step_ok_of_shows h.shows hframes
      rw [hs]
      exact h.attach source span hshows spans result.2

theorem At.place (h : p.At stage) (form : Tag.Form) (e : Entry) :
    Follows (p.place source line form e) (stage.build (.start e (form = .selfClosing))) := by
  have hbuild (spans : List Span) := h.build source (span line) spans
    (.start e (form = .selfClosing))
    fun error => ⟨⟨.ofBuild error, source, span line, "load"⟩, p.warnings.reverse⟩
  obtain ⟨scaffold, spans, inTestcase, testcases, warnings⟩ := p
  exact hbuild _

theorem At.endNode (h : p.At stage) : Follows (p.endNode source line) (stage.build .close) := by
  have hbuild (spans : List Span) := h.build source (span line) spans .close
    fun error => ⟨⟨.ofBuild error, source, span line, "load"⟩, p.warnings.reverse⟩
  obtain ⟨scaffold, spans, inTestcase, testcases, warnings⟩ := p
  exact hbuild _

theorem At.startNode (h : p.At stage) (form : Tag.Form) {e : Entry}
    (henters : (Attributes.ofTag line.text).Enters e) :
    Follows (p.startNode source line form)
      (stage.step source (.node (.start e (form = .selfClosing)))) := by
  unfold Progress.startNode
  rw [h.inTestcase, Stage.step]
  by_cases hin : stage.inTestcase
  · rw [if_neg (by simp [hin]), if_pos hin]
    dsimp only
    rw [entry_eq_ok.2 henters]
    exact (h.heed source line _).place source form e
  · rw [if_pos (by simp [hin]), if_neg hin]
    exact .rejected

theorem At.startTestcase (h : p.At stage) {form : Tag.Form} (hform : form ≠ .closing)
    {e : Expectation} (hexpects : (Attributes.ofTag line.text).Expects e) :
    Follows (p.startTestcase source line form)
      (stage.step source (.testcase
        ⟨line.number, ((Attributes.ofTag line.text).get? "name").getD "", e⟩
        (form = .selfClosing))) := by
  have hopen : decide (form = .opening) = !decide (form = .selfClosing) := by
    cases form <;> first | rfl | exact absurd rfl hform
  unfold Progress.startTestcase
  rw [h.isIdle, h.inTestcase, Stage.step]
  by_cases hidle : stage.frames.isEmpty
  · by_cases hin : stage.inTestcase
    · rw [if_neg (by simp [hidle]), if_pos hin, if_neg (by simp [hin])]
      exact .rejected
    · rw [if_neg (by simp [hidle]), if_neg hin, if_pos (by simp [hidle, hin])]
      have hheed := h.heed source line (Attributes.ofTag line.text)
      have hnil : stage.frames = [] := List.isEmpty_iff.1 hidle
      dsimp only
      rw [expectation_eq_ok.2 hexpects]
      refine .taken ⟨?_, hopen, ?_⟩
      · rw [← hnil]
        exact hheed.shows
      · rw [hheed.testcases]
        rfl
  · rw [if_pos (by simp [hidle]), if_neg (by simp [hidle])]
    exact .rejected

theorem At.endTestcase (h : p.At stage) :
    Follows (p.endTestcase source line) (stage.step source .endTestcase) := by
  unfold Progress.endTestcase
  rw [h.isIdle, Stage.step]
  by_cases hidle : stage.frames.isEmpty
  · rw [if_neg (by simp [hidle]), if_pos hidle]
    exact .taken ⟨h.shows, rfl, h.testcases⟩
  · rw [if_pos (by simp [hidle]), if_neg hidle]
    exact .rejected

/-! ## Taking a line -/

theorem At.take_of_none (h : p.At stage) (hevent : Event.ofLine? line.text = none) :
    ∃ p', take source p line = .ok p' ∧ p'.At stage := by
  rw [← event?_ofLine] at hevent
  unfold Progress.take
  generalize Mark.ofLine line.text = mark at hevent
  cases mark with
  | foreign => exact ⟨p, rfl, h⟩
  | unreadable subject => exact ⟨_, rfl, h.shows, h.inTestcase, h.testcases⟩
  | tag subject form => cases subject <;> cases form <;> cases hevent

/-- Taking a line that says a token does to the stage what the token does. -/
theorem At.take_of_tells (h : p.At stage) {token : Token} (htells : Tells line token) :
    Follows (take source p line) (stage.step source token) := by
  obtain ⟨subject, form, hmark⟩ := htells.exists_mark
  have hevent := event?_ofLine line.text
  unfold Progress.take
  rw [hmark] at hevent ⊢
  cases htells with
  | testcase htext hexpects =>
      rw [htext] at hevent
      cases subject <;> cases form <;> cases hevent
      · exact h.startTestcase source (by decide) hexpects
      · exact h.startTestcase source (by decide) hexpects
  | endTestcase htext =>
      rw [htext] at hevent
      cases subject <;> cases form <;> cases hevent
      exact h.endTestcase source
  | start htext henters =>
      rw [htext] at hevent
      cases subject <;> cases form <;> cases hevent
      · exact h.startNode source .opening henters
      · exact h.startNode source .selfClosing henters
  | close htext =>
      rw [htext] at hevent
      cases subject <;> cases form <;> cases hevent
      exact h.endNode source

variable {source}

theorem expects_of_startTestcase {p p' : Progress} {form : Tag.Form}
    (h : p.startTestcase source line form = .ok p') :
    ∃ e, (Attributes.ofTag line.text).Expects e := by
  unfold Progress.startTestcase at h
  split at h
  next => cases h
  next =>
    split at h
    next => cases h
    next =>
      dsimp only at h
      split at h
      next => cases h
      next e he => exact ⟨e, expectation_eq_ok.1 he⟩

theorem enters_of_startNode {p p' : Progress} {form : Tag.Form}
    (h : p.startNode source line form = .ok p') : ∃ e, (Attributes.ofTag line.text).Enters e := by
  unfold Progress.startNode at h
  split at h
  next => cases h
  next =>
    dsimp only at h
    split at h
    next => cases h
    next e he => exact ⟨e, entry_eq_ok.1 he⟩

/-- A line that is taken says a token, if it has an event at all. -/
theorem tells_of_take {p p' : Progress} (h : take source p line = .ok p') :
    Event.ofLine? line.text = none ∨ ∃ token, Tells line token := by
  have hevent := event?_ofLine line.text
  unfold Progress.take at h
  generalize Mark.ofLine line.text = mark at h hevent
  match mark with
  | .foreign => exact .inl hevent.symm
  | .unreadable _ => exact .inl hevent.symm
  | .tag .testcase .closing => exact .inr ⟨_, .endTestcase hevent.symm⟩
  | .tag .testcase .opening =>
      obtain ⟨e, he⟩ := expects_of_startTestcase h
      exact .inr ⟨_, .testcase hevent.symm he⟩
  | .tag .testcase .selfClosing =>
      obtain ⟨e, he⟩ := expects_of_startTestcase h
      exact .inr ⟨_, .testcase hevent.symm he⟩
  | .tag .node .closing => exact .inr ⟨_, .close hevent.symm⟩
  | .tag .node .opening =>
      obtain ⟨e, he⟩ := enters_of_startNode h
      exact .inr ⟨_, .start hevent.symm he⟩
  | .tag .node .selfClosing =>
      obtain ⟨e, he⟩ := enters_of_startNode h
      exact .inr ⟨_, .start hevent.symm he⟩

end Progress

/-! ## Taking a suite -/

def Stage.run (source : Source) (stage : Stage) (tokens : List Token) : Option Stage :=
  tokens.foldlM (Stage.step source) stage

theorem Stage.run_cons {source : Source} {stage : Stage} {token : Token} {tokens : List Token} :
    stage.run source (token :: tokens) =
      (stage.step source token).bind fun stage => stage.run source tokens :=
  List.foldlM_cons

theorem Stage.run_append {source : Source} {stage : Stage} {front back : List Token} :
    stage.run source (front ++ back) =
      (stage.run source front).bind fun stage => stage.run source back :=
  List.foldlM_append

section Runs

variable {source : Source} {lines : List Line} {p : Progress} {stage : Stage}

theorem run_of_foldlM_take (h : p.At stage) {p' : Progress}
    (hfold : lines.foldlM (Progress.take source) p = .ok p') :
    ∃ tokens stage', Decoded lines tokens ∧ stage.run source tokens = some stage' ∧
      p'.At stage' := by
  induction lines generalizing p stage with
  | nil =>
      cases hfold
      exact ⟨[], stage, .nil, rfl, h⟩
  | cons line lines ih =>
      obtain ⟨p₁, htake, hrest⟩ := foldlM_cons_eq_ok.1 hfold
      rcases Progress.tells_of_take htake with hnone | ⟨token, htells⟩
      · obtain ⟨p₂, htake₂, hat⟩ := h.take_of_none source hnone
        cases htake.symm.trans htake₂
        obtain ⟨tokens, stage', hdecoded, hrun, hat'⟩ := ih hat hrest
        exact ⟨tokens, stage', .skip hnone hdecoded, hrun, hat'⟩
      · have hfollows := h.take_of_tells source htells
        rw [htake] at hfollows
        obtain ⟨stage₁, hstep, hat⟩ := hfollows.exists_stage
        obtain ⟨tokens, stage', hdecoded, hrun, hat'⟩ := ih hat hrest
        refine ⟨token :: tokens, stage', .take htells hdecoded, ?_, hat'⟩
        rw [Stage.run_cons, hstep]
        exact hrun

theorem foldlM_take_of_run (h : p.At stage) {tokens : List Token} (hdecoded : Decoded lines tokens)
    {stage' : Stage} (hrun : stage.run source tokens = some stage') :
    ∃ p', lines.foldlM (Progress.take source) p = .ok p' ∧ p'.At stage' := by
  induction hdecoded generalizing p stage with
  | nil =>
      cases hrun
      exact ⟨p, rfl, h⟩
  | skip hnone _ ih =>
      obtain ⟨p₁, htake, hat⟩ := h.take_of_none source hnone
      obtain ⟨p', hfold, hat'⟩ := ih hat hrun
      exact ⟨p', foldlM_cons_eq_ok.2 ⟨_, htake, hfold⟩, hat'⟩
  | @take line _ token _ htells _ ih =>
      rw [Stage.run_cons] at hrun
      obtain ⟨stage₁, hstep, hrest⟩ := Option.bind_eq_some_iff.1 hrun
      have hfollows := h.take_of_tells source htells
      rw [hstep] at hfollows
      obtain ⟨p₁, htake, hat⟩ := hfollows.exists_progress
      obtain ⟨p', hfold, hat'⟩ := ih hat hrest
      exact ⟨p', foldlM_cons_eq_ok.2 ⟨p₁, htake, hfold⟩, hat'⟩

end Runs

theorem at_start : ({} : Progress).At {} := ⟨Scaffold.shows_empty, rfl, rfl⟩

/-- A suite is loaded when what its lines say fits together and leaves no node open. -/
theorem load_eq_ok {source : Source} {testcases : List Testcase} :
    (∃ loaded, load source = .ok loaded ∧ loaded.testcases = testcases) ↔
      ∃ tokens inTestcase, Decoded (Line.ofText source.content.toList) tokens ∧
        Stage.run source {} tokens = some ⟨[], inTestcase, testcases.reverse⟩ := by
  constructor
  · rintro ⟨loaded, hload, rfl⟩
    unfold load at hload
    split at hload
    next => cases hload
    next p hfold =>
      obtain ⟨tokens, stage, hdecoded, hrun, hat⟩ := run_of_foldlM_take at_start hfold
      rw [Progress.finish, Scaffold.finish_of_shows hat.shows] at hload
      obtain ⟨frames, inTestcase, testcases⟩ := stage
      cases frames with
      | nil =>
          cases hload
          refine ⟨tokens, inTestcase, hdecoded, ?_⟩
          rw [hrun, List.reverse_reverse, hat.testcases]
      | cons f outer => cases hload
  · rintro ⟨tokens, inTestcase, hdecoded, hrun⟩
    obtain ⟨p, hfold, hat⟩ := foldlM_take_of_run at_start hdecoded hrun
    have htestcases : p.testcases.reverse = testcases := by
      rw [hat.testcases, List.reverse_reverse]
    refine ⟨⟨p.testcases.reverse, p.warnings.reverse⟩, ?_, htestcases⟩
    unfold load
    rw [hfold]
    dsimp only
    rw [Progress.finish, Scaffold.finish_of_shows hat.shows]
    rfl

end TreeAssay.Suite
