import Mathlib.Data.List.Induction
import TreeAssay.Proofs.Suite.Grammar
/-!
# Suites read half-way

What a line leaves behind once it is taken: its warning, and its place among those of the
starts that are still open.  So wherever reading stands, each open node has the place of
the line that starts it, and a node is open only inside a testcase.
-/

namespace TreeAssay.Suite

/-! ## What a line gives -/

def Concern.ofAttributes? (attrs : Attributes) : Option Concern :=
  if attrs.malformed then some (.malformedAttributes attrs.size) else none

/-- What there is to be said against a line. -/
def Concern.ofLine? (line : List Char) : Option Concern :=
  match Mark.ofLine line with
  | .foreign | .tag _ .closing => none
  | .unreadable subject => some (.unreadable subject)
  | .tag _ .opening | .tag _ .selfClosing => ofAttributes? (.ofTag line)

/-- The warning about a line, if there is one. -/
def Warning.about (source : Source) (line : Line) (concern : Option Concern) : List Warning :=
  concern.toList.map fun concern => ⟨source.name, line.number, concern⟩

theorem reverse_about (source : Source) (line : Line) (concern : Option Concern) :
    (Warning.about source line concern).reverse = Warning.about source line concern := by
  cases concern <;> rfl

/-- The line starts a testcase or a node, so that attributes belong to it. -/
def Mark.Starts (mark : Mark) : Prop :=
  ∃ subject form, mark = .tag subject form ∧ form ≠ .closing

/-- The rejection lies at the place, and has the warnings that were given up to there. -/
structure Rejection.LiesAt (rejection : Rejection) (source : Source) (place : Span)
    (warnings : List Warning) : Prop where
  source_eq : rejection.error.source = source
  span_eq : rejection.error.span = place
  warnings_eq : rejection.warnings = warnings

/-- What a line does to a testcase, if it starts or ends one. -/
def Mark.testcaseForm? : Mark → Option Tag.Form
  | .tag .testcase form => some form
  | .foreign | .unreadable _ | .tag .node _ => none

/-- The places of the open nodes after an event at the place. -/
def Event.openSpans (place : Span) (spans : List Span) : Option Event → List Span
  | some (.startNode _ false) => place :: spans
  | some .endNode => spans.tail
  | some (.startNode _ true) | some (.startTestcase _ _) | some .endTestcase | none => spans

def Token.openSpans (place : Span) (spans : List Span) : Token → List Span
  | .node (.start _ false) => place :: spans
  | .node .close => spans.tail
  | .node (.start _ true) | .testcase _ _ | .endTestcase => spans

theorem Tells.openSpans {line : Line} {token : Token} (h : Tells line token) (place : Span)
    (spans : List Span) :
    Event.openSpans place spans (Event.ofLine? line.text) = token.openSpans place spans := by
  cases h with
  | testcase hevent _ | endTestcase hevent | close hevent =>
      rw [hevent]
      rfl
  | @start _ selfClosing _ hevent _ =>
      rw [hevent]
      cases selfClosing <;> rfl

namespace Progress

variable {source : Source} {line : Line} {p p' : Progress}

theorem attach_eq_ok {place : Span} {completed : Option Tree}
    (h : p.attach source place completed = .ok p') :
    p'.warnings = p.warnings ∧ p'.openSpans = p.openSpans ∧ p'.inTestcase = p.inTestcase := by
  unfold attach at h
  split at h
  next =>
    cases h
    exact ⟨rfl, rfl, rfl⟩
  next =>
    split at h
    next => cases h
    next =>
      split at h
      next => cases h
      next =>
        cases h
        exact ⟨rfl, rfl, rfl⟩

theorem warnings_heed (attrs : Attributes) :
    (p.heed source line attrs).warnings =
      Warning.about source line (Concern.ofAttributes? attrs) ++ p.warnings := by
  unfold heed Concern.ofAttributes?
  split <;> rfl

theorem openSpans_heed (attrs : Attributes) :
    (p.heed source line attrs).openSpans = p.openSpans := by
  unfold heed
  split <;> rfl

theorem inTestcase_heed (attrs : Attributes) :
    (p.heed source line attrs).inTestcase = p.inTestcase := by
  unfold heed
  split <;> rfl

theorem startTestcase_eq_ok {form : Tag.Form} (h : p.startTestcase source line form = .ok p') :
    p'.warnings = (p.heed source line (.ofTag line.text)).warnings ∧
      p'.openSpans = p.openSpans ∧ p'.inTestcase = decide (form = .opening) := by
  unfold startTestcase at h
  split at h
  next => cases h
  next =>
    split at h
    next => cases h
    next =>
      dsimp only at h
      split at h
      next => cases h
      next =>
        cases h
        exact ⟨rfl, openSpans_heed _, rfl⟩

theorem endTestcase_eq_ok (h : p.endTestcase source line = .ok p') :
    p'.warnings = p.warnings ∧ p'.openSpans = p.openSpans ∧ p'.inTestcase = false := by
  unfold endTestcase at h
  split at h
  next => cases h
  next =>
    cases h
    exact ⟨rfl, rfl, rfl⟩

theorem place_eq_ok {form : Tag.Form} {e : Entry} (h : p.place source line form e = .ok p') :
    p'.warnings = p.warnings ∧
      (p'.openSpans = if form = .selfClosing then p.openSpans else span line :: p.openSpans) ∧
      p'.inTestcase = p.inTestcase := by
  unfold place at h
  split at h
  split at h
  next => cases h
  next =>
    obtain ⟨hwarnings, hspans, hin⟩ := attach_eq_ok h
    exact ⟨hwarnings, hspans, hin⟩

theorem startNode_eq_ok {form : Tag.Form} (h : p.startNode source line form = .ok p') :
    p'.warnings = (p.heed source line (.ofTag line.text)).warnings ∧
      (p'.openSpans = if form = .selfClosing then p.openSpans else span line :: p.openSpans) ∧
      p'.inTestcase = p.inTestcase := by
  unfold startNode at h
  split at h
  next => cases h
  next =>
    dsimp only at h
    split at h
    next => cases h
    next =>
      have hplace := place_eq_ok h
      rwa [openSpans_heed, inTestcase_heed] at hplace

theorem endNode_eq_ok (h : p.endNode source line = .ok p') :
    p'.warnings = p.warnings ∧ p'.openSpans = p.openSpans.tail ∧
      p'.inTestcase = p.inTestcase := by
  unfold endNode at h
  split at h
  split at h
  next => cases h
  next =>
    obtain ⟨hwarnings, hspans, hin⟩ := attach_eq_ok h
    exact ⟨hwarnings, hspans, hin⟩

/-- A line that is taken adds its warning, opens or closes a place, and starts or ends a
testcase. -/
theorem take_eq_ok (h : take source p line = .ok p') :
    p'.warnings = Warning.about source line (Concern.ofLine? line.text) ++ p.warnings ∧
      p'.openSpans = Event.openSpans (span line) p.openSpans (Event.ofLine? line.text) ∧
      p'.inTestcase = ((Mark.ofLine line.text).testcaseForm?.elim p.inTestcase
        fun form => decide (form = .opening)) := by
  rw [← event?_ofLine]
  unfold Concern.ofLine?
  unfold take at h
  generalize Mark.ofLine line.text = mark at h ⊢
  match mark with
  | .foreign | .unreadable _ =>
      cases h
      exact ⟨rfl, rfl, rfl⟩
  | .tag .testcase .closing => exact endTestcase_eq_ok h
  | .tag .node .closing => exact endNode_eq_ok h
  | .tag .testcase .opening | .tag .testcase .selfClosing =>
      obtain ⟨hwarnings, hspans, hin⟩ := startTestcase_eq_ok h
      exact ⟨hwarnings.trans (warnings_heed _), hspans, hin⟩
  | .tag .node .opening | .tag .node .selfClosing =>
      obtain ⟨hwarnings, hspans, hin⟩ := startNode_eq_ok h
      exact ⟨hwarnings.trans (warnings_heed _), hspans, hin⟩

/-! ## What rejects a line -/

section Rejection

variable {rejection : Rejection}

theorem attach_eq_error {place : Span} {completed : Option Tree}
    (h : p.attach source place completed = .error rejection) :
    rejection.LiesAt source place p.warnings.reverse := by
  unfold attach at h
  split at h
  next => cases h
  next =>
    split at h
    next =>
      cases h
      exact ⟨rfl, rfl, rfl⟩
    next =>
      split at h
      next =>
        cases h
        exact ⟨rfl, rfl, rfl⟩
      next => cases h

theorem endTestcase_eq_error (h : p.endTestcase source line = .error rejection) :
    rejection.LiesAt source (span line) p.warnings.reverse := by
  unfold endTestcase at h
  split at h
  next =>
    cases h
    exact ⟨rfl, rfl, rfl⟩
  next => cases h

theorem place_eq_error {form : Tag.Form} {e : Entry}
    (h : p.place source line form e = .error rejection) :
    rejection.LiesAt source (span line) p.warnings.reverse := by
  unfold place at h
  split at h
  split at h
  next =>
    cases h
    exact ⟨rfl, rfl, rfl⟩
  next =>
    obtain ⟨hsource, hspan, hwarnings⟩ := attach_eq_error h
    exact ⟨hsource, hspan, hwarnings⟩

theorem endNode_eq_error (h : p.endNode source line = .error rejection) :
    rejection.LiesAt source (span line) p.warnings.reverse := by
  unfold endNode at h
  split at h
  split at h
  next =>
    cases h
    exact ⟨rfl, rfl, rfl⟩
  next =>
    obtain ⟨hsource, hspan, hwarnings⟩ := attach_eq_error h
    exact ⟨hsource, hspan, hwarnings⟩

theorem reverse_warnings_heed (attrs : Attributes) :
    (p.heed source line attrs).warnings.reverse =
      p.warnings.reverse ++ Warning.about source line (Concern.ofAttributes? attrs) := by
  rw [warnings_heed, List.reverse_append, reverse_about]

theorem startTestcase_eq_error {form : Tag.Form}
    (h : p.startTestcase source line form = .error rejection) :
    rejection.LiesAt source (span line) (p.warnings.reverse ++
      if p.scaffold.isIdle ∧ ¬ p.inTestcase then
        Warning.about source line (Concern.ofAttributes? (.ofTag line.text))
      else []) := by
  unfold startTestcase at h
  split at h
  next hidle =>
    cases h
    rw [if_neg fun hreads => by simp [hreads.1] at hidle, List.append_nil]
    exact ⟨rfl, rfl, rfl⟩
  next hidle =>
    split at h
    next hin =>
      cases h
      rw [if_neg fun hreads => hreads.2 hin, List.append_nil]
      exact ⟨rfl, rfl, rfl⟩
    next hin =>
      dsimp only at h
      rw [if_pos ⟨by simpa using hidle, hin⟩, ← reverse_warnings_heed]
      split at h
      next =>
        cases h
        exact ⟨rfl, rfl, rfl⟩
      next => cases h

theorem startNode_eq_error {form : Tag.Form}
    (h : p.startNode source line form = .error rejection) :
    rejection.LiesAt source (span line) (p.warnings.reverse ++
      if p.inTestcase then Warning.about source line (Concern.ofAttributes? (.ofTag line.text))
      else []) := by
  unfold startNode at h
  split at h
  next hin =>
    cases h
    rw [if_neg (by simpa using hin), List.append_nil]
    exact ⟨rfl, rfl, rfl⟩
  next hin =>
    dsimp only at h
    rw [if_pos (by simpa using hin), ← reverse_warnings_heed]
    split at h
    next =>
      cases h
      exact ⟨rfl, rfl, rfl⟩
    next => exact place_eq_error h

/-- The attributes of the line are read: it starts what may start here. -/
def Reads (p : Progress) (row : List Char) : Prop :=
  match Mark.ofLine row with
  | .tag .testcase form => form ≠ .closing ∧ p.scaffold.isIdle ∧ ¬ p.inTestcase
  | .tag .node form => form ≠ .closing ∧ p.inTestcase
  | .foreign | .unreadable _ => False

theorem Reads.starts {row : List Char} (h : p.Reads row) : (Mark.ofLine row).Starts := by
  unfold Reads at h
  split at h
  next hmark => exact ⟨_, _, hmark, h.1⟩
  next hmark => exact ⟨_, _, hmark, h.1⟩
  next => exact absurd h id
  next => exact absurd h id

/-- What rejects a line lies at this line, which starts or ends something, and the line has its
warning exactly if its attributes are read. -/
theorem take_eq_error (h : take source p line = .error rejection) :
    (∃ subject form, Mark.ofLine line.text = .tag subject form) ∧
      ∃ said, rejection.LiesAt source (span line) (p.warnings.reverse ++ said) ∧
        (p.Reads line.text → said = Warning.about source line (Concern.ofLine? line.text)) ∧
        (¬ p.Reads line.text → said = []) := by
  unfold Concern.ofLine? Reads
  unfold take at h
  generalize Mark.ofLine line.text = mark at h
  have hunread {warnings : List Warning}
      (hlies : rejection.LiesAt source (span line) warnings) :
      rejection.LiesAt source (span line) (warnings ++ []) := by
    rwa [List.append_nil]
  match mark with
  | .foreign | .unreadable _ => cases h
  | .tag .testcase .closing =>
      exact ⟨⟨_, _, rfl⟩, [], hunread (endTestcase_eq_error h), fun hreads => absurd rfl hreads.1,
        fun _ => rfl⟩
  | .tag .node .closing =>
      exact ⟨⟨_, _, rfl⟩, [], hunread (endNode_eq_error h), fun hreads => absurd rfl hreads.1,
        fun _ => rfl⟩
  | .tag .testcase .opening | .tag .testcase .selfClosing =>
      exact ⟨⟨_, _, rfl⟩, _, startTestcase_eq_error h, fun hreads => if_pos hreads.2,
        fun hunread => if_neg fun hreads => hunread ⟨by decide, hreads⟩⟩
  | .tag .node .opening | .tag .node .selfClosing =>
      exact ⟨⟨_, _, rfl⟩, _, startNode_eq_error h, fun hreads => if_pos hreads.2,
        fun hunread => if_neg fun hreads => hunread ⟨by decide, hreads⟩⟩

end Rejection

end Progress

/-! ## Places of open nodes -/

theorem Decoded.append {front back : List Line} {tokens tokens' : List Token}
    (hfront : Decoded front tokens) (hback : Decoded back tokens') :
    Decoded (front ++ back) (tokens ++ tokens') := by
  induction hfront with
  | nil => exact hback
  | skip hnone _ ih => exact .skip hnone ih
  | take htells _ ih => exact .take htells ih

theorem Tells.decoded {line : Line} {token : Token} (h : Tells line token) :
    Decoded [line] [token] :=
  .take h .nil

theorem Tells.decoded_step {line : Line} {st : BuildStep} (h : Tells line (.node st)) :
    Decoded [line] ([st].map .node) :=
  h.decoded

theorem decoded_of_none {line : Line} (h : Event.ofLine? line.text = none) :
    Decoded [line] [] :=
  .skip h .nil

/-- The places are those of the lines that start the open nodes, and what is behind each of
these lines, up to the next of them, spells what the node has read below it so far. -/
inductive Opens : List Line → List Frame → List Span → Prop
  | idle {lines} : Opens lines [] []
  | cons {lines line behind f outer spans steps} : Opens lines outer spans →
      Tells line (.node (.start (.node f.leaf) false)) →
      Decoded behind (steps.map .node) → f.done.Spelled steps →
      Opens (lines ++ line :: behind) (f :: outer) (span line :: spans)

namespace Opens

variable {lines : List Line} {line : Line} {frames : List Frame} {f g : Frame}
  {outer : List Frame} {spans : List Span}

theorem length_eq (h : Opens lines frames spans) : spans.length = frames.length := by
  induction h with
  | idle => rfl
  | cons _ _ _ _ ih => rw [List.length_cons, List.length_cons, ih]

/-- Behind the innermost start there may come more that spells a row. -/
theorem add (h : Opens lines (f :: outer) spans) {behind : List Line} {steps : List BuildStep}
    {row : Row} (hdecoded : Decoded behind (steps.map .node)) (hrow : row.Spelled steps) :
    Opens (lines ++ behind) (Frame.add (f :: outer) row) spans := by
  cases h with
  | cons houter htells hbehind hdone =>
      rw [List.append_assoc, List.cons_append]
      refine .cons (f := ⟨f.leaf, f.done ++ row⟩) houter htells ?_ (hdone.append hrow)
      rw [List.map_append]
      exact hbehind.append hdecoded

theorem skip (h : Opens lines frames spans) (hnone : Event.ofLine? line.text = none) :
    Opens (lines ++ [line]) frames spans := by
  cases frames with
  | nil =>
      cases h
      exact .idle
  | cons f outer =>
      have hadd := h.add (decoded_of_none hnone) .nil
      rwa [Frame.add, Row.append_nil] at hadd

theorem opened (h : Opens lines frames spans) {leaf : Leaf}
    (htells : Tells line (.node (.start (.node leaf) false))) :
    Opens (lines ++ [line]) (⟨leaf, .nil⟩ :: frames) (span line :: spans) := by
  have hbehind : Decoded [] (([] : List BuildStep).map .node) := .nil
  exact .cons (f := ⟨leaf, .nil⟩) h htells hbehind .nil

theorem closed (h : Opens lines (f :: g :: outer) spans) (htells : Tells line (.node .close)) :
    Opens (lines ++ [line]) (Frame.add (g :: outer) (.node f.leaf f.done .nil)) spans.tail := by
  cases h with
  | @cons _ start behind _ _ _ steps houter hstart hbehind hdone =>
      have hspelled : (Row.node f.leaf f.done .nil).Spelled
          (.start (.node f.leaf) false :: steps ++ [.close]) := .node hdone .nil
      rw [List.append_assoc, List.cons_append]
      refine houter.add ?_ hspelled
      rw [List.cons_append, List.map_cons, List.map_append]
      exact .take hstart (hbehind.append htells.decoded)

/-- The places follow the starts and ends of nodes. -/
theorem step (h : Opens lines frames spans) {st : BuildStep} (htells : Tells line (.node st))
    {frames' : List Frame} {completed : Option (Leaf × Row)}
    (hstep : Frame.step frames st = .ok (frames', completed)) :
    Opens (lines ++ [line]) frames' (Token.openSpans (span line) spans (.node st)) := by
  match frames, st with
  | [], .start .null false | _ :: _, .start .null false => cases hstep
  | [], .start .null true | [], .start (.node leaf) true =>
      cases hstep
      cases h
      exact .idle
  | f :: outer, .start .null true =>
      cases hstep
      exact h.add htells.decoded_step (.null .nil)
  | f :: outer, .start (.node leaf) true =>
      cases hstep
      exact h.add htells.decoded_step (.leaf .nil)
  | [], .start (.node leaf) false | f :: outer, .start (.node leaf) false =>
      cases hstep
      exact h.opened htells
  | [], .close => cases hstep
  | [f], .close =>
      cases hstep
      cases h with
      | cons houter _ _ _ =>
          cases houter
          exact .idle
  | f :: g :: outer, .close =>
      cases hstep
      exact h.closed htells

end Opens

/-! ## Wherever reading stands -/

theorem Stage.frames_of_attach {stage next : Stage} {frames : List Frame}
    {completed : Option (Leaf × Row)} (h : stage.attach (frames, completed) = some next) :
    next.frames = frames := by
  cases completed with
  | none =>
      cases h
      rfl
  | some tree =>
      rw [Stage.attach] at h
      split at h
      next => cases h
      next =>
        split at h
        next => cases h
        next =>
          cases h
          rfl

theorem Stage.exists_of_build {stage next : Stage} {st : BuildStep}
    (h : stage.build st = some next) :
    ∃ completed, Frame.step stage.frames st = .ok (next.frames, completed) := by
  rw [Stage.build] at h
  cases hstep : Frame.step stage.frames st with
  | error error =>
      rw [hstep] at h
      cases h
  | ok result =>
      rw [hstep] at h
      have hframes := Stage.frames_of_attach h
      exact ⟨result.2, by rw [hframes]⟩

theorem Opens.step_stage {source : Source} {lines : List Line} {line : Line} {stage next : Stage}
    {spans : List Span} (h : Opens lines stage.frames spans) {token : Token}
    (htells : Tells line token) (hstep : stage.step source token = some next) :
    Opens (lines ++ [line]) next.frames (token.openSpans (span line) spans) := by
  have hidle (hframes : stage.frames.isEmpty) : Opens (lines ++ [line]) [] spans := by
    rw [List.isEmpty_iff.1 hframes] at h
    cases h
    exact .idle
  match token with
  | .testcase heading selfClosing =>
      rw [Stage.step] at hstep
      split at hstep
      next hstart =>
        cases hstep
        exact hidle (Bool.and_eq_true_iff.1 hstart).1
      next => cases hstep
  | .endTestcase =>
      rw [Stage.step] at hstep
      split at hstep
      next hframes =>
        cases hstep
        rw [Token.openSpans, List.isEmpty_iff.1 hframes]
        exact hidle hframes
      next => cases hstep
  | .node (.start e selfClosing) =>
      rw [Stage.step] at hstep
      split at hstep
      next =>
        obtain ⟨completed, hframes⟩ := Stage.exists_of_build hstep
        exact h.step htells hframes
      next => cases hstep
  | .node .close =>
      obtain ⟨completed, hframes⟩ := Stage.exists_of_build hstep
      exact h.step htells hframes

/-- The progress is what the lines lead to: it is at the stage, which tokens reach, and its
places are those of the open nodes. -/
structure Progress.Reading (lines : List Line) (p : Progress) (stage : Stage) : Prop where
  at_stage : p.At stage
  opens : Opens lines stage.frames p.openSpans
  reached : ∃ tokens, Reaches tokens stage

namespace Progress

variable {source : Source} {lines : List Line} {line : Line} {p p' : Progress} {stage : Stage}

theorem reading_start : Reading [] {} {} where
  at_stage := at_start
  opens := .idle
  reached := ⟨[], .between fun _ contents hrest => ⟨contents, hrest⟩⟩

theorem Reading.take (h : p.Reading lines stage) (htake : take source p line = .ok p') :
    ∃ next, p'.Reading (lines ++ [line]) next ∧
      (Event.ofLine? line.text = none ∧ next = stage ∨
        ∃ token, Tells line token ∧ stage.step source token = some next) := by
  obtain ⟨_, hspans, _⟩ := take_eq_ok htake
  obtain ⟨tokens, hreached⟩ := h.reached
  rcases tells_of_take htake with hnone | ⟨token, htells⟩
  · obtain ⟨p'', htake', hat⟩ := h.at_stage.take_of_none source hnone
    cases htake.symm.trans htake'
    rw [hnone] at hspans
    have hopens := h.opens.skip hnone
    rw [← show p'.openSpans = p.openSpans from hspans] at hopens
    exact ⟨stage, ⟨hat, hopens, tokens, hreached⟩, .inl ⟨hnone, rfl⟩⟩
  · have hfollows := h.at_stage.take_of_tells source htells
    rw [htake] at hfollows
    obtain ⟨next, hstep, hat⟩ := hfollows.exists_stage
    have hopens := h.opens.step_stage htells hstep
    rw [← htells.openSpans, ← hspans] at hopens
    exact ⟨next, ⟨hat, hopens, _, hreached.step hstep⟩, .inr ⟨token, htells, hstep⟩⟩

/-- Whatever lines are taken, each place is that of an open node. -/
theorem exists_reading (hfold : lines.foldlM (Progress.take source) {} = .ok p) :
    ∃ stage, p.Reading lines stage := by
  induction lines using List.reverseRecOn generalizing p with
  | nil =>
      cases hfold
      exact ⟨{}, reading_start⟩
  | append_singleton front line ih =>
      obtain ⟨before, hfront, htake⟩ := foldlM_concat_eq_ok.1 hfold
      obtain ⟨stage, hreading⟩ := ih hfront
      obtain ⟨next, hnext, _⟩ := hreading.take htake
      exact ⟨next, hnext⟩

end Progress

theorem exists_progress_of_load {source : Source} {loaded : Loaded}
    (hload : load source = .ok loaded) :
    ∃ p stage, (Line.ofText source.content.toList).foldlM (Progress.take source) {} = .ok p ∧
      p.Reading (Line.ofText source.content.toList) stage ∧ stage.frames = [] ∧
      loaded = ⟨p.testcases.reverse, p.warnings.reverse⟩ := by
  unfold load at hload
  split at hload
  next => cases hload
  next p hfold =>
    obtain ⟨stage, hreading⟩ := Progress.exists_reading hfold
    rw [Progress.finish, Scaffold.finish_of_shows hreading.at_stage.shows] at hload
    refine ⟨p, stage, hfold, hreading, ?_⟩
    cases hframes : stage.frames with
    | nil =>
        rw [hframes] at hload
        cases hload
        exact ⟨rfl, rfl⟩
    | cons f outer =>
        rw [hframes] at hload
        cases hload

/-- The warnings are those about the lines, in order. -/
theorem reverse_warnings_of_foldlM {source : Source} {lines : List Line} {p : Progress}
    (hfold : lines.foldlM (Progress.take source) {} = .ok p) :
    p.warnings.reverse =
      lines.flatMap fun line => Warning.about source line (Concern.ofLine? line.text) := by
  induction lines using List.reverseRecOn generalizing p with
  | nil =>
      cases hfold
      rfl
  | append_singleton front line ih =>
      obtain ⟨before, hfront, htake⟩ := foldlM_concat_eq_ok.1 hfold
      obtain ⟨hwarnings, _⟩ := Progress.take_eq_ok htake
      rw [hwarnings, List.reverse_append, ih hfront, reverse_about, List.flatMap_append,
        List.flatMap_singleton]

/-- Where a suite is rejected, each warning is about one of its lines. -/
theorem about_of_mem_warnings {source : Source} {rejection : Rejection}
    (hload : load source = .error rejection) {warning : Warning}
    (hwarning : warning ∈ rejection.warnings) :
    ∃ line ∈ Line.ofText source.content.toList,
      warning ∈ Warning.about source line (Concern.ofLine? line.text) := by
  unfold load at hload
  split at hload
  next rejection' hfold =>
    cases hload
    obtain ⟨front, line, back, p, hlines, hfront, htake⟩ := foldlM_eq_error.1 hfold
    obtain ⟨_, said, hlies, hread, hunread⟩ := Progress.take_eq_error htake
    have hmem : warning ∈ (front ++ [line]).flatMap fun line =>
        Warning.about source line (Concern.ofLine? line.text) := by
      rw [List.flatMap_append, List.flatMap_singleton, ← reverse_warnings_of_foldlM hfront]
      rw [hlies.warnings_eq] at hwarning
      by_cases hreads : p.Reads line.text
      · rwa [hread hreads] at hwarning
      · rw [hunread hreads, List.append_nil] at hwarning
        exact List.mem_append_left _ hwarning
    obtain ⟨other, hother, habout⟩ := List.mem_flatMap.1 hmem
    refine ⟨other, ?_, habout⟩
    rw [hlines]
    rcases List.mem_append.1 hother with hother | hother
    · exact List.mem_append_left _ hother
    · rw [List.mem_singleton.1 hother]
      simp
  next p hfold =>
    have hwarnings : rejection.warnings = p.warnings.reverse := by
      unfold Progress.finish at hload
      split at hload
      next => cases hload
      next =>
        cases hload
        rfl
    rw [hwarnings, reverse_warnings_of_foldlM hfold] at hwarning
    exact List.mem_flatMap.1 hwarning

end TreeAssay.Suite
