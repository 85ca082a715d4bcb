import Mathlib.Data.List.Forall2
import TreeAssay.Proofs.Suite.Locations
/-!
# Suites told again

Two texts may tell the same suite: each line of the one has a line of the other that does the
same, and what else stands there does nothing.  Then every line that is taken leaves both at
the same stage, so both are loaded to the same testcases and warnings, with other line numbers,
or both are rejected for the same reason, at places that belong together.
-/

namespace TreeAssay

def Span.shift (bytes : Nat) (place : Span) : Span :=
  ⟨place.offset + bytes, place.length⟩

def Testcase.renumber (number : Nat → Nat) (t : Testcase) : Testcase :=
  { t with origin := ⟨t.origin.file, number t.origin.line⟩ }

theorem Scaffold.close_of_isIdle {s : Scaffold} (h : s.isIdle) :
    s.close = .error .nothingToClose := by
  obtain ⟨arena, openNodes, lt⟩ := s
  obtain rfl : openNodes = [] := List.isEmpty_iff.1 h
  rfl

namespace Suite

def Warning.renumber (number : Nat → Nat) (warning : Warning) : Warning :=
  { warning with line := number warning.line }

/-- How a suite is told again: the number that a line gets, which places belong together, and
the testcases and warnings that stand ahead, in order. -/
structure Retelling where
  number : Nat → Nat
  place : Span → Span → Prop
  testcases : List Testcase := []
  warnings : List Warning := []

/-- The same suite again. -/
def Retelling.same : Retelling where
  number := id
  place := Eq

variable {m : Retelling} {part whole : Source} {p p' : Progress} {line line' : Line}

def Loaded.retold (m : Retelling) (loaded : Loaded) : Loaded where
  testcases := m.testcases ++ loaded.testcases.map (Testcase.renumber m.number)
  warnings := m.warnings ++ loaded.warnings.map (Warning.renumber m.number)

def Rejection.retold (m : Retelling) (whole : Source) (place : Span) (rejection : Rejection) :
    Rejection where
  error := { rejection.error with source := whole, span := place }
  warnings := m.warnings ++ rejection.warnings.map (Warning.renumber m.number)

/-- Two results that are there belong together, and two rejections differ only in how they are
told. -/
inductive Retelling.Agree (m : Retelling) (whole : Source) {α : Type} (same : α → α → Prop) :
    Except Rejection α → Except Rejection α → Prop
  | ok {result result'} : same result result' → Agree m whole same (.ok result) (.ok result')
  | error {rejection place} : m.place rejection.error.span place →
      Agree m whole same (.error rejection) (.error (rejection.retold m whole place))

theorem Retelling.Agree.of_ok {α : Type} {same : α → α → Prop} {result : α}
    {there : Except Rejection α} (h : m.Agree whole same (.ok result) there) :
    ∃ result', there = .ok result' ∧ same result result' := by
  cases h with
  | ok hsame => exact ⟨_, rfl, hsame⟩

theorem Retelling.Agree.of_error {α : Type} {same : α → α → Prop} {rejection : Rejection}
    {there : Except Rejection α} (h : m.Agree whole same (.error rejection) there) :
    ∃ place, there = .error (rejection.retold m whole place) ∧
      m.place rejection.error.span place := by
  cases h with
  | error hplace => exact ⟨_, rfl, hplace⟩

/-- The one stands where the other does, as it is told again. -/
structure Progress.Retold (m : Retelling) (p p' : Progress) : Prop where
  scaffold : p'.scaffold = p.scaffold
  openSpans : List.Forall₂ m.place p.openSpans p'.openSpans
  inTestcase : p'.inTestcase = p.inTestcase
  testcases : p'.testcases =
    p.testcases.map (Testcase.renumber m.number) ++ m.testcases.reverse
  warnings : p'.warnings = p.warnings.map (Warning.renumber m.number) ++ m.warnings.reverse

/-- The one line starts or ends what the other does, where it is told again. -/
structure Line.Corresponds (m : Retelling) (line line' : Line) : Prop where
  number : line'.number = m.number line.number
  mark : Mark.ofLine line'.text = Mark.ofLine line.text
  place : ∀ {subject form}, Mark.ofLine line.text = .tag subject form →
    m.place (span line) (span line')

/-- The one line does what the other does, as it is told again. -/
structure Line.Retold (m : Retelling) (line line' : Line) : Prop
    extends Line.Corresponds m line line' where
  attributes : (Mark.ofLine line.text).Starts →
    Attributes.ofTag line'.text = Attributes.ofTag line.text

/-- The lines of a suite, and those of the text that tells it again. -/
inductive Retelling.Lines (m : Retelling) : List Line → List Line → Prop
  | nil : Lines m [] []
  | foreign {line' lines lines'} : Mark.ofLine line'.text = .foreign → Lines m lines lines' →
      Lines m lines (line' :: lines')
  | cons {line line' lines lines'} : Line.Retold m line line' → Lines m lines lines' →
      Lines m (line :: lines) (line' :: lines')

theorem span_shift (lines bytes : Nat) (line : Line) :
    span (line.shift lines bytes) = (span line).shift bytes := by
  simp only [span, Line.shift, Span.shift, Span.mk.injEq, and_true]
  omega

/-- The one line has the text of the other. -/
theorem Line.Retold.of_text (htext : line'.text = line.text)
    (hnumber : line'.number = m.number line.number)
    (hplace : ∀ {subject form}, Mark.ofLine line.text = .tag subject form →
      m.place (span line) (span line')) : Line.Retold m line line' where
  number := hnumber
  mark := by rw [htext]
  place := hplace
  attributes := fun _ => by rw [htext]

namespace Retelling.Lines

/-- Lines that are moved one by one. -/
theorem of_map {move : Line → Line} {lines : List Line}
    (h : ∀ line ∈ lines, Line.Retold m line (move line)) : m.Lines lines (lines.map move) := by
  induction lines with
  | nil => exact .nil
  | cons line lines ih =>
      exact .cons (h line (by simp)) (ih fun line hline => h line (by simp [hline]))

theorem of_foreign {lines : List Line} (h : ∀ line ∈ lines, Mark.ofLine line.text = .foreign) :
    m.Lines [] lines := by
  induction lines with
  | nil => exact .nil
  | cons line lines ih =>
      exact .foreign (h line (by simp)) (ih fun line hline => h line (by simp [hline]))

theorem append {front front' back back' : List Line} (hfront : m.Lines front front')
    (hback : m.Lines back back') : m.Lines (front ++ back) (front' ++ back') := by
  induction hfront with
  | nil => exact hback
  | foreign hforeign _ ih => exact .foreign hforeign ih
  | cons hline _ ih => exact .cons hline ih

end Retelling.Lines

/-- Where lines keep their numbers and nothing stands ahead, what is loaded is the same. -/
theorem Loaded.retold_id (place : Span → Span → Prop) (loaded : Loaded) :
    loaded.retold ⟨id, place, [], []⟩ = loaded := by
  have htestcases : loaded.testcases.map (Testcase.renumber id) = loaded.testcases := List.map_id _
  have hwarnings : loaded.warnings.map (Warning.renumber id) = loaded.warnings := List.map_id _
  rw [Loaded.retold, htestcases, hwarnings]
  rfl

theorem Rejection.retold_id (place : Span → Span → Prop) (whole : Source) (there : Span)
    (rejection : Rejection) :
    rejection.retold ⟨id, place, [], []⟩ whole there =
      { rejection with error := { rejection.error with source := whole, span := there } } := by
  have hwarnings : rejection.warnings.map (Warning.renumber id) = rejection.warnings :=
    List.map_id _
  rw [Rejection.retold, hwarnings]
  rfl

/-! ## Taking a line -/

/-- The testcase that a tree would be for. -/
def Progress.Anchored (p : Progress) : Prop :=
  p.inTestcase ∨ ¬ p.scaffold.isIdle → p.testcases ≠ []

namespace Progress

theorem Reading.anchored {lines : List Line} {stage : Stage} (h : p.Reading lines stage) :
    p.Anchored := by
  obtain ⟨tokens, hreaches⟩ := h.reached
  intro hopen
  rw [h.at_stage.inTestcase, h.at_stage.isIdle] at hopen
  rw [h.at_stage.testcases]
  cases hreaches with
  | between _ => simp at hopen
  | inside _ _ => exact List.cons_ne_nil _ _

theorem testcases_heed (attrs : Attributes) :
    (p.heed part line attrs).testcases = p.testcases := by
  rw [heed]
  split <;> rfl

namespace Retold

theorem reverse_testcases (h : Retold m p p') :
    p'.testcases.reverse =
      m.testcases ++ p.testcases.reverse.map (Testcase.renumber m.number) := by
  rw [h.testcases, List.reverse_append, List.reverse_reverse, List.map_reverse]

theorem reverse_warnings (h : Retold m p p') :
    p'.warnings.reverse = m.warnings ++ p.warnings.reverse.map (Warning.renumber m.number) := by
  rw [h.warnings, List.reverse_append, List.reverse_reverse, List.map_reverse]

theorem reject {α : Type} {same : α → α → Prop} {here there : Span} (h : Retold m p p')
    (hplace : m.place here there) (cause : LoadCause) :
    m.Agree whole same (.error (p.reject part here cause))
      (.error (p'.reject whole there cause)) := by
  have hretold : p'.reject whole there cause =
      (p.reject part here cause).retold m whole there := by
    rw [Progress.reject, h.reverse_warnings]
    rfl
  rw [hretold]
  exact .error hplace

theorem warn (h : Retold m p p') (hname : whole.name = part.name)
    (hnumber : line'.number = m.number line.number) (concern : Concern) :
    Retold m (p.warn part line concern) (p'.warn whole line' concern) where
  scaffold := h.scaffold
  openSpans := h.openSpans
  inTestcase := h.inTestcase
  testcases := h.testcases
  warnings := by
    rw [Progress.warn, hname, hnumber, h.warnings]
    rfl

theorem heed (h : Retold m p p') (hname : whole.name = part.name)
    (hnumber : line'.number = m.number line.number) (attrs : Attributes) :
    Retold m (p.heed part line attrs) (p'.heed whole line' attrs) := by
  rw [Progress.heed, Progress.heed]
  split
  · exact h.warn hname hnumber _
  · exact h

/-- A tree is completed for the testcase that belongs to the one it is completed for. -/
theorem attach {here there : Span} (h : Retold m p p') (hplace : m.place here there)
    {completed : Option Tree} (hanchored : completed.isSome → p.testcases ≠ []) :
    m.Agree whole (Retold m) (p.attach part here completed)
      (p'.attach whole there completed) := by
  cases completed with
  | none => exact .ok h
  | some tree =>
      obtain ⟨last, earlier, htestcases⟩ := List.exists_cons_of_ne_nil (hanchored rfl)
      have htestcases' := h.testcases
      rw [htestcases, List.map_cons, List.cons_append] at htestcases'
      rw [Progress.attach, Progress.attach, htestcases, htestcases']
      dsimp only
      by_cases hroot : last.root.isSome
      · rw [if_pos hroot, if_pos (show (last.renumber m.number).root.isSome from hroot)]
        exact h.reject hplace _
      · rw [if_neg hroot, if_neg (show ¬ (last.renumber m.number).root.isSome from hroot)]
        exact .ok ⟨h.scaffold, h.openSpans, h.inTestcase, rfl, h.warnings⟩

theorem startTestcase (h : Retold m p p') (hname : whole.name = part.name)
    (hnumber : line'.number = m.number line.number) (hplace : m.place (span line) (span line'))
    (hattrs : p.scaffold.isIdle → ¬ p.inTestcase →
      Attributes.ofTag line'.text = Attributes.ofTag line.text) (form : Tag.Form) :
    m.Agree whole (Retold m) (p.startTestcase part line form)
      (p'.startTestcase whole line' form) := by
  rw [Progress.startTestcase, Progress.startTestcase, h.scaffold, h.inTestcase]
  by_cases hidle : !p.scaffold.isIdle
  · rw [if_pos hidle, if_pos hidle]
    exact h.reject hplace _
  · rw [if_neg hidle, if_neg hidle]
    by_cases hin : p.inTestcase
    · rw [if_pos hin, if_pos hin]
      exact h.reject hplace _
    · rw [if_neg hin, if_neg hin, hattrs (by simpa using hidle) hin]
      dsimp only
      have hheed := h.heed hname hnumber (.ofTag line.text)
      cases expectation (Attributes.ofTag line.text) with
      | error error => exact hheed.reject hplace _
      | ok expectation =>
          refine .ok ⟨hheed.scaffold, hheed.openSpans, rfl, ?_, hheed.warnings⟩
          dsimp only
          rw [hheed.testcases, hname, hnumber]
          rfl

theorem endTestcase (h : Retold m p p') (hplace : m.place (span line) (span line')) :
    m.Agree whole (Retold m) (p.endTestcase part line) (p'.endTestcase whole line') := by
  rw [Progress.endTestcase, Progress.endTestcase, h.scaffold]
  by_cases hidle : !p.scaffold.isIdle
  · rw [if_pos hidle, if_pos hidle]
    exact h.reject hplace _
  · rw [if_neg hidle, if_neg hidle]
    exact .ok ⟨rfl, h.openSpans, rfl, h.testcases, h.warnings⟩

theorem place (h : Retold m p p') (hplace : m.place (span line) (span line')) (form : Tag.Form)
    (e : Entry) (hanchored : p.testcases ≠ []) :
    m.Agree whole (Retold m) (p.place part line form e) (p'.place whole line' form e) := by
  obtain ⟨scaffold, openSpans, inTestcase, testcases, warnings⟩ := p
  obtain ⟨scaffold', openSpans', inTestcase', testcases', warnings'⟩ := p'
  obtain rfl : scaffold' = scaffold := h.scaffold
  rw [Progress.place, Progress.place]
  dsimp only
  cases scaffold'.start e (form = .selfClosing) with
  | error error => exact h.reject hplace (.ofBuild error)
  | ok result =>
      have hspans : List.Forall₂ m.place
          (if form = .selfClosing then openSpans else span line :: openSpans)
          (if form = .selfClosing then openSpans' else span line' :: openSpans') := by
        split
        · exact h.openSpans
        · exact .cons hplace h.openSpans
      have hplaced : Retold m ⟨result.1, _, inTestcase, testcases, warnings⟩
          ⟨result.1, _, inTestcase', testcases', warnings'⟩ :=
        ⟨rfl, hspans, h.inTestcase, h.testcases, h.warnings⟩
      exact hplaced.attach hplace fun _ => hanchored

theorem startNode (h : Retold m p p') (hanchored : p.Anchored) (hname : whole.name = part.name)
    (hnumber : line'.number = m.number line.number) (hplace : m.place (span line) (span line'))
    (hattrs : p.inTestcase → Attributes.ofTag line'.text = Attributes.ofTag line.text)
    (form : Tag.Form) :
    m.Agree whole (Retold m) (p.startNode part line form) (p'.startNode whole line' form) := by
  rw [Progress.startNode, Progress.startNode, h.inTestcase]
  by_cases hin : !p.inTestcase
  · rw [if_pos hin, if_pos hin]
    exact h.reject hplace _
  · rw [if_neg hin, if_neg hin, hattrs (by simpa using hin)]
    dsimp only
    have hheed := h.heed hname hnumber (.ofTag line.text)
    cases entry (Attributes.ofTag line.text) with
    | error cause => exact hheed.reject hplace _
    | ok e =>
        refine hheed.place hplace form e ?_
        rw [testcases_heed]
        exact hanchored (.inl (by simpa using hin))

theorem endNode (h : Retold m p p') (hanchored : p.Anchored)
    (hplace : m.place (span line) (span line')) :
    m.Agree whole (Retold m) (p.endNode part line) (p'.endNode whole line') := by
  obtain ⟨scaffold, openSpans, inTestcase, testcases, warnings⟩ := p
  obtain ⟨scaffold', openSpans', inTestcase', testcases', warnings'⟩ := p'
  obtain rfl : scaffold' = scaffold := h.scaffold
  rw [Progress.endNode, Progress.endNode]
  cases hclose : scaffold'.close with
  | error error => exact h.reject hplace (.ofBuild error)
  | ok result =>
      have hspans : List.Forall₂ m.place openSpans.tail openSpans'.tail := by
        rw [← List.drop_one, ← List.drop_one]
        exact List.forall₂_drop 1 h.openSpans
      have hclosed : Retold m ⟨result.1, openSpans.tail, inTestcase, testcases, warnings⟩
          ⟨result.1, openSpans'.tail, inTestcase', testcases', warnings'⟩ :=
        ⟨rfl, hspans, h.inTestcase, h.testcases, h.warnings⟩
      refine hclosed.attach hplace fun _ => hanchored (.inr fun hidle => ?_)
      rw [Scaffold.close_of_isIdle hidle] at hclose
      cases hclose

/-- A line does what the line does that it tells again, if its attributes are the same or are
not read. -/
theorem take (h : Retold m p p') (hanchored : p.Anchored) (hname : whole.name = part.name)
    (hline : Line.Corresponds m line line')
    (hattrs : p.Reads line.text → Attributes.ofTag line'.text = Attributes.ofTag line.text) :
    m.Agree whole (Retold m) (Progress.take part p line) (Progress.take whole p' line') := by
  unfold Progress.take
  unfold Reads at hattrs
  rw [hline.mark]
  match hmark : Mark.ofLine line.text with
  | .foreign => exact .ok h
  | .unreadable subject => exact .ok (h.warn hname hline.number _)
  | .tag .testcase .closing => exact h.endTestcase (hline.place hmark)
  | .tag .node .closing => exact h.endNode hanchored (hline.place hmark)
  | .tag .testcase .opening | .tag .testcase .selfClosing =>
      rw [hmark] at hattrs
      exact h.startTestcase hname hline.number (hline.place hmark)
        (fun hidle hin => hattrs ⟨by decide, hidle, hin⟩) _
  | .tag .node .opening | .tag .node .selfClosing =>
      rw [hmark] at hattrs
      exact h.startNode hanchored hname hline.number (hline.place hmark)
        (fun hin => hattrs ⟨by decide, hin⟩) _

/-- The run over the lines of both texts. -/
theorem foldlM_take (hname : whole.name = part.name) {lines lines' : List Line}
    (hlines : m.Lines lines lines') {front : List Line} {stage : Stage}
    (hreading : p.Reading front stage) (h : Retold m p p') :
    m.Agree whole (Retold m) (lines.foldlM (Progress.take part) p)
      (lines'.foldlM (Progress.take whole) p') := by
  induction hlines generalizing p p' front stage with
  | nil => exact .ok h
  | foreign hforeign _ ih =>
      rw [List.foldlM_cons, Progress.take, hforeign]
      exact ih hreading h
  | @cons line line' lines lines' hline _ ih =>
      have htake := h.take hreading.anchored hname hline.toCorresponds fun hreads =>
        hline.attributes hreads.starts
      rw [List.foldlM_cons, List.foldlM_cons]
      generalize hhere : Progress.take part p line = here at htake
      generalize Progress.take whole p' line' = there at htake
      cases htake with
      | error hplace => exact .error hplace
      | ok hnext =>
          obtain ⟨next, hread, _⟩ := hreading.take hhere
          exact ih hread hnext

/-- What is told in the same way is the same. -/
theorem eq (h : Retold .same p p') : p' = p := by
  obtain ⟨scaffold, openSpans, inTestcase, testcases, warnings⟩ := p
  obtain ⟨scaffold', openSpans', inTestcase', testcases', warnings'⟩ := p'
  have hspans : openSpans = openSpans' := List.forall₂_eq_eq_eq ▸ h.openSpans
  have htestcases : testcases' = testcases.map (Testcase.renumber id) ++ [] := h.testcases
  have hwarnings : warnings' = warnings.map (Warning.renumber id) ++ [] := h.warnings
  rw [List.append_nil, show Testcase.renumber id = id from rfl, List.map_id] at htestcases
  rw [List.append_nil, show Warning.renumber id = id from rfl, List.map_id] at hwarnings
  obtain rfl : scaffold' = scaffold := h.scaffold
  obtain rfl : inTestcase' = inTestcase := h.inTestcase
  rw [hspans, htestcases, hwarnings]

theorem finish {lines : List Line} {stage : Stage} (hreading : p.Reading lines stage)
    (h : Retold m p p') :
    m.Agree whole (fun loaded loaded' => loaded' = loaded.retold m) (p.finish part)
      (p'.finish whole) := by
  rw [Progress.finish, Progress.finish, h.scaffold,
    Scaffold.finish_of_shows hreading.at_stage.shows]
  cases hframes : stage.frames with
  | nil =>
      refine .ok ?_
      rw [h.reverse_testcases, h.reverse_warnings]
      rfl
  | cons f outer =>
      -- An open node has its place, so the span does not fall back on nowhere.
      have hlength := hreading.opens.length_eq
      rw [hframes] at hlength
      obtain ⟨place, spans, hspans⟩ := List.exists_cons_of_length_eq_add_one hlength
      have hretold := h.openSpans
      rw [hspans] at hretold
      obtain ⟨place', spans', hplace, _, hspans'⟩ := List.forall₂_cons_left_iff.1 hretold
      rw [hspans, hspans']
      exact h.reject hplace _

end Retold

end Progress

/-! ## Loading -/

theorem load_eq_bind (source : Source) :
    load source = (Line.ofText source.content.toList).foldlM (Progress.take source) {} >>=
      Progress.finish source := by
  unfold load
  cases (Line.ofText source.content.toList).foldlM (Progress.take source) {} <;> rfl

theorem Progress.Retold.start {number : Nat → Nat} {place : Span → Span → Prop} :
    Progress.Retold ⟨number, place, [], []⟩ {} {} :=
  ⟨rfl, .nil, rfl, rfl, rfl⟩

/-- A suite that is told again, behind what stands ahead of it, is loaded to the same, or
rejected for the same reason. -/
theorem Progress.Retold.foldlM_finish (h : Progress.Retold m {} p) (hname : whole.name = part.name)
    {lines : List Line} (hlines : m.Lines (Line.ofText part.content.toList) lines) :
    m.Agree whole (fun loaded loaded' => loaded' = loaded.retold m) (load part)
      (lines.foldlM (Progress.take whole) p >>= Progress.finish whole) := by
  have hfold := h.foldlM_take hname hlines Progress.reading_start
  rw [load_eq_bind]
  generalize hhere : (Line.ofText part.content.toList).foldlM (Progress.take part) {} = here
    at hfold
  generalize lines.foldlM (Progress.take whole) p = there at hfold
  cases hfold with
  | error hplace => exact .error hplace
  | ok hdone =>
      obtain ⟨stage, hreading⟩ := Progress.exists_reading hhere
      exact hdone.finish hreading

theorem load_retold (h : Progress.Retold m {} {}) (hname : whole.name = part.name)
    (hlines : m.Lines (Line.ofText part.content.toList) (Line.ofText whole.content.toList)) :
    m.Agree whole (fun loaded loaded' => loaded' = loaded.retold m) (load part) (load whole) := by
  rw [load_eq_bind whole]
  exact h.foldlM_finish hname hlines

end Suite

end TreeAssay
