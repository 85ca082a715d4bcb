import TreeAssay.Proofs.Suite.Retelling
/-!
# Suites one behind the other

A suite that stands behind another text is loaded as it is on its own, moved by the lines
and bytes ahead of it, as soon as what stands ahead is loaded and leaves no testcase open.
And what rejects a line rejects it whatever comes behind.
-/

namespace TreeAssay

def Testcase.shift (lines : Nat) (t : Testcase) : Testcase :=
  { t with origin := ⟨t.origin.file, t.origin.line + lines⟩ }

namespace Suite

open TreeAssay.Text

def Warning.shift (lines : Nat) (warning : Warning) : Warning :=
  { warning with line := warning.line + lines }

/-- What stands ahead of a suite: its testcases and its warnings, in order, and how many line
feeds and bytes it has. -/
structure Ahead where
  testcases : List Testcase := []
  warnings : List Warning := []
  lines : Nat := 0
  bytes : Nat := 0

def Loaded.behind (loaded : Loaded) (a : Ahead) : Loaded where
  testcases := a.testcases ++ loaded.testcases.map (Testcase.shift a.lines)
  warnings := a.warnings ++ loaded.warnings.map (Warning.shift a.lines)

/-- The rejection of the text that holds both. -/
def Rejection.behind (rejection : Rejection) (a : Ahead) (whole : Source) : Rejection where
  error := { rejection.error with source := whole, span := rejection.error.span.shift a.bytes }
  warnings := a.warnings ++ rejection.warnings.map (Warning.shift a.lines)

/-- What comes of the text that holds both, given what comes of the suite behind. -/
def Ahead.outcome {α : Type} (a : Ahead) (whole : Source) (move : α → Ahead → α) :
    Except Rejection α → Except Rejection α
  | .ok result => .ok (move result a)
  | .error rejection => .error (rejection.behind a whole)

/-- A suite is told again behind what stands ahead. -/
def Ahead.retelling (a : Ahead) : Retelling where
  number line := line + a.lines
  place here there := there = here.shift a.bytes
  testcases := a.testcases
  warnings := a.warnings

section Retelling

variable {a : Ahead} {whole : Source}

theorem lines_shift (lines : List Line) :
    a.retelling.Lines lines (lines.map (Line.shift a.lines a.bytes)) :=
  .of_map fun line _ => .of_text rfl rfl fun _ => span_shift a.lines a.bytes line

theorem Ahead.outcome_of_agree {here there : Except Rejection Loaded}
    (h : a.retelling.Agree whole (fun loaded loaded' => loaded' = loaded.retold a.retelling) here
      there) : there = a.outcome whole Loaded.behind here := by
  cases h with
  | ok hloaded =>
      rw [hloaded]
      rfl
  | error hplace =>
      rw [hplace]
      rfl

end Retelling

/-! ## Where a suite may be cut -/

/-- What the last line that starts or ends a testcase does. -/
def lastTestcase? (lines : List Line) : Option Tag.Form :=
  (lines.filterMap fun line => (Mark.ofLine line.text).testcaseForm?).getLast?

theorem lastTestcase?_concat (front : List Line) (line : Line) :
    lastTestcase? (front ++ [line]) =
      (Mark.ofLine line.text).testcaseForm?.or (lastTestcase? front) := by
  rw [lastTestcase?, lastTestcase?, List.filterMap_append, List.getLast?_append,
    List.filterMap_cons, List.filterMap_nil]
  cases (Mark.ofLine line.text).testcaseForm? <;> rfl

theorem inTestcase_iff {source : Source} {lines : List Line} {p : Progress}
    (hfold : lines.foldlM (Progress.take source) {} = .ok p) :
    p.inTestcase ↔ lastTestcase? lines = some .opening := by
  induction lines using List.reverseRecOn generalizing p with
  | nil =>
      cases hfold
      simp [lastTestcase?]
  | append_singleton front line ih =>
      obtain ⟨before, hfront, htake⟩ := foldlM_concat_eq_ok.1 hfold
      obtain ⟨_, _, hin⟩ := Progress.take_eq_ok htake
      rw [lastTestcase?_concat, hin]
      cases (Mark.ofLine line.text).testcaseForm? with
      | none => simpa using ih hfront
      | some form => simp

theorem Scaffold.eq_empty_of_shows {s : Scaffold} (h : s.Shows []) : s = .empty := by
  obtain ⟨⟨nodes, later⟩, openNodes, lt⟩ := s
  obtain ⟨hnodes, hopen⟩ := h
  obtain rfl : nodes = #[] := Array.toList_inj.1 hnodes
  obtain rfl : openNodes = [] := hopen
  rfl

/-- Where no testcase and no node is open, nothing is left but what stands ahead. -/
theorem Progress.Reading.retold {lines : List Line} {p : Progress} {stage : Stage}
    (h : p.Reading lines stage) (hframes : stage.frames = []) (hin : ¬ p.inTestcase)
    (feeds bytes : Nat) :
    let a : Ahead := ⟨p.testcases.reverse, p.warnings.reverse, feeds, bytes⟩
    Progress.Retold a.retelling {} p := by
  have hshows := h.at_stage.shows
  have hopens := h.opens.length_eq
  rw [hframes] at hshows hopens
  obtain ⟨scaffold, spans, inTestcase, testcases, warnings⟩ := p
  obtain rfl : scaffold = .empty := Scaffold.eq_empty_of_shows hshows
  obtain rfl : spans = [] := List.length_eq_zero_iff.1 hopens
  obtain rfl : inTestcase = false := by simpa using hin
  exact ⟨rfl, .nil, rfl, (List.reverse_reverse _).symm, (List.reverse_reverse _).symm⟩

/-! ## Loading -/

section Loading

variable {name front back : String}

/-- Of the source that is read, only the name is seen in what is taken. -/
theorem foldlM_take_whole (name content whole : String) (lines : List Line) :
    Retelling.same.Agree ⟨name, whole⟩ (Progress.Retold .same)
      (lines.foldlM (Progress.take ⟨name, content⟩) {})
      (lines.foldlM (Progress.take ⟨name, whole⟩) {}) := by
  have hlines : Retelling.same.Lines lines (lines.map id) :=
    .of_map fun _ _ => .of_text rfl rfl fun _ => rfl
  rw [List.map_id] at hlines
  have hname : (Source.mk name whole).name = (Source.mk name content).name := rfl
  exact Progress.Retold.start.foldlM_take hname hlines Progress.reading_start

theorem foldlM_whole_of_error {content : String} (whole : String) {lines : List Line}
    {rejection : Rejection}
    (h : lines.foldlM (Progress.take ⟨name, content⟩) {} = .error rejection) :
    lines.foldlM (Progress.take ⟨name, whole⟩) {} =
      .error { rejection with error := { rejection.error with source := ⟨name, whole⟩ } } := by
  have hagree := foldlM_take_whole name content whole lines
  rw [h] at hagree
  obtain ⟨place, hwhole, hplace⟩ := hagree.of_error
  obtain rfl : rejection.error.span = place := hplace
  rw [hwhole]
  exact congrArg Except.error (rejection.retold_id Eq ⟨name, whole⟩ rejection.error.span)

theorem foldlM_whole_of_ok {content : String} (whole : String) {lines : List Line} {p : Progress}
    (h : lines.foldlM (Progress.take ⟨name, content⟩) {} = .ok p) :
    lines.foldlM (Progress.take ⟨name, whole⟩) {} = .ok p := by
  have hagree := foldlM_take_whole name content whole lines
  rw [h] at hagree
  obtain ⟨p', hwhole, hretold⟩ := hagree.of_ok
  rw [hwhole, hretold.eq]

theorem ofText_content_append (hcut : Line.Ended front.toList) (back : String) :
    Line.ofText (front ++ back).toList = Line.ofText front.toList ++
      (Line.ofText back.toList).map
        (Line.shift (front.toList.count '\n') (byteLength front.toList)) := by
  rw [String.toList_append, Line.ofText_append hcut]

theorem load_of_rejectsAt (hcut : Line.Ended front.toList) {line : Line} {rejection : Rejection}
    (h : RejectsAt ⟨name, front⟩ line rejection) :
    load ⟨name, front ++ back⟩ = .error { rejection with
      error := { rejection.error with source := ⟨name, front ++ back⟩ } } := by
  have hwhole := foldlM_whole_of_error (front ++ back) (foldlM_eq_error_iff.2 ⟨line, h⟩)
  rw [load_eq_bind, ofText_content_append hcut, List.foldlM_append, hwhole]
  rfl

theorem load_behind (hcut : Line.Ended front.toList) {loaded : Loaded}
    (hload : load ⟨name, front⟩ = .ok loaded)
    (hclosed : lastTestcase? (Line.ofText front.toList) ≠ some .opening) :
    load ⟨name, front ++ back⟩ =
      Ahead.outcome ⟨loaded.testcases, loaded.warnings, front.toList.count '\n',
        byteLength front.toList⟩ ⟨name, front ++ back⟩ Loaded.behind (load ⟨name, back⟩) := by
  obtain ⟨p, stage, hfold, hreading, hframes, rfl⟩ := exists_progress_of_load hload
  have hwhole : (Line.ofText front.toList).foldlM (Progress.take ⟨name, front ++ back⟩) {} =
      .ok p := foldlM_whole_of_ok _ hfold
  have hin : ¬ p.inTestcase := fun hin => hclosed ((inTestcase_iff hfold).1 hin)
  generalize ha : Ahead.mk p.testcases.reverse p.warnings.reverse (front.toList.count '\n')
    (byteLength front.toList) = a
  have hp : Progress.Retold a.retelling {} p := by
    rw [← ha]
    exact hreading.retold hframes hin _ _
  have hlines := ofText_content_append hcut back
  rw [show front.toList.count '\n' = a.lines by rw [← ha],
    show byteLength front.toList = a.bytes by rw [← ha]] at hlines
  have hname : (Source.mk name (front ++ back)).name = (Source.mk name back).name := rfl
  rw [load_eq_bind ⟨name, front ++ back⟩, hlines, foldlM_append_of_ok hwhole]
  exact Ahead.outcome_of_agree (hp.foldlM_finish hname (lines_shift _))

/-- A text that ends with a line feed, or is empty, decides what becomes of it.  Where it is
rejected at a line, so is any text that it begins, at the same place and for the same
reason.  Where it is loaded and leaves no testcase open, what comes behind is loaded or
rejected as it is on its own, moved by the line feeds and the bytes ahead. -/
theorem load_append (hcut : Line.Ended front.toList) (back : String) :
    (∀ line rejection, RejectsAt ⟨name, front⟩ line rejection →
      load ⟨name, front ++ back⟩ = .error { rejection with
        error := { rejection.error with source := ⟨name, front ++ back⟩ } }) ∧
    (∀ loaded, load ⟨name, front⟩ = .ok loaded →
      lastTestcase? (Line.ofText front.toList) ≠ some .opening →
      load ⟨name, front ++ back⟩ =
        Ahead.outcome ⟨loaded.testcases, loaded.warnings, front.toList.count '\n',
          byteLength front.toList⟩ ⟨name, front ++ back⟩ Loaded.behind (load ⟨name, back⟩)) :=
  ⟨fun _ _ hrejects => load_of_rejectsAt hcut hrejects,
    fun _ hload hclosed => load_behind hcut hload hclosed⟩

theorem load_append_cut :
    let broken : String := "<Testcase type=\"Int\">\n<Node op=\"Add\"/ >\n</Testcase>\n"
    let whole : String := "<Node\n<Testcase type=\"Int\">\r\n</Testcase>\n"
    let behind : String := "<Testcase canProduce=\"Short\">\n<Node op=\"Add\" null=\"yes\"/>"
    (∃ line rejection, RejectsAt ⟨"a.xml", broken⟩ line rejection ∧
      load ⟨"a.xml", broken ++ behind⟩ = .error { rejection with
        error := { rejection.error with source := ⟨"a.xml", broken ++ behind⟩ } }) ∧
    ∃ loaded, load ⟨"a.xml", whole⟩ = .ok loaded ∧
      lastTestcase? (Line.ofText whole.toList) ≠ some .opening ∧
      load ⟨"a.xml", whole ++ behind⟩ =
        Ahead.outcome ⟨loaded.testcases, loaded.warnings, 3, 41⟩ ⟨"a.xml", whole ++ behind⟩
          Loaded.behind (load ⟨"a.xml", behind⟩) := by
  intro broken whole behind
  have hbroken : Line.Ended broken.toList := .inr ⟨broken.toList.dropLast, by decide⟩
  have hwhole : Line.Ended whole.toList := .inr ⟨whole.toList.dropLast, by decide⟩
  obtain ⟨rejection, hfold⟩ := exists_eq_error (x := (Line.ofText broken.toList).foldlM
    (Progress.take ⟨"a.xml", broken⟩) {}) (by decide +kernel)
  obtain ⟨line, hrejects⟩ := foldlM_eq_error_iff.1 hfold
  obtain ⟨loaded, hload⟩ := exists_eq_ok (x := load ⟨"a.xml", whole⟩) (by decide +kernel)
  have hclosed : lastTestcase? (Line.ofText whole.toList) ≠ some .opening := by decide +kernel
  have happend := (load_append hwhole behind).2 loaded hload hclosed
  rw [show whole.toList.count '\n' = 3 by decide +kernel,
    show byteLength whole.toList = 41 by decide +kernel] at happend
  exact ⟨⟨line, rejection, hrejects, (load_append hbroken behind).1 line rejection hrejects⟩,
    loaded, hload, hclosed, happend⟩

end Loading

end Suite

end TreeAssay
