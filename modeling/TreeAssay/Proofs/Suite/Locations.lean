import TreeAssay.Proofs.Markup.Tag
import TreeAssay.Proofs.Suite.Progress
import TreeAssay.Proofs.Text.Lines
/-!
# Where rejections point

A rejection points at the tag of a line: the line that cannot be taken or, where all lines
are taken, the one that starts the innermost node still open.  Its span covers this line
without the indentation and the blank characters at the end.
-/

namespace TreeAssay

open TreeAssay.Text

/-- The span covers `body`, which stands in the text on a physical line of its own, between
an indentation and blank characters. -/
structure Span.Covers (span : Span) (text front indent body trail back : List Char) : Prop where
  text_eq : text = front ++ (indent ++ body ++ trail) ++ back
  first : Line.Ended front
  last : back = [] ∨ ∃ rest, back = '\n' :: rest
  single : '\n' ∉ indent ++ body ++ trail
  indented : ∀ c ∈ indent, Tag.isIndent c
  head : ∀ c ∈ body.head?, ¬ Tag.isIndent c
  trailed : ∀ c ∈ trail, isBlank c
  tail : ∀ c ∈ body.getLast?, ¬ isBlank c
  offset : span.offset = byteLength (front ++ indent)
  length : span.length = byteLength body

namespace Suite

theorem isBlank_of_isEnd {c : Char} (h : Line.isEnd c) : isBlank c := by
  simp only [Line.isEnd, Bool.or_eq_true, beq_iff_eq] at h
  rcases h with rfl | rfl <;> rfl

theorem span_covers {line : Line} {text front whole back : List Char}
    (hstands : line.Stands text front whole back)
    (hhead : (trimEnd (Tag.unindent line.text)).head? = some '<') :
    ∃ trail, (span line).Covers text front (line.text.takeWhile Tag.isIndent)
      (trimEnd (Tag.unindent line.text)) trail back := by
  obtain ⟨ending, hwhole, hending⟩ := hstands.trimmed
  obtain ⟨blanks, hblanks, hblank⟩ := exists_trimEnd (Tag.unindent line.text)
  have hline : line.text = line.text.takeWhile Tag.isIndent ++
      (trimEnd (Tag.unindent line.text) ++ blanks) := by
    rw [← hblanks]
    exact (List.takeWhile_append_dropWhile).symm
  have hpieces : whole = line.text.takeWhile Tag.isIndent ++
      trimEnd (Tag.unindent line.text) ++ (blanks ++ ending) := by
    rw [hwhole, ← List.append_assoc, List.append_assoc _ _ blanks, ← hline]
  refine ⟨blanks ++ ending, ?_, hstands.first, hstands.last, ?_, ?_, ?_, ?_,
    getLast?_trimEnd _, ?_, rfl⟩
  · rw [← hpieces]
    exact hstands.text_eq
  · rw [← hpieces]
    exact hstands.single
  · exact fun c hc => List.all_eq_true.1 List.all_takeWhile c hc
  · intro c hc
    cases hhead.symm.trans hc
    decide
  · intro c hc
    rcases List.mem_append.1 hc with hc | hc
    · exact hblank c hc
    · exact isBlank_of_isEnd (hending c hc)
  · rw [byteLength_append, ← hstands.offset]
    rfl

theorem exists_name_of_mark {line : List Char} {subject : Subject} {form : Tag.Form}
    (h : Mark.ofLine line = .tag subject form) :
    ∃ name, Tag.name? line = some name ∧
      (name = "Testcase".toList ∨ name = "Node".toList) := by
  unfold Mark.ofLine at h
  split at h
  next => cases h
  next name hname =>
    rw [ofName?_eq] at h
    refine ⟨name, hname, ?_⟩
    by_cases htestcase : name = "Testcase".toList
    · exact .inl htestcase
    · by_cases hnode : name = "Node".toList
      · exact .inr hnode
      · rw [if_neg htestcase, if_neg hnode] at h
        cases h

/-- The span points at the tag that the line starts or ends something with. -/
structure PointsAt (source : Source) (line : Line) (place : Span) (body : List Char) : Prop where
  at_line : place = span line
  covers : ∃ front indent trail back,
    place.Covers source.content.toList front indent body trail back ∧
      line.number = front.count '\n' + 1
  starts : body.head? = some '<'
  named : Tag.name? body = some "Testcase".toList ∨ Tag.name? body = some "Node".toList
  nonempty : 0 < place.length

theorem pointsAt_of_mark {source : Source} {line : Line}
    (hline : line ∈ Line.ofText source.content.toList) {subject : Subject} {form : Tag.Form}
    (hmark : Mark.ofLine line.text = .tag subject form) :
    PointsAt source line (span line) (trimEnd (Tag.unindent line.text)) := by
  obtain ⟨name, hname, hsubject⟩ := exists_name_of_mark hmark
  have hplain : ∀ c ∈ name, ¬ isBlank c := by
    have hall : name.all (!isBlank ·) = true := by
      rcases hsubject with rfl | rfl <;> decide
    simpa using hall
  obtain ⟨hhead, hname'⟩ := Tag.name?_trimEnd hname hplain
  obtain ⟨front, whole, back, hstands⟩ := Line.exists_stands hline
  obtain ⟨trail, hcovers⟩ := span_covers hstands hhead
  refine ⟨rfl, ⟨_, _, _, _, hcovers, hstands.number⟩, hhead, ?_, ?_⟩
  · rcases hsubject with rfl | rfl
    · exact .inl hname'
    · exact .inr hname'
  · apply byteLength_pos
    intro hnil
    rw [hnil] at hhead
    cases hhead

/-- Where the tag of a line stands in the text, without a source around it. -/
theorem exists_covers {text : List Char} {line : Line} (hline : line ∈ Line.ofText text)
    {subject : Subject} {form : Tag.Form} (hmark : Mark.ofLine line.text = .tag subject form) :
    trimEnd (Tag.unindent line.text) ≠ [] ∧ ∃ front indent trail back,
      (span line).Covers text front indent (trimEnd (Tag.unindent line.text)) trail back ∧
        line.number = front.count '\n' + 1 := by
  have hcontent : line ∈ Line.ofText (Source.mk "" (.ofList text)).content.toList := by
    rwa [String.toList_ofList]
  have hpoints := pointsAt_of_mark hcontent hmark
  have hcovers := hpoints.covers
  rw [String.toList_ofList] at hcovers
  refine ⟨fun hnil => ?_, hcovers⟩
  have hstarts := hpoints.starts
  rw [hnil] at hstarts
  cases hstarts

/-! ## The line that is to blame -/

/-- The line is the first that cannot be taken, for the reason of the rejection. -/
def RejectsAt (source : Source) (line : Line) (rejection : Rejection) : Prop :=
  ∃ front back p, Line.ofText source.content.toList = front ++ line :: back ∧
    front.foldlM (Progress.take source) {} = .ok p ∧
    Progress.take source p line = .error rejection

/-- All lines are taken, and this one starts a node that is still open then, the innermost:
the nodes that start behind it are whole. -/
def LeftOpen (source : Source) (line : Line) : Prop :=
  ∃ front back p leaf row steps, Line.ofText source.content.toList = front ++ line :: back ∧
    (Line.ofText source.content.toList).foldlM (Progress.take source) {} = .ok p ∧
    Tells line (.node (.start (.node leaf) false)) ∧ Decoded back (steps.map .node) ∧
    Row.Spelled row steps

theorem foldlM_eq_error_iff {source : Source} {rejection : Rejection} :
    (Line.ofText source.content.toList).foldlM (Progress.take source) {} = .error rejection ↔
      ∃ line, RejectsAt source line rejection := by
  rw [foldlM_eq_error]
  constructor
  · rintro ⟨front, line, back, p, hlines, hfront, htake⟩
    exact ⟨line, front, back, p, hlines, hfront, htake⟩
  · rintro ⟨line, front, back, p, hlines, hfront, htake⟩
    exact ⟨front, line, back, p, hlines, hfront, htake⟩

theorem leftOpen_of_finish {source : Source} {p : Progress} {rejection : Rejection}
    (hfold : (Line.ofText source.content.toList).foldlM (Progress.take source) {} = .ok p)
    (hfinish : p.finish source = .error rejection) :
    ∃ line, LeftOpen source line ∧ rejection.error.source = source ∧
      rejection.error.span = span line := by
  obtain ⟨stage, hreading⟩ := Progress.exists_reading hfold
  have hopens := hreading.opens
  rw [Progress.finish, Scaffold.finish_of_shows hreading.at_stage.shows] at hfinish
  generalize hframes : stage.frames = frames at hopens hfinish
  generalize hlines : Line.ofText source.content.toList = lines at hopens
  generalize hspans : p.openSpans = spans at hopens hfinish
  cases hopens with
  | idle => cases hfinish
  | @cons before line behind f _ _ steps _ htells hbehind hdone =>
      cases hfinish
      refine ⟨line, ⟨before, behind, p, f.leaf, f.done, steps, hlines, hfold, htells, hbehind,
        hdone⟩, rfl, rfl⟩

theorem RejectsAt.blames {source : Source} {line : Line} {rejection : Rejection}
    (h : RejectsAt source line rejection) :
    rejection.error.source = source ∧ rejection.error.span = span line ∧
      ∃ body, PointsAt source line (span line) body := by
  obtain ⟨front, back, p, hlines, _, htake⟩ := h
  obtain ⟨⟨subject, form, hmark⟩, _, hlies, _⟩ := Progress.take_eq_error htake
  exact ⟨hlies.source_eq, hlies.span_eq, _, pointsAt_of_mark (by simp [hlines]) hmark⟩

theorem LeftOpen.exists_pointsAt {source : Source} {line : Line} (h : LeftOpen source line) :
    ∃ body, PointsAt source line (span line) body := by
  obtain ⟨front, back, _, leaf, _, _, hlines, _, htells, _⟩ := h
  obtain ⟨subject, form, hmark⟩ := htells.exists_mark
  exact ⟨_, pointsAt_of_mark (by simp [hlines]) hmark⟩

theorem PointsAt.ne_nowhere {source : Source} {line : Line} {place : Span} {body : List Char}
    (h : PointsAt source line place body) : place ≠ .nowhere := by
  intro hnowhere
  have hnonempty := h.nonempty
  rw [hnowhere] at hnonempty
  exact absurd hnonempty (by decide)

/-- What is rejected is rejected at a tag, and the rejection points at it. -/
theorem load_error_points {source : Source} {rejection : Rejection}
    (hload : load source = .error rejection) :
    ∃ line body, (RejectsAt source line rejection ∨ LeftOpen source line) ∧
      rejection.error.source = source ∧ rejection.error.span ≠ .nowhere ∧
      PointsAt source line rejection.error.span body := by
  unfold load at hload
  split at hload
  next rejection' hfold =>
    cases hload
    obtain ⟨line, hrejects⟩ := foldlM_eq_error_iff.1 hfold
    obtain ⟨hsource, hspan, body, hbody⟩ := hrejects.blames
    rw [hspan]
    exact ⟨line, body, .inl hrejects, hsource, hbody.ne_nowhere, hbody⟩
  next p hfold =>
    obtain ⟨line, hopen, hsource, hspan⟩ := leftOpen_of_finish hfold hload
    obtain ⟨body, hbody⟩ := hopen.exists_pointsAt
    rw [hspan]
    exact ⟨line, body, .inr hopen, hsource, hbody.ne_nowhere, hbody⟩

theorem load_error_points_unclosed :
    let source : Source := ⟨"open.xml", "<Testcase type=\"Int\">\r\n\t<Node op=\"Add\"> \r\n" ++
      "<Node op=\"Add\">\n</Node>\n<Node null=\"yes\"/>"⟩
    ∃ rejection, load source = .error rejection ∧ rejection.error.span = ⟨24, 15⟩ ∧
      ∃ line body, (RejectsAt source line rejection ∨ LeftOpen source line) ∧
        rejection.error.source = source ∧ rejection.error.span ≠ .nowhere ∧
        PointsAt source line rejection.error.span body := by
  intro source
  have hspan : ((load source).map fun _ => ()).mapError (fun rejection => rejection.error.span) =
      .error ⟨24, 15⟩ := by
    decide +kernel
  cases hload : load source with
  | error rejection =>
      rw [hload] at hspan
      exact ⟨rejection, rfl, Except.error.inj hspan, load_error_points hload⟩
  | ok loaded =>
      rw [hload] at hspan
      cases hspan

end Suite

end TreeAssay
