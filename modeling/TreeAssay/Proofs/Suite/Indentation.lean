import TreeAssay.Proofs.Markup.Indentation
import TreeAssay.Proofs.Suite.Retelling
import TreeAssay.Proofs.Text.Edits
/-!
# Indented suites

Spaces and tabs at the start of a line change nothing of what its tag starts or ends, but they
may change the attributes that are read from it.  A line that is taken has attributes, so all of
them have a space before their names already, and a suite that is loaded is loaded to the same
however it is indented.  A suite that is rejected is rejected for the same reason, unless no
attribute is got from the line to blame because the first lacks a space before its name, and the
indentation is that space.
-/

namespace TreeAssay

open TreeAssay.Text

namespace Attributes

theorem Expects.pairs_ne_nil {attrs : Attributes} {e : Expectation} (h : attrs.Expects e) :
    attrs.pairs ≠ [] := by
  intro hnil
  have hget (name : String) : attrs.get? name = none := by
    rw [get?, hnil]
    rfl
  cases h with
  | canProduce hname => simp [nonEmpty?, hget] at hname
  | cannotProduce _ hname => simp [nonEmpty?, hget] at hname
  | @value kind _ _ hname =>
      rw [hget] at hname
      cases kind <;> exact absurd hname (by decide)

theorem Enters.pairs_ne_nil {attrs : Attributes} {e : Entry} (h : attrs.Enters e) :
    attrs.pairs ≠ [] := by
  intro hnil
  have hget (name : String) : attrs.get? name = none := by
    rw [get?, hnil]
    rfl
  cases h with
  | null _ hnull => simp [isTruthy, hget] at hnull
  | node hop _ _ => simp [nonEmpty?, hget] at hop

end Attributes

namespace Suite

/-- What a line starts is told by its attributes, so there are some. -/
theorem Tells.pairs_ne_nil {line : Line} {token : Token} (h : Tells line token)
    (hstarts : (Mark.ofLine line.text).Starts) : (Attributes.ofTag line.text).pairs ≠ [] := by
  obtain ⟨subject, form, hmark, hform⟩ := hstarts
  have hevent := event?_ofLine line.text
  rw [hmark] at hevent
  cases h with
  | testcase hline hexpects =>
      rw [hline] at hevent
      cases subject <;> cases form <;> cases hevent
      · exact hexpects.pairs_ne_nil
      · exact hexpects.pairs_ne_nil
  | start hline henters =>
      rw [hline] at hevent
      cases subject <;> cases form <;> cases hevent
      · exact henters.pairs_ne_nil
      · exact henters.pairs_ne_nil
  | endTestcase hline | close hline =>
      rw [hline] at hevent
      cases subject <;> cases form <;> first | exact absurd rfl hform | cases hevent

/-! ## Indented lines -/

variable {text text' : List Char} {line line' : Line}

/-- The same lines with the same numbers, and the same text at both places. -/
def indentation (text text' : List Char) : Retelling where
  number := id
  place here there := ∃ front indent body trail back front' indent' trail' back', body ≠ [] ∧
    here.Covers text front indent body trail back ∧
      there.Covers text' front' indent' body trail' back' ∧
      front'.count '\n' = front.count '\n'

theorem mark_indent {indent : List Char} (h : ∀ c ∈ indent, Tag.isIndent c) (row : List Char) :
    Mark.ofLine (indent ++ row) = Mark.ofLine row := by
  unfold Mark.ofLine
  simp only [Tag.name?_indent h, Tag.form?_indent h]

theorem mark_of_indent {row : List Char} (h : ∀ c ∈ row, Tag.isIndent c) :
    Mark.ofLine row = .foreign := by
  have hmark := mark_indent h []
  rwa [List.append_nil] at hmark

theorem attributes_of_indented (h : line.Indented line')
    (hnamed : Attributes.Unnamed line.text → Attributes.Unnamed line'.text) :
    Attributes.ofTag line'.text = Attributes.ofTag line.text := by
  obtain ⟨indent, hindent, htext⟩ := h.text
  by_cases hunnamed : Attributes.Unnamed line.text
  · rw [Attributes.ofTag_of_unnamed hunnamed, Attributes.ofTag_of_unnamed (hnamed hunnamed)]
  · rw [htext, Attributes.ofTag_indent_iff hindent]
    exact fun hgains => hunnamed hgains.1

theorem corresponds_of_indented (h : line.Indented line') (hline : line ∈ Line.ofText text)
    (hline' : line' ∈ Line.ofText text') :
    Line.Corresponds (indentation text text') line line' := by
  obtain ⟨hnumber, indent, hindent, htext⟩ := h
  have hmark : Mark.ofLine line'.text = Mark.ofLine line.text := by
    rw [htext, mark_indent hindent]
  refine ⟨hnumber, hmark, fun htag => ?_⟩
  obtain ⟨hne, front, space, trail, back, hcovers, hfeeds⟩ := exists_covers hline htag
  obtain ⟨_, front', space', trail', back', hcovers', hfeeds'⟩ :=
    exists_covers hline' (hmark.trans htag)
  rw [htext, Tag.unindent_indent hindent] at hcovers'
  refine ⟨front, space, _, trail, back, front', space', trail', back', hne, hcovers, hcovers', ?_⟩
  omega

/-- A line that is taken has attributes, if it starts anything. -/
theorem not_unnamed_of_take {source : Source} {p p' : Progress}
    (htake : p.take source line = .ok p') (hstarts : (Mark.ofLine line.text).Starts) :
    ¬ Attributes.Unnamed line.text := by
  intro hunnamed
  have hpairs : (Attributes.ofTag line.text).pairs = [] := by
    rw [Attributes.ofTag_of_unnamed hunnamed]
  rcases Progress.tells_of_take htake with hnone | ⟨token, htells⟩
  · obtain ⟨subject, form, hmark, hform⟩ := hstarts
    rw [← event?_ofLine, hmark] at hnone
    cases subject <;> cases form <;> first | exact absurd rfl hform | cases hnone
  · exact htells.pairs_ne_nil hstarts hpairs

theorem not_unnamed_of_foldlM {source : Source} {lines : List Line} {p p' : Progress}
    (hfold : lines.foldlM (Progress.take source) p = .ok p') :
    ∀ line ∈ lines, (Mark.ofLine line.text).Starts → ¬ Attributes.Unnamed line.text := by
  induction lines generalizing p with
  | nil => simp
  | cons line lines ih =>
      obtain ⟨next, htake, hrest⟩ := foldlM_cons_eq_ok.1 hfold
      intro other hmem
      rcases List.mem_cons.1 hmem with rfl | hmem
      · exact not_unnamed_of_take htake
      · exact ih hrest other hmem

/-- Lines that are taken are told again when they are indented. -/
theorem lines_indented {lines lines' : List Line} (h : List.Forall₂ Line.Indented lines lines')
    (hlines : ∀ line ∈ lines, line ∈ Line.ofText text)
    (hlines' : ∀ line' ∈ lines', line' ∈ Line.ofText text')
    (hnamed : ∀ line ∈ lines, (Mark.ofLine line.text).Starts → ¬ Attributes.Unnamed line.text) :
    (indentation text text').Lines lines lines' := by
  induction h with
  | nil => exact .nil
  | @cons line line' lines lines' hline _ ih =>
      refine .cons ⟨corresponds_of_indented hline (hlines line (by simp)) (hlines' line' (by simp)),
        fun hstarts => ?_⟩ (ih ?_ ?_ ?_)
      · exact attributes_of_indented hline fun hunnamed =>
          absurd hunnamed (hnamed line (by simp) hstarts)
      · exact fun line hmem => hlines line (by simp [hmem])
      · exact fun line' hmem => hlines' line' (by simp [hmem])
      · exact fun line hmem => hnamed line (by simp [hmem])

/-! ## A name that is gained -/

/-- The attributes of the line are read but none is got, because the first lacks a space before
its name, and this the indented line has. -/
structure GainsName (name : String) (rejection : Rejection) (line line' : Line) : Prop where
  warned : ⟨name, line.number, .malformedAttributes 0⟩ ∈ rejection.warnings
  lacked : Attributes.Unnamed line.text
  gained : ¬ Attributes.Unnamed line'.text

theorem concern_of_unnamed (hstarts : (Mark.ofLine line.text).Starts)
    (hunnamed : Attributes.Unnamed line.text) :
    Concern.ofLine? line.text = some (.malformedAttributes 0) := by
  obtain ⟨subject, form, hmark, hform⟩ := hstarts
  rw [Concern.ofLine?, hmark, Attributes.ofTag_of_unnamed hunnamed]
  cases form with
  | closing => exact absurd rfl hform
  | opening | selfClosing => rfl

theorem concern_of_gained (h : line.Indented line') (hlacked : Attributes.Unnamed line.text)
    (hgained : ¬ Attributes.Unnamed line'.text) :
    Concern.ofLine? line'.text ≠ some (.malformedAttributes 0) := by
  obtain ⟨indent, hindent, htext⟩ := h.text
  have hspace : ' ' ∈ indent := by
    by_contra hspace
    rw [htext] at hgained
    exact hgained (Attributes.unnamed_indent hindent hlacked hspace)
  have hpairs : (Attributes.ofTag line'.text).pairs ≠ [] := by
    rw [htext]
    exact Attributes.pairs_indent_ne_nil hindent hlacked hspace
  intro hconcern
  have hsize : (Attributes.ofTag line'.text).size = 0 := by
    unfold Concern.ofLine? at hconcern
    split at hconcern
    next => cases hconcern
    next => cases hconcern
    next => cases hconcern
    all_goals
      unfold Concern.ofAttributes? at hconcern
      split at hconcern
      next => exact Concern.malformedAttributes.inj (Option.some.inj hconcern)
      next => cases hconcern
  exact hpairs (Attributes.pairs_eq_nil_of_size hsize)

/-- Once the name is gained, the line is not said to have given no attribute. -/
theorem not_warned_of_gained {name : String} {rejection rejection' : Rejection}
    (h : line.Indented line') (hline' : line' ∈ Line.ofText text')
    (hgains : GainsName name rejection line line')
    (hload : load ⟨name, .ofList text'⟩ = .error rejection') :
    ⟨name, line.number, .malformedAttributes 0⟩ ∉ rejection'.warnings := by
  intro hwarned
  obtain ⟨other, hother, habout⟩ := about_of_mem_warnings hload hwarned
  rw [String.toList_ofList] at hother
  obtain ⟨concern, hconcern, heq⟩ := List.mem_map.1 habout
  obtain ⟨_, hnumber, rfl⟩ := Warning.mk.inj heq
  obtain rfl : other = line' := Line.eq_of_number hother hline' (hnumber.trans h.number.symm)
  exact concern_of_gained h hgains.lacked hgains.gained (Option.mem_toList.1 hconcern)

/-! ## Loading -/

theorem exists_split_of_forall₂ {front back lines' : List Line}
    (h : List.Forall₂ Line.Indented (front ++ line :: back) lines') :
    ∃ front' line' back', lines' = front' ++ line' :: back' ∧
      List.Forall₂ Line.Indented front front' ∧ line.Indented line' := by
  induction front generalizing lines' with
  | nil =>
      obtain ⟨line', back', hline, _, rfl⟩ := List.forall₂_cons_left_iff.1 h
      exact ⟨[], line', back', rfl, .nil, hline⟩
  | cons first front ih =>
      obtain ⟨first', rest, hfirst, hrest, rfl⟩ := List.forall₂_cons_left_iff.1 h
      obtain ⟨front', line', back', rfl, hfront, hline⟩ := ih hrest
      exact ⟨first' :: front', line', back', rfl, .cons hfirst hfront, hline⟩

/-- Where all lines are taken, all of them are told again. -/
theorem load_indented_of_taken (name : String) (h : Line.Indents text text') {p : Progress}
    (hfold : (Line.ofText text).foldlM (Progress.take ⟨name, .ofList text⟩) {} = .ok p) :
    (indentation text text').Agree ⟨name, .ofList text'⟩
      (fun loaded loaded' => loaded' = loaded.retold (indentation text text'))
      (load ⟨name, .ofList text⟩) (load ⟨name, .ofList text'⟩) := by
  obtain ⟨lines, blank, hlines, hpaired, hblank⟩ := Line.ofText_indents h
  have hmem : ∀ line' ∈ lines, line' ∈ Line.ofText text' := by
    intro line' hline'
    rw [hlines]
    exact List.mem_append_left blank hline'
  have htold := lines_indented hpaired (fun line hline => hline) hmem
    (not_unnamed_of_foldlM hfold)
  have hforeign : (indentation text text').Lines [] blank :=
    .of_foreign fun line hline => mark_of_indent (hblank line hline)
  have hall := htold.append hforeign
  rw [List.append_nil, ← hlines] at hall
  refine load_retold .start rfl ?_
  rw [String.toList_ofList, String.toList_ofList]
  exact hall

/-- The lines ahead of the one to blame are told again, and so is this one, unless it gains a
name. -/
theorem load_indented_of_rejectsAt (name : String) (h : Line.Indents text text')
    {rejection : Rejection} (hrejects : RejectsAt ⟨name, .ofList text⟩ line rejection)
    (hgains : ∀ line' ∈ Line.ofText text', line.Indented line' →
      ¬ GainsName name rejection line line') :
    ∃ place, load ⟨name, .ofList text'⟩ =
        .error (rejection.retold (indentation text text') ⟨name, .ofList text'⟩ place) ∧
      (indentation text text').place rejection.error.span place := by
  obtain ⟨front, back, p, hsplit, hfold, htake⟩ := hrejects
  obtain ⟨lines, blank, hlines, hpaired, _⟩ := Line.ofText_indents h
  rw [String.toList_ofList] at hsplit
  rw [hsplit] at hpaired
  obtain ⟨front', line', back', rfl, hfront, hline⟩ := exists_split_of_forall₂ hpaired
  rw [List.append_assoc, List.cons_append] at hlines
  have hmem : ∀ other ∈ front, other ∈ Line.ofText text := by simp +contextual [hsplit]
  have hmem' : ∀ other ∈ front', other ∈ Line.ofText text' := by simp +contextual [hlines]
  have hline' : line' ∈ Line.ofText text' := by simp [hlines]
  have hname : (Source.mk name (.ofList text')).name = (Source.mk name (.ofList text)).name := rfl
  have hahead := Progress.Retold.start.foldlM_take hname
    (lines_indented hfront hmem hmem' (not_unnamed_of_foldlM hfold)) Progress.reading_start
  rw [hfold] at hahead
  obtain ⟨p', hfold', hretold⟩ := hahead.of_ok
  have hattrs : p.Reads line.text →
      Attributes.ofTag line'.text = Attributes.ofTag line.text := by
    refine fun hreads => attributes_of_indented hline fun hunnamed => ?_
    by_contra hgained
    refine hgains line' hline' hline ⟨?_, hunnamed, hgained⟩
    obtain ⟨_, said, hlies, hread, _⟩ := Progress.take_eq_error htake
    rw [hlies.warnings_eq, hread hreads, concern_of_unnamed hreads.starts hunnamed]
    exact List.mem_append_right _ List.mem_cons_self
  obtain ⟨stage, hreading⟩ := Progress.exists_reading hfold
  have hblamed := hretold.take hreading.anchored hname
    (corresponds_of_indented hline (by simp [hsplit]) hline') hattrs
  rw [htake] at hblamed
  obtain ⟨place, htake', hplace⟩ := hblamed.of_error
  refine ⟨place, ?_, hplace⟩
  rw [load_eq_bind, String.toList_ofList, hlines, foldlM_append_of_ok hfold', List.foldlM_cons,
    htake']
  rfl

/-- Both suites are loaded to the same testcases and warnings, or rejected for the same reason
and with the same warnings, at the places of the same text on lines of the same number. -/
inductive SameOutcome (name : String) (text text' : List Char) : Prop
  | loaded {loaded} : load ⟨name, .ofList text⟩ = .ok loaded →
      load ⟨name, .ofList text'⟩ = .ok loaded → SameOutcome name text text'
  | rejected {rejection place front indent body trail back front' indent' trail' back'} :
      load ⟨name, .ofList text⟩ = .error rejection → body ≠ [] →
      rejection.error.span.Covers text front indent body trail back →
      place.Covers text' front' indent' body trail' back' →
      front'.count '\n' = front.count '\n' →
      load ⟨name, .ofList text'⟩ = .error { rejection with
        error := { rejection.error with source := ⟨name, .ofList text'⟩, span := place } } →
      SameOutcome name text text'

theorem sameOutcome_of_told {name : String} {rejection : Rejection}
    (hload : load ⟨name, .ofList text⟩ = .error rejection)
    (h : ∃ place, load ⟨name, .ofList text'⟩ =
        .error (rejection.retold (indentation text text') ⟨name, .ofList text'⟩ place) ∧
      (indentation text text').place rejection.error.span place) :
    SameOutcome name text text' := by
  obtain ⟨place, hload', front, indent, body, trail, back, front', indent', trail', back', hne,
    hcovers, hcovers', hfeeds⟩ := h
  rw [indentation, Rejection.retold_id] at hload'
  exact .rejected hload hne hcovers hcovers' hfeeds hload'

theorem RejectsAt.load_eq {source : Source} {rejection : Rejection}
    (h : RejectsAt source line rejection) : load source = .error rejection := by
  rw [load_eq_bind, foldlM_eq_error_iff.2 ⟨line, h⟩]
  rfl

/-- A suite that is loaded is loaded to the same however its lines are indented.  A suite that is
rejected has the same outcome exactly if the line to blame does not gain a name. -/
theorem load_indented (name : String) {text text' : List Char} (h : Line.Indents text text') :
    (∀ loaded, load ⟨name, .ofList text⟩ = .ok loaded →
      load ⟨name, .ofList text'⟩ = .ok loaded) ∧
    (SameOutcome name text text' ↔ ¬ ∃ rejection line line',
      RejectsAt ⟨name, .ofList text⟩ line rejection ∧ line' ∈ Line.ofText text' ∧
        line.Indented line' ∧ GainsName name rejection line line') := by
  have hloaded : ∀ loaded, load ⟨name, .ofList text⟩ = .ok loaded →
      load ⟨name, .ofList text'⟩ = .ok loaded := by
    intro loaded hload
    obtain ⟨p, _, hfold, _⟩ := exists_progress_of_load hload
    rw [String.toList_ofList] at hfold
    have hagree := load_indented_of_taken name h hfold
    rw [hload] at hagree
    obtain ⟨loaded', hload', rfl⟩ := hagree.of_ok
    rw [hload', indentation, Loaded.retold_id]
  refine ⟨hloaded, ?_, ?_⟩
  · rintro hsame ⟨rejection, line, line', hrejects, hline', hindented, hgains⟩
    cases hsame with
    | loaded hload _ => cases hrejects.load_eq.symm.trans hload
    | rejected hload _ _ _ _ hload' =>
        cases hrejects.load_eq.symm.trans hload
        exact not_warned_of_gained hindented hline' hgains hload' hgains.warned
  · intro hnever
    cases hload : load ⟨name, .ofList text⟩ with
    | ok loaded => exact .loaded hload (hloaded loaded hload)
    | error rejection =>
        obtain ⟨line, _, hblame, _⟩ := load_error_points hload
        rcases hblame with hrejects | ⟨_, _, p, _, _, _, _, hfold, _⟩
        · exact sameOutcome_of_told hload (load_indented_of_rejectsAt name h hrejects
            fun line' hline' hindented hgains =>
              hnever ⟨rejection, line, line', hrejects, hline', hindented, hgains⟩)
        · rw [String.toList_ofList] at hfold
          have hagree := load_indented_of_taken name h hfold
          rw [hload] at hagree
          exact sameOutcome_of_told hload hagree.of_error

theorem load_indented_both :
    let start := "<Testcase type=\"Int\">".toList
    let whole := start ++ '\n' :: "</Testcase>".toList
    let whole' := "\t".toList ++ start ++ '\n' :: ("  ".toList ++ "</Testcase>".toList)
    let both := "<Node op=\"Add\" null=\"yes\"/>".toList
    let broken := start ++ '\n' :: both
    let broken' := "\t".toList ++ start ++ '\n' :: ("  ".toList ++ both)
    Line.Indents whole whole' ∧ Line.Indents broken broken' ∧
      (∃ loaded, load ⟨"a.xml", .ofList whole⟩ = .ok loaded ∧
        load ⟨"a.xml", .ofList whole'⟩ = .ok loaded) ∧
      (∃ rejection, load ⟨"a.xml", .ofList broken⟩ = .error rejection) ∧
      SameOutcome "a.xml" broken broken' := by
  intro start whole whole' both broken broken'
  have htab : ∀ c ∈ "\t".toList, Tag.isIndent c := List.all_eq_true.1 (by decide)
  have hspaces : ∀ c ∈ "  ".toList, Tag.isIndent c := List.all_eq_true.1 (by decide)
  have hwhole : Line.Indents whole whole' :=
    .feed htab (by decide) (.last hspaces (by decide))
  have hbroken : Line.Indents broken broken' :=
    .feed htab (by decide) (.last hspaces (by decide))
  obtain ⟨loaded, hloaded⟩ := exists_eq_ok (x := load ⟨"a.xml", .ofList whole⟩) (by decide +kernel)
  have hrejected := exists_eq_error (x := load ⟨"a.xml", .ofList broken⟩) (by decide +kernel)
  have hnamed : ∀ line ∈ Line.ofText broken, Attributes.ofTag line.text ≠ ⟨[], true⟩ := by
    decide +kernel
  refine ⟨hwhole, hbroken, ⟨loaded, hloaded, (load_indented "a.xml" hwhole).1 loaded hloaded⟩,
    hrejected, (load_indented "a.xml" hbroken).2.2 ?_⟩
  rintro ⟨_, line, _, ⟨front, back, _, hlines, _⟩, _, _, hgains⟩
  rw [String.toList_ofList] at hlines
  exact hnamed line (by simp [hlines]) (Attributes.ofTag_of_unnamed hgains.lacked)

/-- With a space ahead of it, the name of the first attribute is read, and the type behind it. -/
theorem load_gains_name :
    let text := "<Testcase>a=\"x\" type=\"Int\">\n</Testcase>\n".toList
    Line.Indents text (' ' :: text) ∧
      (∃ rejection, load ⟨"case.xml", .ofList text⟩ = .error rejection ∧
        rejection.error.cause = .unknownKind "") ∧
      ∃ loaded, load ⟨"case.xml", .ofList (' ' :: text)⟩ = .ok loaded ∧
        loaded.testcases.map Testcase.expectation = [.value .int ""] ∧ loaded.warnings = [] := by
  intro text
  have hrows : text = "<Testcase>a=\"x\" type=\"Int\">".toList ++ '\n' ::
      ("</Testcase>".toList ++ '\n' :: []) := by
    decide
  have hindents : Line.Indents text (' ' :: text) := by
    rw [hrows]
    have hlast : Line.Indents [] ([] ++ []) := .last (by simp) (by simp)
    have hend : Line.Indents ("</Testcase>".toList ++ '\n' :: [])
        ([] ++ "</Testcase>".toList ++ '\n' :: ([] ++ [])) :=
      .feed (by simp) (by decide) hlast
    have hspace : ∀ c ∈ [' '], Tag.isIndent c := List.all_eq_true.1 (by decide)
    exact .feed hspace (by decide) hend
  have hrejected : ((load ⟨"case.xml", .ofList text⟩).map fun _ => ()).mapError
      (fun rejection => rejection.error.cause) = .error (.unknownKind "") := by
    decide +kernel
  have hloaded : ((load ⟨"case.xml", .ofList (' ' :: text)⟩).map fun loaded =>
      (loaded.testcases.map Testcase.expectation, loaded.warnings)).mapError (fun _ => ()) =
      .ok ([.value .int ""], []) := by
    decide +kernel
  refine ⟨hindents, ?_, ?_⟩
  · cases hload : load ⟨"case.xml", .ofList text⟩ with
    | error rejection =>
        rw [hload] at hrejected
        exact ⟨rejection, rfl, Except.error.inj hrejected⟩
    | ok loaded =>
        rw [hload] at hrejected
        cases hrejected
  · cases hload : load ⟨"case.xml", .ofList (' ' :: text)⟩ with
    | error rejection =>
        rw [hload] at hloaded
        cases hloaded
    | ok loaded =>
        rw [hload] at hloaded
        have hpair := Except.ok.inj hloaded
        exact ⟨loaded, rfl, congrArg Prod.fst hpair, congrArg Prod.snd hpair⟩

end Suite

end TreeAssay
