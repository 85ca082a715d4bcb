import TreeAssay.Proofs.Suite.Retelling
import TreeAssay.Proofs.Text.Edits
/-!
# Line endings and foreign lines

A carriage return before a line feed ends its line with it, and a line whose first tag is
neither that of a testcase nor that of a node says nothing.  So a suite is loaded to the same,
or rejected for the same reason, whichever way its lines end, and a foreign line that is put in
only moves what stands behind it.
-/

namespace TreeAssay

open TreeAssay.Text

/-- The number of a line once a row stands behind `front`. -/
def Line.renumber (front : List Char) (number : Nat) : Nat :=
  if number ≤ (Line.ofText front).length then number else number + 1

/-- The place in a text once so much is inserted behind `front`. -/
def Span.push (front inserted : List Char) (place : Span) : Span :=
  if place.offset < byteLength front then place else place.shift (byteLength inserted)

/-- What a span covers is not changed by the carriage returns around it. -/
theorem Span.Covers.crlf {place : Span} {text front indent body trail back : List Char}
    (h : place.Covers text front indent body trail back) :
    ∃ trail' back', (place.shift (front.count '\n')).Covers (Line.crlf text) (Line.crlf front)
      indent body trail' back' := by
  have hoffset : place.offset + front.count '\n' = byteLength (Line.crlf front ++ indent) := by
    rw [h.offset, byteLength_append, byteLength_append, Line.byteLength_crlf]
    omega
  have htext : Line.crlf text = Line.crlf front ++ (indent ++ body ++ trail) ++ Line.crlf back := by
    rw [h.text_eq, Line.crlf_append, Line.crlf_append, Line.crlf_eq_self h.single]
  rcases h.last with rfl | ⟨rest, rfl⟩
  · exact ⟨trail, [], htext, h.first.crlf, .inl rfl, h.single, h.indented, h.head, h.trailed,
      h.tail, hoffset, h.length⟩
  · refine ⟨trail ++ ['\r'], '\n' :: Line.crlf rest, ?_, h.first.crlf, .inr ⟨_, rfl⟩, ?_,
      h.indented, h.head, ?_, h.tail, hoffset, h.length⟩
    · rw [htext, Line.crlf_feed]
      simp only [List.append_assoc, List.singleton_append]
    · rw [← List.append_assoc, List.mem_append, not_or]
      exact ⟨h.single, by decide⟩
    · intro c hc
      rcases List.mem_append.1 hc with hc | hc
      · exact h.trailed c hc
      · rw [List.mem_singleton.1 hc]
        rfl

namespace Suite

/-! ## Carriage returns -/

/-- The same lines with the same numbers, and the same text at both places. -/
def carriageReturns (text : List Char) : Retelling where
  number := id
  place here there := ∃ front indent body trail back trail' back', body ≠ [] ∧
    here.Covers text front indent body trail back ∧
      (here.shift (front.count '\n')).Covers (Line.crlf text) (Line.crlf front) indent body trail'
        back' ∧
      there = here.shift (front.count '\n')

theorem lines_crlf (text : List Char) :
    (carriageReturns text).Lines (Line.ofText text) (Line.ofText (Line.crlf text)) := by
  rw [Line.ofText_crlf]
  refine .of_map fun line hline => .of_text rfl rfl fun hmark => ?_
  obtain ⟨hne, front, indent, trail, back, hcovers, hnumber⟩ := exists_covers hline hmark
  obtain ⟨trail', back', hcrlf⟩ := hcovers.crlf
  have hspan := span_shift 0 (line.number - 1) line
  rw [hnumber, Nat.add_sub_cancel] at hspan
  refine ⟨front, indent, _, trail, back, trail', back', hne, hcovers, hcrlf, ?_⟩
  rw [hnumber]
  exact hspan

theorem load_crlf (name : String) (text : List Char) :
    (carriageReturns text).Agree ⟨name, .ofList (Line.crlf text)⟩
      (fun loaded loaded' => loaded' = loaded.retold (carriageReturns text))
      (load ⟨name, .ofList text⟩) (load ⟨name, .ofList (Line.crlf text)⟩) := by
  refine load_retold .start rfl ?_
  rw [String.toList_ofList, String.toList_ofList]
  exact lines_crlf text

/-! ## A row put in -/

/-- The first tag of the row, if it has one, is neither that of a testcase nor that of a node. -/
def IsForeign (row : List Char) : Prop :=
  ∀ name, Tag.name? row = some name → name ≠ "Testcase".toList ∧ name ≠ "Node".toList

theorem IsForeign.mark {row : List Char} (h : IsForeign row) : Mark.ofLine row = .foreign := by
  unfold Mark.ofLine
  split
  next => rfl
  next name hname =>
    obtain ⟨htestcase, hnode⟩ := h name hname
    rw [ofName?_eq, if_neg htestcase, if_neg hnode]

/-- Behind the row that is put in, lines and places move by its line and its bytes. -/
def insertion (front inserted : List Char) : Retelling where
  number := Line.renumber front
  place here there := there = here.push front inserted

theorem span_offset_lt {text : List Char} {line : Line} (hline : line ∈ Line.ofText text)
    {subject : Subject} {form : Tag.Form} (hmark : Mark.ofLine line.text = .tag subject form) :
    (span line).offset < byteLength text := by
  obtain ⟨hne, front, indent, trail, back, hcovers, _⟩ := exists_covers hline hmark
  have hpos := byteLength_pos hne
  rw [hcovers.offset, hcovers.text_eq]
  simp only [byteLength_append]
  omega

theorem lines_inserted {row front inserted back : List Char} (hrow : '\n' ∉ row)
    (hforeign : IsForeign (Line.trimEnd row)) (h : Line.Inserts row front inserted back) :
    (insertion front inserted).Lines (Line.ofText (front ++ back))
      (Line.ofText (front ++ inserted ++ back)) := by
  obtain ⟨put, behind, hput, hbehind, hlines, hwhole⟩ := Line.ofText_inserted hrow h
  have hsame : (insertion front inserted).Lines (Line.ofText front)
      ((Line.ofText front).map id) := by
    refine .of_map fun line hline => .of_text rfl ?_ fun hmark => ?_
    · exact (if_pos (Line.mem_number hline).2).symm
    · exact (if_pos (span_offset_lt hline hmark)).symm
  have hmoved : (insertion front inserted).Lines behind
      (behind.map (Line.shift 1 (byteLength inserted))) := by
    refine .of_map fun line hline => .of_text rfl ?_ fun _ => ?_
    · exact (if_neg (Nat.not_le_of_lt (hbehind line hline).1)).symm
    · rw [span_shift]
      refine (if_neg (Nat.not_lt_of_le ?_)).symm
      exact Nat.le_add_right_of_le (hbehind line hline).2
  have hnothing : (insertion front inserted).Lines [] put := by
    refine .of_foreign fun line hline => ?_
    rw [hput line hline]
    exact hforeign.mark
  have happend := (hsame.append hnothing).append hmoved
  rw [List.append_nil, List.map_id] at happend
  rw [hlines, hwhole]
  exact happend

theorem load_inserted (name : String) {row front inserted back : List Char}
    (h : Line.Inserts row front inserted back) (hrow : '\n' ∉ row)
    (hforeign : IsForeign (Line.trimEnd row)) :
    (insertion front inserted).Agree ⟨name, .ofList (front ++ inserted ++ back)⟩
      (fun loaded loaded' => loaded' = loaded.retold (insertion front inserted))
      (load ⟨name, .ofList (front ++ back)⟩)
      (load ⟨name, .ofList (front ++ inserted ++ back)⟩) := by
  refine load_retold .start rfl ?_
  rw [String.toList_ofList, String.toList_ofList]
  exact lines_inserted hrow hforeign h

/-! ## Loading -/

/-- A suite is loaded to the same testcases and warnings when each of its line feeds gets a
carriage return; or it is rejected for the same reason, at the place of the same text, which
moves by one byte for each line feed ahead.  When a line that says nothing is put in, what is
loaded is the same but for the numbers of the lines behind; or the suite is rejected for the
same reason, and the place moves by the bytes put in ahead of it. -/
theorem load_line_endings_foreign (name : String) (text : List Char) :
    ((∀ loaded, load ⟨name, .ofList text⟩ = .ok loaded →
        load ⟨name, .ofList (Line.crlf text)⟩ = .ok loaded) ∧
      ∀ rejection, load ⟨name, .ofList text⟩ = .error rejection →
        ∃ front indent body trail back trail' back', body ≠ [] ∧
          rejection.error.span.Covers text front indent body trail back ∧
          (rejection.error.span.shift (front.count '\n')).Covers (Line.crlf text)
            (Line.crlf front) indent body trail' back' ∧
          load ⟨name, .ofList (Line.crlf text)⟩ = .error { rejection with
            error := { rejection.error with
              source := ⟨name, .ofList (Line.crlf text)⟩
              span := rejection.error.span.shift (front.count '\n') } }) ∧
    ∀ row front inserted back, text = front ++ back → Line.Inserts row front inserted back →
      '\n' ∉ row → IsForeign (Line.trimEnd row) →
        (∀ loaded, load ⟨name, .ofList text⟩ = .ok loaded →
          load ⟨name, .ofList (front ++ inserted ++ back)⟩ = .ok
            ⟨loaded.testcases.map (Testcase.renumber (Line.renumber front)),
              loaded.warnings.map (Warning.renumber (Line.renumber front))⟩) ∧
        ∀ rejection, load ⟨name, .ofList text⟩ = .error rejection →
          load ⟨name, .ofList (front ++ inserted ++ back)⟩ = .error
            { error := { rejection.error with
                source := ⟨name, .ofList (front ++ inserted ++ back)⟩
                span := rejection.error.span.push front inserted }
              warnings := rejection.warnings.map (Warning.renumber (Line.renumber front)) } := by
  have hcrlf := load_crlf name text
  refine ⟨⟨fun loaded hload => ?_, fun rejection hload => ?_⟩, ?_⟩
  · rw [hload] at hcrlf
    obtain ⟨loaded', hwhole, rfl⟩ := hcrlf.of_ok
    rw [hwhole, carriageReturns, Loaded.retold_id]
  · rw [hload] at hcrlf
    obtain ⟨place, hwhole, hplace⟩ := hcrlf.of_error
    obtain ⟨front, indent, body, trail, back, trail', back', hne, hcovers, hmoved, rfl⟩ := hplace
    rw [hwhole, carriageReturns, Rejection.retold_id]
    exact ⟨front, indent, body, trail, back, trail', back', hne, hcovers, hmoved, rfl⟩
  · rintro row front inserted back rfl hinserts hrow hforeign
    have hinserted := load_inserted name hinserts hrow hforeign
    refine ⟨fun loaded hload => ?_, fun rejection hload => ?_⟩
    · rw [hload] at hinserted
      obtain ⟨loaded', hwhole, rfl⟩ := hinserted.of_ok
      exact hwhole
    · rw [hload] at hinserted
      obtain ⟨place, hwhole, rfl⟩ := hinserted.of_error
      exact hwhole

theorem load_line_endings_foreign_note :
    let front := "<Testcase type=\"Int\">\n".toList
    let note := "<!-- note -->\r".toList
    let whole := "<Node\n</Testcase>".toList
    let broken := " <Node op=\"Add\">".toList
    (∃ loaded, load ⟨"a.xml", .ofList (front ++ whole)⟩ = .ok loaded ∧
      load ⟨"a.xml", .ofList (Line.crlf (front ++ whole))⟩ = .ok loaded ∧
      load ⟨"a.xml", .ofList (front ++ (note ++ ['\n']) ++ whole)⟩ = .ok
        ⟨loaded.testcases.map (Testcase.renumber (Line.renumber front)),
          loaded.warnings.map (Warning.renumber (Line.renumber front))⟩) ∧
    ∃ rejection, load ⟨"a.xml", .ofList (front ++ broken)⟩ = .error rejection ∧
      (∃ front' indent body trail back trail' back', body ≠ [] ∧
        rejection.error.span.Covers (front ++ broken) front' indent body trail back ∧
        (rejection.error.span.shift (front'.count '\n')).Covers (Line.crlf (front ++ broken))
          (Line.crlf front') indent body trail' back' ∧
        load ⟨"a.xml", .ofList (Line.crlf (front ++ broken))⟩ = .error { rejection with
          error := { rejection.error with
            source := ⟨"a.xml", .ofList (Line.crlf (front ++ broken))⟩
            span := rejection.error.span.shift (front'.count '\n') } }) ∧
      load ⟨"a.xml", .ofList (front ++ (note ++ ['\n']) ++ broken)⟩ = .error
        { error := { rejection.error with
            source := ⟨"a.xml", .ofList (front ++ (note ++ ['\n']) ++ broken)⟩
            span := rejection.error.span.push front (note ++ ['\n']) }
          warnings := rejection.warnings.map (Warning.renumber (Line.renumber front)) } := by
  intro front note whole broken
  have hcut : Line.Ended front := .inr ⟨front.dropLast, by decide⟩
  have hnote : '\n' ∉ note := by decide
  have hforeign : IsForeign (Line.trimEnd note) := by
    intro name hname
    cases (show Tag.name? (Line.trimEnd note) = some "!--".toList by decide).symm.trans hname
    decide
  obtain ⟨loaded, hloaded⟩ := exists_eq_ok (x := load ⟨"a.xml", .ofList (front ++ whole)⟩)
    (by decide +kernel)
  obtain ⟨rejection, hrejected⟩ := exists_eq_error
    (x := load ⟨"a.xml", .ofList (front ++ broken)⟩) (by decide +kernel)
  obtain ⟨hcrlf, hinserted⟩ := load_line_endings_foreign "a.xml" (front ++ whole)
  obtain ⟨hcrlf', hinserted'⟩ := load_line_endings_foreign "a.xml" (front ++ broken)
  exact ⟨⟨loaded, hloaded, hcrlf.1 loaded hloaded,
      (hinserted note front _ whole rfl (.ahead hcut) hnote hforeign).1 loaded hloaded⟩,
    rejection, hrejected, hcrlf'.2 rejection hrejected,
    (hinserted' note front _ broken rfl (.ahead hcut) hnote hforeign).2 rejection hrejected⟩

end Suite

end TreeAssay
