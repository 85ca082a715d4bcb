import Mathlib.Data.List.Forall2
import Mathlib.Data.List.Nodup
import TreeAssay.Markup.Tag
import TreeAssay.Proofs.Text.Lines
/-!
# Edited lines

What becomes of the lines of a text when carriage returns are put before its line feeds, when a
row is put in between two of them, and when they are indented.
-/

namespace TreeAssay.Line

open TreeAssay.Text

/-! ## Numbers -/

theorem map_number_locate (number offset : Nat) (rows : List (List Char)) :
    (locate number offset [] rows).map Line.number = List.range' number rows.length := by
  induction rows generalizing number offset with
  | nil => rfl
  | cons row rows ih =>
      rw [locate, locate_done, List.reverse_singleton, List.singleton_append, List.map_cons, ih,
        List.length_cons, List.range'_succ]

theorem length_ofText (text : List Char) : (ofText text).length = (pieces text).length := by
  rw [ofText, ← List.length_map Line.number, map_number_locate, List.length_range']

/-- The lines are numbered from one. -/
theorem mem_number {text : List Char} {line : Line} (h : line ∈ ofText text) :
    0 < line.number ∧ line.number ≤ (ofText text).length := by
  have hnumber : line.number ∈ (ofText text).map Line.number := List.mem_map_of_mem h
  rw [ofText, map_number_locate, List.mem_range'_1] at hnumber
  rw [length_ofText]
  omega

theorem eq_of_number {text : List Char} {line line' : Line} (h : line ∈ ofText text)
    (h' : line' ∈ ofText text) (hnumber : line.number = line'.number) : line = line' := by
  have hnodup : ((ofText text).map Line.number).Nodup := by
    rw [ofText, map_number_locate]
    exact List.nodup_range'
  exact List.inj_on_of_nodup_map hnodup h h' hnumber

/-! ## Carriage returns -/

/-- The text with a carriage return before each line feed. -/
def crlf (text : List Char) : List Char :=
  text.flatMap fun c => if c = '\n' then ['\r', '\n'] else [c]

theorem crlf_append (front back : List Char) : crlf (front ++ back) = crlf front ++ crlf back :=
  List.flatMap_append

theorem crlf_feed (rest : List Char) : crlf ('\n' :: rest) = '\r' :: '\n' :: crlf rest := rfl

theorem crlf_eq_self {body : List Char} (h : '\n' ∉ body) : crlf body = body := by
  induction body with
  | nil => rfl
  | cons c body ih =>
      obtain ⟨hc, hbody⟩ := List.ne_and_not_mem_of_not_mem_cons h
      rw [crlf, List.flatMap_cons, if_neg hc.symm, ← crlf, ih hbody, List.singleton_append]

theorem byteLength_crlf (text : List Char) :
    byteLength (crlf text) = byteLength text + text.count '\n' := by
  induction text using feed_induction with
  | hlast body h => rw [crlf_eq_self h, List.count_eq_zero.2 h, Nat.add_zero]
  | hfeed body rest h ih =>
      have hfeed (rest : List Char) : byteLength ('\n' :: rest) = 1 + byteLength rest :=
        byteLength_append ['\n'] rest
      have hreturn (rest : List Char) : byteLength ('\r' :: rest) = 1 + byteLength rest :=
        byteLength_append ['\r'] rest
      rw [crlf_append, crlf_eq_self h, crlf_feed, byteLength_append, byteLength_append, hreturn,
        hfeed, hfeed, ih, List.count_append, List.count_eq_zero.2 h, List.count_cons_self]
      omega

theorem Ended.crlf {text : List Char} (h : Ended text) : Ended (crlf text) := by
  rcases h with rfl | ⟨front, rfl⟩
  · exact .inl rfl
  · rw [crlf_append, crlf_feed]
    exact .inr ⟨Line.crlf front ++ ['\r'], by rw [List.append_assoc]; rfl⟩

theorem ofText_crlf (text : List Char) :
    ofText (crlf text) =
      (ofText text).map fun line => ⟨line.number, line.offset + (line.number - 1), line.text⟩ := by
  induction text using feed_induction with
  | hlast body h =>
      rw [crlf_eq_self h]
      by_cases hne : body = []
      · subst hne
        rfl
      · rw [ofText_last h hne]
        rfl
  | hfeed body rest h ih =>
      have hreturn : '\n' ∉ body ++ ['\r'] := by simpa using h
      have hbytes : byteLength (body ++ ['\r'] ++ ['\n']) = byteLength (body ++ ['\n']) + 1 := by
        rw [byteLength_append, byteLength_append, byteLength_append]
        rfl
      rw [crlf_append, crlf_eq_self h, crlf_feed, ← List.singleton_append, ← List.append_assoc,
        ofText_cons hreturn, ofText_cons h, ih, trimEnd_ending (by simp [isEnd]), hbytes,
        List.map_cons, List.map_map, List.map_map]
      refine congrArg (List.cons _) (List.map_congr_left fun line hline => ?_)
      have hpos := (mem_number hline).1
      simp only [Function.comp_apply, shift, mk.injEq, and_true, true_and]
      omega

/-! ## A row put in -/

/-- A row is put in at a boundary of lines: ahead of a line, as the last line, or behind a last
line without a line feed, which it is given then. -/
inductive Inserts (row : List Char) : List Char → List Char → List Char → Prop
  | ahead {front back} : Ended front → Inserts row front (row ++ ['\n']) back
  | last {front} : Ended front → Inserts row front row []
  | behind {front feed ending} : ¬ Ended front → feed = ['\n'] ∨ feed = ['\r', '\n'] →
      ending = [] ∨ ending = ['\n'] → Inserts row front (feed ++ row ++ ending) []

theorem exists_last_row (text : List Char) :
    ∃ front row, text = front ++ row ∧ Ended front ∧ '\n' ∉ row := by
  induction text using feed_induction with
  | hlast body h => exact ⟨[], body, rfl, .inl rfl, h⟩
  | hfeed body rest h ih =>
      obtain ⟨front, row, rfl, hfront, hrow⟩ := ih
      refine ⟨body ++ ['\n'] ++ front, row, ?_, (ended_feed body).append hfront, hrow⟩
      simp only [List.append_assoc, List.cons_append, List.nil_append]

/-- What ends a last line that had no line feed changes nothing. -/
theorem ofText_terminated {text feed : List Char} (h : ¬ Ended text)
    (hfeed : feed = ['\n'] ∨ feed = ['\r', '\n']) : ofText (text ++ feed) = ofText text := by
  obtain ⟨front, row, rfl, hfront, hrow⟩ := exists_last_row text
  have hne : row ≠ [] := by
    rintro rfl
    rw [List.append_nil] at h
    exact h hfront
  have hrows : ofText (row ++ feed) = ofText row := by
    rw [ofText_last hrow hne]
    rcases hfeed with rfl | rfl
    · rw [ofText_feed hrow, trimEnd_feed]
    · have hreturn : '\n' ∉ row ++ ['\r'] := by simpa using hrow
      have hcut := ofText_feed hreturn
      rwa [List.append_assoc, List.singleton_append, trimEnd_ending (by simp [isEnd])] at hcut
  rw [List.append_assoc, ofText_append hfront, ofText_append hfront, hrows]

theorem mem_ofText_single {row ending : List Char} (hrow : '\n' ∉ row)
    (hending : ending = [] ∨ ending = ['\n']) {line : Line} (h : line ∈ ofText (row ++ ending)) :
    line.text = trimEnd row := by
  rcases hending with rfl | rfl
  · rw [List.append_nil] at h
    by_cases hne : row = []
    · subst hne
      cases h
    · rw [ofText_last hrow hne] at h
      rw [List.mem_singleton.1 h]
  · rw [ofText_feed hrow, trimEnd_feed] at h
    rw [List.mem_singleton.1 h]

theorem mem_map_shift {lines bytes : Nat} {text : List Char} {line : Line}
    (h : line ∈ (ofText text).map (shift lines bytes)) :
    lines < line.number ∧ bytes ≤ line.offset := by
  obtain ⟨other, hother, rfl⟩ := List.mem_map.1 h
  exact ⟨Nat.lt_add_of_pos_left (mem_number hother).1, Nat.le_add_left _ _⟩

theorem map_shift_add (number lines offset bytes : Nat) (rows : List Line) :
    rows.map (shift (number + lines) (offset + bytes)) =
      (rows.map (shift number offset)).map (shift lines bytes) := by
  rw [List.map_map]
  refine List.map_congr_left fun line _ => ?_
  simp only [Function.comp_apply, shift, Nat.add_assoc]

/-- The lines ahead of the row stay where they are, and those behind it move by its line and its
bytes. -/
theorem ofText_inserted {row front inserted back : List Char} (hrow : '\n' ∉ row)
    (h : Inserts row front inserted back) :
    ∃ put behind, (∀ line ∈ put, line.text = trimEnd row) ∧
      (∀ line ∈ behind, (ofText front).length < line.number ∧ byteLength front ≤ line.offset) ∧
      ofText (front ++ back) = ofText front ++ behind ∧
      ofText (front ++ inserted ++ back) =
        ofText front ++ put ++ behind.map (shift 1 (byteLength inserted)) := by
  have hput {ending : List Char} (hending : ending = [] ∨ ending = ['\n']) (lines bytes : Nat) :
      ∀ line ∈ (ofText (row ++ ending)).map (shift lines bytes), line.text = trimEnd row := by
    intro line hline
    obtain ⟨other, hother, rfl⟩ := List.mem_map.1 hline
    have htext := mem_ofText_single hrow hending hother
    exact htext
  cases h with
  | ahead hfront =>
      have hcount : (ofText front).length = front.count '\n' := by
        rw [length_ofText, length_pieces hfront]
      refine ⟨_, (ofText back).map (shift (front.count '\n') (byteLength front)),
        hput (.inr rfl) (front.count '\n') (byteLength front), fun line hline => ?_,
        ofText_append hfront back, ?_⟩
      · rw [hcount]
        exact mem_map_shift hline
      · rw [ofText_append (hfront.append (ended_feed row)), ofText_append hfront,
          ← map_shift_add, List.count_append, List.count_append, List.count_eq_zero.2 hrow,
          byteLength_append]
        rfl
  | last hfront =>
      refine ⟨_, [], hput (.inl rfl) (front.count '\n') (byteLength front), by simp, ?_, ?_⟩
      · simp only [List.append_nil]
      · simp only [List.append_nil, List.map_nil]
        exact ofText_append hfront row
  | @behind feed ending hfront hfeed hending =>
      have hended : Ended (front ++ feed) := by
        rcases hfeed with rfl | rfl
        · exact ended_feed front
        · exact .inr ⟨front ++ ['\r'], by rw [List.append_assoc]; rfl⟩
      refine ⟨_, [], hput hending ((front ++ feed).count '\n') (byteLength (front ++ feed)),
        by simp, ?_, ?_⟩
      · simp only [List.append_nil]
      · rw [List.append_nil, List.map_nil, List.append_nil, List.append_assoc feed,
          ← List.append_assoc front, ofText_append hended, ofText_terminated hfront hfeed]

/-! ## Indentation -/

/-- The same text with spaces and tabs put at the starts of its lines. -/
inductive Indents : List Char → List Char → Prop
  | last {indent body} : (∀ c ∈ indent, Tag.isIndent c) → '\n' ∉ body →
      Indents body (indent ++ body)
  | feed {indent body rest rest'} : (∀ c ∈ indent, Tag.isIndent c) → '\n' ∉ body →
      Indents rest rest' → Indents (body ++ '\n' :: rest) (indent ++ body ++ '\n' :: rest')

/-- The same line with spaces and tabs put at its start. -/
structure Indented (line line' : Line) : Prop where
  number : line'.number = line.number
  text : ∃ indent, (∀ c ∈ indent, Tag.isIndent c) ∧ line'.text = indent ++ line.text

theorem not_isEnd_of_isIndent {c : Char} (h : Tag.isIndent c) : ¬ isEnd c := by
  simp only [Tag.isIndent, Bool.or_eq_true, beq_iff_eq] at h
  rcases h with rfl | rfl <;> decide

theorem trimEnd_indent {indent : List Char} (h : ∀ c ∈ indent, Tag.isIndent c)
    (body : List Char) : trimEnd (indent ++ body) = indent ++ trimEnd body := by
  have hkeep : indent.reverse.dropWhile isEnd = indent.reverse := by
    cases hrows : indent.reverse with
    | nil => rfl
    | cons c rest =>
        have hmem : c ∈ indent := by rw [← List.mem_reverse, hrows]; exact List.mem_cons_self
        exact List.dropWhile_cons_of_neg (not_isEnd_of_isIndent (h c hmem))
  rw [trimEnd, trimEnd, List.reverse_append, List.dropWhile_append]
  split
  next hempty => rw [List.isEmpty_iff.1 hempty, hkeep, List.reverse_reverse, List.reverse_nil,
    List.append_nil]
  next => rw [List.reverse_append, List.reverse_reverse]

theorem not_mem_indent {indent : List Char} (h : ∀ c ∈ indent, Tag.isIndent c) : '\n' ∉ indent :=
  fun hfeed => absurd (h '\n' hfeed) (by decide)

/-- The lines are indented one by one.  Behind the last line feed a line of its own may come of
the indentation. -/
theorem ofText_indents {text text' : List Char} (h : Indents text text') :
    ∃ lines blank, ofText text' = lines ++ blank ∧ List.Forall₂ Indented (ofText text) lines ∧
      ∀ line ∈ blank, ∀ c ∈ line.text, Tag.isIndent c := by
  induction h with
  | @last indent body hindent hbody =>
      have hfeed : '\n' ∉ indent ++ body := by
        simp only [List.mem_append, not_or]
        exact ⟨not_mem_indent hindent, hbody⟩
      by_cases hne : body = []
      · subst hne
        refine ⟨[], ofText (indent ++ []), rfl, .nil, fun line hline c hc => ?_⟩
        rw [mem_ofText_single (not_mem_indent hindent) (.inl rfl) hline] at hc
        obtain ⟨ending, hsplit, _⟩ := exists_trimEnd indent
        rw [hsplit] at hindent
        exact hindent c (List.mem_append_left ending hc)
      · refine ⟨ofText (indent ++ body), [], (List.append_nil _).symm, ?_, by simp⟩
        rw [ofText_last hbody hne, ofText_last hfeed (by simp [hne]), trimEnd_indent hindent]
        exact .cons ⟨rfl, indent, hindent, rfl⟩ .nil
  | @feed indent body rest rest' hindent hbody _ ih =>
      obtain ⟨lines, blank, hlines, hpaired, hblank⟩ := ih
      have hfeed : '\n' ∉ indent ++ body := by
        simp only [List.mem_append, not_or]
        exact ⟨not_mem_indent hindent, hbody⟩
      have hmoved : List.Forall₂ Indented
          ((ofText rest).map (shift 1 (byteLength (body ++ ['\n']))))
          (lines.map (shift 1 (byteLength (indent ++ body ++ ['\n'])))) := by
        rw [List.forall₂_map_left_iff, List.forall₂_map_right_iff]
        exact hpaired.imp fun line line' hline => ⟨congrArg (· + 1) hline.number, hline.text⟩
      refine ⟨⟨1, 0, indent ++ trimEnd body⟩ ::
          lines.map (shift 1 (byteLength (indent ++ body ++ ['\n']))),
        blank.map (shift 1 (byteLength (indent ++ body ++ ['\n']))), ?_, ?_, ?_⟩
      · rw [ofText_cons hfeed, hlines, List.map_append, trimEnd_indent hindent]
        rfl
      · rw [ofText_cons hbody]
        exact .cons ⟨rfl, indent, hindent, rfl⟩ hmoved
      · intro line hline
        obtain ⟨other, hother, rfl⟩ := List.mem_map.1 hline
        exact hblank other hother

end TreeAssay.Line
