import Mathlib.Data.List.Infix
import TreeAssay.Proofs.Markup.Tag
/-!
# The name of a line and its form

Three scans read a line: for the name of its first tag, for whether it starts a given tag, and
for whether it ends one.  An end is told by a prefix alone, so a line may end tags that it
does not name.  But a line starts no tag other than the one that it names, and of the name
that it has the three scans tell the same.
-/

namespace TreeAssay.Tag

open TreeAssay.Text

/-- The text can be the name of a tag. -/
structure CanName (tag : List Char) : Prop where
  ne_nil : tag ≠ []
  space : ' ' ∉ tag
  bracket : '>' ∉ tag
  slash : '/' ∉ tag

/-- Behind the indentation and `<` stands the tag, and right behind the tag a space or `>`. -/
def Delimited (line tag : List Char) : Prop :=
  ∃ c rest, unindent line = '<' :: (tag ++ c :: rest) ∧ (c = ' ' ∨ c = '>')

/-- Behind the indentation the line begins with `</`. -/
def BeginsEnd (line : List Char) : Prop :=
  ['<', '/'] <+: unindent line

theorem endsName_iff {c : Char} : endsName c ↔ c = ' ' ∨ c = '>' ∨ c = '/' := by
  simp [endsName, or_assoc]

theorem CanName.not_endsName {tag : List Char} (h : CanName tag) : ∀ c ∈ tag, ¬ endsName c := by
  intro c hc hends
  rcases endsName_iff.1 hends with rfl | rfl | rfl
  · exact h.space hc
  · exact h.bracket hc
  · exact h.slash hc

theorem CanName.of_not_endsName {tag : List Char} (hne : tag ≠ [])
    (h : ∀ c ∈ tag, ¬ endsName c) : CanName tag where
  ne_nil := hne
  space hmem := h ' ' hmem rfl
  bracket hmem := h '>' hmem rfl
  slash hmem := h '/' hmem rfl

theorem CanName.exists_cons {tag : List Char} (h : CanName tag) :
    ∃ c rest, tag = c :: rest ∧ c ≠ '/' := by
  obtain ⟨c, rest, rfl⟩ := List.exists_cons_of_ne_nil h.ne_nil
  refine ⟨c, rest, rfl, ?_⟩
  rintro rfl
  exact h.slash List.mem_cons_self

theorem beginsEnd_iff {line : List Char} :
    BeginsEnd line ↔ ∃ rest, unindent line = '<' :: '/' :: rest := by
  simp only [BeginsEnd, List.prefix_iff_exists_eq_append, List.cons_append, List.nil_append]

theorem not_beginsEnd {line tag rest : List Char} (htag : CanName tag)
    (hline : unindent line = '<' :: (tag ++ rest)) : ¬ BeginsEnd line := by
  obtain ⟨c, tail, rfl, hc⟩ := htag.exists_cons
  rw [beginsEnd_iff, hline]
  rintro ⟨behind, heq⟩
  exact hc (List.cons.inj (List.cons.inj heq).2).1

/-! ## The name -/

theorem readName?_eq {tag rest : List Char} (htag : CanName tag)
    (hrest : ∀ c ∈ rest.head?, endsName c) : readName? (tag ++ rest) = some tag :=
  readName?_eq_some.2 ⟨htag.ne_nil, rest, rfl, htag.not_endsName, hrest⟩

theorem exists_of_readName? {text tag : List Char} (h : readName? text = some tag) :
    CanName tag ∧ ∃ rest, text = tag ++ rest ∧ ∀ c ∈ rest.head?, endsName c := by
  obtain ⟨hne, rest, htext, hinside, hrest⟩ := readName?_eq_some.1 h
  exact ⟨.of_not_endsName hne hinside, rest, htext, hrest⟩

/-- A line that names a tag has it behind `<` or behind `</`. -/
theorem name?_eq_some {line tag : List Char} :
    name? line = some tag ↔ CanName tag ∧ ∃ rest, (∀ c ∈ rest.head?, endsName c) ∧
      (unindent line = '<' :: (tag ++ rest) ∨ unindent line = '<' :: '/' :: (tag ++ rest)) := by
  constructor
  · intro h
    rw [name?] at h
    split at h
    next behind hline =>
      obtain ⟨htag, rest, rfl, hrest⟩ := exists_of_readName? h
      exact ⟨htag, rest, hrest, .inr hline⟩
    next behind _ hline =>
      obtain ⟨htag, rest, rfl, hrest⟩ := exists_of_readName? h
      exact ⟨htag, rest, hrest, .inl hline⟩
    next => cases h
  · rintro ⟨htag, rest, hrest, hline | hline⟩
    · obtain ⟨c, tail, rfl, hc⟩ := htag.exists_cons
      have hopen := name?_open hc (tail ++ rest)
      rw [name?, hline]
      rw [name?] at hopen
      exact hopen.trans (readName?_eq htag hrest)
    · rw [name?, hline]
      exact readName?_eq htag hrest

/-- The name of a line that does not begin with `</` stands behind `<`. -/
theorem exists_of_name? {line tag : List Char} (h : name? line = some tag)
    (hend : ¬ BeginsEnd line) :
    CanName tag ∧ ∃ rest, unindent line = '<' :: (tag ++ rest) ∧
      ∀ c ∈ rest.head?, endsName c := by
  obtain ⟨htag, rest, hrest, hline | hline⟩ := name?_eq_some.1 h
  · exact ⟨htag, rest, hline, hrest⟩
  · exact absurd (beginsEnd_iff.2 ⟨_, hline⟩) hend

/-! ## Starts -/

theorem isStart_iff {line tag : List Char} : isStart line tag ↔ Delimited line tag := by
  unfold isStart Delimited
  constructor
  · intro h
    split at h
    next rest hline =>
      split at h
      next c behind hprefix =>
        rw [List.isPrefixOf?_eq_some_iff_append_eq] at hprefix
        subst hprefix
        exact ⟨c, behind, hline, by simpa using h⟩
      next => cases h
    next => cases h
  · rintro ⟨c, rest, hline, hc⟩
    rw [hline]
    simp only [isPrefixOf?_append]
    simpa using hc

/-- A line that starts a tag names it. -/
theorem Delimited.name? {line tag : List Char} (htag : CanName tag) (h : Delimited line tag) :
    name? line = some tag := by
  obtain ⟨c, rest, hline, hc⟩ := h
  refine name?_eq_some.2 ⟨htag, c :: rest, ?_, .inl hline⟩
  rintro d ⟨⟩
  exact endsName_iff.2 (hc.imp_right .inl)

theorem Delimited.not_beginsEnd {line tag : List Char} (htag : CanName tag)
    (h : Delimited line tag) : ¬ BeginsEnd line := by
  obtain ⟨c, rest, hline, _⟩ := h
  exact Tag.not_beginsEnd htag hline

theorem Delimited.unique {line tag tag' : List Char} (htag : CanName tag) (htag' : CanName tag')
    (h : Delimited line tag) (h' : Delimited line tag') : tag = tag' :=
  Option.some.inj ((h.name? htag).symm.trans (h'.name? htag'))

/-- A line starts the tag that it names, or has a `/` or its end right behind it. -/
theorem not_delimited_iff {line tag : List Char} (h : name? line = some tag)
    (hend : ¬ BeginsEnd line) :
    ¬ Delimited line tag ↔
      ∃ rest, unindent line = '<' :: (tag ++ rest) ∧ (rest = [] ∨ rest.head? = some '/') := by
  obtain ⟨_, rest, hline, hrest⟩ := exists_of_name? h hend
  have hunique {behind : List Char} (hbehind : unindent line = '<' :: (tag ++ behind)) :
      behind = rest := by
    rw [hline, List.cons.injEq, List.append_cancel_left_eq] at hbehind
    exact hbehind.2.symm
  constructor
  · intro hnot
    refine ⟨rest, hline, ?_⟩
    cases rest with
    | nil => exact .inl rfl
    | cons c tail =>
        right
        rcases endsName_iff.1 (hrest c rfl) with hc | hc | hc
        · exact absurd ⟨c, tail, hline, .inl hc⟩ hnot
        · exact absurd ⟨c, tail, hline, .inr hc⟩ hnot
        · rw [hc]
          rfl
  · rintro ⟨behind, hbehind, hends⟩ ⟨c, tail, hdelimited, hc⟩
    rw [hunique hbehind, ← hunique hdelimited] at hends
    rcases hends with hends | hends
    · cases hends
    · cases hends
      simp at hc

/-! ## Forms -/

theorem endsSelfClosed_iff_suffix {line : List Char} :
    endsSelfClosed line ↔ ['/', '>'] <:+ trimEnd line := by
  rw [endsSelfClosed_iff, trimEnd, List.suffix_iff_exists_append_eq]
  constructor
  · rintro ⟨front, hfront⟩
    rw [hfront]
    exact ⟨front.reverse, by simp⟩
  · rintro ⟨front, hfront⟩
    refine ⟨front.reverse, ?_⟩
    rw [← List.reverse_reverse (line.reverse.dropWhile isBlank), ← hfront]
    simp

theorem isEnd_of_delimited {line tag : List Char} (h : Delimited line tag) :
    isEnd line tag = endsSelfClosed line := by
  rw [isEnd, if_pos (isStart_iff.2 h)]

theorem isEnd_iff_of_not_delimited {line tag : List Char} (h : ¬ Delimited line tag) :
    isEnd line tag ↔ ['<', '/'] ++ tag <+: unindent line := by
  rw [isEnd, if_neg (isStart_iff.not.2 h), List.isPrefixOf_iff_prefix]

theorem form?_of_delimited {line tag : List Char} (h : Delimited line tag) :
    form? line tag = some (if endsSelfClosed line then .selfClosing else .opening) := by
  rw [form?, isStart_iff.2 h, isEnd_of_delimited h]
  cases endsSelfClosed line <;> rfl

theorem form?_of_not_delimited {line tag : List Char} (h : ¬ Delimited line tag) :
    form? line tag = if isEnd line tag then some .closing else none := by
  rw [form?, Bool.eq_false_iff.2 (isStart_iff.not.2 h)]
  cases isEnd line tag <;> rfl

theorem form?_starts_iff {line tag : List Char} :
    form? line tag = some .opening ∨ form? line tag = some .selfClosing ↔ Delimited line tag := by
  by_cases h : Delimited line tag
  · rw [form?_of_delimited h]
    cases endsSelfClosed line <;> simp [h]
  · rw [form?_of_not_delimited h]
    cases isEnd line tag <;> simp [h]

theorem form?_eq_selfClosing_iff {line tag : List Char} :
    form? line tag = some .selfClosing ↔ Delimited line tag ∧ ['/', '>'] <:+ trimEnd line := by
  rw [← endsSelfClosed_iff_suffix]
  by_cases h : Delimited line tag
  · rw [form?_of_delimited h]
    cases endsSelfClosed line <;> simp [h]
  · rw [form?_of_not_delimited h]
    cases isEnd line tag <;> simp [h]

theorem isEnd_of_beginsEnd {line tag : List Char} (h : name? line = some tag)
    (hend : BeginsEnd line) : ¬ Delimited line tag ∧ isEnd line tag := by
  obtain ⟨htag, rest, _, hline⟩ := name?_eq_some.1 h
  have hline' : unindent line = '<' :: '/' :: (tag ++ rest) :=
    hline.resolve_left fun hopen => not_beginsEnd htag hopen hend
  have hnot : ¬ Delimited line tag := fun hdelimited => hdelimited.not_beginsEnd htag hend
  refine ⟨hnot, ?_⟩
  rw [isEnd_iff_of_not_delimited hnot, hline']
  exact ⟨rest, rfl⟩

theorem not_isEnd_of_not_beginsEnd {line tag : List Char} (hend : ¬ BeginsEnd line)
    (hnot : ¬ Delimited line tag) : ¬ isEnd line tag := by
  rw [isEnd_iff_of_not_delimited hnot]
  exact fun hprefix => hend ((List.prefix_append _ _).trans hprefix)

theorem form?_eq_closing_iff {line tag : List Char} (h : name? line = some tag) :
    form? line tag = some .closing ↔ BeginsEnd line := by
  by_cases hend : BeginsEnd line
  · obtain ⟨hnot, hcloses⟩ := isEnd_of_beginsEnd h hend
    rw [form?_of_not_delimited hnot, if_pos hcloses]
    simp [hend]
  · by_cases hdelimited : Delimited line tag
    · rw [form?_of_delimited hdelimited]
      cases endsSelfClosed line <;> simp [hend]
    · rw [form?_of_not_delimited hdelimited, if_neg (not_isEnd_of_not_beginsEnd hend hdelimited)]
      simp [hend]

theorem form?_eq_none_iff {line tag : List Char} (hend : ¬ BeginsEnd line) :
    form? line tag = none ↔ ¬ Delimited line tag := by
  by_cases hdelimited : Delimited line tag
  · rw [form?_of_delimited hdelimited]
    simp [hdelimited]
  · rw [form?_of_not_delimited hdelimited, if_neg (not_isEnd_of_not_beginsEnd hend hdelimited)]
    simp [hdelimited]

/-- A line starts a tag exactly if it names the tag behind `<` and delimits it, so it starts at
most one.  The tag that a line names is closed behind `</`; behind `<` it is started where a
space or `>` delimits it, self-closing where the line ends in `/>`, and nothing is done to it
where a `/` or the end of the line stands behind the name. -/
theorem forms_agree (line : List Char) :
    (∀ tag, CanName tag →
      (isStart line tag ↔ (unindent line).head? = some '<' ∧ ¬ BeginsEnd line ∧
        name? line = some tag ∧ Delimited line tag)) ∧
    (∀ tag tag', CanName tag → CanName tag' → isStart line tag → isStart line tag' →
      tag = tag') ∧
    ∀ tag, name? line = some tag →
      (form? line tag = some .closing ↔ BeginsEnd line) ∧
      (¬ BeginsEnd line →
        (form? line tag = some .opening ∨ form? line tag = some .selfClosing ↔
          Delimited line tag) ∧
        (form? line tag = some .selfClosing ↔
          Delimited line tag ∧ ['/', '>'] <:+ trimEnd line) ∧
        (form? line tag = none ↔ ∃ rest, unindent line = '<' :: (tag ++ rest) ∧
          (rest = [] ∨ rest.head? = some '/'))) := by
  refine ⟨fun tag htag => ?_, fun tag tag' htag htag' h h' => ?_, fun tag hname =>
    ⟨form?_eq_closing_iff hname, fun hend => ⟨form?_starts_iff, form?_eq_selfClosing_iff, ?_⟩⟩⟩
  · rw [isStart_iff]
    constructor
    · intro h
      obtain ⟨c, rest, hline, _⟩ := id h
      exact ⟨by rw [hline]; rfl, h.not_beginsEnd htag, h.name? htag, h⟩
    · rintro ⟨_, _, _, h⟩
      exact h
  · exact (isStart_iff.1 h).unique htag htag' (isStart_iff.1 h')
  · rw [form?_eq_none_iff hend]
    exact not_delimited_iff hname hend

/-- A self-closing tag, behind which a carriage return stands, is started although a shorter
name begins like its name; its end begins like the end of the shorter name. -/
theorem forms_agree_longer :
    let line := "\t<Nodes op=\"a\"/> \r".toList
    let closing := " </Nodes>".toList
    CanName "Nodes".toList ∧ CanName "Node".toList ∧
      (isStart line "Nodes".toList ↔ (unindent line).head? = some '<' ∧ ¬ BeginsEnd line ∧
        name? line = some "Nodes".toList ∧ Delimited line "Nodes".toList) ∧
      isStart line "Nodes".toList ∧ ¬ isStart line "Node".toList ∧
      form? line "Nodes".toList = some .selfClosing ∧
      isEnd closing "Node".toList ∧ name? closing = some "Nodes".toList ∧
      form? closing "Nodes".toList = some .closing := by
  intro line closing
  have hlong : CanName "Nodes".toList := ⟨by decide, by decide, by decide, by decide⟩
  have hshort : CanName "Node".toList := ⟨by decide, by decide, by decide, by decide⟩
  obtain ⟨hstart, hunique, hforms⟩ := forms_agree line
  have hstarts : isStart line "Nodes".toList := by decide
  obtain ⟨_, hopen, hname, hdelimited⟩ := (hstart _ hlong).1 hstarts
  obtain ⟨_, _, hclosed, _⟩ := (hforms _ hname).imp_right fun h => h hopen
  have hend : BeginsEnd closing := ⟨"Nodes>".toList, by decide⟩
  refine ⟨hlong, hshort, hstart _ hlong, hstarts, fun h => ?_, ?_, by decide, by decide,
    ((forms_agree closing).2.2 _ (by decide)).1.2 hend⟩
  · exact absurd (hunique _ _ hlong hshort hstarts h) (by decide)
  · exact hclosed.2 ⟨hdelimited, "\t<Nodes op=\"a\"".toList, by decide⟩

end TreeAssay.Tag
