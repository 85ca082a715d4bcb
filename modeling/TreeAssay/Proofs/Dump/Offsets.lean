import TreeAssay.Proofs.Dump.Splitting
import TreeAssay.Proofs.Text.Offsets
/-!
# Cutting a text by byte offsets

The end of a tag can be told as a byte offset, at which the tag is cut out of the text and what is
behind it is left.  No cut falls inside a character or behind the end, and the tags that come out
are the same.
-/

namespace TreeAssay.Dump

open TreeAssay.Text

/-- The byte offset of the first `>` outside quotes, where the text begins inside them or not. -/
def endOffset? (quoted : Bool) : List Char → Option Nat
  | [] => none
  | c :: rest =>
    let quoted := if c = '"' then !quoted else quoted
    if c = '>' && !quoted then some 0
    else (endOffset? quoted rest).map (c.utf8Size + ·)

theorem endOffset?_cons {quoted : Bool} {c : Char} (h : c = '>' → quoted = true)
    (text : List Char) :
    endOffset? quoted (c :: text) =
      (endOffset? (if c = '"' then !quoted else quoted) text).map (c.utf8Size + ·) := by
  rw [endOffset?]
  by_cases hc : c = '>'
  · rw [h hc, hc]
    rfl
  · simp only [hc, decide_false, Bool.false_and, Bool.false_eq_true, if_false]

theorem endOffset?_eq_none {quoted : Bool} {text : List Char} (h : Enclosed quoted text) :
    endOffset? quoted text = none := by
  induction text generalizing quoted with
  | nil => rfl
  | cons c text ih =>
      obtain ⟨hquoted, htext⟩ := enclosed_cons.1 h
      rw [endOffset?_cons hquoted, ih htext]
      rfl

theorem endOffset?_append {quoted : Bool} {body : List Char}
    (heven : Even (quoted.toNat + body.count '"')) (h : Enclosed quoted body) (rest : List Char) :
    endOffset? quoted (body ++ '>' :: rest) = some (byteLength body) := by
  induction body generalizing quoted with
  | nil =>
      cases quoted with
      | false => rfl
      | true => exact absurd heven (by decide)
  | cons c body ih =>
      obtain ⟨hquoted, hbody⟩ := enclosed_cons.1 h
      rw [List.cons_append, endOffset?_cons hquoted, ih (even_cons.1 heven) hbody,
        byteLength_cons]
      rfl

/-! ## Turns -/

inductive Turn
  | done
  | stray (text : List Char)
  /-- A tag is cut off what stands behind it. -/
  | cut (tag after : List Char)

/-- Cuts the next tag off a text that does not begin with blank characters.  There is no result
where a cut is not possible. -/
def turn? (text : List Char) : Option Turn :=
  match text with
  | [] => some .done
  | '<' :: _ =>
    match endOffset? false text with
    | none => some (.stray text)
    | some stop => do
      let tag ← slice? text 0 (stop + 1)
      let after ← sliceFrom? text (stop + 1)
      return .cut tag after
  | _ => some (.stray (firstLine text))

theorem length_of_turn? {text tag after : List Char} (h : turn? text = some (.cut tag after)) :
    after.length < text.length := by
  unfold turn? at h
  split at h
  next => cases h
  next =>
    split at h
    next => cases h
    next stop _ =>
      obtain ⟨_, _, h⟩ := Option.bind_eq_some_iff.1 h
      obtain ⟨_, hafter, h⟩ := Option.bind_eq_some_iff.1 h
      cases h
      exact length_of_sliceFrom? hafter
  next => cases h

/-- Cuts a text into tags, after those already cut, the last one first. -/
def splitOffsets (tags : List (List Char)) (text : List Char) :
    Option (Except (List Char) (List (List Char))) :=
  match _h : turn? (trimStart text) with
  | none => none
  | some .done => some (.ok tags.reverse)
  | some (.stray stray) => some (.error stray)
  | some (.cut tag after) => splitOffsets (tag :: tags) after
termination_by text.length
decreasing_by exact Nat.lt_of_lt_of_le (length_of_turn? _h) (length_trimStart_le text)

theorem splitOffsets_eq (tags : List (List Char)) (text : List Char) :
    splitOffsets tags text =
      match turn? (trimStart text) with
      | none => none
      | some .done => some (.ok tags.reverse)
      | some (.stray stray) => some (.error stray)
      | some (.cut tag after) => splitOffsets (tag :: tags) after := by
  rw [splitOffsets]
  split
  next h => rw [h]
  next h => rw [h]
  next h => rw [h]
  next h => rw [h]

/-! ## The same tags -/

/-- A tag ends right behind the offset of its `>`. -/
theorem IsWhole.exists_endOffset? {tag : List Char} (h : IsWhole tag) (rest : List Char) :
    ∃ stop, endOffset? false (tag ++ rest) = some stop ∧ stop + 1 = byteLength tag := by
  obtain ⟨front, rfl, heven, henclosed⟩ := h.exists_front
  refine ⟨byteLength front, ?_, (byteLength_append front ['>']).symm⟩
  rw [List.append_assoc]
  exact endOffset?_append heven henclosed rest

theorem turn?_opening (text : List Char) :
    turn? ('<' :: text) =
      match endOffset? false ('<' :: text) with
      | none => some (.stray ('<' :: text))
      | some stop => do
        let tag ← slice? ('<' :: text) 0 (stop + 1)
        let after ← sliceFrom? ('<' :: text) (stop + 1)
        return .cut tag after := rfl

theorem IsWhole.turn?_eq {tag : List Char} (h : IsWhole tag) (rest : List Char) :
    turn? (tag ++ rest) = some (.cut tag rest) := by
  obtain ⟨stop, hstop, hlength⟩ := h.exists_endOffset? rest
  have htag : slice? (tag ++ rest) 0 (byteLength tag) = some tag := slice?_append [] tag rest
  have hrest := sliceFrom?_append tag rest
  rw [← hlength] at htag hrest
  obtain ⟨body, rfl, _⟩ := h
  rw [List.cons_append, List.cons_append] at hstop htag hrest ⊢
  rw [turn?_opening, hstop]
  dsimp only
  rw [htag, hrest]
  rfl

theorem Stray.turn?_eq {text stray : List Char} (h : Stray text stray) :
    turn? text = some (.stray stray) := by
  cases h with
  | unopened _ hopen hline =>
      unfold turn?
      split
      next hnil => cases hnil
      next heq => exact absurd (List.cons.inj heq).1 hopen
      next => rw [hline.firstLine_eq]
  | unended hclosed => rw [turn?_opening, endOffset?_eq_none hclosed]

theorem splitOffsets_blanks {blanks : List Char} (h : ∀ c ∈ blanks, isBlank c)
    (done : List (List Char)) (rest : List Char) :
    splitOffsets done (blanks ++ rest) = splitOffsets done rest := by
  have htrim : trimStart (blanks ++ rest) = trimStart rest := List.dropWhile_append_of_pos h
  rw [splitOffsets_eq, splitOffsets_eq done rest, htrim]

theorem splitOffsets_cons {tag : List Char} (h : IsWhole tag) (done : List (List Char))
    (rest : List Char) : splitOffsets done (tag ++ rest) = splitOffsets (tag :: done) rest := by
  have htrim : trimStart (tag ++ rest) = tag ++ rest := by
    obtain ⟨body, rfl, _⟩ := h
    exact List.dropWhile_cons_of_neg (by decide)
  rw [splitOffsets_eq, htrim, h.turn?_eq]

/-- By byte offsets no cut fails, and the same comes out. -/
theorem splitOffsets_eq_splitTags (done : List (List Char)) (text : List Char) :
    splitOffsets done text = some (splitTags done text) := by
  obtain ⟨front, tags, rest, rfl, htags, hrest⟩ := exists_tagged text
  have hoffsets : splitOffsets done (front ++ rest) = splitOffsets (tags.reverse ++ done) rest :=
    htags.taken (fun done _ rest hblanks => splitOffsets_blanks hblanks done rest)
      (fun done _ rest hwhole => splitOffsets_cons hwhole done rest) done rest
  rw [hoffsets, splitTags_tagged htags]
  rcases hrest with rfl | ⟨stray, hstray⟩
  · rw [splitTags_nil, splitOffsets_eq]
    rfl
  · rw [hstray.splitTags_eq, splitOffsets_eq, hstray.trimStart_eq, hstray.turn?_eq]

/-- By byte offsets, cutting ends and cuts the text only where it can be cut.  It comes to these
tags exactly if the text is these tags with blank characters between and around them; each of
them begins with `<`, and its last character alone is a `>` behind an even number of quotes in
it.  It complains exactly if behind such tags a rest stands that begins no whole tag.  Blank
characters behind any of the tags make no difference. -/
theorem splitTags_partition (text : List Char) :
    splitOffsets [] text = some (splitTags [] text) ∧
    (∀ tags, splitTags [] text = .ok tags ↔ Tagged text tags) ∧
    (∀ tags, Tagged text tags → ∀ tag ∈ tags, tag.head? = some '<' ∧
      ∀ front c back, tag = front ++ c :: back →
        (c = '>' ∧ Even (front.count '"') ↔ back = [])) ∧
    (∀ stray, splitTags [] text = .error stray ↔
      ∃ front tags rest, text = front ++ rest ∧ Tagged front tags ∧ Stray rest stray) ∧
    ∀ front tags blanks back, text = front ++ back → Tagged front tags →
      (∀ c ∈ blanks, isBlank c) → splitTags [] (front ++ blanks ++ back) = splitTags [] text := by
  refine ⟨splitOffsets_eq_splitTags [] text, fun tags => ?_, fun tags htags tag hmem => ?_,
    fun stray => splitTags_eq_error, ?_⟩
  · rw [splitTags_eq_ok]
    simp
  · have hwhole := htags.isWhole tag hmem
    refine ⟨?_, fun front c back hsplit => hwhole.ends_iff hsplit⟩
    obtain ⟨body, rfl, _⟩ := hwhole
    rfl
  · rintro front tags blanks back rfl htags hblanks
    rw [List.append_assoc, splitTags_tagged htags, splitTags_blanks hblanks,
      splitTags_tagged htags]

/-- A tag with a `>` inside quotes and its end tag on the next line; what is written behind them
begins no tag, and of the two carriage returns that end its first line one is left. -/
theorem splitTags_partition_stray :
    let start := "<a x=\">é\">".toList
    let front := start ++ "\u2003\r\n</a>".toList
    let blanks := "\t\u00a0".toList
    let rest := "ß > 1\r\r\n<b>".toList
    let line := "ß > 1\r".toList
    Tagged front [start, "</a>".toList] ∧ (∀ c ∈ blanks, isBlank c) ∧ Stray rest line ∧
      splitOffsets [] (front ++ rest) = some (.error line) ∧
      splitTags [] (front ++ blanks ++ rest) = .error line ∧
      ∀ init c back, start = init ++ c :: back → (c = '>' ∧ Even (init.count '"') ↔ back = []) := by
  intro start front blanks rest line
  obtain ⟨_, hfront, hwhole, _⟩ := splitTags_partition front
  obtain ⟨hoffsets, _, _, herror, hblank⟩ := splitTags_partition (front ++ rest)
  have htags : Tagged front [start, "</a>".toList] := (hfront _).1 (by decide +kernel)
  have hblanks : ∀ c ∈ blanks, isBlank c := List.all_eq_true.1 (by decide +kernel)
  have hrest : rest = 'ß' :: " > 1\r\r\n<b>".toList := by decide +kernel
  have hfirst : IsFirstLine rest line := by
    have hline : firstLine rest = line := by decide +kernel
    rw [← hline]
    exact isFirstLine_firstLine rest
  have hstray : Stray rest line := by
    rw [hrest] at hfirst ⊢
    exact .unopened (by decide) (by decide) hfirst
  have hsplit : splitTags [] (front ++ rest) = .error line :=
    (herror line).2 ⟨front, _, rest, rfl, htags, hstray⟩
  refine ⟨htags, hblanks, hstray, ?_, ?_, (hwhole _ htags start (by simp)).2⟩
  · rw [hoffsets, hsplit]
  · rw [hblank front _ blanks rest rfl htags hblanks, hsplit]

end TreeAssay.Dump
