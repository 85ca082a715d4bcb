import Mathlib.Data.List.TakeWhile
import TreeAssay.Markup.Tag
import TreeAssay.Proofs.Markup.Attributes
import TreeAssay.Proofs.Text.Blank
/-!
# What names a tag

The name of the first tag on a line is the longest text behind its `<` or `</` without a
space, `>` or `/`.  The spaces and tabs before the tag change nothing of what the line
does to it, and the blank characters behind it do not change its name.
-/

namespace TreeAssay.Tag

open TreeAssay.Text
open TreeAssay.Attributes (IsName)

theorem readName?_eq_some {text name : List Char} :
    readName? text = some name ↔ name ≠ [] ∧ ∃ rest, text = name ++ rest ∧
      (∀ c ∈ name, ¬ endsName c) ∧ ∀ c ∈ rest.head?, endsName c := by
  have hinside (name : List Char) :
      (∀ c ∈ name, ¬ endsName c) ↔ ∀ c ∈ name, (!endsName c) = true := by
    simp only [Bool.not_eq_true, Bool.not_eq_eq_eq_not, Bool.not_true]
  constructor
  · intro h
    rw [readName?] at h
    split at h
    next => cases h
    next hne =>
      cases h
      refine ⟨hne, text.dropWhile (!endsName ·), (List.takeWhile_append_dropWhile).symm, ?_, ?_⟩
      · rw [hinside]
        exact fun c hc => List.all_eq_true.1 List.all_takeWhile c hc
      · intro c hc
        have hnot := List.head?_dropWhile_not (!endsName ·) text
        rw [Option.mem_def.1 hc] at hnot
        simpa using hnot
  · rintro ⟨hne, rest, rfl, hname, hrest⟩
    have htake : (name ++ rest).takeWhile (!endsName ·) = name := by
      rw [List.takeWhile_append_of_pos ((hinside name).1 hname)]
      cases rest with
      | nil => exact List.append_nil name
      | cons c rest =>
          have hc : endsName c := hrest c rfl
          rw [List.takeWhile_cons_of_neg (by simp [hc]), List.append_nil]
    rw [readName?, htake]
    split
    next => exact absurd rfl hne
    next => rfl

/-! ## Indentation -/

theorem unindent_indent {indent : List Char} (h : ∀ c ∈ indent, isIndent c) (line : List Char) :
    unindent (indent ++ line) = unindent line :=
  List.dropWhile_append_of_pos h

theorem name?_indent {indent : List Char} (h : ∀ c ∈ indent, isIndent c) (line : List Char) :
    name? (indent ++ line) = name? line := by
  rw [name?, name?, unindent_indent h]

theorem isStart_indent {indent : List Char} (h : ∀ c ∈ indent, isIndent c)
    (line tag : List Char) : isStart (indent ++ line) tag = isStart line tag := by
  rw [isStart, isStart, unindent_indent h]

theorem isBlank_of_isIndent {c : Char} (h : isIndent c) : isBlank c := by
  simp only [isIndent, Bool.or_eq_true, beq_iff_eq] at h
  rcases h with rfl | rfl <;> rfl

theorem endsSelfClosed_iff {line : List Char} :
    endsSelfClosed line ↔ ∃ front, line.reverse.dropWhile isBlank = '>' :: '/' :: front := by
  unfold endsSelfClosed
  split
  next front heq => simp [heq]
  next hne =>
    simp only [Bool.false_eq_true, false_iff, not_exists]
    exact hne

/-- Neither a space nor a tab is the slash that a single `>` would need before it. -/
theorem endsSelfClosed_indent {indent : List Char} (h : ∀ c ∈ indent, isIndent c)
    (line : List Char) : endsSelfClosed (indent ++ line) = endsSelfClosed line := by
  have hreverse : ∀ c ∈ indent.reverse, isIndent c := by simpa using h
  rw [Bool.eq_iff_iff, endsSelfClosed_iff, endsSelfClosed_iff, List.reverse_append,
    List.dropWhile_append]
  cases hline : line.reverse.dropWhile isBlank with
  | nil =>
      have hblank : indent.reverse.dropWhile isBlank = [] :=
        List.dropWhile_eq_nil_iff.2 fun c hc => isBlank_of_isIndent (hreverse c hc)
      rw [List.isEmpty_nil, if_pos rfl, hblank]
  | cons c rest =>
      rw [List.isEmpty_cons, if_neg Bool.false_ne_true]
      cases rest with
      | cons d rest => simp
      | nil =>
          have hslash : '/' ∉ indent.reverse := fun hmem => absurd (hreverse _ hmem) (by decide)
          constructor
          · rintro ⟨front, heq⟩
            have hindent : indent.reverse = '/' :: front := (List.cons.inj heq).2
            rw [hindent] at hslash
            exact absurd List.mem_cons_self hslash
          · rintro ⟨front, heq⟩
            cases heq

theorem isEnd_indent {indent : List Char} (h : ∀ c ∈ indent, isIndent c)
    (line tag : List Char) : isEnd (indent ++ line) tag = isEnd line tag := by
  rw [isEnd, isEnd, isStart_indent h, unindent_indent h, endsSelfClosed_indent h]

theorem form?_indent {indent : List Char} (h : ∀ c ∈ indent, isIndent c)
    (line tag : List Char) : form? (indent ++ line) tag = form? line tag := by
  rw [form?, form?, isStart_indent h, isEnd_indent h]

/-! ## The end of the line -/

theorem readName?_trimEnd {rest name : List Char} (hread : readName? rest = some name)
    (hname : ∀ c ∈ name, ¬ isBlank c) (front : List Char) :
    ∃ back, trimEnd (front ++ rest) = front ++ back ∧ readName? back = some name := by
  obtain ⟨hne, behind, rfl, hinside, hbehind⟩ := readName?_eq_some.1 hread
  obtain ⟨init, last, rfl⟩ := (List.eq_nil_or_concat name).resolve_left hne
  rw [List.concat_eq_append] at hname hinside ⊢
  have hlast : ∃ c ∈ (front ++ (init ++ [last])).getLast?, ¬ isBlank c := by
    refine ⟨last, ?_, hname last (by simp)⟩
    rw [← List.append_assoc, List.getLast?_concat]
    rfl
  refine ⟨init ++ [last] ++ trimEnd behind, ?_, ?_⟩
  · rw [← List.append_assoc, trimEnd_append hlast, List.append_assoc]
  · refine readName?_eq_some.2 ⟨by simp, trimEnd behind, rfl, hinside, ?_⟩
    obtain ⟨blanks, hblanks, _⟩ := exists_trimEnd behind
    intro c hc
    apply hbehind c
    rw [hblanks, List.head?_append, Option.mem_def.1 hc]
    rfl

theorem name?_open {c : Char} (hc : c ≠ '/') (rest : List Char) :
    name? ('<' :: c :: rest) = readName? (c :: rest) := by
  have hunindent : unindent ('<' :: c :: rest) = '<' :: c :: rest := rfl
  rw [name?, hunindent]
  split
  next heq => exact absurd (List.cons.inj (List.cons.inj heq).2).1 hc
  next heq => rw [(List.cons.inj heq).2]
  next hne => exact absurd rfl (hne _)

/-- Without its indentation and the blank characters at its end, a line still begins with the
tag that it names. -/
theorem name?_trimEnd {line name : List Char} (h : name? line = some name)
    (hname : ∀ c ∈ name, ¬ isBlank c) :
    (trimEnd (unindent line)).head? = some '<' ∧ name? (trimEnd (unindent line)) = some name := by
  rw [name?] at h
  split at h
  next rest hline =>
    obtain ⟨back, htrim, hback⟩ := readName?_trimEnd h hname ['<', '/']
    rw [hline, show '<' :: '/' :: rest = ['<', '/'] ++ rest from rfl, htrim]
    exact ⟨rfl, hback⟩
  next rest hnot hline =>
    obtain ⟨back, htrim, hback⟩ := readName?_trimEnd h hname ['<']
    rw [hline, show '<' :: rest = ['<'] ++ rest from rfl, htrim]
    refine ⟨rfl, ?_⟩
    obtain ⟨hne, behind, rfl, hinside, _⟩ := readName?_eq_some.1 hback
    cases name with
    | nil => exact absurd rfl hne
    | cons c rest' =>
        have hc : c ≠ '/' := by
          rintro rfl
          exact hinside '/' (by simp) rfl
        rw [← hback]
        exact name?_open hc _
  next => cases h

/-! ## Tags as they are written -/

section Written

variable {name : String}

theorem readName?_append (hname : IsName name) {c : Char} (hc : endsName c) (rest : List Char) :
    readName? (name.toList ++ c :: rest) = some name.toList := by
  refine readName?_eq_some.2 ⟨?_, c :: rest, rfl, ?_, ?_⟩
  · intro hnil
    exact hname.1 (String.toList_eq_nil_iff.1 hnil)
  · intro d hd
    simp [endsName, hname.ne hd]
  · rintro d ⟨⟩
    exact hc

theorem isPrefixOf?_append (front back : List Char) :
    front.isPrefixOf? (front ++ back) = some back := by
  induction front with
  | nil => rfl
  | cons c front ih =>
      change (if c == c then front.isPrefixOf? (front ++ back) else none) = some back
      rw [if_pos (beq_self_eq_true c), ih]

theorem isPrefixOf?_of_ne {c d : Char} (h : c ≠ d) (front back : List Char) :
    (c :: front).isPrefixOf? (d :: back) = none :=
  if_neg (by simpa using h)

theorem exists_toList_cons (hname : IsName name) :
    ∃ c rest, name.toList = c :: rest ∧ c ≠ '/' := by
  cases hchars : name.toList with
  | nil => exact absurd (String.toList_eq_nil_iff.1 hchars) hname.1
  | cons c rest =>
      have hc := hname.ne (c := c) (by simp [hchars])
      exact ⟨c, rest, rfl, hc.2.2.1⟩

theorem name?_start (hname : IsName name) {c : Char} (hc : c = ' ' ∨ c = '>') (rest : List Char) :
    name? ('<' :: (name.toList ++ c :: rest)) = some name.toList := by
  have hends : endsName c := by
    rcases hc with rfl | rfl <;> rfl
  obtain ⟨d, chars, hchars, hd⟩ := exists_toList_cons hname
  rw [← readName?_append hname hends rest, hchars]
  exact name?_open hd _

/-- What the tag does is told by what stands before the `>` at its end. -/
theorem form?_start (name : String) {c d : Char} {rest front : List Char}
    (hc : c = ' ' ∨ c = '>') (hend : '<' :: (name.toList ++ c :: rest) = front ++ [d, '>']) :
    form? ('<' :: (name.toList ++ c :: rest)) name.toList =
      some (if d == '/' then .selfClosing else .opening) := by
  have hunindent : unindent ('<' :: (name.toList ++ c :: rest)) =
      '<' :: (name.toList ++ c :: rest) := rfl
  have hstart : isStart ('<' :: (name.toList ++ c :: rest)) name.toList = true := by
    rw [isStart, hunindent]
    simp only [isPrefixOf?_append]
    rcases hc with rfl | rfl <;> rfl
  have hclosed : endsSelfClosed ('<' :: (name.toList ++ c :: rest)) = (d == '/') := by
    have hreverse : (front ++ [d, '>']).reverse.dropWhile isBlank = '>' :: d :: front.reverse := by
      simp [isBlank]
    rw [Bool.eq_iff_iff, endsSelfClosed_iff, hend, hreverse]
    simp
  rw [form?, isEnd, hstart, if_pos rfl, hclosed]
  cases d == '/' <;> rfl

theorem form?_end (hname : IsName name) (rest : List Char) :
    form? ('<' :: '/' :: name.toList ++ rest) name.toList = some .closing := by
  obtain ⟨c, chars, hchars, hc⟩ := exists_toList_cons hname
  have hunindent : unindent ('<' :: '/' :: name.toList ++ rest) =
      '<' :: '/' :: (name.toList ++ rest) := rfl
  have hstart : isStart ('<' :: '/' :: name.toList ++ rest) name.toList = false := by
    rw [isStart, hunindent, hchars]
    simp only [isPrefixOf?_of_ne hc]
  have hend : (['<', '/'] ++ name.toList).isPrefixOf
      (unindent ('<' :: '/' :: name.toList ++ rest)) = true := by
    rw [List.isPrefixOf_iff_prefix]
    exact ⟨rest, rfl⟩
  rw [form?, isEnd, hstart, hend]
  rfl

end Written

end TreeAssay.Tag
