import TreeAssay.Proofs.Markup.Markers
import TreeAssay.Proofs.Markup.Tag
/-!
# Indented tags

A name begins behind the last space before its marker, and no bound is set at the start of the
tag.  So a name that has no space before it gets one when the tag is indented with a space:
then, and only then, are other attributes read from the indented tag.
-/

namespace TreeAssay.Attributes

open TreeAssay.Tag (isIndent)

/-- The first marker has a value behind it but no space before its name. -/
def Unnamed (tag : List Char) : Prop :=
  ∃ front after, tag = front ++ '=' :: '"' :: after ∧ ¬ HasMarker front ∧ ' ' ∉ front ∧ '"' ∈ after

theorem ofTag_of_unnamed {tag : List Char} (h : Unnamed tag) : ofTag tag = ⟨[], true⟩ := by
  obtain ⟨front, after, rfl, hfront, hspace, _⟩ := h
  have hbroken : resume {} [] (front ++ '=' :: '"' :: after) = ⟨[], true⟩ :=
    resume_unnamed hfront hspace
  exact hbroken

/-- No pair that was read is given up. -/
theorem length_pairs_scan (attrs : Attributes) (word : Option (List Char)) (text : List Char) :
    attrs.pairs.length ≤ (scan attrs word text).pairs.length := by
  induction attrs, word, text using scan.induct with
  | case1 attrs rest name c after hafter value _ ih =>
      rw [scan_pair hafter]
      simp only [List.unattach_reverse, List.unattach_attach] at ih
      exact (Nat.le_succ _).trans ih
  | case2 attrs word rest hbroken =>
      rw [scan_broken hbroken]
  | case3 attrs word c rest hplain ih =>
      rw [scan_plain hplain]
      exact ih
  | case4 attrs word => rw [scan_nil]

section Indent

variable {indent : List Char}

theorem not_hasMarker_indent (h : ∀ c ∈ indent, isIndent c) : ¬ HasMarker indent := by
  intro hmarker
  obtain ⟨front, after, rfl, _⟩ := exists_first_marker hmarker
  exact absurd (h '=' (by simp)) (by decide)

theorem ofTag_indent (h : ∀ c ∈ indent, isIndent c) (tag : List Char) :
    ofTag (indent ++ tag) = resume {} indent tag := by
  have hlast : indent.getLast? = some '=' → tag.head? ≠ some '"' := by
    intro hlast
    exact absurd (h '=' (List.mem_of_getLast? hlast)) (by decide)
  rw [ofTag, resume, scan_front (not_hasMarker_indent h) hlast]

/-- The indentation is seen only by a name that has no other space before it. -/
theorem resume_indent {front after : List Char} (hfront : ¬ HasMarker front)
    (hspace : ' ' ∈ front ∨ ' ' ∉ indent) :
    resume {} indent (front ++ '=' :: '"' :: after) = ofTag (front ++ '=' :: '"' :: after) := by
  change resume {} indent (front ++ '=' :: '"' :: after) =
    resume {} [] (front ++ '=' :: '"' :: after)
  rw [resume_front hfront, resume_front hfront, List.nil_append]
  by_cases hmem : ' ' ∈ front
  · obtain ⟨start, name, rfl, hname⟩ := exists_last_space hmem
    rw [← List.append_assoc, foldl_advance_split hname, foldl_advance_split hname]
  · have hindent : ' ' ∉ indent := hspace.resolve_left hmem
    rw [foldl_advance_none hmem, foldl_advance_none]
    simp only [List.mem_append, hindent, hmem, or_self, not_false_iff]

/-- With the space that it lacked, the first name is read with its value. -/
theorem pairs_indent_ne_nil {tag : List Char} (h : ∀ c ∈ indent, isIndent c)
    (hunnamed : Unnamed tag) (hindent : ' ' ∈ indent) : (ofTag (indent ++ tag)).pairs ≠ [] := by
  intro hnil
  obtain ⟨front, after, rfl, hfront, _, hquote⟩ := hunnamed
  have hspace : ' ' ∈ indent ++ front := List.mem_append_left _ hindent
  obtain ⟨start, name, hsplit, hname⟩ := exists_last_space hspace
  obtain ⟨value, rest, rfl, hvalue⟩ := List.eq_append_cons_of_mem hquote
  rw [ofTag_indent h, resume_pair hfront hsplit hname hvalue, resume] at hnil
  have hlength := length_pairs_scan (({} : Attributes).add name value)
    ((indent ++ front ++ '=' :: '"' :: (value ++ ['"'])).foldl advance none) rest
  rw [hnil] at hlength
  exact Nat.not_succ_le_zero 0 hlength

theorem unnamed_indent {tag : List Char} (h : ∀ c ∈ indent, isIndent c) (hunnamed : Unnamed tag)
    (hindent : ' ' ∉ indent) : Unnamed (indent ++ tag) := by
  obtain ⟨front, after, rfl, hfront, hspace, hquote⟩ := hunnamed
  refine ⟨indent ++ front, after, (List.append_assoc _ _ _).symm, ?_, ?_, hquote⟩
  · rw [hasMarker_append]
    rintro (hmarker | hmarker | ⟨hlast, _⟩)
    · exact not_hasMarker_indent h hmarker
    · exact hfront hmarker
    · exact absurd (h '=' (List.mem_of_getLast? hlast)) (by decide)
  · rw [List.mem_append, not_or]
    exact ⟨hindent, hspace⟩

/-- Other attributes are read from an indented tag exactly if its first name has no space before
it and gets one. -/
theorem ofTag_indent_iff (h : ∀ c ∈ indent, isIndent c) (tag : List Char) :
    ofTag (indent ++ tag) = ofTag tag ↔ ¬ (Unnamed tag ∧ ' ' ∈ indent) := by
  constructor
  · rintro hsame ⟨hunnamed, hindent⟩
    apply pairs_indent_ne_nil h hunnamed hindent
    rw [hsame, ofTag_of_unnamed hunnamed]
  · intro hnamed
    rw [ofTag_indent h]
    by_cases hmarker : HasMarker tag
    · obtain ⟨front, after, rfl, hfront⟩ := exists_first_marker hmarker
      by_cases hspace : ' ' ∈ front ∨ ' ' ∉ indent
      · exact resume_indent hfront hspace
      · rw [not_or, not_not] at hspace
        -- Without a quote behind it, the pair is broken with the space as well.
        have hquote : '"' ∉ after := fun hquote =>
          hnamed ⟨⟨front, after, rfl, hfront, hspace.1, hquote⟩, hspace.2⟩
        have hplain : resume {} [] (front ++ '=' :: '"' :: after) = ⟨[], true⟩ :=
          resume_unclosed hfront hquote
        rw [resume_unclosed hfront hquote]
        exact hplain.symm
    · have hplain : resume {} [] tag = {} := resume_done hmarker
      rw [resume_done hmarker]
      exact hplain.symm

end Indent

theorem pairs_eq_nil_of_size {attrs : Attributes} (h : attrs.size = 0) : attrs.pairs = [] := by
  cases hpairs : attrs.pairs with
  | nil => rfl
  | cons pair pairs =>
      rw [size, hpairs, List.map_cons, List.eraseDups_cons, List.length_cons] at h
      exact absurd h (Nat.succ_ne_zero _)

end TreeAssay.Attributes
