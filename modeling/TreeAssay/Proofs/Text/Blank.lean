import TreeAssay.Text.Blank
/-!
# What trimming leaves

A text is what trimming leaves of it and the blank characters that were taken off.  What is
left does not begin or end with one where it was trimmed.  The length in bytes of a text that
is not empty is positive.
-/

namespace TreeAssay.Text

theorem byteLength_pos {text : List Char} (h : text ≠ []) : 0 < byteLength text := by
  cases text with
  | nil => exact absurd rfl h
  | cons c rest =>
      have happend := byteLength_append [c] rest
      have hsingle : byteLength [c] = c.utf8Size := by simp [byteLength]
      have hpos := c.utf8Size_pos
      rw [List.singleton_append] at happend
      omega

theorem exists_trimStart (text : List Char) :
    ∃ blanks, text = blanks ++ trimStart text ∧ ∀ c ∈ blanks, isBlank c := by
  refine ⟨text.takeWhile isBlank, (List.takeWhile_append_dropWhile).symm, ?_⟩
  intro c hc
  exact List.all_eq_true.1 List.all_takeWhile c hc

theorem head?_trimStart (text : List Char) : ∀ c ∈ (trimStart text).head?, ¬ isBlank c := by
  intro c hc
  have hnot := List.head?_dropWhile_not isBlank text
  rw [trimStart, Option.mem_def] at hc
  rw [hc] at hnot
  simpa using hnot

theorem exists_trimEnd (text : List Char) :
    ∃ blanks, text = trimEnd text ++ blanks ∧ ∀ c ∈ blanks, isBlank c := by
  refine ⟨(text.reverse.takeWhile isBlank).reverse, ?_, ?_⟩
  · rw [trimEnd, ← List.reverse_append, List.takeWhile_append_dropWhile, List.reverse_reverse]
  · intro c hc
    rw [List.mem_reverse] at hc
    exact List.all_eq_true.1 List.all_takeWhile c hc

theorem getLast?_trimEnd (text : List Char) : ∀ c ∈ (trimEnd text).getLast?, ¬ isBlank c := by
  intro c hc
  rw [trimEnd, List.getLast?_reverse] at hc
  have hnot := List.head?_dropWhile_not isBlank text.reverse
  rw [Option.mem_def.1 hc] at hnot
  simpa using hnot

theorem trimEnd_append {front : List Char} (hfront : ∃ c ∈ front.getLast?, ¬ isBlank c)
    (back : List Char) : trimEnd (front ++ back) = front ++ trimEnd back := by
  obtain ⟨c, hlast, hc⟩ := hfront
  rw [trimEnd, trimEnd, List.reverse_append, List.dropWhile_append]
  split
  next hempty =>
    rw [List.isEmpty_iff.1 hempty]
    rw [← List.head?_reverse] at hlast
    obtain ⟨rest, hrest⟩ := List.head?_eq_some_iff.1 hlast
    rw [hrest, List.dropWhile_cons_of_neg hc, ← hrest, List.reverse_reverse]
    exact (List.append_nil front).symm
  next => rw [List.reverse_append, List.reverse_reverse]

end TreeAssay.Text
