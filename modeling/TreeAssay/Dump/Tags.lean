import TreeAssay.Text.Blank
/-!
# The tags of a dump

A dump is cut into its tags. A tag runs from `<` to the first `>` outside double
quotes; between the tags there is nothing but blank characters.
-/

namespace TreeAssay.Dump

open TreeAssay.Text

/-- Reads up to the first `>` outside quotes and gives the text so far and what
is left. `quoted` tells whether the text begins inside quotes, and `taken` holds
what was read before it, the last character first. -/
def cutTag? (quoted : Bool) (taken : List Char) : List Char → Option (List Char × List Char)
  | [] => none
  | c :: rest =>
    let quoted := if c = '"' then !quoted else quoted
    if c = '>' && !quoted then some ((c :: taken).reverse, rest)
    else cutTag? quoted (c :: taken) rest

theorem length_of_cutTag? {quoted : Bool} {taken text tag rest : List Char}
    (h : cutTag? quoted taken text = some (tag, rest)) : rest.length < text.length := by
  fun_induction cutTag? quoted taken text with
  | case1 => cases h
  | case2 => cases h; simp
  | case3 _ _ _ _ _ _ ih =>
    have := ih h
    simp only [List.length_cons]
    omega

/-- The first line of a text, without the characters that end it. -/
def firstLine (text : List Char) : List Char :=
  let line := text.takeWhile (· ≠ '\n')
  if line.length < text.length then
    match line.reverse with
    | '\r' :: front => front.reverse
    | _ => line
  else line

/-- Cuts a text into tags, after those already cut, the last one first. Fails with
the first line of what does not begin a tag, or with the whole of a tag that
does not end. -/
def splitTags (tags : List (List Char)) (text : List Char) :
    Except (List Char) (List (List Char)) :=
  match h : trimStart text with
  | [] => .ok tags.reverse
  | '<' :: rest =>
    match hcut : cutTag? false [] ('<' :: rest) with
    | some (tag, after) =>
      have : after.length < text.length := by
        have := length_of_cutTag? hcut
        have := length_trimStart_le text
        rw [h] at this
        omega
      splitTags (tag :: tags) after
    | none => .error ('<' :: rest)
  | stray => .error (firstLine stray)
termination_by text.length

end TreeAssay.Dump
