import Mathlib.Data.List.Infix
import TreeAssay.Proofs.Text.Blank
/-!
# Byte offsets

A place in a text may be given by the number of bytes before it.  Most numbers give no place:
they lie inside a character or behind the end of the text.  A search gives the offset of what it
finds.
-/

namespace TreeAssay.Text

theorem byteLength_cons (c : Char) (rest : List Char) :
    byteLength (c :: rest) = c.utf8Size + byteLength rest := by
  have hsingle : byteLength [c] = c.utf8Size := by simp [byteLength]
  rw [← List.singleton_append, byteLength_append, hsingle]

/-! ## Places in a text -/

/-- The text before and behind a byte offset, which has to lie between two characters or at an
end of the text. -/
def cutAt? : List Char → Nat → Option (List Char × List Char)
  | text, 0 => some ([], text)
  | [], _ + 1 => none
  | c :: rest, offset + 1 =>
    if c.utf8Size ≤ offset + 1 then
      (cutAt? rest (offset + 1 - c.utf8Size)).map fun (front, back) => (c :: front, back)
    else none

theorem eq_of_cutAt? {text front back : List Char} {offset : Nat}
    (h : cutAt? text offset = some (front, back)) :
    text = front ++ back ∧ byteLength front = offset := by
  fun_induction cutAt? text offset generalizing front with
  | case1 text =>
      cases h
      exact ⟨rfl, rfl⟩
  | case2 => cases h
  | case3 c rest offset hle ih =>
      obtain ⟨⟨init, _⟩, hcut, hpair⟩ := Option.map_eq_some_iff.1 h
      cases hpair
      obtain ⟨rfl, hlength⟩ := ih hcut
      rw [byteLength_cons]
      exact ⟨rfl, by omega⟩
  | case4 => cases h

theorem cutAt?_append (front back : List Char) :
    cutAt? (front ++ back) (byteLength front) = some (front, back) := by
  induction front with
  | nil => cases back <;> rfl
  | cons c front ih =>
      obtain ⟨size, hsize⟩ := Nat.exists_eq_succ_of_ne_zero c.utf8Size_pos.ne'
      rw [byteLength_cons, hsize, Nat.succ_add, List.cons_append, cutAt?, if_pos (by omega)]
      have hrest : size + byteLength front + 1 - c.utf8Size = byteLength front := by omega
      rw [hrest, ih]
      rfl

/-- The text between two byte offsets. -/
def slice? (text : List Char) (start stop : Nat) : Option (List Char) := do
  let (front, _) ← cutAt? text stop
  let (_, slice) ← cutAt? front start
  return slice

def sliceFrom? (text : List Char) (start : Nat) : Option (List Char) :=
  (cutAt? text start).map Prod.snd

theorem slice?_append (front slice back : List Char) :
    slice? (front ++ slice ++ back) (byteLength front) (byteLength (front ++ slice)) =
      some slice := by
  simp only [slice?, cutAt?_append, Option.bind_eq_bind, Option.bind_some]
  rfl

theorem sliceFrom?_append (front back : List Char) :
    sliceFrom? (front ++ back) (byteLength front) = some back := by
  rw [sliceFrom?, cutAt?_append]
  rfl

theorem le_of_sliceFrom? {text rest : List Char} {start : Nat}
    (h : sliceFrom? text start = some rest) : start ≤ byteLength text := by
  obtain ⟨⟨front, back⟩, hcut, _⟩ := Option.map_eq_some_iff.1 h
  obtain ⟨rfl, rfl⟩ := eq_of_cutAt? hcut
  rw [byteLength_append]
  omega

theorem length_of_sliceFrom? {text rest : List Char} {start : Nat}
    (h : sliceFrom? text (start + 1) = some rest) : rest.length < text.length := by
  obtain ⟨⟨front, back⟩, hcut, heq⟩ := Option.map_eq_some_iff.1 h
  obtain rfl : back = rest := heq
  obtain ⟨rfl, hstart⟩ := eq_of_cutAt? hcut
  have hfront : 0 < front.length := by
    refine List.length_pos_of_ne_nil ?_
    rintro rfl
    cases hstart
  rw [List.length_append]
  omega

/-! ## Searches -/

/-- The byte offset at which a pattern first stands in a text. -/
def find? (pattern : List Char) : List Char → Option Nat
  | [] => if pattern.isEmpty then some 0 else none
  | c :: rest =>
    if pattern.isPrefixOf (c :: rest) then some 0
    else (find? pattern rest).map (c.utf8Size + ·)

theorem find?_eq_none {pattern text : List Char} (h : ¬ pattern <:+: text) :
    find? pattern text = none := by
  induction text with
  | nil =>
      rw [List.infix_nil] at h
      rw [find?, if_neg (by simpa using h)]
  | cons c rest ih =>
      rw [List.infix_cons_iff, not_or] at h
      rw [find?, if_neg (by rw [List.isPrefixOf_iff_prefix]; exact h.1), ih h.2]
      rfl

/-- What is found is the first one: none stands in the text up to its last character. -/
theorem find?_append {pattern front : List Char} (hpattern : pattern ≠ [])
    (h : ¬ pattern <:+: front ++ pattern.dropLast) (back : List Char) :
    find? pattern (front ++ (pattern ++ back)) = some (byteLength front) := by
  induction front with
  | nil =>
      obtain ⟨c, rest, rfl⟩ := List.exists_cons_of_ne_nil hpattern
      rw [List.nil_append, List.cons_append, find?, if_pos]
      · rfl
      · rw [List.isPrefixOf_iff_prefix]
        exact List.prefix_append (c :: rest) back
  | cons c front ih =>
      rw [List.cons_append, List.infix_cons_iff, not_or] at h
      have hnot : ¬ pattern <+: c :: (front ++ (pattern ++ back)) := by
        intro hprefix
        refine h.1 (List.prefix_of_prefix_length_le hprefix ?_ ?_)
        · rw [← List.cons_append, ← List.cons_append, List.prefix_append_right_inj]
          exact (List.dropLast_prefix pattern).trans (List.prefix_append pattern back)
        · have := List.length_pos_of_ne_nil hpattern
          simp only [List.length_cons, List.length_append, List.length_dropLast]
          omega
      rw [List.cons_append, find?, if_neg (by rwa [List.isPrefixOf_iff_prefix]), ih h.2,
        byteLength_cons]
      rfl

/-- The byte offset at which a character last stands in a text. -/
def findLast? (c : Char) : List Char → Option Nat
  | [] => none
  | d :: rest =>
    match findLast? c rest with
    | some offset => some (d.utf8Size + offset)
    | none => if d = c then some 0 else none

theorem findLast?_eq_none {c : Char} {text : List Char} (h : c ∉ text) :
    findLast? c text = none := by
  induction text with
  | nil => rfl
  | cons d rest ih =>
      obtain ⟨hd, hrest⟩ := List.ne_and_not_mem_of_not_mem_cons h
      simp only [findLast?, ih hrest, if_neg hd.symm]

theorem findLast?_append {c : Char} {back : List Char} (h : c ∉ back) (front : List Char) :
    findLast? c (front ++ c :: back) = some (byteLength front) := by
  induction front with
  | nil =>
      rw [List.nil_append, findLast?, findLast?_eq_none h]
      exact if_pos rfl
  | cons d front ih =>
      rw [List.cons_append, findLast?, ih, byteLength_cons]

end TreeAssay.Text
