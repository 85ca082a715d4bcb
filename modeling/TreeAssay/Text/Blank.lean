/-!
# Blank characters

Trimming by the Unicode property `White_Space`, and the length of a text in
UTF-8 bytes, the unit in which positions in a source are counted.
-/

namespace TreeAssay.Text

/-- A character is blank when it has the Unicode property `White_Space`. -/
def isBlank (c : Char) : Bool :=
  let n := c.toNat
  (0x09 ≤ n && n ≤ 0x0D) || n == 0x20 || n == 0x85 || n == 0xA0 || n == 0x1680 ||
    (0x2000 ≤ n && n ≤ 0x200A) || n == 0x2028 || n == 0x2029 || n == 0x202F ||
    n == 0x205F || n == 0x3000

def trimStart (text : List Char) : List Char :=
  text.dropWhile isBlank

def trimEnd (text : List Char) : List Char :=
  (text.reverse.dropWhile isBlank).reverse

def byteLength (text : List Char) : Nat :=
  text.foldl (fun bytes c => bytes + c.utf8Size) 0

theorem byteLength_append (front back : List Char) :
    byteLength (front ++ back) = byteLength front + byteLength back := by
  simp only [byteLength, List.foldl_append]
  generalize front.foldl (fun bytes c => bytes + c.utf8Size) 0 = bytes
  induction back generalizing bytes with
  | nil => rfl
  | cons c back ih =>
    simp only [List.foldl_cons]
    rw [ih, ih (0 + _)]
    omega

theorem length_trimStart_le (text : List Char) :
    (trimStart text).length ≤ text.length :=
  (List.dropWhile_sublist isBlank).length_le

end TreeAssay.Text
