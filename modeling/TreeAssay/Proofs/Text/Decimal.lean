import TreeAssay.Text.Decimal
/-!
# Decimal spellings

A spelling of a word is an optional sign and at least one digit.  Reading a text
gives the word that it spells, and nothing where it spells none; a word is written
as the standard spelling of its integer.
-/

namespace TreeAssay.Decimal

/-- The text is an optional sign and at least one digit, and denotes the word. -/
def Spells (text : List Char) (n : Int64) : Prop :=
  ∃ sign row, text = sign ++ row ∧ row ≠ [] ∧ (∀ c ∈ row, c.isDigit) ∧
    ((sign = [] ∨ sign = ['+']) ∧ n.toInt = Nat.ofDigitChars 10 row 0 ∨
      sign = ['-'] ∧ n.toInt = -Nat.ofDigitChars 10 row 0)

theorem le_ofDigitChars (row : List Char) (n : Nat) : n ≤ Nat.ofDigitChars 10 row n := by
  rw [Nat.ofDigitChars_eq_ofDigitChars_zero]
  have := Nat.le_mul_of_pos_left n (Nat.pow_pos (n := row.length) (by decide : 0 < 10))
  omega

theorem foldlM_appendDigit? {row : List Char} {n m : Nat} (hn : n ≤ magnitudeLimit) :
    row.foldlM appendDigit? n = some m ↔
      (∀ c ∈ row, c.isDigit) ∧ m = Nat.ofDigitChars 10 row n ∧ m ≤ magnitudeLimit := by
  induction row generalizing n with
  | nil =>
      simp only [List.foldlM_nil, Option.pure_def, Option.some.injEq, Nat.ofDigitChars_nil]
      constructor
      · rintro rfl
        exact ⟨by simp, rfl, hn⟩
      · rintro ⟨_, rfl, _⟩
        rfl
  | cons c row ih =>
      rw [List.foldlM_cons, appendDigit?, Nat.ofDigitChars_cons, Nat.mul_comm 10 n]
      by_cases hc : c.isDigit
      · by_cases hle : n * 10 + (c.toNat - 48) ≤ magnitudeLimit
        · simp only [hc, hle, if_true, Option.bind_eq_bind, Option.bind_some, ih hle,
            List.forall_mem_cons, true_and]
          rfl
        · simp only [hc, hle, if_true, if_false, Option.bind_eq_bind, Option.bind_none,
            reduceCtorEq, false_iff]
          rintro ⟨_, rfl, hm⟩
          exact hle (Nat.le_trans (le_ofDigitChars row _) hm)
      · simp only [hc, if_false, Option.bind_eq_bind, Option.bind_none, Bool.false_eq_true,
          reduceCtorEq, List.forall_mem_cons, false_and]

theorem magnitude?_eq_some {row : List Char} {m : Nat} :
    magnitude? row = some m ↔
      row ≠ [] ∧ (∀ c ∈ row, c.isDigit) ∧ m = Nat.ofDigitChars 10 row 0 ∧
        m ≤ magnitudeLimit := by
  cases row with
  | nil => simp [magnitude?]
  | cons c row =>
      rw [magnitude?, foldlM_appendDigit? (Nat.zero_le _)]
      · simp
      · simp

theorem ofInt?_eq_some {v : Int} {n : Int64} : Word.ofInt? v = some n ↔ n.toInt = v := by
  constructor
  · exact Word.toInt_of_ofInt?
  · rintro rfl
    exact Word.ofInt?_toInt n

private theorem natAbs_toInt_le (n : Int64) : n.toInt.natAbs ≤ magnitudeLimit := by
  have h₁ := n.le_toInt
  have h₂ := n.toInt_lt
  have : magnitudeLimit = 9223372036854775808 := by decide
  omega

private theorem bind_magnitude? {row : List Char} {n : Int64} {f : Nat → Int}
    (hf : ∀ m, (f m).natAbs = m) :
    ((magnitude? row).bind fun m => Word.ofInt? (f m)) = some n ↔
      row ≠ [] ∧ (∀ c ∈ row, c.isDigit) ∧ n.toInt = f (Nat.ofDigitChars 10 row 0) := by
  rw [Option.bind_eq_some_iff]
  constructor
  · rintro ⟨m, hm, hn⟩
    obtain ⟨hne, hdigits, rfl, _⟩ := magnitude?_eq_some.1 hm
    exact ⟨hne, hdigits, ofInt?_eq_some.1 hn⟩
  · rintro ⟨hne, hdigits, hn⟩
    have hle := natAbs_toInt_le n
    rw [hn, hf] at hle
    exact ⟨_, magnitude?_eq_some.2 ⟨hne, hdigits, rfl, hle⟩, ofInt?_eq_some.2 hn⟩

/-- Reading gives the word that a text spells, and only that. -/
theorem read?_eq_some {text : List Char} {n : Int64} : read? text = some n ↔ Spells text n := by
  have hminus : ¬ ('-' : Char).isDigit := by decide
  have hplus : ¬ ('+' : Char).isDigit := by decide
  unfold read?
  split
  next row =>
    rw [bind_magnitude? (f := fun m => -(m : Int)) (by simp)]
    constructor
    · rintro ⟨hne, hdigits, hn⟩
      exact ⟨['-'], row, rfl, hne, hdigits, .inr ⟨rfl, hn⟩⟩
    · rintro ⟨sign, row', htext, hne, hdigits, ⟨rfl | rfl, hn⟩ | ⟨rfl, hn⟩⟩
      · subst htext
        exact absurd (hdigits '-' (by simp)) hminus
      · simp at htext
      · obtain rfl : row = row' := by simpa using htext
        exact ⟨hne, hdigits, hn⟩
  next row =>
    rw [bind_magnitude? (f := fun m => (m : Int)) (by simp)]
    constructor
    · rintro ⟨hne, hdigits, hn⟩
      exact ⟨['+'], row, rfl, hne, hdigits, .inl ⟨.inr rfl, hn⟩⟩
    · rintro ⟨sign, row', htext, hne, hdigits, ⟨rfl | rfl, hn⟩ | ⟨rfl, hn⟩⟩
      · subst htext
        exact absurd (hdigits '+' (by simp)) hplus
      · obtain rfl : row = row' := by simpa using htext
        exact ⟨hne, hdigits, hn⟩
      · simp at htext
  next notMinus notPlus =>
    rw [bind_magnitude? (f := fun m => (m : Int)) (by simp)]
    constructor
    · rintro ⟨hne, hdigits, hn⟩
      exact ⟨[], text, rfl, hne, hdigits, .inl ⟨.inl rfl, hn⟩⟩
    · rintro ⟨sign, row, htext, hne, hdigits, ⟨rfl | rfl, hn⟩ | ⟨rfl, hn⟩⟩
      · subst htext
        exact ⟨hne, hdigits, hn⟩
      · exact absurd htext (notPlus row)
      · exact absurd htext (notMinus row)

/-! ## Written words -/

theorem digit_eq_digitChar : ∀ n < 10, digit n = n.digitChar := by decide

theorem digits_eq_toDigits (n : Nat) : digits n = Nat.toDigits 10 n := by
  induction n using digits.induct with
  | case1 n h =>
      rw [digits, dif_pos h, Nat.toDigits_of_lt_base h, digit_eq_digitChar n h]
  | case2 n h ih =>
      rw [digits, dif_neg h, Nat.toDigits_of_base_le (by decide) (by omega), ih,
        digit_eq_digitChar _ (Nat.mod_lt n (by decide))]

theorem ofNat_eq_repr (n : Nat) : ofNat n = n.repr := by
  rw [ofNat, digits_eq_toDigits, Nat.repr_eq_ofList_toDigits]

theorem ofInt64_eq_toString (n : Int64) : ofInt64 n = toString n.toInt := by
  rw [ofInt64, ofInt, Int.toString_eq_repr, Int.repr_eq_if]
  by_cases hneg : n.toInt < 0
  · rw [if_pos hneg, if_neg (by omega), digits_eq_toDigits, ← String.toList_inj,
      String.toList_append, String.toList_ofList, Nat.toList_repr,
      show (-n.toInt).toNat = n.toInt.natAbs by omega]
    rfl
  · rw [if_neg hneg, if_pos (by omega), ofNat_eq_repr,
      show n.toInt.toNat = n.toInt.natAbs by omega]

theorem spells_ofInt64 (n : Int64) : Spells (ofInt64 n).toList n := by
  have hdigits (m : Nat) : digits m ≠ [] ∧ (∀ c ∈ digits m, c.isDigit) ∧
      Nat.ofDigitChars 10 (digits m) 0 = m := by
    rw [digits_eq_toDigits]
    exact ⟨Nat.toDigits_ne_nil, fun c hc => Nat.isDigit_of_mem_toDigits (by decide) (by decide) hc,
      Nat.ofDigitChars_ten_toDigits⟩
  obtain ⟨hne, hall, hvalue⟩ := hdigits n.toInt.natAbs
  rw [ofInt64, ofInt]
  split
  next hneg =>
    refine ⟨['-'], digits n.toInt.natAbs, by simp, hne, hall, .inr ⟨rfl, ?_⟩⟩
    rw [hvalue]
    omega
  next hnonneg =>
    refine ⟨[], digits n.toInt.natAbs, by simp [ofNat], hne, hall, .inl ⟨.inl rfl, ?_⟩⟩
    rw [hvalue]
    omega

theorem Spells.isDigit_or_sign {text : List Char} {n : Int64} (h : Spells text n) {c : Char}
    (hc : c ∈ text) : c.isDigit ∨ c = '+' ∨ c = '-' := by
  obtain ⟨sign, row, rfl, _, hdigits, hsign⟩ := h
  rcases List.mem_append.1 hc with hc | hc
  · rcases hsign with ⟨rfl | rfl, _⟩ | ⟨rfl, _⟩
    · simp at hc
    · exact .inr (.inl (by simpa using hc))
    · exact .inr (.inr (by simpa using hc))
  · exact .inl (hdigits c hc)

theorem quote_notMem_ofInt64 (n : Int64) : '"' ∉ (ofInt64 n).toList := by
  intro hquote
  have h := (spells_ofInt64 n).isDigit_or_sign hquote
  exact absurd h (by decide)

theorem isDigit_of_mem_ofNat {n : Nat} {c : Char} (h : c ∈ (ofNat n).toList) : c.isDigit := by
  rw [ofNat, String.toList_ofList, digits_eq_toDigits] at h
  exact Nat.isDigit_of_mem_toDigits (by decide) (by decide) h

theorem quote_notMem_ofNat (n : Nat) : '"' ∉ (ofNat n).toList :=
  fun hquote => absurd (isDigit_of_mem_ofNat hquote) (by decide)

end TreeAssay.Decimal
