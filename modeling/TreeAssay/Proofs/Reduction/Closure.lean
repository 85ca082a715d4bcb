import TreeAssay.Proofs.Reduction.Cheapest
/-!
# Closing a table

An offer is taken or it is not, and it takes the place of an entry only if it is cheaper.  What
every conversion keeps, closing keeps.  A table that a whole pass of the conversions leaves as it
is, is left as it is by each of them, and no entry is dearer than a conversion makes it from
another.
-/

namespace TreeAssay

theorem Cost.plus_le_plus {a b : UInt32} (h : a ≤ b) (c : UInt32) : plus a c ≤ plus b c := by
  rw [UInt32.le_iff_toNat_le] at h ⊢
  rw [plus_eq_capped, plus_eq_capped, toNat_capped, toNat_capped]
  omega

theorem Cost.toNat_plus (a b : UInt32) :
    (plus a b).toNat = min (a.toNat + b.toNat) (UInt32.size - 1) := by
  rw [plus_eq_capped, toNat_capped]

theorem Conversion.mem_all (c : Conversion) : c ∈ all := by
  cases c <;> decide

namespace CostTable

variable {table better : CostTable} {kind other : Kind} {d entry : Derivation} {c : Conversion}

/-- What is in the one table is in the other, and not dearer. -/
def Improves (better table : CostTable) : Prop :=
  ∀ kind known, table.get? kind = some known →
    ∃ d, better.get? kind = some d ∧ d.cost ≤ known.cost

/-- What is in the one table is in the other as it is, or something cheaper is. -/
def Keeps (better table : CostTable) : Prop :=
  ∀ kind known, table.get? kind = some known →
    ∃ d, better.get? kind = some d ∧ (d = known ∨ d.cost < known.cost)

theorem Keeps.refl (table : CostTable) : table.Keeps table :=
  fun _ known hknown => ⟨known, hknown, .inl rfl⟩

theorem Keeps.trans {best : CostTable} (h : best.Keeps better) (h' : better.Keeps table) :
    best.Keeps table := by
  intro kind known hknown
  obtain ⟨d, hd, hkept⟩ := h' kind known hknown
  obtain ⟨e, he, rfl | hless⟩ := h kind d hd
  · exact ⟨e, he, hkept⟩
  · refine ⟨e, he, .inr ?_⟩
    rcases hkept with rfl | hless'
    · exact hless
    · exact UInt32.lt_trans hless hless'

theorem Keeps.improves (h : better.Keeps table) : better.Improves table := by
  intro kind known hknown
  obtain ⟨d, hd, rfl | hless⟩ := h kind known hknown
  · exact ⟨d, hd, UInt32.le_refl _⟩
  · exact ⟨d, hd, UInt32.le_of_lt hless⟩

/-! ## One offer -/

/-- An offer is not taken where the table has what costs no more, and taken elsewhere. -/
theorem offer_cases (table : CostTable) (kind : Kind) (d : Derivation) :
    (table.offer kind d = table ∧ ∃ known, table.get? kind = some known ∧ known.cost ≤ d.cost) ∨
      (table.offer kind d = table.set kind d ∧
        ∀ known, table.get? kind = some known → d.cost < known.cost) := by
  unfold offer
  cases hknown : table.get? kind with
  | none => exact .inr ⟨rfl, nofun⟩
  | some known =>
      dsimp only
      by_cases hle : known.cost ≤ d.cost
      · rw [if_pos hle]
        exact .inl ⟨rfl, known, rfl, hle⟩
      · rw [if_neg hle]
        refine .inr ⟨rfl, fun known' heq => ?_⟩
        rw [← Option.some.inj heq]
        exact UInt32.not_le.1 hle

theorem get?_offer (h : (table.offer kind d).get? other = some entry) :
    table.get? other = some entry ∨ kind = other ∧ d = entry := by
  rcases offer_cases table kind d with ⟨hsame, _⟩ | ⟨hset, _⟩
  · rw [hsame] at h
    exact .inl h
  · rw [hset, get?_set] at h
    split at h
    next hkind => exact .inr ⟨hkind, Option.some.inj h⟩
    next => exact .inl h

theorem keeps_offer (table : CostTable) (kind : Kind) (d : Derivation) :
    (table.offer kind d).Keeps table := by
  intro other known hknown
  rcases offer_cases table kind d with ⟨hsame, _⟩ | ⟨hset, hless⟩
  · exact ⟨known, by rw [hsame, hknown], .inl rfl⟩
  · rw [hset, get?_set]
    by_cases hkind : kind = other
    · subst hkind
      exact ⟨d, if_pos rfl, .inr (hless known hknown)⟩
    · exact ⟨known, by rw [if_neg hkind, hknown], .inl rfl⟩

theorem improves_offer (table : CostTable) (kind : Kind) (d : Derivation) :
    (table.offer kind d).Improves table :=
  (keeps_offer table kind d).improves

/-! ## One conversion -/

theorem get?_convert (h : (table.convert c).get? kind = some entry) :
    table.get? kind = some entry ∨ c.target = kind ∧
      ∃ known, table.get? c.source = some known ∧
        entry = ⟨Cost.plus known.cost c.cost, .conversion c⟩ := by
  rw [convert] at h
  cases hknown : table.get? c.source with
  | none =>
      rw [hknown] at h
      exact .inl h
  | some known =>
      rw [hknown] at h
      rcases get?_offer h with hold | ⟨htarget, hentry⟩
      · exact .inl hold
      · exact .inr ⟨htarget, known, rfl, hentry.symm⟩

theorem keeps_convert (table : CostTable) (c : Conversion) : (table.convert c).Keeps table := by
  rw [convert]
  cases table.get? c.source with
  | none => exact .refl table
  | some known => exact keeps_offer table c.target _

/-- A conversion changes nothing exactly if its target is in the table where its source is, and
costs no more than the conversion from there. -/
theorem convert_eq_iff :
    table.convert c = table ↔ ∀ known, table.get? c.source = some known →
      ∃ d, table.get? c.target = some d ∧ d.cost ≤ Cost.plus known.cost c.cost := by
  constructor
  · intro h known hknown
    rw [convert, hknown] at h
    dsimp only at h
    rcases offer_cases table c.target ⟨Cost.plus known.cost c.cost, .conversion c⟩ with
      ⟨_, d, hd, hle⟩ | ⟨hset, _⟩
    · exact ⟨d, hd, hle⟩
    · rw [← h, hset, get?_set, if_pos rfl]
      exact ⟨_, rfl, UInt32.le_refl _⟩
  · intro h
    rw [convert]
    cases hknown : table.get? c.source with
    | none => rfl
    | some known =>
        obtain ⟨d, hd, hle⟩ := h known hknown
        dsimp only
        rw [offer, hd]
        exact if_pos hle

/-- What holds of a table and is kept by every conversion holds when the table is closed. -/
theorem close_induction {P : CostTable → Prop} (h : P table)
    (hconvert : ∀ table c, P table → P (table.convert c)) : P table.close := by
  have hpass (cs : List Conversion) (table : CostTable) (h : P table) :
      P (cs.foldl convert table) := by
    induction cs generalizing table with
    | nil => exact h
    | cons c cs ih => exact ih _ (hconvert table c h)
  induction table using close.induct with
  | case1 table hsame =>
      rw [close, dif_pos hsame]
      exact h
  | case2 table hsame ih =>
      rw [close, dif_neg hsame]
      exact ih (hpass _ table h)

theorem keeps_close (table : CostTable) : table.close.Keeps table :=
  close_induction (P := fun closed => closed.Keeps table) (.refl table) fun closed c h =>
    (keeps_convert closed c).trans h

/-! ## A pass that changes nothing -/

theorem totalBurden_foldl_convert (cs : List Conversion) (table : CostTable) :
    (cs.foldl convert table).totalBurden ≤ table.totalBurden := by
  induction cs generalizing table with
  | nil => exact Nat.le_refl _
  | cons c cs ih =>
      rw [List.foldl_cons]
      rcases table.totalBurden_convert c with hsame | hless
      · rw [hsame]
        exact ih table
      · have := ih (table.convert c)
        omega

-- A conversion that changed the table would make it lighter, and none after it could make up
-- for that.
theorem convert_of_foldl_convert {cs : List Conversion} (h : cs.foldl convert table = table)
    (hc : c ∈ cs) : table.convert c = table := by
  induction cs with
  | nil => cases hc
  | cons first cs ih =>
      rw [List.foldl_cons] at h
      have hfirst : table.convert first = table := by
        rcases table.totalBurden_convert first with hsame | hless
        · exact hsame
        · have hrest := totalBurden_foldl_convert cs (table.convert first)
          rw [h] at hrest
          omega
      rw [hfirst] at h
      rcases List.mem_cons.1 hc with rfl | hc
      · exact hfirst
      · exact ih h hc

/-! ## A pass that reports its changes -/

/-- The table after an offer, and whether the offer was taken. -/
def offerReporting (table : CostTable) (kind : Kind) (d : Derivation) : CostTable × Bool :=
  match table.get? kind with
  | some known => if known.cost ≤ d.cost then (table, false) else (table.set kind d, true)
  | none => (table.set kind d, true)

/-- An offer is taken exactly if it changes the table. -/
theorem offerReporting_eq (table : CostTable) (kind : Kind) (d : Derivation) :
    table.offerReporting kind d = (table.offer kind d, decide (table.offer kind d ≠ table)) := by
  -- What is taken is cheaper than what was there, so the two are never the same.
  have htaken (h : ∀ known, table.get? kind = some known → d.cost < known.cost) :
      decide (table.set kind d ≠ table) = true := by
    refine decide_eq_true fun hsame => ?_
    have hget : table.get? kind = some d := by
      rw [← hsame, get?_set, if_pos rfl]
    exact UInt32.lt_irrefl _ (h d hget)
  unfold offerReporting offer
  cases hknown : table.get? kind with
  | none =>
      dsimp only
      rw [htaken (by simp [hknown])]
  | some known =>
      dsimp only
      by_cases hle : known.cost ≤ d.cost
      · simp [hle]
      · simp only [if_neg hle]
        rw [htaken]
        intro other hother
        rw [← Option.some.inj (hknown.symm.trans hother)]
        exact UInt32.not_le.1 hle

/-- The table after a conversion, and whether it or one before it changed the table. -/
def convertReporting : CostTable × Bool → Conversion → CostTable × Bool
  | (table, changed), c =>
    match table.get? c.source with
    | none => (table, changed)
    | some known =>
      let (table, taken) :=
        table.offerReporting c.target ⟨Cost.plus known.cost c.cost, .conversion c⟩
      (table, changed || taken)

/-- All conversions in order, and whether any of them changed the table. -/
def pass (table : CostTable) : CostTable × Bool :=
  Conversion.all.foldl convertReporting (table, false)

theorem convertReporting_eq (table : CostTable) (changed : Bool) (c : Conversion) :
    convertReporting (table, changed) c =
      (table.convert c, changed || decide (table.convert c ≠ table)) := by
  rw [convertReporting, convert]
  cases table.get? c.source with
  | none => simp
  | some known =>
      dsimp only
      rw [offerReporting_eq]

theorem foldl_convertReporting (cs : List Conversion) (table : CostTable) (changed : Bool) :
    cs.foldl convertReporting (table, changed) =
      (cs.foldl convert table, changed || decide (cs.foldl convert table ≠ table)) := by
  induction cs generalizing table changed with
  | nil => simp
  | cons c cs ih =>
      rw [List.foldl_cons, convertReporting_eq, ih, List.foldl_cons]
      by_cases hfirst : table.convert c = table
      · simp [hfirst]
      · -- What the first conversion changes, the others do not change back.
        have hrest : cs.foldl convert (table.convert c) ≠ table := fun hsame =>
          hfirst (convert_of_foldl_convert ((List.foldl_cons ..).trans hsame) (.head cs))
        simp [hfirst, hrest]

/-- A pass reports a change exactly if the table is another one after it. -/
theorem pass_eq (table : CostTable) :
    table.pass = (table.convertAll, decide (table.convertAll ≠ table)) :=
  foldl_convertReporting Conversion.all table false

/-- Closing repeats passes until one reports no change. -/
theorem close_eq_pass (table : CostTable) :
    table.close = if table.pass.2 then table.pass.1.close else table.pass.1 := by
  rw [pass_eq, close]
  by_cases h : table.convertAll = table
  · simp [h]
  · simp [h]

/-! ## The closed table -/

theorem convertAll_close (table : CostTable) : table.close.convertAll = table.close := by
  induction table using close.induct with
  | case1 table h =>
      rw [close, dif_pos h]
      exact h
  | case2 table h ih =>
      rw [close, dif_neg h]
      exact ih

theorem convert_close (table : CostTable) (c : Conversion) :
    table.close.convert c = table.close :=
  convert_of_foldl_convert table.convertAll_close c.mem_all

end CostTable

end TreeAssay
