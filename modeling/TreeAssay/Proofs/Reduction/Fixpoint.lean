import Mathlib.Data.List.Basic
import Mathlib.Logic.Function.Iterate
import Mathlib.Order.Bounds.Defs
import TreeAssay.Proofs.Reduction.Closure
/-!
# The closed table as a least fixpoint

Conversions in a row make a kind from each entry that they begin at, at the entry's cost and
theirs, as far as costs go.  A table is stable when no conversion improves it.  Passes over the
conversions end with the first stable table; each of its costs is the least at which
conversions make the kind, and where they make nothing cheaper the entry stays what it was.
-/

namespace TreeAssay

/-- The one kind becomes the other by these conversions, the last one first. -/
inductive Conversion.Chain : Kind → List Conversion → Kind → Prop
  | nil (kind : Kind) : Chain kind [] kind
  | cons {source : Kind} {path : List Conversion} (c : Conversion) :
      Chain source path c.source → Chain source (c :: path) c.target

theorem Conversion.chain_iff {source goal : Kind} {path : List Conversion} :
    Chain source path goal ↔ source.path? goal = some path := by
  constructor
  · intro h
    induction h with
    | nil => exact Kind.path?_eq_nil.2 rfl
    | cons c _ ih => exact Kind.path?_eq_cons.2 ⟨rfl, ih⟩
  · intro h
    induction path generalizing goal with
    | nil =>
        obtain rfl := Kind.path?_eq_nil.1 h
        exact .nil source
    | cons c path ih =>
        obtain ⟨rfl, hsource⟩ := Kind.path?_eq_cons.1 h
        exact .cons c (ih hsource)

namespace CostTable

variable {table better : CostTable} {kind : Kind} {d known : Derivation} {c : Conversion}
  {cost : Nat}

/-! ## Stable tables -/

/-- No conversion makes an entry that the table lacks, or a cheaper one. -/
def Stable (table : CostTable) : Prop :=
  ∀ (c : Conversion) (known : Derivation), table.get? c.source = some known →
    ∃ d, table.get? c.target = some d ∧
      d.cost.toNat ≤ min (known.cost.toNat + c.cost.toNat) (UInt32.size - 1)

theorem stable_iff : table.Stable ↔ ∀ c, table.convert c = table := by
  simp only [Stable, convert_eq_iff, UInt32.le_iff_toNat_le, Cost.toNat_plus]

/-- A pass changes a table exactly if some conversion improves it. -/
theorem convertAll_eq_iff : table.convertAll = table ↔ table.Stable := by
  rw [stable_iff]
  constructor
  · exact fun h c => convert_of_foldl_convert h c.mem_all
  · exact fun h => List.foldl_fixed' h Conversion.all

theorem stable_close (table : CostTable) : table.close.Stable :=
  stable_iff.2 table.convert_close

theorem Stable.close_eq (h : table.Stable) : table.close = table := by
  rw [close, dif_pos (convertAll_eq_iff.2 h)]

/-- Closing is a number of passes, each of them over a table that is not stable. -/
theorem exists_passes (table : CostTable) :
    ∃ passes, table.close = convertAll^[passes] table ∧
      ∀ n < passes, ¬ (convertAll^[n] table).Stable := by
  induction table using close.induct with
  | case1 table h =>
      rw [close, dif_pos h]
      exact ⟨0, rfl, fun n hn => absurd hn (Nat.not_lt_zero n)⟩
  | case2 table h ih =>
      obtain ⟨passes, hclose, hbefore⟩ := ih
      rw [close, dif_neg h]
      refine ⟨passes + 1, hclose, fun n hn => ?_⟩
      cases n with
      | zero => exact fun hstable => h (convertAll_eq_iff.2 hstable)
      | succ n => exact hbefore n (Nat.lt_of_succ_lt_succ hn)

/-! ## Costs that conversions reach -/

/-- The costs of a kind that conversions make from the entries of the table. -/
def reached (table : CostTable) (kind : Kind) : Set Nat :=
  {cost | ∃ source path known, Conversion.Chain source path kind ∧
    table.get? source = some known ∧
    cost = min (known.cost.toNat + Conversion.totalCost path) (UInt32.size - 1)}

theorem mem_reached_of_get? (hknown : table.get? kind = some known) :
    known.cost.toNat ∈ table.reached kind := by
  refine ⟨kind, [], known, .nil kind, hknown, ?_⟩
  have := known.cost.toNat_lt_size
  rw [Conversion.totalCost]
  omega

theorem mem_reached_target (h : cost ∈ table.reached c.source) :
    min (cost + c.cost.toNat) (UInt32.size - 1) ∈ table.reached c.target := by
  obtain ⟨source, path, known, hchain, hknown, rfl⟩ := h
  refine ⟨source, c :: path, known, .cons c hchain, hknown, ?_⟩
  rw [Conversion.totalCost]
  omega

theorem mem_reached_of_get?_close (hd : table.close.get? kind = some d) :
    d.cost.toNat ∈ table.reached kind := by
  refine close_induction (P := fun closed => ∀ kind d, closed.get? kind = some d →
    d.cost.toNat ∈ table.reached kind) (fun _ _ => mem_reached_of_get?) ?_ kind d hd
  intro closed c h kind entry hentry
  rcases get?_convert hentry with hold | ⟨rfl, known, hknown, rfl⟩
  · exact h kind entry hold
  · rw [Cost.toNat_plus]
    exact mem_reached_target (h c.source known hknown)

/-- A stable table that has nothing dearer than the table has nothing dearer than conversions
make of it. -/
theorem exists_le_of_mem_reached (hstable : better.Stable) (hbetter : better.Improves table)
    (h : cost ∈ table.reached kind) : ∃ d, better.get? kind = some d ∧ d.cost.toNat ≤ cost := by
  obtain ⟨source, path, known, hchain, hknown, rfl⟩ := h
  induction hchain with
  | nil =>
      obtain ⟨d, hd, hle⟩ := hbetter _ _ hknown
      rw [UInt32.le_iff_toNat_le] at hle
      have := d.cost.toNat_lt_size
      exact ⟨d, hd, by omega⟩
  | cons c _ ih =>
      obtain ⟨d, hd, hle⟩ := ih
      obtain ⟨e, he, hle'⟩ := hstable c d hd
      refine ⟨e, he, ?_⟩
      rw [Conversion.totalCost]
      omega

theorem get?_close_iff_isLeast :
    (∃ d, table.close.get? kind = some d ∧ d.cost.toNat = cost) ↔
      IsLeast (table.reached kind) cost := by
  have hle {other : Nat} (h : other ∈ table.reached kind) :
      ∃ d, table.close.get? kind = some d ∧ d.cost.toNat ≤ other :=
    exists_le_of_mem_reached table.stable_close table.keeps_close.improves h
  constructor
  · rintro ⟨d, hd, rfl⟩
    refine ⟨mem_reached_of_get?_close hd, fun other hother => ?_⟩
    obtain ⟨d', hd', hless⟩ := hle hother
    rw [hd] at hd'
    cases hd'
    exact hless
  · rintro ⟨hmem, hleast⟩
    obtain ⟨d, hd, hless⟩ := hle hmem
    exact ⟨d, hd, Nat.le_antisymm hless (hleast (mem_reached_of_get?_close hd))⟩

theorem get?_close_of_isLeast (hknown : table.get? kind = some known)
    (hleast : IsLeast (table.reached kind) known.cost.toNat) :
    table.close.get? kind = some known := by
  obtain ⟨d, hd, rfl | hless⟩ := table.keeps_close kind known hknown
  · exact hd
  · rw [UInt32.lt_iff_toNat_lt] at hless
    have := hleast.2 (mem_reached_of_get?_close hd)
    omega

/-- Every table is closed after finitely many passes, none of them over a stable table.  The
closed table is stable, keeps every entry or makes it cheaper, and among such tables has the
greatest costs.  These are the least that conversions reach; an entry that has such a cost from
the beginning is still the same; and closing again changes nothing. -/
theorem close_least_fixpoint (table : CostTable) :
    (∃ passes, table.close = convertAll^[passes] table ∧
      ∀ n < passes, ¬ (convertAll^[n] table).Stable) ∧
    table.close.Stable ∧ table.close.Improves table ∧
    (∀ better : CostTable, better.Stable → better.Improves table →
      better.Improves table.close) ∧
    (∀ kind cost, (∃ d, table.close.get? kind = some d ∧ d.cost.toNat = cost) ↔
      IsLeast (table.reached kind) cost) ∧
    (∀ kind known, table.get? kind = some known →
      IsLeast (table.reached kind) known.cost.toNat → table.close.get? kind = some known) ∧
    table.close.close = table.close := by
  refine ⟨exists_passes table, stable_close table, table.keeps_close.improves, ?_,
    fun _ _ => get?_close_iff_isLeast, fun _ _ => get?_close_of_isLeast,
    table.stable_close.close_eq⟩
  intro better hstable hbetter kind known hknown
  obtain ⟨d, hd, hle⟩ :=
    exists_le_of_mem_reached hstable hbetter (mem_reached_of_get?_close hknown)
  exact ⟨d, hd, UInt32.le_iff_toNat_le.2 hle⟩

/-- A short integer at one less than the greatest cost is widened at no less than an integer at
the greatest cost, which therefore keeps its rule; as a text it costs no more. -/
theorem close_least_fixpoint_saturated :
    let int : Derivation := ⟨4294967295, .pattern .add⟩
    let table : CostTable := { int := some int, short := some ⟨4294967294, .pattern .divide⟩ }
    let free : CostTable :=
      { int := some ⟨0, .pattern .add⟩, short := some ⟨0, .pattern .add⟩,
        string := some ⟨0, .conversion .widen⟩ }
    table.get? .int = some int ∧ IsLeast (table.reached .int) int.cost.toNat ∧
      table.close.get? .int = some int ∧
      (∃ d, table.close.get? .string = some d ∧ d.cost.toNat = 4294967295) ∧
      free.Stable ∧ free.Improves table ∧ free.Improves table.close := by
  intro int table free
  have hint : IsLeast (table.reached .int) int.cost.toNat := by
    refine ⟨mem_reached_of_get? rfl, ?_⟩
    rintro _ ⟨source, path, known, hchain, hknown, rfl⟩
    rw [Conversion.chain_iff] at hchain
    cases source <;> cases hchain <;> cases hknown <;> decide
  have hstring : IsLeast (table.reached .string) 4294967295 := by
    refine ⟨⟨.int, [.format], int, .cons .format (.nil .int), rfl, by decide⟩, ?_⟩
    rintro _ ⟨source, path, known, hchain, hknown, rfl⟩
    rw [Conversion.chain_iff] at hchain
    cases source <;> cases hchain <;> cases hknown <;> decide
  have hstable : free.Stable := by
    rintro c known hknown
    cases c <;> exact ⟨_, rfl, Nat.zero_le _⟩
  have hfree : free.Improves table := by
    intro kind known hknown
    cases kind <;> exact ⟨_, rfl, UInt32.le_iff_toNat_le.2 (Nat.zero_le _)⟩
  obtain ⟨_, _, _, hbest, hcosts, hkept, _⟩ := close_least_fixpoint table
  exact ⟨rfl, hint, hkept _ _ rfl hint, (hcosts _ _).2 hstring, hstable, hfree,
    hbest free hstable hfree⟩

end CostTable

end TreeAssay
