import TreeAssay.Proofs.Reduction.Evaluation
/-!
# What can be produced is reduced

On a labelled tree the question whether a kind can be produced looks at the root alone,
and yet it settles what a reduction toward the kind comes to.  If the answer is no, the
root has no derivation; if it is yes, every node that is needed has one, and nothing but
the arithmetic can fail.
-/

namespace TreeAssay

/-! ## The answer at the root -/

theorem Row.offers_table_iff {leaf : Leaf} {below : Row} {goal : Kind} :
    CostTable.Offers goal (some (leaf.table below.tables)) ↔
      leaf.Derives below.length (fun operand => below.Derives operand) goal := by
  rw [Leaf.offers_table_iff, length_tables]
  simp only [derives_iff_tables]

namespace Tree

variable {s : States} {labels : Labels StateId} {leaf : Leaf} {below : Row} {goal : Kind}

theorem canProduce_plant (hlabelled : s.Labelled labels 0 (.node leaf below .nil)) :
    (plant leaf below).canProduce s labels goal = true ↔ (plant leaf below).Derives goal := by
  have htable : s.tableOf? labels (plant leaf below).root = some (leaf.table below.tables) :=
    hlabelled.1
  rw [canProduce, htable, Derives, below_plant]
  exact Row.offers_table_iff

/-- The root is the first node that is asked, so its failure is the first one. -/
theorem reduce_plant_of_not_derives (hlabelled : s.Labelled labels 0 (.node leaf below .nil))
    (hnot : ¬ (plant leaf below).Derives goal) :
    (plant leaf below).reduce s labels goal = .error (.noDerivation 0 leaf.op goal) := by
  have hnone : (leaf.table below.tables).get? goal = none := by
    rw [Derives, below_plant] at hnot
    have hoffers := mt Row.offers_table_iff.1 hnot
    rwa [CostTable.Offers, Option.bind_some, Option.not_isSome_iff_eq_none] at hoffers
  have hchain := (leaf.complete_table below.tables).chain?_eq_none.2 hnone
  rw [reduce_plant_in_phases, reduceInPhases, agenda_plant, Leaf.visit, hlabelled.1]
  simp only [hchain]
  rfl

variable {s' : States} {labels' : Labels StateId}

theorem canProduce_congr (hlabelled : s.Labelled labels 0 (.node leaf below .nil))
    (hlabelled' : s'.Labelled labels' 0 (.node leaf below .nil)) :
    (plant leaf below).canProduce s labels = (plant leaf below).canProduce s' labels' := by
  funext goal
  rw [Bool.eq_iff_iff, canProduce_plant hlabelled, canProduce_plant hlabelled']

theorem reduce_congr (hlabelled : s.Labelled labels 0 (.node leaf below .nil))
    (hlabelled' : s'.Labelled labels' 0 (.node leaf below .nil)) :
    (plant leaf below).reduce s labels = (plant leaf below).reduce s' labels' := by
  funext goal
  by_cases hderives : (plant leaf below).Derives goal
  · rw [reduce_plant hlabelled hderives, reduce_plant hlabelled' hderives]
  · rw [reduce_plant_of_not_derives hlabelled hderives,
      reduce_plant_of_not_derives hlabelled' hderives]

end Tree

/-! ## The values of a kind -/

/-- The value is of the kind: an integer, one of sixteen bits, or a text. -/
def Kind.Admits : Kind → Value → Prop
  | .int, .int _ => True
  | .short, .int n => -32768 ≤ n.toInt ∧ n.toInt ≤ 32767
  | .string, .text _ => True
  | .int, .text _ | .short, .text _ | .string, .int _ => False

/-- What a reduction comes to that fails in its arithmetic at worst. -/
inductive Kind.Yields (goal : Kind) : Except ReductionError Value → Prop
  | value {v} : goal.Admits v → Yields goal (.ok v)
  | divisionByZero : Yields goal (.error .divisionByZero)
  | overflow (op) : Yields goal (.error (.overflow op))

theorem Leaf.admits_of_value {leaf : Leaf} {count : Nat} {operands : Kind → Prop} {goal : Kind}
    (hderives : leaf.Derives count operands goal) {below : Row} {v : Value}
    (hvalue : leaf.value below goal = .ok v) : goal.Admits v := by
  cases goal with
  | int =>
      obtain ⟨n, _, rfl⟩ := map_eq_ok.1 hvalue
      trivial
  | string =>
      obtain ⟨s, _, rfl⟩ := map_eq_ok.1 hvalue
      trivial
  | short =>
      -- Only a literal derives a short integer, and its pattern has looked at the range.
      cases hderives with
      | @shortLiteral n hleaf hlow hhigh _ =>
          subst hleaf
          cases hvalue
          exact ⟨hlow, hhigh⟩

theorem Tree.yields_meaning {t : Tree} {goal : Kind} (hderives : t.Derives goal) :
    goal.Yields ((t.meaning goal).mapError CalcFault.error) := by
  cases hvalue : t.meaning goal with
  | ok v => exact .value (Leaf.admits_of_value hderives hvalue)
  | error fault =>
      cases fault with
      | divisionByZero => exact .divisionByZero
      | overflow op => exact .overflow op

/-! ## Labelled trees -/

/-- On the labels that were written for a tree, a kind that cannot be produced has no
derivation at the root, and a kind that can be produced is reduced to a value of it
unless the arithmetic fails.  Nothing is produced without a tree, and a reduction that fails at the
root changes nothing. -/
theorem reduce_agrees_with_canProduce {t : Tree} (ht : t.Built) {s s' : States}
    (hs : States.empty.Leads s) (labels : Labels StateId)
    (hs' : (calculator.label s (some t) labels).1.Leads s') (goal : Kind) :
    let written := (calculator.label s (some t) labels).2
    ((calculator.canProduce s' (some t) written goal).2 = false →
        calculator.reduce s' (some t) written goal =
          (s', .error (.noDerivation t.root t.rootNode.op goal))) ∧
      ((calculator.canProduce s' (some t) written goal).2 = true →
        goal.Yields (calculator.reduce s' (some t) written goal).2) ∧
      ∀ (s : States) (labels : Labels StateId),
        calculator.canProduce s none labels goal = (s, false) ∧
          calculator.reduce s none labels goal = (s, .error (.emptyTree goal)) := by
  obtain ⟨leaf, below, rfl⟩ := ht.eq_plant
  intro written
  have hlabelled : s'.Labelled written 0 (.node leaf below .nil) := hs.labelled hs'
  refine ⟨fun hfalse => ?_, fun htrue => ?_, fun s labels => ⟨rfl, rfl⟩⟩
  · refine congrArg (s', ·) (Tree.reduce_plant_of_not_derives hlabelled ?_)
    rw [← Tree.canProduce_plant hlabelled]
    exact ne_true_of_eq_false hfalse
  · have hderives := (Tree.canProduce_plant hlabelled).1 htrue
    have hreduce : (calculator.reduce s' (some (.plant leaf below)) written goal).2 =
        ((Tree.plant leaf below).meaning goal).mapError CalcFault.error :=
      Tree.reduce_plant hlabelled hderives
    rw [hreduce]
    exact Tree.yields_meaning hderives

/-- A negated short integer is an integer, which widening makes of its operand, but it is
no short integer itself. -/
theorem reduce_agrees_with_canProduce_negate :
    let t := Tree.plant ⟨.negate, none⟩ (.node ⟨.shortLiteral, some (.int 7)⟩ .nil .nil)
    let labelled := calculator.label .empty (some t) .empty
    t.Built ∧ States.empty.Leads .empty ∧ labelled.1.Leads labelled.1 ∧
      ((calculator.canProduce labelled.1 (some t) labelled.2 .short).2 = false ∧
        calculator.reduce labelled.1 (some t) labelled.2 .short =
          (labelled.1, .error (.noDerivation 0 .negate .short))) ∧
      (calculator.canProduce labelled.1 (some t) labelled.2 .int).2 = true ∧
        Kind.int.Yields (calculator.reduce labelled.1 (some t) labelled.2 .int).2 := by
  intro t labelled
  have ht : t.Built := Tree.built_plant _ _
  have hint : t.Derives .int := by
    rw [Tree.Derives, Tree.below_plant]
    exact .negate rfl rfl ⟨.widen (.shortLiteral rfl (by decide) (by decide) rfl), trivial⟩
  have hshort : ¬ t.Derives .short := by
    rw [Tree.Derives]
    intro h
    cases h with
    | shortLiteral hleaf _ _ _ => cases hleaf
  have hcan (goal : Kind) :
      (calculator.canProduce labelled.1 (some t) labelled.2 goal).2 = true ↔ t.Derives goal :=
    Tree.canProduce_plant (States.Leads.labelled .refl .refl)
  have hfalse : (calculator.canProduce labelled.1 (some t) labelled.2 .short).2 = false :=
    eq_false_of_ne_true (mt (hcan .short).1 hshort)
  have htrue : (calculator.canProduce labelled.1 (some t) labelled.2 .int).2 = true :=
    (hcan .int).2 hint
  refine ⟨ht, .refl, .refl, ⟨hfalse, ?_⟩, htrue, ?_⟩
  · exact (reduce_agrees_with_canProduce ht .refl .empty .refl .short).1 hfalse
  · exact (reduce_agrees_with_canProduce ht .refl .empty .refl .int).2.1 htrue

end TreeAssay
