import TreeAssay.Proofs.Reduction.Closure
/-!
# Rules that can be followed

In the table of a node every rule makes the kind that it stands for, and every conversion has its
source in the same table.  This holds of what patterns offer and is kept by every conversion.
Conversions only go up in rank, so that following them comes to an end.
-/

namespace TreeAssay

/-- Conversions lead from kinds of less rank to kinds of greater rank. -/
def Kind.rank : Kind → Nat
  | .short => 0
  | .int => 1
  | .string => 2

theorem Conversion.rank_lt (c : Conversion) : c.source.rank < c.target.rank := by
  cases c <;> decide

namespace CostTable

variable {table better : CostTable} {kind : Kind} {d : Derivation} {path : List Conversion}
  {p : Pattern}

/-! ## What the rules rest on -/

/-- The rule of a derivation makes the kind: a pattern produces it, and a conversion makes it from
a kind in the table, at no more than the cost. -/
inductive Supports (table : CostTable) : Kind → Derivation → Prop
  | pattern (p : Pattern) (cost : UInt32) : Supports table p.produces ⟨cost, .pattern p⟩
  | conversion {c : Conversion} {known : Derivation} {cost : UInt32} :
      table.get? c.source = some known → Cost.plus known.cost c.cost ≤ cost →
      Supports table c.target ⟨cost, .conversion c⟩

theorem Supports.improves (h : table.Supports kind d) (hbetter : better.Improves table) :
    better.Supports kind d := by
  cases h with
  | pattern p cost => exact .pattern p cost
  | conversion hknown hle =>
      obtain ⟨source, hsource, hless⟩ := hbetter _ _ hknown
      exact .conversion hsource (UInt32.le_trans (Cost.plus_le_plus hless _) hle)

def Founded (table : CostTable) : Prop :=
  ∀ kind d, table.get? kind = some d → table.Supports kind d

theorem founded_empty : Founded {} := by
  intro kind d h
  cases kind <;> cases h

theorem Founded.offer (h : table.Founded) (hd : table.Supports kind d) :
    (table.offer kind d).Founded := by
  intro other entry hentry
  rcases get?_offer hentry with hold | ⟨rfl, rfl⟩
  · exact (h other entry hold).improves (improves_offer table kind d)
  · exact hd.improves (improves_offer table kind d)

theorem Founded.convert (h : table.Founded) (c : Conversion) : (table.convert c).Founded := by
  rw [CostTable.convert]
  cases hknown : table.get? c.source with
  | none => exact h
  | some known => exact h.offer (.conversion hknown (UInt32.le_refl _))

theorem Founded.close (h : table.Founded) : table.close.Founded :=
  close_induction h fun _ c h => h.convert c

theorem Founded.produces_eq (h : table.Founded) {cost : UInt32}
    (hentry : table.get? kind = some ⟨cost, .pattern p⟩) : p.produces = kind := by
  cases h kind _ hentry with
  | pattern => rfl

/-- When a table is closed, a conversion in it costs exactly what it adds to its source. -/
theorem Founded.cost_eq (h : table.close.Founded) {c : Conversion} {cost : UInt32}
    (hentry : table.close.get? kind = some ⟨cost, .conversion c⟩) :
    c.target = kind ∧ ∃ known, table.close.get? c.source = some known ∧
      cost = Cost.plus known.cost c.cost := by
  cases h kind _ hentry with
  | @conversion _ known _ hknown hle =>
      obtain ⟨d, hd, hless⟩ := convert_eq_iff.1 (table.convert_close c) known hknown
      rw [hentry] at hd
      cases hd
      exact ⟨rfl, known, hknown, UInt32.le_antisymm hless hle⟩

/-! ## Following the rules -/

/-- Following the rules of a table from a kind leads through conversions to a kind that is not in
the table. -/
inductive Breaks (table : CostTable) : Kind → Prop
  | missing {goal} : table.get? goal = none → Breaks table goal
  | conversion {goal cost conversion} :
      table.get? goal = some ⟨cost, .conversion conversion⟩ →
      Breaks table conversion.source → Breaks table goal

theorem Founded.breaks_iff (h : table.Founded) : table.Breaks kind ↔ table.get? kind = none := by
  constructor
  · intro hbreaks
    induction hbreaks with
    | missing hnone => exact hnone
    | conversion hentry _ ih =>
        cases h _ _ hentry with
        | conversion hknown _ =>
            rw [ih] at hknown
            cases hknown
  · exact .missing

/-- From every kind in the table the rules lead to a pattern. -/
theorem Founded.exists_follows (h : table.Founded) (hd : table.get? kind = some d) :
    ∃ path p, table.Follows kind path p := by
  induction hrank : kind.rank using Nat.strongRecOn generalizing kind d with
  | _ rank ih =>
      subst hrank
      cases h kind d hd with
      | pattern p cost => exact ⟨[], p, .pattern hd⟩
      | @conversion c _ _ hknown _ =>
          obtain ⟨path, p, hpath⟩ := ih _ c.rank_lt hknown rfl
          exact ⟨c :: path, p, .conversion hd hpath⟩

theorem Follows.pairwise_rank (hf : table.Follows kind path p) (h : table.Founded) :
    (kind :: path.map Conversion.source).Pairwise fun a b => b.rank < a.rank := by
  induction hf with
  | pattern => exact List.pairwise_singleton _ _
  | @conversion kind _ c path _ hentry _ ih =>
      have hlt : c.source.rank < kind.rank := by
        cases h _ _ hentry with
        | conversion => exact c.rank_lt
      rw [List.map_cons, List.pairwise_cons]
      refine ⟨fun other hother => ?_, ih⟩
      rcases List.mem_cons.1 hother with rfl | hother
      · exact hlt
      · exact Nat.lt_trans ((List.pairwise_cons.1 ih).1 other hother) hlt

/-- No kind is met twice on the way. -/
theorem Follows.nodup (hf : table.Follows kind path p) (h : table.Founded) :
    (kind :: path.map Conversion.source).Nodup := by
  refine (hf.pairwise_rank h).imp fun {a b} hlt heq => ?_
  rw [heq] at hlt
  exact Nat.lt_irrefl _ hlt

end CostTable

/-! ## The tables of nodes -/

/-- The table of a node is closed, and its rules rest on patterns. -/
theorem Leaf.exists_close (leaf : Leaf) (children : List (Option CostTable)) :
    ∃ table : CostTable, leaf.table children = table.close ∧ table.Founded := by
  have hnone : ∃ table : CostTable, {} = table.close ∧ table.Founded :=
    ⟨{}, CostTable.close_empty.symm, CostTable.founded_empty⟩
  rw [Leaf.table]
  split
  next => exact hnone
  next p _ =>
    split
    next => exact hnone
    next cost _ =>
      have hclose := CostTable.close_set p cost
      rw [← CostTable.offer_empty] at hclose
      exact ⟨_, hclose.symm, CostTable.founded_empty.offer (.pattern p cost)⟩

/-! ## Plans -/

namespace Plan

variable {s : States} {labels : Labels StateId} {node : Node} {demand : Demand} {table : CostTable}

/-- The plan of a node is where the rules of its table lead from the goal. -/
theorem ofNode_eq_ok (htable : s.tableOf? labels demand.id = some table)
    (hcomplete : table.Complete) {plan : Plan} :
    ofNode s labels node demand = .ok plan ↔
      table.Follows demand.goal plan.conversions plan.pattern := by
  obtain ⟨conversions, p⟩ := plan
  rw [← hcomplete.chain?_eq_some, ofNode, htable]
  dsimp only
  cases table.chain? demand.goal with
  | none => simp
  | some chain => simp [Prod.ext_iff]

/-- A node with a table has no plan exactly when the goal is not in the table. -/
theorem ofNode_eq_error (htable : s.tableOf? labels demand.id = some table)
    (hcomplete : table.Complete) {error : ReductionError} :
    ofNode s labels node demand = .error error ↔
      table.get? demand.goal = none ∧ error = .noDerivation demand.id node.op demand.goal := by
  rw [← hcomplete.chain?_eq_none, ofNode, htable]
  dsimp only
  cases table.chain? demand.goal with
  | none => simp [eq_comm]
  | some chain => simp

end Plan

namespace States

theorem Leads.exists_close {s : States} (hs : empty.Leads s) {state : StateId} {table : CostTable}
    (h : s.table? state = some table) :
    ∃ first : CostTable, table = first.close ∧ first.close.Founded := by
  obtain ⟨leaf, children, rfl⟩ := hs.exists_leaf h
  obtain ⟨first, hclose, hfirst⟩ := leaf.exists_close children
  exact ⟨first, hclose, hfirst.close⟩

/-- In every table of a calculator a pattern produces the kind that it stands for, and a
conversion makes it from a kind in the table at exactly its cost; the rules lead from every kind
to a pattern and meet no kind twice.  So whatever the labels are, looking for the rules of a
node comes to an end, and it ends without a plan only where the goal is not in the table. -/
theorem Leads.follows_rules {s : States} (hs : empty.Leads s) :
    (∀ state table, s.table? state = some table → ∀ kind d, table.get? kind = some d →
      (∀ p, d.rule = .pattern p → p.produces = kind) ∧
      (∀ c, d.rule = .conversion c → c.target = kind ∧
        ∃ known, table.get? c.source = some known ∧
          d.cost.toNat = min (known.cost.toNat + c.cost.toNat) (UInt32.size - 1)) ∧
      ∃ path p, table.Follows kind path p ∧ (kind :: path.map Conversion.source).Nodup) ∧
    ∀ (labels : Labels StateId) (node : Node) (demand : Demand) (table : CostTable),
      s.tableOf? labels demand.id = some table →
      ((∃ path p, table.Follows demand.goal path p) ∨ table.Breaks demand.goal) ∧
      (table.Breaks demand.goal ↔ table.get? demand.goal = none) ∧
      (∀ plan, Plan.ofNode s labels node demand = .ok plan ↔
        table.Follows demand.goal plan.conversions plan.pattern) ∧
      ∀ error, Plan.ofNode s labels node demand = .error error ↔
        table.get? demand.goal = none ∧ error = .noDerivation demand.id node.op demand.goal := by
  refine ⟨fun state table htable kind d hd => ?_, fun labels node demand table htable => ?_⟩
  · obtain ⟨first, rfl, hfounded⟩ := hs.exists_close htable
    obtain ⟨cost, rule⟩ := d
    refine ⟨?_, ?_, ?_⟩
    · rintro p rfl
      exact hfounded.produces_eq hd
    · rintro c rfl
      obtain ⟨htarget, known, hknown, rfl⟩ := hfounded.cost_eq hd
      exact ⟨htarget, known, hknown, Cost.toNat_plus known.cost c.cost⟩
    · obtain ⟨path, p, hpath⟩ := hfounded.exists_follows hd
      exact ⟨path, p, hpath, hpath.nodup hfounded⟩
  · have hcomplete : table.Complete := hs.complete htable
    obtain ⟨state, _, hstate⟩ := Option.bind_eq_some_iff.1 htable
    obtain ⟨first, rfl, hfounded⟩ := hs.exists_close hstate
    refine ⟨?_, hfounded.breaks_iff, fun plan => Plan.ofNode_eq_ok htable hcomplete,
      fun error => Plan.ofNode_eq_error htable hcomplete⟩
    cases hgoal : first.close.get? demand.goal with
    | none => exact .inr (.missing hgoal)
    | some d => exact .inl (hfounded.exists_follows hgoal)

/-- A short integer below a concatenation costs three as a text, one more than as an integer, and
becomes one by widening it and formatting what that gives; the concatenation is no integer. -/
theorem Leads.follows_rules_widened :
    let leaf : Leaf := ⟨.shortLiteral, some (.int 7)⟩
    let t := Tree.plant ⟨.concat, none⟩ (.node leaf .nil .nil)
    let written := calculator.label .empty (some t) .empty
    empty.Leads written.1 ∧ ∃ state table,
      written.2.get? 1 = some state ∧ written.1.table? state = some table ∧
      table.get? .string = some ⟨3, .conversion .format⟩ ∧
      (∃ known, table.get? .int = some known ∧
        3 = min (known.cost.toNat + 1) (UInt32.size - 1)) ∧
      Plan.ofNode written.1 written.2 ⟨leaf, #[]⟩ ⟨1, .string⟩ =
        .ok ⟨[.format, .widen], .shortLiteral⟩ ∧
      Plan.ofNode written.1 written.2 ⟨⟨.concat, none⟩, #[.node 1]⟩ ⟨0, .int⟩ =
        .error (.noDerivation 0 .concat .int) := by
  intro leaf t written
  have hs : empty.Leads written.1 := .label _ _ .refl
  obtain ⟨htables, hplans⟩ := hs.follows_rules
  obtain ⟨hroot, ⟨hleaf, _⟩, _⟩ :
      written.1.Labelled written.2 0 (.node ⟨.concat, none⟩ (.node leaf .nil .nil) .nil) :=
    Leads.refl.labelled .refl
  obtain ⟨state, hstate, htable⟩ := Option.bind_eq_some_iff.1 hleaf
  have htext : (leaf.table []).get? .string = some ⟨3, .conversion .format⟩ := by decide
  refine ⟨hs, state, _, hstate, htable, htext, ?_, ?_, ?_⟩
  · obtain ⟨_, hconversion, _⟩ := htables state _ htable .string _ htext
    obtain ⟨_, hknown⟩ := hconversion .format rfl
    exact hknown
  · obtain ⟨_, _, hplan, _⟩ := hplans written.2 ⟨leaf, #[]⟩ ⟨1, .string⟩ _ hleaf
    rw [hplan]
    exact .conversion rfl (.conversion rfl (.pattern rfl))
  · obtain ⟨_, _, _, herror⟩ :=
      hplans written.2 ⟨⟨.concat, none⟩, #[.node 1]⟩ ⟨0, .int⟩ _ hroot
    rw [herror]
    exact ⟨by decide, rfl⟩

end States

end TreeAssay
