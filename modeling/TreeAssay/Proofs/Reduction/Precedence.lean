import TreeAssay.Proofs.Reduction.Phases
import TreeAssay.Proofs.Trees.Construction
/-!
# Which error a reduction gives

The two phases fail in different ways: the first over labels that say nothing of a kind, the
second over values.  So the error tells which of them it comes from, and with any labels, even
those of another tree, the first phase has its say before a single value is computed.
-/

namespace TreeAssay

/-! ## The errors of the two phases -/

/-- Why a visit ends at a node: it has no table, or no entry for the kind that it is asked for,
or a null where its pattern takes an operand. -/
inductive Arena.Blocked (a : Arena) (s : States) (labels : Labels StateId) :
    ReductionError → Prop
  | unlabeled {id} : id < a.size → s.tableOf? labels id = none → Blocked a s labels (.unlabeled id)
  | noEntry {id node table kind} : a.node? id = some node → s.tableOf? labels id = some table →
      table.chain? kind = none → Blocked a s labels (.noDerivation id node.op kind)
  | null {id node table kind path pattern operand} : a.node? id = some node →
      s.tableOf? labels id = some table → table.chain? kind = some (path, pattern) →
      pattern.operands.kind? = some operand → .null ∈ node.slots →
      Blocked a s labels (.noDerivation id node.op kind)

theorem Row.null_mem_slots {row : Row} {start : Nat} (h : row.hasNull = true) :
    .null ∈ row.slots start := by
  induction row generalizing start with
  | nil => cases h
  | null next ih => exact List.mem_cons_self
  | node leaf below next _ ih => exact List.mem_cons_of_mem _ (ih h)

theorem Arena.blocked_of_visit {a : Arena} {s : States} {labels : Labels StateId} {leaf : Leaf}
    {below : Row} {visitBelow : Kind → Except ReductionError Agenda} {id : Nat} {kind : Kind}
    {error : ReductionError}
    (hnode : a.node? id = some ⟨leaf, (below.slots (id + 1)).toArray⟩)
    (hbelow : ∀ operand, visitBelow operand = .error error → a.Blocked s labels error)
    (h : leaf.visit s labels below visitBelow id kind = .error error) :
    a.Blocked s labels error := by
  rw [Leaf.visit] at h
  split at h
  next htable =>
    cases h
    exact .unlabeled (Array.getElem?_eq_some_iff.1 hnode).1 htable
  next table htable =>
    split at h
    next hchain =>
      cases h
      exact .noEntry hnode htable hchain
    next conversions pattern hchain =>
      split at h
      next => cases h
      next operand hkind =>
        split at h
        next hnull =>
          cases h
          exact .null hnode htable hchain hkind (List.mem_toArray.2 (Row.null_mem_slots hnull))
        next =>
          rcases bind_eq_error.1 h with h | ⟨_, _, h⟩
          · exact hbelow operand h
          · cases h

theorem Arena.blocked_of_agenda {a : Arena} {s : States} {labels : Labels StateId} {row : Row}
    {start : Nat} (hholds : a.Holds start row) {kind : Kind} {error : ReductionError}
    (h : row.agenda s labels start kind = .error error) : a.Blocked s labels error := by
  induction row generalizing start kind with
  | nil => cases h
  | null next ih => exact ih hholds h
  | node leaf below next ihBelow ihNext =>
      obtain ⟨hnode, hbelow, hnext⟩ := hholds
      rw [Row.agenda] at h
      rcases bind_eq_error.1 h with h | ⟨later, _, h⟩
      · exact ihNext hnext h
      rcases bind_eq_error.1 h with h | ⟨visited, _, h⟩
      · exact blocked_of_visit hnode (fun operand => ihBelow hbelow) h
      · cases h

/-- The errors that come from values, and not from labels. -/
def ReductionError.OfValues : ReductionError → Prop
  | .emptyTree _ | .unlabeled _ | .noDerivation .. => False
  | .divisionByZero | .overflow _ | .arity .. | .operandMismatch .. => True

section OfValues

variable {op : Operation} {leaf : Leaf} {operands : List Value} {value : Value}
  {error : ReductionError}

theorem Operation.ofValues_intOperand (h : op.intOperand value = .error error) :
    error.OfValues := by
  rw [intOperand] at h
  split at h <;> cases h
  trivial

theorem Operation.ofValues_textOperand (h : op.textOperand value = .error error) :
    error.OfValues := by
  rw [textOperand] at h
  split at h <;> cases h
  trivial

theorem Operation.ofValues_intPair (h : op.intPair operands = .error error) :
    error.OfValues := by
  unfold intPair at h
  split at h
  next a b =>
    rcases bind_eq_error.1 h with h | ⟨_, _, h⟩
    · exact ofValues_intOperand h
    rcases bind_eq_error.1 h with h | ⟨_, _, h⟩
    · exact ofValues_intOperand h
    · cases h
  next => cases h; trivial

theorem Operation.ofValues_checked {n : Option Int64} (h : op.checked n = .error error) :
    error.OfValues := by
  cases n <;> cases h
  trivial

theorem Operation.ofValues_addTo {total : Int64} (h : op.addTo total value = .error error) :
    error.OfValues := by
  rcases bind_eq_error.1 h with h | ⟨n, _, h⟩
  · exact ofValues_intOperand h
  · split at h <;> cases h
    trivial

theorem Operation.ofValues_joinTo {joined : String} (h : op.joinTo joined value = .error error) :
    error.OfValues := by
  rcases bind_eq_error.1 h with h | ⟨_, _, h⟩
  · exact ofValues_textOperand h
  · cases h

theorem Action.ofValues_apply {action : Action} (h : action.apply leaf operands = .error error) :
    error.OfValues := by
  cases action with
  | literal =>
      rw [apply] at h
      split at h <;> cases h
      trivial
  | sum =>
      obtain ⟨_, value, _, total, _, _, h⟩ := foldlM_eq_error.1 (map_eq_error.1 h)
      exact Operation.ofValues_addTo h
  | concatenation =>
      obtain ⟨_, value, _, joined, _, _, h⟩ := foldlM_eq_error.1 (map_eq_error.1 h)
      exact Operation.ofValues_joinTo h
  | difference | product =>
      rcases bind_eq_error.1 h with h | ⟨_, _, h⟩
      · exact Operation.ofValues_intPair h
      · exact Operation.ofValues_checked h
  | quotient =>
      rcases bind_eq_error.1 h with h | ⟨pair, _, h⟩
      · exact Operation.ofValues_intPair h
      dsimp only at h
      split at h
      · cases h
        trivial
      · exact Operation.ofValues_checked h
  | negation =>
      unfold apply at h
      dsimp only at h
      split at h
      next a =>
        rcases bind_eq_error.1 h with h | ⟨_, _, h⟩
        · exact Operation.ofValues_intOperand h
        · exact Operation.ofValues_checked h
      next => cases h; trivial

theorem Conversion.ofValues_apply {conversion : Conversion}
    (h : conversion.apply value = .error error) : error.OfValues := by
  unfold apply at h
  split at h <;> cases h
  trivial

theorem Plan.ofValues_carryOut {plan : Plan} (h : plan.carryOut leaf operands = .error error) :
    error.OfValues := by
  rcases bind_eq_error.1 h with h | ⟨value, _, h⟩
  · exact Action.ofValues_apply h
  · obtain ⟨_, _, _, _, _, _, h⟩ := foldlM_eq_error.1 h
    exact Conversion.ofValues_apply h

theorem Agenda.ofValues_values {agenda : Agenda} (h : agenda.values = .error error) :
    error.OfValues := by
  induction agenda with
  | nil => cases h
  | node leaf plan below next ihBelow ihNext =>
      rcases bind_eq_error.1 h with h | ⟨_, _, h⟩
      · exact ihNext h
      rcases bind_eq_error.1 h with h | ⟨_, _, h⟩
      · exact ihBelow h
      rcases bind_eq_error.1 h with h | ⟨_, _, h⟩
      · exact Plan.ofValues_carryOut h
      · cases h

end OfValues

/-! ## Any labels -/

/-- A reduction goes through its two phases whatever the labels are.  An error of the first phase
is that of a node of the tree, and it comes before every error of values; and the plan that is
chosen for a node is where the rules of its table lead. -/
theorem reduce_in_phases {t : Tree} (ht : t.Built) {s : States} (hs : States.empty.Leads s)
    (labels : Labels StateId) (goal : Kind) :
    calculator.reduce s (some t) labels goal = (s, t.reduceInPhases s labels goal) ∧
      (∀ error, t.agenda s labels goal = .error error →
        t.Blocked s labels error ∧
          calculator.reduce s (some t) labels goal = (s, .error error)) ∧
      (∀ visited, t.agenda s labels goal = .ok visited → ∀ error,
        (calculator.reduce s (some t) labels goal).2 = .error error → error.OfValues) ∧
      ∀ id table, s.tableOf? labels id = some table → ∀ kind,
        (table.chain? kind = none ↔ table.get? kind = none) ∧
          ∀ path pattern, table.chain? kind = some (path, pattern) ↔
            table.Follows kind path pattern := by
  obtain ⟨leaf, below, rfl⟩ := ht.eq_plant
  have hreduce : calculator.reduce s (some (.plant leaf below)) labels goal =
      (s, (Tree.plant leaf below).reduceInPhases s labels goal) :=
    congrArg (s, ·) (Tree.reduce_plant_in_phases s labels goal leaf below)
  rw [hreduce]
  refine ⟨rfl, fun error herror => ⟨?_, ?_⟩, fun visited hvisited error herror => ?_,
    fun id table htable kind => ?_⟩
  · obtain ⟨hnode, hbelow, _⟩ := Arena.holds_plant leaf below
    rw [Tree.agenda_plant] at herror
    exact Arena.blocked_of_visit hnode (fun operand => Arena.blocked_of_agenda hbelow) herror
  · rw [Tree.reduceInPhases, herror]
    rfl
  · rw [Tree.reduceInPhases, hvisited, ok_bind] at herror
    rcases bind_eq_error.1 herror with herror | ⟨operands, _, herror⟩
    · exact Agenda.ofValues_values herror
    · exact Plan.ofValues_carryOut herror
  · have hcomplete := hs.complete htable
    exact ⟨hcomplete.chain?_eq_none, fun path pattern => hcomplete.chain?_eq_some⟩

/-- The labels of a lone literal make a literal of the negation of one, which has no text or
integer of its own. -/
theorem reduce_in_phases_foreign :
    let five := Tree.leaf ⟨.intLiteral, some (.int 5)⟩
    let t := Tree.plant ⟨.negate, none⟩ (.node ⟨.intLiteral, some (.int 5)⟩ .nil .nil)
    let foreign := calculator.label .empty (some five) .empty
    t.Built ∧ States.empty.Leads foreign.1 ∧
      calculator.reduce foreign.1 (some t) foreign.2 .int =
        (foreign.1, .error (.operandMismatch "Negate" "literal" "nothing")) ∧
      calculator.reduce foreign.1 (some t) foreign.2 .short =
        (foreign.1, .error (.noDerivation 0 .negate .short)) := by
  intro five t foreign
  have ht : t.Built := Tree.built_plant _ _
  have hs : States.empty.Leads foreign.1 := .label (some five) .empty .refl
  have htable : foreign.1.tableOf? foreign.2 0 =
      some (Leaf.table ⟨.intLiteral, some (.int 5)⟩ []) :=
    (States.label_plant States.sound_empty _ .nil .empty).2.2.1.1
  refine ⟨ht, hs, ?_, ?_⟩
  · rw [(reduce_in_phases ht hs foreign.2 .int).1, Tree.reduceInPhases, Tree.agenda_plant,
      Leaf.visit, htable]
    rfl
  · rw [(reduce_in_phases ht hs foreign.2 .short).1, Tree.reduceInPhases, Tree.agenda_plant,
      Leaf.visit, htable]
    rfl

end TreeAssay
