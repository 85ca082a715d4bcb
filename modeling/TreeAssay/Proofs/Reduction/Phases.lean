import TreeAssay.Proofs.Outcome
import TreeAssay.Proofs.Reduction.Labelling
/-!
# The two phases of a reduction

A reduction first visits nodes, the root first and the last child of a node before the others,
and chooses a plan for each.  Only then are the plans carried out, children before their
parents.  Neither a stack of demands nor a sweep through all numbers is needed to say so: both
phases are recursions on the tree, whatever its labels are.
-/

namespace TreeAssay

/-! ## Choosing plans -/

/-- The nodes of a row that are visited, each with its plan and what is visited below it. -/
inductive Agenda
  | nil
  | node (leaf : Leaf) (plan : Plan) (below next : Agenda)

def Row.hasNull : Row → Bool
  | .nil => false
  | .null _ => true
  | .node _ _ next => next.hasNull

/-- Visits a node that is asked for a kind, and then what is below it, if its pattern takes
that. -/
def Leaf.visit (s : States) (labels : Labels StateId) (leaf : Leaf) (below : Row)
    (visitBelow : Kind → Except ReductionError Agenda) (id : Nat) (kind : Kind) :
    Except ReductionError (Plan × Agenda) :=
  match s.tableOf? labels id with
  | none => .error (.unlabeled id)
  | some table =>
    match table.chain? kind with
    | none => .error (.noDerivation id leaf.op kind)
    | some (conversions, pattern) =>
      match pattern.operands.kind? with
      | none => .ok (⟨conversions, pattern⟩, .nil)
      | some operand =>
        if below.hasNull then .error (.noDerivation id leaf.op kind)
        else do
          let inner ← visitBelow operand
          return (⟨conversions, pattern⟩, inner)

/-- Visits the nodes of a row, numbered from `start`, that are all asked for a kind.  The last
one comes first, with everything below it. -/
def Row.agenda (s : States) (labels : Labels StateId) (start : Nat) (kind : Kind) :
    Row → Except ReductionError Agenda
  | .nil => .ok .nil
  | .null next => next.agenda s labels start kind
  | .node leaf below next => do
    let later ← next.agenda s labels (start + 1 + below.size) kind
    let (plan, inner) ← leaf.visit s labels below (fun operand =>
      below.agenda s labels (start + 1) operand) start kind
    return .node leaf plan inner later

/-! ## Carrying plans out -/

/-- The values of the visited nodes of a row.  The last one comes first, and each after what
is visited below it. -/
def Agenda.values : Agenda → Except ReductionError (List Value)
  | .nil => .ok []
  | .node leaf plan below next => do
    let later ← next.values
    let operands ← below.values
    let value ← plan.carryOut leaf operands
    return value :: later

/-! ## Both phases -/

/-- The first phase, which starts at the root. -/
def Tree.agenda (t : Tree) (s : States) (labels : Labels StateId) (goal : Kind) :
    Except ReductionError (Plan × Agenda) :=
  t.rootNode.visit s labels t.below (fun operand =>
    t.below.agenda s labels (t.root + 1) operand) t.root goal

def Tree.reduceInPhases (t : Tree) (s : States) (labels : Labels StateId) (goal : Kind) :
    Except ReductionError Value := do
  let (plan, inner) ← t.agenda s labels goal
  let operands ← inner.values
  plan.carryOut t.rootNode.toLeaf operands

/-! ## The demands of a row -/

theorem Demand.ofSlots?_eq_none {kind : Kind} {rest : List Demand} {row : Row} {start : Nat}
    (h : row.hasNull = true) : ofSlots? kind rest (row.slots start) = none := by
  induction row generalizing start rest with
  | nil => cases h
  | null next ih => rfl
  | node leaf below next _ ih => exact ih h

/-- What meeting a demand at a node comes to. -/
theorem Arena.plans_of_node? {a : Arena} {s : States} {labels : Labels StateId}
    {made : Labels Plan} {demand : Demand} {rest : List Demand} {node : Node}
    (hnode : a.node? demand.id = some node) :
    a.plans s labels made (demand :: rest) =
      match Plan.ofNode s labels node demand with
      | .error error => .error error
      | .ok plan =>
        match plan.demands? node rest with
        | none => .error (.noDerivation demand.id node.op demand.goal)
        | some demands => a.plans s labels (made.set demand.id plan) demands := by
  rw [plans]
  split
  next h => simp [hnode] at h
  next node' h =>
    obtain rfl : node = node' := Option.some.inj (hnode.symm.trans h)
    cases Plan.ofNode s labels node demand with
    | error error => rfl
    | ok plan =>
        dsimp only
        split
        next h => rw [h]
        next demands h => rw [h]

/-! ## The first phase on a row -/

/-- Exactly the plans of the visits are recorded under the numbers of a row. -/
inductive Row.Recorded (plans : Labels Plan) : Nat → Row → Agenda → Prop
  | nil {start} : Recorded plans start .nil .nil
  | leaf {start leaf below next plan later} :
      plans.get? start = some plan → plan.pattern.operands.kind? = none →
      (∀ id, start + 1 ≤ id → id < start + 1 + below.size → plans.get? id = none) →
      Recorded plans (start + 1 + below.size) next later →
      Recorded plans start (.node leaf below next) (.node leaf plan .nil later)
  | node {start leaf below next plan inner later operand} :
      plans.get? start = some plan → plan.pattern.operands.kind? = some operand →
      Recorded plans (start + 1) below inner →
      Recorded plans (start + 1 + below.size) next later →
      Recorded plans start (.node leaf below next) (.node leaf plan inner later)

theorem Row.Recorded.congr {plans plans' : Labels Plan} {start : Nat} {row : Row}
    {agenda : Agenda} (h : row.Recorded plans start agenda)
    (hplans : ∀ id, start ≤ id → id < start + row.size → plans'.get? id = plans.get? id) :
    row.Recorded plans' start agenda := by
  induction h with
  | nil => exact .nil
  | leaf hown hkind hunvisited _ ih =>
      rw [Row.size] at hplans
      refine .leaf (by rw [hplans _ (by omega) (by omega), hown]) hkind (fun id hle hlt => ?_)
        (ih fun id hle hlt => hplans id (by omega) (by omega))
      rw [hplans id (by omega) (by omega), hunvisited id hle hlt]
  | node hown hkind _ _ ihBelow ihNext =>
      rw [Row.size] at hplans
      exact .node (by rw [hplans _ (by omega) (by omega), hown]) hkind
        (ihBelow fun id hle hlt => hplans id (by omega) (by omega))
        (ihNext fun id hle hlt => hplans id (by omega) (by omega))

/-- How the demands on a row are met: by the error of the visits, or by going on behind the row
with the plans of the visits recorded and nothing changed elsewhere. -/
def Row.Met (row : Row) (start : Nat) (made : Labels Plan)
    (behind : Labels Plan → Except ReductionError (Labels Plan))
    (result : Except ReductionError (Labels Plan)) : Except ReductionError Agenda → Prop
  | .error error => result = .error error
  | .ok agenda => ∃ made', result = behind made' ∧ row.Recorded made' start agenda ∧
      ∀ id, id < start ∨ start + row.size ≤ id → made'.get? id = made.get? id

namespace Arena

variable {a : Arena} (s : States) (labels : Labels StateId)

/-- A node is met before the rows behind the demands that are left, and the row behind it has
been met already. -/
theorem met_node {leaf : Leaf} {below next : Row} {start : Nat} {kind : Kind}
    {made made₁ : Labels Plan} {rest : List Demand} {later : Agenda}
    (hnode : a.node? start = some ⟨leaf, (below.slots (start + 1)).toArray⟩)
    (hfresh : ∀ id, start ≤ id → id < start + 1 + below.size → made₁.get? id = none)
    (hnext : next.Recorded made₁ (start + 1 + below.size) later)
    (hframe : ∀ id, id < start + 1 + below.size ∨
      start + 1 + below.size + next.size ≤ id → made₁.get? id = made.get? id)
    (hbelow : below.hasNull = false → ∀ (operand : Kind) (made : Labels Plan),
      (∀ id, start + 1 ≤ id → id < start + 1 + below.size → made.get? id = none) →
      ∃ demands, Demand.ofSlots? operand rest (below.slots (start + 1)) = some demands ∧
        below.Met (start + 1) made (a.plans s labels · rest) (a.plans s labels made demands)
          (below.agenda s labels (start + 1) operand)) :
    (Row.node leaf below next).Met start made (a.plans s labels · rest)
      (a.plans s labels made₁ (⟨start, kind⟩ :: rest)) (do
        let (plan, inner) ← leaf.visit s labels below (fun operand =>
          below.agenda s labels (start + 1) operand) start kind
        return .node leaf plan inner later) := by
  have hkeep (plan : Plan) {made₂ : Labels Plan} (hframe₂ : ∀ id, id < start + 1 ∨
      start + 1 + below.size ≤ id → made₂.get? id = (made₁.set start plan).get? id) :
      made₂.get? start = some plan ∧ next.Recorded made₂ (start + 1 + below.size) later ∧
        ∀ id, id < start ∨ start + (Row.node leaf below next).size ≤ id →
          made₂.get? id = made.get? id := by
    refine ⟨?_, hnext.congr fun id hle hlt => ?_, fun id hid => ?_⟩
    · rw [hframe₂ start (by omega), Labels.get?_set, if_pos rfl]
    · rw [hframe₂ id (by omega), Labels.get?_set, if_neg (by omega)]
    · rw [Row.size] at hid
      rw [hframe₂ id (by omega), Labels.get?_set, if_neg (by omega), hframe id (by omega)]
  rw [plans_of_node? hnode, Plan.ofNode, Leaf.visit]
  cases htable : s.tableOf? labels start with
  | none => exact rfl
  | some table =>
      dsimp only
      cases hchain : table.chain? kind with
      | none => exact rfl
      | some chain =>
          obtain ⟨conversions, pattern⟩ := chain
          dsimp only [Plan.demands?]
          cases hkind : pattern.operands.kind? with
          | none =>
              obtain ⟨hown, hlater, hrest⟩ := hkeep ⟨conversions, pattern⟩ fun _ _ => rfl
              refine ⟨_, rfl, .leaf hown hkind (fun id hle hlt => ?_) hlater, hrest⟩
              rw [Labels.get?_set, if_neg (by omega), hfresh id (by omega) hlt]
          | some operand =>
              dsimp only
              cases hnull : below.hasNull with
              | true =>
                  rw [Demand.ofSlots?_eq_none hnull]
                  exact rfl
              | false =>
                  obtain ⟨demands, hdemands, hmet⟩ := hbelow hnull operand
                    (made₁.set start ⟨conversions, pattern⟩) fun id hle hlt => by
                      rw [Labels.get?_set, if_neg (by omega), hfresh id (by omega) hlt]
                  rw [hdemands]
                  cases hinner : below.agenda s labels (start + 1) operand with
                  | error error =>
                      rw [hinner] at hmet
                      exact hmet
                  | ok inner =>
                      rw [hinner] at hmet
                      obtain ⟨made₂, hplans, hrecorded, hframe₂⟩ := hmet
                      obtain ⟨hown, hlater, hrest⟩ := hkeep _ hframe₂
                      exact ⟨made₂, hplans, .node hown hkind hrecorded hlater, hrest⟩

/-- Meeting the demands on a row without a null visits the row. -/
theorem met_row {row : Row} {start : Nat} (hholds : a.Holds start row)
    (hnull : row.hasNull = false) (kind : Kind) (made : Labels Plan) (rest : List Demand)
    (hfresh : ∀ id, start ≤ id → id < start + row.size → made.get? id = none) :
    ∃ demands, Demand.ofSlots? kind rest (row.slots start) = some demands ∧
      row.Met start made (a.plans s labels · rest) (a.plans s labels made demands)
        (row.agenda s labels start kind) := by
  induction row generalizing start kind made rest with
  | nil => exact ⟨rest, rfl, made, rfl, .nil, fun _ _ => rfl⟩
  | null next ih => cases hnull
  | node leaf below next ihBelow ihNext =>
      obtain ⟨hnode, hbelow, hnext⟩ := hholds
      rw [Row.size] at hfresh
      -- The demand on the node waits in front of `rest` while the row behind it is met.
      obtain ⟨demands, hdemands, hmet⟩ := ihNext hnext hnull kind made (⟨start, kind⟩ :: rest)
        fun id hle hlt => hfresh id (by omega) (by omega)
      refine ⟨demands, hdemands, ?_⟩
      rw [Row.agenda]
      cases hlater : next.agenda s labels (start + 1 + below.size) kind with
      | error error =>
          rw [hlater] at hmet
          exact hmet
      | ok later =>
          rw [hlater] at hmet
          obtain ⟨made₁, hplans, hrecorded, hframe⟩ := hmet
          rw [hplans]
          refine met_node s labels hnode (fun id hle hlt => ?_) hrecorded hframe
            fun hnull operand made hfresh => ihBelow hbelow hnull operand made rest hfresh
          rw [hframe id (by omega), hfresh id hle (by omega)]

end Arena

/-! ## The second phase on a row -/

theorem Plan.takeOperands_node (id : Nat) (slots : List Slot) (values : Labels Value) :
    takeOperands (.node id :: slots) values =
      match values.get? id with
      | some value =>
        (fun taken => (value :: taken.1, taken.2)) <$> takeOperands slots (values.erase id)
      | none => .error (.unlabeled id) := by
  rw [takeOperands, List.filterMap_cons, Slot.node?]
  simp only [List.mapM_cons]
  change (takeValue id values >>= fun taken => _) = _
  rw [takeValue]
  cases values.get? id with
  | none => rfl
  | some value =>
      change ((slots.filterMap Slot.node?).mapM takeValue (values.erase id) >>= fun taken => _) = _
      rw [takeOperands]
      cases (slots.filterMap Slot.node?).mapM takeValue (values.erase id) <;> rfl

/-- The nodes of a row have values that no parent has taken. -/
inductive Row.Valued (values : Labels Value) : Nat → Row → List Value → Prop
  | nil {start} : Valued values start .nil []
  | node {start leaf below next value later} :
      values.get? start = some value → Valued values (start + 1 + below.size) next later →
      Valued values start (.node leaf below next) (value :: later)

theorem Row.Valued.congr {values values' : Labels Value} {start : Nat} {row : Row}
    {results : List Value} (h : row.Valued values start results)
    (hvalues : ∀ id, start ≤ id → id < start + row.size → values'.get? id = values.get? id) :
    row.Valued values' start results := by
  induction h with
  | nil => exact .nil
  | node hvalue _ ih =>
      rw [Row.size] at hvalues
      exact .node (by rw [hvalues _ (by omega) (by omega), hvalue])
        (ih fun id hle hlt => hvalues id (by omega) (by omega))

/-- A parent finds all the values of the row below it: no two of the slots are the same, so none
of them has been taken before. -/
theorem Plan.takeOperands_slots {values : Labels Value} {row : Row} {start : Nat}
    {results : List Value} (h : row.Valued values start results) :
    ∃ rest, takeOperands (row.slots start) values = .ok (results, rest) ∧
      ∀ id, id < start ∨ start + row.size ≤ id → rest.get? id = values.get? id := by
  induction row generalizing start values results with
  | nil =>
      cases h
      exact ⟨values, rfl, fun _ _ => rfl⟩
  | null next _ => cases h
  | node leaf below next _ ih =>
      cases h with
      | @node _ _ _ _ value later hvalue hlater =>
          have herased {id : Nat} (hne : start ≠ id) :
              (values.erase start).get? id = values.get? id := by
            rw [Labels.get?_erase, if_neg hne]
          obtain ⟨rest, htaken, hframe⟩ := ih (hlater.congr fun id hle hlt => herased (by omega))
          refine ⟨rest, ?_, fun id hid => ?_⟩
          · rw [Row.slots, takeOperands_node, hvalue]
            simp only [htaken]
            rfl
          · rw [Row.size] at hid
            rw [hframe id (by omega), herased (by omega)]

theorem Plan.evaluate_of_leaf {plan : Plan} {node : Node}
    (hkind : plan.pattern.operands.kind? = none) (values : Labels Value) :
    plan.evaluate node values = (·, values) <$> plan.carryOut node.toLeaf [] := by
  rw [evaluate, hkind]
  simp only [ok_bind]
  cases plan.carryOut node.toLeaf [] <;> rfl

theorem Plan.evaluate_of_operands {plan : Plan} {node : Node} {operand : Kind}
    (hkind : plan.pattern.operands.kind? = some operand) {values rest : Labels Value}
    {operands : List Value} (htaken : takeOperands node.slots.toList values = .ok (operands, rest)) :
    plan.evaluate node values = (·, rest) <$> plan.carryOut node.toLeaf operands := by
  rw [evaluate, hkind]
  simp only [htaken, ok_bind]
  cases plan.carryOut node.toLeaf operands <;> rfl

/-- Two benches hold the same outside a range of numbers. -/
def Workbench.AgreeOutside (start stop : Nat) (bench bench' : Workbench) : Prop :=
  ∀ id, id < start ∨ stop ≤ id →
    bench.plans.get? id = bench'.plans.get? id ∧ bench.values.get? id = bench'.values.get? id

/-- How a row is evaluated: to the error of its values, or with its values on the bench and
nothing changed elsewhere. -/
def Row.Swept (row : Row) (start : Nat) (bench : Workbench)
    (result : Except ReductionError Workbench) : Except ReductionError (List Value) → Prop
  | .error error => result = .error error
  | .ok results => ∃ bench', result = .ok bench' ∧ row.Valued bench'.values start results ∧
      bench'.AgreeOutside start (start + row.size) bench

namespace Arena

variable {a : Arena}

theorem foldlM_evaluateNode_of_unplanned {ids : List Nat} (bench : Workbench)
    (h : ∀ id ∈ ids, bench.plans.get? id = none) :
    ids.foldlM a.evaluateNode bench = .ok bench := by
  induction ids with
  | nil => rfl
  | cons id ids ih =>
      have hskip : a.evaluateNode bench id = .ok bench := by
        rw [evaluateNode, h id (by simp)]
        split <;> simp_all
      exact foldlM_cons_eq_ok.2 ⟨bench, hskip, ih fun id hid => h id (by simp [hid])⟩

/-- A node is evaluated last, when the rows behind it and below it have been. -/
theorem sweep_node {leaf : Leaf} {below next : Row} {start : Nat} {plan : Plan}
    {bench bench₂ : Workbench} {rest : Labels Value} {operands later : List Value}
    (hnode : a.node? start = some ⟨leaf, (below.slots (start + 1)).toArray⟩)
    (hplan : bench₂.plans.get? start = some plan)
    (hevaluate : plan.evaluate ⟨leaf, (below.slots (start + 1)).toArray⟩ bench₂.values =
      (·, rest) <$> plan.carryOut leaf operands)
    (hrest : ∀ id, id < start + 1 ∨ start + 1 + below.size ≤ id →
      rest.get? id = bench₂.values.get? id)
    (hlater : next.Valued bench₂.values (start + 1 + below.size) later)
    (hframe : bench₂.AgreeOutside start (start + (Row.node leaf below next).size) bench) :
    (Row.node leaf below next).Swept start bench ([start].foldlM a.evaluateNode bench₂) (do
      let value ← plan.carryOut leaf operands
      return value :: later) := by
  have hstep : [start].foldlM a.evaluateNode bench₂ =
      plan.carryOut leaf operands >>= fun value =>
        .ok ⟨bench₂.plans.erase start, rest.set start value⟩ := by
    rw [List.foldlM_cons, evaluateNode, hnode, hplan]
    simp only [hevaluate]
    cases plan.carryOut leaf operands <;> rfl
  rw [hstep]
  cases plan.carryOut leaf operands with
  | error error => exact rfl
  | ok value =>
      refine ⟨_, rfl, .node (by rw [Labels.get?_set, if_pos rfl]) (hlater.congr ?_),
        fun id hid => ?_⟩
      · intro id hle hlt
        rw [Labels.get?_set, if_neg (by omega), hrest id (by omega)]
      · have hsame := hframe id hid
        rw [Row.size] at hid
        rw [Labels.get?_erase, if_neg (by omega), Labels.get?_set, if_neg (by omega),
          hrest id (by omega)]
        exact hsame

/-- Where the first of two sweeps ends with an error, so do both; else the second one goes on from
the values and the bench of the first. -/
theorem swept_append {row behind : Row} {start start' : Nat} {bench bench' : Workbench}
    {front back : List Nat} {values : Except ReductionError (List Value)}
    {g : List Value → Except ReductionError (List Value)}
    (hfront : behind.Swept start' bench' (front.foldlM a.evaluateNode bench') values)
    (hback : ∀ bench₁ results, behind.Valued bench₁.values start' results →
      bench₁.AgreeOutside start' (start' + behind.size) bench' →
      row.Swept start bench (back.foldlM a.evaluateNode bench₁) (g results)) :
    row.Swept start bench ((front ++ back).foldlM a.evaluateNode bench') (values >>= g) := by
  cases values with
  | error error => exact foldlM_append_of_error hfront _
  | ok results =>
      obtain ⟨bench₁, hfold, hresults, hframe⟩ := hfront
      rw [foldlM_append_of_ok hfold]
      exact hback bench₁ results hresults hframe

/-- Evaluating the nodes of a row, children first, carries out the plans that are recorded and
passes over the nodes that were not visited. -/
theorem sweep_row {row : Row} {start : Nat} {agenda : Agenda} (hholds : a.Holds start row)
    {bench : Workbench} (hrecorded : row.Recorded bench.plans start agenda) :
    row.Swept start bench ((row.numbers start).foldlM a.evaluateNode bench) agenda.values := by
  induction row generalizing start agenda bench with
  | nil =>
      cases hrecorded
      exact ⟨bench, rfl, .nil, fun _ _ => ⟨rfl, rfl⟩⟩
  | null next _ => cases hrecorded
  | node leaf below next ihBelow ihNext =>
      obtain ⟨hnode, hbelow, hnext⟩ := hholds
      rw [Row.numbers_node, List.append_assoc]
      cases hrecorded with
      | @leaf _ _ _ _ plan later hplan hkind hunvisited hrecordedNext =>
          refine swept_append (ihNext hnext hrecordedNext) fun bench₁ results hresults hframe₁ => ?_
          have hplans₁ {id : Nat} (hlt : id < start + 1 + below.size) :
              bench₁.plans.get? id = bench.plans.get? id := (hframe₁ id (.inl hlt)).1
          have hskip :
              (below.numbers (start + 1)).foldlM a.evaluateNode bench₁ = .ok bench₁ := by
            apply foldlM_evaluateNode_of_unplanned
            intro id hid
            have := Row.mem_numbers.1 hid
            rw [hplans₁ (by omega), hunvisited id this.1 this.2]
          rw [foldlM_append_of_ok hskip]
          refine sweep_node hnode (by rw [hplans₁ (by omega), hplan])
            (Plan.evaluate_of_leaf hkind _) (fun _ _ => rfl) hresults fun id hid => ?_
          rw [Row.size] at hid
          exact hframe₁ id (by omega)
      | @node _ _ _ _ plan inner later operand hplan hkind hrecordedBelow hrecordedNext =>
          refine swept_append (ihNext hnext hrecordedNext) fun bench₁ results hresults hframe₁ => ?_
          -- The plans below the node are still there.
          have hrecorded₁ : below.Recorded bench₁.plans (start + 1) inner :=
            hrecordedBelow.congr fun id hle hlt => (hframe₁ id (.inl (by omega))).1
          refine swept_append (ihBelow hbelow hrecorded₁) fun bench₂ operands hoperands hframe₂ => ?_
          obtain ⟨rest, htaken, hrest⟩ := Plan.takeOperands_slots hoperands
          refine sweep_node hnode ?_ (Plan.evaluate_of_operands hkind htaken) hrest ?_
            fun id hid => ?_
          · rw [(hframe₂ start (by omega)).1, (hframe₁ start (by omega)).1, hplan]
          · exact hresults.congr fun id hle hlt => (hframe₂ id (by omega)).2
          · rw [Row.size] at hid
            have hbelow := hframe₂ id (by omega)
            have hnext := hframe₁ id (by omega)
            exact ⟨hbelow.1.trans hnext.1, hbelow.2.trans hnext.2⟩

end Arena

/-! ## Both phases on a tree -/

namespace Tree

variable (s : States) (labels : Labels StateId) (goal : Kind) (leaf : Leaf) (below : Row)

theorem agenda_plant : (plant leaf below).agenda s labels goal =
    leaf.visit s labels below (fun operand => below.agenda s labels 1 operand) 0 goal := by
  rw [agenda, below_plant]
  rfl

theorem met_plant : (Row.node leaf below .nil).Met 0 .empty .ok
    ((plant leaf below).plans s labels goal) (do
      let (plan, inner) ← (plant leaf below).agenda s labels goal
      return .node leaf plan inner .nil) := by
  obtain ⟨demands, hdemands, hmet⟩ := Arena.met_row s labels
    (Arena.holds_plant leaf below) rfl goal .empty [] fun _ _ _ => Labels.get?_empty _
  simp only [Row.slots, Demand.ofSlots?, Option.some.injEq] at hdemands
  subst hdemands
  have hdone : ((plant leaf below).toArena.plans s labels · []) = Except.ok := by
    funext made
    rw [Arena.plans]
  rw [hdone] at hmet
  rw [agenda_plant]
  exact hmet

variable {leaf below} in
theorem evaluate_plant {plans : Labels Plan} {plan : Plan} {inner : Agenda}
    (hrecorded : (Row.node leaf below .nil).Recorded plans 0 (.node leaf plan inner .nil)) :
    (plant leaf below).evaluate plans = inner.values >>= plan.carryOut leaf := by
  let bench : Workbench := ⟨plans, .empty⟩
  have hswept : (Row.node leaf below .nil).Swept 0 bench _ _ :=
    Arena.sweep_row (Arena.holds_plant leaf below) hrecorded
  have hvalues : (Agenda.node leaf plan inner .nil).values =
      (fun value => [value]) <$> (inner.values >>= plan.carryOut leaf) := by
    simp only [Agenda.values, ok_bind, map_bind, bind_pure_comp]
  rw [hvalues] at hswept
  rw [evaluate, bottomUp_plant]
  cases hvalue : inner.values >>= plan.carryOut leaf with
  | error error =>
      rw [hvalue] at hswept
      change _ = Except.error error at hswept
      rw [hswept]
  | ok value =>
      rw [hvalue] at hswept
      obtain ⟨bench, hfold, hvalued, _⟩ := hswept
      have hroot : bench.values.get? 0 = some value := by
        cases hvalued with
        | node hroot _ => exact hroot
      rw [hfold]
      simp only [plant, hroot]

theorem reduce_plant_in_phases :
    (plant leaf below).reduce s labels goal = (plant leaf below).reduceInPhases s labels goal := by
  have hmet := met_plant s labels goal leaf below
  rw [reduce, reduceInPhases]
  cases hagenda : (plant leaf below).agenda s labels goal with
  | error error =>
      rw [hagenda] at hmet
      rw [hmet]
      rfl
  | ok agenda =>
      obtain ⟨plan, inner⟩ := agenda
      rw [hagenda] at hmet
      obtain ⟨plans, hplans, hrecorded, _⟩ := hmet
      rw [hplans]
      exact evaluate_plant hrecorded

end Tree

end TreeAssay
