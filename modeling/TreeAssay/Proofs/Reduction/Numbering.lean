import TreeAssay.Proofs.Reduction.Labelling
/-!
# The numbers of tables

A calculator keeps every table that it meets once, under the number of different tables that it
had met before.  Which tables it meets is up to the trees alone, since the table of a node
follows from what stands at the node and below it.  So the trees decide on the numbers, and
a number stands for its table for good.
-/

namespace TreeAssay

/-! ## The tables of a tree -/

namespace Arena

/-- The table of a node, as what stands at the node and below it decides it. -/
def costTable? (a : Arena) (id : Nat) : Option CostTable :=
  (a.node? id).map fun n => n.toLeaf.table (a.row n.slots.toList).tables

theorem costTable?_of_holds {a : Arena} {id : Nat} {leaf : Leaf} {below : Row}
    (hnode : a.node? id = some ⟨leaf, (below.slots (id + 1)).toArray⟩)
    (hbelow : a.Holds (id + 1) below) : a.costTable? id = some (leaf.table below.tables) := by
  rw [costTable?, hnode, Option.map_some, row_slots hbelow]

theorem filterMap_costTable? {a : Arena} {row : Row} {start : Nat} (h : a.Holds start row) :
    (row.numbers start).filterMap a.costTable? = row.allTables := by
  induction row generalizing start with
  | nil => rfl
  | null next ih => exact ih h
  | node leaf below next ihBelow ihNext =>
      obtain ⟨hnode, hbelow, hnext⟩ := h
      rw [Row.numbers_node, List.filterMap_append, List.filterMap_append, ihNext hnext,
        ihBelow hbelow, List.filterMap_cons, costTable?_of_holds hnode hbelow]
      rfl

end Arena

/-- The tables of the nodes, children before their parents. -/
def Tree.allTables (t : Tree) : List CostTable :=
  t.bottomUp.filterMap t.costTable?

theorem Tree.allTables_plant (leaf : Leaf) (below : Row) :
    (plant leaf below).allTables = (Row.node leaf below .nil).allTables := by
  rw [allTables, bottomUp_plant, Arena.filterMap_costTable? (Arena.holds_plant leaf below)]

namespace States

variable {s : States}

theorem Labelled.exists_costTable {leaf : Leaf} {below : Row} {labels : Labels StateId}
    (h : s.Labelled labels 0 (.node leaf below .nil)) {id : Nat}
    (hlt : id < (Tree.plant leaf below).size) :
    ∃ table, (Tree.plant leaf below).costTable? id = some table ∧
      s.tableOf? labels id = some table := by
  rw [Tree.size_plant] at hlt
  obtain ⟨leaf', below', hnode, hbelow, htable⟩ :=
    exists_table_of_holds (Arena.holds_plant leaf below) (Nat.zero_le id)
      (by rw [Row.size, Row.size]; omega)
  exact ⟨_, Arena.costTable?_of_holds hnode hbelow, htable s labels h⟩

/-- Labelling gives every node the number of its table, for good. -/
theorem Leads.exists_costTable {s' : States} (hs : empty.Leads s) {t : Tree} (ht : t.Built)
    (labels : Labels StateId) (hs' : (calculator.label s (some t) labels).1.Leads s') {id : Nat}
    (hlt : id < t.size) :
    ∃ table, t.costTable? id = some table ∧
      s'.tableOf? (calculator.label s (some t) labels).2 id = some table := by
  obtain ⟨leaf, below, rfl⟩ := ht.eq_plant
  exact (hs.labelled hs').exists_costTable hlt

/-! ## Numbers and tables -/

namespace Sound

theorem exists_number (h : s.Sound) {table : CostTable} :
    (∃ state, s.states[table]? = some state) ↔ table ∈ s.tables.toList := by
  rw [List.mem_iff_getElem?]
  simp only [h table _, table?, Array.getElem?_toList]
  constructor
  · rintro ⟨state, hstate⟩
    exact ⟨state.number, hstate⟩
  · rintro ⟨i, hi⟩
    exact ⟨⟨i⟩, hi⟩

theorem nodup (h : s.Sound) : s.tables.toList.Nodup := by
  rw [List.nodup_iff_pairwise_ne, List.pairwise_iff_getElem]
  intro i j hi hj hlt heq
  have hfirst : s.table? ⟨i⟩ = some s.tables.toList[i] := by simp [table?]
  have hsecond : s.table? ⟨j⟩ = some s.tables.toList[i] := by
    rw [heq]
    simp [table?]
  have hsame := ((h _ _).2 hfirst).symm.trans ((h _ _).2 hsecond)
  have hnumber : i = j := congrArg StateId.number (Option.some.inj hsame)
  omega

theorem eq_iff (h : s.Sound) {state state' : StateId} {table table' : CostTable}
    (hstate : s.table? state = some table) (hstate' : s.table? state' = some table') :
    state = state' ↔ table = table' := by
  constructor
  · rintro rfl
    exact Option.some.inj (hstate.symm.trans hstate')
  · rintro rfl
    exact Option.some.inj (((h _ _).2 hstate).symm.trans ((h _ _).2 hstate'))

end Sound

private theorem eraseDups_of_mem {known : List CostTable} {table : CostTable}
    (h : table ∈ known) (tables : List CostTable) :
    ((table :: tables).removeAll known).eraseDups = (tables.removeAll known).eraseDups := by
  simp [List.removeAll, h]

private theorem eraseDups_of_not_mem {known : List CostTable} {table : CostTable}
    (h : table ∉ known) (tables : List CostTable) :
    ((table :: tables).removeAll known).eraseDups =
      table :: (tables.removeAll (known ++ [table])).eraseDups := by
  have hfilter : (tables.removeAll known).filter (fun other => !other == table) =
      tables.removeAll (known ++ [table]) := by
    rw [List.removeAll, List.filter_filter, List.removeAll]
    apply List.filter_congr
    intro other _
    by_cases hother : other = table <;> simp [hother]
  rw [← hfilter, ← List.eraseDups_cons]
  simp [List.removeAll, h]

/-- A table that is met gets a number behind all others, unless it has one. -/
theorem toList_internAll (h : s.Sound) (tables : List CostTable) :
    (s.internAll tables).tables.toList =
      s.tables.toList ++ (tables.removeAll s.tables.toList).eraseDups := by
  induction tables generalizing s with
  | nil => exact (List.append_nil _).symm
  | cons table tables ih =>
      rw [internAll_cons]
      cases hstate : s.states[table]? with
      | some state =>
          have hmem := h.exists_number.1 ⟨state, hstate⟩
          rw [intern_of_some hstate, ih h, eraseDups_of_mem hmem]
      | none =>
          have hnot : table ∉ s.tables.toList := by
            rw [← h.exists_number, hstate]
            simp
          rw [intern_of_none hstate, ih (sound_push h hstate), eraseDups_of_not_mem hnot,
            Array.toList_push, List.append_assoc, List.singleton_append]

end States

/-! ## Calls to label -/

/-- A call to label a tree, or its absence, on top of some labels. -/
structure LabelCall where
  root : Option Tree
  labels : Labels StateId

namespace LabelCall

def Fit (call : LabelCall) : Prop :=
  ∀ t, call.root = some t → t.Built

/-- The tables that the call meets, in order. -/
def tables (call : LabelCall) : List CostTable :=
  match call.root with
  | none => []
  | some t => t.allTables

theorem fit_of_plant {call : LabelCall} {leaf : Leaf} {below : Row}
    (hroot : call.root = some (.plant leaf below)) : call.Fit := by
  intro t ht
  rw [hroot] at ht
  cases ht
  exact Tree.built_plant leaf below

end LabelCall

namespace States

variable {s : States} {calls : List LabelCall}

/-- The states that a calculator has after some calls. -/
def after (s : States) (calls : List LabelCall) : States :=
  calls.foldl (fun s call => (calculator.label s call.root call.labels).1) s

theorem after_append (s : States) (front back : List LabelCall) :
    s.after (front ++ back) = (s.after front).after back := List.foldl_append

theorem leads_after (s : States) (calls : List LabelCall) : s.Leads (s.after calls) := by
  induction calls generalizing s with
  | nil => exact .refl
  | cons call calls ih =>
      have hfirst : s.Leads (calculator.label s call.root call.labels).1 := .label _ _ .refl
      exact hfirst.trans (ih _)

theorem after_eq_internAll (hsound : s.Sound) (hfit : ∀ call ∈ calls, call.Fit) :
    s.after calls = s.internAll (calls.flatMap LabelCall.tables) := by
  induction calls generalizing s with
  | nil => rfl
  | cons call calls ih =>
      obtain ⟨hfirst, hrest⟩ := List.forall_mem_cons.1 hfit
      have hlabel : (calculator.label s call.root call.labels).1 = s.internAll call.tables := by
        obtain ⟨root, labels⟩ := call
        cases root with
        | none => rfl
        | some t =>
            obtain ⟨leaf, below, rfl⟩ := (hfirst t rfl).eq_plant
            exact (label_plant_fst hsound leaf below labels).trans
              (congrArg s.internAll (Tree.allTables_plant leaf below).symm)
      obtain ⟨hsound', _⟩ := internAll_spec hsound call.tables
      rw [List.flatMap_cons, internAll_append, ← ih hsound' hrest, ← hlabel]
      rfl

/-- Among the calls is one that labels the tree and gives the node the number. -/
def Gives (calls : List LabelCall) (t : Tree) (id : Nat) (state : StateId) : Prop :=
  ∃ front labels back, calls = front ++ ⟨some t, labels⟩ :: back ∧ id < t.size ∧
    (calculator.label (empty.after front) (some t) labels).2.get? id = some state

theorem Gives.exists_table {t : Tree} {id : Nat} {state : StateId}
    (hfit : ∀ call ∈ calls, call.Fit) (h : Gives calls t id state) :
    ∃ table, t.costTable? id = some table ∧ (empty.after calls).table? state = some table := by
  obtain ⟨front, labels, back, rfl, hlt, hstate⟩ := h
  have hfirst := hfit ⟨some t, labels⟩ (by simp)
  obtain ⟨table, hcost, htable⟩ :=
    (leads_after empty front).exists_costTable (hfirst t rfl) labels (leads_after _ back) hlt
  rw [tableOf?, hstate, Option.bind_some] at htable
  exact ⟨table, hcost, by rwa [after_append]⟩

theorem exists_gives (hfit : ∀ call ∈ calls, call.Fit) {call : LabelCall} (hmem : call ∈ calls)
    {t : Tree} (hroot : call.root = some t) {id : Nat} (hlt : id < t.size) :
    ∃ state, Gives calls t id state := by
  obtain ⟨root, labels⟩ := call
  obtain rfl : root = some t := hroot
  obtain ⟨front, back, rfl⟩ := List.append_of_mem hmem
  obtain ⟨_, _, htable⟩ :=
    (leads_after empty front).exists_costTable (hfit _ hmem t rfl) labels .refl hlt
  obtain ⟨state, hstate, _⟩ := Option.bind_eq_some_iff.1 htable
  exact ⟨state, front, labels, back, rfl, hlt, hstate⟩

/-- After any calls that label built trees, every table has one number and every number below the
count has one table; the tables have their numbers in the order in which they first appear, and
no later call changes the table of a number.  Every node of a labelled tree is given the
number of its table, so two nodes have the same number exactly when they have the same
table, whenever they are labelled. -/
theorem numbering_bijective (hfit : ∀ call ∈ calls, call.Fit) :
    let s := empty.after calls
    s.tables.toList.Nodup ∧
      (∀ table state, s.states[table]? = some state ↔ s.table? state = some table) ∧
      (∀ state : StateId, (∃ table : CostTable, s.states[table]? = some state) ↔
        state.number < s.count) ∧
      s.tables.toList = (calls.flatMap LabelCall.tables).eraseDups ∧
      (∀ later state table, s.table? state = some table →
        (empty.after (calls ++ later)).table? state = some table) ∧
      (∀ call ∈ calls, ∀ t, call.root = some t → ∀ id, id < t.size →
        ∃ state, Gives calls t id state) ∧
      (∀ t id state, Gives calls t id state →
        state.number < s.count ∧ s.table? state = t.costTable? id) ∧
      ∀ t id state t' id' state', Gives calls t id state → Gives calls t' id' state' →
        (state = state' ↔ t.costTable? id = t'.costTable? id') := by
  intro s
  obtain ⟨hsound, _⟩ := (leads_after empty calls).spec sound_empty
  have hnumber (state : StateId) :
      state.number < s.count ↔ ∃ table, s.table? state = some table := by
    simp [count, table?, ← Option.isSome_iff_exists]
  refine ⟨hsound.nodup, hsound, fun state => ?_, ?_, fun later state table htable => ?_,
    fun call hmem t hroot id hlt => exists_gives hfit hmem hroot hlt, fun t id state hgives => ?_,
    fun t id state t' id' state' hgives hgives' => ?_⟩
  · rw [hnumber]
    exact exists_congr fun table => hsound table state
  · have htables := toList_internAll sound_empty (calls.flatMap LabelCall.tables)
    rw [← after_eq_internAll sound_empty hfit] at htables
    exact htables.trans (congrArg List.eraseDups List.removeAll_nil)
  · rw [after_append]
    exact ((leads_after s later).spec hsound).2 state table htable
  · obtain ⟨table, hcost, htable⟩ := hgives.exists_table hfit
    exact ⟨(hnumber state).2 ⟨table, htable⟩, htable.trans hcost.symm⟩
  · obtain ⟨table, hcost, htable⟩ := hgives.exists_table hfit
    obtain ⟨table', hcost', htable'⟩ := hgives'.exists_table hfit
    rw [hsound.eq_iff htable htable', hcost, hcost', Option.some.injEq]

/-- A tree, no tree, and a tree that gets back the number that its only node has had below
another node, although the label that it comes with is that of its parent there. -/
theorem numbering_bijective_shared :
    let leaf : Leaf := ⟨.shortLiteral, some (.int 7)⟩
    let seven := Tree.plant leaf .nil
    let minus := Tree.plant ⟨.negate, none⟩ (.node leaf .nil .nil)
    let calls : List LabelCall :=
      [⟨some minus, .empty⟩, ⟨none, .empty⟩, ⟨some seven, Labels.empty.set 0 ⟨1⟩⟩]
    (∀ call ∈ calls, call.Fit) ∧
      (empty.after calls).tables.toList = [.grown .shortLiteral 1, .grown .negate 3] ∧
      ∃ state, Gives calls minus 1 state ∧ Gives calls seven 0 state := by
  intro leaf seven minus calls
  have hfit : ∀ call ∈ calls, call.Fit :=
    List.forall_mem_cons.2 ⟨LabelCall.fit_of_plant rfl, List.forall_mem_cons.2
      ⟨nofun, List.forall_mem_singleton.2 (LabelCall.fit_of_plant rfl)⟩⟩
  obtain ⟨_, _, _, horder, _, hgiven, _, hsame⟩ := numbering_bijective hfit
  obtain ⟨state, hstate⟩ := hgiven ⟨some minus, .empty⟩ (by simp [calls]) minus rfl 1 (by decide)
  obtain ⟨state', hstate'⟩ :=
    hgiven ⟨some seven, Labels.empty.set 0 ⟨1⟩⟩ (by simp [calls]) seven rfl 0 (by decide)
  have htables : minus.costTable? 1 = seven.costTable? 0 := by
    obtain ⟨_, ⟨hnode, hbelow, _⟩, _⟩ := Arena.holds_plant ⟨.negate, none⟩ (.node leaf .nil .nil)
    obtain ⟨hnode', hbelow', _⟩ := Arena.holds_plant leaf .nil
    rw [Arena.costTable?_of_holds hnode hbelow, Arena.costTable?_of_holds hnode' hbelow']
  obtain rfl : state = state' := (hsame minus 1 state seven 0 state' hstate hstate').2 htables
  refine ⟨hfit, ?_, state, hstate, hstate'⟩
  have htables : calls.flatMap LabelCall.tables =
      [.grown .shortLiteral 1, .grown .negate 3, .grown .shortLiteral 1] := by
    simp only [calls, List.flatMap_cons, List.flatMap_nil, LabelCall.tables, minus, seven,
      Tree.allTables_plant]
    decide
  rw [horder, htables]
  decide

end States

end TreeAssay
