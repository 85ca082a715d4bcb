import TreeAssay.Proofs.Reduction.NodeTable
import TreeAssay.Reduction.Calculator
/-!
# What labelling writes

Labelling gives every node of a row the state of its table, whatever the states and
the labels were before.  States only ever gain tables, so what was written for
one node stays true while the others are labelled.
-/

namespace TreeAssay

namespace Row

/-- The numbers of the nodes of a row, children before their parents. -/
def numbers (row : Row) (start : Nat) : List Nat :=
  (List.range' start row.size).reverse

theorem mem_numbers {row : Row} {start id : Nat} :
    id ∈ row.numbers start ↔ start ≤ id ∧ id < start + row.size := by
  rw [numbers, List.mem_reverse, List.mem_range'_1]

theorem numbers_node (leaf : Leaf) (below next : Row) (start : Nat) :
    (Row.node leaf below next).numbers start =
      next.numbers (start + 1 + below.size) ++ below.numbers (start + 1) ++ [start] := by
  simp only [numbers, size]
  rw [Nat.add_assoc, Nat.add_comm 1, List.range'_succ, ← List.range'_append_1,
    List.reverse_cons, List.reverse_append]

/-- The tables of the nodes of a row, children before their parents. -/
def allTables : Row → List CostTable
  | .nil => []
  | .null next => next.allTables
  | .node leaf below next => next.allTables ++ below.allTables ++ [leaf.table below.tables]

end Row

theorem Tree.bottomUp_plant (leaf : Leaf) (below : Row) :
    (Tree.plant leaf below).bottomUp = (Row.node leaf below .nil).numbers 0 := by
  rw [bottomUp, size_plant, Row.numbers, Row.size, Row.size, Nat.add_zero, List.range_eq_range']

namespace States

/-! ## Interning -/

/-- The number of a table and the table of a number belong together. -/
def Sound (s : States) : Prop :=
  ∀ table state, s.states[table]? = some state ↔ s.table? state = some table

def Extends (s s' : States) : Prop :=
  ∀ state table, s.table? state = some table → s'.table? state = some table

theorem Extends.refl (s : States) : s.Extends s := fun _ _ h => h

theorem Extends.trans {s₁ s₂ s₃ : States} (h₁₂ : s₁.Extends s₂) (h₂₃ : s₂.Extends s₃) :
    s₁.Extends s₃ := fun state table h => h₂₃ state table (h₁₂ state table h)

theorem sound_empty : empty.Sound := by
  intro table state
  simp [empty, table?]

theorem intern_of_some {s : States} {table : CostTable} {state : StateId}
    (h : s.states[table]? = some state) : s.intern table = (s, state) := by
  simp only [intern, h]

theorem intern_of_none {s : States} {table : CostTable} (h : s.states[table]? = none) :
    s.intern table =
      (⟨s.tables.push table, s.states.insert table ⟨s.tables.size⟩⟩, ⟨s.tables.size⟩) := by
  simp only [intern, h]

theorem extends_push (s : States) (table : CostTable)
    (states : Std.HashMap CostTable StateId) : s.Extends ⟨s.tables.push table, states⟩ := by
  intro state known h
  have hlt : state.number < s.tables.size := (Array.getElem?_eq_some_iff.1 h).1
  simp only [table?] at h ⊢
  rw [Array.getElem?_push_lt hlt, ← h, Array.getElem?_eq_getElem hlt]

theorem sound_push {s : States} (h : s.Sound) {table : CostTable}
    (hnone : s.states[table]? = none) :
    Sound ⟨s.tables.push table, s.states.insert table ⟨s.tables.size⟩⟩ := by
  intro other state
  simp only [table?, Std.HashMap.getElem?_insert, Array.getElem?_push, beq_iff_eq]
  by_cases heq : table = other
  · subst heq
    have hunknown : s.tables[state.number]? ≠ some table := by
      intro hsome
      have := (h table state).2 hsome
      rw [hnone] at this
      cases this
    by_cases hsize : state.number = s.tables.size
    · have heq : (⟨s.tables.size⟩ : StateId) = state := by rw [← hsize]
      simp [hsize, heq]
    · have hne : (⟨s.tables.size⟩ : StateId) ≠ state := by
        rintro rfl
        exact hsize rfl
      simpa [hsize, hne] using hunknown
  · by_cases hsize : state.number = s.tables.size
    · have hnot : s.states[other]? ≠ some state := by
        intro hsome
        have hlt := (Array.getElem?_eq_some_iff.1 ((h other state).1 hsome)).1
        omega
      simpa [hsize, heq] using hnot
    · simpa [hsize, heq, table?] using h other state

/-- Interning keeps every number and gives the table its own. -/
theorem intern_spec {s : States} (h : s.Sound) (table : CostTable) :
    (s.intern table).1.Sound ∧ s.Extends (s.intern table).1 ∧
      (s.intern table).1.table? (s.intern table).2 = some table := by
  cases hstate : s.states[table]? with
  | some state =>
      rw [intern_of_some hstate]
      exact ⟨h, Extends.refl s, (h table state).1 hstate⟩
  | none =>
      rw [intern_of_none hstate]
      exact ⟨sound_push h hstate, extends_push s table _, by simp [table?]⟩

theorem table?_intern {s : States} {known table : CostTable} {state : StateId}
    (h : (s.intern known).1.table? state = some table) :
    s.table? state = some table ∨ table = known := by
  cases hstate : s.states[known]? with
  | some _ =>
      rw [intern_of_some hstate] at h
      exact .inl h
  | none =>
      rw [intern_of_none hstate, table?, Array.getElem?_push] at h
      split at h
      · exact .inr (Option.some.inj h).symm
      · exact .inl h

def internAll (s : States) (tables : List CostTable) : States :=
  tables.foldl (fun s table => (s.intern table).1) s

theorem internAll_cons (s : States) (table : CostTable) (tables : List CostTable) :
    s.internAll (table :: tables) = (s.intern table).1.internAll tables := rfl

theorem internAll_append (s : States) (front back : List CostTable) :
    s.internAll (front ++ back) = (s.internAll front).internAll back := List.foldl_append

theorem internAll_spec {s : States} (h : s.Sound) (tables : List CostTable) :
    (s.internAll tables).Sound ∧ s.Extends (s.internAll tables) := by
  induction tables generalizing s with
  | nil => exact ⟨h, Extends.refl s⟩
  | cons table tables ih =>
      obtain ⟨hsound, hext, _⟩ := intern_spec h table
      obtain ⟨hsound', hext'⟩ := ih hsound
      exact ⟨hsound', hext.trans hext'⟩

theorem table?_internAll {s : States} {tables : List CostTable} {state : StateId}
    {table : CostTable} (h : (s.internAll tables).table? state = some table) :
    s.table? state = some table ∨ table ∈ tables := by
  induction tables generalizing s with
  | nil => exact .inl h
  | cons first tables ih =>
      rcases ih h with hfirst | hmem
      · rcases table?_intern hfirst with hold | rfl
        · exact .inl hold
        · exact .inr List.mem_cons_self
      · exact .inr (List.mem_cons_of_mem _ hmem)

/-- What labelling does to the states: it interns tables of nodes. -/
theorem exists_internAll (a : Arena) (ids : List Nat) (s : States) (labels : Labels StateId) :
    ∃ tables, (ids.foldl (labelNode a) (s, labels)).1 = s.internAll tables ∧
      ∀ table ∈ tables, ∃ (leaf : Leaf) (children : List (Option CostTable)),
        table = leaf.table children := by
  induction ids generalizing s labels with
  | nil => exact ⟨[], rfl, List.forall_mem_nil _⟩
  | cons id ids ih =>
      rw [List.foldl_cons, labelNode]
      cases a.node? id with
      | none => exact ih s labels
      | some node =>
          obtain ⟨tables, hfold, htables⟩ := ih _ _
          exact ⟨s.tableAt labels node :: tables, hfold,
            List.forall_mem_cons.2 ⟨⟨_, _, tableAt_eq s labels node⟩, htables⟩⟩

/-- A calculator gets from some states to others by labelling any trees, absent ones
included, on top of any labels. -/
inductive Leads (s : States) : States → Prop
  | refl : Leads s s
  | label {s'} (tree : Option Tree) (labels : Labels StateId) :
      Leads s s' → Leads s (calculator.label s' tree labels).1

theorem Leads.trans {s s' s'' : States} (h : s.Leads s') (h' : s'.Leads s'') : s.Leads s'' := by
  induction h' with
  | refl => exact h
  | label tree labels _ ih => exact ih.label tree labels

theorem Leads.exists_internAll {s s' : States} (h : s.Leads s') :
    ∃ tables, s' = s.internAll tables ∧
      ∀ table ∈ tables, ∃ (leaf : Leaf) (children : List (Option CostTable)),
        table = leaf.table children := by
  induction h with
  | refl => exact ⟨[], rfl, List.forall_mem_nil _⟩
  | @label s' tree labels _ ih =>
      cases tree with
      | none => exact ih
      | some tree =>
          obtain ⟨front, rfl, hfront⟩ := ih
          obtain ⟨back, hback, htables⟩ :=
            States.exists_internAll tree.toArena tree.bottomUp (s.internAll front) labels
          exact ⟨front ++ back, hback.trans (s.internAll_append front back).symm,
            List.forall_mem_append.2 ⟨hfront, htables⟩⟩

theorem Leads.spec {s s' : States} (h : s.Leads s') (hsound : s.Sound) :
    s'.Sound ∧ s.Extends s' := by
  obtain ⟨tables, rfl, _⟩ := h.exists_internAll
  exact internAll_spec hsound tables

/-- Every table that a calculator gets to is the table of some node. -/
theorem Leads.exists_leaf {s : States} (hs : empty.Leads s) {state : StateId} {table : CostTable}
    (h : s.table? state = some table) :
    ∃ (leaf : Leaf) (children : List (Option CostTable)), table = leaf.table children := by
  obtain ⟨tables, rfl, htables⟩ := hs.exists_internAll
  rcases table?_internAll h with hempty | hmem
  · simp [empty, table?] at hempty
  · exact htables table hmem

theorem Leads.complete {s : States} (hs : empty.Leads s) {labels : Labels StateId} {id : Nat}
    {table : CostTable} (h : s.tableOf? labels id = some table) : table.Complete := by
  obtain ⟨state, _, htable⟩ := Option.bind_eq_some_iff.1 h
  obtain ⟨leaf, children, rfl⟩ := hs.exists_leaf htable
  exact leaf.complete_table children

/-! ## Labelled rows -/

def Labelled (s : States) (labels : Labels StateId) (start : Nat) : Row → Prop
  | .nil => True
  | .null next => s.Labelled labels start next
  | .node leaf below next =>
    s.tableOf? labels start = some (leaf.table below.tables) ∧
      s.Labelled labels (start + 1) below ∧ s.Labelled labels (start + 1 + below.size) next

theorem tableOf?_mono {s s' : States} {labels labels' : Labels StateId} {id : Nat}
    {table : CostTable} (h : s.tableOf? labels id = some table) (hext : s.Extends s')
    (hlabel : labels'.get? id = labels.get? id) : s'.tableOf? labels' id = some table := by
  rw [tableOf?] at h ⊢
  obtain ⟨state, hstate, htable⟩ := Option.bind_eq_some_iff.1 h
  rw [hlabel, hstate]
  exact hext state table htable

theorem Labelled.mono {s s' : States} {labels labels' : Labels StateId} {start : Nat}
    {row : Row} (h : s.Labelled labels start row) (hext : s.Extends s')
    (hlabels : ∀ id, start ≤ id → id < start + row.size → labels'.get? id = labels.get? id) :
    s'.Labelled labels' start row := by
  induction row generalizing start with
  | nil => trivial
  | null next ih => exact ih h hlabels
  | node leaf below next ihBelow ihNext =>
      obtain ⟨hnode, hbelow, hnext⟩ := h
      rw [Row.size] at hlabels
      exact ⟨tableOf?_mono hnode hext (hlabels start (by omega) (by omega)),
        ihBelow hbelow fun id hle hlt => hlabels id (by omega) (by omega),
        ihNext hnext fun id hle hlt => hlabels id (by omega) (by omega)⟩

theorem map_slotTable? {s : States} {labels : Labels StateId} {start : Nat} {row : Row}
    (h : s.Labelled labels start row) :
    (row.slots start).map (s.slotTable? labels) = row.tables := by
  induction row generalizing start with
  | nil => rfl
  | null next ih =>
      rw [Row.slots, List.map_cons, ih h]
      rfl
  | node leaf below next _ ih =>
      obtain ⟨hnode, _, hnext⟩ := h
      rw [Row.slots, List.map_cons, ih hnext, slotTable?, hnode]
      rfl

theorem tableAt_of_labelled {s : States} {labels : Labels StateId} {start : Nat} {below : Row}
    (h : s.Labelled labels start below) (leaf : Leaf) :
    s.tableAt labels ⟨leaf, (below.slots start).toArray⟩ = leaf.table below.tables := by
  rw [tableAt_eq]
  simp only [map_slotTable? h]

/-- Labelling a row interns the tables of its nodes, whatever labels there were before. -/
theorem label_row {a : Arena} {row : Row} {start : Nat} (hholds : a.Holds start row)
    {s : States} (hsound : s.Sound) (labels : Labels StateId) :
    ∃ labels', (row.numbers start).foldl (labelNode a) (s, labels) =
        (s.internAll row.allTables, labels') ∧
      (s.internAll row.allTables).Labelled labels' start row ∧
      ∀ id, id < start ∨ start + row.size ≤ id → labels'.get? id = labels.get? id := by
  induction row generalizing start s labels with
  | nil => exact ⟨labels, rfl, trivial, fun _ _ => rfl⟩
  | null next ih => exact ih hholds hsound labels
  | node leaf below next ihBelow ihNext =>
      obtain ⟨hnode, hbelow, hnext⟩ := hholds
      -- What is numbered last is labelled first: the row behind, the row below, the node.
      obtain ⟨hsound₁, _⟩ := internAll_spec hsound next.allTables
      obtain ⟨hsound₂, hext₂⟩ := internAll_spec hsound₁ below.allTables
      obtain ⟨labels₁, hfold₁, hlabelled₁, hframe₁⟩ := ihNext hnext hsound labels
      obtain ⟨labels₂, hfold₂, hlabelled₂, hframe₂⟩ := ihBelow hbelow hsound₁ labels₁
      have htable := tableAt_of_labelled hlabelled₂ leaf
      obtain ⟨_, hext₃, hown⟩ := intern_spec hsound₂ (leaf.table below.tables)
      rw [Row.allTables, internAll_append, internAll_append]
      refine ⟨labels₂.set start (((s.internAll next.allTables).internAll below.allTables).intern
        (leaf.table below.tables)).2, ?_, ⟨?_, ?_, ?_⟩, ?_⟩
      · rw [Row.numbers_node, List.foldl_append, List.foldl_append, hfold₁, hfold₂]
        simp only [List.foldl_cons, List.foldl_nil, labelNode, hnode, htable]
        rfl
      · rw [tableOf?, Labels.get?_set, if_pos rfl]
        exact hown
      · refine hlabelled₂.mono hext₃ fun id hle hlt => ?_
        rw [Labels.get?_set, if_neg (by omega)]
      · refine hlabelled₁.mono (hext₂.trans hext₃) fun id hle hlt => ?_
        rw [Labels.get?_set, if_neg (by omega), hframe₂ id (by omega)]
      · intro id hid
        rw [Row.size] at hid
        rw [Labels.get?_set, if_neg (by omega), hframe₂ id (by omega), hframe₁ id (by omega)]

theorem label_plant_fst {s : States} (hsound : s.Sound) (leaf : Leaf) (below : Row)
    (labels : Labels StateId) :
    (s.label (.plant leaf below) labels).1 = s.internAll (Row.node leaf below .nil).allTables := by
  obtain ⟨_, hfold, _⟩ := label_row (Arena.holds_plant leaf below) hsound labels
  rw [label, Tree.bottomUp_plant, hfold]

/-- After a tree is labelled, every node of it has the label of its table. -/
theorem label_plant {s : States} (hsound : s.Sound) (leaf : Leaf) (below : Row)
    (labels : Labels StateId) :
    let result := s.label (.plant leaf below) labels
    result.1.Sound ∧ s.Extends result.1 ∧
      result.1.Labelled result.2 0 (.node leaf below .nil) ∧
      ∀ id, 1 + below.size ≤ id → result.2.get? id = labels.get? id := by
  obtain ⟨labels', hfold, hlabelled, hframe⟩ :=
    label_row (Arena.holds_plant leaf below) hsound labels
  have hlabel : s.label (.plant leaf below) labels =
      (s.internAll (Row.node leaf below .nil).allTables, labels') := by
    rw [label, Tree.bottomUp_plant, ← hfold]
  obtain ⟨hsound', hext⟩ := internAll_spec hsound (Row.node leaf below .nil).allTables
  rw [hlabel]
  refine ⟨hsound', hext, hlabelled, fun id hid => hframe id (Or.inr ?_)⟩
  rw [Row.size, Row.size]
  omega

/-- The labels that a calculator writes on a tree hold in every state that it gets to
later. -/
theorem Leads.labelled {s s' : States} {leaf : Leaf} {below : Row} {labels : Labels StateId}
    (hs : empty.Leads s)
    (hs' : (calculator.label s (some (.plant leaf below)) labels).1.Leads s') :
    s'.Labelled (calculator.label s (some (.plant leaf below)) labels).2 0
      (.node leaf below .nil) := by
  obtain ⟨hsound, _⟩ := hs.spec sound_empty
  obtain ⟨hsound', _, hlabelled, _⟩ := label_plant hsound leaf below labels
  obtain ⟨_, hext⟩ := hs'.spec hsound'
  exact hlabelled.mono hext fun _ _ _ => rfl

/-- A number in a row is that of a node with a row below it, and a labelled row has the
table of that node under the number. -/
theorem exists_table_of_holds {a : Arena} {row : Row} {start : Nat} (hholds : a.Holds start row)
    {id : Nat} (hle : start ≤ id) (hlt : id < start + row.size) :
    ∃ leaf below, a.node? id = some ⟨leaf, (below.slots (id + 1)).toArray⟩ ∧
      a.Holds (id + 1) below ∧ ∀ (s : States) (labels : Labels StateId),
        s.Labelled labels start row → s.tableOf? labels id = some (leaf.table below.tables) := by
  induction row generalizing start with
  | nil =>
      rw [Row.size] at hlt
      omega
  | null next ih => exact ih hholds hle hlt
  | node leaf below next ihBelow ihNext =>
      obtain ⟨hnode, hbelow, hnext⟩ := hholds
      rw [Row.size] at hlt
      by_cases hfirst : id = start
      · subst hfirst
        exact ⟨leaf, below, hnode, hbelow, fun s labels h => h.1⟩
      · by_cases hinside : id < start + 1 + below.size
        · obtain ⟨leaf', below', hnode', hholds', htable⟩ := ihBelow hbelow (by omega) hinside
          exact ⟨leaf', below', hnode', hholds', fun s labels h => htable s labels h.2.1⟩
        · obtain ⟨leaf', below', hnode', hholds', htable⟩ := ihNext hnext (by omega) (by omega)
          exact ⟨leaf', below', hnode', hholds', fun s labels h => htable s labels h.2.2⟩

end States

end TreeAssay
