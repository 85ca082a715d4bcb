import TreeAssay.Proofs.Reduction.Numbering
/-!
# Labels follow subtrees

A node is labelled on the strength of the labels of its children, which stand in the same table
as everything that was there before.  All the same its label depends on nothing but what
stands at the node and below it: the children are always labelled anew before their
parent, and a subtree that was met before has its numbers.
-/

namespace TreeAssay

namespace Arena

/-- The node and what stands below it, null slots included, without the numbers of nodes. -/
def subtree (a : Arena) (id : Nat) : Row :=
  a.row [.node id]

theorem subtree_of_holds {a : Arena} {id : Nat} {leaf : Leaf} {below : Row}
    (hnode : a.node? id = some ⟨leaf, (below.slots (id + 1)).toArray⟩)
    (hbelow : a.Holds (id + 1) below) : a.subtree id = .node leaf below .nil := by
  rw [subtree, row, hnode]
  simp only [row_slots hbelow, row]

theorem tables_subtree (a : Arena) (id : Nat) : (a.subtree id).tables = [a.costTable? id] := by
  rw [subtree, row, costTable?]
  cases a.node? id <;> simp [row, Row.tables]

theorem costTable?_congr {a b : Arena} {id id' : Nat} (h : a.subtree id = b.subtree id') :
    a.costTable? id = b.costTable? id' := by
  have htables := congrArg Row.tables h
  rw [tables_subtree, tables_subtree] at htables
  exact List.head_eq_of_cons_eq htables

end Arena

namespace States

variable {s s' : States}

/-! ## Tables that have their numbers -/

theorem Sound.get?_eq (h : s.Sound) {labels labels' : Labels StateId} {id id' : Nat}
    {table : CostTable} (htable : s.tableOf? labels id = some table)
    (htable' : s.tableOf? labels' id' = some table) : labels.get? id = labels'.get? id' := by
  obtain ⟨state, hstate, hnumbered⟩ := Option.bind_eq_some_iff.1 htable
  obtain ⟨state', hstate', hnumbered'⟩ := Option.bind_eq_some_iff.1 htable'
  rw [hstate, hstate', (h.eq_iff hnumbered hnumbered').2 rfl]

theorem internAll_of_known (h : s.Sound) {tables : List CostTable}
    (hknown : ∀ table ∈ tables, table ∈ s.tables.toList) : s.internAll tables = s := by
  induction tables with
  | nil => rfl
  | cons table tables ih =>
      obtain ⟨hfirst, hrest⟩ := List.forall_mem_cons.1 hknown
      obtain ⟨state, hstate⟩ := h.exists_number.2 hfirst
      rw [internAll_cons, intern_of_some hstate, ih hrest]

theorem Labelled.known (h : s.Sound) {labels : Labels StateId} {start : Nat} {row : Row}
    (hlabelled : s.Labelled labels start row) :
    ∀ table ∈ row.allTables, table ∈ s.tables.toList := by
  induction row generalizing start with
  | nil => exact List.forall_mem_nil _
  | null next ih => exact ih hlabelled
  | node leaf below next ihBelow ihNext =>
      obtain ⟨htable, hbelow, hnext⟩ := hlabelled
      obtain ⟨state, _, hnumbered⟩ := Option.bind_eq_some_iff.1 htable
      have hown := h.exists_number.1 ⟨state, (h _ state).2 hnumbered⟩
      rw [Row.allTables, List.forall_mem_append, List.forall_mem_append, List.forall_mem_singleton]
      exact ⟨⟨ihNext hnext, ihBelow hbelow⟩, hown⟩

/-! ## Labels of subtrees -/

section Labels

variable {t t' : Tree} {labels labels' : Labels StateId}

/-- Labelling leaves the labels of other numbers than those of the tree as they are. -/
theorem Leads.get?_label_of_le (hs : empty.Leads s) (ht : t.Built) (labels : Labels StateId)
    {id : Nat} (hle : t.size ≤ id) :
    (calculator.label s (some t) labels).2.get? id = labels.get? id := by
  obtain ⟨leaf, below, rfl⟩ := ht.eq_plant
  obtain ⟨hsound, _⟩ := hs.spec sound_empty
  obtain ⟨_, _, _, hframe⟩ := label_plant hsound leaf below labels
  rw [Tree.size_plant] at hle
  exact hframe id hle

theorem Leads.fst_label_congr (hs : empty.Leads s) (ht : t.Built)
    (labels labels' : Labels StateId) :
    (calculator.label s (some t) labels).1 = (calculator.label s (some t) labels').1 := by
  obtain ⟨leaf, below, rfl⟩ := ht.eq_plant
  obtain ⟨hsound, _⟩ := hs.spec sound_empty
  exact (label_plant_fst hsound leaf below labels).trans
    (label_plant_fst hsound leaf below labels').symm

theorem Leads.fst_label_again (hs : empty.Leads s) (ht : t.Built)
    (hs' : (calculator.label s (some t) labels).1.Leads s') (labels' : Labels StateId) :
    (calculator.label s' (some t) labels').1 = s' := by
  obtain ⟨leaf, below, rfl⟩ := ht.eq_plant
  have hknown := hs.labelled hs'
  obtain ⟨hsound', _⟩ := ((hs.label (some (.plant leaf below)) labels).trans hs').spec sound_empty
  exact (label_plant_fst hsound' leaf below labels').trans
    (internAll_of_known hsound' (hknown.known hsound'))

/-- Two calls in the life of a calculator, which may be the same one, give equal subtrees the same
number. -/
theorem Leads.get?_label_eq {later : States} (hs : empty.Leads s) (ht : t.Built)
    (hlater : (calculator.label s (some t) labels).1.Leads later) (hs' : empty.Leads s')
    (ht' : t'.Built) (hlater' : (calculator.label s' (some t') labels').1.Leads later)
    {id id' : Nat} (hlt : id < t.size) (hlt' : id' < t'.size)
    (hsubtree : t.subtree id = t'.subtree id') :
    (calculator.label s (some t) labels).2.get? id =
      (calculator.label s' (some t') labels').2.get? id' := by
  obtain ⟨hsound, _⟩ := ((hs.label (some t) labels).trans hlater).spec sound_empty
  obtain ⟨table, hcost, htable⟩ := hs.exists_costTable ht labels hlater hlt
  obtain ⟨table', hcost', htable'⟩ := hs'.exists_costTable ht' labels' hlater' hlt'
  rw [Arena.costTable?_congr hsubtree, hcost'] at hcost
  obtain rfl : table' = table := Option.some.inj hcost
  exact hsound.get?_eq htable htable'

/-- A tree that is labelled again gets the labels that it has got before. -/
theorem Leads.get?_label_again (hs : empty.Leads s) (ht : t.Built)
    (hs' : (calculator.label s (some t) labels).1.Leads s')
    (hframe : ∀ id, t.size ≤ id → labels'.get? id = labels.get? id) (id : Nat) :
    (calculator.label s' (some t) labels').2.get? id =
      (calculator.label s (some t) labels).2.get? id := by
  have hreached := (hs.label (some t) labels).trans hs'
  rcases Nat.lt_or_ge id t.size with hlt | hle
  · exact hreached.get?_label_eq ht .refl hs ht (hs'.label (some t) labels') hlt hlt rfl
  · rw [hreached.get?_label_of_le ht labels' hle, hs.get?_label_of_le ht labels hle, hframe id hle]

end Labels

/-- Labelling a built tree gives a number to every node of it and leaves the labels of all other
numbers as they are.  What it writes does not depend on the labels from before, among which may
be those of another tree.  Equal subtrees get the same number, in one tree or in two, and in one
call or in two with any others between them, so labelling a tree again changes nothing. -/
theorem label_by_subtree {t : Tree} (ht : t.Built) (hs : empty.Leads s)
    (labels : Labels StateId) :
    let written := calculator.label s (some t) labels
    (∀ id, id < t.size → (written.2.get? id).isSome) ∧
      (∀ id, t.size ≤ id → written.2.get? id = labels.get? id) ∧
      (∀ labels', let other := calculator.label s (some t) labels'
        other.1 = written.1 ∧ ∀ id, id < t.size → other.2.get? id = written.2.get? id) ∧
      (∀ id id', id < t.size → id' < t.size → t.subtree id = t.subtree id' →
        written.2.get? id = written.2.get? id') ∧
      (∀ s' t' labels', written.1.Leads s' → t'.Built →
        let other := calculator.label s' (some t') labels'
        ∀ id id', id < t.size → id' < t'.size → t.subtree id = t'.subtree id' →
          written.2.get? id = other.2.get? id') ∧
      ∀ s', written.1.Leads s' →
        let again := calculator.label s' (some t) written.2
        again.1 = s' ∧ ∀ id, again.2.get? id = written.2.get? id := by
  intro written
  have hreached : empty.Leads written.1 := hs.label (some t) labels
  refine ⟨fun id hlt => ?_, fun id hle => hs.get?_label_of_le ht labels hle, fun labels' => ?_,
    fun id id' => hs.get?_label_eq ht .refl hs ht .refl, fun s' t' labels' hs' ht' id id' => ?_,
    fun s' hs' => ?_⟩
  · obtain ⟨table, _, htable⟩ := hs.exists_costTable ht labels .refl hlt
    obtain ⟨state, hstate, _⟩ := Option.bind_eq_some_iff.1 htable
    rw [hstate]
    rfl
  · have hstates := hs.fst_label_congr ht labels' labels
    refine ⟨hstates, fun id hlt => ?_⟩
    exact hs.get?_label_eq ht (hstates ▸ .refl) hs ht .refl hlt hlt rfl
  · exact hs.get?_label_eq ht (hs'.label (some t') labels') (hreached.trans hs') ht' .refl
  · refine ⟨hs.fst_label_again ht hs' written.2, hs.get?_label_again ht hs' fun id hle => ?_⟩
    exact hs.get?_label_of_le ht labels hle

/-- Two equal leaves in a tree, and a third one in another tree that is labelled on top of what the
first tree has got. -/
theorem label_by_subtree_leaves :
    let leaf : Leaf := ⟨.shortLiteral, some (.int 7)⟩
    let pair := Tree.plant ⟨.concat, none⟩ (.node leaf .nil (.node leaf .nil .nil))
    let minus := Tree.plant ⟨.negate, none⟩ (.node leaf .nil .nil)
    let stale : Labels StateId := (Labels.empty.set 1 ⟨4⟩).set 3 ⟨5⟩
    let written := calculator.label .empty (some pair) stale
    let other := calculator.label written.1 (some minus) written.2
    pair.Built ∧ empty.Leads .empty ∧ written.2.get? 1 = written.2.get? 2 ∧
      written.2.get? 3 = some ⟨5⟩ ∧ written.2.get? 2 = other.2.get? 1 ∧
      (calculator.label other.1 (some pair) written.2).1 = other.1 := by
  intro leaf pair minus stale written other
  have hpair : pair.Built := Tree.built_plant _ _
  obtain ⟨_, ⟨hfirst, _, hsecond, _⟩, _⟩ :=
    Arena.holds_plant ⟨.concat, none⟩ (.node leaf .nil (.node leaf .nil .nil))
  obtain ⟨_, ⟨hthird, _⟩, _⟩ := Arena.holds_plant ⟨.negate, none⟩ (.node leaf .nil .nil)
  have hone : pair.subtree 1 = .node leaf .nil .nil := Arena.subtree_of_holds hfirst trivial
  have htwo : pair.subtree 2 = .node leaf .nil .nil := Arena.subtree_of_holds hsecond trivial
  have hthree : minus.subtree 1 = .node leaf .nil .nil := Arena.subtree_of_holds hthird trivial
  obtain ⟨_, hframe, _, hsame, hacross, hagain⟩ := label_by_subtree hpair .refl stale
  have hlater : written.1.Leads other.1 := .label (some minus) written.2 .refl
  refine ⟨hpair, .refl, hsame 1 2 (by decide) (by decide) (hone.trans htwo.symm), ?_, ?_,
    (hagain other.1 hlater).1⟩
  · rw [hframe 3 (by decide), Labels.get?_set, if_pos rfl]
  · exact hacross written.1 minus written.2 .refl (Tree.built_plant _ _) 2 1 (by decide)
      (by decide) (htwo.trans hthree.symm)

end States

end TreeAssay
