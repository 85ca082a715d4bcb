import TreeAssay.Proofs.Trees.Construction
/-!
# The visits of a row

A walk through a laid-out row meets its nodes and nulls in reading order, and what it
meets are the starts and ends that spell the row.
-/

namespace TreeAssay

namespace Row

/-- What a walk meets in a row whose nodes are numbered from `start`. -/
def visits (start : Nat) : Row → List Visit
  | nil => []
  | null next => .null :: next.visits start
  | node leaf nil next => .leaf start ⟨leaf, #[]⟩ :: next.visits (start + 1)
  | node leaf below next =>
    .enter start ⟨leaf, (below.slots (start + 1)).toArray⟩ :: below.visits (start + 1) ++
      .leave ⟨leaf, (below.slots (start + 1)).toArray⟩ ::
      next.visits (start + 1 + below.size)

theorem visits_node_of_ne {below : Row} (hne : below ≠ nil) (start : Nat) (leaf : Leaf)
    (next : Row) :
    (node leaf below next).visits start =
      .enter start ⟨leaf, (below.slots (start + 1)).toArray⟩ :: below.visits (start + 1) ++
        .leave ⟨leaf, (below.slots (start + 1)).toArray⟩ ::
        next.visits (start + 1 + below.size) := by
  rw [visits]
  exact hne

theorem slots_eq_nil {start : Nat} {row : Row} : row.slots start = [] ↔ row = nil := by
  cases row <;> simp [slots]

end Row

def Visit.step : Visit → BuildStep
  | .leaf _ node => .start (.node node.toLeaf) true
  | .enter _ node => .start (.node node.toLeaf) false
  | .null => .start .null true
  | .leave _ => .close

theorem Row.spelled_visits (row : Row) (start : Nat) :
    row.Spelled ((row.visits start).map Visit.step) := by
  induction row generalizing start with
  | nil => exact .nil
  | null next ih => exact .null (ih start)
  | node leaf below next ihBelow ihNext =>
      by_cases hbelow : below = nil
      · subst hbelow
        exact .leaf (ihNext (start + 1))
      · rw [visits_node_of_ne hbelow, List.map_append, List.map_cons, List.map_cons]
        exact .node (ihBelow (start + 1)) (ihNext (start + 1 + below.size))

theorem Arena.walk_row {a : Arena} {row : Row} {start : Nat} (hholds : a.Holds start row)
    (visits : Array Visit) (rest : List Errand) :
    a.walk visits ((row.slots start).map errand ++ rest) =
      a.walk (visits ++ (row.visits start).toArray) rest := by
  induction row generalizing start visits rest with
  | nil => rw [Row.slots, Row.visits, List.map_nil, List.nil_append, Array.append_empty]
  | null next ih =>
      rw [Row.slots, Row.visits, List.map_cons, List.cons_append, errand, walk, ih hholds]
      congr 1
      rw [← Array.toList_inj]
      simp
  | node leaf below next ihBelow ihNext =>
      obtain ⟨hnode, hbelow, hnext⟩ := hholds
      rw [Row.slots, List.map_cons, List.cons_append, errand, walk]
      split
      next hnone => simp [hnode] at hnone
      next node hsome =>
        have hsame : node = ⟨leaf, (below.slots (start + 1)).toArray⟩ :=
          Option.some.inj (hsome.symm.trans hnode)
        subst hsame
        by_cases hnil : below = .nil
        · subst hnil
          rw [if_pos (by rfl), ihNext hnext]
          congr 1
          rw [← Array.toList_inj]
          simp [Row.slots, Row.visits, Row.size]
        · have hslots : below.slots (start + 1) ≠ [] := mt Row.slots_eq_nil.1 hnil
          rw [if_neg (by simpa using hslots), ihBelow hbelow, walk, ihNext hnext,
            Row.visits_node_of_ne hnil]
          congr 1
          rw [← Array.toList_inj]
          simp

theorem Tree.visits_plant (leaf : Leaf) (below : Row) :
    (plant leaf below).visits.toList = (Row.node leaf below .nil).visits 0 := by
  have h := Arena.walk_row (Arena.holds_plant leaf below) #[] []
  rw [Row.slots, Row.slots, List.map_cons, List.map_nil, List.append_nil, Array.empty_append,
    Arena.errand] at h
  rw [visits]
  simp only [plant] at h ⊢
  rw [h, Arena.walk]

def Visit.begun? : Visit → Option (Nat × Node)
  | .leaf id node | .enter id node => some (id, node)
  | .null | .leave _ => none

theorem Row.begun_of_mem_visits {row : Row} {start : Nat} {v : Visit}
    (hv : v ∈ row.visits start) {id : Nat} {n : Node} (hbegun : v.begun? = some (id, n)) :
    id < start + row.size ∧ n.toLeaf ∈ row.leaves := by
  induction row generalizing start with
  | nil => simp [visits] at hv
  | null next ih =>
      rw [visits, List.mem_cons] at hv
      rcases hv with rfl | hv
      · cases hbegun
      · exact ih hv
  | node leaf below next ihBelow ihNext =>
      rw [size, leaves, List.mem_append, List.mem_cons]
      have hfirst {w : Visit} {slots : Array Slot} (hw : w.begun? = some (start, ⟨leaf, slots⟩))
          (hvw : v = w) : id = start ∧ n.toLeaf = leaf := by
        rw [hvw, hw] at hbegun
        cases hbegun
        exact ⟨rfl, rfl⟩
      by_cases hnil : below = nil
      · subst hnil
        rw [visits, List.mem_cons] at hv
        rcases hv with hv | hv
        · obtain ⟨hid, hleaf⟩ := hfirst rfl hv
          exact ⟨by omega, .inl (.inl hleaf)⟩
        · obtain ⟨hid, hleaf⟩ := ihNext hv
          exact ⟨by rw [size]; omega, .inr hleaf⟩
      · rw [visits_node_of_ne hnil, List.mem_append, List.mem_cons, List.mem_cons] at hv
        rcases hv with (hv | hv) | hv | hv
        · obtain ⟨hid, hleaf⟩ := hfirst rfl hv
          exact ⟨by omega, .inl (.inl hleaf)⟩
        · obtain ⟨hid, hleaf⟩ := ihBelow hv
          exact ⟨by omega, .inl (.inr hleaf)⟩
        · subst hv
          cases hbegun
        · obtain ⟨hid, hleaf⟩ := ihNext hv
          exact ⟨by omega, .inr hleaf⟩

end TreeAssay
