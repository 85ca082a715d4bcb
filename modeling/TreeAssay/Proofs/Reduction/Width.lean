import TreeAssay.Proofs.Reduction.Numbering
/-!
# Numbers in 32 bits

Nodes and states have natural numbers here.  Where they are kept in 32 bits, a greater number is cut.
None is, as long as the trees that a calculator labels have fewer nodes together than there are
numbers: what is written here of trees, labels and states then holds of the cut numbers as it stands.
-/

namespace TreeAssay

namespace Number

/-- What 32 bits keep of a number. -/
def cut (n : Nat) : Nat :=
  (UInt32.ofNat n).toNat

theorem cut_eq_iff {n : Nat} : cut n = n ↔ n < UInt32.size := by
  constructor
  · intro h
    rw [← h]
    exact (UInt32.ofNat n).toNat_lt
  · exact UInt32.toNat_ofNat_of_lt'

end Number

open Number

/-! ## Nodes -/

def Slot.cut : Slot → Slot
  | .null => .null
  | .node id => .node (Number.cut id)

namespace Tree

variable {t : Tree}

theorem cut_slot (h : t.size < UInt32.size) {id : Nat} {n : Node} (hnode : t.node? id = some n)
    {slot : Slot} (hslot : slot ∈ n.slots) : slot.cut = slot := by
  cases slot with
  | null => rfl
  | node child =>
      have hlater := t.children_later id n hnode child hslot
      rw [Slot.cut, cut_eq_iff.2]
      exact Nat.lt_trans hlater.2 h

/-- The numbers of a tree: how many there are, its root, the walk from the children to their
parents, and the slots. -/
structure Fits (t : Tree) : Prop where
  size : cut t.size = t.size
  root : cut t.root = t.root
  bottomUp : t.bottomUp.map cut = t.bottomUp
  slots : ∀ id n, t.node? id = some n → n.slots.toList.map Slot.cut = n.slots.toList

theorem fits_iff : t.Fits ↔ t.size < UInt32.size := by
  constructor
  · intro h
    exact cut_eq_iff.1 h.size
  · intro h
    refine ⟨cut_eq_iff.2 h, cut_eq_iff.2 (Nat.lt_trans t.root_lt h), ?_, fun id n hnode => ?_⟩
    · refine (List.map_congr_left fun id hid => ?_).trans (List.map_id _)
      have hlt : id < t.size := by simpa [bottomUp] using hid
      exact cut_eq_iff.2 (Nat.lt_trans hlt h)
    · refine (List.map_congr_left fun slot hslot => ?_).trans (List.map_id _)
      exact cut_slot h hnode (Array.mem_toList_iff.1 hslot)

end Tree

/-! ## States -/

/-- The nodes that calls label. -/
def LabelCall.nodes : List LabelCall → Nat
  | [] => 0
  | call :: calls => call.root.elim 0 (·.size) + nodes calls

theorem LabelCall.le_nodes {call : LabelCall} {calls : List LabelCall} (h : call ∈ calls) :
    call.root.elim 0 (·.size) ≤ nodes calls := by
  induction calls with
  | nil => cases h
  | cons first calls ih =>
      rw [nodes]
      rcases List.mem_cons.1 h with rfl | hmem
      · exact Nat.le_add_right _ _
      · exact Nat.le_add_left_of_le (ih hmem)

namespace States

theorem count_intern_le (s : States) (table : CostTable) :
    (s.intern table).1.count ≤ s.count + 1 := by
  unfold intern
  split
  · exact Nat.le_succ _
  · simp [count]

theorem count_label_le (s : States) (t : Tree) (labels : Labels StateId) :
    (s.label t labels).1.count ≤ s.count + t.size := by
  have hfold (ids : List Nat) (labelled : States × Labels StateId) :
      (ids.foldl (labelNode t.toArena) labelled).1.count ≤ labelled.1.count + ids.length := by
    induction ids generalizing labelled with
    | nil => exact Nat.le_refl _
    | cons id ids ih =>
        have hstep : (labelNode t.toArena labelled id).1.count ≤ labelled.1.count + 1 := by
          unfold labelNode
          split
          · exact Nat.le_succ _
          · exact count_intern_le _ _
        have := ih (labelNode t.toArena labelled id)
        rw [List.foldl_cons, List.length_cons]
        omega
  have := hfold t.bottomUp (s, labels)
  rwa [Tree.bottomUp, List.length_reverse, List.length_range] at this

theorem count_after_le (s : States) (calls : List LabelCall) :
    (s.after calls).count ≤ s.count + LabelCall.nodes calls := by
  induction calls generalizing s with
  | nil => exact Nat.le_refl _
  | cons call calls ih =>
      have hfirst : (calculator.label s call.root call.labels).1.count ≤
          s.count + call.root.elim 0 (·.size) := by
        cases call.root with
        | none => exact Nat.le_refl _
        | some t => exact count_label_le s t call.labels
      have hrest := ih (calculator.label s call.root call.labels).1
      rw [LabelCall.nodes]
      exact Nat.le_trans hrest (by omega)

/-- The number of each table, and the one that the next table gets. -/
structure Fits (s : States) : Prop where
  count : cut s.count = s.count
  number : ∀ state table, s.table? state = some table → cut state.number = state.number

theorem fits_iff {s : States} : s.Fits ↔ s.count < UInt32.size := by
  constructor
  · intro h
    exact cut_eq_iff.1 h.count
  · intro h
    refine ⟨cut_eq_iff.2 h, fun state table htable => cut_eq_iff.2 ?_⟩
    have hlt : state.number < s.count := (Array.getElem?_eq_some_iff.1 htable).1
    exact Nat.lt_trans hlt h

/-- A calculator that has labelled fewer nodes than there are numbers of 32 bits has cut none. -/
theorem fits_after {calls : List LabelCall} (h : LabelCall.nodes calls < UInt32.size) :
    (∀ call ∈ calls, ∀ t, call.root = some t → t.Fits) ∧ (empty.after calls).Fits := by
  constructor
  · intro call hmem t hroot
    have hle := LabelCall.le_nodes hmem
    rw [hroot] at hle
    exact Tree.fits_iff.2 (Nat.lt_of_le_of_lt hle h)
  · have hcount := count_after_le empty calls
    exact fits_iff.2 (Nat.lt_of_le_of_lt hcount (by simpa [count, empty] using h))

end States

end TreeAssay
