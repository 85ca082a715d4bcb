import TreeAssay.Dump.Render
import TreeAssay.Proofs.Trees.Visits
/-!
# Dumps by recursion

A dump is written on a walk that keeps the work left on a stack.  It is the text that a tree has
by recursion, each node around the texts of its child slots: wherever the walk stands, what it has
written and the texts of its errands make up the dump (`join_walk`).  And it opens every node
once, in the order of the numbers.
-/

namespace TreeAssay

namespace Dump

/-- An attribute with the space before it, where it has a value. -/
def attributeText (name : String) : Option String → String
  | none => ""
  | some value => " " ++ name ++ "=\"" ++ value ++ "\""

/-- A node with its literal and its state, around the text of its child slots. -/
def nodeText (node : Node) (state : Option String) (inner : String) : String :=
  let attrs :=
    attributeText "content" (node.payload.map Value.display) ++ attributeText "state" state
  if node.slots = #[] then
    if attrs = "" then "<" ++ node.op.name ++ " />" else "<" ++ node.op.name ++ attrs ++ "/>"
  else "<" ++ node.op.name ++ attrs ++ ">" ++ inner ++ "</" ++ node.op.name ++ ">"

theorem attributes_eq (node : Node) (state : Option String) :
    attributes node state =
      attributeText "content" (node.payload.map Value.display) ++ attributeText "state" state := by
  unfold attributes
  congr 1
  · cases node.payload <;> rfl
  · cases state <;> rfl

theorem nodeText_childless {node : Node} (h : node.slots = #[]) (state : Option String)
    (inner : String) : nodeText node state inner = leafTag node state := by
  unfold nodeText leafTag
  rw [if_pos h, attributes_eq]
  dsimp only
  split
  next hnone => rw [hnone, String.append_empty]
  next => rfl

theorem nodeText_parent {node : Node} (h : node.slots ≠ #[]) (state : Option String)
    (inner : String) :
    nodeText node state inner = startTag node state ++ (inner ++ endTag node) := by
  unfold nodeText startTag endTag
  rw [if_neg h, attributes_eq]
  simp only [String.append_assoc]

end Dump

namespace Arena

/-- The text of child slots in order. -/
def slotsText (a : Arena) (state : Nat → Option String) : List Slot → String
  | [] => ""
  | .null :: rest => "<null />" ++ a.slotsText state rest
  | .node id :: rest =>
    match _h : a.node? id with
    | none => a.slotsText state rest
    | some n =>
      Dump.nodeText n (state id) (a.slotsText state n.slots.toList) ++ a.slotsText state rest
termination_by slots => totalWeight (slots.map a.slotWeight)
decreasing_by
  · exact a.totalWeight_rest_lt _ rest
  · exact a.totalWeight_rest_lt _ rest
  · exact totalWeight_below_lt _h rest
  · exact a.totalWeight_rest_lt _ rest

variable {a : Arena} {state : Nat → Option String}

theorem slotsText_nil : a.slotsText state [] = "" := by
  rw [slotsText]

theorem slotsText_null (rest : List Slot) :
    a.slotsText state (.null :: rest) = "<null />" ++ a.slotsText state rest := by
  rw [slotsText]

theorem slotsText_node {id : Nat} {n : Node} (h : a.node? id = some n) (rest : List Slot) :
    a.slotsText state (.node id :: rest) =
      Dump.nodeText n (state id) (a.slotsText state n.slots.toList) ++
        a.slotsText state rest := by
  rw [slotsText]
  split
  next hnone => simp [h] at hnone
  next m hm =>
    obtain rfl : m = n := Option.some.inj (hm.symm.trans h)
    rfl

theorem slotsText_unknown {id : Nat} (h : a.node? id = none) (rest : List Slot) :
    a.slotsText state (.node id :: rest) = a.slotsText state rest := by
  rw [slotsText]
  split
  next => rfl
  next hsome => simp [h] at hsome

/-- What an errand will have written once it is done. -/
def errandText (a : Arena) (state : Nat → Option String) : Errand → String
  | .visit id => a.slotsText state [.node id]
  | .note v => Dump.visitText state v

/-- The errands of a row of slots write what the slots say. -/
theorem join_errands (slots : List Slot) :
    String.join ((slots.map errand).map (a.errandText state)) = a.slotsText state slots := by
  induction slots with
  | nil => rw [slotsText_nil, List.map_nil, List.map_nil, String.join_nil]
  | cons slot rest ih =>
      rw [List.map_cons, List.map_cons, String.join_cons, ih]
      cases slot with
      | null =>
          rw [slotsText_null]
          rfl
      | node id =>
          rw [errand, errandText]
          cases hnode : a.node? id with
          | none =>
              rw [slotsText_unknown hnode, slotsText_unknown hnode, slotsText_nil,
                String.empty_append]
          | some n =>
              rw [slotsText_node hnode, slotsText_node hnode, slotsText_nil, String.append_empty]

def visitsText (state : Nat → Option String) (visits : Array Visit) : String :=
  String.join (visits.toList.map (Dump.visitText state))

theorem visitsText_push (visits : Array Visit) (v : Visit) :
    visitsText state (visits.push v) = visitsText state visits ++ Dump.visitText state v := by
  rw [visitsText, Array.toList_push, List.map_append, String.join_append, List.map_singleton,
    String.join_cons, String.join_nil, String.append_empty]
  rfl

/-- What is written and what the errands will write make up the same text all the way. -/
theorem join_walk (visits : Array Visit) (errands : List Errand) :
    visitsText state (a.walk visits errands) =
      visitsText state visits ++ String.join (errands.map (a.errandText state)) := by
  fun_induction Arena.walk a visits errands with
  | case1 visits => rw [List.map_nil, String.join_nil, String.append_empty]
  | case2 visits v rest ih =>
    rw [ih, visitsText_push, List.map_cons, String.join_cons, String.append_assoc]
    rfl
  | case3 visits id rest hnone ih =>
    rw [ih, List.map_cons, String.join_cons, errandText, slotsText_unknown hnone, slotsText_nil,
      String.empty_append]
  | case4 visits id rest n hnode hempty ih =>
    have hslots : n.slots = #[] := Array.isEmpty_iff.1 hempty
    rw [ih, visitsText_push, List.map_cons, String.join_cons, errandText, slotsText_node hnode,
      slotsText_nil, String.append_empty, Dump.nodeText_childless hslots, String.append_assoc]
    rfl
  | case5 visits id rest n hnode hempty ih =>
    have hslots : n.slots ≠ #[] := mt Array.isEmpty_iff.2 hempty
    rw [ih, visitsText_push, List.map_append, String.join_append, join_errands, List.map_cons,
      List.map_cons, String.join_cons, String.join_cons, errandText, errandText,
      slotsText_node hnode, slotsText_nil, String.append_empty, Dump.nodeText_parent hslots]
    simp only [String.append_assoc]
    rfl

end Arena

/-! ## Every node once -/

/-- The nodes of a row with their numbers, in the order in which the walk opens them. -/
theorem Row.filterMap_begun_visits (row : Row) (start : Nat) :
    (row.visits start).filterMap Visit.begun? =
      (List.range' start row.size).zip (row.nodes start) := by
  induction row generalizing start with
  | nil => rfl
  | null next ih => exact ih start
  | node leaf below next ihBelow ihNext =>
      rw [range'_size_node, nodes, List.cons_append, List.zip_cons_cons,
        List.zip_append (by rw [List.length_range', length_nodes]), ← ihBelow, ← ihNext]
      by_cases hbelow : below = nil
      · subst hbelow
        rfl
      · rw [visits_node_of_ne hbelow, List.filterMap_append, List.filterMap_cons,
          List.filterMap_cons]
        rfl

namespace Tree

/-- The text of a tree, by recursion from its root. -/
def text (t : Tree) (state : Nat → Option String) : String :=
  t.slotsText state [.node t.root]

theorem render_eq (t : Tree) (label : Nat → Option String) :
    Dump.render (some t) label = Arena.visitsText label t.visits := by
  rw [Dump.render, Arena.visitsText, String.join, List.foldl_map, Array.foldl_toList]

theorem render_eq_text (t : Tree) (label : Nat → Option String) :
    Dump.render (some t) label = t.text label := by
  rw [render_eq, visits, Arena.join_walk, List.map_singleton, String.join_cons, String.join_nil,
    String.append_empty]
  exact String.empty_append

theorem begun_visits_plant (leaf : Leaf) (below : Row) :
    (plant leaf below).visits.toList.filterMap Visit.begun? =
      (List.range (plant leaf below).size).zip (plant leaf below).nodes.toList := by
  have h := Row.filterMap_begun_visits (.node leaf below .nil) 0
  rw [visits_plant, h, List.range_eq_range', size_plant]
  rfl

end Tree

namespace Dump

/-- A dump is the text that the tree has by recursion, with the labels as states where there are
any, or with no states.  It is put together from the texts of the visits, among which each node of a
completed tree is opened once. -/
theorem render_recursive (t : Tree) :
    (∀ {α : Type} [ToString α] (labels : Labels α), ofLabelled (some t) labels =
        t.text fun id => (labels.get? id).map toString) ∧
      ofTree (some t) = t.text (fun _ => none) ∧
      (∀ label, render (some t) label = String.join (t.visits.toList.map (visitText label))) ∧
      (t.Built →
        t.visits.toList.filterMap Visit.begun? = (List.range t.size).zip t.nodes.toList) := by
  refine ⟨fun labels => t.render_eq_text _, t.render_eq_text _, t.render_eq, fun hbuilt => ?_⟩
  obtain ⟨leaf, below, rfl⟩ := hbuilt.eq_plant
  exact Tree.begun_visits_plant leaf below

/-- A null slot, a childless node with attributes and one without any. -/
theorem render_recursive_null :
    let t := Tree.plant ⟨.add, none⟩
      (.null (.node ⟨.intLiteral, some (.int 1)⟩ .nil (.node ⟨.concat, none⟩ .nil .nil)))
    let labels : Labels Nat := Labels.empty.set 1 7
    t.Built ∧
      ofLabelled (some t) labels =
        "<Add><null /><IntLiteral content=\"1\" state=\"7\"/><Concat /></Add>" ∧
      ofTree (some t) = t.text (fun _ => none) ∧
      (t.visits.toList.filterMap Visit.begun?).map Prod.fst = [0, 1, 2] := by
  intro t labels
  have hbuilt : t.Built := Tree.built_plant _ _
  obtain ⟨hlabelled, hbare, _, honce⟩ := render_recursive t
  have hroot : t.node? t.root = some ⟨⟨.add, none⟩, #[.null, .node 1, .node 2]⟩ := rfl
  have hliteral : t.node? 1 = some ⟨⟨.intLiteral, some (.int 1)⟩, #[]⟩ := rfl
  have hconcat : t.node? 2 = some ⟨⟨.concat, none⟩, #[]⟩ := rfl
  have hlabels : labels.get? = fun id => if id = 1 then some 7 else none := by
    funext id
    simp [labels, Labels.get?_set, eq_comm]
  have htext : t.text (fun id => (labels.get? id).map toString) =
      "<Add><null /><IntLiteral content=\"1\" state=\"7\"/><Concat /></Add>" := by
    simp only [Tree.text, Arena.slotsText_node hroot, Arena.slotsText_null,
      Arena.slotsText_node hliteral, Arena.slotsText_node hconcat, Arena.slotsText_nil, hlabels]
    decide +kernel
  refine ⟨hbuilt, (hlabelled labels).trans htext, hbare, ?_⟩
  rw [honce hbuilt]
  rfl

end Dump

end TreeAssay
