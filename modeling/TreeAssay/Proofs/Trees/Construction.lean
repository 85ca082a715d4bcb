import TreeAssay.Proofs.Trees.Row
import TreeAssay.Tree.Scaffold
/-!
# What scaffolds build

A scaffold is seen as a list of frames: the open nodes, each with the row read
below it so far.  On frames, starts and ends need no numbers (`Frame.step`), and
a scaffold follows them step by step (`step_of_shows`).  So each completed tree is
a node and a row, planted.
-/

namespace TreeAssay

inductive BuildStep
  | start (entry : Entry) (selfClosing : Bool)
  | close

namespace Scaffold

def step (s : Scaffold) : BuildStep → Except BuildError (Scaffold × Option Tree)
  | .start entry selfClosing => s.start entry selfClosing
  | .close => s.close

/-- The scaffold after a start or an end; one that does not fit changes nothing. -/
def after (s : Scaffold) (step : BuildStep) : Scaffold :=
  match s.step step with
  | .ok (s, _) => s
  | .error _ => s

end Scaffold

/-- The tree comes out of a scaffold: it is completed by the last of some starts and
ends, which may include some that do not fit. -/
def Tree.Built (t : Tree) : Prop :=
  ∃ (steps : List BuildStep) (last : BuildStep) (s : Scaffold),
    (steps.foldl Scaffold.after .empty).step last = .ok (s, some t)

/-- An open node and the row read below it so far. -/
structure Frame where
  leaf : Leaf
  done : Row

namespace Frame

def total : List Frame → Nat
  | [] => 0
  | f :: outer => total outer + 1 + f.done.size

def ids : List Frame → List Nat
  | [] => []
  | _ :: outer => total outer :: ids outer

/-- The nodes of the frames, where one more node is open inside them. -/
def before : List Frame → List Node
  | [] => []
  | f :: outer =>
    before outer ++
      ⟨f.leaf, (f.done.slots (total outer + 1) ++
        [Slot.node (total outer + 1 + f.done.size)]).toArray⟩ ::
      f.done.nodes (total outer + 1)

def nodes : List Frame → List Node
  | [] => []
  | f :: outer => before outer ++ (Row.node f.leaf f.done .nil).nodes (total outer)

def add : List Frame → Row → List Frame
  | [], _ => []
  | f :: outer, row => ⟨f.leaf, f.done ++ row⟩ :: outer

def step : List Frame → BuildStep → Except BuildError (List Frame × Option (Leaf × Row))
  | _, .start .null false => .error .nullWithChildren
  | frames, .start .null true => .ok (add frames (.null .nil), none)
  | [], .start (.node leaf) true => .ok ([], some (leaf, .nil))
  | f :: outer, .start (.node leaf) true => .ok (add (f :: outer) (.node leaf .nil .nil), none)
  | frames, .start (.node leaf) false => .ok (⟨leaf, .nil⟩ :: frames, none)
  | [], .close => .error .nothingToClose
  | [f], .close => .ok ([], some (f.leaf, f.done))
  | f :: g :: outer, .close => .ok (add (g :: outer) (.node f.leaf f.done .nil), none)

def leaves : List Frame → List Leaf
  | [] => []
  | f :: outer => leaves outer ++ f.leaf :: f.done.leaves

theorem length_before (frames : List Frame) : (before frames).length = total frames := by
  induction frames with
  | nil => rfl
  | cons f outer ih =>
      rw [before, total, List.length_append, ih, List.length_cons, Row.length_nodes]
      omega

theorem length_nodes (frames : List Frame) : (nodes frames).length = total frames := by
  cases frames with
  | nil => rfl
  | cons f outer =>
      rw [nodes, total, List.length_append, length_before, Row.length_nodes, Row.size, Row.size]
      omega

/-- The nodes of the frames after a row is added: the innermost open node gets the
slots of the row, and the nodes of the row stand at the end. -/
theorem nodes_add (f : Frame) (outer : List Frame) (row : Row) :
    nodes (add (f :: outer) row) =
      before outer ++ ⟨f.leaf, (f.done.slots (total outer + 1) ++
          row.slots (total (f :: outer))).toArray⟩ ::
        f.done.nodes (total outer + 1) ++ row.nodes (total (f :: outer)) := by
  simp only [add, nodes, Row.nodes, Row.slots_append, Row.nodes_append, total,
    List.append_nil, List.append_assoc, List.cons_append]

theorem nodes_open (leaf : Leaf) (frames : List Frame) :
    nodes (⟨leaf, .nil⟩ :: frames) = before frames ++ [⟨leaf, #[]⟩] := rfl

theorem before_cons (f : Frame) (outer : List Frame) (leaf : Leaf) (done : Row) :
    before (f :: outer) ++ (Row.node leaf done .nil).nodes (total (f :: outer)) =
      nodes (add (f :: outer) (.node leaf done .nil)) := by
  rw [nodes_add]
  simp only [before, Row.slots, total, List.append_assoc, List.cons_append]

end Frame

namespace Scaffold

open TreeAssay.Frame

/-- The scaffold holds exactly the frames. -/
def Shows (s : Scaffold) (frames : List Frame) : Prop :=
  s.arena.nodes.toList = Frame.nodes frames ∧ s.openNodes = Frame.ids frames

theorem shows_empty : empty.Shows [] := ⟨rfl, rfl⟩

private theorem size_of_shows {s : Scaffold} {frames : List Frame} (h : s.Shows frames) :
    s.arena.nodes.size = total frames := by
  rw [← Array.length_toList, h.1, Frame.length_nodes]

private theorem modify_at (front back : List Node) (n : Node) (f : Node → Node) :
    (front ++ n :: back).modify front.length f = front ++ f n :: back := by
  induction front with
  | nil => rfl
  | cons m front ih =>
      rw [List.cons_append, List.length_cons, List.modify_succ_cons, ih, List.cons_append]

private theorem modify_nodes (f : Frame) (outer : List Frame) (back : List Node) (slot : Slot) :
    (Frame.nodes (f :: outer) ++ back).modify (total outer) (·.addSlot slot) =
      before outer ++ ⟨f.leaf, (f.done.slots (total outer + 1) ++ [slot]).toArray⟩ ::
        f.done.nodes (total outer + 1) ++ back := by
  have h := modify_at (before outer) (f.done.nodes (total outer + 1) ++ back)
    ⟨f.leaf, (f.done.slots (total outer + 1)).toArray⟩ (·.addSlot slot)
  rw [length_before] at h
  simpa only [Frame.nodes, Row.nodes, List.append_nil, List.append_assoc, List.cons_append,
    Node.addSlot, List.push_toArray] using h

theorem shows_addNull {s : Scaffold} {frames : List Frame} (h : s.Shows frames) :
    s.addNull.Shows (add frames (.null .nil)) := by
  obtain ⟨arena, openNodes, lt⟩ := s
  obtain ⟨hnodes, hopen⟩ := h
  cases frames with
  | nil =>
      simp only [Frame.ids] at hopen
      subst hopen
      exact ⟨hnodes, rfl⟩
  | cons f outer =>
      simp only [Frame.ids] at hopen hnodes
      subst hopen
      refine ⟨?_, rfl⟩
      have hmodify := modify_nodes f outer [] .null
      rw [List.append_nil, List.append_nil] at hmodify
      simp only [addNull, Arena.addSlot, Array.toList_modify, hnodes, hmodify, nodes_add,
        Row.slots, Row.nodes, List.append_nil]

theorem shows_addLeaf_inside {s : Scaffold} {f : Frame} {outer : List Frame}
    (h : s.Shows (f :: outer)) (leaf : Leaf) :
    (s.addLeaf leaf).2 = none ∧
      (s.addLeaf leaf).1.Shows (add (f :: outer) (.node leaf .nil .nil)) := by
  have hsize := size_of_shows h
  obtain ⟨arena, openNodes, lt⟩ := s
  obtain ⟨hnodes, hopen⟩ := h
  simp only [Frame.ids] at hopen hnodes hsize
  subst hopen
  refine ⟨rfl, ?_, rfl⟩
  simp only [addLeaf, Arena.addSlot, Arena.push, Arena.size, Array.toList_modify,
    Array.toList_push, hnodes, hsize, modify_nodes, nodes_add, Row.slots, Row.nodes,
    List.append_nil]

theorem shows_addOpen {s : Scaffold} {frames : List Frame} (h : s.Shows frames) (leaf : Leaf) :
    (s.addOpen leaf).Shows (⟨leaf, .nil⟩ :: frames) := by
  have hsize := size_of_shows h
  obtain ⟨arena, openNodes, lt⟩ := s
  obtain ⟨hnodes, hopen⟩ := h
  cases frames with
  | nil =>
      simp only [Frame.ids] at hopen hnodes hsize
      subst hopen
      refine ⟨?_, by simp [addOpen, Frame.ids, total, Arena.size, hsize]⟩
      simp only [addOpen, Arena.push, Array.toList_push, hnodes]
      rfl
  | cons f outer =>
      simp only [Frame.ids] at hopen hnodes hsize
      subst hopen
      refine ⟨?_, by simp [addOpen, Frame.ids, total, Arena.size, hsize]⟩
      simp only [addOpen, Arena.addSlot, Arena.push, Arena.size, Array.toList_modify,
        Array.toList_push, hnodes, hsize, modify_nodes, nodes_open, before, total,
        List.append_assoc, List.cons_append]

theorem tree_eq_of_nodes {t u : Tree} (hnodes : t.nodes = u.nodes) (hroot : t.root = u.root) :
    t = u := by
  obtain ⟨⟨_, _⟩, _, _⟩ := t
  obtain ⟨⟨_, _⟩, _, _⟩ := u
  cases hnodes
  cases hroot
  rfl

theorem addLeaf_of_shows_nil {s : Scaffold} (h : s.Shows []) (leaf : Leaf) :
    s.addLeaf leaf = (.empty, some (.plant leaf .nil)) := by
  have hsize := size_of_shows h
  obtain ⟨arena, openNodes, lt⟩ := s
  obtain ⟨hnodes, hopen⟩ := h
  simp only [Frame.ids, Frame.nodes, total] at hopen hnodes hsize
  subst hopen
  have hempty : arena.nodes = #[] := Array.toList_inj.1 hnodes
  simp only [addLeaf, Prod.mk.injEq, Option.some.injEq, true_and]
  apply tree_eq_of_nodes
  · simp [Arena.push, hempty, Tree.plant, Row.nodes, Row.slots]
  · simp [Arena.size, hempty, Tree.plant]

theorem close_of_shows_single {s : Scaffold} {f : Frame} (h : s.Shows [f]) :
    s.close = .ok (.empty, some (.plant f.leaf f.done)) := by
  obtain ⟨arena, openNodes, lt⟩ := s
  obtain ⟨hnodes, hopen⟩ := h
  simp only [Frame.ids, total] at hopen hnodes
  subst hopen
  simp only [close, Except.ok.injEq, Prod.mk.injEq, Option.some.injEq, true_and]
  apply tree_eq_of_nodes
  · apply Array.toList_inj.1
    rw [hnodes]
    rfl
  · rfl

theorem close_of_shows_cons {s : Scaffold} {f g : Frame} {outer : List Frame}
    (h : s.Shows (f :: g :: outer)) :
    ∃ s', s.close = .ok (s', none) ∧
      s'.Shows (add (g :: outer) (.node f.leaf f.done .nil)) := by
  obtain ⟨arena, openNodes, lt⟩ := s
  obtain ⟨hnodes, hopen⟩ := h
  simp only [Frame.ids] at hopen hnodes
  subst hopen
  refine ⟨_, rfl, ?_, rfl⟩
  rw [← before_cons]
  exact hnodes

/-- A scaffold does what its frames do, and plants what they complete. -/
theorem step_of_shows {s : Scaffold} {frames : List Frame} (h : s.Shows frames)
    (step : BuildStep) :
    match Frame.step frames step with
    | .error error => s.step step = .error error
    | .ok (frames', completed) =>
      ∃ s', s.step step = .ok (s', completed.map fun (leaf, below) => .plant leaf below) ∧
        s'.Shows frames' := by
  match frames, step with
  | frames, .start .null false => cases frames <;> rfl
  | frames, .start .null true =>
      have := shows_addNull h
      cases frames <;> exact ⟨_, rfl, this⟩
  | [], .start (.node leaf) true =>
      exact ⟨.empty, congrArg Except.ok (addLeaf_of_shows_nil h leaf), shows_empty⟩
  | f :: outer, .start (.node leaf) true =>
      obtain ⟨hnone, hshows⟩ := shows_addLeaf_inside h leaf
      exact ⟨_, congrArg Except.ok (Prod.ext rfl hnone), hshows⟩
  | frames, .start (.node leaf) false =>
      have := shows_addOpen h leaf
      cases frames <;> exact ⟨_, rfl, this⟩
  | [], .close =>
      obtain ⟨arena, openNodes, lt⟩ := s
      obtain ⟨_, hopen⟩ := h
      simp only [Frame.ids] at hopen
      subst hopen
      rfl
  | [f], .close => exact ⟨.empty, close_of_shows_single h, shows_empty⟩
  | f :: g :: outer, .close => exact close_of_shows_cons h

theorem step_ok_of_shows {s : Scaffold} {frames frames' : List Frame} {st : BuildStep}
    {completed : Option (Leaf × Row)} (h : s.Shows frames)
    (hstep : Frame.step frames st = .ok (frames', completed)) :
    ∃ s', s.step st = .ok (s', completed.map fun (leaf, below) => .plant leaf below) ∧
      s'.Shows frames' := by
  have hshows := step_of_shows h st
  rwa [hstep] at hshows

theorem finish_of_shows {s : Scaffold} {frames : List Frame} (h : s.Shows frames) :
    s.finish = if frames.isEmpty then .ok () else .error .leftOpen := by
  rw [finish, isIdle, h.2]
  cases frames <;> rfl

theorem shows_after {s : Scaffold} {frames : List Frame} (h : s.Shows frames)
    (step : BuildStep) : ∃ frames', (s.after step).Shows frames' := by
  cases hframes : Frame.step frames step with
  | error error =>
      have hstep := step_of_shows h step
      rw [hframes] at hstep
      exact ⟨frames, by rwa [after, hstep]⟩
  | ok result =>
      obtain ⟨s', hs', hshows⟩ := step_ok_of_shows h hframes
      exact ⟨result.1, by rwa [after, hs']⟩

theorem exists_shows_foldl_after {s : Scaffold} {frames : List Frame} (h : s.Shows frames)
    (steps : List BuildStep) : ∃ frames', (steps.foldl after s).Shows frames' := by
  induction steps generalizing s frames with
  | nil => exact ⟨frames, h⟩
  | cons step steps ih =>
      obtain ⟨frames', hshows⟩ := shows_after h step
      exact ih hshows

end Scaffold

/-! ## The steps that spell a row -/

/-- The starts and ends that put a row into an open node.  A node without slots may
close at once or be left open and closed. -/
inductive Row.Spelled : Row → List BuildStep → Prop
  | nil : Spelled .nil []
  | null {next steps} : Spelled next steps →
      Spelled (.null next) (.start .null true :: steps)
  | leaf {leaf next steps} : Spelled next steps →
      Spelled (.node leaf .nil next) (.start (.node leaf) true :: steps)
  | node {leaf below next inner steps} : Spelled below inner → Spelled next steps →
      Spelled (.node leaf below next) (.start (.node leaf) false :: inner ++ .close :: steps)

theorem Row.Spelled.append {a b : Row} {xs ys : List BuildStep} (ha : a.Spelled xs)
    (hb : b.Spelled ys) : (a ++ b).Spelled (xs ++ ys) := by
  induction ha with
  | nil => exact hb
  | null _ ih => exact .null ih
  | leaf _ ih => exact .leaf ih
  | node hbelow _ _ ihNext =>
      rw [List.cons_append, List.cons_append, List.append_assoc, List.cons_append]
      exact .node hbelow ihNext

/-- Starts and ends that keep some node open from the first to the last. -/
inductive Frame.Runs : List Frame → List BuildStep → List Frame → Prop
  | nil {frames} : Runs frames [] frames
  | cons {frames frames' frames'' step steps} : Frame.step frames step = .ok (frames', none) →
      Runs frames' steps frames'' → Runs frames (step :: steps) frames''

theorem Frame.Runs.append {a b c : List Frame} {xs ys : List BuildStep} (hab : Runs a xs b)
    (hbc : Runs b ys c) : Runs a (xs ++ ys) c := by
  induction hab with
  | nil => exact hbc
  | cons hstep _ ih => exact .cons hstep (ih hbc)

theorem Frame.runs_of_spelled {row : Row} {steps : List BuildStep} (h : row.Spelled steps)
    (f : Frame) (outer : List Frame) : Runs (f :: outer) steps (add (f :: outer) row) := by
  -- The innermost frame gathers the row from the left, so the induction is over every `f`.
  induction h generalizing f outer with
  | nil =>
      rw [add, Row.append_nil]
      exact .nil
  | null _ ih =>
      refine .cons rfl ?_
      have := ih ⟨f.leaf, f.done ++ .null .nil⟩ outer
      rwa [add, Row.append_assoc] at this
  | @leaf leaf _ _ _ ih =>
      refine .cons rfl ?_
      have := ih ⟨f.leaf, f.done ++ .node leaf .nil .nil⟩ outer
      rwa [add, Row.append_assoc] at this
  | @node leaf below _ _ _ _ _ ihBelow ihNext =>
      refine .cons rfl (Runs.append (ihBelow ⟨leaf, .nil⟩ (f :: outer)) (.cons rfl ?_))
      have := ihNext ⟨f.leaf, f.done ++ .node leaf below .nil⟩ outer
      rwa [add, Row.append_assoc] at this

def BuildStep.leaves : BuildStep → List Leaf
  | .start (.node leaf) _ => [leaf]
  | .start .null _ | .close => []

theorem BuildStep.leaves_of_spelled {row : Row} {steps : List BuildStep} (h : row.Spelled steps) :
    steps.flatMap leaves = row.leaves := by
  induction h with
  | nil => rfl
  | null _ ih => exact ih
  | leaf _ ih =>
      rw [List.flatMap_cons, ih]
      rfl
  | node _ _ ihBelow ihNext =>
      rw [List.cons_append, List.flatMap_cons, List.flatMap_append, List.flatMap_cons, ihBelow,
        ihNext]
      rfl

def Frame.completedLeaves : Option (Leaf × Row) → List Leaf
  | none => []
  | some (leaf, below) => leaf :: below.leaves

theorem Frame.leaves_add (f : Frame) (outer : List Frame) (row : Row) :
    leaves (add (f :: outer) row) = leaves (f :: outer) ++ row.leaves := by
  simp only [add, leaves, Row.leaves_append, List.append_assoc, List.cons_append]

/-- A start or an end loses no leaf, makes none up and keeps their order. -/
theorem Frame.leaves_step {frames frames' : List Frame} {st : BuildStep}
    {completed : Option (Leaf × Row)} (h : step frames st = .ok (frames', completed)) :
    leaves frames ++ st.leaves = leaves frames' ++ completedLeaves completed := by
  match frames, st with
  | [], .start .null false => cases h
  | f :: outer, .start .null false => cases h
  | [], .start .null true =>
      cases h
      rfl
  | f :: outer, .start .null true =>
      cases h
      rw [leaves_add, completedLeaves, List.append_nil]
      rfl
  | [], .start (.node leaf) true =>
      cases h
      rfl
  | f :: outer, .start (.node leaf) true =>
      cases h
      rw [leaves_add, completedLeaves, List.append_nil]
      rfl
  | [], .start (.node leaf) false =>
      cases h
      rfl
  | f :: outer, .start (.node leaf) false =>
      cases h
      rw [completedLeaves, List.append_nil]
      rfl
  | [], .close => cases h
  | [f], .close =>
      cases h
      exact List.append_nil _
  | f :: g :: outer, .close =>
      cases h
      rw [leaves_add, completedLeaves, List.append_nil, BuildStep.leaves, List.append_nil]
      simp only [leaves, Row.leaves, List.append_nil]

/-- What spells a single node completes it with its last start or end. -/
theorem Frame.completes_of_spelled {leaf : Leaf} {below : Row} {steps : List BuildStep}
    (h : (Row.node leaf below .nil).Spelled steps) :
    ∃ init last frames, steps = init ++ [last] ∧ Runs [] init frames ∧
      step frames last = .ok ([], some (leaf, below)) := by
  cases h with
  | leaf hnext =>
      cases hnext
      exact ⟨[], _, [], rfl, .nil, rfl⟩
  | node hbelow hnext =>
      cases hnext
      refine ⟨_ :: _, .close, [⟨leaf, below⟩], rfl, .cons rfl ?_, rfl⟩
      exact runs_of_spelled hbelow ⟨leaf, .nil⟩ []

inductive Frame.Spelled : List Frame → List BuildStep → Prop
  | nil : Spelled [] []
  | cons {f outer xs ys} : Spelled outer xs → f.done.Spelled ys →
      Spelled (f :: outer) (xs ++ .start (.node f.leaf) false :: ys)

theorem Frame.Spelled.opened {frames : List Frame} {steps : List BuildStep}
    (h : Spelled frames steps) (leaf : Leaf) :
    Spelled (⟨leaf, .nil⟩ :: frames) (steps ++ [.start (.node leaf) false]) :=
  .cons (f := ⟨leaf, .nil⟩) h .nil

theorem Frame.Spelled.add {f : Frame} {outer : List Frame} {row : Row} {xs ys : List BuildStep}
    (h : Spelled (f :: outer) xs) (hrow : row.Spelled ys) :
    Spelled (Frame.add (f :: outer) row) (xs ++ ys) := by
  cases h with
  | cons houter hdone =>
      rw [List.append_assoc, List.cons_append]
      exact .cons houter (hdone.append hrow)

/-- As long as a node is open, a start or an end either leaves one open or completes the
outermost one, and has spelled it then. -/
theorem Frame.Spelled.step {f : Frame} {outer frames' : List Frame} {steps : List BuildStep}
    {st : BuildStep} {completed : Option (Leaf × Row)} (h : Spelled (f :: outer) steps)
    (hstep : Frame.step (f :: outer) st = .ok (frames', completed)) :
    (completed = none ∧ Spelled frames' (steps ++ [st])) ∨
      ∃ leaf below, completed = some (leaf, below) ∧ frames' = [] ∧
        (Row.node leaf below .nil).Spelled (steps ++ [st]) := by
  match outer, st with
  | _, .start .null false => cases hstep
  | _, .start .null true =>
      cases hstep
      exact .inl ⟨rfl, h.add (.null .nil)⟩
  | _, .start (.node leaf) true =>
      cases hstep
      exact .inl ⟨rfl, h.add (.leaf .nil)⟩
  | _, .start (.node leaf) false =>
      cases hstep
      exact .inl ⟨rfl, h.opened leaf⟩
  | [], .close =>
      cases hstep
      cases h with
      | cons houter hdone =>
          cases houter
          exact .inr ⟨_, _, rfl, rfl, .node hdone .nil⟩
  | g :: outer, .close =>
      cases hstep
      cases h with
      | cons houter hdone =>
          refine .inl ⟨rfl, ?_⟩
          rw [List.append_assoc, List.cons_append]
          exact houter.add (.node hdone .nil)

theorem Frame.exists_cons_of_step {f : Frame} {outer frames' : List Frame} {st : BuildStep}
    (hstep : step (f :: outer) st = .ok (frames', none)) : ∃ g inner, frames' = g :: inner := by
  match outer, st with
  | _, .start .null false => cases hstep
  | _, .start .null true =>
      cases hstep
      exact ⟨_, _, rfl⟩
  | _, .start (.node leaf) true =>
      cases hstep
      exact ⟨_, _, rfl⟩
  | _, .start (.node leaf) false =>
      cases hstep
      exact ⟨_, _, rfl⟩
  | [], .close => cases hstep
  | g :: outer, .close =>
      cases hstep
      exact ⟨_, _, rfl⟩

theorem Row.exists_spelled (row : Row) : ∃ steps, row.Spelled steps := by
  induction row with
  | nil => exact ⟨_, .nil⟩
  | null next ih =>
      obtain ⟨steps, h⟩ := ih
      exact ⟨_, .null h⟩
  | node leaf below next ihBelow ihNext =>
      obtain ⟨inner, hbelow⟩ := ihBelow
      obtain ⟨steps, hnext⟩ := ihNext
      exact ⟨_, .node hbelow hnext⟩

theorem Scaffold.shows_foldl_after {s : Scaffold} {frames frames' : List Frame}
    {steps : List BuildStep} (h : s.Shows frames) (hruns : Frame.Runs frames steps frames') :
    (steps.foldl Scaffold.after s).Shows frames' := by
  induction hruns generalizing s with
  | nil => exact h
  | @cons _ _ _ step _ hstep _ ih =>
      obtain ⟨s', hs', hshows⟩ := step_ok_of_shows h hstep
      rw [List.foldl_cons, after, hs']
      exact ih hshows

/-! ## Completed trees -/

namespace Tree

/-- A completed tree is a node and a row, planted. -/
theorem Built.eq_plant {t : Tree} (h : t.Built) : ∃ leaf below, t = plant leaf below := by
  obtain ⟨steps, last, s, hlast⟩ := h
  obtain ⟨frames, hshows⟩ := Scaffold.exists_shows_foldl_after Scaffold.shows_empty steps
  cases hframes : Frame.step frames last with
  | error error =>
      have hstep := Scaffold.step_of_shows hshows last
      rw [hframes, hlast] at hstep
      cases hstep
  | ok result =>
      obtain ⟨frames', completed⟩ := result
      obtain ⟨s', hs', _⟩ := Scaffold.step_ok_of_shows hshows hframes
      rw [hlast] at hs'
      injection hs' with hresult
      injection hresult with _ htree
      cases completed with
      | none => cases htree
      | some tree => exact ⟨tree.1, tree.2, Option.some.inj htree⟩

theorem built_plant (leaf : Leaf) (below : Row) : (plant leaf below).Built := by
  obtain ⟨steps, hspelled⟩ := (Row.node leaf below .nil).exists_spelled
  obtain ⟨init, last, frames, _, hruns, hlast⟩ := Frame.completes_of_spelled hspelled
  have hshows := Scaffold.shows_foldl_after Scaffold.shows_empty hruns
  obtain ⟨s, hs, _⟩ := Scaffold.step_ok_of_shows hshows hlast
  exact ⟨init, last, s, hs⟩

end Tree

end TreeAssay
