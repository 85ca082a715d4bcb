import Mathlib.Data.List.Forall2
import TreeAssay.Proofs.Suite.Grammar
/-!
# What is loaded

The testcases of a loaded suite are the ones that start in its lines, each with the nodes
that start before the next one does.  The nodes and their child slots are read off those
lines by looking ahead from each start, without a stack.
-/

namespace TreeAssay

namespace BuildStep

/-- The child slots of a node, looking ahead from its start, where `depth` nodes are open
inside it and the next node to start has the number `id`. -/
def slotsAhead (id depth : Nat) : List BuildStep → List Slot
  | [] => []
  | .close :: rest =>
    match depth with
    | 0 => []
    | depth + 1 => slotsAhead id depth rest
  | .start .null _ :: rest =>
    (if depth = 0 then [.null] else []) ++ slotsAhead id depth rest
  | .start (.node _) selfClosing :: rest =>
    (if depth = 0 then [.node id] else []) ++
      slotsAhead (id + 1) (if selfClosing then depth else depth + 1) rest

/-- The nodes that start, in order, numbered from `id`. -/
def nodesAhead (id : Nat) : List BuildStep → List Node
  | [] => []
  | .start (.node leaf) selfClosing :: rest =>
    ⟨leaf, (if selfClosing then [] else slotsAhead (id + 1) 0 rest).toArray⟩ ::
      nodesAhead (id + 1) rest
  | .start .null _ :: rest => nodesAhead id rest
  | .close :: rest => nodesAhead id rest

theorem map_toLeaf_nodesAhead (id : Nat) (steps : List BuildStep) :
    (nodesAhead id steps).map Node.toLeaf = steps.flatMap leaves := by
  induction steps generalizing id with
  | nil => rfl
  | cons st steps ih =>
      rw [List.flatMap_cons]
      match st with
      | .start (.node leaf) _ => rw [nodesAhead, List.map_cons, ih, leaves, List.singleton_append]
      | .start .null _ => exact ih id
      | .close => exact ih id

theorem nodesAhead_eq_nil (id : Nat) {steps : List BuildStep} :
    nodesAhead id steps = [] ↔ ∀ leaf selfClosing, .start (.node leaf) selfClosing ∉ steps := by
  have hleaves : nodesAhead id steps = [] ↔ ∀ st ∈ steps, st.leaves = [] := by
    rw [← List.flatMap_eq_nil_iff, ← map_toLeaf_nodesAhead id, List.map_eq_nil_iff]
  rw [hleaves]
  constructor
  · intro h leaf selfClosing hmem
    have := h _ hmem
    cases this
  · intro h st hst
    match st with
    | .start (.node leaf) selfClosing => exact absurd hst (h leaf selfClosing)
    | .start .null _ => rfl
    | .close => rfl

private theorem if_append_if (p : Prop) [Decidable p] (front middle back : List Slot) :
    (if p then front else []) ++ ((if p then middle else []) ++ back) =
      (if p then front ++ middle else []) ++ back := by
  by_cases h : p
  · rw [if_pos h, if_pos h, if_pos h, List.append_assoc]
  · rw [if_neg h, if_neg h, if_neg h, List.nil_append]

theorem slotsAhead_of_spelled {row : Row} {steps : List BuildStep} (h : row.Spelled steps)
    (id depth : Nat) (rest : List BuildStep) :
    slotsAhead id depth (steps ++ rest) =
      (if depth = 0 then row.slots id else []) ++ slotsAhead (id + row.size) depth rest := by
  induction h generalizing id depth rest with
  | nil => cases depth <;> rfl
  | null _ ih =>
      rw [List.cons_append, slotsAhead, ih, Row.size, if_append_if]
      rfl
  | leaf _ ih =>
      rw [List.cons_append, slotsAhead, if_pos rfl, ih, Row.size, Row.size, Nat.add_zero,
        ← Nat.add_assoc, if_append_if]
      rfl
  | @node leaf below next inner steps _ _ ihBelow ihNext =>
      have hclose : slotsAhead (id + 1 + below.size) (depth + 1) (.close :: (steps ++ rest)) =
          slotsAhead (id + 1 + below.size) depth (steps ++ rest) := by
        rw [slotsAhead]
      rw [List.append_assoc, List.cons_append, List.cons_append, slotsAhead,
        if_neg Bool.false_ne_true, ihBelow, if_neg (Nat.succ_ne_zero depth), List.nil_append,
        hclose, ihNext, Row.size, ← Nat.add_assoc, ← Nat.add_assoc, if_append_if]
      rfl

theorem nodesAhead_of_spelled {row : Row} {steps : List BuildStep} (h : row.Spelled steps)
    (id : Nat) (rest : List BuildStep) :
    nodesAhead id (steps ++ rest) = row.nodes id ++ nodesAhead (id + row.size) rest := by
  induction h generalizing id rest with
  | nil => rfl
  | null _ ih => exact ih id rest
  | leaf _ ih =>
      rw [List.cons_append, nodesAhead, if_pos rfl, ih, Row.size, Row.size, Nat.add_zero,
        ← Nat.add_assoc]
      rfl
  | @node leaf below next inner steps hbelow _ ihBelow ihNext =>
      have hslots : slotsAhead (id + 1) 0 (inner ++ .close :: (steps ++ rest)) =
          below.slots (id + 1) := by
        rw [slotsAhead_of_spelled hbelow, if_pos rfl, slotsAhead, List.append_nil]
      rw [List.append_assoc, List.cons_append, List.cons_append, nodesAhead,
        if_neg Bool.false_ne_true, hslots, ihBelow, nodesAhead, ihNext, Row.nodes, Row.size,
        ← Nat.add_assoc, ← Nat.add_assoc]
      simp only [List.cons_append, List.append_assoc]

end BuildStep

namespace Suite

/-! ## Lines and their numbers -/

theorem number_of_locate {done : List Line} {pieces : List (List Char)} {number offset : Nat}
    (hdone : ∀ (i : Nat) (line : Line), done.reverse[i]? = some line → line.number = i + 1)
    (hnumber : number = done.length + 1) {i : Nat} {line : Line}
    (h : (Line.locate number offset done pieces)[i]? = some line) : line.number = i + 1 := by
  induction pieces generalizing done number offset with
  | nil => exact hdone i line h
  | cons piece pieces ih =>
      refine ih ?_ ?_ h
      · intro j other hother
        rw [List.reverse_cons, List.getElem?_append] at hother
        split at hother
        next => exact hdone j other hother
        next hge =>
          rw [List.length_reverse] at hge hother
          rw [List.getElem?_singleton] at hother
          split at hother
          next hzero =>
            cases hother
            dsimp only
            omega
          next => cases hother
      · rw [List.length_cons, hnumber]

theorem number_of_ofText {text : List Char} {i : Nat} {line : Line}
    (h : (Line.ofText text)[i]? = some line) : line.number = i + 1 := by
  have hnone : ∀ (j : Nat) (other : Line), ([] : List Line).reverse[j]? = some other →
      other.number = j + 1 := by
    intro j other hother
    simp at hother
  exact number_of_locate hnone rfl h

/-! ## Blocks -/

/-- A testcase as it starts, and the starts and ends of nodes before the next one does. -/
structure Block where
  heading : Heading
  steps : List BuildStep

/-- The starts and ends of nodes before the next testcase starts. -/
def stepsAhead : List Token → List BuildStep
  | [] => []
  | .testcase _ _ :: _ => []
  | .endTestcase :: rest => stepsAhead rest
  | .node st :: rest => st :: stepsAhead rest

def blocks : List Token → List Block
  | [] => []
  | .testcase heading _ :: rest => ⟨heading, stepsAhead rest⟩ :: blocks rest
  | .endTestcase :: rest => blocks rest
  | .node _ :: rest => blocks rest

theorem stepsAhead_map_node (steps : List BuildStep) (rest : List Token) :
    stepsAhead (steps.map .node ++ rest) = steps ++ stepsAhead rest := by
  induction steps with
  | nil => rfl
  | cons st steps ih => rw [List.map_cons, List.cons_append, stepsAhead, ih, List.cons_append]

theorem blocks_map_node (steps : List BuildStep) (rest : List Token) :
    blocks (steps.map .node ++ rest) = blocks rest := by
  induction steps with
  | nil => rfl
  | cons st steps ih => rw [List.map_cons, List.cons_append, blocks, ih]

theorem stepsAhead_of_forms {tokens : List Token} {contents : List Content}
    (h : Forms tokens contents) : stepsAhead tokens = [] := by
  induction h with
  | nil => rfl
  | stray _ ih => exact ih
  | selfClosing _ _ => rfl
  | closed _ _ _ => rfl
  | unclosed _ => rfl

def nodesOf : Option (Leaf × Row) → List Node
  | none => []
  | some (leaf, below) => (Row.node leaf below .nil).nodes 0

theorem exists_steps_of_areNulls {nulls : List Token} (h : AreNulls nulls) :
    ∃ steps : List BuildStep, nulls = steps.map .node ∧
      ∀ id rest, BuildStep.nodesAhead id (steps ++ rest) = BuildStep.nodesAhead id rest := by
  induction nulls with
  | nil => exact ⟨[], rfl, fun _ _ => rfl⟩
  | cons token nulls ih =>
      obtain ⟨steps, rfl, hsteps⟩ := ih fun token htoken => h token (by simp [htoken])
      refine ⟨.start .null true :: steps, ?_, hsteps⟩
      rw [List.map_cons, ← h token (by simp)]

theorem exists_steps_of_formsBody {body : List Token} {tree : Option (Leaf × Row)}
    (h : FormsBody body tree) :
    ∃ steps : List BuildStep, body = steps.map .node ∧
      BuildStep.nodesAhead 0 steps = nodesOf tree := by
  cases h with
  | bare hnulls =>
      obtain ⟨steps, hbody, hsteps⟩ := exists_steps_of_areNulls hnulls
      have hnodes := hsteps 0 []
      rw [List.append_nil] at hnodes
      exact ⟨steps, hbody, hnodes⟩
  | @tree _ steps _ leaf below hbefore hspelled hafter =>
      obtain ⟨front, rfl, hfront⟩ := exists_steps_of_areNulls hbefore
      obtain ⟨back, rfl, hback⟩ := exists_steps_of_areNulls hafter
      refine ⟨front ++ steps ++ back, by simp only [List.map_append], ?_⟩
      have hnodes := hback (0 + (Row.node leaf below .nil).size) []
      rw [List.append_nil] at hnodes
      rw [List.append_assoc, hfront, BuildStep.nodesAhead_of_spelled hspelled, hnodes,
        BuildStep.nodesAhead, List.append_nil, nodesOf]

/-! ## Loaded testcases -/

/-- The testcase comes from the block: its origin, its name and its expectation from the
line where it starts, its nodes from the lines behind. -/
structure Block.Yields (source : Source) (block : Block) (t : Testcase) : Prop where
  origin : t.origin = ⟨source.name, block.heading.line⟩
  name : t.name = block.heading.name
  expectation : t.expectation = block.heading.expectation
  root : t.root = none ↔ ∀ leaf selfClosing, .start (.node leaf) selfClosing ∉ block.steps
  nodes : ∀ tree, t.root = some tree →
    tree.root = 0 ∧ tree.nodes.toList = BuildStep.nodesAhead 0 block.steps

/-- A tree whose nodes start in these steps has just these nodes, and there is none where no
node starts. -/
theorem plant_of_nodesAhead {steps : List BuildStep} {tree : Option (Leaf × Row)}
    (h : BuildStep.nodesAhead 0 steps = nodesOf tree) :
    ((tree.map fun (leaf, below) => Tree.plant leaf below) = none ↔
        ∀ leaf selfClosing, .start (.node leaf) selfClosing ∉ steps) ∧
      ∀ t, (tree.map fun (leaf, below) => Tree.plant leaf below) = some t →
        t.root = 0 ∧ t.nodes.toList = BuildStep.nodesAhead 0 steps := by
  rw [← BuildStep.nodesAhead_eq_nil 0, h]
  cases tree with
  | none =>
      refine ⟨by simp [nodesOf], ?_⟩
      intro t ht
      cases ht
  | some tree =>
      refine ⟨by simp [nodesOf, Row.nodes], ?_⟩
      intro t ht
      cases ht
      exact ⟨rfl, rfl⟩

theorem yields_of_nodesAhead {source : Source} {heading : Heading} {steps : List BuildStep}
    {tree : Option (Leaf × Row)} (h : BuildStep.nodesAhead 0 steps = nodesOf tree) :
    Block.Yields source ⟨heading, steps⟩ (Content.testcase source ⟨heading, tree⟩) where
  origin := rfl
  name := rfl
  expectation := rfl
  root := (plant_of_nodesAhead h).1
  nodes := (plant_of_nodesAhead h).2

theorem yields_of_forms {source : Source} {tokens : List Token} {contents : List Content}
    (h : Forms tokens contents) :
    List.Forall₂ (Block.Yields source) (blocks tokens)
      (contents.map (Content.testcase source)) := by
  induction h with
  | nil => exact .nil
  | stray _ ih => exact ih
  | selfClosing hrest ih =>
      refine .cons (yields_of_nodesAhead ?_) ih
      rw [stepsAhead_of_forms hrest]
      rfl
  | closed hbody hrest ih =>
      obtain ⟨steps, rfl, hnodes⟩ := exists_steps_of_formsBody hbody
      rw [List.cons_append, blocks, stepsAhead_map_node, blocks_map_node, stepsAhead, blocks,
        stepsAhead_of_forms hrest, List.append_nil]
      exact .cons (yields_of_nodesAhead hnodes) ih
  | unclosed hbody =>
      obtain ⟨steps, rfl, hnodes⟩ := exists_steps_of_formsBody hbody
      have hsteps := stepsAhead_map_node steps []
      have hblocks := blocks_map_node steps []
      rw [List.append_nil, stepsAhead, List.append_nil] at hsteps
      rw [List.append_nil] at hblocks
      rw [blocks, hsteps, hblocks]
      exact .cons (yields_of_nodesAhead hnodes) .nil

/-- The testcases that are loaded are the ones that start in the lines of the suite, in
order, and each has the nodes that start before the next one does, under the numbers that
they have in this order. -/
theorem load_yields {source : Source} {loaded : Loaded} (hload : load source = .ok loaded) :
    (∀ (i : Nat) (line : Line), (Line.ofText source.content.toList)[i]? = some line →
        line.number = i + 1) ∧
      ∃ tokens, Decoded (Line.ofText source.content.toList) tokens ∧
        List.Forall₂ (Block.Yields source) (blocks tokens) loaded.testcases := by
  obtain ⟨tokens, contents, hdecoded, hforms, htestcases⟩ := load_forms hload
  refine ⟨fun i line hline => number_of_ofText hline, tokens, hdecoded, ?_⟩
  rw [htestcases]
  exact yields_of_forms hforms

theorem load_yields_two :
    let source : Source := ⟨"two.xml",
      "<Testcase name=\"a\" type=\"Int\" expected=\"-4\">\n <Node op=\"Negate\">\n  " ++
      "<Node op=\"IntLiteral\" content=\"4\"/>\n  <Node null=\"yes\"/>\n </Node>\n" ++
      "</Testcase>\n<Testcase canProduce=\"Short\"/>\n"⟩
    ∃ loaded, load source = .ok loaded ∧ loaded.testcases.length = 2 ∧
      (∀ (i : Nat) (line : Line), (Line.ofText source.content.toList)[i]? = some line →
        line.number = i + 1) ∧
      ∃ tokens, Decoded (Line.ofText source.content.toList) tokens ∧
        List.Forall₂ (Block.Yields source) (blocks tokens) loaded.testcases := by
  intro source
  have hlength : (load source).toOption.map (·.testcases.length) = some 2 := by
    decide +kernel
  obtain ⟨loaded, hsome, htwo⟩ := Option.map_eq_some_iff.1 hlength
  have hload : load source = .ok loaded := by
    cases h : load source with
    | error rejection =>
        rw [h] at hsome
        cases hsome
    | ok loaded' =>
        rw [h] at hsome
        cases hsome
        rfl
  exact ⟨loaded, hload, htwo, load_yields hload⟩

end Suite

end TreeAssay
