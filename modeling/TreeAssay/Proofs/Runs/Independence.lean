import Mathlib.Data.List.Forall2
import Mathlib.Data.List.Perm.Subperm
import TreeAssay.Proofs.Reduction.Soundness
import TreeAssay.Run
/-!
# Testcases do not influence one another

The calculator numbers the tables that it meets and keeps the numbers from one testcase to
the next.  What came before decides which number a table has and nothing else: two runs
of a testcase report the same, and where they show the labelled tree, the numbers in one
are those in the other under other names.
-/

namespace TreeAssay

/-! ## Outcomes up to their dumps -/

/-- Two outcomes report the same, and their dumps are related. -/
inductive Outcome.Agree (dumps : String → String → Prop) : Outcome → Outcome → Prop
  | succeeded {name} : Agree dumps (.succeeded name) (.succeeded name)
  | mismatch {name expected actual d d'} : dumps d d' →
      Agree dumps (.mismatch name expected actual d) (.mismatch name expected actual d')
  | reductionFailed {name error d d'} : dumps d d' →
      Agree dumps (.reductionFailed name error d) (.reductionFailed name error d')

/-- Both texts are dumps of the tree with a state at every node, and the states of the
second are those of the first, renamed one to one. -/
def Dump.Renamed (tree : Option Tree) (d d' : String) : Prop :=
  ∃ (state? : Nat → Option StateId) (rename : StateId → StateId), rename.Injective ∧
    (∀ t, tree = some t → ∀ id, id < t.size → (state? id).isSome) ∧
    d = render tree (fun id => (state? id).map toString) ∧
    d' = render tree fun id => ((state? id).map rename).map toString

namespace Testcase

/-- What comes of a testcase if functions answer its question.  Its expectation decides which. -/
def outcome (testcase : Testcase) (dump : Unit → String)
    (reduce : Kind → Except ReductionError Value) (canProduce : Kind → Bool) : Outcome :=
  match testcase.expectation with
  | .value kind expected => testcase.judgeResult kind expected dump (reduce kind)
  | .canProduce kind => testcase.judgeReach kind true dump (canProduce kind)
  | .cannotProduce kind => testcase.judgeReach kind false dump (canProduce kind)

/-- What a testcase reports depends on what the reducer answers, not on the dump. -/
theorem outcome_agree {dumps : String → String → Prop} (testcase : Testcase)
    {dump dump' : Unit → String} (hdump : dumps (dump ()) (dump' ()))
    (reduce : Kind → Except ReductionError Value) (canProduce : Kind → Bool) :
    (testcase.outcome dump reduce canProduce).Agree dumps
      (testcase.outcome dump' reduce canProduce) := by
  have hreach (kind : Kind) (wanted : Bool) :
      (testcase.judgeReach kind wanted dump (canProduce kind)).Agree dumps
        (testcase.judgeReach kind wanted dump' (canProduce kind)) := by
    unfold judgeReach
    split
    · exact .succeeded
    · exact .mismatch hdump
  unfold outcome
  cases testcase.expectation with
  | value kind expected =>
      dsimp only [judgeResult]
      cases reduce kind with
      | error error => exact .reductionFailed hdump
      | ok actual =>
          dsimp only
          split
          · exact .succeeded
          · exact .mismatch hdump
  | canProduce kind => exact hreach kind true
  | cannotProduce kind => exact hreach kind false

end Testcase

/-! ## Renaming states -/

namespace States

variable {s s' : States}

/-- The number in `s'` of the table that has a number in `s`.  A number without a table
there goes to one that no table has. -/
def rename (s s' : States) (state : StateId) : StateId :=
  ((s.table? state).bind (s'.states[·]?)).getD ⟨s'.count + state.number⟩

theorem rename_of_table? (hs' : s'.Sound) {state state' : StateId} {table : CostTable}
    (h : s.table? state = some table) (h' : s'.table? state' = some table) :
    s.rename s' state = state' := by
  rw [rename, h, Option.bind_some, (hs' table state').2 h', Option.getD_some]

theorem number_lt_of_table? {state : StateId} {table : CostTable}
    (h : s.table? state = some table) : state.number < s.count :=
  (Array.getElem?_eq_some_iff.1 h).1

/-- Where a number goes: to that of its table, or behind all numbers of tables. -/
theorem rename_cases (hs : s.Sound) (hs' : s'.Sound) (state : StateId) :
    (∃ table, s.states[table]? = some state ∧ s'.table? (s.rename s' state) = some table) ∨
      s.rename s' state = ⟨s'.count + state.number⟩ := by
  cases hfound : (s.table? state).bind (s'.states[·]?) with
  | none => exact .inr (by rw [rename, hfound, Option.getD_none])
  | some state' =>
      obtain ⟨table, htable, hstate'⟩ := Option.bind_eq_some_iff.1 hfound
      refine .inl ⟨table, (hs table state).2 htable, ?_⟩
      rw [rename, hfound, Option.getD_some]
      exact (hs' table state').1 hstate'

theorem rename_injective (hs : s.Sound) (hs' : s'.Sound) : (s.rename s').Injective := by
  intro state₁ state₂ heq
  rcases rename_cases hs hs' state₁ with ⟨table₁, hstate₁, htable₁⟩ | hbehind₁ <;>
    rcases rename_cases hs hs' state₂ with ⟨table₂, hstate₂, htable₂⟩ | hbehind₂
  · rw [heq, htable₂] at htable₁
    cases htable₁
    exact Option.some.inj (hstate₁.symm.trans hstate₂)
  · have hlt := number_lt_of_table? htable₁
    simp only [heq, hbehind₂] at hlt
    omega
  · have hlt := number_lt_of_table? htable₂
    simp only [← heq, hbehind₁] at hlt
    omega
  · have hnumber : s'.count + state₁.number = s'.count + state₂.number := by
      simpa only [hbehind₁, hbehind₂, StateId.mk.injEq] using heq
    obtain ⟨number₁⟩ := state₁
    obtain ⟨number₂⟩ := state₂
    simp only [StateId.mk.injEq] at hnumber ⊢
    omega

/-- Two labellings of a row write the same tables under their numbers. -/
theorem Labelled.get?_rename {a : Arena} {row : Row} {start : Nat} (hholds : a.Holds start row)
    {labels labels' : Labels StateId} (h : s.Labelled labels start row)
    (h' : s'.Labelled labels' start row) (hs' : s'.Sound) {id : Nat} (hle : start ≤ id)
    (hlt : id < start + row.size) :
    (labels.get? id).isSome ∧ labels'.get? id = (labels.get? id).map (s.rename s') := by
  obtain ⟨_, _, _, _, htable⟩ := exists_table_of_holds hholds hle hlt
  obtain ⟨state, hstate, hnumbered⟩ := Option.bind_eq_some_iff.1 (htable s labels h)
  obtain ⟨state', hstate', hnumbered'⟩ := Option.bind_eq_some_iff.1 (htable s' labels' h')
  rw [hstate, hstate', Option.map_some, rename_of_table? hs' hnumbered hnumbered']
  exact ⟨rfl, rfl⟩

theorem renamed_label (hs : s.Sound) (hs' : s'.Sound) (leaf : Leaf) (below : Row) :
    Dump.Renamed (some (.plant leaf below))
      (Dump.ofLabelled (some (.plant leaf below)) (s.label (.plant leaf below) .empty).2)
      (Dump.ofLabelled (some (.plant leaf below)) (s'.label (.plant leaf below) .empty).2) := by
  obtain ⟨hsound, _, hlabelled, hframe⟩ := label_plant hs leaf below .empty
  obtain ⟨hsound', _, hlabelled', hframe'⟩ := label_plant hs' leaf below .empty
  have hinside {id : Nat} (hlt : id < 1 + below.size) :=
    hlabelled.get?_rename (Arena.holds_plant leaf below) hlabelled' hsound' (Nat.zero_le id)
      (by rw [Row.size, Row.size]; omega)
  refine ⟨(s.label (.plant leaf below) .empty).2.get?, _, rename_injective hsound hsound', ?_,
    rfl, ?_⟩
  · intro t ht id hlt
    obtain rfl := Option.some.inj ht
    rw [Tree.size_plant] at hlt
    exact (hinside hlt).1
  · unfold Dump.ofLabelled
    congr 1
    funext id
    by_cases hlt : id < 1 + below.size
    · rw [(hinside hlt).2]
    · rw [hframe id (by omega), hframe' id (by omega), Labels.get?_empty]
      rfl

end States

/-! ## Runs -/

/-- The testcase has no tree, or one that was built. -/
def Testcase.Fit (testcase : Testcase) : Prop :=
  ∀ t, testcase.root = some t → t.Built

theorem Testcase.fit_of_built {testcase : Testcase} {t : Tree} (hroot : testcase.root = some t)
    (ht : t.Built) : testcase.Fit := by
  intro tree htree
  rw [hroot] at htree
  cases htree
  exact ht

theorem Testcase.fit_of_plant {testcase : Testcase} {leaf : Leaf} {below : Row}
    (hroot : testcase.root = some (.plant leaf below)) : testcase.Fit :=
  fit_of_built hroot (Tree.built_plant leaf below)

/-- The one question is asked after the tree was labelled. -/
theorem Reducer.run_fst {State Label : Type} [ToString Label] (reducer : Reducer State Label)
    (testcase : Testcase) (state : State) :
    let labelled := reducer.label state testcase.root .empty
    (reducer.run testcase state).1 =
      testcase.outcome (fun _ => Dump.ofLabelled testcase.root labelled.2)
        (fun kind => (reducer.reduce labelled.1 testcase.root labelled.2 kind).2)
        (fun kind => (reducer.canProduce labelled.1 testcase.root labelled.2 kind).2) := by
  intro labelled
  change (reducer.ask testcase labelled.2 labelled.1).1 = _
  rw [ask, Testcase.outcome]
  cases testcase.expectation <;> rfl

/-- What a calculator answers about a tree, or its absence, does not depend on the trees that it
has labelled before. -/
theorem Testcase.Fit.answers_congr {testcase : Testcase} (hfit : testcase.Fit) {s s' : States}
    (hs : States.empty.Leads s) (hs' : States.empty.Leads s') :
    let labelled := calculator.label s testcase.root .empty
    let labelled' := calculator.label s' testcase.root .empty
    (∀ kind, (calculator.reduce labelled.1 testcase.root labelled.2 kind).2 =
        (calculator.reduce labelled'.1 testcase.root labelled'.2 kind).2) ∧
      ∀ kind, (calculator.canProduce labelled.1 testcase.root labelled.2 kind).2 =
        (calculator.canProduce labelled'.1 testcase.root labelled'.2 kind).2 := by
  cases hroot : testcase.root with
  | none => exact ⟨fun _ => rfl, fun _ => rfl⟩
  | some t =>
      obtain ⟨leaf, below, rfl⟩ := (hfit t hroot).eq_plant
      have hlabelled {s : States} (hs : States.empty.Leads s) :
          (calculator.label s (some (.plant leaf below)) .empty).1.Labelled
            (calculator.label s (some (.plant leaf below)) .empty).2 0 (.node leaf below .nil) :=
        hs.labelled .refl
      exact ⟨congrFun (Tree.reduce_congr (hlabelled hs) (hlabelled hs')),
        congrFun (Tree.canProduce_congr (hlabelled hs) (hlabelled hs'))⟩

theorem run_agree {testcase : Testcase} (hfit : testcase.Fit) {s s' : States}
    (hs : States.empty.Leads s) (hs' : States.empty.Leads s') :
    (calculator.run testcase s).1.Agree (Dump.Renamed testcase.root)
      (calculator.run testcase s').1 := by
  obtain ⟨hreduce, hcan⟩ := hfit.answers_congr hs hs'
  simp only [Reducer.run_fst, hreduce, hcan]
  apply testcase.outcome_agree
  cases hroot : testcase.root with
  | none => exact ⟨fun _ => none, id, Function.injective_id, nofun, rfl, rfl⟩
  | some t =>
      obtain ⟨leaf, below, rfl⟩ := (hfit t hroot).eq_plant
      obtain ⟨hsound, _⟩ := hs.spec States.sound_empty
      obtain ⟨hsound', _⟩ := hs'.spec States.sound_empty
      exact States.renamed_label hsound hsound' leaf below

/-- The calculator is changed where it labels a tree, and not by a question. -/
theorem calculator_run_snd (testcase : Testcase) (s : States) :
    (calculator.run testcase s).2 = (calculator.label s testcase.root .empty).1 := by
  change (calculator.ask testcase _ _).2 = _
  rw [Reducer.ask]
  cases testcase.expectation <;> rfl

theorem States.Leads.run {s s' : States} (h : s.Leads s') (testcase : Testcase) :
    s.Leads (calculator.run testcase s').2 := by
  rw [calculator_run_snd]
  exact h.label testcase.root .empty

theorem Reducer.runAll_cons {State Label : Type} [ToString Label] (reducer : Reducer State Label)
    (testcase : Testcase) (rest : List Testcase) (state : State) :
    reducer.runAll (testcase :: rest) state =
      ((reducer.run testcase state).1 ::
          (reducer.runAll rest (reducer.run testcase state).2).1,
        (reducer.runAll rest (reducer.run testcase state).2).2) := by
  rw [runAll, List.mapM_cons]
  rfl

/-- Every testcase is run on a state that the testcases before it lead to. -/
theorem forall₂_runAll (testcases : List Testcase) {s : States} (hs : States.empty.Leads s) :
    testcases.Forall₂
      (fun testcase outcome =>
        ∃ s', States.empty.Leads s' ∧ (calculator.run testcase s').1 = outcome)
      (calculator.runAll testcases s).1 := by
  induction testcases generalizing s with
  | nil => exact .nil
  | cons testcase rest ih =>
      rw [Reducer.runAll_cons]
      exact .cons ⟨s, hs, rfl⟩ (ih (hs.run testcase))

theorem runAll_agree {testcases : List Testcase} (hfit : ∀ testcase ∈ testcases, testcase.Fit)
    {s s' : States} (hs : States.empty.Leads s) (hs' : States.empty.Leads s') :
    testcases.Forall₂
      (fun testcase outcome => outcome.Agree (Dump.Renamed testcase.root)
        (calculator.run testcase s').1)
      (calculator.runAll testcases s).1 := by
  induction testcases generalizing s with
  | nil => exact .nil
  | cons testcase rest ih =>
      rw [Reducer.runAll_cons]
      exact .cons (run_agree (hfit testcase List.mem_cons_self) hs hs')
        (ih (fun other hmem => hfit other (List.mem_cons_of_mem _ hmem)) (hs.run testcase))

/-- What a testcase reports does not depend on the trees that a calculator has labelled
before, up to the names of the states in a dump.  So in whatever order testcases are run,
and whichever of them are run, each reports what it reports alone. -/
theorem run_independent :
    (∀ testcase : Testcase, testcase.Fit → ∀ s s', States.empty.Leads s →
        States.empty.Leads s' →
        (calculator.run testcase s).1.Agree (Dump.Renamed testcase.root)
          (calculator.run testcase s').1) ∧
      ∀ all chosen : List Testcase, (∀ testcase ∈ all, testcase.Fit) → chosen.Subperm all →
        ∀ s s', States.empty.Leads s → States.empty.Leads s' →
          chosen.Forall₂
            (fun testcase outcome => outcome.Agree (Dump.Renamed testcase.root)
              (calculator.run testcase s').1)
            (calculator.runAll chosen s).1 := by
  refine ⟨fun testcase hfit s s' hs hs' => run_agree hfit hs hs', ?_⟩
  intro all chosen hfit hsub s s' hs hs'
  have hchosen : ∀ testcase ∈ chosen, testcase.Fit := fun testcase hmem =>
    hfit testcase (List.Subperm.subset hsub hmem)
  exact runAll_agree hchosen hs hs'

/-- Two testcases in the other order, on a calculator that has met another tree, and each
of them alone. -/
theorem run_independent_reversed :
    let seven := Tree.plant ⟨.shortLiteral, some (.int 7)⟩ .nil
    let nothing := Tree.plant ⟨.concat, none⟩ (.null .nil)
    let first : Testcase := ⟨"seven", .value .int "8", some seven, ⟨"cases", 1⟩⟩
    let second : Testcase := ⟨"text", .canProduce .string, some seven, ⟨"cases", 5⟩⟩
    let met := (calculator.label .empty (some nothing) .empty).1
    (first.Fit ∧ second.Fit) ∧ States.empty.Leads met ∧ [second, first].Subperm [first, second] ∧
      (calculator.run first met).1.Agree (Dump.Renamed (some seven))
        (calculator.run first .empty).1 ∧
      [second, first].Forall₂
        (fun testcase outcome => outcome.Agree (Dump.Renamed testcase.root)
          (calculator.run testcase .empty).1)
        (calculator.runAll [second, first] met).1 := by
  intro seven nothing first second met
  have hseven : ∀ t, some seven = some t → t.Built := by
    intro t ht
    cases ht
    exact Tree.built_plant _ _
  have hfit : ∀ testcase ∈ [first, second], testcase.Fit := by
    intro testcase hmem
    rcases List.mem_pair.1 hmem with rfl | rfl
    · exact hseven
    · exact hseven
  have hmet : States.empty.Leads met := .label _ _ .refl
  have hsub : [second, first].Subperm [first, second] := (List.Perm.swap first second []).subperm
  refine ⟨⟨hseven, hseven⟩, hmet, hsub, ?_, ?_⟩
  · exact run_independent.1 first hseven met .empty hmet .refl
  · exact run_independent.2 _ _ hfit hsub met .empty hmet .refl

end TreeAssay
