import TreeAssay.Proofs.Outcome
import TreeAssay.Proofs.Reduction.Phases
import TreeAssay.Proofs.Text.Decimal
/-!
# Reductions compute meanings

Carrying out the plans of a labelled tree gives its meaning: the same value, or the
fault that evaluation meets first.
-/

namespace TreeAssay

/-! ## Actions on the values of a row -/

theorem mapError_bind {α β : Type} (x : Except CalcFault α) (f : α → Except CalcFault β) :
    (x >>= f).mapError CalcFault.error = x.mapError CalcFault.error >>= fun a =>
      (f a).mapError CalcFault.error := by
  cases x <;> rfl

theorem mapError_map {α β : Type} (x : Except CalcFault α) (f : α → β) :
    (f <$> x).mapError CalcFault.error = f <$> x.mapError CalcFault.error := by
  cases x <;> rfl

theorem CalcFault.error_injective {fault fault' : CalcFault} (h : fault.error = fault'.error) :
    fault = fault' := by
  cases fault <;> cases fault' <;> simp_all [CalcFault.error]

namespace Operation

theorem checked_ofInt? (op : Operation) (n : Int) :
    op.checked (Word.ofInt? n) = Value.int <$> (op.exact n).mapError CalcFault.error := by
  rw [Word.ofInt?, exact]
  split <;> rfl

theorem addTo_int (op : Operation) (total n : Int64) :
    op.addTo total (.int n) = (op.exact (total.toInt + n.toInt)).mapError CalcFault.error := by
  have hadd : Word.add? total n = Word.ofInt? (total.toInt + n.toInt) := rfl
  unfold addTo
  dsimp only [intOperand, Value.int?, bind, Except.bind]
  rw [hadd, Word.ofInt?, exact]
  by_cases h : Word.Fits (total.toInt + n.toInt)
  · rw [if_pos h, if_pos h]
    rfl
  · rw [if_neg h, if_neg h]
    rfl

theorem foldlM_addTo (op : Operation) (ns : List Int64) (total : Int64) :
    (ns.map Value.int).foldlM op.addTo total =
      (ns.foldlM (fun total n => op.exact (total.toInt + n.toInt)) total).mapError
        CalcFault.error := by
  induction ns generalizing total with
  | nil => rfl
  | cons n ns ih =>
      rw [List.map_cons, List.foldlM_cons, List.foldlM_cons, addTo_int, mapError_bind]
      simp only [ih]

theorem foldlM_joinTo (op : Operation) (texts : List String) (joined : String) :
    (texts.map Value.text).foldlM op.joinTo joined = .ok (joined ++ String.join texts) := by
  induction texts generalizing joined with
  | nil =>
      rw [String.join_nil, String.append_empty]
      rfl
  | cons s texts ih =>
      rw [String.join_cons, ← String.append_assoc, ← ih]
      rfl

theorem exact_toInt (op : Operation) (n : Int64) : op.exact n.toInt = .ok n := by
  have h := Word.ofInt?_toInt n
  rw [Word.ofInt?] at h
  rw [exact]
  split <;> simp_all

end Operation

theorem Row.length_of_integers {row : Row} {kind : Kind} (hderives : row.Derives kind)
    {ns : List Int64} (h : row.integers = .ok ns) : ns.length = row.length := by
  induction row generalizing ns with
  | nil =>
      cases h
      rfl
  | null next ih => exact hderives.elim
  | node leaf below next _ ih =>
      rw [integers] at h
      cases hlater : next.integers with
      | error fault => simp [hlater, bind, Except.bind] at h
      | ok later =>
          cases hn : leaf.integer below.integers with
          | error fault => simp [hlater, hn, bind, Except.bind] at h
          | ok n =>
              simp only [hlater, hn, bind, Except.bind, pure, Except.pure, Except.ok.injEq] at h
              rw [← h, List.length_cons, ih hderives.2 hlater, length]

theorem Row.values_int_eq_ok {row : Row} {values : List Value} (h : row.values .int = .ok values) :
    ∃ ns, row.integers = .ok ns ∧ values = ns.map .int := by
  obtain ⟨ns, hns, hvalues⟩ := map_eq_ok.1 h
  exact ⟨ns, hns, hvalues.symm⟩

theorem Row.values_string_eq_ok {row : Row} {values : List Value}
    (h : row.values .string = .ok values) :
    ∃ texts, row.texts = .ok texts ∧ values = texts.map .text := by
  obtain ⟨texts, htexts, hvalues⟩ := map_eq_ok.1 h
  exact ⟨texts, htexts, hvalues.symm⟩

namespace Pattern

variable {p : Pattern} {leaf : Leaf} {below : Row}

/-- The operands of a pattern: the values of the row below as the kind that the
pattern takes, or none. -/
def HasOperands (p : Pattern) (below : Row) (operands : List Value) : Prop :=
  match p.operands.kind? with
  | none => operands = []
  | some kind => below.values kind = .ok operands

private theorem exists_two {ns : List Int64} {kind : Kind} (hderives : below.Derives kind)
    (haccepts : (Operands.exactly 2 kind).accepts below.length) (h : below.integers = .ok ns) :
    ∃ a b, ns = [a, b] := by
  have hlength : ns.length = 2 := (Row.length_of_integers hderives h).trans (eq_of_beq haccepts)
  match ns, hlength with
  | [a, b], _ => exact ⟨a, b, rfl⟩

theorem apply_of_takes (htakes : p.Takes leaf below.length fun operand => below.Derives operand)
    {operands : List Value} (hoperands : p.HasOperands below operands) :
    p.action.apply leaf operands = (leaf.value below p.produces).mapError CalcFault.error := by
  obtain ⟨op, payload⟩ := leaf
  obtain ⟨hop, haccepts, hguard, hderives⟩ := htakes
  simp only at hop
  subst hop
  cases p with
  | intLiteral =>
      match payload, hguard with
      | some (.int n), _ => rfl
  | shortLiteral =>
      match payload, hguard with
      | some (.int n), _ => rfl
  | stringLiteral =>
      match payload, hguard with
      | some (.text s), _ => rfl
  | add =>
      obtain ⟨ns, hns, rfl⟩ := Row.values_int_eq_ok hoperands
      simp only [action, Action.apply, op, produces, Leaf.value, Leaf.integer, hns,
        Operation.foldlM_addTo, mapError_map]
      rfl
  | addStrict =>
      obtain ⟨ns, hns, rfl⟩ := Row.values_int_eq_ok hoperands
      obtain ⟨a, b, rfl⟩ := exists_two (hderives _ rfl) haccepts hns
      simp only [action, Action.apply, op, produces, Leaf.value, Leaf.integer, hns,
        Operation.foldlM_addTo, mapError_map]
      simp only [List.foldlM_cons, List.foldlM_nil, Int64.toInt_zero, Int.zero_add,
        Operation.exact_toInt, bind, Except.bind, Leaf.ofTwo]
      cases Operation.addStrict.exact (a.toInt + b.toInt) <;> rfl
  | subtract =>
      obtain ⟨ns, hns, rfl⟩ := Row.values_int_eq_ok hoperands
      obtain ⟨a, b, rfl⟩ := exists_two (hderives _ rfl) haccepts hns
      simp only [produces, Leaf.value, op, Leaf.integer, hns, mapError_map]
      exact Operation.checked_ofInt? _ _
  | multiply =>
      obtain ⟨ns, hns, rfl⟩ := Row.values_int_eq_ok hoperands
      obtain ⟨a, b, rfl⟩ := exists_two (hderives _ rfl) haccepts hns
      simp only [produces, Leaf.value, op, Leaf.integer, hns, mapError_map]
      exact Operation.checked_ofInt? _ _
  | divide =>
      obtain ⟨ns, hns, rfl⟩ := Row.values_int_eq_ok hoperands
      obtain ⟨a, b, rfl⟩ := exists_two (hderives _ rfl) haccepts hns
      simp only [action, Action.apply, op, List.map_cons, List.map_nil, Operation.intPair,
        Operation.intOperand, Value.int?, produces, Leaf.value, Leaf.integer, hns, bind,
        Except.bind, pure, Except.pure, Leaf.ofTwo]
      by_cases hb : b = 0
      · rw [if_pos hb, if_pos hb]
        rfl
      · rw [if_neg hb, if_neg hb, mapError_map]
        exact Operation.checked_ofInt? _ _
  | negate =>
      obtain ⟨ns, hns, rfl⟩ := Row.values_int_eq_ok hoperands
      have hlength := Row.length_of_integers (hderives _ rfl) hns
      obtain ⟨a, rfl⟩ := List.length_eq_one_iff.1 (hlength.trans (eq_of_beq haccepts))
      simp only [produces, Leaf.value, op, Leaf.integer, hns, mapError_map]
      exact Operation.checked_ofInt? _ _
  | concat =>
      obtain ⟨texts, htexts, rfl⟩ := Row.values_string_eq_ok hoperands
      simp only [action, Action.apply, op, produces, Leaf.value, Leaf.text, htexts,
        Operation.foldlM_joinTo, String.empty_append]
      rfl

theorem value_of_error (hop : leaf.op = p.op) {kind : Kind} (hkind : p.operands.kind? = some kind)
    {fault : CalcFault} (h : below.values kind = .error fault) :
    leaf.value below p.produces = .error fault := by
  have hints : kind = .int → below.integers = .error fault := by
    rintro rfl
    exact map_eq_error.1 h
  have htexts : kind = .string → below.texts = .error fault := by
    rintro rfl
    exact map_eq_error.1 h
  cases p <;> simp only [Pattern.operands, Operands.kind?, Option.some.injEq, reduceCtorEq] at hkind
  case concat =>
      simp only [Leaf.value, produces, Leaf.text, hop, Pattern.op, htexts hkind.symm]
      rfl
  all_goals
    simp only [Leaf.value, produces, Leaf.integer, hop, Pattern.op, hints hkind.symm]
    rfl

/-- What does not produce a text is shown in decimal. -/
theorem text_of_produces (hop : leaf.op = p.op) (hproduces : p.produces ≠ .string)
    (integers : Except CalcFault (List Int64)) (texts : Except CalcFault (List String)) :
    leaf.text integers texts = (fun n => toString n.toInt) <$> leaf.integer integers := by
  simp only [Leaf.text, hop]
  cases p <;> simp only [produces, ne_eq, not_true_eq_false] at hproduces <;>
    cases leaf.integer integers <;> rfl

variable (below) in
theorem convert_of_path? (hop : leaf.op = p.op) {kind : Kind} {path : List Conversion}
    (hpath : p.produces.path? kind = some path) :
    ((leaf.value below p.produces).mapError CalcFault.error >>= fun value =>
        path.reverse.foldlM (fun value conversion => conversion.apply value) value) =
      (leaf.value below kind).mapError CalcFault.error := by
  have hsame (kind : Kind) : ((leaf.value below kind).mapError CalcFault.error >>= fun value =>
      [].foldlM (fun value (conversion : Conversion) => conversion.apply value) value) =
        (leaf.value below kind).mapError CalcFault.error := by
    cases leaf.value below kind <;> rfl
  by_cases hstring : p.produces = .string
  · rw [hstring] at hpath ⊢
    cases kind <;> simp [Kind.path?] at hpath
    subst hpath
    exact hsame .string
  · have htext : leaf.value below .string =
        (fun n => .text (Decimal.ofInt64 n)) <$> leaf.integer below.integers := by
      simp only [Leaf.value, text_of_produces hop hstring, Decimal.ofInt64_eq_toString]
      cases leaf.integer below.integers <;> rfl
    have hint : leaf.value below p.produces = .int <$> leaf.integer below.integers := by
      cases hproduces : p.produces <;> first | rfl | exact absurd hproduces hstring
    rw [hint]
    cases kind with
    | int =>
        have : path = [] ∨ path = [.widen] := by
          cases hproduces : p.produces <;> simp_all [Kind.path?]
        rcases this with rfl | rfl
        · exact hsame .int
        · cases h : leaf.integer below.integers <;> simp only [Leaf.value, h] <;> rfl
    | short =>
        have : path = [] := by
          cases hproduces : p.produces <;> simp_all [Kind.path?]
        subst this
        exact hsame .short
    | string =>
        have : path = [.format] ∨ path = [.format, .widen] := by
          cases hproduces : p.produces <;> simp_all [Kind.path?]
        rw [htext]
        rcases this with rfl | rfl <;> cases leaf.integer below.integers <;> rfl

theorem value_of_error_of_path? (hop : leaf.op = p.op) {operand kind : Kind}
    {path : List Conversion} (hpath : p.produces.path? kind = some path)
    (hkind : p.operands.kind? = some operand) {fault : CalcFault}
    (h : below.values operand = .error fault) : leaf.value below kind = .error fault := by
  have hconvert := convert_of_path? below hop hpath
  rw [value_of_error hop hkind h] at hconvert
  cases hvalue : leaf.value below kind with
  | ok value =>
      rw [hvalue] at hconvert
      have hne : (Except.error fault.error : Except ReductionError Value) = .ok value := hconvert
      cases hne
  | error fault' =>
      rw [hvalue] at hconvert
      have heq : fault.error = fault'.error := Except.error.inj hconvert
      rw [CalcFault.error_injective heq]

end Pattern

/-! ## The phases of a labelled tree -/

theorem Leaf.chain?_of_takes {leaf : Leaf} {below : Row} {kind : Kind} {p : Pattern}
    {path : List Conversion}
    (htakes : p.Takes leaf below.length fun operand => below.Derives operand)
    (hpath : p.produces.path? kind = some path) :
    (leaf.table below.tables).chain? kind = some (path, p) := by
  have htakes' : p.Takes leaf below.tables.length
      fun operand => ∀ table ∈ below.tables, CostTable.Offers operand table :=
    ⟨htakes.op, by rw [Row.length_tables]; exact htakes.accepts, htakes.guard,
      fun operand h => Row.derives_iff_tables.1 (htakes.operands operand h)⟩
  obtain ⟨cost, hgrown⟩ := Leaf.table_of_takes htakes'
  rw [hgrown, CostTable.chain?_grown, hpath, Option.map_some]

theorem Row.hasNull_of_derives {row : Row} {kind : Kind} (h : row.Derives kind) :
    row.hasNull = false := by
  induction row with
  | nil => rfl
  | null next ih => exact h.elim
  | node leaf below next _ ih => exact ih h.2

theorem Plan.carryOut_of_takes {p : Pattern} {path : List Conversion} {leaf : Leaf} {below : Row}
    {kind : Kind} {operands : List Value}
    (htakes : p.Takes leaf below.length fun operand => below.Derives operand)
    (hpath : p.produces.path? kind = some path) (hoperands : p.HasOperands below operands) :
    (Plan.mk path p).carryOut leaf operands =
      (leaf.value below kind).mapError CalcFault.error := by
  rw [carryOut, Pattern.apply_of_takes htakes hoperands]
  exact Pattern.convert_of_path? below htakes.op hpath

/-- A visit of a node that derives the kind asked for ends well, and what it chooses comes to the
value of the node, if what is chosen below it comes to the values of the row there. -/
theorem Leaf.visit_of_derives {s : States} {labels : Labels StateId} {leaf : Leaf} {below : Row}
    {visitBelow : Kind → Except ReductionError Agenda} {id : Nat} {kind : Kind}
    (htable : s.tableOf? labels id = some (leaf.table below.tables))
    (hderives : leaf.Derives below.length (fun operand => below.Derives operand) kind)
    (hbelow : ∀ operand, below.Derives operand → ∃ inner, visitBelow operand = .ok inner ∧
      inner.values = (below.values operand).mapError CalcFault.error) :
    ∃ plan inner, leaf.visit s labels below visitBelow id kind = .ok (plan, inner) ∧
      inner.values >>= plan.carryOut leaf =
        (leaf.value below kind).mapError CalcFault.error := by
  obtain ⟨p, path, htakes, hpath⟩ := Leaf.derives_iff.1 hderives
  rw [Leaf.visit, htable]
  simp only [Leaf.chain?_of_takes htakes hpath]
  cases hkind : p.operands.kind? with
  | none =>
      exact ⟨⟨path, p⟩, .nil, rfl,
        Plan.carryOut_of_takes htakes hpath (by rw [Pattern.HasOperands, hkind])⟩
  | some operand =>
      have hderivesBelow := htakes.operands operand hkind
      obtain ⟨inner, hinner, hvalues⟩ := hbelow operand hderivesBelow
      refine ⟨⟨path, p⟩, inner, ?_, ?_⟩
      · simp only [Row.hasNull_of_derives hderivesBelow, hinner]
        rfl
      · rw [hvalues]
        cases hoperands : below.values operand with
        | error fault =>
            rw [Pattern.value_of_error_of_path? htakes.op hpath hkind hoperands]
            rfl
        | ok operands =>
            exact Plan.carryOut_of_takes htakes hpath (by rwa [Pattern.HasOperands, hkind])

/-- On a labelled row that derives a kind the first phase cannot fail, and the second comes to the
values of the row. -/
theorem Row.agenda_of_derives {s : States} {labels : Labels StateId} {row : Row} {start : Nat}
    (hlabelled : s.Labelled labels start row) {kind : Kind} (hderives : row.Derives kind) :
    ∃ agenda, row.agenda s labels start kind = .ok agenda ∧
      agenda.values = (row.values kind).mapError CalcFault.error := by
  induction row generalizing start kind with
  | nil => exact ⟨.nil, rfl, by cases kind <;> rfl⟩
  | null next ih => exact hderives.elim
  | node leaf below next ihBelow ihNext =>
      obtain ⟨htable, hlabelledBelow, hlabelledNext⟩ := hlabelled
      obtain ⟨hderivesNode, hderivesNext⟩ := hderives
      obtain ⟨later, hlater, hlaterValues⟩ := ihNext hlabelledNext hderivesNext
      obtain ⟨plan, inner, hvisit, hvalue⟩ := Leaf.visit_of_derives htable hderivesNode
        fun operand => ihBelow hlabelledBelow
      refine ⟨.node leaf plan inner later, ?_, ?_⟩
      · rw [Row.agenda, hlater, ok_bind, hvisit]
        rfl
      · rw [Agenda.values, hlaterValues, Row.values_node, mapError_bind]
        congr 1
        funext results
        rw [← bind_assoc]
        simp only [mapError_bind, ← hvalue]
        rfl

theorem Tree.reduce_plant {s : States} {labels : Labels StateId} {leaf : Leaf} {below : Row}
    (hlabelled : s.Labelled labels 0 (.node leaf below .nil)) {goal : Kind}
    (hderives : (Tree.plant leaf below).Derives goal) :
    (Tree.plant leaf below).reduce s labels goal =
      ((Tree.plant leaf below).meaning goal).mapError CalcFault.error := by
  obtain ⟨htable, hlabelledBelow, _⟩ := hlabelled
  rw [Derives, below_plant] at hderives
  obtain ⟨plan, inner, hvisit, hvalue⟩ := Leaf.visit_of_derives htable hderives
    fun operand => Row.agenda_of_derives hlabelledBelow
  rw [reduce_plant_in_phases, reduceInPhases, agenda_plant, hvisit, meaning, below_plant]
  exact hvalue

/-- Labelling a completed tree and then reducing it gives the meaning of the tree, or
the fault that its evaluation meets first, whatever was labelled before and after.  The reduction
changes nothing. -/
theorem reduce_label {t : Tree} (ht : t.Built) {s s' : States} (hs : States.empty.Leads s)
    (labels : Labels StateId) (hs' : (calculator.label s (some t) labels).1.Leads s')
    {goal : Kind} (hderives : t.Derives goal) :
    calculator.reduce s' (some t) (calculator.label s (some t) labels).2 goal =
      (s', (t.meaning goal).mapError CalcFault.error) := by
  obtain ⟨leaf, below, rfl⟩ := ht.eq_plant
  obtain ⟨hsound, _⟩ := hs.spec States.sound_empty
  obtain ⟨hsound', _, hlabelled, _⟩ := States.label_plant hsound leaf below labels
  obtain ⟨_, hext⟩ := hs'.spec hsound'
  exact congrArg (s', ·) (Tree.reduce_plant (hlabelled.mono hext fun _ _ _ => rfl) hderives)

/-- Two operands fail, and the last one is the one that is reported. -/
theorem reduce_label_overflow :
    let quotient : Row → Row := .node ⟨.divide, none⟩
      (.node ⟨.intLiteral, some (.int 1)⟩ .nil (.node ⟨.shortLiteral, some (.int 0)⟩ .nil .nil))
    let negation : Row := .node ⟨.negate, none⟩
      (.node ⟨.intLiteral, some (.int Int64.minValue)⟩ .nil .nil) .nil
    let t := Tree.plant ⟨.concat, none⟩ (quotient negation)
    let labelled := calculator.label .empty (some t) .empty
    t.Built ∧ States.empty.Leads .empty ∧ labelled.1.Leads labelled.1 ∧ t.Derives .string ∧
      calculator.reduce labelled.1 (some t) labelled.2 .string =
        (labelled.1, .error (.overflow .negate)) := by
  intro quotient negation t labelled
  have hone {n : Int64} : Leaf.Derives ⟨.intLiteral, some (.int n)⟩ 0 (Row.nil.Derives ·) .int :=
    .intLiteral rfl rfl
  have hzero : Leaf.Derives ⟨.shortLiteral, some (.int 0)⟩ 0 (Row.nil.Derives ·) .int :=
    .widen (.shortLiteral rfl (by decide) (by decide) rfl)
  have hderives : t.Derives .string := by
    rw [Tree.Derives, Tree.below_plant]
    exact .concat rfl (by decide)
      ⟨.format (.binary (by decide) rfl ⟨hone, hzero, trivial⟩),
        .format (.negate rfl rfl ⟨hone, trivial⟩), trivial⟩
  refine ⟨Tree.built_plant _ _, .refl, .refl, hderives, ?_⟩
  rw [reduce_label (Tree.built_plant _ _) .refl .empty .refl hderives, Tree.meaning,
    Tree.below_plant]
  rfl

end TreeAssay
