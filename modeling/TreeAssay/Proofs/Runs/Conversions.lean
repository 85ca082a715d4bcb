import TreeAssay.Proofs.Runs.Expectations
/-!
# One tree as several kinds

A short integer is an integer as well, and an integer has a text.  The derivations by which
a tree is reduced toward each of the three kinds are chosen apart from one another, by their
costs, and yet the results are those of converting one into the other.
-/

namespace TreeAssay

/-! ## The meanings of a tree -/

/-- Of what derives an integer the text is that of the integer: the patterns of texts lead to no
integer, since no conversion leads away from texts. -/
theorem Leaf.text_of_derives {leaf : Leaf} {count : Nat} {operands : Kind → Prop}
    (hderives : leaf.Derives count operands .int) (integers : Except CalcFault (List Int64))
    (texts : Except CalcFault (List String)) :
    leaf.text integers texts = (fun n => toString n.toInt) <$> leaf.integer integers := by
  obtain ⟨p, path, htakes, hpath⟩ := Leaf.derives_iff.1 hderives
  have hproduces : p.produces ≠ .string := by
    intro hstring
    rw [hstring] at hpath
    cases hpath
  exact Pattern.text_of_produces htakes.op hproduces integers texts

namespace Tree

variable {t : Tree}

theorem meaning_int : t.meaning .int = t.meaning .short := rfl

theorem meaning_string (hderives : t.Derives .int) :
    (∃ n, t.meaning .int = .ok (.int n) ∧ t.meaning .string = .ok (.text (toString n.toInt))) ∨
      ∃ fault, t.meaning .int = .error fault ∧ t.meaning .string = .error fault := by
  have htext := Leaf.text_of_derives hderives t.below.integers t.below.texts
  rw [meaning, meaning, Leaf.value, Leaf.value, htext]
  cases t.rootNode.toLeaf.integer t.below.integers with
  | ok n => exact .inl ⟨n, rfl, rfl⟩
  | error fault => exact .inr ⟨fault, rfl, rfl⟩

end Tree

/-! ## Testcases -/

/-- Where a tree that derives an integer is asked for a text, only the standard spelling of the
integer is accepted, and that is accepted where the tree is asked for the integer. -/
theorem Testcase.isSuccess_of_string {first second : Testcase} {t : Tree} (ht : t.Built)
    (hderives : t.Derives .int) (hfirst : first.root = some t) (hsecond : second.root = some t)
    {expected : String} (hstring : first.expectation = .value .string expected)
    (hint : second.expectation = .value .int expected) {s s' : States}
    (hs : States.empty.Leads s) (hs' : States.empty.Leads s')
    (hsuccess : (calculator.run first s).1.isSuccess = true) :
    (calculator.run second s').1.isSuccess = true := by
  have hformatted : t.Derives .string := .format hderives
  rw [(fit_of_built hfirst ht).isSuccess_iff_exists hfirst hstring hformatted hs] at hsuccess
  obtain ⟨v, hvalue, hspelled⟩ := hsuccess
  rw [(fit_of_built hsecond ht).isSuccess_iff_exists hsecond hint hderives hs']
  obtain ⟨n, hn, htext⟩ | ⟨fault, _, hfault⟩ := Tree.meaning_string hderives
  · rw [htext] at hvalue
    cases hvalue
    obtain rfl : expected = toString n.toInt := hspelled
    rw [← Decimal.ofInt64_eq_toString]
    exact ⟨.int n, hn, Decimal.spells_ofInt64 n⟩
  · rw [hfault] at hvalue
    cases hvalue

/-! ## Reductions toward several kinds -/

/-- On the labels that were written for a tree, what is produced as a short integer is produced as
an integer, with the same result, and what is produced as an integer is produced as a text: the
integer in decimal, or the same failure.  So what may be expected of such a tree as a text may be
expected of it as an integer, whatever the two calculators have labelled before. -/
theorem conversions_commute {t : Tree} (ht : t.Built) {s s' : States} (hs : States.empty.Leads s)
    (labels : Labels StateId) (hs' : (calculator.label s (some t) labels).1.Leads s') :
    let written := (calculator.label s (some t) labels).2
    let canProduce (kind : Kind) : Bool := (calculator.canProduce s' (some t) written kind).2
    let reduce (kind : Kind) := (calculator.reduce s' (some t) written kind).2
    (canProduce .short = true → canProduce .int = true ∧ reduce .int = reduce .short) ∧
      (canProduce .int = true → canProduce .string = true ∧
        ((∃ n : Int64, reduce .int = .ok (.int n) ∧
            reduce .string = .ok (.text (toString n.toInt))) ∨
          ∃ error, reduce .int = .error error ∧ reduce .string = .error error)) ∧
      (canProduce .int = true → ∀ expected (first second : Testcase),
        first.root = some t → first.expectation = .value .string expected →
        second.root = some t → second.expectation = .value .int expected →
        ∀ s₁ s₂, States.empty.Leads s₁ → States.empty.Leads s₂ →
          (calculator.run first s₁).1.isSuccess = true →
            (calculator.run second s₂).1.isSuccess = true) := by
  obtain ⟨leaf, below, rfl⟩ := ht.eq_plant
  intro written canProduce reduce
  have hlabelled : s'.Labelled written 0 (.node leaf below .nil) := hs.labelled hs'
  have hcan (kind : Kind) : canProduce kind = true ↔ (Tree.plant leaf below).Derives kind :=
    Tree.canProduce_plant hlabelled
  have hreduce {kind : Kind} (hderives : (Tree.plant leaf below).Derives kind) :
      reduce kind = ((Tree.plant leaf below).meaning kind).mapError CalcFault.error :=
    Tree.reduce_plant hlabelled hderives
  refine ⟨fun hshort => ?_, fun hint => ?_, fun hint expected first second hfirst hstring hsecond
    hexpects s₁ s₂ hs₁ hs₂ hsuccess => ?_⟩
  · have hderives := (hcan .short).1 hshort
    have hwidened : (Tree.plant leaf below).Derives .int := .widen hderives
    refine ⟨(hcan .int).2 hwidened, ?_⟩
    rw [hreduce hderives, hreduce hwidened, Tree.meaning_int]
  · have hderives := (hcan .int).1 hint
    have hformatted : (Tree.plant leaf below).Derives .string := .format hderives
    refine ⟨(hcan .string).2 hformatted, ?_⟩
    rw [hreduce hderives, hreduce hformatted]
    obtain ⟨n, hn, htext⟩ | ⟨fault, hfault, hfault'⟩ := Tree.meaning_string hderives
    · rw [hn, htext]
      exact .inl ⟨n, rfl, rfl⟩
    · rw [hfault, hfault']
      exact .inr ⟨fault.error, rfl, rfl⟩
  · exact Testcase.isSuccess_of_string ht ((hcan .int).1 hint) hfirst hsecond hstring hexpects
      hs₁ hs₂ hsuccess

/-- A short integer with a sign, as all three kinds. -/
theorem conversions_commute_literal :
    let t := Tree.plant ⟨.shortLiteral, some (.int (-7))⟩ .nil
    let labelled := calculator.label .empty (some t) .empty
    let canProduce (kind : Kind) : Bool :=
      (calculator.canProduce labelled.1 (some t) labelled.2 kind).2
    let reduce (kind : Kind) := (calculator.reduce labelled.1 (some t) labelled.2 kind).2
    let first : Testcase := ⟨"text", .value .string "-7", some t, ⟨"cases", 1⟩⟩
    let second : Testcase := ⟨"integer", .value .int "-7", some t, ⟨"cases", 4⟩⟩
    t.Built ∧ States.empty.Leads .empty ∧ labelled.1.Leads labelled.1 ∧
      (canProduce .short = true ∧ canProduce .int = true ∧ canProduce .string = true) ∧
      reduce .int = reduce .short ∧
      (∃ n : Int64, reduce .int = .ok (.int n) ∧
        reduce .string = .ok (.text (toString n.toInt))) ∧
      (calculator.run first .empty).1.isSuccess = true ∧
        (calculator.run second labelled.1).1.isSuccess = true := by
  intro t labelled canProduce reduce first second
  have ht : t.Built := Tree.built_plant _ _
  have hderives : t.Derives .short := by
    rw [Tree.Derives, Tree.below_plant]
    exact .shortLiteral rfl (by decide) (by decide) rfl
  have hmeaning : t.meaning .string = .ok (.text "-7") := by
    rw [Tree.meaning, Tree.below_plant]
    rfl
  have hlabelled : labelled.1.Labelled labelled.2 0
      (.node ⟨.shortLiteral, some (.int (-7))⟩ .nil .nil) := States.Leads.labelled .refl .refl
  have hshort : canProduce .short = true := (Tree.canProduce_plant hlabelled).2 hderives
  have htext : t.Derives .string := .format (.widen hderives)
  have hsuccess : (calculator.run first .empty).1.isSuccess = true :=
    ((Testcase.fit_of_plant rfl).isSuccess_iff rfl rfl htext hmeaning .refl).2 rfl
  have hsame : labelled.1.Leads labelled.1 := .refl
  obtain ⟨hwiden, hformat, haccepted⟩ := conversions_commute ht .refl .empty hsame
  obtain ⟨hint, hwidened⟩ := hwiden hshort
  obtain ⟨hstring, hshown⟩ := hformat hint
  have hreached : States.empty.Leads labelled.1 := .label _ _ .refl
  refine ⟨ht, .refl, hsame, ⟨hshort, hint, hstring⟩, hwidened, ?_, hsuccess,
    haccepted hint "-7" first second rfl rfl rfl rfl .empty labelled.1 .refl hreached hsuccess⟩
  obtain hvalue | ⟨error, _, herror⟩ := hshown
  · exact hvalue
  · have hreduce := Tree.reduce_plant hlabelled htext
    rw [hmeaning] at hreduce
    cases hreduce.symm.trans herror

end TreeAssay
