import TreeAssay.Proofs.Suite.Written
/-!
# What is loaded

Every text in a loaded testcase is the value of an attribute, and so it has neither a quote nor a
line feed: what is loaded can be written down again.
-/

namespace TreeAssay

namespace Suite

/-! ## The lines behind the tokens -/

def Token.leaves : Token → List Leaf
  | .node st => st.leaves
  | .testcase _ _ | .endTestcase => []

def Event.attrs? : Event → Option Attributes
  | .startTestcase attrs _ | .startNode attrs _ => some attrs
  | .endTestcase | .endNode => none

theorem eq_ofTag_of_event {line : List Char} {event : Event} {attrs : Attributes}
    (h : Event.ofLine? line = some event) (hattrs : event.attrs? = some attrs) :
    attrs = .ofTag line := by
  rw [← event?_ofLine] at h
  cases hmark : Mark.ofLine line with
  | foreign =>
      rw [hmark] at h
      cases h
  | unreadable subject =>
      rw [hmark] at h
      cases h
  | tag subject form =>
      rw [hmark] at h
      cases subject <;> cases form <;> cases h <;> cases hattrs <;> rfl

theorem Tells.exists_content {line : Line} {token : Token} (h : Tells line token) :
    ∀ l ∈ token.leaves, ∃ op,
      Leaf.ofContent op ((Attributes.ofTag line.text).get? "content") = .ok l := by
  cases h with
  | testcase _ _ => simp [Token.leaves]
  | endTestcase _ => simp [Token.leaves]
  | close _ => simp [Token.leaves, BuildStep.leaves]
  | start hevent henters =>
      obtain rfl := eq_ofTag_of_event hevent rfl
      cases henters with
      | null _ _ => simp [Token.leaves, BuildStep.leaves]
      | @node op leaf _ _ hcarries =>
          simp only [Token.leaves, BuildStep.leaves, List.mem_singleton]
          rintro _ rfl
          exact ⟨op, Leaf.ofContent_eq_ok.2 hcarries⟩

theorem Tells.of_testcase {line : Line} {heading : Heading} {selfClosing : Bool}
    (h : Tells line (.testcase heading selfClosing)) :
    heading.name = ((Attributes.ofTag line.text).get? "name").getD "" ∧
      (Attributes.ofTag line.text).Expects heading.expectation := by
  cases h with
  | testcase hevent hexpects =>
      obtain rfl := eq_ofTag_of_event hevent rfl
      exact ⟨rfl, hexpects⟩

theorem Decoded.exists_tells {lines : List Line} {tokens : List Token} (h : Decoded lines tokens) :
    ∀ token ∈ tokens, ∃ line ∈ lines, Tells line token := by
  induction h with
  | nil => simp
  | skip _ _ ih =>
      intro token htoken
      obtain ⟨line, hline, htells⟩ := ih token htoken
      exact ⟨line, List.mem_cons_of_mem _ hline, htells⟩
  | take htells _ ih =>
      refine List.forall_mem_cons.2 ⟨⟨_, List.mem_cons_self, htells⟩, fun token htoken => ?_⟩
      obtain ⟨line, hline, htells⟩ := ih token htoken
      exact ⟨line, List.mem_cons_of_mem _ hline, htells⟩

theorem FormsBody.leaves {body : List Token} {leaf : Leaf} {below : Row}
    (h : FormsBody body (some (leaf, below))) :
    body.flatMap Token.leaves = leaf :: below.leaves := by
  obtain ⟨steps, rfl, hnodes⟩ := exists_steps_of_formsBody h
  calc (steps.map Token.node).flatMap Token.leaves
      = steps.flatMap BuildStep.leaves := by
        rw [List.flatMap_map]
        rfl
    _ = (BuildStep.nodesAhead 0 steps).map Node.toLeaf :=
        (BuildStep.map_toLeaf_nodesAhead 0 steps).symm
    _ = (Row.node leaf below .nil).leaves := by rw [hnodes, nodesOf, Row.map_toLeaf_nodes]
    _ = leaf :: below.leaves := by rw [Row.leaves, Row.leaves, List.append_nil]

/-- What the tokens of a suite all have, its testcases have. -/
theorem Forms.forall_contents {tokens : List Token} {contents : List Content}
    (h : Forms tokens contents) {P : Token → Prop} (htokens : ∀ token ∈ tokens, P token) :
    ∀ content ∈ contents, (∃ selfClosing, P (.testcase content.heading selfClosing)) ∧
      ∀ leaf below, content.tree = some (leaf, below) →
        ∀ l ∈ leaf :: below.leaves, ∃ token, P token ∧ l ∈ token.leaves := by
  have hbody {body : List Token} {tree : Option (Leaf × Row)} (hforms : FormsBody body tree)
      (hall : ∀ token ∈ body, P token) : ∀ leaf below, tree = some (leaf, below) →
        ∀ l ∈ leaf :: below.leaves, ∃ token, P token ∧ l ∈ token.leaves := by
    rintro leaf below rfl l hl
    rw [← hforms.leaves] at hl
    obtain ⟨token, htoken, hmem⟩ := List.mem_flatMap.1 hl
    exact ⟨token, hall token htoken, hmem⟩
  induction h with
  | nil => simp
  | stray _ ih => exact ih (List.forall_mem_cons.1 htokens).2
  | selfClosing _ ih =>
      obtain ⟨hheading, hrest⟩ := List.forall_mem_cons.1 htokens
      exact List.forall_mem_cons.2 ⟨⟨⟨_, hheading⟩, nofun⟩, ih hrest⟩
  | closed hforms _ ih =>
      rw [List.cons_append, List.forall_mem_cons, List.forall_mem_append,
        List.forall_mem_cons] at htokens
      obtain ⟨hheading, hall, _, hrest⟩ := htokens
      exact List.forall_mem_cons.2 ⟨⟨⟨_, hheading⟩, hbody hforms hall⟩, ih hrest⟩
  | unclosed hforms =>
      rw [List.forall_mem_cons] at htokens
      rw [List.forall_mem_singleton]
      exact ⟨⟨_, htokens.1⟩, hbody hforms htokens.2⟩

/-! ## Loaded testcases -/

/-- The testcase is what some lines of the source say. -/
structure FromLines (source : Source) (testcase : Testcase) : Prop where
  file : testcase.origin.file = source.name
  heading : ∃ line ∈ Line.ofText source.content.toList,
    testcase.name = ((Attributes.ofTag line.text).get? "name").getD "" ∧
      (Attributes.ofTag line.text).Expects testcase.expectation
  leaves : ∀ t, testcase.root = some t → ∃ leaf below, t = .plant leaf below ∧
    ∀ l ∈ leaf :: below.leaves, ∃ line ∈ Line.ofText source.content.toList, ∃ op,
      Leaf.ofContent op ((Attributes.ofTag line.text).get? "content") = .ok l

theorem fromLines_of_load {source : Source} {loaded : Loaded} (hload : load source = .ok loaded)
    {testcase : Testcase} (hmem : testcase ∈ loaded.testcases) : FromLines source testcase := by
  obtain ⟨tokens, contents, hdecoded, hforms, htestcases⟩ := load_forms hload
  rw [htestcases] at hmem
  obtain ⟨content, hcontent, rfl⟩ := List.mem_map.1 hmem
  obtain ⟨⟨selfClosing, line, hline, htells⟩, hleaves⟩ :=
    hforms.forall_contents hdecoded.exists_tells content hcontent
  refine ⟨rfl, ⟨line, hline, htells.of_testcase⟩, fun t ht => ?_⟩
  obtain ⟨⟨leaf, below⟩, htree, rfl⟩ := Option.map_eq_some_iff.1 ht
  refine ⟨leaf, below, rfl, fun l hl => ?_⟩
  obtain ⟨token, ⟨line, hline, htells⟩, hmem⟩ := hleaves leaf below htree l hl
  exact ⟨line, hline, htells.exists_content l hmem⟩

theorem FromLines.fromTags {source : Source} {testcase : Testcase} (h : FromLines source testcase) :
    ∀ t, testcase.root = some t → t.FromTags := by
  intro t ht
  obtain ⟨leaf, below, rfl, hleaves⟩ := h.leaves t ht
  refine ⟨leaf, below, rfl, fun l hl => ?_⟩
  obtain ⟨line, _, op, hcontent⟩ := hleaves l hl
  exact ⟨op, line.text, hcontent⟩

end Suite

/-! ## No line feeds -/

theorem Line.feed_notMem_text {text : List Char} {line : Line} (h : line ∈ ofText text) :
    '\n' ∉ line.text := by
  obtain ⟨front, whole, back, hstands⟩ := exists_stands h
  obtain ⟨ending, hwhole, _⟩ := hstands.trimmed
  have hsingle := hstands.single
  rw [hwhole] at hsingle
  exact fun hfeed => hsingle (List.mem_append_left _ hfeed)

theorem Attributes.isValue_of_get?_ofTag {text : List Char} {line : Line}
    (hline : line ∈ Line.ofText text) {name value : String}
    (h : (ofTag line.text).get? name = some value) : IsValue value :=
  ⟨unquoted_of_get?_ofTag h, fun hfeed =>
    Line.feed_notMem_text hline (of_get?_ofTag h _ hfeed).1⟩

theorem Leaf.writable_of_ofContent {text : List Char} {line : Line}
    (hline : line ∈ Line.ofText text) {op : Operation} {leaf : Leaf}
    (h : ofContent op ((Attributes.ofTag line.text).get? "content") = .ok leaf) :
    leaf.Writable := by
  have hfrom : leaf.FromTag := ⟨op, line.text, h⟩
  refine ⟨hfrom.made, hfrom.legible, fun s hs => ?_⟩
  have hcarries := ofContent_eq_ok.1 h
  generalize hcontent : (Attributes.ofTag line.text).get? "content" = content at hcarries
  cases hcarries with
  | nothing => cases hs
  | int _ _ => cases hs
  | text _ =>
      cases hs
      exact (Attributes.isValue_of_get?_ofTag hline hcontent).2

theorem Suite.FromLines.writable {source : Source} {testcase : Testcase}
    (h : FromLines source testcase) : testcase.draft.Writable := by
  obtain ⟨line, hline, hname, hexpects⟩ := h.heading
  have hvalue (name : String) :
      Attributes.IsValue (((Attributes.ofTag line.text).get? name).getD "") := by
    cases hget : (Attributes.ofTag line.text).get? name with
    | none => exact ⟨by decide, by decide⟩
    | some value => exact Attributes.isValue_of_get?_ofTag hline hget
  refine ⟨?_, fun text htext => ?_, fun t ht => ?_, fun t ht => ?_⟩
  · rw [Testcase.draft, hname]
    exact hvalue "name"
  · rw [Testcase.draft] at htext
    generalize testcase.expectation = expectation at htext hexpects
    cases hexpects with
    | canProduce _ => cases htext
    | cannotProduce _ _ => cases htext
    | value _ _ _ =>
        cases htext
        exact hvalue "expected"
  · obtain ⟨leaf, below, rfl, _⟩ := h.leaves t ht
    exact Tree.built_plant leaf below
  · obtain ⟨leaf, below, rfl, hleaves⟩ := h.leaves t ht
    rw [Tree.forall_nodes_plant]
    intro l hl
    obtain ⟨line, hline, op, hcontent⟩ := hleaves l hl
    exact Leaf.writable_of_ofContent hline hcontent

end TreeAssay
