import TreeAssay.Proofs.Dump.RoundTrip
import TreeAssay.Proofs.Markup.Tag
import TreeAssay.Proofs.Suite.Contents
import TreeAssay.Proofs.Suite.Progress
import TreeAssay.Proofs.Text.Lines
/-!
# Suites written down

Any testcases can be written down: each as a start tag, the tags of its tree in the order
of the nodes, and an end tag, one tag to a line.  However the lines are indented and
ended, the suite is loaded as these testcases, as long as no text in them has a quote or a
line feed.
-/

namespace TreeAssay

/-- A testcase that does not come from a place in a text. -/
structure Draft where
  name : String
  expectation : Expectation
  root : Option Tree

def Testcase.draft (t : Testcase) : Draft :=
  ⟨t.name, t.expectation, t.root⟩

/-- The attributes in which a testcase states what is expected of it. -/
def Expectation.pairs : Expectation → List (String × Option String)
  | .value kind expected => [("type", some kind.name), ("expected", some expected)]
  | .canProduce kind => [("canProduce", some kind.name)]
  | .cannotProduce kind => [("cannotProduce", some kind.name)]

def Draft.pairs (d : Draft) : List (String × Option String) :=
  ("name", some d.name) :: d.expectation.pairs

/-- The attributes of a node; there is no content where it carries nothing. -/
def Entry.pairs : Entry → List (String × Option String)
  | .null => [("null", some "true")]
  | .node leaf => [("op", some leaf.op.name), ("content", leaf.payload.map Value.display)]

namespace Suite

/-! ## Tags as they are written -/

def startChars (subject : Subject) (pairs : List (String × Option String)) (selfClosing : Bool) :
    List Char :=
  '<' :: subject.tag.toList ++ Attributes.pairsChars pairs ++
    (if selfClosing then ['/', '>'] else ['>'])

def endChars (subject : Subject) : List Char :=
  '<' :: '/' :: subject.tag.toList ++ ['>']

def stepChars : BuildStep → List Char
  | .start e selfClosing => startChars .node e.pairs selfClosing
  | .close => endChars .node

/-- The tags of a draft: its start tag, those of any steps that spell its tree, and its end
tag. -/
inductive Written (d : Draft) : List (List Char) → Prop
  | bare : d.root = none →
      Written d [startChars .testcase d.pairs false, endChars .testcase]
  | tree {t steps} : d.root = some t →
      (Row.node t.rootNode.toLeaf t.below .nil).Spelled steps →
      Written d (startChars .testcase d.pairs false :: steps.map stepChars ++ [endChars .testcase])

/-- The text has each tag on a line of its own, behind an indentation. -/
inductive Laid : List (List Char) → List Char → Prop
  | nil : Laid [] []
  | cons {indent tag ending tags text} : (∀ c ∈ indent, Tag.isIndent c) →
      (ending = ['\n'] ∨ ending = ['\r', '\n']) → Laid tags text →
      Laid (tag :: tags) (indent ++ tag ++ ending ++ text)

theorem isName_tag (subject : Subject) : Attributes.IsName subject.tag := by
  cases subject <;> exact ⟨by decide, by decide⟩

theorem pairChars_cases (name : String) (value : Option String) :
    Attributes.pairChars name value = [] ∨
      ∃ middle, Attributes.pairChars name value = ' ' :: middle ++ ['"'] := by
  cases value with
  | none => exact .inl rfl
  | some text => exact .inr ⟨name.toList ++ '=' :: '"' :: text.toList, by
      simp [Attributes.pairChars]⟩

theorem pairsChars_cases (pairs : List (String × Option String)) :
    Attributes.pairsChars pairs = [] ∨
      ∃ middle, Attributes.pairsChars pairs = ' ' :: middle ++ ['"'] := by
  induction pairs with
  | nil => exact .inl rfl
  | cons pair pairs ih =>
      rw [Attributes.pairsChars, List.flatMap_cons]
      rcases pairChars_cases pair.1 pair.2 with hpair | ⟨middle, hpair⟩
      · rw [hpair]
        exact ih
      · rw [hpair]
        refine .inr ?_
        rcases ih with hpairs | ⟨middle', hpairs⟩
        · exact ⟨middle, by rw [← Attributes.pairsChars, hpairs, List.append_nil]⟩
        · refine ⟨middle ++ '"' :: ' ' :: middle', ?_⟩
          rw [← Attributes.pairsChars, hpairs]
          simp only [List.append_assoc, List.cons_append, List.nil_append]

/-- A start tag with attributes is recognized. -/
theorem mark_startChars {indent : List Char} (hindent : ∀ c ∈ indent, Tag.isIndent c)
    (subject : Subject) {pairs : List (String × Option String)}
    (hpairs : Attributes.pairsChars pairs ≠ []) (selfClosing : Bool) :
    Mark.ofLine (indent ++ startChars subject pairs selfClosing) =
      .tag subject (if selfClosing then .selfClosing else .opening) := by
  obtain ⟨middle, hmiddle⟩ := (pairsChars_cases pairs).resolve_left hpairs
  obtain ⟨front, d, hclosing, hd⟩ : ∃ front d,
      middle ++ ['"'] ++ (if selfClosing then ['/', '>'] else ['>']) = front ++ [d, '>'] ∧
        (d == '/') = selfClosing := by
    cases selfClosing with
    | true => exact ⟨middle ++ ['"'], '/', by simp, rfl⟩
    | false => exact ⟨middle, '"', by simp, rfl⟩
  have htag : startChars subject pairs selfClosing =
      '<' :: (subject.tag.toList ++ ' ' :: (front ++ [d, '>'])) := by
    rw [startChars, hmiddle, ← hclosing]
    simp only [List.append_assoc, List.cons_append]
  have hname : Tag.name? (startChars subject pairs selfClosing) = some subject.tag.toList := by
    rw [htag]
    exact Tag.name?_start (isName_tag subject) (.inl rfl) _
  have hform : Tag.form? (startChars subject pairs selfClosing) subject.tag.toList =
      some (if selfClosing then .selfClosing else .opening) := by
    have hend : '<' :: (subject.tag.toList ++ ' ' :: (front ++ [d, '>'])) =
        '<' :: (subject.tag.toList ++ ' ' :: front) ++ [d, '>'] := by
      simp only [List.append_assoc, List.cons_append]
    rw [htag, Tag.form?_start subject.tag (.inl rfl) hend, hd]
  have hsubject : Subject.ofName? subject.tag.toList = some subject := by
    cases subject <;> rfl
  unfold Mark.ofLine
  simp only [Tag.name?_indent hindent, hname, hsubject, Tag.form?_indent hindent, hform]

theorem mark_endChars {indent : List Char} (hindent : ∀ c ∈ indent, Tag.isIndent c)
    (subject : Subject) : Mark.ofLine (indent ++ endChars subject) = .tag subject .closing := by
  have hname : Tag.name? (endChars subject) = some subject.tag.toList :=
    Tag.readName?_append (isName_tag subject) rfl []
  have hsubject : Subject.ofName? subject.tag.toList = some subject := by
    cases subject <;> rfl
  have hform : Tag.form? (endChars subject) subject.tag.toList = some .closing :=
    Tag.form?_end (isName_tag subject) ['>']
  unfold Mark.ofLine
  simp only [Tag.name?_indent hindent, hname, hsubject, Tag.form?_indent hindent, hform]

theorem ofTag_startChars {indent : List Char} (hindent : ∀ c ∈ indent, Tag.isIndent c)
    (subject : Subject) {pairs : List (String × Option String)}
    (hpairs : Attributes.AreWritable pairs) (selfClosing : Bool) :
    Attributes.ofTag (indent ++ startChars subject pairs selfClosing) = .ofPairs pairs := by
  have hfront : ∀ c ∈ indent ++ '<' :: subject.tag.toList, c ≠ '=' := by
    intro c hc
    rcases List.mem_append.1 hc with hc | hc
    · rintro rfl
      exact absurd (hindent _ hc) (by decide)
    · rcases List.mem_cons.1 hc with rfl | hc
      · decide
      · exact ((isName_tag subject).ne hc).2.2.2.2
  have hback : ∀ c ∈ (if selfClosing then ['/', '>'] else ['>']), c ≠ '=' := by
    cases selfClosing <;> simp
  have htag : indent ++ startChars subject pairs selfClosing =
      indent ++ '<' :: subject.tag.toList ++ Attributes.pairsChars pairs ++
        (if selfClosing then ['/', '>'] else ['>']) := by
    simp only [startChars, List.append_assoc, List.cons_append]
  rw [htag, Attributes.ofTag_pairsChars hfront hback hpairs]

/-! ## What the lines say -/

/-- The line holds the tag, behind an indentation. -/
def Bears (line : Line) (tag : List Char) : Prop :=
  ∃ indent, (∀ c ∈ indent, Tag.isIndent c) ∧ line.text = indent ++ tag

/-- The line says the token, and there is nothing to be said against it. -/
structure Conveys (line : Line) (token : Token) : Prop where
  tells : Tells line token
  silent : Concern.ofLine? line.text = none

theorem Bears.starts {line : Line} {subject : Subject} {pairs : List (String × Option String)}
    {selfClosing : Bool} (h : Bears line (startChars subject pairs selfClosing))
    (hpairs : Attributes.AreWritable pairs) (hne : Attributes.pairsChars pairs ≠ []) :
    Event.ofLine? line.text = some (match subject with
      | .testcase => .startTestcase (.ofPairs pairs) selfClosing
      | .node => .startNode (.ofPairs pairs) selfClosing) ∧
      Concern.ofLine? line.text = none := by
  obtain ⟨indent, hindent, htext⟩ := h
  have hmark := mark_startChars hindent subject hne selfClosing
  have hattrs := ofTag_startChars hindent subject hpairs selfClosing
  rw [← htext] at hmark hattrs
  rw [← event?_ofLine]
  unfold Concern.ofLine?
  rw [hmark]
  cases subject <;> cases selfClosing <;>
    simp [Mark.event?, hattrs, Concern.ofAttributes?, Attributes.malformed_ofPairs]

theorem Bears.ends {line : Line} {subject : Subject} (h : Bears line (endChars subject)) :
    Event.ofLine? line.text = some (match subject with
      | .testcase => .endTestcase
      | .node => .endNode) ∧
      Concern.ofLine? line.text = none := by
  obtain ⟨indent, hindent, htext⟩ := h
  have hmark := mark_endChars hindent subject
  rw [← htext] at hmark
  rw [← event?_ofLine]
  unfold Concern.ofLine?
  rw [hmark]
  cases subject <;> exact ⟨rfl, rfl⟩

end Suite

/-- The leaf is made, and its text has neither a quote nor a line feed. -/
structure Leaf.Writable (leaf : Leaf) : Prop where
  made : leaf.Made
  legible : leaf.Legible
  unbroken : ∀ s, leaf.payload = some (.text s) → '\n' ∉ s.toList

def Entry.Writable : Entry → Prop
  | .null => True
  | .node leaf => leaf.Writable

/-- No text of the draft has a quote or a line feed, and its tree is built of such nodes. -/
structure Draft.Writable (d : Draft) : Prop where
  name : '"' ∉ d.name.toList ∧ '\n' ∉ d.name.toList
  expected : ∀ text, d.expectation.expected? = some text →
    '"' ∉ text.toList ∧ '\n' ∉ text.toList
  built : ∀ t, d.root = some t → t.Built
  nodes : ∀ t, d.root = some t → ∀ n ∈ t.nodes, n.toLeaf.Writable

namespace Entry

theorem areWritable_pairs {e : Entry} (h : e.Writable) : Attributes.AreWritable e.pairs := by
  cases e with
  | null =>
      refine Attributes.areWritable_nil.cons ⟨by decide, by decide⟩ ?_
      rintro _ ⟨⟩
      decide
  | node leaf =>
      have hcontent := Attributes.areWritable_nil.cons Dump.isName_content
        (Leaf.quotable_display h.legible)
      refine hcontent.cons ⟨by decide, by decide⟩ ?_
      rintro _ ⟨⟩
      cases leaf.op <;> decide

theorem pairsChars_ne (e : Entry) : Attributes.pairsChars e.pairs ≠ [] := by
  cases e <;> exact List.cons_ne_nil _ _

/-- What the attributes of a node state is a matter of its content alone. -/
theorem entry_pairs (op : Operation) (content : Option String) :
    Suite.entry (.ofPairs [("op", some op.name), ("content", content)]) =
      match Leaf.ofContent op content with
      | .error error => .error (.ofContent error)
      | .ok leaf => .ok (.node leaf) := by
  have hop : (Attributes.ofPairs [("op", some op.name), ("content", content)]).nonEmpty? "op" =
      some op.name := by
    have hne : op.name ≠ "" := by
      cases op <;> decide
    cases content <;> simp [Attributes.ofPairs, Attributes.put, Attributes.add,
      Attributes.nonEmpty?, Attributes.get?, List.lookup_cons, hne]
  have hnull : (Attributes.ofPairs [("op", some op.name), ("content", content)]).isTruthy "null" =
      false := by
    cases content <;> simp [Attributes.ofPairs, Attributes.put, Attributes.add,
      Attributes.isTruthy, Attributes.get?, List.lookup_cons]
  have hcontent : (Attributes.ofPairs [("op", some op.name), ("content", content)]).get?
      "content" = content := by
    cases content <;> simp [Attributes.ofPairs, Attributes.put, Attributes.add,
      Attributes.get?, List.lookup_cons]
  cases hleaf : Leaf.ofContent op content <;>
    simp only [Suite.entry, hop, hnull, hcontent, Operation.resolve_name, hleaf]

/-- The attributes of an entry state this entry. -/
theorem enters_pairs {e : Entry} (h : e.Writable) : (Attributes.ofPairs e.pairs).Enters e := by
  cases e with
  | null => exact .null (by decide) (by decide)
  | node leaf =>
      rw [← Suite.entry_eq_ok, pairs, entry_pairs, Leaf.ofContent_display h.made h.legible]

end Entry

namespace Draft

theorem expects_pairs (d : Draft) :
    (Attributes.ofPairs d.pairs).Expects d.expectation ∧
      (Attributes.ofPairs d.pairs).get? "name" = some d.name := by
  obtain ⟨name, expectation, root⟩ := d
  have hkind (kind : Kind) :
      (some kind.name).filter (fun name => !decide (name = "")) = some kind.name := by
    cases kind <;> rfl
  rw [← Suite.expectation_eq_ok]
  unfold Suite.expectation
  cases expectation <;>
    simp [pairs, Expectation.pairs, Attributes.ofPairs, Attributes.put, Attributes.add,
      Attributes.nonEmpty?, Attributes.get?, List.lookup_cons, hkind, Kind.resolve_name,
      Functor.map, Except.map]

theorem areWritable_pairs {d : Draft} (h : d.Writable) : Attributes.AreWritable d.pairs := by
  have hkind (kind : Kind) : ∀ text, some kind.name = some text → '"' ∉ text.toList := by
    rintro _ ⟨⟩
    cases kind <;> decide
  obtain ⟨name, expectation, root⟩ := d
  have hname : ∀ text, some name = some text → '"' ∉ text.toList := by
    rintro _ ⟨⟩
    exact h.name.1
  refine Attributes.AreWritable.cons ?_ ⟨by decide, by decide⟩ hname
  cases expectation with
  | value kind expected =>
      have hexpected : ∀ text, some expected = some text → '"' ∉ text.toList := by
        rintro _ ⟨⟩
        exact (h.expected expected rfl).1
      exact (Attributes.areWritable_nil.cons ⟨by decide, by decide⟩ hexpected).cons
        ⟨by decide, by decide⟩ (hkind kind)
  | canProduce kind =>
      exact Attributes.areWritable_nil.cons ⟨by decide, by decide⟩ (hkind kind)
  | cannotProduce kind =>
      exact Attributes.areWritable_nil.cons ⟨by decide, by decide⟩ (hkind kind)

theorem pairsChars_ne (d : Draft) : Attributes.pairsChars d.pairs ≠ [] :=
  List.cons_ne_nil _ _

end Draft

namespace Suite

theorem Bears.conveys_startNode {line : Line} {e : Entry} {selfClosing : Bool}
    (h : Bears line (stepChars (.start e selfClosing))) (he : e.Writable) :
    Conveys line (.node (.start e selfClosing)) := by
  obtain ⟨hevent, hsilent⟩ := h.starts (Entry.areWritable_pairs he) e.pairsChars_ne
  exact ⟨.start hevent (Entry.enters_pairs he), hsilent⟩

theorem Bears.conveys_endNode {line : Line} (h : Bears line (stepChars .close)) :
    Conveys line (.node .close) :=
  ⟨.close h.ends.1, h.ends.2⟩

theorem Bears.conveys_endTestcase {line : Line} (h : Bears line (endChars .testcase)) :
    Conveys line .endTestcase :=
  ⟨.endTestcase h.ends.1, h.ends.2⟩

theorem Bears.conveys_startTestcase {line : Line} {d : Draft}
    (h : Bears line (startChars .testcase d.pairs false)) (hd : d.Writable) :
    Conveys line (.testcase ⟨line.number, d.name, d.expectation⟩ false) := by
  obtain ⟨hevent, hsilent⟩ := h.starts (Draft.areWritable_pairs hd) d.pairsChars_ne
  obtain ⟨hexpects, hname⟩ := d.expects_pairs
  have htells := Tells.testcase hevent hexpects
  rw [hname, Option.getD_some] at htells
  exact ⟨htells, hsilent⟩

theorem conveys_steps {steps : List BuildStep} {lines : List Line}
    (h : List.Forall₂ Bears lines (steps.map stepChars))
    (hsteps : ∀ l ∈ steps.flatMap BuildStep.leaves, l.Writable) :
    List.Forall₂ Conveys lines (steps.map .node) := by
  induction steps generalizing lines with
  | nil =>
      cases h
      exact .nil
  | cons st steps ih =>
      cases h with
      | cons hbears hrest =>
          rw [List.flatMap_cons] at hsteps
          refine .cons ?_ (ih hrest fun l hl => hsteps l (List.mem_append_right _ hl))
          match st with
          | .start .null _ => exact hbears.conveys_startNode trivial
          | .start (.node leaf) _ =>
              exact hbears.conveys_startNode (hsteps leaf (by simp [BuildStep.leaves]))
          | .close => exact hbears.conveys_endNode

theorem writable_of_spelled {d : Draft} (h : d.Writable) {t : Tree} (hroot : d.root = some t)
    {steps : List BuildStep} (hspelled : (Row.node t.rootNode.toLeaf t.below .nil).Spelled steps) :
    ∀ l ∈ steps.flatMap BuildStep.leaves, l.Writable := by
  obtain ⟨leaf, below, rfl⟩ := (h.built t hroot).eq_plant
  rw [Tree.below_plant, Tree.rootNode_plant] at hspelled
  rw [BuildStep.leaves_of_spelled hspelled, Row.leaves, Row.leaves, List.append_nil]
  exact Tree.forall_nodes_plant.1 (h.nodes _ hroot)

theorem exists_split {R : Line → List Char → Prop} {lines : List Line}
    {front back : List (List Char)} (h : List.Forall₂ R lines (front ++ back)) :
    ∃ own others, lines = own ++ others ∧ List.Forall₂ R own front ∧
      List.Forall₂ R others back :=
  ⟨lines.take front.length, lines.drop front.length, (List.take_append_drop _ _).symm,
    List.forall₂_take_append _ _ _ h, List.forall₂_drop_append _ _ _ h⟩

/-- What a draft says where it is written: a whole testcase, which is the draft. -/
structure Gives (d : Draft) (tokens : List Token) (content : Content) : Prop where
  forms : ∀ rest contents, Forms rest contents → Forms (tokens ++ rest) (content :: contents)
  draft : ∀ source, (content.testcase source).draft = d

theorem gives_testcase {d : Draft} {line : Nat} {body : List Token} {tree : Option (Leaf × Row)}
    (hbody : FormsBody body tree)
    (hroot : d.root = tree.map fun (leaf, below) => .plant leaf below) :
    Gives d (.testcase ⟨line, d.name, d.expectation⟩ false :: body ++ [.endTestcase])
      ⟨⟨line, d.name, d.expectation⟩, tree⟩ where
  forms := by
    intro rest contents hrest
    rw [List.append_assoc]
    exact .closed hbody hrest
  draft := by
    intro source
    rw [Testcase.draft, Content.testcase, ← hroot]
    rfl

theorem exists_gives {d : Draft} (hd : d.Writable) {tags : List (List Char)} (h : Written d tags)
    {lines : List Line} (hbears : List.Forall₂ Bears lines tags) :
    ∃ tokens content, List.Forall₂ Conveys lines tokens ∧ Gives d tokens content := by
  cases h with
  | bare hroot =>
      cases hbears with
      | cons hstart hrest =>
          cases hrest with
          | cons hend hnil =>
              cases hnil
              have hlines := List.Forall₂.cons (hstart.conveys_startTestcase hd)
                (.cons hend.conveys_endTestcase .nil)
              exact ⟨_, _, hlines, gives_testcase (.bare areNulls_nil) hroot⟩
  | @tree t steps hroot hspelled =>
      have hleaves := writable_of_spelled hd hroot hspelled
      obtain ⟨leaf, below, rfl⟩ := (hd.built t hroot).eq_plant
      rw [Tree.below_plant, Tree.rootNode_plant] at hspelled
      cases hbears with
      | cons hstart hrest =>
          obtain ⟨middle, last, rfl, hmiddle, hlast⟩ := exists_split hrest
          cases hlast with
          | cons hend hnil =>
              cases hnil
              have hinner : List.Forall₂ Conveys (middle ++ _)
                  (steps.map .node ++ [.endTestcase]) :=
                List.rel_append (conveys_steps hmiddle hleaves)
                  (.cons hend.conveys_endTestcase .nil)
              have hlines := List.Forall₂.cons (hstart.conveys_startTestcase hd) hinner
              have hbody : FormsBody (steps.map .node) (some (leaf, below)) :=
                formsBody_of_spelled areNulls_nil hspelled
              exact ⟨_, _, hlines, gives_testcase hbody hroot⟩

theorem exists_forms {drafts : List Draft} (hdrafts : ∀ d ∈ drafts, d.Writable)
    {tags : List (List (List Char))} (h : List.Forall₂ Written drafts tags) {lines : List Line}
    (hbears : List.Forall₂ Bears lines tags.flatten) :
    ∃ tokens contents, List.Forall₂ Conveys lines tokens ∧ Forms tokens contents ∧
      ∀ source, contents.map (fun content => (content.testcase source).draft) = drafts := by
  induction h generalizing lines with
  | nil =>
      cases hbears
      exact ⟨[], [], .nil, .nil, fun _ => rfl⟩
  | @cons d own drafts tags hwritten _ ih =>
      obtain ⟨front, back, rfl, hfront, hback⟩ := exists_split hbears
      obtain ⟨tokens, content, hconveys, hgives⟩ :=
        exists_gives (hdrafts d (by simp)) hwritten hfront
      obtain ⟨tokens', contents, hconveys', hforms, hcontents⟩ :=
        ih (fun other hother => hdrafts other (by simp [hother])) hback
      refine ⟨tokens ++ tokens', content :: contents, List.rel_append hconveys hconveys',
        hgives.forms _ _ hforms, ?_⟩
      intro source
      rw [List.map_cons, hgives.draft, hcontents]

/-! ## Lines that are laid out -/

/-- The tag fits on a line and ends with its last character. -/
def IsSealed (tag : List Char) : Prop :=
  '\n' ∉ tag ∧ tag.getLast? = some '>'

theorem bears_of_laid {tags : List (List Char)} {text : List Char} (h : Laid tags text)
    (htags : ∀ tag ∈ tags, IsSealed tag) : List.Forall₂ Bears (Line.ofText text) tags := by
  induction h with
  | nil => exact .nil
  | @cons indent tag ending tags text hindent hending _ ih =>
      obtain ⟨hfeed, hlast⟩ := htags tag (by simp)
      have hbody : '\n' ∉ indent ++ tag := by
        intro hmem
        rcases List.mem_append.1 hmem with hmem | hmem
        · exact absurd (hindent _ hmem) (by decide)
        · exact hfeed hmem
      have hkept : ∀ c ∈ (indent ++ tag).getLast?, ¬ Line.isEnd c := by
        rw [List.getLast?_append, hlast]
        rintro _ ⟨⟩
        decide
      have hended : Line.Ended (indent ++ tag ++ ending) := by
        rcases hending with rfl | rfl
        · exact Line.ended_feed _
        · exact .inr ⟨indent ++ tag ++ ['\r'], by simp⟩
      rw [Line.ofText_append hended, Line.ofText_ended hbody hkept hending,
        List.singleton_append]
      refine .cons ⟨indent, hindent, rfl⟩ (List.forall₂_map_left_iff.2 ?_)
      exact ih fun other hother => htags other (by simp [hother])

theorem feed_notMem_pairsChars {pairs : List (String × Option String)}
    (h : ∀ pair ∈ pairs, '\n' ∉ pair.1.toList ∧
      ∀ text, pair.2 = some text → '\n' ∉ text.toList) :
    '\n' ∉ Attributes.pairsChars pairs := by
  intro hmem
  obtain ⟨pair, hpair, hchars⟩ := List.mem_flatMap.1 hmem
  obtain ⟨hname, hvalue⟩ := h pair hpair
  cases hsome : pair.2 with
  | none => simp [hsome, Attributes.pairChars] at hchars
  | some text => simp [hsome, Attributes.pairChars, hname, hvalue text hsome] at hchars

theorem isSealed_startChars (subject : Subject) {pairs : List (String × Option String)}
    (h : '\n' ∉ Attributes.pairsChars pairs) (selfClosing : Bool) :
    IsSealed (startChars subject pairs selfClosing) := by
  have htag : '\n' ∉ subject.tag.toList := by
    cases subject <;> decide
  constructor
  · cases selfClosing <;> simp [startChars, htag, h]
  · rw [startChars, List.getLast?_append]
    cases selfClosing <;> rfl

theorem isSealed_endChars (subject : Subject) : IsSealed (endChars subject) := by
  cases subject <;> exact ⟨by decide, by decide⟩

theorem feed_notMem_display {leaf : Leaf} (h : leaf.Writable) :
    ∀ text, leaf.payload.map Value.display = some text → '\n' ∉ text.toList := by
  obtain ⟨op, payload⟩ := leaf
  intro text htext
  match payload with
  | none => cases htext
  | some (.int n) =>
      cases htext
      intro hfeed
      exact absurd ((Decimal.spells_ofInt64 n).isDigit_or_sign hfeed) (by decide)
  | some (.text s) =>
      cases htext
      exact h.unbroken s rfl

theorem feed_notMem_entry {e : Entry} (h : e.Writable) :
    '\n' ∉ Attributes.pairsChars e.pairs := by
  cases e with
  | null => decide
  | node leaf =>
      apply feed_notMem_pairsChars
      intro pair hpair
      rcases List.mem_cons.1 hpair with rfl | hpair
      · refine ⟨show '\n' ∉ "op".toList by decide, ?_⟩
        rintro _ ⟨⟩
        cases leaf.op <;> decide
      · obtain rfl := List.mem_singleton.1 hpair
        exact ⟨show '\n' ∉ "content".toList by decide, feed_notMem_display h⟩

theorem feed_notMem_draft {d : Draft} (h : d.Writable) :
    '\n' ∉ Attributes.pairsChars d.pairs := by
  have hkind (kind : Kind) : '\n' ∉ kind.name.toList := by
    cases kind <;> decide
  apply feed_notMem_pairsChars
  obtain ⟨name, expectation, root⟩ := d
  rw [Draft.pairs, List.forall_mem_cons]
  refine ⟨⟨show '\n' ∉ "name".toList by decide, ?_⟩, ?_⟩
  · rintro _ ⟨⟩
    exact h.name.2
  · cases expectation with
    | value kind expected =>
        have hexpected := (h.expected expected rfl).2
        simp [Expectation.pairs, hkind kind, hexpected]
    | canProduce kind => simp [Expectation.pairs, hkind kind]
    | cannotProduce kind => simp [Expectation.pairs, hkind kind]

theorem isSealed_stepChars {st : BuildStep} (h : ∀ l ∈ st.leaves, l.Writable) :
    IsSealed (stepChars st) := by
  match st with
  | .start .null selfClosing =>
      have hnull : Entry.null.Writable := trivial
      exact isSealed_startChars .node (feed_notMem_entry hnull) selfClosing
  | .start (.node leaf) selfClosing =>
      have hleaf : (Entry.node leaf).Writable := h leaf (by simp [BuildStep.leaves])
      exact isSealed_startChars .node (feed_notMem_entry hleaf) selfClosing
  | .close => exact isSealed_endChars .node

theorem isSealed_of_written {d : Draft} (hd : d.Writable) {tags : List (List Char)}
    (h : Written d tags) : ∀ tag ∈ tags, IsSealed tag := by
  have hstart : IsSealed (startChars .testcase d.pairs false) :=
    isSealed_startChars .testcase (feed_notMem_draft hd) false
  intro tag htag
  cases h with
  | bare _ =>
      rcases List.mem_cons.1 htag with rfl | htag
      · exact hstart
      · obtain rfl := List.mem_singleton.1 htag
        exact isSealed_endChars .testcase
  | tree hroot hspelled =>
      rcases List.mem_append.1 htag with htag | htag
      · rcases List.mem_cons.1 htag with rfl | htag
        · exact hstart
        · obtain ⟨st, hst, rfl⟩ := List.mem_map.1 htag
          refine isSealed_stepChars fun l hl => ?_
          exact writable_of_spelled hd hroot hspelled l (List.mem_flatMap.2 ⟨st, hst, hl⟩)
      · obtain rfl := List.mem_singleton.1 htag
        exact isSealed_endChars .testcase

theorem isSealed_of_flatten {drafts : List Draft} (hdrafts : ∀ d ∈ drafts, d.Writable)
    {tags : List (List (List Char))} (h : List.Forall₂ Written drafts tags) :
    ∀ tag ∈ tags.flatten, IsSealed tag := by
  induction h with
  | nil => simp
  | @cons d own drafts tags hwritten _ ih =>
      intro tag htag
      rcases List.mem_append.1 htag with htag | htag
      · exact isSealed_of_written (hdrafts d (by simp)) hwritten tag htag
      · exact ih (fun other hother => hdrafts other (by simp [hother])) tag htag

/-! ## Loading what is written -/

theorem decoded_of_conveys {lines : List Line} {tokens : List Token}
    (h : List.Forall₂ Conveys lines tokens) : Decoded lines tokens := by
  induction h with
  | nil => exact .nil
  | cons hconveys _ ih => exact .take hconveys.tells ih

theorem warnings_of_conveys {lines : List Line} {tokens : List Token}
    (h : List.Forall₂ Conveys lines tokens) (source : Source) :
    (lines.flatMap fun line => Warning.about source line (Concern.ofLine? line.text)) = [] := by
  induction h with
  | nil => rfl
  | cons hconveys _ ih =>
      rw [List.flatMap_cons, hconveys.silent, ih]
      rfl

/-- Lines that say whole testcases, with nothing to be said against them, are loaded as these. -/
theorem load_of_conveys {source : Source} {tokens : List Token} {contents : List Content}
    (hconveys : List.Forall₂ Conveys (Line.ofText source.content.toList) tokens)
    (hforms : Forms tokens contents) :
    load source = .ok ⟨contents.map (·.testcase source), []⟩ := by
  obtain ⟨inTestcase, hrun⟩ := run_of_forms source [] hforms
  rw [List.append_nil] at hrun
  obtain ⟨⟨testcases, warnings⟩, hload, htestcases⟩ :=
    load_eq_ok.2 ⟨tokens, inTestcase, decoded_of_conveys hconveys, hrun⟩
  have hsilent : warnings = [] := by
    obtain ⟨p, _, hfold, _, _, hsame⟩ := exists_progress_of_load hload
    cases hsame
    exact (reverse_warnings_of_foldlM hfold).trans (warnings_of_conveys hconveys source)
  rw [hload, ← htestcases, hsilent]

/-- Whatever testcases are written down, they are loaded again, in order, each with the same
tree, and without a warning. -/
theorem load_written {source : Source} {drafts : List Draft}
    (hdrafts : ∀ d ∈ drafts, d.Writable) {tags : List (List (List Char))}
    (hwritten : List.Forall₂ Written drafts tags)
    (hlaid : Laid tags.flatten source.content.toList) :
    ∃ loaded, load source = .ok loaded ∧ loaded.testcases.map Testcase.draft = drafts ∧
      loaded.warnings = [] := by
  have hsealed := isSealed_of_flatten hdrafts hwritten
  obtain ⟨tokens, contents, hconveys, hforms, hcontents⟩ :=
    exists_forms hdrafts hwritten (bears_of_laid hlaid hsealed)
  refine ⟨_, load_of_conveys hconveys hforms, ?_, rfl⟩
  rw [List.map_map]
  exact hcontents source

/-- Markup in a text does no harm. -/
theorem load_written_markup :
    let tree := Tree.plant ⟨.concat, none⟩ (.node (.stringLiteral " /> op=<\r") .nil
      (.null (.node ⟨.negate, some (.int (-4))⟩ .nil .nil)))
    let drafts : List Draft :=
      [⟨"<Node>", .value .string "=", some tree⟩, ⟨"", .canProduce .int, none⟩]
    let source : Source := ⟨"b.xml",
      "<Testcase name=\"<Node>\" type=\"String\" expected=\"=\">\r\n" ++
      "\t<Node op=\"Concat\">\n  <Node op=\"StringLiteral\" content=\" /> op=<\r\"/>\n" ++
      " \t<Node null=\"true\"/>\r\n<Node op=\"Negate\" content=\"-4\">\n</Node>\n</Node>\n" ++
      "</Testcase>\n\t\t<Testcase name=\"\" canProduce=\"Int\">\n</Testcase>\r\n"⟩
    (∀ d ∈ drafts, d.Writable) ∧ ∃ loaded, load source = .ok loaded ∧
      loaded.testcases.map Testcase.draft = drafts ∧ loaded.warnings = [] := by
  intro tree drafts source
  have hleaves : ∀ n ∈ tree.nodes, n.toLeaf.Writable := by
    rw [Tree.forall_nodes_plant]
    simp only [Row.leaves, List.cons_append, List.nil_append, List.append_nil,
      List.forall_mem_cons, List.not_mem_nil, false_implies, implies_true, and_true]
    refine ⟨⟨.bare _, ⟨?_, ?_⟩, ?_⟩, ⟨.stringLiteral _, ⟨?_, ?_⟩, ?_⟩,
      ⟨.withInt _ _, ⟨?_, ?_⟩, ?_⟩⟩ <;> rintro _ ⟨⟩ <;> decide
  have hdrafts : ∀ d ∈ drafts, d.Writable := by
    simp only [drafts, List.forall_mem_cons, List.not_mem_nil, false_implies, implies_true,
      and_true]
    constructor
    · refine ⟨by decide, ?_, ?_, ?_⟩
      · rintro _ ⟨⟩
        decide
      · rintro _ ⟨⟩
        exact Tree.built_plant _ _
      · rintro _ ⟨⟩
        exact hleaves
    · refine ⟨by decide, ?_, ?_, ?_⟩ <;> rintro _ ⟨⟩
  let steps : List BuildStep :=
    [.start (.node ⟨.concat, none⟩) false, .start (.node (.stringLiteral " /> op=<\r")) true,
      .start .null true, .start (.node ⟨.negate, some (.int (-4))⟩) false, .close, .close]
  have hspelled : (Row.node tree.rootNode.toLeaf tree.below .nil).Spelled steps := by
    rw [Tree.below_plant]
    exact .node (.leaf (.null (.node .nil .nil))) .nil
  have hwritten : List.Forall₂ Written drafts _ :=
    .cons (.tree rfl hspelled) (.cons (.bare rfl) .nil)
  have hlaid : Laid (List.flatten [startChars .testcase (Draft.pairs drafts[0]) false ::
      steps.map stepChars ++ [endChars .testcase],
      [startChars .testcase (Draft.pairs drafts[1]) false, endChars .testcase]])
      source.content.toList := by
    refine (?_ : _ = source.content.toList) ▸
      @Laid.cons [] _ ['\r', '\n'] _ _ (List.all_eq_true.1 rfl) (.inr rfl)
      (@Laid.cons ['\t'] _ ['\n'] _ _ (List.all_eq_true.1 rfl) (.inl rfl)
      (@Laid.cons [' ', ' '] _ ['\n'] _ _ (List.all_eq_true.1 rfl) (.inl rfl)
      (@Laid.cons [' ', '\t'] _ ['\r', '\n'] _ _ (List.all_eq_true.1 rfl) (.inr rfl)
      (@Laid.cons [] _ ['\n'] _ _ (List.all_eq_true.1 rfl) (.inl rfl)
      (@Laid.cons [] _ ['\n'] _ _ (List.all_eq_true.1 rfl) (.inl rfl)
      (@Laid.cons [] _ ['\n'] _ _ (List.all_eq_true.1 rfl) (.inl rfl)
      (@Laid.cons [] _ ['\n'] _ _ (List.all_eq_true.1 rfl) (.inl rfl)
      (@Laid.cons ['\t', '\t'] _ ['\n'] _ _ (List.all_eq_true.1 rfl) (.inl rfl)
      (@Laid.cons [] _ ['\r', '\n'] _ _ (List.all_eq_true.1 rfl) (.inr rfl) .nil)))))))))
    decide +kernel
  exact ⟨hdrafts, load_written hdrafts hwritten hlaid⟩

end Suite

end TreeAssay
