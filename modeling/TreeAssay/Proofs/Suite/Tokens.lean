import TreeAssay.Proofs.Outcome
import TreeAssay.Proofs.Trees.Construction
import TreeAssay.Proofs.Trees.Content
import TreeAssay.Suite.Mark
/-!
# What the lines of a suite say

A line that starts or ends a testcase or a node is an event; no other line counts.  An
event says something (a token) when its attributes make sense: the kind that a testcase
asks for is known, and a node is either null or an operation with a content that it can
carry.
-/

namespace TreeAssay

namespace Attributes

inductive Expects (attrs : Attributes) : Expectation → Prop
  | canProduce {kind} : attrs.nonEmpty? "canProduce" = some kind.name →
      Expects attrs (.canProduce kind)
  | cannotProduce {kind} : attrs.nonEmpty? "canProduce" = none →
      attrs.nonEmpty? "cannotProduce" = some kind.name → Expects attrs (.cannotProduce kind)
  | value {kind} : attrs.nonEmpty? "canProduce" = none →
      attrs.nonEmpty? "cannotProduce" = none → (attrs.get? "type").getD "" = kind.name →
      Expects attrs (.value kind ((attrs.get? "expected").getD ""))

/-- The entry that the attributes of a node state: `null` alone, or `op` alone with what
its content says. -/
inductive Enters (attrs : Attributes) : Entry → Prop
  | null : attrs.nonEmpty? "op" = none → attrs.isTruthy "null" → Enters attrs .null
  | node {op leaf} : attrs.nonEmpty? "op" = some op.name → ¬ attrs.isTruthy "null" →
      Leaf.Carries op (attrs.get? "content") leaf → Enters attrs (.node leaf)

end Attributes

theorem Kind.resolve_eq_ok {name : String} {kind : Kind} :
    resolve name = .ok kind ↔ name = kind.name := by
  constructor
  · intro h
    rw [resolve] at h
    split at h
    next found hfound =>
      cases h
      have hname := List.find?_some hfound
      exact (of_decide_eq_true hname).symm
    next => cases h
  · rintro rfl
    exact resolve_name kind

namespace Suite

theorem expectation_eq_ok {attrs : Attributes} {e : Expectation} :
    expectation attrs = .ok e ↔ attrs.Expects e := by
  unfold expectation
  cases hcan : attrs.nonEmpty? "canProduce" with
  | some name =>
      simp only [map_eq_ok, Kind.resolve_eq_ok]
      constructor
      · rintro ⟨kind, rfl, rfl⟩
        exact .canProduce hcan
      · intro h
        cases h with
        | canProduce hname => exact ⟨_, Option.some.inj (hcan.symm.trans hname), rfl⟩
        | cannotProduce hnone _ => simp [hcan] at hnone
        | value hnone _ _ => simp [hcan] at hnone
  | none =>
      cases hcannot : attrs.nonEmpty? "cannotProduce" with
      | some name =>
          simp only [map_eq_ok, Kind.resolve_eq_ok]
          constructor
          · rintro ⟨kind, rfl, rfl⟩
            exact .cannotProduce hcan hcannot
          · intro h
            cases h with
            | canProduce hname => simp [hcan] at hname
            | cannotProduce _ hname => exact ⟨_, Option.some.inj (hcannot.symm.trans hname), rfl⟩
            | value _ hnone _ => simp [hcannot] at hnone
      | none =>
          simp only [map_eq_ok, Kind.resolve_eq_ok]
          constructor
          · rintro ⟨kind, hname, rfl⟩
            exact .value hcan hcannot hname
          · intro h
            cases h with
            | canProduce hname => simp [hcan] at hname
            | cannotProduce _ hname => simp [hcannot] at hname
            | value _ _ hname => exact ⟨_, hname, rfl⟩

theorem entry_eq_ok {attrs : Attributes} {e : Entry} : entry attrs = .ok e ↔ attrs.Enters e := by
  constructor
  · intro h
    unfold entry at h
    split at h
    next => cases h
    next => cases h
    next hop hnull =>
      cases h
      exact .null hop hnull
    next name hop hnull =>
      split at h
      next => cases h
      next op hresolve =>
        split at h
        next => cases h
        next leaf hleaf =>
          cases h
          rw [Operation.resolve_eq_ok.1 hresolve] at hop
          exact .node hop (by simp [hnull]) (Leaf.ofContent_eq_ok.1 hleaf)
  · intro h
    unfold entry
    cases h with
    | null hop hnull => rw [hop, hnull]
    | node hop hnull hleaf =>
        rw [hop, eq_false_of_ne_true hnull]
        simp only [Operation.resolve_name, Leaf.ofContent_eq_ok.2 hleaf]

/-! ## Events -/

inductive Event
  | startTestcase (attrs : Attributes) (selfClosing : Bool)
  | endTestcase
  | startNode (attrs : Attributes) (selfClosing : Bool)
  | endNode

/-- The event of a line, unless its first tag is none of the two or does neither start
nor end. -/
def Event.ofLine? (line : List Char) : Option Event :=
  (Tag.name? line).bind fun name => (Tag.form? line name).bind fun form =>
    if name = "Testcase".toList then
      match form with
      | .opening => some (.startTestcase (.ofTag line) false)
      | .selfClosing => some (.startTestcase (.ofTag line) true)
      | .closing => some .endTestcase
    else if name = "Node".toList then
      match form with
      | .opening => some (.startNode (.ofTag line) false)
      | .selfClosing => some (.startNode (.ofTag line) true)
      | .closing => some .endNode
    else none

def Mark.event? (line : List Char) : Mark → Option Event
  | .foreign | .unreadable _ => none
  | .tag .testcase .closing => some .endTestcase
  | .tag .testcase form => some (.startTestcase (.ofTag line) (form = .selfClosing))
  | .tag .node .closing => some .endNode
  | .tag .node form => some (.startNode (.ofTag line) (form = .selfClosing))

theorem ofName?_eq (name : List Char) :
    Subject.ofName? name = if name = "Testcase".toList then some .testcase
      else if name = "Node".toList then some .node else none := by
  unfold Subject.ofName?
  rw [List.find?_cons, List.find?_cons, List.find?_nil]
  by_cases htestcase : name = "Testcase".toList
  · rw [if_pos htestcase, htestcase]
    rfl
  · rw [if_neg htestcase, show decide (name = Subject.testcase.tag.toList) = false from
      decide_eq_false htestcase]
    by_cases hnode : name = "Node".toList
    · rw [if_pos hnode, hnode]
      rfl
    · rw [if_neg hnode, show decide (name = Subject.node.tag.toList) = false from
        decide_eq_false hnode]

theorem event?_ofLine (line : List Char) :
    (Mark.ofLine line).event? line = Event.ofLine? line := by
  unfold Mark.ofLine Event.ofLine?
  cases Tag.name? line with
  | none => rfl
  | some name =>
      simp only [Option.bind_some, ofName?_eq]
      by_cases htestcase : name = "Testcase".toList
      · simp only [htestcase, if_true]
        cases Tag.form? line "Testcase".toList with
        | none => rfl
        | some form => cases form <;> rfl
      · simp only [htestcase, if_false]
        by_cases hnode : name = "Node".toList
        · simp only [hnode, if_true]
          cases Tag.form? line "Node".toList with
          | none => rfl
          | some form => cases form <;> rfl
        · simp only [hnode, if_false]
          cases Tag.form? line name <;> rfl

/-! ## Tokens -/

structure Heading where
  line : Nat
  name : String
  expectation : Expectation

inductive Token
  | testcase (heading : Heading) (selfClosing : Bool)
  | endTestcase
  | node (step : BuildStep)

inductive Tells (line : Line) : Token → Prop
  | testcase {attrs selfClosing expectation} :
      Event.ofLine? line.text = some (.startTestcase attrs selfClosing) →
      attrs.Expects expectation →
      Tells line (.testcase ⟨line.number, (attrs.get? "name").getD "", expectation⟩ selfClosing)
  | endTestcase : Event.ofLine? line.text = some .endTestcase → Tells line .endTestcase
  | start {attrs selfClosing entry} :
      Event.ofLine? line.text = some (.startNode attrs selfClosing) → attrs.Enters entry →
      Tells line (.node (.start entry selfClosing))
  | close : Event.ofLine? line.text = some .endNode → Tells line (.node .close)

theorem Tells.exists_mark {line : Line} {token : Token} (h : Tells line token) :
    ∃ subject form, Mark.ofLine line.text = .tag subject form := by
  obtain ⟨event, hevent⟩ : ∃ event, Event.ofLine? line.text = some event := by
    cases h with
    | testcase htext _ => exact ⟨_, htext⟩
    | endTestcase htext => exact ⟨_, htext⟩
    | start htext _ => exact ⟨_, htext⟩
    | close htext => exact ⟨_, htext⟩
  rw [← event?_ofLine] at hevent
  cases hmark : Mark.ofLine line.text with
  | foreign =>
      rw [hmark] at hevent
      cases hevent
  | unreadable subject =>
      rw [hmark] at hevent
      cases hevent
  | tag subject form => exact ⟨subject, form, rfl⟩

/-- The tokens of the lines that have an event, in order.  Every event has to say
something. -/
inductive Decoded : List Line → List Token → Prop
  | nil : Decoded [] []
  | skip {line lines tokens} : Event.ofLine? line.text = none → Decoded lines tokens →
      Decoded (line :: lines) tokens
  | take {line lines token tokens} : Tells line token → Decoded lines tokens →
      Decoded (line :: lines) (token :: tokens)

end Suite

end TreeAssay
