import TreeAssay.Proofs.Text.Decimal
import TreeAssay.Tree.Node
/-!
# Leaves from names and content texts

An operation is found by its name.  A leaf without content carries nothing, a string
literal keeps its content, and every other operation carries the word that its content
spells.
-/

namespace TreeAssay

theorem Operation.resolve_eq_ok {name : String} {op : Operation} :
    resolve name = .ok op ↔ name = op.name := by
  constructor
  · intro h
    rw [resolve] at h
    split at h
    next found hfound =>
      cases h
      have hname := List.find?_some hfound
      exact (of_decide_eq_true hname).symm
    next => cases h
  · rintro rfl
    exact resolve_name op

namespace Leaf

/-- What an operation carries, given its content text. -/
inductive Carries (op : Operation) : Option String → Leaf → Prop
  | nothing : Carries op none ⟨op, none⟩
  | text {s} : op = .stringLiteral → Carries op (some s) (.stringLiteral s)
  | int {s n} : op ≠ .stringLiteral → Decimal.Spells s.toList n →
      Carries op (some s) ⟨op, some (.int n)⟩

theorem ofContent_eq_ok {op : Operation} {content : Option String} {leaf : Leaf} :
    ofContent op content = .ok leaf ↔ Carries op content leaf := by
  constructor
  · intro h
    cases content with
    | none =>
        cases h
        exact .nothing
    | some s =>
        rw [ofContent] at h
        by_cases hop : op = .stringLiteral
        · subst hop
          cases h
          exact .text rfl
        · have hliteral : op.isStringLiteral = false := decide_eq_false hop
          rw [hliteral, if_neg Bool.false_ne_true] at h
          split at h
          next n hn =>
            cases h
            exact .int hop (Decimal.read?_eq_some.1 hn)
          next => cases h
  · intro h
    cases h with
    | nothing => rfl
    | text hop =>
        subst hop
        rfl
    | int hop hspells =>
        have hliteral : op.isStringLiteral = false := decide_eq_false hop
        rw [ofContent, hliteral, if_neg Bool.false_ne_true, Decimal.read?_eq_some.2 hspells]

end Leaf

end TreeAssay
