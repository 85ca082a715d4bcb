import TreeAssay.Proofs.Runs.Expectations
import TreeAssay.Proofs.Suite.Loaded
/-!
# Printed texts are single lines

Nothing escapes a line feed in what is printed of a testcase.  None has to be escaped: the texts of
a testcase have no line feed, no value that is computed from them has one, and neither has a
message or a dump.
-/

namespace TreeAssay

/-- The text fits on a line. -/
def Unbroken (text : String) : Prop :=
  '\n' ∉ text.toList

instance (text : String) : Decidable (Unbroken text) :=
  inferInstanceAs (Decidable ('\n' ∉ text.toList))

theorem unbroken_append {a b : String} : Unbroken (a ++ b) ↔ Unbroken a ∧ Unbroken b := by
  rw [Unbroken, String.toList_append, List.mem_append, not_or]
  rfl

theorem unbroken_join {row : List String} (h : ∀ s ∈ row, Unbroken s) :
    Unbroken (String.join row) := by
  rw [Unbroken, String.toList_join, List.mem_flatMap]
  rintro ⟨s, hs, hfeed⟩
  exact h s hs hfeed

/-! ## Names and numbers -/

theorem Kind.unbroken_name (kind : Kind) : Unbroken kind.name := by
  cases kind <;> decide

theorem Operation.unbroken_name (op : Operation) : Unbroken op.name := by
  cases op <;> decide

theorem Decimal.unbroken_ofNat (n : Nat) : Unbroken (ofNat n) :=
  fun hfeed => absurd (isDigit_of_mem_ofNat hfeed) (by decide)

theorem Decimal.unbroken_ofInt64 (n : Int64) : Unbroken (ofInt64 n) :=
  fun hfeed => absurd ((spells_ofInt64 n).isDigit_or_sign hfeed) (by decide)

theorem Kind.unbroken_describeReach (kind : Kind) (reachable : Bool) :
    Unbroken (kind.describeReach reachable) := by
  cases kind <;> cases reachable <;> decide

/-- The errors about a labelled tree name operations, kinds and nodes. -/
theorem Kind.Answered.unbroken_message {goal : Kind} {root : Option Tree} {can : Bool}
    {result : Except ReductionError Value} (h : goal.Answered root can result)
    {error : ReductionError} (herror : result = .error error) : Unbroken error.message := by
  obtain ⟨_, hrefused⟩ | ⟨_, hyields⟩ := h.cases
  · rw [hrefused] at herror
    cases herror
    cases root with
    | none => exact unbroken_append.2 ⟨by decide, goal.unbroken_name⟩
    | some t =>
        unfold refusal ReductionError.message
        simp only [unbroken_append, Decimal.unbroken_ofNat, t.rootNode.op.unbroken_name,
          goal.unbroken_name]
        decide
  · rw [herror] at hyields
    cases hyields with
    | divisionByZero => decide
    | overflow op => exact unbroken_append.2 ⟨by decide, op.unbroken_name⟩

/-! ## Values -/

theorem Leaf.unbroken_text {leaf : Leaf} (hleaf : leaf.Writable)
    {integers : Except CalcFault (List Int64)} {texts : Except CalcFault (List String)}
    (htexts : ∀ row, texts = .ok row → ∀ s ∈ row, Unbroken s) {s : String}
    (h : leaf.text integers texts = .ok s) : Unbroken s := by
  rw [text] at h
  split at h
  next =>
    cases h
    have hempty : Unbroken "" := by decide
    obtain ⟨op, _ | n | s⟩ := leaf
    · exact hempty
    · exact hempty
    · exact hleaf.unbroken s rfl
  next =>
    obtain ⟨row, hrow, rfl⟩ := map_eq_ok.1 h
    exact unbroken_join (htexts row hrow)
  next =>
    obtain ⟨n, _, rfl⟩ := map_eq_ok.1 h
    rw [← Decimal.ofInt64_eq_toString]
    exact Decimal.unbroken_ofInt64 n

theorem Row.unbroken_texts {row : Row} (h : ∀ l ∈ row.leaves, l.Writable) {texts : List String}
    (htexts : row.texts = .ok texts) : ∀ s ∈ texts, Unbroken s := by
  induction row generalizing texts with
  | nil =>
      cases htexts
      simp
  | null next ih => exact ih h htexts
  | node leaf below next ihBelow ihNext =>
      rw [leaves, List.cons_append, List.forall_mem_cons, List.forall_mem_append] at h
      obtain ⟨hleaf, hbelow, hnext⟩ := h
      rw [Row.texts] at htexts
      cases hlater : next.texts with
      | error fault =>
          rw [hlater] at htexts
          cases htexts
      | ok later =>
          rw [hlater, ok_bind] at htexts
          obtain ⟨s, hs, rfl⟩ := map_eq_ok.1 htexts
          exact List.forall_mem_cons.2
            ⟨leaf.unbroken_text hleaf (fun row => ihBelow hbelow) hs, ihNext hnext hlater⟩

theorem Tree.unbroken_meaning {leaf : Leaf} {below : Row}
    (h : ∀ l ∈ leaf :: below.leaves, l.Writable) {goal : Kind} {v : Value}
    (hvalue : (plant leaf below).meaning goal = .ok v) : Unbroken v.display := by
  obtain ⟨hleaf, hbelow⟩ := List.forall_mem_cons.1 h
  rw [meaning, below_plant] at hvalue
  cases goal with
  | int | short =>
      obtain ⟨n, _, rfl⟩ := map_eq_ok.1 hvalue
      exact Decimal.unbroken_ofInt64 n
  | string =>
      obtain ⟨s, hs, rfl⟩ := map_eq_ok.1 hvalue
      exact Leaf.unbroken_text hleaf (fun row => Row.unbroken_texts hbelow) hs

/-! ## Dumps -/

namespace Dump

/-- Neither the literal of the node nor its label has a line feed. -/
def NodeUnbroken (node : Node) (label : Option String) : Prop :=
  (∀ text, node.payload.map Value.display = some text → Unbroken text) ∧
    ∀ text, label = some text → Unbroken text

theorem unbroken_attributes {node : Node} {label : Option String} (h : NodeUnbroken node label) :
    Unbroken (attributes node label) := by
  have hpair {name value : String} (hname : Unbroken name) (hvalue : Unbroken value) :
      Unbroken (pair name value) := by
    simp only [pair, unbroken_append, hname, hvalue]
    decide
  obtain ⟨hpayload, hlabel⟩ := h
  unfold attributes
  refine unbroken_append.2 ⟨?_, ?_⟩
  · generalize node.payload = payload at hpayload
    cases payload with
    | none => exact (by decide : Unbroken "")
    | some payload => exact hpair (by decide) (hpayload _ rfl)
  · cases label with
    | none => exact (by decide : Unbroken "")
    | some label => exact hpair (by decide) (hlabel _ rfl)

theorem unbroken_visitText {label : Nat → Option String} {v : Visit}
    (h : ∀ id node, v.begun? = some (id, node) → NodeUnbroken node (label id)) :
    Unbroken (visitText label v) := by
  cases v with
  | leaf id node =>
      have hattributes := unbroken_attributes (h id node rfl)
      simp only [visitText, leafTag, unbroken_append, node.op.unbroken_name, hattributes]
      split <;> decide
  | enter id node =>
      have hattributes := unbroken_attributes (h id node rfl)
      simp only [visitText, startTag, unbroken_append, node.op.unbroken_name, hattributes]
      decide
  | null => exact (by decide : Unbroken nullSlot)
  | leave node =>
      simp only [visitText, endTag, unbroken_append, node.op.unbroken_name]
      decide

theorem unbroken_render {d : Draft} (h : d.Writable) {label : Nat → Option String}
    (hlabel : ∀ id text, label id = some text → Unbroken text) :
    Unbroken (render d.root label) := by
  cases hroot : d.root with
  | none => exact (by decide : Unbroken nullSlot)
  | some t =>
      obtain ⟨leaf, below, rfl⟩ := (h.built t hroot).eq_plant
      have hleaves := Tree.forall_nodes_plant.1 (h.nodes _ hroot)
      rw [Unbroken, toList_render]
      intro hfeed
      obtain ⟨tag, htag, hmem⟩ := List.mem_flatten.1 hfeed
      obtain ⟨v, hv, rfl⟩ := List.mem_map.1 htag
      refine unbroken_visitText (fun id node hbegun => ⟨?_, hlabel id⟩) hmem
      have hleaf := (Row.begun_of_mem_visits hv hbegun).2
      rw [Row.leaves, Row.leaves, List.append_nil] at hleaf
      exact Suite.feed_notMem_display (hleaves _ hleaf)

theorem startsWith_render {root : Option Tree} (h : ∀ t, root = some t → t.Built)
    (label : Nat → Option String) : (render root label).startsWith "<" := by
  rw [String.startsWith_string_iff]
  cases root with
  | none => exact (by decide : "<".toList <+: nullSlot.toList)
  | some t =>
      obtain ⟨leaf, below, rfl⟩ := (h t rfl).eq_plant
      rw [toList_render]
      by_cases hbelow : below = .nil
      · subst hbelow
        rw [Row.visits, List.map_cons, List.flatten_cons, visitText, toList_leafTag]
        exact ⟨_, rfl⟩
      · rw [Row.visits_node_of_ne hbelow, List.cons_append, List.map_cons, List.flatten_cons,
          visitText, toList_startTag]
        exact ⟨_, rfl⟩

end Dump

end TreeAssay
