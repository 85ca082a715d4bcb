import TreeAssay.Proofs.Reduction.Meaning
import TreeAssay.Reduction.Labelling
/-!
# The cost table of a node

An operation has at most one pattern, so a table that is not empty holds the kind
of one pattern and what conversions make of it.  This gives tables a closed form
(`grown`), from which it is read off that a table has an entry for exactly the
derivable kinds and that its entries lead back to the pattern.
-/

namespace TreeAssay

def Operation.pattern? : Operation → Option Pattern
  | .add => some .add
  | .addStrict => some .addStrict
  | .concat => some .concat
  | .divide => some .divide
  | .intLiteral => some .intLiteral
  | .multiply => some .multiply
  | .negate => some .negate
  | .qualifiedLiteral => none
  | .shortLiteral => some .shortLiteral
  | .stringLiteral => some .stringLiteral
  | .subtract => some .subtract

theorem Operation.filter_all (op : Operation) :
    (Pattern.all.filter fun pattern => pattern.op = op) = op.pattern?.toList := by
  cases op <;> rfl

theorem Operation.pattern?_eq_some {op : Operation} {p : Pattern} :
    op.pattern? = some p ↔ op = p.op := by
  cases op <;> cases p <;> decide

/-- The conversions from one kind to another, the last one first. -/
def Kind.path? : Kind → Kind → Option (List Conversion)
  | .int, .int | .short, .short | .string, .string => some []
  | .int, .string => some [.format]
  | .short, .int => some [.widen]
  | .short, .string => some [.format, .widen]
  | _, _ => none

theorem Kind.path?_int {kind : Kind} {path : List Conversion}
    (h : kind.path? .short = some path) : kind.path? .int = some (.widen :: path) := by
  cases kind <;> simp [path?] at h ⊢
  exact h

theorem Kind.path?_string {kind : Kind} {path : List Conversion}
    (h : kind.path? .int = some path) : kind.path? .string = some (.format :: path) := by
  cases kind <;> simp [path?] at h ⊢ <;> exact h

/-! ## Derivable kinds and the rules -/

/-- The pattern takes a node with the leaf and so many slots, all of which derive
what the pattern asks of them. -/
structure Pattern.Takes (p : Pattern) (leaf : Leaf) (count : Nat) (operands : Kind → Prop) :
    Prop where
  op : leaf.op = p.op
  accepts : p.operands.accepts count
  guard : p.guard leaf
  operands : ∀ kind, p.operands.kind? = some kind → operands kind

section Rules

variable {leaf : Leaf} {count : Nat} {operands : Kind → Prop}

theorem Pattern.Takes.of_kind? {p : Pattern} (hop : leaf.op = p.op)
    (haccepts : p.operands.accepts count) (hguard : p.guard leaf) {kind : Kind}
    (hkind : p.operands.kind? = some kind) (hoperands : operands kind) :
    p.Takes leaf count operands := by
  refine ⟨hop, haccepts, hguard, ?_⟩
  intro kind' hkind'
  have hsame : kind = kind' := Option.some.inj (hkind.symm.trans hkind')
  rwa [← hsame]

theorem Pattern.Takes.of_none {p : Pattern} (hop : leaf.op = p.op)
    (haccepts : p.operands.accepts count) (hguard : p.guard leaf)
    (hkind : p.operands.kind? = none) : p.Takes leaf count operands := by
  refine ⟨hop, haccepts, hguard, ?_⟩
  intro kind' hkind'
  cases hkind.symm.trans hkind'

theorem Leaf.derives_produces {p : Pattern} (h : p.Takes leaf count operands) :
    leaf.Derives count operands p.produces := by
  obtain ⟨op, payload⟩ := leaf
  obtain ⟨hop, haccepts, hguard, hoperands⟩ := h
  simp only at hop
  subst hop
  cases p with
  | intLiteral =>
      match payload, hguard with
      | some (.int n), _ => exact .intLiteral rfl (eq_of_beq haccepts)
  | shortLiteral =>
      match payload, hguard with
      | some (.int n), hguard =>
          have hshort : -32768 ≤ n.toInt ∧ n.toInt ≤ 32767 := of_decide_eq_true hguard
          exact .shortLiteral rfl hshort.1 hshort.2 (eq_of_beq haccepts)
  | stringLiteral =>
      match payload, hguard with
      | some (.text s), _ => exact .stringLiteral rfl (eq_of_beq haccepts)
  | add => exact .add rfl (of_decide_eq_true haccepts) (hoperands _ rfl)
  | addStrict | subtract | multiply | divide =>
      exact .binary (by simp [Pattern.op]) (eq_of_beq haccepts) (hoperands _ rfl)
  | negate => exact .negate rfl (eq_of_beq haccepts) (hoperands _ rfl)
  | concat => exact .concat rfl (of_decide_eq_true haccepts) (hoperands _ rfl)

theorem Leaf.Derives.of_path? {kind goal : Kind} {path : List Conversion}
    (h : leaf.Derives count operands kind) (hpath : kind.path? goal = some path) :
    leaf.Derives count operands goal := by
  cases kind <;> cases goal <;> simp [Kind.path?] at hpath
  · exact h
  · exact .format h
  · exact .widen h
  · exact h
  · exact .format (.widen h)
  · exact h

/-- A node derives a kind exactly when its pattern takes it and conversions lead from
what the pattern produces to the kind. -/
theorem Leaf.derives_iff {goal : Kind} :
    leaf.Derives count operands goal ↔
      ∃ (p : Pattern) (path : List Conversion),
        p.Takes leaf count operands ∧ p.produces.path? goal = some path := by
  constructor
  · intro h
    induction h with
    | intLiteral hleaf hcount =>
        subst hleaf hcount
        exact ⟨.intLiteral, [], .of_none rfl rfl rfl rfl, rfl⟩
    | shortLiteral hleaf hlow hhigh hcount =>
        subst hleaf hcount
        exact ⟨.shortLiteral, [], .of_none rfl rfl (decide_eq_true ⟨hlow, hhigh⟩) rfl, rfl⟩
    | stringLiteral hleaf hcount =>
        subst hleaf hcount
        exact ⟨.stringLiteral, [], .of_none rfl rfl rfl rfl, rfl⟩
    | add hop hcount hoperands =>
        exact ⟨.add, [], .of_kind? hop (decide_eq_true hcount) rfl rfl hoperands, rfl⟩
    | binary hop hcount hoperands =>
        simp only [List.mem_cons, List.not_mem_nil, or_false] at hop
        subst hcount
        rcases hop with hop | hop | hop | hop
        · exact ⟨.addStrict, [], .of_kind? hop rfl rfl rfl hoperands, rfl⟩
        · exact ⟨.subtract, [], .of_kind? hop rfl rfl rfl hoperands, rfl⟩
        · exact ⟨.multiply, [], .of_kind? hop rfl rfl rfl hoperands, rfl⟩
        · exact ⟨.divide, [], .of_kind? hop rfl rfl rfl hoperands, rfl⟩
    | negate hop hcount hoperands =>
        subst hcount
        exact ⟨.negate, [], .of_kind? hop rfl rfl rfl hoperands, rfl⟩
    | concat hop hcount hoperands =>
        exact ⟨.concat, [], .of_kind? hop (decide_eq_true hcount) rfl rfl hoperands, rfl⟩
    | widen _ ih =>
        obtain ⟨p, path, htakes, hpath⟩ := ih
        exact ⟨p, _, htakes, Kind.path?_int hpath⟩
    | format _ ih =>
        obtain ⟨p, path, htakes, hpath⟩ := ih
        exact ⟨p, _, htakes, Kind.path?_string hpath⟩
  · rintro ⟨p, path, htakes, hpath⟩
    exact (Leaf.derives_produces htakes).of_path? hpath

end Rules

/-! ## Tables in closed form -/

namespace CostTable

/-- The table of a pattern that is used at a cost, with what conversions make of it. -/
def grown (p : Pattern) (cost : UInt32) : CostTable :=
  let convert (known : UInt32) (conversion : Conversion) : Derivation :=
    ⟨Cost.plus known conversion.cost, .conversion conversion⟩
  let base : Derivation := ⟨cost, .pattern p⟩
  match p.produces with
  | .int => { int := some base, string := some (convert cost .format) }
  | .short =>
    let widened := convert cost .widen
    { short := some base, int := some widened, string := some (convert widened.cost .format) }
  | .string => { string := some base }

theorem close_empty : close {} = {} := by
  rw [close, dif_pos (by rfl)]

-- One pass over the conversions is enough, since they are tried in the order in which they
-- build on each other; the second pass changes nothing.
theorem close_of_convertAll {table closed : CostTable} (hstep : table.convertAll = closed)
    (hclosed : closed.convertAll = closed) : table.close = closed := by
  rw [close]
  split
  next h => rw [← hstep, h]
  next h => rw [hstep, close, dif_pos hclosed]

theorem offer_none {table : CostTable} {kind : Kind} {derivation : Derivation}
    (h : table.get? kind = none) : table.offer kind derivation = table.set kind derivation := by
  rw [offer, h]

theorem offer_empty (kind : Kind) (derivation : Derivation) :
    offer {} kind derivation = set {} kind derivation :=
  offer_none (by cases kind <;> rfl)

theorem close_set (p : Pattern) (cost : UInt32) :
    (set {} p.produces ⟨cost, .pattern p⟩).close = grown p cost := by
  apply close_of_convertAll
  · cases p <;> rfl
  · unfold grown
    cases p.produces <;>
      simp [convertAll, Conversion.all, convert, get?, offer, Conversion.source, Conversion.target]

theorem get?_grown_isSome (p : Pattern) (cost : UInt32) (goal : Kind) :
    ((grown p cost).get? goal).isSome = (p.produces.path? goal).isSome := by
  unfold grown
  cases p.produces <;> cases goal <;> rfl

theorem chain?_grown (p : Pattern) (cost : UInt32) (goal : Kind) :
    (grown p cost).chain? goal = (p.produces.path? goal).map fun path => (path, p) := by
  unfold grown
  cases p.produces <;> cases goal <;> rfl

/-- Following the rules of a table from a kind leads through conversions to a pattern. -/
inductive Follows (table : CostTable) : Kind → List Conversion → Pattern → Prop
  | pattern {kind cost p} : table.get? kind = some ⟨cost, .pattern p⟩ → Follows table kind [] p
  | conversion {kind cost conversion path p} :
      table.get? kind = some ⟨cost, .conversion conversion⟩ →
      Follows table conversion.source path p → Follows table kind (conversion :: path) p

theorem follows_of_chainWithin? {table : CostTable} {entries : Nat} {kind : Kind}
    {path : List Conversion} {p : Pattern}
    (h : table.chainWithin? entries kind = some (path, p)) : table.Follows kind path p := by
  induction entries generalizing kind path with
  | zero => cases h
  | succ entries ih =>
      rw [chainWithin?] at h
      split at h
      next => cases h
      next hentry =>
        cases h
        exact .pattern hentry
      next cost conversion hentry =>
        obtain ⟨⟨rest, _⟩, hrest, heq⟩ := Option.map_eq_some_iff.1 h
        cases heq
        exact .conversion hentry (ih hrest)

theorem Follows.get?_isSome {table : CostTable} {kind : Kind} {path : List Conversion}
    {p : Pattern} (h : table.Follows kind path p) : (table.get? kind).isSome := by
  cases h with
  | pattern hentry => rw [hentry]; rfl
  | conversion hentry _ => rw [hentry]; rfl

theorem Follows.unique {table : CostTable} {kind : Kind} {path path' : List Conversion}
    {p p' : Pattern} (h : table.Follows kind path p) (h' : table.Follows kind path' p') :
    path = path' ∧ p = p' := by
  induction h generalizing path' with
  | pattern hentry =>
      cases h' with
      | pattern hentry' => simp_all
      | conversion hentry' _ => simp_all
  | conversion hentry _ ih =>
      cases h' with
      | pattern hentry' => simp_all
      | conversion hentry' hrest' =>
          rw [hentry] at hentry'
          cases hentry'
          obtain ⟨rfl, rfl⟩ := ih hrest'
          exact ⟨rfl, rfl⟩

/-- A chain of conversions starts at every entry. -/
def Complete (table : CostTable) : Prop :=
  ∀ kind, (table.get? kind).isSome → (table.chain? kind).isSome

theorem Complete.chain?_eq_none {table : CostTable} (h : table.Complete) {kind : Kind} :
    table.chain? kind = none ↔ table.get? kind = none := by
  constructor
  · intro hchain
    cases hentry : table.get? kind with
    | none => rfl
    | some entry =>
        have := h kind (by rw [hentry]; rfl)
        rw [hchain] at this
        cases this
  · intro hentry
    simp only [chain?, Kind.all, List.length_cons, chainWithin?, hentry]

theorem Complete.chain?_eq_some {table : CostTable} (h : table.Complete) {kind : Kind}
    {path : List Conversion} {p : Pattern} :
    table.chain? kind = some (path, p) ↔ table.Follows kind path p := by
  constructor
  · exact follows_of_chainWithin?
  · intro hfollows
    obtain ⟨⟨path', p'⟩, hchain⟩ := Option.isSome_iff_exists.1 (h kind hfollows.get?_isSome)
    obtain ⟨rfl, rfl⟩ := hfollows.unique (follows_of_chainWithin? hchain)
    exact hchain

theorem complete_grown (p : Pattern) (cost : UInt32) : (grown p cost).Complete := by
  intro kind hentry
  rw [get?_grown_isSome] at hentry
  rwa [chain?_grown, Option.isSome_map]

end CostTable

/-! ## The table of a node from the tables below it -/

def CostTable.Offers (kind : Kind) (table : Option CostTable) : Prop :=
  (table.bind (·.get? kind)).isSome

namespace Leaf

def addCost (kind : Kind) (total : UInt32) (table : Option CostTable) : Option UInt32 :=
  (table.bind (·.get? kind)).map fun derivation => Cost.plus total derivation.cost

def patternCost? (leaf : Leaf) (children : List (Option CostTable)) (p : Pattern) :
    Option UInt32 :=
  if p.operands.accepts children.length && p.guard leaf then
    match p.operands.kind? with
    | none => some p.cost
    | some kind => children.foldlM (addCost kind) p.cost
  else none

def table (leaf : Leaf) (children : List (Option CostTable)) : CostTable :=
  match leaf.op.pattern? with
  | none => {}
  | some p =>
    match leaf.patternCost? children p with
    | none => {}
    | some cost => .grown p cost

theorem complete_table (leaf : Leaf) (children : List (Option CostTable)) :
    (leaf.table children).Complete := by
  have hempty : CostTable.Complete {} := by
    intro kind hentry
    cases kind <;> cases hentry
  rw [table]
  split
  next => exact hempty
  next p _ =>
    split
    next => exact hempty
    next cost _ => exact CostTable.complete_grown p cost

theorem foldlM_addCost_isSome (kind : Kind) (children : List (Option CostTable))
    (total : UInt32) :
    (children.foldlM (addCost kind) total).isSome ↔
      ∀ table ∈ children, CostTable.Offers kind table := by
  induction children generalizing total with
  | nil => simp
  | cons table children ih =>
      rw [List.foldlM_cons, List.forall_mem_cons, CostTable.Offers, addCost]
      cases htable : table.bind (·.get? kind) with
      | none => simp
      | some derivation => simpa using ih _

theorem patternCost?_isSome {leaf : Leaf} {children : List (Option CostTable)} {p : Pattern} :
    (leaf.patternCost? children p).isSome ↔
      p.operands.accepts children.length ∧ p.guard leaf ∧
        ∀ kind, p.operands.kind? = some kind → ∀ table ∈ children, CostTable.Offers kind table := by
  rw [patternCost?]
  by_cases hfits : p.operands.accepts children.length && p.guard leaf
  · rw [if_pos hfits]
    simp only [Bool.and_eq_true] at hfits
    cases hkind : p.operands.kind? with
    | none => simp [hfits]
    | some kind => simpa [hfits] using foldlM_addCost_isSome kind children p.cost
  · rw [if_neg hfits]
    simp only [Bool.and_eq_true, not_and] at hfits
    simp only [Option.isSome_none, Bool.false_eq_true, false_iff]
    rintro ⟨haccepts, hguard, _⟩
    exact hfits haccepts hguard

theorem table_of_takes {leaf : Leaf} {children : List (Option CostTable)} {p : Pattern}
    (h : p.Takes leaf children.length
      fun kind => ∀ table ∈ children, CostTable.Offers kind table) :
    ∃ cost, leaf.table children = .grown p cost := by
  have hp : leaf.op.pattern? = some p := Operation.pattern?_eq_some.2 h.op
  obtain ⟨cost, hcost⟩ := Option.isSome_iff_exists.1
    (patternCost?_isSome.2 ⟨h.accepts, h.guard, h.operands⟩)
  exact ⟨cost, by rw [table, hp]; simp only [hcost]⟩

/-- The table of a node has an entry for exactly the kinds that the node derives. -/
theorem offers_table_iff {leaf : Leaf} {children : List (Option CostTable)} {goal : Kind} :
    CostTable.Offers goal (some (leaf.table children)) ↔
      leaf.Derives children.length
        (fun kind => ∀ table ∈ children, CostTable.Offers kind table) goal := by
  rw [derives_iff]
  constructor
  · intro h
    rw [CostTable.Offers, Option.bind_some, table] at h
    cases hp : leaf.op.pattern? with
    | none => cases goal <;> simp [hp, CostTable.get?] at h
    | some p =>
        cases hcost : leaf.patternCost? children p with
        | none => cases goal <;> simp [hp, hcost, CostTable.get?] at h
        | some cost =>
            have htakes := patternCost?_isSome.1 (Option.isSome_iff_exists.2 ⟨cost, hcost⟩)
            simp only [hp, hcost, CostTable.get?_grown_isSome] at h
            obtain ⟨path, hpath⟩ := Option.isSome_iff_exists.1 h
            exact ⟨p, path, ⟨Operation.pattern?_eq_some.1 hp, htakes.1, htakes.2.1, htakes.2.2⟩,
              hpath⟩
  · rintro ⟨p, path, htakes, hpath⟩
    obtain ⟨cost, htable⟩ := table_of_takes htakes
    rw [CostTable.Offers, Option.bind_some, htable, CostTable.get?_grown_isSome, hpath]
    rfl

end Leaf

namespace Row

def tables : Row → List (Option CostTable)
  | .nil => []
  | .null next => none :: next.tables
  | .node leaf below next => some (leaf.table below.tables) :: next.tables

theorem length_tables (row : Row) : row.tables.length = row.length := by
  induction row with
  | nil => rfl
  | null next ih => rw [tables, List.length_cons, ih, length]
  | node leaf below next _ ih => rw [tables, List.length_cons, ih, length]

/-- A row derives a kind exactly when all its tables have an entry for it. -/
theorem derives_iff_tables {row : Row} {kind : Kind} :
    row.Derives kind ↔ ∀ table ∈ row.tables, CostTable.Offers kind table := by
  induction row generalizing kind with
  | nil => simp [Derives, tables]
  | null next ih => simp [Derives, tables, CostTable.Offers]
  | node leaf below next ihBelow ihNext =>
      rw [Derives, tables, List.forall_mem_cons, ihNext, Leaf.offers_table_iff, length_tables]
      simp only [ihBelow]

end Row

/-! ## The table that labelling gives a node -/

namespace States

def slotTable? (s : States) (labels : Labels StateId) : Slot → Option CostTable
  | .null => none
  | .node id => s.tableOf? labels id

theorem patternCost?_eq (s : States) (labels : Labels StateId) (node : Node) (p : Pattern) :
    s.patternCost? labels node p =
      node.toLeaf.patternCost? (node.slots.toList.map (s.slotTable? labels)) p := by
  have hstep (kind : Kind) (total : UInt32) (slot : Slot) :
      (s.slotCost? labels kind slot).map (Cost.plus total) =
        Leaf.addCost kind total (s.slotTable? labels slot) := by
    cases slot with
    | null => rfl
    | node id => simp [slotCost?, Leaf.addCost, slotTable?, Function.comp_def]
  have hslots (kind : Kind) : s.slotsCost? labels kind p.cost node.slots.toList =
      (node.slots.toList.map (s.slotTable? labels)).foldlM (Leaf.addCost kind) p.cost := by
    rw [slotsCost?, List.foldlM_map]
    congr 1
    funext total slot
    exact hstep kind total slot
  rw [patternCost?, Leaf.patternCost?, List.length_map, Array.length_toList]
  cases p.operands.kind? with
  | none => rfl
  | some kind =>
      dsimp only
      rw [hslots]

theorem tableAt_eq (s : States) (labels : Labels StateId) (node : Node) :
    s.tableAt labels node = node.toLeaf.table (node.slots.toList.map (s.slotTable? labels)) := by
  rw [tableAt, Operation.filter_all, Leaf.table]
  cases hp : node.op.pattern? with
  | none => exact CostTable.close_empty
  | some p =>
      simp only [Option.toList_some, List.foldl_cons, List.foldl_nil, offerPattern,
        patternCost?_eq]
      cases hcost : node.toLeaf.patternCost? (node.slots.toList.map (s.slotTable? labels)) p with
      | none => exact CostTable.close_empty
      | some cost => simp only [CostTable.offer_empty, CostTable.close_set]

end States

end TreeAssay
