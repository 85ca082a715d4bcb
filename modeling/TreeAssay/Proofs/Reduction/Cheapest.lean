import TreeAssay.Proofs.Reduction.Labelling
/-!
# Tables hold the cheapest derivations

A derivation of a kind at a node uses a pattern, derivations of the slots below, and
conversions on top; its cost is the sum of the costs of all rules in it.  Derivations
are given as a relation, with their last rule and an unbounded cost.  A node has at most
one derivation of a kind, and `price?` computes it; tables keep the prices up to the
greatest cost that there is.
-/

namespace TreeAssay

/-! ## Derivations and their costs -/

/-- What the slots of a node come to, where `operands` says what they cost as a kind. -/
def Operands.Cost (taken : Operands) (operands : Kind → Nat → Prop) (cost : Nat) : Prop :=
  match taken.kind? with
  | none => cost = 0
  | some kind => operands kind cost

/-- A node with `count` slots below it has a derivation of the kind that ends in the rule
and has the cost. -/
inductive Leaf.DerivesBy (leaf : Leaf) (count : Nat) (operands : Kind → Nat → Prop) :
    Kind → Rule → Nat → Prop
  | pattern {p : Pattern} {below : Nat} : leaf.op = p.op → p.operands.accepts count →
      p.guard leaf → p.operands.Cost operands below →
      DerivesBy leaf count operands p.produces (.pattern p) (p.cost.toNat + below)
  | conversion {c : Conversion} {rule : Rule} {cost : Nat} :
      DerivesBy leaf count operands c.source rule cost →
      DerivesBy leaf count operands c.target (.conversion c) (cost + c.cost.toNat)

/-- Every slot of a row has a derivation of the kind, and together they have the cost. -/
def Row.DerivesAt : Row → Kind → Nat → Prop
  | .nil, _, cost => cost = 0
  | .null _, _, _ => False
  | .node leaf below next, kind, cost =>
    ∃ rule own rest,
      leaf.DerivesBy below.length (fun operand total => below.DerivesAt operand total)
        kind rule own ∧ next.DerivesAt kind rest ∧ cost = own + rest

/-- The subtree at a node of a tree has a derivation of the kind that ends in the rule and
has the cost. -/
def Tree.DerivesBy (t : Tree) (n : Node) : Kind → Rule → Nat → Prop :=
  n.toLeaf.DerivesBy n.slots.size (t.row n.slots.toList).DerivesAt

/-! ## Prices -/

/-- The last rule of a derivation by a pattern and conversions after it, the last one
first. -/
def Pattern.lastRule (p : Pattern) : List Conversion → Rule
  | [] => .pattern p
  | c :: _ => .conversion c

def Conversion.totalCost : List Conversion → Nat
  | [] => 0
  | c :: path => totalCost path + c.cost.toNat

namespace Leaf

def patternPrice? (leaf : Leaf) (count : Nat) (prices : Kind → Option Nat) (p : Pattern) :
    Option Nat :=
  if p.operands.accepts count && p.guard leaf then
    match p.operands.kind? with
    | none => some p.cost.toNat
    | some kind => (prices kind).map (p.cost.toNat + ·)
  else none

def price? (leaf : Leaf) (count : Nat) (prices : Kind → Option Nat) (goal : Kind) :
    Option (Rule × Nat) :=
  leaf.op.pattern?.bind fun p => (leaf.patternPrice? count prices p).bind fun own =>
    (p.produces.path? goal).map fun path => (p.lastRule path, own + Conversion.totalCost path)

end Leaf

def Row.price? : Row → Kind → Option Nat
  | .nil, _ => some 0
  | .null _, _ => none
  | .node leaf below next, kind =>
    (leaf.price? below.length (fun operand => below.price? operand) kind).bind fun (_, own) =>
      (next.price? kind).map (own + ·)

theorem Kind.path?_eq_nil {kind goal : Kind} : kind.path? goal = some [] ↔ kind = goal := by
  cases kind <;> cases goal <;> simp [path?]

theorem Kind.path?_eq_cons {kind goal : Kind} {c : Conversion} {path : List Conversion} :
    kind.path? goal = some (c :: path) ↔ goal = c.target ∧ kind.path? c.source = some path := by
  cases kind <;> cases goal <;> cases c <;>
    simp [path?, Conversion.source, Conversion.target, eq_comm]

section Prices

variable {leaf : Leaf} {count : Nat} {operands : Kind → Nat → Prop} {prices : Kind → Option Nat}
  {goal : Kind} {rule : Rule} {cost : Nat}

theorem Leaf.patternPrice?_eq_some (hprices : ∀ kind m, operands kind m ↔ prices kind = some m)
    {p : Pattern} :
    leaf.patternPrice? count prices p = some cost ↔
      p.operands.accepts count ∧ p.guard leaf ∧
        ∃ below, p.operands.Cost operands below ∧ cost = p.cost.toNat + below := by
  unfold patternPrice? Operands.Cost
  by_cases hfits : p.operands.accepts count && p.guard leaf
  · rw [if_pos hfits]
    simp only [Bool.and_eq_true] at hfits
    cases p.operands.kind? with
    | none => simp [hfits, eq_comm]
    | some kind =>
        simp only [hfits, hprices, Option.map_eq_some_iff, true_and]
        exact exists_congr fun below => and_congr_right fun _ => eq_comm
  · rw [if_neg hfits]
    simp only [Bool.and_eq_true, not_and] at hfits
    simp only [reduceCtorEq, false_iff]
    rintro ⟨haccepts, hguard, _⟩
    exact hfits haccepts hguard

theorem Leaf.price?_eq_some :
    leaf.price? count prices goal = some (rule, cost) ↔
      ∃ (p : Pattern) (own : Nat) (path : List Conversion), leaf.op = p.op ∧
        leaf.patternPrice? count prices p = some own ∧ p.produces.path? goal = some path ∧
        rule = p.lastRule path ∧ cost = own + Conversion.totalCost path := by
  simp only [price?, Option.bind_eq_some_iff, Option.map_eq_some_iff, Prod.mk.injEq,
    Operation.pattern?_eq_some]
  constructor
  · rintro ⟨p, hop, own, hown, path, hpath, hrule, hcost⟩
    exact ⟨p, own, path, hop, hown, hpath, hrule.symm, hcost.symm⟩
  · rintro ⟨p, own, path, hop, hown, hpath, rfl, rfl⟩
    exact ⟨p, hop, own, hown, path, hpath, rfl, rfl⟩

theorem Leaf.derivesBy_of_path? {p : Pattern} {path : List Conversion}
    (hpath : p.produces.path? goal = some path)
    (h : leaf.DerivesBy count operands p.produces (.pattern p) cost) :
    leaf.DerivesBy count operands goal (p.lastRule path) (cost + Conversion.totalCost path) := by
  induction path generalizing goal with
  | nil =>
      obtain rfl := Kind.path?_eq_nil.1 hpath
      exact h
  | cons c path ih =>
      obtain ⟨rfl, hsource⟩ := Kind.path?_eq_cons.1 hpath
      rw [Conversion.totalCost, ← Nat.add_assoc]
      exact .conversion (ih hsource)

/-- A node has at most one derivation of a kind, and it is the one that is priced. -/
theorem Leaf.derivesBy_iff_price? (hprices : ∀ kind m, operands kind m ↔ prices kind = some m) :
    leaf.DerivesBy count operands goal rule cost ↔
      leaf.price? count prices goal = some (rule, cost) := by
  rw [price?_eq_some]
  constructor
  · intro h
    induction h with
    | @pattern p below hop haccepts hguard hbelow =>
        have hown := (patternPrice?_eq_some hprices).2 ⟨haccepts, hguard, below, hbelow, rfl⟩
        exact ⟨p, _, [], hop, hown, Kind.path?_eq_nil.2 rfl, rfl, rfl⟩
    | @conversion c _ _ _ ih =>
        obtain ⟨p, own, path, hop, hown, hpath, rfl, rfl⟩ := ih
        refine ⟨p, own, c :: path, hop, hown, Kind.path?_eq_cons.2 ⟨rfl, hpath⟩, rfl, ?_⟩
        rw [Conversion.totalCost, Nat.add_assoc]
  · rintro ⟨p, own, path, hop, hown, hpath, rfl, rfl⟩
    obtain ⟨haccepts, hguard, below, hbelow, rfl⟩ := (patternPrice?_eq_some hprices).1 hown
    exact derivesBy_of_path? hpath (.pattern hop haccepts hguard hbelow)

end Prices

theorem Row.derivesAt_iff_price? {row : Row} {kind : Kind} {cost : Nat} :
    row.DerivesAt kind cost ↔ row.price? kind = some cost := by
  induction row generalizing kind cost with
  | nil => simp [DerivesAt, price?, eq_comm]
  | null next _ => simp [DerivesAt, price?]
  | node leaf below next ihBelow ihNext =>
      have hleaf (rule : Rule) (own : Nat) :
          leaf.DerivesBy below.length below.DerivesAt kind rule own ↔
            leaf.price? below.length below.price? kind = some (rule, own) :=
        Leaf.derivesBy_iff_price? fun _ _ => ihBelow
      simp only [DerivesAt, price?, hleaf, ihNext, Option.bind_eq_some_iff,
        Option.map_eq_some_iff, Prod.exists]
      constructor
      · rintro ⟨rule, own, rest, hown, hrest, rfl⟩
        exact ⟨rule, own, hown, rest, hrest, rfl⟩
      · rintro ⟨rule, own, hown, rest, hrest, rfl⟩
        exact ⟨rule, own, rest, hown, hrest, rfl⟩

theorem Row.derivesBy_iff_price? {leaf : Leaf} {below : Row} {goal : Kind} {rule : Rule}
    {cost : Nat} :
    leaf.DerivesBy below.length below.DerivesAt goal rule cost ↔
      leaf.price? below.length below.price? goal = some (rule, cost) :=
  Leaf.derivesBy_iff_price? fun _ _ => derivesAt_iff_price?

/-! ## Costs in tables -/

namespace Cost

/-- A cost as tables keep it: none is above the greatest 32-bit number. -/
def capped (n : Nat) : UInt32 :=
  UInt32.ofNat (min n (UInt32.size - 1))

theorem toNat_capped (n : Nat) : (capped n).toNat = min n (UInt32.size - 1) := by
  apply UInt32.toNat_ofNat_of_lt'
  have : min n (UInt32.size - 1) ≤ UInt32.size - 1 := Nat.min_le_right _ _
  have : 0 < UInt32.size := by decide
  omega

theorem plus_eq_capped (a b : UInt32) : plus a b = capped (a.toNat + b.toNat) := rfl

theorem capped_toNat (a : UInt32) : capped a.toNat = a := by
  apply UInt32.toNat_inj.1
  rw [toNat_capped]
  have := a.toNat_lt_size
  omega

theorem plus_capped (n m : Nat) : plus (capped n) (capped m) = capped (n + m) := by
  apply UInt32.toNat_inj.1
  rw [plus_eq_capped]
  simp only [toNat_capped]
  omega

theorem plus_capped_left (n : Nat) (a : UInt32) : plus (capped n) a = capped (n + a.toNat) := by
  rw [← plus_capped, capped_toNat]

end Cost

theorem CostTable.get?_grown (p : Pattern) (n : Nat) (goal : Kind) :
    (grown p (Cost.capped n)).get? goal = (p.produces.path? goal).map fun path =>
      ⟨Cost.capped (n + Conversion.totalCost path), p.lastRule path⟩ := by
  unfold grown
  simp only [Cost.plus_capped_left]
  cases p.produces <;> cases goal <;> rfl

namespace Row

/-- The row is priced where its tables are added up. -/
def Priced (row : Row) : Prop :=
  ∀ kind n, row.tables.foldlM (Leaf.addCost kind) (Cost.capped n) =
    (row.price? kind).map fun m => Cost.capped (n + m)

theorem Priced.patternCost? {below : Row} (h : below.Priced) (leaf : Leaf) (p : Pattern) :
    leaf.patternCost? below.tables p =
      (leaf.patternPrice? below.length below.price? p).map Cost.capped := by
  unfold Leaf.patternCost? Leaf.patternPrice?
  rw [length_tables]
  by_cases hfits : p.operands.accepts below.length && p.guard leaf
  · rw [if_pos hfits, if_pos hfits]
    cases p.operands.kind? with
    | none => rw [Option.map_some, Cost.capped_toNat]
    | some kind =>
        dsimp only
        rw [← Cost.capped_toNat p.cost, h, Cost.capped_toNat, Option.map_map]
        rfl
  · rw [if_neg hfits, if_neg hfits]
    rfl

theorem Priced.get?_table {below : Row} (h : below.Priced) (leaf : Leaf) (goal : Kind) :
    (leaf.table below.tables).get? goal =
      (leaf.price? below.length below.price? goal).map fun (rule, cost) =>
        ⟨Cost.capped cost, rule⟩ := by
  unfold Leaf.table Leaf.price?
  cases leaf.op.pattern? with
  | none => cases goal <;> rfl
  | some p =>
      dsimp only
      rw [h.patternCost?, Option.bind_some]
      cases leaf.patternPrice? below.length below.price? p with
      | none => cases goal <;> rfl
      | some own =>
          rw [Option.map_some, Option.bind_some, Option.map_map]
          exact CostTable.get?_grown p own goal

theorem priced (row : Row) : row.Priced := by
  induction row with
  | nil =>
      intro kind n
      rfl
  | null next _ =>
      intro kind n
      rfl
  | node leaf below next ihBelow ihNext =>
      intro kind n
      rw [tables, List.foldlM_cons, Leaf.addCost, Option.bind_some, ihBelow.get?_table, price?]
      cases leaf.price? below.length below.price? kind with
      | none => rfl
      | some derivation =>
          obtain ⟨rule, own⟩ := derivation
          simp only [Option.map_some, Option.bind_eq_bind, Option.bind_some, Cost.plus_capped,
            ihNext kind (n + own), Option.map_map, Function.comp_def, Nat.add_assoc]

/-- A table has an entry for a kind exactly when there is a derivation, and the entry has
its last rule and its cost, as far as costs go. -/
theorem get?_table_eq_some {leaf : Leaf} {below : Row} {goal : Kind} {d : Derivation} :
    (leaf.table below.tables).get? goal = some d ↔
      ∃ cost, leaf.DerivesBy below.length below.DerivesAt goal d.rule cost ∧
        d.cost = Cost.capped cost := by
  rw [below.priced.get?_table]
  simp only [derivesBy_iff_price?, Option.map_eq_some_iff, Prod.exists]
  constructor
  · rintro ⟨rule, cost, hprice, rfl⟩
    exact ⟨cost, hprice, rfl⟩
  · rintro ⟨cost, hprice, hcost⟩
    exact ⟨d.rule, cost, hprice, by rw [← hcost]⟩

theorem derivesBy_unique {leaf : Leaf} {below : Row} {goal : Kind} {rule rule' : Rule}
    {cost cost' : Nat} (h : leaf.DerivesBy below.length below.DerivesAt goal rule cost)
    (h' : leaf.DerivesBy below.length below.DerivesAt goal rule' cost') :
    rule = rule' ∧ cost = cost' := by
  rw [derivesBy_iff_price?] at h h'
  have hsame := Option.some.inj (h.symm.trans h')
  exact Prod.mk.inj hsame

theorem length_slots (start : Nat) (row : Row) : (row.slots start).length = row.length := by
  induction row generalizing start with
  | nil => rfl
  | null next ih => rw [slots, List.length_cons, ih, length]
  | node leaf below next _ ih => rw [slots, List.length_cons, ih, length]

end Row

/-! ## Labelled trees -/

theorem Tree.derivesBy_of_holds {t : Tree} {start : Nat} {below : Row}
    (h : t.Holds start below) (leaf : Leaf) :
    t.DerivesBy ⟨leaf, (below.slots start).toArray⟩ =
      leaf.DerivesBy below.length below.DerivesAt := by
  rw [DerivesBy, List.size_toArray, Row.length_slots, Arena.row_slots h]

/-- After a tree is labelled, every node of it has a state, and the table of the state has
an entry for exactly the kinds that the subtree at the node derives.  The entry has the
last rule of a cheapest derivation and its cost, cut off at the greatest 32-bit number. -/
theorem label_cheapest {t : Tree} (ht : t.Built) {s : States} (hs : States.empty.Leads s)
    (labels : Labels StateId) {id : Nat} {n : Node} (hn : t.node? id = some n) :
    let written := calculator.label s (some t) labels
    ∃ state table, written.2.get? id = some state ∧ written.1.table? state = some table ∧
      ∀ kind, ((table.get? kind).isSome ↔ ∃ rule cost, t.DerivesBy n kind rule cost) ∧
        ∀ d, table.get? kind = some d →
          ∃ cost, t.DerivesBy n kind d.rule cost ∧
            (∀ rule' cost', t.DerivesBy n kind rule' cost' → cost ≤ cost') ∧
            d.cost.toNat = min cost (UInt32.size - 1) := by
  obtain ⟨leaf, below, rfl⟩ := ht.eq_plant
  intro written
  have hlabelled : written.1.Labelled written.2 0 (.node leaf below .nil) := hs.labelled .refl
  have hlt : id < (Tree.plant leaf below).size := (Array.getElem?_eq_some_iff.1 hn).1
  rw [Tree.size_plant] at hlt
  obtain ⟨leaf', below', hnode, hholds, htable⟩ :=
    States.exists_table_of_holds (Arena.holds_plant leaf below) (Nat.zero_le id)
      (by rw [Row.size, Row.size]; omega)
  obtain rfl : n = ⟨leaf', (below'.slots (id + 1)).toArray⟩ :=
    Option.some.inj (hn.symm.trans hnode)
  obtain ⟨state, hstate, htable'⟩ := Option.bind_eq_some_iff.1 (htable _ _ hlabelled)
  refine ⟨state, _, hstate, htable', fun kind => ⟨?_, fun d hd => ?_⟩⟩
  · rw [Tree.derivesBy_of_holds hholds, Option.isSome_iff_exists]
    constructor
    · rintro ⟨d, hd⟩
      obtain ⟨cost, hcost, _⟩ := Row.get?_table_eq_some.1 hd
      exact ⟨d.rule, cost, hcost⟩
    · rintro ⟨rule, cost, hcost⟩
      exact ⟨⟨Cost.capped cost, rule⟩, Row.get?_table_eq_some.2 ⟨cost, hcost, rfl⟩⟩
  · rw [Tree.derivesBy_of_holds hholds]
    obtain ⟨cost, hcost, hcapped⟩ := Row.get?_table_eq_some.1 hd
    refine ⟨cost, hcost, fun rule' cost' hcost' => ?_, ?_⟩
    · obtain ⟨_, hsame⟩ := Row.derivesBy_unique hcost hcost'
      exact Nat.le_of_eq hsame
    · rw [hcapped, Cost.toNat_capped]

/-- The sum of a short integer and an integer costs four as an integer, since the short
one is widened, and five as a text. -/
theorem label_cheapest_add :
    let summands : Row := .node ⟨.shortLiteral, some (.int 7)⟩ .nil
      (.node ⟨.intLiteral, some (.int 1)⟩ .nil .nil)
    let t := Tree.plant ⟨.concat, none⟩ (.node ⟨.add, none⟩ summands .nil)
    let written := calculator.label .empty (some t) .empty
    t.Built ∧ States.empty.Leads .empty ∧ t.node? 1 = some ⟨⟨.add, none⟩, #[.node 2, .node 3]⟩ ∧
      ∃ state table, written.2.get? 1 = some state ∧ written.1.table? state = some table ∧
        table.get? .short = none ∧ table.get? .string = some ⟨5, .conversion .format⟩ := by
  intro summands t written
  have ht : t.Built := Tree.built_plant _ _
  obtain ⟨_, ⟨hnode, hsummands, _⟩, _⟩ :=
    Arena.holds_plant ⟨.concat, none⟩ (.node ⟨.add, none⟩ summands .nil)
  obtain ⟨state, table, hstate, htable, hentries⟩ := label_cheapest ht .refl .empty hnode
  rw [Tree.derivesBy_of_holds hsummands] at hentries
  refine ⟨ht, .refl, hnode, state, table, hstate, htable, ?_, ?_⟩
  · rw [← Option.not_isSome_iff_eq_none, (hentries .short).1]
    rintro ⟨rule, cost, h⟩
    rw [Row.derivesBy_iff_price?] at h
    cases h
  · have hfive : Leaf.DerivesBy ⟨.add, none⟩ summands.length summands.DerivesAt .string
        (.conversion .format) 5 := Row.derivesBy_iff_price?.2 rfl
    obtain ⟨d, hd⟩ := Option.isSome_iff_exists.1 ((hentries .string).1.2 ⟨_, _, hfive⟩)
    obtain ⟨cost, hcost, _, htoNat⟩ := (hentries .string).2 d hd
    obtain ⟨hrule, rfl⟩ := Row.derivesBy_unique hcost hfive
    have hcapped : d.cost = 5 := UInt32.toNat_inj.1 htoNat
    rw [hd, ← hrule, ← hcapped]

end TreeAssay
