import Mathlib.Data.List.Forall2
import TreeAssay.Dump.Read
import TreeAssay.Proofs.Dump.Rendering
import TreeAssay.Proofs.Dump.Tags
import TreeAssay.Proofs.Outcome
import TreeAssay.Proofs.Trees.Content
import TreeAssay.Proofs.Trees.Shape
import TreeAssay.Proofs.Trees.Visits
/-!
# Dumps read back

A dump of a tree is read back as the tree itself, as long as no text in it has a quote and
no string literal carries an integer; and only then is anything of the same shape
read back, because what is read always has these two properties.
-/

namespace TreeAssay

/-! ## Leaves that survive -/

/-- The leaf is one that nodes are made with: bare, with an integer, a string literal, or
with what a content text says. -/
inductive Leaf.Made : Leaf → Prop
  | bare (op : Operation) : Made ⟨op, none⟩
  | withInt (op : Operation) (n : Int64) : Made ⟨op, some (.int n)⟩
  | stringLiteral (s : String) : Made (.stringLiteral s)
  | withContent {op : Operation} {content : Option String} {leaf : Leaf} :
      ofContent op content = .ok leaf → Made leaf

/-- The leaf has no quote in its text and is no string literal with an integer. -/
def Leaf.Legible (leaf : Leaf) : Prop :=
  (∀ s, leaf.payload = some (.text s) → '"' ∉ s.toList) ∧
    ∀ n, leaf.payload = some (.int n) → leaf.op ≠ .stringLiteral

theorem Leaf.Made.op_of_text {leaf : Leaf} (h : leaf.Made) {s : String}
    (hpayload : leaf.payload = some (.text s)) : leaf.op = .stringLiteral := by
  cases h with
  | bare op => cases hpayload
  | withInt op n => cases hpayload
  | stringLiteral s => rfl
  | withContent hcontent =>
      cases ofContent_eq_ok.1 hcontent with
      | nothing => cases hpayload
      | text _ => rfl
      | int _ _ => cases hpayload

theorem Leaf.legible_of_ofContent {op : Operation} {content : Option String} {leaf : Leaf}
    (hcontent : ∀ s, content = some s → '"' ∉ s.toList) (h : ofContent op content = .ok leaf) :
    leaf.Legible := by
  cases ofContent_eq_ok.1 h with
  | nothing =>
      constructor
      · intro _ hpayload
        cases hpayload
      · intro _ hpayload
        cases hpayload
  | text _ =>
      constructor
      · intro s hpayload
        cases hpayload
        exact hcontent _ rfl
      · intro _ hpayload
        cases hpayload
  | int hop _ =>
      constructor
      · intro _ hpayload
        cases hpayload
      · exact fun _ _ => hop

/-- The leaf is what an operation and the attributes of some tag say. -/
def Leaf.FromTag (leaf : Leaf) : Prop :=
  ∃ (op : Operation) (tag : List Char),
    ofContent op ((Attributes.ofTag tag).get? "content") = .ok leaf

theorem Leaf.FromTag.made {leaf : Leaf} (h : leaf.FromTag) : leaf.Made := by
  obtain ⟨_, _, hcontent⟩ := h
  exact .withContent hcontent

theorem Leaf.FromTag.legible {leaf : Leaf} (h : leaf.FromTag) : leaf.Legible := by
  obtain ⟨_, _, hcontent⟩ := h
  exact legible_of_ofContent (fun _ hs => Attributes.unquoted_of_get?_ofTag hs) hcontent

/-- The tree is planted from what tags say. -/
def Tree.FromTags (t : Tree) : Prop :=
  ∃ leaf below, t = .plant leaf below ∧ ∀ l ∈ leaf :: below.leaves, l.FromTag

theorem Leaf.ofContent_display {leaf : Leaf} (hmade : leaf.Made) (hlegible : leaf.Legible) :
    ofContent leaf.op (leaf.payload.map Value.display) = .ok leaf := by
  obtain ⟨op, payload⟩ := leaf
  rw [ofContent_eq_ok]
  match payload with
  | none => exact .nothing
  | some (.int n) => exact .int (hlegible.2 n rfl) (Decimal.spells_ofInt64 n)
  | some (.text s) =>
      obtain rfl : op = .stringLiteral := hmade.op_of_text rfl
      exact .text rfl

theorem Leaf.quotable_display {leaf : Leaf} (h : leaf.Legible) :
    Dump.Quotable (leaf.payload.map Value.display) := by
  obtain ⟨op, payload⟩ := leaf
  intro text htext
  match payload with
  | none => cases htext
  | some (.int n) =>
      cases htext
      exact Decimal.quote_notMem_ofInt64 n
  | some (.text s) =>
      cases htext
      exact h.1 s rfl

namespace Dump

/-! ## What tags say -/

def Reading.take (reading : Reading) (st : BuildStep) : Except DumpError Reading :=
  Reading.accept reading.tree (reading.scaffold.step st)

theorem step_start {tag name : List Char} {selfClosing : Bool} {e : Entry}
    (hname : Tag.name? tag = some name)
    (hform : Tag.form? tag name = some (if selfClosing then .selfClosing else .opening))
    (hentry : entry name tag = .ok e) (reading : Reading) :
    reading.step tag = reading.take (.start e selfClosing) := by
  unfold Reading.step
  rw [hname]
  cases selfClosing <;> simp only [hform, hentry] <;> rfl

/-- What a tag says under its own name: a null, an operation with a content that it can
carry, or an end, whatever its name is. -/
inductive Tells (tag : List Char) : BuildStep → Prop
  | null {selfClosing} : Tag.name? tag = some nullTag.toList →
      Tag.form? tag nullTag.toList = some (if selfClosing then .selfClosing else .opening) →
      Tells tag (.start .null selfClosing)
  | node {op leaf selfClosing} : Tag.name? tag = some (Operation.name op).toList →
      Tag.form? tag op.name.toList = some (if selfClosing then .selfClosing else .opening) →
      Leaf.Carries op ((Attributes.ofTag tag).get? "content") leaf →
      Tells tag (.start (.node leaf) selfClosing)
  | close {name} : Tag.name? tag = some name → Tag.form? tag name = some .closing →
      Tells tag .close

theorem name_ne_nullTag (op : Operation) : op.name ≠ nullTag := by
  cases op <;> decide

theorem entry_nullTag (tag : List Char) : entry nullTag.toList tag = .ok .null := by
  rw [entry, String.ofList_toList, if_pos rfl]

theorem entry_name {op : Operation} {tag : List Char} {leaf : Leaf}
    (h : Leaf.Carries op ((Attributes.ofTag tag).get? "content") leaf) :
    entry op.name.toList tag = .ok (.node leaf) := by
  rw [entry, String.ofList_toList, if_neg (name_ne_nullTag op), Operation.resolve_name]
  simp only [Leaf.ofContent_eq_ok.2 h]

theorem tells_of_entry {name tag : List Char} {e : Entry} {selfClosing : Bool}
    (hname : Tag.name? tag = some name)
    (hform : Tag.form? tag name = some (if selfClosing then .selfClosing else .opening))
    (h : entry name tag = .ok e) : Tells tag (.start e selfClosing) := by
  rw [entry] at h
  split at h
  next hnull =>
    obtain rfl : name = nullTag.toList := by rw [← hnull, String.toList_ofList]
    cases h
    exact .null hname hform
  next =>
    split at h
    next => cases h
    next op hresolve =>
      obtain rfl : name = op.name.toList := by
        rw [← Operation.resolve_eq_ok.1 hresolve, String.toList_ofList]
      split at h
      next => cases h
      next leaf hleaf =>
        cases h
        exact .node hname hform (Leaf.ofContent_eq_ok.1 hleaf)

theorem Tells.step_eq {tag : List Char} {st : BuildStep} (h : Tells tag st) (reading : Reading) :
    reading.step tag = reading.take st := by
  cases h with
  | null hname hform => exact step_start hname hform (entry_nullTag tag) reading
  | node hname hform hcarries => exact step_start hname hform (entry_name hcarries) reading
  | close hname hform =>
      unfold Reading.step
      rw [hname]
      simp only [hform]
      rfl

theorem exists_tells_of_step {reading reading' : Reading} {tag : List Char}
    (h : reading.step tag = .ok reading') :
    ∃ st, Tells tag st ∧ reading.take st = .ok reading' := by
  have hstep := h
  unfold Reading.step at h
  split at h
  next => cases h
  next _ _ name hname =>
    split at h
    next => cases h
    next hform =>
      have htells : Tells tag .close := .close hname hform
      exact ⟨_, htells, (htells.step_eq _).symm.trans hstep⟩
    next form hclosing hform =>
      split at h
      next => cases h
      next e hentry =>
        obtain ⟨selfClosing, rfl⟩ : ∃ selfClosing : Bool,
            form = if selfClosing then .selfClosing else .opening := by
          cases form with
          | opening => exact ⟨false, rfl⟩
          | selfClosing => exact ⟨true, rfl⟩
          | closing => exact absurd rfl hclosing
        have htells := tells_of_entry hname hform hentry
        exact ⟨_, htells, (htells.step_eq _).symm.trans hstep⟩

theorem foldlM_step_of_tells {tags : List (List Char)} {steps : List BuildStep}
    (h : List.Forall₂ Tells tags steps) (reading : Reading) :
    tags.foldlM Reading.step reading = steps.foldlM Reading.take reading := by
  induction h generalizing reading with
  | nil => rfl
  | cons htells _ ih =>
      rw [List.foldlM_cons, List.foldlM_cons, htells.step_eq]
      simp only [ih]

/-! ## Reading what is written -/

/-- The tag of a visit can be read: its node is made and legible and its label has no
quote. -/
def Readable (label : Nat → Option String) (v : Visit) : Prop :=
  ∀ id node, v.begun? = some (id, node) →
    node.toLeaf.Made ∧ node.toLeaf.Legible ∧ Quotable (label id)

theorem tells_startChars {node : Node} (hmade : node.toLeaf.Made)
    (hlegible : node.toLeaf.Legible) {label : Option String} (hlabel : Quotable label)
    (selfClosing : Bool) :
    Tells (tagChars node.op.name (node.payload.map Value.display) label selfClosing)
      (.start (.node node.toLeaf) selfClosing) := by
  have hname := isName_name node.op
  have hcarries := Leaf.ofContent_eq_ok.1 (Leaf.ofContent_display hmade hlegible)
  rw [← get?_content_tagChars hname (Leaf.quotable_display hlegible) hlabel selfClosing]
    at hcarries
  exact .node (name?_tagChars hname _ _ _) (form?_tagChars hname _ _ _) hcarries

theorem tells_nullSlot : Tells nullSlot.toList (.start .null true) := by
  rw [toList_nullSlot]
  exact .null (name?_tagChars isName_nullTag _ _ _) (form?_tagChars isName_nullTag _ _ _)

theorem tells_endChars (op : Operation) : Tells (endChars op.name) .close :=
  .close (name?_endChars (isName_name op)) (form?_endChars (isName_name op))

theorem tells_visitText {label : Nat → Option String} {v : Visit} (hv : Readable label v) :
    Tells (visitText label v).toList v.step := by
  cases v with
  | leaf id node =>
      obtain ⟨hmade, hlegible, hlabel⟩ := hv id node rfl
      rw [visitText, toList_leafTag]
      exact tells_startChars hmade hlegible hlabel true
  | enter id node =>
      obtain ⟨hmade, hlegible, hlabel⟩ := hv id node rfl
      rw [visitText, toList_startTag]
      exact tells_startChars hmade hlegible hlabel false
  | null =>
      rw [visitText]
      exact tells_nullSlot
  | leave node =>
      rw [visitText, toList_endTag]
      exact tells_endChars node.op

theorem isTag_visitText {label : Nat → Option String} {v : Visit} (hv : Readable label v) :
    IsTag (visitText label v).toList := by
  cases v with
  | leaf id node =>
      obtain ⟨_, hlegible, hlabel⟩ := hv id node rfl
      rw [visitText, toList_leafTag]
      exact isTag_tagChars (isName_name node.op) (Leaf.quotable_display hlegible) hlabel true
  | enter id node =>
      obtain ⟨_, hlegible, hlabel⟩ := hv id node rfl
      rw [visitText, toList_startTag]
      exact isTag_tagChars (isName_name node.op) (Leaf.quotable_display hlegible) hlabel false
  | null =>
      rw [visitText, toList_nullSlot]
      exact isTag_tagChars isName_nullTag quotable_none quotable_none true
  | leave node =>
      rw [visitText, toList_endTag]
      exact isTag_endChars (isName_name node.op)

theorem take_of_shows {reading : Reading} {frames frames' : List Frame}
    (hshows : reading.scaffold.Shows frames) {st : BuildStep}
    (hstep : Frame.step frames st = .ok (frames', none)) :
    ∃ s, reading.take st = .ok ⟨s, reading.tree⟩ ∧ s.Shows frames' := by
  obtain ⟨s, hs, hshows'⟩ := Scaffold.step_ok_of_shows hshows hstep
  refine ⟨s, ?_, hshows'⟩
  rw [Reading.take, hs]
  rfl

theorem foldlM_take_of_runs {reading : Reading} {frames frames' : List Frame}
    {steps : List BuildStep} (hshows : reading.scaffold.Shows frames)
    (hruns : Frame.Runs frames steps frames') :
    ∃ s, steps.foldlM Reading.take reading = .ok ⟨s, reading.tree⟩ ∧ s.Shows frames' := by
  induction hruns generalizing reading with
  | nil => exact ⟨reading.scaffold, rfl, hshows⟩
  | cons hstep _ ih =>
      obtain ⟨s, htake, hshows'⟩ := take_of_shows hshows hstep
      obtain ⟨s', hfold, hshows''⟩ := @ih ⟨s, reading.tree⟩ hshows'
      exact ⟨s', foldlM_cons_eq_ok.2 ⟨_, htake, hfold⟩, hshows''⟩

theorem foldlM_take_of_spelled {leaf : Leaf} {below : Row} {steps : List BuildStep}
    (h : (Row.node leaf below .nil).Spelled steps) {s : Scaffold} (hshows : s.Shows []) :
    ∃ s', steps.foldlM Reading.take ⟨s, none⟩ = .ok ⟨s', some (.plant leaf below)⟩ ∧
      s'.Shows [] := by
  obtain ⟨init, last, frames, rfl, hruns, hlast⟩ := Frame.completes_of_spelled h
  obtain ⟨s₁, hfold, hshows₁⟩ := @foldlM_take_of_runs ⟨s, none⟩ _ _ _ hshows hruns
  obtain ⟨s', hs', hshows'⟩ := Scaffold.step_ok_of_shows hshows₁ hlast
  refine ⟨s', ?_, hshows'⟩
  rw [foldlM_append_of_ok hfold]
  exact foldlM_cons_eq_ok.2 ⟨_, by rw [Reading.take, hs']; rfl, rfl⟩

theorem toList_render (leaf : Leaf) (below : Row) (label : Nat → Option String) :
    (render (some (.plant leaf below)) label).toList =
      (((Row.node leaf below .nil).visits 0).map fun v => (visitText label v).toList).flatten := by
  rw [Tree.render_eq, Arena.visitsText, String.toList_join, Tree.visits_plant, List.flatMap_map,
    List.flatten_eq_flatMap, List.flatMap_map]
  rfl

theorem read_of_split {text : String} {tags : List (List Char)}
    (hsplit : splitTags [] text.toList = .ok tags) {reading : Reading}
    (hfold : tags.foldlM Reading.step {} = .ok reading)
    (hshows : reading.scaffold.Shows []) : read text = .ok reading.tree := by
  rw [read, hsplit]
  simp only [hfold, Scaffold.finish_of_shows hshows]
  rfl

theorem read_render {leaf : Leaf} {below : Row} {label : Nat → Option String}
    (hleaves : ∀ l ∈ leaf :: below.leaves, l.Made ∧ l.Legible)
    (hlabel : ∀ id, id < 1 + below.size → Quotable (label id)) :
    read (render (some (.plant leaf below)) label) = .ok (some (.plant leaf below)) := by
  have hvisits : ∀ v ∈ (Row.node leaf below .nil).visits 0, Readable label v := by
    intro v hv id node hbegun
    obtain ⟨hid, hleaf⟩ := Row.begun_of_mem_visits hv hbegun
    rw [Row.leaves, Row.leaves, List.append_nil] at hleaf
    rw [Row.size, Row.size] at hid
    obtain ⟨hmade, hlegible⟩ := hleaves _ hleaf
    exact ⟨hmade, hlegible, hlabel id (by omega)⟩
  obtain ⟨s, hfold, hshows⟩ :=
    foldlM_take_of_spelled ((Row.node leaf below .nil).spelled_visits 0) Scaffold.shows_empty
  change _ = Except.ok _ at hfold
  have htells : List.Forall₂ Tells
      (((Row.node leaf below .nil).visits 0).map fun v => (visitText label v).toList)
      (((Row.node leaf below .nil).visits 0).map Visit.step) := by
    rw [List.forall₂_map_left_iff, List.forall₂_map_right_iff, List.forall₂_same]
    exact fun v hv => tells_visitText (hvisits v hv)
  rw [← foldlM_step_of_tells htells] at hfold
  refine read_of_split ?_ hfold hshows
  rw [toList_render, splitTags_flatten]
  · rfl
  · intro tag htag
    obtain ⟨v, hv, rfl⟩ := List.mem_map.1 htag
    exact isTag_visitText (hvisits v hv)

theorem read_nullSlot : read nullSlot = .ok none := by
  have htag : IsTag nullSlot.toList := by
    rw [toList_nullSlot]
    exact isTag_tagChars isName_nullTag quotable_none quotable_none true
  have hsplit : splitTags [] nullSlot.toList = .ok [nullSlot.toList] := by
    have h := splitTags_cons htag [] []
    rw [List.append_nil] at h
    rw [h, splitTags]
    rfl
  obtain ⟨s, htake, hshows⟩ := @take_of_shows {} [] [] Scaffold.shows_empty
    (.start .null true) rfl
  have hfold : [nullSlot.toList].foldlM Reading.step {} = .ok ⟨s, none⟩ :=
    foldlM_cons_eq_ok.2 ⟨_, (tells_nullSlot.step_eq {}).trans htake, rfl⟩
  exact read_of_split hsplit hfold hshows

/-! ## What is read comes from tags -/

theorem Tells.fromTag {tag : List Char} {st : BuildStep} (h : Tells tag st) :
    ∀ l ∈ st.leaves, l.FromTag := by
  cases h with
  | null _ _ => simp [BuildStep.leaves]
  | @node op leaf _ _ _ hcarries =>
      have hfrom : leaf.FromTag := ⟨op, tag, Leaf.ofContent_eq_ok.2 hcarries⟩
      simpa [BuildStep.leaves] using hfrom
  | close _ _ => simp [BuildStep.leaves]

/-- A start or an end that is taken is taken by the frames, and the tree that it completes
is the only one. -/
theorem Reading.take_eq_ok {reading reading' : Reading} {frames : List Frame}
    (hshows : reading.scaffold.Shows frames) {st : BuildStep}
    (htake : reading.take st = .ok reading') :
    ∃ frames' completed, Frame.step frames st = .ok (frames', completed) ∧
      reading'.scaffold.Shows frames' ∧
      (completed = none ∧ reading'.tree = reading.tree ∨
        ∃ leaf below, completed = some (leaf, below) ∧ reading.tree = none ∧
          reading'.tree = some (.plant leaf below)) := by
  rw [Reading.take] at htake
  cases hframes : Frame.step frames st with
  | error error =>
      have hstep := Scaffold.step_of_shows hshows st
      rw [hframes] at hstep
      rw [hstep] at htake
      cases htake
  | ok result =>
      obtain ⟨frames', completed⟩ := result
      obtain ⟨s, hs, hshows'⟩ := Scaffold.step_ok_of_shows hshows hframes
      rw [hs] at htake
      cases completed with
      | none =>
          cases htake
          exact ⟨frames', none, rfl, hshows', .inl ⟨rfl, rfl⟩⟩
      | some tree =>
          cases hold : reading.tree with
          | some _ =>
              rw [hold] at htake
              cases htake
          | none =>
              rw [hold] at htake
              cases htake
              exact ⟨frames', some tree, rfl, hshows', .inr ⟨tree.1, tree.2, rfl, rfl, rfl⟩⟩

def Reading.FromTags (reading : Reading) : Prop :=
  ∃ frames, reading.scaffold.Shows frames ∧ (∀ l ∈ Frame.leaves frames, l.FromTag) ∧
    ∀ t, reading.tree = some t → t.FromTags

theorem Reading.FromTags.take {reading reading' : Reading} (h : reading.FromTags)
    {st : BuildStep} (hst : ∀ l ∈ st.leaves, l.FromTag) (htake : reading.take st = .ok reading') :
    reading'.FromTags := by
  obtain ⟨frames, hshows, hfrom, htree⟩ := h
  obtain ⟨frames', completed, hframes, hshows', htrees⟩ := take_eq_ok hshows htake
  -- The leaves of the frames and of the completed tree are the old ones and the new one.
  have hall : ∀ l ∈ Frame.leaves frames' ++ Frame.completedLeaves completed, l.FromTag := by
    rw [← Frame.leaves_step hframes]
    intro l hl
    exact (List.mem_append.1 hl).elim (hfrom l) (hst l)
  refine ⟨frames', hshows', fun l hl => hall l (List.mem_append_left _ hl), ?_⟩
  rcases htrees with ⟨_, hsame⟩ | ⟨leaf, below, rfl, _, hplant⟩
  · rwa [hsame]
  · rw [hplant]
    rintro _ ⟨⟩
    exact ⟨leaf, below, rfl, fun l hl => hall l (List.mem_append_right _ hl)⟩

theorem Reading.FromTags.foldlM_step {tags : List (List Char)} {reading reading' : Reading}
    (h : reading.FromTags) (hfold : tags.foldlM Reading.step reading = .ok reading') :
    reading'.FromTags := by
  induction tags generalizing reading with
  | nil =>
      cases hfold
      exact h
  | cons tag tags ih =>
      obtain ⟨next, hstep, hrest⟩ := foldlM_cons_eq_ok.1 hfold
      obtain ⟨st, htells, htake⟩ := exists_tells_of_step hstep
      exact ih (h.take htells.fromTag htake) hrest

/-- Every tree that is read comes from tags. -/
theorem fromTags_of_read {text : String} {u : Tree} (h : read text = .ok (some u)) :
    u.FromTags := by
  rw [read] at h
  split at h
  next => cases h
  next tags _ =>
    split at h
    next => cases h
    next reading hfold =>
      split at h
      next => cases h
      next =>
        have hempty : Reading.FromTags {} :=
          ⟨[], Scaffold.shows_empty, by simp [Frame.leaves], fun _ h => by cases h⟩
        obtain ⟨_, _, _, htree⟩ := hempty.foldlM_step hfold
        exact htree u (Except.ok.inj h)

theorem legible_of_read {text : String} {u : Tree} (h : read text = .ok (some u)) :
    ∃ leaf below, u = .plant leaf below ∧ ∀ l ∈ leaf :: below.leaves, l.Legible := by
  obtain ⟨leaf, below, hplant, hfrom⟩ := fromTags_of_read h
  exact ⟨leaf, below, hplant, fun l hl => (hfrom l hl).legible⟩

/-- A tree that comes from tags is read back from a dump with any labels that have no
quote, and so is an absent one. -/
theorem read_render_of_fromTags {tree : Option Tree} (h : ∀ t, tree = some t → t.FromTags)
    {label : Nat → Option String} (hlabel : ∀ id, Quotable (label id)) :
    read (render tree label) = .ok tree := by
  cases tree with
  | none => exact read_nullSlot
  | some t =>
      obtain ⟨leaf, below, rfl, hfrom⟩ := h t rfl
      exact read_render (fun l hl => ⟨(hfrom l hl).made, (hfrom l hl).legible⟩)
        fun id _ => hlabel id

/-! ## The round trip -/

/-- A tree of made nodes is read back from its dump, and from a dump with labels that
have no quote, if it is legible; if it is not, nothing of its shape is read back.  What
has its shape is the tree itself.  Without a tree there is nothing to read back. -/
theorem read_ofTree {t : Tree} (ht : t.Built ∨ ∃ l, t = Tree.leaf l)
    (hmade : ∀ n ∈ t.nodes, n.toLeaf.Made) :
    ((∃ u, read (ofTree (some t)) = .ok (some u) ∧ u.sameShape t) ↔
        ∀ n ∈ t.nodes, n.toLeaf.Legible) ∧
      (∀ u, read (ofTree (some t)) = .ok (some u) → u.sameShape t → u = t) ∧
      ((∀ n ∈ t.nodes, n.toLeaf.Legible) → ∀ {α : Type} [ToString α] (labels : Labels α),
        (∀ id < t.size, ∀ label, labels.get? id = some label → '"' ∉ (toString label).toList) →
          read (ofLabelled (some t) labels) = .ok (some t)) ∧
      read (ofTree none) = .ok none ∧
      ∀ {α : Type} [ToString α] (labels : Labels α), read (ofLabelled none labels) = .ok none := by
  obtain ⟨leaf, below, rfl⟩ : ∃ leaf below, t = .plant leaf below := by
    rcases ht with ht | ⟨l, rfl⟩
    · exact ht.eq_plant
    · exact ⟨l, .nil, Tree.leaf_eq_plant l⟩
  rw [Tree.forall_nodes_plant] at hmade
  rw [Tree.forall_nodes_plant, Tree.size_plant]
  have hread (hlegible : ∀ l ∈ leaf :: below.leaves, l.Legible) (label : Nat → Option String)
      (hlabel : ∀ id, id < 1 + below.size → Quotable (label id)) :
      read (render (some (.plant leaf below)) label) = .ok (some (.plant leaf below)) :=
    read_render (fun l hl => ⟨hmade l hl, hlegible l hl⟩) hlabel
  have hsame {u : Tree} (h : read (ofTree (some (.plant leaf below))) = .ok (some u))
      (hshape : u.sameShape (.plant leaf below)) :
      u = .plant leaf below ∧ ∀ l ∈ leaf :: below.leaves, l.Legible := by
    obtain ⟨leaf', below', rfl, hlegible⟩ := legible_of_read h
    obtain ⟨rfl, rfl⟩ := Tree.sameShape_plant.1 hshape
    exact ⟨rfl, hlegible⟩
  refine ⟨⟨?_, ?_⟩, fun u h hshape => (hsame h hshape).1, ?_, read_nullSlot,
    fun labels => read_nullSlot⟩
  · rintro ⟨u, h, hshape⟩
    exact (hsame h hshape).2
  · intro hlegible
    exact ⟨_, hread hlegible _ fun _ _ => quotable_none, Tree.sameShape_plant.2 ⟨rfl, rfl⟩⟩
  · intro hlegible α _ labels hlabels
    refine hread hlegible _ fun id hid text htext => ?_
    obtain ⟨label, hget, rfl⟩ := Option.map_eq_some_iff.1 htext
    exact hlabels id hid label hget

/-- Markup in a text and in a label does no harm, but a quote does. -/
theorem read_ofTree_markup :
    let t := Tree.plant ⟨.concat, none⟩ (.node (.stringLiteral "</a b=>") .nil
      (.null (.node ⟨.intLiteral, some (.int (-1))⟩ .nil .nil)))
    let quote := Tree.leaf (.stringLiteral "\"")
    t.Built ∧ (∀ n ∈ t.nodes, n.toLeaf.Made) ∧ (∀ n ∈ quote.nodes, n.toLeaf.Made) ∧
      read (ofLabelled (some t) (Labels.empty.set 1 "/> <")) = .ok (some t) ∧
      ¬ ∃ u, read (ofTree (some quote)) = .ok (some u) ∧ u.sameShape quote := by
  intro t quote
  have hplant : quote = .plant (.stringLiteral "\"") .nil := Tree.leaf_eq_plant _
  have hmade : ∀ n ∈ t.nodes, n.toLeaf.Made := by
    rw [Tree.forall_nodes_plant]
    simp only [Row.leaves, List.cons_append, List.nil_append, List.append_nil,
      List.forall_mem_cons, List.not_mem_nil, false_implies, implies_true, and_true]
    exact ⟨.bare _, .stringLiteral _, .withInt _ _⟩
  have hlegible : ∀ n ∈ t.nodes, n.toLeaf.Legible := by
    rw [Tree.forall_nodes_plant]
    simp only [Row.leaves, List.cons_append, List.nil_append, List.append_nil,
      List.forall_mem_cons, List.not_mem_nil, false_implies, implies_true, and_true]
    refine ⟨⟨?_, ?_⟩, ⟨?_, ?_⟩, ⟨?_, ?_⟩⟩ <;> rintro _ ⟨⟩ <;> decide
  have hquote : ∀ n ∈ quote.nodes, n.toLeaf.Made := by
    rw [hplant, Tree.forall_nodes_plant]
    simp only [Row.leaves, List.forall_mem_cons, List.not_mem_nil, false_implies, implies_true,
      and_true]
    exact .stringLiteral _
  refine ⟨Tree.built_plant _ _, hmade, hquote, ?_, ?_⟩
  · refine (read_ofTree (.inl (Tree.built_plant _ _)) hmade).2.2.1 hlegible _ ?_
    intro id _ label hlabel
    rw [Labels.get?_set] at hlabel
    by_cases hid : 1 = id
    · rw [if_pos hid] at hlabel
      cases hlabel
      decide
    · rw [if_neg hid, Labels.get?_empty] at hlabel
      cases hlabel
  · intro hread
    have h : ∀ n ∈ quote.nodes, n.toLeaf.Legible :=
      (read_ofTree (.inr ⟨_, rfl⟩) hquote).1.1 hread
    rw [hplant, Tree.forall_nodes_plant] at h
    exact (h _ List.mem_cons_self).1 "\"" rfl (by decide)

end Dump

end TreeAssay
