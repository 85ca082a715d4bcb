import Mathlib.Data.List.Forall2
import TreeAssay.Proofs.Dump.RoundTrip
import TreeAssay.Proofs.Dump.Splitting
import TreeAssay.Proofs.Suite.Contents
/-!
# The grammar of dumps

A dump is tags with nothing but blank characters between them, each from `<` to the first
`>` outside quotes.  What they say forms nulls with at most one tree among them, as in a
testcase.  These are exactly the texts that are read, and the tree that is read has a node
for each operation that starts.
-/

namespace TreeAssay.Dump

open TreeAssay.Text
open TreeAssay.Suite (AreNulls FormsBody Opened)

/-! ## What is formed is read -/

theorem exists_tells_of_foldlM {tags : List (List Char)} {reading reading' : Reading}
    (h : tags.foldlM Reading.step reading = .ok reading') :
    ∃ steps, List.Forall₂ Tells tags steps ∧
      steps.foldlM Reading.take reading = .ok reading' := by
  induction tags generalizing reading with
  | nil => exact ⟨[], .nil, h⟩
  | cons tag tags ih =>
      obtain ⟨next, hstep, hrest⟩ := foldlM_cons_eq_ok.1 h
      obtain ⟨st, htells, htake⟩ := exists_tells_of_step hstep
      obtain ⟨steps, hsteps, hfold⟩ := ih hrest
      exact ⟨st :: steps, .cons htells hsteps, foldlM_cons_eq_ok.2 ⟨next, htake, hfold⟩⟩

theorem runs_of_nulls {steps : List BuildStep} (h : AreNulls (steps.map .node)) :
    Frame.Runs [] steps [] := by
  induction steps with
  | nil => exact .nil
  | cons st steps ih =>
      have hst := h (.node st) (by simp)
      injection hst with hst
      subst hst
      exact .cons rfl (ih fun token htoken => h token (by simp [htoken]))

theorem foldlM_take_of_nulls {steps : List BuildStep} (h : AreNulls (steps.map .node))
    {s : Scaffold} (hshows : s.Shows []) (tree : Option Tree) :
    ∃ s', steps.foldlM Reading.take ⟨s, tree⟩ = .ok ⟨s', tree⟩ ∧ s'.Shows [] :=
  @foldlM_take_of_runs ⟨s, tree⟩ _ _ _ hshows (runs_of_nulls h)

theorem foldlM_take_of_formsBody {steps : List BuildStep} {tree : Option (Leaf × Row)}
    (h : FormsBody (steps.map .node) tree) :
    ∃ s, steps.foldlM Reading.take {} =
        .ok ⟨s, tree.map fun (leaf, below) => .plant leaf below⟩ ∧ s.Shows [] := by
  generalize hbody : steps.map Suite.Token.node = body at h
  cases h with
  | bare hnulls =>
      subst hbody
      exact foldlM_take_of_nulls hnulls Scaffold.shows_empty none
  | @tree _ inner _ leaf below hbefore hspelled hafter =>
      obtain ⟨front, after, rfl, hfront, rfl⟩ := List.map_eq_append_iff.1 hbody
      obtain ⟨before, middle, rfl, rfl, hmiddle⟩ := List.map_eq_append_iff.1 hfront
      obtain rfl : middle = inner :=
        List.map_injective_iff.2 (fun _ _ heq => Suite.Token.node.inj heq) hmiddle
      obtain ⟨s₁, hfold₁, hshows₁⟩ := foldlM_take_of_nulls hbefore Scaffold.shows_empty none
      obtain ⟨s₂, hfold₂, hshows₂⟩ := foldlM_take_of_spelled hspelled hshows₁
      obtain ⟨s₃, hfold₃, hshows₃⟩ := foldlM_take_of_nulls hafter hshows₂ (some (.plant leaf below))
      refine ⟨s₃, ?_, hshows₃⟩
      rw [List.append_assoc]
      exact (foldlM_append_of_ok hfold₁ _).trans ((foldlM_append_of_ok hfold₂ _).trans hfold₃)

/-! ## What is read is formed -/

theorem opened_of_foldlM {steps : List BuildStep} {reading reading' : Reading}
    {body : List Suite.Token} {frames : List Frame} (hshows : reading.scaffold.Shows frames)
    (hopened : Opened body frames reading.tree.isSome)
    (hfold : steps.foldlM Reading.take reading = .ok reading') :
    ∃ frames', reading'.scaffold.Shows frames' ∧
      Opened (body ++ steps.map .node) frames' reading'.tree.isSome := by
  induction steps generalizing reading body frames with
  | nil =>
      cases hfold
      rw [List.map_nil, List.append_nil]
      exact ⟨frames, hshows, hopened⟩
  | cons st steps ih =>
      obtain ⟨next, htake, hrest⟩ := foldlM_cons_eq_ok.1 hfold
      obtain ⟨frames', completed, hframes, hshows', htree⟩ := Reading.take_eq_ok hshows htake
      have hnext : Opened (body ++ [.node st]) frames' next.tree.isSome := by
        rcases htree with ⟨rfl, hsame⟩ | ⟨leaf, below, rfl, hnone, hplant⟩
        · have hstep := hopened.step_frames hframes (by simp)
          rwa [hsame, ← Bool.or_false reading.tree.isSome]
        · have hstep := hopened.step_frames hframes (by simp [hnone])
          rw [hnone] at hstep
          rw [hplant]
          exact hstep
      have hall := ih hshows' hnext hrest
      rwa [List.append_assoc] at hall

theorem exists_reading_of_read {text : String} {result : Option Tree}
    (h : read text = .ok result) :
    ∃ tags reading, splitTags [] text.toList = .ok tags ∧
      tags.foldlM Reading.step {} = .ok reading ∧ reading.scaffold.isIdle ∧
      reading.tree = result := by
  rw [read] at h
  split at h
  next => cases h
  next tags hsplit =>
    split at h
    next => cases h
    next reading hfold =>
      rw [Scaffold.finish] at h
      by_cases hidle : reading.scaffold.isIdle
      · rw [if_pos hidle] at h
        exact ⟨tags, reading, hsplit, hfold, hidle, Except.ok.inj h⟩
      · rw [if_neg hidle] at h
        cases h

/-- The text is tags that say these steps, with the tree that they form. -/
structure Holds (text : List Char) (tags : List (List Char)) (steps : List BuildStep)
    (tree : Option (Leaf × Row)) : Prop where
  tagged : Tagged text tags
  tells : List.Forall₂ Tells tags steps
  forms : FormsBody (steps.map .node) tree

theorem exists_holds_of_read {text : String} {result : Option Tree}
    (h : read text = .ok result) : ∃ tags steps tree, Holds text.toList tags steps tree := by
  obtain ⟨tags, reading, hsplit, hfold, hidle, _⟩ := exists_reading_of_read h
  obtain ⟨_, rfl, htagged⟩ := splitTags_eq_ok.1 hsplit
  obtain ⟨steps, htells, htake⟩ := exists_tells_of_foldlM hfold
  obtain ⟨frames, hshows, hopened⟩ :=
    @opened_of_foldlM steps {} reading [] [] Scaffold.shows_empty (.before Suite.areNulls_nil) htake
  obtain rfl : frames = [] := by
    rw [Scaffold.isIdle, hshows.2] at hidle
    cases frames with
    | nil => rfl
    | cons f outer => cases hidle
  obtain ⟨tree, hforms⟩ := hopened.formsBody
  exact ⟨_, steps, tree, htagged, htells, hforms⟩

theorem Holds.read_eq {text : String} {tags : List (List Char)} {steps : List BuildStep}
    {tree : Option (Leaf × Row)} (h : Holds text.toList tags steps tree) :
    read text = .ok (tree.map fun (leaf, below) => .plant leaf below) := by
  obtain ⟨s, htake, hshows⟩ := foldlM_take_of_formsBody h.forms
  rw [← foldlM_step_of_tells h.tells] at htake
  exact read_of_split (splitTags_eq_ok.2 ⟨tags, rfl, h.tagged⟩) htake hshows

/-- Exactly the texts that hold nulls and at most one tree are read.  What is read is absent
where no operation starts; otherwise its nodes are those that start, in order, with the
child slots that the nesting gives them. -/
theorem read_ok_iff (text : String) :
    ((∃ result, read text = .ok result) ↔
        ∃ tags steps tree, Holds text.toList tags steps tree) ∧
      ∀ result, read text = .ok result → ∀ tags steps tree, Holds text.toList tags steps tree →
        (result = none ↔ ∀ leaf selfClosing, .start (.node leaf) selfClosing ∉ steps) ∧
        ∀ t, result = some t → t.root = 0 ∧ t.nodes.toList = BuildStep.nodesAhead 0 steps := by
  refine ⟨⟨?_, ?_⟩, ?_⟩
  · rintro ⟨result, hread⟩
    exact exists_holds_of_read hread
  · rintro ⟨tags, steps, tree, hholds⟩
    exact ⟨_, hholds.read_eq⟩
  · intro result hread tags steps tree hholds
    cases hread.symm.trans hholds.read_eq
    obtain ⟨steps', hbody, hnodes⟩ := Suite.exists_steps_of_formsBody hholds.forms
    obtain rfl : steps = steps' :=
      List.map_injective_iff.2 (fun _ _ heq => Suite.Token.node.inj heq) hbody
    exact Suite.plant_of_nodesAhead hnodes

theorem read_ok_iff_nested :
    let text := "<null />\n<Concat><StringLiteral content=\"a>b\" /><null /></x>\u2003<null />"
    ∃ t tags steps tree, read text = .ok (some t) ∧ t.size = 2 ∧
      Holds text.toList tags steps tree ∧ t.root = 0 ∧
      t.nodes.toList = BuildStep.nodesAhead 0 steps := by
  intro text
  have hsize : (read text).toOption.map (·.map (·.size)) = some (some 2) := by decide +kernel
  obtain ⟨result, hsome, hresult⟩ := Option.map_eq_some_iff.1 hsize
  obtain ⟨t, rfl, htwo⟩ := Option.map_eq_some_iff.1 hresult
  have hread : read text = .ok (some t) := toOption_eq_some.1 hsome
  obtain ⟨tags, steps, tree, hholds⟩ := (read_ok_iff text).1.1 ⟨_, hread⟩
  obtain ⟨hroot, hnodes⟩ := ((read_ok_iff text).2 _ hread tags steps tree hholds).2 t rfl
  exact ⟨t, tags, steps, tree, hread, htwo, hholds, hroot, hnodes⟩

end TreeAssay.Dump
