import Mathlib.Data.List.Forall2
import Mathlib.Data.List.Induction
import TreeAssay.Proofs.Trees.Construction
/-!
# Starts and ends in groups

Whatever starts and ends a scaffold is given, those that fit fall into groups in one way: a
null on its own, or all that spells one node.  Each node comes out as a tree with the last
step of its group, and what is open in the end is the beginning of one more group.
-/

namespace TreeAssay

/-! ## Groups -/

namespace BuildStep

/-- Starts and ends that belong together: a null on its own, or those of a single node. -/
inductive IsGroup : List BuildStep → Prop
  | null : IsGroup [.start .null true]
  | tree {leaf below steps} : (Row.node leaf below .nil).Spelled steps → IsGroup steps

/-- Groups one behind the other, and then the beginning of a group that is not complete. -/
structure Splits (steps : List BuildStep) (groups : List (List BuildStep))
    (rest : List BuildStep) : Prop where
  flatten : groups.flatten ++ rest = steps
  complete : ∀ group ∈ groups, IsGroup group
  unfinished : ∃ more, more ≠ [] ∧ IsGroup (rest ++ more)

end BuildStep

theorem Frame.Runs.of_append {a c : List Frame} {xs ys : List BuildStep}
    (h : Runs a (xs ++ ys) c) : ∃ b, Runs a xs b ∧ Runs b ys c := by
  induction xs generalizing a with
  | nil => exact ⟨a, .nil, h⟩
  | cons st xs ih =>
      cases h with
      | cons hstep hrest =>
          obtain ⟨b, hxs, hys⟩ := ih hrest
          exact ⟨b, .cons hstep hxs, hys⟩

theorem Frame.Runs.unique {a b c : List Frame} {xs : List BuildStep} (h : Runs a xs b)
    (h' : Runs a xs c) : b = c := by
  induction h with
  | nil =>
      cases h'
      rfl
  | cons hstep _ ih =>
      cases h' with
      | cons hstep' hrest' =>
          rw [hstep] at hstep'
          cases hstep'
          exact ih hrest'

namespace BuildStep

/-- No group is the beginning of another one: its last step completes a tree, and before the
last step of a group nothing is complete. -/
theorem IsGroup.eq_nil_of_append {group more : List BuildStep} (h : IsGroup group)
    (h' : IsGroup (group ++ more)) : more = [] := by
  cases h with
  | null =>
      cases h' with
      | null => rfl
      | tree hspelled => cases hspelled
  | tree hspelled =>
      obtain ⟨init, last, frames, rfl, hruns, hlast⟩ := Frame.completes_of_spelled hspelled
      generalize hall : init ++ [last] ++ more = all at h'
      cases h' with
      | null =>
          have hlength := congrArg List.length hall
          simp only [List.length_append, List.length_singleton] at hlength
          exact List.length_eq_zero_iff.1 (by omega)
      | tree hspelled' =>
          obtain ⟨init', last', frames', rfl, hruns', _⟩ := Frame.completes_of_spelled hspelled'
          rcases List.eq_nil_or_concat more with hnil | ⟨front, back, rfl⟩
          · exact hnil
          · rw [List.concat_eq_append, ← List.append_assoc] at hall
            obtain ⟨rfl, _⟩ := List.append_inj' hall rfl
            rw [List.append_assoc] at hruns'
            obtain ⟨between, hfirst, hrest⟩ := hruns'.of_append
            cases hruns.unique hfirst
            cases hrest with
            | cons hstep _ =>
                rw [hlast] at hstep
                cases hstep

theorem IsGroup.eq_of_append {group group' xs ys : List BuildStep} (h : IsGroup group)
    (h' : IsGroup group') (heq : group ++ xs = group' ++ ys) : group = group' := by
  rcases List.append_eq_append_iff.1 heq with ⟨more, rfl, _⟩ | ⟨more, rfl, _⟩
  · rw [h.eq_nil_of_append h', List.append_nil]
  · rw [h'.eq_nil_of_append h, List.append_nil]

/-- No group has ended where one more has only begun. -/
theorem IsGroup.false_of_unfinished {group xs more : List BuildStep} (h : IsGroup group)
    (hmore : more ≠ []) (h' : IsGroup (group ++ xs ++ more)) : False := by
  rw [List.append_assoc] at h'
  exact hmore (List.append_eq_nil_iff.1 (h.eq_nil_of_append h')).2

theorem Splits.cons {steps rest group : List BuildStep} {groups : List (List BuildStep)}
    (h : Splits steps (group :: groups) rest) :
    ∃ steps', steps = group ++ steps' ∧ IsGroup group ∧ Splits steps' groups rest := by
  obtain ⟨hgroup, hgroups⟩ := List.forall_mem_cons.1 h.complete
  refine ⟨groups.flatten ++ rest, ?_, hgroup, rfl, hgroups, h.unfinished⟩
  rw [← h.flatten, List.flatten_cons, List.append_assoc]

theorem Splits.unique {steps rest rest' : List BuildStep} {groups groups' : List (List BuildStep)}
    (h : Splits steps groups rest) (h' : Splits steps groups' rest') :
    groups' = groups ∧ rest' = rest := by
  induction groups generalizing steps groups' with
  | nil =>
      have hrest : rest = steps := h.flatten
      subst hrest
      cases groups' with
      | nil => exact ⟨rfl, h'.flatten⟩
      | cons group' groups' =>
          obtain ⟨steps', rfl, hgroup', _⟩ := h'.cons
          obtain ⟨more, hmore, hunfinished⟩ := h.unfinished
          exact (hgroup'.false_of_unfinished hmore hunfinished).elim
  | cons group groups ih =>
      obtain ⟨steps₁, rfl, hgroup, hsplits⟩ := h.cons
      cases groups' with
      | nil =>
          have hrest : rest' = group ++ steps₁ := h'.flatten
          subst hrest
          obtain ⟨more, hmore, hunfinished⟩ := h'.unfinished
          exact (hgroup.false_of_unfinished hmore hunfinished).elim
      | cons group' groups' =>
          obtain ⟨steps₂, hsteps, hgroup', hsplits'⟩ := h'.cons
          obtain rfl := hgroup.eq_of_append hgroup' hsteps
          obtain rfl := List.append_cancel_left hsteps
          obtain ⟨rfl, rfl⟩ := ih hsplits hsplits'
          exact ⟨rfl, rfl⟩

/-! ## Open nodes -/

/-- The step opens a node that has to be closed. -/
def opens : BuildStep → Bool
  | .start (.node _) false => true
  | .start _ _ | .close => false

def closes : BuildStep → Bool
  | .close => true
  | .start _ _ => false

end BuildStep

theorem Row.Spelled.countP_closes {row : Row} {steps : List BuildStep} (h : row.Spelled steps) :
    steps.countP BuildStep.closes = steps.countP BuildStep.opens := by
  induction h with
  | nil => rfl
  | null _ ih => exact ih
  | leaf _ ih => exact ih
  | node _ _ ihBelow ihNext =>
      simp only [List.cons_append, List.countP_cons, List.countP_append, ihBelow, ihNext,
        BuildStep.opens, BuildStep.closes]
      simp only [Bool.false_eq_true, if_true, if_false]
      omega

theorem BuildStep.IsGroup.countP_closes {group : List BuildStep} (h : IsGroup group) :
    group.countP closes = group.countP opens := by
  cases h with
  | null => rfl
  | tree hspelled => exact hspelled.countP_closes

theorem BuildStep.countP_closes_flatten {groups : List (List BuildStep)}
    (h : ∀ group ∈ groups, IsGroup group) :
    groups.flatten.countP closes = groups.flatten.countP opens := by
  induction groups with
  | nil => rfl
  | cons group groups ih =>
      obtain ⟨hgroup, hgroups⟩ := List.forall_mem_cons.1 h
      rw [List.flatten_cons, List.countP_append, List.countP_append, hgroup.countP_closes,
        ih hgroups]

theorem Frame.Spelled.countP_opens {frames : List Frame} {steps : List BuildStep}
    (h : Spelled frames steps) :
    frames.length + steps.countP BuildStep.closes = steps.countP BuildStep.opens := by
  induction h with
  | nil => rfl
  | cons _ hdone ih =>
      simp only [List.countP_append, List.countP_cons, List.length_cons, hdone.countP_closes,
        ← ih, BuildStep.opens, BuildStep.closes]
      simp only [Bool.false_eq_true, if_true, if_false]
      omega

theorem Frame.Spelled.eq_nil_iff {frames : List Frame} {steps : List BuildStep}
    (h : Spelled frames steps) : frames = [] ↔ steps = [] := by
  cases h <;> simp

theorem Frame.Spelled.flatMap_leaves {frames : List Frame} {steps : List BuildStep}
    (h : Spelled frames steps) : steps.flatMap BuildStep.leaves = leaves frames := by
  induction h with
  | nil => rfl
  | cons _ hdone ih =>
      rw [List.flatMap_append, List.flatMap_cons, ih, BuildStep.leaves_of_spelled hdone]
      rfl

/-- What is open can be closed, the innermost node first. -/
theorem Frame.Spelled.exists_more {frames : List Frame} {steps : List BuildStep}
    (h : Spelled frames steps) : ∃ more, more ≠ [] ∧ BuildStep.IsGroup (steps ++ more) := by
  cases frames with
  | nil =>
      cases h
      exact ⟨_, List.cons_ne_nil _ _, .null⟩
  | cons f outer =>
      induction outer generalizing f steps with
      | nil =>
          have hclose : Frame.step [f] .close = .ok ([], some (f.leaf, f.done)) := rfl
          rcases h.step hclose with ⟨hnone, _⟩ | ⟨_, _, _, _, hspelled⟩
          · cases hnone
          · exact ⟨_, List.cons_ne_nil _ _, .tree hspelled⟩
      | cons g outer ih =>
          have hclose : Frame.step (f :: g :: outer) .close =
              .ok (Frame.add (g :: outer) (Row.node f.leaf f.done .nil), none) := rfl
          rcases h.step hclose with ⟨_, hspelled⟩ | ⟨_, _, hsome, _⟩
          · obtain ⟨more, _, hgroup⟩ := ih _ hspelled
            rw [List.append_assoc] at hgroup
            exact ⟨_, List.cons_ne_nil _ _, hgroup⟩
          · cases hsome

/-! ## What the steps of a group give back -/

/-- A group and what its steps give back: nothing, except that the last step of a node gives
the tree of the node, numbered from its root in the order of the starts. -/
inductive BuildStep.Completes : List BuildStep → List (BuildStep × Option Tree) → Prop
  | null : Completes [.start .null true] [(.start .null true, none)]
  | tree {leaf below init last} : (Row.node leaf below .nil).Spelled (init ++ [last]) →
      Completes (init ++ [last]) (init.map (·, none) ++ [(last, some (.plant leaf below))])

/-- A step that fits goes on with a group or completes it. -/
theorem Frame.Spelled.advance {frames frames' : List Frame} {steps : List BuildStep}
    {st : BuildStep} {completed : Option (Leaf × Row)} (h : Spelled frames steps)
    (hstep : Frame.step frames st = .ok (frames', completed)) :
    (completed = none ∧ Spelled frames' (steps ++ [st])) ∨
      frames' = [] ∧ BuildStep.Completes (steps ++ [st])
        (steps.map (·, none) ++ [(st, completed.map fun (leaf, below) => .plant leaf below)]) := by
  cases frames with
  | cons f outer =>
      rcases h.step hstep with hopen | ⟨leaf, below, rfl, rfl, hspelled⟩
      · exact .inl hopen
      · exact .inr ⟨rfl, .tree hspelled⟩
  | nil =>
      cases h
      match st with
      | .start .null false => cases hstep
      | .start .null true =>
          cases hstep
          exact .inr ⟨rfl, .null⟩
      | .start (.node leaf) true =>
          cases hstep
          exact .inr ⟨rfl, .tree (.leaf .nil)⟩
      | .start (.node leaf) false =>
          cases hstep
          exact .inl ⟨rfl, Spelled.opened .nil leaf⟩
      | .close => cases hstep

namespace BuildStep.Completes

variable {group : List BuildStep} {answered : List (BuildStep × Option Tree)}

theorem isGroup (h : Completes group answered) : IsGroup group := by
  cases h with
  | null => exact .null
  | tree hspelled => exact .tree hspelled

theorem map_fst (h : Completes group answered) : answered.map Prod.fst = group := by
  cases h with
  | null => rfl
  | tree => simp [Function.comp_def]

theorem flatMap_leaves (h : Completes group answered) :
    group.flatMap leaves =
      (answered.filterMap Prod.snd).flatMap fun t => t.nodes.toList.map Node.toLeaf := by
  cases h with
  | null => rfl
  | @tree leaf below init last hspelled =>
      have htrees : (init.map (·, none) ++ [(last, some (Tree.plant leaf below))]).filterMap
          Prod.snd = [Tree.plant leaf below] := by
        simp
      rw [leaves_of_spelled hspelled, htrees, List.flatMap_singleton, Tree.map_toLeaf_plant,
        Row.leaves, Row.leaves, List.append_nil]

end BuildStep.Completes

section Answered

variable {groups : List (List BuildStep)} {answered : List (List (BuildStep × Option Tree))}

theorem isGroup_of_completes (h : List.Forall₂ BuildStep.Completes groups answered) :
    ∀ group ∈ groups, BuildStep.IsGroup group := by
  induction h with
  | nil => simp
  | cons hgroup _ ih => exact List.forall_mem_cons.2 ⟨hgroup.isGroup, ih⟩

theorem map_fst_flatten (h : List.Forall₂ BuildStep.Completes groups answered) :
    answered.flatten.map Prod.fst = groups.flatten := by
  induction h with
  | nil => rfl
  | cons hgroup _ ih =>
      rw [List.flatten_cons, List.map_append, hgroup.map_fst, ih, List.flatten_cons]

theorem flatMap_leaves_flatten (h : List.Forall₂ BuildStep.Completes groups answered) :
    groups.flatten.flatMap BuildStep.leaves =
      (answered.flatten.filterMap Prod.snd).flatMap fun t => t.nodes.toList.map Node.toLeaf := by
  induction h with
  | nil => rfl
  | cons hgroup _ ih =>
      rw [List.flatten_cons, List.flatMap_append, hgroup.flatMap_leaves, ih, List.flatten_cons,
        List.filterMap_append, List.flatMap_append]

end Answered

namespace Scaffold

/-- The answers to starts and ends: to each the tree that it completes or what is wrong with
it, and the depth behind it. -/
def answers (s : Scaffold) : List BuildStep → List (Except BuildError (Option Tree) × Nat)
  | [] => []
  | st :: steps => (Prod.snd <$> s.step st, (s.after st).depth) :: (s.after st).answers steps

/-- The steps that fit, each with the tree that it completes. -/
def taken (s : Scaffold) (steps : List BuildStep) : List (BuildStep × Option Tree) :=
  (steps.zip (s.answers steps)).filterMap fun (st, answer, _) => answer.toOption.map (st, ·)

theorem after_of_error {s : Scaffold} {st : BuildStep} {error : BuildError}
    (h : s.step st = .error error) : s.after st = s := by
  rw [after, h]

theorem answers_append (s : Scaffold) (front back : List BuildStep) :
    s.answers (front ++ back) = s.answers front ++ (front.foldl after s).answers back := by
  induction front generalizing s with
  | nil => rfl
  | cons st front ih =>
      rw [List.cons_append, answers, ih, answers]
      rfl

theorem length_answers (s : Scaffold) (steps : List BuildStep) :
    (s.answers steps).length = steps.length := by
  induction steps generalizing s with
  | nil => rfl
  | cons st steps ih => rw [answers, List.length_cons, ih, List.length_cons]

theorem taken_concat (s : Scaffold) (steps : List BuildStep) (st : BuildStep) :
    s.taken (steps ++ [st]) = s.taken steps ++
      ((Prod.snd <$> (steps.foldl after s).step st).toOption.map (st, ·)).toList := by
  rw [taken, answers_append, List.zip_append (s.length_answers steps).symm,
    List.filterMap_append]
  rfl

theorem depth_of_shows {s : Scaffold} {frames : List Frame} (h : s.Shows frames) :
    s.depth = frames.length := by
  have hids (frames : List Frame) : (Frame.ids frames).length = frames.length := by
    induction frames with
    | nil => rfl
    | cons f outer ih => rw [Frame.ids, List.length_cons, ih, List.length_cons]
  rw [depth, h.2, hids]

theorem map_toLeaf_of_shows {s : Scaffold} {frames : List Frame} (h : s.Shows frames) :
    s.arena.nodes.toList.map Node.toLeaf = Frame.leaves frames := by
  have hbefore (frames : List Frame) :
      (Frame.before frames).map Node.toLeaf = Frame.leaves frames := by
    induction frames with
    | nil => rfl
    | cons f outer ih =>
        rw [Frame.before, List.map_append, List.map_cons, ih, Row.map_toLeaf_nodes, Frame.leaves]
  rw [h.1]
  cases frames with
  | nil => rfl
  | cons f outer =>
      rw [Frame.nodes, List.map_append, hbefore, Row.map_toLeaf_nodes, Row.leaves, Row.leaves,
        List.append_nil, Frame.leaves]

/-- The steps that have been taken are complete groups and, behind them, what spells the frames
that are open. -/
theorem exists_groups (steps : List BuildStep) :
    ∃ frames groups answered rest, (steps.foldl after empty).Shows frames ∧
      Frame.Spelled frames rest ∧ List.Forall₂ BuildStep.Completes groups answered ∧
      empty.taken steps = answered.flatten ++ rest.map (·, none) := by
  induction steps using List.reverseRecOn with
  | nil => exact ⟨[], [], [], [], shows_empty, .nil, .nil, rfl⟩
  | append_singleton steps st ih =>
      obtain ⟨frames, groups, answered, rest, hshows, hspelled, hanswered, htaken⟩ := ih
      rw [List.foldl_append, List.foldl_cons, List.foldl_nil, taken_concat, htaken]
      cases hframes : Frame.step frames st with
      | error error =>
          have hstep := step_of_shows hshows st
          rw [hframes] at hstep
          refine ⟨frames, groups, answered, rest, ?_, hspelled, hanswered, ?_⟩
          · rwa [after_of_error hstep]
          · rw [hstep]
            exact List.append_nil _
      | ok result =>
          obtain ⟨frames', completed⟩ := result
          obtain ⟨s', hstep, hshows'⟩ := step_ok_of_shows hshows hframes
          have hafter : (steps.foldl after empty).after st = s' := by rw [after, hstep]
          rw [hafter, hstep]
          rcases hspelled.advance hframes with ⟨rfl, hopen⟩ | ⟨rfl, hcompletes⟩
          · refine ⟨frames', groups, answered, rest ++ [st], hshows', hopen, hanswered, ?_⟩
            rw [List.map_append, ← List.append_assoc]
            rfl
          · refine ⟨[], groups ++ [rest ++ [st]], answered ++ [_], [], hshows', .nil,
              List.rel_append hanswered (.cons hcompletes .nil), ?_⟩
            rw [List.flatten_append, List.flatten_singleton, List.append_assoc, List.map_nil,
              List.append_nil]
            rfl

/-- What an empty scaffold makes of any starts and ends.  One that does not fit is answered
with an error and changes nothing else, neither the depth nor what comes behind it.  The
others split in just one way into groups and the beginning of one more; each group gives its
tree back with its last step.  The depth counts the nodes that are open, the scaffold can be
finished where no group has begun, and every node is in one of the trees or still pending. -/
theorem takes_groups (steps : List BuildStep) :
    let s := steps.foldl after empty
    let taken := empty.taken steps
    (∀ front st back error, steps = front ++ st :: back →
        (front.foldl after empty).step st = .error error →
        ∃ later, empty.answers steps = empty.answers front ++
              (.error error, (front.foldl after empty).depth) :: later ∧
            empty.answers (front ++ back) = empty.answers front ++ later ∧
            s = (front ++ back).foldl after empty) ∧
      ∃ groups answered rest,
        (BuildStep.Splits (taken.map Prod.fst) groups rest ∧
            ∀ groups' rest', BuildStep.Splits (taken.map Prod.fst) groups' rest' →
              groups' = groups ∧ rest' = rest) ∧
          List.Forall₂ BuildStep.Completes groups answered ∧
          taken = answered.flatten ++ rest.map (·, none) ∧
          s.depth + (taken.map Prod.fst).countP BuildStep.closes =
            (taken.map Prod.fst).countP BuildStep.opens ∧
          (s.finish = .ok () ↔ rest = []) ∧
          (taken.map Prod.fst).flatMap BuildStep.leaves =
            ((taken.filterMap Prod.snd).flatMap fun t => t.nodes.toList.map Node.toLeaf) ++
              s.arena.nodes.toList.map Node.toLeaf := by
  intro s taken
  constructor
  · rintro front st back error rfl herror
    refine ⟨(front.foldl after empty).answers back, ?_, answers_append _ _ _, ?_⟩
    · rw [answers_append, answers, herror, after_of_error herror]
      rfl
    · simp only [s, List.foldl_append, List.foldl_cons, after_of_error herror]
  · obtain ⟨frames, groups, answered, rest, hshows, hspelled, hanswered, htaken⟩ :=
      exists_groups steps
    change taken = _ at htaken
    have hgroups := isGroup_of_completes hanswered
    have hrest : (rest.map fun st => (st, (none : Option Tree))).filterMap Prod.snd = [] := by simp
    have htrees : taken.filterMap Prod.snd = answered.flatten.filterMap Prod.snd := by
      rw [htaken, List.filterMap_append, hrest, List.append_nil]
    have hsteps : taken.map Prod.fst = groups.flatten ++ rest := by
      rw [htaken, List.map_append, map_fst_flatten hanswered, List.map_map]
      simp [Function.comp_def]
    have hsplits : BuildStep.Splits (taken.map Prod.fst) groups rest :=
      ⟨hsteps.symm, hgroups, hspelled.exists_more⟩
    refine ⟨groups, answered, rest, ⟨hsplits, fun _ _ h => hsplits.unique h⟩, hanswered, htaken,
      ?_, ?_, ?_⟩
    · rw [hsteps, List.countP_append, List.countP_append, BuildStep.countP_closes_flatten hgroups,
        ← hspelled.countP_opens, depth_of_shows hshows]
      omega
    · rw [finish_of_shows hshows, ← hspelled.eq_nil_iff]
      cases frames <;> simp
    · rw [hsteps, List.flatMap_append, flatMap_leaves_flatten hanswered, hspelled.flatMap_leaves,
        htrees, map_toLeaf_of_shows hshows]

/-- An end without a start, and then a sum with a negation that is left open behind it.  The
sum is a group, so the scaffold cannot be finished. -/
theorem takes_groups_stray :
    let sum : List BuildStep := [.start (.node ⟨.add, none⟩) false, .start .null true,
      .start (.node ⟨.intLiteral, some (.int 1)⟩) true, .close]
    let negation : List BuildStep := [.start (.node ⟨.negate, none⟩) false]
    let steps := sum ++ negation
    empty.step .close = .error .nothingToClose ∧
      empty.answers (.close :: steps) = (.error .nothingToClose, 0) :: empty.answers steps ∧
      BuildStep.Splits ((empty.taken steps).map Prod.fst) [sum] negation ∧
      (steps.foldl after empty).depth = 1 ∧ (steps.foldl after empty).finish ≠ .ok () := by
  intro sum negation steps
  have herror : empty.step .close = .error .nothingToClose := rfl
  have hfits : (empty.taken steps).map Prod.fst = steps := rfl
  have hsum : (Row.node ⟨.add, none⟩ (.null (.node ⟨.intLiteral, some (.int 1)⟩ .nil .nil))
      .nil).Spelled sum := .node (.null (.leaf .nil)) .nil
  have hnegation : (Row.node ⟨.negate, none⟩ .nil .nil).Spelled (negation ++ [.close]) :=
    .node .nil .nil
  have hsplits : BuildStep.Splits ((empty.taken steps).map Prod.fst) [sum] negation :=
    ⟨rfl, List.forall_mem_singleton.2 (.tree hsum), _, List.cons_ne_nil _ _, .tree hnegation⟩
  obtain ⟨later, hwith, hwithout, _⟩ :=
    (takes_groups (.close :: steps)).1 [] .close steps _ rfl herror
  obtain ⟨_, groups, _, rest, ⟨_, hunique⟩, _, _, hdepth, hfinish, _⟩ := takes_groups steps
  obtain ⟨_, rfl⟩ := hunique _ _ hsplits
  refine ⟨herror, ?_, hsplits, ?_, ?_⟩
  · rw [hwith, show empty.answers steps = later from hwithout]
    rfl
  · rw [hfits] at hdepth
    exact Nat.add_right_cancel (m := 1) hdepth
  · exact mt hfinish.1 (List.cons_ne_nil _ _)

end Scaffold

end TreeAssay
