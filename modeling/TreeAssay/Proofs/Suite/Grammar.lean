import TreeAssay.Proofs.Suite.Stages
/-!
# The grammar of suites

The tokens of a suite are testcases and stray ends of testcases.  A testcase that does not
close at once holds nulls with at most one tree among them, and only the last one may be
left open.  These are exactly the suites that are loaded.
-/

namespace TreeAssay.Suite

/-! ## The grammar -/

def AreNulls (tokens : List Token) : Prop :=
  ∀ token ∈ tokens, token = .node (.start .null true)

/-- What may stand in a testcase, with the tree among it: a node that closes at once, or
one that is open around any trees and nulls and then ends. -/
inductive FormsBody : List Token → Option (Leaf × Row) → Prop
  | bare {nulls} : AreNulls nulls → FormsBody nulls none
  | tree {before steps after leaf below} : AreNulls before →
      (Row.node leaf below .nil).Spelled steps → AreNulls after →
      FormsBody (before ++ steps.map .node ++ after) (some (leaf, below))

structure Content where
  heading : Heading
  tree : Option (Leaf × Row)

/-- The tokens of a suite, with the testcases in it. -/
inductive Forms : List Token → List Content → Prop
  | nil : Forms [] []
  | stray {tokens contents} : Forms tokens contents → Forms (.endTestcase :: tokens) contents
  | selfClosing {heading tokens contents} : Forms tokens contents →
      Forms (.testcase heading true :: tokens) (⟨heading, none⟩ :: contents)
  | closed {heading body tree tokens contents} : FormsBody body tree → Forms tokens contents →
      Forms (.testcase heading false :: body ++ .endTestcase :: tokens)
        (⟨heading, tree⟩ :: contents)
  | unclosed {heading body tree} : FormsBody body tree →
      Forms (.testcase heading false :: body) [⟨heading, tree⟩]

def Content.testcase (source : Source) (content : Content) : Testcase :=
  { content.heading.testcase source with
    root := content.tree.map fun (leaf, below) => .plant leaf below }

/-! ## What is formed fits -/

section Fits

variable (source : Source) (earlier : List Testcase)

theorem run_nulls {nulls : List Token} (h : AreNulls nulls) :
    Stage.run source ⟨[], true, earlier⟩ nulls = some ⟨[], true, earlier⟩ := by
  induction nulls with
  | nil => rfl
  | cons token nulls ih =>
      have htoken : token = .node (.start .null true) := h token (by simp)
      have hnulls : AreNulls nulls := fun token htoken => h token (by simp [htoken])
      rw [Stage.run_cons, htoken]
      exact ih hnulls

theorem run_of_runs {frames frames' : List Frame} {steps : List BuildStep}
    (h : Frame.Runs frames steps frames') :
    Stage.run source ⟨frames, true, earlier⟩ (steps.map .node) =
      some ⟨frames', true, earlier⟩ := by
  induction h with
  | nil => rfl
  | @cons frames frames' _ st _ hstep _ ih =>
      have hbuild : Stage.step source ⟨frames, true, earlier⟩ (.node st) =
          some ⟨frames', true, earlier⟩ := by
        cases st <;> simp only [Stage.step, Stage.build, hstep] <;> rfl
      rw [List.map_cons, Stage.run_cons, hbuild]
      exact ih

theorem run_tree {leaf : Leaf} {below : Row} {steps : List BuildStep}
    (h : (Row.node leaf below .nil).Spelled steps) {t : Testcase} (hroot : t.root = none) :
    Stage.run source ⟨[], true, t :: earlier⟩ (steps.map .node) =
      some ⟨[], true, { t with root := some (.plant leaf below) } :: earlier⟩ := by
  obtain ⟨init, last, frames, rfl, hruns, hlast⟩ := Frame.completes_of_spelled h
  have hbuild : Stage.step source ⟨frames, true, t :: earlier⟩ (.node last) =
      some ⟨[], true, { t with root := some (.plant leaf below) } :: earlier⟩ := by
    cases last <;> simp only [Stage.step, Stage.build, hlast] <;>
      simp [Except.toOption, Stage.attach, hroot]
  rw [List.map_append, Stage.run_append, run_of_runs source _ hruns]
  exact (Stage.run_cons).trans (by rw [hbuild]; rfl)

theorem run_body {body : List Token} {tree : Option (Leaf × Row)} (h : FormsBody body tree)
    {heading : Heading} :
    Stage.run source ⟨[], true, heading.testcase source :: earlier⟩ body =
      some ⟨[], true, Content.testcase source ⟨heading, tree⟩ :: earlier⟩ := by
  cases h with
  | bare hnulls => exact run_nulls source _ hnulls
  | tree hbefore hspelled hafter =>
      rw [Stage.run_append, Stage.run_append, run_nulls source _ hbefore, Option.bind_some,
        run_tree source _ hspelled rfl, Option.bind_some, run_nulls source _ hafter]
      rfl

/-- The tokens of a suite fit together, and its testcases are loaded. -/
theorem run_of_forms {tokens : List Token} {contents : List Content} (h : Forms tokens contents) :
    ∃ inTestcase, Stage.run source ⟨[], false, earlier⟩ tokens =
      some ⟨[], inTestcase, (contents.map (Content.testcase source)).reverse ++ earlier⟩ := by
  -- The testcases are gathered with the last one in front, so `earlier` grows on the way.
  induction h generalizing earlier with
  | nil => exact ⟨false, rfl⟩
  | stray _ ih =>
      obtain ⟨inTestcase, hrun⟩ := ih earlier
      exact ⟨inTestcase, hrun⟩
  | @selfClosing heading _ _ _ ih =>
      obtain ⟨inTestcase, hrun⟩ := ih (heading.testcase source :: earlier)
      refine ⟨inTestcase, ?_⟩
      rw [Stage.run_cons, List.map_cons, List.reverse_cons, List.append_assoc]
      exact hrun
  | @closed heading body tree _ _ hbody _ ih =>
      obtain ⟨inTestcase, hrun⟩ := ih (Content.testcase source ⟨heading, tree⟩ :: earlier)
      refine ⟨inTestcase, ?_⟩
      rw [List.cons_append, Stage.run_cons, List.map_cons, List.reverse_cons, List.append_assoc]
      change (Stage.run source ⟨[], true, heading.testcase source :: earlier⟩ _) = _
      rw [Stage.run_append, run_body source _ hbody]
      exact hrun
  | @unclosed heading body tree hbody =>
      refine ⟨true, ?_⟩
      rw [Stage.run_cons]
      exact run_body source _ hbody

end Fits

/-! ## What fits is formed -/

/-- What stands in an open testcase so far, where `rooted` says that it has its tree.  A
second tree may begin, but nothing comes of it. -/
inductive Opened : List Token → List Frame → Bool → Prop
  | before {nulls} : AreNulls nulls → Opened nulls [] false
  | within {nulls f outer steps} : AreNulls nulls → Frame.Spelled (f :: outer) steps →
      Opened (nulls ++ steps.map .node) (f :: outer) false
  | after {body tree} : FormsBody body (some tree) → Opened body [] true
  | lost {body f outer} : Opened body (f :: outer) true

theorem AreNulls.concat {nulls : List Token} (h : AreNulls nulls) :
    AreNulls (nulls ++ [.node (.start .null true)]) := by
  intro token htoken
  rcases List.mem_append.1 htoken with htoken | htoken
  · exact h token htoken
  · exact List.mem_singleton.1 htoken

theorem areNulls_nil : AreNulls [] := by
  intro token htoken
  cases htoken

theorem FormsBody.concat {body : List Token} {tree : Leaf × Row} (h : FormsBody body (some tree)) :
    FormsBody (body ++ [.node (.start .null true)]) (some tree) := by
  cases h with
  | tree hbefore hspelled hafter =>
      rw [List.append_assoc]
      exact .tree hbefore hspelled hafter.concat

theorem formsBody_of_spelled {nulls : List Token} (hnulls : AreNulls nulls) {leaf : Leaf}
    {below : Row} {steps : List BuildStep} (h : (Row.node leaf below .nil).Spelled steps) :
    FormsBody (nulls ++ steps.map .node) (some (leaf, below)) := by
  have hbody := FormsBody.tree hnulls h areNulls_nil
  rwa [List.append_nil] at hbody

theorem Opened.formsBody {body : List Token} {rooted : Bool} (h : Opened body [] rooted) :
    ∃ tree, FormsBody body tree := by
  cases h with
  | before hnulls => exact ⟨_, .bare hnulls⟩
  | after hbody => exact ⟨_, hbody⟩

section Opened

variable {source : Source} {body : List Token} {frames : List Frame} {t : Testcase}
  {earlier : List Testcase} {st : BuildStep} {stage : Stage}

theorem attach_eq_some {completed : Option (Leaf × Row)} {frames' : List Frame}
    (h : Stage.attach ⟨frames, true, t :: earlier⟩ (frames', completed) = some stage) :
    (completed = none ∧ stage = ⟨frames', true, t :: earlier⟩) ∨
      ∃ leaf below, completed = some (leaf, below) ∧ t.root = none ∧
        stage = ⟨frames', true, { t with root := some (.plant leaf below) } :: earlier⟩ := by
  cases completed with
  | none =>
      cases h
      exact .inl ⟨rfl, rfl⟩
  | some tree =>
      rw [Stage.attach] at h
      dsimp only at h
      split at h
      next => cases h
      next hroot =>
        cases h
        exact .inr ⟨_, _, rfl, by simpa using hroot, rfl⟩

theorem step_node_eq_some
    (h : Stage.step source ⟨frames, true, t :: earlier⟩ (.node st) = some stage) :
    ∃ frames' completed, Frame.step frames st = .ok (frames', completed) ∧
      Stage.attach ⟨frames, true, t :: earlier⟩ (frames', completed) = some stage := by
  have hbuild : Stage.build ⟨frames, true, t :: earlier⟩ st = some stage := by
    cases st <;> exact h
  rw [Stage.build] at hbuild
  cases hstep : Frame.step frames st with
  | error error =>
      rw [hstep] at hbuild
      cases hbuild
  | ok result =>
      rw [hstep] at hbuild
      exact ⟨result.1, result.2, rfl, hbuild⟩

theorem map_node_concat (front : List Token) (steps : List BuildStep) (st : BuildStep) :
    front ++ steps.map .node ++ [.node st] = front ++ (steps ++ [st]).map Token.node := by
  rw [List.append_assoc, List.map_append]
  rfl

/-- A start or an end keeps to the same shape, if it completes no second tree. -/
theorem Opened.step_frames {frames' : List Frame} {completed : Option (Leaf × Row)}
    {rooted : Bool} (h : Opened body frames rooted)
    (hframes : Frame.step frames st = .ok (frames', completed))
    (hroom : completed.isSome → rooted = false) :
    Opened (body ++ [.node st]) frames' (rooted || completed.isSome) := by
  cases h with
  | before hnulls =>
      match st with
      | .start .null true =>
          cases hframes
          exact .before hnulls.concat
      | .start (.node leaf) false =>
          cases hframes
          exact .within hnulls (Frame.Spelled.nil.opened leaf)
      | .start (.node leaf) true =>
          cases hframes
          exact .after (formsBody_of_spelled hnulls (.leaf .nil))
  | within hnulls hspelled =>
      rw [map_node_concat]
      rcases hspelled.step hframes with ⟨rfl, hspelled'⟩ | ⟨_, _, rfl, rfl, hspelled'⟩
      · obtain ⟨g, inner, rfl⟩ := Frame.exists_cons_of_step hframes
        exact .within hnulls hspelled'
      · exact .after (formsBody_of_spelled hnulls hspelled')
  | after hbody =>
      match st with
      | .start .null true =>
          cases hframes
          exact .after hbody.concat
      | .start (.node leaf) false =>
          cases hframes
          exact .lost
      | .start (.node leaf) true =>
          cases hframes
          exact absurd (hroom rfl) (by decide)
  | lost =>
      cases completed with
      | none =>
          obtain ⟨g, inner, rfl⟩ := Frame.exists_cons_of_step hframes
          exact .lost
      | some tree => exact absurd (hroom rfl) (by decide)

theorem Opened.step (h : Opened body frames t.root.isSome)
    (hstep : Stage.step source ⟨frames, true, t :: earlier⟩ (.node st) = some stage) :
    ∃ frames' t', stage = ⟨frames', true, t' :: earlier⟩ ∧
      Opened (body ++ [.node st]) frames' t'.root.isSome := by
  obtain ⟨frames', completed, hframes, hattach⟩ := step_node_eq_some hstep
  rcases attach_eq_some hattach with ⟨rfl, rfl⟩ | ⟨leaf, below, rfl, hroot, rfl⟩
  · have hopened := h.step_frames hframes (by simp)
    rw [Option.isSome_none, Bool.or_false] at hopened
    exact ⟨frames', t, rfl, hopened⟩
  · have hopened := h.step_frames hframes (by simp [hroot])
    rw [Option.isSome_some, Bool.or_true] at hopened
    exact ⟨frames', _, rfl, hopened⟩

end Opened

/-- The tokens are whole testcases and stray ends, whatever comes after them. -/
def AreClosed (tokens : List Token) : Prop :=
  ∀ rest contents, Forms rest contents → ∃ all, Forms (tokens ++ rest) all

theorem AreClosed.append {front back : List Token} (hfront : AreClosed front)
    (hback : AreClosed back) : AreClosed (front ++ back) := by
  intro rest contents hrest
  obtain ⟨all, hall⟩ := hback rest contents hrest
  rw [List.append_assoc]
  exact hfront _ _ hall

theorem areClosed_stray : AreClosed [.endTestcase] :=
  fun _ _ hrest => ⟨_, .stray hrest⟩

theorem areClosed_selfClosing (heading : Heading) : AreClosed [.testcase heading true] :=
  fun _ _ hrest => ⟨_, .selfClosing hrest⟩

theorem areClosed_closed {body : List Token} {tree : Option (Leaf × Row)}
    (h : FormsBody body tree) (heading : Heading) :
    AreClosed (.testcase heading false :: body ++ [.endTestcase]) := by
  intro rest contents hrest
  rw [List.append_assoc]
  exact ⟨_, .closed h hrest⟩

inductive Reaches : List Token → Stage → Prop
  | between {tokens testcases} : AreClosed tokens → Reaches tokens ⟨[], false, testcases⟩
  | inside {front heading body frames t earlier} : AreClosed front →
      Opened body frames t.root.isSome →
      Reaches (front ++ .testcase heading false :: body) ⟨frames, true, t :: earlier⟩

theorem Reaches.step {source : Source} {tokens : List Token} {token : Token}
    {stage stage' : Stage} (h : Reaches tokens stage)
    (hstep : stage.step source token = some stage') : Reaches (tokens ++ [token]) stage' := by
  cases h with
  | between hclosed =>
      match token with
      | .testcase heading true =>
          cases hstep
          exact .between (hclosed.append (areClosed_selfClosing heading))
      | .testcase heading false =>
          cases hstep
          exact .inside hclosed (.before areNulls_nil)
      | .endTestcase =>
          cases hstep
          exact .between (hclosed.append areClosed_stray)
      | .node (.start e selfClosing) => cases hstep
      | .node .close => cases hstep
  | @inside front heading body frames t earlier hclosed hopened =>
      match token with
      | .testcase heading' selfClosing =>
          rw [Stage.step, if_neg (by simp)] at hstep
          cases hstep
      | .endTestcase =>
          rw [Stage.step] at hstep
          split at hstep
          next hframes =>
            obtain rfl : frames = [] := List.isEmpty_iff.1 hframes
            cases hstep
            obtain ⟨tree, hbody⟩ := hopened.formsBody
            rw [List.append_assoc]
            exact .between (hclosed.append (areClosed_closed hbody heading))
          next => cases hstep
      | .node st =>
          obtain ⟨frames', t', rfl, hopened'⟩ := hopened.step hstep
          rw [List.append_assoc]
          exact .inside hclosed hopened'

theorem Reaches.run {source : Source} {front tokens : List Token} {stage stage' : Stage}
    (h : Reaches front stage) (hrun : stage.run source tokens = some stage') :
    Reaches (front ++ tokens) stage' := by
  induction tokens generalizing front stage with
  | nil =>
      cases hrun
      rwa [List.append_nil]
  | cons token tokens ih =>
      rw [Stage.run_cons] at hrun
      obtain ⟨next, hstep, hrest⟩ := Option.bind_eq_some_iff.1 hrun
      have hreaches := ih (h.step hstep) hrest
      rwa [List.append_assoc] at hreaches

theorem forms_of_run {source : Source} {tokens : List Token} {inTestcase : Bool}
    {testcases : List Testcase}
    (hrun : Stage.run source {} tokens = some ⟨[], inTestcase, testcases⟩) :
    ∃ contents, Forms tokens contents := by
  have hstart : Reaches [] {} := .between fun _ contents hrest => ⟨contents, hrest⟩
  have hreaches := hstart.run hrun
  rw [List.nil_append] at hreaches
  cases hreaches with
  | between hclosed =>
      obtain ⟨all, hall⟩ := hclosed [] [] .nil
      rw [List.append_nil] at hall
      exact ⟨all, hall⟩
  | inside hclosed hopened =>
      obtain ⟨tree, hbody⟩ := hopened.formsBody
      exact hclosed _ _ (.unclosed hbody)

/-! ## Loaded suites -/

theorem load_forms {source : Source} {loaded : Loaded} (hload : load source = .ok loaded) :
    ∃ tokens contents, Decoded (Line.ofText source.content.toList) tokens ∧
      Forms tokens contents ∧ loaded.testcases = contents.map (Content.testcase source) := by
  obtain ⟨tokens, inTestcase, hdecoded, hrun⟩ := load_eq_ok.1 ⟨loaded, hload, rfl⟩
  obtain ⟨contents, hforms⟩ := forms_of_run hrun
  obtain ⟨inTestcase', hrun'⟩ := run_of_forms source [] hforms
  refine ⟨tokens, contents, hdecoded, hforms, ?_⟩
  have hstage := Option.some.inj (hrun.symm.trans hrun')
  injection hstage with _ _ htestcases
  rw [List.append_nil] at htestcases
  exact List.reverse_inj.1 htestcases

/-- A suite is loaded exactly when all its lines that start or end something say what they
should and together form a suite. -/
theorem load_ok_iff (source : Source) :
    (∃ loaded, load source = .ok loaded) ↔
      ∃ tokens contents, Decoded (Line.ofText source.content.toList) tokens ∧
        Forms tokens contents := by
  constructor
  · rintro ⟨loaded, hload⟩
    obtain ⟨tokens, contents, hdecoded, hforms, _⟩ := load_forms hload
    exact ⟨tokens, contents, hdecoded, hforms⟩
  · rintro ⟨tokens, contents, hdecoded, hforms⟩
    obtain ⟨inTestcase, hrun⟩ := run_of_forms source [] hforms
    rw [List.append_nil] at hrun
    obtain ⟨loaded, hload, _⟩ := load_eq_ok.2
      ⟨tokens, inTestcase, hdecoded, hrun⟩
    exact ⟨loaded, hload⟩

end TreeAssay.Suite
