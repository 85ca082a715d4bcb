import Mathlib.Data.List.TakeWhile
import TreeAssay.Proofs.Markup.Attributes
/-!
# Markers

A marker is a `="`: it ends a name and begins a value.  The scan passes over text without
one.  At a marker it needs the last space before it, wherever that is, and the next quote
behind it.  So how far it has come is told by the text on either side and by the pairs that it
has read, which is what `Comes` keeps track of.
-/

namespace TreeAssay.Attributes

/-- There is a `="` in the text. -/
def HasMarker (text : List Char) : Prop :=
  ['=', '"'] <:+: text

instance (text : List Char) : Decidable (HasMarker text) :=
  inferInstanceAs (Decidable (_ <:+: _))

theorem not_hasMarker_nil : ¬ HasMarker [] := by decide

theorem hasMarker_cons {c : Char} {rest : List Char} :
    HasMarker (c :: rest) ↔ (c = '=' ∧ rest.head? = some '"') ∨ HasMarker rest := by
  rw [HasMarker, List.infix_cons_iff, ← HasMarker, List.cons_prefix_cons, eq_comm (a := c)]
  cases rest <;> simp [List.cons_prefix_cons, eq_comm]

/-- A marker stands in one of two texts, or between them. -/
theorem hasMarker_append {front back : List Char} :
    HasMarker (front ++ back) ↔
      HasMarker front ∨ HasMarker back ∨ front.getLast? = some '=' ∧ back.head? = some '"' := by
  induction front with
  | nil => simp [not_hasMarker_nil]
  | cons c front ih =>
      rw [List.cons_append, hasMarker_cons, hasMarker_cons, ih]
      cases front with
      | nil => simp [not_hasMarker_nil, or_comm]
      | cons d front => simp [or_assoc, List.getLast?_cons_cons]

/-- The first marker of a text. -/
theorem exists_first_marker {text : List Char} (h : HasMarker text) :
    ∃ front after, text = front ++ '=' :: '"' :: after ∧ ¬ HasMarker front := by
  induction text with
  | nil => exact absurd h not_hasMarker_nil
  | cons c rest ih =>
      by_cases hhere : c = '=' ∧ rest.head? = some '"'
      · obtain ⟨rfl, hquote⟩ := hhere
        obtain ⟨after, rfl⟩ := List.head?_eq_some_iff.1 hquote
        exact ⟨[], after, rfl, not_hasMarker_nil⟩
      · obtain ⟨front, after, rfl, hfront⟩ := ih ((hasMarker_cons.1 h).resolve_left hhere)
        refine ⟨c :: front, after, rfl, fun hmarker => ?_⟩
        rcases hasMarker_cons.1 hmarker with ⟨rfl, hquote⟩ | hmarker
        · obtain ⟨rest, rfl⟩ := List.head?_eq_some_iff.1 hquote
          exact hhere ⟨rfl, rfl⟩
        · exact hfront hmarker

/-! ## The text since the last space -/

theorem exists_last_space {text : List Char} (h : ' ' ∈ text) :
    ∃ start name, text = start ++ ' ' :: name ∧ ' ' ∉ name := by
  obtain ⟨name, start, hsplit, hname⟩ := List.eq_append_cons_of_mem (List.mem_reverse.2 h)
  refine ⟨start.reverse, name.reverse, ?_, by simpa using hname⟩
  rw [← List.reverse_reverse text, hsplit]
  simp

theorem foldl_advance_none {text : List Char} (h : ' ' ∉ text) : text.foldl advance none = none := by
  induction text with
  | nil => rfl
  | cons c text ih =>
      obtain ⟨hc, htext⟩ := List.ne_and_not_mem_of_not_mem_cons h
      rw [List.foldl_cons, advance, if_neg hc.symm]
      exact ih htext

theorem foldl_advance_split {name : List Char} (hname : ' ' ∉ name) (start : List Char)
    (word : Option (List Char)) : (start ++ ' ' :: name).foldl advance word = some name.reverse := by
  rw [List.foldl_append, List.foldl_cons, advance, if_pos rfl,
    foldl_advance fun c hc hspace => hname (hspace ▸ hc), List.append_nil]

/-! ## Steps of the scan -/

/-- The scan passes over text that has no marker and is not cut inside one. -/
theorem scan_front {front back : List Char} (hfront : ¬ HasMarker front)
    (hcut : front.getLast? = some '=' → back.head? ≠ some '"') (attrs : Attributes)
    (word : Option (List Char)) :
    scan attrs word (front ++ back) = scan attrs (front.foldl advance word) back := by
  induction front generalizing word with
  | nil => rfl
  | cons c front ih =>
      rw [hasMarker_cons, not_or] at hfront
      rw [List.cons_append, scan_plain, List.foldl_cons]
      · refine ih hfront.2 (fun hlast => hcut ?_) _
        rw [List.getLast?_cons, hlast]
        rfl
      · rintro after rfl hquote
        cases front with
        | nil =>
            rw [List.nil_append] at hquote
            exact hcut rfl (by rw [hquote]; rfl)
        | cons d front =>
            obtain ⟨rfl, _⟩ := List.cons.inj hquote
            exact hfront.1 ⟨rfl, rfl⟩

/-- The scan of the text behind `before`. -/
def resume (attrs : Attributes) (before rest : List Char) : Attributes :=
  scan attrs (before.foldl advance none) rest

section Steps

variable {attrs : Attributes} {before front after : List Char}

theorem resume_front (hfront : ¬ HasMarker front) :
    resume attrs before (front ++ '=' :: '"' :: after) =
      scan attrs ((before ++ front).foldl advance none) ('=' :: '"' :: after) := by
  have hcut : front.getLast? = some '=' → ('=' :: '"' :: after).head? ≠ some '"' := by simp
  rw [resume, scan_front hfront hcut, List.foldl_append]

theorem resume_done {rest : List Char} (hrest : ¬ HasMarker rest) :
    resume attrs before rest = attrs := by
  rw [resume, ← List.append_nil rest, scan_front hrest fun _ => by decide, scan_nil]

theorem resume_unnamed (hfront : ¬ HasMarker front) (hspace : ' ' ∉ before ++ front) :
    resume attrs before (front ++ '=' :: '"' :: after) = { attrs with malformed := true } := by
  rw [resume_front hfront, foldl_advance_none hspace, scan_broken]
  intro name c rest hname
  cases hname

theorem resume_unclosed (hfront : ¬ HasMarker front) (hquote : '"' ∉ after) :
    resume attrs before (front ++ '=' :: '"' :: after) = { attrs with malformed := true } := by
  have hdrop : after.dropWhile (· ≠ '"') = [] := by
    rw [List.dropWhile_eq_nil_iff]
    intro c hc
    exact decide_eq_true fun hsame => hquote (hsame ▸ hc)
  rw [resume_front hfront, scan_broken]
  intro name c rest _ hrest
  rw [hdrop] at hrest
  cases hrest

theorem resume_pair {start name value rest : List Char} (hfront : ¬ HasMarker front)
    (hsplit : before ++ front = start ++ ' ' :: name) (hname : ' ' ∉ name) (hvalue : '"' ∉ value) :
    resume attrs before (front ++ '=' :: '"' :: (value ++ '"' :: rest)) =
      resume (attrs.add name value) (before ++ front ++ '=' :: '"' :: (value ++ ['"'])) rest := by
  rw [resume_front hfront, hsplit, foldl_advance_split hname, scan_closed hvalue,
    List.reverse_reverse, resume, List.foldl_append, foldl_advance_split hname]

end Steps

/-! ## How far the scan comes -/

/-- The scan of the tag comes to the point between `before` and `rest`, where it begins or where
a value ends, and has read the pairs by then. -/
inductive Comes (tag : List Char) : List Char → List Char → List (String × String) → Prop
  | start : Comes tag [] tag []
  | pair {before front start name value rest pairs} :
      Comes tag before (front ++ '=' :: '"' :: (value ++ '"' :: rest)) pairs → ¬ HasMarker front →
      before ++ front = start ++ ' ' :: name → ' ' ∉ name → '"' ∉ value →
      Comes tag (before ++ front ++ '=' :: '"' :: (value ++ ['"'])) rest
        (pairs ++ [(String.ofList name, String.ofList value)])

/-- The scan goes no further, and says whether it met a broken pair. -/
inductive Ends (before : List Char) : List Char → Bool → Prop
  | done {rest} : ¬ HasMarker rest → Ends before rest false
  | unnamed {front after} : ¬ HasMarker front → ' ' ∉ before ++ front →
      Ends before (front ++ '=' :: '"' :: after) true
  | unclosed {front after} : ¬ HasMarker front → '"' ∉ after →
      Ends before (front ++ '=' :: '"' :: after) true

variable {tag before rest : List Char} {pairs : List (String × String)}

theorem Comes.tag_eq (h : Comes tag before rest pairs) : tag = before ++ rest := by
  induction h with
  | start => rfl
  | pair _ _ _ _ _ ih => simpa using ih

theorem Comes.ofTag_eq (h : Comes tag before rest pairs) :
    ofTag tag = resume ⟨pairs.reverse, false⟩ before rest := by
  induction h with
  | start => rfl
  | pair _ hfront hsplit hname hvalue ih =>
      rw [ih, resume_pair hfront hsplit hname hvalue, List.reverse_append, List.reverse_singleton,
        List.singleton_append]
      rfl

theorem Comes.ofTag_of_ends (h : Comes tag before rest pairs) {malformed : Bool}
    (hends : Ends before rest malformed) : ofTag tag = ⟨pairs.reverse, malformed⟩ := by
  rw [h.ofTag_eq]
  cases hends with
  | done hrest => exact resume_done hrest
  | unnamed hfront hspace => exact resume_unnamed hfront hspace
  | unclosed hfront hquote => exact resume_unclosed hfront hquote

/-- Where the scan does not end, it reads a pair. -/
theorem ends_or_pair (before rest : List Char) :
    (∃ malformed, Ends before rest malformed) ∨
      ∃ front start name value after,
        rest = front ++ '=' :: '"' :: (value ++ '"' :: after) ∧ ¬ HasMarker front ∧
          before ++ front = start ++ ' ' :: name ∧ ' ' ∉ name ∧ '"' ∉ value := by
  by_cases hmarker : HasMarker rest
  · obtain ⟨front, after, rfl, hfront⟩ := exists_first_marker hmarker
    by_cases hspace : ' ' ∈ before ++ front
    · by_cases hquote : '"' ∈ after
      · obtain ⟨start, name, hsplit, hname⟩ := exists_last_space hspace
        obtain ⟨value, after, rfl, hvalue⟩ := List.eq_append_cons_of_mem hquote
        exact .inr ⟨front, start, name, value, after, rfl, hfront, hsplit, hname, hvalue⟩
      · exact .inl ⟨true, .unclosed hfront hquote⟩
    · exact .inl ⟨true, .unnamed hfront hspace⟩
  · exact .inl ⟨false, .done hmarker⟩

theorem Comes.exists_ends (h : Comes tag before rest pairs) :
    ∃ before' rest' pairs' malformed, Comes tag before' rest' pairs' ∧
      Ends before' rest' malformed := by
  induction hlength : rest.length using Nat.strongRecOn generalizing before rest pairs with
  | ind length ih =>
      rcases ends_or_pair before rest with ⟨malformed, hends⟩ |
        ⟨front, start, name, value, after, rfl, hfront, hsplit, hname, hvalue⟩
      · exact ⟨before, rest, pairs, malformed, h, hends⟩
      · refine ih after.length ?_ (h.pair hfront hsplit hname hvalue) rfl
        simp only [List.length_append, List.length_cons] at hlength
        omega

/-- The scan of every tag comes to an end. -/
theorem exists_ends (tag : List Char) :
    ∃ before rest pairs malformed, Comes tag before rest pairs ∧ Ends before rest malformed :=
  Comes.start.exists_ends

end TreeAssay.Attributes
