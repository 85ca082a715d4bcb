import TreeAssay.Dump.Render
import TreeAssay.Dump.Tags
import TreeAssay.Proofs.Markup.Tag
/-!
# Written tags are cut and recognized

A tag is written as a name, its pairs and an ending (`tagChars`).  As long as no value
has a quote, a tag is cut off whatever stands behind it, and its name, its form and
its content are read back.
-/

namespace TreeAssay.Dump

open TreeAssay.Text
open TreeAssay.Attributes (IsName)

/-! ## Tags as they are written -/

theorem isName_name (op : Operation) : IsName op.name := by
  cases op <;> exact ⟨by decide, by decide⟩

theorem isName_nullTag : IsName nullTag := ⟨by decide, by decide⟩

theorem isName_content : IsName "content" := ⟨by decide, by decide⟩

theorem isName_state : IsName "state" := ⟨by decide, by decide⟩

def pairsChars (content state : Option String) : List Char :=
  Attributes.pairChars "content" content ++ Attributes.pairChars "state" state

/-- What comes before the `>` that ends a start tag: nothing when it is left open. -/
def closingChars (pairs : List Char) : Bool → List Char
  | false => []
  | true => if pairs = [] then [' ', '/'] else ['/']

def bodyChars (name : String) (content state : Option String) (selfClosing : Bool) : List Char :=
  '<' :: name.toList ++ pairsChars content state ++
    closingChars (pairsChars content state) selfClosing

def tagChars (name : String) (content state : Option String) (selfClosing : Bool) : List Char :=
  bodyChars name content state selfClosing ++ ['>']

def endChars (name : String) : List Char :=
  '<' :: '/' :: name.toList ++ ['>']

theorem toList_pair (name value : String) :
    (pair name value).toList = Attributes.pairChars name (some value) := by
  simp [pair, Attributes.pairChars]

theorem toList_attributes (node : Node) (label : Option String) :
    (attributes node label).toList = pairsChars (node.payload.map Value.display) label := by
  unfold attributes
  rw [String.toList_append, pairsChars]
  congr 1
  · cases node.payload with
    | none => rfl
    | some payload => exact toList_pair "content" payload.display
  · cases label with
    | none => rfl
    | some label => exact toList_pair "state" label

theorem toList_startTag (node : Node) (label : Option String) :
    (startTag node label).toList =
      tagChars node.op.name (node.payload.map Value.display) label false := by
  simp [startTag, tagChars, bodyChars, closingChars, toList_attributes]

theorem toList_leafTag (node : Node) (label : Option String) :
    (leafTag node label).toList =
      tagChars node.op.name (node.payload.map Value.display) label true := by
  have hempty : attributes node label = "" ↔
      pairsChars (node.payload.map Value.display) label = [] := by
    rw [← toList_attributes, String.toList_eq_nil_iff]
  simp only [leafTag, tagChars, bodyChars, closingChars, String.toList_append, toList_attributes,
    hempty]
  split <;> simp

theorem toList_endTag (node : Node) : (endTag node).toList = endChars node.op.name := by
  simp [endTag, endChars]

theorem toList_nullSlot : nullSlot.toList = tagChars nullTag none none true := by
  decide

/-! ## Cutting -/

/-- Cutting passes over the text, which has no `>` outside quotes. -/
def Passed (text : List Char) : Prop :=
  ∀ taken rest, cutTag? false taken (text ++ rest) = cutTag? false (text.reverse ++ taken) rest

theorem Passed.append {front back : List Char} (hfront : Passed front) (hback : Passed back) :
    Passed (front ++ back) := by
  intro taken rest
  rw [List.append_assoc, hfront, hback, List.reverse_append, List.append_assoc]

theorem cutTag?_quoted {text : List Char} (h : '"' ∉ text) (taken rest : List Char) :
    cutTag? true taken (text ++ '"' :: rest) =
      cutTag? false ('"' :: text.reverse ++ taken) rest := by
  induction text generalizing taken with
  | nil => simp [cutTag?]
  | cons c text ih =>
      have hc : c ≠ '"' := by
        rintro rfl
        simp at h
      rw [List.cons_append, cutTag?]
      simp only [hc, if_false, Bool.not_true, Bool.and_false, Bool.false_eq_true]
      rw [ih (fun hmem => h (by simp [hmem])), List.reverse_cons]
      simp

theorem passed_of_ne {text : List Char} (h : ∀ c ∈ text, c ≠ '"' ∧ c ≠ '>') : Passed text := by
  intro taken rest
  induction text generalizing taken with
  | nil => rfl
  | cons c text ih =>
      obtain ⟨hquote, hend⟩ := h c (by simp)
      rw [List.cons_append, cutTag?]
      simp only [hquote, hend, if_false, decide_false, Bool.false_and, Bool.false_eq_true]
      rw [ih (fun d hd => h d (by simp [hd])), List.reverse_cons]
      simp

theorem passable_of_isName {name : String} (hname : IsName name) :
    ∀ c ∈ name.toList, c ≠ '"' ∧ c ≠ '>' := by
  intro c hc
  obtain ⟨_, hend, _, hquote, _⟩ := hname.ne hc
  exact ⟨hquote, hend⟩

def Quotable (value : Option String) : Prop :=
  ∀ text, value = some text → '"' ∉ text.toList

theorem quotable_none : Quotable none := by
  intro text htext
  cases htext

theorem passed_pairChars {name : String} (hname : IsName name) {value : Option String}
    (hvalue : Quotable value) :
    Passed (Attributes.pairChars name value) := by
  cases value with
  | none => exact fun _ _ => rfl
  | some text =>
      have hfront : Passed (' ' :: name.toList ++ ['=']) := by
        apply passed_of_ne
        intro c hc
        simp only [List.mem_append, List.mem_cons, List.not_mem_nil, or_false] at hc
        rcases hc with (rfl | hc) | rfl
        · decide
        · exact passable_of_isName hname c hc
        · decide
      have hquoted : Passed ('"' :: text.toList ++ ['"']) := by
        intro taken rest
        have hcut := cutTag?_quoted (hvalue text rfl) ('"' :: taken) rest
        simpa [cutTag?] using hcut
      have hsplit : Attributes.pairChars name (some text) =
          (' ' :: name.toList ++ ['=']) ++ ('"' :: text.toList ++ ['"']) := by
        simp [Attributes.pairChars]
      rw [hsplit]
      exact hfront.append hquoted

theorem passed_bodyChars {name : String} (hname : IsName name) {content state : Option String}
    (hcontent : Quotable content) (hstate : Quotable state) (selfClosing : Bool) :
    Passed (bodyChars name content state selfClosing) := by
  have hopen : Passed ('<' :: name.toList) := by
    apply passed_of_ne
    intro c hc
    rcases List.mem_cons.1 hc with rfl | hc
    · decide
    · exact passable_of_isName hname c hc
  have hpairs : Passed (pairsChars content state) :=
    (passed_pairChars isName_content hcontent).append (passed_pairChars isName_state hstate)
  have hclosing : Passed (closingChars (pairsChars content state) selfClosing) := by
    apply passed_of_ne
    cases selfClosing with
    | false => simp [closingChars]
    | true =>
        rw [closingChars]
        split <;> simp
  exact (hopen.append hpairs).append hclosing

/-- The text is a tag that is cut off what stands behind it. -/
def IsTag (tag : List Char) : Prop :=
  ∃ body, tag = '<' :: body ∧ ∀ rest, cutTag? false [] (tag ++ rest) = some (tag, rest)

theorem isTag_of_passed {body : List Char} (hbody : Passed ('<' :: body)) :
    IsTag ('<' :: body ++ ['>']) := by
  refine ⟨body ++ ['>'], rfl, ?_⟩
  intro rest
  rw [List.append_assoc, hbody]
  simp [cutTag?]

theorem isTag_tagChars {name : String} (hname : IsName name) {content state : Option String}
    (hcontent : Quotable content) (hstate : Quotable state) (selfClosing : Bool) :
    IsTag (tagChars name content state selfClosing) :=
  isTag_of_passed (passed_bodyChars hname hcontent hstate selfClosing)

theorem isTag_endChars {name : String} (hname : IsName name) : IsTag (endChars name) := by
  apply isTag_of_passed
  apply passed_of_ne
  intro c hc
  simp only [List.mem_cons] at hc
  rcases hc with rfl | rfl | hc
  · decide
  · decide
  · exact passable_of_isName hname c hc

theorem splitTags_cons {tag : List Char} (htag : IsTag tag) (done : List (List Char))
    (rest : List Char) : splitTags done (tag ++ rest) = splitTags (tag :: done) rest := by
  obtain ⟨body, hbody, hcut⟩ := htag
  have htrim : trimStart (tag ++ rest) = '<' :: (body ++ rest) := by
    rw [hbody]
    rfl
  have hcut' : cutTag? false [] ('<' :: (body ++ rest)) = some (tag, rest) := by
    rw [← hcut rest, hbody]
    rfl
  rw [splitTags]
  split
  next hnil => simp [htrim] at hnil
  next rest' hrest =>
    obtain ⟨_, rfl⟩ := List.cons.inj (htrim.symm.trans hrest)
    split
    next tag' after' hsome =>
      cases hcut'.symm.trans hsome
      rfl
    next hnone => simp [hcut'] at hnone
  next hstray => exact absurd htrim (hstray (body ++ rest))

/-- Tags in a row are cut apart. -/
theorem splitTags_flatten {tags : List (List Char)} (htags : ∀ tag ∈ tags, IsTag tag)
    (done : List (List Char)) :
    splitTags done tags.flatten = .ok (done.reverse ++ tags) := by
  induction tags generalizing done with
  | nil =>
      rw [List.flatten_nil, splitTags, List.append_nil]
      rfl
  | cons tag tags ih =>
      rw [List.flatten_cons, splitTags_cons (htags tag (by simp)),
        ih (fun tag htag => htags tag (by simp [htag])), List.reverse_cons, List.append_assoc]
      rfl

/-! ## Recognizing -/

theorem exists_tagChars_eq (name : String) (content state : Option String) (selfClosing : Bool) :
    ∃ c rest, tagChars name content state selfClosing = '<' :: (name.toList ++ c :: rest) ∧
      (c = ' ' ∨ c = '>') := by
  have hbody : ∃ c rest, pairsChars content state ++
      closingChars (pairsChars content state) selfClosing ++ ['>'] = c :: rest ∧
        (c = ' ' ∨ c = '>') := by
    cases content with
    | some text => exact ⟨_, _, rfl, .inl rfl⟩
    | none =>
        cases state with
        | some text => exact ⟨_, _, rfl, .inl rfl⟩
        | none =>
            cases selfClosing with
            | false => exact ⟨_, _, rfl, .inr rfl⟩
            | true => exact ⟨_, _, rfl, .inl rfl⟩
  obtain ⟨c, rest, heq, hc⟩ := hbody
  refine ⟨c, rest, ?_, hc⟩
  rw [← heq, tagChars, bodyChars]
  simp only [List.cons_append, List.append_assoc]

theorem exists_bodyChars_eq {name : String} (hname : IsName name) (content state : Option String)
    (selfClosing : Bool) :
    ∃ front c, bodyChars name content state selfClosing = front ++ [c] ∧
      (c == '/') = selfClosing := by
  cases selfClosing with
  | true =>
      rw [bodyChars, closingChars]
      split
      · exact ⟨'<' :: name.toList ++ pairsChars content state ++ [' '], '/', by simp, rfl⟩
      · exact ⟨_, '/', rfl, rfl⟩
  | false =>
      rw [bodyChars, closingChars, List.append_nil, pairsChars]
      cases state with
      | some text =>
          rw [Attributes.pairChars, ← List.append_assoc, ← List.append_assoc]
          exact ⟨_, '"', rfl, rfl⟩
      | none =>
          rw [Attributes.pairChars, List.append_nil]
          cases content with
          | some text =>
              rw [Attributes.pairChars, ← List.append_assoc]
              exact ⟨_, '"', rfl, rfl⟩
          | none =>
              obtain ⟨front, c, hchars⟩ := (List.eq_nil_or_concat name.toList).resolve_left
                fun hnil => hname.1 (String.toList_eq_nil_iff.1 hnil)
              have hc := hname.ne (c := c) (by simp [hchars])
              refine ⟨'<' :: front, c, ?_, by simp [hc]⟩
              rw [Attributes.pairChars, List.append_nil, hchars, List.concat_eq_append]
              rfl

theorem name?_tagChars {name : String} (hname : IsName name) (content state : Option String)
    (selfClosing : Bool) :
    Tag.name? (tagChars name content state selfClosing) = some name.toList := by
  obtain ⟨c, rest, htag, hc⟩ := exists_tagChars_eq name content state selfClosing
  rw [htag]
  exact Tag.name?_start hname hc rest

theorem name?_endChars {name : String} (hname : IsName name) :
    Tag.name? (endChars name) = some name.toList :=
  Tag.readName?_append hname rfl []

theorem form?_tagChars {name : String} (hname : IsName name) (content state : Option String)
    (selfClosing : Bool) :
    Tag.form? (tagChars name content state selfClosing) name.toList =
      some (if selfClosing then .selfClosing else .opening) := by
  obtain ⟨c, rest, htag, hc⟩ := exists_tagChars_eq name content state selfClosing
  obtain ⟨front, d, hbody, hd⟩ := exists_bodyChars_eq hname content state selfClosing
  have hend : '<' :: (name.toList ++ c :: rest) = front ++ [d, '>'] := by
    rw [← htag, tagChars, hbody, List.append_assoc]
    rfl
  rw [htag, Tag.form?_start name hc hend, hd]

theorem form?_endChars {name : String} (hname : IsName name) :
    Tag.form? (endChars name) name.toList = some .closing :=
  Tag.form?_end hname ['>']

theorem get?_content_tagChars {name : String} (hname : IsName name)
    {content state : Option String} (hcontent : Quotable content) (hstate : Quotable state)
    (selfClosing : Bool) :
    (Attributes.ofTag (tagChars name content state selfClosing)).get? "content" = content := by
  have hopen : ∀ c ∈ '<' :: name.toList, c ≠ '=' := by
    intro c hc
    rcases List.mem_cons.1 hc with rfl | hc
    · decide
    · exact (hname.ne hc).2.2.2.2
  have hclosing : ∀ c ∈ closingChars (pairsChars content state) selfClosing ++ ['>'], c ≠ '=' := by
    cases selfClosing with
    | false => simp [closingChars]
    | true =>
        rw [closingChars]
        split <;> simp
  have hpairs : Attributes.AreWritable [("content", content), ("state", state)] :=
    (Attributes.areWritable_nil.cons isName_state hstate).cons isName_content hcontent
  have htag : tagChars name content state selfClosing = ('<' :: name.toList) ++
      Attributes.pairsChars [("content", content), ("state", state)] ++
        (closingChars (pairsChars content state) selfClosing ++ ['>']) := by
    simp only [tagChars, bodyChars, pairsChars, Attributes.pairsChars, List.flatMap_cons,
      List.flatMap_nil, List.append_nil, List.append_assoc]
  rw [htag, Attributes.ofTag_pairsChars hopen hclosing hpairs]
  cases content <;> cases state <;>
    simp [Attributes.ofPairs, Attributes.put, Attributes.add, Attributes.get?, List.lookup_cons]

end TreeAssay.Dump
