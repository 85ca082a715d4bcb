import TreeAssay.Markup.Attributes
/-!
# What the scan for attributes finds

The scan passes over text without `=`, and takes a pair whose name has neither `=` nor a
space and whose value has no quote.  No value that it takes has a quote.
-/

namespace TreeAssay.Attributes

/-! ## Equations of the scan -/

-- The scan has no equations of its own that could be used to rewrite it.
theorem scan_nil (attrs : Attributes) (word : Option (List Char)) :
    scan attrs word [] = attrs := by
  rw [scan.eq_def]

theorem scan_pair {attrs : Attributes} {name rest after : List Char} {c : Char}
    (hrest : rest.dropWhile (· ≠ '"') = c :: after) :
    scan attrs (some name) ('=' :: '"' :: rest) =
      scan (attrs.add name.reverse (rest.takeWhile (· ≠ '"')))
        (advance ((rest.takeWhile (· ≠ '"')).foldl advance
          (advance (advance (some name) '=') '"')) '"') after := by
  rw [scan.eq_def]
  split
  next rest' heq =>
    have hsame : rest = rest' := (List.cons.inj (List.cons.inj heq).2).2
    subst hsame
    split
    next name' d after' hname hafter =>
      cases hname
      obtain ⟨rfl, rfl⟩ := List.cons.inj (hafter.symm.trans hrest)
      rfl
    next hnone => exact (hnone _ _ _ rfl hrest).elim
  next hplain heq =>
    obtain ⟨rfl, rfl⟩ := List.cons.inj heq
    exact (hplain rest rfl rfl).elim
  next heq => cases heq

theorem scan_broken {attrs : Attributes} {word : Option (List Char)} {rest : List Char}
    (hbroken : ∀ name c after, word = some name → rest.dropWhile (· ≠ '"') = c :: after → False) :
    scan attrs word ('=' :: '"' :: rest) = { attrs with malformed := true } := by
  rw [scan.eq_def]
  split
  next rest' heq =>
    have hsame : rest = rest' := (List.cons.inj (List.cons.inj heq).2).2
    subst hsame
    split
    next name d after hafter => exact (hbroken name d after rfl hafter).elim
    next => rfl
  next hplain heq =>
    obtain ⟨rfl, rfl⟩ := List.cons.inj heq
    exact (hplain rest rfl rfl).elim
  next heq => cases heq

theorem scan_plain {c : Char} {rest : List Char}
    (hplain : ∀ after, c = '=' → rest = '"' :: after → False) (attrs : Attributes)
    (word : Option (List Char)) :
    scan attrs word (c :: rest) = scan attrs (advance word c) rest := by
  rw [scan.eq_def]
  split
  next after heq =>
    obtain ⟨rfl, rfl⟩ := List.cons.inj heq
    exact (hplain after rfl rfl).elim
  next heq =>
    obtain ⟨rfl, rfl⟩ := List.cons.inj heq
    rfl
  next heq => cases heq

/-! ## Pairs as they are written -/

def isPlain (c : Char) : Bool :=
  c != ' ' && c != '>' && c != '/' && c != '"' && c != '='

/-- A name that is not empty and has plain characters alone. -/
def IsName (name : String) : Prop :=
  name ≠ "" ∧ name.toList.all isPlain

theorem IsName.ne {name : String} (h : IsName name) {c : Char} (hc : c ∈ name.toList) :
    c ≠ ' ' ∧ c ≠ '>' ∧ c ≠ '/' ∧ c ≠ '"' ∧ c ≠ '=' := by
  have hplain := List.all_eq_true.1 h.2 c hc
  simp only [isPlain, Bool.and_eq_true, bne_iff_ne] at hplain
  obtain ⟨⟨⟨⟨hspace, hend⟩, hslash⟩, hquote⟩, hequals⟩ := hplain
  exact ⟨hspace, hend, hslash, hquote, hequals⟩

/-- A name and its value as they are written, where there is a value. -/
def pairChars (name : String) : Option String → List Char
  | none => []
  | some value => ' ' :: name.toList ++ '=' :: '"' :: value.toList ++ ['"']

theorem scan_append {front : List Char} (hfront : ∀ c ∈ front, c ≠ '=') (attrs : Attributes)
    (word : Option (List Char)) (rest : List Char) :
    scan attrs word (front ++ rest) = scan attrs (front.foldl advance word) rest := by
  induction front generalizing word with
  | nil => rfl
  | cons c front ih =>
      have hc : c ≠ '=' := hfront c (by simp)
      rw [List.cons_append, scan_plain (fun _ heq => absurd heq hc), List.foldl_cons]
      exact ih (fun d hd => hfront d (by simp [hd])) _

theorem scan_of_ne {text : List Char} (htext : ∀ c ∈ text, c ≠ '=') (attrs : Attributes)
    (word : Option (List Char)) : scan attrs word text = attrs := by
  have h := scan_append htext attrs word []
  rwa [List.append_nil, scan_nil] at h

theorem foldl_advance {name : List Char} (hname : ∀ c ∈ name, c ≠ ' ') (word : List Char) :
    name.foldl advance (some word) = some (name.reverse ++ word) := by
  induction name generalizing word with
  | nil => rfl
  | cons c name ih =>
      have hc : c ≠ ' ' := hname c (by simp)
      rw [List.foldl_cons, advance, if_neg hc, Option.map_some,
        ih (fun d hd => hname d (by simp [hd])), List.reverse_cons, List.append_assoc]
      rfl

/-- At a marker, the scan takes the value up to the next quote. -/
theorem scan_closed {value : List Char} (hvalue : '"' ∉ value) (attrs : Attributes)
    (name rest : List Char) :
    scan attrs (some name) ('=' :: '"' :: (value ++ '"' :: rest)) =
      scan (attrs.add name.reverse value)
        (('=' :: '"' :: (value ++ ['"'])).foldl advance (some name)) rest := by
  have hplain : ∀ c ∈ value, decide (c ≠ '"') = true := fun c hc =>
    decide_eq_true fun hsame => hvalue (hsame ▸ hc)
  have hdrop : (value ++ '"' :: rest).dropWhile (· ≠ '"') = '"' :: rest := by
    rw [List.dropWhile_append_of_pos hplain]
    rfl
  have htake : (value ++ '"' :: rest).takeWhile (· ≠ '"') = value := by
    rw [List.takeWhile_append_of_pos hplain]
    exact List.append_nil _
  rw [scan_pair hdrop, htake, List.foldl_cons, List.foldl_cons, List.foldl_append]
  rfl

theorem scan_pairChars {name : String} (hname : IsName name) {value : String}
    (hvalue : '"' ∉ value.toList) (attrs : Attributes) (word : Option (List Char))
    (rest : List Char) :
    ∃ word', scan attrs word (pairChars name (some value) ++ rest) =
      scan (attrs.add name.toList value.toList) word' rest := by
  have hspace : ∀ c ∈ ' ' :: name.toList, c ≠ '=' := by
    intro c hc
    rcases List.mem_cons.1 hc with rfl | hc
    · decide
    · exact (hname.ne hc).2.2.2.2
  have hword : (' ' :: name.toList).foldl advance word = some name.toList.reverse := by
    rw [List.foldl_cons, advance, if_pos rfl, foldl_advance fun c hc => (hname.ne hc).1,
      List.append_nil]
  have hpair := scan_closed hvalue attrs name.toList.reverse rest
  rw [List.reverse_reverse] at hpair
  generalize ('=' :: '"' :: (value.toList ++ ['"'])).foldl advance _ = word' at hpair
  refine ⟨word', ?_⟩
  calc scan attrs word (pairChars name (some value) ++ rest)
      = scan attrs word (' ' :: name.toList ++ ('=' :: '"' :: (value.toList ++ '"' :: rest))) := by
        simp only [pairChars, List.append_assoc, List.cons_append, List.nil_append]
    _ = scan attrs (some name.toList.reverse) ('=' :: '"' :: (value.toList ++ '"' :: rest)) := by
        rw [scan_append hspace, hword]
    _ = scan (attrs.add name.toList value.toList) word' rest := hpair

def put (attrs : Attributes) (name : String) : Option String → Attributes
  | none => attrs
  | some value => attrs.add name.toList value.toList

theorem scan_put {name : String} (hname : IsName name) {value : Option String}
    (hvalue : ∀ text, value = some text → '"' ∉ text.toList)
    (attrs : Attributes) (word : Option (List Char)) (rest : List Char) :
    ∃ word', scan attrs word (pairChars name value ++ rest) =
      scan (attrs.put name value) word' rest := by
  cases value with
  | none => exact ⟨word, rfl⟩
  | some text => exact scan_pairChars hname (hvalue text rfl) attrs word rest

/-! ## Pairs in a row -/

def pairsChars (pairs : List (String × Option String)) : List Char :=
  pairs.flatMap fun pair => pairChars pair.1 pair.2

def ofPairs (pairs : List (String × Option String)) : Attributes :=
  pairs.foldl (fun attrs pair => attrs.put pair.1 pair.2) {}

theorem malformed_ofPairs (pairs : List (String × Option String)) :
    (ofPairs pairs).malformed = false := by
  have hfold (attrs : Attributes) :
      (pairs.foldl (fun attrs pair => attrs.put pair.1 pair.2) attrs).malformed =
        attrs.malformed := by
    induction pairs generalizing attrs with
    | nil => rfl
    | cons pair pairs ih =>
        rw [List.foldl_cons, ih]
        cases pair.2 <;> rfl
  exact hfold {}

/-- The names are plain and the values, where there are any, have no quote. -/
def AreWritable (pairs : List (String × Option String)) : Prop :=
  ∀ pair ∈ pairs, IsName pair.1 ∧ ∀ text, pair.2 = some text → '"' ∉ text.toList

theorem areWritable_nil : AreWritable [] := by
  intro pair hpair
  cases hpair

theorem AreWritable.cons {pairs : List (String × Option String)} (h : AreWritable pairs)
    {name : String} (hname : IsName name) {value : Option String}
    (hvalue : ∀ text, value = some text → '"' ∉ text.toList) :
    AreWritable ((name, value) :: pairs) :=
  List.forall_mem_cons.2 ⟨⟨hname, hvalue⟩, h⟩

theorem scan_pairsChars {pairs : List (String × Option String)} (hpairs : AreWritable pairs)
    (attrs : Attributes) (word : Option (List Char)) (rest : List Char) :
    ∃ word', scan attrs word (pairsChars pairs ++ rest) =
      scan (pairs.foldl (fun attrs pair => attrs.put pair.1 pair.2) attrs) word' rest := by
  induction pairs generalizing attrs word with
  | nil => exact ⟨word, rfl⟩
  | cons pair pairs ih =>
      obtain ⟨hname, hvalue⟩ := hpairs pair (by simp)
      obtain ⟨word₁, hput⟩ := scan_put hname hvalue attrs word (pairsChars pairs ++ rest)
      obtain ⟨word₂, hscan⟩ := ih (fun other hother => hpairs other (by simp [hother]))
        (attrs.put pair.1 pair.2) word₁
      refine ⟨word₂, ?_⟩
      rw [pairsChars, List.flatMap_cons, List.append_assoc, List.foldl_cons]
      exact hput.trans hscan

/-- The pairs are read back from a tag that has no other `=`. -/
theorem ofTag_pairsChars {front back : List Char} (hfront : ∀ c ∈ front, c ≠ '=')
    (hback : ∀ c ∈ back, c ≠ '=') {pairs : List (String × Option String)}
    (hpairs : AreWritable pairs) : ofTag (front ++ pairsChars pairs ++ back) = ofPairs pairs := by
  obtain ⟨word, hscan⟩ := scan_pairsChars hpairs {} (front.foldl advance none) back
  rw [ofTag, List.append_assoc, scan_append hfront, hscan, scan_of_ne hback, ofPairs]

/-! ## The characters of values -/

def ValuesHave (attrs : Attributes) (P : Char → Prop) : Prop :=
  ∀ pair ∈ attrs.pairs, ∀ c ∈ pair.2.toList, P c

/-- A value is read from the text up to a quote. -/
theorem valuesHave_scan {attrs : Attributes} {P : Char → Prop} (h : attrs.ValuesHave P)
    (word : Option (List Char)) {text : List Char} (htext : ∀ c ∈ text, c ≠ '"' → P c) :
    (scan attrs word text).ValuesHave P := by
  induction attrs, word, text using scan.induct with
  | case1 attrs rest name c after hafter value _ ih =>
      have hvalue : ∀ c ∈ rest.takeWhile (· ≠ '"'), P c := by
        intro c hc
        refine htext c ?_ (of_decide_eq_true (List.all_eq_true.1 List.all_takeWhile c hc))
        exact List.mem_cons_of_mem _ (List.mem_cons_of_mem _ ((List.takeWhile_sublist _).subset hc))
      have hbehind : ∀ c ∈ after, c ∈ rest := fun c hc =>
        (List.dropWhile_sublist _).subset (hafter ▸ List.mem_cons_of_mem _ hc)
      rw [scan_pair hafter]
      simp only [List.unattach_reverse, List.unattach_attach] at ih
      refine ih ?_ fun c hc => htext c ?_
      · intro pair hpair
        rcases List.mem_cons.1 hpair with rfl | hpair
        · rwa [String.toList_ofList]
        · exact h pair hpair
      · exact List.mem_cons_of_mem _ (List.mem_cons_of_mem _ (hbehind c hc))
  | case2 attrs word rest hbroken =>
      rw [scan_broken hbroken]
      exact h
  | case3 attrs word c rest hplain ih =>
      rw [scan_plain hplain]
      exact ih h fun c hc => htext c (List.mem_cons_of_mem _ hc)
  | case4 attrs word => rwa [scan_nil]

/-- The text can be the value of an attribute that stands on one line. -/
def IsValue (text : String) : Prop :=
  '"' ∉ text.toList ∧ '\n' ∉ text.toList

/-- A value read from a tag is made of the characters of the tag other than quotes. -/
theorem of_get?_ofTag {tag : List Char} {name value : String}
    (h : (ofTag tag).get? name = some value) : ∀ c ∈ value.toList, c ∈ tag ∧ c ≠ '"' := by
  have hvalues : (ofTag tag).ValuesHave fun c => c ∈ tag ∧ c ≠ '"' :=
    valuesHave_scan (by simp [ValuesHave]) none fun c hc hquote => ⟨hc, hquote⟩
  obtain ⟨front, back, hpairs, _⟩ := List.lookup_eq_some_iff.1 h
  exact hvalues (name, value) (by simp [hpairs])

theorem unquoted_of_get?_ofTag {tag : List Char} {name value : String}
    (h : (ofTag tag).get? name = some value) : '"' ∉ value.toList :=
  fun hquote => (of_get?_ofTag h _ hquote).2 rfl

end TreeAssay.Attributes
