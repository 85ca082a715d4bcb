import TreeAssay.Proofs.Markup.Markers
import TreeAssay.Proofs.Text.Offsets
/-!
# The scan by byte offsets

The scan can be told in terms of byte offsets: where the next marker is, where the last space
before it, where the next quote behind it.  Every text that is searched or kept is then cut out of the
tag.  No cut falls inside a character or behind the end, and what comes out is the same.
-/

namespace TreeAssay.Attributes

open TreeAssay.Text

/-! ## Turns -/

inductive Turn
  | stop (attrs : Attributes)
  /-- The search for the next marker begins at an offset. -/
  | resume (attrs : Attributes) (offset : Nat)

/-- Reads the pair at a marker, or finds it broken.  There is no result where a cut is not possible. -/
def readAt? (tag : List Char) (attrs : Attributes) (marker : Nat) : Option Turn := do
  let valueStart := marker + 2
  let front ← slice? tag 0 marker
  let after ← sliceFrom? tag valueStart
  match findLast? ' ' front, (find? ['"'] after).map (valueStart + ·) with
  | some nameStart, some valueEnd =>
    let name ← slice? tag (nameStart + 1) marker
    let value ← slice? tag valueStart valueEnd
    return .resume (attrs.add name value) (valueEnd + 1)
  | _, _ => return .stop { attrs with malformed := true }

/-- One turn of the scan, from an offset on. -/
def turn? (tag : List Char) (attrs : Attributes) (offset : Nat) : Option Turn := do
  match find? ['=', '"'] (← sliceFrom? tag offset) with
  | none => return .stop attrs
  | some found => readAt? tag attrs (offset + found)

theorem lt_of_readAt? {tag : List Char} {attrs attrs' : Attributes} {marker next : Nat}
    (h : readAt? tag attrs marker = some (.resume attrs' next)) : marker < next := by
  obtain ⟨front, _, h⟩ := Option.bind_eq_some_iff.1 h
  obtain ⟨after, _, h⟩ := Option.bind_eq_some_iff.1 h
  split at h
  next nameStart valueEnd _ hend =>
    obtain ⟨length, _, hlength⟩ := Option.map_eq_some_iff.1 hend
    obtain ⟨name, _, h⟩ := Option.bind_eq_some_iff.1 h
    obtain ⟨value, _, h⟩ := Option.bind_eq_some_iff.1 h
    cases h
    omega
  next => cases h

/-- The next turn begins further on, if there is one. -/
theorem lt_of_turn? {tag : List Char} {attrs attrs' : Attributes} {offset next : Nat}
    (h : turn? tag attrs offset = some (.resume attrs' next)) :
    offset < next ∧ offset ≤ byteLength tag := by
  obtain ⟨rest, hrest, h⟩ := Option.bind_eq_some_iff.1 h
  refine ⟨?_, le_of_sliceFrom? hrest⟩
  split at h
  next => cases h
  next found _ =>
    have := lt_of_readAt? h
    omega

def scanOffsets (tag : List Char) (attrs : Attributes) (offset : Nat) : Option Attributes :=
  match _h : turn? tag attrs offset with
  | none => none
  | some (.stop attrs) => some attrs
  | some (.resume attrs next) => scanOffsets tag attrs next
termination_by byteLength tag + 1 - offset
decreasing_by
  have := lt_of_turn? _h
  omega

theorem scanOffsets_of_stop {tag : List Char} {attrs attrs' : Attributes} {offset : Nat}
    (h : turn? tag attrs offset = some (.stop attrs')) :
    scanOffsets tag attrs offset = some attrs' := by
  rw [scanOffsets]
  split
  next hnone => rw [h] at hnone; cases hnone
  next hstop => rw [h] at hstop; cases hstop; rfl
  next hresume => rw [h] at hresume; cases hresume

theorem scanOffsets_of_resume {tag : List Char} {attrs attrs' : Attributes} {offset next : Nat}
    (h : turn? tag attrs offset = some (.resume attrs' next)) :
    scanOffsets tag attrs offset = scanOffsets tag attrs' next := by
  rw [scanOffsets]
  split
  next hnone => rw [h] at hnone; cases hnone
  next hstop => rw [h] at hstop; cases hstop
  next hresume => rw [h] at hresume; cases hresume; rfl

/-! ## Turns at known places -/

section Places

variable {attrs : Attributes} {before front after : List Char}

theorem turn?_done {rest : List Char} (hrest : ¬ HasMarker rest) :
    turn? (before ++ rest) attrs (byteLength before) = some (.stop attrs) := by
  rw [turn?, sliceFrom?_append, Option.bind_eq_bind, Option.bind_some, find?_eq_none hrest]
  rfl

theorem turn?_marker (hfront : ¬ HasMarker front) :
    turn? (before ++ (front ++ '=' :: '"' :: after)) attrs (byteLength before) =
      readAt? (before ++ front ++ '=' :: '"' :: after) attrs (byteLength (before ++ front)) := by
  have hfirst : ¬ ['=', '"'] <:+: front ++ ['='] := by
    rw [← HasMarker, hasMarker_append, hasMarker_cons]
    simp [hfront, not_hasMarker_nil]
  have hfind := find?_append (by decide) hfirst after
  rw [List.cons_append, List.cons_append, List.nil_append] at hfind
  rw [turn?, sliceFrom?_append, Option.bind_eq_bind, Option.bind_some, hfind, byteLength_append,
    List.append_assoc]

theorem byteLength_marker (front : List Char) :
    byteLength (front ++ ['=', '"']) = byteLength front + 2 :=
  byteLength_append front ['=', '"']

/-- What is looked at on either side of a marker. -/
theorem readAt?_eq :
    readAt? (before ++ '=' :: '"' :: after) attrs (byteLength before) =
      match findLast? ' ' before, (find? ['"'] after).map (byteLength before + 2 + ·) with
      | some nameStart, some valueEnd => do
        let name ← slice? (before ++ '=' :: '"' :: after) (nameStart + 1) (byteLength before)
        let value ← slice? (before ++ '=' :: '"' :: after) (byteLength before + 2) valueEnd
        return .resume (attrs.add name value) (valueEnd + 1)
      | _, _ => some (.stop { attrs with malformed := true }) := by
  have hfront : slice? (before ++ '=' :: '"' :: after) 0 (byteLength before) = some before :=
    slice?_append [] before ('=' :: '"' :: after)
  have hafter := sliceFrom?_append (before ++ ['=', '"']) after
  rw [byteLength_marker, List.append_assoc, List.cons_append, List.cons_append,
    List.nil_append] at hafter
  rw [readAt?, hfront, Option.bind_eq_bind, Option.bind_some, hafter, Option.bind_some]
  rfl

theorem readAt?_unnamed (h : ' ' ∉ before) :
    readAt? (before ++ '=' :: '"' :: after) attrs (byteLength before) =
      some (.stop { attrs with malformed := true }) := by
  rw [readAt?_eq, findLast?_eq_none h]

theorem readAt?_unclosed (h : '"' ∉ after) :
    readAt? (before ++ '=' :: '"' :: after) attrs (byteLength before) =
      some (.stop { attrs with malformed := true }) := by
  rw [readAt?_eq, find?_eq_none (by rwa [List.singleton_infix_iff])]
  cases findLast? ' ' before <;> rfl

theorem readAt?_pair {start name value rest : List Char} (hsplit : before = start ++ ' ' :: name)
    (hname : ' ' ∉ name) (hvalue : '"' ∉ value) :
    readAt? (before ++ '=' :: '"' :: (value ++ '"' :: rest)) attrs (byteLength before) =
      some (.resume (attrs.add name value)
        (byteLength (before ++ '=' :: '"' :: (value ++ ['"'])))) := by
  have hstart : findLast? ' ' before = some (byteLength start) := by
    rw [hsplit]
    exact findLast?_append hname start
  have hend : find? ['"'] (value ++ '"' :: rest) = some (byteLength value) := by
    refine find?_append (by decide) ?_ rest
    rwa [List.dropLast_singleton, List.append_nil, List.singleton_infix_iff]
  have hnameSlice : slice? (before ++ '=' :: '"' :: (value ++ '"' :: rest)) (byteLength start + 1)
      (byteLength before) = some name := by
    have h := slice?_append (start ++ [' ']) name ('=' :: '"' :: (value ++ '"' :: rest))
    have hbefore : start ++ [' '] ++ name = before := by simp [hsplit]
    rwa [hbefore, byteLength_append start [' ']] at h
  have hvalueSlice : slice? (before ++ '=' :: '"' :: (value ++ '"' :: rest)) (byteLength before + 2)
      (byteLength before + 2 + byteLength value) = some value := by
    have h := slice?_append (before ++ ['=', '"']) value ('"' :: rest)
    rwa [byteLength_append (before ++ ['=', '"']) value, byteLength_marker, List.append_assoc,
      List.append_assoc] at h
  have hnext : byteLength (before ++ '=' :: '"' :: (value ++ ['"'])) =
      byteLength before + 2 + byteLength value + 1 := by
    have h := byteLength_append (before ++ ['=', '"']) (value ++ ['"'])
    rwa [byteLength_marker, byteLength_append value ['"'], List.append_assoc,
      ← Nat.add_assoc] at h
  rw [readAt?_eq, hstart, hend]
  simp only [Option.map_some, hnameSlice, hvalueSlice, Option.bind_eq_bind, Option.bind_some, hnext]
  rfl

end Places

/-- Wherever the scan begins, no cut fails, and the same is read. -/
theorem scanOffsets_eq (attrs : Attributes) (before rest : List Char) :
    scanOffsets (before ++ rest) attrs (byteLength before) = some (resume attrs before rest) := by
  -- A pair leaves a shorter rest, and the text that was before it grows by the pair.
  induction hlength : rest.length using Nat.strongRecOn generalizing attrs before rest with
  | ind length ih =>
      rcases ends_or_pair before rest with ⟨malformed, hends⟩ |
        ⟨front, start, name, value, after, rfl, hfront, hsplit, hname, hvalue⟩
      · refine scanOffsets_of_stop ?_
        cases hends with
        | done hrest => rw [turn?_done hrest, resume_done hrest]
        | unnamed hfront hspace =>
            rw [turn?_marker hfront, readAt?_unnamed hspace, resume_unnamed hfront hspace]
        | unclosed hfront hquote =>
            rw [turn?_marker hfront, readAt?_unclosed hquote, resume_unclosed hfront hquote]
      · have hturn : turn? (before ++ (front ++ '=' :: '"' :: (value ++ '"' :: after))) attrs
            (byteLength before) = some (.resume (attrs.add name value)
              (byteLength (before ++ front ++ '=' :: '"' :: (value ++ ['"'])))) := by
          rw [turn?_marker hfront, readAt?_pair hsplit hname hvalue]
        have hshorter : after.length < length := by
          simp only [List.length_append, List.length_cons] at hlength
          omega
        have hrest := ih after.length hshorter (attrs.add name value)
          (before ++ front ++ '=' :: '"' :: (value ++ ['"'])) after rfl
        have htag : before ++ (front ++ '=' :: '"' :: (value ++ '"' :: after)) =
            before ++ front ++ '=' :: '"' :: (value ++ ['"']) ++ after := by simp
        rw [scanOffsets_of_resume hturn, resume_pair hfront hsplit hname hvalue, htag, hrest]

/-! ## What is stored and what is told -/

/-- The scan comes to the marker between the two texts: it is the first one behind the place where
the scan begins or a value ends. -/
def Reaches (tag front after : List Char) : Prop :=
  ∃ before between pairs, Comes tag before (between ++ '=' :: '"' :: after) pairs ∧
    ¬ HasMarker between ∧ front = before ++ between

variable {tag before rest : List Char} {pairs : List (String × String)}

/-- A pair that is read stands in the tag as it would be written. -/
theorem Comes.stands (h : Comes tag before rest pairs) :
    ∀ pair ∈ pairs, ' ' ∉ pair.1.toList ∧ '"' ∉ pair.2.toList ∧
      pairChars pair.1 (some pair.2) <:+: tag := by
  induction h with
  | start => simp
  | @pair before front start name value rest pairs hcomes _ hsplit hname hvalue ih =>
      rw [List.forall_mem_append, List.forall_mem_singleton]
      refine ⟨ih, by simpa using hname, by simpa using hvalue, start, rest, ?_⟩
      rw [hcomes.tag_eq, ← List.append_assoc before, hsplit]
      simp [pairChars]

theorem Comes.space_mem (h : Comes tag before rest pairs) (hne : pairs ≠ []) : ' ' ∈ before := by
  cases h with
  | start => exact absurd rfl hne
  | pair _ _ hsplit _ _ => simp [hsplit]

/-- Only at the first marker there can be no space: behind a pair there is the one before its name. -/
theorem malformed_iff (tag : List Char) :
    (ofTag tag).malformed = true ↔
      (∃ front after, tag = front ++ '=' :: '"' :: after ∧ ¬ HasMarker front ∧ ' ' ∉ front) ∨
      ∃ front after, Reaches tag front after ∧ '"' ∉ after := by
  constructor
  · intro h
    obtain ⟨before, rest, pairs, malformed, hcomes, hends⟩ := exists_ends tag
    rw [hcomes.ofTag_of_ends hends] at h
    cases hends with
    | done _ => cases h
    | @unnamed front after hfront hspace =>
        rw [List.mem_append, not_or] at hspace
        have hnone : pairs = [] := by
          by_contra hne
          exact hspace.1 (hcomes.space_mem hne)
        cases hcomes with
        | start => exact .inl ⟨front, after, rfl, hfront, hspace.2⟩
        | pair => simp at hnone
    | @unclosed front after hfront hquote =>
        exact .inr ⟨_, after, ⟨before, front, pairs, hcomes, hfront, rfl⟩, hquote⟩
  · rintro (⟨front, after, rfl, hfront, hspace⟩ |
      ⟨_, after, ⟨before, between, pairs, hcomes, hbetween, rfl⟩, hquote⟩)
    · rw [Comes.start.ofTag_of_ends (.unnamed hfront hspace)]
    · rw [hcomes.ofTag_of_ends (.unclosed hbetween hquote)]

/-- By offsets, the scan ends and cuts the tag only where it can be cut.  What it stores stands in the
tag as it would be written, the name without a space and the value without a quote.  It tells of a
broken pair exactly if the first marker has no space before it, and then it stores nothing, or if a
marker that it comes to has no quote behind it. -/
theorem ofTag_safe (tag : List Char) :
    scanOffsets tag {} 0 = some (ofTag tag) ∧
      (∀ pair ∈ (ofTag tag).pairs, ' ' ∉ pair.1.toList ∧ '"' ∉ pair.2.toList ∧
        pairChars pair.1 (some pair.2) <:+: tag) ∧
      (∀ front after, tag = front ++ '=' :: '"' :: after → ¬ HasMarker front → ' ' ∉ front →
        (ofTag tag).pairs = []) ∧
      ((ofTag tag).malformed = true ↔
        (∃ front after, tag = front ++ '=' :: '"' :: after ∧ ¬ HasMarker front ∧ ' ' ∉ front) ∨
        ∃ front after, Reaches tag front after ∧ '"' ∉ after) := by
  refine ⟨scanOffsets_eq {} [] tag, ?_, ?_, malformed_iff tag⟩
  · obtain ⟨before, rest, pairs, malformed, hcomes, hends⟩ := exists_ends tag
    rw [hcomes.ofTag_of_ends hends]
    intro pair hpair
    exact hcomes.stands pair (List.mem_reverse.1 hpair)
  · rintro front after rfl hfront hspace
    rw [Comes.start.ofTag_of_ends (.unnamed hfront hspace)]
    rfl

/-- Text outside ASCII, in a tag whose last value is not closed and in one whose first name has a tab
before it. -/
theorem ofTag_safe_broken :
    let unclosed := "<é ü=\"ß\" x=\"".toList
    let unnamed := "<é\tü=\"ß\" x=\"\"".toList
    ("ü", "ß") ∈ (ofTag unclosed).pairs ∧ pairChars "ü" (some "ß") <:+: unclosed ∧
      (∃ front after, Reaches unclosed front after ∧ '"' ∉ after) ∧
      scanOffsets unnamed {} 0 = some (ofTag unnamed) ∧ (ofTag unnamed).pairs = [] := by
  intro unclosed unnamed
  have hstored : ("ü", "ß") ∈ (ofTag unclosed).pairs := by decide +kernel
  have hbroken : (ofTag unclosed).malformed = true := by decide +kernel
  have hunnamed : unnamed = "<é\tü".toList ++ '=' :: '"' :: "ß\" x=\"\"".toList := by
    decide +kernel
  obtain ⟨_, hstands, hnothing, hmalformed⟩ := ofTag_safe unclosed
  obtain ⟨hscan, _, hnothing', _⟩ := ofTag_safe unnamed
  refine ⟨hstored, (hstands _ hstored).2.2, ?_, hscan, ?_⟩
  · rcases hmalformed.1 hbroken with ⟨front, after, hsplit, hfront, hspace⟩ | hreaches
    · rw [hnothing front after hsplit hfront hspace] at hstored
      exact absurd hstored List.not_mem_nil
    · exact hreaches
  · exact hnothing' _ _ hunnamed (by decide +kernel) (by decide +kernel)

end TreeAssay.Attributes
