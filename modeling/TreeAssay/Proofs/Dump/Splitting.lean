import Mathlib.Algebra.Ring.Parity
import TreeAssay.Proofs.Dump.Tags
import TreeAssay.Proofs.Text.Blank
/-!
# Cutting a text into tags

A `>` ends a tag if an even number of quotes stands before it in the tag.  So every text is tags
with nothing but blank characters between them, and behind these a rest that is empty or begins
no whole tag.  The tags are what is cut, however much is blank between them, and the rest is
what is complained of.  Told by byte offsets, each cut falls between two characters.
-/

namespace TreeAssay.Dump

open TreeAssay.Text

/-! ## Ends of tags -/

/-- No `>` in the text stands outside quotes, where the text begins inside them or not. -/
def Enclosed (quoted : Bool) (text : List Char) : Prop :=
  ∀ front back, text = front ++ '>' :: back → Odd (quoted.toNat + front.count '"')

theorem parity_cons (quoted : Bool) (c : Char) (text : List Char) :
    (quoted.toNat + (c :: text).count '"') % 2 =
      ((if c = '"' then !quoted else quoted).toNat + text.count '"') % 2 := by
  by_cases hc : c = '"'
  · rw [hc, List.count_cons_self, if_pos rfl]
    cases quoted <;> simp only [Bool.not_false, Bool.not_true, Bool.toNat_false, Bool.toNat_true]
      <;> omega
  · rw [List.count_cons_of_ne hc, if_neg hc]

theorem even_cons {quoted : Bool} {c : Char} {text : List Char} :
    Even (quoted.toNat + (c :: text).count '"') ↔
      Even ((if c = '"' then !quoted else quoted).toNat + text.count '"') := by
  rw [Nat.even_iff, parity_cons, ← Nat.even_iff]

theorem odd_cons {quoted : Bool} {c : Char} {text : List Char} :
    Odd (quoted.toNat + (c :: text).count '"') ↔
      Odd ((if c = '"' then !quoted else quoted).toNat + text.count '"') := by
  rw [Nat.odd_iff, parity_cons, ← Nat.odd_iff]

theorem enclosed_nil (quoted : Bool) : Enclosed quoted [] := by
  rintro (_ | _) _ ⟨⟩

theorem enclosed_cons {quoted : Bool} {c : Char} {text : List Char} :
    Enclosed quoted (c :: text) ↔ (c = '>' → quoted = true) ∧
      Enclosed (if c = '"' then !quoted else quoted) text := by
  constructor
  · intro h
    constructor
    · rintro rfl
      have hodd := h [] text rfl
      cases quoted with
      | false => exact absurd hodd (by decide)
      | true => rfl
    · rintro front back rfl
      exact odd_cons.1 (h (c :: front) back rfl)
  · rintro ⟨hhead, htail⟩ front back heq
    cases front with
    | nil =>
        obtain ⟨rfl, rfl⟩ := List.cons.inj heq
        rw [hhead rfl]
        exact Nat.odd_iff.2 rfl
    | cons d front =>
        obtain ⟨rfl, rfl⟩ := List.cons.inj heq
        exact odd_cons.2 (htail front back rfl)

theorem Enclosed.opening {text : List Char} (h : Enclosed false text) :
    Enclosed false ('<' :: text) :=
  enclosed_cons.2 ⟨by decide, h⟩

/-- Every `>` of a text is inside quotes, or there is a first one outside them. -/
theorem enclosed_or_ends (quoted : Bool) (text : List Char) :
    Enclosed quoted text ∨ ∃ body rest, text = body ++ '>' :: rest ∧
      Even (quoted.toNat + body.count '"') ∧ Enclosed quoted body := by
  induction text generalizing quoted with
  | nil => exact .inl (enclosed_nil quoted)
  | cons c text ih =>
      by_cases hends : c = '>' ∧ quoted = false
      · obtain ⟨rfl, rfl⟩ := hends
        exact .inr ⟨[], text, rfl, by decide, enclosed_nil false⟩
      · have hquoted (hc : c = '>') : quoted = true :=
          eq_true_of_ne_false fun hfalse => hends ⟨hc, hfalse⟩
        rcases ih (if c = '"' then !quoted else quoted) with
          htext | ⟨body, rest, rfl, heven, hbody⟩
        · exact .inl (enclosed_cons.2 ⟨hquoted, htext⟩)
        · exact .inr ⟨c :: body, rest, rfl, even_cons.2 heven, enclosed_cons.2 ⟨hquoted, hbody⟩⟩

theorem cutTag?_cons {quoted : Bool} {c : Char} (h : c = '>' → quoted = true)
    (taken text : List Char) :
    cutTag? quoted taken (c :: text) =
      cutTag? (if c = '"' then !quoted else quoted) (c :: taken) text := by
  rw [cutTag?]
  by_cases hc : c = '>'
  · rw [h hc, hc]
    rfl
  · simp only [hc, decide_false, Bool.false_and, Bool.false_eq_true, if_false]

theorem cutTag?_append {quoted : Bool} {body : List Char}
    (heven : Even (quoted.toNat + body.count '"')) (h : Enclosed quoted body)
    (taken rest : List Char) :
    cutTag? quoted taken (body ++ '>' :: rest) = some (taken.reverse ++ body ++ ['>'], rest) := by
  induction body generalizing quoted taken with
  | nil =>
      cases quoted with
      | false => rw [List.append_nil, ← List.reverse_cons]; rfl
      | true => exact absurd heven (by decide)
  | cons c body ih =>
      obtain ⟨hquoted, hbody⟩ := enclosed_cons.1 h
      rw [List.cons_append, cutTag?_cons hquoted, ih (even_cons.1 heven) hbody, List.reverse_cons,
        List.append_assoc taken.reverse, List.singleton_append]

theorem cutTag?_eq_none_of_enclosed {quoted : Bool} {text : List Char} (h : Enclosed quoted text)
    (taken : List Char) : cutTag? quoted taken text = none := by
  induction text generalizing quoted taken with
  | nil => rfl
  | cons c text ih =>
      obtain ⟨hquoted, htext⟩ := enclosed_cons.1 h
      rw [cutTag?_cons hquoted, ih htext]

/-! ## Whole tags -/

/-- The tag begins with `<` and ends at its first `>` outside quotes. -/
def IsWhole (tag : List Char) : Prop :=
  ∃ body, tag = '<' :: body ++ ['>'] ∧ Even (body.count '"') ∧ Enclosed false body

theorem IsWhole.exists_front {tag : List Char} (h : IsWhole tag) :
    ∃ front, tag = front ++ ['>'] ∧ Even (false.toNat + front.count '"') ∧
      Enclosed false front := by
  obtain ⟨body, rfl, heven, hbody⟩ := h
  refine ⟨'<' :: body, rfl, ?_, hbody.opening⟩
  rwa [List.count_cons_of_ne (by decide), Bool.toNat_false, Nat.zero_add]

theorem IsWhole.isTag {tag : List Char} (h : IsWhole tag) : IsTag tag := by
  obtain ⟨front, hfront, heven, henclosed⟩ := h.exists_front
  obtain ⟨body, rfl, _⟩ := h
  refine ⟨body ++ ['>'], rfl, fun rest => ?_⟩
  rw [hfront, List.append_assoc]
  exact cutTag?_append heven henclosed [] rest

/-- Of the characters of a tag, the last one alone is a `>` behind an even number of quotes. -/
theorem IsWhole.ends_iff {tag front back : List Char} {c : Char} (h : IsWhole tag)
    (hsplit : tag = front ++ c :: back) : c = '>' ∧ Even (front.count '"') ↔ back = [] := by
  obtain ⟨body, rfl, heven, henclosed⟩ := h.exists_front
  constructor
  · rintro ⟨rfl, hcount⟩
    rcases List.eq_nil_or_concat back with hnil | ⟨init, last, rfl⟩
    · exact hnil
    · rw [List.concat_eq_append, ← List.cons_append, ← List.append_assoc] at hsplit
      have hodd := henclosed front init (List.append_inj_left' hsplit rfl)
      rw [Bool.toNat_false, Nat.zero_add] at hodd
      exact absurd hcount (Nat.not_even_iff_odd.2 hodd)
  · rintro rfl
    obtain ⟨rfl, hlast⟩ := List.append_inj' hsplit rfl
    rw [Bool.toNat_false, Nat.zero_add] at heven
    exact ⟨(List.cons.inj hlast).1.symm, heven⟩

/-- The text is these tags, with nothing but blank characters between and around them. -/
inductive Tagged : List Char → List (List Char) → Prop
  | nil {blanks} : (∀ c ∈ blanks, isBlank c) → Tagged blanks []
  | cons {blanks tag text tags} : (∀ c ∈ blanks, isBlank c) → IsWhole tag → Tagged text tags →
      Tagged (blanks ++ tag ++ text) (tag :: tags)

theorem Tagged.isWhole {text : List Char} {tags : List (List Char)} (h : Tagged text tags) :
    ∀ tag ∈ tags, IsWhole tag := by
  induction h with
  | nil => exact List.forall_mem_nil _
  | cons _ hwhole _ ih => exact List.forall_mem_cons.2 ⟨hwhole, ih⟩

/-- What passes over blank characters and takes tags one by one comes through a text to the
tags of it. -/
theorem Tagged.taken {α : Type} {cut : List (List Char) → List Char → α} {text : List Char}
    {tags : List (List Char)} (h : Tagged text tags)
    (hblanks : ∀ done blanks rest, (∀ c ∈ blanks, isBlank c) →
      cut done (blanks ++ rest) = cut done rest)
    (hcons : ∀ done tag rest, IsWhole tag → cut done (tag ++ rest) = cut (tag :: done) rest)
    (done : List (List Char)) (rest : List Char) :
    cut done (text ++ rest) = cut (tags.reverse ++ done) rest := by
  induction h generalizing done with
  | nil hblank => exact hblanks done _ rest hblank
  | @cons blanks tag text tags hblank hwhole _ ih =>
      calc cut done (blanks ++ tag ++ text ++ rest)
        _ = cut done (blanks ++ (tag ++ (text ++ rest))) := by simp only [List.append_assoc]
        _ = cut (tag :: done) (text ++ rest) := by
          rw [hblanks _ _ _ hblank, hcons _ _ _ hwhole]
        _ = cut ((tag :: tags).reverse ++ done) rest := by
          rw [ih, List.reverse_cons, List.append_assoc, List.singleton_append]

/-! ## First lines -/

/-- The line is the first of the text, without the line feed that ends it and one carriage
return right before that. -/
inductive IsFirstLine : List Char → List Char → Prop
  | last {line} : '\n' ∉ line → IsFirstLine line line
  | feed {line} (rest) : '\n' ∉ line → line.getLast? ≠ some '\r' →
      IsFirstLine (line ++ '\n' :: rest) line
  | returnFeed {line} (rest) : '\n' ∉ line → IsFirstLine (line ++ '\r' :: '\n' :: rest) line

theorem firstLine_last {line : List Char} (h : '\n' ∉ line) : firstLine line = line := by
  have htake : line.takeWhile (· ≠ '\n') = line := by
    rw [List.takeWhile_eq_self_iff]
    intro c hc
    exact decide_eq_true fun heq => h (heq ▸ hc)
  rw [firstLine, htake, if_neg (Nat.lt_irrefl _)]

theorem firstLine_feed {line : List Char} (h : '\n' ∉ line) (rest : List Char) :
    firstLine (line ++ '\n' :: rest) =
      match line.reverse with
      | '\r' :: front => front.reverse
      | _ => line := by
  have htake : (line ++ '\n' :: rest).takeWhile (· ≠ '\n') = line := by
    rw [List.takeWhile_append_of_pos, List.takeWhile_cons_of_neg (by decide), List.append_nil]
    intro c hc
    exact decide_eq_true fun heq => h (heq ▸ hc)
  have hlt : line.length < (line ++ '\n' :: rest).length := by
    rw [List.length_append, List.length_cons]
    omega
  unfold firstLine
  rw [htake]
  exact if_pos hlt

theorem isFirstLine_firstLine (text : List Char) : IsFirstLine text (firstLine text) := by
  by_cases hmem : '\n' ∈ text
  · obtain ⟨line, rest, rfl, hline⟩ := List.eq_append_cons_of_mem hmem
    rw [firstLine_feed hline]
    split
    next front hfront =>
      obtain rfl : line = front.reverse ++ ['\r'] := by
        rw [← List.reverse_reverse line, hfront, List.reverse_cons]
      rw [List.append_assoc, List.singleton_append]
      exact .returnFeed rest fun h => hline (by simp [h])
    next hnone =>
      refine .feed rest hline fun hlast => ?_
      rw [← List.head?_reverse] at hlast
      obtain ⟨front, hfront⟩ := List.head?_eq_some_iff.1 hlast
      exact hnone front hfront
  · rw [firstLine_last hmem]
    exact .last hmem

theorem IsFirstLine.firstLine_eq {text line : List Char} (h : IsFirstLine text line) :
    firstLine text = line := by
  cases h with
  | last hline => exact firstLine_last hline
  | feed rest hline hlast =>
      rw [firstLine_feed hline]
      split
      next front hfront =>
        rw [← List.head?_reverse, hfront] at hlast
        exact absurd rfl hlast
      next => rfl
  | returnFeed rest hline =>
      have hreturn : '\n' ∉ line ++ ['\r'] := by simp [hline]
      have hfeed := firstLine_feed hreturn rest
      rw [List.append_assoc, List.singleton_append] at hfeed
      rw [hfeed, List.reverse_append]
      exact List.reverse_reverse line

/-! ## Rests that begin no whole tag -/

/-- The text begins no whole tag, and not with a blank character either: it does not begin with
`<`, which its first line tells, or no `>` in it stands outside quotes, which all of it tells. -/
inductive Stray : List Char → List Char → Prop
  | unopened {c text line} : ¬ isBlank c → c ≠ '<' → IsFirstLine (c :: text) line →
      Stray (c :: text) line
  | unended {text} : Enclosed false ('<' :: text) → Stray ('<' :: text) ('<' :: text)

theorem stray_or_whole {c : Char} (h : ¬ isBlank c) (text : List Char) :
    (∃ stray, Stray (c :: text) stray) ∨ ∃ tag after, c :: text = tag ++ after ∧ IsWhole tag := by
  by_cases hopen : c = '<'
  · subst hopen
    rcases enclosed_or_ends false text with henclosed | ⟨body, rest, rfl, heven, hbody⟩
    · exact .inl ⟨_, .unended henclosed.opening⟩
    · rw [Bool.toNat_false, Nat.zero_add] at heven
      exact .inr ⟨'<' :: body ++ ['>'], rest, by simp, body, rfl, heven, hbody⟩
  · exact .inl ⟨_, .unopened h hopen (isFirstLine_firstLine _)⟩

/-- Every text is tags and a rest that is empty or begins no whole tag. -/
theorem exists_tagged (text : List Char) :
    ∃ front tags rest, text = front ++ rest ∧ Tagged front tags ∧
      (rest = [] ∨ ∃ stray, Stray rest stray) := by
  induction hlength : text.length using Nat.strongRecOn generalizing text with
  | ind n ih =>
      obtain ⟨blanks, htext, hblanks⟩ := exists_trimStart text
      have hnot := head?_trimStart text
      cases htrim : trimStart text with
      | nil =>
          rw [htrim] at htext
          exact ⟨blanks, [], [], htext, .nil hblanks, .inl rfl⟩
      | cons c rest =>
          rw [htrim] at htext hnot
          rcases stray_or_whole (hnot c rfl) rest with hstray | ⟨tag, after, heq, hwhole⟩
          · exact ⟨blanks, [], _, htext, .nil hblanks, .inr hstray⟩
          · rw [heq] at htext
            have hshorter : after.length < n := by
              obtain ⟨body, rfl, _⟩ := hwhole
              rw [← hlength, htext, List.length_append, List.length_append, List.length_append,
                List.length_cons]
              omega
            obtain ⟨front, tags, last, rfl, htags, hlast⟩ := ih after.length hshorter after rfl
            refine ⟨blanks ++ tag ++ front, tag :: tags, last, ?_, .cons hblanks hwhole htags,
              hlast⟩
            rw [htext, ← List.append_assoc, ← List.append_assoc]

theorem Stray.trimStart_eq {text stray : List Char} (h : Stray text stray) :
    trimStart text = text := by
  cases h with
  | unopened hblank => exact List.dropWhile_cons_of_neg hblank
  | unended => exact List.dropWhile_cons_of_neg (by decide)

/-! ## Cutting -/

/-- Cutting looks at a text only behind the blank characters at its start. -/
theorem splitTags_eq (done : List (List Char)) (text : List Char) :
    splitTags done text =
      match trimStart text with
      | [] => .ok done.reverse
      | '<' :: rest =>
        match cutTag? false [] ('<' :: rest) with
        | some (tag, after) => splitTags (tag :: done) after
        | none => .error ('<' :: rest)
      | stray => .error (firstLine stray) := by
  rw [splitTags]
  split
  next h => rw [h]
  next rest h =>
    split
    next tag after hcut => simp only [h, hcut]
    next hcut => simp only [h, hcut]
  next hnil hopen =>
    split
    next h => exact absurd h hnil
    next rest h => exact absurd h (hopen rest)
    next => rfl

/-- A text that begins with blank characters is cut like the rest of it. -/
theorem splitTags_blanks {blanks : List Char} (h : ∀ c ∈ blanks, isBlank c)
    (done : List (List Char)) (text : List Char) :
    splitTags done (blanks ++ text) = splitTags done text := by
  have htrim : trimStart (blanks ++ text) = trimStart text := List.dropWhile_append_of_pos h
  rw [splitTags_eq, splitTags_eq done text, htrim]

theorem splitTags_tagged {front : List Char} {tags : List (List Char)} (h : Tagged front tags)
    (done : List (List Char)) (rest : List Char) :
    splitTags done (front ++ rest) = splitTags (tags.reverse ++ done) rest :=
  h.taken (fun done _ rest hblanks => splitTags_blanks hblanks done rest)
    (fun done _ rest hwhole => splitTags_cons hwhole.isTag done rest) done rest

theorem splitTags_nil (done : List (List Char)) : splitTags done [] = .ok done.reverse := by
  rw [splitTags_eq]
  rfl

theorem Stray.splitTags_eq {text stray : List Char} (h : Stray text stray)
    (done : List (List Char)) : splitTags done text = .error stray := by
  rw [Dump.splitTags_eq, h.trimStart_eq]
  cases h with
  | unopened _ hopen hline =>
      split
      next hnil => cases hnil
      next heq => exact absurd (List.cons.inj heq).1 hopen
      next => rw [hline.firstLine_eq]
  | unended hclosed => simp only [cutTag?_eq_none_of_enclosed hclosed]

/-- A text is cut into tags exactly when it is these tags. -/
theorem splitTags_eq_ok {done all : List (List Char)} {text : List Char} :
    splitTags done text = .ok all ↔ ∃ tags, all = done.reverse ++ tags ∧ Tagged text tags := by
  constructor
  · obtain ⟨front, tags, rest, rfl, htags, rfl | ⟨stray, hstray⟩⟩ := exists_tagged text
    · rw [splitTags_tagged htags, splitTags_nil, List.append_nil]
      rintro ⟨⟩
      exact ⟨tags, by simp, htags⟩
    · rw [splitTags_tagged htags, hstray.splitTags_eq]
      rintro ⟨⟩
  · rintro ⟨tags, rfl, htags⟩
    have hcut := splitTags_tagged htags done []
    rw [List.append_nil, splitTags_nil] at hcut
    rw [hcut]
    simp

theorem splitTags_eq_error {done : List (List Char)} {text stray : List Char} :
    splitTags done text = .error stray ↔
      ∃ front tags rest, text = front ++ rest ∧ Tagged front tags ∧ Stray rest stray := by
  constructor
  · obtain ⟨front, tags, rest, rfl, htags, rfl | ⟨stray', hstray⟩⟩ := exists_tagged text
    · rw [splitTags_tagged htags, splitTags_nil]
      rintro ⟨⟩
    · rw [splitTags_tagged htags, hstray.splitTags_eq]
      rintro ⟨⟩
      exact ⟨front, tags, rest, rfl, htags, hstray⟩
  · rintro ⟨front, tags, rest, rfl, htags, hstray⟩
    rw [splitTags_tagged htags, hstray.splitTags_eq]

end TreeAssay.Dump
