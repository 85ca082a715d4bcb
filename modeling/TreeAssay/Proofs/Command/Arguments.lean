import TreeAssay.Proofs.Command.Settings
/-!
# What arguments set

A value that was set aside is checked later than it is read.  That makes a difference to which of
several faults is told, and none to what is set.  So the arguments are read one setting after
another, and they are read as options exactly if they write settings that are these options.
-/

namespace TreeAssay.Command

open Setting

namespace Parsing

variable {p q : Parsing} {text : String} {rest : List String} {options : Options}

/-! ## When values are checked -/

theorem settle_eq_ok :
    p.settle = .ok q ↔
      p.pending = .nothing ∧ q = p ∨
      (∃ mode : ColorMode, p.pending = .color (some mode.name) ∧ p.color = none ∧
        q = { p with pending := .nothing, color := some mode }) ∨
      ∃ text, p.pending = .path text ∧ text ≠ "" ∧
        q = { p with pending := .nothing, path := some text } := by
  obtain ⟨path, quiet, verbose, dump, color, pending, onlyPlain⟩ := p
  unfold settle
  cases pending with
  | nothing => simp [eq_comm]
  | color value =>
      cases value with
      | none => simp
      | some value =>
          simp only [setColor_eq_ok]
          constructor
          · rintro ⟨hcolor, mode, rfl, rfl⟩
            exact .inr (.inl ⟨mode, rfl, hcolor, rfl⟩)
          · rintro (⟨⟨⟩, _⟩ | ⟨mode, hmode, hcolor, rfl⟩ | ⟨_, ⟨⟩, _⟩)
            cases hmode
            exact ⟨hcolor, mode, rfl, rfl⟩
  | path value =>
      by_cases hvalue : value = ""
      · simp [hvalue]
      · simp [hvalue, eq_comm]

theorem pending_of_settle (h : p.settle = .ok q) : q.pending = .nothing := by
  rcases settle_eq_ok.1 h with ⟨hp, rfl⟩ | ⟨_, _, _, rfl⟩ | ⟨_, _, _, rfl⟩
  · exact hp
  · rfl
  · rfl

theorem settle_of_pending (h : p.pending = .nothing) : p.settle = .ok p :=
  settle_eq_ok.2 (.inl ⟨h, rfl⟩)

theorem onlyPlain_of_settle (h : p.settle = .ok q) : q.onlyPlain = p.onlyPlain := by
  rcases settle_eq_ok.1 h with ⟨_, rfl⟩ | ⟨_, _, _, rfl⟩ | ⟨_, _, _, rfl⟩ <;> rfl

/-- What has been checked once is not checked again. -/
theorem exists_settle_settle {P : Parsing → Prop} :
    (∃ q, p.settle = .ok q ∧ ∃ r, q.settle = .ok r ∧ P r) ↔ ∃ q, p.settle = .ok q ∧ P q := by
  refine exists_congr fun q => and_congr_right fun hq => ?_
  simp [settle_of_pending (pending_of_settle hq)]

/-- The step checks what is set aside before anything else: it succeeds if that does, and if the step
from there succeeds in the same way. -/
def Settles (step : Parsing → Except Refusal Parsing) : Prop :=
  ∀ p r, step p = .ok r ↔ ∃ q, p.settle = .ok q ∧ step q = .ok r

theorem settles_bind (f : Parsing → Except Refusal Parsing) : Settles fun p => p.settle >>= f := by
  intro p r
  simp only [bind_eq_ok, exists_settle_settle]

theorem settles_error (refusal : Refusal) : Settles fun _ => .error refusal := by
  intro p r
  simp

theorem settles_takeLetter (letter : Char) : Settles (takeLetter · letter) := by
  unfold takeLetter
  cases Switch.ofLetter? letter with
  | none => exact settles_error _
  | some s => exact settles_bind _

theorem settles_takeLong (name : String) (value : Option String) :
    Settles (takeLong · name value) := by
  unfold takeLong
  split
  next => exact settles_bind _
  next =>
    cases Switch.ofName? name with
    | none => exact settles_error _
    | some s =>
        cases value with
        | none => exact settles_bind _
        | some value => exact settles_error _

theorem hasPath_of_settle (h : p.settle = .ok q) : p.hasPath = q.path.isSome := by
  rcases settle_eq_ok.1 h with ⟨hp, rfl⟩ | ⟨_, hp, _, rfl⟩ | ⟨_, hp, _, rfl⟩ <;>
    simp [hasPath, hp]

theorem takePath_eq_ok {r : Parsing} :
    p.takePath text = .ok r ↔
      ∃ q, p.settle = .ok q ∧ q.path = none ∧ r = { q with pending := .path text } := by
  have htake : (do return { ← p.settle with pending := .path text }) = .ok r ↔
      ∃ q, p.settle = .ok q ∧ r = { q with pending := .path text } := by
    rw [bind_eq_ok]
    simp [pure, Except.pure, eq_comm]
  unfold takePath
  by_cases hpath : p.hasPath = true
  · rw [if_pos hpath]
    simp only [reduceCtorEq, false_iff, not_exists, not_and]
    intro q hq hnone
    rw [hasPath_of_settle hq, hnone] at hpath
    cases hpath
  · rw [if_neg hpath, htake]
    constructor
    · rintro ⟨q, hq, hr⟩
      rw [hasPath_of_settle hq] at hpath
      exact ⟨q, hq, by simpa using hpath, hr⟩
    · rintro ⟨q, hq, _, hr⟩
      exact ⟨q, hq, hr⟩

theorem settles_takePath (text : String) : Settles (takePath · text) := by
  intro p r
  simp only [takePath_eq_ok, exists_settle_settle]

theorem settles_letters {letters : List Char} (h : letters ≠ []) :
    Settles (letters.foldlM takeLetter ·) := by
  cases letters with
  | nil => exact absurd rfl h
  | cons letter letters =>
      intro p r
      simp only [foldlM_cons_eq_ok]
      constructor
      · rintro ⟨next, hnext, hr⟩
        obtain ⟨q, hq, hnext⟩ := (settles_takeLetter letter p next).1 hnext
        exact ⟨q, hq, next, hnext, hr⟩
      · rintro ⟨q, hq, next, hnext, hr⟩
        exact ⟨next, (settles_takeLetter letter p next).2 ⟨q, hq, hnext⟩, hr⟩

/-- The options that the arguments make of what was set before them. -/
def read (p : Parsing) (arguments : List String) : Except Refusal Options := do
  (← arguments.foldlM take p).finish

theorem read_nil (p : Parsing) : p.read [] = p.finish := rfl

theorem read_cons_eq_ok :
    p.read (text :: rest) = .ok options ↔
      ∃ q, p.take text = .ok q ∧ q.read rest = .ok options := by
  simp only [read, bind_eq_ok, foldlM_cons_eq_ok]
  constructor
  · rintro ⟨r, ⟨q, hq, hr⟩, hfinish⟩
    exact ⟨q, hq, r, hr, hfinish⟩
  · rintro ⟨q, hq, r, hr, hfinish⟩
    exact ⟨r, ⟨q, hq, hr⟩, hfinish⟩

theorem finish_eq_ok :
    p.finish = .ok options ↔ ∃ q, p.settle = .ok q ∧ q.path = some options.path ∧
      options = ⟨options.path, q.quiet, q.verbose, q.dump, q.color.getD .auto⟩ := by
  unfold finish
  rw [bind_eq_ok]
  refine exists_congr fun q => and_congr_right fun _ => ?_
  cases q.path with
  | none => simp
  | some path =>
      obtain ⟨other, quiet, verbose, dump, color⟩ := options
      simp only [pure, Except.pure, Except.ok.injEq, Option.some.injEq, Options.mk.injEq]
      constructor
      · rintro ⟨rfl, rfl, rfl, rfl, rfl⟩
        exact ⟨rfl, trivial, rfl, rfl, rfl, rfl⟩
      · rintro ⟨rfl, _, rfl, rfl, rfl, rfl⟩
        exact ⟨rfl, rfl, rfl, rfl, rfl⟩

theorem settle_onlyPlain {r : Parsing} :
    { p with onlyPlain := true }.settle = .ok r ↔
      ∃ q, p.settle = .ok q ∧ r = { q with onlyPlain := true } := by
  simp only [settle_eq_ok]
  constructor
  · rintro (⟨hp, rfl⟩ | ⟨mode, hp, hcolor, rfl⟩ | ⟨text, hp, htext, rfl⟩)
    · exact ⟨p, .inl ⟨hp, rfl⟩, rfl⟩
    · exact ⟨_, .inr (.inl ⟨mode, hp, hcolor, rfl⟩), rfl⟩
    · exact ⟨_, .inr (.inr ⟨text, hp, htext, rfl⟩), rfl⟩
  · rintro ⟨q, ⟨hp, rfl⟩ | ⟨mode, hp, hcolor, rfl⟩ | ⟨text, hp, htext, rfl⟩, rfl⟩
    · exact .inl ⟨hp, rfl⟩
    · exact .inr (.inl ⟨mode, hp, hcolor, rfl⟩)
    · exact .inr (.inr ⟨text, hp, htext, rfl⟩)

theorem take_separator (h : p.onlyPlain = false) (htext : Argument.ofText text = .separator) :
    p.take text = .ok { p with onlyPlain := true } := by
  simp [take, h, htext]

theorem take_long {name : String} {value : Option String} (h : p.onlyPlain = false)
    (htext : Argument.ofText text = .long name value) : p.take text = p.takeLong name value := by
  simp [take, h, htext]

theorem take_short {letters : List Char} (h : p.onlyPlain = false)
    (htext : Argument.ofText text = .short letters) :
    p.take text = letters.foldlM takeLetter p := by
  simp [take, h, htext]

theorem take_plain (h : p.onlyPlain = false) (htext : Argument.ofText text = .plain text)
    (hp : p.pending ≠ .color none) : p.take text = p.takePath text := by
  simp [take, h, htext, hp]

theorem take_value (h : p.onlyPlain = false) (htext : Argument.ofText text = .plain text)
    (hp : p.pending = .color none) : p.take text = .ok { p with pending := .color (some text) } := by
  simp [take, h, htext, hp]

theorem take_onlyPlain (h : p.onlyPlain = true) : p.take text = p.takePath text := by
  rw [take, if_pos h]

/-- Two dashes apart, an argument makes a step that settles. -/
theorem exists_settles (h : p.pending ≠ .color none) (text : String) :
    p.onlyPlain = false ∧ Argument.ofText text = .separator ∨
      ∃ step, Settles step ∧ p.take text = step p ∧
        ∀ q, p.settle = .ok q → q.take text = step q := by
  cases honly : p.onlyPlain with
  | true =>
      exact .inr ⟨_, settles_takePath text, take_onlyPlain honly, fun q hq =>
        take_onlyPlain ((onlyPlain_of_settle hq).trans honly)⟩
  | false =>
      have hq {q : Parsing} (hq : p.settle = .ok q) : q.onlyPlain = false :=
        (onlyPlain_of_settle hq).trans honly
      cases htext : Argument.ofText text with
      | separator => exact .inl ⟨rfl, rfl⟩
      | long name value =>
          exact .inr ⟨_, settles_takeLong name value, take_long honly htext, fun q hsettle =>
            take_long (hq hsettle) htext⟩
      | short letters =>
          exact .inr ⟨_, settles_letters (Argument.ne_nil_of_ofText htext), take_short honly htext,
            fun q hsettle => take_short (hq hsettle) htext⟩
      | plain other =>
          obtain ⟨_, rfl⟩ := Argument.ofText_eq_plain_iff.1 htext
          refine .inr ⟨_, settles_takePath text, take_plain honly htext h, fun q hsettle => ?_⟩
          refine take_plain (hq hsettle) htext ?_
          rw [pending_of_settle hsettle]
          exact nofun

/-- A value that is set aside could as well be checked at once. -/
theorem read_iff_settle {arguments : List String} (h : p.pending ≠ .color none) :
    p.read arguments = .ok options ↔ ∃ q, p.settle = .ok q ∧ q.read arguments = .ok options := by
  induction arguments generalizing p with
  | nil =>
      simp only [read_nil, finish_eq_ok, exists_settle_settle]
  | cons text rest ih =>
      simp only [read_cons_eq_ok]
      rcases exists_settles h text with ⟨honly, htext⟩ | ⟨step, hstep, hp, hq⟩
      · have hpending : { p with onlyPlain := true }.pending ≠ .color none := h
        rw [take_separator honly htext]
        simp only [Except.ok.injEq, exists_eq_left', ih hpending, settle_onlyPlain]
        constructor
        · rintro ⟨_, ⟨q, hq, rfl⟩, hread⟩
          exact ⟨q, hq, _, take_separator ((onlyPlain_of_settle hq).trans honly) htext, hread⟩
        · rintro ⟨q, hq, r, hr, hread⟩
          rw [take_separator ((onlyPlain_of_settle hq).trans honly) htext] at hr
          obtain rfl := Except.ok.inj hr
          exact ⟨_, ⟨q, hq, rfl⟩, hread⟩
      · rw [hp]
        constructor
        · rintro ⟨r, hr, hread⟩
          obtain ⟨q, hsettle, hr⟩ := (hstep p r).1 hr
          exact ⟨q, hsettle, r, (hq q hsettle).trans hr, hread⟩
        · rintro ⟨q, hsettle, r, hr, hread⟩
          exact ⟨r, (hstep p r).2 ⟨q, hsettle, (hq q hsettle).symm.trans hr⟩, hread⟩

/-! ## Between two settings -/

/-- Nothing is set aside, and a path that has been set is not empty. -/
structure Ready (p : Parsing) : Prop where
  pending : p.pending = .nothing
  path_ne : p.path ≠ some ""

theorem Ready.settle (hp : p.Ready) : p.settle = .ok p := settle_of_pending hp.pending

theorem Ready.throwSwitch {s : Switch} (hp : p.Ready) (h : p.throwSwitch s = .ok q) : q.Ready := by
  rw [throwSwitch_frame h]
  exact ⟨hp.pending, hp.path_ne⟩

theorem Ready.takeSwitch (hp : p.Ready) (s : Switch) : p.takeSwitch s = p.throwSwitch s := by
  rw [Parsing.takeSwitch, hp.settle, ok_bind]

theorem Ready.finish_eq_ok (hp : p.Ready) : p.finish = .ok options ↔ options.AreSet p.settings := by
  rw [Parsing.finish_eq_ok]
  simp only [hp.settle, Except.ok.injEq, exists_eq_left']
  constructor
  · rintro ⟨hpath, hoptions⟩
    refine ⟨fun s => ?_, ?_, ?_, ?_⟩
    · rw [count_settings, hoptions]
      cases s <;> rfl
    · rw [filterMap_color?, hoptions]
      cases p.color with
      | none => exact .inr ⟨rfl, rfl⟩
      | some mode => exact .inl rfl
    · rw [filterMap_path?, hpath, Option.toList_some]
    · rintro hempty
      exact hp.path_ne (hpath.trans (congrArg some hempty))
  · intro hset
    have hswitch (s : Switch) : p.switch s = options.switch s := by
      have hcount := (count_settings p s).symm.trans (hset.switches s)
      cases h : p.switch s <;> cases h' : options.switch s <;> simp [h, h'] at hcount ⊢
    have hcolor : p.color.getD .auto = options.color := by
      have hcolor := hset.color
      rw [filterMap_color?] at hcolor
      cases h : p.color with
      | none => simpa [h, eq_comm] using hcolor
      | some mode => simpa [h] using hcolor
    have hpath : p.path = some options.path := by
      have hpath := hset.path
      rw [filterMap_path?] at hpath
      cases h : p.path with
      | none => simp [h] at hpath
      | some path => simpa [h] using hpath
    refine ⟨hpath, ?_⟩
    rw [hcolor, show p.quiet = options.quiet from hswitch .quiet,
      show p.verbose = options.verbose from hswitch .verbose,
      show p.dump = options.dump from hswitch .dump]

theorem Ready.takeLetter_eq_ok (hp : p.Ready) {letter : Char} :
    p.takeLetter letter = .ok q ↔
      ∃ s : Switch, s.letter? = some letter ∧ p.throwSwitch s = .ok q := by
  simp only [← Switch.ofLetter?_eq_some, takeLetter]
  cases Switch.ofLetter? letter with
  | none => simp
  | some s => simp [hp.takeSwitch]

theorem Ready.foldlM_takeLetter (hp : p.Ready) (letters : List Char) :
    letters.foldlM takeLetter p = .ok q ↔
      ∃ switches : List Switch, switches.map Switch.letter? = letters.map some ∧
        switches.foldlM Parsing.throwSwitch p = .ok q := by
  induction letters generalizing p with
  | nil => simp
  | cons letter letters ih =>
      rw [foldlM_cons_eq_ok]
      constructor
      · rintro ⟨next, hnext, hletters⟩
        obtain ⟨s, hs, hthrow⟩ := hp.takeLetter_eq_ok.1 hnext
        obtain ⟨switches, hmap, hswitches⟩ := (ih (hp.throwSwitch hthrow)).1 hletters
        exact ⟨s :: switches, by rw [List.map_cons, hs, hmap, List.map_cons],
          foldlM_cons_eq_ok.2 ⟨next, hthrow, hswitches⟩⟩
      · rintro ⟨_ | ⟨s, switches⟩, hmap, hswitches⟩
        · cases hmap
        · obtain ⟨hs, hmap⟩ := List.cons.inj hmap
          obtain ⟨next, hthrow, hswitches⟩ := foldlM_cons_eq_ok.1 hswitches
          exact ⟨next, hp.takeLetter_eq_ok.2 ⟨s, hs, hthrow⟩,
            (ih (hp.throwSwitch hthrow)).2 ⟨switches, hmap, hswitches⟩⟩

theorem Ready.foldlM_throwSwitch {switches : List Switch} (hp : p.Ready)
    (h : switches.foldlM Parsing.throwSwitch p = .ok q) :
    q.Ready ∧ q.onlyPlain = p.onlyPlain := by
  induction switches generalizing p with
  | nil =>
      cases h
      exact ⟨hp, rfl⟩
  | cons s switches ih =>
      obtain ⟨next, hnext, h⟩ := foldlM_cons_eq_ok.1 h
      have honly : next.onlyPlain = p.onlyPlain := by rw [throwSwitch_frame hnext]
      rw [← honly]
      exact ih (hp.throwSwitch hnext) h

theorem Ready.color (hp : p.Ready) (mode : ColorMode) : { p with color := some mode }.Ready :=
  ⟨hp.pending, hp.path_ne⟩

theorem Ready.path (hp : p.Ready) (htext : text ≠ "") : { p with path := some text }.Ready :=
  ⟨hp.pending, fun h => htext (Option.some.inj h)⟩

theorem Ready.cleared (hp : p.Ready) : { p with pending := .nothing } = p := by
  rw [← hp.pending]

theorem Ready.read_pathAside (hp : p.Ready) {arguments : List String} :
    { p with pending := .path text }.read arguments = .ok options ↔
      text ≠ "" ∧ { p with path := some text }.read arguments = .ok options := by
  rw [read_iff_settle (by simp), Parsing.settle]
  by_cases htext : text = ""
  · simp [htext]
  · simp [htext, hp.pending]

theorem exists_setColor {value : String} {P : Parsing → Prop} :
    (∃ q, p.setColor value = .ok q ∧ P q) ↔
      p.color = none ∧ ∃ mode : ColorMode, mode.name = value ∧ P { p with color := some mode } := by
  simp only [setColor_eq_ok]
  constructor
  · rintro ⟨_, ⟨hcolor, mode, hmode, rfl⟩, h⟩
    exact ⟨hcolor, mode, hmode, h⟩
  · rintro ⟨hcolor, mode, hmode, h⟩
    exact ⟨_, ⟨hcolor, mode, hmode, rfl⟩, h⟩

theorem Ready.read_colorAside (hp : p.Ready) {arguments : List String} {value : String} :
    { p with pending := .color (some value) }.read arguments = .ok options ↔
      p.color = none ∧ ∃ mode : ColorMode, mode.name = value ∧
        { p with color := some mode }.read arguments = .ok options := by
  rw [read_iff_settle (by simp), Parsing.settle]
  simp only [hp.cleared]
  exact exists_setColor

/-! ## From arguments to settings and back -/

theorem Ready.read_path (hp : p.Ready) (honly : p.onlyPlain = true ∨ Argument.IsPlain text) :
    p.read (text :: rest) = .ok options ↔
      p.path = none ∧ text ≠ "" ∧ { p with path := some text }.read rest = .ok options := by
  have htake : p.take text = p.takePath text := by
    rcases Bool.eq_false_or_eq_true p.onlyPlain with h | h
    · exact take_onlyPlain h
    · have hplain := honly.resolve_left (by simp [h])
      exact take_plain h (Argument.ofText_eq_plain_iff.2 ⟨hplain, rfl⟩) (by simp [hp.pending])
  simp only [read_cons_eq_ok, htake, takePath_eq_ok, hp.settle, Except.ok.injEq, exists_eq_left']
  rw [← hp.read_pathAside]
  constructor
  · rintro ⟨_, ⟨hnone, rfl⟩, hread⟩
    exact ⟨hnone, hread⟩
  · rintro ⟨hnone, hread⟩
    exact ⟨_, ⟨hnone, rfl⟩, hread⟩

theorem Ready.read_texts (hp : p.Ready) (honly : p.onlyPlain = true) (texts : List String) :
    p.read texts = .ok options ↔ options.AreSet (p.settings ++ texts.map .path) := by
  induction texts generalizing p with
  | nil =>
      rw [List.map_nil, List.append_nil]
      exact hp.finish_eq_ok
  | cons text texts ih =>
      rw [hp.read_path (.inl honly), List.map_cons, areSet_path]
      refine and_congr_right fun _ => and_congr_right fun htext => ?_
      exact ih (hp.path htext) honly

/-- A missing value is not made up for by what comes after two dashes. -/
theorem read_ne_ok (hp : ∀ q, p.settle ≠ .ok q) (honly : p.onlyPlain = true)
    (texts : List String) : p.read texts ≠ .ok options := by
  cases texts with
  | nil =>
      intro h
      obtain ⟨q, hq, _⟩ := finish_eq_ok.1 h
      exact hp q hq
  | cons text texts =>
      intro h
      obtain ⟨r, hr, _⟩ := read_cons_eq_ok.1 h
      rw [take_onlyPlain honly] at hr
      obtain ⟨q, hq, _⟩ := takePath_eq_ok.1 hr
      exact hp q hq

theorem Ready.take_colorNext (hp : p.Ready) (honly : p.onlyPlain = false)
    (htext : Argument.ofText text = .long ColorMode.optionName none) :
    p.take text = .ok { p with pending := .color none } := by
  rw [take_long honly htext, takeLong, if_pos rfl, takeColor, hp.settle, ok_bind]
  rfl

theorem Ready.read_colorNext (hp : p.Ready) (honly : p.onlyPlain = false)
    (htext : Argument.ofText text = .long ColorMode.optionName none) :
    p.read (text :: rest) = .ok options ↔
      ∃ (mode : ColorMode) (later : List String), rest = mode.name :: later ∧ p.color = none ∧
        { p with color := some mode }.read later = .ok options := by
  rw [read_cons_eq_ok, hp.take_colorNext honly htext]
  simp only [Except.ok.injEq, exists_eq_left']
  have hmissing (q : Parsing) : { p with pending := .color none }.settle ≠ .ok q := by
    simp [Parsing.settle]
  have hoption : { p with pending := .color none }.onlyPlain = false := honly
  constructor
  · intro hread
    cases rest with
    | nil =>
        rw [read_nil] at hread
        obtain ⟨q, hq, _⟩ := Parsing.finish_eq_ok.1 hread
        exact absurd hq (hmissing q)
    | cons next later =>
        obtain ⟨r, hr, hread⟩ := read_cons_eq_ok.1 hread
        cases hnext : Argument.ofText next with
        | separator =>
            rw [take_separator hoption hnext] at hr
            cases hr
            exact absurd hread (read_ne_ok (by simp [Parsing.settle]) rfl later)
        | long name value =>
            rw [take_long hoption hnext] at hr
            obtain ⟨q, hq, _⟩ := (settles_takeLong name value _ r).1 hr
            exact absurd hq (hmissing q)
        | short letters =>
            rw [take_short hoption hnext] at hr
            obtain ⟨q, hq, _⟩ := (settles_letters (Argument.ne_nil_of_ofText hnext) _ r).1 hr
            exact absurd hq (hmissing q)
        | plain other =>
            obtain ⟨_, rfl⟩ := Argument.ofText_eq_plain_iff.1 hnext
            rw [take_value hoption hnext rfl] at hr
            cases hr
            obtain ⟨hcolor, mode, rfl, hlater⟩ := hp.read_colorAside.1 hread
            exact ⟨mode, later, rfl, hcolor, hlater⟩
  · rintro ⟨mode, later, rfl, hcolor, hread⟩
    exact read_cons_eq_ok.2 ⟨_, take_value hoption (Argument.ofText_mode mode) rfl,
      hp.read_colorAside.2 ⟨hcolor, mode, rfl, hread⟩⟩

theorem Ready.read_color (hp : p.Ready) (honly : p.onlyPlain = false) {value : String}
    (htext : Argument.ofText text = .long ColorMode.optionName (some value)) :
    p.read (text :: rest) = .ok options ↔
      p.color = none ∧ ∃ mode : ColorMode, mode.name = value ∧
        { p with color := some mode }.read rest = .ok options := by
  have htake : p.take text = p.setColor value := by
    rw [take_long honly htext, takeLong, if_pos rfl, takeColor, hp.settle, ok_bind]
  rw [read_cons_eq_ok, htake]
  exact exists_setColor

theorem Ready.take_long_eq_ok (hp : p.Ready) (honly : p.onlyPlain = false) {name : String}
    {value : Option String} (htext : Argument.ofText text = .long name value)
    (hname : name ≠ ColorMode.optionName) :
    p.take text = .ok q ↔
      ∃ s : Switch, s.name = name ∧ value = none ∧ p.throwSwitch s = .ok q := by
  rw [take_long honly htext]
  simp only [takeLong, if_neg hname, ← Switch.ofName?_eq_some]
  cases Switch.ofName? name with
  | none => simp
  | some s => cases value <;> simp [hp.takeSwitch]

theorem Ready.take_short_eq_ok (hp : p.Ready) (honly : p.onlyPlain = false) {letters : List Char}
    (htext : Argument.ofText text = .short letters) :
    p.take text = .ok q ↔
      ∃ switches : List Switch, switches.map Switch.letter? = letters.map some ∧
        switches.foldlM Parsing.throwSwitch p = .ok q := by
  rw [← hp.foldlM_takeLetter, take_short honly htext]

theorem Ready.read_of_written {arguments : List String} {settings : List Setting} (hp : p.Ready)
    (honly : p.onlyPlain = false) (h : Written arguments settings)
    (hset : options.AreSet (p.settings ++ settings)) : p.read arguments = .ok options := by
  induction h generalizing p with
  | nil =>
      rw [List.append_nil] at hset
      exact hp.finish_eq_ok.2 hset
  | switch s _ ih =>
      obtain ⟨q, hthrow, hset⟩ := (areSet_switch p s _).1 hset
      have hq : q.onlyPlain = p.onlyPlain := by rw [throwSwitch_frame hthrow]
      have hname : s.name ≠ ColorMode.optionName := by cases s <;> decide
      have htake := (hp.take_long_eq_ok honly (Argument.ofText_switch s) hname).2 ⟨s, rfl, rfl, hthrow⟩
      exact read_cons_eq_ok.2 ⟨q, htake, ih (hp.throwSwitch hthrow) (hq.trans honly) hset⟩
  | letters letters switches hne hletters _ ih =>
      obtain ⟨q, hthrow, hset⟩ := (areSet_switches p switches _).1 hset
      obtain ⟨hq, hqonly⟩ := hp.foldlM_throwSwitch hthrow
      have htake := (hp.take_short_eq_ok honly (Argument.ofText_letters hne hletters)).2
        ⟨switches, hletters, hthrow⟩
      exact read_cons_eq_ok.2 ⟨q, htake, ih hq (hqonly.trans honly) hset⟩
  | color mode _ ih =>
      obtain ⟨hcolor, hset⟩ := (areSet_color p mode _).1 hset
      exact (hp.read_color honly (Argument.ofText_color mode)).2
        ⟨hcolor, mode, rfl, ih (hp.color mode) honly hset⟩
  | colorNext mode _ ih =>
      obtain ⟨hcolor, hset⟩ := (areSet_color p mode _).1 hset
      exact (hp.read_colorNext honly (by decide +kernel)).2
        ⟨mode, _, rfl, hcolor, ih (hp.color mode) honly hset⟩
  | path text htext _ ih =>
      obtain ⟨hnone, hne, hset⟩ := (areSet_path p text _).1 hset
      exact (hp.read_path (.inr htext)).2 ⟨hnone, hne, ih (hp.path hne) honly hset⟩
  | paths texts =>
      have hready : { p with onlyPlain := true }.Ready := ⟨hp.pending, hp.path_ne⟩
      refine read_cons_eq_ok.2 ⟨_, take_separator honly (by decide +kernel), ?_⟩
      exact (hready.read_texts rfl texts).2 hset

-- The induction is on the number of arguments, since a colour mode may take two of them.
theorem Ready.exists_written {arguments : List String} (hp : p.Ready) (honly : p.onlyPlain = false)
    (h : p.read arguments = .ok options) :
    ∃ settings, Written arguments settings ∧ options.AreSet (p.settings ++ settings) := by
  induction hlength : arguments.length using Nat.strongRecOn generalizing p arguments with
  | ind length ih =>
  cases arguments with
  | nil =>
      rw [read_nil] at h
      exact ⟨[], .nil, (List.append_nil p.settings).symm ▸ hp.finish_eq_ok.1 h⟩
  | cons text rest =>
      have hshorter : rest.length < length := by
        rw [← hlength, List.length_cons]
        omega
      have hwrites := Argument.text_ofText text
      cases htext : Argument.ofText text with
      | separator =>
          obtain ⟨q, hq, hread⟩ := read_cons_eq_ok.1 h
          rw [take_separator honly htext] at hq
          cases hq
          have hready : { p with onlyPlain := true }.Ready := ⟨hp.pending, hp.path_ne⟩
          rw [htext] at hwrites
          rw [← hwrites]
          exact ⟨_, .paths rest, (hready.read_texts rfl rest).1 hread⟩
      | long name value =>
          rw [htext] at hwrites
          by_cases hname : name = ColorMode.optionName
          · subst hname
            cases value with
            | none =>
                obtain ⟨mode, later, rfl, hcolor, hread⟩ := (hp.read_colorNext honly htext).1 h
                obtain ⟨settings, hlater, hset⟩ := ih later.length (Nat.lt_of_succ_lt hshorter)
                  (hp.color mode) honly hread rfl
                rw [← hwrites]
                exact ⟨_, .colorNext mode hlater, (areSet_color p mode settings).2 ⟨hcolor, hset⟩⟩
            | some value =>
                obtain ⟨hcolor, mode, rfl, hread⟩ := (hp.read_color honly htext).1 h
                obtain ⟨settings, hrest, hset⟩ :=
                  ih rest.length hshorter (hp.color mode) honly hread rfl
                rw [← hwrites]
                exact ⟨_, .color mode hrest, (areSet_color p mode settings).2 ⟨hcolor, hset⟩⟩
          · obtain ⟨q, hq, hread⟩ := read_cons_eq_ok.1 h
            obtain ⟨s, rfl, rfl, hthrow⟩ := (hp.take_long_eq_ok honly htext hname).1 hq
            have hqonly : q.onlyPlain = p.onlyPlain := by rw [throwSwitch_frame hthrow]
            obtain ⟨settings, hrest, hset⟩ := ih rest.length hshorter (hp.throwSwitch hthrow)
              (hqonly.trans honly) hread rfl
            rw [← hwrites]
            exact ⟨_, .switch s hrest, (areSet_switch p s settings).2 ⟨q, hthrow, hset⟩⟩
      | short letters =>
          obtain ⟨q, hq, hread⟩ := read_cons_eq_ok.1 h
          obtain ⟨switches, hletters, hthrow⟩ := (hp.take_short_eq_ok honly htext).1 hq
          obtain ⟨hready, hqonly⟩ := hp.foldlM_throwSwitch hthrow
          obtain ⟨settings, hrest, hset⟩ :=
            ih rest.length hshorter hready (hqonly.trans honly) hread rfl
          rw [htext] at hwrites
          rw [← hwrites]
          exact ⟨_, .letters letters switches (Argument.ne_nil_of_ofText htext) hletters hrest,
            (areSet_switches p switches settings).2 ⟨q, hthrow, hset⟩⟩
      | plain other =>
          obtain ⟨hplain, rfl⟩ := Argument.ofText_eq_plain_iff.1 htext
          obtain ⟨hnone, hne, hread⟩ := (hp.read_path (.inr hplain)).1 h
          obtain ⟨settings, hrest, hset⟩ := ih rest.length hshorter (hp.path hne) honly hread rfl
          exact ⟨_, .path text hplain hrest, (areSet_path p text settings).2 ⟨hnone, hne, hset⟩⟩

end Parsing

/-- Arguments are read as options exactly if they write settings that are these options. -/
theorem Options.ofArguments_eq_ok_iff {arguments : List String} {options : Options} :
    ofArguments arguments = .ok options ↔
      ∃ settings, Written arguments settings ∧ options.AreSet settings := by
  have hready : ({} : Parsing).Ready := ⟨rfl, nofun⟩
  constructor
  · exact hready.exists_written rfl
  · rintro ⟨settings, hwritten, hset⟩
    exact hready.read_of_written rfl hwritten hset

example : Options.ofArguments ["-q", "--color", "never", "--dump", "dir"] =
    .ok ⟨"dir", true, false, true, .never⟩ := by
  rfl

end TreeAssay.Command
