import TreeAssay.Command.Options
import TreeAssay.Proofs.Outcome
/-!
# Settings

An argument, or an argument and its value, writes a setting; letters behind one dash write one
switch each.  Settings are options if none of them comes twice and one is a path that is not empty,
in whatever order they come.  What has been set so far and the settings that follow are options
exactly if the next of them can be set and what is set then and the others are.
-/

namespace TreeAssay.Command

/-! ## Single arguments -/

namespace Argument

/-- An argument as it is written. -/
def text : Argument → String
  | separator => "--"
  | long name none => "--" ++ name
  | long name (some value) => "--" ++ name ++ "=" ++ value
  | short letters => String.ofList ('-' :: letters)
  | plain text => text

theorem text_ofText (text : String) : (ofText text).text = text := by
  rw [← String.toList_inj]
  unfold ofText
  split
  next h =>
    rw [h]
    rfl
  next rest _ h =>
    have hrest := List.takeWhile_append_dropWhile (p := (· ≠ '=')) (l := rest)
    have hhead := List.head?_dropWhile_not (· ≠ '=') rest
    dsimp only
    generalize rest.takeWhile (· ≠ '=') = name at hrest ⊢
    generalize rest.dropWhile (· ≠ '=') = tail at hrest hhead ⊢
    subst hrest
    cases tail with
    | nil => simp [Argument.text, h]
    | cons c value =>
        have hc : c = '=' := by simpa using hhead
        simp [Argument.text, h, hc]
  next letter letters _ h => simp [Argument.text, h]
  next => rfl

/-- A text that is no option: it does not begin with a dash, or is nothing else. -/
def IsPlain (text : String) : Prop :=
  text = "-" ∨ text.toList.head? ≠ some '-'

theorem ofText_eq_plain_iff {text other : String} :
    ofText text = plain other ↔ IsPlain text ∧ text = other := by
  unfold ofText IsPlain
  split
  next h => simp [← String.toList_inj, h]
  next rest _ h =>
    dsimp only
    cases rest.dropWhile (· ≠ '=') <;> simp [← String.toList_inj, h]
  next letter letters _ h => simp [← String.toList_inj, h]
  next hseparator hlong hshort =>
    have hplain : text = "-" ∨ text.toList.head? ≠ some '-' := by
      rw [← String.toList_inj]
      rcases hlist : text.toList with _ | ⟨first, _ | ⟨second, rest⟩⟩
      · exact .inr nofun
      · by_cases hfirst : first = '-'
        · exact .inl (by rw [hfirst]; rfl)
        · exact .inr (by simpa using hfirst)
      · refine .inr fun hfirst => ?_
        rw [Option.some.inj hfirst] at hlist
        exact hshort second rest hlist
    simp [hplain]

theorem ofText_letters {letters : List Char} {switches : List Switch} (hne : letters ≠ [])
    (h : switches.map Switch.letter? = letters.map some) :
    ofText (String.ofList ('-' :: letters)) = short letters := by
  obtain _ | ⟨letter, letters⟩ := letters
  · exact absurd rfl hne
  obtain _ | ⟨s, switches⟩ := switches
  · cases h
  -- No switch has a dash as its letter, so there are not two dashes.
  have hletter : letter ≠ '-' := by
    rintro rfl
    have hs := (List.cons.inj h).1
    cases s <;> simp [Switch.letter?] at hs
  unfold ofText
  rw [String.toList_ofList]
  split
  next heq => simp_all
  next heq => simp_all
  next heq => simp_all
  next hshort => exact absurd rfl (hshort letter letters)

theorem ne_nil_of_ofText {text : String} {letters : List Char} (h : ofText text = short letters) :
    letters ≠ [] := by
  unfold ofText at h
  split at h
  next => cases h
  next rest _ _ =>
    dsimp only at h
    cases hvalue : rest.dropWhile (· ≠ '=') <;> rw [hvalue] at h <;> cases h
  next =>
    cases h
    exact List.cons_ne_nil _ _
  next => cases h

theorem ofText_switch (switch : Switch) : ofText ("--" ++ switch.name) = long switch.name none := by
  cases switch <;> decide +kernel

theorem ofText_color (mode : ColorMode) :
    ofText ("--color=" ++ mode.name) = long ColorMode.optionName (some mode.name) := by
  cases mode <;> decide +kernel

theorem ofText_mode (mode : ColorMode) : ofText mode.name = plain mode.name := by
  cases mode <;> decide +kernel

end Argument

theorem Switch.ofName?_eq_some {name : String} {switch : Switch} :
    ofName? name = some switch ↔ switch.name = name := by
  constructor
  · intro h
    simpa using List.find?_some h
  · rintro rfl
    cases switch <;> decide +kernel

theorem Switch.ofLetter?_eq_some {letter : Char} {switch : Switch} :
    ofLetter? letter = some switch ↔ switch.letter? = some letter := by
  constructor
  · intro h
    simpa using List.find?_some h
  · intro h
    cases switch <;> cases h <;> decide +kernel

theorem ColorMode.ofName?_eq_some {name : String} {mode : ColorMode} :
    ofName? name = some mode ↔ mode.name = name := by
  constructor
  · intro h
    simpa using List.find?_some h
  · rintro rfl
    cases mode <;> decide +kernel

/-! ## Settings -/

inductive Setting
  | switch (switch : Switch)
  | color (mode : ColorMode)
  | path (text : String)
  deriving DecidableEq, Repr

namespace Setting

def color? : Setting → Option ColorMode
  | color mode => some mode
  | _ => none

def path? : Setting → Option String
  | path text => some text
  | _ => none

/-- The arguments write the settings, in their order. -/
inductive Written : List String → List Setting → Prop
  | nil : Written [] []
  /-- Two dashes and the name of a switch. -/
  | switch {rest settings} (s : Switch) :
      Written rest settings → Written (("--" ++ s.name) :: rest) (.switch s :: settings)
  /-- A dash and the letters of switches. -/
  | letters {rest settings} (letters : List Char) (switches : List Switch) (hne : letters ≠ [])
      (h : switches.map Switch.letter? = letters.map some) :
      Written rest settings →
        Written (String.ofList ('-' :: letters) :: rest) (switches.map .switch ++ settings)
  /-- The colour mode behind an equals sign. -/
  | color {rest settings} (mode : ColorMode) :
      Written rest settings → Written (("--color=" ++ mode.name) :: rest) (.color mode :: settings)
  /-- The colour mode as the next argument. -/
  | colorNext {rest settings} (mode : ColorMode) :
      Written rest settings → Written ("--color" :: mode.name :: rest) (.color mode :: settings)
  | path {rest settings} (text : String) (h : Argument.IsPlain text) :
      Written rest settings → Written (text :: rest) (.path text :: settings)
  /-- After two dashes, whatever comes is a path. -/
  | paths (texts : List String) : Written ("--" :: texts) (texts.map .path)

end Setting

open Setting

def Options.switch (options : Options) : Switch → Bool
  | .quiet => options.quiet
  | .verbose => options.verbose
  | .dump => options.dump
  | .help | .version => false

/-- The options are these settings: no switch comes twice, the colour mode at most once, and one
path. -/
structure Options.AreSet (options : Options) (settings : List Setting) : Prop where
  switches : ∀ s, settings.count (.switch s) = (options.switch s).toNat
  color : settings.filterMap color? = [options.color] ∨
    settings.filterMap color? = [] ∧ options.color = .auto
  path : settings.filterMap path? = [options.path]
  path_ne : options.path ≠ ""

theorem Options.areSet_congr {options : Options} {settings others : List Setting}
    (hswitches : ∀ s, settings.count (.switch s) = others.count (.switch s))
    (hcolor : settings.filterMap color? = others.filterMap color?)
    (hpath : settings.filterMap path? = others.filterMap path?) :
    options.AreSet settings ↔ options.AreSet others := by
  constructor
  · intro h
    exact ⟨fun s => hswitches s ▸ h.switches s, hcolor ▸ h.color, hpath ▸ h.path, h.path_ne⟩
  · intro h
    exact ⟨fun s => hswitches s ▸ h.switches s, hcolor ▸ h.color, hpath ▸ h.path, h.path_ne⟩

namespace Parsing

variable {p q : Parsing} {text : String} {rest : List String} {options : Options}

/-! ## One setting after another -/

def switch (p : Parsing) : Switch → Bool
  | .quiet => p.quiet
  | .verbose => p.verbose
  | .dump => p.dump
  | .help | .version => false

/-- What has been set. -/
def settings (p : Parsing) : List Setting :=
  (Switch.all.filter p.switch).map .switch ++ p.color.toList.map .color ++ p.path.toList.map .path

theorem count_settings (p : Parsing) (s : Switch) :
    p.settings.count (.switch s) = (p.switch s).toNat := by
  have hcolor : (p.color.toList.map Setting.color).count (.switch s) = 0 := by
    simp [List.count_eq_zero]
  have hpath : (p.path.toList.map Setting.path).count (.switch s) = 0 := by
    simp [List.count_eq_zero]
  rw [settings, List.count_append, List.count_append, hcolor, hpath]
  obtain ⟨path, quiet, verbose, dump, color, pending, onlyPlain⟩ := p
  cases s <;> cases quiet <;> cases verbose <;> cases dump <;> rfl

theorem filterMap_color? (p : Parsing) : p.settings.filterMap color? = p.color.toList := by
  have hswitches : ((Switch.all.filter p.switch).map Setting.switch).filterMap color? = [] := by
    simp [List.filterMap_eq_nil_iff, color?]
  have hpath : (p.path.toList.map Setting.path).filterMap color? = [] := by
    simp [List.filterMap_eq_nil_iff, color?]
  rw [settings, List.filterMap_append, List.filterMap_append, hswitches, hpath]
  simp [List.filterMap_map, Function.comp_def, color?]

theorem filterMap_path? (p : Parsing) : p.settings.filterMap path? = p.path.toList := by
  have hswitches : ((Switch.all.filter p.switch).map Setting.switch).filterMap path? = [] := by
    simp [List.filterMap_eq_nil_iff, path?]
  have hcolor : (p.color.toList.map Setting.color).filterMap path? = [] := by
    simp [List.filterMap_eq_nil_iff, path?]
  rw [settings, List.filterMap_append, List.filterMap_append, hswitches, hcolor]
  simp [List.filterMap_map, Function.comp_def, path?]

/-- Throwing a switch changes nothing but switches. -/
theorem throwSwitch_frame {s : Switch} (h : p.throwSwitch s = .ok q) :
    q = { p with quiet := q.quiet, verbose := q.verbose, dump := q.dump } := by
  obtain ⟨path, quiet, verbose, dump, color, pending, onlyPlain⟩ := p
  cases s with
  | quiet =>
      cases quiet <;> cases h
      rfl
  | verbose =>
      cases verbose <;> cases h
      rfl
  | dump =>
      cases dump <;> cases h
      rfl
  | help => cases h
  | version => cases h

/-- A switch is thrown if it was not before. -/
theorem throwSwitch_cases (p : Parsing) (s : Switch) :
    (∃ q, p.throwSwitch s = .ok q ∧
      ∀ other, (q.switch other).toNat = (p.switch other).toNat + if s = other then 1 else 0) ∨
    (∃ refusal, p.throwSwitch s = .error refusal) ∧
      (p.switch s = true ∨ s = .help ∨ s = .version) := by
  obtain ⟨path, quiet, verbose, dump, color, pending, onlyPlain⟩ := p
  cases s with
  | quiet =>
      cases quiet with
      | true => exact .inr ⟨⟨_, rfl⟩, .inl rfl⟩
      | false => exact .inl ⟨_, rfl, fun other => by cases other <;> rfl⟩
  | verbose =>
      cases verbose with
      | true => exact .inr ⟨⟨_, rfl⟩, .inl rfl⟩
      | false => exact .inl ⟨_, rfl, fun other => by cases other <;> rfl⟩
  | dump =>
      cases dump with
      | true => exact .inr ⟨⟨_, rfl⟩, .inl rfl⟩
      | false => exact .inl ⟨_, rfl, fun other => by cases other <;> rfl⟩
  | help => exact .inr ⟨⟨_, rfl⟩, .inr (.inl rfl)⟩
  | version => exact .inr ⟨⟨_, rfl⟩, .inr (.inr rfl)⟩

theorem areSet_switch (p : Parsing) (s : Switch) (later : List Setting) :
    options.AreSet (p.settings ++ .switch s :: later) ↔
      ∃ q, p.throwSwitch s = .ok q ∧ options.AreSet (q.settings ++ later) := by
  rcases p.throwSwitch_cases s with ⟨q, hq, hswitch⟩ | ⟨⟨refusal, hrefusal⟩, hs⟩
  · have hcolor : q.color = p.color := by rw [throwSwitch_frame hq]
    have hpath : q.path = p.path := by rw [throwSwitch_frame hq]
    rw [hq]
    simp only [Except.ok.injEq, exists_eq_left']
    apply Options.areSet_congr
    · intro other
      simp only [List.count_append, List.count_cons, count_settings, hswitch]
      by_cases h : s = other
      · simp only [h, beq_self_eq_true, if_true]
        omega
      · simp [h]
    · simp [filterMap_color?, hcolor, List.filterMap_cons, color?]
    · simp [filterMap_path?, hpath, List.filterMap_cons, path?]
  · rw [hrefusal]
    simp only [reduceCtorEq, false_and, exists_false, iff_false]
    intro hset
    have hcount := hset.switches s
    rw [List.count_append, List.count_cons_self, count_settings] at hcount
    rcases hs with hs | rfl | rfl
    · rw [hs] at hcount
      have := (options.switch s).toNat_le
      simp only [Bool.toNat_true] at hcount
      omega
    · simp [Options.switch] at hcount
    · simp [Options.switch] at hcount

theorem areSet_switches (p : Parsing) (switches : List Switch) (later : List Setting) :
    options.AreSet (p.settings ++ (switches.map .switch ++ later)) ↔
      ∃ q, switches.foldlM throwSwitch p = .ok q ∧ options.AreSet (q.settings ++ later) := by
  induction switches generalizing p with
  | nil => simp [pure, Except.pure]
  | cons s switches ih =>
      rw [List.map_cons, List.cons_append, areSet_switch]
      simp only [ih, foldlM_cons_eq_ok]
      constructor
      · rintro ⟨q, hq, q', hq', hset⟩
        exact ⟨q', ⟨q, hq, hq'⟩, hset⟩
      · rintro ⟨q', ⟨q, hq, hq'⟩, hset⟩
        exact ⟨q, hq, q', hq', hset⟩

theorem setColor_eq_ok {value : String} :
    p.setColor value = .ok q ↔
      p.color = none ∧ ∃ mode : ColorMode, mode.name = value ∧ q = { p with color := some mode } := by
  simp only [← ColorMode.ofName?_eq_some]
  unfold setColor
  cases p.color with
  | some mode => simp
  | none => cases ColorMode.ofName? value <;> simp [eq_comm]

theorem areSet_color (p : Parsing) (mode : ColorMode) (later : List Setting) :
    options.AreSet (p.settings ++ .color mode :: later) ↔
      p.color = none ∧ options.AreSet ({ p with color := some mode }.settings ++ later) := by
  cases hcolor : p.color with
  | none =>
      simp only [true_and]
      apply Options.areSet_congr
      · intro s
        simp only [List.count_append, List.count_cons, count_settings]
        rfl
      · simp [filterMap_color?, hcolor, color?]
      · simp [filterMap_path?, List.filterMap_cons, path?]
  | some known =>
      simp only [reduceCtorEq, false_and, iff_false]
      intro hset
      have hmodes : (p.settings ++ .color mode :: later).filterMap color? =
          known :: mode :: later.filterMap color? := by
        simp [filterMap_color?, hcolor, color?]
      rcases hset.color with h | ⟨h, _⟩
      · rw [hmodes] at h
        cases h
      · rw [hmodes] at h
        cases h

theorem areSet_path (p : Parsing) (text : String) (later : List Setting) :
    options.AreSet (p.settings ++ .path text :: later) ↔
      p.path = none ∧ text ≠ "" ∧
        options.AreSet ({ p with path := some text }.settings ++ later) := by
  have hpaths : (p.settings ++ .path text :: later).filterMap path? =
      p.path.toList ++ text :: later.filterMap path? := by
    simp [filterMap_path?, path?]
  cases hpath : p.path with
  | none =>
      have hiff : options.AreSet (p.settings ++ .path text :: later) ↔
          options.AreSet ({ p with path := some text }.settings ++ later) := by
        apply Options.areSet_congr
        · intro s
          simp only [List.count_append, List.count_cons, count_settings]
          rfl
        · simp [filterMap_color?, List.filterMap_cons, color?]
        · simp [filterMap_path?, hpath, path?]
      rw [← hiff]
      simp only [true_and]
      refine ⟨fun hset => ⟨?_, hset⟩, And.right⟩
      have htext := hset.path
      rw [hpaths, hpath] at htext
      rw [(List.cons.inj htext).1]
      exact hset.path_ne
  | some known =>
      simp only [reduceCtorEq, false_and, iff_false]
      intro hset
      have htext := hset.path
      rw [hpaths, hpath] at htext
      cases htext

end Parsing

end TreeAssay.Command
