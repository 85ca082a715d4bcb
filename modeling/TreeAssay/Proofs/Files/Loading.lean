import Mathlib.Data.List.Forall2
import Mathlib.Data.List.Lex
import Mathlib.Data.String.Basic
import TreeAssay.Files.Collect
import TreeAssay.Proofs.Outcome
/-!
# All the suites or none

What a file holds, and why it is refused, is told of that file alone.  Loading everything under a
path then fails as the first file that is refused does, or comes to what all the files hold, one
after the other.
-/

namespace TreeAssay

/-! ## The order of paths -/

namespace Path

theorem nameBefore_iff {a b : String} : nameBefore a b = true ↔ a < b := by
  have hchar : (fun c d : Char => decide (c.toNat < d.toNat) = true) = fun c d => c < d := by
    funext c d
    rw [decide_eq_true_iff]
    rfl
  rw [nameBefore, List.lex_eq_true_iff_lex, String.lt_iff_toList_lt, hchar]
  exact (List.lt_iff_lex_lt _ _).symm

theorem le_iff {a b : String} : le a b = true ↔ names a ≤ names b := by
  have hname : (fun c d => nameBefore c d = true) = fun c d => c < d := by
    funext c d
    rw [nameBefore_iff]
  rw [le, Bool.not_eq_true', ← Bool.not_eq_true, List.lex_eq_true_iff_lex, hname, ← not_lt]
  exact not_congr (List.lt_iff_lex_lt _ _).symm

theorem pairwise_mergeSort (paths : List String) :
    (paths.mergeSort le).Pairwise fun a b => names a ≤ names b := by
  have htrans (a b c : String) (hab : le a b = true) (hbc : le b c = true) : le a c = true :=
    le_iff.2 ((le_iff.1 hab).trans (le_iff.1 hbc))
  have htotal (a b : String) : (le a b || le b a) = true := by
    rw [Bool.or_eq_true, le_iff, le_iff]
    exact le_total _ _
  exact (List.pairwise_mergeSort htrans htotal paths).imp le_iff.1

end Path

namespace FileSystem

variable {files : FileSystem} {root path : String}

/-- Suites are found in the order of the names that lead to them. -/
theorem pairwise_discover {paths : List String} (h : files.discover root = .ok paths) :
    paths.Pairwise fun a b => Path.names a ≤ Path.names b := by
  rw [discover] at h
  split at h
  next =>
    cases h
    exact List.pairwise_singleton _ _
  next =>
    split at h
    next => cases h
    next entries _ =>
      cases h
      exact Path.pairwise_mergeSort _

/-! ## A single file -/

/-- The bytes of the file are a text, and the text is a suite. -/
inductive Holds (files : FileSystem) (path : String) : Suite.Loaded → Prop
  | suite {text : String} {loaded} : files.read path = .ok text.toUTF8 →
      Suite.load ⟨path, text⟩ = .ok loaded → Holds files path loaded

/-- The file cannot be read, its bytes are no text, or the text is no suite. -/
inductive Refuses (files : FileSystem) (path : String) : LoadError → Prop
  | unreadable {message} : files.read path = .error message →
      Refuses files path (.unreadable path message)
  | undecodable {bytes} : files.read path = .ok bytes → (∀ text : String, text.toUTF8 ≠ bytes) →
      Refuses files path (.unreadable path "stream did not contain valid UTF-8")
  | rejected {text : String} {rejection} : files.read path = .ok text.toUTF8 →
      Suite.load ⟨path, text⟩ = .error rejection → Refuses files path rejection.error

theorem fromUTF8?_eq_some {bytes : ByteArray} {text : String} :
    String.fromUTF8? bytes = some text ↔ text.toUTF8 = bytes := by
  unfold String.fromUTF8?
  constructor
  · intro h
    split at h
    next =>
      cases h
      rfl
    next => cases h
  · rintro rfl
    split
    next => rfl
    next h => exact absurd text.isValidUTF8 h

theorem readText_of_read {text : String} (h : files.read path = .ok text.toUTF8) :
    files.readText path = .ok text := by
  rw [readText, h]
  simp only
  rw [fromUTF8?_eq_some.2 rfl]

theorem loadFile_of_holds {loaded : Suite.Loaded} (h : files.Holds path loaded) :
    files.loadFile path = .ok loaded := by
  obtain ⟨hread, hload⟩ := h
  rw [loadFile, readText_of_read hread]
  exact hload

theorem loadFile_of_refuses {error : LoadError} (h : files.Refuses path error) :
    ∃ warnings, files.loadFile path = .error ⟨error, warnings⟩ := by
  rw [loadFile]
  cases h with
  | unreadable hread =>
      rw [readText, hread]
      exact ⟨[], rfl⟩
  | @undecodable bytes hread hnot =>
      have hnone : String.fromUTF8? bytes = none := by
        rw [Option.eq_none_iff_forall_not_mem]
        exact fun text htext => hnot text (fromUTF8?_eq_some.1 htext)
      rw [readText, hread]
      simp only [hnone]
      exact ⟨[], rfl⟩
  | rejected hread hload =>
      rw [readText_of_read hread]
      exact ⟨_, hload⟩

/-- A file holds a suite, or there is a reason to refuse it. -/
theorem holds_or_refuses (files : FileSystem) (path : String) :
    (∃ loaded, files.Holds path loaded) ∨ ∃ error, files.Refuses path error := by
  cases hread : files.read path with
  | error message => exact .inr ⟨_, .unreadable hread⟩
  | ok bytes =>
      by_cases htext : ∃ text : String, text.toUTF8 = bytes
      · obtain ⟨text, rfl⟩ := htext
        cases hload : Suite.load ⟨path, text⟩ with
        | error rejection => exact .inr ⟨_, .rejected hread hload⟩
        | ok loaded => exact .inl ⟨loaded, .suite hread hload⟩
      · exact .inr ⟨_, .undecodable hread (not_exists.1 htext)⟩

/-! ## All the files -/

/-- The first failure under a path is that of the discovery, or that of a file which is refused
while every file before it holds a suite. -/
inductive FailsFirst (files : FileSystem) (root : String) : LoadError → Prop
  | discovery {error} : files.discover root = .error error → FailsFirst files root error
  | file {front path back loads error} : files.discover root = .ok (front ++ path :: back) →
      List.Forall₂ files.Holds front loads → files.Refuses path error →
      FailsFirst files root error

/-- Everything under a path is found, and every file holds a suite. -/
def HoldsAll (files : FileSystem) (root : String) (loads : List Suite.Loaded) : Prop :=
  ∃ paths, files.discover root = .ok paths ∧ List.Forall₂ files.Holds paths loads

theorem failsFirst_or_holdsAll (files : FileSystem) (root : String) :
    (∃ error, files.FailsFirst root error) ∨ ∃ loads, files.HoldsAll root loads := by
  have hpaths (paths : List String) :
      (∃ front path back loads error, paths = front ++ path :: back ∧
        List.Forall₂ files.Holds front loads ∧ files.Refuses path error) ∨
      ∃ loads, List.Forall₂ files.Holds paths loads := by
    induction paths with
    | nil => exact .inr ⟨[], .nil⟩
    | cons path paths ih =>
        rcases holds_or_refuses files path with ⟨loaded, hloaded⟩ | ⟨error, herror⟩
        · rcases ih with ⟨front, later, back, loads, error, rfl, hfront, herror⟩ | ⟨loads, hloads⟩
          · exact .inl ⟨path :: front, later, back, loaded :: loads, error, rfl,
              .cons hloaded hfront, herror⟩
          · exact .inr ⟨loaded :: loads, .cons hloaded hloads⟩
        · exact .inl ⟨[], path, paths, [], error, rfl, .nil, herror⟩
  cases hdiscover : files.discover root with
  | error error => exact .inl ⟨error, .discovery hdiscover⟩
  | ok paths =>
      rcases hpaths paths with ⟨front, path, back, loads, error, rfl, hfront, herror⟩ | ⟨loads, h⟩
      · exact .inl ⟨error, .file hdiscover hfront herror⟩
      · exact .inr ⟨loads, paths, hdiscover, h⟩

theorem foldlM_loadNext {paths : List String} {loads : List Suite.Loaded}
    (h : List.Forall₂ files.Holds paths loads) (loaded : Suite.Loaded) :
    paths.foldlM files.loadNext loaded =
      .ok ⟨loaded.testcases ++ loads.flatMap (·.testcases),
        loaded.warnings ++ loads.flatMap (·.warnings)⟩ := by
  induction h generalizing loaded with
  | nil =>
      rw [List.foldlM_nil, List.flatMap_nil, List.flatMap_nil, List.append_nil, List.append_nil]
      rfl
  | @cons path next paths loads hnext _ ih =>
      have hstep : files.loadNext loaded path =
          .ok ⟨loaded.testcases ++ next.testcases, loaded.warnings ++ next.warnings⟩ := by
        rw [loadNext, loadFile_of_holds hnext]
      rw [List.foldlM_cons, hstep, ok_bind, ih, List.flatMap_cons, List.flatMap_cons,
        List.append_assoc, List.append_assoc]

theorem load_of_holdsAll {loads : List Suite.Loaded} (h : files.HoldsAll root loads) :
    files.load root = .ok ⟨loads.flatMap (·.testcases), loads.flatMap (·.warnings)⟩ := by
  obtain ⟨paths, hdiscover, hholds⟩ := h
  rw [load, hdiscover]
  exact foldlM_loadNext hholds ⟨[], []⟩

theorem load_of_failsFirst {error : LoadError} (h : files.FailsFirst root error) :
    ∃ warnings, files.load root = .error ⟨error, warnings⟩ := by
  rw [load]
  cases h with
  | discovery hdiscover =>
      rw [hdiscover]
      exact ⟨[], rfl⟩
  | file hdiscover hfront hrefuses =>
      obtain ⟨warnings, hload⟩ := loadFile_of_refuses hrefuses
      rw [hdiscover]
      dsimp only
      rw [foldlM_append_of_ok (foldlM_loadNext hfront ⟨[], []⟩), List.foldlM_cons, loadNext, hload]
      exact ⟨_, rfl⟩

end FileSystem

end TreeAssay
