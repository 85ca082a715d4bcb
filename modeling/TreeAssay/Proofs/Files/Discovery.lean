import Mathlib.Data.List.Lex
import Mathlib.Data.List.Perm.Basic
import TreeAssay.Proofs.Files.Loading
/-!
# Discovery in any order

A walk may meet what lies below a directory in any order.  What is found there is always the same
list: the names in a path tell apart what lies below the directory, and sorting by these names
leaves one order only.
-/

namespace TreeAssay

/-! ## The names in a joined path -/

namespace Path

/-- The text can be the name of something in a directory. -/
structure IsName (name : String) : Prop where
  ne_empty : name ≠ ""
  ne_dot : name ≠ "."
  slash : '/' ∉ name.toList

instance (name : String) : Decidable (IsName name) :=
  decidable_of_iff (name ≠ "" ∧ name ≠ "." ∧ '/' ∉ name.toList)
    ⟨fun h => ⟨h.1, h.2.1, h.2.2⟩, fun h => ⟨h.ne_empty, h.ne_dot, h.slash⟩⟩

theorem parts_slash (back : List Char) : parts ('/' :: back) = [] :: parts back := rfl

theorem parts_cons {c : Char} (hc : c ≠ '/') {text part : List Char} {more : List (List Char)}
    (h : parts text = part :: more) : parts (c :: text) = (c :: part) :: more := by
  rw [parts.eq_3 c text (fun heq => hc heq), h]

theorem parts_of_not_mem {text : List Char} (h : '/' ∉ text) : parts text = [text] := by
  induction text with
  | nil => rfl
  | cons c text ih =>
      rw [List.mem_cons, not_or] at h
      exact parts_cons (Ne.symm h.1) (ih h.2)

theorem exists_parts (text : List Char) : ∃ part more, parts text = part :: more := by
  induction text with
  | nil => exact ⟨[], [], rfl⟩
  | cons c text ih =>
      obtain ⟨part, more, htext⟩ := ih
      by_cases hc : c = '/'
      · subst hc
        exact ⟨[], parts text, rfl⟩
      · exact ⟨c :: part, more, parts_cons hc htext⟩

/-- A slash parts what is before it from what is behind it. -/
theorem parts_append_slash (front back : List Char) :
    parts (front ++ '/' :: back) = parts front ++ parts back := by
  induction front with
  | nil => rfl
  | cons c front ih =>
      by_cases hc : c = '/'
      · subst hc
        rw [List.cons_append, parts_slash, ih, parts_slash, List.cons_append]
      · obtain ⟨part, more, hfront⟩ := exists_parts front
        rw [hfront, List.cons_append] at ih
        rw [List.cons_append, parts_cons hc ih, parts_cons hc hfront, List.cons_append]

theorem names_append_slash (directory back : String) :
    names (directory ++ "/" ++ back) = names directory ++ names back := by
  have htext : (directory ++ "/" ++ back).toList = directory.toList ++ '/' :: back.toList := by
    rw [String.toList_append, String.toList_append, List.append_assoc]
    rfl
  rw [names, htext, parts_append_slash, List.filter_append, List.map_append, names, names]

theorem names_of_isName {name : String} (h : IsName name) : names name = [name] := by
  have hempty : name.toList ≠ [] := fun heq => h.ne_empty (String.toList_eq_nil_iff.1 heq)
  have hdot : name.toList ≠ ['.'] := by
    intro heq
    exact h.ne_dot (String.toList_inj.1 heq)
  rw [names, parts_of_not_mem h.slash, List.filter_cons_of_pos (by simp [hempty, hdot])]
  rw [List.filter_nil, List.map_cons, List.map_nil, String.ofList_toList]

/-- A path that is joined ends in the name that it is joined with. -/
theorem names_join {name : String} (h : IsName name) (directory : String) :
    names (join directory name) = names directory ++ [name] := by
  rw [← names_of_isName h, join]
  split
  next hdirectory =>
    rcases hdirectory with rfl | hslash
    · rw [String.empty_append]
      rfl
    · obtain ⟨above, habove⟩ := List.getLast?_eq_some_iff.1 hslash
      have hsplit : directory = String.ofList above ++ "/" := by
        rw [← String.ofList_toList (s := directory), habove, String.ofList_append]
      have hbare : names directory = names (String.ofList above) := by
        rw [hsplit, ← String.append_empty (s := String.ofList above ++ "/"), names_append_slash]
        exact List.append_nil _
      rw [hbare, hsplit, names_append_slash]
  next => exact names_append_slash directory name

theorem names_route {route : List String} (h : ∀ name ∈ route, IsName name) (directory : String) :
    names (route.foldl join directory) = names directory ++ route := by
  induction route generalizing directory with
  | nil => exact (List.append_nil _).symm
  | cons name route ih =>
      rw [List.forall_mem_cons] at h
      rw [List.foldl_cons, ih h.2, names_join h.1, List.append_assoc, List.singleton_append]

/-- A path is that of a suite by its last name: there is something before the extension. -/
theorem isSuite_iff {path : String} :
    isSuite path = true ↔ ∃ stem, stem ≠ "" ∧ (names path).getLast? = some (stem ++ ".xml") := by
  rw [isSuite]
  cases (names path).getLast? with
  | none => simp
  | some name =>
      rw [Option.any_some, Bool.and_eq_true, decide_eq_true_iff, List.isSuffixOf_iff_suffix]
      constructor
      · rintro ⟨⟨front, hfront⟩, hname⟩
        have hstem : name = String.ofList front ++ ".xml" := by
          rw [← String.ofList_toList (s := name), ← hfront, String.ofList_append]
          rfl
        refine ⟨String.ofList front, ?_, by rw [hstem]⟩
        intro hempty
        rw [hempty, String.empty_append] at hstem
        exact hname hstem
      · rintro ⟨stem, hstem, hname⟩
        rw [Option.some.inj hname, String.toList_append]
        refine ⟨⟨stem.toList, rfl⟩, ?_⟩
        intro heq
        exact hstem (String.append_left_inj ".xml" |>.1 heq)

/-! ## Sorting -/

theorem pairwise_lt_mergeSort {paths : List String}
    (h : paths.Pairwise fun a b => names a ≠ names b) :
    (paths.mergeSort le).Pairwise fun a b => names a < names b := by
  have hne : (paths.mergeSort le).Pairwise fun a b => names a ≠ names b :=
    h.perm (List.mergeSort_perm paths le).symm Ne.symm
  exact (pairwise_mergeSort paths).imp₂ (fun _ _ => lt_of_le_of_ne) hne

/-- Paths that are told apart by their names have one order only. -/
theorem mergeSort_eq_of_perm {paths others : List String}
    (h : paths.Pairwise fun a b => names a ≠ names b) (hperm : others.Perm paths) :
    others.mergeSort le = paths.mergeSort le := by
  have hothers : others.Pairwise fun a b => names a ≠ names b := h.perm hperm.symm Ne.symm
  have hsorted : (others.mergeSort le).Perm (paths.mergeSort le) :=
    (List.mergeSort_perm others le).trans (hperm.trans (List.mergeSort_perm paths le).symm)
  refine hsorted.eq_of_pairwise ?_ (pairwise_lt_mergeSort hothers) (pairwise_lt_mergeSort h)
  intro a b _ _ hab hba
  exact absurd hba (lt_asymm hab)

end Path

/-! ## What a walk reports -/

/-- Outcomes are all of something, or there is a first that failed. -/
theorem mapM_id_cases {ε α : Type} (outcomes : List (Except ε α)) :
    (∃ found, outcomes = found.map .ok ∧ outcomes.mapM id = .ok found) ∨
      ∃ (front : List α) (fault : ε) (back : List (Except ε α)),
        outcomes = front.map .ok ++ .error fault :: back ∧ outcomes.mapM id = .error fault := by
  induction outcomes with
  | nil => exact .inl ⟨[], rfl, rfl⟩
  | cons outcome outcomes ih =>
      rw [List.mapM_cons]
      cases outcome with
      | error fault => exact .inr ⟨[], fault, outcomes, rfl, rfl⟩
      | ok a =>
          rcases ih with ⟨found, hall, hresult⟩ | ⟨front, fault, back, hfirst, hresult⟩
          · exact .inl ⟨a :: found, by rw [hall]; rfl, by rw [hresult]; rfl⟩
          · exact .inr ⟨a :: front, fault, back, by rw [hfirst]; rfl, by rw [hresult]; rfl⟩

namespace FileSystem

variable {files : FileSystem} {root path : String}

/-- What lies below a directory: the names that lead to each thing from there, and whether it is
a file itself.  No two things lie under the same names. -/
structure Listing where
  items : List (List String × Bool)
  distinct : items.Pairwise fun a b => a.1 ≠ b.1
  named : ∀ item ∈ items, item.1 ≠ [] ∧ ∀ name ∈ item.1, Path.IsName name

namespace Listing

variable (listing : Listing)

/-- The directory, and each thing below it. -/
def entries (root : String) : List FileEntry :=
  ⟨root, false⟩ :: listing.items.map fun item => ⟨item.1.foldl Path.join root, item.2⟩

theorem names_item {item : List String × Bool} (h : item ∈ listing.items) (root : String) :
    Path.names (item.1.foldl Path.join root) = Path.names root ++ item.1 :=
  Path.names_route (listing.named item h).2 root

/-- The names in their paths tell the entries apart. -/
theorem pairwise_entries (root : String) :
    (listing.entries root).Pairwise fun a b => Path.names a.path ≠ Path.names b.path := by
  rw [entries, List.pairwise_cons, List.pairwise_map]
  constructor
  · intro entry hentry
    obtain ⟨item, hitem, rfl⟩ := List.mem_map.1 hentry
    rw [listing.names_item hitem]
    exact fun heq => (listing.named item hitem).1 (List.self_eq_append_right.1 heq)
  · refine listing.distinct.imp_of_mem fun {a b} ha hb hab => ?_
    rw [listing.names_item ha, listing.names_item hb]
    exact fun heq => hab (List.append_cancel_left heq)

theorem pairwise_suites (root : String) :
    (suites (listing.entries root)).Pairwise fun a b => Path.names a ≠ Path.names b :=
  List.pairwise_map.2 ((listing.pairwise_entries root).filter _)

/-- The suites below a directory are the files whose last name is that of a suite. -/
theorem mem_suites :
    path ∈ suites (listing.entries root) ↔
      ∃ route stem, (route ++ [stem ++ ".xml"], true) ∈ listing.items ∧ stem ≠ "" ∧
        path = (route ++ [stem ++ ".xml"]).foldl Path.join root := by
  have hmem : path ∈ suites (listing.entries root) ↔
      ∃ item ∈ listing.items, item.2 = true ∧ Path.isSuite (item.1.foldl Path.join root) = true ∧
        item.1.foldl Path.join root = path := by
    simp only [suites, entries, List.mem_map, List.mem_filter, List.mem_cons, Bool.and_eq_true]
    constructor
    · rintro ⟨entry, ⟨rfl | ⟨item, hitem, rfl⟩, hregular, hsuite⟩, hpath⟩
      · cases hregular
      · exact ⟨item, hitem, hregular, hsuite, hpath⟩
    · rintro ⟨item, hitem, hregular, hsuite, hpath⟩
      exact ⟨_, ⟨.inr ⟨item, hitem, rfl⟩, hregular, hsuite⟩, hpath⟩
  rw [hmem]
  constructor
  · rintro ⟨⟨names, regular⟩, hitem, rfl, hsuite, rfl⟩
    obtain ⟨stem, hstem, hlast⟩ := Path.isSuite_iff.1 hsuite
    rw [listing.names_item hitem root,
      List.getLast?_append_of_ne_nil _ (listing.named _ hitem).1] at hlast
    obtain ⟨route, rfl⟩ := List.getLast?_eq_some_iff.1 hlast
    exact ⟨route, stem, hitem, hstem, rfl⟩
  · rintro ⟨route, stem, hitem, hstem, rfl⟩
    refine ⟨_, hitem, rfl, Path.isSuite_iff.2 ⟨stem, hstem, ?_⟩, rfl⟩
    rw [listing.names_item hitem root, ← List.append_assoc, List.getLast?_concat]

end Listing

/-! ## What is found -/

theorem discover_of_ok {entries : List FileEntry} (hroot : files.isFile root = false)
    (hwalk : (files.walk root).mapM id = .ok entries) :
    files.discover root = .ok ((suites entries).mergeSort Path.le) := by
  rw [discover, hroot, hwalk]
  rfl

theorem discover_of_error {message : String} (hroot : files.isFile root = false)
    (hwalk : (files.walk root).mapM id = .error message) :
    files.discover root = .error (.unreadable root message) := by
  rw [discover, hroot, hwalk]
  rfl

/-- The order in which the directory is walked does not show in what is found. -/
theorem Listing.discover_eq (listing : Listing) (hroot : files.isFile root = false)
    (hwalk : (files.walk root).Perm ((listing.entries root).map .ok)) :
    files.discover root = .ok ((suites (listing.entries root)).mergeSort Path.le) := by
  rcases mapM_id_cases (files.walk root) with ⟨entries, hall, hresult⟩ | ⟨front, fault, back, h, _⟩
  · rw [hall, List.map_perm_map_iff fun _ _ => Except.ok.inj] at hwalk
    have hsuites : (suites entries).Perm (suites (listing.entries root)) :=
      (hwalk.filter _).map _
    rw [discover_of_ok hroot hresult,
      Path.mergeSort_eq_of_perm (listing.pairwise_suites root) hsuites]
  · have hfault : .error fault ∈ files.walk root := by simp [h]
    obtain ⟨_, _, heq⟩ := List.mem_map.1 (hwalk.mem_iff.1 hfault)
    cases heq

/-- For what lies below a directory there is one list that every walk finds: the files whose last
name ends in the extension and is more than that, in the strict order of the names on the way.
A walk with a fault finds nothing, and blames the directory; a file is found as it is. -/
theorem discover_any_order (root : String) :
    (∀ listing : Listing, ∃ paths : List String,
      (∀ path, path ∈ paths ↔ ∃ route stem, (route ++ [stem ++ ".xml"], true) ∈ listing.items ∧
        stem ≠ "" ∧ path = (route ++ [stem ++ ".xml"]).foldl Path.join root) ∧
      (paths.Pairwise fun a b => Path.names a < Path.names b) ∧
      ∀ files : FileSystem, files.isFile root = false →
        (files.walk root).Perm ((listing.entries root).map .ok) →
        files.discover root = .ok paths) ∧
    (∀ files : FileSystem, files.isFile root = false →
      (∃ message, .error message ∈ files.walk root) →
      ∃ (front : List FileEntry) (message : String) (back : List (Except String FileEntry)),
        files.walk root = front.map .ok ++ .error message :: back ∧
        files.discover root = .error (.unreadable root message)) ∧
    ∀ files : FileSystem, files.isFile root = true → files.discover root = .ok [root] := by
  refine ⟨fun listing => ?_, fun files hroot hfault => ?_, fun files hroot => ?_⟩
  · refine ⟨(suites (listing.entries root)).mergeSort Path.le, fun path => ?_,
      Path.pairwise_lt_mergeSort (listing.pairwise_suites root), fun files => listing.discover_eq⟩
    rw [List.mem_mergeSort]
    exact listing.mem_suites
  · obtain ⟨fault, hfault⟩ := hfault
    rcases mapM_id_cases (files.walk root) with
      ⟨entries, hall, _⟩ | ⟨front, first, back, h, hresult⟩
    · rw [hall] at hfault
      obtain ⟨_, _, heq⟩ := List.mem_map.1 hfault
      cases heq
    · exact ⟨front, first, back, h, discover_of_error hroot hresult⟩
  · rw [discover, hroot]
    rfl

/-- A file `a-.xml` beside a directory `a` with a file in it, and nothing else that is found. -/
def Listing.hyphen : Listing where
  items := [(["c.xml"], false), ([".xml"], true), (["a"], false), (["a-.xml"], true),
    (["a", "b.xml"], true), (["B.XML"], true)]
  distinct := by decide
  named := by decide

/-- A file system in which all paths are files or none is, and in which every walk is the same. -/
def walked (isFile : Bool) (walk : List (Except String FileEntry)) : FileSystem :=
  ⟨fun _ => isFile, fun _ => walk, fun _ => .error "unknown"⟩

theorem discover_any_order_hyphen :
    (walked false ((Listing.hyphen.entries "r").map .ok)).discover "r" =
        .ok ["r/a/b.xml", "r/a-.xml"] ∧
      (walked false ((Listing.hyphen.entries "r").reverse.map .ok)).discover "r" =
        .ok ["r/a/b.xml", "r/a-.xml"] ∧
      "r/a-.xml" < "r/a/b.xml" ∧
      (∃ message, (walked false [.ok ⟨"r", false⟩, .error "r/a is gone"]).discover "r" =
        .error (.unreadable "r" message)) ∧
      (walked true []).discover "notes.txt" = .ok ["notes.txt"] := by
  obtain ⟨paths, _, _, hall⟩ := (discover_any_order "r").1 .hyphen
  have hforth := hall (walked false ((Listing.hyphen.entries "r").map .ok)) rfl (List.Perm.refl _)
  have hback := hall (walked false ((Listing.hyphen.entries "r").reverse.map .ok)) rfl
    ((List.reverse_perm _).map _)
  have hsuites : suites (Listing.hyphen.entries "r").reverse = ["r/a/b.xml", "r/a-.xml"] := by
    decide
  have hsorted : (walked false ((Listing.hyphen.entries "r").reverse.map .ok)).discover "r" =
      .ok ((suites (Listing.hyphen.entries "r").reverse).mergeSort Path.le) :=
    discover_of_ok rfl rfl
  rw [hsuites, List.mergeSort_of_pairwise (by decide), hback, Except.ok.injEq] at hsorted
  subst hsorted
  refine ⟨hforth, hback, by decide, ?_, (discover_any_order "notes.txt").2.2 _ rfl⟩
  obtain ⟨_, message, _, _, hfault⟩ := (discover_any_order "r").2.1
    (walked false [.ok ⟨"r", false⟩, .error "r/a is gone"]) rfl ⟨_, .tail _ (.head _)⟩
  exact ⟨message, hfault⟩

end FileSystem

end TreeAssay
