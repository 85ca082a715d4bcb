import Mathlib.Data.Finset.Card
import Mathlib.Data.List.Induction
import TreeAssay.Proofs.Markup.Markers
/-!
# Written pairs are read back

Pairs that are written one behind the other are read back whatever their values hold, as long as
no value has a quote and no name has a space or a marker.  A name that is written twice keeps
its last value.
-/

namespace TreeAssay.Attributes

/-! ## The last value of a name -/

/-- The attributes give the last value that a name has in the pairs, and count its names. -/
structure KeepsLast (attrs : Attributes) (pairs : List (String × String)) : Prop where
  get?_eq : ∀ name value, attrs.get? name = some value ↔
    ∃ front back, pairs = front ++ (name, value) :: back ∧ ∀ pair ∈ back, pair.1 ≠ name
  size_eq : attrs.size = (pairs.map Prod.fst).toFinset.card

theorem nodup_eraseDups (names : List String) : names.eraseDups.Nodup := by
  cases names with
  | nil => exact List.nodup_nil
  | cons name names =>
      rw [List.eraseDups_cons, List.nodup_cons]
      exact ⟨by simp, nodup_eraseDups _⟩
termination_by names.length
decreasing_by exact Nat.lt_succ_of_le (List.length_filter_le _ _)

theorem length_eraseDups (names : List String) : names.eraseDups.length = names.toFinset.card := by
  rw [← List.toFinset_card_of_nodup (nodup_eraseDups names)]
  congr 1
  ext name
  simp

theorem keepsLast_reverse (pairs : List (String × String)) (malformed : Bool) :
    KeepsLast ⟨pairs.reverse, malformed⟩ pairs := by
  constructor
  · intro name value
    rw [get?, List.lookup_eq_some_iff]
    constructor
    · rintro ⟨front, back, hpairs, hfront⟩
      refine ⟨back.reverse, front.reverse, ?_, ?_⟩
      · have hreverse := congrArg List.reverse hpairs
        simpa using hreverse
      · intro pair hpair
        have hne := hfront pair (List.mem_reverse.1 hpair)
        exact fun hname => by simp [hname] at hne
    · rintro ⟨front, back, rfl, hback⟩
      refine ⟨back.reverse, front.reverse, by simp, ?_⟩
      intro pair hpair
      have hne := hback pair (List.mem_reverse.1 hpair)
      simpa using hne.symm
  · rw [size, length_eraseDups]
    congr 1
    ext name
    simp

/-! ## Pairs one behind the other -/

def written (pairs : List (String × String)) : List Char :=
  pairs.flatMap fun pair => pairChars pair.1 (some pair.2)

theorem written_concat (pairs : List (String × String)) (pair : String × String) :
    written (pairs ++ [pair]) = written pairs ++ pairChars pair.1 (some pair.2) := by
  simp [written]

/-- No name has a space or a marker, and no value has a quote. -/
def AreDecodable (pairs : List (String × String)) : Prop :=
  ∀ pair ∈ pairs, ' ' ∉ pair.1.toList ∧ ¬ HasMarker pair.1.toList ∧ '"' ∉ pair.2.toList

/-- The scan has read the pairs when it comes to their end.  As long as there are none it has not
come anywhere, and `front` is all of the head. -/
theorem exists_comes_written {head : List Char} (hhead : ¬ HasMarker head)
    {pairs : List (String × String)} (hpairs : AreDecodable pairs) (tail : List Char) :
    ∃ before front, Comes (head ++ written pairs ++ tail) before (front ++ tail) pairs ∧
      ¬ HasMarker front ∧ (front = [] ∨ pairs = [] ∧ front = head) := by
  induction pairs using List.reverseRecOn generalizing tail with
  | nil =>
      refine ⟨[], head, ?_, hhead, .inr ⟨rfl, rfl⟩⟩
      rw [written, List.flatMap_nil, List.append_nil]
      exact .start
  | append_singleton pairs pair ih =>
      obtain ⟨name, value⟩ := pair
      obtain ⟨hname, hmarker, hvalue⟩ := hpairs (name, value) (by simp)
      obtain ⟨before, front, hcomes, hfront, _⟩ :=
        ih (fun other hother => hpairs other (by simp [hother]))
          (pairChars name (some value) ++ tail)
      have hnext : ¬ HasMarker (front ++ ' ' :: name.toList) := by
        rw [hasMarker_append, hasMarker_cons]
        simp [hfront, hmarker]
      have hrest : front ++ (pairChars name (some value) ++ tail) =
          front ++ ' ' :: name.toList ++ '=' :: '"' :: (value.toList ++ '"' :: tail) := by
        simp [pairChars]
      have hsplit : before ++ (front ++ ' ' :: name.toList) =
          (before ++ front) ++ ' ' :: name.toList := by
        rw [List.append_assoc]
      rw [hrest] at hcomes
      have hpair := hcomes.pair hnext hsplit hname hvalue
      rw [String.ofList_toList, String.ofList_toList, ← List.append_assoc] at hpair
      rw [written_concat, ← List.append_assoc head]
      exact ⟨_, [], hpair, not_hasMarker_nil, .inl rfl⟩

/-- Between a head and a tail, the pairs are read back, each name with its last value.  A marker in
the tail breaks off the scan if no quote follows, which is told.  Where there are no pairs, no marker
may come about between the head and the tail. -/
theorem ofTag_written {head tail : List Char} (hhead : ¬ HasMarker head)
    {pairs : List (String × String)} (hpairs : AreDecodable pairs)
    (hcut : pairs = [] → head.getLast? = some '=' → tail.head? ≠ some '"') :
    let attrs := ofTag (head ++ written pairs ++ tail)
    (¬ HasMarker tail → attrs.KeepsLast pairs ∧ attrs.malformed = false) ∧
      ∀ front after, tail = front ++ '=' :: '"' :: after → ¬ HasMarker front → '"' ∉ after →
        attrs.KeepsLast pairs ∧ attrs.malformed = true := by
  intro attrs
  obtain ⟨before, behind, hcomes, hbehind, hwhere⟩ := exists_comes_written hhead hpairs tail
  have hmeet : behind.getLast? = some '=' → tail.head? ≠ some '"' := by
    rcases hwhere with rfl | ⟨hnone, rfl⟩
    · simp
    · exact hcut hnone
  have hattrs {malformed : Bool} (hends : Ends before (behind ++ tail) malformed) :
      attrs.KeepsLast pairs ∧ attrs.malformed = malformed := by
    have heq : attrs = ⟨pairs.reverse, malformed⟩ := hcomes.ofTag_of_ends hends
    rw [heq]
    exact ⟨keepsLast_reverse pairs malformed, rfl⟩
  constructor
  · intro htail
    refine hattrs (.done ?_)
    rw [hasMarker_append]
    rintro (h | h | ⟨hlast, hquote⟩)
    · exact hbehind h
    · exact htail h
    · exact hmeet hlast hquote
  · rintro front after rfl hfront hquote
    refine hattrs ?_
    rw [← List.append_assoc]
    refine .unclosed ?_ hquote
    rw [hasMarker_append]
    rintro (h | h | ⟨hlast, hhere⟩)
    · exact hbehind h
    · exact hfront h
    · refine hmeet hlast ?_
      rw [List.head?_append, hhere]
      rfl

/-- A name that is written twice, values that look like markup, and a last pair that is not
closed. -/
theorem ofTag_written_broken :
    let head := "<Node".toList
    let pairs := [("op", "Add"), ("x=", "</Node> y=z"), ("op", "")]
    let tail := " last=\"/>".toList
    ¬ HasMarker head ∧ AreDecodable pairs ∧ ¬ HasMarker "/>".toList ∧
      (ofTag (head ++ written pairs ++ tail)).malformed = true ∧
      (ofTag (head ++ written pairs ++ tail)).get? "op" = some "" ∧
      (ofTag (head ++ written pairs ++ "/>".toList)).malformed = false ∧
      (ofTag (head ++ written pairs ++ "/>".toList)).size = 2 := by
  intro head pairs tail
  have hhead : ¬ HasMarker head := by decide +kernel
  have hpairs : AreDecodable pairs := by
    unfold AreDecodable
    decide +kernel
  have hend : ¬ HasMarker "/>".toList := by decide +kernel
  have htail : tail = " last".toList ++ '=' :: '"' :: "/>".toList := by decide +kernel
  obtain ⟨hkept, hmalformed⟩ :=
    (ofTag_written hhead hpairs nofun).2 _ _ htail (by decide +kernel) (by decide +kernel)
  obtain ⟨hkept', hmalformed'⟩ := (ofTag_written hhead hpairs nofun).1 hend
  refine ⟨hhead, hpairs, hend, hmalformed, ?_, hmalformed', ?_⟩
  · exact (hkept.get?_eq "op" "").2 ⟨[("op", "Add"), ("x=", "</Node> y=z")], [], rfl, by simp⟩
  · exact hkept'.size_eq.trans (by decide +kernel)

/-- With no pairs between them, a head and a tail that have no marker can make one. -/
theorem marker_between :
    ¬ ∀ (head : List Char) (pairs : List (String × String)) (tail : List Char),
      ¬ HasMarker head → AreDecodable pairs → ¬ HasMarker tail →
        (ofTag (head ++ written pairs ++ tail)).KeepsLast pairs ∧
          (ofTag (head ++ written pairs ++ tail)).malformed = false := by
  intro h
  obtain ⟨hkept, _⟩ := h "<Node op=".toList [] "\"Add\"/>".toList (by decide +kernel)
    (by simp [AreDecodable]) (by decide +kernel)
  have hget : (ofTag ("<Node op=".toList ++ written [] ++ "\"Add\"/>".toList)).get? "op" =
      some "Add" := by
    decide +kernel
  obtain ⟨front, back, hnone, _⟩ := (hkept.get?_eq "op" "Add").1 hget
  simp at hnone

end TreeAssay.Attributes
