import TreeAssay.Text.Lines
/-!
# Where lines stand

A text that ends with a line feed is cut apart from what stands behind it: the lines of
both together are those of the first and, moved by its line feeds and bytes, those of the
second.  So each line stands between line feeds, behind as many of them as its number
tells and behind the bytes that its offset counts.
-/

namespace TreeAssay

namespace Line

open TreeAssay.Text

/-! ## Cutting -/

theorem cut_done (done : List (List Char)) (current text : List Char) :
    cut done current text = done.reverse ++ cut [] current text := by
  induction text generalizing done current with
  | nil =>
      cases current with
      | nil => exact (List.append_nil _).symm
      | cons c current =>
          simp only [cut, List.isEmpty_cons, Bool.false_eq_true, if_false, List.reverse_cons,
            List.reverse_nil, List.nil_append]
  | cons c text ih =>
      by_cases hc : c = '\n'
      · subst hc
        rw [cut, cut, ih, ih [_], List.reverse_cons, List.append_assoc]
        rfl
      · rw [cut, cut, ih]
        · exact hc
        · exact hc

theorem cut_feed (front current back : List Char) :
    cut [] current (front ++ '\n' :: back) =
      cut [] current (front ++ ['\n']) ++ pieces back := by
  induction front generalizing current with
  | nil =>
      rw [List.nil_append, List.nil_append, cut, cut, cut_done]
      rfl
  | cons c front ih =>
      rw [List.cons_append, List.cons_append]
      by_cases hc : c = '\n'
      · subst hc
        rw [cut, cut, cut_done, ih, cut_done [_] [] (front ++ ['\n']), List.append_assoc]
      · rw [cut, cut, ih]
        · exact hc
        · exact hc

/-- The text is empty or ends with a line feed. -/
def Ended (text : List Char) : Prop :=
  text = [] ∨ ∃ front, text = front ++ ['\n']

theorem ended_feed (front : List Char) : Ended (front ++ ['\n']) := .inr ⟨front, rfl⟩

theorem Ended.append {front back : List Char} (hfront : Ended front) (hback : Ended back) :
    Ended (front ++ back) := by
  rcases hback with rfl | ⟨text, rfl⟩
  · rwa [List.append_nil]
  · rw [← List.append_assoc]
    exact ended_feed _

theorem pieces_append {front : List Char} (hfront : Ended front) (back : List Char) :
    pieces (front ++ back) = pieces front ++ pieces back := by
  rcases hfront with rfl | ⟨text, rfl⟩
  · rfl
  · rw [List.append_assoc]
    exact cut_feed text [] back

theorem cut_single {body : List Char} (h : '\n' ∉ body) (current : List Char)
    (hne : body ++ current ≠ []) :
    cut [] current body = [current.reverse ++ body] ∧
      cut [] current (body ++ ['\n']) = [current.reverse ++ body ++ ['\n']] := by
  induction body generalizing current with
  | nil => cases current <;> simp [cut] at hne ⊢
  | cons c body ih =>
      have hc : c ≠ '\n' := by
        rintro rfl
        simp at h
      have hbody : '\n' ∉ body := fun hmem => h (by simp [hmem])
      obtain ⟨hlast, hfeed⟩ := ih hbody (c :: current) (by simp)
      rw [List.reverse_cons, List.append_assoc, List.singleton_append] at hlast
      rw [List.reverse_cons, List.append_assoc current.reverse, List.singleton_append] at hfeed
      rw [List.cons_append, cut, cut, hlast, hfeed]
      · exact ⟨rfl, rfl⟩
      · exact hc
      · exact hc

theorem pieces_feed {body : List Char} (h : '\n' ∉ body) :
    pieces (body ++ ['\n']) = [body ++ ['\n']] := by
  by_cases hne : body = []
  · subst hne
    rfl
  · exact (cut_single h [] (by simpa using hne)).2

theorem pieces_last {body : List Char} (h : '\n' ∉ body) (hne : body ≠ []) :
    pieces body = [body] :=
  (cut_single h [] (by simpa using hne)).1

/-- A text is a last line without a line feed, or a line, its line feed and a text. -/
theorem feed_induction {P : List Char → Prop} (hlast : ∀ body, '\n' ∉ body → P body)
    (hfeed : ∀ body rest, '\n' ∉ body → P rest → P (body ++ '\n' :: rest)) (text : List Char) :
    P text := by
  induction hlength : text.length using Nat.strongRecOn generalizing text with
  | ind n ih =>
      by_cases hmem : '\n' ∈ text
      · obtain ⟨body, rest, rfl, hbody⟩ := List.eq_append_cons_of_mem hmem
        have hlt : rest.length < n := by
          rw [← hlength, List.length_append, List.length_cons]
          omega
        exact hfeed body rest hbody (ih _ hlt rest rfl)
      · exact hlast text hmem

theorem pieces_cons {body : List Char} (h : '\n' ∉ body) (rest : List Char) :
    pieces (body ++ '\n' :: rest) = (body ++ ['\n']) :: pieces rest := by
  have happend := pieces_append (ended_feed body) rest
  rwa [pieces_feed h, List.append_assoc] at happend

theorem flatten_pieces (text : List Char) : (pieces text).flatten = text := by
  induction text using feed_induction with
  | hlast body h =>
      by_cases hne : body = []
      · subst hne
        rfl
      · rw [pieces_last h hne, List.flatten_singleton]
  | hfeed body rest h ih =>
      rw [pieces_cons h, List.flatten_cons, ih, List.append_assoc, List.singleton_append]

theorem length_pieces {text : List Char} (h : Ended text) :
    (pieces text).length = text.count '\n' := by
  rcases h with rfl | ⟨front, rfl⟩
  · rfl
  · induction front using feed_induction with
    | hlast body h =>
        rw [pieces_feed h, List.count_append, List.count_eq_zero.2 h]
        rfl
    | hfeed body rest h ih =>
        have hcount : (body ++ '\n' :: (rest ++ ['\n'])).count '\n' =
            (rest ++ ['\n']).count '\n' + 1 := by
          rw [List.count_append, List.count_eq_zero.2 h, List.count_cons_self, Nat.zero_add]
        rw [List.append_assoc, List.cons_append, pieces_cons h, List.length_cons, ih, hcount]

/-! ## Places -/

/-- The line, moved behind so many lines and bytes. -/
def shift (lines bytes : Nat) (line : Line) : Line :=
  ⟨line.number + lines, line.offset + bytes, line.text⟩

theorem locate_done (number offset : Nat) (done : List Line) (rows : List (List Char)) :
    locate number offset done rows = done.reverse ++ locate number offset [] rows := by
  induction rows generalizing number offset done with
  | nil => exact (List.append_nil _).symm
  | cons row rows ih =>
      rw [locate, locate, ih, ih _ _ [_], List.reverse_cons, List.append_assoc]
      rfl

theorem locate_append (number offset : Nat) (front back : List (List Char)) :
    locate number offset [] (front ++ back) = locate number offset [] front ++
      locate (number + front.length) (offset + byteLength front.flatten) [] back := by
  induction front generalizing number offset with
  | nil => rfl
  | cons row front ih =>
      have hnumber : number + (front.length + 1) = number + 1 + front.length := by omega
      rw [List.cons_append, locate, locate, locate_done, ih, locate_done _ _ [_] front,
        List.append_assoc, List.length_cons, List.flatten_cons, byteLength_append, hnumber,
        Nat.add_assoc offset]

theorem locate_shift (number offset lines bytes : Nat) (rows : List (List Char)) :
    locate (number + lines) (offset + bytes) [] rows =
      (locate number offset [] rows).map (shift lines bytes) := by
  induction rows generalizing number offset with
  | nil => rfl
  | cons row rows ih =>
      rw [locate, locate, locate_done, locate_done _ _ [_], List.map_append, ← ih,
        Nat.add_right_comm number, Nat.add_right_comm offset]
      rfl

/-- Behind a text that is empty or ends with a line feed stand the lines of the other text. -/
theorem ofText_append {front : List Char} (hfront : Ended front) (back : List Char) :
    ofText (front ++ back) =
      ofText front ++ (ofText back).map (shift (front.count '\n') (byteLength front)) := by
  rw [ofText, pieces_append hfront, locate_append, flatten_pieces, length_pieces hfront,
    locate_shift]
  rfl

theorem ofText_feed {body : List Char} (h : '\n' ∉ body) :
    ofText (body ++ ['\n']) = [⟨1, 0, trimEnd (body ++ ['\n'])⟩] := by
  rw [ofText, pieces_feed h]
  rfl

theorem trimEnd_append {body ending : List Char} (hbody : ∀ c ∈ body.getLast?, ¬ isEnd c)
    (hending : ∀ c ∈ ending, isEnd c) : trimEnd (body ++ ending) = body := by
  have hreverse : ∀ c ∈ ending.reverse, isEnd c = true := by simpa using hending
  rw [trimEnd, List.reverse_append, List.dropWhile_append_of_pos hreverse]
  cases hrows : body.reverse with
  | nil =>
      rw [List.dropWhile_nil, ← hrows, List.reverse_reverse]
  | cons c rest =>
      have hlast : c ∈ body.getLast? := by
        rw [← List.head?_reverse, hrows]
        rfl
      rw [List.dropWhile_cons_of_neg (by simpa using hbody c hlast), ← hrows, List.reverse_reverse]

/-- A line that does not end with a carriage return may be ended with one. -/
theorem ofText_ended {body ending : List Char} (hbody : '\n' ∉ body)
    (hlast : ∀ c ∈ body.getLast?, ¬ isEnd c)
    (hending : ending = ['\n'] ∨ ending = ['\r', '\n']) :
    ofText (body ++ ending) = [⟨1, 0, body⟩] := by
  rcases hending with rfl | rfl
  · rw [ofText_feed hbody, trimEnd_append hlast (List.all_eq_true.1 rfl)]
  · have hreturn : '\n' ∉ body ++ ['\r'] := by simpa using hbody
    have hfeed := ofText_feed hreturn
    rwa [List.append_assoc, List.singleton_append,
      trimEnd_append hlast (List.all_eq_true.1 rfl)] at hfeed

/-- The line is what stands in the text behind `front` and ahead of `back`: no line feed is
in it, but around it there are line feeds or the ends of the text. -/
structure Stands (line : Line) (text front whole back : List Char) : Prop where
  text_eq : text = front ++ whole ++ back
  first : Ended front
  last : back = [] ∨ ∃ rest, back = '\n' :: rest
  single : '\n' ∉ whole
  number : line.number = front.count '\n' + 1
  offset : line.offset = byteLength front
  trimmed : ∃ ending, whole = line.text ++ ending ∧ ∀ c ∈ ending, isEnd c

theorem exists_trimEnd (piece : List Char) :
    ∃ ending, piece = trimEnd piece ++ ending ∧ ∀ c ∈ ending, isEnd c := by
  refine ⟨(piece.reverse.takeWhile isEnd).reverse, ?_, ?_⟩
  · rw [trimEnd, ← List.reverse_append, List.takeWhile_append_dropWhile, List.reverse_reverse]
  · intro c hc
    rw [List.mem_reverse] at hc
    exact List.all_eq_true.1 List.all_takeWhile c hc

theorem trimEnd_ending {ending : List Char} (hending : ∀ c ∈ ending, isEnd c) (body : List Char) :
    trimEnd (body ++ ending) = trimEnd body := by
  rw [trimEnd, trimEnd, List.reverse_append, List.dropWhile_append_of_pos (by simpa using hending)]

theorem trimEnd_feed (body : List Char) : trimEnd (body ++ ['\n']) = trimEnd body :=
  trimEnd_ending (by simp [isEnd]) body

theorem ofText_last {body : List Char} (h : '\n' ∉ body) (hne : body ≠ []) :
    ofText body = [⟨1, 0, trimEnd body⟩] := by
  rw [ofText, pieces_last h hne]
  rfl

theorem ofText_cons {body : List Char} (h : '\n' ∉ body) (rest : List Char) :
    ofText (body ++ '\n' :: rest) = ⟨1, 0, trimEnd body⟩ ::
      (ofText rest).map (shift 1 (byteLength (body ++ ['\n']))) := by
  have happend := ofText_append (ended_feed body) rest
  rwa [List.append_assoc, List.singleton_append, ofText_feed h, trimEnd_feed, List.count_append,
    List.count_eq_zero.2 h] at happend

theorem stands_single {body back : List Char} (h : '\n' ∉ body)
    (hback : back = [] ∨ ∃ rest, back = '\n' :: rest) :
    Stands ⟨1, 0, trimEnd body⟩ (body ++ back) [] body back where
  text_eq := rfl
  first := .inl rfl
  last := hback
  single := h
  number := rfl
  offset := rfl
  trimmed := exists_trimEnd body

theorem Stands.behind {line : Line} {text front whole back : List Char}
    (h : line.Stands text front whole back) {body : List Char} (hbody : '\n' ∉ body) :
    (line.shift 1 (byteLength (body ++ ['\n']))).Stands (body ++ '\n' :: text)
      (body ++ ['\n'] ++ front) whole back where
  text_eq := by
    rw [h.text_eq]
    simp only [List.append_assoc, List.cons_append, List.nil_append]
  first := (ended_feed body).append h.first
  last := h.last
  single := h.single
  number := by
    rw [List.count_append, List.count_append, List.count_eq_zero.2 hbody, shift, h.number]
    simp only [List.count_singleton_self]
    omega
  offset := by
    rw [byteLength_append _ front, ← h.offset, Nat.add_comm]
    rfl
  trimmed := h.trimmed

/-- Every line stands somewhere in the text. -/
theorem exists_stands {text : List Char} {line : Line} (h : line ∈ ofText text) :
    ∃ front whole back, line.Stands text front whole back := by
  induction text using feed_induction generalizing line with
  | hlast body hbody =>
      by_cases hne : body = []
      · subst hne
        cases h
      · rw [ofText_last hbody hne] at h
        obtain rfl := List.mem_singleton.1 h
        have hstands := stands_single hbody (.inl rfl)
        rw [List.append_nil] at hstands
        exact ⟨_, _, _, hstands⟩
  | hfeed body rest hbody ih =>
      rw [ofText_cons hbody, List.mem_cons] at h
      rcases h with rfl | h
      · exact ⟨_, _, _, stands_single hbody (.inr ⟨rest, rfl⟩)⟩
      · obtain ⟨other, hother, rfl⟩ := List.mem_map.1 h
        obtain ⟨front, whole, back, hstands⟩ := ih hother
        exact ⟨_, _, _, hstands.behind hbody⟩

end Line

end TreeAssay
