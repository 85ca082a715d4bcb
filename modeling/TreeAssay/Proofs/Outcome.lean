/-!
# Outcomes

What a mapped outcome says about the outcome that was mapped, and what a fold that gives
an outcome says about its first step, its last step and the step at which it fails.
-/

namespace TreeAssay

theorem map_eq_ok {ε α β : Type} {f : α → β} {x : Except ε α} {b : β} :
    f <$> x = .ok b ↔ ∃ a, x = .ok a ∧ f a = b := by
  cases x <;> simp [Functor.map, Except.map]

theorem map_eq_error {ε α β : Type} {f : α → β} {x : Except ε α} {error : ε} :
    f <$> x = .error error ↔ x = .error error := by
  cases x <;> simp [Functor.map, Except.map]

theorem toOption_eq_some {ε α : Type} {x : Except ε α} {a : α} :
    x.toOption = some a ↔ x = .ok a := by
  cases x <;> simp [Except.toOption]

theorem exists_eq_ok {ε α : Type} {x : Except ε α} (h : x.toOption.isSome) : ∃ a, x = .ok a := by
  cases x with
  | error error => cases h
  | ok a => exact ⟨a, rfl⟩

theorem exists_eq_error {ε α : Type} {x : Except ε α} (h : x.toOption.isNone) :
    ∃ error, x = .error error := by
  cases x with
  | error error => exact ⟨error, rfl⟩
  | ok a => cases h

theorem ok_bind {ε α β : Type} (a : α) (f : α → Except ε β) : (.ok a >>= f) = f a := rfl

theorem bind_eq_ok {ε α β : Type} {x : Except ε α} {f : α → Except ε β} {b : β} :
    (x >>= f) = .ok b ↔ ∃ a, x = .ok a ∧ f a = .ok b := by
  cases x <;> simp [bind, Except.bind]

theorem bind_eq_error {ε α β : Type} {x : Except ε α} {f : α → Except ε β} {error : ε} :
    (x >>= f) = .error error ↔ x = .error error ∨ ∃ a, x = .ok a ∧ f a = .error error := by
  cases x <;> simp [bind, Except.bind]

theorem foldlM_cons_eq_ok {ε α β : Type} {f : β → α → Except ε β} {a : α} {rest : List α}
    {init result : β} :
    (a :: rest).foldlM f init = .ok result ↔
      ∃ next, f init a = .ok next ∧ rest.foldlM f next = .ok result := by
  rw [List.foldlM_cons]
  cases hstep : f init a with
  | error error =>
      constructor
      · intro h
        cases h
      · rintro ⟨next, hnext, _⟩
        cases hnext
  | ok next =>
      constructor
      · intro h
        exact ⟨next, rfl, h⟩
      · rintro ⟨_, hnext, h⟩
        cases hnext
        exact h

theorem foldlM_append_of_ok {ε α β : Type} {f : β → α → Except ε β} {front : List α}
    {init next : β} (h : front.foldlM f init = .ok next) (back : List α) :
    (front ++ back).foldlM f init = back.foldlM f next := by
  rw [List.foldlM_append, h]
  rfl

theorem foldlM_append_of_error {ε α β : Type} {f : β → α → Except ε β} {front : List α}
    {init : β} {error : ε} (h : front.foldlM f init = .error error) (back : List α) :
    (front ++ back).foldlM f init = .error error := by
  rw [List.foldlM_append, h]
  rfl

theorem foldlM_concat_eq_ok {ε α β : Type} {f : β → α → Except ε β} {front : List α} {a : α}
    {init result : β} :
    (front ++ [a]).foldlM f init = .ok result ↔
      ∃ next, front.foldlM f init = .ok next ∧ f next a = .ok result := by
  rw [List.foldlM_append]
  cases hfront : front.foldlM f init with
  | error error =>
      constructor
      · intro h
        cases h
      · rintro ⟨_, hnext, _⟩
        cases hnext
  | ok next =>
      change [a].foldlM f next = .ok result ↔ _
      rw [foldlM_cons_eq_ok]
      constructor
      · rintro ⟨_, ha, ⟨⟩⟩
        exact ⟨next, rfl, ha⟩
      · rintro ⟨_, ⟨⟩, ha⟩
        exact ⟨result, ha, rfl⟩

/-- A fold fails at the first step that does, whatever would come after it. -/
theorem foldlM_eq_error {ε α β : Type} {f : β → α → Except ε β} {row : List α} {init : β}
    {error : ε} :
    row.foldlM f init = .error error ↔
      ∃ front a back next, row = front ++ a :: back ∧ front.foldlM f init = .ok next ∧
        f next a = .error error := by
  constructor
  · intro h
    induction row generalizing init with
    | nil => cases h
    | cons a row ih =>
        rw [List.foldlM_cons] at h
        cases ha : f init a with
        | error other =>
            rw [ha] at h
            cases h
            exact ⟨[], a, row, init, rfl, rfl, ha⟩
        | ok next =>
            rw [ha] at h
            obtain ⟨front, b, back, last, rfl, hfront, hb⟩ := ih h
            exact ⟨a :: front, b, back, last, rfl, foldlM_cons_eq_ok.2 ⟨next, ha, hfront⟩, hb⟩
  · rintro ⟨front, a, back, next, rfl, hfront, ha⟩
    rw [foldlM_append_of_ok hfront, List.foldlM_cons, ha]
    rfl

end TreeAssay
