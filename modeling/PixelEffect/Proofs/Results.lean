namespace PixelEffect.Except

variable {ε α β : Type}

/-- Two steps yield a result exactly if both of them do. -/
theorem bind_eq_ok {x : Except ε α} {f : α → Except ε β} {b : β} :
    (x >>= f) = .ok b ↔ ∃ a, x = .ok a ∧ f a = .ok b := by
  cases x with
  | error e => simp [bind, Except.bind]
  | ok a => exact ⟨fun h => ⟨a, rfl, h⟩, fun ⟨_, hx, h⟩ => by cases hx; exact h⟩

/-- Two steps fail exactly where one of them fails that is reached. -/
theorem bind_eq_error {x : Except ε α} {f : α → Except ε β} {e : ε} :
    (x >>= f) = .error e ↔ x = .error e ∨ ∃ a, x = .ok a ∧ f a = .error e := by
  cases x with
  | error e' => simp [bind, Except.bind]
  | ok a => simp [bind, Except.bind]

theorem map_eq_ok {x : Except ε α} {f : α → β} {b : β} :
    f <$> x = .ok b ↔ ∃ a, x = .ok a ∧ f a = b := by
  cases x with
  | error e => simp [Functor.map, Except.map]
  | ok a => simp [Functor.map, Except.map]

theorem map_eq_error {x : Except ε α} {f : α → β} {e : ε} :
    f <$> x = .error e ↔ x = .error e := by
  cases x with
  | error e' => simp [Functor.map, Except.map]
  | ok a => simp [Functor.map, Except.map]

/-- A test of a result that turns out well has a result to be about. -/
theorem exists_ok_of_any {x : Except ε α} {p : α → Bool} (h : x.toOption.any p) :
    ∃ a, x = .ok a ∧ p a := by
  cases x with
  | error e => cases h
  | ok a => exact ⟨a, rfl, h⟩

/-- What each step of a loop preserves holds behind the loop, of everything that was looped over. -/
theorem foldlM_invariant {f : β → α → Except ε β} {xs : List α} {start last : β}
    (motive : List α → β → Prop) (hstart : motive [] start)
    (hstep : ∀ done x b next, x ∈ xs → motive done b → f b x = .ok next → motive (done ++ [x]) next)
    (h : xs.foldlM f start = .ok last) : motive xs last := by
  suffices hrest : ∀ rest done b, done ++ rest = xs → motive done b →
      rest.foldlM f b = .ok last → motive xs last from hrest xs [] start rfl hstart h
  intro rest
  induction rest with
  | nil =>
    intro done b hdone hb hrun
    cases hrun
    rw [← hdone, List.append_nil]
    exact hb
  | cons x rest ih =>
    intro done b hdone hb hrun
    rw [List.foldlM_cons, bind_eq_ok] at hrun
    obtain ⟨next, hnext, hrun⟩ := hrun
    have hmem : x ∈ xs := by
      rw [← hdone]
      simp
    exact ih (done ++ [x]) next (by rw [List.append_assoc]; exact hdone)
      (hstep done x b next hmem hb hnext) hrun

/-- A loop breaks off at the first step that does. -/
theorem foldlM_eq_error {f : β → α → Except ε β} {xs : List α} {start : β} {e : ε} :
    xs.foldlM f start = .error e ↔ ∃ done x rest b, xs = done ++ x :: rest ∧
      done.foldlM f start = .ok b ∧ f b x = .error e := by
  induction xs generalizing start with
  | nil => exact ⟨fun h => (by cases h), fun ⟨done, _, _, _, h, _⟩ => (by cases done <;> cases h)⟩
  | cons y ys ih =>
    rw [List.foldlM_cons, bind_eq_error]
    constructor
    · rintro (h | ⟨b, hb, h⟩)
      · exact ⟨[], y, ys, start, rfl, rfl, h⟩
      · obtain ⟨done, x, rest, b', rfl, hdone, hx⟩ := ih.mp h
        refine ⟨y :: done, x, rest, b', rfl, ?_, hx⟩
        rw [List.foldlM_cons, hb]
        exact hdone
    · rintro ⟨done, x, rest, b, hxs, hdone, hx⟩
      cases done with
      | nil =>
        cases hxs
        cases hdone
        exact .inl hx
      | cons z done =>
        cases hxs
        rw [List.foldlM_cons, bind_eq_ok] at hdone
        obtain ⟨b', hb', hdone⟩ := hdone
        exact .inr ⟨b', hb', ih.mpr ⟨done, x, rest, b, rfl, hdone, hx⟩⟩

end PixelEffect.Except
