import PixelEffect.Node.Attach
import PixelEffect.Proofs.Results

namespace PixelEffect

namespace Build

variable {α β : Type}

/-- A computation in two parts yields a result exactly if its parts do. -/
theorem run_bind_eq_ok {x : Build α} {f : α → Build β} {id last : NodeId} {b : β} :
    (x >>= f).run id = .ok (b, last) ↔
      ∃ a next, x.run id = .ok (a, next) ∧ (f a).run next = .ok (b, last) := by
  rw [StateT.run_bind]
  cases hx : x.run id with
  | error e => simp [bind, Except.bind]
  | ok out =>
    obtain ⟨a, next⟩ := out
    constructor
    · exact fun h => ⟨a, next, rfl, h⟩
    · rintro ⟨_, _, ⟨⟩, h⟩
      exact h

/-- Where the first part yields a result, the rest goes on from there. -/
theorem run_bind_of_ok {x : Build α} {id next : NodeId} {a : α} (h : x.run id = .ok (a, next))
    (f : α → Build β) : (x >>= f).run id = (f a).run next := by
  rw [StateT.run_bind, h]
  rfl

/-- A computation in two parts breaks off in the first part or behind it. -/
theorem run_bind_eq_error {x : Build α} {f : α → Build β} {id : NodeId} {e : Failure} :
    (x >>= f).run id = .error e ↔
      x.run id = .error e ∨ ∃ a next, x.run id = .ok (a, next) ∧ (f a).run next = .error e := by
  rw [StateT.run_bind, Except.bind_eq_error]
  simp only [Prod.exists]

theorem run_map_eq_ok {x : Build α} {f : α → β} {id last : NodeId} {b : β} :
    (f <$> x).run id = .ok (b, last) ↔ ∃ a, x.run id = .ok (a, last) ∧ f a = b := by
  rw [StateT.run_map]
  cases hx : x.run id with
  | error e => simp [Functor.map, Except.map]
  | ok out =>
    obtain ⟨a, next⟩ := out
    simp only [Functor.map, Except.map, Except.ok.injEq, Prod.mk.injEq]
    constructor
    · rintro ⟨rfl, rfl⟩
      exact ⟨a, ⟨rfl, rfl⟩, rfl⟩
    · rintro ⟨c, ⟨rfl, rfl⟩, rfl⟩
      exact ⟨rfl, rfl⟩

theorem run_pure_eq_ok {id last : NodeId} {a b : α} :
    (pure a : Build α).run id = .ok (b, last) ↔ a = b ∧ id = last := by
  rw [StateT.run_pure]
  simp [pure, Except.pure]

/-- A computation that creates nothing hands out no identities. -/
theorem run_ofExcept_eq_ok {x : Except Error α} {id last : NodeId} {a : α} :
    (ofExcept x).run id = .ok (a, last) ↔ x = .ok a ∧ id = last := by
  cases x with
  | ok b => rw [ofExcept, run_pure_eq_ok, Except.ok.injEq]
  | error e => exact ⟨fun h => (by cases h), fun h => (by cases h.1)⟩

/-- An error that is returned breaks no rule of the library. -/
theorem run_ofExcept_ne_violation {x : Except Error α} {id : NodeId} {v : Violation} :
    (ofExcept x).run id ≠ .error (.violation v) := by
  cases x <;> exact fun h => (by cases h)

theorem ofExcept_ok (a : α) : ofExcept (.ok a) = pure a := rfl

theorem ofExcept_bind (x : Except Error α) (f : α → Except Error β) :
    ofExcept (x >>= f) = (do ofExcept (f (← ofExcept x))) := by
  cases x <;> rfl

/-- The first element of a list at which a computation breaks off. -/
theorem run_mapM_eq_error {f : α → Build β} {xs : List α} {id : NodeId} {e : Failure} :
    (xs.mapM f).run id = .error e ↔ ∃ done x rest ys next, xs = done ++ x :: rest ∧
      (done.mapM f).run id = .ok (ys, next) ∧ (f x).run next = .error e := by
  induction xs generalizing id with
  | nil => exact ⟨fun h => (by cases h), fun ⟨done, _, _, _, _, h, _⟩ => (by cases done <;> cases h)⟩
  | cons x xs ih =>
    rw [List.mapM_cons, run_bind_eq_error]
    constructor
    · rintro (h | ⟨y, next, hy, h⟩)
      · exact ⟨[], x, xs, [], id, rfl, rfl, h⟩
      · obtain h | ⟨_, _, _, h⟩ := run_bind_eq_error.mp h
        · obtain ⟨done, z, rest, ys, last, rfl, hdone, hz⟩ := ih.mp h
          refine ⟨x :: done, z, rest, y :: ys, last, rfl, ?_, hz⟩
          rw [List.mapM_cons, run_bind_of_ok hy, run_bind_of_ok hdone]
          rfl
        · cases h
    · rintro ⟨done, z, rest, ys, next, hxs, hdone, hz⟩
      cases done with
      | nil =>
        cases hxs
        cases hdone
        exact .inl hz
      | cons w done =>
        cases hxs
        rw [List.mapM_cons, run_bind_eq_ok] at hdone
        obtain ⟨y, mid, hy, hdone⟩ := hdone
        obtain ⟨ys', last, hys, hdone⟩ := run_bind_eq_ok.mp hdone
        obtain ⟨_, rfl⟩ := run_pure_eq_ok.mp hdone
        exact .inr ⟨y, mid, hy, run_bind_eq_error.mpr
          (.inl (ih.mpr ⟨done, z, rest, ys', last, rfl, hys, hz⟩))⟩

/-- What holds of every result holds of all of them. -/
theorem forall_of_run_mapM {f : α → Build β} {xs : List α} {ys : List β} {id last : NodeId}
    {P : β → Prop} (h : ∀ x, x ∈ xs → ∀ {id y last}, (f x).run id = .ok (y, last) → P y)
    (hrun : (xs.mapM f).run id = .ok (ys, last)) : ∀ y, y ∈ ys → P y := by
  induction xs generalizing id ys with
  | nil =>
    cases hrun
    exact fun _ hy => (by cases hy)
  | cons x xs ih =>
    rw [List.mapM_cons, run_bind_eq_ok] at hrun
    obtain ⟨y, mid, hy, hrun⟩ := hrun
    obtain ⟨ys', last', hys, hrun⟩ := run_bind_eq_ok.mp hrun
    obtain ⟨rfl, rfl⟩ := run_pure_eq_ok.mp hrun
    rw [List.forall_mem_cons]
    exact ⟨h x List.mem_cons_self hy, ih (fun z hz => h z (List.mem_cons_of_mem _ hz)) hys⟩

/-- A computation that yields a result, whatever identities are left. -/
def Succeeds (x : Build α) : Prop := ∀ id, ∃ a last, x.run id = .ok (a, last)

theorem Succeeds.pure (a : α) : Succeeds (Pure.pure a) := fun id => ⟨a, id, rfl⟩

theorem Succeeds.map {x : Build α} (h : Succeeds x) (f : α → β) : Succeeds (f <$> x) := by
  intro id
  obtain ⟨a, last, ha⟩ := h id
  exact ⟨f a, last, run_map_eq_ok.mpr ⟨a, ha, rfl⟩⟩

/-- A computation in two parts succeeds if the second part does behind every result of the first
one. -/
theorem Succeeds.bind {x : Build α} {f : α → Build β} (h : Succeeds x)
    (hf : ∀ {id a last}, x.run id = .ok (a, last) → Succeeds (f a)) : Succeeds (x >>= f) := by
  intro id
  obtain ⟨a, next, ha⟩ := h id
  obtain ⟨b, last, hb⟩ := hf ha next
  exact ⟨b, last, run_bind_eq_ok.mpr ⟨a, next, ha, hb⟩⟩

theorem Succeeds.ne_error {x : Build α} (h : Succeeds x) {id : NodeId} {e : Failure} :
    x.run id ≠ .error e := by
  obtain ⟨a, last, ha⟩ := h id
  rw [ha]
  exact fun h => (by cases h)

variable {γ δ : Type}

/-- If `x` does not break a rule of the library then both computations yield results, and the
results are related. -/
def Tracks (R : α → β → Prop) (x : Build α) (y : Build β) : Prop :=
  ∀ id, (∃ v, x.run id = .error (.violation v)) ∨
    ∃ a last, x.run id = .ok (a, last) ∧
      ∀ id', ∃ b last', y.run id' = .ok (b, last') ∧ R a b

theorem Tracks.pure {R : α → β → Prop} {a : α} {b : β} (h : R a b) :
    Tracks R (Pure.pure a) (Pure.pure b) :=
  fun id => .inr ⟨a, id, rfl, fun id' => ⟨b, id', rfl, h⟩⟩

/-- Related results of the first parts may be used to relate the second parts. -/
theorem Tracks.bind {R : α → β → Prop} {S : γ → δ → Prop} {x : Build α} {y : Build β}
    {f : α → Build γ} {g : β → Build δ} (h : Tracks R x y)
    (hcontinue : ∀ a b, R a b → Tracks S (f a) (g b)) : Tracks S (x >>= f) (y >>= g) := by
  intro id
  obtain ⟨v, hv⟩ | ⟨a, next, ha, htracks⟩ := h id
  · refine .inl ⟨v, ?_⟩
    rw [StateT.run_bind, hv]
    rfl
  · rw [run_bind_of_ok ha]
    -- The continuation of `x` runs once, and for every start of `y` that of `y` tracks it.
    obtain ⟨b, _, _, hR⟩ := htracks id
    obtain ⟨v, hv⟩ | ⟨c, last, hc, _⟩ := hcontinue a b hR next
    · exact .inl ⟨v, hv⟩
    · refine .inr ⟨c, last, hc, fun id' => ?_⟩
      obtain ⟨b, next', hb, hR⟩ := htracks id'
      obtain ⟨v, hv⟩ | ⟨c', last', hc', htracks'⟩ := hcontinue a b hR next
      · rw [hv] at hc
        cases hc
      · rw [hc] at hc'
        cases hc'
        rw [run_bind_of_ok hb]
        exact htracks' next'

theorem Tracks.map {R : α → β → Prop} {S : γ → δ → Prop} {x : Build α} {y : Build β}
    {f : α → γ} {g : β → δ} (h : Tracks R x y) (hmap : ∀ a b, R a b → S (f a) (g b)) :
    Tracks S (f <$> x) (g <$> y) := by
  rw [map_eq_pure_bind, map_eq_pure_bind]
  exact h.bind fun a b hR => .pure (hmap a b hR)

/-- What holds of every result may be used of the related results. -/
theorem Tracks.and_results {R : α → β → Prop} {x : Build α} {y : Build β} {P : α → Prop}
    {Q : β → Prop} (h : Tracks R x y)
    (hx : ∀ {id a last}, x.run id = .ok (a, last) → P a)
    (hy : ∀ {id b last}, y.run id = .ok (b, last) → Q b) :
    Tracks (fun a b => R a b ∧ P a ∧ Q b) x y := by
  intro id
  refine (h id).imp_right ?_
  rintro ⟨a, last, ha, htracks⟩
  refine ⟨a, last, ha, fun id' => ?_⟩
  obtain ⟨b, last', hb, hR⟩ := htracks id'
  exact ⟨b, last', hb, hR, hx ha, hy hb⟩

end Build

end PixelEffect
