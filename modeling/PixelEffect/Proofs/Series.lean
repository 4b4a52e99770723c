import PixelEffect.Proofs.Effect.Deduced
import PixelEffect.Proofs.Node.Constant

namespace PixelEffect

/-- The colors that may enter a series of which this much is known. -/
def EnteringColor.Admits (entering : EnteringColor) (input : Color Single) : Prop :=
  match entering with
  | unknown => True
  | opaqueOnly => input.a = 1
  | constant c => input = c

namespace Node

/-- Applies trees to a color one after another, the first one first. -/
def paintSeries {Place : Type} (scene : Scene Place Single) (place : Place) (series : List Node) :
    Shade Single := fun input => series.foldlM (fun c n => n.paint scene place c) input

/-- The last effect of a series gets the color that the others pass on. -/
theorem paintSeries_append_singleton {Place : Type} {scene : Scene Place Single} {place : Place}
    {series : List Node} {n : Node} {input out : Color Single} :
    paintSeries scene place (series ++ [n]) input = .ok out ↔
      ∃ c, paintSeries scene place series input = .ok c ∧ n.paint scene place c = .ok out := by
  unfold paintSeries
  rw [List.foldlM_append, Except.bind_eq_ok]
  simp only [List.foldlM_cons, List.foldlM_nil, bind_pure]

end Node

namespace SeriesAnalysis

open Node

/-- The series yields at most the color `c`, for every input that may enter it. -/
def Yields (entering : EnteringColor) (series : List Node) (c : Color Single) : Prop :=
  ∀ (Place : Type) (scene : Scene Place Single) (place : Place) (input out : Color Single),
    entering.Admits input → paintSeries scene place series input = .ok out → out = c

/-- What an analysis claims about the colors behind a series and behind the effects at its start
that it eliminates. -/
structure Sound (entering : EnteringColor) (series : List Node) (analysis : SeriesAnalysis) :
    Prop where
  length_eq : analysis.length = series.length
  known : ∀ c, analysis.known = some c → Yields entering series c
  eliminated : ∀ count c, analysis.eliminated = some (count, c) →
    1 ≤ count ∧ count ≤ series.length ∧ Yields entering (series.take count) c

/-- Of an empty series the entering color is all there is to know. -/
theorem sound_start (entering : EnteringColor) : Sound entering [] (start entering) where
  length_eq := rfl
  known := by
    intro c hc Place scene place input out hadmits hout
    cases entering with
    | unknown | opaqueOnly => cases hc
    | constant known =>
      cases hc
      cases hout
      exact hadmits
  eliminated := by
    intro count c hc
    cases hc

/-- A color is folded from a known input, or from an arbitrary one if the effect ignores it. -/
theorem folded?_eq_some {known : Option (Color Single)} {n : Node} {c : Color Single}
    (h : folded? known n = .ok (some c)) :
    n.optimizations.constantOutput ∧
      ∃ input, n.shade input = .ok c ∧ (known = some input ∨ n.ignoresInput) := by
  obtain ⟨input, hinput, hcase⟩ : ∃ input,
      (known <|> if n.ignoresInput then some Color.transparent else none) = some input ∧
        (known = some input ∨ n.ignoresInput) := by
    cases hfrom : known <|> if n.ignoresInput then some Color.transparent else none with
    | none => simp [folded?, hfrom] at h
    | some input =>
      refine ⟨input, rfl, ?_⟩
      cases known with
      | some k =>
        left
        exact hfrom
      | none =>
        right
        simpa using (Option.isSome_of_eq_some hfrom)
  simp only [folded?, hinput] at h
  split at h
  · rename_i hconstant
    split at h
    · rename_i out hout
      cases h
      exact ⟨hconstant, input, hout, hcase⟩
    · cases h
    · cases h
  · cases h

/-- What one more effect does to an analysis. -/
theorem step_eq_ok {analysis next : SeriesAnalysis} {n : Node} (h : step analysis n = .ok next) :
    ∃ folded, folded? analysis.known n = .ok folded ∧ next.length = analysis.length + 1 ∧
      next.known = folded ∧
      next.eliminated = (folded.map fun c => (analysis.length + 1, c)).or analysis.eliminated ∧
      next.isOpaque = (folded.map Color.isOpaque).getD
        (analysis.isOpaque && n.optimizations.preservesOpaque) := by
  obtain ⟨folded, hfolded, h⟩ := Except.bind_eq_ok.mp h
  refine ⟨folded, hfolded, ?_⟩
  cases folded <;> cases h <;> exact ⟨rfl, rfl, rfl, rfl⟩

/-- One more effect keeps an analysis sound. Effects that are not computable ahead take part in this
with whatever color the scene has for them. -/
theorem Sound.step {entering : EnteringColor} {series : List Node}
    {analysis next : SeriesAnalysis} {n : Node} (hsound : Sound entering series analysis)
    (hdeduced : n.Deduced) (h : step analysis n = .ok next) :
    Sound entering (series ++ [n]) next := by
  obtain ⟨folded, hfolded, hlength, hknown, heliminated, _⟩ := step_eq_ok h
  -- A folded color is what comes out behind `n`, however the series got there.
  have hyields : ∀ c, folded = some c → Yields entering (series ++ [n]) c := by
    rintro c rfl Place scene place input out hadmits hout
    obtain ⟨between, hbetween, hpaint⟩ := paintSeries_append_singleton.mp hout
    obtain ⟨hconstant, from', hshade, hfrom | hignores⟩ := folded?_eq_some hfolded
    · rw [hsound.known _ hfrom Place scene place input between hadmits hbetween,
        hdeduced.paint_eq_shade hconstant, hshade] at hpaint
      exact (Except.ok.inj hpaint).symm
    · rw [← hdeduced.paint_eq_shade hconstant scene place] at hshade
      exact paint_constant hignores place _ _ _ _ hpaint hshade
  refine ⟨?_, ?_, ?_⟩
  · rw [hlength, hsound.length_eq, List.length_append, List.length_singleton]
  · rw [hknown]
    exact hyields
  · intro count c hcount
    rw [heliminated] at hcount
    cases folded with
    | none =>
      obtain ⟨hpos, hle, hyields⟩ := hsound.eliminated count c hcount
      refine ⟨hpos, by simp only [List.length_append]; omega, ?_⟩
      rw [List.take_append_of_le_length hle]
      exact hyields
    | some c =>
      cases hcount
      have hall : analysis.length + 1 = (series ++ [n]).length := by
        rw [hsound.length_eq, List.length_append, List.length_singleton]
      rw [hall, List.take_length]
      exact ⟨by omega, Nat.le_refl _, hyields c rfl⟩

/-- The analysis of a whole series is sound. -/
theorem sound_ofSeries {entering : EnteringColor} {series : List Node} {analysis : SeriesAnalysis}
    (hdeduced : ∀ n, n ∈ series → n.Deduced) (h : ofSeries entering series = .ok analysis) :
    Sound entering series analysis := by
  refine Except.foldlM_invariant (Sound entering) (sound_start entering) ?_ h
  intro before n analysis next hmem hsound hstep
  exact hsound.step (hdeduced n hmem) hstep

/-- An analysis can break off for one reason only, a broken rule of the library. -/
theorem ofSeries_eq_error {entering : EnteringColor} {series : List Node} {e : Failure}
    (h : ofSeries entering series = .error e) : ∃ v, e = .violation v := by
  have hfolded : ∀ known n e, folded? known n = .error e → ∃ v, e = .violation v := by
    intro known n e h
    simp only [folded?] at h
    split at h
    · cases h
    · split at h
      · split at h <;> cases h
        exact ⟨_, rfl⟩
      · cases h
  have hstep : ∀ analysis n e, step analysis n = .error e → ∃ v, e = .violation v := by
    intro analysis n e h
    obtain h | ⟨folded, _, h⟩ := Except.bind_eq_error.mp h
    · exact hfolded _ _ _ h
    · cases folded <;> cases h
  unfold ofSeries at h
  generalize start entering = analysis at h
  induction series generalizing analysis with
  | nil => cases h
  | cons n rest ih =>
    rw [List.foldlM_cons] at h
    obtain h | ⟨next, _, h⟩ := Except.bind_eq_error.mp h
    · exact hstep _ _ _ h
    · exact ih next h

end SeriesAnalysis

end PixelEffect
