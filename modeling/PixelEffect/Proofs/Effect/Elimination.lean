import PixelEffect.Proofs.Effect.Failure

namespace PixelEffect

/-- The very color that enters is known. -/
def EnteringColor.isConstant : EnteringColor → Bool
  | constant _ => true
  | _ => false

namespace SeriesAnalysis

open Node

variable {entering : EnteringColor} {series : List Node} {analysis next : SeriesAnalysis} {n : Node}

/-- The number of effects at the start that are eliminated. -/
def eliminatedCount (analysis : SeriesAnalysis) : Nat :=
  (analysis.eliminated.map Prod.fst).getD 0

/-- The color that the remaining effects get is known. -/
def RestKnown (entering : EnteringColor) (analysis : SeriesAnalysis) : Prop :=
  0 < analysis.eliminatedCount ∨ entering.isConstant

/-- What an analysis says about the effects that it does not eliminate, and that there are no fewer
of them. -/
structure Exact (entering : EnteringColor) (series : List Node) (analysis : SeriesAnalysis) :
    Prop where
  usesCoords : analysis.usesCoords =
    (series.drop analysis.eliminatedCount).any fun n => n.usesCoords
  readsDestination : analysis.readsDestination =
    (series.drop analysis.eliminatedCount).any fun n => n.flags.readsDestination
  known_iff : analysis.known.isSome ↔
    analysis.eliminatedCount = series.length ∧ RestKnown entering analysis
  /-- The effect behind the eliminated ones cannot be folded although its input is known. -/
  stopped : RestKnown entering analysis →
    ∀ n, series[analysis.eliminatedCount]? = some n → ¬n.optimizations.constantOutput
  /-- No effect further on can be folded for ignoring its input. -/
  rest : ∀ n, n ∈ series.drop analysis.eliminatedCount →
    ¬(n.optimizations.constantOutput ∧ n.ignoresInput)

/-- No more effects are eliminated than there are. -/
theorem Sound.eliminatedCount_le (h : Sound entering series analysis) :
    analysis.eliminatedCount ≤ series.length := by
  cases heliminated : analysis.eliminated with
  | none => simp [eliminatedCount, heliminated]
  | some known =>
    obtain ⟨_, hle, _⟩ := h.eliminated known.1 known.2 heliminated
    simpa [eliminatedCount, heliminated] using hle

/-- A marked tree of the public constructors is folded as soon as anything is known. -/
theorem folded?_eq_none {known : Option (Color Single)} (h : n.Standard)
    (hfolded : folded? known n = .ok none) (hconstant : n.optimizations.constantOutput) :
    known = none ∧ ¬n.ignoresInput := by
  by_contra hunknown
  obtain ⟨input, hinput⟩ : ∃ input,
      (known <|> if n.ignoresInput then some Color.transparent else none) = some input := by
    cases known with
    | some c => exact ⟨c, rfl⟩
    | none =>
      have hignores : n.ignoresInput := by simpa using hunknown
      exact ⟨.transparent, by rw [if_pos hignores]; rfl⟩
  simp only [folded?, hinput, if_pos hconstant] at hfolded
  cases hshade : n.shade input with
  | ok c =>
    rw [hshade] at hfolded
    cases hfolded
  | error e =>
    obtain ⟨rfl, _⟩ := (h.shade_eq_error_iff hconstant).mp hshade
    rw [hshade] at hfolded
    cases hfolded

/-- One more effect eliminates everything so far or adds to what is left. -/
theorem step_cases (h : step analysis n = .ok next) :
    (∃ c, next.known = some c ∧ next.eliminated = some (analysis.length + 1, c) ∧
      next.usesCoords = false ∧ next.readsDestination = false) ∨
    (folded? analysis.known n = .ok none ∧ next.known = none ∧
      next.eliminated = analysis.eliminated ∧
      next.usesCoords = (analysis.usesCoords || n.usesCoords) ∧
      next.readsDestination = (analysis.readsDestination || n.flags.readsDestination)) := by
  obtain ⟨folded, hfolded, h⟩ := Except.bind_eq_ok.mp h
  cases folded with
  | some c =>
    cases h
    exact .inl ⟨c, rfl, rfl, rfl, rfl⟩
  | none =>
    cases h
    exact .inr ⟨hfolded, rfl, rfl, rfl, rfl⟩

/-- Of an empty series there are no effects left. -/
theorem exact_start (entering : EnteringColor) : Exact entering [] (start entering) where
  usesCoords := rfl
  readsDestination := rfl
  known_iff := by
    cases entering <;> simp [RestKnown, eliminatedCount, start, EnteringColor.isConstant]
  stopped := fun _ n hn => (by cases hn)
  rest := fun n hn => (by cases hn)

/-- One more effect keeps an analysis exact. -/
theorem Exact.step (hexact : Exact entering series analysis)
    (hsound : Sound entering series analysis) (hn : n.Standard)
    (h : step analysis n = .ok next) : Exact entering (series ++ [n]) next := by
  obtain ⟨c, hknown, heliminated, hcoords, hdestination⟩ |
    ⟨hfolded, hknown, heliminated, hcoords, hdestination⟩ := step_cases h
  · -- Nothing is left.
    have hcount : next.eliminatedCount = (series ++ [n]).length := by
      simp [eliminatedCount, heliminated, hsound.length_eq]
    have hdrop : (series ++ [n]).drop next.eliminatedCount = [] := by
      rw [hcount, List.drop_length]
    have hpositive : 0 < next.eliminatedCount := by
      rw [hcount, List.length_append, List.length_singleton]
      omega
    constructor
    · rw [hcoords, hdrop]
      rfl
    · rw [hdestination, hdrop]
      rfl
    · rw [hknown]
      exact ⟨fun _ => ⟨hcount, .inl hpositive⟩, fun _ => rfl⟩
    · intro _ m hm
      rw [hcount, List.getElem?_eq_none (Nat.le_refl _)] at hm
      cases hm
    · intro m hm
      rw [hdrop] at hm
      cases hm
  · -- The effect is left, and it cannot be folded.
    have hcount : next.eliminatedCount = analysis.eliminatedCount := by
      rw [eliminatedCount, heliminated, eliminatedCount]
    have hle := hsound.eliminatedCount_le
    have hdrop : (series ++ [n]).drop next.eliminatedCount =
        series.drop analysis.eliminatedCount ++ [n] := by
      rw [hcount, List.drop_append_of_le_length hle]
    have hrestKnown : RestKnown entering next ↔ RestKnown entering analysis := by
      rw [RestKnown, RestKnown, hcount]
    constructor
    · rw [hcoords, hdrop, List.any_append, hexact.usesCoords]
      simp
    · rw [hdestination, hdrop, List.any_append, hexact.readsDestination]
      simp
    · have hshort : next.eliminatedCount ≠ (series ++ [n]).length := by
        rw [hcount, List.length_append, List.length_singleton]
        omega
      rw [hknown]
      exact ⟨fun h => (by cases h), fun h => absurd h.1 hshort⟩
    · intro hrest m hm hconstant
      rw [hrestKnown] at hrest
      rw [hcount] at hm
      by_cases hall : analysis.eliminatedCount = series.length
      · rw [hall, List.getElem?_concat_length] at hm
        cases hm
        have hsome := hexact.known_iff.mpr ⟨hall, hrest⟩
        rw [(folded?_eq_none hn hfolded hconstant).1] at hsome
        cases hsome
      · rw [List.getElem?_append_left (by omega)] at hm
        exact hexact.stopped hrest m hm hconstant
    · intro m hm
      rw [hdrop] at hm
      rcases List.mem_append.mp hm with hm | hm
      · exact hexact.rest m hm
      · obtain rfl := List.mem_singleton.mp hm
        rintro ⟨hconstant, hignores⟩
        exact (folded?_eq_none hn hfolded hconstant).2 hignores

/-- The analysis of a whole series is sound and exact. -/
theorem exact_ofSeries (hstandard : ∀ n, n ∈ series → n.Standard)
    (h : ofSeries entering series = .ok analysis) :
    Sound entering series analysis ∧ Exact entering series analysis := by
  refine Except.foldlM_invariant
    (fun done analysis => Sound entering done analysis ∧ Exact entering done analysis)
    ⟨sound_start entering, exact_start entering⟩ ?_ h
  rintro done n before after hmem ⟨hsound, hexact⟩ hstep
  have hn := hstandard n hmem
  exact ⟨hsound.step hn.deduced hstep, hexact.step hsound hn hstep⟩

end SeriesAnalysis

end PixelEffect
