import PixelEffect.Proofs.Effect.Elimination
import PixelEffect.Proofs.Pool.ConstantOutput

namespace PixelEffect

namespace Pool

open Node SeriesAnalysis

/-- The analysis of trees of the public constructors: what it says about colors is true in every
scene, it eliminates as many effects at the start as it can, and what it says about coordinates and
the destination color concerns the others. -/
theorem analysis_exact {pool : Pool} (hpool : Manufactured pool) {entering : EnteringColor}
    {series : List Node}
    (hseries : ∀ n, n ∈ series → ∃ root path, root ∈ pool.trees ∧ root.at? path = some n)
    (hrules : ∀ v, ofSeries entering series ≠ .error (.violation v)) :
    ∃ analysis, ofSeries entering series = .ok analysis ∧
      Sound entering series analysis ∧ Exact entering series analysis := by
  have hstandard : ∀ n, n ∈ series → n.Standard := by
    intro n hn
    obtain ⟨root, path, hroot, hn⟩ := hseries n hn
    exact (hpool.standard hroot).at? hn
  cases hanalysis : ofSeries entering series with
  | error e =>
    obtain ⟨v, rfl⟩ := ofSeries_eq_error hanalysis
    exact absurd hanalysis (hrules v)
  | ok analysis => exact ⟨analysis, rfl, exact_ofSeries hstandard hanalysis⟩

/-- White, and white over the destination color behind it: the first effect is eliminated and the
second one reads the destination. -/
theorem analysis_exact_whiteOverDestination :
    ∃ white analysis, whiteOverDestination.at? [0] = some white ∧
      ofSeries .unknown [white, whiteOverDestination] = .ok analysis ∧
      analysis.eliminated = some (1, .white) ∧
      Sound .unknown [white, whiteOverDestination] analysis ∧
      Exact .unknown [white, whiteOverDestination] analysis := by
  obtain ⟨white, analysis, hwhite, hanalysis, heliminated⟩ : ∃ white analysis,
      whiteOverDestination.at? [0] = some white ∧
      ofSeries .unknown [white, whiteOverDestination] = .ok analysis ∧
      analysis.eliminated = some (1, .white) := ⟨_, _, rfl, rfl, rfl⟩
  have hmember : whiteOverDestination ∈ [whiteOverDestination] := List.mem_singleton.mpr rfl
  have hseries : ∀ n, n ∈ [white, whiteOverDestination] →
      ∃ root path, root ∈ [whiteOverDestination] ∧ root.at? path = some n := by
    intro n hn
    rcases List.mem_cons.mp hn with rfl | hn
    · exact ⟨_, [0], hmember, hwhite⟩
    · obtain rfl := List.mem_singleton.mp hn
      exact ⟨_, [], hmember, rfl⟩
  have hrules : ∀ v, ofSeries .unknown [white, whiteOverDestination] ≠ .error (.violation v) := by
    intro v hv
    rw [hanalysis] at hv
    cases hv
  obtain ⟨analysis', hanalysis', hsound, hexact⟩ :=
    analysis_exact manufactured_whiteOverDestination hseries hrules
  rw [hanalysis] at hanalysis'
  cases hanalysis'
  exact ⟨white, analysis, hwhite, hanalysis, heliminated, hsound, hexact⟩

end Pool

end PixelEffect
