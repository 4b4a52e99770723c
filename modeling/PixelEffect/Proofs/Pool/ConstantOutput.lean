import PixelEffect.Proofs.Effect.Evaluation
import PixelEffect.Proofs.Pool.Manufactured

namespace PixelEffect

namespace Node

/-- In a standard tree the flag says what the tree contains. -/
theorem Standard.constantOutput_iff_contains {n : Node} (h : n.Standard) :
    n.optimizations.constantOutput ↔ ¬n.Contains .destColor ∧ ¬n.Contains .linearGradient := by
  induction n with
  | mk data slots ih =>
    obtain ⟨_, _, hchildren⟩ := standard_iff.mp h
    rw [h.constantOutput_iff, contains_iff, contains_iff]
    constructor
    · rintro ⟨hdestination, hgradient, hmarked⟩
      have hbelow := fun child hchild =>
        (ih child hchild (hchildren child hchild)).mp (hmarked child hchild)
      constructor
      · rintro (hclass | ⟨child, hchild, hcontains⟩)
        · exact hdestination hclass
        · exact (hbelow child hchild).1 hcontains
      · rintro (hclass | ⟨child, hchild, hcontains⟩)
        · exact hgradient hclass
        · exact (hbelow child hchild).2 hcontains
    · rintro ⟨hdestination, hgradient⟩
      refine ⟨fun h => hdestination (.inl h), fun h => hgradient (.inl h), fun child hchild => ?_⟩
      refine (ih child hchild (hchildren child hchild)).mpr ⟨fun h => ?_, fun h => ?_⟩
      · exact hdestination (.inr ⟨child, hchild, h⟩)
      · exact hgradient (.inr ⟨child, hchild, h⟩)

end Node

namespace Pool

open Node

/-- However the public constructors, descriptions, copies and new colors have brought about a tree,
each of its nodes has the flag for constant output exactly if no destination color and no gradient
is part of it. With the flag, evaluating the node never ends in an error, whatever the input: there
is a color, unless the evaluation comes to a premultiplied clamp of a color that has a NaN for
alpha. -/
theorem constantOutput_exact {pool : Pool} (hpool : Manufactured pool) {root n : Node} {path : Path}
    (hroot : root ∈ pool.trees) (hn : root.at? path = some n) :
    (n.optimizations.constantOutput ↔ ¬n.Contains .destColor ∧ ¬n.Contains .linearGradient) ∧
    (n.optimizations.constantOutput → ∀ input : Color Single,
      (∃ c, n.shade input = .ok c) ∨
        n.shade input = .error (.violation .clampBounds) ∧ n.MeetsNaN input) := by
  have hstandard := (hpool.standard hroot).at? hn
  refine ⟨hstandard.constantOutput_iff_contains, fun hconstant input => ?_⟩
  cases hshade : n.shade input with
  | ok c => exact .inl ⟨c, rfl⟩
  | error e =>
    obtain ⟨rfl, hmeets⟩ := (hstandard.shade_eq_error_iff hconstant).mp hshade
    exact .inr ⟨rfl, hmeets⟩

/-- White over the destination color: the first operand of the blend can be evaluated, the second
one and the blend cannot. -/
def whiteOverDestination : Node :=
  binary ⟨2⟩ (.blend .srcOver .composeTwo) ⟨true, false⟩
    (some (leaf ⟨0⟩ (.color .white) ⟨true, true⟩)) (some (leaf ⟨1⟩ .destColor .empty))

/-- The tree above is what a description of the blend is built to. -/
theorem manufactured_whiteOverDestination : Manufactured ⟨[whiteOverDestination], ⟨3⟩⟩ :=
  @Manufactured.describe [] _ _ (some _)
    (.blend (some (.color (.list .white))) (some .destColor) .srcOver .default) .empty rfl

/-- The flag is missing above the destination color and set at the color. -/
theorem constantOutput_exact_whiteOverDestination :
    ¬whiteOverDestination.optimizations.constantOutput ∧
    (whiteOverDestination.Contains .destColor ∨ whiteOverDestination.Contains .linearGradient) ∧
    ∃ n, whiteOverDestination.at? [0] = some n ∧ n.optimizations.constantOutput ∧
      ¬n.Contains .destColor ∧ ∀ input : Color Single, (∃ c, n.shade input = .ok c) ∨
        n.shade input = .error (.violation .clampBounds) ∧ n.MeetsNaN input := by
  have hmember : whiteOverDestination ∈ [whiteOverDestination] := List.mem_singleton.mpr rfl
  have hroot : whiteOverDestination.at? [] = some whiteOverDestination := rfl
  obtain ⟨n, hn, hmarked⟩ :
      ∃ n, whiteOverDestination.at? [0] = some n ∧ n.optimizations.constantOutput := ⟨_, rfl, rfl⟩
  obtain ⟨hflag, _⟩ := constantOutput_exact manufactured_whiteOverDestination hmember hroot
  obtain ⟨hflag', hshade⟩ := constantOutput_exact manufactured_whiteOverDestination hmember hn
  have hunmarked : ¬whiteOverDestination.optimizations.constantOutput := by decide
  refine ⟨hunmarked, ?_, n, hn, hmarked, (hflag'.mp hmarked).1, hshade hmarked⟩
  by_contra hnone
  exact hunmarked (hflag.mpr (not_or.mp hnone))

end Pool

end PixelEffect
