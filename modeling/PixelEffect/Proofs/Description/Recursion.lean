import PixelEffect.Description.Basic

namespace PixelEffect.Description

/-- The operands, in the order in which they are built. -/
def operands : Description → List (Option Description)
  | color _ | destColor | linearGradient .. => []
  | overrideInput child .. | swizzle child _ | premul child | mulChildByInputAlpha child
  | mulInputByChildAlpha child | modulateAlpha child _ | modulateRgba child _
  | colorMatrix child .. | clamp child _ | deviceSpace child | matrix child _ => [child]
  | compose f g => [f, g]
  | blend source destination .. => [source, destination]

/-- A property of all descriptions follows if every description inherits it from its operands. -/
@[induction_eliminator]
theorem induction {motive : Description → Prop}
    (step : ∀ d, (∀ child, some child ∈ d.operands → motive child) → motive d)
    (d : Description) : motive d := by
  have hone : ∀ d child, d.operands = [child] → (∀ c, child = some c → motive c) → motive d :=
    fun d child hd h => step d fun c hc => h c (List.mem_singleton.mp (hd ▸ hc)).symm
  have htwo : ∀ d f g, d.operands = [f, g] → (∀ c, f = some c → motive c) →
      (∀ c, g = some c → motive c) → motive d := by
    intro d f g hd hf hg
    refine step d fun c hc => ?_
    rw [hd] at hc
    rcases List.mem_cons.mp hc with hc | hc
    · exact hf c hc.symm
    · exact hg c (List.mem_singleton.mp hc).symm
  refine @Description.rec motive (fun d => ∀ c, d = some c → motive c)
    (fun _ => step _ fun _ h => (by cases h)) (step _ fun _ h => (by cases h))
    (fun _ _ _ h => hone _ _ rfl h) (fun _ _ h => hone _ _ rfl h) (fun _ h => hone _ _ rfl h)
    (fun _ _ hf hg => htwo _ _ _ rfl hf hg) (fun _ _ _ _ hs hd => htwo _ _ _ rfl hs hd)
    (fun _ h => hone _ _ rfl h) (fun _ h => hone _ _ rfl h) (fun _ _ h => hone _ _ rfl h)
    (fun _ _ h => hone _ _ rfl h) (fun _ _ _ _ _ h => hone _ _ rfl h)
    (fun _ _ h => hone _ _ rfl h) (fun _ h => hone _ _ rfl h) (fun _ _ h => hone _ _ rfl h)
    (fun _ _ _ _ => step _ fun _ h => (by cases h)) ?_ ?_ d
  · exact fun _ h => (by cases h)
  · rintro c hc _ ⟨⟩
    exact hc

end PixelEffect.Description
