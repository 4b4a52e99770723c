import PixelEffect.Proofs.Effect.Evaluation
import PixelEffect.Proofs.Number.Products
import PixelEffect.Proofs.Opacity.Series

namespace PixelEffect

open Node

/-- The same numbers in all channels. The two zeros are one number. -/
def Color.equals (c d : Color Single) : Bool :=
  Scalar.eq c.r d.r && Scalar.eq c.g d.g && Scalar.eq c.b d.b && Scalar.eq c.a d.a

/-- The operand that a mode yields, whatever the other one is. -/
def BlendMode.chosen (mode : BlendMode) (source destination : Option Node) :
    Option (Option Node) :=
  match mode with
  | src => some source
  | dst => some destination
  | _ => none

namespace BlendBehavior

/-- The color that a blend takes an operand for. An absent operand is the input color. -/
def operandColor (behavior : BlendBehavior) (n : Option Node) : Shade Single := fun input =>
  match n with
  | none => .ok input
  | some n => n.shade (behavior.probe input)

/-- What becomes of two operands once they are blended. -/
def finish (behavior : BlendBehavior) (blended input : Color Single) : Color Single :=
  match behavior with
  | composeTwo => blended.scale input.a
  | _ => blended

/-- An operand that sees the input is evaluated like any other tree. -/
theorem operandColor_skMode (n : Option Node) (input : Color Single) :
    skMode.operandColor n input = shadeOf n input := by
  cases n <;> rfl

/-- Nothing but the signs of zeros can come of the transparent color. -/
theorem finish_transparent {behavior : BlendBehavior} {input : Color Single}
    (h : (behavior.finish .transparent input).isFinite) :
    Color.transparent.equals (behavior.finish .transparent input) ∧
      (.transparent = behavior.finish .transparent input ↔
        (behavior = composeTwo → ¬input.a.isNegative)) := by
  have hequals : Color.transparent.equals .transparent := by decide
  cases behavior with
  | default | composeOne | skMode => exact ⟨hequals, by simp [finish]⟩
  | composeTwo =>
    rw [finish, Color.transparent_scale h]
    cases input.a.isNegative with
    | false => exact ⟨hequals, by simp⟩
    | true =>
      have hdiffer : (Color.transparent : Color Single) ≠ ⟨-0, -0, -0, -0⟩ := by decide
      exact ⟨by decide, by simpa using hdiffer⟩

end BlendBehavior

namespace Effect

/-- It makes no difference whether the operand sees the input or opaque white. -/
def Unmoved (n : Option Node) (input : Color Single) : Prop :=
  n = none ∨ (∃ tree, n = some tree ∧ tree.ignoresInput) ∨ input = .white

section

variable {behavior : BlendBehavior} {n : Option Node} {input c x : Color Single}

/-- An operand that does not mind being given white yields what it would yield alone. -/
theorem Unmoved.eq (h : Unmoved n input) (hdeduced : ∀ tree, n = some tree → tree.Deduced)
    (hc : shadeOf n input = .ok c) (hx : behavior.operandColor n input = .ok x) : c = x := by
  cases n with
  | none => exact Except.ok.inj (hc.symm.trans hx)
  | some tree =>
    have hc : tree.shade input = .ok c := hc
    have hx : tree.shade (behavior.probe input) = .ok x := hx
    obtain h | ⟨_, ⟨⟩, hignores⟩ | rfl := h
    · cases h
    · have hconstant : tree.optimizations.constantOutput := by
        by_contra hconstant
        rw [shade_eq, if_neg hconstant] at hc
        cases hc
      exact (hdeduced tree rfl).shade_constant hconstant hignores _ _ _ _ hc hx
    · have hprobe : behavior.probe Color.white = (Color.white : Color Single) := by
        cases behavior <;> rfl
      rw [hprobe] at hx
      exact Except.ok.inj (hc.symm.trans hx)

/-- The operand alone yields what the blend makes of it, if the operands see the input, or if they
need not see it and nothing is scaled. -/
theorem eq_finish (h : behavior = .skMode ∨
      Unmoved n input ∧ (behavior = .composeTwo → input.isOpaque))
    (hdeduced : ∀ tree, n = some tree → tree.Deduced) (hc : shadeOf n input = .ok c)
    (hfinite : c.isFinite) (hx : behavior.operandColor n input = .ok x) :
    c = behavior.finish x input := by
  obtain rfl | ⟨hunmoved, hopacity⟩ := h
  · rw [BlendBehavior.operandColor_skMode] at hx
    exact Except.ok.inj (hc.symm.trans hx)
  · obtain rfl := hunmoved.eq hdeduced hc hx
    cases behavior with
    | composeTwo => exact (Color.scale_isOne hfinite (Color.isOpaque_iff.mp (hopacity rfl))).symm
    | default | composeOne | skMode => rfl

end

section

variable {source destination : Option Node} {mode : BlendMode} {behavior : BlendBehavior}
  {general : Node} {id last : NodeId} {input c : Color Single}

/-- Nodes with the same contents are evaluated alike. -/
theorem map_shade_congr {slots operands : List (Option Node)}
    (h : slots.map (Option.map content) = operands.map (Option.map content)) :
    slots.map (Option.map (shade (α := Single))) = operands.map (Option.map shade) := by
  have hcontent : ∀ slots : List (Option Node), slots.map (Option.map (shade (α := Single))) =
      (slots.map (Option.map content)).map (Option.map shade) := by
    intro slots
    rw [List.map_map, Option.map_comp_map,
      map_slots_congr (f := shade ∘ content) fun n _ => shade_content n]
  rw [hcontent, h, ← hcontent]

/-- An operand that is present is evaluated with the probe. -/
theorem operandColor_eq_ok {operands : List (Option Node)} {i : Nat} {n : Option Node}
    (hn : operands[i]? = some n) {seen : Option (Color Single)}
    (h : presentOutput? (operands.map (Option.map shade)) i (behavior.probe input) = .ok seen) :
    behavior.operandColor n input = .ok (seen.getD input) := by
  rw [presentOutput?, List.getElem?_map, hn] at h
  cases n with
  | none =>
    cases h
    rfl
  | some n =>
    obtain ⟨c, hc, rfl⟩ := Except.map_eq_ok.mp h
    exact hc

/-- What the node makes of an input comes of what it takes its operands for. -/
theorem shade_blendNode
    (hrun : (blendNode source destination mode behavior).run id = .ok (general, last))
    (hc : general.shade input = .ok c) :
    ∃ s d, behavior.operandColor source input = .ok s ∧
      behavior.operandColor destination input = .ok d ∧
      c = behavior.finish (mode.apply s d) input := by
  obtain ⟨_, _, rfl, _⟩ := run_blendNode_eq_ok.mp hrun
  rw [shade_eq, map_shade_congr (slots_content_binary _ _ _ _ _), kind_binary] at hc
  split at hc
  · obtain ⟨seen, hs, hc⟩ := Except.bind_eq_ok.mp hc
    obtain ⟨seen', hd, hc⟩ := Except.bind_eq_ok.mp hc
    cases hc
    exact ⟨_, _, operandColor_eq_ok rfl hs, operandColor_eq_ok rfl hd, by cases behavior <;> rfl⟩
  · cases hc

end

end Effect

end PixelEffect
