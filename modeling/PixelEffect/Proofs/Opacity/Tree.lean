import PixelEffect.Proofs.Effect.Evaluation
import PixelEffect.Proofs.Opacity.Blend

namespace PixelEffect

namespace Kind

/-- An evaluation by which an effect that is said to keep colors opaque does so. Blends have to
compute exactly. An override is flagged for its color alone, so nothing is said about one whose
child is not flagged. -/
def Regular (kind : Kind) (flags : List (Option Optimizations))
    (operands : List (Option (Shade Single))) (input : Color Single) : Prop :=
  match kind with
  | overrideInput .. => (flags[0]?.join.getD Optimizations.all).preservesOpaque
  | blend mode behavior => ∀ s d, presentOutput? operands 0 (behavior.probe input) = .ok s →
      presentOutput? operands 1 (behavior.probe input) = .ok d →
      mode.Exact (s.getD input) (d.getD input)
  | _ => True

end Kind

section Operands

variable {operands : List (Option (Shade Single))}

/-- An operand that is present yields what it is evaluated to. -/
theorem presentOutput?_eq_ok {i : Nat} {input : Color Single} {c : Option (Color Single)}
    (h : presentOutput? operands i input = .ok c) :
    c = none ∨ ∃ out, c = some out ∧ operandOutput operands i input = .ok out := by
  unfold presentOutput? at h
  unfold operandOutput
  cases hoperand : operands[i]?.join with
  | none =>
    rw [hoperand] at h
    cases h
    exact .inl rfl
  | some s =>
    rw [hoperand] at h
    obtain ⟨out, hout, rfl⟩ := Except.map_eq_ok.mp h
    exact .inr ⟨out, rfl, hout⟩

/-- An opaque input gives the operands opaque colors to look at. -/
theorem BlendBehavior.isOpaque_probe (behavior : BlendBehavior) {input : Color Single}
    (h : input.isOpaque) : (behavior.probe input).isOpaque := by
  cases behavior with
  | skMode => exact h
  | default | composeOne | composeTwo => exact Color.isOpaque_white

/-- A blend yields an opaque color where its mode keeps opacity and computes exactly. -/
theorem isOpaque_blendOutputs {mode : BlendMode} {behavior : BlendBehavior}
    {source destination : Option (Color Single)} {input : Color Single} (hopacity : input.isOpaque)
    (hexact : mode.Exact (source.getD input) (destination.getD input))
    (hkeeps : mode.keepsOpaque (source.getD input).isOpaque (destination.getD input).isOpaque) :
    (blendOutputs mode behavior source destination input).isOpaque := by
  have hblend := BlendMode.apply_isOpaque hexact hkeeps
  cases behavior with
  | composeTwo => exact Color.isOpaque_scale hblend (Color.isOpaque_iff.mp hopacity)
  | default | composeOne | skMode => exact hblend

/-- An effect that is flagged by the rule for its kind keeps an opaque input opaque, provided that
the operands which are flagged keep the colors opaque that they are evaluated with. -/
theorem Kind.output_isOpaque {kind : Kind} {flags : List (Option Optimizations)}
    {input out : Color Single} (hkeeps : (kind.deduced flags).preservesOpaque)
    (hopacity : input.isOpaque) (hregular : kind.Regular flags operands input)
    (hoperand : ∀ (i : Nat) (c c' : Color Single),
      (flags[i]?.join.getD Optimizations.all).preservesOpaque →
      kind.operandInput operands i input = .ok c → c.isOpaque →
      operandOutput operands i c = .ok c' → c'.isOpaque)
    (h : kind.output unknownElsewhere operands input = .ok out) : out.isOpaque := by
  cases kind with
  | color c =>
    cases h
    exact hkeeps
  | overrideInput c specialized => exact hoperand 0 c out hregular rfl hkeeps h
  | destColor | linearGradient => cases h
  | colorMatrix => cases hkeeps
  | swizzle s =>
    obtain ⟨hflag, hswizzle⟩ := Bool.and_eq_true_iff.mp hkeeps
    obtain ⟨c, hc, rfl⟩ := Except.map_eq_ok.mp h
    exact Swizzle.apply_isOpaque hswizzle (hoperand 0 input c hflag rfl hopacity hc)
  | premul =>
    obtain ⟨c, hc, h⟩ := Except.bind_eq_ok.mp h
    cases h
    have hwhite := hoperand 0 _ c hkeeps rfl Color.isOpaque_white hc
    rw [Color.isOpaque_iff] at hopacity hwhite ⊢
    exact hopacity.mul hwhite
  | clamp premul =>
    cases premul with
    | false =>
      obtain ⟨c, hc, rfl⟩ := Except.map_eq_ok.mp h
      exact Color.isOpaque_saturate (hoperand 0 input c hkeeps rfl hopacity hc)
    | true =>
      obtain ⟨c, hc, hclamp⟩ := Except.bind_eq_ok.mp h
      exact Color.isOpaque_of_clampPremul (hoperand 0 input c hkeeps rfl hopacity hc) hclamp
  | deviceSpace | matrix => exact hoperand 0 input out hkeeps rfl hopacity h
  | compose =>
    obtain ⟨houter, hinner⟩ := Bool.and_eq_true_iff.mp hkeeps
    obtain ⟨between, hbetween, hout⟩ := Except.bind_eq_ok.mp h
    have hopacity := hoperand 1 input between hinner rfl hopacity hbetween
    exact hoperand 0 between out houter hbetween hopacity hout
  | blend mode behavior =>
    obtain ⟨source, hs, h⟩ := Except.bind_eq_ok.mp h
    obtain ⟨destination, hd, h⟩ := Except.bind_eq_ok.mp h
    cases h
    have hprobe := behavior.isOpaque_probe hopacity
    -- An absent operand is the input, which is opaque as well.
    have hpresent : ∀ (i : Nat) (c : Option (Color Single)),
        presentOutput? operands i (behavior.probe input) = .ok c →
        (flags[i]?.join.getD Optimizations.all).preservesOpaque → (c.getD input).isOpaque := by
      intro i c hc hflag
      rcases presentOutput?_eq_ok hc with rfl | ⟨c', rfl, hc'⟩
      · exact hopacity
      · exact hoperand i _ c' hflag rfl hprobe hc'
    exact isOpaque_blendOutputs hopacity (hregular source destination hs hd)
      (BlendMode.keepsOpaque_mono (hpresent 0 source hs) (hpresent 1 destination hd) hkeeps)

end Operands

namespace Node

/-- If the node is flagged and the input is opaque, its own evaluation keeps it so. -/
def Regular (n : Node) (input : Color Single) : Prop :=
  n.optimizations.preservesOpaque → input.isOpaque →
    n.kind.Regular (n.slots.map (Option.map optimizations)) (n.slots.map (Option.map shade)) input

/-- All parts of a tree are evaluated regularly. -/
def RegularBelow (n : Node) (input : Color Single) : Prop :=
  ∀ m c, n.Evaluates input m c → m.Regular c

/-- Regular evaluations can be looked at node by node, each with the color that reaches it. -/
theorem regularBelow_iff {n : Node} {c : Color Single} :
    n.RegularBelow c ↔ n.Regular c ∧ ∀ (i : Nat) (child : Node) (d : Color Single),
      n.slots[i]?.join = some child →
      n.kind.operandInput (n.slots.map (Option.map shade)) i c = .ok d → child.RegularBelow d := by
  constructor
  · intro h
    refine ⟨h n c (.self n c), fun i child d hchild hinput m e hbelow => ?_⟩
    exact h m e (.operand hchild hinput hbelow)
  · rintro ⟨hself, hoperands⟩ m e hm
    cases hm with
    | self => exact hself
    | operand hchild hinput hbelow => exact hoperands _ _ _ hchild hinput m e hbelow

theorem regularBelow_color {n : Node} {k c : Color Single} (hkind : n.kind = .color k)
    (hslots : n.slots = []) : n.RegularBelow c := by
  rw [regularBelow_iff]
  constructor
  · intro _ _
    unfold Kind.Regular
    rw [hkind]
    trivial
  · intro i child d hchild _
    rw [hslots] at hchild
    cases hchild

/-- The flag keeps its promise on every tree whose flags are deduced. -/
theorem Deduced.shade_isOpaque {n : Node} (hdeduced : n.Deduced)
    (hkeeps : n.optimizations.preservesOpaque) {input out : Color Single}
    (hopacity : input.isOpaque) (hregular : n.RegularBelow input) (h : n.shade input = .ok out) :
    out.isOpaque := by
  induction n generalizing input out with
  | mk data slots ih =>
    obtain ⟨hdata, hchildren⟩ := deduced_iff.mp hdeduced
    have houtput : data.kind.output Kind.unknownElsewhere (slots.map (Option.map shade)) input =
        .ok out := by
      simp only [shade, shades_eq_map] at h
      split at h
      · exact h
      · cases h
    obtain ⟨hself, hoperands⟩ := regularBelow_iff.mp hregular
    refine Kind.output_isOpaque (hdata ▸ hkeeps) hopacity (hself hkeeps hopacity) ?_ houtput
    intro i c c' hflag hinput hopacity hc
    unfold operandOutput at hc
    simp only [Node.slots, join_getElem?_map] at hflag hc
    cases hslot : slots[i]?.join with
    | none =>
      rw [hslot] at hc
      cases hc
      exact hopacity
    | some child =>
      rw [hslot] at hc hflag
      have hmem := List.mem_of_getElem? (Option.join_eq_some_iff.mp hslot)
      exact ih child hmem (hchildren child hmem) hflag hopacity (hoperands i child c hslot hinput) hc

end Node

end PixelEffect
