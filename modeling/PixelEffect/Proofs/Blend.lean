import Mathlib.Tactic.GCongr
import Mathlib.Tactic.Linarith
import PixelEffect.Blend
import PixelEffect.Proofs.Effect.Evaluation
import PixelEffect.Proofs.Number.Exact

namespace PixelEffect

namespace BlendMode

/-- The equation of a mode for the channels `x` of the source and `y` of the destination, whose
alphas are `sa` and `da`. -/
def channel (mode : BlendMode) (sa da x y : ℚ) : ℚ :=
  match mode with
  | clear => 0
  | src => x
  | dst => y
  | srcOver => x + y * (1 - sa)
  | dstOver => y + x * (1 - da)
  | srcIn => x * da
  | dstIn => y * sa
  | srcOut => x * (1 - da)
  | dstOut => y * (1 - sa)
  | srcATop => x * da + y * (1 - sa)
  | dstATop => y * sa + x * (1 - da)
  | xor => x * (1 - da) + y * (1 - sa)
  | plus => min (x + y) 1
  | modulate => x * y
  | screen => x + y + x * y * -1

/-- Alpha is computed like every other channel. -/
theorem apply_eq (mode : BlendMode) (s d : Color ℚ) :
    mode.apply s d = Color.zipWith (mode.channel s.a d.a) s d := by
  cases mode with
  | plus =>
    simp only [apply, Color.add, Color.map, Color.zipWith, channel, Scalar.atMostOne_rat]
  | _ => rfl

section

variable {mode : BlendMode} {sa da x y x' y' : ℚ}

/-- More of a channel in the operands is not less of it in the result. -/
theorem channel_mono (hsa : 0 ≤ sa ∧ sa ≤ 1) (hda : 0 ≤ da ∧ da ≤ 1) (hx : 0 ≤ x ∧ x ≤ x')
    (hy : 0 ≤ y ∧ y ≤ y') (hx' : x' ≤ 1) (hy' : y' ≤ 1) :
    mode.channel sa da x y ≤ mode.channel sa da x' y' := by
  obtain ⟨hx, hxx'⟩ := hx
  obtain ⟨hy, hyy'⟩ := hy
  have hsa' : 0 ≤ 1 - sa := sub_nonneg.mpr hsa.2
  have hda' : 0 ≤ 1 - da := sub_nonneg.mpr hda.2
  have hsa := hsa.1
  have hda := hda.1
  have hx' : 0 ≤ x' := hx.trans hxx'
  cases mode with
  | clear => exact le_rfl
  | src => exact hxx'
  | dst => exact hyy'
  | screen =>
    -- What is screened away is the product of what the channels lack of one.
    have hlack : (1 - x') * (1 - y') ≤ (1 - x) * (1 - y) := by
      have hlack' : 0 ≤ 1 - y' := sub_nonneg.mpr hy'
      have hlack : 0 ≤ 1 - x := by linarith
      gcongr
    unfold channel
    linarith
  | _ =>
    simp only [channel]
    gcongr

/-- Nothing blended with nothing is nothing, whatever the alphas are. -/
theorem channel_zero : mode.channel sa da 0 0 = 0 := by
  cases mode <;> simp [channel]

/-- The alpha of a blend is at most one. -/
theorem channel_le_one (hsa : 0 ≤ sa ∧ sa ≤ 1) (hda : 0 ≤ da ∧ da ≤ 1) :
    mode.channel sa da sa da ≤ 1 := by
  obtain ⟨hsa, hsa1⟩ := hsa
  obtain ⟨hda, hda1⟩ := hda
  have hlack : 0 ≤ (1 - sa) * (1 - da) :=
    mul_nonneg (sub_nonneg.mpr hsa1) (sub_nonneg.mpr hda1)
  have hboth : 0 ≤ sa * da := mul_nonneg hsa hda
  have hsource : sa * da ≤ sa := mul_le_of_le_one_right hsa hda1
  have hdestination : sa * da ≤ da := mul_le_of_le_one_left hda hsa1
  cases mode with
  | plus => exact min_le_right _ _
  | _ =>
    unfold channel
    linarith

end

end BlendMode

namespace Color

/-- Red, green and blue lie between zero and alpha, and alpha is at most one. -/
structure InGamut (c : Color ℚ) : Prop where
  red : 0 ≤ c.r ∧ c.r ≤ c.a
  green : 0 ≤ c.g ∧ c.g ≤ c.a
  blue : 0 ≤ c.b ∧ c.b ≤ c.a
  alpha : c.a ≤ 1

theorem InGamut.alpha_unit {c : Color ℚ} (h : c.InGamut) : 0 ≤ c.a ∧ c.a ≤ 1 :=
  ⟨h.red.1.trans h.red.2, h.alpha⟩

theorem inGamut_white : (white : Color ℚ).InGamut :=
  ⟨⟨zero_le_one, le_rfl⟩, ⟨zero_le_one, le_rfl⟩, ⟨zero_le_one, le_rfl⟩, le_rfl⟩

/-- Scaling by a number of the unit interval does not lead out of the gamut. -/
theorem InGamut.scale {c : Color ℚ} {t : ℚ} (h : c.InGamut) (ht : 0 ≤ t ∧ t ≤ 1) :
    (c.scale t).InGamut := by
  have hchannel : ∀ {x : ℚ}, 0 ≤ x ∧ x ≤ c.a → 0 ≤ x * t ∧ x * t ≤ c.a * t :=
    fun hx => ⟨mul_nonneg hx.1 ht.1, mul_le_mul_of_nonneg_right hx.2 ht.1⟩
  exact ⟨hchannel h.red, hchannel h.green, hchannel h.blue,
    mul_le_one₀ h.alpha ht.1 ht.2⟩

theorem isOpaque_rat {c : Color ℚ} : c.isOpaque ↔ c.a = 1 := decide_eq_true_iff

end Color

/-- The table of modes is exact. A mode is said to keep colors opaque, given which operands are
opaque, exactly if its result is opaque whatever the alphas are that this leaves open. -/
theorem BlendMode.keepsOpaque_iff (mode : BlendMode) (source destination : Bool) :
    mode.keepsOpaque source destination ↔
      ∀ s d : Color ℚ, 0 ≤ s.a ∧ s.a ≤ 1 → 0 ≤ d.a ∧ d.a ≤ 1 →
        (source → s.isOpaque) → (destination → d.isOpaque) → (mode.apply s d).isOpaque := by
  simp only [Color.isOpaque_rat, apply_eq, Color.zipWith]
  constructor
  · intro hkeeps s d hs hd hsource hdestination
    cases mode with
    | clear | srcOut | dstOut | xor => cases hkeeps
    | src => exact hsource hkeeps
    | dst => exact hdestination hkeeps
    | srcATop => simp [channel, hdestination hkeeps]
    | dstATop => simp [channel, hsource hkeeps]
    | srcIn | dstIn | modulate =>
      obtain ⟨hs, hd⟩ := Bool.and_eq_true_iff.mp hkeeps
      simp [channel, hsource hs, hdestination hd]
    | srcOver | dstOver | screen =>
      rcases Bool.or_eq_true_iff.mp hkeeps with h | h
      · simp [channel, hsource h]
      · simp [channel, hdestination h]
    | plus =>
      rcases Bool.or_eq_true_iff.mp hkeeps with h | h
      · simp [channel, hsource h, hd.1]
      · simp [channel, hdestination h, hs.1]
  · intro h
    -- An operand of which nothing is said may be transparent, and it may be opaque all the same.
    have hleast := h (if source then .white else .transparent)
      (if destination then .white else .transparent)
    have hmost := h .white .white
    cases mode with
    | clear | srcOut | dstOut | xor => simp [channel, Color.white] at hmost
    | _ =>
      cases source <;> cases destination <;>
        simp [channel, keepsOpaque, Color.white, Color.transparent] at hleast ⊢

/-- Blending does not leave the gamut. -/
theorem BlendMode.inGamut_apply (mode : BlendMode) {s d : Color ℚ} (hs : s.InGamut)
    (hd : d.InGamut) : (mode.apply s d).InGamut := by
  have hsa := hs.alpha_unit
  have hda := hd.alpha_unit
  have hchannel : ∀ {x y : ℚ}, 0 ≤ x ∧ x ≤ s.a → 0 ≤ y ∧ y ≤ d.a →
      0 ≤ mode.channel s.a d.a x y ∧
        mode.channel s.a d.a x y ≤ mode.channel s.a d.a s.a d.a := by
    intro x y hx hy
    constructor
    · rw [← @channel_zero mode s.a d.a]
      exact channel_mono hsa hda ⟨le_rfl, hx.1⟩ ⟨le_rfl, hy.1⟩ (hx.2.trans hsa.2) (hy.2.trans hda.2)
    · exact channel_mono hsa hda hx hy hsa.2 hda.2
  rw [apply_eq]
  exact ⟨hchannel hs.red hd.red, hchannel hs.green hd.green, hchannel hs.blue hd.blue,
    channel_le_one hsa hda⟩

/-- Absent operands are the input, and scaling by its alpha stays in the gamut as well. -/
theorem inGamut_blendOutputs (mode : BlendMode) (behavior : BlendBehavior)
    {source destination : Option (Color ℚ)} {input : Color ℚ} (hinput : input.InGamut)
    (hsource : ∀ c, source = some c → c.InGamut)
    (hdestination : ∀ c, destination = some c → c.InGamut) :
    (blendOutputs mode behavior source destination input).InGamut := by
  have hoperand : ∀ {operand : Option (Color ℚ)}, (∀ c, operand = some c → c.InGamut) →
      (operand.getD input).InGamut := by
    intro operand h
    cases operand with
    | none => exact hinput
    | some c => exact h c rfl
  have hout := mode.inGamut_apply (hoperand hsource) (hoperand hdestination)
  cases behavior with
  | composeTwo => exact hout.scale hinput.alpha_unit
  | default | composeOne | skMode => exact hout

/-- The color of an operand that a blend takes is in the gamut if there is an operand. -/
theorem exists_presentOutput? {n : Node} {i : Nat} {probe : Color ℚ}
    (h : ∀ child, n.child? i = some child → ∃ c, child.shade probe = .ok c ∧ c.InGamut) :
    ∃ operand, presentOutput? (n.slots.map (Option.map Node.shade)) i probe = .ok operand ∧
      ∀ c, operand = some c → c.InGamut := by
  unfold presentOutput?
  rw [join_getElem?_map]
  cases hchild : n.slots[i]?.join with
  | none => exact ⟨none, rfl, fun c hc => (by cases hc)⟩
  | some child =>
    obtain ⟨c, hc, hgamut⟩ := h child hchild
    refine ⟨some c, Except.map_eq_ok.mpr ⟨c, hc, rfl⟩, fun c' hc' => ?_⟩
    rw [← Option.some.inj hc']
    exact hgamut

/-- Blending stays in the premultiplied gamut. So does the evaluation of a blend node for a constant
input: it has a result in the gamut if its input and what its operands make of their probe are in
the gamut. -/
theorem blending_keeps_gamut (mode : BlendMode) :
    (∀ s d : Color ℚ, s.InGamut → d.InGamut → (mode.apply s d).InGamut) ∧
    ∀ (behavior : BlendBehavior) (n : Node) (input : Color ℚ), n.kind = .blend mode behavior →
      n.optimizations.constantOutput → input.InGamut →
      (∀ i, i < 2 → ∀ child, n.child? i = some child →
        ∃ c, child.shade (behavior.probe input) = .ok c ∧ c.InGamut) →
      ∃ out, n.shade input = .ok out ∧ out.InGamut := by
  refine ⟨fun s d hs hd => mode.inGamut_apply hs hd, ?_⟩
  intro behavior n input hkind hflag hinput hoperands
  obtain ⟨source, hsource, hs⟩ := exists_presentOutput? (hoperands 0 (by decide))
  obtain ⟨destination, hdestination, hd⟩ := exists_presentOutput? (hoperands 1 (by decide))
  refine ⟨_, ?_, inGamut_blendOutputs mode behavior hinput hs hd⟩
  rw [Node.shade_eq, if_pos hflag, hkind]
  exact Except.bind_eq_ok.mpr ⟨source, hsource,
    Except.bind_eq_ok.mpr ⟨destination, hdestination, rfl⟩⟩

/-- White that excludes the input and is excluded by it. -/
def whiteXorInput : Node :=
  .binary ⟨1⟩ (.blend .xor .composeOne) ⟨false, true⟩
    (some (.leaf ⟨0⟩ (.color .white) .all)) none

/-- A translucent input leaves of white what it does not cover. -/
theorem blending_keeps_gamut_whiteXorInput :
    ∃ input out : Color ℚ, whiteXorInput.kind = .blend .xor .composeOne ∧
      whiteXorInput.optimizations.constantOutput ∧ input.InGamut ∧
      whiteXorInput.shade input = .ok out ∧ out.InGamut := by
  have hinput : (⟨1 / 4, 0, 1 / 2, 1 / 2⟩ : Color ℚ).InGamut := by
    constructor <;> norm_num
  have hwhite : (Color.ofSingle .white : Color ℚ) = .white := by
    simp only [Color.ofSingle, Color.map, Color.white, Scalar.ofSingle_rat, Ieee.toRat_one]
  obtain ⟨out, hout, hgamut⟩ := (blending_keeps_gamut .xor).2 .composeOne whiteXorInput
    ⟨1 / 4, 0, 1 / 2, 1 / 2⟩ rfl rfl hinput fun i hi child hchild => by
      match i with
      | 0 =>
        cases hchild
        exact ⟨_, rfl, hwhite ▸ Color.inGamut_white⟩
      | 1 => cases hchild
  exact ⟨_, out, rfl, rfl, hinput, hout, hgamut⟩

end PixelEffect
