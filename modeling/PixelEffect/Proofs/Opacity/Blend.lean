import PixelEffect.Blend
import PixelEffect.Node.Evaluation
import PixelEffect.Proofs.Number.UnitInterval
import PixelEffect.Proofs.Results

namespace PixelEffect

open Ieee

namespace Color

/-- A color is opaque if its alpha is one. -/
theorem isOpaque_iff {c : Color Single} : c.isOpaque ↔ c.a.IsOne := isOne_iff.symm

theorem isOpaque_white : (white : Color Single).isOpaque := isOpaque_iff.mpr isOne_one

/-- Bounding the channels leaves an alpha of one as it is. -/
theorem isOpaque_saturate {c : Color Single} (h : c.isOpaque) : c.saturate.isOpaque := by
  rw [isOpaque_iff] at h ⊢
  exact h.unit

/-- Clamping leaves an alpha of one as it is. -/
theorem isOpaque_of_clampPremul {c out : Color Single} (h : c.isOpaque)
    (hout : c.clampPremul = .ok out) : out.isOpaque := by
  obtain ⟨a, ha, hout⟩ := Except.bind_eq_ok.mp hout
  obtain ⟨r, _, hout⟩ := Except.bind_eq_ok.mp hout
  obtain ⟨g, _, hout⟩ := Except.bind_eq_ok.mp hout
  obtain ⟨b, _, hout⟩ := Except.bind_eq_ok.mp hout
  cases hout
  rw [isOpaque_iff] at h ⊢
  have hunit : Scalar.unit c.a = a := by
    unfold Scalar.clamp at ha
    split at ha
    · exact Except.ok.inj ha
    · cases ha
  rw [← hunit]
  exact h.unit

theorem isOpaque_scale {c : Color Single} {s : Single} (h : c.isOpaque) (hs : s.IsOne) :
    (c.scale s).isOpaque := by
  rw [isOpaque_iff] at h ⊢
  exact h.mul hs

end Color

/-- A swizzle keeps opacity if its fourth character is alpha or one. -/
theorem Swizzle.apply_isOpaque {s : Swizzle} {c : Color Single} (hkeeps : s.keepsOpaque)
    (h : c.isOpaque) : (s.apply c).isOpaque := by
  simp only [keepsOpaque, Bool.or_eq_true, decide_eq_true_eq] at hkeeps
  rcases hkeeps with halpha | hone
  · simp only [apply, halpha]
    exact h
  · simp only [apply, hone]
    exact Color.isOpaque_white

namespace BlendMode

/-- The operands have alphas from which the mode computes without an error that matters. One itself
is near its sum with one. -/
structure Exact (mode : BlendMode) (s d : Color Single) : Prop where
  source : s.a.InUnit
  destination : d.a.InUnit
  screen : mode = .screen → s.a.NearSum ∧ d.a.NearSum

/-- Where a mode keeps opacity for some operands, it does for more opaque ones. -/
theorem keepsOpaque_mono {mode : BlendMode} {s d s' d' : Bool} (hs : s → s') (hd : d → d')
    (h : mode.keepsOpaque s d) : mode.keepsOpaque s' d' := by
  cases mode <;> revert s d s' d' <;> decide

/-- The table of modes is right. -/
theorem apply_isOpaque {mode : BlendMode} {s d : Color Single} (hexact : mode.Exact s d)
    (hkeeps : mode.keepsOpaque s.isOpaque d.isOpaque) : (mode.apply s d).isOpaque := by
  obtain ⟨hs, hd, hscreen⟩ := hexact
  obtain ⟨m, hmle, hm⟩ := hs.units
  obtain ⟨n, hnle, hn⟩ := hd.units
  rw [Color.isOpaque_iff]
  cases mode with
  | clear | srcOut | dstOut | xor => simp [keepsOpaque] at hkeeps
  | src | dst => exact Color.isOpaque_iff.mp hkeeps
  | srcIn | modulate =>
    obtain ⟨hs, hd⟩ := Bool.and_eq_true_iff.mp hkeeps
    exact (Color.isOpaque_iff.mp hs).mul (Color.isOpaque_iff.mp hd)
  | dstIn =>
    obtain ⟨hs, hd⟩ := Bool.and_eq_true_iff.mp hkeeps
    exact (Color.isOpaque_iff.mp hd).mul (Color.isOpaque_iff.mp hs)
  | srcOver =>
    rcases Bool.or_eq_true_iff.mp hkeeps with h | h
    · exact (Color.isOpaque_iff.mp h).add_mul_sub_self hn
    · exact hs.add_mul_sub (Color.isOpaque_iff.mp h) rfl
  | dstOver =>
    rcases Bool.or_eq_true_iff.mp hkeeps with h | h
    · exact hd.add_mul_sub (Color.isOpaque_iff.mp h) rfl
    · exact (Color.isOpaque_iff.mp h).add_mul_sub_self hm
  | srcATop =>
    have hd := Color.isOpaque_iff.mp hkeeps
    exact hs.add_mul_sub hd ((units?_mul_one hm hd).trans hm.symm)
  | dstATop =>
    have hs := Color.isOpaque_iff.mp hkeeps
    exact hd.add_mul_sub hs ((units?_mul_one hn hs).trans hn.symm)
  | plus =>
    have hone : Scalar.atMostOne (s.a + d.a) = 1 := by
      rcases Bool.or_eq_true_iff.mp hkeeps with h | h
      · exact atMostOne_of_units (units?_one_add hn hnle (Color.isOpaque_iff.mp h))
      · exact atMostOne_of_units (units?_add_one hm hmle (Color.isOpaque_iff.mp h))
    have halpha : (apply plus s d).a = Scalar.atMostOne (s.a + d.a) := rfl
    rw [halpha, hone]
    exact isOne_one
  | screen =>
    have halpha : (apply screen s d).a = (s.a + d.a) + (s.a * d.a) * (-1) := rfl
    rw [halpha]
    obtain ⟨hsource, hdestination⟩ := hscreen rfl
    rcases Bool.or_eq_true_iff.mp hkeeps with h | h
    · have hone := Color.isOpaque_iff.mp h
      have hsum := units?_one_add hn hnle hone
      exact (screen_isOne_iff hn hnle hsum (units?_one_mul hn hone)).mpr hdestination
    · have hone := Color.isOpaque_iff.mp h
      have hsum := units?_add_one hm hmle hone
      exact (screen_isOne_iff hm hmle hsum (units?_mul_one hm hone)).mpr hsource

end BlendMode

end PixelEffect
