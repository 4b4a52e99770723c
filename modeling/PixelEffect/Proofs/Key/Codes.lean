import PixelEffect.ProgramKey

namespace PixelEffect

/-- Codes that can be looked up in a table tell apart what they stand for. -/
theorem eq_of_code_eq {α : Type} {code : α → UInt32} (table : List α)
    (hlookup : ∀ x, table[(code x).toNat]? = some x) {x y : α} (h : code x = code y) : x = y := by
  have hx := hlookup x
  rw [h, hlookup y] at hx
  exact (Option.some.inj hx).symm

/-- Effects are numbered without repetition. -/
theorem EffectClass.code_injective {x y : EffectClass} (h : x.code = y.code) : x = y := by
  -- No class has the number zero, so the first entry of the table stands for nothing.
  refine eq_of_code_eq [color, color, overrideInput, destColor, swizzle, premul, compose, blend,
    colorMatrix, clamp, deviceSpace, matrix, linearGradient] ?_ h
  intro x
  cases x <;> rfl

theorem BlendMode.code_injective {x y : BlendMode} (h : x.code = y.code) : x = y :=
  eq_of_code_eq all (by intro x; cases x <;> rfl) h

theorem BlendBehavior.code_injective {x y : BlendBehavior} (h : x.code = y.code) : x = y :=
  eq_of_code_eq all (by intro x; cases x <;> rfl) h

theorem Channel.code_injective {x y : Channel} (h : x.code = y.code) : x = y :=
  eq_of_code_eq [r, g, b, a, zero, one] (by intro x; cases x <;> rfl) h

/-- The number of a channel takes four bits. -/
theorem Channel.code_lt (c : Channel) : c.code.toNat < 16 := by
  cases c <;> decide

/-- A digit above the ones that are there already is added. -/
theorem toNat_or_shiftLeft {low digit : UInt32} (k : UInt32) (hlow : low.toNat < 1 <<< k.toNat)
    (hdigit : digit.toNat < 16) (hk : k.toNat < 28) :
    (low ||| digit <<< k).toNat = low.toNat + digit.toNat <<< k.toNat := by
  rw [Nat.shiftLeft_eq, Nat.one_mul] at hlow
  have hfits : digit.toNat * 2 ^ k.toNat < 2 ^ 32 := by
    have hpow : 2 ^ k.toNat ≤ 2 ^ 27 := Nat.pow_le_pow_right (by omega) (by omega)
    have hmul : digit.toNat * 2 ^ k.toNat ≤ digit.toNat * 2 ^ 27 := Nat.mul_le_mul_left _ hpow
    omega
  rw [UInt32.toNat_or, UInt32.toNat_shiftLeft, Nat.mod_eq_of_lt (by omega : k.toNat < 32),
    Nat.mod_eq_of_lt (by rw [Nat.shiftLeft_eq]; exact hfits), Nat.or_comm,
    ← Nat.shiftLeft_add_eq_or_of_lt hlow, Nat.add_comm]

/-- The channels of a swizzle are the hexadecimal digits of its code. -/
theorem Swizzle.code_toNat (s : Swizzle) :
    s.code.toNat = s.r.code.toNat + 16 * s.g.code.toNat + 256 * s.b.code.toNat
      + 4096 * s.a.code.toNat := by
  have hr := s.r.code_lt
  have hg := s.g.code_lt
  have hb := s.b.code_lt
  have hrg : (s.r.code ||| s.g.code <<< 4).toNat = s.r.code.toNat + s.g.code.toNat <<< 4 :=
    toNat_or_shiftLeft 4 hr hg (by decide)
  have hrgb : (s.r.code ||| s.g.code <<< 4 ||| s.b.code <<< 8).toNat =
      (s.r.code ||| s.g.code <<< 4).toNat + s.b.code.toNat <<< 8 :=
    toNat_or_shiftLeft 8 (by rw [hrg]; simp; omega) hb (by decide)
  have hrgba : s.code.toNat =
      (s.r.code ||| s.g.code <<< 4 ||| s.b.code <<< 8).toNat + s.a.code.toNat <<< 12 :=
    toNat_or_shiftLeft 12 (by rw [hrgb, hrg]; simp; omega) s.a.code_lt (by decide)
  omega

/-- The numbers of four channels stand side by side in one word. -/
theorem Swizzle.code_injective {x y : Swizzle} (h : x.code = y.code) : x = y := by
  have hnat := congrArg UInt32.toNat h
  rw [code_toNat, code_toNat] at hnat
  have hxr := x.r.code_lt
  have hxg := x.g.code_lt
  have hxb := x.b.code_lt
  have hyr := y.r.code_lt
  have hyg := y.g.code_lt
  have hyb := y.b.code_lt
  have hr : x.r = y.r := Channel.code_injective (UInt32.toNat_inj.mp (by omega))
  have hg : x.g = y.g := Channel.code_injective (UInt32.toNat_inj.mp (by omega))
  have hb : x.b = y.b := Channel.code_injective (UInt32.toNat_inj.mp (by omega))
  have ha : x.a = y.a := Channel.code_injective (UInt32.toNat_inj.mp (by omega))
  cases x
  cases y
  simp_all

/-- How a child is sampled can be read off its number. -/
theorem Sampling.code_injective {x y : Sampling} (h : x.code = y.code) : x = y := by
  refine eq_of_code_eq [⟨.none, false⟩, ⟨.passThrough, false⟩, ⟨.uniformMatrix, false⟩,
    ⟨.explicit, false⟩, ⟨.none, true⟩, ⟨.passThrough, true⟩, ⟨.uniformMatrix, true⟩,
    ⟨.explicit, true⟩] ?_ h
  rintro ⟨kind, hasPerspective⟩
  cases kind <;> cases hasPerspective <;> rfl

/-- No child is sampled in a way that could be taken for an empty slot. -/
theorem Sampling.code_ne_emptySlotWord (x : Sampling) : x.code ≠ emptySlotWord := by
  obtain ⟨kind, hasPerspective⟩ := x
  cases kind <;> cases hasPerspective <;> decide

theorem KeyField.toWord_flag_injective {x y : Bool}
    (h : (KeyField.flag x).toWord = (KeyField.flag y).toWord) : x = y := by
  cases x <;> cases y <;> first | rfl | exact absurd h (by decide)

theorem KeyField.toWord_number_injective {x y : Single}
    (h : (KeyField.number x).toWord = (KeyField.number y).toWord) : x = y := by
  cases x
  cases y
  exact congrArg Ieee.mk (congrArg UInt32.toBitVec h)

end PixelEffect
