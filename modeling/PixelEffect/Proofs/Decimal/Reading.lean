import PixelEffect.Decimal.Reader
import PixelEffect.Proofs.Decimal.Value
import PixelEffect.Proofs.Json.Number

namespace PixelEffect

namespace Numeral

variable {n : Numeral} {ds rest : List Char}

/-- A written exponent is read to its end. -/
theorem exponentEnd?_powerChars (h : n.Strict) : exponentEnd? n.powerChars = some n.exponent := by
  rw [powerChars]
  cases hexponent : n.exponent with
  | none => rfl
  | some e =>
    obtain ⟨sign, ds⟩ := e
    have hds := h.exponent sign ds hexponent
    have hne := h.exponent_ne sign ds hexponent
    have hread : digitRun ds = (ds, []) := by
      have hread : digitRun (ds ++ []) = (ds, []) := digitRun_append hds (by simp)
      rwa [List.append_nil] at hread
    rw [Option.map_some, Option.getD_some]
    cases sign with
    | plus | minus => simp [exponentChars, exponentEnd?, hread, hne]
    | absent =>
      cases ds with
      | nil => exact absurd rfl hne
      | cons d ds =>
        have hdigit : d.isDigit := hds d List.mem_cons_self
        have hplus : d ≠ '+' := Json.Reader.ne_of_isDigit hdigit rfl
        have hminus : d ≠ '-' := Json.Reader.ne_of_isDigit hdigit rfl
        simp [exponentChars, exponentEnd?, hplus, hminus, hread]

/-- A numeral is read as it was written. -/
theorem unsigned?_toChars (h : n.Strict) :
    unsigned? n.negative (n.whole ++ (n.fractionChars ++ n.powerChars)) = some n := by
  have hend : Json.EndsNumber [] := Json.endsNumber_nil
  have hwhole : digitRun (n.whole ++ (n.fractionChars ++ n.powerChars)) =
      (n.whole, n.fractionChars ++ n.powerChars) := by
    refine digitRun_append h.whole fun c hc => ?_
    exact Json.Reader.head?_fractionChars hend (by simpa using hc)
  have hpower : ∀ c, n.powerChars.head? = some c → c.isDigit = false ∧ c ≠ '.' :=
    fun c hc => Json.Reader.head?_powerChars hend (by simpa using hc)
  simp only [unsigned?, hwhole]
  by_cases hfraction : n.fraction = []
  · have hnone : n.fractionChars = [] := by simp [fractionChars, hfraction]
    rw [hnone, List.nil_append]
    split
    · rename_i rest hrest
      exact absurd rfl (hpower '.' (by rw [hrest]; rfl)).2
    · simp only [exponentEnd?_powerChars h, Option.map_some]
      rw [if_neg (by simp [h.whole_ne]), ← hfraction]
  · have hsome : n.fractionChars = '.' :: n.fraction := by simp [fractionChars, hfraction]
    rw [hsome, List.cons_append]
    simp only [digitRun_append h.fraction fun c hc => (hpower c hc).1, exponentEnd?_powerChars h,
      Option.map_some]
    rw [if_neg (by simp [h.whole_ne])]

/-- The sign of a numeral is taken off before anything else is read. -/
theorem signed_toChars (h : n.Strict) :
    signed n.toChars = (n.negative, n.whole ++ (n.fractionChars ++ n.powerChars)) := by
  rw [toChars_eq]
  cases n.negative with
  | true => rfl
  | false =>
    cases hwhole : n.whole with
    | nil => exact absurd hwhole h.whole_ne
    | cons c ds =>
      have hdigit : c.isDigit := h.whole c (by rw [hwhole]; exact List.mem_cons_self)
      have hplus : c ≠ '+' := Json.Reader.ne_of_isDigit hdigit rfl
      have hminus : c ≠ '-' := Json.Reader.ne_of_isDigit hdigit rfl
      simp [signed, hplus, hminus]

/-- A digit is no letter that could be made small. -/
theorem toLower_of_isDigit {c : Char} (h : c.isDigit) : c.toLower = c := by
  simp only [Char.isDigit, Bool.and_eq_true, decide_eq_true_eq] at h
  rw [Char.toLower, dif_neg]
  rintro ⟨hupper, _⟩
  exact absurd (UInt32.le_trans hupper h.2) (by decide)

/-- A text that begins with a digit is no word that begins with anything else. -/
theorem lower_ne (h : n.Strict) {c : Char} (hc : c.isDigit = false) (cs : List Char) :
    String.ofList ((n.whole ++ rest).map Char.toLower) ≠ String.ofList (c :: cs) := by
  intro hword
  have hlist := String.ofList_injective hword
  cases hwhole : n.whole with
  | nil => exact h.whole_ne hwhole
  | cons d ds =>
    have hdigit : d.isDigit := h.whole d (by rw [hwhole]; exact List.mem_cons_self)
    rw [hwhole, List.cons_append, List.map_cons, toLower_of_isDigit hdigit] at hlist
    rw [(List.cons_eq_cons.mp hlist).1, hc] at hdigit
    cases hdigit

end Numeral

/-- A finite number is written as a numeral. -/
theorem NumberStyle.text_of_isFinite (style : NumberStyle) {x : Single} (hx : x.isFinite) :
    style.text x = String.ofList (style.numeral x).toChars := by
  rw [text, (Ieee.isFinite_iff.mp hx).1, if_neg (by decide), if_pos hx]

namespace Ieee

open Numeral

/-- A numeral is read as the number nearest to it. -/
theorem ofText_toChars {n : Numeral} (h : n.Strict) :
    ofText (String.ofList n.toChars) = .ok n.nearest := by
  have hne : n.toChars.isEmpty = false := by
    rw [toChars_eq, List.isEmpty_eq_false_iff]
    simp [h.whole_ne]
  have hword : ∀ cs : List Char,
      String.ofList ((n.whole ++ (n.fractionChars ++ n.powerChars)).map Char.toLower) ≠
        String.ofList ('i' :: cs) := lower_ne h rfl
  have hnan : String.ofList ((n.whole ++ (n.fractionChars ++ n.powerChars)).map Char.toLower) ≠
      "nan" := lower_ne h rfl ['a', 'n']
  have hinfinity := not_or.mpr ⟨hword ['n', 'f'], hword ['n', 'f', 'i', 'n', 'i', 't', 'y']⟩
  simp only [ofText, String.toList_ofList, hne, signed_toChars h, unsigned?_toChars h]
  rw [if_neg (by decide), if_neg hinfinity, if_neg hnan]

/-- A finite number is written as a text that is read as the same number, bit for bit. -/
theorem ofText_text (style : NumberStyle) {x : Single} (hx : x.isFinite) :
    ofText (style.text x) = .ok x := by
  rw [style.text_of_isFinite hx, ofText_toChars (NumberStyle.strict_numeral style x),
    nearest_numeral style hx]

example : NumberStyle.floating.text (ofUInt32 0x3dcccccd) = "0.1" ∧
    ofText "1e-1" = .ok (ofUInt32 0x3dcccccd) := by
  decide +kernel

end Ieee

end PixelEffect
