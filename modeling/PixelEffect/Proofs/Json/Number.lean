import PixelEffect.Json.Reader
import PixelEffect.Proofs.Decimal.Numeral

namespace PixelEffect

namespace Numeral

/-- The point and the digits behind it. -/
def fractionChars (n : Numeral) : List Char :=
  if n.fraction.isEmpty then [] else '.' :: n.fraction

/-- Everything from the letter of the exponent on. -/
def powerChars (n : Numeral) : List Char := (n.exponent.map exponentChars).getD []

theorem toChars_eq (n : Numeral) :
    n.toChars =
      (if n.negative then ['-'] else []) ++ (n.whole ++ (n.fractionChars ++ n.powerChars)) := by
  rw [toChars, List.append_assoc, List.append_assoc]
  rfl

/-- A run of digits ends where no digit follows. -/
theorem digitRun_append {ds rest : List Char} (hds : ∀ c, c ∈ ds → c.isDigit)
    (hrest : ∀ c, rest.head? = some c → c.isDigit = false) :
    digitRun (ds ++ rest) = (ds, rest) := by
  have hstop : rest.takeWhile Char.isDigit = [] ∧ rest.dropWhile Char.isDigit = rest := by
    cases rest with
    | nil => exact ⟨rfl, rfl⟩
    | cons c rest => simp [hrest c rfl]
  rw [digitRun, List.takeWhile_append_of_pos hds, List.dropWhile_append_of_pos hds, hstop.1,
    hstop.2, List.append_nil]

end Numeral

namespace Json

open Numeral

/-- No number goes on with the text. -/
def EndsNumber (rest : List Char) : Prop :=
  ∀ c, rest.head? = some c → c.isDigit = false ∧ c ≠ '.' ∧ c ≠ 'e' ∧ c ≠ 'E'

theorem endsNumber_nil : EndsNumber [] := fun _ h => (by cases h)

/-- No number goes on with a character that is no part of any. -/
theorem endsNumber_cons {c : Char} (rest : List Char)
    (h : c.isDigit = false ∧ c ≠ '.' ∧ c ≠ 'e' ∧ c ≠ 'E') : EndsNumber (c :: rest) := by
  intro d hd
  cases hd
  exact h

namespace Reader

variable {n : Numeral} {ds rest : List Char}

theorem ne_of_isDigit {c d : Char} (hc : c.isDigit) (hd : d.isDigit = false) : c ≠ d := by
  rintro rfl
  rw [hc] at hd
  cases hd

/-- Digits are read up to the first character that is none. -/
theorem digits_append (hds : ∀ c, c ∈ ds → c.isDigit) (hne : ds ≠ [])
    (hrest : ∀ c, rest.head? = some c → c.isDigit = false) :
    digits (ds ++ rest) = some (ds, rest) := by
  rw [digits, digitRun_append hds hrest]
  simp [hne]

/-- A whole part is read as it stands. -/
theorem whole_append (h : n.Strict) (hrest : ∀ c, rest.head? = some c → c.isDigit = false) :
    whole (n.whole ++ rest) = some (n.whole, rest) := by
  by_cases hzero : n.whole.head? = some '0'
  · rw [h.leading hzero]
    rfl
  · rw [← digits_append h.whole h.whole_ne hrest, whole]
    intro cs hcs
    rw [List.head?_eq_some_iff] at hzero
    cases hwhole : n.whole with
    | nil => exact h.whole_ne hwhole
    | cons c ds =>
      rw [hwhole] at hcs
      cases hcs
      exact hzero ⟨ds, hwhole⟩

/-- A fraction is read as it stands, and none is read where there is no point. -/
theorem fraction_append (h : n.Strict)
    (hrest : ∀ c, rest.head? = some c → c.isDigit = false ∧ c ≠ '.') :
    fraction (n.fractionChars ++ rest) = some (n.fraction, rest) := by
  unfold fractionChars
  split
  · rename_i hempty
    rw [List.nil_append, List.isEmpty_iff.mp hempty, fraction]
    rintro cs rfl
    exact (hrest '.' rfl).2 rfl
  · rename_i hne
    exact digits_append h.fraction (by simpa using hne) fun c hc => (hrest c hc).1

/-- An exponent is read as it stands, and none is read where there is none. -/
theorem exponent_append (h : n.Strict) (hrest : EndsNumber rest) :
    exponent (n.powerChars ++ rest) = some (n.exponent, rest) := by
  rw [powerChars]
  cases hexponent : n.exponent with
  | none =>
    cases rest with
    | nil => rfl
    | cons c rest =>
      obtain ⟨_, _, he, hE⟩ := hrest c rfl
      simp [exponent, he, hE]
  | some e =>
    obtain ⟨sign, ds⟩ := e
    have hds := h.exponent sign ds hexponent
    have hne := h.exponent_ne sign ds hexponent
    have hread := digits_append hds hne fun c hc => (hrest c hc).1
    rw [Option.map_some, Option.getD_some]
    cases sign with
    | plus | minus =>
      simp only [exponentChars, List.cons_append, exponent, hread]
      rfl
    | absent =>
      cases ds with
      | nil => exact absurd rfl hne
      | cons d ds =>
        have hdigit : d.isDigit := hds d List.mem_cons_self
        have hplus : d ≠ '+' := ne_of_isDigit hdigit rfl
        have hminus : d ≠ '-' := ne_of_isDigit hdigit rfl
        rw [List.cons_append] at hread
        simp [exponentChars, exponent, hplus, hminus, hread]

theorem head?_powerChars (h : EndsNumber rest) {c : Char}
    (hc : (n.powerChars ++ rest).head? = some c) : c.isDigit = false ∧ c ≠ '.' := by
  rw [powerChars] at hc
  cases hexponent : n.exponent with
  | none =>
    rw [hexponent] at hc
    exact ⟨(h c hc).1, (h c hc).2.1⟩
  | some e =>
    obtain ⟨sign, ds⟩ := e
    rw [hexponent] at hc
    cases sign <;> cases hc <;> decide

theorem head?_fractionChars (h : EndsNumber rest) {c : Char}
    (hc : (n.fractionChars ++ (n.powerChars ++ rest)).head? = some c) : c.isDigit = false := by
  rw [fractionChars] at hc
  split at hc
  · exact (head?_powerChars h hc).1
  · cases hc
    rfl

/-- A number behind its sign. -/
def unsigned (negative : Bool) : Reader Numeral := fun cs => do
  let (whole, cs) ← whole cs
  let (fraction, cs) ← fraction cs
  let (exponent, cs) ← exponent cs
  let n : Numeral := { negative, whole, fraction, exponent }
  if (JsonNumber.ofNumeral n).isSome then some (n, cs) else none

theorem numeral_of_ne {c : Char} (h : c ≠ '-') (cs : List Char) :
    numeral (c :: cs) = unsigned false (c :: cs) := by
  simp only [numeral, unsigned]
  split
  · rename_i hcs
    cases hcs
    contradiction
  · rfl

/-- A numeral is read back behind its sign, if it is in range at all. -/
theorem unsigned_append (h : n.Strict) (hrest : EndsNumber rest) :
    unsigned n.negative (n.whole ++ (n.fractionChars ++ (n.powerChars ++ rest))) =
      if (JsonNumber.ofNumeral n).isSome then some (n, rest) else none := by
  have hwhole := whole_append h fun _ hc => head?_fractionChars (n := n) hrest hc
  have hfraction := fraction_append h fun _ hc => head?_powerChars (n := n) hrest hc
  have hexponent := exponent_append h hrest
  simp only [unsigned, hwhole, hfraction, hexponent, Option.bind_eq_bind, Option.bind_some]

/-- A numeral is read as it was written, or refused for being out of range. -/
theorem numeral_append (h : n.Strict) (hrest : EndsNumber rest) :
    numeral (n.toChars ++ rest) =
      if (JsonNumber.ofNumeral n).isSome then some (n, rest) else none := by
  rw [← unsigned_append h hrest, toChars_eq]
  simp only [List.append_assoc]
  cases n.negative with
  | true => rfl
  | false =>
    cases hwhole : n.whole with
    | nil => exact absurd hwhole h.whole_ne
    | cons c ds =>
      have hdigit : c.isDigit := h.whole c (by rw [hwhole]; exact List.mem_cons_self)
      exact numeral_of_ne (ne_of_isDigit hdigit rfl) _

end Reader

end Json

end PixelEffect
