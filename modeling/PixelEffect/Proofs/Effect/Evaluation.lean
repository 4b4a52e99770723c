import PixelEffect.Proofs.Effect.Standard

open Float.Model

namespace PixelEffect

namespace Scalar

variable {x : Single}

/-- Zero is a lower bound of every number but the negative ones, and of no NaN. -/
theorem zero_le (x : Single) : le 0 x = (!x.isNaN && !lt x 0) := by
  have hzero : (0 : Single).unpack = .zero .positive := rfl
  change Ieee.le 0 x = (!x.isNaN && !Ieee.lt x 0)
  unfold Ieee.isNaN Ieee.lt Ieee.le
  rw [hzero]
  cases x.unpack with
  | notANumber | zero => rfl
  | infinity sign => cases sign <;> rfl
  | finite sign m e hm => cases sign <;> rfl

/-- A NaN is neither below nor above the unit interval. -/
theorem unit_of_isNaN (h : x.isNaN) : unit x = x := by
  have hunpack : x.unpack = .notANumber := by
    unfold Ieee.isNaN at h
    split at h
    · assumption
    · cases h
  have hbelow : lt x 0 = false := by
    change UnpackedFloat.lt x.unpack _ = false
    rw [hunpack]
    rfl
  have habove : lt 1 x = false := by
    change UnpackedFloat.lt _ x.unpack = false
    rw [hunpack]
    rfl
  simp [unit, between, hbelow, habove]

/-- An alpha that was brought into the unit interval bounds other channels, unless it is a NaN. -/
theorem zero_le_unit (x : Single) : le 0 (unit x) = !x.isNaN := by
  cases hnan : x.isNaN with
  | true =>
    rw [unit_of_isNaN hnan, zero_le, hnan]
    rfl
  | false =>
    unfold unit between
    split
    · rfl
    · rename_i hlow
      split
      · rfl
      · rw [zero_le, hnan]
        simpa using hlow

end Scalar

/-- Premultiplied clamping fails on a NaN for alpha and on nothing else. -/
theorem Color.clampPremul_eq_error {c : Color Single} {e : Failure} :
    c.clampPremul = .error e ↔ c.a.isNaN ∧ e = .violation .clampBounds := by
  have halpha : Scalar.clamp 0 1 c.a = .ok (Scalar.unit c.a) := rfl
  have hbound := Scalar.zero_le_unit c.a
  unfold clampPremul
  rw [halpha]
  cases hnan : c.a.isNaN with
  | true =>
    rw [hnan] at hbound
    simp [bind, Except.bind, Scalar.clamp, hbound, eq_comm]
  | false =>
    rw [hnan] at hbound
    simp [bind, Except.bind, pure, Except.pure, Scalar.clamp, hbound]

namespace Kind

/-- The color that an effect evaluates the operand in slot `i` with. -/
def operandInput (kind : Kind) (operands : List (Option (Shade Single))) (i : Nat) :
    Shade Single := fun input =>
  match kind with
  | overrideInput c _ => .ok c
  | premul => .ok .white
  | compose => if i = 0 then operandOutput operands 1 input else .ok input
  | blend _ behavior => .ok (behavior.probe input)
  | _ => .ok input

/-- The effect is a premultiplied clamp, and the color that it has to clamp has a NaN for alpha. -/
def ClampsNaN (kind : Kind) (operands : List (Option (Shade Single))) (input : Color Single) :
    Prop :=
  kind = clamp true ∧ ∃ c, operandOutput operands 0 input = .ok c ∧ c.a.isNaN

end Kind

section Operands

variable {operands : List (Option (Shade Single))} {i : Nat} {input : Color Single} {e : Failure}

theorem presentOutput?_eq_error :
    presentOutput? operands i input = .error e ↔ operandOutput operands i input = .error e := by
  unfold presentOutput? operandOutput
  cases operands[i]?.join with
  | none => exact ⟨fun h => (by cases h), fun h => (by cases h)⟩
  | some s => exact Except.map_eq_error

/-- There is nothing to evaluate behind the last operand. -/
theorem lt_length_of_operandOutput_eq_error (h : operandOutput operands i input = .error e) :
    i < operands.length := by
  by_contra hi
  rw [operandOutput, List.getElem?_eq_none (Nat.le_of_not_lt hi)] at h
  cases h

/-- An effect fails because an operand does or because it fails by itself. -/
theorem Kind.output_eq_error {kind : Kind}
    (h : kind.output unknownElsewhere operands input = .error e) :
    (∃ i c, kind.operandInput operands i input = .ok c ∧ operandOutput operands i c = .error e) ∨
      (kind.ClampsNaN operands input ∧ e = .violation .clampBounds) ∨
      kind.effectClass = .destColor ∨ kind.effectClass = .linearGradient := by
  cases kind with
  | color => cases h
  | destColor => exact .inr (.inr (.inl rfl))
  | linearGradient => exact .inr (.inr (.inr rfl))
  | overrideInput | deviceSpace | matrix => exact .inl ⟨0, _, rfl, h⟩
  | swizzle | colorMatrix => exact .inl ⟨0, _, rfl, Except.map_eq_error.mp h⟩
  | premul =>
    obtain h | ⟨_, _, h⟩ := Except.bind_eq_error.mp h
    · exact .inl ⟨0, _, rfl, h⟩
    · cases h
  | clamp premul =>
    cases premul with
    | false => exact .inl ⟨0, _, rfl, Except.map_eq_error.mp h⟩
    | true =>
      obtain h | ⟨c, hc, h⟩ := Except.bind_eq_error.mp h
      · exact .inl ⟨0, _, rfl, h⟩
      · obtain ⟨hnan, rfl⟩ := Color.clampPremul_eq_error.mp h
        exact .inr (.inl ⟨⟨rfl, c, hc, hnan⟩, rfl⟩)
  | compose =>
    obtain h | ⟨c, hc, h⟩ := Except.bind_eq_error.mp h
    · exact .inl ⟨1, _, rfl, h⟩
    · exact .inl ⟨0, c, hc, h⟩
  | blend mode behavior =>
    obtain h | ⟨_, _, h⟩ := Except.bind_eq_error.mp h
    · exact .inl ⟨0, _, rfl, presentOutput?_eq_error.mp h⟩
    · obtain h | ⟨_, _, h⟩ := Except.bind_eq_error.mp h
      · exact .inl ⟨1, _, rfl, presentOutput?_eq_error.mp h⟩
      · cases h

/-- An effect fails where one of its operands does. Two of them may fail in different ways. -/
theorem Kind.output_fails_of_operand {kind : Kind} {elsewhere : Kind → Shade Single}
    (harity : operands.length = kind.arity) {c : Color Single}
    (hinput : kind.operandInput operands i input = .ok c)
    (h : operandOutput operands i c = .error e) :
    ∃ e, kind.output elsewhere operands input = .error e := by
  have hi := lt_length_of_operandOutput_eq_error h
  rw [harity] at hi
  cases kind with
  | color | destColor | linearGradient => cases hi
  | overrideInput | deviceSpace | matrix =>
    obtain rfl := Nat.lt_one_iff.mp hi
    cases hinput
    exact ⟨e, h⟩
  | swizzle | colorMatrix =>
    obtain rfl := Nat.lt_one_iff.mp hi
    cases hinput
    exact ⟨e, Except.map_eq_error.mpr h⟩
  | premul =>
    obtain rfl := Nat.lt_one_iff.mp hi
    cases hinput
    exact ⟨e, Except.bind_eq_error.mpr (.inl h)⟩
  | clamp premul =>
    obtain rfl := Nat.lt_one_iff.mp hi
    cases hinput
    cases premul with
    | false => exact ⟨e, Except.map_eq_error.mpr h⟩
    | true => exact ⟨e, Except.bind_eq_error.mpr (.inl h)⟩
  | compose =>
    match i, hi with
    | 0, _ => exact ⟨e, Except.bind_eq_error.mpr (.inr ⟨c, hinput, h⟩)⟩
    | 1, _ =>
      cases hinput
      exact ⟨e, Except.bind_eq_error.mpr (.inl h)⟩
  | blend mode behavior =>
    cases hinput
    match i, hi with
    | 0, _ => exact ⟨e, Except.bind_eq_error.mpr (.inl (presentOutput?_eq_error.mpr h))⟩
    | 1, _ =>
      -- The first operand goes first, so its failure hides that of the second one.
      cases hsource : presentOutput? operands 0 (behavior.probe input) with
      | error e' => exact ⟨e', Except.bind_eq_error.mpr (.inl hsource)⟩
      | ok source =>
        refine ⟨e, Except.bind_eq_error.mpr (.inr ⟨source, hsource, ?_⟩)⟩
        exact Except.bind_eq_error.mpr (.inl (presentOutput?_eq_error.mpr h))

end Operands

namespace Node

/-- Evaluating the first tree with the first color evaluates the second tree, which is a part of it,
with the second color. -/
inductive Evaluates : Node → Color Single → Node → Color Single → Prop
  | self (n : Node) (c : Color Single) : Evaluates n c n c
  | operand {n child m : Node} {i : Nat} {c d e : Color Single}
      (hchild : n.slots[i]?.join = some child)
      (hinput : n.kind.operandInput (n.slots.map (Option.map shade)) i c = .ok d)
      (hbelow : Evaluates child d m e) : Evaluates n c m e

/-- Evaluating the tree comes to a premultiplied clamp of a color that has a NaN for alpha. -/
def MeetsNaN (n : Node) (input : Color Single) : Prop :=
  ∃ m c, n.Evaluates input m c ∧ m.kind.ClampsNaN (m.slots.map (Option.map shade)) c

/-- A marked node evaluates its effect, any other one refuses to. -/
theorem shade_eq {α : Type} [Scalar α] (n : Node) (input : Color α) :
    n.shade input =
      if n.optimizations.constantOutput then
        n.kind.output Kind.unknownElsewhere (n.slots.map (Option.map shade)) input
      else .error (.error (.evaluation (.notConstant n.name))) := by
  cases n
  simp only [shade, shades_eq_map]
  rfl

/-- The operand in a slot is the child that hangs there. -/
theorem operandOutput_slots {n child : Node} {i : Nat} (h : n.slots[i]?.join = some child) :
    operandOutput (n.slots.map (Option.map shade)) i = child.shade (α := Single) := by
  rw [operandOutput, join_getElem?_map, h]
  rfl

/-- A tree fails where one of its parts fails that its evaluation comes to. -/
theorem Standard.fails_of_evaluates {n m : Node} {input c : Color Single} (h : n.Standard)
    (hm : n.Evaluates input m c) (hfails : ∃ e, m.shade c = .error e) :
    ∃ e, n.shade input = .error e := by
  induction hm with
  | self => exact hfails
  | @operand n child m i c d _ hchild hinput _ ih =>
    obtain ⟨haccepts, _, hstandard⟩ := standard_iff.mp h
    have hmem := List.mem_of_getElem? (Option.join_eq_some_iff.mp hchild)
    obtain ⟨e, he⟩ := ih (hstandard child hmem) hfails
    rw [← operandOutput_slots hchild] at he
    rw [shade_eq]
    split
    · exact Kind.output_fails_of_operand (by simpa using haccepts.1) hinput he
    · exact ⟨_, rfl⟩

/-- On a marked tree nothing but a premultiplied clamp ends an evaluation. -/
theorem Standard.meetsNaN_of_fails {n : Node} {input : Color Single} {e : Failure}
    (h : n.Standard) (hconstant : n.optimizations.constantOutput)
    (he : n.shade input = .error e) : e = .violation .clampBounds ∧ n.MeetsNaN input := by
  induction n generalizing input with
  | mk data slots ih =>
    obtain ⟨hdestination, hgradient, hmarked⟩ := h.constantOutput_iff.mp hconstant
    obtain ⟨_, _, hchildren⟩ := standard_iff.mp h
    rw [shade_eq, if_pos hconstant] at he
    obtain ⟨i, c, hinput, hc⟩ | ⟨hclamps, rfl⟩ | helsewhere := Kind.output_eq_error he
    · cases hslot : slots[i]?.join with
      | none =>
        rw [operandOutput, Node.slots, join_getElem?_map, hslot] at hc
        cases hc
      | some child =>
        rw [operandOutput_slots hslot] at hc
        have hmem := List.mem_of_getElem? (Option.join_eq_some_iff.mp hslot)
        obtain ⟨he, m, d, hm, hclamps⟩ :=
          ih child hmem (hchildren child hmem) (hmarked child hmem) hc
        exact ⟨he, m, d, .operand hslot hinput hm, hclamps⟩
    · exact ⟨rfl, _, _, .self _ _, hclamps⟩
    · rcases helsewhere with hclass | hclass
      · exact absurd hclass hdestination
      · exact absurd hclass hgradient

/-- Where a clamp is handed a NaN for alpha, the evaluation fails. -/
theorem fails_of_clampsNaN {n : Node} {input : Color Single}
    (h : n.kind.ClampsNaN (n.slots.map (Option.map shade)) input) :
    ∃ e, n.shade input = .error e := by
  obtain ⟨hkind, c, hc, hnan⟩ := h
  rw [shade_eq]
  split
  · rw [hkind]
    exact ⟨_, Except.bind_eq_error.mpr
      (.inr ⟨c, hc, Color.clampPremul_eq_error.mpr ⟨hnan, rfl⟩⟩)⟩
  · exact ⟨_, rfl⟩

/-- On a marked tree an evaluation has no result exactly if it comes to a premultiplied clamp of a
color that has a NaN for alpha. -/
theorem Standard.shade_eq_error_iff {n : Node} {input : Color Single} {e : Failure}
    (h : n.Standard) (hconstant : n.optimizations.constantOutput) :
    n.shade input = .error e ↔ e = .violation .clampBounds ∧ n.MeetsNaN input := by
  refine ⟨h.meetsNaN_of_fails hconstant, ?_⟩
  rintro ⟨rfl, m, c, hm, hclamps⟩
  obtain ⟨e, he⟩ := h.fails_of_evaluates hm (fails_of_clampsNaN hclamps)
  rw [he, (h.meetsNaN_of_fails hconstant he).1]

/-- A tree that is not marked reports an error, and every other evaluation that breaks a rule of the
library is one of a premultiplied clamp. -/
theorem Standard.shade_eq_violation_iff {n : Node} {input : Color Single} {v : Violation}
    (h : n.Standard) :
    n.shade input = .error (.violation v) ↔
      v = .clampBounds ∧ n.optimizations.constantOutput ∧ n.MeetsNaN input := by
  by_cases hconstant : n.optimizations.constantOutput
  · simp [h.shade_eq_error_iff hconstant, hconstant]
  · simp [shade_eq, hconstant]

end Node

end PixelEffect
