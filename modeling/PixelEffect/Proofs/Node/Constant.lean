import PixelEffect.Proofs.Node.Paint

namespace PixelEffect

/-- Any two results are equal. -/
def Shade.Constant {α : Type} (s : Shade α) : Prop :=
  ∀ input input' c c', s input = .ok c → s input' = .ok c' → c = c'

section Operands

variable {α : Type} {operands : List (Option (Shade α))} {i : Nat}

/-- An operand that is constant makes the same of every input. -/
theorem operandOutput_constant
    (h : ∃ s, operands[i]?.join = some s ∧ s.Constant) :
    Shade.Constant (operandOutput operands i) := by
  obtain ⟨s, hs, hconstant⟩ := h
  unfold operandOutput
  rw [hs]
  exact hconstant

/-- A constant operand is present, and what it yields is the same each time. -/
theorem presentOutput?_of_constant {input input' : Color α} {c c' : Option (Color α)}
    (h : ∃ s, operands[i]?.join = some s ∧ s.Constant)
    (hc : presentOutput? operands i input = .ok c)
    (hc' : presentOutput? operands i input' = .ok c') : ∃ out, c = some out ∧ c' = some out := by
  obtain ⟨s, hs, hconstant⟩ := h
  unfold presentOutput? at hc hc'
  rw [hs] at hc hc'
  obtain ⟨out, hout, rfl⟩ := Except.map_eq_ok.mp hc
  obtain ⟨out', hout', rfl⟩ := Except.map_eq_ok.mp hc'
  exact ⟨out, rfl, congrArg some (hconstant _ _ _ _ hout' hout)⟩

/-- An effect that ignores its input by the rule for its kind does so, provided that the operands
which are said to ignore theirs do. -/
theorem Kind.output_constant [Scalar α] {elsewhere : Kind → Shade α} {ignoring : List (Option Bool)}
    {kind : Kind} (helsewhere : ∀ kind, (elsewhere kind).Constant)
    (hignores : kind.ignoresInput ignoring)
    (h : ∀ i : Nat, ignoring[i]?.join = some true →
      ∃ s, operands[i]?.join = some s ∧ s.Constant) :
    (kind.output elsewhere operands).Constant := by
  have hoperand : ∀ i : Nat, ignoring[i]?.join.getD false = true →
      ∃ s, operands[i]?.join = some s ∧ s.Constant := by
    intro i hi
    apply h
    cases hjoin : ignoring[i]?.join with
    | none => simp [hjoin] at hi
    | some b => simpa [hjoin] using hi
  intro input input' c c' hc hc'
  cases kind with
  | color | overrideInput =>
    exact Except.ok.inj (hc.symm.trans hc')
  | destColor => exact helsewhere .destColor _ _ _ _ hc hc'
  | linearGradient start finish first last =>
    exact helsewhere (.linearGradient start finish first last) _ _ _ _ hc hc'
  | deviceSpace | matrix =>
    exact operandOutput_constant (hoperand 0 hignores) _ _ _ _ hc hc'
  | swizzle | colorMatrix =>
    obtain ⟨out, hout, rfl⟩ := Except.map_eq_ok.mp hc
    obtain ⟨out', hout', rfl⟩ := Except.map_eq_ok.mp hc'
    rw [operandOutput_constant (hoperand 0 hignores) _ _ _ _ hout hout']
  | clamp premul =>
    have hconstant := operandOutput_constant (hoperand 0 hignores)
    cases premul with
    | false =>
      obtain ⟨out, hout, rfl⟩ := Except.map_eq_ok.mp hc
      obtain ⟨out', hout', rfl⟩ := Except.map_eq_ok.mp hc'
      rw [hconstant _ _ _ _ hout hout']
    | true =>
      obtain ⟨out, hout, hclamp⟩ := Except.bind_eq_ok.mp hc
      obtain ⟨out', hout', hclamp'⟩ := Except.bind_eq_ok.mp hc'
      rw [hconstant _ _ _ _ hout hout'] at hclamp
      exact Except.ok.inj (hclamp.symm.trans hclamp')
  | premul => simp [ignoresInput] at hignores
  | compose =>
    obtain ⟨inner, hinner, houter⟩ := Except.bind_eq_ok.mp hc
    obtain ⟨inner', hinner', houter'⟩ := Except.bind_eq_ok.mp hc'
    -- A constant outer effect hides the inner one; a constant inner one feeds it a single color.
    rcases Bool.or_eq_true_iff.mp hignores with hignores | hignores
    · exact operandOutput_constant (hoperand 0 hignores) _ _ _ _ houter houter'
    · rw [operandOutput_constant (hoperand 1 hignores) _ _ _ _ hinner hinner'] at houter
      exact Except.ok.inj (houter.symm.trans houter')
  | blend mode behavior =>
    cases behavior with
    | default | composeOne | composeTwo => simp [ignoresInput] at hignores
    | skMode =>
      obtain ⟨hsource, hdestination⟩ := Bool.and_eq_true_iff.mp hignores
      obtain ⟨source, hs, hc⟩ := Except.bind_eq_ok.mp hc
      obtain ⟨destination, hd, hc⟩ := Except.bind_eq_ok.mp hc
      obtain ⟨source', hs', hc'⟩ := Except.bind_eq_ok.mp hc'
      obtain ⟨destination', hd', hc'⟩ := Except.bind_eq_ok.mp hc'
      obtain ⟨_, rfl, rfl⟩ := presentOutput?_of_constant (hoperand 0 hsource) hs hs'
      obtain ⟨_, rfl, rfl⟩ := presentOutput?_of_constant (hoperand 1 hdestination) hd hd'
      exact Except.ok.inj (hc.symm.trans hc')

end Operands

namespace Node

/-- A tree that ignores its input yields at most one color at a place, for all inputs together. -/
theorem paint_constant {Place α : Type} [Scalar α] {scene : Scene Place α} {n : Node}
    (h : n.ignoresInput) (place : Place) : (n.paint scene place).Constant := by
  induction n generalizing place with
  | mk data slots ih =>
    simp only [paint, paintSlots_eq_map]
    simp only [ignoresInput, ignoringSlots_eq_map] at h
    refine Kind.output_constant ?_ h ?_
    · intro kind _ _ c c' hc hc'
      exact Except.ok.inj (hc.symm.trans hc')
    · intro i hi
      rw [join_getElem?_map, Option.map_eq_some_iff] at hi
      obtain ⟨child, hchild, hignores⟩ := hi
      refine ⟨_, by rw [join_getElem?_map, hchild]; rfl, ih child ?_ hignores _⟩
      rw [Option.join_eq_some_iff] at hchild
      exact List.mem_of_getElem? hchild

end Node

end PixelEffect
