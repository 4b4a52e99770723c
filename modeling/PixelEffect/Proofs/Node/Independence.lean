import PixelEffect.Proofs.Effect.Evaluation
import PixelEffect.Proofs.Node.Constant

namespace PixelEffect

/-- The result is missing only if bounds of a clamp were out of order. -/
def ClampFailsAtMost {β : Type} (result : Except Failure β) : Prop :=
  ∀ e, result = .error e → e = .violation .clampBounds

namespace ClampFailsAtMost

variable {β γ : Type} {result : Except Failure β}

theorem ok (b : β) : ClampFailsAtMost (.ok b) := fun _ h => by cases h

/-- Two steps fail in one way only if each of them does. -/
theorem bind {f : β → Except Failure γ} (h : ClampFailsAtMost result)
    (hf : ∀ b, ClampFailsAtMost (f b)) : ClampFailsAtMost (result >>= f) := by
  intro e he
  obtain he | ⟨b, _, he⟩ := Except.bind_eq_error.mp he
  · exact h e he
  · exact hf b e he

theorem map {f : β → γ} (h : ClampFailsAtMost result) : ClampFailsAtMost (f <$> result) :=
  fun e he => h e (Except.map_eq_error.mp he)

variable {α : Type} [Scalar α]

/-- A clamp fails on bounds that are out of order, and on nothing else. -/
theorem clamp (low high x : α) : ClampFailsAtMost (Scalar.clamp low high x) := by
  intro e he
  unfold Scalar.clamp at he
  split at he
  · cases he
  · exact (Except.error.inj he).symm

/-- Only the clamps of the four channels can fail. -/
theorem clampPremul (c : Color α) : ClampFailsAtMost c.clampPremul := by
  unfold Color.clampPremul
  refine bind (clamp _ _ _) fun a => ?_
  refine bind (clamp _ _ _) fun r => ?_
  refine bind (clamp _ _ _) fun g => ?_
  refine bind (clamp _ _ _) fun b => ?_
  exact ok _

end ClampFailsAtMost

section Operands

variable {α : Type} {operands : List (Option (Shade α))}

/-- An operand that is absent yields the input. -/
theorem clampFailsAtMost_operandOutput
    (h : ∀ (i : Nat) s, operands[i]?.join = some s → ∀ input, ClampFailsAtMost (s input)) (i : Nat)
    (input : Color α) : ClampFailsAtMost (operandOutput operands i input) := by
  unfold operandOutput
  cases hslot : operands[i]?.join with
  | none => exact .ok input
  | some s => exact h i s hslot input

theorem clampFailsAtMost_presentOutput?
    (h : ∀ (i : Nat) s, operands[i]?.join = some s → ∀ input, ClampFailsAtMost (s input)) (i : Nat)
    (input : Color α) : ClampFailsAtMost (presentOutput? operands i input) := by
  unfold presentOutput?
  cases hslot : operands[i]?.join with
  | none => exact .ok none
  | some s => exact (h i s hslot input).map

variable [Scalar α]

/-- An effect fails by itself only where it clamps. -/
theorem Kind.clampFailsAtMost_output {elsewhere : Kind → Shade α} (kind : Kind)
    (helsewhere : ∀ kind input, ClampFailsAtMost (elsewhere kind input))
    (h : ∀ (i : Nat) s, operands[i]?.join = some s → ∀ input, ClampFailsAtMost (s input))
    (input : Color α) : ClampFailsAtMost (kind.output elsewhere operands input) := by
  have hoperand := clampFailsAtMost_operandOutput h
  have hpresent := clampFailsAtMost_presentOutput? h
  cases kind with
  | color => exact .ok _
  | destColor | linearGradient => exact helsewhere _ _
  | overrideInput | deviceSpace | matrix => exact hoperand 0 _
  | swizzle | colorMatrix => exact (hoperand 0 _).map
  | premul => exact (hoperand 0 _).bind fun _ => .ok _
  | compose => exact (hoperand 1 _).bind fun _ => hoperand 0 _
  | blend => exact (hpresent 0 _).bind fun _ => (hpresent 1 _).bind fun _ => .ok _
  | clamp premul =>
    cases premul with
    | false => exact (hoperand 0 _).map
    | true => exact (hoperand 0 _).bind .clampPremul

/-- An effect that needs no color from elsewhere yields the same whatever there is. -/
theorem Kind.output_unknownElsewhere_refines (elsewhere : Kind → Shade α) (kind : Kind) :
    Shade.Refines (kind.output unknownElsewhere operands) (kind.output elsewhere operands) := by
  intro input c hc
  cases kind with
  | destColor | linearGradient => cases hc
  | clamp premul => cases premul <;> exact hc
  | _ => exact hc

end Operands

namespace Node

section

variable {α : Type} [Scalar α]

mutual

/-- What a tree makes of a color if each node that takes its color from elsewhere is given one,
which may be another for each of them. Every node is evaluated, whether it is marked for that or
not. -/
def evaluate (given : NodeId → Color α) : Node → Shade α
  | mk data slots => data.kind.output (fun _ _ => .ok (given data.id)) (evaluateSlots given slots)

def evaluateSlots (given : NodeId → Color α) : List (Option Node) → List (Option (Shade α))
  | [] => []
  | none :: rest => none :: evaluateSlots given rest
  | some child :: rest => some (evaluate given child) :: evaluateSlots given rest

end

variable {given : NodeId → Color α}

theorem evaluateSlots_eq_map (slots : List (Option Node)) :
    evaluateSlots given slots = slots.map (Option.map (evaluate given)) := by
  induction slots with
  | nil => rfl
  | cons slot rest ih => cases slot <;> simp [evaluateSlots, ih]

theorem evaluate_eq (n : Node) :
    n.evaluate given =
      n.kind.output (fun _ _ => .ok (given n.id)) (n.slots.map (Option.map (evaluate given))) := by
  cases n
  rw [evaluate, evaluateSlots_eq_map]
  rfl

/-- What a marked tree yields it yields here, too. -/
theorem shade_refines_evaluate (n : Node) : Shade.Refines n.shade (n.evaluate given) := by
  induction n with
  | mk data slots ih =>
    intro input c hc
    rw [shade_eq] at hc
    split at hc
    · rw [evaluate_eq]
      refine Kind.output_unknownElsewhere_refines _ _ _ _ (Kind.output_refines _ _ ?_ _ _ hc)
      intro i
      rw [join_getElem?_map, join_getElem?_map, Node.slots]
      cases hchild : slots[i]?.join with
      | none => exact .none
      | some child =>
        exact .some (ih child (List.mem_of_getElem? (Option.join_eq_some_iff.mp hchild)))
    · cases hc

/-- An evaluation with values for everything that is not known ahead fails only where a clamp
does. -/
theorem clampFailsAtMost_evaluate (n : Node) (input : Color α) :
    ClampFailsAtMost (n.evaluate given input) := by
  induction n generalizing input with
  | mk data slots ih =>
    rw [evaluate_eq]
    refine Kind.clampFailsAtMost_output _ (fun _ _ => .ok _) (fun i s hs => ?_) input
    rw [join_getElem?_map, Option.map_eq_some_iff] at hs
    obtain ⟨child, hchild, rfl⟩ := hs
    exact ih child (List.mem_of_getElem? (Option.join_eq_some_iff.mp hchild))

/-- A tree that ignores its input yields at most one color, for all inputs together. -/
theorem evaluate_constant {n : Node} (h : n.ignoresInput) : (n.evaluate given).Constant := by
  induction n with
  | mk data slots ih =>
    rw [evaluate_eq]
    rw [ignoresInput_eq] at h
    refine Kind.output_constant ?_ h fun i hi => ?_
    · intro kind _ _ c c' hc hc'
      exact Except.ok.inj (hc.symm.trans hc')
    · rw [join_getElem?_map, Option.map_eq_some_iff] at hi
      obtain ⟨child, hchild, hignores⟩ := hi
      have hmem := List.mem_of_getElem? (Option.join_eq_some_iff.mp hchild)
      exact ⟨_, by rw [join_getElem?_map, hchild]; rfl, ih child hmem hignores⟩

end

/-- A tree of any shape that ignores its input does not tell two inputs apart. Whatever colors its
destinations and gradients are given, the two runs come to the same color bit by bit, unless one of
them has to clamp by a NaN. What the tree yields for a constant input is what it yields here. -/
theorem ignoresInput_sound {n : Node} (h : n.ignoresInput) (given : NodeId → Color Single)
    (input input' : Color Single) :
    ((∃ c, n.evaluate given input = .ok c ∧ n.evaluate given input' = .ok c) ∨
        n.evaluate given input = .error (.violation .clampBounds) ∨
        n.evaluate given input' = .error (.violation .clampBounds)) ∧
      Shade.Refines n.shade (n.evaluate given) := by
  refine ⟨?_, shade_refines_evaluate n⟩
  cases hc : n.evaluate given input with
  | error e => exact .inr (.inl (congrArg _ (clampFailsAtMost_evaluate n _ _ hc)))
  | ok c =>
    cases hc' : n.evaluate given input' with
    | error e => exact .inr (.inr (congrArg _ (clampFailsAtMost_evaluate n _ _ hc')))
    | ok c' =>
      obtain rfl := evaluate_constant h _ _ _ _ hc hc'
      exact .inl ⟨c, rfl, rfl⟩

/-- A gradient over the destination, without any mark and with an empty slot too many. -/
def gradientOverDestination : Node :=
  mk (leaf ⟨0⟩ (.blend .srcOver .skMode) .empty).data
    [some (leaf ⟨1⟩ (.linearGradient ⟨0, 0⟩ ⟨1, 0⟩ .white .transparent) .empty),
      some (leaf ⟨2⟩ .destColor .empty), none]

/-- A gradient over the destination color, each of them with a color of its own. -/
theorem ignoresInput_sound_gradientOverDestination :
    let given : NodeId → Color Single := fun id => if id = ⟨2⟩ then .white else .transparent
    gradientOverDestination.ignoresInput ∧
      ∃ c, gradientOverDestination.evaluate given .white = .ok c ∧
        gradientOverDestination.evaluate given .transparent = .ok c := by
  intro given
  have h : gradientOverDestination.ignoresInput := rfl
  refine ⟨h, ?_⟩
  obtain hsame | hfails | hfails := (ignoresInput_sound h given .white .transparent).1
  · exact hsame
  · cases hfails
  · cases hfails

end Node

end PixelEffect
