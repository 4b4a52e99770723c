import PixelEffect.Proofs.Effect.Crafted
import PixelEffect.Proofs.Node.Paint

namespace PixelEffect

namespace Node

/-- Every node of the tree has the optimizations that its kind and its children give it. -/
inductive Deduced : Node → Prop
  | mk {data : NodeData} {slots : List (Option Node)}
      (hdeduced : data.optimizations = data.kind.deduced (slots.map (Option.map optimizations)))
      (hchildren : ∀ child, some child ∈ slots → Deduced child) : Deduced (mk data slots)

/-- A tree is deduced if its root is and the trees in its slots are. -/
theorem deduced_iff {n : Node} :
    n.Deduced ↔ n.optimizations = n.kind.deduced (n.slots.map (Option.map optimizations)) ∧
      ∀ child, some child ∈ n.slots → child.Deduced := by
  constructor
  · rintro ⟨hdeduced, hchildren⟩
    exact ⟨hdeduced, hchildren⟩
  · obtain ⟨data, slots⟩ := n
    rintro ⟨hdeduced, hchildren⟩
    exact ⟨hdeduced, hchildren⟩

/-- Whether flags are deduced can be read off the content of a tree. -/
theorem deduced_content (n : Node) : n.content.Deduced ↔ n.Deduced := by
  induction n with
  | mk data slots ih =>
    rw [deduced_iff, deduced_iff, optimizations_content, kind_content, slots_content, List.map_map,
      Option.map_comp_map, funext (f := optimizations ∘ content) optimizations_content]
    refine and_congr_right fun _ => ?_
    exact forall_mem_map_slots.trans (forall₂_congr ih)

theorem Deduced.of_content_eq {n m : Node} (hn : n.Deduced) (h : n.content = m.content) :
    m.Deduced := by
  rw [← deduced_content, h, deduced_content] at hn
  exact hn

/-- Only the contents of the children matter, so the operands that a node was given will do. -/
theorem Deduced.of_operands {n : Node} {operands : List (Option Node)}
    (hslots : n.slots.map (Option.map content) = operands.map (Option.map content))
    (hdeduced : n.optimizations = n.kind.deduced (operands.map (Option.map optimizations)))
    (hoperands : ∀ child, some child ∈ operands → child.Deduced) : n.Deduced := by
  have hcontent : (Node.mk n.data operands).Deduced := .mk hdeduced hoperands
  refine hcontent.of_content_eq ?_
  rw [content_eq_iff]
  exact ⟨rfl, rfl, hslots.symm⟩

/-- An operand that may be attached, and whose optimizations are deduced. -/
structure Operable (n : Option Node) : Prop where
  fresh : FreshIfAny n
  deduced : ∀ c, n = some c → c.Deduced

theorem operable_none : Operable none := ⟨fun _ h => (by cases h), fun _ h => (by cases h)⟩

end Node

namespace Effect

open Node

/-- From operable trees only operable ones are crafted. -/
theorem Crafted.operable {joined : Node → Node → Prop} {given : Option Node → Prop}
    (hgiven : ∀ n, given n → Operable n) {n : Option Node} (h : Crafted joined given n) :
    Operable n := by
  induction h with
  | absent => exact operable_none
  | operand h => exact hgiven _ h
  | leaf id kind harity =>
    refine ⟨by rintro _ ⟨⟩; simp, ?_⟩
    rintro _ ⟨⟩
    exact .mk rfl fun _ h => (by cases h)
  | @unary id kind harity child _ _ ih =>
    refine ⟨by rintro _ ⟨⟩; simp, ?_⟩
    rintro _ ⟨⟩
    refine .of_operands (slots_content_unary ..) (by simp) ?_
    intro c hc
    exact ih.deduced c (List.mem_singleton.mp hc).symm
  | @binary id kind harity first second _ _ _ _ _ ihFirst ihSecond =>
    refine ⟨by rintro _ ⟨⟩; simp, ?_⟩
    rintro _ ⟨⟩
    refine .of_operands (slots_content_binary ..) (by simp) ?_
    intro c hc
    rcases List.mem_cons.mp hc with hc | hc
    · exact ihFirst.deduced c hc.symm
    · exact ihSecond.deduced c (List.mem_singleton.mp hc).symm

end Effect

namespace Node

/-- A tree with the constant-output flag has no effect below it whose color comes from elsewhere:
painting it is the evaluation of constant inputs. -/
theorem Deduced.paint_eq_shade {Place α : Type} [Scalar α] {n : Node} (hdeduced : n.Deduced)
    (hconstant : n.optimizations.constantOutput) (scene : Scene Place α) (place : Place) :
    n.paint scene place = n.shade := by
  induction n generalizing place with
  | mk data slots ih =>
    obtain ⟨hdata, hchildren⟩ := deduced_iff.mp hdeduced
    simp only [optimizations, kind, Node.data, Node.slots] at hconstant hdata hchildren
    -- An operand that counts for the flag paints what it evaluates to.
    have hoperand : ∀ i : Nat,
        ((slots.map (Option.map optimizations))[i]?.join.getD .all).constantOutput →
        (slots.map (Option.map fun child =>
            child.paint scene (scene.below data.kind place)))[i]?.join
          = (slots.map (Option.map (shade (α := α))))[i]?.join := by
      intro i hi
      rw [join_getElem?_map] at hi ⊢
      rw [join_getElem?_map]
      cases hslot : slots[i]?.join with
      | none => rfl
      | some child =>
        rw [hslot] at hi
        have hmem := List.mem_of_getElem? (Option.join_eq_some_iff.mp hslot)
        exact congrArg some (ih child hmem (hchildren child hmem) hi _)
    funext input
    simp only [paint, shade, paintSlots_eq_map, shades_eq_map, hconstant, if_true]
    rw [hdata] at hconstant
    cases hkind : data.kind with
    | color => rfl
    | destColor | linearGradient => simp [hkind, Kind.deduced, Optimizations.empty] at hconstant
    | overrideInput | swizzle | premul | colorMatrix | deviceSpace | matrix =>
      rw [hkind] at hconstant hoperand
      simp only [Kind.output, operandOutput, hoperand 0 hconstant]
    | clamp premul =>
      rw [hkind] at hconstant hoperand
      cases premul <;> simp only [Kind.output, operandOutput, hoperand 0 hconstant]
    | compose | blend =>
      rw [hkind] at hconstant hoperand
      obtain ⟨hfirst, hsecond⟩ := Bool.and_eq_true_iff.mp hconstant
      simp only [Kind.output, operandOutput, presentOutput?, hoperand 0 hfirst, hoperand 1 hsecond]

end Node

end PixelEffect
