import PixelEffect.Proofs.Key.Generic
import PixelEffect.Shader.Program

namespace PixelEffect

namespace Kind

theorem name_generic (kind : Kind) : kind.generic.name = kind.name := by
  cases kind with
  | overrideInput c specialized => cases specialized <;> rfl
  | _ => rfl

/-- Values that become uniforms do not decide which uniforms there are. -/
theorem uniforms_generic (kind : Kind) : kind.generic.uniforms = kind.uniforms := by
  cases kind with
  | overrideInput c specialized => cases specialized <;> rfl
  | _ => rfl

end Kind

namespace Shader

/-- The body for a kind names uniforms and not their values. -/
theorem body_generic (kind : Kind) (f : FunctionName) (operands : List (Option FunctionName)) :
    body kind.generic f operands = body kind f operands := by
  cases kind with
  | overrideInput c specialized => cases specialized <;> rfl
  | matrix m => simp only [Kind.generic, body, Kind.hasPerspective_generic]
  | _ => rfl

namespace Builder

/-- A builder cannot tell a kind from its generic form. -/
theorem add_generic (b : Builder) (kind : Kind) (operands : List (Option FunctionName)) :
    b.add kind.generic operands = b.add kind operands := by
  simp only [add, body_generic, Kind.uniforms_generic]

end Builder

namespace Outline

open Node

theorem name_generic (n : Node) : n.generic.name = n.name := by
  cases n
  exact Kind.name_generic _

theorem length_slots_generic (n : Node) : n.generic.slots.length = n.slots.length := by
  cases n
  rw [Node.generic, genericSlots_eq_map]
  exact List.length_map _

/-- Whether a node fits an entry depends on its generic form only. -/
theorem checkFits_generic (entry : Entry) (slotCount : Nat) (n : Node) :
    checkFits entry slotCount n.generic = checkFits entry slotCount n := by
  have hclass : n.generic.kind.effectClass = n.kind.effectClass := by
    cases n
    exact Kind.effectClass_generic _
  rw [checkFits, hclass, name_generic, length_slots_generic]
  rfl

/-- How a node is sampled does not matter to its function. -/
theorem emit_resampled (o : Outline) (sampling : Sampling) (n : Node) (b : Builder) :
    emit o (n.resampled sampling) b = emit o n b := by
  cases o
  cases n
  rfl

/-- Emission sees nothing of a tree but its generic form. -/
theorem emit_generic (o : Outline) (n : Node) (b : Builder) :
    emit o n.generic b = emit o n b := by
  induction n generalizing o b with
  | mk data slots ih =>
    have hslots : ∀ name i outlines b,
        emitSlots name i outlines (genericSlots slots) b = emitSlots name i outlines slots b := by
      induction slots with
      | nil =>
        intro name i outlines b
        rfl
      | cons slot rest ihRest =>
        have ihRest := ihRest fun child hchild => ih child (List.mem_cons_of_mem _ hchild)
        intro name i outlines b
        cases slot with
        | none =>
          obtain _ | ⟨_ | o, outlines⟩ := outlines
          · rfl
          · simp only [genericSlots, emitSlots, ihRest]
          · rfl
        | some child =>
          obtain _ | ⟨_ | o, outlines⟩ := outlines
          · rfl
          · rfl
          · simp only [genericSlots, emitSlots, ihRest, emit_resampled,
              ih child List.mem_cons_self]
    cases o with
    | mk entry outlines =>
      have hfits := checkFits_generic entry outlines.length (Node.mk data slots)
      have hname := name_generic (Node.mk data slots)
      simp only [Node.generic] at hfits hname ⊢
      simp only [emit, hfits, hname, Node.slots, Node.kind, Node.data, hslots,
        Builder.add_generic, Kind.uniforms_generic]

/-- The key does not say how the root itself is sampled. -/
theorem ofNode_resampled (sampling : Sampling) (n : Node) :
    ofNode (n.resampled sampling) = ofNode n := by
  cases n
  rfl

/-- A tree has the key of its generic form. -/
theorem ofNode_generic (n : Node) : ofNode n.generic = ofNode n := by
  induction n with
  | mk data slots ih =>
    have hslots : ofSlots (genericSlots slots) = ofSlots slots := by
      induction slots with
      | nil => rfl
      | cons slot rest ihRest =>
        have ihRest := ihRest fun child hchild => ih child (List.mem_cons_of_mem _ hchild)
        cases slot with
        | none => rw [genericSlots, ofSlots, ofSlots, ihRest]
        | some child =>
          rw [genericSlots, ofSlots, ofSlots, ihRest, ofNode_resampled, ih child List.mem_cons_self]
    rw [Node.generic, ofNode, ofNode, hslots, Kind.effectClass_generic]

end Outline

end Shader

/-- A program is made of the generic form of its tree and of two flags of the root. -/
theorem Program.ofNode_eq_of_generic_eq {a b : Node} (hgeneric : a.generic = b.generic)
    (hdestination : a.flags.readsDestination = b.flags.readsDestination)
    (hfragCoord : a.capabilities.fragCoord = b.capabilities.fragCoord) (options : ProgramOptions) :
    Program.ofNode a options = Program.ofNode b options := by
  have hkey : ProgramKey.ofNode a = ProgramKey.ofNode b := by
    rw [ProgramKey.ofNode, ← Node.keyWords_generic, hgeneric, Node.keyWords_generic]
    rfl
  have houtline : Shader.Outline.ofNode a = Shader.Outline.ofNode b := by
    rw [← Shader.Outline.ofNode_generic, hgeneric, Shader.Outline.ofNode_generic]
  have hemit : ∀ o builder, Shader.Outline.emit o a builder = Shader.Outline.emit o b builder := by
    intro o builder
    rw [← Shader.Outline.emit_generic, hgeneric, Shader.Outline.emit_generic]
  simp only [Program.ofNode, hdestination, hfragCoord, hkey, houtline, hemit]

end PixelEffect
