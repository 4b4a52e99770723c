import Mathlib.Data.List.Basic
import PixelEffect.Proofs.Effect.Deduced
import PixelEffect.Proofs.Node.Blueprint
import PixelEffect.Proofs.Node.Flags

namespace PixelEffect

/-- Slots like those that the constructors give a node of a kind. -/
def Kind.Accepts (kind : Kind) (slots : List (Option Sampling)) : Prop :=
  slots.length = kind.arity ∧ ∀ u, some u ∈ slots → u = kind.sampling

/-- The constructors of effects with two operands sample both of them where they are. -/
theorem Kind.sampling_of_arity_two (kind : Kind) (h : kind.arity = 2) :
    kind.sampling = .passThrough := by
  cases kind <;> first | rfl | cases h

/-- The constructors mark a node for constant output if its operands are marked, and if its color
does not come from elsewhere. -/
theorem Kind.constantOutput_deduced {kind : Kind} {operands : List (Option Optimizations)}
    (harity : operands.length = kind.arity) :
    (kind.deduced operands).constantOutput ↔
      kind.effectClass ≠ .destColor ∧ kind.effectClass ≠ .linearGradient ∧
        ∀ o, some o ∈ operands → o.constantOutput := by
  have hall : Optimizations.all.constantOutput = true := rfl
  cases kind with
  | color | destColor | linearGradient =>
    obtain rfl := List.length_eq_zero_iff.mp harity
    simp [deduced, effectClass, Optimizations.empty]
  | overrideInput | swizzle | premul | colorMatrix | clamp | deviceSpace | matrix =>
    obtain ⟨operand, rfl⟩ := List.length_eq_one_iff.mp harity
    cases operand <;> simp [deduced, effectClass, hall]
  | compose | blend =>
    obtain ⟨first, second, rfl⟩ := List.length_eq_two.mp harity
    cases first <;> cases second <;>
      simp [deduced, effectClass, Optimizations.inter, Effect.blendOptimizations, hall]

namespace Node

/-- Every node of the tree is as the constructors make nodes of its kind. -/
inductive Standard : Node → Prop
  | mk {data : NodeData} {slots : List (Option Node)}
      (haccepts : data.kind.Accepts (slots.map (Option.map sampling)))
      (hdeduced : data.optimizations = data.kind.deduced (slots.map (Option.map optimizations)))
      (hchildren : ∀ child, some child ∈ slots → Standard child) : Standard (mk data slots)

/-- A tree is standard if its root is and the trees in its slots are. -/
theorem standard_iff {n : Node} :
    n.Standard ↔ n.kind.Accepts (n.slots.map (Option.map sampling)) ∧
      n.optimizations = n.kind.deduced (n.slots.map (Option.map optimizations)) ∧
      ∀ child, some child ∈ n.slots → child.Standard := by
  constructor
  · rintro ⟨haccepts, hdeduced, hchildren⟩
    exact ⟨haccepts, hdeduced, hchildren⟩
  · obtain ⟨data, slots⟩ := n
    rintro ⟨haccepts, hdeduced, hchildren⟩
    exact ⟨haccepts, hdeduced, hchildren⟩

/-- In a standard tree the flags are those that follow from the kinds. -/
theorem Standard.deduced {n : Node} (h : n.Standard) : n.Deduced := by
  induction h with
  | mk _ hdeduced _ ih => exact .mk hdeduced ih

/-- Where the constructors mark a node for constant output, they have marked its children. -/
theorem Standard.constantOutput_iff {n : Node} (h : n.Standard) :
    n.optimizations.constantOutput ↔
      n.kind.effectClass ≠ .destColor ∧ n.kind.effectClass ≠ .linearGradient ∧
        ∀ child, some child ∈ n.slots → child.optimizations.constantOutput := by
  obtain ⟨haccepts, hdeduced, _⟩ := standard_iff.mp h
  have harity : (n.slots.map (Option.map optimizations)).length = n.kind.arity := by
    simpa using haccepts.1
  rw [hdeduced, Kind.constantOutput_deduced harity]
  simp only [List.mem_map, Option.map_eq_some_iff]
  refine and_congr_right fun _ => and_congr_right fun _ => ⟨fun h child hchild => ?_, ?_⟩
  · exact h _ ⟨_, hchild, child, rfl, rfl⟩
  · rintro h _ ⟨_, hchild, child, rfl, rfl⟩
    exact h child hchild

/-- How a tree itself is sampled does not matter, only how its children are. -/
theorem standard_resampled {sampling : Sampling} {n : Node} :
    (n.resampled sampling).Standard ↔ n.Standard := by
  rw [standard_iff, standard_iff]
  cases n
  rfl

/-- Being standard can be read off the blueprint of a tree. -/
theorem standard_blueprint {n : Node} : n.blueprint.Standard ↔ n.Standard := by
  induction n with
  | mk data slots ih =>
    have hsampling : sampling ∘ blueprint = sampling := by
      funext n
      cases n
      rfl
    have hoptimizations : optimizations ∘ blueprint = optimizations := by
      funext n
      cases n
      rfl
    rw [standard_iff, standard_iff, slots_blueprint, List.map_map, List.map_map,
      Option.map_comp_map, Option.map_comp_map, hsampling, hoptimizations]
    refine and_congr_right fun _ => and_congr_right fun _ => ?_
    exact forall_mem_map_slots.trans (forall₂_congr ih)

/-- A new node is standard if its operands are, and if it has them in the way of its kind. -/
theorem Standard.of_operands {n : Node} (operands : List (Option Node))
    (hslots : n.slots.map (Option.map blueprint) =
      operands.map (Option.map fun c => c.blueprint.resampled n.kind.sampling))
    (harity : operands.length = n.kind.arity)
    (hdeduced : n.optimizations = n.kind.deduced (operands.map (Option.map optimizations)))
    (hoperands : ∀ child, some child ∈ operands → child.Standard) : n.Standard := by
  let operands' := operands.map (Option.map (resampled n.kind.sampling))
  have hblueprint : n.blueprint = (Node.mk n.data operands').blueprint := by
    refine blueprint_eq_iff.mpr ⟨rfl, rfl, rfl, hslots.trans ?_⟩
    simp only [operands', Node.slots, List.map_map, Option.map_comp_map]
    exact map_slots_congr fun child _ => (blueprint_resampled _ child).symm
  rw [← standard_blueprint, hblueprint, standard_blueprint]
  refine .mk ⟨?_, ?_⟩ ?_ ?_
  · simp only [operands', List.length_map]
    exact harity
  · intro u hu
    simp only [operands', List.map_map, List.mem_map, Function.comp, Option.map_eq_some_iff] at hu
    obtain ⟨_, _, _, ⟨c, rfl, rfl⟩, rfl⟩ := hu
    exact sampling_resampled _ c
  · have hoptimizations : operands'.map (Option.map optimizations) =
        operands.map (Option.map optimizations) := by
      simp only [operands', List.map_map, Option.map_comp_map]
      refine map_slots_congr fun child _ => ?_
      cases child
      rfl
    rw [hoptimizations]
    exact hdeduced
  · intro child hchild
    simp only [operands', List.mem_map, Option.map_eq_some_iff] at hchild
    obtain ⟨_, hmem, c, rfl, rfl⟩ := hchild
    exact standard_resampled.mpr (hoperands c hmem)

end Node

namespace Effect

open Node

/-- From standard trees only standard ones are crafted. -/
theorem Crafted.standard {joined : Node → Node → Prop} {given : Option Node → Prop}
    (hgiven : ∀ c, given (some c) → c.Standard) {n : Option Node} (h : Crafted joined given n) :
    ∀ c, n = some c → c.Standard := by
  induction h with
  | absent => exact fun _ h => (by cases h)
  | operand h =>
    rintro c rfl
    exact hgiven c h
  | leaf id kind harity =>
    rintro _ ⟨⟩
    exact .of_operands [] rfl harity.symm rfl fun _ h => (by cases h)
  | @unary id kind harity child _ _ ih =>
    rintro _ ⟨⟩
    refine .of_operands [child] ?_ ?_ (by simp) fun c hc => ih c (List.mem_singleton.mp hc).symm
    · rw [kind_unary, Node.unary, slots_blueprint_attached]
      rfl
    · rw [kind_unary, harity]
      rfl
  | @binary id kind harity first second _ _ _ _ _ ihFirst ihSecond =>
    rintro _ ⟨⟩
    refine .of_operands [first, second] ?_ ?_ (by simp) ?_
    · rw [kind_binary, Node.binary, slots_blueprint_attached, slots_blueprint_attached,
        kind.sampling_of_arity_two harity]
      rfl
    · rw [kind_binary, harity]
      rfl
    · intro c hc
      rcases List.mem_cons.mp hc with hc | hc
      · exact ihFirst c hc.symm
      · exact ihSecond c (List.mem_singleton.mp hc).symm

end Effect

namespace Node

/-- Every part of a standard tree is standard. -/
theorem Standard.at? {root n : Node} {path : Path} (h : root.Standard)
    (hn : root.at? path = some n) : n.Standard := by
  induction path generalizing root with
  | nil =>
    cases hn
    exact h
  | cons i path ih =>
    obtain ⟨child, hchild, hn⟩ := at?_cons_eq_some.mp hn
    exact ih ((standard_iff.mp h).2.2 child (mem_slots_of_child? hchild)) hn

/-- Copies of standard trees are standard. -/
theorem Standard.run_clone {n copy : Node} {id last : NodeId} (h : n.Standard)
    (hrun : n.clone.run id = .ok (copy, last)) : copy.Standard := by
  rw [← standard_blueprint, blueprint_of_run_clone hrun, standard_resampled, standard_blueprint]
  exact h

/-- Giving a node below the root another kind of its own rule leaves a tree standard. -/
theorem Standard.replaceAt {root n m : Node} {path : Path} (h : root.Standard)
    (hn : root.at? path = some n) (hdata : m.data = { n.data with kind := m.kind })
    (hm : m.Standard) : (Node.replaceAt m path root).Standard := by
  induction path generalizing root with
  | nil => exact hm
  | cons i path ih =>
    obtain ⟨child, hchild, hn⟩ := at?_cons_eq_some.mp hn
    obtain ⟨haccepts, hdeduced, hchildren⟩ := standard_iff.mp h
    have hnew := ih (hchildren child (mem_slots_of_child? hchild)) hn
    have hsame := data_replaceAt hn hdata
    rw [replaceAt_cons hchild]
    generalize Node.replaceAt m path child = new at hnew hsame
    have hsampling : new.sampling = child.sampling := by simp only [sampling, hsame]
    have hoptimizations : new.optimizations = child.optimizations := by
      simp only [optimizations, hsame]
    refine .mk ?_ ?_ ?_
    · rw [map_set_slots hchild hsampling]
      exact haccepts
    · rw [map_set_slots hchild hoptimizations]
      exact hdeduced
    · intro c hc
      rcases List.mem_or_eq_of_mem_set hc with hc | hc
      · exact hchildren c hc
      · cases hc
        exact hnew

/-- A color has no slots and the optimizations that its opacity asks for. -/
theorem Standard.recolor {n m : Node} {c : Color Single} (h : n.Standard)
    (hm : n.recolor c = .ok m) : m.Standard := by
  obtain ⟨current, hkind, hopaque, rfl⟩ := recolor_eq_ok hm
  obtain ⟨haccepts, hdeduced, hchildren⟩ := standard_iff.mp h
  rw [hkind] at haccepts hdeduced
  refine .mk haccepts ?_ hchildren
  rw [show n.data.optimizations = _ from hdeduced]
  simp only [Kind.deduced, hopaque]

end Node

end PixelEffect
