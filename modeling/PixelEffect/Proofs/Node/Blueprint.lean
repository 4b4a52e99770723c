import PixelEffect.Proofs.Node.Attach
import PixelEffect.Proofs.Node.Path

namespace PixelEffect.Node

mutual

/-- A tree with the same content whose nodes are sampled in the same way, and nothing else of its
own. -/
def blueprint : Node → Node
  | mk data slots =>
    mk
      { id := ⟨0⟩, kind := data.kind, parent := none
        flags := ⟨false, false, false, false, false⟩
        sampling := data.sampling, optimizations := data.optimizations
        capabilities := ⟨false⟩ }
      (blueprintOfSlots slots)

def blueprintOfSlots : List (Option Node) → List (Option Node)
  | [] => []
  | none :: rest => none :: blueprintOfSlots rest
  | some child :: rest => some (blueprint child) :: blueprintOfSlots rest

end

theorem blueprintOfSlots_eq_map (slots : List (Option Node)) :
    blueprintOfSlots slots = slots.map (Option.map blueprint) := by
  induction slots with
  | nil => rfl
  | cons slot rest ih => cases slot <;> simp [blueprintOfSlots, ih]

theorem slots_blueprint (n : Node) : n.blueprint.slots = n.slots.map (Option.map blueprint) := by
  cases n
  exact blueprintOfSlots_eq_map _

/-- Blueprints can be compared node by node. -/
theorem blueprint_eq_iff {n m : Node} :
    n.blueprint = m.blueprint ↔ n.kind = m.kind ∧ n.sampling = m.sampling ∧
      n.optimizations = m.optimizations ∧
      n.slots.map (Option.map blueprint) = m.slots.map (Option.map blueprint) := by
  cases n
  cases m
  simp only [blueprint, blueprintOfSlots_eq_map, mk.injEq, NodeData.mk.injEq, true_and, and_true,
    kind, sampling, optimizations, Node.data, slots, and_assoc]

@[simp] theorem blueprint_resampled (sampling : Sampling) (n : Node) :
    (n.resampled sampling).blueprint = n.blueprint.resampled sampling := by
  cases n
  rfl

@[simp] theorem blueprint_pushDown (flag : InheritedFlag) (n : Node) :
    (n.pushDown flag).blueprint = n.blueprint := by
  induction n with
  | mk data slots ih =>
    simp only [pushDown]
    split
    · rfl
    · simp only [blueprint, blueprintOfSlots_eq_map, pushDownSlots_eq_map, List.map_map,
        Option.map_comp_map]
      rw [map_slots_congr (f := blueprint ∘ pushDown flag) ih]

@[simp] theorem blueprint_withParent (parent : NodeId) (n : Node) :
    (n.withParent parent).blueprint = n.blueprint := by
  cases n
  rfl

@[simp] theorem blueprint_sampled (sampling : Sampling) (n : Node) :
    (n.sampled sampling).blueprint = n.blueprint.resampled sampling := by
  obtain ⟨data, slots⟩ := n
  simp only [sampled]
  split <;> split <;> simp [blueprint, resampled]

@[simp] theorem content_resampled (sampling : Sampling) (n : Node) :
    (n.resampled sampling).content = n.content := by
  cases n
  rfl

@[simp] theorem content_blueprint (n : Node) : n.blueprint.content = n.content := by
  induction n with
  | mk data slots ih =>
    simp only [blueprint, content, contentOfSlots_eq_map, blueprintOfSlots_eq_map, List.map_map,
      Option.map_comp_map]
    rw [map_slots_congr (f := content ∘ blueprint) ih]

/-- Being attached changes how a child is sampled, and nothing else of its blueprint. -/
theorem slots_blueprint_attached (n : Node) (child : Option Node) (sampling : Sampling) :
    (n.attached child sampling).slots.map (Option.map blueprint) =
      n.slots.map (Option.map blueprint)
        ++ [child.map fun c => c.blueprint.resampled sampling] := by
  cases child <;> simp

/-- A slot that is filled with a copy counts like the slot that was copied. -/
theorem blueprint_withChild {copy next : Node} {child slot : Option Node} {sampling : Sampling}
    (hnext : copy.withChild child sampling = .ok next)
    (hchild : (child.map fun c => c.blueprint.resampled sampling) = slot.map blueprint)
    (rest : List (Option Node)) :
    (mk next.data (next.slots ++ rest)).blueprint =
      (mk copy.data (copy.slots ++ slot :: rest)).blueprint := by
  obtain ⟨_, rfl⟩ := withChild_eq_ok_iff.mp hnext
  have hslots := slots_blueprint_attached copy child sampling
  rw [hchild] at hslots
  have hsampling : (copy.attached child sampling).sampling = copy.sampling := by
    cases child <;> rfl
  refine blueprint_eq_iff.mpr ⟨kind_attached .., hsampling, optimizations_attached .., ?_⟩
  simp only [Node.slots, List.map_append, List.map_cons] at hslots ⊢
  rw [hslots, List.append_assoc, List.singleton_append]

/-- Copying slots appends what was copied to the slots that are there already. -/
theorem blueprint_of_run_cloneSlots {slots : List (Option Node)} {copy out : Node}
    {id last : NodeId}
    (hslots : ∀ child, some child ∈ slots → ∀ {id copy last},
      child.clone.run id = .ok (copy, last) →
        copy.blueprint = child.blueprint.resampled .unsampled)
    (h : (cloneSlots slots copy).run id = .ok (out, last)) :
    out.blueprint = (mk copy.data (copy.slots ++ slots)).blueprint := by
  induction slots generalizing copy id with
  | nil =>
    obtain ⟨rfl, _⟩ := Build.run_pure_eq_ok.mp h
    cases copy
    simp [Node.data, Node.slots]
  | cons slot rest ih =>
    have hrest : ∀ child, some child ∈ rest → ∀ {id copy last},
        child.clone.run id = .ok (copy, last) →
          copy.blueprint = child.blueprint.resampled .unsampled :=
      fun child hchild => hslots child (List.mem_cons_of_mem _ hchild)
    cases slot with
    | none =>
      obtain ⟨next, id', hnext, h⟩ := Build.run_bind_eq_ok.mp h
      rw [ih hrest h]
      exact blueprint_withChild (run_attach_eq_ok.mp hnext).1 rfl rest
    | some child =>
      obtain ⟨childCopy, id', hcopy, h⟩ := Build.run_bind_eq_ok.mp h
      obtain ⟨next, id'', hnext, h⟩ := Build.run_bind_eq_ok.mp h
      rw [ih hrest h]
      have hchild : childCopy.blueprint.resampled child.sampling = child.blueprint := by
        rw [hslots child List.mem_cons_self hcopy]
        cases child
        rfl
      have hslot : (some childCopy).map (fun c => c.blueprint.resampled child.sampling) =
          (some child).map blueprint := congrArg some hchild
      exact blueprint_withChild (run_attach_eq_ok.mp hnext).1 hslot rest

/-- A copy has the blueprint of the original. Only the sampling of the root is not taken over. -/
theorem blueprint_of_run_clone {n copy : Node} {id last : NodeId}
    (h : n.clone.run id = .ok (copy, last)) :
    copy.blueprint = n.blueprint.resampled .unsampled := by
  induction n generalizing id copy last with
  | mk data slots ih =>
    rw [clone, Build.run_bind_of_ok (run_create _ _ _)] at h
    rw [blueprint_of_run_cloneSlots (fun child hchild => ih child hchild) h]
    rfl

/-- A copy has the content of its original. -/
theorem content_of_run_clone {n copy : Node} {id last : NodeId}
    (h : n.clone.run id = .ok (copy, last)) : copy.content = n.content := by
  rw [← content_blueprint, blueprint_of_run_clone h, content_resampled, content_blueprint]

end PixelEffect.Node
