import PixelEffect.Proofs.Node.Paint
import PixelEffect.Proofs.Node.Path

namespace PixelEffect.Node

mutual

/-- A tree with the same kinds and slots and the same direct uses of coordinates. -/
def bare : Node → Node
  | mk data slots =>
    mk
      { id := ⟨0⟩, kind := data.kind, parent := none
        flags := ⟨data.flags.usesCoordsDirectly, false, false, false, false⟩
        sampling := .unsampled, optimizations := .empty, capabilities := ⟨false⟩ }
      (bareSlots slots)

def bareSlots : List (Option Node) → List (Option Node)
  | [] => []
  | none :: rest => none :: bareSlots rest
  | some child :: rest => some (bare child) :: bareSlots rest

end

theorem bareSlots_eq_map (slots : List (Option Node)) :
    bareSlots slots = slots.map (Option.map bare) := by
  induction slots with
  | nil => rfl
  | cons slot rest ih => cases slot <;> simp [bareSlots, ih]

/-- Bare forms can be compared node by node. -/
theorem bare_eq_iff {n m : Node} :
    n.bare = m.bare ↔ n.kind = m.kind ∧
      n.flags.usesCoordsDirectly = m.flags.usesCoordsDirectly ∧
      n.slots.map (Option.map bare) = m.slots.map (Option.map bare) := by
  cases n
  cases m
  simp [bare, bareSlots_eq_map, kind, flags, Node.data, slots, and_assoc]

/-- Comparing two trees is comparing their bare forms. -/
theorem alike_iff {n m : Node} : n.alike m ↔ n.bare = m.bare := by
  induction n generalizing m with
  | mk data slots ih =>
    obtain ⟨other, others⟩ := m
    have hslots : alikeSlots slots others ↔ bareSlots slots = bareSlots others := by
      induction slots generalizing others with
      | nil =>
        cases others with
        | nil => simp [alikeSlots]
        | cons slot rest => cases slot <;> simp [alikeSlots, bareSlots]
      | cons slot rest ihRest =>
        have ihRest := fun others =>
          ihRest (fun child hchild => ih child (List.mem_cons_of_mem _ hchild)) others
        cases slot with
        | none => rcases others with _ | ⟨_ | _, _⟩ <;> simp [alikeSlots, bareSlots, ihRest]
        | some child =>
          rcases others with _ | ⟨_ | _, _⟩ <;>
            simp [alikeSlots, bareSlots, ihRest, ih child List.mem_cons_self]
    have hclass : data.kind = other.kind → data.kind.effectClass = other.kind.effectClass :=
      congrArg _
    simp only [alike, Bool.and_eq_true, decide_eq_true_eq, beq_iff_eq, hslots, bare_eq_iff,
      ← bareSlots_eq_map, kind, flags, Node.data, Node.slots]
    constructor
    · rintro ⟨⟨⟨_, hdirect⟩, hkind⟩, hslots⟩
      exact ⟨hkind, hdirect, hslots⟩
    · rintro ⟨hkind, hdirect, hslots⟩
      exact ⟨⟨⟨hclass hkind, hdirect⟩, hkind⟩, hslots⟩

/-- What the bare form of a child decides, the bare forms of the slots decide for all of them. -/
theorem map_slots_of_bare {β : Type} {f g : Node → β} {slots others : List (Option Node)}
    (hbare : slots.map (Option.map bare) = others.map (Option.map bare))
    (h : ∀ (i : Nat) child other, slots[i]? = some (some child) →
      others[i]? = some (some other) → child.bare = other.bare → f child = g other) :
    slots.map (Option.map f) = others.map (Option.map g) := by
  induction slots generalizing others with
  | nil =>
    obtain rfl := List.map_eq_nil_iff.mp hbare.symm
    rfl
  | cons slot rest ih =>
    cases others with
    | nil => cases hbare
    | cons other others =>
      obtain ⟨hslot, hrest⟩ := List.cons_eq_cons.mp hbare
      have hmap : slot.map f = other.map g := by
        cases slot with
        | none =>
          obtain rfl := Option.map_eq_none_iff.mp hslot.symm
          rfl
        | some child =>
          obtain ⟨other, rfl, hchild⟩ := Option.map_eq_some_iff.mp hslot.symm
          exact congrArg some (h 0 child other rfl rfl hchild.symm)
      rw [List.map_cons, List.map_cons, hmap]
      exact congrArg _ (ih hrest fun i => h (i + 1))

theorem length_slots_of_bare {n m : Node} (h : n.bare = m.bare) :
    n.slots.length = m.slots.length := by
  simpa using congrArg List.length (bare_eq_iff.mp h).2.2

/-- Alike trees have alike children in the same slots. -/
theorem child?_of_bare {n m : Node} (h : n.bare = m.bare) (i : Nat) :
    (n.child? i).map bare = (m.child? i).map bare := by
  rw [child?, child?, ← join_getElem?_map, (bare_eq_iff.mp h).2.2, join_getElem?_map]

/-- Alike trees have alike nodes in the same places. -/
theorem at?_of_bare {n m : Node} (h : n.bare = m.bare) (path : Path) :
    (n.at? path).map bare = (m.at? path).map bare := by
  induction path generalizing n m with
  | nil => exact congrArg some h
  | cons i path ih =>
    have hchild := child?_of_bare h i
    rw [at?, at?]
    cases hn : n.child? i with
    | none =>
      rw [hn] at hchild
      rw [Option.map_eq_none_iff.mp hchild.symm]
    | some child =>
      rw [hn] at hchild
      obtain ⟨other, hm, hother⟩ := Option.map_eq_some_iff.mp hchild.symm
      rw [hm]
      exact ih hother.symm

end PixelEffect.Node
