import PixelEffect.Proofs.Node.Recursion

namespace PixelEffect.Node

mutual

/-- A tree with the same kinds, optimizations and slots, and nothing else of its own. -/
def content : Node → Node
  | mk data slots =>
    mk
      { id := ⟨0⟩, kind := data.kind, parent := none
        flags := ⟨false, false, false, false, false⟩
        sampling := .unsampled, optimizations := data.optimizations
        capabilities := ⟨false⟩ }
      (contentOfSlots slots)

def contentOfSlots : List (Option Node) → List (Option Node)
  | [] => []
  | none :: rest => none :: contentOfSlots rest
  | some child :: rest => some (content child) :: contentOfSlots rest

end

theorem contentOfSlots_eq_map (slots : List (Option Node)) :
    contentOfSlots slots = slots.map (Option.map content) := by
  induction slots with
  | nil => rfl
  | cons slot rest ih => cases slot <;> simp [contentOfSlots, ih]

theorem mem_map_slots {f : Node → Node} {slots : List (Option Node)} {child : Node} :
    some child ∈ slots.map (Option.map f) ↔ ∃ c, some c ∈ slots ∧ f c = child := by
  simp only [List.mem_map, Option.map_eq_some_iff]
  constructor
  · rintro ⟨_, hc, c, rfl, hchild⟩
    exact ⟨c, hc, hchild⟩
  · rintro ⟨c, hc, hchild⟩
    exact ⟨some c, hc, c, rfl, hchild⟩

theorem forall_mem_map_slots {f : Node → Node} {slots : List (Option Node)} {P : Node → Prop} :
    (∀ child, some child ∈ slots.map (Option.map f) → P child) ↔
      ∀ child, some child ∈ slots → P (f child) := by
  simp only [mem_map_slots]
  constructor
  · exact fun h child hchild => h _ ⟨child, hchild, rfl⟩
  · rintro h _ ⟨child, hchild, rfl⟩
    exact h child hchild

/-- Mapping the slots gives the same result if the two functions agree on every child. -/
theorem map_slots_congr {β : Type} {f g : Node → β} {slots : List (Option Node)}
    (h : ∀ child, some child ∈ slots → f child = g child) :
    slots.map (Option.map f) = slots.map (Option.map g) := by
  apply List.map_congr_left
  intro slot hmem
  cases slot with
  | none => rfl
  | some child => exact congrArg some (h child hmem)

/-- Optional values are mapped to the same ones if they are there in the same places, and what is
there is mapped to the same. -/
theorem map_slots_eq_iff {β : Type} {f g : Node → β} {slots others : List (Option Node)} :
    slots.map (Option.map f) = others.map (Option.map g) ↔
      slots.map Option.isSome = others.map Option.isSome ∧
        ∀ (i : Nat) child other, slots[i]? = some (some child) → others[i]? = some (some other) →
          f child = g other := by
  induction slots generalizing others with
  | nil => cases others <;> simp
  | cons slot rest ih =>
    cases others with
    | nil => simp
    | cons other others =>
      simp only [List.map_cons, List.cons.injEq, ih]
      constructor
      · rintro ⟨hslot, hpresent, hrest⟩
        have hhead : slot.isSome = other.isSome := by
          rw [← Option.isSome_map (f := f), hslot, Option.isSome_map]
        refine ⟨⟨hhead, hpresent⟩, fun i child child' hchild hchild' => ?_⟩
        cases i with
        | zero =>
          cases hchild
          cases hchild'
          exact Option.some.inj hslot
        | succ i => exact hrest i child child' hchild hchild'
      · rintro ⟨⟨hhead, hpresent⟩, hchildren⟩
        refine ⟨?_, hpresent, fun i => hchildren (i + 1)⟩
        cases slot with
        | none =>
          obtain rfl : other = none := Option.not_isSome_iff_eq_none.mp (by simp [← hhead])
          rfl
        | some child =>
          obtain ⟨other, rfl⟩ := Option.isSome_iff_exists.mp hhead.symm
          exact congrArg some (hchildren 0 child other rfl rfl)

@[simp] theorem kind_content (n : Node) : n.content.kind = n.kind := by
  cases n
  rfl

@[simp] theorem optimizations_content (n : Node) :
    n.content.optimizations = n.optimizations := by
  cases n
  rfl

theorem slots_content (n : Node) : n.content.slots = n.slots.map (Option.map content) := by
  cases n
  exact contentOfSlots_eq_map _

/-- Contents can be compared node by node. -/
theorem content_eq_iff {n m : Node} :
    n.content = m.content ↔ n.kind = m.kind ∧ n.optimizations = m.optimizations ∧
      n.slots.map (Option.map content) = m.slots.map (Option.map content) := by
  cases n
  cases m
  simp [content, contentOfSlots_eq_map, kind, optimizations, Node.data, slots, and_assoc]

@[simp] theorem content_pushDown (flag : InheritedFlag) (n : Node) :
    (n.pushDown flag).content = n.content := by
  induction n with
  | mk data slots ih =>
    simp only [pushDown]
    split
    · rfl
    · simp only [content, contentOfSlots_eq_map, pushDownSlots_eq_map, List.map_map]
      congr 1
      apply List.map_congr_left
      intro slot hmem
      cases slot with
      | none => rfl
      | some child => exact congrArg some (ih child hmem)

@[simp] theorem content_withParent (parent : NodeId) (n : Node) :
    (n.withParent parent).content = n.content := by
  cases n
  rfl

@[simp] theorem content_sampled (sampling : Sampling) (n : Node) :
    (n.sampled sampling).content = n.content := by
  obtain ⟨data, slots⟩ := n
  simp only [sampled]
  split <;> split <;> simp [content]

/-- What a tree evaluates to can be read off its content. -/
theorem shade_content {α : Type} [Scalar α] (n : Node) :
    n.content.shade (α := α) = n.shade := by
  induction n with
  | mk data slots ih =>
    simp only [content, shade, contentOfSlots_eq_map, shades_eq_map, List.map_map,
      Option.map_comp_map]
    rw [map_slots_congr (f := shade ∘ content) ih]

/-- Whether a tree ignores its input can be read off its content. -/
theorem ignoresInput_content (n : Node) : n.content.ignoresInput = n.ignoresInput := by
  induction n with
  | mk data slots ih =>
    simp only [content, ignoresInput, contentOfSlots_eq_map, ignoringSlots_eq_map, List.map_map,
      Option.map_comp_map]
    rw [map_slots_congr (f := ignoresInput ∘ content) ih]

end PixelEffect.Node
