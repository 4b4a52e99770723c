import PixelEffect.Node.Equality
import PixelEffect.Node.Evaluation
import PixelEffect.Node.Attach
import PixelEffect.ProgramKey

namespace PixelEffect.Node

/-- A property of all trees follows if every node inherits it from its children. -/
@[induction_eliminator]
theorem induction {motive : Node → Prop}
    (mk : ∀ data slots, (∀ child, some child ∈ slots → motive child) → motive (mk data slots))
    (n : Node) : motive n := by
  refine @Node.rec motive (fun slots => ∀ child, some child ∈ slots → motive child)
    (fun slot => ∀ child, slot = some child → motive child)
    (fun data slots ih => mk data slots ih) ?_ ?_ ?_ ?_ n
  · intro child hmem
    cases hmem
  · intro slot rest hslot hrest child hmem
    cases hmem with
    | head => exact hslot child rfl
    | tail _ hmem => exact hrest child hmem
  · intro child heq
    cases heq
  · intro child hchild other heq
    cases heq
    exact hchild

theorem pushDownSlots_eq_map (flag : InheritedFlag) (slots : List (Option Node)) :
    pushDownSlots flag slots = slots.map (Option.map (pushDown flag)) := by
  induction slots with
  | nil => rfl
  | cons slot rest ih => cases slot <;> simp [pushDownSlots, ih]

theorem shades_eq_map {α : Type} [Scalar α] (slots : List (Option Node)) :
    shades slots = slots.map (Option.map (shade (α := α))) := by
  induction slots with
  | nil => rfl
  | cons slot rest ih => cases slot <;> simp [shades, ih]

theorem ignoringSlots_eq_map (slots : List (Option Node)) :
    ignoringSlots slots = slots.map (Option.map ignoresInput) := by
  induction slots with
  | nil => rfl
  | cons slot rest ih => cases slot <;> simp [ignoringSlots, ih]

/-- A tree ignores its input depending on its kind and on which operands do. -/
theorem ignoresInput_eq (n : Node) :
    n.ignoresInput = n.kind.ignoresInput (n.slots.map (Option.map ignoresInput)) := by
  cases n
  rw [ignoresInput, ignoringSlots_eq_map]
  rfl

end PixelEffect.Node
