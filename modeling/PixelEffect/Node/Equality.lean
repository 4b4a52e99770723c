import PixelEffect.Node.Basic

namespace PixelEffect.Node

mutual

/-- Compares two trees. Identities, sampling and derived flags are not looked at, except whether
the nodes read coordinates themselves. -/
def alike : Node → Node → Bool
  | mk data slots, mk other others =>
    data.kind.effectClass = other.kind.effectClass
      && data.flags.usesCoordsDirectly == other.flags.usesCoordsDirectly
      && data.kind = other.kind && alikeSlots slots others

def alikeSlots : List (Option Node) → List (Option Node) → Bool
  | [], [] => true
  | none :: rest, none :: others => alikeSlots rest others
  | some child :: rest, some other :: others => alike child other && alikeSlots rest others
  | _, _ => false

end

end PixelEffect.Node
