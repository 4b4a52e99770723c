import PixelEffect.Proofs.Node.Content
import PixelEffect.Proofs.Results

namespace PixelEffect

/-- Where the colors that no effect computes come from, and how places are mapped on the way down
a tree. Nothing is assumed about any of it. -/
structure Scene (Place α : Type) where
  /-- What an effect with the parameters of a kind picks up at a place. -/
  sample : Kind → Place → Color α
  /-- The place of the fragment. -/
  fragment : Place
  transform : Matrix3 → Place → Place

namespace Scene

variable {Place α : Type} (scene : Scene Place α)

/-- The place where a node of some kind samples its children, from its own. -/
def below (kind : Kind) (place : Place) : Place :=
  match kind with
  | .deviceSpace => scene.fragment
  | .matrix m => scene.transform m place
  | _ => place

/-- The colors of the scene at a place, whatever the input. -/
def elsewhere (place : Place) (kind : Kind) : Shade α := fun _ => .ok (scene.sample kind place)

end Scene

namespace Node

variable {Place α : Type} [Scalar α]

mutual

/-- What a tree makes of an input color at a place of a scene. -/
def paint (scene : Scene Place α) : Node → Place → Shade α
  | mk data slots => fun place =>
    data.kind.output (scene.elsewhere place)
      (paintSlots scene slots (scene.below data.kind place))

def paintSlots (scene : Scene Place α) :
    List (Option Node) → Place → List (Option (Shade α))
  | [], _ => []
  | none :: rest, place => none :: paintSlots scene rest place
  | some child :: rest, place => some (paint scene child place) :: paintSlots scene rest place

end

variable {scene : Scene Place α}

theorem paintSlots_eq_map (slots : List (Option Node)) (place : Place) :
    paintSlots scene slots place = slots.map (Option.map fun child => child.paint scene place) := by
  induction slots with
  | nil => rfl
  | cons slot rest ih => cases slot <;> simp [paintSlots, ih]

/-- A tree paints what its kind makes of its operands, seen from below the kind. -/
theorem paint_eq (n : Node) (place : Place) :
    n.paint scene place = n.kind.output (scene.elsewhere place)
      (n.slots.map (Option.map fun child => child.paint scene (scene.below n.kind place))) := by
  cases n
  simp only [paint, paintSlots_eq_map]
  rfl

/-- What a tree paints can be read off its content. -/
theorem paint_content (n : Node) (place : Place) :
    n.content.paint scene place = n.paint scene place := by
  induction n generalizing place with
  | mk data slots ih =>
    rw [paint_eq, paint_eq, kind_content, slots_content, List.map_map, Option.map_comp_map]
    exact congrArg _ (map_slots_congr fun child hchild => ih child hchild _)

/-- What a node was given as operands decides what it paints, wherever its children hang now. -/
theorem paint_of_operands {n : Node} {operands : List (Option Node)}
    (h : n.slots.map (Option.map content) = operands.map (Option.map content)) (place : Place) :
    n.paint scene place = n.kind.output (scene.elsewhere place)
      (operands.map (Option.map fun child => child.paint scene (scene.below n.kind place))) := by
  have hcontent : n.content = (mk n.data operands).content := content_eq_iff.mpr ⟨rfl, rfl, h⟩
  rw [← paint_content n, hcontent, paint_content, paint_eq]
  rfl

end Node

/-- The second one yields whatever the first one yields. It may yield more. -/
def Shade.Refines {α : Type} (s t : Shade α) : Prop :=
  ∀ input c, s input = .ok c → t input = .ok c

section Operands

variable {α : Type} {xs ys : List (Option (Shade α))}

/-- An operand may be exchanged for one that refines it. -/
theorem operandOutput_refines {i : Nat}
    (h : Option.Rel Shade.Refines xs[i]?.join ys[i]?.join) :
    Shade.Refines (operandOutput xs i) (operandOutput ys i) := by
  unfold operandOutput
  revert h
  generalize xs[i]?.join = x, ys[i]?.join = y
  intro h
  cases h with
  | none => exact fun _ _ h => h
  | some h => exact h

theorem presentOutput?_of_refines {i : Nat} {input : Color α} {c : Option (Color α)}
    (h : Option.Rel Shade.Refines xs[i]?.join ys[i]?.join)
    (hc : presentOutput? xs i input = .ok c) : presentOutput? ys i input = .ok c := by
  unfold presentOutput? at hc ⊢
  revert h hc
  generalize xs[i]?.join = x, ys[i]?.join = y
  intro h hc
  cases h with
  | none => exact hc
  | @some s t h =>
    obtain ⟨out, hs, rfl⟩ := Except.map_eq_ok.mp hc
    exact Except.map_eq_ok.mpr ⟨out, h _ _ hs, rfl⟩

/-- An effect yields at least as much if each of its operands does. -/
theorem Kind.output_refines [Scalar α] (elsewhere : Kind → Shade α) (kind : Kind)
    (h : ∀ i : Nat, Option.Rel Shade.Refines xs[i]?.join ys[i]?.join) :
    Shade.Refines (kind.output elsewhere xs) (kind.output elsewhere ys) := by
  intro input c hc
  have hoperand : ∀ i, Shade.Refines (operandOutput xs i) (operandOutput ys i) :=
    fun i => operandOutput_refines (h i)
  cases kind with
  | color | destColor | linearGradient => exact hc
  | overrideInput | deviceSpace | matrix => exact hoperand 0 _ _ hc
  | swizzle | colorMatrix =>
    obtain ⟨out, hout, rfl⟩ := Except.map_eq_ok.mp hc
    exact Except.map_eq_ok.mpr ⟨out, hoperand 0 _ _ hout, rfl⟩
  | clamp premul =>
    cases premul with
    | false =>
      obtain ⟨out, hout, rfl⟩ := Except.map_eq_ok.mp hc
      exact Except.map_eq_ok.mpr ⟨out, hoperand 0 _ _ hout, rfl⟩
    | true =>
      obtain ⟨out, hout, hclamp⟩ := Except.bind_eq_ok.mp hc
      exact Except.bind_eq_ok.mpr ⟨out, hoperand 0 _ _ hout, hclamp⟩
  | premul =>
    obtain ⟨out, hout, hmul⟩ := Except.bind_eq_ok.mp hc
    exact Except.bind_eq_ok.mpr ⟨out, hoperand 0 _ _ hout, hmul⟩
  | compose =>
    obtain ⟨inner, hinner, houter⟩ := Except.bind_eq_ok.mp hc
    exact Except.bind_eq_ok.mpr ⟨inner, hoperand 1 _ _ hinner, hoperand 0 _ _ houter⟩
  | blend mode behavior =>
    obtain ⟨source, hsource, hc⟩ := Except.bind_eq_ok.mp hc
    obtain ⟨destination, hdestination, hc⟩ := Except.bind_eq_ok.mp hc
    exact Except.bind_eq_ok.mpr ⟨source, presentOutput?_of_refines (h 0) hsource,
      Except.bind_eq_ok.mpr ⟨destination, presentOutput?_of_refines (h 1) hdestination, hc⟩⟩

end Operands

theorem join_getElem?_map {α β : Type} (f : α → β) (slots : List (Option α)) (i : Nat) :
    (slots.map (Option.map f))[i]?.join = slots[i]?.join.map f := by
  rw [List.getElem?_map]
  obtain _ | _ | _ := slots[i]? <;> rfl

namespace Node

/-- In every scene, at every place and for every input the second tree yields what the first one
yields. It may yield more. -/
def Refines (n m : Node) : Prop :=
  ∀ (Place : Type) (scene : Scene Place Single) (place : Place),
    Shade.Refines (n.paint scene place) (m.paint scene place)

/-- A node refines another one of its kind if it was given operands that do. -/
theorem refines_of_operands {n m : Node} {xs ys : List (Option Node)}
    (hn : n.slots.map (Option.map content) = xs.map (Option.map content))
    (hm : m.slots.map (Option.map content) = ys.map (Option.map content))
    (hkind : n.kind = m.kind) (h : ∀ i : Nat, Option.Rel Refines xs[i]?.join ys[i]?.join) :
    n.Refines m := by
  intro Place scene place
  rw [paint_of_operands hn, paint_of_operands hm, hkind]
  apply Kind.output_refines
  intro i
  have hoperand := h i
  rw [join_getElem?_map, join_getElem?_map]
  revert hoperand
  generalize xs[i]?.join = x, ys[i]?.join = y
  intro hoperand
  cases hoperand with
  | none => exact .none
  | some hoperand => exact .some (hoperand Place scene _)

end Node

end PixelEffect
