import PixelEffect.Proofs.Build
import PixelEffect.Proofs.Series

namespace PixelEffect

namespace Node

/-- A node refines another one of its kind if its child does. -/
theorem unary_refines {id id' : NodeId} {kind : Kind} {o o' : Optimizations}
    {sampling sampling' : Sampling} {child child' : Option Node}
    (h : Option.Rel Refines child child') :
    (unary id kind o child sampling).Refines (unary id' kind o' child' sampling') := by
  refine refines_of_operands (slots_content_unary ..) (slots_content_unary ..) (by simp) ?_
  intro i
  match i with
  | 0 => exact h
  | _ + 1 => exact .none

/-- A node of two operands refines another one of its kind if both operands do. -/
theorem binary_refines {id id' : NodeId} {kind : Kind} {o o' : Optimizations}
    {first first' second second' : Option Node} (hfirst : Option.Rel Refines first first')
    (hsecond : Option.Rel Refines second second') :
    (binary id kind o first second).Refines (binary id' kind o' first' second') := by
  refine refines_of_operands (slots_content_binary ..) (slots_content_binary ..) (by simp) ?_
  intro i
  match i with
  | 0 => exact hfirst
  | 1 => exact hsecond
  | _ + 2 => exact .none

/-- A tree covers another one if it yields whatever that one yields. Optional trees have to be both
absent or both present. -/
def Covers (n m : Option Node) : Prop := Option.Rel Refines m n

theorem Covers.isSome_eq {n m : Option Node} (h : Covers n m) : n.isSome = m.isSome := by
  cases h <;> rfl

end Node

namespace Effect

open Node Build

/-- A new tree covers the tree that is built in its place. -/
abbrev CoversNode (n m : Node) : Prop := m.Refines n

/-- New nodes of one kind may differ in their flags. -/
theorem tracks_create (kind : Kind) (o o' : Optimizations) :
    Tracks CoversNode (create kind o) (create kind o') := by
  intro id
  refine .inr ⟨_, _, run_create _ _ _, fun id' => ⟨_, _, run_create _ _ _, ?_⟩⟩
  have hnone : ([] : List (Option Node)).map (Option.map content) = [] := rfl
  exact refines_of_operands hnone.symm hnone.symm rfl fun _ => .none

/-- Nodes of one kind on top of related trees are related. -/
theorem tracks_wrap {kind : Kind} {o o' : Optimizations} {child child' : Node}
    {sampling : Sampling} (hfresh : child.isFresh) (hfresh' : child'.isFresh)
    (h : CoversNode child child') :
    Tracks CoversNode (wrap kind o child sampling) (wrap kind o' child' sampling) := by
  intro id
  refine .inr ⟨_, _, run_wrap_eq_ok.mpr ⟨hfresh, rfl, rfl⟩, fun id' => ?_⟩
  exact ⟨_, _, run_wrap_eq_ok.mpr ⟨hfresh', rfl, rfl⟩, unary_refines (.some h)⟩

theorem tracks_colorMatrix {child child' : Option Node} {m : ColorMatrix}
    (hfresh : FreshIfAny child) (hfresh' : FreshIfAny child') (h : Covers child child') :
    Tracks CoversNode (colorMatrix child m) (colorMatrix child' m) := by
  intro id
  refine .inr ⟨_, _, run_colorMatrix_eq_ok.mpr ⟨hfresh, rfl, rfl⟩, fun id' => ?_⟩
  exact ⟨_, _, run_colorMatrix_eq_ok.mpr ⟨hfresh', rfl, rfl⟩, unary_refines h⟩

theorem tracks_blendNode {source source' destination destination' : Option Node}
    {mode : BlendMode} {behavior : BlendBehavior}
    (hsource : FreshIfAny source) (hsource' : FreshIfAny source')
    (hdestination : FreshIfAny destination) (hdestination' : FreshIfAny destination')
    (hs : Covers source source') (hd : Covers destination destination') :
    Tracks CoversNode (blendNode source destination mode behavior)
      (blendNode source' destination' mode behavior) := by
  intro id
  refine .inr ⟨_, _, run_blendNode_eq_ok.mpr ⟨hsource, hdestination, rfl, rfl⟩, fun id' => ?_⟩
  exact ⟨_, _, run_blendNode_eq_ok.mpr ⟨hsource', hdestination', rfl, rfl⟩,
    binary_refines hs hd⟩

/-- An effect that needs a child is absent on both sides or on neither. -/
theorem tracks_mapM {child child' : Option Node} {f g : Node → Build Node}
    (hchild : Operable child) (hchild' : Operable child') (h : Covers child child')
    (hf : ∀ c c', c.isFresh → c'.isFresh → CoversNode c c' → Tracks CoversNode (f c) (g c')) :
    Tracks Covers (child.mapM f) (child'.mapM g) := by
  cases h with
  | none => exact .pure .none
  | @some c' c h =>
    rw [Option.mapM_some, Option.mapM_some]
    exact (hf c c' (hchild.fresh c rfl) (hchild'.fresh c' rfl) h).map fun _ _ h => .some h

theorem tracks_source (s : Source) : Tracks CoversNode s.build s.build := by
  cases s <;> exact tracks_create _ _ _

/-- Blending two pairs of related operands takes the same shortcut on both sides. -/
theorem tracks_blend {source source' destination destination' : Option Node} (mode : BlendMode)
    (behavior : BlendBehavior)
    (hsource : Operable source) (hsource' : Operable source')
    (hdestination : Operable destination) (hdestination' : Operable destination')
    (hs : Covers source source') (hd : Covers destination destination') :
    Tracks Covers (blend source destination mode behavior)
      (blend source' destination' mode behavior) := by
  have hnode : ∀ behavior, Tracks Covers (some <$> blendNode source destination mode behavior)
      (some <$> blendNode source' destination' mode behavior) := fun behavior =>
    (tracks_blendNode hsource.fresh hsource'.fresh hdestination.fresh hdestination'.fresh hs hd).map
      fun _ _ h => .some h
  cases mode with
  | clear => exact (tracks_create _ _ _).map fun _ _ h => .some h
  | src => exact .pure hs
  | dst => exact .pure hd
  | _ =>
    simp only [blend, hs.isSome_eq, hd.isSome_eq]
    exact hnode _

theorem tracks_modulate {child child' : Option Node} (c : Color Single) (mode : BlendMode)
    (hchild : Operable child) (hchild' : Operable child') (h : Covers child child') :
    Tracks CoversNode (do blendNode (some (← color c)) child mode .skMode)
      (do blendNode (some (← color c)) child' mode .skMode) := by
  have hfresh : ∀ {id n last}, (color c).run id = .ok (n, last) → n.isFresh := by
    rintro id _ _ ⟨⟩
    simp
  refine ((tracks_source (.color c)).and_results hfresh hfresh).bind ?_
  rintro n n' ⟨hcovers, hn, hn'⟩
  exact tracks_blendNode (by rintro _ ⟨⟩; exact hn) (by rintro _ ⟨⟩; exact hn') hchild.fresh
    hchild'.fresh (.some hcovers) h

/-- Effects of one child keep related trees related. -/
theorem tracks_modifier (m : Modifier) {child child' : Option Node} (hchild : Operable child)
    (hchild' : Operable child') (h : Covers child child') :
    Tracks Covers (m.build child) (m.build child') := by
  cases m with
  | swizzle s =>
    refine tracks_mapM hchild hchild' h fun c c' hc hc' h => ?_
    split
    · exact .pure h
    · exact tracks_wrap hc hc' h
  | overrideInput | premul | clamp | deviceSpace | matrix =>
    exact tracks_mapM hchild hchild' h fun c c' hc hc' h => tracks_wrap hc hc' h
  | colorMatrix m =>
    exact (tracks_colorMatrix hchild.fresh hchild'.fresh h).map fun _ _ h => .some h
  | mulChildByInputAlpha | mulInputByChildAlpha =>
    cases h with
    | none => exact .pure .none
    | some h =>
      simp only [Modifier.build, mulChildByInputAlpha, mulInputByChildAlpha]
      exact tracks_blend _ _ operable_none operable_none hchild hchild' .none (.some h)
  | modulateAlpha c | modulateRgba c =>
    exact (tracks_modulate c _ hchild hchild' h).map fun _ _ h => .some h

end Effect

end PixelEffect
