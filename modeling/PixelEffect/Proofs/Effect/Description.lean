import PixelEffect.Description.Tree
import PixelEffect.Proofs.Effect.Folding

namespace PixelEffect

open Effect Build

namespace Effect.Recipe

/-- Building a nest for one operand goes through the operand first. -/
theorem run_modify {m : Modifier} {child : Recipe} {id next last : NodeId} {n out : Option Node}
    (hchild : child.build.run id = .ok (n, next)) (h : (m.build n).run next = .ok (out, last)) :
    (modify m child).build.run id = .ok (out, last) :=
  run_bind_eq_ok.mpr ⟨n, next, hchild, h⟩

/-- Building a nest for two operands goes through both of them, from left to right. -/
theorem run_combine {c : Combiner} {f g : Recipe} {id next next' last : NodeId}
    {n m out : Option Node} (hf : f.build.run id = .ok (n, next))
    (hg : g.build.run next = .ok (m, next'))
    (h : (c.buildWith compose n m).run next' = .ok (out, last)) :
    (combine c f g).build.run id = .ok (out, last) :=
  run_bind_eq_ok.mpr ⟨n, next, hf, run_bind_eq_ok.mpr ⟨m, next', hg, h⟩⟩

end Effect.Recipe

namespace Description

/-- A computation that yields no more than recipes do. -/
def FollowsRecipe (x : Build (Option Node)) : Prop :=
  ∀ (id last : NodeId) (out : Option Node), x.run id = .ok (out, last) →
    ∃ r : Recipe, r.build.run id = .ok (out, last)

variable {α : Type} {child x y : Build (Option Node)}

theorem FollowsRecipe.modify (hchild : FollowsRecipe child) (m : Modifier) :
    FollowsRecipe (do m.build (← child)) := by
  intro id last out h
  obtain ⟨n, next, hn, h⟩ := run_bind_eq_ok.mp h
  obtain ⟨r, hr⟩ := hchild _ _ _ hn
  exact ⟨.modify m r, Recipe.run_modify hr h⟩

/-- Checking a parameter creates no nodes. -/
theorem FollowsRecipe.of_parameter {parameter : Except Error α} {f : α → Build (Option Node)}
    (h : ∀ a, FollowsRecipe (f a)) : FollowsRecipe (do f (← ofExcept parameter)) := by
  intro id last out hrun
  obtain ⟨a, next, ha, hrun⟩ := run_bind_eq_ok.mp hrun
  obtain ⟨_, rfl⟩ := run_ofExcept_eq_ok.mp ha
  exact h a _ _ _ hrun

/-- A parameter that is checked behind the operand leaves the nest as it is. -/
theorem FollowsRecipe.modify_of_parameter (hchild : FollowsRecipe child)
    (parameter : Except Error α) (m : α → Modifier) :
    FollowsRecipe (do
      let n ← child
      (m (← ofExcept parameter)).build n) := by
  intro id last out h
  obtain ⟨n, next, hn, h⟩ := run_bind_eq_ok.mp h
  obtain ⟨r, hr⟩ := hchild _ _ _ hn
  obtain ⟨a, next', ha, h⟩ := run_bind_eq_ok.mp h
  obtain ⟨_, rfl⟩ := run_ofExcept_eq_ok.mp ha
  exact ⟨.modify (m a) r, Recipe.run_modify hr h⟩

theorem FollowsRecipe.source (s : Source) : FollowsRecipe (some <$> s.build) :=
  fun _ _ _ h => ⟨.source s, h⟩

/-- Two nests side by side become one under an effect of two operands. -/
theorem FollowsRecipe.combine (hx : FollowsRecipe x) (hy : FollowsRecipe y) (c : Combiner) :
    FollowsRecipe (do
      let f ← x
      c.buildWith Effect.compose f (← y)) := by
  intro id last out h
  obtain ⟨n, next, hn, h⟩ := run_bind_eq_ok.mp h
  obtain ⟨m, next', hm, h⟩ := run_bind_eq_ok.mp h
  obtain ⟨f, hf⟩ := hx _ _ _ hn
  obtain ⟨g, hg⟩ := hy _ _ _ hm
  exact ⟨.combine c f g, Recipe.run_combine hf hg h⟩

mutual

/-- What a description builds a recipe builds, too. -/
theorem followsRecipe_build : (d : Description) → FollowsRecipe d.build
  | color _ => .of_parameter fun c => .source (.color c)
  | destColor => .source .destColor
  | overrideInput child c useUniform =>
    (followsRecipe_buildOperand child).modify_of_parameter c.validate fun c =>
      .overrideInput c useUniform
  | swizzle child s =>
    (followsRecipe_buildOperand child).modify_of_parameter (Swizzle.ofText s) .swizzle
  | premul child => (followsRecipe_buildOperand child).modify .premul
  | compose f g =>
    (followsRecipe_buildOperand f).combine (followsRecipe_buildOperand g) .compose
  | blend source destination mode behavior =>
    (followsRecipe_buildOperand source).combine (followsRecipe_buildOperand destination)
      (.blend mode behavior)
  | mulChildByInputAlpha child =>
    (followsRecipe_buildOperand child).modify .mulChildByInputAlpha
  | mulInputByChildAlpha child =>
    (followsRecipe_buildOperand child).modify .mulInputByChildAlpha
  | modulateAlpha child c =>
    (followsRecipe_buildOperand child).modify_of_parameter c.validate .modulateAlpha
  | modulateRgba child c =>
    (followsRecipe_buildOperand child).modify_of_parameter c.validate .modulateRgba
  | colorMatrix child _ _ _ _ =>
    .of_parameter fun m => (followsRecipe_buildOperand child).modify (.colorMatrix m)
  | clamp child toAlpha => (followsRecipe_buildOperand child).modify (.clamp toAlpha)
  | deviceSpace child => (followsRecipe_buildOperand child).modify .deviceSpace
  | matrix child m =>
    (followsRecipe_buildOperand child).modify_of_parameter m.validate .matrix
  | linearGradient start finish _ _ =>
    .of_parameter fun _ => .of_parameter fun c => .of_parameter fun d =>
      .source (.linearGradient start finish c d)

theorem followsRecipe_buildOperand : (d : Option Description) → FollowsRecipe (buildOperand d)
  | none => fun _ _ _ h => ⟨.absent, h⟩
  | some d => followsRecipe_build d

end

end Description

end PixelEffect
