import PixelEffect.Proofs.Key.Emission
import PixelEffect.Proofs.Pool.Flags

namespace PixelEffect

namespace Node

/-- How a tree is sampled does not change what is in it. -/
theorem contains_resampled {n : Node} {c : EffectClass} (sampling : Sampling) :
    (n.resampled sampling).Contains c ↔ n.Contains c := by
  rw [contains_iff, contains_iff (n := n)]
  cases n
  rfl

/-- The generic form of a tree has the classes of the tree. -/
theorem contains_generic {n : Node} {c : EffectClass} : n.generic.Contains c ↔ n.Contains c := by
  induction n with
  | mk data slots ih =>
    rw [contains_iff, contains_iff (n := mk data slots)]
    have hclass : (mk data slots).generic.kind.effectClass = data.kind.effectClass :=
      Kind.effectClass_generic _
    have hslots : (mk data slots).generic.slots = genericSlots slots := rfl
    rw [hclass, hslots, genericSlots_eq_map]
    refine or_congr_right ?_
    simp only [List.mem_map, Option.map_eq_some_iff]
    constructor
    · rintro ⟨_, ⟨_, hchild, child, rfl, rfl⟩, hcontains⟩
      rw [contains_resampled] at hcontains
      exact ⟨child, hchild, (ih child hchild).mp hcontains⟩
    · rintro ⟨child, hchild, hcontains⟩
      refine ⟨_, ⟨_, hchild, child, rfl, rfl⟩, ?_⟩
      rw [contains_resampled]
      exact (ih child hchild).mpr hcontains

/-- Trees with exact flags have one program if they have one generic form. -/
theorem Grown.program_eq {a b : Node} (ha : a.Grown) (hb : b.Grown) (h : a.generic = b.generic)
    (options : ProgramOptions) : Program.ofNode a options = Program.ofNode b options := by
  have hcontains : ∀ c, a.Contains c ↔ b.Contains c := by
    intro c
    rw [← contains_generic, h, contains_generic]
  have hdestination : a.flags.readsDestination = b.flags.readsDestination := by
    rw [Bool.eq_iff_iff, ha.2.readsDestination_iff, hb.2.readsDestination_iff]
    exact hcontains _
  have hfragCoord : a.capabilities.fragCoord = b.capabilities.fragCoord := by
    rw [Bool.eq_iff_iff, ha.2.fragCoord_iff, hb.2.fragCoord_iff]
    exact hcontains _
  exact Program.ofNode_eq_of_generic_eq h hdestination hfragCoord options

end Node

namespace Pool

open Node

/-- Trees with one key have one program. However the two trees came about, and whatever the options:
generating their programs either fails for both of them in the same way, or yields programs with the
same source text, uniforms and fingerprint, and then the program of the first tree takes the values
of the second one exactly as the second one's own program does. -/
theorem program_shared {allowed allowed' : Operation → Prop} {pool pool' : Pool}
    (hpool : Reachable allowed pool) (hpool' : Reachable allowed' pool') {a b : Node}
    (ha : a ∈ pool.trees) (hb : b ∈ pool'.trees) (hcountable : a.Countable)
    (hcountable' : b.Countable) (hkey : ProgramKey.ofNode a = ProgramKey.ofNode b)
    (options : ProgramOptions) :
    (∃ e, Program.ofNode a options = .error e ∧ Program.ofNode b options = .error e) ∨
      ∃ p q, Program.ofNode a options = .ok p ∧ Program.ofNode b options = .ok q ∧
        p.text = q.text ∧ p.uniforms = q.uniforms ∧ p.fingerprint = q.fingerprint ∧
        p.uniformValues b = q.uniformValues b := by
  have hgeneric : a.generic = b.generic :=
    (keyWords_eq_iff hcountable hcountable').mp (ProgramKey.mk.inj hkey)
  have hgrown := hpool.preserves (preserved_grown allowed) a ha
  have hgrown' := hpool'.preserves (preserved_grown allowed') b hb
  have hprogram := hgrown.program_eq hgrown' hgeneric options
  cases hresult : Program.ofNode b options with
  | error e => exact .inl ⟨e, hprogram.trans hresult, rfl⟩
  | ok p => exact .inr ⟨p, p, hprogram.trans hresult, rfl, rfl, rfl, rfl, rfl⟩

/-- A color that is multiplied by the input: a node with a child and an absent operand. -/
def modulated (c : Color Single) : Node :=
  binary ⟨1⟩ (.blend .modulate .skMode) ⟨BlendMode.modulate.keepsOpaque c.isOpaque true, true⟩
    (some (leaf ⟨0⟩ (.color c) ⟨c.isOpaque, true⟩)) none

/-- The modulated color is what one call of a public constructor yields. -/
theorem reachable_modulated (c : Color Single) :
    Reachable (fun _ => True) ⟨[modulated c], ⟨2⟩⟩ := by
  have hcall : Step .call empty ⟨[modulated c], ⟨2⟩⟩ :=
    @Step.call [] [] _ _ (.modify (.modulateRgba c) none) (some (modulated c)) (.refl _) rfl
  exact .step .empty trivial hcall

theorem countable_modulated (c : Color Single) : (modulated c).Countable := by
  refine .mk (show 2 < 2 ^ 32 by decide) fun child hchild => ?_
  rcases List.mem_cons.mp hchild with hfirst | hchild
  · cases hfirst
    exact .mk (show 0 < 2 ^ 32 by decide) fun _ h => by cases h
  · cases List.mem_singleton.mp hchild

/-- White that is multiplied by the input and transparent that is have one key, though only white is
marked as opaque: their program takes the color of the child as a uniform. -/
theorem program_shared_colors :
    let white := modulated .white
    let transparent := modulated .transparent
    white.optimizations ≠ transparent.optimizations ∧
      ∃ p q, Program.ofNode white .standard = .ok p ∧
        Program.ofNode transparent .standard = .ok q ∧ p.text = q.text ∧
        p.uniforms = q.uniforms ∧ p.fingerprint = q.fingerprint ∧
        p.uniformValues transparent = q.uniformValues transparent := by
  intro white transparent
  have hkey : ProgramKey.ofNode white = ProgramKey.ofNode transparent := rfl
  refine ⟨by decide, (program_shared (reachable_modulated .white)
    (reachable_modulated .transparent) (List.mem_singleton.mpr rfl) (List.mem_singleton.mpr rfl)
    (countable_modulated _) (countable_modulated _) hkey .standard).resolve_left ?_⟩
  rintro ⟨e, he, _⟩
  cases he

end Pool

end PixelEffect
