import PixelEffect.Proofs.Effect.Shortcut
import PixelEffect.Proofs.Pool.Registration

namespace PixelEffect.Pool

open Node Effect

/-- Clearing comes to the same as a node for it, up to the signs of zeros. A chosen operand yields
its color for the input, and the node yields its color for the probe, scaled by the alpha of the
input if both operands are composed. The two colors are the same if the probe is the input, or if
the operand does not see the difference and the input is opaque wherever it scales. -/
theorem shortcuts_agree {pool : Pool} (hpool : Session (· ∈ Operation.manufacturing) pool)
    {source destination : Option Node} (hsource : ∀ n, source = some n → n ∈ pool.trees)
    (hdestination : ∀ n, destination = some n → n ∈ pool.trees)
    {mode : BlendMode} (hmode : mode ∈ [BlendMode.clear, .src, .dst]) (behavior : BlendBehavior)
    (id id' : NodeId) :
    let resolved := behavior.resolve source.isSome destination.isSome
    ∃ out last general last',
      (blend source destination mode behavior).run id = .ok (out, last) ∧
      (blendNode source destination mode resolved).run id' = .ok (general, last') ∧
      ∀ input c c', shadeOf out input = .ok c → general.shade input = .ok c' →
        c.isFinite → c'.isFinite →
        (mode = .clear → c.equals c' ∧
          (c = c' ↔ (resolved = .composeTwo → ¬input.a.isNegative))) ∧
        ∀ chosen, mode.chosen source destination = some chosen →
          shadeOf chosen input = .ok c ∧
          (∃ x, resolved.operandColor chosen input = .ok x ∧ c' = resolved.finish x input) ∧
          (resolved = .skMode ∨
            Unmoved chosen input ∧ (resolved = .composeTwo → input.isOpaque) → c = c') := by
  intro resolved
  have havailable := hpool.available hsource
  have havailable' := hpool.available hdestination
  obtain ⟨general, last', hgeneral⟩ := @succeeds_blendNode source destination mode resolved
    havailable.fresh havailable'.fresh id'
  have hchosen : ∀ {chosen : Option Node} {input c x : Color Single}, Available chosen →
      shadeOf chosen input = .ok c → c.isFinite → resolved.operandColor chosen input = .ok x →
      resolved = .skMode ∨
        Unmoved chosen input ∧ (resolved = .composeTwo → input.isOpaque) →
      c = resolved.finish x input := by
    intro chosen input c x havailable hc hfinite hx h
    exact eq_finish h (fun tree htree => (havailable.standard tree htree).deduced) hc hfinite hx
  cases mode with
  | clear =>
    refine ⟨_, _, general, last', rfl, hgeneral, fun input c c' hc hc' _ hfinite => ?_⟩
    obtain ⟨s, d, _, _, rfl⟩ := shade_blendNode hgeneral hc'
    cases hc
    exact ⟨fun _ => resolved.finish_transparent hfinite, fun _ h => by cases h⟩
  | src =>
    refine ⟨source, id, general, last', rfl, hgeneral, fun input c c' hc hc' hfinite _ => ?_⟩
    obtain ⟨s, d, hs, _, rfl⟩ := shade_blendNode hgeneral hc'
    refine ⟨fun h => (by cases h), ?_⟩
    rintro _ ⟨⟩
    exact ⟨hc, ⟨s, hs, rfl⟩, hchosen havailable hc hfinite hs⟩
  | dst =>
    refine ⟨destination, id, general, last', rfl, hgeneral, fun input c c' hc hc' hfinite _ => ?_⟩
    obtain ⟨s, d, _, hd, rfl⟩ := shade_blendNode hgeneral hc'
    refine ⟨fun h => (by cases h), ?_⟩
    rintro _ ⟨⟩
    exact ⟨hc, ⟨d, hd, rfl⟩, hchosen havailable' hc hfinite hd⟩
  | _ => simp at hmode

/-- White, which is its own color whatever the input. -/
def whiteLeaf (index : Nat) : Node := leaf ⟨index⟩ (.color .white) ⟨true, true⟩

/-- Two calls put two whites into a pool. -/
theorem session_whites :
    Session (· ∈ Operation.manufacturing) ⟨[whiteLeaf 1, whiteLeaf 0], ⟨2⟩⟩ := by
  have hone : Session (· ∈ Operation.manufacturing) ⟨[whiteLeaf 0], ⟨1⟩⟩ :=
    @Session.returned _ empty (.call (.source (.color .white))) [] [] [whiteLeaf 0] ⟨1⟩ .start
      (by decide) (.refl _) rfl
  exact @Session.returned _ _ (.call (.source (.color .white))) [whiteLeaf 0] [] [whiteLeaf 1] ⟨2⟩
    hone (by decide) (.refl _) rfl

/-- The node for yielding the first of two whites. -/
def firstOfWhites : Node :=
  binary ⟨2⟩ (.blend .src .composeTwo) ⟨true, true⟩ (some (whiteLeaf 0)) (some (whiteLeaf 1))

/-- It is the node that the blend of the two whites would be if it were not cut short. -/
theorem run_firstOfWhites :
    (blendNode (some (whiteLeaf 0)) (some (whiteLeaf 1)) .src
      (BlendBehavior.default.resolve true true)).run ⟨2⟩ = .ok (firstOfWhites, ⟨3⟩) := rfl

/-- With opaque white for the input there is nothing to see and nothing to scale. -/
theorem shortcuts_agree_whites :
    ∃ c, firstOfWhites.shade .white = .ok c ∧ c.isFinite ∧ (Color.white : Color Single) = c := by
  have hshade : firstOfWhites.shade .white = .ok (Color.white : Color Single) := by decide +kernel
  obtain ⟨out, _, general, last, hout, hgeneral, hagree⟩ :=
    @shortcuts_agree _ session_whites (some (whiteLeaf 0)) (some (whiteLeaf 1))
      (by simp) (by simp) .src (by simp) .default ⟨2⟩ ⟨2⟩
  cases hout
  cases run_firstOfWhites.symm.trans hgeneral
  obtain ⟨_, _, hsame⟩ := (hagree .white .white _ rfl hshade (by decide) (by decide)).2 _ rfl
  exact ⟨_, hshade, by decide, hsame (.inr ⟨.inr (.inr rfl), fun _ => by decide⟩)⟩

/-- The first of two whites is white whatever the input, but a node for it yields nothing where the
input is transparent. -/
theorem shortcuts_differ :
    Session (· ∈ Operation.manufacturing) ⟨[whiteLeaf 1, whiteLeaf 0], ⟨2⟩⟩ ∧
      (blend (some (whiteLeaf 0)) (some (whiteLeaf 1)) .src .default).run ⟨2⟩ =
        .ok (some (whiteLeaf 0), ⟨2⟩) ∧
      (blendNode (some (whiteLeaf 0)) (some (whiteLeaf 1)) .src
        (BlendBehavior.default.resolve true true)).run ⟨2⟩ = .ok (firstOfWhites, ⟨3⟩) ∧
      shadeOf (some (whiteLeaf 0)) .transparent = .ok (.white : Color Single) ∧
      firstOfWhites.shade .transparent = .ok (.transparent : Color Single) ∧
      (Color.white : Color Single).isFinite ∧ (Color.transparent : Color Single).isFinite ∧
      ¬(Color.white : Color Single).equals .transparent :=
  ⟨session_whites, rfl, run_firstOfWhites, rfl, by decide +kernel, by decide, by decide, by decide⟩

end PixelEffect.Pool
