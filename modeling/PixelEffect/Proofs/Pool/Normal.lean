import PixelEffect.Proofs.Effect.Normal
import PixelEffect.Proofs.Effect.Building
import PixelEffect.Proofs.Pool.Manufactured

namespace PixelEffect.Pool

open Node Effect

/-- The operations of a manufactured pool leave nothing to fold. -/
theorem preserved_normal :
    Preserved (· ∈ Operation.manufacturing) fun n => n.Standard ∧ n.Normal where
  create := fun h => absurd h (by decide)
  call := by
    intro h c id out last hoperands hrun
    refine ⟨preserved_standard.call h c id out last (fun n hn => (hoperands n hn).1) hrun, ?_⟩
    refine (Crafted.of_run hrun).normal ?_ (fun n hn => (hoperands n hn).2) out rfl
    rintro f inner ⟨g, hf, hg, hjoins⟩
    exact hjoins.reduced (hoperands f hf).1 (hoperands g hg).1
  attach := fun h => absurd h (by decide)
  clone := by
    rintro h root n copy path id last ⟨hstandard, hnormal⟩ hn hrun
    have hcopy := preserved_standard.clone h root n copy path id last hstandard hn hrun
    exact ⟨hcopy, (hnormal.at? hn).run_clone hrun⟩
  recolor := by
    rintro h root n m path c ⟨hstandard, hnormal⟩ hn hm
    have hrecolored := preserved_standard.recolor h root n m path c hstandard hn hm
    exact ⟨hrecolored, hnormal.replaceAt hn (role_recolor hm) ((hnormal.at? hn).recolor hm)⟩

/-- In the trees of a manufactured pool nothing is left to fold. -/
theorem Manufactured.normal {pool : Pool} (h : Manufactured pool) {n : Node}
    (hn : n ∈ pool.trees) : n.Normal :=
  (h.reachable.preserves preserved_normal n hn).2

/-- Every composition has two operands, of which the one that is applied last is not both marked and
independent of its input; the other one is so only if it is a color behind which there is no mark.
So a marked composition depends on its input. Applying a marked tree to one that is marked and
independent of its input gives a single color, unless the evaluation that finds the color comes to a
premultiplied clamp of a color that has a NaN for alpha. -/
theorem compositions_reduced {pool : Pool} (hpool : Manufactured pool) :
    (∀ root n path, root ∈ pool.trees → root.at? path = some n → n.kind = .compose →
      (∃ f g, n.slots = [some f, some g] ∧ ¬(f.optimizations.constantOutput ∧ f.ignoresInput) ∧
        (g.optimizations.constantOutput ∧ g.ignoresInput →
          g.kind.effectClass = .color ∧ ¬f.optimizations.constantOutput)) ∧
      (n.optimizations.constantOutput → ¬n.ignoresInput)) ∧
    ∀ f g id, f ∈ pool.trees → g ∈ pool.trees → f.optimizations.constantOutput →
      g.optimizations.constantOutput ∧ g.ignoresInput →
      (SeriesAnalysis.MeetsNaN .unknown [g, f] ∧
        (compose (some f) (some g)).run id = .error (.violation .clampBounds)) ∨
      (¬SeriesAnalysis.MeetsNaN .unknown [g, f] ∧ ∃ c, (compose (some f) (some g)).run id =
        .ok (some (leaf id (.color c) ⟨c.isOpaque, true⟩), id.next)) := by
  constructor
  · intro root n path hroot hn hkind
    have hnormal := (hpool.normal hroot).at? hn
    have hstandard := (hpool.standard hroot).at? hn
    exact ⟨((normal_iff.mp hnormal).1 hkind).exists_operands, hnormal.depends hstandard hkind⟩
  · intro f g id hf hg hconstant hsettled
    exact run_compose_of_settled (hpool.standard hf) (hpool.standard hg) hconstant hsettled id

/-- The destination color applied to white. -/
def destinationOfWhite : Node :=
  binary ⟨3⟩ .compose .empty (some (leaf ⟨0⟩ .destColor .empty))
    (some (leaf ⟨2⟩ (.color .white) ⟨true, true⟩))

theorem manufactured_destinationOfWhite :
    Manufactured ⟨[destinationOfWhite], ⟨4⟩⟩ :=
  @Manufactured.describe [] _ _ (some _)
    (.compose (some .destColor) (some (.color (.list .white)))) .empty rfl

/-- The destination color cannot be folded, and the color before it is a plain one. -/
theorem compositions_reduced_destinationOfWhite :
    ∃ f g, destinationOfWhite.slots = [some f, some g] ∧ f.kind = .destColor ∧
      ¬(f.optimizations.constantOutput ∧ f.ignoresInput) ∧
      g.optimizations.constantOutput ∧ g.ignoresInput ∧ g.kind.effectClass = .color := by
  obtain ⟨⟨f, g, hslots, houter, hinner⟩, _⟩ :=
    (compositions_reduced manufactured_destinationOfWhite).1 destinationOfWhite destinationOfWhite []
      (List.mem_singleton.mpr rfl) rfl rfl
  have hoperands : destinationOfWhite.slots.map (Option.map fun n => (n.kind, n.role)) =
      [some (.destColor, ⟨false, true, .destColor⟩),
        some (.color .white, ⟨true, true, .color⟩)] := rfl
  rw [hslots] at hoperands
  injection hoperands with hf hoperands
  injection hoperands with hg _
  injection Option.some.inj hf with hkind _
  injection Option.some.inj hg with _ hrole
  have hsettled : g.role.Settled := hrole ▸ ⟨rfl, rfl⟩
  exact ⟨f, g, hslots, hkind, houter, hsettled.1, hsettled.2, (hinner hsettled).1⟩

/-- The clamp of a color that has a NaN for alpha is marked, and composition comes to it when it
folds the clamp applied to white. -/
theorem compositions_break_rule :
    ¬∀ (pool : Pool) (f g : Node) (id : NodeId), Manufactured pool → f ∈ pool.trees →
      g ∈ pool.trees → f.optimizations.constantOutput →
      g.optimizations.constantOutput ∧ g.ignoresInput →
      ∃ c last, (compose (some f) (some g)).run id =
        .ok (some (leaf id (.color c) ⟨c.isOpaque, true⟩), last) := by
  intro h
  have hbreaks : (Description.clampedGlare.build.run ⟨0⟩).toOption.any (fun built =>
      built.1.any fun n => n.optimizations.constantOutput &&
        decide ((fun out => out.1.isSome) <$>
          (compose (some n) (some (leaf built.2 (.color .white) ⟨true, true⟩))).run ⟨0⟩ =
            .error (.violation .clampBounds))) := by
    decide +kernel
  obtain ⟨⟨out, last⟩, hrun, hbreaks⟩ := Except.exists_ok_of_any hbreaks
  obtain ⟨n, rfl, hbreaks⟩ := (Option.any_eq_true _ _).mp hbreaks
  obtain ⟨hmarked, hbreaks⟩ := Bool.and_eq_true_iff.mp hbreaks
  have hpool : Manufactured ⟨[leaf last (.color .white) ⟨true, true⟩, n], last.next⟩ :=
    @Manufactured.describe [n] _ _ (some _) (.color (.list .white))
      (.describe Description.clampedGlare .empty hrun) rfl
  obtain ⟨c, _, hcolor⟩ := h _ n (leaf last (.color .white) ⟨true, true⟩) ⟨0⟩ hpool (by simp)
    (by simp) hmarked ⟨rfl, rfl⟩
  rw [hcolor] at hbreaks
  exact absurd (of_decide_eq_true hbreaks) nofun

end PixelEffect.Pool
