import PixelEffect.Proofs.Effect.Building
import PixelEffect.Proofs.Node.Copy
import PixelEffect.Proofs.Node.Links
import PixelEffect.Proofs.Pool.Session

namespace PixelEffect

open Node Effect Build

namespace Pool

/-- Whatever an operation leaves in a pool is not attached to anything. -/
theorem preserved_root (allowed : Operation → Prop) :
    Preserved allowed (fun n => n.place = .root) where
  create := fun _ => place_leaf
  call := fun _ _ _ _ _ hoperands hrun => (Crafted.of_run hrun).grows grows_root hoperands _ rfl
  attach := by
    intro _ root n m path child sampling hroot _ hn hm
    obtain ⟨_, rfl⟩ := withChild_eq_ok_iff.mp hm
    exact (place_replaceAt hn (place_attached n child sampling)).trans hroot
  clone := fun _ _ _ _ _ _ _ _ _ hrun => grows_root.run_clone hrun
  recolor := by
    intro _ root n m path c hroot hn hm
    exact (place_replaceAt hn (place_recolor hm)).trans hroot

/-- What such a session owns can be given to every constructor. -/
theorem Session.available {pool : Pool} (h : Session (· ∈ Operation.manufacturing) pool)
    {n : Option Node} (hn : ∀ c, n = some c → c ∈ pool.trees) : Available n where
  fresh := fun c hc => isFresh_of_place (h.preserves (preserved_root _) (by decide) c (hn c hc))
  standard := fun c hc => h.preserves preserved_standard (by decide) c (hn c hc)

end Pool

/-- Requests that leave it to the public constructors how trees are put together break no rule but
that of the bounds of a clamp. -/
theorem Request.violation_eq {r : Request} (hr : r.operation ∈ Operation.manufacturing)
    (hoperands : ∀ n, n ∈ r.operands → Available (some n)) {id : NodeId} {v : Violation}
    (h : r.run.run id = .error (.violation v)) : v = .clampBounds := by
  have hpure : ∀ {α : Type} (a : α) (id : NodeId) (e : Failure),
      (pure a : Build α).run id ≠ .error e := fun a _ _ => (Succeeds.pure a).ne_error
  cases r with
  | create kind optimizations =>
    exact absurd hr (show Operation.create ∉ Operation.manufacturing by decide)
  | attach root path child sampling =>
    exact absurd hr (show Operation.attach ∉ Operation.manufacturing by decide)
  | call c =>
    obtain h | ⟨_, _, _, h⟩ := run_bind_eq_error.mp h
    · have havailable : ∀ n, n ∈ c.operands → Available n := by
        rintro (_ | n) hn
        · exact Description.available_none
        · exact hoperands n (List.mem_filterMap.mpr ⟨_, hn, rfl⟩)
      exact Failure.violation.inj ((Call.run_eq_error_iff havailable).mp h).1
    · exact absurd h (hpure _ _ _)
  | describe d =>
    obtain h | ⟨_, _, _, h⟩ := run_bind_eq_error.mp h
    · exact (Description.build_eq_violation_iff.mp h).1
    · exact absurd h (hpure _ _ _)
  | clone root path =>
    simp only [Request.run] at h
    split at h
    · exact absurd h (hpure _ _ _)
    · obtain h | ⟨_, _, _, h⟩ := run_bind_eq_error.mp h
      · exact absurd h (succeeds_clone _).ne_error
      · exact absurd h (hpure _ _ _)
  | recolor root path c => exact absurd h (hpure _ _ _)

namespace Pool

/-- As long as trees come from public constructors, descriptions and copies, attaching is never
tried where it is not allowed. Whatever a request gives back is a root that carries nothing from
above. -/
theorem registration_contract {pool : Pool} (hpool : Session (· ∈ Operation.manufacturing) pool)
    {r : Request} (hr : r.operation ∈ Operation.manufacturing) {rest : List Node}
    (htrees : pool.trees.Perm (r.operands ++ rest)) :
    r.run.run pool.next ≠ .error (.violation .childAttached) ∧
      r.run.run pool.next ≠ .error (.violation .parentAttached) ∧
      ∀ out last, r.run.run pool.next = .ok (out, last) → ∀ n, n ∈ out →
        n.parent = none ∧ n.sampling = .unsampled ∧ n.flags.explicitCoords = false ∧
          n.flags.netPerspective = false := by
  have hoperands : ∀ n, n ∈ r.operands → Available (some n) := by
    intro n hn
    refine hpool.available ?_
    rintro _ ⟨⟩
    exact htrees.mem_iff.mpr (List.mem_append_left _ hn)
  refine ⟨fun h => ?_, fun h => ?_, fun out last hrun n hn => ?_⟩
  · cases Request.violation_eq hr hoperands h
  · cases Request.violation_eq hr hoperands h
  · have hkept : pool.trees.Perm (r.operands ++ rest ++ []) := by rwa [List.append_nil]
    have hafter : Session (· ∈ Operation.manufacturing) ⟨out ++ rest, last⟩ :=
      .returned hpool hr hkept hrun
    have hplace := hafter.preserves (preserved_root _) (by decide) n (List.mem_append_left _ hn)
    obtain ⟨hparent, hsampling, hexplicit, hperspective⟩ := Place.mk.inj hplace
    exact ⟨hparent, hsampling, hexplicit, hperspective⟩

/-- Sampling a gradient at the position of the fragment attaches it. What comes back is a root, and
a permutation that moves nothing gives it back as it is, to be attached in turn. -/
theorem registration_contract_sampledGradient :
    ∃ n child last,
      (Request.call (.modify .deviceSpace (some gradient))).run.run ⟨1⟩ = .ok ([n], last) ∧
      n.child? 0 = some child ∧ child.parent = some n.id ∧ child.sampling = .explicit ∧
      n.parent = none ∧ n.sampling = .unsampled ∧
      (Request.call (.modify (.swizzle .identity) (some n))).run.run last = .ok ([n], last) ∧
      (Request.call (.modify (.swizzle .identity) (some n))).run.run last ≠
        .error (.violation .childAttached) := by
  have hgradient : Session (· ∈ Operation.manufacturing) ⟨[gradient], ⟨1⟩⟩ :=
    session_gradient (by decide)
  have hsampled : Session (· ∈ Operation.manufacturing) ⟨[sampledGradient], ⟨2⟩⟩ :=
    @Session.returned _ _ (.call (.modify .deviceSpace (some gradient)))
      [] [] [sampledGradient] ⟨2⟩ hgradient (by decide) (.refl _) rfl
  obtain ⟨_, _, hroots⟩ := @registration_contract _ hgradient
    (.call (.modify .deviceSpace (some gradient))) (by decide) [] (.refl _)
  obtain ⟨hparent, hsampling, _⟩ := hroots _ _ rfl sampledGradient List.mem_cons_self
  obtain ⟨hchild, _⟩ := @registration_contract _ hsampled
    (.call (.modify (.swizzle .identity) (some sampledGradient))) (by decide) [] (.refl _)
  exact ⟨sampledGradient, _, _, rfl, rfl, rfl, rfl, hparent, hsampling, rfl, hchild⟩

end Pool

end PixelEffect
