import PixelEffect.Proofs.Pool.ConstantOutput
import PixelEffect.Proofs.Shader.Closed

namespace PixelEffect

namespace Pool

open Node

/-- However a tree was put together, and for any part of it and all options, there is a program
unless the options are not acceptable or a destination color is read without leave. The program is
closed: calls inside of functions go to functions that are defined strictly earlier, the entry point
calls the function of the root, the uniforms that are read are those that are declared, and so is
what the text names of the values that the renderer provides. If no node was created or attached by
hand, and there are not more functions than numbers, then every function but that of the root is
called exactly once. -/
theorem programs_closed {allowed : Operation → Prop} {pool : Pool}
    (hpool : Reachable allowed pool) {root n : Node} {path : Path} (hroot : root ∈ pool.trees)
    (hn : root.at? path = some n) (options : ProgramOptions) :
    (∀ e, Program.ofNode n options = .error e ↔
      options.validate = .error e ∨
        options.validate = .ok () ∧ n.Contains .destColor ∧
          options.allowDestinationRead = false ∧ e = .codegen .destinationReadsDisabled) ∧
    ∀ p, Program.ofNode n options = .ok p →
      p.source.Closed ∧ p.function? [] = some p.source.root ∧
        (Manufactured pool → n.size < 2 ^ 32 → p.source.CallsOnce) := by
  have hflagged := (hpool.preserves (preserved_grown allowed) root hroot).2.at? hn
  refine ⟨fun e => ?_, fun p hp => ?_⟩
  · rw [Program.ofNode_eq_error_iff, hflagged.readsDestination_iff]
  · obtain ⟨hvalid, _, rfl⟩ := Program.ofNode_eq_ok_iff.mp hp
    refine ⟨Program.closed_laidOut hvalid hflagged, function_laidOut 0 n,
      fun hmanufactured hsize => ?_⟩
    exact Program.callsOnce_laidOut ((hmanufactured.standard hroot).at? hn) hsize options

/-- White over the destination color, with leave to read it and without. -/
theorem programs_closed_whiteOverDestination :
    (∃ p, Program.ofNode whiteOverDestination .standard = .ok p ∧ p.source.Closed ∧
      p.function? [] = some p.source.root ∧ p.source.CallsOnce) ∧
    Program.ofNode whiteOverDestination
        { ProgramOptions.standard with allowDestinationRead := false } =
      .error (.codegen .destinationReadsDisabled) := by
  have hclosed := @programs_closed _ _ manufactured_whiteOverDestination.reachable
    whiteOverDestination whiteOverDestination [] (List.mem_singleton.mpr rfl) rfl
  have hcontains : whiteOverDestination.Contains .destColor := ⟨[1], _, rfl, rfl⟩
  constructor
  · obtain ⟨herror, hok⟩ := hclosed .standard
    have hvalid : ProgramOptions.standard.validate = .ok () := rfl
    cases hp : Program.ofNode whiteOverDestination .standard with
    | error e =>
      rcases (herror e).mp hp with hinvalid | ⟨_, _, hforbidden, _⟩
      · rw [hvalid] at hinvalid
        cases hinvalid
      · cases hforbidden
    | ok p =>
      obtain ⟨hall, hroot, honce⟩ := hok p hp
      exact ⟨p, rfl, hall, hroot, honce manufactured_whiteOverDestination (by decide)⟩
  · exact ((hclosed _).1 _).mpr (.inr ⟨rfl, hcontains, rfl, rfl⟩)

end Pool

end PixelEffect
