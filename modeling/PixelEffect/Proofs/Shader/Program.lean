import PixelEffect.Proofs.Shader.Values

namespace PixelEffect

open Shader

namespace Node

/-- The values of all uniforms of a tree. -/
def uniformValues (n : Node) : UniformValues :=
  UniformValues.empty.setAll ((n.sites 0).flatMap Site.assignments)

end Node

namespace Program

/-- The program of a tree, if there is one. -/
def laidOut (n : Node) (options : ProgramOptions) : Program where
  source :=
    { options
      uniforms := (n.sites 0).flatMap Site.uniforms
      functions := (n.sites 0).map Site.generated
      root := n.functionFrom 0
      fragCoord := n.capabilities.fragCoord
      destination := n.flags.readsDestination }
  key := .ofNode n
  outline := n.laidOut 0

/-- A new builder emits a tree from number zero on. -/
theorem emit_ofNode (n : Node) :
    (Outline.ofNode n).emit n .empty =
      ⟨n.laidOut 0, Builder.empty.extend (n.sites 0), .ok (n.functionFrom 0)⟩ :=
  Outline.emit_of_fits (Outline.fits_ofNode n) .empty

/-- With valid options there is one reason not to generate a program. -/
theorem ofNode_of_valid {options : ProgramOptions} (h : options.validate = .ok ()) (n : Node) :
    Program.ofNode n options =
      if n.flags.readsDestination && !options.allowDestinationRead then
        .error (.codegen .destinationReadsDisabled)
      else .ok (laidOut n options) := by
  rw [Program.ofNode, h, emit_ofNode]
  cases n.flags.readsDestination && !options.allowDestinationRead <;> rfl

/-- A tree has a program unless the options are not acceptable or the destination is read without
leave. -/
theorem ofNode_eq_ok_iff {n : Node} {options : ProgramOptions} {p : Program} :
    Program.ofNode n options = .ok p ↔
      options.validate = .ok () ∧ (n.flags.readsDestination → options.allowDestinationRead) ∧
        p = laidOut n options := by
  cases hvalid : options.validate with
  | error e =>
    rw [Program.ofNode, hvalid]
    exact ⟨fun h => (by cases h), fun h => (by cases h.1)⟩
  | ok =>
    rw [ofNode_of_valid hvalid]
    cases n.flags.readsDestination <;> cases options.allowDestinationRead <;> simp [eq_comm]

/-- Generating a program fails for invalid options and for a destination color that may not be
read. -/
theorem ofNode_eq_error_iff {n : Node} {options : ProgramOptions} {e : Error} :
    Program.ofNode n options = .error e ↔
      options.validate = .error e ∨
        options.validate = .ok () ∧ n.flags.readsDestination ∧
          options.allowDestinationRead = false ∧ e = .codegen .destinationReadsDisabled := by
  cases hvalid : options.validate with
  | error e' =>
    have hfailed : Program.ofNode n options = .error e' := by
      rw [Program.ofNode, hvalid]
      rfl
    simp [hfailed]
  | ok =>
    rw [ofNode_of_valid hvalid]
    cases n.flags.readsDestination <;> cases options.allowDestinationRead <;> simp [eq_comm]

end Program

namespace Node

/-- Trees with the same generic form have the same outline, functions and uniforms. -/
theorem laidOut_eq_of_generic_eq {a b : Node} (h : a.generic = b.generic) :
    a.laidOut 0 = b.laidOut 0 ∧
      (a.sites 0).map Site.generated = (b.sites 0).map Site.generated ∧
      (a.sites 0).flatMap Site.uniforms = (b.sites 0).flatMap Site.uniforms := by
  have hemit : (Outline.ofNode a).emit a .empty = (Outline.ofNode b).emit b .empty := by
    rw [← Outline.emit_generic, ← Outline.ofNode_generic, h, Outline.emit_generic,
      Outline.ofNode_generic]
  rw [Program.emit_ofNode, Program.emit_ofNode, Emission.mk.injEq] at hemit
  obtain ⟨houtline, hbuilder, _⟩ := hemit
  simp only [Builder.extend, Builder.empty, List.nil_append, Builder.mk.injEq] at hbuilder
  exact ⟨houtline, hbuilder.1, hbuilder.2.1⟩

theorem size_eq_of_generic_eq {a b : Node} (h : a.generic = b.generic) : a.size = b.size := by
  have hlength := congrArg List.length (laidOut_eq_of_generic_eq h).2.1
  rwa [List.length_map, List.length_map, length_sites, length_sites] at hlength

/-- Trees that one outline fits have equally many slots at corresponding nodes. -/
theorem CountsAgree.of_fits {a b : Node} {o : Outline} (ha : o.Fits a) (hb : o.Fits b) :
    a.CountsAgree b := by
  intro path n m hn hm _
  induction path generalizing a b o with
  | nil =>
    cases hn
    cases hm
    obtain ⟨entry, outlines⟩ := o
    rw [← (Outline.fits_iff.mp ha).2.length_eq, (Outline.fits_iff.mp hb).2.length_eq]
  | cons i path ih =>
    obtain ⟨child, hchild, hn⟩ := at?_cons_eq_some.mp hn
    obtain ⟨other, hother, hm⟩ := at?_cons_eq_some.mp hm
    obtain ⟨o, ho, hfits⟩ := ha.child hchild
    obtain ⟨o', ho', hfits'⟩ := hb.child hother
    rw [ho] at ho'
    cases ho'
    exact ih hfits hfits' hn hm

end Node

namespace Program

/-- A program accepts every tree with the generic form of its own. -/
theorem uniformValues_of_generic_eq {a b : Node} (h : b.generic = a.generic)
    (options : ProgramOptions) : (laidOut a options).uniformValues b = .ok b.uniformValues := by
  have hkey : ProgramKey.ofNode b = (laidOut a options).key := by
    rw [ProgramKey.ofNode, ← Node.keyWords_generic, h, Node.keyWords_generic]
    rfl
  have houtline : (laidOut a options).outline = b.laidOut 0 :=
    (Node.laidOut_eq_of_generic_eq h).1.symm
  rw [uniformValues, if_neg (not_not_intro hkey), houtline, Outline.write_laidOut]
  rfl

/-- A program accepts a tree exactly if the tree has the generic form of the program's own. Then the
uniforms get the values of the tree. -/
theorem uniformValues_eq_ok_iff {a b : Node} {options : ProgramOptions} {data : UniformValues} :
    (laidOut a options).uniformValues b = .ok data ↔
      b.generic = a.generic ∧ data = b.uniformValues := by
  constructor
  · intro h
    have hgeneric : b.generic = a.generic := by
      rw [uniformValues] at h
      split at h
      · cases h
      · rename_i hkey
        split at h
        · cases h
        · rename_i hwrite
          -- The outline has been compared with the tree, so the slots are equal in number.
          have hcounts : b.CountsAgree a :=
            .of_fits (Outline.fits_of_write hwrite) (Outline.fits_laidOut 0 a)
          have hwords : b.keyWords = a.keyWords :=
            ProgramKey.mk.inj (Decidable.not_not.mp hkey)
          exact (Node.generic_eq_of_words (s := []) (t := []) hcounts (by rw [hwords])).1
    rw [uniformValues_of_generic_eq hgeneric] at h
    exact ⟨hgeneric, (Except.ok.inj h).symm⟩
  · rintro ⟨hgeneric, rfl⟩
    exact uniformValues_of_generic_eq hgeneric options

end Program

end PixelEffect
