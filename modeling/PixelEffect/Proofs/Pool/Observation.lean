import PixelEffect.Proofs.Key.Equality
import PixelEffect.Proofs.Pool.Manufactured
import PixelEffect.Proofs.Pool.Programs
import PixelEffect.Proofs.Shader.Program

namespace PixelEffect

namespace Shader.Outline

open Node

/-- Writing sees nothing of a tree but what structural equality looks at. -/
theorem write_bare (o : Outline) (n : Node) (data : UniformValues) :
    write o n.bare data = write o n data := by
  induction n generalizing o data with
  | mk nodeData slots ih =>
    have hwrite : ∀ outlines data,
        writeSlots outlines (bareSlots slots) data = writeSlots outlines slots data := by
      induction slots with
      | nil => exact fun _ _ => rfl
      | cons slot rest ihRest =>
        have ihRest := ihRest fun child hchild => ih child (List.mem_cons_of_mem _ hchild)
        intro outlines data
        cases slot with
        | none =>
          obtain _ | ⟨_ | o, outlines⟩ := outlines
          · rfl
          · exact ihRest outlines data
          · exact ihRest outlines data
        | some child =>
          obtain _ | ⟨_ | o, outlines⟩ := outlines
          · rfl
          · exact ihRest outlines data
          · simp only [bareSlots, writeSlots, ihRest, ih child List.mem_cons_self]
    have hpresence : ∀ name i outlines,
        checkPresence name i outlines (bareSlots slots) = checkPresence name i outlines slots := by
      clear hwrite ih
      induction slots with
      | nil => exact fun _ _ _ => rfl
      | cons slot rest ihRest =>
        intro name i outlines
        cases slot <;> cases outlines <;> simp [bareSlots, checkPresence, ihRest]
    obtain ⟨entry, outlines⟩ := o
    have hlength : (bareSlots slots).length = slots.length := by
      rw [bareSlots_eq_map, List.length_map]
    have hcheck : checkFits entry outlines.length (Node.mk nodeData slots).bare =
        checkFits entry outlines.length (Node.mk nodeData slots) := by
      simp only [checkFits, bare, Node.slots, hlength]
      rfl
    simp only [bare] at hcheck ⊢
    simp only [write, hcheck, Node.slots, hwrite, hpresence, name, kind, Node.data]

end Shader.Outline

namespace Node

/-- The kinds and slots of a tree decide its optimizations if they follow the rule of their
kinds. -/
theorem Deduced.content_eq_of_bare {a b : Node} (ha : a.Deduced) (hb : b.Deduced)
    (h : a.bare = b.bare) : a.content = b.content := by
  induction a generalizing b with
  | mk _ slots ih =>
    obtain ⟨hdeduced, hchildren⟩ := deduced_iff.mp ha
    obtain ⟨hdeduced', hchildren'⟩ := deduced_iff.mp hb
    obtain ⟨hkind, _, hslots⟩ := bare_eq_iff.mp h
    have hcontent := map_slots_of_bare (f := content) (g := content) hslots
      fun i child other hchild hother hbare =>
        ih child (List.mem_of_getElem? hchild) (hchildren child (List.mem_of_getElem? hchild))
          (hchildren' other (List.mem_of_getElem? hother)) hbare
    have hoptimizations := congrArg (List.map (Option.map optimizations)) hcontent
    simp only [List.map_map, Option.map_comp_map,
      funext (f := optimizations ∘ content) optimizations_content] at hoptimizations
    refine content_eq_iff.mpr ⟨hkind, ?_, hcontent⟩
    rw [hdeduced, hdeduced', hkind, hoptimizations]

/-- The content of a tree has its nodes in the places of the tree. -/
theorem at?_content (n : Node) (path : Path) :
    n.content.at? path = (n.at? path).map content := by
  induction path generalizing n with
  | nil => rfl
  | cons i path ih =>
    rw [at?, at?, child?, slots_content, join_getElem?_map, ← child?]
    cases n.child? i with
    | none => rfl
    | some child => exact ih child

/-- The kind of a parent decides how its children are sampled. -/
theorem Standard.edges_eq_of_bare {a b : Node} (ha : a.Standard) (hb : b.Standard)
    (h : a.bare = b.bare) (path : Path) : edges path a = edges path b := by
  induction path generalizing a b with
  | nil => rfl
  | cons i path ih =>
    have hchildren := child?_of_bare h i
    rw [edges, edges]
    cases ha' : a.child? i with
    | none =>
      rw [ha'] at hchildren
      rw [Option.map_eq_none_iff.mp hchildren.symm]
    | some child =>
      rw [ha'] at hchildren
      obtain ⟨other, hb', hbare⟩ := Option.map_eq_some_iff.mp hchildren.symm
      obtain ⟨haccepts, _, hstandard⟩ := standard_iff.mp ha
      obtain ⟨haccepts', _, hstandard'⟩ := standard_iff.mp hb
      have hmem := mem_slots_of_child? ha'
      have hmem' := mem_slots_of_child? hb'
      have hsampling : child.sampling = other.sampling := by
        rw [haccepts.2 _ (List.mem_map_of_mem hmem), haccepts'.2 _ (List.mem_map_of_mem hmem'),
          (bare_eq_iff.mp h).1]
      rw [hb']
      simp only [hsampling, ih (hstandard child hmem) (hstandard' other hmem') hbare.symm]

end Node

namespace Program

/-- Values are fed by kinds, which equal bare forms have in common. -/
theorem uniformValues_of_bare {a b : Node} (h : a.bare = b.bare)
    (hkey : ProgramKey.ofNode a = ProgramKey.ofNode b) (p : Program) :
    p.uniformValues a = p.uniformValues b := by
  have hname : a.name = b.name := congrArg Kind.name (Node.bare_eq_iff.mp h).1
  rw [uniformValues, uniformValues, hkey, hname, ← Shader.Outline.write_bare p.outline a, h,
    Shader.Outline.write_bare]

end Program

namespace Pool

open Node

/-- Equality is observational. However the public constructors, descriptions, copies and new colors
have brought about two trees: if the trees are structurally equal then corresponding nodes have the
same optimizations, both ignore the input or neither does, they make the same of every input color,
be it a color or a failure, and for all options they have the same program or fail to have one in
the same way. The program takes values from both trees, and the same ones. -/
theorem equality_is_observational {pool pool' : Pool} (hpool : Manufactured pool)
    (hpool' : Manufactured pool') {a b : Node} (ha : a ∈ pool.trees) (hb : b ∈ pool'.trees)
    (h : a.alike b) :
    (∀ path, (a.at? path).map optimizations = (b.at? path).map optimizations) ∧
    a.ignoresInput = b.ignoresInput ∧
    (∀ input : Color Single, a.shade input = b.shade input) ∧
    ∀ options, Program.ofNode a options = Program.ofNode b options ∧
      ∀ p, Program.ofNode a options = .ok p →
        ∃ data, p.uniformValues a = .ok data ∧ p.uniformValues b = .ok data := by
  have hbare := alike_iff.mp h
  have hstandard := hpool.standard ha
  have hstandard' := hpool'.standard hb
  have hcontent := hstandard.deduced.content_eq_of_bare hstandard'.deduced hbare
  have hgeneric := generic_eq_of_bare hbare (hstandard.edges_eq_of_bare hstandard' hbare)
  have hkey := (key_eq_iff_edges_eq h).mpr (hstandard.edges_eq_of_bare hstandard' hbare)
  refine ⟨fun path => ?_, ?_, fun input => ?_, fun options => ⟨?_, fun p hp => ?_⟩⟩
  · have hnodes := congrArg (fun n : Node => (n.at? path).map optimizations) hcontent
    simpa only [at?_content, Option.map_map,
      funext (f := optimizations ∘ content) optimizations_content] using hnodes
  · rw [← ignoresInput_content, hcontent, ignoresInput_content]
  · rw [← shade_content, hcontent, shade_content]
  · exact (hpool.grown ha).program_eq (hpool'.grown hb) hgeneric options
  · obtain ⟨_, _, rfl⟩ := Program.ofNode_eq_ok_iff.mp hp
    have hdata := Program.uniformValues_of_generic_eq (a := a) (b := a) rfl options
    exact ⟨_, hdata, (Program.uniformValues_of_bare hbare hkey _).symm.trans hdata⟩

/-- A color without alpha, clamped. -/
def clampedGlow (id childId : NodeId) (c : Color Single) : Node :=
  unary id (.clamp true) ⟨false, true⟩ (some (leaf childId (.color c) ⟨false, true⟩)) .passThrough

/-- A tree from a description, and one that got its color later and was copied then. -/
theorem manufactured_described : Manufactured ⟨[clampedGlow ⟨1⟩ ⟨0⟩ .transparent], ⟨2⟩⟩ :=
  @Manufactured.describe [] _ _ (some _) (.clamp (some (.color (.list .transparent))) true)
    .empty rfl

theorem manufactured_copied :
    Manufactured ⟨[clampedGlow ⟨2⟩ ⟨3⟩ .transparent, clampedGlow ⟨1⟩ ⟨0⟩ .transparent], ⟨4⟩⟩ := by
  have hcolor : Step .call empty ⟨[leaf ⟨0⟩ (.color ⟨1, 0, 0, 0⟩) ⟨false, true⟩], ⟨1⟩⟩ :=
    @Step.call [] [] _ _ (.source (.color ⟨1, 0, 0, 0⟩)) (some _) (.refl _) rfl
  have hclamp : Step .call ⟨[leaf ⟨0⟩ (.color ⟨1, 0, 0, 0⟩) ⟨false, true⟩], ⟨1⟩⟩
      ⟨[clampedGlow ⟨1⟩ ⟨0⟩ ⟨1, 0, 0, 0⟩], ⟨2⟩⟩ :=
    @Step.call _ [] _ _ (.modify (.clamp true) (some _)) (some _) (.refl _) rfl
  have hrecolor : Step .recolor ⟨[clampedGlow ⟨1⟩ ⟨0⟩ ⟨1, 0, 0, 0⟩], ⟨2⟩⟩
      ⟨[clampedGlow ⟨1⟩ ⟨0⟩ .transparent], ⟨2⟩⟩ :=
    @Step.recolor _ [] _ _ _ _ .transparent [0] (.refl _) rfl rfl
  have hclone : Step .clone ⟨[clampedGlow ⟨1⟩ ⟨0⟩ .transparent], ⟨2⟩⟩
      ⟨[clampedGlow ⟨2⟩ ⟨3⟩ .transparent, clampedGlow ⟨1⟩ ⟨0⟩ .transparent], ⟨4⟩⟩ :=
    .clone [] (List.mem_singleton.mpr rfl) rfl rfl
  exact .step (.step (.step (.step .empty (by decide) hcolor) (by decide) hclamp) (by decide)
    hrecolor) (by decide) hclone

/-- Both trees make the same of every input and are drawn by one program with one set of values. -/
theorem equality_is_observational_copied :
    let described := clampedGlow ⟨1⟩ ⟨0⟩ .transparent
    let copied := clampedGlow ⟨2⟩ ⟨3⟩ .transparent
    described.alike copied ∧ (∀ input : Color Single, described.shade input = copied.shade input) ∧
      ∃ p data, Program.ofNode described .standard = .ok p ∧
        Program.ofNode copied .standard = .ok p ∧
        p.uniformValues described = .ok data ∧ p.uniformValues copied = .ok data := by
  intro described copied
  have halike : described.alike copied := by decide
  obtain ⟨_, _, hshade, hprograms⟩ := equality_is_observational manufactured_described
    manufactured_copied (List.mem_singleton.mpr rfl) List.mem_cons_self halike
  obtain ⟨hprogram, hvalues⟩ := hprograms .standard
  have hp : Program.ofNode described .standard = .ok (Program.laidOut described .standard) :=
    Program.ofNode_eq_ok_iff.mpr ⟨rfl, by decide, rfl⟩
  obtain ⟨data, hdata, hdata'⟩ := hvalues _ hp
  exact ⟨halike, hshade, _, data, hp, hprogram.symm.trans hp, hdata, hdata'⟩

end Pool

end PixelEffect
