import PixelEffect.Proofs.Pool.Manufactured
import PixelEffect.Proofs.Shader.Bodies
import PixelEffect.Proofs.Shader.Feeding
import PixelEffect.Proofs.Shader.Legible
import PixelEffect.Proofs.Shader.Listing

namespace PixelEffect

open Shader

namespace Shader.Globals

variable {globals : Globals} {name : FunctionName}

/-- Functions with other names do not matter to a call. -/
theorem call_append {later rest : List GeneratedFunction} (h : ∀ f, f ∈ later → f.name ≠ name) :
    globals.call (later ++ rest) name = globals.call rest name := by
  induction later with
  | nil => rfl
  | cons f later ih =>
    funext input coords
    rw [List.cons_append, call, if_neg (h f List.mem_cons_self),
      ih fun f hf => h f (List.mem_cons_of_mem _ hf)]

/-- The latest function runs with the earlier ones for its calls. -/
theorem call_cons {f : GeneratedFunction} {earlier : List GeneratedFunction}
    {input : Color ℚ} {coords : ℚ × ℚ} :
    globals.call (f :: earlier) f.name input coords =
      Context.run { globals with call := globals.call earlier, input, coords } f.body := by
  rw [call, if_pos rfl]

/-- The variables that the function of a site sees have the values that they should have. -/
structure Serves (globals : Globals) (s : Site) : Prop where
  feeds : globals.Feeds s.function s.kind
  fragCoord : s.kind.usesFragCoord → globals.fragCoord = some globals.renderer.position

end Shader.Globals

namespace Node

/-- The functions of some sites, the last one first. -/
def latestFirst (sites : List Site) : List GeneratedFunction := (sites.map Site.generated).reverse

/-- Sites further behind are generated later. -/
theorem latestFirst_append (xs ys : List Site) :
    latestFirst (xs ++ ys) = latestFirst ys ++ latestFirst xs := by
  simp [latestFirst]

/-- The function of a tree computes what the tree evaluates to, wherever in a program the
functions of the tree stand. They have names of their own, and later functions do not have that
of the root. -/
def Computed (globals : Globals) (n : Node) : Prop :=
  ∀ (first : UInt32) (later earlier : List GeneratedFunction),
    ((n.sites first).map Site.function).Nodup → (∀ s, s ∈ n.sites first → globals.Serves s) →
    (∀ f, f ∈ later → f.name ≠ n.functionFrom first) →
    Calls.Computes (globals.call (later ++ (latestFirst (n.sites first) ++ earlier)))
      (n.functionFrom first) n.shade

section

variable {globals : Globals}

/-- With the children of some slots their functions are computed all together. -/
theorem computesAll_functionsOfSlots {slots : List (Option Node)}
    (hcomputed : ∀ child, some child ∈ slots → child.Computed globals) {first : UInt32}
    (later earlier : List GeneratedFunction)
    (hnodup : ((sitesOfSlots first slots).map Site.function).Nodup)
    (hserved : ∀ s, s ∈ sitesOfSlots first slots → globals.Serves s)
    (hlater : ∀ f, f ∈ later → some f.name ∉ functionsOfSlots first slots) :
    Calls.ComputesAll (globals.call (later ++ (latestFirst (sitesOfSlots first slots) ++ earlier)))
      (functionsOfSlots first slots) (shades slots) := by
  induction slots generalizing first later earlier with
  | nil => exact fun _ => .none
  | cons slot rest ih =>
    have ih := @ih fun child hchild => hcomputed child (List.mem_cons_of_mem _ hchild)
    cases slot with
    | none =>
      intro i
      cases i with
      | zero => exact .none
      | succ i =>
        exact ih later earlier hnodup hserved
          (fun f hf hmem => hlater f hf (List.mem_cons_of_mem _ hmem)) i
    | some child =>
      rw [sitesOfSlots, List.map_append] at hnodup
      obtain ⟨hchild, hrest, hapart⟩ := List.nodup_append.mp hnodup
      rw [sitesOfSlots, latestFirst_append, List.append_assoc]
      intro i
      cases i with
      | zero =>
        -- The functions of the slots behind this one have other names than that of the child.
        refine .some ?_
        rw [← List.append_assoc]
        refine hcomputed child List.mem_cons_self first _ earlier hchild
          (fun s hs => hserved s (List.mem_append_left _ hs)) fun f hf hname => ?_
        rcases List.mem_append.mp hf with hf | hf
        · exact hlater f hf (hname ▸ List.mem_cons_self)
        · simp only [latestFirst, List.mem_reverse, List.mem_map] at hf
          obtain ⟨s, hs, rfl⟩ := hf
          exact hapart _ (List.mem_map_of_mem (site_mem_sites first child)) _
            (List.mem_map_of_mem hs) hname.symm
      | succ i =>
        exact ih later _ hrest (fun s hs => hserved s (List.mem_append_right _ hs))
          (fun f hf hmem => hlater f hf (List.mem_cons_of_mem _ hmem)) i

/-- Trees that are marked for constant output are computed. -/
theorem Standard.computed {n : Node} (hstandard : n.Standard)
    (hconstant : n.optimizations.constantOutput) : n.Computed globals := by
  induction n with
  | mk data slots ih =>
    obtain ⟨hdestination, hgradient, hoperands⟩ := hstandard.constantOutput_iff.mp hconstant
    have hcomputed : ∀ child, some child ∈ slots → child.Computed globals := fun child hchild =>
      ih child hchild ((standard_iff.mp hstandard).2.2 child hchild) (hoperands child hchild)
    intro first later earlier hnodup hserved hlater input
    have hbelow : ((sitesOfSlots first slots).map Site.function).Nodup := by
      rw [sites_eq, List.map_append] at hnodup
      exact (List.nodup_append.mp hnodup).1
    have hall : Calls.ComputesAll (globals.call (latestFirst (sitesOfSlots first slots) ++ earlier))
        (functionsOfSlots first slots) (shades slots) :=
      computesAll_functionsOfSlots hcomputed [] earlier hbelow
        (fun s hs => hserved s (by rw [sites_eq]; exact List.mem_append_left _ hs))
        fun _ hf => (by cases hf)
    obtain ⟨hfeeds, hfragCoord⟩ := hserved _ (site_mem_sites first (.mk data slots))
    have hshade : (Node.mk data slots).shade input =
        data.kind.output Kind.unknownElsewhere (shades slots) input := by
      rw [shade]
      exact if_pos hconstant
    have hbody : ∀ coords, ∃ out,
        data.kind.output Kind.unknownElsewhere (shades slots) input = .ok out ∧
        globals.call (later ++ (latestFirst (sites first (.mk data slots)) ++ earlier))
          (functionFrom first (.mk data slots)) input coords = some out := by
      intro coords
      -- The function of the root stands right behind those of its children.
      rw [Globals.call_append hlater, sites_eq, latestFirst_append, List.append_assoc]
      show ∃ out, _ ∧ globals.call ((site first (.mk data slots)).generated :: _)
        (site first (.mk data slots)).generated.name input coords = some out
      rw [Globals.call_cons]
      exact @run_body { globals with call := _, input, coords } _ _ _ _ hdestination hgradient hall
        hfeeds hfragCoord
    obtain ⟨out, hout, _⟩ := hbody (0, 0)
    refine ⟨out, hshade.trans hout, fun coords => ?_⟩
    obtain ⟨out', hout', hcall⟩ := hbody coords
    rw [hout] at hout'
    cases hout'
    exact hcall

end

/-- A tree that can be evaluated ahead does not read the destination color. -/
theorem Standard.not_contains_destColor {n : Node} (hstandard : n.Standard)
    (hconstant : n.optimizations.constantOutput) : ¬n.Contains .destColor := by
  induction n with
  | mk data slots ih =>
    obtain ⟨hdestination, _, hoperands⟩ := hstandard.constantOutput_iff.mp hconstant
    rw [contains_iff, not_or]
    refine ⟨hdestination, ?_⟩
    rintro ⟨child, hchild, hcontains⟩
    exact ih child hchild ((standard_iff.mp hstandard).2.2 child hchild) (hoperands child hchild)
      hcontains

end Node

namespace Program

/-- With the values of its own tree a program serves all its functions. -/
theorem serves_of_mem_sites {n : Node} {explicit perspective : Bool}
    (hflagged : n.Flagged explicit perspective) (hsize : n.size < 2 ^ 32) (options : ProgramOptions)
    (renderer : Renderer)
    {s : Site} (hs : s ∈ n.sites 0) :
    ((laidOut n options).source.globals n.uniformValues renderer).Serves s where
  feeds := by
    intro role values hvalues
    have hdeclared : (⟨s.function, role⟩ : UniformName) ∈ (laidOut n options).source.uniforms :=
      List.mem_flatMap.mpr
        ⟨s, hs, Site.mem_uniforms.mpr ⟨rfl, Kind.mem_uniforms_of_value? hvalues⟩⟩
    have hvalue : n.uniformValues.get? (UniformName.mk s.function role).text = some values :=
      get?_uniformValues hsize hs rfl hvalues
    rw [ShaderSource.globals]
    simp only [if_pos hdeclared, hvalue, Option.bind_some]
    rfl
  fragCoord := by
    intro huses
    obtain ⟨path, m, k, hm, _, rfl⟩ := Node.exists_at?_of_mem_sites hs
    have hcontains : n.Contains .deviceSpace := ⟨path, m, hm, Kind.usesFragCoord_iff.mp huses⟩
    exact if_pos (hflagged.fragCoord_iff.mpr hcontains)

/-- With names that are all different and no color that is not finite, the text of a program is read
as what it was made of. -/
theorem ofText?_laidOut {n : Node} {options : ProgramOptions}
    (hvalid : options.validate = .ok ()) (hsize : n.size < 2 ^ 32)
    (hfinite : ∀ path m c, n.at? path = some m → m.kind = .overrideInput c true → c.isFinite) :
    Listing.ofText? (laidOut n options).text = some (laidOut n options).source.listing := by
  have hnodup := n.nodup_functions_sites 0 hsize
  refine ShaderSource.ofText?_text hvalid (fun f hf st hst => ?_) ?_
    (Site.nodup_uniforms hnodup)
  · obtain ⟨s, hs, rfl⟩ := List.mem_map.mp hf
    obtain ⟨path, m, k, hm, _, rfl⟩ := Node.exists_at?_of_mem_sites hs
    refine legible_body (fun x hx => ?_) _ _ st hst
    cases hkind : m.kind with
    | overrideInput c specialized =>
      simp only [Node.site, hkind] at hx
      cases specialized with
      | false => cases hx
      | true => exact List.all_eq_true.mp (hfinite path m c hm hkind) x hx
    | _ =>
      simp only [Node.site, hkind] at hx
      cases hx
  · show (((n.sites 0).map Site.generated).map GeneratedFunction.name).Nodup
    rw [List.map_map]
    exact hnodup

end Program

namespace Pool

open Node

/-- Evaluating a tree and running the function of its root agree, where the functions have names
that are all different. -/
theorem run_computes_shade {pool : Pool} (hpool : Manufactured pool) {root n : Node}
    {path : Path} (hroot : root ∈ pool.trees) (hn : root.at? path = some n)
    (hconstant : n.optimizations.constantOutput) (hsize : n.size < 2 ^ 32)
    (options : ProgramOptions) (renderer : Renderer) (input : Color ℚ) :
    ∃ c, n.shade input = .ok c ∧ ∀ coords,
      (Program.laidOut n options).source.run n.uniformValues renderer input coords = some c := by
  have hflagged := (hpool.grown hroot).2.at? hn
  obtain ⟨c, hc, hcall⟩ := ((hpool.standard hroot).at? hn).computed hconstant 0 [] []
    (n.nodup_functions_sites 0 hsize)
    (fun s hs => Program.serves_of_mem_sites hflagged hsize options renderer hs)
    (fun _ hf => by cases hf) input
  refine ⟨c, hc, fun coords => ?_⟩
  have hrun := hcall coords
  rw [List.nil_append, List.append_nil] at hrun
  exact hrun

/-- Evaluating and running agree. Let a tree that the public constructors, descriptions, copies and
new colors have brought about, or any part of it, be marked for constant output, and let the colors
that are part of the text be finite. For all options that are accepted it has a program, and the
program takes its values. If there are not more functions than numbers, the text of the program has
a reading, and what was read, run on these values from the entry point on, yields for every input
color, at every coordinate and for every renderer, the color that the tree evaluates to, in exact
arithmetic. Other parameters may be any floats, since both sides read the same number for one that
is not finite. -/
theorem program_computes_shade {pool : Pool} (hpool : Manufactured pool) {root n : Node}
    {path : Path} (hroot : root ∈ pool.trees) (hn : root.at? path = some n)
    (hconstant : n.optimizations.constantOutput)
    (hfinite : ∀ path m c, n.at? path = some m → m.kind = .overrideInput c true → c.isFinite)
    {options : ProgramOptions} (hvalid : options.validate = .ok ()) :
    ∃ p data, Program.ofNode n options = .ok p ∧ p.uniformValues n = .ok data ∧
      (n.size < 2 ^ 32 → ∃ listing, Listing.ofText? p.text = some listing ∧
        ∀ (renderer : Renderer) (input : Color ℚ) (coords : ℚ × ℚ), ∃ c,
          n.shade input = .ok c ∧
            listing.run options.entryPoint data renderer input coords = some c) := by
  have hstandard : n.Standard := (hpool.standard hroot).at? hn
  have hflagged := (hpool.grown hroot).2.at? hn
  have hdestination : n.flags.readsDestination → options.allowDestinationRead := fun hreads =>
    absurd (hflagged.readsDestination_iff.mp hreads) (hstandard.not_contains_destColor hconstant)
  refine ⟨_, _, Program.ofNode_eq_ok_iff.mpr ⟨hvalid, hdestination, rfl⟩,
    Program.uniformValues_of_generic_eq rfl options, fun hsize =>
      ⟨_, Program.ofText?_laidOut hvalid hsize hfinite, fun renderer input coords => ?_⟩⟩
  obtain ⟨c, hc, hrun⟩ :=
    run_computes_shade hpool hroot hn hconstant hsize options renderer input
  exact ⟨c, hc, ShaderSource.run_listing.trans (hrun coords)⟩

/-- The matrix that keeps every color, with all the steps around it. -/
def keepingMatrix : ColorMatrix :=
  ⟨⟨1, 0, 0, 0, 0⟩, ⟨0, 1, 0, 0, 0⟩, ⟨0, 0, 1, 0, 0⟩, ⟨0, 0, 0, 1, 0⟩, true, true, true⟩

/-- Red, written into the program, through the matrix that keeps it. -/
def keptRed : Node :=
  unary ⟨1⟩ (.overrideInput ⟨1, 0, 0, 1⟩ true) ⟨true, true⟩
    (some (unary ⟨0⟩ (.colorMatrix keepingMatrix) ⟨false, true⟩ none .passThrough)) .passThrough

theorem manufactured_keptRed : Manufactured ⟨[keptRed], ⟨2⟩⟩ :=
  @Manufactured.describe [] _ _ (some _)
    (.overrideInput
      (some (.colorMatrix none (keepingMatrix.rows.flatMap ColorRow.toList) true true true))
      (.list ⟨1, 0, 0, 1⟩) false) .empty rfl

theorem shade_keptRed (input : Color ℚ) : keptRed.shade input = .ok ⟨1, 0, 0, 1⟩ := by
  have hkept : keepingMatrix.apply (⟨1, 0, 0, 1⟩ : Color ℚ) = ⟨1, 0, 0, 1⟩ := by
    simp [keepingMatrix, ColorMatrix.apply, Color.unpremul, Scalar.eq_rat,
      ColorMatrix.transform, ColorRow.apply, Scalar.ofSingle_rat, Ieee.toRat_zero, Ieee.toRat_one,
      Color.saturate, Color.map, Scalar.unit_rat]
  have hred : Color.ofSingle (⟨1, 0, 0, 1⟩ : Color Single) = (⟨1, 0, 0, 1⟩ : Color ℚ) := by
    simp [Color.ofSingle, Color.map, Scalar.ofSingle_rat, Ieee.toRat_zero, Ieee.toRat_one]
  have hshade : keptRed.shade input = .ok (keepingMatrix.apply (.ofSingle ⟨1, 0, 0, 1⟩)) := rfl
  rw [hshade, hred, hkept]

/-- Red it is at every coordinate, whatever comes in. -/
theorem program_computes_shade_keptRed :
    ∃ p data listing, Program.ofNode keptRed .standard = .ok p ∧
      p.uniformValues keptRed = .ok data ∧ Listing.ofText? p.text = some listing ∧
      ∀ (renderer : Renderer) (input : Color ℚ) (coords : ℚ × ℚ),
        listing.run "main_color" data renderer input coords = some ⟨1, 0, 0, 1⟩ := by
  have hfinite : ∀ path m c, keptRed.at? path = some m → m.kind = .overrideInput c true →
      c.isFinite := by
    intro path m c hm hkind
    match path, hm with
    | [], hm =>
      cases hm
      cases hkind
      rfl
    | [0], hm =>
      cases hm
      cases hkind
    | 0 :: i :: path, hm => cases i <;> cases hm
    | (i + 1) :: path, hm => cases hm
  obtain ⟨p, data, hp, hdata, hread⟩ := @program_computes_shade _ manufactured_keptRed keptRed
    keptRed [] (List.mem_singleton.mpr rfl) rfl rfl hfinite .standard rfl
  obtain ⟨listing, hlisting, hrun⟩ := hread (by decide)
  refine ⟨p, data, listing, hp, hdata, hlisting, fun renderer input coords => ?_⟩
  obtain ⟨c, hc, hcolor⟩ := hrun renderer input coords
  cases hc.symm.trans (shade_keptRed input)
  exact hcolor

end Pool

end PixelEffect
