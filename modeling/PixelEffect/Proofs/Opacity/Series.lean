import PixelEffect.Proofs.Effect.Folding
import PixelEffect.Proofs.Opacity.Tree

namespace PixelEffect

namespace Node

/-- A nest of calls of the public constructors yields the tree. -/
def Built (n : Node) : Prop :=
  ∃ (r : Effect.Recipe) (id last : NodeId), r.build.run id = .ok (some n, last)

/-- Built trees have the flags that follow from their kinds. -/
theorem Built.deduced {n : Node} (h : n.Built) : n.Deduced := by
  obtain ⟨r, id, last, h⟩ := h
  exact (r.operable_of_buildWith Effect.crafted_of_compose h).deduced n rfl

/-- Evaluates trees one after another, the first one first. -/
def shadeSeries (series : List Node) : Shade Single := fun input =>
  series.foldlM (fun c n => n.shade c) input

/-- A tree that ignores its input yields at most one color for all inputs together. -/
theorem Deduced.shade_constant {n : Node} (hdeduced : n.Deduced)
    (hconstant : n.optimizations.constantOutput) (hignores : n.ignoresInput) :
    Shade.Constant (n.shade (α := Single)) := by
  -- Any scene will do: nothing in the tree looks at it.
  let scene : Scene Unit Single := ⟨fun _ _ => .transparent, (), fun _ place => place⟩
  rw [← hdeduced.paint_eq_shade hconstant scene ()]
  exact paint_constant hignores ()

end Node

namespace SeriesAnalysis

open Node Effect

/-- What an analysis says is true of the color that an evaluation has reached. -/
structure Accurate (analysis : SeriesAnalysis) (c : Color Single) : Prop where
  known : ∀ k, analysis.known = some k → k = c
  opaque_of : analysis.isOpaque → c.isOpaque

/-- Where the analysis relies on the flag of a tree, and on nothing else, the tree is evaluated
regularly. -/
def RegularSeries : SeriesAnalysis → List Node → Color Single → Prop
  | _, [], _ => True
  | analysis, n :: rest, c =>
    (analysis.isOpaque → folded? analysis.known n = .ok none → n.RegularBelow c) ∧
      ∀ next c', step analysis n = .ok next → n.shade c = .ok c' → RegularSeries next rest c'

theorem accurate_start {entering : EnteringColor} {input : Color Single}
    (h : entering.Admits input) : (start entering).Accurate input := by
  cases entering with
  | unknown => exact ⟨fun _ hk => (by cases hk), fun hopacity => (by cases hopacity)⟩
  | opaqueOnly =>
    refine ⟨fun _ hk => (by cases hk), fun _ => ?_⟩
    rw [Color.isOpaque_iff, (h : input.a = 1)]
    exact Ieee.isOne_one
  | constant c =>
    obtain rfl : input = c := h
    exact ⟨fun _ hk => (Option.some.inj hk).symm, id⟩

/-- One more tree. Either its output was folded, from the color that was reached, or the analysis
goes by its flag. -/
theorem Accurate.step {analysis next : SeriesAnalysis} {n : Node} {c c' : Color Single}
    (haccurate : analysis.Accurate c) (hdeduced : n.Deduced) (h : step analysis n = .ok next)
    (hregular : analysis.isOpaque → folded? analysis.known n = .ok none → n.RegularBelow c)
    (hc : n.shade c = .ok c') : next.Accurate c' := by
  obtain ⟨folded, hfolded, _, hknown, _, hopacity⟩ := step_eq_ok h
  cases folded with
  | none =>
    refine ⟨fun k hk => (by rw [hknown] at hk; cases hk), fun hnext => ?_⟩
    rw [hopacity] at hnext
    obtain ⟨hbefore, hflag⟩ := Bool.and_eq_true_iff.mp hnext
    exact hdeduced.shade_isOpaque hflag (haccurate.opaque_of hbefore) (hregular hbefore hfolded) hc
  | some k =>
    obtain rfl : k = c' := by
      obtain ⟨hconstant, from', hshade, hfrom | hignores⟩ := folded?_eq_some hfolded
      · rw [haccurate.known from' hfrom, hc] at hshade
        exact (Except.ok.inj hshade).symm
      · exact hdeduced.shade_constant hconstant hignores _ _ _ _ hshade hc
    refine ⟨fun k' hk => ?_, fun hnext => ?_⟩
    · rw [hknown] at hk
      exact (Option.some.inj hk).symm
    · rwa [hopacity] at hnext

/-- An accurate analysis stays so along a series. -/
theorem Accurate.run {analysis last : SeriesAnalysis} {series : List Node} {c out : Color Single}
    (haccurate : analysis.Accurate c) (hdeduced : ∀ n, n ∈ series → n.Deduced)
    (h : series.foldlM SeriesAnalysis.step analysis = .ok last)
    (hregular : RegularSeries analysis series c) (hout : shadeSeries series c = .ok out) :
    last.Accurate out := by
  induction series generalizing analysis c with
  | nil =>
    cases h
    cases hout
    exact haccurate
  | cons n rest ih =>
    obtain ⟨next, hnext, h⟩ := Except.bind_eq_ok.mp h
    obtain ⟨c', hc, hout⟩ := Except.bind_eq_ok.mp hout
    obtain ⟨hself, hrest⟩ := hregular
    have hstep := haccurate.step (hdeduced n (List.mem_cons_self ..)) hnext hself hc
    exact ih hstep (fun m hm => hdeduced m (List.mem_cons_of_mem _ hm)) h (hrest next c' hnext hc)
      hout

/-- Opacity is kept where the evaluations of the flagged trees are regular. A series of built trees
that is called opaque then ends in an opaque color, for every color that may enter, and each of its
trees that is flagged makes an opaque color of an opaque one. -/
theorem opacity_sound {series : List Node} (hbuilt : ∀ n, n ∈ series → n.Built)
    (entering : EnteringColor) (input : Color Single) :
    (∀ (analysis : SeriesAnalysis) (out : Color Single),
      ofSeries entering series = .ok analysis → analysis.isOpaque → entering.Admits input →
      RegularSeries (start entering) series input → shadeSeries series input = .ok out →
      out.isOpaque) ∧
    ∀ (n : Node) (out : Color Single), n ∈ series → n.optimizations.preservesOpaque →
      input.isOpaque → n.RegularBelow input → n.shade input = .ok out → out.isOpaque := by
  constructor
  · intro analysis out h hopacity hadmits hregular hout
    have haccurate := (accurate_start hadmits).run (fun n hn => (hbuilt n hn).deduced) h hregular
      hout
    exact haccurate.opaque_of hopacity
  · intro n out hn hkeeps hopacity hregular h
    exact (hbuilt n hn).deduced.shade_isOpaque hkeeps hopacity hregular h

/-- The tree of a recipe is marked as keeping opaque colors opaque, and white comes out of it
translucent. -/
def BreaksFlag (r : Recipe) : Prop :=
  ∃ (n : Node) (last : NodeId) (out : Color Single), r.build.run ⟨0⟩ = .ok (some n, last) ∧
    n.optimizations.preservesOpaque ∧ n.shade .white = .ok out ∧ out.isOpaque = false

/-- The analysis calls the tree of a recipe opaque behind an opaque color, and white comes out of it
translucent. -/
def LosesOpacity (r : Recipe) : Prop :=
  ∃ (n : Node) (last : NodeId) (analysis : SeriesAnalysis) (out : Color Single),
    r.build.run ⟨0⟩ = .ok (some n, last) ∧
    n.optimizations.preservesOpaque ∧ ofSeries .opaqueOnly [n] = .ok analysis ∧
    analysis.isOpaque ∧ n.shade .white = .ok out ∧ out.isOpaque = false

/-- Black with an alpha of half the last bit of one. -/
def faint : Color Single := ⟨0, 0, 0, .ofUInt32 0x33800000⟩

/-- A translucent color whose red is minus five. -/
def outOfGamut : Color Single := ⟨.ofUInt32 0xc0a00000, 0, 0, .ofUInt32 0x3f000000⟩

/-- All channels are one half. -/
def gray : Color Single :=
  let half : Single := .ofUInt32 0x3f000000
  ⟨half, half, half, half⟩

def red : Color Single := ⟨1, 0, 0, 1⟩

/-- The input times gray, where the input is always red. The flag is taken from the red alone. -/
def redTimesGray : Recipe :=
  .modify (.overrideInput red false) (.modify (.modulateRgba gray) .absent)

/-- The same behind a premultiplication, which hands the flag on and makes use of the input. -/
def premulRedTimesGray : Recipe := .modify .premul redTimesGray

def whiteScreenedOverFaint : Recipe :=
  .combine (.blend .screen .default) (.source (.color .white)) (.source (.color faint))

/-- White plus a color whose red was made its alpha. -/
def whitePlusRed : Recipe :=
  .combine (.blend .plus .default) (.source (.color .white))
    (.modify (.swizzle ⟨.r, .g, .b, .r⟩) (.source (.color outOfGamut)))

/-- Opacity is lost where an opaque color overrides the input of a tree that does not keep it, and
where a blend rounds or leaves the unit interval, though all channels are finite and all alphas from
zero to one. -/
theorem opacity_lost :
    (∀ c, c ∈ [red, gray, .white, faint, outOfGamut] →
      c.isFinite ∧ Scalar.le 0 c.a ∧ Scalar.le c.a 1) ∧
    BreaksFlag redTimesGray ∧ LosesOpacity premulRedTimesGray ∧
    LosesOpacity whiteScreenedOverFaint ∧ LosesOpacity whitePlusRed := by
  refine ⟨?_, ?_, ?_, ?_, ?_⟩
  · decide +kernel
  · exact ⟨_, _, _, rfl, by decide +kernel, rfl, by decide +kernel⟩
  · refine ⟨_, _, _, _, rfl, by decide +kernel, rfl, by decide +kernel, rfl, by decide +kernel⟩
  · refine ⟨_, _, _, _, rfl, by decide +kernel, rfl, by decide +kernel, rfl, by decide +kernel⟩
  · refine ⟨_, _, _, _, rfl, by decide +kernel, rfl, by decide +kernel, rfl, by decide +kernel⟩

/-- The input screened over a translucent gray, whose sum with one is exact. -/
def screenedOverGray : Recipe :=
  .combine (.blend .screen .default) .absent (.source (.color gray))

/-- Screening white over gray needs no rounding. -/
theorem exact_white_gray : BlendMode.screen.Exact .white gray where
  source := by decide +kernel
  destination := by decide +kernel
  screen := by
    intro _
    constructor
    · refine (Ieee.nearSum_iff (n := 2 ^ 149) ?_ (by decide)).mpr (by decide)
      exact Ieee.isOne_one
    · refine (Ieee.nearSum_iff (n := 2 ^ 148) ?_ (by decide)).mpr (by decide)
      rfl

/-- White screened over gray passes on opaque colors, as its flag says. -/
theorem opacity_sound_screenedOverGray :
    ∃ (n : Node) (last : NodeId) (analysis : SeriesAnalysis) (passed out : Color Single),
      screenedOverGray.build.run ⟨0⟩ = .ok (some n, last) ∧ n.optimizations.preservesOpaque ∧
      ofSeries .opaqueOnly [n] = .ok analysis ∧ analysis.isOpaque ∧
      shadeSeries [n] .white = .ok passed ∧ passed.isOpaque ∧
      n.shade .white = .ok out ∧ out.isOpaque := by
  obtain ⟨n, last, analysis, passed, out, child, hrun, hflag, hanalysis, hopacity, hpassed, hout,
    hkind, hslots, hleaf, hnone, hchild⟩ : ∃ (n : Node) (last : NodeId) (analysis : SeriesAnalysis)
      (passed out : Color Single) (child : Node),
        screenedOverGray.build.run ⟨0⟩ = .ok (some n, last) ∧ n.optimizations.preservesOpaque ∧
        ofSeries .opaqueOnly [n] = .ok analysis ∧ analysis.isOpaque ∧
        shadeSeries [n] .white = .ok passed ∧ n.shade .white = .ok out ∧
        n.kind = .blend .screen .composeOne ∧ n.slots = [none, some child] ∧
        child.kind = .color gray ∧ child.slots = [] ∧
        child.shade (α := Single) .white = .ok gray :=
    ⟨_, _, _, _, _, _, rfl, by decide +kernel, rfl, by decide +kernel, rfl, rfl, rfl, rfl, rfl,
      rfl, rfl⟩
  have hregular : n.RegularBelow .white := by
    rw [regularBelow_iff]
    constructor
    · intro _ _
      unfold Kind.Regular
      rw [hkind, hslots]
      simp only
      rintro s d ⟨⟩ hd
      obtain ⟨c, hc, rfl⟩ := Except.map_eq_ok.mp hd
      obtain rfl : c = gray := Except.ok.inj (hc.symm.trans hchild)
      exact exact_white_gray
    · intro i m d hm hd
      rw [hslots] at hm
      rw [hkind] at hd
      cases hd
      match i with
      | 0 => cases hm
      | 1 =>
        cases hm
        exact regularBelow_color hleaf hnone
      | _ + 2 => cases hm
  have hbuilt : ∀ m, m ∈ [n] → m.Built := by
    intro m hm
    rw [List.mem_singleton.mp hm]
    exact ⟨_, _, _, hrun⟩
  obtain ⟨hseries, htrees⟩ := opacity_sound hbuilt .opaqueOnly .white
  refine ⟨n, last, analysis, passed, out, hrun, hflag, hanalysis, hopacity, hpassed, ?_, hout, ?_⟩
  · exact hseries analysis passed hanalysis hopacity rfl
      ⟨fun _ _ => hregular, fun _ _ _ _ => trivial⟩ hpassed
  · exact htrees n out List.mem_cons_self hflag Color.isOpaque_white hregular hout

end SeriesAnalysis

end PixelEffect
