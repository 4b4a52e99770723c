import Mathlib.Data.List.Nodup
import PixelEffect.Proofs.Pool.Basic
import PixelEffect.Proofs.Shader.Program

namespace PixelEffect

open Shader

namespace Program

/-- The function that the program has for the node at the end of a path. -/
def function? (p : Program) (path : Node.Path) : Option FunctionName :=
  (p.outline.at? path).bind fun o => o.entry.function

/-- The values are those of a tree: one for each uniform, under its name, of the length that its
type asks for, and taken from the node in the place of the function that owns the uniform. -/
structure Holds (p : Program) (n : Node) (data : UniformValues) : Prop where
  names : (data.entries.map fun entry => entry.1.text).Perm (p.uniforms.map UniformName.text)
  places : ∀ u, u ∈ p.uniforms → ∃ path m, p.function? path = some u.owner ∧ n.at? path = some m
  values : ∀ u, u ∈ p.uniforms → ∀ path m, p.function? path = some u.owner →
    n.at? path = some m → ∃ values, m.kind.value? u.role = some values ∧
      data.get? u.text = some values ∧ values.length = u.type.scalarCount

/-- A tree whose functions have names of their own has uniforms with names of their own. -/
theorem nodup_uniforms_sites {n : Node} (hsize : n.size < 2 ^ 32) :
    ((n.sites 0).flatMap Site.uniforms).Nodup :=
  Site.nodup_uniforms (n.nodup_functions_sites 0 hsize)

/-- No two uniforms have the same name, not even as a text. -/
theorem nodup_uniform_texts {n : Node} (hsize : n.size < 2 ^ 32) (options : ProgramOptions) :
    ((laidOut n options).uniforms.map UniformName.text).Nodup := by
  rw [List.Nodup, List.pairwise_map]
  exact (nodup_uniforms_sites hsize).imp fun hne h => hne (UniformName.text_injective h)

/-- The values that a tree feeds are those of its nodes. -/
theorem entries_uniformValues {n : Node} (hsize : n.size < 2 ^ 32) :
    n.uniformValues.entries.Perm ((n.sites 0).flatMap Site.assignments) := by
  refine UniformValues.entries_setAll_empty ?_
  rw [Site.map_fst_flatMap_assignments]
  exact nodup_uniforms_sites hsize

/-- The values of a site are found under the names of its uniforms. -/
theorem get?_uniformValues {n : Node} (hsize : n.size < 2 ^ 32) {s : Site} {u : UniformName}
    {values : List Single} (hs : s ∈ n.sites 0) (howner : u.owner = s.function)
    (hvalues : s.kind.value? u.role = some values) :
    n.uniformValues.get? u.text = some values := by
  have hassigned : (u, values) ∈ (n.sites 0).flatMap Site.assignments :=
    List.mem_flatMap.mpr ⟨_, hs, Site.mem_assignments.mpr ⟨howner, hvalues⟩⟩
  refine UniformValues.get?_eq_some ?_ ((entries_uniformValues hsize).mem_iff.mpr hassigned)
  rw [((entries_uniformValues hsize).map _).nodup_iff, Site.map_fst_flatMap_assignments]
  exact nodup_uniforms_sites hsize

/-- In the place of every node there is the function of one of the sites. -/
theorem exists_site_at {n m : Node} {path : Node.Path} (hm : n.at? path = some m)
    (options : ProgramOptions) :
    ∃ s, s ∈ n.sites 0 ∧ s.kind = m.kind ∧
      (laidOut n options).function? path = some s.function := by
  obtain ⟨k, hk, hsites⟩ := Node.at?_laidOut hm 0
  refine ⟨m.site k, hsites (Node.site_mem_sites k m), rfl, ?_⟩
  have houtline : (laidOut n options).outline.at? path = some (m.laidOut k) := hk
  rw [function?, houtline]
  exact Node.function_laidOut k m

/-- Every site has its function in the place of a node of its kind. -/
theorem exists_place {n : Node} {s : Site} (hs : s ∈ n.sites 0) (options : ProgramOptions) :
    ∃ path m, (laidOut n options).function? path = some s.function ∧ n.at? path = some m ∧
      s.kind = m.kind := by
  obtain ⟨path, m, k, hm, hk, rfl⟩ := Node.exists_at?_of_mem_sites hs
  refine ⟨path, m, ?_, hm, rfl⟩
  have houtline : (laidOut n options).outline.at? path = some (m.laidOut k) := hk
  rw [function?, houtline]
  exact Node.function_laidOut k m

/-- The values of a tree are what its own program holds. -/
theorem holds_uniformValues {n : Node} (hsize : n.size < 2 ^ 32) (options : ProgramOptions) :
    (laidOut n options).Holds n n.uniformValues where
  names := by
    have hperm := (entries_uniformValues hsize).map fun entry => entry.1.text
    have htexts : ((n.sites 0).flatMap Site.assignments).map (fun entry => entry.1.text) =
        ((n.sites 0).flatMap Site.uniforms).map UniformName.text := by
      rw [← Site.map_fst_flatMap_assignments, List.map_map]
      rfl
    rw [htexts] at hperm
    exact hperm
  places := by
    intro u hu
    obtain ⟨s, hs, hu⟩ := List.mem_flatMap.mp hu
    rw [(Site.mem_uniforms.mp hu).1]
    obtain ⟨path, m, hfunction, hm, _⟩ := exists_place hs options
    exact ⟨path, m, hfunction, hm⟩
  values := by
    intro u hu path m hpath hm
    obtain ⟨s, hs, hu⟩ := List.mem_flatMap.mp hu
    obtain ⟨howner, hrole⟩ := Site.mem_uniforms.mp hu
    obtain ⟨t, ht, hkind, hfunction⟩ := exists_site_at hm options
    rw [hfunction] at hpath
    obtain rfl := List.inj_on_of_nodup_map (n.nodup_functions_sites 0 hsize) ht hs
      ((Option.some.inj hpath).trans howner)
    obtain ⟨values, hvalues⟩ := Kind.exists_value?_of_mem_uniforms hrole
    exact ⟨values, hkind ▸ hvalues, get?_uniformValues hsize hs howner hvalues,
      Kind.length_of_value? hvalues⟩

/-- A tree with the generic form of the program's own may stand in for it. -/
theorem holds_of_generic_eq {a b : Node} (h : b.generic = a.generic) (hsize : b.size < 2 ^ 32)
    (options : ProgramOptions) : (laidOut a options).Holds b b.uniformValues := by
  obtain ⟨houtline, _, huniforms⟩ := Node.laidOut_eq_of_generic_eq h
  have huniforms : (laidOut b options).uniforms = (laidOut a options).uniforms := huniforms
  have hfunction : (laidOut b options).function? = (laidOut a options).function? :=
    funext fun path => congrArg
      (fun o : Outline => (o.at? path).bind fun o => o.entry.function) houtline
  obtain ⟨hnames, hplaces, hvalues⟩ := holds_uniformValues hsize options
  rw [huniforms] at hnames hplaces hvalues
  rw [hfunction] at hplaces hvalues
  exact ⟨hnames, hplaces, hvalues⟩

/-- A program takes values from exactly the trees with its own key, and takes all of them: each
uniform has a name of its own and gets the value of the node in the place of the function that owns
it. The words of a key count slots modulo `2 ^ 32`, and so does the counter of the functions. So the
slots of each node of the program's tree, and its nodes, must be fewer than that. -/
theorem uniformValues_complete {a : Node} {options : ProgramOptions} {p : Program}
    (hp : Program.ofNode a options = .ok p) :
    (∀ path n, a.at? path = some n → ∃ f operands, p.function? path = some f ∧
      (⟨f, body n.kind f operands⟩ : GeneratedFunction) ∈ p.source.functions) ∧
    (a.Countable → ∀ b : Node,
      (∃ data, p.uniformValues b = .ok data) ↔ ProgramKey.ofNode b = ProgramKey.ofNode a) ∧
    (a.size < 2 ^ 32 → (p.uniforms.map UniformName.text).Nodup ∧
      ∀ (b : Node) (data : UniformValues), p.uniformValues b = .ok data → p.Holds b data) := by
  obtain ⟨_, _, rfl⟩ := ofNode_eq_ok_iff.mp hp
  refine ⟨fun path n hn => ?_, fun ha b => ?_, fun hsize =>
    ⟨nodup_uniform_texts hsize options, fun b data hdata => ?_⟩⟩
  · obtain ⟨s, hs, hkind, hfunction⟩ := exists_site_at hn options
    refine ⟨s.function, s.operands, hfunction, ?_⟩
    rw [← hkind]
    exact List.mem_map.mpr ⟨s, hs, rfl⟩
  · rw [ProgramKey.ofNode, ProgramKey.ofNode, ProgramKey.mk.injEq]
    simp only [uniformValues_eq_ok_iff, exists_and_left, exists_eq, and_true]
    constructor
    · intro hgeneric
      rw [← Node.keyWords_generic b, hgeneric, Node.keyWords_generic]
    · intro hwords
      exact (Node.keyWords_eq_iff (ha.of_keyWords_eq hwords.symm) ha).mp hwords
  · obtain ⟨hgeneric, rfl⟩ := uniformValues_eq_ok_iff.mp hdata
    exact holds_of_generic_eq hgeneric (Node.size_eq_of_generic_eq hgeneric ▸ hsize) options

/-- A gradient that is clamped, from one color to another. -/
def clampedGradient (c d : Color Single) : Node :=
  .unary ⟨1⟩ (.clamp false) .empty
    (some (.leaf ⟨0⟩ (.linearGradient ⟨0, 0⟩ ⟨1, 0⟩ c d) .empty)) .passThrough

/-- The program of one gradient takes the colors of another one. -/
theorem uniformValues_complete_clampedGradient :
    ∃ p data, Program.ofNode (clampedGradient .white .transparent) .standard = .ok p ∧
      (clampedGradient .white .transparent).Countable ∧
      (clampedGradient .white .transparent).size < 2 ^ 32 ∧
      p.uniformValues (clampedGradient .transparent .white) = .ok data ∧
      p.Holds (clampedGradient .transparent .white) data := by
  have hp : Program.ofNode (clampedGradient .white .transparent) .standard =
      .ok (laidOut (clampedGradient .white .transparent) .standard) :=
    ofNode_eq_ok_iff.mpr ⟨by decide, by decide, rfl⟩
  have hcountable : (clampedGradient .white .transparent).Countable := by
    refine .mk (by decide) fun child hchild => ?_
    obtain rfl := Option.some.inj (List.mem_singleton.mp hchild)
    exact .mk (by decide) fun _ h => (by cases h)
  obtain ⟨_, hguarded, hheld⟩ := uniformValues_complete hp
  obtain ⟨data, hdata⟩ := (hguarded hcountable (clampedGradient .transparent .white)).mpr (by decide)
  obtain ⟨_, hholds⟩ := hheld (by decide)
  exact ⟨_, data, hp, hcountable, by decide, hdata, hholds _ _ hdata⟩

end Program

namespace Node

/-- The node with `count` more slots, which are all empty. -/
def widened (n : Node) (count : Nat) : Node := mk n.data (n.slots ++ List.replicate count none)

/-- Absent slots behind the others add one word each, and they are counted. -/
theorem keyWords_widened (n : Node) (count : Nat) :
    (n.widened count).keyWords = n.kind.effectClass.code :: n.flags.usesCoordsDirectly.toUInt32
      :: n.kind.keyFields.map KeyField.toWord ++ (n.slots.length + count).toUInt32
        :: (keyWordsOfSlots n.slots ++ List.replicate count emptySlotWord) := by
  have hempty : ∀ count, keyWordsOfSlots (List.replicate count none) =
      List.replicate count emptySlotWord := by
    intro count
    induction count with
    | zero => rfl
    | succ count ih => rw [List.replicate_succ, keyWordsOfSlots, ih, List.replicate_succ]
  rw [widened, keyWords, keyWordsOfSlots_append, hempty, List.length_append, List.length_replicate]
  rfl

end Node

/-- Empty slots may be added one after another. -/
theorem Pool.Reachable.widened {allowed : Operation → Prop} {n : Node} {rest : List Node}
    {next : NodeId} (h : Reachable allowed ⟨n :: rest, next⟩) (hallowed : allowed .attach)
    (count : Nat) : Reachable allowed ⟨n.widened count :: rest, next⟩ := by
  induction count with
  | zero =>
    rw [Node.widened, List.replicate_zero, List.append_nil]
    obtain ⟨data, slots⟩ := n
    exact h
  | succ count ih =>
    refine .step ih hallowed ?_
    have hattach : (n.widened count).withChild none .passThrough = .ok (n.widened (count + 1)) := by
      rw [Node.widened, Node.widened, List.replicate_succ', ← List.append_assoc]
      rfl
    exact @Step.attach _ rest next _ _ _ none .passThrough [] (.refl _) rfl hattach

namespace Program

/-- A white node with `count` empty slots. -/
def wideWhite (count : Nat) : Node := (Node.leaf ⟨0⟩ (.color .white) .all).widened count

/-- A clamped white. Both nodes have got empty slots, the white `inner` many and the clamp `outer`
many. -/
def wideClamp (inner outer : Nat) : Node :=
  (Node.unary ⟨1⟩ (.clamp false) .empty (some (wideWhite inner)) .passThrough).widened outer

theorem reachable_wideClamp (inner outer : Nat) :
    Pool.Reachable (· ∈ Operation.assembling) ⟨[wideClamp inner outer], ⟨2⟩⟩ := by
  have hcolor : Pool.Step .call .empty ⟨[.leaf ⟨0⟩ (.color .white) .all], ⟨1⟩⟩ :=
    @Pool.Step.call _ _ _ _ (.source (.color .white)) (some _) (.refl _) rfl
  have hwhite : Pool.Reachable (· ∈ Operation.assembling) ⟨[wideWhite inner], ⟨1⟩⟩ :=
    (Pool.Reachable.step .empty (by decide) hcolor).widened (by decide) inner
  have hclamp : Pool.Step .create ⟨[wideWhite inner], ⟨1⟩⟩
      ⟨[.leaf ⟨1⟩ (.clamp false) .empty, wideWhite inner], ⟨2⟩⟩ := .create _ _
  have hattach : Pool.Step .attach ⟨[.leaf ⟨1⟩ (.clamp false) .empty, wideWhite inner], ⟨2⟩⟩
      ⟨[.unary ⟨1⟩ (.clamp false) .empty (some (wideWhite inner)) .passThrough], ⟨2⟩⟩ :=
    @Pool.Step.attach _ [] _ (.leaf ⟨1⟩ (.clamp false) .empty) _ _ (some (wideWhite inner))
      .passThrough [] (.refl _) rfl rfl
  exact (Pool.Reachable.step (.step hwhite (by decide) hclamp) (by decide) hattach).widened
    (by decide) outer

/-- The words of a clamped white: both headers, and behind them one word for each empty slot. -/
theorem keyWords_wideClamp (inner outer : Nat) :
    (wideClamp inner outer).keyWords =
      EffectClass.clamp.code :: 0 :: 0 :: (1 + outer).toUInt32 :: Sampling.passThrough.code
        :: EffectClass.color.code :: 0 :: inner.toUInt32
          :: (List.replicate inner emptySlotWord ++ List.replicate outer emptySlotWord) := by
  have hwhite : (wideWhite inner).keyWords = EffectClass.color.code :: 0 :: (0 + inner).toUInt32
      :: List.replicate inner emptySlotWord := Node.keyWords_widened _ _
  have hslots : Node.keyWordsOfSlots
      (Node.unary ⟨1⟩ (.clamp false) .empty (some (wideWhite inner)) .passThrough).slots =
        Sampling.passThrough.code :: (wideWhite inner).keyWords :=
    congrArg (Sampling.passThrough.code :: ·) (List.append_nil _)
  rw [wideClamp, Node.keyWords_widened, hslots, hwhite, Nat.zero_add]
  rfl

/-- Where the number of empty slots counts as zero, the words do not tell whose they are. -/
theorem keyWords_wideClamp_eq {count : Nat} (hcount : count.toUInt32 = 0) :
    (wideClamp count 0).keyWords = (wideClamp 0 count).keyWords := by
  have hnext : (1 + count).toUInt32 = (1 + 0).toUInt32 := by
    rw [Nat.toUInt32, UInt32.ofNat_add, ← Nat.toUInt32, hcount]
    rfl
  rw [keyWords_wideClamp, keyWords_wideClamp, hnext, hcount, List.replicate_zero, List.append_nil,
    List.nil_append]
  rfl

end Program

/-- A tree whose root has another number of slots is refused where it is written. -/
theorem Shader.Outline.write_laidOut_of_length_ne {n m : Node}
    (hclass : n.kind.effectClass = m.kind.effectClass) (hlength : n.slots.length ≠ m.slots.length)
    (first : UInt32) (data : UniformValues) :
    (n.laidOut first).write m data =
      (data, .error (.slotCountDiffers m.name m.slots.length n.slots.length)) := by
  obtain ⟨nodeData, slots⟩ := n
  have hcount : (Node.laidOutSlots first slots).length = slots.length :=
    (fits_iff.mp (fits_laidOut first (.mk nodeData slots))).2.length_eq
  have hclass : ¬ nodeData.kind.effectClass ≠ m.kind.effectClass := not_not_intro hclass
  have hlength : slots.length ≠ m.slots.length := hlength
  rw [Node.laidOut, write, checkFits, if_neg hclass, hcount, if_pos hlength]
  rfl

namespace Program

/-- A count that has wrapped around is found out when the values are written. -/
theorem uniformValues_wideClamp {count : Nat} (hcount : count.toUInt32 = 0) (hpos : 0 < count)
    (options : ProgramOptions) :
    (laidOut (wideClamp count 0) options).uniformValues (wideClamp 0 count) =
      .error (.codegen (.slotCountDiffers "Clamp" (1 + count) 1)) := by
  have hkey : ProgramKey.ofNode (wideClamp 0 count) = (laidOut (wideClamp count 0) options).key :=
    congrArg ProgramKey.mk (keyWords_wideClamp_eq hcount).symm
  have hslots : (wideClamp 0 count).slots.length = 1 + count := by
    rw [wideClamp, Node.widened, Node.slots, List.length_append, List.length_replicate]
    rfl
  have hlength : (wideClamp count 0).slots.length ≠ (wideClamp 0 count).slots.length := by
    rw [hslots]
    exact Nat.ne_of_lt (Nat.lt_add_of_pos_right hpos)
  have hclass : (wideClamp count 0).kind.effectClass = (wideClamp 0 count).kind.effectClass := rfl
  have hwrite := Outline.write_laidOut_of_length_ne hclass hlength 0 .empty
  rw [hslots] at hwrite
  rw [uniformValues, if_neg (not_not_intro hkey), laidOut]
  simp only [hwrite]
  rfl

/-- A clamped white with `2 ^ 32` empty slots at the white has the key of one with as many at the
clamp. So the program of the one is asked to take the values of the other, and finds that the tree
has another shape. -/
theorem uniformValues_miscounted :
    ∃ p, Pool.Reachable (· ∈ Operation.assembling) ⟨[wideClamp (2 ^ 32) 0], ⟨2⟩⟩ ∧
      Pool.Reachable (· ∈ Operation.assembling) ⟨[wideClamp 0 (2 ^ 32)], ⟨2⟩⟩ ∧
      Program.ofNode (wideClamp (2 ^ 32) 0) .standard = .ok p ∧
      ProgramKey.ofNode (wideClamp 0 (2 ^ 32)) = ProgramKey.ofNode (wideClamp (2 ^ 32) 0) ∧
      p.uniformValues (wideClamp 0 (2 ^ 32)) =
        .error (.codegen (.slotCountDiffers "Clamp" (1 + 2 ^ 32) 1)) := by
  refine ⟨laidOut (wideClamp (2 ^ 32) 0) .standard, reachable_wideClamp _ _,
    reachable_wideClamp _ _, ?_, ?_, uniformValues_wideClamp (by decide) (by decide) .standard⟩
  · exact ofNode_eq_ok_iff.mpr ⟨by decide, fun _ => rfl, rfl⟩
  · exact congrArg ProgramKey.mk (keyWords_wideClamp_eq (by decide)).symm

end Program

end PixelEffect
