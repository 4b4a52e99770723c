import Mathlib.Data.List.Forall2
import Mathlib.Data.List.Induction
import Mathlib.Data.List.Nodup
import Mathlib.Logic.ExistsUnique
import PixelEffect.Proofs.Shader.BodyUses
import PixelEffect.Proofs.Shader.Emission
import PixelEffect.Proofs.Shader.Values

namespace PixelEffect

namespace Node

open Shader

/-- The site is that of the node at the end of the path. -/
def SiteAt (first : UInt32) (n : Node) (path : Path) (s : Site) : Prop :=
  ∃ m k, n.at? path = some m ∧ (n.laidOut first).at? path = some (m.laidOut k) ∧ s = m.site k

/-- The site is that of the node at the end of the path, which starts in one of the slots. They are
counted from `i` on. -/
def SiteBelow (first : UInt32) (i : Nat) (slots : List (Option Node)) (path : Path) (s : Site) :
    Prop :=
  ∃ j rest m k, path = (i + j) :: rest ∧ slots[j]?.join.bind (at? rest) = some m ∧
    (laidOutSlots first slots)[j]?.join.bind (Outline.at? rest) = some (m.laidOut k) ∧ s = m.site k

/-- A site of a child is one below the node, with the slot in front of its path. -/
theorem SiteBelow.of_child {first : UInt32} {i : Nat} {child : Node} {path : Path} {s : Site}
    (h : child.SiteAt first path s) (rest : List (Option Node)) :
    SiteBelow first i (some child :: rest) (i :: path) s := by
  obtain ⟨m, k, hm, hoff, hs⟩ := h
  exact ⟨0, path, m, k, rfl, hm, hoff, hs⟩

/-- A site of the slots further right is one of all slots. -/
theorem SiteBelow.of_rest {first next : UInt32} {i : Nat} {slot : Option Node}
    {slots : List (Option Node)}
    (hslots : (laidOutSlots first (slot :: slots)).tail = laidOutSlots next slots) {path : Path}
    {s : Site} (h : SiteBelow next (i + 1) slots path s) :
    SiteBelow first i (slot :: slots) path s := by
  obtain ⟨j, rest, m, k, rfl, hm, hoff, hs⟩ := h
  refine ⟨j + 1, rest, m, k, by rw [Nat.add_right_comm, Nat.add_assoc], hm, ?_, hs⟩
  rw [← List.getElem?_tail, hslots, hoff]

/-- The sites in the slots stand at the paths of the slots, in post-order. -/
theorem postPathsFrom_sitesOfSlots {slots : List (Option Node)}
    (h : ∀ child, some child ∈ slots → ∀ first,
      List.Forall₂ (child.SiteAt first) child.postPaths (child.sites first))
    (first : UInt32) (i : Nat) :
    List.Forall₂ (SiteBelow first i slots) (postPathsFrom i slots) (sitesOfSlots first slots) := by
  induction slots generalizing first i with
  | nil => exact .nil
  | cons slot rest ih =>
    have ih := ih fun child hchild => h child (List.mem_cons_of_mem _ hchild)
    cases slot with
    | none => exact (ih first (i + 1)).imp fun _ _ => .of_rest rfl
    | some child =>
      have hchild := h child List.mem_cons_self first
      refine List.rel_append ?_ ((ih _ (i + 1)).imp fun _ _ => .of_rest rfl)
      rw [List.forall₂_map_left_iff]
      exact hchild.imp fun _ _ h => .of_child h rest

/-- One site after the other belongs to the nodes in post-order. -/
theorem postPaths_sites (first : UInt32) (n : Node) :
    List.Forall₂ (n.SiteAt first) n.postPaths (n.sites first) := by
  induction n generalizing first with
  | mk data slots ih =>
    refine List.rel_append ((postPathsFrom_sitesOfSlots ih first 0).imp ?_) (.cons ?_ .nil)
    · rintro _ s ⟨j, rest, m, k, rfl, hm, hoff, hs⟩
      rw [Nat.zero_add]
      exact ⟨m, k, hm, hoff, hs⟩
    · exact ⟨_, first, rfl, rfl, rfl⟩

/-- The index of a node in post-order is that of its site. -/
theorem exists_getElem?_sites {n m : Node} {path : Path} (h : n.at? path = some m)
    (first : UInt32) : ∃ (i : Nat) (k : UInt32), n.postPaths[i]? = some path ∧
      (n.laidOut first).at? path = some (m.laidOut k) ∧ (n.sites first)[i]? = some (m.site k) := by
  obtain ⟨i, hi⟩ := List.mem_iff_getElem?.mp (mem_postPaths.mpr (Option.isSome_of_eq_some h))
  obtain ⟨hlength, hsites⟩ := List.forall₂_iff_get.mp (postPaths_sites first n)
  obtain ⟨hlt, rfl⟩ := List.getElem?_eq_some_iff.mp hi
  have hlt' : i < (n.sites first).length := hlength ▸ hlt
  obtain ⟨m', k, hm, hoff, hs⟩ := hsites i hlt hlt'
  obtain rfl := Option.some.inj (h.symm.trans hm)
  exact ⟨i, k, hi, hoff, List.getElem?_eq_some_iff.mpr ⟨hlt', hs⟩⟩

theorem functionsOfSlots_eq (first : UInt32) (slots : List (Option Node)) :
    functionsOfSlots first slots =
      (laidOutSlots first slots).map (·.bind (·.entry.function)) := by
  induction slots generalizing first with
  | nil => rfl
  | cons slot rest ih =>
    cases slot with
    | none => exact congrArg (none :: ·) (ih first)
    | some child =>
      rw [functionsOfSlots, laidOutSlots, List.map_cons, Option.bind_some, function_laidOut, ih]

end Node

namespace FunctionName

/-- The numbers of the first functions are their positions. -/
theorem map_text_consecutive {count : Nat} (h : count ≤ 2 ^ 32) :
    (consecutive 0 count).map text = (List.range count).map fun i => "fp" ++ toString i := by
  rw [consecutive, List.map_map]
  refine List.map_congr_left fun i hi => ?_
  have hi : i < 2 ^ 32 := Nat.lt_of_lt_of_le (List.mem_range.mp hi) h
  show "fp" ++ toString (0 + UInt32.ofNat i).toNat = _
  rw [UInt32.zero_add, UInt32.toNat_ofNat_of_lt' hi]

end FunctionName

namespace Shader

/-- The name of the uniform is that of the function with something added. -/
def GeneratedFunction.Owns (f : GeneratedFunction) (u : UniformName) : Prop :=
  ∃ suffix, u.text = f.name.text ++ "_" ++ suffix

/-- The body of the function refers to the uniform. -/
def GeneratedFunction.Reads (f : GeneratedFunction) (u : UniformName) : Prop :=
  Reference.read u.text.toList ∈ f.body.flatMap Statement.uses

/-- A function owns the uniforms whose names begin with its own. -/
theorem GeneratedFunction.owns_iff {f : GeneratedFunction} {u : UniformName} :
    f.Owns u ↔ f.name = u.owner := by
  constructor
  · rintro ⟨suffix, h⟩
    have hlist := congrArg String.toList h
    rw [UniformName.toList_text, String.toList_append, String.toList_append,
      FunctionName.toList_text, List.append_assoc] at hlist
    have hdigits := (List.cons.inj (List.cons.inj hlist).2).2
    obtain ⟨hindex, _⟩ := eq_of_toDigits_append rfl rfl hdigits
    exact congrArg FunctionName.mk (UInt32.toNat_inj.mp hindex.symm)
  · intro h
    exact ⟨u.role.name, by rw [h]; rfl⟩

/-- Sites that are numbered without gaps have names of their own while the numbers last. -/
theorem Numbered.nodup {first : UInt32} {sites : List Site} (h : Numbered first sites)
    (hlength : sites.length ≤ 2 ^ 32) : (sites.map Site.function).Nodup := by
  rw [h]
  exact FunctionName.nodup_consecutive first hlength

/-- Where the functions are numbered, only one of the sites has the function of a uniform. -/
theorem Numbered.existsUnique {first : UInt32} {sites : List Site} (h : Numbered first sites)
    (hlength : sites.length ≤ 2 ^ 32) {u : UniformName} (hu : u ∈ sites.flatMap Site.uniforms) :
    ∃ s, s ∈ sites ∧ s.function = u.owner ∧ u.role ∈ s.kind.uniforms ∧
      ∀ t, t ∈ sites → t.function = u.owner → t = s := by
  obtain ⟨s, hs, hmem⟩ := List.mem_flatMap.mp hu
  obtain ⟨howner, hrole⟩ := Site.mem_uniforms.mp hmem
  exact ⟨s, hs, howner.symm, hrole, fun t ht heq =>
    List.inj_on_of_nodup_map (h.nodup hlength) ht hs (heq.trans howner)⟩

/-- A function reads the uniforms of its site. -/
theorem Site.reads_generated {s : Site} {u : UniformName} :
    s.generated.Reads u ↔ s.function = u.owner ∧ u.role ∈ s.kind.uniforms := by
  rw [GeneratedFunction.Reads, generated, uses_body, read_mem_bodyUses]
  constructor
  · rintro ⟨role, hrole, htext⟩
    obtain rfl := UniformName.text_injective (String.toList_inj.mp htext)
    exact ⟨rfl, hrole⟩
  · rintro ⟨howner, hrole⟩
    exact ⟨u.role, hrole, by rw [howner]⟩

namespace Builder

/-- The builder after emissions one after another, each of a tree from an outline, whether they go
through or stop. -/
def run (calls : List (Outline × Node)) : Builder :=
  calls.foldl (fun b call => (call.1.emit call.2 b).builder) .empty

/-- The functions are `fp0`, `fp1` and so on, the next number is free, and every uniform has a name
of its own and one owner, which is also the only function that reads it. -/
structure Consistent (b : Builder) : Prop where
  next : b.next.toNat = b.functions.length
  functions : b.functions.map (fun f => f.name.text) =
    (List.range b.functions.length).map fun i => "fp" ++ toString i
  uniforms : (b.uniforms.map UniformName.text).Nodup
  owners : ∀ u, u ∈ b.uniforms → ∃! f, f ∈ b.functions ∧ f.Owns u
  readers : ∀ u f, u ∈ b.uniforms → f ∈ b.functions → (f.Reads u ↔ f.Owns u)

/-- What an emission that goes through adds to a builder, and what it leaves in the outline. -/
structure Emitted (n : Node) (b b' : Builder) (o : Outline) (f : FunctionName) : Prop where
  kept : b.functions <+: b'.functions
  count : b'.functions.length = b.functions.length + n.size
  /-- The functions are those of the nodes in post-order. The outline has the name at the place of
  the node, and the function calls those that the outline has below it. -/
  places : ∀ path m, n.at? path = some m → ∃ (i : Nat) (p : Outline) (g : FunctionName),
    n.postPaths[i]? = some path ∧ o.at? path = some p ∧ p.entry.function = some g ∧
      b'.functions[b.functions.length + i]? =
        some ⟨g, body m.kind g (p.slots.map (·.bind (·.entry.function)))⟩
  root : o.entry.function = some f
  last : b'.functions.getLast?.map GeneratedFunction.name = some f

/-- An emission appends numbered functions, whether it goes through or not. -/
theorem exists_sites_emit (o : Outline) (n : Node) (b : Builder) :
    ∃ sites, (o.emit n b).builder = b.extend sites ∧ Numbered b.next sites := by
  rcases Outline.emit_cases o n b with hfits | ⟨_, _, _, _, hrun, hstops⟩
  · rw [Outline.emit_of_fits hfits]
    exact ⟨_, rfl, .of_sites b.next n⟩
  · rw [hrun]
    obtain ⟨sites, hsites, hnumbered, _⟩ := hstops.exists_sites
    exact ⟨sites, hsites, hnumbered⟩

/-- Whatever has been emitted, the functions are numbered from zero. -/
theorem exists_sites_run (calls : List (Outline × Node)) :
    ∃ sites, run calls = Builder.empty.extend sites ∧ Numbered 0 sites := by
  induction calls using List.reverseRecOn with
  | nil => exact ⟨[], (extend_nil _).symm, .nil 0⟩
  | append_singleton calls call ih =>
    -- The last emission numbers on from where the others have ended, even if it stops.
    obtain ⟨sites, hsites, hnumbered⟩ := ih
    obtain ⟨more, hmore, hnumbered'⟩ := exists_sites_emit call.1 call.2 (run calls)
    refine ⟨sites ++ more, ?_, hnumbered.append ?_⟩
    · rw [extend_append, ← hsites, ← hmore, run, List.foldl_append]
      rfl
    · rw [hsites] at hnumbered'
      exact hnumbered'

/-- Numbered functions make a builder consistent. -/
theorem consistent_of_numbered {sites : List Site} (h : Numbered 0 sites)
    (hlength : sites.length < 2 ^ 32) : (Builder.empty.extend sites).Consistent where
  next := by
    rw [next_extend, empty, UInt32.zero_add, UInt32.toNat_ofNat_of_lt' hlength, extend]
    simp
  functions := by
    have htexts := congrArg (List.map FunctionName.text) h
    rw [FunctionName.map_text_consecutive (Nat.le_of_lt hlength), List.map_map] at htexts
    simp only [extend, empty, List.nil_append, List.length_map, List.map_map]
    exact htexts
  uniforms :=
    (Site.nodup_uniforms (h.nodup (Nat.le_of_lt hlength))).map fun _ _ => UniformName.text_injective
  owners u hu := by
    obtain ⟨s, hs, howner, _, hunique⟩ := h.existsUnique (Nat.le_of_lt hlength) hu
    refine ⟨s.generated, ⟨List.mem_map_of_mem hs, GeneratedFunction.owns_iff.mpr howner⟩, ?_⟩
    rintro f ⟨hf, hfu⟩
    obtain ⟨t, ht, rfl⟩ := List.mem_map.mp hf
    rw [hunique t ht (GeneratedFunction.owns_iff.mp hfu)]
  readers u f hu hf := by
    obtain ⟨t, ht, rfl⟩ := List.mem_map.mp hf
    obtain ⟨s, _, _, hrole, hunique⟩ := h.existsUnique (Nat.le_of_lt hlength) hu
    rw [Site.reads_generated, GeneratedFunction.owns_iff]
    refine and_iff_left_of_imp fun howner => ?_
    rwa [hunique t ht howner]

/-- An emission that goes through appends the functions of all nodes in post-order. -/
theorem emitted_sites (n : Node) (b : Builder) :
    Emitted n b (b.extend (n.sites b.next)) (n.laidOut b.next) (n.functionFrom b.next) where
  kept := List.prefix_append _ _
  count := by simp [extend]
  places path m hm := by
    obtain ⟨i, k, hi, hoff, hsite⟩ := Node.exists_getElem?_sites hm b.next
    refine ⟨i, m.laidOut k, m.functionFrom k, hi, hoff, m.function_laidOut k, ?_⟩
    rw [extend, List.getElem?_append_right (Nat.le_add_right _ _), Nat.add_sub_cancel_left,
      List.getElem?_map, hsite, Node.slots_laidOut, ← Node.functionsOfSlots_eq]
    rfl
  root := n.function_laidOut b.next
  last := by
    rw [extend, Node.sites_eq]
    simp [Site.generated, Node.site]

/-- A builder stays consistent over any run until the counter has used up its numbers, and an
emission that goes through after it appends one function for each node, the one of the root last. -/
theorem run_consistent (calls : List (Outline × Node)) :
    ((run calls).functions.length < 2 ^ 32 → (run calls).Consistent) ∧
      ∀ (o : Outline) (n : Node) (o' : Outline) (b' : Builder) (f : FunctionName),
        o.emit n (run calls) = ⟨o', b', .ok f⟩ → Emitted n (run calls) b' o' f := by
  constructor
  · intro hlength
    obtain ⟨sites, hsites, hnumbered⟩ := exists_sites_run calls
    rw [hsites] at hlength ⊢
    rw [extend, empty, List.nil_append, List.length_map] at hlength
    exact consistent_of_numbered hnumbered hlength
  · intro o n o' b' f h
    have hfits := Outline.fits_of_emit_eq_ok h
    rw [Outline.emit_of_fits hfits] at h
    cases h
    exact emitted_sites n _

end Builder

/-- A node that is white, by a uniform. -/
def white : Node := .leaf ⟨0⟩ (.color .white) .all

/-- Emitting the white node again and again numbers it anew each time. -/
theorem Builder.run_replicate_white (count : Nat) :
    run (List.replicate count (Outline.ofNode white, white)) =
      Builder.empty.extend ((FunctionName.consecutive 0 count).map fun f =>
        ⟨f, .color .white, []⟩) := by
  induction count with
  | zero => exact (extend_nil _).symm
  | succ count ih =>
    have hnext : (run (List.replicate count (Outline.ofNode white, white))).next =
        UInt32.ofNat count := by
      rw [ih, next_extend, List.length_map, FunctionName.length_consecutive]
      exact UInt32.zero_add _
    rw [List.replicate_succ', run, List.foldl_append, ← run, List.foldl_cons, List.foldl_nil,
      Outline.emit_of_fits (Outline.fits_ofNode white), hnext, ih, ← extend_append, white,
      Node.sites_leaf, FunctionName.consecutive_succ, List.map_append, UInt32.zero_add]
    rfl

/-- A single color that is emitted again and again takes one number each time. -/
theorem Builder.names_replicate_white (count : Nat) :
    let b := run (List.replicate count (Outline.ofNode white, white))
    b.functions.map GeneratedFunction.name = FunctionName.consecutive 0 count ∧
      b.uniforms = (FunctionName.consecutive 0 count).map fun f => ⟨f, .color⟩ := by
  intro b
  have hb : b = _ := run_replicate_white count
  rw [hb, extend, empty, List.nil_append, List.nil_append, List.map_map, List.map_map,
    List.flatMap_map]
  exact ⟨List.map_id _, List.flatMap_pure_eq_map _ _⟩

/-- A function gets its number modulo two to the power of 32. -/
theorem Builder.getElem?_functions_of_names {b : Builder} {count : Nat}
    (hnames : b.functions.map GeneratedFunction.name = FunctionName.consecutive 0 count) {i : Nat}
    (hi : i < count) : b.functions[i]?.map (·.name.text) = some ("fp" ++ toString (i % 2 ^ 32)) := by
  have hname := FunctionName.getElem?_consecutive 0 hi
  rw [← hnames, List.getElem?_map] at hname
  obtain ⟨f, hf, hname⟩ := Option.map_eq_some_iff.mp hname
  rw [hf, Option.map_some, hname, UInt32.zero_add]
  rfl

/-- Behind `2 ^ 32` functions the counter starts again from zero. The next function then has the
name of the first one, and the uniforms of the two have one name too. -/
theorem Builder.names_repeated_of_lt {count : Nat} (hcount : 2 ^ 32 < count) :
    let b := run (List.replicate count (Outline.ofNode white, white))
    b.functions.length = count ∧ b.functions[0]?.map (·.name.text) = some "fp0" ∧
      b.functions[2 ^ 32]?.map (·.name.text) = some "fp0" ∧
      ¬ (b.uniforms.map UniformName.text).Nodup ∧ ¬ b.Consistent := by
  intro b
  obtain ⟨hnames, huniforms⟩ := names_replicate_white count
  have hnodup : ¬ (b.uniforms.map UniformName.text).Nodup := by
    intro h
    rw [huniforms] at h
    exact FunctionName.not_nodup_consecutive 0 hcount h.of_map.of_map
  have hlength := congrArg List.length hnames
  rw [List.length_map, FunctionName.length_consecutive] at hlength
  have hfirst := getElem?_functions_of_names hnames (Nat.zero_lt_of_lt hcount)
  have hagain := getElem?_functions_of_names hnames hcount
  rw [Nat.zero_mod] at hfirst
  rw [Nat.mod_self] at hagain
  exact ⟨hlength, hfirst, hagain, hnodup, fun h => hnodup h.uniforms⟩

/-- One white node more than there are numbers. -/
theorem Builder.names_repeated :
    let b := run (List.replicate (2 ^ 32 + 1) (Outline.ofNode white, white))
    b.functions.length = 2 ^ 32 + 1 ∧ b.functions[0]?.map (·.name.text) = some "fp0" ∧
      b.functions[2 ^ 32]?.map (·.name.text) = some "fp0" ∧
      ¬ (b.uniforms.map UniformName.text).Nodup ∧ ¬ b.Consistent :=
  names_repeated_of_lt (Nat.lt_succ_self _)

/-- White over what an effect without children yields. -/
def whiteOver (kind : Kind) (optimizations : Optimizations) : Node :=
  .binary ⟨2⟩ (.blend .srcOver .skMode) ⟨true, optimizations.constantOutput⟩
    (some (.leaf ⟨0⟩ (.color .white) .all)) (some (.leaf ⟨1⟩ kind optimizations))

/-- The outline of white over white stops at the destination color, with one function emitted. The
tree that it is of is emitted behind that one. -/
theorem Builder.run_consistent_afterStop :
    let o := Outline.ofNode (whiteOver (.color .white) .all)
    let b := run [(o, whiteOver .destColor .empty)]
    b.functions.length = 1 ∧ b.Consistent ∧ ∃ (o' : Outline) (b' : Builder) (f : FunctionName),
      o.emit (whiteOver (.color .white) .all) b = ⟨o', b', .ok f⟩ ∧ f = ⟨3⟩ ∧
      Emitted (whiteOver (.color .white) .all) b b' o' f := by
  intro o b
  obtain ⟨hconsistent, hemitted⟩ := run_consistent [(o, whiteOver .destColor .empty)]
  have hemit := Outline.emit_of_fits (Outline.fits_ofNode (whiteOver (.color .white) .all)) b
  exact ⟨rfl, hconsistent (by decide), _, _, _, hemit, rfl, hemitted _ _ _ _ _ hemit⟩

end Shader

end PixelEffect
