import PixelEffect.Proofs.Pool.Observation
import PixelEffect.Proofs.Shader.Recolor

namespace PixelEffect

/-- Standard trees have so few slots that no count wraps around. -/
theorem Node.Standard.countable {n : Node} (h : n.Standard) : n.Countable := by
  induction n with
  | mk data slots ih =>
    obtain ⟨⟨hlength, _⟩, _, hchildren⟩ := standard_iff.mp h
    refine .mk ?_ fun child hchild => ih child hchild (hchildren child hchild)
    have harity : data.kind.arity ≤ 2 := by
      cases data.kind <;> simp [Kind.arity]
    rw [List.length_map] at hlength
    simp only [Node.slots, Node.kind, Node.data, UInt32.size] at hlength ⊢
    omega

namespace Program

/-- A tree that comes with the wrong key is refused with the name of its root, and a tree of the
same generic form has the same name. -/
theorem uniformValues_eq_error_of_generic_eq {a root root' : Node} (hcountable : root.Countable)
    (hgeneric : root'.generic = root.generic) {options : ProgramOptions} {e : Error}
    (h : (laidOut a options).uniformValues root = .error e) :
    (laidOut a options).uniformValues root' = .error e := by
  have hkey : ProgramKey.ofNode root' = ProgramKey.ofNode root := by
    rw [ProgramKey.ofNode, ← Node.keyWords_generic, hgeneric, Node.keyWords_generic]
    rfl
  have hname : root'.name = root.name := by
    rw [← Shader.Outline.name_generic, hgeneric, Shader.Outline.name_generic]
  by_cases hsame : ProgramKey.ofNode root = (laidOut a options).key
  · have hwords : root.keyWords = a.keyWords := ProgramKey.mk.inj hsame
    have haccepts := uniformValues_of_generic_eq
      ((Node.keyWords_eq_iff hcountable (hcountable.of_keyWords_eq hwords)).mp hwords) options
    rw [haccepts] at h
    cases h
  · rw [uniformValues, if_pos hsame] at h
    rw [uniformValues, hkey, if_pos hsame, hname]
    exact h

end Program

namespace Pool

open Node

/-- All that is new in the second tree is a color at the end of the path. In every place the two
trees have the same node up to that color, with the same slots. Their keys and programs are the
same, the node is marked as keeping opaque input opaque exactly if the new color is opaque, and
programs treat both trees in the same way. What refuses the one refuses the other with the same
error. What takes values from the one takes them from the other, and unless the counter of the
functions has started again, in the same order and under the same names, and with the same numbers
except in the uniform of the color, which gets the new one. -/
structure Recolored (path : Path) (c : Color Single) (root root' : Node) : Prop where
  data : ∀ q, (root'.at? q).map Node.data =
    (root.at? q).map fun m => if q = path then { m.data with kind := .color c } else m.data
  slots : ∀ q, (root'.at? q).map (fun m => m.slots.map Option.isSome) =
    (root.at? q).map fun m => m.slots.map Option.isSome
  preservesOpaque : ∀ m, root'.at? path = some m → m.optimizations.preservesOpaque = c.isOpaque
  key : ProgramKey.ofNode root' = ProgramKey.ofNode root
  program : ∀ options, Program.ofNode root' options = Program.ofNode root options
  refused : ∀ a options p, Program.ofNode a options = .ok p →
    ∀ e, p.uniformValues root = .error e → p.uniformValues root' = .error e
  values : ∀ a options p, Program.ofNode a options = .ok p →
    ∀ before, p.uniformValues root = .ok before →
      ∃ f after, p.function? path = some f ∧ p.uniformValues root' = .ok after ∧
        (root.size < 2 ^ 32 → (⟨f, .color⟩, c.toList) ∈ after.entries ∧
          after.entries = before.entries.map fun entry =>
            (entry.1, if entry.1 = ⟨f, .color⟩ then c.toList else entry.2))

/-- A color in a tree as the public constructors make them may be replaced by any other one of the
same opacity. -/
theorem recolored_replaceAt {root n : Node} {path : Path} {c current : Color Single}
    (hgrown : root.Grown) (hstandard : root.Standard) (hn : root.at? path = some n)
    (hkind : n.kind = .color current) (hopacity : current.isOpaque = c.isOpaque) :
    Recolored path c root (replaceAt (n.withKind (.color c)) path root) := by
  have hm : n.recolor c = .ok (n.withKind (.color c)) :=
    recolor_eq_ok_iff.mpr ⟨⟨current, hkind, hopacity⟩, rfl⟩
  have hgeneric : (replaceAt (n.withKind (.color c)) path root).generic = root.generic :=
    (generic_replaceAt hn (generic_withKind_color hkind) rfl).1
  have hgrown' : (replaceAt (n.withKind (.color c)) path root).Grown :=
    hgrown.replaceAt hn rfl fun _ _ h => h.recolor hm
  have hdata := data_replaceAt_withKind hn (.color c)
  have hkinds := kind_replaceAt_withKind hn (.color c)
  refine ⟨hdata, slots_replaceAt_withKind hn (.color c), ?_, ?_, ?_, ?_, ?_⟩
  · intro m hm
    have hnode := hdata path
    rw [hm, hn, Option.map_some, Option.map_some, if_pos rfl, Option.some.injEq] at hnode
    have hdeduced : n.optimizations = ⟨current.isOpaque, true⟩ := by
      rw [(standard_iff.mp (hstandard.at? hn)).2.1, hkind]
      rfl
    rw [optimizations, hnode, ← hopacity]
    exact congrArg Optimizations.preservesOpaque hdeduced
  · rw [ProgramKey.ofNode, ← keyWords_generic, hgeneric, keyWords_generic]
    rfl
  · exact fun options => hgrown'.program_eq hgrown hgeneric options
  · intro a options p hp e he
    obtain ⟨_, _, rfl⟩ := Program.ofNode_eq_ok_iff.mp hp
    exact Program.uniformValues_eq_error_of_generic_eq hstandard.countable hgeneric he
  · intro a options p hp before hbefore
    obtain ⟨_, _, rfl⟩ := Program.ofNode_eq_ok_iff.mp hp
    obtain ⟨hsame, rfl⟩ := Program.uniformValues_eq_ok_iff.mp hbefore
    obtain ⟨s, _, _, hf⟩ := Program.exists_site_at hn options
    have hentries := fun hsize =>
      Program.entries_recolored hn hkind hgeneric hkinds hsize hf
    have houtline : (Program.laidOut root options).outline = (Program.laidOut a options).outline :=
      (laidOut_eq_of_generic_eq hsame).1
    rw [Program.function?, houtline] at hf
    exact ⟨s.function, _, hf, Program.uniformValues_of_generic_eq (hgeneric.trans hsame) options,
      hentries⟩

/-- Recoloring updates one leaf and nothing else. Take any node of a tree that the public
constructors, descriptions, copies and new colors have brought about. It takes a color exactly if it
is a color, opaque if and only if the new one is. If it does not take it then the tree stays as it
is, and otherwise the tree is recolored there. -/
theorem recolor_exact {pool : Pool} (hpool : Manufactured pool) {root n : Node} {path : Path}
    (hroot : root ∈ pool.trees) (hn : root.at? path = some n) (c : Color Single) :
    ((root.recolorAt path c).2 = .ok () ↔
      ∃ current, n.kind = .color current ∧ current.isOpaque = c.isOpaque) ∧
    ((root.recolorAt path c).2 ≠ .ok () → (root.recolorAt path c).1 = root) ∧
    ((root.recolorAt path c).2 = .ok () → Recolored path c root (root.recolorAt path c).1) := by
  obtain ⟨⟨current, hkind, hopacity⟩, hrecolored⟩ | ⟨hcolor, e, hrefused⟩ := recolorAt_cases hn c
  · rw [hrecolored]
    refine ⟨⟨fun _ => ⟨current, hkind, hopacity⟩, fun _ => rfl⟩, fun h => absurd rfl h, fun _ => ?_⟩
    exact recolored_replaceAt (hpool.grown hroot) (hpool.standard hroot) hn hkind hopacity
  · rw [hrefused]
    exact ⟨⟨fun h => (by cases h), fun h => absurd h hcolor⟩, fun _ => rfl, fun h => (by cases h)⟩

/-- A transparent color that is clamped becomes a glow. -/
theorem recolor_exact_clampedGlow :
    let root := clampedGlow ⟨1⟩ ⟨0⟩ .transparent
    (root.recolorAt [0] ⟨1, 0, 0, 0⟩).2 = .ok () ∧
      root.size < 2 ^ 32 ∧ ∃ p after, Program.ofNode root .standard = .ok p ∧
        p.uniformValues (root.recolorAt [0] ⟨1, 0, 0, 0⟩).1 = .ok after ∧
        after.entries = [(⟨⟨0⟩, .color⟩, [1, 0, 0, 0])] := by
  intro root
  have hchild : root.at? [0] = some _ := rfl
  obtain ⟨htakes, _, hrecolored⟩ := recolor_exact manufactured_described
    (List.mem_singleton.mpr rfl) hchild ⟨1, 0, 0, 0⟩
  have hok := htakes.mpr ⟨.transparent, rfl, by decide⟩
  have hp : Program.ofNode root .standard = .ok (Program.laidOut root .standard) :=
    Program.ofNode_eq_ok_iff.mpr ⟨rfl, by decide, rfl⟩
  obtain ⟨f, after, hf, hafter, hentries⟩ := (hrecolored hok).values root .standard _ hp _
    (Program.uniformValues_of_generic_eq rfl _)
  cases hf
  have hsize : root.size < 2 ^ 32 := by decide
  exact ⟨hok, hsize, _, after, hp, hafter, (hentries hsize).2⟩

end Pool

end PixelEffect
