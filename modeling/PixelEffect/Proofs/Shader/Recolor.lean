import PixelEffect.Proofs.Node.Recolor
import PixelEffect.Proofs.Shader.Feeding

namespace PixelEffect

namespace UniformValues

/-- The names decide which places values get. -/
theorem map_fst_insert {name : UniformName} {values values' : List Single}
    {xs ys : List (UniformName × List Single)} (h : xs.map (·.1) = ys.map (·.1)) :
    (insert name values xs).map (·.1) = (insert name values' ys).map (·.1) := by
  induction xs generalizing ys with
  | nil =>
    obtain rfl := List.map_eq_nil_iff.mp h.symm
    rfl
  | cons x xs ih =>
    cases ys with
    | nil => cases h
    | cons y ys =>
      obtain ⟨hname, hrest⟩ := List.cons_eq_cons.mp h
      obtain ⟨other, found⟩ := x
      obtain ⟨other', found'⟩ := y
      obtain rfl : other = other' := hname
      simp only [insert]
      split
      · simp only [List.map_cons, hrest]
      · split
        · simp only [List.map_cons, hrest]
        · simp only [List.map_cons, ih hrest]

/-- Which names get values does not depend on the values. -/
theorem map_fst_setAll {data data' : UniformValues}
    {xs ys : List (UniformName × List Single)} (h : xs.map (·.1) = ys.map (·.1))
    (hdata : data.entries.map (·.1) = data'.entries.map (·.1)) :
    (data.setAll xs).entries.map (·.1) = (data'.setAll ys).entries.map (·.1) := by
  induction xs generalizing ys data data' with
  | nil =>
    obtain rfl := List.map_eq_nil_iff.mp h.symm
    exact hdata
  | cons x xs ih =>
    cases ys with
    | nil => cases h
    | cons y ys =>
      obtain ⟨hname, hrest⟩ := List.cons_eq_cons.mp h
      obtain ⟨name, values⟩ := x
      obtain ⟨name', values'⟩ := y
      obtain rfl : name = name' := hname
      have hset : (data.set name values).entries.map (·.1) =
          (data'.set name values').entries.map (·.1) := map_fst_insert hdata
      have hall := ih hrest hset
      exact hall

/-- Entries under the same names are known by what they are under each name. -/
theorem entries_eq_map {xs ys : List (UniformName × List Single)}
    {g : UniformName → List Single → List Single} (hnames : ys.map (·.1) = xs.map (·.1))
    (hnodup : (xs.map (·.1)).Nodup)
    (hvalues : ∀ u values, (u, values) ∈ xs → (u, g u values) ∈ ys) :
    ys = xs.map fun entry => (entry.1, g entry.1 entry.2) := by
  induction xs generalizing ys with
  | nil => exact List.map_eq_nil_iff.mp hnames
  | cons x xs ih =>
    cases ys with
    | nil => cases hnames
    | cons y ys =>
      obtain ⟨hname, hrest⟩ := List.cons_eq_cons.mp hnames
      obtain ⟨hx, hxs⟩ := List.nodup_cons.mp hnodup
      obtain ⟨u, values⟩ := x
      -- An entry under another name is not the first one.
      have htail : ∀ v w, v ≠ u → (v, w) ∈ y :: ys → (v, w) ∈ ys := by
        intro v w hne hmem
        refine (List.mem_cons.mp hmem).resolve_left fun h => hne ?_
        rw [← h] at hname
        exact hname
      have hhead : y = (u, g u values) := by
        refine ((List.mem_cons.mp (hvalues u values List.mem_cons_self)).resolve_right ?_).symm
        intro hmem
        have hname := List.mem_map_of_mem (f := (·.1)) hmem
        rw [hrest] at hname
        exact hx hname
      have hxs := ih hrest hxs fun v w hmem =>
        htail v _ (fun h => hx (h ▸ List.mem_map_of_mem (f := (·.1)) hmem))
          (hvalues v w (List.mem_cons_of_mem _ hmem))
      rw [List.map_cons, hhead, hxs]

end UniformValues

namespace Program

open Shader

/-- A node gives values to the function in its place, also where another tree of the same generic
form was laid out. -/
theorem mem_entries_of_kind {root root' : Node} (hgeneric : root'.generic = root.generic)
    (hsize : root'.size < 2 ^ 32) {options : ProgramOptions} {q : Node.Path} {f : FunctionName}
    (hf : (laidOut root options).function? q = some f) {kind : Kind}
    (hkind : (root'.at? q).map Node.kind = some kind) {role : UniformRole} {values : List Single}
    (hvalue : kind.value? role = some values) :
    (⟨f, role⟩, values) ∈ root'.uniformValues.entries := by
  obtain ⟨houtline, _, _⟩ := Node.laidOut_eq_of_generic_eq hgeneric
  have hfunction : (laidOut root' options).function? q = (laidOut root options).function? q :=
    congrArg (fun o : Outline => (o.at? q).bind fun o => o.entry.function) houtline
  obtain ⟨m, hm, rfl⟩ := Option.map_eq_some_iff.mp hkind
  obtain ⟨t, ht, htkind, htfunction⟩ := exists_site_at hm options
  rw [hfunction, hf] at htfunction
  refine (entries_uniformValues hsize).mem_iff.mpr (List.mem_flatMap.mpr ⟨t, ht, ?_⟩)
  rw [Site.mem_assignments, htkind]
  exact ⟨Option.some.inj htfunction, hvalue⟩

/-- The values of a tree in which one color is replaced. -/
theorem entries_recolored {root root' n : Node} {path : Node.Path} {c current : Color Single}
    (hn : root.at? path = some n) (hkind : n.kind = .color current)
    (hgeneric : root'.generic = root.generic)
    (hkinds : ∀ q, (root'.at? q).map Node.kind =
      (root.at? q).map fun m => if q = path then .color c else m.kind)
    (hsize : root.size < 2 ^ 32) {options : ProgramOptions} {f : FunctionName}
    (hf : (laidOut root options).function? path = some f) :
    (⟨f, .color⟩, c.toList) ∈ root'.uniformValues.entries ∧
      root'.uniformValues.entries = root.uniformValues.entries.map fun entry =>
        (entry.1, if entry.1 = ⟨f, .color⟩ then c.toList else entry.2) := by
  have hsize' : root'.size < 2 ^ 32 := Node.size_eq_of_generic_eq hgeneric ▸ hsize
  have hpath : (root'.at? path).map Node.kind = some (.color c) := by
    rw [hkinds, hn, Option.map_some, if_pos rfl]
  have hcolor : (⟨f, .color⟩, c.toList) ∈ root'.uniformValues.entries :=
    mem_entries_of_kind hgeneric hsize' hf hpath rfl
  refine ⟨hcolor, UniformValues.entries_eq_map
    (g := fun u values => if u = ⟨f, .color⟩ then c.toList else values) ?_ ?_ ?_⟩
  · obtain ⟨_, _, huniforms⟩ := Node.laidOut_eq_of_generic_eq hgeneric
    refine UniformValues.map_fst_setAll ?_ rfl
    rw [Site.map_fst_flatMap_assignments, Site.map_fst_flatMap_assignments, huniforms]
  · rw [((entries_uniformValues hsize).map _).nodup_iff, Site.map_fst_flatMap_assignments]
    exact nodup_uniforms_sites hsize
  · rintro ⟨owner, role⟩ values hmem
    obtain ⟨t, ht, hassigned⟩ :=
      List.mem_flatMap.mp ((entries_uniformValues hsize).mem_iff.mp hmem)
    obtain ⟨rfl, hvalue⟩ := Site.mem_assignments.mp hassigned
    obtain ⟨s, hs, hskind, hsfunction⟩ := exists_site_at hn options
    obtain rfl := Option.some.inj (hsfunction.symm.trans hf)
    by_cases hsame : t.function = s.function
    · -- The function belongs to one site, and that is a color.
      obtain rfl := List.inj_on_of_nodup_map (root.nodup_functions_sites 0 hsize) ht hs hsame
      rw [hskind, hkind] at hvalue
      cases role <;> cases hvalue
      rw [if_pos rfl]
      exact hcolor
    · -- Another function stands in another place, where the kind has stayed.
      obtain ⟨q, m, hq, hm, htkind⟩ := exists_place ht options
      have hne : q ≠ path := by
        rintro rfl
        exact hsame (Option.some.inj (hq.symm.trans hf))
      have hkept : (root'.at? q).map Node.kind = some m.kind := by
        rw [hkinds, hm, Option.map_some, if_neg hne]
      rw [if_neg fun h => hsame (congrArg UniformName.owner h)]
      exact mem_entries_of_kind hgeneric hsize' hq hkept (htkind ▸ hvalue)

end Program

end PixelEffect
