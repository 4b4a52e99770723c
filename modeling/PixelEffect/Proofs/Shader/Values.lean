import PixelEffect.Proofs.Results
import PixelEffect.Proofs.Shader.Layout
import PixelEffect.Proofs.Shader.Names

namespace PixelEffect

namespace Kind

/-- The value that an effect has for a role, if it has a uniform of that role. -/
def value? : Kind → UniformRole → Option (List Single)
  | color c, .color | overrideInput c false, .color => some c.toList
  | colorMatrix m, .linear => some m.columns
  | colorMatrix m, .offset => some m.offsets
  | matrix m, .mapping => some m.columns
  | linearGradient start _ _ _, .start => some start.toList
  | linearGradient _ finish _ _, .finish => some finish.toList
  | linearGradient _ _ c _, .startColor => some c.toList
  | linearGradient _ _ _ d, .finishColor => some d.toList
  | _, _ => none

/-- A kind has a value for each of its roles, in the order of the roles. -/
theorem map_value? (kind : Kind) : kind.uniforms.map kind.value? = kind.uniformValues.map some := by
  cases kind with
  | overrideInput c specialized => cases specialized <;> rfl
  | _ => rfl

/-- No kind has two uniforms of one role. -/
theorem nodup_uniforms (kind : Kind) : kind.uniforms.Nodup := by
  cases kind with
  | overrideInput c specialized => cases specialized <;> simp [uniforms]
  | _ => simp [uniforms]

/-- A value has as many numbers as the type of its uniform says. -/
theorem length_of_value? {kind : Kind} {role : UniformRole} {values : List Single}
    (h : kind.value? role = some values) : values.length = role.type.scalarCount := by
  unfold value? at h
  split at h <;> cases h <;> rfl

theorem length_uniformValues (kind : Kind) : kind.uniformValues.length = kind.uniforms.length := by
  simpa using (congrArg List.length (map_value? kind)).symm

/-- A kind has values for the roles of its uniforms only. -/
theorem mem_uniforms_of_value? {kind : Kind} {role : UniformRole} {values : List Single}
    (h : kind.value? role = some values) : role ∈ kind.uniforms := by
  unfold value? at h
  split at h <;> cases h <;> simp [uniforms]

/-- A kind has a value for every uniform. -/
theorem exists_value?_of_mem_uniforms {kind : Kind} {role : UniformRole}
    (h : role ∈ kind.uniforms) : ∃ values, kind.value? role = some values := by
  have hmem := List.mem_map_of_mem (f := kind.value?) h
  rw [map_value?] at hmem
  obtain ⟨values, _, hvalues⟩ := List.mem_map.mp hmem
  exact ⟨values, hvalues.symm⟩

/-- The value at a position is the one for the role at that position. -/
theorem mem_zip_uniformValues {kind : Kind} {role : UniformRole} {values : List Single} :
    (role, values) ∈ kind.uniforms.zip kind.uniformValues ↔ kind.value? role = some values := by
  have hzip : ∀ {roles : List UniformRole} {all : List (List Single)},
      roles.map kind.value? = all.map some →
      ((role, values) ∈ roles.zip all ↔ role ∈ roles ∧ kind.value? role = some values) := by
    intro roles
    induction roles with
    | nil => simp
    | cons other roles ih =>
      intro all h
      cases all with
      | nil => cases h
      | cons found all =>
        obtain ⟨hfound, h⟩ := List.cons_eq_cons.mp h
        rw [List.zip_cons_cons, List.mem_cons, ih h, List.mem_cons, Prod.mk.injEq]
        constructor
        · rintro (⟨rfl, rfl⟩ | ⟨hrole, hvalue⟩)
          · exact ⟨.inl rfl, hfound⟩
          · exact ⟨.inr hrole, hvalue⟩
        · rintro ⟨rfl | hrole, hvalue⟩
          · exact .inl ⟨rfl, Option.some.inj (hvalue.symm.trans hfound)⟩
          · exact .inr ⟨hrole, hvalue⟩
  rw [hzip (map_value? kind)]
  exact and_iff_right_of_imp mem_uniforms_of_value?

end Kind

namespace UniformValues

/-- Sets values one after another. -/
def setAll (data : UniformValues) (assignments : List (UniformName × List Single)) : UniformValues :=
  assignments.foldl (fun data assignment => data.set assignment.1 assignment.2) data

theorem setAll_append (data : UniformValues) (xs ys : List (UniformName × List Single)) :
    data.setAll (xs ++ ys) = (data.setAll xs).setAll ys :=
  List.foldl_append

/-- A new name adds an entry and leaves the others. -/
theorem insert_perm {name : UniformName} {values : List Single}
    {entries : List (UniformName × List Single)} (h : name ∉ entries.map (·.1)) :
    (insert name values entries).Perm ((name, values) :: entries) := by
  induction entries with
  | nil => exact .refl _
  | cons entry rest ih =>
    obtain ⟨other, found⟩ := entry
    simp only [List.map_cons, List.mem_cons, not_or] at h
    rw [insert, if_neg h.1]
    split
    · exact .refl _
    · exact ((ih h.2).cons _).trans (.swap _ _ _)

/-- Nothing is lost where no name is set twice. -/
theorem setAll_perm {data : UniformValues} {assignments : List (UniformName × List Single)}
    (h : (assignments.map (·.1) ++ data.entries.map (·.1)).Nodup) :
    (data.setAll assignments).entries.Perm (assignments ++ data.entries) := by
  induction assignments generalizing data with
  | nil => exact .refl _
  | cons assignment rest ih =>
    obtain ⟨name, values⟩ := assignment
    obtain ⟨hname, hrest⟩ := List.nodup_cons.mp h
    have hset : (data.set name values).entries.Perm ((name, values) :: data.entries) :=
      insert_perm fun hmem => hname (List.mem_append_right _ hmem)
    have hnames : (rest.map (·.1) ++ (data.set name values).entries.map (·.1)).Nodup := by
      refine (((hset.map (·.1)).append_left _).nodup_iff).mpr ?_
      exact (List.perm_middle.nodup_iff).mpr h
    exact (ih hnames).trans ((hset.append_left _).trans List.perm_middle)

/-- Names that differ keep all values that are set under them. -/
theorem entries_setAll_empty {assignments : List (UniformName × List Single)}
    (h : (assignments.map (·.1)).Nodup) : (empty.setAll assignments).entries.Perm assignments := by
  have hempty : empty.entries = [] := rfl
  have hperm := @setAll_perm empty assignments
  rw [hempty, List.map_nil, List.append_nil, List.append_nil] at hperm
  exact hperm h

/-- A value is found under the text of its name. -/
theorem get?_eq_some {data : UniformValues} (h : (data.entries.map (·.1)).Nodup)
    {name : UniformName} {values : List Single} (hmem : (name, values) ∈ data.entries) :
    data.get? name.text = some values := by
  obtain ⟨entries⟩ := data
  simp only at h hmem
  rw [get?]
  induction entries with
  | nil => cases hmem
  | cons entry rest ih =>
    obtain ⟨other, found⟩ := entry
    obtain ⟨hother, hrest⟩ := List.nodup_cons.mp h
    rcases List.mem_cons.mp hmem with heq | hmem
    · obtain ⟨rfl, rfl⟩ := Prod.mk.inj heq
      simp
    · have hne : other.text ≠ name.text := by
        intro htext
        obtain rfl := UniformName.text_injective htext
        exact hother (List.mem_map.mpr ⟨_, hmem, rfl⟩)
      rw [List.find?_cons_of_neg (by simpa using hne)]
      exact ih hrest hmem

end UniformValues

namespace Shader

namespace Site

/-- The values that the uniforms of a site are set to. -/
def assignments (s : Site) : List (UniformName × List Single) := s.uniforms.zip s.kind.uniformValues

theorem map_fst_assignments (s : Site) : s.assignments.map (·.1) = s.uniforms := by
  have hlength : s.uniforms.length ≤ s.kind.uniformValues.length := by
    simp [uniforms, Kind.length_uniformValues]
  exact List.map_fst_zip hlength

theorem map_fst_flatMap_assignments (sites : List Site) :
    (sites.flatMap assignments).map (·.1) = sites.flatMap uniforms := by
  simp [List.map_flatMap, map_fst_assignments]

/-- A site sets values under the names of its own function. -/
theorem mem_assignments {s : Site} {u : UniformName} {values : List Single} :
    (u, values) ∈ s.assignments ↔ u.owner = s.function ∧ s.kind.value? u.role = some values := by
  obtain ⟨owner, role⟩ := u
  rw [assignments, uniforms, List.zip_map_left, List.mem_map, ← Kind.mem_zip_uniformValues]
  constructor
  · rintro ⟨⟨_, _⟩, hmem, ⟨⟩⟩
    exact ⟨rfl, hmem⟩
  · rintro ⟨rfl, hmem⟩
    exact ⟨_, hmem, rfl⟩

theorem mem_uniforms {s : Site} {u : UniformName} :
    u ∈ s.uniforms ↔ u.owner = s.function ∧ u.role ∈ s.kind.uniforms := by
  obtain ⟨owner, role⟩ := u
  simp only [uniforms, List.mem_map, UniformName.mk.injEq]
  constructor
  · rintro ⟨_, hrole, rfl, rfl⟩
    exact ⟨rfl, hrole⟩
  · rintro ⟨rfl, hrole⟩
    exact ⟨role, hrole, rfl, rfl⟩

/-- Sites with functions of their own have uniforms of their own. -/
theorem nodup_uniforms {sites : List Site} (h : (sites.map Site.function).Nodup) :
    (sites.flatMap Site.uniforms).Nodup := by
  rw [List.Nodup, List.pairwise_map] at h
  rw [List.Nodup, List.pairwise_flatMap]
  refine ⟨fun s _ => ?_, h.imp fun hne u hu v hv heq => ?_⟩
  · rw [uniforms, List.pairwise_map]
    exact s.kind.nodup_uniforms.imp fun hne heq => hne (UniformName.mk.inj heq).2
  · subst heq
    exact hne ((mem_uniforms.mp hu).1.symm.trans (mem_uniforms.mp hv).1)

end Site

namespace Outline

open Node

/-- Where the slots fit, children are missing on neither side. -/
theorem checkPresence_of_fits {outlines : List (Option Outline)} {slots : List (Option Node)}
    (h : FitsSlots outlines slots) (name : String) (i : Nat) :
    checkPresence name i outlines slots = .ok () := by
  induction slots generalizing outlines i with
  | nil => rw [fitsSlots_nil.mp h, checkPresence]; simp
  | cons slot slots ih =>
    cases slot with
    | none =>
      obtain ⟨rest, rfl, hrest⟩ := fitsSlots_cons_none.mp h
      exact ih hrest (i + 1)
    | some child =>
      obtain ⟨o, rest, rfl, _, hrest⟩ := fitsSlots_cons_some.mp h
      exact ih hrest (i + 1)

/-- With as many names as values, each value goes to the name at its place. -/
theorem writeValues_eq {names : List UniformName} {values : List (List Single)}
    (h : names.length = values.length) (node : String) (i : Nat) (data : UniformValues) :
    writeValues node i names values data = (data.setAll (names.zip values), .ok ()) := by
  induction names generalizing values i data with
  | nil =>
    obtain rfl := List.length_eq_zero_iff.mp h.symm
    rfl
  | cons name names ih =>
    cases values with
    | nil => cases h
    | cons found values => exact ih (Nat.succ.inj h) _ _

/-- Writing a tree to its own outline sets the uniforms of all its sites. -/
theorem write_laidOut (first : UInt32) (n : Node) (data : UniformValues) :
    write (n.laidOut first) n data =
      (data.setAll ((n.sites first).flatMap Site.assignments), .ok ()) := by
  induction n generalizing first data with
  | mk nodeData slots ih =>
    have hslots : ∀ first (data : UniformValues), writeSlots (laidOutSlots first slots) slots data =
        (data.setAll ((sitesOfSlots first slots).flatMap Site.assignments), .ok ()) := by
      induction slots with
      | nil => exact fun _ _ => rfl
      | cons slot rest ihRest =>
        have ihRest := ihRest fun child hchild => ih child (List.mem_cons_of_mem _ hchild)
        intro first data
        cases slot with
        | none => exact ihRest first data
        | some child =>
          simp only [laidOutSlots, writeSlots, ih child List.mem_cons_self, ihRest, sitesOfSlots,
            List.flatMap_append, UniformValues.setAll_append]
    have hfits : FitsSlots (laidOutSlots first slots) slots :=
      (fits_iff.mp (fits_laidOut first (.mk nodeData slots))).2
    have hcheck : ∀ f : FunctionName, (do
        checkFits
          ⟨nodeData.kind.effectClass, some f, nodeData.kind.uniforms.map fun role => ⟨f, role⟩⟩
          (laidOutSlots first slots).length (.mk nodeData slots)
        checkPresence (Node.mk nodeData slots).name 0 (laidOutSlots first slots) slots) =
        Except.ok () := fun _ =>
      Except.bind_eq_ok.mpr ⟨(), checkFits_eq_ok.mpr ⟨rfl, hfits.length_eq⟩,
        checkPresence_of_fits hfits _ _⟩
    have hlength : ∀ f : FunctionName, (nodeData.kind.uniforms.map fun role =>
        (⟨f, role⟩ : UniformName)).length = nodeData.kind.uniformValues.length := by
      intro f
      rw [List.length_map, Kind.length_uniformValues]
    simp only [laidOut, write, Option.isNone_some, Bool.false_eq_true, if_false, Node.slots, hcheck,
      hslots, kind, Node.data, writeValues_eq (hlength _), sites, List.flatMap_append,
      UniformValues.setAll_append, List.flatMap_singleton]
    rfl

/-- Values can be written only to outlines that fit. -/
theorem fitsSlots_of_writeSlots {outlines : List (Option Outline)} {slots : List (Option Node)}
    (hwrite : ∀ child, some child ∈ slots → ∀ {o : Outline} {data data' : UniformValues},
      write o child data = (data', .ok ()) → o.Fits child)
    (hlength : outlines.length = slots.length) {name : String} {i : Nat}
    (hpresence : checkPresence name i outlines slots = .ok ()) {data data' : UniformValues}
    (h : writeSlots outlines slots data = (data', .ok ())) : FitsSlots outlines slots := by
  induction slots generalizing outlines i data with
  | nil => exact fitsSlots_nil.mpr (List.length_eq_zero_iff.mp hlength)
  | cons slot slots ih =>
    have hrest : ∀ child, some child ∈ slots → ∀ {o : Outline} {data data' : UniformValues},
        write o child data = (data', .ok ()) → o.Fits child :=
      fun child hchild => hwrite child (List.mem_cons_of_mem _ hchild)
    cases outlines with
    | nil => cases hlength
    | cons outline outlines =>
      have hcount : outlines.length = slots.length := Nat.succ.inj hlength
      rw [checkPresence] at hpresence
      split at hpresence
      · rename_i hpresent
        cases slot with
        | none =>
          obtain rfl : outline = none := by simpa using hpresent
          exact fitsSlots_cons_none.mpr ⟨_, rfl, ih hrest hcount hpresence h⟩
        | some child =>
          obtain ⟨o, rfl⟩ := Option.isSome_iff_exists.mp hpresent
          rw [writeSlots] at h
          split at h
          · cases h
          · rename_i hchild
            exact fitsSlots_cons_some.mpr
              ⟨_, _, rfl, hwrite child List.mem_cons_self hchild, ih hrest hcount hpresence h⟩
      · cases hpresence

/-- Only a tree that fits can be written without an error. -/
theorem fits_of_write {o : Outline} {n : Node} {data data' : UniformValues}
    (h : write o n data = (data', .ok ())) : o.Fits n := by
  induction n generalizing o data data' with
  | mk nodeData slots ih =>
    obtain ⟨entry, outlines⟩ := o
    simp only [write] at h
    split at h
    · cases h
    split at h
    · cases h
    rename_i hcheck
    obtain ⟨_, hfits, hpresence⟩ := Except.bind_eq_ok.mp hcheck
    obtain ⟨hclass, hlength⟩ := checkFits_eq_ok.mp hfits
    split at h
    · cases h
    rename_i hslots
    refine fits_iff.mpr ⟨hclass, ?_⟩
    exact fitsSlots_of_writeSlots ih hlength hpresence hslots

end Outline

end Shader

end PixelEffect
