import PixelEffect.Proofs.Node.Postorder
import PixelEffect.Proofs.Shader.Layout

namespace PixelEffect.Shader

/-- The functions of the sites are numbered from `first` on, without gaps. -/
def Numbered (first : UInt32) (sites : List Site) : Prop :=
  sites.map Site.function = FunctionName.consecutive first sites.length

namespace Numbered

theorem nil (first : UInt32) : Numbered first [] := rfl

/-- Numbers go on from one list of sites to the next. -/
theorem append {first : UInt32} {sites more : List Site} (h : Numbered first sites)
    (hmore : Numbered (first + UInt32.ofNat sites.length) more) :
    Numbered first (sites ++ more) := by
  unfold Numbered at *
  rw [List.map_append, h, hmore, List.length_append, FunctionName.consecutive_add]

/-- The sites of a tree are numbered without gaps. -/
theorem of_sites (first : UInt32) (n : Node) : Numbered first (n.sites first) := by
  rw [Numbered, n.functions_sites, n.length_sites]

theorem of_slots (first : UInt32) (slots : List (Option Node)) :
    Numbered first (Node.sitesOfSlots first slots) := by
  have hfunctions := @Node.functions_sitesOfSlots slots
    (fun child _ first => Node.functions_sites first child) first
  have hlength := congrArg List.length hfunctions
  rw [List.length_map, FunctionName.length_consecutive] at hlength
  rw [Numbered, hfunctions, hlength]

end Numbered

namespace Outline

open Node

/-- An outline and a tree look alike at their roots: both are absent, or they have the same class
and the same number of slots. -/
def Agree : Option Outline → Option Node → Prop
  | none, none => True
  | some o, some n => o.entry.effectClass = n.kind.effectClass ∧ o.slots.length = n.slots.length
  | none, some _ | some _, none => False

/-- An emission that stops at the end of a path, with the outline and the builder that it starts
from and those that it leaves behind. Outline and tree are the contents of a slot. -/
inductive Stops : Path → Option Outline → Option Node → Builder → Option Outline → Builder → Prop
  | here {o : Option Outline} {n : Option Node} {b : Builder} (h : ¬ Agree o n) :
    Stops [] o n b o b
  /-- The children in slots further left have been emitted, and those further right are not
  reached. -/
  | inside {entry : Entry} {data : NodeData} {done right : List (Option Outline)}
    {emitted rest : List (Option Node)} {path : Path} {o o' : Option Outline} {n : Option Node}
    {b b' : Builder} (hclass : entry.effectClass = data.kind.effectClass)
    (hdone : FitsSlots done emitted) (hright : right.length = rest.length)
    (h : Stops path o n (b.extend (sitesOfSlots b.next emitted)) o' b') :
    Stops (emitted.length :: path) (some (mk entry (done ++ o :: right)))
      (some (.mk data (emitted ++ n :: rest))) b
      (some (mk entry (laidOutSlots b.next emitted ++ o' :: right))) b'

/-- The emission of slots stops in one of them. -/
def StopsAmong (outlines : List (Option Outline)) (slots : List (Option Node)) (b : Builder)
    (outlines' : List (Option Outline)) (b' : Builder) : Prop :=
  ∃ done o right emitted n rest path o', outlines = done ++ o :: right ∧
    slots = emitted ++ n :: rest ∧ FitsSlots done emitted ∧ right.length = rest.length ∧
    outlines' = laidOutSlots b.next emitted ++ o' :: right ∧
    Stops path o n (b.extend (sitesOfSlots b.next emitted)) o' b'

/-- An emission may stop in the first slot of all. -/
theorem StopsAmong.first {path : Path} {o o' : Option Outline} {n : Option Node} {b b' : Builder}
    {right : List (Option Outline)} {rest : List (Option Node)} (h : Stops path o n b o' b')
    (hright : right.length = rest.length) :
    StopsAmong (o :: right) (n :: rest) b (o' :: right) b' := by
  refine ⟨[], o, right, [], n, rest, path, o', rfl, rfl, fitsSlots_nil.mpr rfl, hright, rfl, ?_⟩
  rw [sitesOfSlots, Builder.extend_nil]
  exact h

theorem StopsAmong.cons_none {outlines outlines' : List (Option Outline)}
    {slots : List (Option Node)} {b b' : Builder} (h : StopsAmong outlines slots b outlines' b') :
    StopsAmong (none :: outlines) (none :: slots) b (none :: outlines') b' := by
  obtain ⟨done, o, right, emitted, n, rest, path, o', rfl, rfl, hdone, hright, rfl, h⟩ := h
  exact ⟨none :: done, o, right, none :: emitted, n, rest, path, o', rfl, rfl,
    fitsSlots_cons_none.mpr ⟨_, rfl, hdone⟩, hright, rfl, h⟩

/-- A child that fits has been emitted before an emission stops further right. -/
theorem StopsAmong.cons_some {outlines outlines' : List (Option Outline)}
    {slots : List (Option Node)} {o : Outline} {child : Node} {b b' : Builder}
    (hfits : o.Fits child)
    (h : StopsAmong outlines slots (b.extend (child.sites b.next)) outlines' b') :
    StopsAmong (some o :: outlines) (some child :: slots) b
      (some (child.laidOut b.next) :: outlines') b' := by
  obtain ⟨done, p, right, emitted, n, rest, path, p', rfl, rfl, hdone, hright, rfl, h⟩ := h
  refine ⟨some o :: done, p, right, some child :: emitted, n, rest, path, p', rfl, rfl,
    fitsSlots_cons_some.mpr ⟨_, _, rfl, hfits, hdone⟩, hright, ?_, ?_⟩
  · simp only [laidOutSlots, Builder.next_extend, length_sites, List.cons_append]
  · rw [sitesOfSlots, Builder.extend_append]
    simpa only [Builder.next_extend, length_sites] using h

/-- An emission goes through or stops. -/
def GoesThroughOrStops (o : Outline) (n : Node) (b : Builder) : Prop :=
  o.Fits n ∨ ∃ path o' b' e, emit o n b = ⟨o', b', .error e⟩ ∧
    Stops path (some o) (some n) b (some o') b'

/-- The slots fit the outlines, or an emission stops among them. -/
theorem emitSlots_cases {slots : List (Option Node)}
    (hemit : ∀ child, some child ∈ slots → ∀ o b, GoesThroughOrStops o child b) (name : String)
    (i : Nat) {outlines : List (Option Outline)} (hlength : outlines.length = slots.length)
    (b : Builder) :
    FitsSlots outlines slots ∨ ∃ outlines' b' e,
      emitSlots name i outlines slots b = ⟨outlines', b', .error e⟩ ∧
        StopsAmong outlines slots b outlines' b' := by
  induction slots generalizing outlines i b with
  | nil => exact .inl (fitsSlots_nil.mpr (List.length_eq_zero_iff.mp hlength))
  | cons slot slots ih =>
    have ih := ih fun child hchild => hemit child (List.mem_cons_of_mem _ hchild)
    cases outlines with
    | nil => cases hlength
    | cons outline outlines =>
      have hcount : outlines.length = slots.length := Nat.succ.inj hlength
      cases outline with
      | none =>
        cases slot with
        | none =>
          rcases ih (i + 1) hcount b with hfits | ⟨outlines', b', e, hrun, hstops⟩
          · exact .inl (fitsSlots_cons_none.mpr ⟨_, rfl, hfits⟩)
          · refine .inr ⟨none :: outlines', b', e, ?_, hstops.cons_none⟩
            simp only [emitSlots, hrun]
            rfl
        | some child => exact .inr ⟨_, _, _, rfl, .first (.here id) hcount⟩
      | some o =>
        cases slot with
        | none => exact .inr ⟨_, _, _, rfl, .first (.here id) hcount⟩
        | some child =>
          rcases hemit child List.mem_cons_self o b with hfits | ⟨path, o', b', e, hrun, hstops⟩
          · -- A child that has gone through counts as laid out, and the others go on behind it.
            have hemitted := emit_of_fits hfits b
            rcases ih (i + 1) hcount (b.extend (child.sites b.next)) with
              hrest | ⟨outlines', b', e, hrun, hstops⟩
            · exact .inl (fitsSlots_cons_some.mpr ⟨_, _, rfl, hfits, hrest⟩)
            · refine .inr ⟨some (child.laidOut b.next) :: outlines', b', e, ?_,
                hstops.cons_some hfits⟩
              simp only [emitSlots, hemitted, hrun]
              rfl
          · refine .inr ⟨some o' :: outlines, b', e, ?_, .first hstops hcount⟩
            simp only [emitSlots, hrun]

/-- An emission goes through or stops, and both are known in full. -/
theorem emit_cases (o : Outline) (n : Node) (b : Builder) : GoesThroughOrStops o n b := by
  induction n generalizing o b with
  | mk data slots ih =>
    obtain ⟨entry, outlines⟩ := o
    by_cases hagree : Agree (some (mk entry outlines)) (some (.mk data slots))
    · have hcheck : checkFits entry outlines.length (.mk data slots) = .ok () :=
        checkFits_eq_ok.mpr hagree
      have hcount : outlines.length = slots.length := hagree.2
      rcases emitSlots_cases ih (Node.mk data slots).name 0 hcount b with
        hfits | ⟨outlines', b', e, hrun, hstops⟩
      · exact .inl (fits_iff.mpr ⟨hagree.1, hfits⟩)
      · obtain ⟨done, p, right, emitted, n, rest, path, p', rfl, rfl, hdone, hright, rfl, h⟩ :=
          hstops
        refine .inr ⟨_, mk entry _, b', e, ?_, .inside hagree.1 hdone hright h⟩
        simp only [emit, hcheck, Node.slots, hrun]
    · have hcheck : ∃ e, checkFits entry outlines.length (.mk data slots) = .error e := by
        cases hresult : checkFits entry outlines.length (.mk data slots) with
        | error e => exact ⟨e, rfl⟩
        | ok => exact absurd (checkFits_eq_ok.mp hresult) hagree
      obtain ⟨e, hcheck⟩ := hcheck
      refine .inr ⟨[], mk entry outlines, b, e, ?_, .here hagree⟩
      simp only [emit, hcheck]

/-- Only a tree that fits is emitted to its end. -/
theorem fits_of_emit_eq_ok {o o' : Outline} {n : Node} {b b' : Builder} {f : FunctionName}
    (h : emit o n b = ⟨o', b', .ok f⟩) : o.Fits n := by
  rcases emit_cases o n b with hfits | ⟨_, _, _, _, hrun, _⟩
  · exact hfits
  · rw [hrun] at h
    cases h

/-- An emission that fails stops at some place of the tree. -/
theorem exists_stops_of_emit_eq_error {o o' : Outline} {n : Node} {b b' : Builder}
    {e : CodegenError} (h : emit o n b = ⟨o', b', .error e⟩) :
    ∃ path, Stops path (some o) (some n) b (some o') b' := by
  rcases emit_cases o n b with hfits | ⟨path, _, _, _, hrun, hstops⟩
  · rw [emit_of_fits hfits] at h
    cases h
  · rw [hrun] at h
    cases h
    exact ⟨path, hstops⟩

section

variable {α : Type} (left right : List (Option α)) (x : Option α) {j : Nat}

theorem join_getElem?_left (h : j < left.length) :
    (left ++ x :: right)[j]?.join = left[j]?.join := by
  rw [List.getElem?_append_left h]

theorem join_getElem?_self : (left ++ x :: right)[left.length]?.join = x := by
  simp

theorem join_getElem?_right (h : left.length < j) :
    (left ++ x :: right)[j]?.join = right[j - left.length - 1]?.join := by
  rw [List.getElem?_append_right (Nat.le_of_lt h), List.getElem?_cons, if_neg (by omega)]

end

theorem bind_at?_nil (o : Option Outline) : o.bind (at? []) = o := by
  cases o <;> rfl

theorem bind_at?_nil_node (n : Option Node) : n.bind (Node.at? []) = n := by
  cases n <;> rfl

/-- Outlines that fit are those of the trees, but for the functions. -/
theorem FitsSlots.map_blank {outlines : List (Option Outline)} {slots : List (Option Node)}
    (h : FitsSlots outlines slots) (i : Nat) :
    outlines[i]?.join.map blank = slots[i]?.join.map ofNode := by
  rw [← join_getElem?_map, ← join_getElem?_map, ← blankSlots_eq_map, ← ofSlots_eq_map, h]

/-- An outline agrees everywhere with a tree that it fits. -/
theorem agree_of_fits {o : Option Outline} {n : Option Node} (h : o.map blank = n.map ofNode)
    (path : Path) : Agree (o.bind (at? path)) (n.bind (Node.at? path)) := by
  induction path generalizing o n with
  | nil =>
    rw [bind_at?_nil, bind_at?_nil_node]
    cases n with
    | none =>
      obtain rfl := Option.map_eq_none_iff.mp h
      trivial
    | some n =>
      obtain ⟨⟨entry, outlines⟩, rfl, hfits⟩ := Option.map_eq_some_iff.mp h
      obtain ⟨hclass, hslots⟩ := fits_iff.mp hfits
      exact ⟨hclass, hslots.length_eq⟩
  | cons i path ih =>
    cases n with
    | none =>
      obtain rfl := Option.map_eq_none_iff.mp h
      trivial
    | some n =>
      obtain ⟨⟨entry, outlines⟩, rfl, hfits⟩ := Option.map_eq_some_iff.mp h
      exact ih ((fits_iff.mp hfits).2.map_blank i)

theorem fitsSlots_laidOut (first : UInt32) (slots : List (Option Node)) :
    FitsSlots (laidOutSlots first slots) slots :=
  fitsSlots_laidOutSlots (fun child _ first => fits_laidOut first child) first

/-- What an outline knows about the node of a site once it is emitted. -/
def siteEntry (s : Site) : Entry := ⟨s.kind.effectClass, some s.function, s.uniforms⟩

/-- A node that has been emitted remembers its function and its uniforms. -/
theorem entry_laidOut (first : UInt32) (n : Node) :
    (n.laidOut first).entry = siteEntry (n.site first) := by
  cases n
  rfl

/-- In the place of a node of slots that are laid out there is the entry of one of their sites. -/
theorem exists_site_of_laidOutSlots {slots : List (Option Node)} {i : Nat} {path : Path} {m : Node}
    (h : slots[i]?.join.bind (Node.at? path) = some m) (first : UInt32) :
    ∃ s, s ∈ sitesOfSlots first slots ∧ s.kind = m.kind ∧
      ((laidOutSlots first slots)[i]?.join.bind (at? path)).map entry = some (siteEntry s) := by
  obtain ⟨child, hchild, hm⟩ := Option.bind_eq_some_iff.mp h
  obtain ⟨k, hk, hsites⟩ := laidOutSlots_child hchild first
  obtain ⟨k', hk', hsites'⟩ := at?_laidOut hm k
  refine ⟨m.site k', hsites (hsites' (m.site_mem_sites k')), rfl, ?_⟩
  rw [hk, Option.bind_some, hk', Option.map_some, entry_laidOut]

section

variable {path q : Path} {o o' : Option Outline} {n : Option Node} {b b' : Builder}

/-- Where the emission stops outline and tree part. -/
theorem Stops.not_agree (h : Stops path o n b o' b') :
    ¬ Agree (o.bind (at? path)) (n.bind (Node.at? path)) := by
  induction h with
  | here h => rwa [bind_at?_nil, bind_at?_nil_node]
  | @inside entry data done right emitted rest path o o' n b b' hclass hdone hright h ih =>
    have ho : (done ++ o :: right)[emitted.length]?.join = o := by
      rw [← hdone.length_eq, join_getElem?_self]
    have hn : (emitted ++ n :: rest)[emitted.length]?.join = n := join_getElem?_self _ _ _
    simp only [Option.bind_some, at?, Node.at?, child?, slots, Node.slots, ho, hn]
    exact ih

/-- They do not part before that. -/
theorem Stops.agree_before (h : Stops path o n b o' b') (hq : q < path) :
    Agree (o.bind (at? q)) (n.bind (Node.at? q)) := by
  induction h generalizing q with
  | here => cases q <;> cases hq
  | @inside entry data done right emitted rest path o o' n b b' hclass hdone hright h ih =>
    cases q with
    | nil =>
      refine ⟨hclass, ?_⟩
      simp only [slots, Node.slots, List.length_append, List.length_cons, hdone.length_eq, hright]
    | cons j q =>
      simp only [Option.bind_some, at?, Node.at?, child?, slots, Node.slots]
      rcases List.cons_lt_cons_iff.mp hq with hj | ⟨rfl, hbelow⟩
      · rw [join_getElem?_left _ _ _ hj, join_getElem?_left _ _ _ (hdone.length_eq ▸ hj)]
        exact agree_of_fits (hdone.map_blank j) q
      · rw [join_getElem?_self, ← hdone.length_eq, join_getElem?_self]
        exact ih hbelow

/-- The entries of all other nodes than those further left are kept. -/
theorem Stops.kept (h : Stops path o n b o' b') (hq : ¬ LeftOf q path) :
    (o'.bind (at? q)).map entry = (o.bind (at? q)).map entry := by
  induction h generalizing q with
  | here => rfl
  | @inside entry data done right emitted rest path o o' n b b' hclass hdone hright h ih =>
    have hlength := (fitsSlots_laidOut b.next emitted).length_eq
    cases q with
    | nil => rfl
    | cons j q =>
      simp only [Option.bind_some, at?, slots]
      simp only [LeftOf, not_or, not_and, Nat.not_lt] at hq
      obtain ⟨hj, hbelow⟩ := hq
      -- What lies in the slot itself is left to the induction, and a later slot is not reached.
      rcases Nat.eq_or_lt_of_le hj with rfl | hj
      · rw [← hdone.length_eq, join_getElem?_self, hdone.length_eq, ← hlength, join_getElem?_self]
        exact ih (hbelow rfl)
      · rw [join_getElem?_right _ _ _ (hlength.symm ▸ hj),
          join_getElem?_right _ _ _ (hdone.length_eq.symm ▸ hj), hlength, hdone.length_eq]

/-- The builder is extended by sites, which are numbered on from the first free number. The nodes
further left have their entries. -/
theorem Stops.exists_sites (h : Stops path o n b o' b') :
    ∃ sites, b' = b.extend sites ∧ Numbered b.next sites ∧
      ∀ q m, LeftOf q path → n.bind (Node.at? q) = some m →
        ∃ s, s ∈ sites ∧ s.kind = m.kind ∧ (o'.bind (at? q)).map entry = some (siteEntry s) := by
  induction h with
  | here => exact ⟨[], (Builder.extend_nil _).symm, .nil _, fun q _ hq => (by cases q <;> cases hq)⟩
  | @inside entry data done right emitted rest path o o' n b b' hclass hdone hright h ih =>
    have hlength := (fitsSlots_laidOut b.next emitted).length_eq
    obtain ⟨sites, rfl, hnumbered, hsites⟩ := ih
    refine ⟨sitesOfSlots b.next emitted ++ sites, (Builder.extend_append _ _ _).symm,
      (Numbered.of_slots _ _).append hnumbered, ?_⟩
    intro q m hq hm
    cases q with
    | nil => cases hq
    | cons j q =>
      simp only [Option.bind_some, at?, Node.at?, child?, slots, Node.slots] at hm ⊢
      rcases hq with hj | ⟨rfl, hq⟩
      · rw [join_getElem?_left _ _ _ hj] at hm
        obtain ⟨s, hs, hkind, hentry⟩ := exists_site_of_laidOutSlots hm b.next
        rw [join_getElem?_left _ _ _ (hlength.symm ▸ hj)]
        exact ⟨s, List.mem_append_left _ hs, hkind, hentry⟩
      · rw [join_getElem?_self] at hm
        obtain ⟨s, hs, hkind, hentry⟩ := hsites q m hq hm
        rw [← hlength, join_getElem?_self]
        exact ⟨s, List.mem_append_right _ hs, hkind, hentry⟩

/-- The shape of the outline stays as it is. -/
theorem Stops.blank_eq (h : Stops path o n b o' b') : o'.map blank = o.map blank := by
  induction h with
  | here => rfl
  | @inside entry data done right emitted rest path o o' n b b' hclass hdone hright h ih =>
    have hslots : blankSlots (laidOutSlots b.next emitted) = blankSlots done :=
      (fitsSlots_laidOut b.next emitted).trans hdone.symm
    simp only [blankSlots_eq_map] at hslots
    simp only [Option.map_some, blank, blankSlots_eq_map, List.map_append, List.map_cons, hslots,
      ih]

end

end Outline

end PixelEffect.Shader
