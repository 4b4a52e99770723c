import Mathlib.Data.List.Forall2
import PixelEffect.Proofs.Key.Codes
import PixelEffect.Proofs.Node.Alike
import PixelEffect.Proofs.Node.Everywhere

namespace PixelEffect

theorem Color.toList_injective {α : Type} : Function.Injective (Color.toList (α := α)) := by
  rintro ⟨⟩ ⟨⟩ h
  simpa [Color.toList] using h

theorem Point.toList_injective : Function.Injective Point.toList := by
  rintro ⟨⟩ ⟨⟩ h
  simpa [Point.toList] using h

theorem Matrix3.toList_injective : Function.Injective Matrix3.toList := by
  rintro ⟨⟩ ⟨⟩ h
  simpa [Matrix3.toList] using h

/-- The coefficients of a color matrix row by row. -/
def ColorMatrix.toList (m : ColorMatrix) : List Single := m.rows.flatMap ColorRow.toList

/-- The flags and the coefficients are all there is to a color matrix. -/
theorem ColorMatrix.ext_toList {m m' : ColorMatrix} (hunpremul : m.unpremulInput = m'.unpremulInput)
    (hclamp : m.clampRgbOutput = m'.clampRgbOutput) (hpremul : m.premulOutput = m'.premulOutput)
    (h : m.toList = m'.toList) : m = m' := by
  obtain ⟨⟨⟩, ⟨⟩, ⟨⟩, ⟨⟩, _, _, _⟩ := m
  obtain ⟨⟨⟩, ⟨⟩, ⟨⟩, ⟨⟩, _, _, _⟩ := m'
  simp only [toList, rows, ColorRow.toList, List.flatMap_cons, List.flatMap_nil, List.cons_append,
    List.nil_append, List.cons.injEq, and_true] at h
  simp only [mk.injEq, ColorRow.mk.injEq]
  simp_all

namespace Kind

/-- The bits of some parameters. -/
def bits (xs : List Single) : List UInt32 := xs.map Ieee.toUInt32

/-- Numbers with equal bits are equal, also zeros and those that are no numbers. -/
theorem bits_injective : Function.Injective bits :=
  List.map_injective_iff.mpr fun _ _ h => KeyField.toWord_number_injective h

/-- All parameters of a kind, also those that are no part of program keys. -/
def parameterWords : Kind → List UInt32
  | color c => bits c.toList
  | overrideInput c specialized => specialized.toUInt32 :: bits c.toList
  | swizzle s => [s.code]
  | blend mode behavior => [mode.code, behavior.code]
  | colorMatrix m =>
    m.unpremulInput.toUInt32 :: m.clampRgbOutput.toUInt32 :: m.premulOutput.toUInt32
      :: bits m.toList
  | clamp toAlpha => [toAlpha.toUInt32]
  | matrix m => bits m.toList
  | linearGradient start finish c d =>
    bits (start.toList ++ finish.toList ++ c.toList ++ d.toList)
  | destColor | premul | compose | deviceSpace => []

/-- Kinds are compared by comparing their parameters bit by bit. -/
theorem eq_iff_words {k l : Kind} :
    k = l ↔ k.effectClass = l.effectClass ∧ k.parameterWords = l.parameterWords := by
  refine ⟨fun h => h ▸ ⟨rfl, rfl⟩, fun ⟨hclass, hwords⟩ => ?_⟩
  cases k with
  | destColor | premul | compose | deviceSpace =>
    cases l <;> cases hclass
    rfl
  | color c =>
    cases l <;> cases hclass
    exact congrArg color (Color.toList_injective (bits_injective hwords))
  | overrideInput c specialized =>
    cases l <;> cases hclass
    obtain ⟨hflag, hcolor⟩ := List.cons_eq_cons.mp hwords
    rw [KeyField.toWord_flag_injective hflag, Color.toList_injective (bits_injective hcolor)]
  | swizzle s =>
    cases l <;> cases hclass
    exact congrArg swizzle (Swizzle.code_injective (List.cons_eq_cons.mp hwords).1)
  | blend mode behavior =>
    cases l <;> cases hclass
    obtain ⟨hmode, hrest⟩ := List.cons_eq_cons.mp hwords
    rw [BlendMode.code_injective hmode,
      BlendBehavior.code_injective (List.cons_eq_cons.mp hrest).1]
  | colorMatrix m =>
    cases l <;> cases hclass
    obtain ⟨hunpremul, hrest⟩ := List.cons_eq_cons.mp hwords
    obtain ⟨hclamp, hrest⟩ := List.cons_eq_cons.mp hrest
    obtain ⟨hpremul, hrest⟩ := List.cons_eq_cons.mp hrest
    exact congrArg colorMatrix (ColorMatrix.ext_toList (KeyField.toWord_flag_injective hunpremul)
      (KeyField.toWord_flag_injective hclamp) (KeyField.toWord_flag_injective hpremul)
      (bits_injective hrest))
  | clamp toAlpha =>
    cases l <;> cases hclass
    exact congrArg clamp (KeyField.toWord_flag_injective (List.cons_eq_cons.mp hwords).1)
  | matrix m =>
    cases l <;> cases hclass
    exact congrArg matrix (Matrix3.toList_injective (bits_injective hwords))
  | linearGradient start finish c d =>
    cases l <;> cases hclass
    obtain ⟨hrest, hd⟩ := List.append_inj' (bits_injective hwords) rfl
    obtain ⟨hrest, hc⟩ := List.append_inj' hrest rfl
    obtain ⟨hstart, hfinish⟩ := List.append_inj' hrest rfl
    rw [Point.toList_injective hstart, Point.toList_injective hfinish, Color.toList_injective hc,
      Color.toList_injective hd]

end Kind

namespace Node

/-- Two nodes, apart from their children: one class, the same parameters bit by bit, and children in
the same slots. -/
structure SameNode (n m : Node) : Prop where
  effectClass : n.kind.effectClass = m.kind.effectClass
  parameters : n.kind.parameterWords = m.kind.parameterWords
  slots : n.slots.map Option.isSome = m.slots.map Option.isSome

/-- The same nodes in the same places, and nothing in the same other places. -/
def Matches (n m : Node) : Prop :=
  ∀ path : Path, Option.Rel SameNode (n.at? path) (m.at? path)

/-- What is compared at a node is its kind and which of its slots are taken. -/
theorem sameNode_iff {n m : Node} :
    n.SameNode m ↔
      n.kind = m.kind ∧ n.slots.map Option.isSome = m.slots.map Option.isSome := by
  rw [Kind.eq_iff_words]
  exact ⟨fun ⟨hclass, hwords, hslots⟩ => ⟨⟨hclass, hwords⟩, hslots⟩,
    fun ⟨⟨hclass, hwords⟩, hslots⟩ => ⟨hclass, hwords, hslots⟩⟩

/-- Equal bare forms have the same node at the root. -/
theorem sameNode_of_bare {n m : Node} (h : n.bare = m.bare) : n.SameNode m := by
  obtain ⟨hkind, _, hslots⟩ := bare_eq_iff.mp h
  exact sameNode_iff.mpr ⟨hkind, (map_slots_eq_iff.mp hslots).1⟩

/-- Trees that are the same everywhere are alike, given that their nodes say of themselves what
their kinds do about coordinates. -/
theorem Matches.bare_eq {n m : Node} (h : n.Matches m) (hn : n.Everywhere Declared)
    (hm : m.Everywhere Declared) : n.bare = m.bare := by
  induction n generalizing m with
  | mk data slots ih =>
    obtain ⟨hdata, hbelow⟩ := everywhere_iff.mp hn
    obtain ⟨hdata', hbelow'⟩ := everywhere_iff.mp hm
    have hroot := h []
    simp only [at?, Option.rel_some_some, sameNode_iff] at hroot
    obtain ⟨hkind, hpresent⟩ := hroot
    refine bare_eq_iff.mpr ⟨hkind, hdata.trans ((congrArg _ hkind).trans hdata'.symm),
      map_slots_eq_iff.mpr ⟨hpresent, fun i child other hchild hother => ?_⟩⟩
    have hchild' : (mk data slots).child? i = some child := Option.join_eq_some_iff.mpr hchild
    have hother' : m.child? i = some other := Option.join_eq_some_iff.mpr hother
    have hmatches : child.Matches other := fun path => by
      simpa only [at?, hchild', hother', Option.bind_some] using h (i :: path)
    exact ih child (mem_slots_of_child? hchild') hmatches
      (hbelow child (mem_slots_of_child? hchild')) (hbelow' other (mem_slots_of_child? hother'))

/-- Structural equality is sameness at every place. -/
theorem alike_iff_matches {n m : Node} (hn : n.Everywhere Declared) (hm : m.Everywhere Declared) :
    n.alike m ↔ n.Matches m := by
  rw [alike_iff]
  refine ⟨fun h path => ?_, fun h => h.bare_eq hn hm⟩
  have hplaces := at?_of_bare h path
  cases hat : n.at? path with
  | none =>
    rw [hat] at hplaces
    rw [Option.map_eq_none_iff.mp hplaces.symm]
    exact .none
  | some n' =>
    rw [hat] at hplaces
    obtain ⟨m', hm', hbare⟩ := Option.map_eq_some_iff.mp hplaces.symm
    rw [hm']
    exact .some (sameNode_of_bare hbare.symm)

/-- Structural equality is an equivalence, since it is equality of bare forms. -/
theorem alike_equivalence : Equivalence fun n m : Node => (n.alike m : Prop) where
  refl _ := alike_iff.mpr rfl
  symm h := alike_iff.mpr (alike_iff.mp h).symm
  trans h h' := alike_iff.mpr ((alike_iff.mp h).trans (alike_iff.mp h'))

/-- Nothing that happens to a child when it is attached is looked at. -/
theorem bare_pushDown (flag : InheritedFlag) (n : Node) : (n.pushDown flag).bare = n.bare := by
  induction n with
  | mk data slots ih =>
    simp only [pushDown]
    split
    · rfl
    · refine bare_eq_iff.mpr ⟨rfl, by cases flag <;> rfl, ?_⟩
      rw [pushDownSlots_eq_map]
      simp only [Node.slots, List.map_map, Option.map_comp_map]
      exact map_slots_congr ih

theorem bare_sampled (sampling : Sampling) (n : Node) : (n.sampled sampling).bare = n.bare := by
  refine sampled_of_resampled (P := fun m => m.bare = n.bare)
    (fun m flag h => (bare_pushDown flag m).trans h) ?_
  cases n
  rfl

theorem bare_withParent (parent : NodeId) (n : Node) : (n.withParent parent).bare = n.bare := by
  cases n
  rfl

/-- A child does not make a node read coordinates itself. -/
theorem usesCoordsDirectly_attached (n : Node) (child : Option Node) (sampling : Sampling) :
    (n.attached child sampling).flags.usesCoordsDirectly = n.flags.usesCoordsDirectly := by
  cases child <;> rfl

theorem slots_bare_attached (n : Node) (child : Option Node) (sampling : Sampling) :
    (n.attached child sampling).slots.map (Option.map bare) =
      n.slots.map (Option.map bare) ++ [child.map bare] := by
  cases child <;> simp [bare_withParent, bare_sampled]

/-- Children that are alike have equal bare forms, and absent ones are like absent ones. -/
theorem rel_alike_iff {child other : Option Node} :
    Option.Rel (fun n m : Node => (n.alike m : Prop)) child other ↔
      child.map bare = other.map bare := by
  cases child <;> cases other <;> simp [alike_iff]

/-- One more slot on either side, with children that are alike or without, however the two children
are sampled. -/
theorem alike_attached {n m : Node} (h : n.alike m) {child other : Option Node}
    (hchild : Option.Rel (fun n m : Node => (n.alike m : Prop)) child other)
    (sampling sampling' : Sampling) :
    (n.attached child sampling).alike (m.attached other sampling') := by
  obtain ⟨hkind, hdirect, hslots⟩ := bare_eq_iff.mp (alike_iff.mp h)
  refine alike_iff.mpr (bare_eq_iff.mpr ⟨?_, ?_, ?_⟩)
  · rwa [kind_attached, kind_attached]
  · rwa [usesCoordsDirectly_attached, usesCoordsDirectly_attached]
  · rw [slots_bare_attached, slots_bare_attached, hslots, rel_alike_iff.mp hchild]

/-- Attaches children one after the other, each with how it is sampled. -/
def withChildren (n : Node) : List (Option Node × Sampling) → Except Violation Node
  | [] => .ok n
  | (child, sampling) :: rest => do (← n.withChild child sampling).withChildren rest

/-- Children are attached from left to right, each to what has come of the others. -/
theorem withChildren_cons_eq_ok {n m : Node} {child : Option Node × Sampling}
    {rest : List (Option Node × Sampling)} :
    n.withChildren (child :: rest) = .ok m ↔
      (∀ c, child.1 = some c → c.isFresh ∧ n.isFresh) ∧
        (n.attached child.1 child.2).withChildren rest = .ok m := by
  rw [withChildren]
  constructor
  · intro h
    cases hn : n.withChild child.1 child.2 with
    | error v =>
      rw [hn] at h
      cases h
    | ok next =>
      rw [hn] at h
      obtain ⟨hfresh, rfl⟩ := withChild_eq_ok_iff.mp hn
      exact ⟨hfresh, h⟩
  · rintro ⟨hfresh, h⟩
    rw [withChild_eq_ok_iff.mpr ⟨hfresh, rfl⟩]
    exact h

/-- Fresh nodes can always be attached to each other. -/
theorem exists_withChildren {n : Node} {children : List (Option Node × Sampling)} (hn : n.isFresh)
    (hchildren : ∀ c sampling, (some c, sampling) ∈ children → c.isFresh) :
    ∃ m, n.withChildren children = .ok m := by
  induction children generalizing n with
  | nil => exact ⟨n, rfl⟩
  | cons child rest ih =>
    obtain ⟨child, sampling⟩ := child
    have hattached : (n.attached child sampling).isFresh := by rwa [isFresh_attached]
    obtain ⟨m, hm⟩ := ih hattached fun c sampling hc =>
      hchildren c sampling (List.mem_cons_of_mem _ hc)
    refine ⟨m, withChildren_cons_eq_ok.mpr ⟨?_, hm⟩⟩
    rintro c rfl
    exact ⟨hchildren c sampling List.mem_cons_self, hn⟩

/-- Nodes that are alike are still alike when they have been given children that are alike. -/
theorem alike_withChildren {n m n' m' : Node} (h : n.alike m)
    {children others : List (Option Node × Sampling)}
    (hchildren : List.Forall₂
      (fun child other => Option.Rel (fun n m : Node => (n.alike m : Prop)) child.1 other.1)
      children others)
    (hn : n.withChildren children = .ok n') (hm : m.withChildren others = .ok m') :
    n'.alike m' := by
  induction hchildren generalizing n m with
  | nil =>
    cases hn
    cases hm
    exact h
  | cons hchild _ ih =>
    obtain ⟨_, hn⟩ := withChildren_cons_eq_ok.mp hn
    obtain ⟨_, hm⟩ := withChildren_cons_eq_ok.mp hm
    exact ih (alike_attached h hchild _ _) hn hm

end Node

end PixelEffect
