import PixelEffect.Proofs.Key.Equality
import PixelEffect.Proofs.Node.Everywhere

namespace PixelEffect

/-- Kinds of one class whose parameters differ in uniform values at most. -/
inductive Kind.SameShape : Kind → Kind → Prop
  | color (c d : Color Single) : SameShape (.color c) (.color d)
  /-- A color that is a uniform may be any other one. -/
  | override (c d : Color Single) : SameShape (.overrideInput c false) (.overrideInput d false)
  /-- A color that is part of the program has to be the same bit by bit. -/
  | specialized (c : Color Single) : SameShape (.overrideInput c true) (.overrideInput c true)
  | destColor : SameShape .destColor .destColor
  | swizzle (s : Swizzle) : SameShape (.swizzle s) (.swizzle s)
  | premul : SameShape .premul .premul
  | compose : SameShape .compose .compose
  | blend (mode : BlendMode) (behavior : BlendBehavior) :
      SameShape (.blend mode behavior) (.blend mode behavior)
  | colorMatrix {m m' : ColorMatrix} (hunpremul : m.unpremulInput = m'.unpremulInput)
      (hclamp : m.clampRgbOutput = m'.clampRgbOutput) (hpremul : m.premulOutput = m'.premulOutput) :
      SameShape (.colorMatrix m) (.colorMatrix m')
  | clamp (toAlpha : Bool) : SameShape (.clamp toAlpha) (.clamp toAlpha)
  | deviceSpace : SameShape .deviceSpace .deviceSpace
  | matrix {m m' : Matrix3} (hperspective : m.hasPerspective = m'.hasPerspective) :
      SameShape (.matrix m) (.matrix m')
  | linearGradient (start finish start' finish' : Point) (c d c' d' : Color Single) :
      SameShape (.linearGradient start finish c d) (.linearGradient start' finish' c' d')

/-- The generic form of a kind is its shape. -/
theorem Kind.sameShape_iff {k l : Kind} : k.SameShape l ↔ k.generic = l.generic := by
  constructor
  · rintro ⟨⟩
    case colorMatrix hunpremul hclamp hpremul => simp only [generic, hunpremul, hclamp, hpremul]
    case matrix hperspective => simp only [generic, hperspective]
    all_goals rfl
  · intro h
    -- Both sides have one class and fill the same words.
    have hclass : k.effectClass = l.effectClass := by
      rw [← effectClass_generic k, h, effectClass_generic]
    have hfields : k.keyFields = l.keyFields := by
      rw [← keyFields_generic k, h, keyFields_generic]
    cases k <;> cases l <;> cases hclass
    case overrideInput.overrideInput.refl c specialized d specialized' =>
      obtain rfl : specialized = specialized' := KeyField.flag.inj (List.cons_eq_cons.mp hfields).1
      cases specialized with
      | false => exact .override c d
      | true =>
        obtain rfl : c = d := (Kind.overrideInput.inj h).1
        exact .specialized c
    case swizzle.swizzle.refl =>
      cases h
      exact .swizzle _
    case blend.blend.refl =>
      cases h
      exact .blend _ _
    case clamp.clamp.refl =>
      cases h
      exact .clamp _
    case colorMatrix.colorMatrix.refl m m' =>
      obtain ⟨hunpremul, hrest⟩ := List.cons_eq_cons.mp hfields
      obtain ⟨hclamp, hrest⟩ := List.cons_eq_cons.mp hrest
      exact .colorMatrix (KeyField.flag.inj hunpremul) (KeyField.flag.inj hclamp)
        (KeyField.flag.inj (List.cons_eq_cons.mp hrest).1)
    case matrix.matrix.refl m m' =>
      exact .matrix (KeyField.flag.inj (List.cons_eq_cons.mp hfields).1)
    all_goals constructor

/-- The shape of a kind says whether the kind reads coordinates. -/
theorem Kind.SameShape.usesCoords_eq {k l : Kind} (h : k.SameShape l) :
    k.usesCoords = l.usesCoords := by
  cases h <;> rfl

namespace Node

/-- Trees with nodes of the same shape in the same slots, sampled in the same way. How the trees
themselves are sampled is not part of that. -/
inductive SameSkeleton : Node → Node → Prop
  | mk {n m : Node} (hkind : n.kind.SameShape m.kind)
      (hslots : n.slots.map Option.isSome = m.slots.map Option.isSome)
      (hsampling : ∀ i child other, n.child? i = some child → m.child? i = some other →
        child.sampling = other.sampling)
      (hchildren : ∀ i child other, n.child? i = some child → m.child? i = some other →
        SameSkeleton child other) : SameSkeleton n m

/-- Trees have the same skeleton if their roots have the same shape and their children, in the same
slots and sampled alike, have the same skeletons. -/
theorem sameSkeleton_iff {n m : Node} :
    n.SameSkeleton m ↔ n.kind.SameShape m.kind ∧
      n.slots.map Option.isSome = m.slots.map Option.isSome ∧
      ∀ i child other, n.child? i = some child → m.child? i = some other →
        child.sampling = other.sampling ∧ child.SameSkeleton other := by
  constructor
  · rintro ⟨hkind, hslots, hsampling, hchildren⟩
    exact ⟨hkind, hslots, fun i child other hchild hother =>
      ⟨hsampling i child other hchild hother, hchildren i child other hchild hother⟩⟩
  · rintro ⟨hkind, hslots, hchildren⟩
    exact .mk hkind hslots (fun i child other hchild hother =>
      (hchildren i child other hchild hother).1) fun i child other hchild hother =>
        (hchildren i child other hchild hother).2

theorem resampled_generic_eq_iff {n m : Node} {sampling sampling' : Sampling} :
    n.generic.resampled sampling = m.generic.resampled sampling' ↔
      sampling = sampling' ∧ n.generic = m.generic := by
  cases n
  cases m
  simp only [generic, resampled, mk.injEq, NodeData.mk.injEq, true_and, and_true, and_assoc,
    and_left_comm]

/-- Generic forms can be compared node by node. -/
theorem generic_eq_iff {n m : Node} :
    n.generic = m.generic ↔ n.kind.generic = m.kind.generic ∧
      n.flags.usesCoordsDirectly = m.flags.usesCoordsDirectly ∧
      n.slots.map Option.isSome = m.slots.map Option.isSome ∧
      ∀ i child other, n.child? i = some child → m.child? i = some other →
        child.sampling = other.sampling ∧ child.generic = other.generic := by
  have hslots : genericSlots n.slots = genericSlots m.slots ↔
      n.slots.map Option.isSome = m.slots.map Option.isSome ∧
      ∀ i child other, n.child? i = some child → m.child? i = some other →
        child.sampling = other.sampling ∧ child.generic = other.generic := by
    simp only [genericSlots_eq_map, map_slots_eq_iff, resampled_generic_eq_iff, child?,
      Option.join_eq_some_iff]
  rw [← hslots]
  cases n
  cases m
  simp [generic, kind, flags, Node.data, Node.slots, and_assoc]

/-- The generic form of a tree is its skeleton, given that its nodes say of themselves what their
kinds do about coordinates. -/
theorem sameSkeleton_iff_generic_eq {n m : Node} (hn : n.Everywhere Declared)
    (hm : m.Everywhere Declared) : n.SameSkeleton m ↔ n.generic = m.generic := by
  induction n generalizing m with
  | mk data slots ih =>
    obtain ⟨hdata, hslots⟩ := everywhere_iff.mp hn
    obtain ⟨hdata', hslots'⟩ := everywhere_iff.mp hm
    have hchildren : ∀ i child other, (mk data slots).child? i = some child →
        m.child? i = some other → (child.SameSkeleton other ↔ child.generic = other.generic) :=
      fun i child other hchild hother => ih child (mem_slots_of_child? hchild)
        (hslots child (mem_slots_of_child? hchild)) (hslots' other (mem_slots_of_child? hother))
    rw [sameSkeleton_iff, generic_eq_iff, ← Kind.sameShape_iff]
    constructor
    · rintro ⟨hkind, hpresent, hbelow⟩
      refine ⟨hkind, ?_, hpresent, fun i child other hchild hother => ?_⟩
      · exact hdata.trans (hkind.usesCoords_eq.trans hdata'.symm)
      · obtain ⟨hsampling, hskeleton⟩ := hbelow i child other hchild hother
        exact ⟨hsampling, (hchildren i child other hchild hother).mp hskeleton⟩
    · rintro ⟨hkind, _, hpresent, hbelow⟩
      refine ⟨hkind, hpresent, fun i child other hchild hother => ?_⟩
      obtain ⟨hsampling, hgeneric⟩ := hbelow i child other hchild hother
      exact ⟨hsampling, (hchildren i child other hchild hother).mpr hgeneric⟩

end Node

end PixelEffect
