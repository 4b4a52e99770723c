import PixelEffect.Proofs.Node.Growth
import PixelEffect.Proofs.Node.Path

namespace PixelEffect.Node

/-- What a parent can see of a child. -/
structure Report where
  explicit : Bool
  usesCoords : Bool
  readsDestination : Bool
  fragCoord : Bool

/-- What a parent sees of a tree. -/
def report (n : Node) : Report :=
  ⟨n.sampling.isExplicit, n.usesCoords, n.flags.readsDestination, n.capabilities.fragCoord⟩

/-- The reports of the children that are present. -/
def reports (slots : List (Option Node)) : List Report :=
  (slots.map (Option.map report)).filterMap fun slot => slot

/-- The flags of a node are what they should be, given the reports of its children and whether an
edge above it is explicit or has perspective. -/
structure FlagsMatch (explicit perspective : Bool) (data : NodeData) (reports : List Report) :
    Prop where
  direct : data.flags.usesCoordsDirectly = data.kind.usesCoords
  indirect : data.flags.usesCoordsIndirectly = reports.any fun r => !r.explicit && r.usesCoords
  explicit : data.flags.explicitCoords = explicit
  perspective : data.flags.netPerspective = perspective
  destination : data.flags.readsDestination =
    (data.kind.readsDestination || reports.any Report.readsDestination)
  fragCoord : data.capabilities.fragCoord =
    (data.kind.usesFragCoord || reports.any Report.fragCoord)

/-- The flags of a node and of everything below it are what they should be, and whatever hangs in a
slot knows that it has a parent. -/
inductive Flagged : Node → Bool → Bool → Prop
  | mk {data : NodeData} {slots : List (Option Node)} {explicit perspective : Bool}
      (hflags : FlagsMatch explicit perspective data (reports slots))
      (hparents : ∀ child, some child ∈ slots → child.parent.isSome)
      (hchildren : ∀ child, some child ∈ slots →
        Flagged child (explicit || child.sampling.isExplicit)
          (perspective || child.sampling.hasPerspective)) :
      Flagged (mk data slots) explicit perspective

section

variable {explicit perspective : Bool}

/-- The flags of a tree match if those of its root do and, below each edge, those of the
children. -/
theorem flagged_iff {n : Node} :
    n.Flagged explicit perspective ↔
      FlagsMatch explicit perspective n.data (reports n.slots) ∧
        (∀ child, some child ∈ n.slots → child.parent.isSome) ∧
        ∀ child, some child ∈ n.slots →
          child.Flagged (explicit || child.sampling.isExplicit)
            (perspective || child.sampling.hasPerspective) := by
  constructor
  · rintro ⟨hflags, hparents, hchildren⟩
    exact ⟨hflags, hparents, hchildren⟩
  · obtain ⟨data, slots⟩ := n
    rintro ⟨hflags, hparents, hchildren⟩
    exact ⟨hflags, hparents, hchildren⟩

theorem reports_map {f : Node → Node} {slots : List (Option Node)}
    (h : ∀ child, some child ∈ slots → (f child).report = child.report) :
    reports (slots.map (Option.map f)) = reports slots := by
  unfold reports
  rw [List.map_map, Option.map_comp_map, map_slots_congr (f := report ∘ f) h]

theorem reports_append (slots : List (Option Node)) (child : Option Node) :
    reports (slots ++ [child]) = reports slots ++ (child.map report).toList := by
  unfold reports
  rw [List.map_append, List.filterMap_append]
  cases child <;> rfl

@[simp] theorem sampling_mk (data : NodeData) (slots : List (Option Node)) :
    (mk data slots).sampling = data.sampling := rfl

@[simp] theorem sampling_withParent (parent : NodeId) (n : Node) :
    (n.withParent parent).sampling = n.sampling := by
  cases n
  rfl

@[simp] theorem parent_pushDown (flag : InheritedFlag) (n : Node) :
    (n.pushDown flag).parent = n.parent := by
  cases n
  simp only [pushDown]
  split <;> rfl

@[simp] theorem sampling_pushDown (flag : InheritedFlag) (n : Node) :
    (n.pushDown flag).sampling = n.sampling := by
  cases n
  simp only [pushDown]
  split <;> rfl

@[simp] theorem report_pushDown (flag : InheritedFlag) (n : Node) :
    (n.pushDown flag).report = n.report := by
  cases n
  simp only [pushDown]
  split
  · rfl
  · cases flag <;> rfl

/-- The walk down ends at a node that has the flag. There it is due to an edge further up, which
has handed the flag to everything below the node already. -/
theorem Flagged.pushDown {n : Node} (h : n.Flagged explicit perspective) (flag : InheritedFlag) :
    (n.pushDown flag).Flagged (explicit || flag = .explicitCoords)
      (perspective || flag = .netPerspective) := by
  induction n generalizing explicit perspective with
  | mk data slots ih =>
    obtain ⟨hflags, hparents, hchildren⟩ := flagged_iff.mp h
    simp only [Node.data, Node.slots] at hflags hparents hchildren
    simp only [Node.pushDown]
    split
    · rename_i hset
      cases flag with
      | explicitCoords =>
        have hexplicit : explicit = true := hflags.explicit.symm.trans hset
        subst hexplicit
        simpa using h
      | netPerspective =>
        have hperspective : perspective = true := hflags.perspective.symm.trans hset
        subst hperspective
        simpa using h
    · rw [pushDownSlots_eq_map]
      refine .mk ?_ ?_ ?_
      · rw [reports_map fun child _ => report_pushDown flag child]
        obtain ⟨hdirect, hindirect, hexplicit, hperspective, hdestination, hfragCoord⟩ := hflags
        cases flag <;>
          exact ⟨hdirect, hindirect, by simp [InheritedFlag.set, hexplicit],
            by simp [InheritedFlag.set, hperspective], hdestination, hfragCoord⟩
      · intro child' hchild'
        obtain ⟨child, hchild, rfl⟩ := mem_map_slots.mp hchild'
        rw [parent_pushDown]
        exact hparents child hchild
      · intro child' hchild'
        obtain ⟨child, hchild, rfl⟩ := mem_map_slots.mp hchild'
        have hpushed := ih child hchild (hchildren child hchild)
        simp only [sampling_pushDown, Bool.or_right_comm] at hpushed ⊢
        exact hpushed

end

/-- A fresh tree with exact flags. -/
def Grown (n : Node) : Prop := n.isFresh ∧ n.Flagged false false

/-- Sampling a child hands down to it what the edge says. -/
theorem Flagged.sampled {n : Node} (h : n.Flagged false false) (sampling : Sampling) :
    (n.sampled sampling).Flagged sampling.isExplicit sampling.hasPerspective := by
  obtain ⟨data, slots⟩ := n
  obtain ⟨hflags, hparents, hchildren⟩ := flagged_iff.mp h
  have hsampled : (Node.mk { data with sampling } slots).Flagged false false :=
    .mk ⟨hflags.direct, hflags.indirect, hflags.explicit, hflags.perspective, hflags.destination,
      hflags.fragCoord⟩ hparents hchildren
  have hexplicit := hsampled.pushDown .explicitCoords
  simp only [Node.sampled]
  cases sampling.isExplicit <;> cases sampling.hasPerspective
  · exact hsampled
  · simpa using hsampled.pushDown .netPerspective
  · simpa using hexplicit
  · simpa using hexplicit.pushDown .netPerspective

/-- Sampling a node records how, and then hands down a flag or two. -/
theorem sampled_of_resampled {P : Node → Prop} (hpush : ∀ m flag, P m → P (m.pushDown flag))
    {n : Node} {sampling : Sampling} (h : P (n.resampled sampling)) : P (n.sampled sampling) := by
  obtain ⟨data, slots⟩ := n
  simp only [Node.sampled]
  split <;> split
  · exact hpush _ _ (hpush _ _ h)
  · exact hpush _ _ h
  · exact hpush _ _ h
  · exact h

theorem sampling_sampled (sampling : Sampling) (n : Node) :
    (n.sampled sampling).sampling = sampling := by
  cases n
  simp only [sampled]
  split <;> split <;> simp

theorem Flagged.withParent {n : Node} {explicit perspective : Bool}
    (h : n.Flagged explicit perspective) (parent : NodeId) :
    (n.withParent parent).Flagged explicit perspective := by
  obtain ⟨data, slots⟩ := n
  obtain ⟨hflags, hparents, hchildren⟩ := flagged_iff.mp h
  exact .mk ⟨hflags.direct, hflags.indirect, hflags.explicit, hflags.perspective,
    hflags.destination, hflags.fragCoord⟩ hparents hchildren

/-- An absent child adds a slot and no flags. -/
theorem Flagged.attached_none {n : Node} {explicit perspective : Bool}
    (h : n.Flagged explicit perspective) (sampling : Sampling) :
    (n.attached none sampling).Flagged explicit perspective := by
  obtain ⟨hflags, hparents, hchildren⟩ := flagged_iff.mp h
  have hmem : ∀ child, some child ∈ n.slots ++ [none] → some child ∈ n.slots := by simp
  refine .mk ?_ (fun c hc => hparents c (hmem c hc)) (fun c hc => hchildren c (hmem c hc))
  rw [reports_append]
  simpa using hflags

/-- A child that is attached changes the flags of both trees as it should. -/
theorem Flagged.attached_some {n child : Node} (hn : n.Flagged false false)
    (hchild : child.Flagged false false) (sampling : Sampling) :
    (n.attached (some child) sampling).Flagged false false := by
  obtain ⟨hflags, hparents, hchildren⟩ := flagged_iff.mp hn
  have hsampled := hchild.sampled sampling
  have hsampling := sampling_sampled sampling child
  simp only [attached]
  generalize child.sampled sampling = c at hsampled hsampling ⊢
  have hexplicit : c.flags.explicitCoords = sampling.isExplicit :=
    (flagged_iff.mp hsampled).1.explicit
  have hreport : (c.withParent n.id).report = ⟨sampling.isExplicit, c.usesCoords,
      c.flags.readsDestination, c.capabilities.fragCoord⟩ := by
    rw [report, sampling_withParent, hsampling]
    cases c
    rfl
  refine .mk ?_ ?_ ?_
  · rw [reports_append, Option.map_some, hreport]
    obtain ⟨hdirect, hindirect, hexplicit', hperspective, hdestination, hfragCoord⟩ := hflags
    refine ⟨hdirect, ?_, hexplicit', hperspective, ?_, ?_⟩
    · simp [learnFrom, hindirect, hexplicit]
    · simp [learnFrom, hdestination, Bool.or_assoc]
    · simp [learnFrom, hfragCoord, Capabilities.union, Bool.or_assoc]
  · intro c' hc'
    rcases List.mem_append.mp hc' with hc' | hc'
    · exact hparents c' hc'
    · cases List.mem_singleton.mp hc'
      cases c
      rfl
  · intro c' hc'
    rcases List.mem_append.mp hc' with hc' | hc'
    · exact hchildren c' hc'
    · cases List.mem_singleton.mp hc'
      rw [sampling_withParent, hsampling]
      exact hsampled.withParent n.id

/-- A tree that grows has exact flags at every moment. -/
theorem grows_grown : Grows Grown where
  leaf id kind optimizations := by
    refine ⟨isFresh_leaf _ _ _, .mk ⟨rfl, rfl, rfl, rfl, ?_, ?_⟩ ?_ ?_⟩
    · exact (Bool.or_false _).symm
    · exact (Bool.or_false _).symm
    · exact fun _ h => (by cases h)
    · exact fun _ h => (by cases h)
  attached := by
    intro n m child sampling hn hchild h
    obtain ⟨_, rfl⟩ := withChild_eq_ok_iff.mp h
    refine ⟨by rw [isFresh_attached]; exact hn.1, ?_⟩
    cases child with
    | none => exact hn.2.attached_none sampling
    | some c => exact hn.2.attached_some (hchild c rfl).2 sampling

section

variable {explicit perspective : Bool} {root n m : Node} {path : Path}

/-- The edges of the path to a node decide which flags it has from above. -/
theorem Flagged.at? (h : root.Flagged explicit perspective) (hn : root.at? path = some n) :
    n.Flagged (explicit || (edges path root).any Sampling.isExplicit)
      (perspective || (edges path root).any Sampling.hasPerspective) := by
  induction path generalizing root explicit perspective with
  | nil =>
    cases hn
    simpa [edges] using h
  | cons i path ih =>
    obtain ⟨child, hchild, hn⟩ := at?_cons_eq_some.mp hn
    obtain ⟨_, _, hchildren⟩ := flagged_iff.mp h
    have hflagged := ih (hchildren child (mem_slots_of_child? hchild)) hn
    rw [edges_cons hchild]
    simpa [Bool.or_assoc] using hflagged

/-- Every node below a root has been attached. -/
theorem Flagged.isSome_parent_at? {i : Nat} (h : root.Flagged explicit perspective)
    (hn : root.at? (i :: path) = some n) : n.parent.isSome := by
  induction path generalizing root i explicit perspective with
  | nil =>
    obtain ⟨child, hchild, hn⟩ := at?_cons_eq_some.mp hn
    cases hn
    exact (flagged_iff.mp h).2.1 n (mem_slots_of_child? hchild)
  | cons j path ih =>
    obtain ⟨child, hchild, hn⟩ := at?_cons_eq_some.mp hn
    exact ih ((flagged_iff.mp h).2.2 child (mem_slots_of_child? hchild)) hn

theorem reports_set {i : Nat} {child new : Node} (hchild : n.child? i = some child)
    (h : new.report = child.report) : reports (n.slots.set i (some new)) = reports n.slots := by
  rw [reports, map_set_slots hchild h, reports]

/-- A node is replaced by one that has the same data but for the kind. -/
theorem data_replaceAt (hn : root.at? path = some n) (hm : m.data = { n.data with kind := m.kind }) :
    (replaceAt m path root).data = { root.data with kind := (replaceAt m path root).kind } := by
  cases path with
  | nil =>
    cases hn
    exact hm
  | cons i path =>
    obtain ⟨child, hchild, _⟩ := at?_cons_eq_some.mp hn
    rw [replaceAt_cons hchild]
    rfl

/-- A change that leaves everything but the kind of a node alone leaves the flags exact. -/
theorem Flagged.replaceAt (h : root.Flagged explicit perspective) (hn : root.at? path = some n)
    (hm : m.data = { n.data with kind := m.kind })
    (hflagged : ∀ explicit perspective, n.Flagged explicit perspective →
      m.Flagged explicit perspective) :
    (Node.replaceAt m path root).Flagged explicit perspective := by
  induction path generalizing root explicit perspective with
  | nil =>
    cases hn
    exact hflagged _ _ h
  | cons i path ih =>
    obtain ⟨child, hchild, hn⟩ := at?_cons_eq_some.mp hn
    obtain ⟨hflags, hparents, hchildren⟩ := flagged_iff.mp h
    have hmem := mem_slots_of_child? hchild
    have hnew := ih (hchildren child hmem) hn
    rw [replaceAt_cons hchild]
    have hdata := data_replaceAt hn hm
    -- The parent sees nothing of the change.
    generalize Node.replaceAt m path child = new at hnew hdata
    have hreport : new.report = child.report := by
      simp only [report, usesCoords, sampling, flags, capabilities, hdata]
    have hsampling : new.sampling = child.sampling := by simp only [sampling, hdata]
    have hparent : new.parent = child.parent := by simp only [parent, hdata]
    refine .mk ?_ ?_ ?_
    · rw [reports_set hchild hreport]
      exact hflags
    · intro c hc
      rcases List.mem_or_eq_of_mem_set hc with hc | hc
      · exact hparents c hc
      · cases hc
        rw [hparent]
        exact hparents child hmem
    · intro c hc
      rcases List.mem_or_eq_of_mem_set hc with hc | hc
      · exact hchildren c hc
      · cases hc
        rw [hsampling]
        exact hnew

theorem Grown.replaceAt (h : root.Grown) (hn : root.at? path = some n)
    (hm : m.data = { n.data with kind := m.kind })
    (hflagged : ∀ explicit perspective, n.Flagged explicit perspective →
      m.Flagged explicit perspective) : (Node.replaceAt m path root).Grown := by
  refine ⟨?_, h.2.replaceAt hn hm hflagged⟩
  have hfresh := h.1
  simp only [isFresh, parent, sampling, flags] at hfresh ⊢
  rw [data_replaceAt hn hm]
  exact hfresh

/-- Only a color takes another color, and only one of the same opacity. -/
theorem recolor_eq_ok {c : Color Single} (h : n.recolor c = .ok m) :
    ∃ current, n.kind = .color current ∧ current.isOpaque = c.isOpaque ∧
      m = mk { n.data with kind := .color c } n.slots := by
  unfold recolor at h
  split at h
  · rename_i current hkind
    split at h
    · rename_i hopaque
      cases h
      exact ⟨current, hkind, hopaque, rfl⟩
    · cases h
  · cases h

/-- Another color in the place of a color changes no flag. -/
theorem Flagged.recolor {c : Color Single} (h : n.Flagged explicit perspective)
    (hm : n.recolor c = .ok m) : m.Flagged explicit perspective := by
  obtain ⟨current, hkind, _, rfl⟩ := recolor_eq_ok hm
  obtain ⟨⟨hdirect, hindirect, hexplicit, hperspective, hdestination, hfragCoord⟩, hparents,
    hchildren⟩ := flagged_iff.mp h
  rw [show n.data.kind = .color current from hkind] at hdirect hdestination hfragCoord
  exact .mk ⟨hdirect, hindirect, hexplicit, hperspective, hdestination, hfragCoord⟩ hparents
    hchildren

end

end PixelEffect.Node
