import PixelEffect.Proofs.Node.Flags

namespace PixelEffect.Node

/-- Every node of the tree that reads the destination has its flag set, and so has every node above
one with the flag. -/
inductive Announced : Node → Prop
  | mk {data : NodeData} {slots : List (Option Node)}
      (hown : data.kind.readsDestination → data.flags.readsDestination)
      (hreports : ∀ child, some child ∈ slots →
        child.flags.readsDestination → data.flags.readsDestination)
      (hchildren : ∀ child, some child ∈ slots → Announced child) : Announced (mk data slots)

/-- A tree announces its reads if its root does and the trees in the slots do. -/
theorem announced_iff {n : Node} :
    n.Announced ↔ (n.kind.readsDestination → n.flags.readsDestination) ∧
      (∀ child, some child ∈ n.slots → child.flags.readsDestination → n.flags.readsDestination) ∧
      ∀ child, some child ∈ n.slots → child.Announced := by
  constructor
  · rintro ⟨hown, hreports, hchildren⟩
    exact ⟨hown, hreports, hchildren⟩
  · obtain ⟨data, slots⟩ := n
    rintro ⟨hown, hreports, hchildren⟩
    exact ⟨hown, hreports, hchildren⟩

/-- A read anywhere in the tree shows at the root. -/
theorem Announced.readsDestination {n : Node} (h : n.Announced)
    (hcontains : n.Contains .destColor) : n.flags.readsDestination := by
  have hreads : ∀ kind : Kind, kind.effectClass = .destColor → kind.readsDestination := by
    intro kind hclass
    cases kind <;> first | rfl | cases hclass
  induction n with
  | mk data slots ih =>
    obtain ⟨hown, hreports, hchildren⟩ := announced_iff.mp h
    rcases contains_iff.mp hcontains with hclass | ⟨child, hchild, hcontains⟩
    · exact hown (hreads _ hclass)
    · exact hreports child hchild (ih child hchild (hchildren child hchild) hcontains)

/-- Every part of such a tree announces its own reads. -/
theorem Announced.at? {root n : Node} {path : Path} (h : root.Announced)
    (hn : root.at? path = some n) : n.Announced := by
  induction path generalizing root with
  | nil =>
    cases hn
    exact h
  | cons i path ih =>
    obtain ⟨child, hchild, hn⟩ := at?_cons_eq_some.mp hn
    exact ih ((announced_iff.mp h).2.2 child (mem_slots_of_child? hchild)) hn

theorem readsDestination_eq_of_report {n m : Node} (h : n.report = m.report) :
    n.flags.readsDestination = m.flags.readsDestination := congrArg Report.readsDestination h

@[simp] theorem readsDestination_pushDown (flag : InheritedFlag) (n : Node) :
    (n.pushDown flag).flags.readsDestination = n.flags.readsDestination :=
  readsDestination_eq_of_report (report_pushDown flag n)

@[simp] theorem readsDestination_sampled (sampling : Sampling) (n : Node) :
    (n.sampled sampling).flags.readsDestination = n.flags.readsDestination := by
  cases n
  simp only [sampled]
  split <;> split
  · rw [readsDestination_pushDown, readsDestination_pushDown]
    rfl
  · rw [readsDestination_pushDown]
    rfl
  · rw [readsDestination_pushDown]
    rfl
  · rfl

@[simp] theorem readsDestination_withParent (parent : NodeId) (n : Node) :
    (n.withParent parent).flags.readsDestination = n.flags.readsDestination := by
  cases n
  rfl

/-- Handing down flags does not touch the one for the destination color. -/
theorem Announced.pushDown {n : Node} (h : n.Announced) (flag : InheritedFlag) :
    (n.pushDown flag).Announced := by
  induction n with
  | mk data slots ih =>
    obtain ⟨hown, hreports, hchildren⟩ := announced_iff.mp h
    simp only [Node.pushDown]
    split
    · exact h
    · rw [pushDownSlots_eq_map]
      have hflag : (flag.set data.flags).readsDestination = data.flags.readsDestination := by
        cases flag <;> rfl
      refine .mk ?_ ?_ ?_
      · rw [hflag]
        exact hown
      · intro child' hchild'
        obtain ⟨child, hchild, rfl⟩ := mem_map_slots.mp hchild'
        rw [readsDestination_pushDown, hflag]
        exact hreports child hchild
      · intro child' hchild'
        obtain ⟨child, hchild, rfl⟩ := mem_map_slots.mp hchild'
        exact ih child hchild (hchildren child hchild)

theorem Announced.sampled {n : Node} (h : n.Announced) (sampling : Sampling) :
    (n.sampled sampling).Announced := by
  refine sampled_of_resampled (fun m flag hm => hm.pushDown flag) ?_
  obtain ⟨data, slots⟩ := n
  obtain ⟨hown, hreports, hchildren⟩ := announced_iff.mp h
  exact .mk hown hreports hchildren

theorem Announced.withParent {n : Node} (h : n.Announced) (parent : NodeId) :
    (n.withParent parent).Announced := by
  obtain ⟨data, slots⟩ := n
  obtain ⟨hown, hreports, hchildren⟩ := announced_iff.mp h
  exact .mk hown hreports hchildren

/-- A child announces its reads to the node that it is attached to. -/
theorem Announced.attached {n : Node} {child : Option Node} (hn : n.Announced)
    (hchild : ∀ c, child = some c → c.Announced) (sampling : Sampling) :
    (n.attached child sampling).Announced := by
  obtain ⟨hown, hreports, hchildren⟩ := announced_iff.mp hn
  cases child with
  | none =>
    have hmem : ∀ c, some c ∈ n.slots ++ [none] → some c ∈ n.slots := by simp
    exact .mk hown (fun c hc => hreports c (hmem c hc)) fun c hc => hchildren c (hmem c hc)
  | some child =>
    have hflag : (learnFrom n.data (child.sampled sampling)).flags.readsDestination =
        (n.flags.readsDestination || child.flags.readsDestination) := by
      rw [← readsDestination_sampled sampling child]
      rfl
    have hnew := ((hchild child rfl).sampled sampling).withParent n.id
    refine .mk ?_ ?_ ?_
    · rw [hflag, Bool.or_eq_true]
      exact fun h => .inl (hown h)
    · intro c hc hread
      rw [hflag, Bool.or_eq_true]
      rcases List.mem_append.mp hc with hc | hc
      · exact .inl (hreports c hc hread)
      · cases List.mem_singleton.mp hc
        rw [readsDestination_withParent, readsDestination_sampled] at hread
        exact .inr hread
    · intro c hc
      rcases List.mem_append.mp hc with hc | hc
      · exact hchildren c hc
      · cases List.mem_singleton.mp hc
        exact hnew

theorem announced_leaf (id : NodeId) (kind : Kind) (optimizations : Optimizations) :
    (leaf id kind optimizations).Announced :=
  .mk (fun h => h) (fun _ h => by cases h) fun _ h => by cases h

/-- Reads are announced at every moment while a tree grows. -/
theorem grows_announced : Grows Announced where
  leaf := announced_leaf
  attached := by
    intro n m child sampling hn hchild h
    obtain ⟨_, rfl⟩ := withChild_eq_ok_iff.mp h
    exact hn.attached hchild sampling

/-- Another node in the place of one below the root must not read more than the old one announced,
since nobody above it is told. -/
theorem Announced.replaceAt {root n m : Node} {path : Path} (h : root.Announced)
    (hn : root.at? path = some n) (hm : m.Announced)
    (hflag : path ≠ [] → m.flags.readsDestination → n.flags.readsDestination) :
    (Node.replaceAt m path root).Announced := by
  induction path generalizing root with
  | nil => exact hm
  | cons i path ih =>
    obtain ⟨child, hchild, hn⟩ := at?_cons_eq_some.mp hn
    obtain ⟨hown, hreports, hchildren⟩ := announced_iff.mp h
    have hmem := mem_slots_of_child? hchild
    have hreads := hflag (List.cons_ne_nil i path)
    have hnew := ih (hchildren child hmem) hn fun _ => hreads
    have hreport : (Node.replaceAt m path child).flags.readsDestination →
        child.flags.readsDestination := by
      cases path with
      | nil =>
        cases hn
        exact hreads
      | cons j path =>
        obtain ⟨grandchild, hgrandchild, _⟩ := at?_cons_eq_some.mp hn
        rw [replaceAt_cons hgrandchild]
        exact fun h => h
    rw [replaceAt_cons hchild]
    refine .mk hown ?_ ?_
    · intro c hc hread
      rcases List.mem_or_eq_of_mem_set hc with hc | hc
      · exact hreports c hc hread
      · cases hc
        exact hreports child hmem (hreport hread)
    · intro c hc
      rcases List.mem_or_eq_of_mem_set hc with hc | hc
      · exact hchildren c hc
      · cases hc
        exact hnew

/-- A color reads nothing, whichever it is. -/
theorem Announced.recolor {n m : Node} {c : Color Single} (h : n.Announced)
    (hm : n.recolor c = .ok m) :
    m.Announced ∧ m.flags.readsDestination = n.flags.readsDestination := by
  obtain ⟨current, hkind, _, rfl⟩ := recolor_eq_ok hm
  obtain ⟨_, hreports, hchildren⟩ := announced_iff.mp h
  exact ⟨.mk (fun h => by cases h) hreports hchildren, rfl⟩

end PixelEffect.Node
