import PixelEffect.Proofs.Key.Equality
import PixelEffect.Proofs.Node.Flags

namespace PixelEffect.Node

/-- The node with another kind. -/
def withKind (kind : Kind) (n : Node) : Node := mk { n.data with kind } n.slots

variable {root n m child : Node} {path : Path} {i : Nat} {c : Color Single}

/-- A new color changes the kind of the node, if there is a color of the same opacity to be
replaced. -/
theorem recolor_eq_ok_iff :
    n.recolor c = .ok m ↔ (∃ current, n.kind = .color current ∧ current.isOpaque = c.isOpaque) ∧
      m = n.withKind (.color c) := by
  constructor
  · intro h
    obtain ⟨current, hkind, hopaque, rfl⟩ := recolor_eq_ok h
    exact ⟨⟨current, hkind, hopaque⟩, rfl⟩
  · rintro ⟨⟨current, hkind, hopaque⟩, rfl⟩
    rw [recolor, hkind]
    exact if_pos hopaque

/-- Recoloring somewhere in a tree either recolors the node there or leaves the tree as it is. -/
theorem recolorAt_cases (hn : root.at? path = some n) (c : Color Single) :
    (∃ current, n.kind = .color current ∧ current.isOpaque = c.isOpaque) ∧
        root.recolorAt path c = (replaceAt (n.withKind (.color c)) path root, .ok ()) ∨
      (¬∃ current, n.kind = .color current ∧ current.isOpaque = c.isOpaque) ∧
        ∃ e, root.recolorAt path c = (root, .error e) := by
  cases hm : n.recolor c with
  | ok m =>
    obtain ⟨hcolor, rfl⟩ := recolor_eq_ok_iff.mp hm
    exact .inl ⟨hcolor, by simp only [recolorAt, hn, hm]⟩
  | error e =>
    refine .inr ⟨fun hcolor => ?_, e, by simp only [recolorAt, hn, hm]⟩
    rw [recolor_eq_ok_iff.mpr ⟨hcolor, rfl⟩] at hm
    cases hm

/-- One slot is exchanged, and the other ones keep their children. -/
theorem child?_set (hchild : n.child? i = some child) (new : Node) (j : Nat) :
    (mk n.data (n.slots.set i (some new))).child? j = if j = i then some new else n.child? j := by
  obtain ⟨hi, _⟩ := List.getElem?_eq_some_iff.mp (Option.join_eq_some_iff.mp hchild)
  rw [child?, Node.slots]
  split
  · subst j
    rw [List.getElem?_set_self hi]
    rfl
  · rename_i hne
    rw [List.getElem?_set_ne (Ne.symm hne)]
    rfl

/-- Trees with equal slots have equal nodes below their roots. -/
theorem at?_cons_congr (h : m.slots = n.slots) (i : Nat) (path : Path) :
    m.at? (i :: path) = n.at? (i :: path) := by
  rw [at?, at?, child?, child?, h]

/-- What can be seen of a node without its children shows the change in one place only. -/
theorem at?_replaceAt_withKind {β : Type} (look : Node → β)
    (hlook : ∀ {n m : Node}, n.data = m.data →
      n.slots.map Option.isSome = m.slots.map Option.isSome → look n = look m)
    (hn : root.at? path = some n) (kind : Kind) (q : Path) :
    ((replaceAt (n.withKind kind) path root).at? q).map look =
      (root.at? q).map fun m => look (if q = path then m.withKind kind else m) := by
  induction path generalizing root q with
  | nil =>
    cases hn
    cases q with
    | nil => rfl
    | cons i q =>
      have hsame : (n.withKind kind).at? (i :: q) = n.at? (i :: q) := at?_cons_congr rfl i q
      simp only [replaceAt, hsame, reduceCtorEq, if_false]
  | cons i path ih =>
    obtain ⟨child, hchild, hn⟩ := at?_cons_eq_some.mp hn
    have ih := ih hn
    rw [replaceAt_cons hchild]
    generalize replaceAt (n.withKind kind) path child = new at ih
    cases q with
    | nil =>
      simp only [at?, Option.map_some, reduceCtorEq, if_false]
      refine congrArg some (hlook rfl ?_)
      have hslots : (root.slots.set i (some new)).map (Option.map fun _ => ()) =
          root.slots.map (Option.map fun _ => ()) := map_set_slots hchild rfl
      have hpresent := congrArg (List.map Option.isSome) hslots
      simp only [List.map_map, Function.comp_def, Option.isSome_map] at hpresent
      exact hpresent
    | cons j q =>
      rw [at?, at?, child?_set hchild]
      by_cases hj : j = i
      · subst hj
        rw [if_pos rfl, hchild, Option.bind_some, Option.bind_some, ih q]
        simp only [List.cons.injEq, true_and]
      · simp only [List.cons.injEq, hj, false_and, if_false]

/-- The data of every node stay, but for the kind of the changed one. -/
theorem data_replaceAt_withKind (hn : root.at? path = some n) (kind : Kind) (q : Path) :
    ((replaceAt (n.withKind kind) path root).at? q).map Node.data =
      (root.at? q).map fun m => if q = path then { m.data with kind } else m.data := by
  rw [at?_replaceAt_withKind data (fun h _ => h) hn]
  congr 1
  funext m
  split <;> rfl

/-- The kinds stay, but for that of the changed node. -/
theorem kind_replaceAt_withKind (hn : root.at? path = some n) (kind : Kind) (q : Path) :
    ((replaceAt (n.withKind kind) path root).at? q).map Node.kind =
      (root.at? q).map fun m => if q = path then kind else m.kind := by
  rw [at?_replaceAt_withKind Node.kind (fun h _ => congrArg NodeData.kind h) hn]
  congr 1
  funext m
  split <;> rfl

/-- All slots that were taken stay taken. -/
theorem slots_replaceAt_withKind (hn : root.at? path = some n) (kind : Kind) (q : Path) :
    ((replaceAt (n.withKind kind) path root).at? q).map (fun m => m.slots.map Option.isSome) =
      (root.at? q).map fun m => m.slots.map Option.isSome := by
  rw [at?_replaceAt_withKind (fun m => m.slots.map Option.isSome) (fun _ h => h) hn]
  congr 1
  funext m
  split <;> rfl

/-- Colors are uniforms, and so the generic form stays. -/
theorem generic_withKind_color {current : Color Single} (hkind : n.kind = .color current) :
    (n.withKind (.color c)).generic = n.generic := by
  obtain ⟨⟨_, kind, _, _, _, _, _⟩, slots⟩ := n
  obtain rfl : kind = .color current := hkind
  rfl

/-- The key of a tree says nothing about a color that is a uniform. -/
theorem generic_replaceAt {n m : Node} (hn : root.at? path = some n)
    (hgeneric : m.generic = n.generic) (hsampling : m.sampling = n.sampling) :
    (replaceAt m path root).generic = root.generic ∧
      (replaceAt m path root).sampling = root.sampling := by
  induction path generalizing root with
  | nil =>
    cases hn
    exact ⟨hgeneric, hsampling⟩
  | cons i path ih =>
    obtain ⟨child, hchild, hn⟩ := at?_cons_eq_some.mp hn
    obtain ⟨hchildGeneric, hchildSampling⟩ := ih hn
    rw [replaceAt_cons hchild]
    have hsame : (replaceAt m path child).generic.resampled (replaceAt m path child).sampling =
        child.generic.resampled child.sampling := by
      rw [hchildGeneric, hchildSampling]
    have hslots := map_set_slots (f := fun c => c.generic.resampled c.sampling) hchild hsame
    obtain ⟨data, slots⟩ := root
    simp only [generic, genericSlots_eq_map, Node.data, Node.slots] at hslots ⊢
    exact ⟨by rw [hslots], rfl⟩

end PixelEffect.Node
