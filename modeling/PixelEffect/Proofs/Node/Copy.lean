import PixelEffect.Proofs.Key.Equality
import PixelEffect.Proofs.Node.Blueprint
import PixelEffect.Proofs.Node.Everywhere
import PixelEffect.Proofs.Pool.Flags

namespace PixelEffect

namespace Node

open Build

/-- A new node is fresh, and a node that has been given children still is. -/
theorem grows_fresh : Grows (fun n => n.isFresh) where
  leaf := isFresh_leaf
  attached := by
    intro n m child sampling hn _ h
    obtain ⟨_, rfl⟩ := withChild_eq_ok_iff.mp h
    rw [isFresh_attached]
    exact hn

/-- Attaching succeeds on fresh nodes. -/
theorem succeeds_attach {n : Node} {child : Option Node} {sampling : Sampling} (hn : n.isFresh)
    (hchild : ∀ c, child = some c → c.isFresh) : Succeeds (n.attach child sampling) :=
  fun id => ⟨_, _, run_attach id hn hchild⟩

/-- The children of a copy are fresh when they are attached to it. -/
theorem succeeds_cloneSlots {slots : List (Option Node)}
    (hslots : ∀ child, some child ∈ slots → Succeeds child.clone) {copy : Node}
    (hcopy : copy.isFresh) : Succeeds (cloneSlots slots copy) := by
  induction slots generalizing copy with
  | nil => exact .pure copy
  | cons slot rest ih =>
    have ih : ∀ {copy : Node}, copy.isFresh → Succeeds (cloneSlots rest copy) :=
      ih fun child hchild => hslots child (List.mem_cons_of_mem _ hchild)
    have hnext : ∀ {child : Option Node} {sampling : Sampling}, (∀ c, child = some c → c.isFresh) →
        Succeeds (do cloneSlots rest (← copy.attach child sampling)) := fun hchild =>
      (succeeds_attach hcopy hchild).bind fun hrun => ih (grows_fresh.run_attach hcopy hchild hrun)
    cases slot with
    | none => exact hnext fun _ h => by cases h
    | some child =>
      refine (hslots child List.mem_cons_self).bind fun hrun => hnext ?_
      rintro _ ⟨⟩
      exact grows_fresh.run_clone hrun

/-- Copying breaks no rule, whatever is copied. -/
theorem succeeds_clone (n : Node) : Succeeds n.clone := by
  induction n with
  | mk data slots ih =>
    rw [clone]
    refine Succeeds.bind (fun id => ⟨_, _, run_create ..⟩) fun {id a last} hrun => ?_
    cases hrun
    exact succeeds_cloneSlots ih (isFresh_leaf ..)

theorem child?_blueprint (n : Node) (i : Nat) :
    n.blueprint.child? i = (n.child? i).map blueprint := by
  rw [child?, slots_blueprint, join_getElem?_map]
  rfl

/-- The blueprint of a tree has its nodes in the places of the tree. -/
theorem at?_blueprint (n : Node) (path : Path) :
    n.blueprint.at? path = (n.at? path).map blueprint := by
  induction path generalizing n with
  | nil => rfl
  | cons i path ih =>
    rw [at?, at?, child?_blueprint]
    cases n.child? i with
    | none => rfl
    | some child => exact ih child

theorem edges_blueprint (n : Node) (path : Path) : edges path n.blueprint = edges path n := by
  induction path generalizing n with
  | nil => rfl
  | cons i path ih =>
    rw [edges, edges, child?_blueprint]
    cases n.child? i with
    | none => rfl
    | some child =>
      have hsampling : child.blueprint.sampling = child.sampling := by
        cases child
        rfl
      simp only [Option.map_some, hsampling, ih]

theorem at?_resampled (sampling : Sampling) (n : Node) (path : Path) :
    (n.resampled sampling).at? path =
      (n.at? path).map fun m => if path = [] then m.resampled sampling else m := by
  cases path with
  | nil => rfl
  | cons i path =>
    obtain ⟨data, slots⟩ := n
    simp only [reduceCtorEq, if_false, Option.map_id']
    rfl

section

variable {n m : Node} {sampling : Sampling}

/-- Two trees with one blueprint, up to how they are sampled themselves, have nodes with one
blueprint in the same places. -/
theorem at?_map_blueprint (h : m.blueprint = n.blueprint.resampled sampling) (path : Path) :
    (m.at? path).map blueprint =
      (n.at? path).map fun k =>
        if path = [] then k.blueprint.resampled sampling else k.blueprint := by
  rw [← at?_blueprint, h, at?_resampled, at?_blueprint, Option.map_map]
  rfl

/-- Trees with one blueprint sample their nodes alike. -/
theorem edges_eq_of_blueprint (h : m.blueprint = n.blueprint.resampled sampling) (path : Path) :
    edges path m = edges path n := by
  rw [← edges_blueprint m, h, edges_resampled, edges_blueprint]

/-- Trees with one blueprint have the same kinds in the same places. -/
theorem kinds_eq_of_blueprint (h : m.blueprint = n.blueprint.resampled sampling) (path : Path) :
    (m.at? path).map kind = (n.at? path).map kind := by
  have hkind : ∀ n : Node, n.blueprint.kind = n.kind := by
    rintro ⟨_, _⟩
    rfl
  have hpath := congrArg (Option.map kind) (at?_map_blueprint h path)
  simp only [Option.map_map] at hpath
  rw [funext (f := kind ∘ blueprint) hkind] at hpath
  rw [hpath]
  congr 1
  funext k
  have hresampled : (k.blueprint.resampled sampling).kind = k.blueprint.kind := by
    cases k
    rfl
  simp only [Function.comp_apply]
  split
  · rw [hresampled, hkind]
  · exact hkind k

/-- What can be said of the kinds in one tree can be said of those in the other one. -/
theorem exists_at?_congr {path : Path} {Q : Kind → Prop}
    (h : (m.at? path).map kind = (n.at? path).map kind) :
    (∃ k, m.at? path = some k ∧ Q k.kind) ↔ ∃ k, n.at? path = some k ∧ Q k.kind := by
  have hmap : ∀ node : Node, (∃ k, node.at? path = some k ∧ Q k.kind) ↔
      ∃ kind', (node.at? path).map kind = some kind' ∧ Q kind' := by
    intro node
    simp only [Option.map_eq_some_iff]
    constructor
    · rintro ⟨k, hk, hQ⟩
      exact ⟨_, ⟨k, hk, rfl⟩, hQ⟩
    · rintro ⟨_, ⟨k, hk, rfl⟩, hQ⟩
      exact ⟨k, hk, hQ⟩
  rw [hmap, hmap, h]

/-- The flags that travel up depend on kinds and samplings alone. -/
theorem Flagged.eq_of_blueprint {explicit perspective explicit' perspective' : Bool}
    (hm : m.Flagged explicit perspective) (hn : n.Flagged explicit' perspective')
    (h : m.blueprint = n.blueprint.resampled sampling) :
    m.flags.readsDestination = n.flags.readsDestination ∧
      m.flags.usesCoordsDirectly = n.flags.usesCoordsDirectly ∧
      m.flags.usesCoordsIndirectly = n.flags.usesCoordsIndirectly ∧
      m.capabilities = n.capabilities := by
  have hcontains : ∀ c, m.Contains c ↔ n.Contains c := fun c =>
    exists_congr fun path =>
      exists_at?_congr (Q := fun kind => kind.effectClass = c) (kinds_eq_of_blueprint h path)
  have hkind : m.kind = n.kind := Option.some.inj (kinds_eq_of_blueprint h [])
  refine ⟨?_, ?_, ?_, ?_⟩
  · rw [Bool.eq_iff_iff, hm.readsDestination_iff, hn.readsDestination_iff, hcontains]
  · rw [Bool.eq_iff_iff, hm.usesCoordsDirectly_iff, hn.usesCoordsDirectly_iff, hkind]
  · rw [Bool.eq_iff_iff, hm.usesCoordsIndirectly_iff, hn.usesCoordsIndirectly_iff]
    refine exists_congr fun path => ?_
    rw [edges_eq_of_blueprint h path]
    exact exists_at?_congr (Q := fun kind => path ≠ [] ∧
      (∀ u, u ∈ edges path n → ¬u.isExplicit) ∧ kind.effectClass = .linearGradient)
      (kinds_eq_of_blueprint h path)
  · have hfragCoord : m.capabilities.fragCoord = n.capabilities.fragCoord := by
      rw [Bool.eq_iff_iff, hm.fragCoord_iff, hn.fragCoord_iff, hcontains]
    generalize m.capabilities = a at hfragCoord
    generalize n.capabilities = b at hfragCoord
    cases a
    cases b
    exact congrArg _ hfragCoord

/-- Trees with the same content are alike, given that their nodes say of themselves what their kinds
do about coordinates. -/
theorem bare_eq_of_content (hn : n.Everywhere Declared) (hm : m.Everywhere Declared)
    (h : n.content = m.content) : n.bare = m.bare := by
  induction n generalizing m with
  | mk data slots ih =>
    obtain ⟨hdata, hchildren⟩ := everywhere_iff.mp hn
    obtain ⟨hdata', hchildren'⟩ := everywhere_iff.mp hm
    obtain ⟨hkind, _, hslots⟩ := content_eq_iff.mp h
    refine bare_eq_iff.mpr ⟨hkind, ?_, ?_⟩
    · exact hdata.trans ((congrArg Kind.usesCoords hkind).trans hdata'.symm)
    · obtain ⟨hpresent, hcontents⟩ := map_slots_eq_iff.mp hslots
      refine map_slots_eq_iff.mpr ⟨hpresent, fun i child other hchild hother => ?_⟩
      exact ih child (List.mem_of_getElem? hchild) (hchildren child (List.mem_of_getElem? hchild))
        (hchildren' other (List.mem_of_getElem? hother)) (hcontents i child other hchild hother)

end

end Node

end PixelEffect
