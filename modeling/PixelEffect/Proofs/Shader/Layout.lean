import Mathlib.Algebra.Group.Nat.Defs
import Mathlib.Data.List.Nodup
import PixelEffect.Node.Traversal
import PixelEffect.Proofs.Key.Emission
import PixelEffect.Proofs.Node.Paint

namespace PixelEffect

namespace FunctionName

/-- The names that the counter gives to `count` functions from `first` on. -/
def consecutive (first : UInt32) (count : Nat) : List FunctionName :=
  (List.range count).map fun i => ⟨first + UInt32.ofNat i⟩

@[simp] theorem length_consecutive (first : UInt32) (count : Nat) :
    (consecutive first count).length = count := by
  simp [consecutive]

/-- Numbers that are handed out in two parts go on in between. -/
theorem consecutive_add (first : UInt32) (m n : Nat) :
    consecutive first (m + n) =
      consecutive first m ++ consecutive (first + UInt32.ofNat m) n := by
  simp only [consecutive, List.range_add, List.map_append, List.map_map]
  congr 2
  funext i
  simp [UInt32.ofNat_add, UInt32.add_assoc]

theorem consecutive_succ (first : UInt32) (count : Nat) :
    consecutive first (count + 1) = consecutive first count ++ [⟨first + UInt32.ofNat count⟩] := by
  simp [consecutive, List.range_succ]

/-- The name at a place has the number of the place. -/
theorem getElem?_consecutive (first : UInt32) {count i : Nat} (h : i < count) :
    (consecutive first count)[i]? = some ⟨first + UInt32.ofNat i⟩ := by
  rw [consecutive, List.getElem?_map, List.getElem?_range h]
  rfl

/-- The counter comes back to a number only after `2 ^ 32` functions. -/
theorem nodup_consecutive (first : UInt32) {count : Nat} (h : count ≤ 2 ^ 32) :
    (consecutive first count).Nodup := by
  refine List.Nodup.map_on (fun i hi j hj heq => ?_) List.nodup_range
  have hnumber := congrArg UInt32.toNat (UInt32.add_right_inj first |>.mp (mk.inj heq))
  rw [UInt32.toNat_ofNat', UInt32.toNat_ofNat'] at hnumber
  rw [List.mem_range] at hi hj
  omega

/-- Behind the last number names are handed out again. -/
theorem not_nodup_consecutive (first : UInt32) {count : Nat} (h : 2 ^ 32 < count) :
    ¬ (consecutive first count).Nodup := by
  intro hnodup
  have hzero := getElem?_consecutive first (Nat.zero_lt_of_lt h)
  have hagain := getElem?_consecutive first h
  have hlength : 0 < (consecutive first count).length := by
    rw [length_consecutive]
    exact Nat.zero_lt_of_lt h
  exact absurd ((List.getElem?_inj hlength hnodup).mp (hzero.trans hagain.symm)) (by decide)

end FunctionName

namespace Shader

/-- A node as emission sees it: the function that it gets, and the functions of its operands. -/
structure Site where
  function : FunctionName
  kind : Kind
  operands : List (Option FunctionName)

namespace Site

def generated (s : Site) : GeneratedFunction := ⟨s.function, body s.kind s.function s.operands⟩

def uniforms (s : Site) : List UniformName := s.kind.uniforms.map fun role => ⟨s.function, role⟩

end Site

/-- The builder with the functions and uniforms of some sites added. -/
def Builder.extend (b : Builder) (sites : List Site) : Builder :=
  ⟨b.functions ++ sites.map Site.generated, b.uniforms ++ sites.flatMap Site.uniforms,
    b.next + UInt32.ofNat sites.length⟩

namespace Builder

@[simp] theorem extend_nil (b : Builder) : b.extend [] = b := by
  simp [extend]

/-- Functions are appended in order. -/
theorem extend_append (b : Builder) (xs ys : List Site) :
    b.extend (xs ++ ys) = (b.extend xs).extend ys := by
  simp [extend, UInt32.ofNat_add, UInt32.add_assoc]

@[simp] theorem next_extend (b : Builder) (sites : List Site) :
    (b.extend sites).next = b.next + UInt32.ofNat sites.length := rfl

/-- A function is added for one site. -/
theorem add_eq_extend (b : Builder) (kind : Kind) (operands : List (Option FunctionName)) :
    b.add kind operands = b.extend [⟨b.nextName, kind, operands⟩] := by
  simp [add, extend, Site.generated, Site.uniforms]

end Builder

end Shader

namespace Node

open Shader

/-- The function that the root of a tree gets if those below it start with the number `first`. -/
def functionFrom (first : UInt32) (n : Node) : FunctionName :=
  ⟨first + UInt32.ofNat (sizeSlots n.slots)⟩

/-- The functions of the children in some slots. -/
def functionsOfSlots (first : UInt32) : List (Option Node) → List (Option FunctionName)
  | [] => []
  | none :: rest => none :: functionsOfSlots first rest
  | some child :: rest =>
    some (child.functionFrom first) :: functionsOfSlots (first + UInt32.ofNat child.size) rest

mutual

/-- The sites of a tree in the order of their functions. -/
def sites (first : UInt32) : Node → List Site
  | mk data slots =>
    sitesOfSlots first slots
      ++ [⟨⟨first + UInt32.ofNat (sizeSlots slots)⟩, data.kind, functionsOfSlots first slots⟩]

def sitesOfSlots (first : UInt32) : List (Option Node) → List Site
  | [] => []
  | none :: rest => sitesOfSlots first rest
  | some child :: rest =>
    sites first child ++ sitesOfSlots (first + UInt32.ofNat child.size) rest

end

mutual

/-- The outline of a tree that has been emitted. -/
def laidOut (first : UInt32) : Node → Outline
  | mk data slots =>
    let f : FunctionName := ⟨first + UInt32.ofNat (sizeSlots slots)⟩
    .mk ⟨data.kind.effectClass, some f, data.kind.uniforms.map fun role => ⟨f, role⟩⟩
      (laidOutSlots first slots)

def laidOutSlots (first : UInt32) : List (Option Node) → List (Option Outline)
  | [] => []
  | none :: rest => none :: laidOutSlots first rest
  | some child :: rest =>
    some (laidOut first child) :: laidOutSlots (first + UInt32.ofNat child.size) rest

end

/-- The site of the root of a tree. -/
def site (first : UInt32) (n : Node) : Site :=
  ⟨n.functionFrom first, n.kind, functionsOfSlots first n.slots⟩

/-- The sites below a node come before its own. -/
theorem sites_eq (first : UInt32) (n : Node) :
    n.sites first = sitesOfSlots first n.slots ++ [n.site first] := by
  cases n
  rfl

theorem sites_leaf (first : UInt32) (id : NodeId) (kind : Kind) (optimizations : Optimizations) :
    (leaf id kind optimizations).sites first = [⟨⟨first⟩, kind, []⟩] := by
  show [Site.mk ⟨first + 0⟩ kind []] = _
  rw [UInt32.add_zero]

theorem size_eq (n : Node) : n.size = sizeSlots n.slots + 1 := by
  cases n
  rfl

theorem functions_sitesOfSlots {slots : List (Option Node)}
    (h : ∀ child, some child ∈ slots → ∀ first,
      (child.sites first).map Site.function = FunctionName.consecutive first child.size)
    (first : UInt32) : (sitesOfSlots first slots).map Site.function =
      FunctionName.consecutive first (sizeSlots slots) := by
  induction slots generalizing first with
  | nil => rfl
  | cons slot rest ih =>
    have hrest := ih fun child hchild => h child (List.mem_cons_of_mem _ hchild)
    cases slot with
    | none => exact hrest first
    | some child =>
      rw [sitesOfSlots, List.map_append, h child List.mem_cons_self, hrest, sizeSlots,
        FunctionName.consecutive_add]

/-- The functions of a tree are numbered in post-order. -/
theorem functions_sites (first : UInt32) (n : Node) :
    (n.sites first).map Site.function = FunctionName.consecutive first n.size := by
  induction n generalizing first with
  | mk data slots ih =>
    rw [sites, List.map_append, functions_sitesOfSlots ih, size, FunctionName.consecutive_succ]
    rfl

@[simp] theorem length_sites (first : UInt32) (n : Node) : (n.sites first).length = n.size := by
  simpa using congrArg List.length (functions_sites first n)

/-- No two sites of a tree have the same function, unless the counter starts again. -/
theorem nodup_functions_sites (n : Node) (first : UInt32) (hsize : n.size < 2 ^ 32) :
    ((n.sites first).map Site.function).Nodup := by
  rw [functions_sites]
  exact FunctionName.nodup_consecutive first (Nat.le_of_lt hsize)

end Node

namespace Shader.Outline

open Node

mutual

/-- The outline without what an emission leaves in it. -/
def blank : Outline → Outline
  | mk entry slots => mk ⟨entry.effectClass, none, []⟩ (blankSlots slots)

def blankSlots : List (Option Outline) → List (Option Outline)
  | [] => []
  | none :: rest => none :: blankSlots rest
  | some o :: rest => some (blank o) :: blankSlots rest

end

theorem blankSlots_eq_map (outlines : List (Option Outline)) :
    blankSlots outlines = outlines.map (Option.map blank) := by
  induction outlines with
  | nil => rfl
  | cons o rest ih => cases o <;> simp [blankSlots, ih]

theorem ofSlots_eq_map (slots : List (Option Node)) :
    ofSlots slots = slots.map (Option.map ofNode) := by
  induction slots with
  | nil => rfl
  | cons slot rest ih => cases slot <;> simp [ofSlots, ih]

/-- An outline has the shape of a tree. -/
def Fits (o : Outline) (n : Node) : Prop := o.blank = ofNode n

/-- The same slots are empty, and the outlines in the other ones fit. -/
def FitsSlots (outlines : List (Option Outline)) (slots : List (Option Node)) : Prop :=
  blankSlots outlines = ofSlots slots

/-- A tree fits an outline if its root does and the trees in its slots do. -/
theorem fits_iff {entry : Entry} {outlines : List (Option Outline)} {n : Node} :
    (mk entry outlines).Fits n ↔
      entry.effectClass = n.kind.effectClass ∧ FitsSlots outlines n.slots := by
  obtain ⟨data, slots⟩ := n
  simp [Fits, FitsSlots, blank, ofNode, kind, Node.data, Node.slots]

theorem fitsSlots_nil {outlines : List (Option Outline)} :
    FitsSlots outlines [] ↔ outlines = [] := by
  obtain _ | ⟨_ | _, _⟩ := outlines <;> simp [FitsSlots, blankSlots, ofSlots]

theorem fitsSlots_cons_none {outlines : List (Option Outline)} {slots : List (Option Node)} :
    FitsSlots outlines (none :: slots) ↔
      ∃ rest, outlines = none :: rest ∧ FitsSlots rest slots := by
  obtain _ | ⟨_ | _, _⟩ := outlines <;> simp [FitsSlots, blankSlots, ofSlots]

theorem fitsSlots_cons_some {outlines : List (Option Outline)} {child : Node}
    {slots : List (Option Node)} :
    FitsSlots outlines (some child :: slots) ↔
      ∃ o rest, outlines = some o :: rest ∧ o.Fits child ∧ FitsSlots rest slots := by
  obtain _ | ⟨_ | _, _⟩ := outlines <;>
    simp [FitsSlots, Fits, blankSlots, ofSlots, and_assoc, exists_and_left]

theorem FitsSlots.length_eq {outlines : List (Option Outline)} {slots : List (Option Node)}
    (h : FitsSlots outlines slots) : outlines.length = slots.length := by
  induction slots generalizing outlines with
  | nil => rw [fitsSlots_nil.mp h]; rfl
  | cons slot slots ih =>
    cases slot with
    | none =>
      obtain ⟨rest, rfl, hrest⟩ := fitsSlots_cons_none.mp h
      exact congrArg (· + 1) (ih hrest)
    | some child =>
      obtain ⟨o, rest, rfl, _, hrest⟩ := fitsSlots_cons_some.mp h
      exact congrArg (· + 1) (ih hrest)

/-- Every tree fits the outline that is made for it. -/
theorem fits_ofNode (n : Node) : (ofNode n).Fits n := by
  induction n with
  | mk data slots ih =>
    rw [ofNode, fits_iff]
    refine ⟨rfl, ?_⟩
    show FitsSlots (ofSlots slots) slots
    induction slots with
    | nil => rfl
    | cons slot rest ihRest =>
      have ihRest := ihRest fun child hchild => ih child (List.mem_cons_of_mem _ hchild)
      cases slot with
      | none => exact fitsSlots_cons_none.mpr ⟨_, rfl, ihRest⟩
      | some child =>
        exact fitsSlots_cons_some.mpr ⟨_, _, rfl, ih child List.mem_cons_self, ihRest⟩

theorem fitsSlots_laidOutSlots {slots : List (Option Node)}
    (h : ∀ child, some child ∈ slots → ∀ first, (child.laidOut first).Fits child) (first : UInt32) :
    FitsSlots (laidOutSlots first slots) slots := by
  induction slots generalizing first with
  | nil => rfl
  | cons slot rest ih =>
    have hrest := ih fun child hchild => h child (List.mem_cons_of_mem _ hchild)
    cases slot with
    | none => exact fitsSlots_cons_none.mpr ⟨_, rfl, hrest first⟩
    | some child =>
      exact fitsSlots_cons_some.mpr ⟨_, _, rfl, h child List.mem_cons_self first, hrest _⟩

/-- A tree that has been emitted fits its outline still. -/
theorem fits_laidOut (first : UInt32) (n : Node) : (n.laidOut first).Fits n := by
  induction n generalizing first with
  | mk data slots ih =>
    rw [laidOut, fits_iff]
    exact ⟨rfl, fitsSlots_laidOutSlots ih first⟩

/-- Where the tree has a child the outline has one that fits. -/
theorem Fits.child {o : Outline} {n child : Node} {i : Nat} (h : o.Fits n)
    (hchild : n.child? i = some child) : ∃ o', o.slots[i]?.join = some o' ∧ o'.Fits child := by
  obtain ⟨entry, outlines⟩ := o
  have hslots : blankSlots outlines = ofSlots n.slots := (fits_iff.mp h).2
  rw [blankSlots_eq_map, ofSlots_eq_map] at hslots
  have hblank := congrArg (fun slots => slots[i]?.join) hslots
  simp only [join_getElem?_map] at hblank
  rw [child?] at hchild
  rw [hchild] at hblank
  exact Option.map_eq_some_iff.mp hblank

/-- A node fits an entry if effects and numbers of slots agree. -/
theorem checkFits_eq_ok {entry : Entry} {count : Nat} {n : Node} :
    checkFits entry count n = .ok () ↔
      entry.effectClass = n.kind.effectClass ∧ count = n.slots.length := by
  unfold checkFits
  split
  · simp_all
  · split <;> simp_all

/-- Emitting a tree from an outline that fits appends the sites of the tree. The number that they
start with is the first free one. -/
theorem emit_of_fits {o : Outline} {n : Node} (h : o.Fits n) (b : Builder) :
    emit o n b =
      ⟨n.laidOut b.next, b.extend (n.sites b.next), .ok (n.functionFrom b.next)⟩ := by
  induction n generalizing o b with
  | mk data slots ih =>
    have hslots : ∀ name i outlines (b : Builder), FitsSlots outlines slots →
        emitSlots name i outlines slots b =
          ⟨laidOutSlots b.next slots, b.extend (sitesOfSlots b.next slots),
            .ok (functionsOfSlots b.next slots)⟩ := by
      clear h
      induction slots with
      | nil =>
        intro name i outlines b h
        obtain rfl := fitsSlots_nil.mp h
        simp [emitSlots, laidOutSlots, sitesOfSlots, functionsOfSlots]
      | cons slot rest ihRest =>
        have ihRest := ihRest fun child hchild => ih child (List.mem_cons_of_mem _ hchild)
        intro name i outlines b h
        cases slot with
        | none =>
          obtain ⟨outlines, rfl, hrest⟩ := fitsSlots_cons_none.mp h
          rw [emitSlots, ihRest _ _ _ _ hrest]
          rfl
        | some child =>
          obtain ⟨o, outlines, rfl, hchild, hrest⟩ := fitsSlots_cons_some.mp h
          simp only [emitSlots, ih child List.mem_cons_self hchild, ihRest _ _ _ _ hrest,
            Builder.next_extend, length_sites, ← Builder.extend_append]
          rfl
    obtain ⟨entry, outlines⟩ := o
    obtain ⟨hclass, houtlines⟩ := fits_iff.mp h
    have hcheck : checkFits entry outlines.length (.mk data slots) = .ok () :=
      checkFits_eq_ok.mpr ⟨hclass, houtlines.length_eq⟩
    have hlength : (sitesOfSlots b.next slots).length = sizeSlots slots := by
      have hsize := length_sites b.next (.mk data slots)
      rw [sites_eq, List.length_append, size_eq] at hsize
      exact Nat.succ.inj hsize
    have hname : (b.extend (sitesOfSlots b.next slots)).nextName =
        ⟨b.next + UInt32.ofNat (sizeSlots slots)⟩ := by
      rw [Builder.nextName, Builder.next_extend, hlength]
    simp only [emit, hcheck, Node.slots, hslots _ _ _ _ houtlines, Builder.add_eq_extend, hname,
      ← Builder.extend_append]
    simp only [kind, Node.data] at hclass
    simp only [laidOut, sites, kind, Node.data, hclass]
    rfl

/-- The outline at the end of a path. -/
def at? : Path → Outline → Option Outline
  | [], o => some o
  | i :: path, o => o.slots[i]?.join.bind (at? path)

end Shader.Outline

namespace Node

open Shader

theorem slots_laidOut (first : UInt32) (n : Node) :
    (n.laidOut first).slots = laidOutSlots first n.slots := by
  cases n
  rfl

theorem function_laidOut (first : UInt32) (n : Node) :
    (n.laidOut first).entry.function = some (n.functionFrom first) := by
  cases n
  rfl

/-- The sites of a child are some of those of all children, and its outline is laid out for them. -/
theorem laidOutSlots_child {slots : List (Option Node)} {i : Nat} {child : Node}
    (h : slots[i]?.join = some child) (first : UInt32) :
    ∃ k, (laidOutSlots first slots)[i]?.join = some (child.laidOut k) ∧
      child.sites k ⊆ sitesOfSlots first slots := by
  induction slots generalizing first i with
  | nil => cases h
  | cons slot rest ih =>
    cases i with
    | zero =>
      obtain rfl : slot = some child := h
      exact ⟨first, rfl, List.subset_append_left _ _⟩
    | succ i =>
      cases slot with
      | none => exact ih h first
      | some other =>
        obtain ⟨k, hk, hsites⟩ := ih h (first + UInt32.ofNat other.size)
        exact ⟨k, hk, List.subset_append_of_subset_right _ hsites⟩

/-- Each site below a node is one of a child. -/
theorem exists_child_of_mem_sitesOfSlots {slots : List (Option Node)} {first : UInt32} {s : Site}
    (h : s ∈ sitesOfSlots first slots) :
    ∃ (i : Nat) (child : Node) (k : UInt32), slots[i]?.join = some child ∧
      (laidOutSlots first slots)[i]?.join = some (child.laidOut k) ∧ s ∈ child.sites k := by
  induction slots generalizing first with
  | nil => cases h
  | cons slot rest ih =>
    cases slot with
    | none =>
      obtain ⟨i, child, k, hchild⟩ := ih h
      exact ⟨i + 1, child, k, hchild⟩
    | some other =>
      rcases List.mem_append.mp h with h | h
      · exact ⟨0, other, first, rfl, rfl, h⟩
      · obtain ⟨i, child, k, hchild⟩ := ih h
        exact ⟨i + 1, child, k, hchild⟩

/-- Every node of a tree has its place in the outline, and its sites among those of the tree. -/
theorem at?_laidOut {n m : Node} {path : Path} (h : n.at? path = some m) (first : UInt32) :
    ∃ k, (n.laidOut first).at? path = some (m.laidOut k) ∧ m.sites k ⊆ n.sites first := by
  induction path generalizing n first with
  | nil =>
    cases h
    exact ⟨first, rfl, fun _ h => h⟩
  | cons i path ih =>
    obtain ⟨child, hchild, h⟩ := at?_cons_eq_some.mp h
    obtain ⟨k, hk, hsites⟩ := laidOutSlots_child hchild first
    obtain ⟨k', hk', hsites'⟩ := ih h k
    refine ⟨k', ?_, fun s hs => ?_⟩
    · rw [Outline.at?, slots_laidOut, hk]
      exact hk'
    · rw [sites_eq]
      exact List.mem_append_left _ (hsites (hsites' hs))

/-- Every site is that of a node. -/
theorem exists_at?_of_mem_sites {n : Node} {first : UInt32} {s : Site} (h : s ∈ n.sites first) :
    ∃ (path : Path) (m : Node) (k : UInt32), n.at? path = some m ∧
      (n.laidOut first).at? path = some (m.laidOut k) ∧ s = m.site k := by
  induction n generalizing first with
  | mk data slots ih =>
    rw [sites_eq] at h
    rcases List.mem_append.mp h with h | h
    · obtain ⟨i, child, k, hchild, hoff, h⟩ := exists_child_of_mem_sitesOfSlots h
      obtain ⟨path, m, k', hm, hoff', hs⟩ :=
        ih child (List.mem_of_getElem? (Option.join_eq_some_iff.mp hchild)) h
      refine ⟨i :: path, m, k', at?_cons_eq_some.mpr ⟨child, hchild, hm⟩, ?_, hs⟩
      rw [Outline.at?, slots_laidOut, hoff]
      exact hoff'
    · exact ⟨[], _, first, rfl, rfl, List.mem_singleton.mp h⟩

theorem site_mem_sites (first : UInt32) (n : Node) : n.site first ∈ n.sites first := by
  rw [sites_eq]
  simp

end Node

end PixelEffect
