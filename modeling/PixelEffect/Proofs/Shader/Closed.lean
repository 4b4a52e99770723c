import Mathlib.Data.List.Perm.Basic
import PixelEffect.Proofs.Effect.Standard
import PixelEffect.Proofs.Pool.Flags
import PixelEffect.Proofs.Shader.BodyUses
import PixelEffect.Proofs.Shader.Feeding
import PixelEffect.Proofs.Shader.SourceText

namespace PixelEffect

open Shader

namespace ShaderSource

/-- Nothing that the text of a program refers to is missing. -/
structure Closed (s : ShaderSource) : Prop where
  /-- The functions are numbered in the order of their definitions. Behind the last number the
  numbers start again. -/
  numbered : ∀ (i : Nat) (f : GeneratedFunction), s.functions[i]? = some f →
    f.name = ⟨UInt32.ofNat i⟩
  /-- A body calls functions that are defined strictly earlier. -/
  calls : ∀ (i : Nat) (f : GeneratedFunction), s.functions[i]? = some f →
    ∀ name, name ∈ Shader.calls f.bodyText →
      ∃ (j : Nat) (g : GeneratedFunction), j < i ∧ s.functions[j]? = some g ∧
        g.name.text.toList = name
  /-- The function of the root is the last one. -/
  root : s.functions.getLast?.map GeneratedFunction.name = some s.root
  entry : Shader.calls s.entryText = [s.root.text.toList]
  uniforms : ∀ u, u ∈ s.uniforms → .declaration u.text.toList ∈ references s.uniformText
  /-- The uniforms that are read anywhere are exactly those that are declared. -/
  reads : ∀ name, .read name ∈ references s.text ↔ ∃ u, u ∈ s.uniforms ∧ u.text.toList = name
  globals : ∀ name, .global name ∈ references s.text → .declaration name ∈ references s.globalText

/-- Every function other than that of the root is called exactly once. -/
def CallsOnce (s : ShaderSource) : Prop :=
  ∀ f, f ∈ s.functions → f.name ≠ s.root →
    (s.functions.flatMap fun g => Shader.calls g.bodyText).count f.name.text.toList = 1

end ShaderSource

namespace Shader.Site

/-- The functions of the operands that are present. -/
def callees (s : Site) : List FunctionName := s.operands.filterMap fun f => f

/-- The text of a body refers to what its kind uses. -/
theorem references_bodyText (s : Site) :
    references s.generated.bodyText = bodyUses s.kind s.function s.operands := by
  rw [GeneratedFunction.references_bodyText]
  exact uses_body s.kind s.function s.operands

/-- The text of a body calls the operands that are there. -/
theorem calls_bodyText (s : Site) :
    calls s.generated.bodyText =
      (s.kind.called.filterMap fun i => s.operands[i]?.join).map fun g => g.text.toList := by
  rw [calls, references_bodyText, call?_bodyUses]

/-- The function of a site with as many operands as its kind takes calls each of them once. -/
theorem calls_perm {s : Site} (h : s.operands.length = s.kind.arity) :
    (calls s.generated.bodyText).Perm (s.callees.map fun g => g.text.toList) := by
  have hall : ∀ operands : List (Option FunctionName),
      (List.range operands.length).filterMap (fun i => operands[i]?.join) =
        operands.filterMap fun f => f := by
    intro operands
    induction operands with
    | nil => rfl
    | cons operand rest ih =>
      rw [List.length_cons, List.range_succ_eq_map, List.filterMap_cons, List.filterMap_map,
        List.filterMap_cons, ← ih]
      rfl
  rw [calls_bodyText, callees, ← hall s.operands, h]
  exact (s.kind.called_perm.filterMap _).map _

end Shader.Site

namespace Node

variable {n : Node} {first : UInt32} {s : Site} {g : FunctionName}

@[simp] theorem length_functionsOfSlots (first : UInt32) (slots : List (Option Node)) :
    (functionsOfSlots first slots).length = slots.length := by
  induction slots generalizing first with
  | nil => rfl
  | cons slot rest ih => cases slot <;> simp [functionsOfSlots, ih]

/-- The operands of every site are functions of earlier sites. -/
def CallsBack (sites : List Site) : Prop :=
  ∀ (i : Nat) (s : Site) (g : FunctionName), sites[i]? = some s → some g ∈ s.operands →
    ∃ (j : Nat) (t : Site), j < i ∧ sites[j]? = some t ∧ t.function = g

/-- Calls stay backward when functions are put behind others. -/
theorem CallsBack.append {xs ys : List Site} (hxs : CallsBack xs) (hys : CallsBack ys) :
    CallsBack (xs ++ ys) := by
  intro i s g hs hg
  rcases Nat.lt_or_ge i xs.length with hi | hi
  · rw [List.getElem?_append_left hi] at hs
    obtain ⟨j, t, hj, ht, hname⟩ := hxs i s g hs hg
    exact ⟨j, t, hj, by rw [List.getElem?_append_left (Nat.lt_trans hj hi), ht], hname⟩
  · rw [List.getElem?_append_right hi] at hs
    obtain ⟨j, t, hj, ht, hname⟩ := hys _ s g hs hg
    refine ⟨xs.length + j, t, by omega, ?_, hname⟩
    rw [List.getElem?_append_right (Nat.le_add_right _ _), Nat.add_sub_cancel_left, ht]

/-- The next function may call any function before it. -/
theorem CallsBack.concat {xs : List Site} (hxs : CallsBack xs)
    (hs : ∀ g, some g ∈ s.operands → g ∈ xs.map Site.function) : CallsBack (xs ++ [s]) := by
  intro i t g ht hg
  rcases Nat.lt_or_ge i xs.length with hi | hi
  · rw [List.getElem?_append_left hi] at ht
    obtain ⟨j, u, hj, hu, hname⟩ := hxs i t g ht hg
    exact ⟨j, u, hj, by rw [List.getElem?_append_left (Nat.lt_trans hj hi), hu], hname⟩
  · rw [List.getElem?_append_right hi] at ht
    obtain rfl := List.mem_singleton.mp (List.mem_of_getElem? ht)
    obtain ⟨u, hu, hname⟩ := List.mem_map.mp (hs g hg)
    obtain ⟨j, hj, rfl⟩ := List.mem_iff_getElem.mp hu
    exact ⟨j, xs[j], Nat.lt_of_lt_of_le hj hi,
      by rw [List.getElem?_append_left hj, List.getElem?_eq_getElem hj], hname⟩

/-- The functions of the operands are generated in the slots. -/
theorem mem_functions_of_mem_functionsOfSlots {slots : List (Option Node)}
    (h : some g ∈ functionsOfSlots first slots) :
    g ∈ (sitesOfSlots first slots).map Site.function := by
  induction slots generalizing first with
  | nil => cases h
  | cons slot rest ih =>
    cases slot with
    | none => exact ih (by simpa [functionsOfSlots] using h)
    | some child =>
      rw [sitesOfSlots, List.map_append, List.mem_append]
      rcases List.mem_cons.mp h with h | h
      · cases h
        exact .inl (List.mem_map_of_mem (site_mem_sites first child))
      · exact .inr (ih h)

/-- Slot by slot, every call goes to a function further in front. -/
theorem callsBack_sitesOfSlots {slots : List (Option Node)}
    (h : ∀ child, some child ∈ slots → ∀ first, CallsBack (child.sites first)) (first : UInt32) :
    CallsBack (sitesOfSlots first slots) := by
  induction slots generalizing first with
  | nil => exact fun _ _ _ hs => (by cases hs)
  | cons slot rest ih =>
    have hrest := ih fun child hchild => h child (List.mem_cons_of_mem _ hchild)
    cases slot with
    | none => exact hrest first
    | some child => exact (h child List.mem_cons_self first).append (hrest _)

/-- The functions of the operands come before that of the node. -/
theorem callsBack_sites (n : Node) (first : UInt32) : CallsBack (n.sites first) := by
  induction n generalizing first with
  | mk data slots ih =>
    rw [sites_eq]
    exact (callsBack_sitesOfSlots ih first).concat fun _ => mem_functions_of_mem_functionsOfSlots

/-- The place of a site is its number. -/
theorem function_of_getElem? {i : Nat} (h : (n.sites first)[i]? = some s) :
    s.function = ⟨first + UInt32.ofNat i⟩ := by
  obtain ⟨hi, rfl⟩ := List.getElem?_eq_some_iff.mp h
  have hfunction := congrArg (fun fs => fs[i]?) (functions_sites first n)
  simp only [List.getElem?_map, List.getElem?_eq_getElem hi] at hfunction
  rw [length_sites] at hi
  rw [FunctionName.getElem?_consecutive first hi] at hfunction
  exact Option.some.inj hfunction

/-- Every function below that of the root is an operand of exactly one site. -/
theorem callees_perm (n : Node) (first : UInt32) :
    ((n.sites first).flatMap Site.callees ++ [n.functionFrom first]).Perm
      ((n.sites first).map Site.function) := by
  induction n generalizing first with
  | mk data slots ih =>
    have hslots : ∀ first, ((sitesOfSlots first slots).flatMap Site.callees
        ++ (functionsOfSlots first slots).filterMap fun f => f).Perm
          ((sitesOfSlots first slots).map Site.function) := by
      induction slots with
      | nil => exact fun _ => .nil
      | cons slot rest ihRest =>
        have ihRest := ihRest fun child hchild => ih child (List.mem_cons_of_mem _ hchild)
        intro first
        cases slot with
        | none => exact ihRest first
        | some child =>
          have hchild := ih child List.mem_cons_self first
          have hrest := ihRest (first + UInt32.ofNat child.size)
          rw [sitesOfSlots, List.flatMap_append, List.map_append, List.append_assoc]
          -- The function of the child is one of the operands behind the sites of all children.
          refine ((List.perm_middle.append_left _).trans ?_).trans (hchild.append hrest)
          rw [List.append_assoc, List.singleton_append]
    rw [sites_eq, List.flatMap_append, List.map_append]
    refine List.Perm.append_right _ ?_
    rw [List.flatMap_singleton]
    exact hslots first

end Node

namespace Program

variable {n : Node} {options : ProgramOptions} {w : List Char}

/-- A program reads the uniforms that it declares, and no other ones. -/
theorem read_mem_text (hvalid : options.validate = .ok ()) :
    .read w ∈ references (laidOut n options).source.text ↔
      ∃ u, u ∈ (laidOut n options).uniforms ∧ u.text.toList = w := by
  rw [@ShaderSource.read_mem_text (laidOut n options).source w hvalid]
  constructor
  · rintro ⟨f, hf, hread⟩
    obtain ⟨s, hs, rfl⟩ := List.mem_map.mp hf
    rw [Site.references_bodyText, read_mem_bodyUses] at hread
    obtain ⟨role, hrole, hname⟩ := hread
    exact ⟨_, List.mem_flatMap.mpr ⟨s, hs, Site.mem_uniforms.mpr ⟨rfl, hrole⟩⟩, hname⟩
  · rintro ⟨u, hu, hname⟩
    obtain ⟨s, hs, hu⟩ := List.mem_flatMap.mp hu
    obtain ⟨howner, hrole⟩ := Site.mem_uniforms.mp hu
    refine ⟨s.generated, List.mem_map.mpr ⟨s, hs, rfl⟩, ?_⟩
    rw [Site.references_bodyText, read_mem_bodyUses]
    exact ⟨u.role, hrole, by rw [← howner]; exact hname⟩

/-- A function names a value of the renderer only if its node asks for it. -/
theorem global_mem_text (hvalid : options.validate = .ok ())
    (h : .global w ∈ references (laidOut n options).source.text) :
    (w = Variable.fragCoord.text.toList ∧ (n.capabilities.fragCoord ∨ n.Contains .deviceSpace)) ∨
      (w = Variable.destColor.text.toList ∧
        (n.flags.readsDestination ∨ n.Contains .destColor)) := by
  rcases (@ShaderSource.global_mem_text (laidOut n options).source w hvalid).mp h with
    h | ⟨f, hf, h⟩
  · rcases ShaderSource.global_mem_globalText.mp h with ⟨hdeclared, rfl⟩ | ⟨hdeclared, rfl⟩
    · exact .inl ⟨rfl, .inl hdeclared⟩
    · exact .inr ⟨rfl, .inl hdeclared⟩
  · obtain ⟨s, hs, rfl⟩ := List.mem_map.mp hf
    obtain ⟨path, m, k, hm, _, rfl⟩ := Node.exists_at?_of_mem_sites hs
    rw [Site.references_bodyText] at h
    rcases global_mem_bodyUses.mp h with ⟨huses, _, rfl⟩ | ⟨hreads, rfl⟩
    · exact .inl ⟨rfl, .inr ⟨path, m, hm, Kind.usesFragCoord_iff.mp huses⟩⟩
    · exact .inr ⟨rfl, .inr ⟨path, m, hm, Kind.readsDestination_iff.mp hreads⟩⟩

/-- The flag of the root and the nodes of the tree each bring the destination color into the text,
one as a declaration and the other in a body. -/
theorem destination_mem_text (hvalid : options.validate = .ok ()) :
    .global Variable.destColor.text.toList ∈ references (laidOut n options).source.text ↔
      n.flags.readsDestination ∨ n.Contains .destColor := by
  constructor
  · intro h
    rcases global_mem_text hvalid h with ⟨hname, _⟩ | ⟨_, hasked⟩
    · exact absurd hname (by decide)
    · exact hasked
  · intro h
    refine (@ShaderSource.global_mem_text (laidOut n options).source _ hvalid).mpr ?_
    rcases h with hflag | ⟨path, m, hm, hclass⟩
    · exact .inl (ShaderSource.global_mem_globalText.mpr (.inr ⟨hflag, rfl⟩))
    · obtain ⟨k, _, hsites⟩ := Node.at?_laidOut hm 0
      refine .inr ⟨_, List.mem_map.mpr ⟨_, hsites (Node.site_mem_sites k m), rfl⟩, ?_⟩
      rw [Site.references_bodyText, global_mem_bodyUses]
      exact .inr ⟨Kind.readsDestination_iff.mpr hclass, rfl⟩

/-- The functions of a program are those of the sites of the tree. -/
theorem getElem?_functions {i : Nat} {f : GeneratedFunction}
    (h : (laidOut n options).source.functions[i]? = some f) :
    ∃ s, (n.sites 0)[i]? = some s ∧ s.generated = f := by
  replace h : ((n.sites 0).map Site.generated)[i]? = some f := h
  rw [List.getElem?_map] at h
  exact Option.map_eq_some_iff.mp h

/-- The program of a tree with exact flags is closed. -/
theorem closed_laidOut {explicit perspective : Bool} (hvalid : options.validate = .ok ())
    (hflagged : n.Flagged explicit perspective) : (laidOut n options).source.Closed where
  numbered := by
    intro i f hf
    obtain ⟨s, hs, rfl⟩ := getElem?_functions hf
    rw [Site.generated, Node.function_of_getElem? hs, UInt32.zero_add]
  calls := by
    intro i f hf name hname
    obtain ⟨s, hs, rfl⟩ := getElem?_functions hf
    rw [Site.calls_bodyText] at hname
    obtain ⟨g, hg, rfl⟩ := List.mem_map.mp hname
    obtain ⟨k, _, hk⟩ := List.mem_filterMap.mp hg
    obtain ⟨j, t, hlt, ht, rfl⟩ := n.callsBack_sites 0 i s g hs
      (List.mem_of_getElem? (Option.join_eq_some_iff.mp hk))
    refine ⟨j, t.generated, hlt, ?_, rfl⟩
    exact (List.getElem?_map).trans (congrArg (Option.map Site.generated) ht)
  root := by
    show ((n.sites 0).map Site.generated).getLast?.map GeneratedFunction.name = _
    rw [Node.sites_eq, List.map_append, List.map_singleton, List.getLast?_concat]
    rfl
  entry := by
    rw [Shader.calls, @ShaderSource.references_entryText (laidOut n options).source hvalid]
    rfl
  uniforms := fun _ hu => ShaderSource.declaration_mem_uniformText hu
  reads := fun _ => read_mem_text hvalid
  globals := by
    intro w hw
    refine ShaderSource.declaration_mem_globalText.mpr ?_
    rcases global_mem_text hvalid hw with ⟨rfl, hasked⟩ | ⟨rfl, hasked⟩
    · exact .inl ⟨hasked.elim id hflagged.fragCoord_iff.mpr, rfl⟩
    · exact .inr ⟨hasked.elim id hflagged.readsDestination_iff.mpr, rfl⟩

/-- Where every node has as many slots as its kind takes operands, every function is called by
that of its parent and by no other. -/
theorem callsOnce_laidOut (hstandard : n.Standard) (hsize : n.size < 2 ^ 32)
    (options : ProgramOptions) : (laidOut n options).source.CallsOnce := by
  have hcalls : ((n.sites 0).flatMap fun s => calls s.generated.bodyText).Perm
      (((n.sites 0).flatMap Site.callees).map fun g => g.text.toList) := by
    rw [List.map_flatMap]
    refine List.Perm.flatMap_left _ fun s hs => Site.calls_perm ?_
    obtain ⟨_, m, k, hm, _, rfl⟩ := Node.exists_at?_of_mem_sites hs
    have harity := (Node.standard_iff.mp (hstandard.at? hm)).1.1
    rw [List.length_map] at harity
    exact (Node.length_functionsOfSlots k m.slots).trans harity
  have hnames := (n.callees_perm 0).map fun g => g.text.toList
  have hnodup : (((n.sites 0).map Site.function).map fun g => g.text.toList).Nodup :=
    (n.nodup_functions_sites 0 hsize).map fun f g h =>
      FunctionName.text_injective (String.toList_inj.mp h)
  intro f hf hroot
  obtain ⟨s, hs, rfl⟩ := List.mem_map.mp hf
  have hother : (n.functionFrom 0).text.toList ≠ s.function.text.toList := fun h =>
    hroot (FunctionName.text_injective (String.toList_inj.mp h)).symm
  have hcount := hnames.count_eq s.function.text.toList
  rw [List.map_append, List.map_singleton, List.count_append, ← hcalls.count_eq,
    List.count_singleton, if_neg (by simpa using hother), Nat.add_zero,
    List.count_eq_one_of_mem hnodup (List.mem_map_of_mem (List.mem_map_of_mem hs))] at hcount
  show (((n.sites 0).map Site.generated).flatMap fun g => calls g.bodyText).count _ = 1
  rw [List.flatMap_map]
  exact hcount

end Program

end PixelEffect
