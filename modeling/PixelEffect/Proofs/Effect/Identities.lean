import Mathlib.Data.List.Nodup
import Mathlib.Data.List.Perm.Subperm
import PixelEffect.Proofs.Effect.Call
import PixelEffect.Proofs.Node.Identities

namespace PixelEffect

open Node

/-- The identities come from the given ones and from those that are handed out from `first` up to
`last`, each of them once at most. -/
structure Issued (given : List NodeId) (first last : NodeId) (ids : List NodeId) : Prop where
  le : first.index ≤ last.index
  count : ∀ x, ids.count x ≤
    given.count x + if first.index ≤ x.index ∧ x.index < last.index then 1 else 0

namespace Issued

variable {given given' rest ids ids' : List NodeId} {first mid last : NodeId}

theorem refl (h : ids.Subperm given) : Issued given first first ids where
  le := Nat.le_refl _
  count := fun x => Nat.le_trans (h.count_le x) (Nat.le_add_right _ _)

/-- What the first part leaves is given to the second one, with more besides. -/
theorem trans (h : Issued given first mid ids) (h' : Issued (ids ++ rest) mid last ids') :
    Issued (given ++ rest) first last ids' where
  le := Nat.le_trans h.le h'.le
  count := by
    intro x
    have hle := h.le
    have hle' := h'.le
    have hcount := h.count x
    have hcount' := h'.count x
    rw [List.count_append] at hcount' ⊢
    -- An identity is handed out before `mid` or from there on.
    split at hcount <;> split at hcount' <;> split <;> omega

theorem mono (h : Issued given first last ids) (hgiven : given.Subperm given') :
    Issued given' first last ids where
  le := h.le
  count := fun x => Nat.le_trans (h.count x) (Nat.add_le_add_right (hgiven.count_le x) _)

/-- Nothing happens to identities that nobody asks for. -/
theorem append_right (h : Issued given first last ids) (rest : List NodeId) :
    Issued (given ++ rest) first last (ids ++ rest) :=
  h.trans (.refl (.refl _))

/-- Identities that all were handed out differ. -/
theorem nodup (h : Issued [] first last ids) : ids.Nodup := by
  rw [List.nodup_iff_count_le_one]
  intro x
  have hcount := h.count x
  rw [List.count_nil] at hcount
  split at hcount <;> omega

theorem mem (h : Issued given first last ids) {x : NodeId} (hx : x ∈ ids) :
    x ∈ given ∨ first.index ≤ x.index ∧ x.index < last.index := by
  have hcount := h.count x
  have hpositive := List.count_pos_iff.mpr hx
  split at hcount
  · exact .inr ‹_›
  · exact .inl (List.count_pos_iff.mp (by omega))

end Issued

/-- The computation takes the identities of its results from the given ones and from those that it
hands out. -/
structure Issues {α : Type} (given : List NodeId) (ids : α → List NodeId) (x : Build α) : Prop where
  of_run : ∀ {id a last}, x.run id = .ok (a, last) → Issued given id last (ids a)

namespace Issues

variable {α β : Type} {given given' rest : List NodeId} {ids : α → List NodeId}
  {ids' : β → List NodeId} {x : Build α}

theorem pure {a : α} (h : (ids a).Subperm given) : Issues given ids (Pure.pure a) where
  of_run := by
    intro id b last hrun
    obtain ⟨rfl, rfl⟩ := Build.run_pure_eq_ok.mp hrun
    exact .refl h

/-- Two parts take turns: the second one is given what the first one has issued. -/
theorem bind {f : α → Build β} (h : Issues given ids x)
    (hf : ∀ a, Issues (ids a ++ rest) ids' (f a)) : Issues (given ++ rest) ids' (x >>= f) where
  of_run := by
    intro id b last hrun
    obtain ⟨a, next, ha, hb⟩ := Build.run_bind_eq_ok.mp hrun
    exact (h.of_run ha).trans ((hf a).of_run hb)

/-- What a computation makes of new nodes is given to the next one, with more besides. -/
theorem bind_new {f : α → Build β} (h : Issues [] ids x)
    (hf : ∀ a, Issues (ids a ++ rest) ids' (f a)) : Issues rest ids' (x >>= f) :=
  h.bind hf

theorem map {f : α → β} (h : Issues given ids x) (hf : ∀ a, ids' (f a) = ids a) :
    Issues given ids' (f <$> x) where
  of_run := by
    intro id b last hrun
    obtain ⟨a, ha, rfl⟩ := Build.run_map_eq_ok.mp hrun
    rw [hf]
    exact h.of_run ha

theorem mono (h : Issues given ids x) (hgiven : given.Subperm given') : Issues given' ids x where
  of_run := fun hrun => (h.of_run hrun).mono hgiven

/-- A new node has the next identity and no other one. -/
theorem create (kind : Kind) (optimizations : Optimizations) :
    Issues [] Node.ids (Node.create kind optimizations) where
  of_run := by
    rintro id _ _ ⟨⟩
    refine ⟨Nat.le_succ _, fun x => ?_⟩
    rw [ids_leaf, List.count_nil, Nat.zero_add]
    by_cases hx : x = id
    · subst hx
      have hnew : x.index ≤ x.index ∧ x.index < x.next.index :=
        ⟨Nat.le_refl _, Nat.lt_succ_self _⟩
      rw [List.count_singleton_self]
      exact Nat.le_of_eq (if_pos hnew).symm
    · have hother : x ∉ [id] := by simpa using hx
      simp only [List.count_eq_zero_of_not_mem hother, Nat.zero_le]

/-- Attaching joins the identities of the two trees. -/
theorem attach (n : Node) (child : Option Node) (sampling : Sampling) :
    Issues (n.ids ++ idsOf child.toList) Node.ids (n.attach child sampling) where
  of_run := by
    intro id m last hrun
    obtain ⟨hm, rfl⟩ := run_attach_eq_ok.mp hrun
    obtain ⟨_, rfl⟩ := withChild_eq_ok_iff.mp hm
    rw [ids_attached]
    exact .refl (.refl _)

/-- A child for a new node. -/
theorem create_attach (kind : Kind) (optimizations : Optimizations) (child : Option Node)
    (sampling : Sampling) :
    Issues (idsOf child.toList) Node.ids (do
      (← Node.create kind optimizations).attach child sampling) :=
  (create kind optimizations).bind_new fun n => attach n child sampling

/-- Two children for a new node. -/
theorem create_attach_two (kind : Kind) (optimizations : Optimizations) (first second : Option Node)
    (sampling sampling' : Sampling) :
    Issues (idsOf first.toList ++ idsOf second.toList) Node.ids (do
      let n ← Node.create kind optimizations
      (← n.attach first sampling).attach second sampling') := by
  refine (create kind optimizations).bind_new fun n => ?_
  rw [← List.append_assoc]
  exact (attach n first sampling).bind fun m => attach m second sampling'

end Issues

namespace Effect

/-- The identities of an optional tree. -/
abbrev idsIfAny (n : Option Node) : List NodeId := idsOf n.toList

theorem idsIfAny_some (n : Node) : idsIfAny (some n) = n.ids := List.append_nil _

/-- A node on top of a tree takes one new identity. -/
theorem issues_wrap (kind : Kind) (o : Optimizations) (child : Node) (sampling : Sampling) :
    Issues child.ids ids (wrap kind o child sampling) := by
  rw [← idsIfAny_some child]
  exact .create_attach kind o (some child) sampling

theorem issues_mapM {child : Option Node} {f : Node → Build Node}
    (h : ∀ c, Issues c.ids ids (f c)) : Issues (idsIfAny child) idsIfAny (child.mapM f) := by
  cases child with
  | none => exact .pure (.refl _)
  | some c =>
    rw [Option.mapM_some, idsIfAny_some]
    exact (h c).map idsIfAny_some

/-- A composition has the nodes of its two operands below it. -/
theorem issues_composeNode (f g : Node) : Issues (f.ids ++ g.ids) ids (composeNode f g) := by
  rw [← idsIfAny_some f, ← idsIfAny_some g]
  exact .create_attach_two ..

theorem issues_blendNode (source destination : Option Node) (mode : BlendMode)
    (behavior : BlendBehavior) :
    Issues (idsIfAny source ++ idsIfAny destination) ids
      (blendNode source destination mode behavior) :=
  .create_attach_two ..

/-- A blend that is cut short may lose the nodes of an operand. -/
theorem issues_blend (source destination : Option Node) (mode : BlendMode)
    (behavior : BlendBehavior) :
    Issues (idsIfAny source ++ idsIfAny destination) idsIfAny
      (blend source destination mode behavior) := by
  cases mode with
  | clear => exact ((Issues.create ..).map idsIfAny_some).mono (List.nil_sublist _).subperm
  | src => exact .pure (List.sublist_append_left _ _).subperm
  | dst => exact .pure (List.sublist_append_right _ _).subperm
  | _ => exact (issues_blendNode ..).map idsIfAny_some

/-- Modulation blends a new color with the child. -/
theorem issues_modulate (child : Option Node) (c : Color Single) (mode : BlendMode) :
    Issues (idsIfAny child) ids (do blendNode (some (← color c)) child mode .skMode) := by
  refine (Issues.create ..).bind_new fun n => ?_
  rw [← idsIfAny_some n]
  exact issues_blendNode ..

/-- A composition that has been folded may lose all nodes of its operands. -/
theorem issues_composed (f g : Node) (eliminated : Option (Nat × Color Single)) :
    Issues (f.ids ++ g.ids) ids (composed f g eliminated) := by
  have hcolor : ∀ c, Issues (f.ids ++ g.ids) ids (color c) := fun _ =>
    (Issues.create ..).mono (List.nil_sublist _).subperm
  obtain _ | ⟨_ | _ | count, known⟩ := eliminated
  · exact issues_composeNode f g
  · exact hcolor known
  · -- The color comes into the place of the second tree, whose nodes are gone.
    have hnew : Issues f.ids ids (do composeNode f (← color known)) :=
      (Issues.create ..).bind_new fun n =>
        (issues_composeNode f n).mono List.perm_append_comm.subperm
    exact hnew.mono (List.sublist_append_left _ _).subperm
  · exact hcolor known

/-- Whatever becomes of a composition, its nodes come from the operands or are new. -/
theorem issues_compose (f g : Option Node) :
    Issues (idsIfAny f ++ idsIfAny g) idsIfAny (compose f g) := by
  cases f with
  | none => exact .pure (.refl _)
  | some f =>
    cases g with
    | none => exact .pure (List.sublist_append_left _ _).subperm
    | some g =>
      refine ⟨fun hrun => ?_⟩
      obtain ⟨analysis, n, _, hn, rfl⟩ := run_compose_eq_ok.mp hrun
      simp only [idsIfAny_some]
      exact (issues_composed f g _).of_run hn

/-- The effects of one child keep the nodes of the child. -/
theorem issues_modifier (m : Modifier) (child : Option Node) :
    Issues (idsIfAny child) idsIfAny (m.build child) := by
  cases m with
  | swizzle s =>
    refine issues_mapM fun c => ?_
    split
    · exact .pure (.refl _)
    · exact issues_wrap ..
  | overrideInput | premul | clamp | deviceSpace | matrix =>
    exact issues_mapM fun c => issues_wrap ..
  | colorMatrix m => exact (Issues.create_attach ..).map idsIfAny_some
  | mulChildByInputAlpha | mulInputByChildAlpha =>
    cases child with
    | none => exact .pure (.refl _)
    | some c =>
      simp only [Modifier.build, mulChildByInputAlpha, mulInputByChildAlpha]
      exact issues_blend none (some c) ..
  | modulateAlpha c | modulateRgba c => exact (issues_modulate child c _).map idsIfAny_some

/-- A call uses the nodes of its operands and new ones. -/
theorem Call.issues (c : Call) : Issues (idsOf (c.operands.filterMap id)) idsIfAny c.run := by
  cases c with
  | source s => cases s <;> exact (Issues.create ..).map idsIfAny_some
  | modify m child =>
    have hoperands : (Call.modify m child).operands.filterMap id = child.toList := by
      cases child <;> rfl
    rw [hoperands]
    exact issues_modifier m child
  | combine c f g =>
    have hoperands : (Call.combine c f g).operands.filterMap id = f.toList ++ g.toList := by
      cases f <;> cases g <;> rfl
    rw [hoperands, idsOf_append]
    cases c with
    | compose => exact issues_compose f g
    | blend mode behavior => exact issues_blend f g mode behavior

end Effect

namespace Node

/-- The children of a copy are copies, with identities of their own. -/
theorem issues_cloneSlots {slots : List (Option Node)}
    (hslots : ∀ child, some child ∈ slots → Issues [] ids child.clone) (copy : Node) :
    Issues copy.ids ids (cloneSlots slots copy) := by
  induction slots generalizing copy with
  | nil => exact .pure (.refl _)
  | cons slot rest ih =>
    have ih := ih fun child hchild => hslots child (List.mem_cons_of_mem _ hchild)
    have hattach : ∀ (child : Option Node) (sampling : Sampling),
        Issues (copy.ids ++ idsOf child.toList) ids (do
          cloneSlots rest (← copy.attach child sampling)) := by
      intro child sampling
      rw [← List.append_nil (copy.ids ++ idsOf child.toList)]
      refine (Issues.attach copy child sampling).bind fun next => ?_
      rw [List.append_nil]
      exact ih next
    cases slot with
    | none =>
      rw [← List.append_nil copy.ids]
      exact hattach none .passThrough
    | some child =>
      refine (hslots child List.mem_cons_self).bind_new fun childCopy => ?_
      refine (hattach (some childCopy) child.sampling).mono ?_
      rw [Option.toList_some, idsOf_cons, idsOf_nil, List.append_nil]
      exact List.perm_append_comm.subperm

/-- All nodes of a copy are new. -/
theorem issues_clone (n : Node) : Issues [] ids n.clone := by
  induction n with
  | mk data slots ih =>
    rw [clone]
    refine (Issues.create data.kind data.optimizations).bind_new fun copy => ?_
    rw [List.append_nil]
    exact issues_cloneSlots ih copy

end Node

end PixelEffect
