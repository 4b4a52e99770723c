import PixelEffect.Proofs.Effect.Elimination

namespace PixelEffect

namespace Node

/-- What folding looks at in an operand. -/
structure Role where
  constantOutput : Bool
  ignoresInput : Bool
  effectClass : EffectClass

def role (n : Node) : Role := ⟨n.optimizations.constantOutput, n.ignoresInput, n.kind.effectClass⟩

/-- The output is the same for all inputs and can be computed ahead. -/
def Role.Settled (r : Role) : Prop := r.constantOutput ∧ r.ignoresInput

/-- Nothing is left to fold in a composition that has these operands: the one that is applied last
is not settled, and the other one is settled only if it is a color that cannot be passed on. -/
def Reduced (operands : List (Option Role)) : Prop :=
  ∃ f g, operands = [some f, some g] ∧ ¬f.Settled ∧
    (g.Settled → g.effectClass = .color ∧ ¬f.constantOutput)

/-- Every composition in the tree is reduced. -/
inductive Normal : Node → Prop
  | mk {data : NodeData} {slots : List (Option Node)}
      (hreduced : data.kind = .compose → Reduced (slots.map (Option.map role)))
      (hchildren : ∀ child, some child ∈ slots → Normal child) : Normal (mk data slots)

/-- A tree is normal if its root is and the trees in its slots are. -/
theorem normal_iff {n : Node} :
    n.Normal ↔ (n.kind = .compose → Reduced (n.slots.map (Option.map role))) ∧
      ∀ child, some child ∈ n.slots → child.Normal := by
  constructor
  · rintro ⟨hreduced, hchildren⟩
    exact ⟨hreduced, hchildren⟩
  · obtain ⟨data, slots⟩ := n
    rintro ⟨hreduced, hchildren⟩
    exact ⟨hreduced, hchildren⟩

/-- The operands of a composition that is reduced. -/
theorem Reduced.exists_operands {slots : List (Option Node)}
    (h : Reduced (slots.map (Option.map role))) :
    ∃ f g, slots = [some f, some g] ∧ ¬f.role.Settled ∧
      (g.role.Settled → g.kind.effectClass = .color ∧ ¬f.optimizations.constantOutput) := by
  obtain ⟨_, _, hslots, houter, hinner⟩ := h
  obtain ⟨slot, _, rfl, hf, hrest⟩ := List.map_eq_cons_iff.mp hslots
  obtain ⟨slot', rfl, hg⟩ := List.map_eq_singleton_iff.mp hrest
  obtain ⟨f, rfl, rfl⟩ := Option.map_eq_some_iff.mp hf
  obtain ⟨g, rfl, rfl⟩ := Option.map_eq_some_iff.mp hg
  exact ⟨f, g, rfl, houter, hinner⟩

@[simp] theorem role_content (n : Node) : n.content.role = n.role := by
  rw [role, optimizations_content, ignoresInput_content, kind_content, role]

/-- What is left to fold can be read off the content of a tree. -/
theorem normal_content (n : Node) : n.content.Normal ↔ n.Normal := by
  induction n with
  | mk data slots ih =>
    rw [normal_iff, normal_iff, kind_content, slots_content, List.map_map, Option.map_comp_map,
      funext (f := role ∘ content) role_content]
    refine and_congr_right fun _ => ?_
    exact forall_mem_map_slots.trans (forall₂_congr ih)

theorem Normal.of_content_eq {n m : Node} (hn : n.Normal) (h : n.content = m.content) :
    m.Normal := by
  rw [← normal_content, h, normal_content] at hn
  exact hn

/-- Only the contents of the children matter, so the operands that a node was given will do. -/
theorem Normal.of_operands {n : Node} {operands : List (Option Node)}
    (hslots : n.slots.map (Option.map content) = operands.map (Option.map content))
    (hreduced : n.kind = .compose → Reduced (operands.map (Option.map role)))
    (hoperands : ∀ child, some child ∈ operands → child.Normal) : n.Normal := by
  have hcontent : (Node.mk n.data operands).Normal := .mk hreduced hoperands
  exact hcontent.of_content_eq (content_eq_iff.mpr ⟨rfl, rfl, hslots.symm⟩)

/-- A marked composition in which nothing is left to fold depends on its input. -/
theorem Normal.depends {n : Node} (h : n.Normal) (hstandard : n.Standard)
    (hkind : n.kind = .compose) (hconstant : n.optimizations.constantOutput) : ¬n.ignoresInput := by
  obtain ⟨f, g, hslots, houter, hinner⟩ := ((normal_iff.mp h).1 hkind).exists_operands
  obtain ⟨_, _, hmarked⟩ := hstandard.constantOutput_iff.mp hconstant
  have hf : f.optimizations.constantOutput := hmarked f (by simp [hslots])
  have hg : g.optimizations.constantOutput := hmarked g (by simp [hslots])
  have hignores : n.ignoresInput = (f.ignoresInput || g.ignoresInput) := by
    rw [ignoresInput_eq, hkind, hslots]
    rfl
  rw [hignores, Bool.or_eq_true]
  rintro (hignored | hignored)
  · exact houter ⟨hf, hignored⟩
  · exact (hinner ⟨hg, hignored⟩).2 hf

/-- Every part of a normal tree is normal. -/
theorem Normal.at? {root n : Node} {path : Path} (h : root.Normal)
    (hn : root.at? path = some n) : n.Normal := by
  induction path generalizing root with
  | nil =>
    cases hn
    exact h
  | cons i path ih =>
    obtain ⟨child, hchild, hn⟩ := at?_cons_eq_some.mp hn
    exact ih ((normal_iff.mp h).2 child (mem_slots_of_child? hchild)) hn

/-- Copying leaves nothing to fold. -/
theorem Normal.run_clone {n copy : Node} {id last : NodeId} (h : n.Normal)
    (hrun : n.clone.run id = .ok (copy, last)) : copy.Normal :=
  h.of_content_eq (content_of_run_clone hrun).symm

/-- A node that plays the role of the one that it replaces does not change the role of the tree. -/
theorem role_replaceAt {root n m : Node} {path : Path} (hn : root.at? path = some n)
    (hrole : m.role = n.role) : (Node.replaceAt m path root).role = root.role := by
  induction path generalizing root with
  | nil =>
    cases hn
    exact hrole
  | cons i path ih =>
    obtain ⟨child, hchild, hn⟩ := at?_cons_eq_some.mp hn
    have hsame : (Node.replaceAt m path child).ignoresInput = child.ignoresInput :=
      congrArg Role.ignoresInput (ih hn)
    rw [replaceAt_cons hchild, role, role, ignoresInput_eq, ignoresInput_eq root, slots,
      map_set_slots hchild hsame]
    rfl

/-- A node may be exchanged for a normal one that plays the same role in folding. -/
theorem Normal.replaceAt {root n m : Node} {path : Path} (h : root.Normal)
    (hn : root.at? path = some n) (hrole : m.role = n.role) (hm : m.Normal) :
    (Node.replaceAt m path root).Normal := by
  induction path generalizing root with
  | nil => exact hm
  | cons i path ih =>
    obtain ⟨child, hchild, hn⟩ := at?_cons_eq_some.mp hn
    obtain ⟨hreduced, hchildren⟩ := normal_iff.mp h
    rw [replaceAt_cons hchild]
    refine .mk ?_ fun c hc => ?_
    · rw [map_set_slots hchild (role_replaceAt hn hrole)]
      exact hreduced
    · rcases List.mem_or_eq_of_mem_set hc with hc | hc
      · exact hchildren c hc
      · cases hc
        exact ih (hchildren child (mem_slots_of_child? hchild)) hn

/-- A new color plays the role of the old one. -/
theorem role_recolor {n m : Node} {c : Color Single} (hm : n.recolor c = .ok m) :
    m.role = n.role := by
  obtain ⟨current, hkind, _, rfl⟩ := recolor_eq_ok hm
  rw [role, role, ignoresInput_eq, ignoresInput_eq n, hkind]
  rfl

/-- A new color leaves nothing to fold, since it plays the role of the old one. -/
theorem Normal.recolor {n m : Node} {c : Color Single} (h : n.Normal)
    (hm : n.recolor c = .ok m) : m.Normal := by
  obtain ⟨_, _, _, rfl⟩ := recolor_eq_ok hm
  exact .mk (fun hkind => (by cases hkind)) (normal_iff.mp h).2

end Node

namespace Effect

open Node Build SeriesAnalysis

/-- What composition puts over what is reduced. -/
theorem Joins.reduced {f g inner : Node} (hf : f.Standard) (hg : g.Standard)
    (h : Joins f g inner) : Reduced [some f.role, some inner.role] := by
  obtain ⟨analysis, hanalysis, hcase⟩ := h
  have hstandard : ∀ n, n ∈ [g, f] → n.Standard := by simp [hf, hg]
  obtain ⟨_, hexact⟩ := exact_ofSeries hstandard hanalysis
  have hrest := hexact.rest
  obtain ⟨hnone, rfl⟩ | ⟨known, id, hsome, rfl⟩ := hcase
  · have hcount : analysis.eliminatedCount = 0 := by
      rw [eliminatedCount, hnone]
      rfl
    rw [hcount] at hrest
    exact ⟨_, _, rfl, hrest f (by simp), fun h => absurd h (hrest inner (by simp))⟩
  · have hcount : analysis.eliminatedCount = 1 := by
      rw [eliminatedCount, hsome]
      rfl
    have hstopped := hexact.stopped (.inl (by rw [hcount]; omega)) f (by rw [hcount]; rfl)
    rw [hcount] at hrest
    exact ⟨_, _, rfl, hrest f (by simp), fun _ => ⟨rfl, hstopped⟩⟩

/-- From normal trees only normal ones are crafted, as long as compositions are reduced. -/
theorem Crafted.normal {joined : Node → Node → Prop}
    (hjoined : ∀ f g, joined f g → Reduced [some f.role, some g.role])
    {given : Option Node → Prop} (hgiven : ∀ c, given (some c) → c.Normal) {n : Option Node}
    (h : Crafted joined given n) : ∀ c, n = some c → c.Normal := by
  induction h with
  | absent => exact fun _ h => (by cases h)
  | operand h =>
    rintro c rfl
    exact hgiven c h
  | leaf id kind harity =>
    rintro _ ⟨⟩
    refine .mk ?_ fun _ h => (by cases h)
    rintro ⟨⟩
    cases harity
  | @unary id kind harity child _ _ ih =>
    rintro _ ⟨⟩
    refine .of_operands (slots_content_unary ..) ?_ fun c hc => ih c (List.mem_singleton.mp hc).symm
    rw [kind_unary]
    rintro rfl
    cases harity
  | @binary id kind harity first second _ _ _ _ hreduced ihFirst ihSecond =>
    rintro _ ⟨⟩
    refine .of_operands (slots_content_binary ..) ?_ fun c hc => ?_
    · rw [kind_binary]
      intro hkind
      obtain ⟨f, g, rfl, rfl, hfg⟩ := hreduced hkind
      exact hjoined f g hfg
    · rcases List.mem_cons.mp hc with hc | hc
      · exact ihFirst c hc.symm
      · exact ihSecond c (List.mem_singleton.mp hc).symm

/-- Applying a marked tree to a settled one leaves a color and nothing else, unless the evaluation
that finds the color breaks a rule of the library. -/
theorem run_compose_of_settled {f g : Node} (hf : f.Standard) (hg : g.Standard)
    (hconstant : f.optimizations.constantOutput) (hsettled : g.role.Settled) (id : NodeId) :
    (SeriesAnalysis.MeetsNaN .unknown [g, f] ∧
      (compose (some f) (some g)).run id = .error (.violation .clampBounds)) ∨
    (¬SeriesAnalysis.MeetsNaN .unknown [g, f] ∧ ∃ c, (compose (some f) (some g)).run id =
      .ok (some (leaf id (.color c) ⟨c.isOpaque, true⟩), id.next)) := by
  have hstandard : ∀ n, n ∈ [g, f] → n.Standard := by simp [hf, hg]
  cases hanalysis : ofSeries .unknown [g, f] with
  | error e =>
    obtain ⟨rfl, hmeets⟩ := (ofSeries_eq_error_iff hstandard).mp hanalysis
    exact .inl ⟨hmeets, run_compose_of_error hanalysis⟩
  | ok analysis =>
    refine .inr ⟨fun hmeets => ?_, ?_⟩
    · rw [(ofSeries_eq_error_iff hstandard).mpr ⟨rfl, hmeets⟩] at hanalysis
      cases hanalysis
    · obtain ⟨hsound, hexact⟩ := exact_ofSeries hstandard hanalysis
      have hle : analysis.eliminatedCount ≤ 2 := hsound.eliminatedCount_le
      have hrest := hexact.rest
      have hall : analysis.eliminatedCount = 2 := by
        match hcount : analysis.eliminatedCount, hle with
        | 0, _ =>
          rw [hcount] at hrest
          exact absurd hsettled (hrest g (by simp))
        | 1, _ => exact absurd hconstant (hexact.stopped (.inl (by omega)) f (by rw [hcount]; rfl))
        | 2, _ => rfl
      obtain ⟨c, hc⟩ : ∃ c, analysis.eliminated = some (2, c) := by
        cases heliminated : analysis.eliminated with
        | none => simp [eliminatedCount, heliminated] at hall
        | some known =>
          obtain ⟨count, c⟩ := known
          exact ⟨c, by simpa [eliminatedCount, heliminated] using hall⟩
      refine ⟨c, ?_⟩
      rw [run_compose_of_ok hanalysis, hc]
      rfl

end Effect

end PixelEffect
