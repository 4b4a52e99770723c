import PixelEffect.Description.Reader
import PixelEffect.Description.Tree
import PixelEffect.Proofs.Description.Recursion
import PixelEffect.Proofs.Effect.Failure

namespace PixelEffect

namespace Description

open Node Effect Build

/-- What is checked before any operand is built. -/
def precheck : Description → Except Error Unit
  | colorMatrix _ coefficients unpremulInput clampRgbOutput premulOutput =>
    discard (ColorMatrix.ofList coefficients unpremulInput clampRgbOutput premulOutput)
  | _ => .ok ()

/-- The call that a description stands for once its operands are built. The parameters are checked
first. -/
def call (trees : List (Option Node)) (d : Description) : Except Error Call :=
  let tree (i : Nat) : Option Node := trees[i]?.join
  match d with
  | color c => do return .source (.color (← c.validate))
  | destColor => return .source .destColor
  | overrideInput _ c useUniform => do
    return .modify (.overrideInput (← c.validate) useUniform) (tree 0)
  | swizzle _ s => do return .modify (.swizzle (← Swizzle.ofText s)) (tree 0)
  | premul _ => return .modify .premul (tree 0)
  | compose .. => return .combine .compose (tree 0) (tree 1)
  | blend _ _ mode behavior => return .combine (.blend mode behavior) (tree 0) (tree 1)
  | mulChildByInputAlpha _ => return .modify .mulChildByInputAlpha (tree 0)
  | mulInputByChildAlpha _ => return .modify .mulInputByChildAlpha (tree 0)
  | modulateAlpha _ c => do return .modify (.modulateAlpha (← c.validate)) (tree 0)
  | modulateRgba _ c => do return .modify (.modulateRgba (← c.validate)) (tree 0)
  | colorMatrix _ coefficients unpremulInput clampRgbOutput premulOutput => do
    let m ← ColorMatrix.ofList coefficients unpremulInput clampRgbOutput premulOutput
    return .modify (.colorMatrix m) (tree 0)
  | clamp _ toAlpha => return .modify (.clamp toAlpha) (tree 0)
  | deviceSpace _ => return .modify .deviceSpace (tree 0)
  | matrix _ m => do return .modify (.matrix (← m.validate)) (tree 0)
  | linearGradient start finish c d => do
    validatePoints start finish
    return .source (.linearGradient start finish (← c.validate) (← d.validate))

/-- All descriptions are built in the same way. -/
theorem build_eq (d : Description) :
    d.build = (do
      ofExcept d.precheck
      let trees ← d.operands.mapM buildOperand
      (← ofExcept (d.call trees)).run) := by
  cases d with
  | colorMatrix child coefficients unpremulInput clampRgbOutput premulOutput =>
    simp only [build, precheck, operands, call]
    -- A check that has passed passes again.
    cases ColorMatrix.ofList coefficients unpremulInput clampRgbOutput premulOutput with
    | error e => rfl
    | ok m =>
      simp only [ofExcept_ok, pure_bind, List.mapM_cons, List.mapM_nil, bind_assoc]
      rfl
  | _ =>
    simp only [build, precheck, operands, call, ofExcept_ok, ofExcept_bind, pure_bind,
      List.mapM_cons, List.mapM_nil, bind_assoc]
    rfl

/-- The call takes nothing but the trees of the operands. -/
theorem operands_of_call {d : Description} {trees : List (Option Node)} {c : Call}
    (h : d.call trees = .ok c) : c.operands ⊆ [trees[0]?.join, trees[1]?.join] := by
  cases d with
  | destColor | premul | mulChildByInputAlpha | mulInputByChildAlpha | clamp | deviceSpace
  | compose | blend =>
    cases h
    simp [Call.operands]
  | color | overrideInput | swizzle | modulateAlpha | modulateRgba | colorMatrix | matrix =>
    obtain ⟨_, _, h⟩ := Except.bind_eq_ok.mp h
    cases h
    simp [Call.operands]
  | linearGradient =>
    obtain ⟨_, _, h⟩ := Except.bind_eq_ok.mp h
    obtain ⟨_, _, h⟩ := Except.bind_eq_ok.mp h
    obtain ⟨_, _, h⟩ := Except.bind_eq_ok.mp h
    cases h
    simp [Call.operands]

theorem available_none : Available none := ⟨operable_none.fresh, fun _ h => (by cases h)⟩

/-- A call takes its operands from the trees that have been built. -/
theorem available_of_mem_operands {d : Description} {trees : List (Option Node)} {c : Call}
    (h : d.call trees = .ok c) (htrees : ∀ n, n ∈ trees → Available n) :
    ∀ n, n ∈ c.operands → Available n := by
  have htree : ∀ i : Nat, Available trees[i]?.join := by
    intro i
    cases hi : trees[i]? with
    | none => exact available_none
    | some n => exact htrees n (List.mem_of_getElem? hi)
  intro n hn
  rcases List.mem_cons.mp (operands_of_call h hn) with rfl | hn
  · exact htree 0
  · rw [List.mem_singleton.mp hn]
    exact htree 1

variable {id last : NodeId}

/-- Whatever a description builds can be given to another constructor. -/
theorem available_of_build {d : Description} {out : Option Node}
    (h : d.build.run id = .ok (out, last)) : Available out := by
  induction d generalizing id last out with
  | step d ih =>
    rw [build_eq, run_bind_eq_ok] at h
    obtain ⟨_, next, _, h⟩ := h
    obtain ⟨trees, next', htrees, h⟩ := run_bind_eq_ok.mp h
    obtain ⟨c, _, hcall, h⟩ := run_bind_eq_ok.mp h
    replace hcall := (run_ofExcept_eq_ok.mp hcall).1
    refine available_of_crafted (available_of_mem_operands hcall ?_) (.of_run h)
    refine forall_of_run_mapM (fun operand hoperand => ?_) htrees
    intro id n last hn
    cases operand with
    | none =>
      obtain ⟨rfl, _⟩ := run_pure_eq_ok.mp hn
      exact available_none
    | some child => exact ih child hoperand hn

/-- Whatever an operand of a description comes to can be given to a constructor. -/
theorem available_of_buildOperand {d : Option Description} {out : Option Node}
    (h : (buildOperand d).run id = .ok (out, last)) : Available out := by
  cases d with
  | none =>
    obtain ⟨rfl, _⟩ := run_pure_eq_ok.mp h
    exact available_none
  | some d => exact available_of_build h

/-- Building the first description, with the first identity left, comes to building the second one,
which is a part of it, with the second identity left. -/
inductive Reaches : Description → NodeId → Description → NodeId → Prop
  | self (d : Description) (id : NodeId) : Reaches d id d id
  | operand {d child part : Description} {done rest : List (Option Description)}
      {trees : List (Option Node)} {id next last : NodeId} (hcheck : d.precheck = .ok ())
      (hoperands : d.operands = done ++ some child :: rest)
      (hdone : (done.mapM buildOperand).run id = .ok (trees, next))
      (hbelow : Reaches child next part last) : Reaches d id part last

/-- The description is a composition of two trees, and analysing them comes to the premultiplied
clamp of a color that has a NaN for alpha. -/
def FoldsNaN (d : Description) (id : NodeId) : Prop :=
  ∃ f g n m next last, d = compose f g ∧ (buildOperand f).run id = .ok (some n, next) ∧
    (buildOperand g).run next = .ok (some m, last) ∧ SeriesAnalysis.MeetsNaN .unknown [m, n]

/-- A description breaks a rule of the library in building an operand or in the call at its top. -/
theorem build_violation_iff {d : Description} {v : Violation} :
    d.build.run id = .error (.violation v) ↔ d.precheck = .ok () ∧
      ((∃ done child rest trees next, d.operands = done ++ some child :: rest ∧
          (done.mapM buildOperand).run id = .ok (trees, next) ∧
          child.build.run next = .error (.violation v)) ∨
        ∃ trees next c, (d.operands.mapM buildOperand).run id = .ok (trees, next) ∧
          d.call trees = .ok c ∧ c.run.run next = .error (.violation v)) := by
  rw [build_eq, run_bind_eq_error]
  constructor
  · rintro (h | ⟨_, next, hcheck, h⟩)
    · exact absurd h run_ofExcept_ne_violation
    · obtain ⟨hpassed, rfl⟩ := run_ofExcept_eq_ok.mp hcheck
      refine ⟨hpassed, ?_⟩
      obtain h | ⟨trees, next, htrees, h⟩ := run_bind_eq_error.mp h
      · obtain ⟨done, operand, rest, trees, next, hoperands, hdone, h⟩ := run_mapM_eq_error.mp h
        cases operand with
        | none => cases h
        | some child => exact .inl ⟨done, child, rest, trees, next, hoperands, hdone, h⟩
      · obtain h | ⟨c, last, hcall, h⟩ := run_bind_eq_error.mp h
        · exact absurd h run_ofExcept_ne_violation
        · obtain ⟨hc, rfl⟩ := run_ofExcept_eq_ok.mp hcall
          exact .inr ⟨trees, next, c, htrees, hc, h⟩
  · rintro ⟨hcheck, h⟩
    refine .inr ⟨(), id, run_ofExcept_eq_ok.mpr ⟨hcheck, rfl⟩, run_bind_eq_error.mpr ?_⟩
    obtain ⟨done, child, rest, trees, next, hoperands, hdone, h⟩ |
      ⟨trees, next, c, htrees, hcall, h⟩ := h
    · exact .inl (run_mapM_eq_error.mpr ⟨done, some child, rest, trees, next, hoperands, hdone, h⟩)
    · exact .inr ⟨trees, next, htrees, run_bind_eq_error.mpr
        (.inr ⟨c, next, run_ofExcept_eq_ok.mpr ⟨hcall, rfl⟩, h⟩)⟩

/-- Only composition is called with the two trees of a composition. -/
theorem eq_compose_of_call {d : Description} {trees : List (Option Node)} {n m : Option Node}
    (h : d.call trees = .ok (.combine .compose n m)) :
    ∃ f g, d = compose f g ∧ trees[0]?.join = n ∧ trees[1]?.join = m := by
  cases d with
  | compose f g =>
    cases h
    exact ⟨f, g, rfl, rfl, rfl⟩
  | destColor | premul | mulChildByInputAlpha | mulInputByChildAlpha | clamp | deviceSpace
  | blend => cases h
  | color | overrideInput | swizzle | modulateAlpha | modulateRgba | colorMatrix | matrix =>
    obtain ⟨_, _, h⟩ := Except.bind_eq_ok.mp h
    cases h
  | linearGradient =>
    obtain ⟨_, _, h⟩ := Except.bind_eq_ok.mp h
    obtain ⟨_, _, h⟩ := Except.bind_eq_ok.mp h
    obtain ⟨_, _, h⟩ := Except.bind_eq_ok.mp h
    cases h

/-- Two operands are built one after the other. -/
theorem run_mapM_two {f g : Option Description} {trees : List (Option Node)}
    (h : ([f, g].mapM buildOperand).run id = .ok (trees, last)) :
    ∃ n m next, trees = [n, m] ∧ (buildOperand f).run id = .ok (n, next) ∧
      (buildOperand g).run next = .ok (m, last) := by
  rw [List.mapM_cons, run_bind_eq_ok] at h
  obtain ⟨n, next, hn, h⟩ := h
  obtain ⟨ms, _, hms, h⟩ := run_bind_eq_ok.mp h
  obtain ⟨rfl, rfl⟩ := run_pure_eq_ok.mp h
  rw [List.mapM_cons, run_bind_eq_ok] at hms
  obtain ⟨m, _, hm, hms⟩ := hms
  cases hms
  exact ⟨n, m, next, rfl, hn, hm⟩

/-- A composition that comes to the clamp of a NaN breaks off. -/
theorem FoldsNaN.build_eq {d : Description} (h : d.FoldsNaN id) :
    d.build.run id = .error (.violation .clampBounds) := by
  obtain ⟨f, g, n, m, next, last, rfl, hf, hg, hmeets⟩ := h
  rw [build, run_bind_of_ok hf, run_bind_of_ok hg]
  exact (run_compose_eq_error_iff (available_of_buildOperand hf)
    (available_of_buildOperand hg)).mpr ⟨rfl, hmeets⟩

/-- Building a description breaks a rule of the library exactly if it comes to such a
composition. -/
theorem build_eq_violation_iff {d : Description} {v : Violation} :
    d.build.run id = .error (.violation v) ↔
      v = .clampBounds ∧ ∃ part next, d.Reaches id part next ∧ part.FoldsNaN next := by
  constructor
  · intro h
    induction d generalizing id with
    | step d ih =>
      obtain ⟨hcheck, hcase⟩ := build_violation_iff.mp h
      obtain ⟨done, child, rest, trees, next, hoperands, hdone, h⟩ |
        ⟨trees, next, c, htrees, hcall, h⟩ := hcase
      · have hmem : some child ∈ d.operands := by simp [hoperands]
        obtain ⟨hv, part, last, hpart, hfolds⟩ := ih child hmem h
        exact ⟨hv, part, last, .operand hcheck hoperands hdone hpart, hfolds⟩
      · have havailable : ∀ n, n ∈ c.operands → Available n := by
          refine available_of_mem_operands hcall (forall_of_run_mapM ?_ htrees)
          exact fun operand _ _ _ _ hn => available_of_buildOperand hn
        obtain ⟨hv, n, m, rfl, hmeets⟩ := (Call.run_eq_error_iff havailable).mp h
        cases hv
        obtain ⟨f, g, rfl, hn, hm⟩ := eq_compose_of_call hcall
        obtain ⟨_, _, mid, rfl, hf, hg⟩ := run_mapM_two htrees
        cases hn
        cases hm
        exact ⟨rfl, _, id, .self _ id, f, g, n, m, mid, next, rfl, hf, hg, hmeets⟩
  · rintro ⟨rfl, part, next, hreaches, hfolds⟩
    induction hreaches with
    | self d id => exact hfolds.build_eq
    | operand hcheck hoperands hdone _ ih =>
      exact build_violation_iff.mpr ⟨hcheck, .inl ⟨_, _, _, _, _, hoperands, hdone, ih hfolds⟩⟩

/-- Where descriptions break rules of the library. Building one does so exactly if it comes to a
composition that folds the premultiplied clamp of a color with a NaN for alpha. Evaluating the tree
that it yields does so exactly if the tree is marked for constant output and the evaluation comes to
such a clamp. -/
theorem breaks_rule_iff (d : Description) (id : NodeId) :
    (∀ v, d.build.run id = .error (.violation v) ↔
      v = .clampBounds ∧ ∃ part next, d.Reaches id part next ∧ part.FoldsNaN next) ∧
    ∀ (n : Node) (last : NodeId), d.build.run id = .ok (some n, last) →
      ∀ (input : Color Single) (v : Violation), n.shade input = .error (.violation v) ↔
        v = .clampBounds ∧ n.optimizations.constantOutput ∧ n.MeetsNaN input := by
  refine ⟨fun v => build_eq_violation_iff, fun n last hrun input v => ?_⟩
  exact ((available_of_build hrun).standard n rfl).shade_eq_violation_iff

/-- A color with a large alpha, atop itself and clamped. Atop itself it has a NaN for alpha, the sum
of two infinities. -/
def clampedGlare : Description :=
  let glare : Description := color (.list ⟨0, 0, 0, Ieee.ofUInt32 0x7F000000⟩)
  clamp (some (blend (some glare) (some glare) .srcATop .default)) true

/-- The clamp meets a NaN in the description above, although building the description succeeds. -/
theorem breaks_rule_iff_clampedGlare :
    ∃ n last, clampedGlare.build.run ⟨0⟩ = .ok (some n, last) ∧ n.MeetsNaN .transparent := by
  have hbreaks : (clampedGlare.build.run ⟨0⟩).toOption.any (fun out => out.1.any fun n =>
      decide (n.shade (.transparent : Color Single) = .error (.violation .clampBounds))) := by
    decide +kernel
  obtain ⟨⟨out, last⟩, hrun, hbreaks⟩ := Except.exists_ok_of_any hbreaks
  obtain ⟨n, rfl, hbreaks⟩ := (Option.any_eq_true _ _).mp hbreaks
  have hshade := (breaks_rule_iff clampedGlare ⟨0⟩).2 n last hrun .transparent .clampBounds
  exact ⟨n, last, hrun, (hshade.mp (of_decide_eq_true hbreaks)).2.2⟩

/-- The text of such a description. -/
def clampedGlareText : String :=
  "[\"clamp\", [\"blend\", [\"color\", [0, 0, 0, 3e38]], [\"color\", [0, 0, 0, 3e38]], " ++
    "\"src_a_top\"], true]"

/-- The same, applied to white. -/
def clampedGlareOfWhiteText : String :=
  "[\"compose\", " ++ clampedGlareText ++ ", [\"color\", [1, 1, 1, 1]]]"

/-- Finite parameters and a finite input do not rule such clamps out, neither while a description is
built nor afterwards. -/
theorem accepted_texts_break_rule :
    (∃ d, ofText clampedGlareOfWhiteText = .ok d ∧ d.tree = .error (.violation .clampBounds)) ∧
    ∃ d n, ofText clampedGlareText = .ok d ∧ d.tree = .ok (some n) ∧
      n.shade (.white : Color Single) = .error (.violation .clampBounds) := by
  constructor
  · have hbreaks : (ofText clampedGlareOfWhiteText).toOption.any (fun d =>
        decide (Option.isSome <$> d.tree = .error (.violation .clampBounds))) := by
      decide +kernel
    obtain ⟨d, hd, hbreaks⟩ := Except.exists_ok_of_any hbreaks
    exact ⟨d, hd, Except.map_eq_error.mp (of_decide_eq_true hbreaks)⟩
  · have hbreaks : (ofText clampedGlareText).toOption.any (fun d => d.tree.toOption.any
        (Option.any fun n =>
          decide (n.shade (.white : Color Single) = .error (.violation .clampBounds)))) := by
      decide +kernel
    obtain ⟨d, hd, hbreaks⟩ := Except.exists_ok_of_any hbreaks
    obtain ⟨out, hout, hbreaks⟩ := Except.exists_ok_of_any hbreaks
    obtain ⟨n, rfl, hbreaks⟩ := (Option.any_eq_true _ _).mp hbreaks
    exact ⟨d, n, hd, hout, of_decide_eq_true hbreaks⟩

end Description

end PixelEffect
