import Mathlib.Data.List.Forall2
import PixelEffect.Proofs.Description.Validation

namespace PixelEffect

namespace Build

variable {α β : Type} {valid valid' : Prop} {expected : α → Prop} {expected' : β → Prop}

/-- A computation that does not break a rule of the library yields what is expected if its
parameters are valid, and else refuses one of them. -/
inductive Outcome (valid : Prop) (expected : α → Prop) : Except Failure (α × NodeId) → Prop
  | breaks (v : Violation) : Outcome valid expected (.error (.violation v))
  | refuses (cause : ValidationError) (h : ¬valid) :
    Outcome valid expected (.error (.error (.validation cause)))
  | yields (a : α) (last : NodeId) (h : valid) (ha : expected a) :
    Outcome valid expected (.ok (a, last))

namespace Outcome

/-- An outcome may be described in other words, and what is expected may be weakened. -/
theorem mono {r : Except Failure (α × NodeId)} {expected' : α → Prop}
    (h : Outcome valid expected r) (hvalid : valid ↔ valid')
    (hexpected : ∀ a, expected a → expected' a) : Outcome valid' expected' r := by
  cases h with
  | breaks v => exact .breaks v
  | refuses cause h => exact .refuses cause (mt hvalid.mpr h)
  | yields a last h ha => exact .yields a last (hvalid.mp h) (hexpected a ha)

theorem pure {a : α} {id : NodeId} (ha : expected a) :
    Outcome True expected ((Pure.pure a : Build α).run id) :=
  .yields a id trivial ha

/-- The first parameter that is refused ends a computation. -/
theorem bind {x : Build α} {f : α → Build β} {id : NodeId} (hx : Outcome valid expected (x.run id))
    (hf : ∀ a next, x.run id = .ok (a, next) → expected a →
      Outcome valid' expected' ((f a).run next)) :
    Outcome (valid ∧ valid') expected' ((x >>= f).run id) := by
  generalize hrun : x.run id = r at hx
  cases hx with
  | breaks v =>
    rw [run_bind_eq_error.mpr (.inl hrun)]
    exact .breaks v
  | refuses cause h =>
    rw [run_bind_eq_error.mpr (.inl hrun)]
    exact .refuses cause fun hboth => h hboth.1
  | yields a next h ha =>
    rw [run_bind_of_ok hrun]
    exact (hf a next hrun ha).mono (and_iff_right h).symm fun _ hb => hb

theorem ofExcept {x : Except Error α} (h : Checks valid x) (id : NodeId) :
    Outcome valid (x = .ok ·) ((Build.ofExcept x).run id) := by
  by_cases hvalid : valid
  · obtain ⟨a, rfl⟩ := h.passes hvalid
    exact .yields a id hvalid rfl
  · obtain ⟨cause, rfl⟩ := h.refuses hvalid
    exact .refuses cause hvalid

/-- One computation after another, each with parameters of its own. -/
theorem mapM {f : α → Build β} {xs : List α} {valid : α → Prop} {expected : α → β → Prop}
    (h : ∀ x, x ∈ xs → ∀ id, Outcome (valid x) (expected x) ((f x).run id)) (id : NodeId) :
    Outcome (∀ x, x ∈ xs → valid x) (List.Forall₂ expected xs) ((xs.mapM f).run id) := by
  induction xs generalizing id with
  | nil => exact (pure List.Forall₂.nil).mono (by simp) fun _ h => h
  | cons x xs ih =>
    rw [List.mapM_cons]
    have hrest := fun next => ih (fun z hz => h z (List.mem_cons_of_mem _ hz)) next
    refine ((h x List.mem_cons_self id).bind fun y next _ hy => (hrest next).bind
      fun ys _ _ hys => pure (List.Forall₂.cons hy hys)).mono ?_ fun _ h => h
    rw [and_true, List.forall_mem_cons]

end Outcome

end Build

namespace Effect.Call

open Build

/-- A call that yields no tree, which only depends on which operands there are. -/
def absent : Call → Bool
  | source _ | modify (.colorMatrix _) _ | modify (.modulateAlpha _) _
  | modify (.modulateRgba _) _ => false
  | modify _ child => child.isNone
  | combine .compose f g => f.isNone && g.isNone
  | combine (.blend .src _) f _ => f.isNone
  | combine (.blend .dst _) _ g => g.isNone
  | combine (.blend ..) _ _ => false

theorem isNone_of_run_map {x : Build Node} {id last : NodeId} {out : Option Node}
    (h : (some <$> x).run id = .ok (out, last)) : out.isNone = false := by
  obtain ⟨n, _, rfl⟩ := run_map_eq_ok.mp h
  rfl

theorem isNone_of_run_mapM {child out : Option Node} {f : Node → Build Node} {id last : NodeId}
    (h : (child.mapM f).run id = .ok (out, last)) : out.isNone = child.isNone := by
  obtain ⟨rfl, rfl, _⟩ | ⟨_, _, rfl, rfl, _⟩ := run_mapM_eq_ok.mp h <;> rfl

/-- Whether a call yields a tree depends on which operands there are, and on nothing else. -/
theorem isNone_of_run {c : Call} {id last : NodeId} {out : Option Node}
    (h : c.run.run id = .ok (out, last)) : out.isNone = c.absent := by
  cases c with
  | source s => exact isNone_of_run_map h
  | modify m child =>
    cases m with
    | overrideInput | swizzle | premul | clamp | deviceSpace | matrix => exact isNone_of_run_mapM h
    | colorMatrix | modulateAlpha | modulateRgba => exact isNone_of_run_map h
    | mulChildByInputAlpha | mulInputByChildAlpha =>
      cases child with
      | none =>
        obtain ⟨rfl, _⟩ := run_pure_eq_ok.mp h
        rfl
      | some child => exact isNone_of_run_map h
  | combine c f g =>
    cases c with
    | compose =>
      cases f with
      | none =>
        obtain ⟨rfl, _⟩ := run_pure_eq_ok.mp h
        rfl
      | some f =>
        cases g with
        | none =>
          obtain ⟨rfl, _⟩ := run_pure_eq_ok.mp h
          rfl
        | some g =>
          obtain ⟨_, _, _, _, rfl⟩ := run_compose_eq_ok.mp h
          rfl
    | blend mode behavior =>
      cases mode with
      | src | dst =>
        obtain ⟨rfl, _⟩ := run_pure_eq_ok.mp h
        rfl
      | _ => exact isNone_of_run_map h

/-- A call on trees that nobody has attached refuses nothing. -/
theorem outcome {c : Call} {id : NodeId} (h : ∀ n, n ∈ c.operands → Available n) :
    Outcome True (fun out => out.isNone = c.absent) (c.run.run id) := by
  match hrun : c.run.run id with
  | .error e =>
    obtain ⟨rfl, _⟩ := (run_eq_error_iff h).mp hrun
    exact .breaks _
  | .ok (out, last) => exact .yields out last trivial (isNone_of_run hrun)

end Effect.Call

namespace Description

open Effect Build

/-- The first description is the second one or stands anywhere below it. -/
inductive Within : Description → Description → Prop
  | self (d : Description) : Within d d
  | operand {part child d : Description} (hchild : some child ∈ d.operands)
      (hpart : Within part child) : Within part d

/-- All parameters of a description, and of all that stand below it, are acceptable. -/
def Valid (d : Description) : Prop := ∀ part : Description, part.Within d → part.acceptable

/-- A description is valid if its own parameters are acceptable and its operands are valid. -/
theorem valid_iff {d : Description} :
    d.Valid ↔ d.acceptable ∧ ∀ child, some child ∈ d.operands → child.Valid := by
  constructor
  · intro h
    exact ⟨h d (.self d), fun child hchild part hpart => h part (.operand hchild hpart)⟩
  · rintro ⟨hself, hoperands⟩ part hpart
    cases hpart with
    | self => exact hself
    | operand hchild hpart => exact hoperands _ hchild part hpart

mutual

/-- A description that comes to an operand that is missing. -/
def absent : Description → Bool
  | overrideInput child .. | swizzle child _ | premul child | mulChildByInputAlpha child
  | mulInputByChildAlpha child | clamp child _ | deviceSpace child | matrix child _ =>
    absentOperand child
  | compose f g => absentOperand f && absentOperand g
  | blend source _ .src _ => absentOperand source
  | blend _ destination .dst _ => absentOperand destination
  | blend .. | color _ | destColor | modulateAlpha .. | modulateRgba .. | colorMatrix ..
  | linearGradient .. => false

def absentOperand : Option Description → Bool
  | none => true
  | some child => absent child

end

/-- The operands have come to trees, or to none where they are absent. -/
abbrev BuiltTo : List (Option Description) → List (Option Node) → Prop :=
  List.Forall₂ fun operand tree => tree.isNone = absentOperand operand

/-- Where an operand is absent, there is no tree for it. -/
theorem isNone_of_builtTo {operands : List (Option Description)} {trees : List (Option Node)}
    (h : BuiltTo operands trees) (i : Nat) :
    trees[i]?.join.isNone = absentOperand operands[i]?.join := by
  induction h generalizing i with
  | nil => rfl
  | cons hhead _ ih =>
    cases i with
    | zero => exact hhead
    | succ i => exact ih i

/-- The call of a description yields nothing exactly if the description comes to a missing operand.
-/
theorem absent_call {d : Description} {trees : List (Option Node)} {c : Call}
    (h : d.call trees = .ok c) (htrees : BuiltTo d.operands trees) : c.absent = d.absent := by
  have hfirst := isNone_of_builtTo htrees 0
  have hsecond := isNone_of_builtTo htrees 1
  cases d with
  | premul | mulChildByInputAlpha | mulInputByChildAlpha | clamp | deviceSpace =>
    cases h
    exact hfirst
  | overrideInput | swizzle | matrix =>
    obtain ⟨_, _, h⟩ := Except.bind_eq_ok.mp h
    cases h
    exact hfirst
  | compose =>
    cases h
    exact congrArg₂ and hfirst hsecond
  | blend _ _ mode =>
    cases h
    cases mode with
    | src => exact hfirst
    | dst => exact hsecond
    | _ => rfl
  | destColor =>
    cases h
    rfl
  | color | modulateAlpha | modulateRgba | colorMatrix =>
    obtain ⟨_, _, h⟩ := Except.bind_eq_ok.mp h
    cases h
    rfl
  | linearGradient =>
    obtain ⟨_, _, h⟩ := Except.bind_eq_ok.mp h
    obtain ⟨_, _, h⟩ := Except.bind_eq_ok.mp h
    obtain ⟨_, _, h⟩ := Except.bind_eq_ok.mp h
    cases h
    rfl

/-- What comes of a description, and likewise of an operand. -/
theorem outcome_build (d : Description) (id : NodeId) :
    Outcome d.Valid (fun out => out.isNone = d.absent) (d.build.run id) := by
  induction d generalizing id with
  | step d ih =>
    have hoperands : ∀ operand, operand ∈ d.operands → ∀ id,
        Outcome (∀ child, operand = some child → child.Valid)
          (fun out => out.isNone = absentOperand operand) ((buildOperand operand).run id) := by
      intro operand hoperand id
      cases operand with
      | none =>
        have hnone : Outcome True (fun out => out.isNone = absentOperand none)
            ((pure none : Build (Option Node)).run id) := .pure rfl
        exact hnone.mono (by simp) fun _ h => h
      | some child => exact (ih child hoperand id).mono (by simp) fun _ h => h
    rw [build_eq]
    refine ((Outcome.ofExcept d.checks_precheck id).bind fun _ next _ _ =>
      (Outcome.mapM hoperands next).bind fun trees next' hrun htrees =>
        (Outcome.ofExcept (d.checks_call trees) next').bind fun c _ _ hcall =>
          (c.outcome ?_).mono Iff.rfl ?_).mono ?_ fun _ h => h
    · refine available_of_mem_operands hcall (forall_of_run_mapM ?_ hrun)
      exact fun _ _ _ _ _ => available_of_buildOperand
    · intro out hout
      rw [hout, absent_call hcall htrees]
    · rw [valid_iff]
      constructor
      · rintro ⟨_, hoperands, hself, _⟩
        exact ⟨hself, fun child hchild => hoperands _ hchild child rfl⟩
      · rintro ⟨hself, hoperands⟩
        refine ⟨precheck_of_acceptable hself, ?_, hself, trivial⟩
        rintro _ hoperand child rfl
        exact hoperands child hoperand

/-- The outcome of building a description that breaks no rule of the library. Every error is about a
parameter, and there is one exactly if a parameter is not acceptable, wherever it stands. Without
one there is a tree unless the description comes to a missing operand. -/
theorem build_predictable (d : Description) (id : NodeId)
    (hrules : ∀ v, d.build.run id ≠ .error (.violation v)) :
    (∀ e, d.build.run id = .error e → ∃ cause, e = .error (.validation cause)) ∧
    ((∃ e, d.build.run id = .error e) ↔ ∃ part : Description, part.Within d ∧ ¬part.acceptable) ∧
    ((∀ part : Description, part.Within d → part.acceptable) →
      ∃ out last, d.build.run id = .ok (out, last) ∧ (out = none ↔ d.absent)) := by
  have hinvalid : ¬d.Valid ↔ ∃ part : Description, part.Within d ∧ ¬part.acceptable := by
    simp only [Valid, not_forall, exists_prop]
  rw [← hinvalid]
  have houtcome := outcome_build d id
  generalize d.build.run id = r at houtcome hrules
  cases houtcome with
  | breaks v => exact absurd rfl (hrules v)
  | refuses cause h =>
    refine ⟨?_, ⟨fun _ => h, fun _ => ⟨_, rfl⟩⟩, fun hvalid => absurd hvalid h⟩
    rintro e ⟨⟩
    exact ⟨cause, rfl⟩
  | yields out last h hout =>
    refine ⟨fun e he => (by cases he), ⟨fun ⟨e, he⟩ => (by cases he), absurd h⟩,
      fun _ => ⟨out, last, rfl, ?_⟩⟩
    rw [← hout, Option.isNone_iff_eq_none]

/-- A swizzle with a character that names no channel. It has no child, and the blend does not use
it. -/
def discardedTypo : Description :=
  blend (some (swizzle none "rgbx")) (some destColor) .clear .default

/-- The source of the blend lacks its child, and the composition has no other tree. -/
def missingSource : Description :=
  compose none (some (blend (some (swizzle none "bgra")) (some destColor) .src .default))

/-- An invalid parameter is an error even where the blend drops the operand, and a missing operand
is none. -/
theorem build_predictable_discardedTypo :
    (∃ cause, discardedTypo.build.run ⟨0⟩ = .error (.error (.validation cause))) ∧
    ∃ last, missingSource.build.run ⟨0⟩ = .ok (none, last) := by
  constructor
  · have hrules : ∀ v, discardedTypo.build.run ⟨0⟩ ≠ .error (.violation v) :=
      fun v h => (by cases h)
    obtain ⟨hkind, hiff, _⟩ := build_predictable discardedTypo ⟨0⟩ hrules
    have hpart : Within (swizzle none "rgbx") discardedTypo :=
      .operand (by simp [discardedTypo, operands]) (.self _)
    obtain ⟨e, he⟩ := hiff.mpr ⟨_, hpart, by decide⟩
    obtain ⟨cause, rfl⟩ := hkind e he
    exact ⟨cause, he⟩
  · have hrules : ∀ v, missingSource.build.run ⟨0⟩ ≠ .error (.violation v) :=
      fun v h => (by cases h)
    have hsource : (swizzle none "bgra").Valid :=
      valid_iff.mpr ⟨by decide, by simp [operands]⟩
    have hdestination : destColor.Valid := valid_iff.mpr ⟨rfl, by simp [operands]⟩
    have hblend : (blend (some (swizzle none "bgra")) (some destColor) .src .default).Valid :=
      valid_iff.mpr ⟨rfl, by simp [operands, hsource, hdestination]⟩
    have hvalid : missingSource.Valid :=
      valid_iff.mpr ⟨rfl, by simp [missingSource, operands, hblend]⟩
    obtain ⟨out, last, hrun, habsent⟩ := (build_predictable missingSource ⟨0⟩ hrules).2.2 hvalid
    exact ⟨last, by rw [hrun, habsent.mpr rfl]⟩

end Description

end PixelEffect
