import PixelEffect.Proofs.Effect.Building

namespace PixelEffect

/-- A check that passes if the condition holds, and else ends with a validation error. -/
structure Checks {α : Type} (condition : Prop) (x : Except Error α) : Prop where
  passes : condition → ∃ a, x = .ok a
  refuses : ¬condition → ∃ cause, x = .error (.validation cause)

namespace Checks

variable {α β : Type} {condition condition' : Prop} {x : Except Error α} {f : α → Except Error β}

theorem pure (a : α) : Checks True (.ok a) := ⟨fun _ => ⟨a, rfl⟩, fun h => absurd trivial h⟩

theorem ite {condition : Prop} [Decidable condition] (a : α) (cause : ValidationError) :
    Checks condition (if condition then .ok a else .error (.validation cause)) :=
  ⟨fun h => ⟨a, if_pos h⟩, fun h => ⟨cause, if_neg h⟩⟩

/-- Two checks pass if both conditions hold, the second one in view of what the first has read. -/
theorem bind (hx : Checks condition x) (hf : ∀ a, x = .ok a → Checks condition' (f a)) :
    Checks (condition ∧ condition') (x >>= f) where
  passes := by
    rintro ⟨h, h'⟩
    obtain ⟨a, ha⟩ := hx.passes h
    obtain ⟨b, hb⟩ := (hf a ha).passes h'
    exact ⟨b, Except.bind_eq_ok.mpr ⟨a, ha, hb⟩⟩
  refuses := by
    intro h
    by_cases hcondition : condition
    · obtain ⟨a, ha⟩ := hx.passes hcondition
      obtain ⟨cause, hcause⟩ := (hf a ha).refuses fun h' => h ⟨hcondition, h'⟩
      exact ⟨cause, Except.bind_eq_error.mpr (.inr ⟨a, ha, hcause⟩)⟩
    · obtain ⟨cause, hcause⟩ := hx.refuses hcondition
      exact ⟨cause, Except.bind_eq_error.mpr (.inl hcause)⟩

/-- A check that is followed by something that cannot fail. -/
theorem map (hx : Checks condition x) (g : α → β) : Checks condition (do return g (← x)) where
  passes := by
    intro h
    obtain ⟨a, ha⟩ := hx.passes h
    exact ⟨g a, Except.bind_eq_ok.mpr ⟨a, ha, rfl⟩⟩
  refuses := by
    intro h
    obtain ⟨cause, hcause⟩ := hx.refuses h
    exact ⟨cause, Except.bind_eq_error.mpr (.inl hcause)⟩

/-- The condition of a check may be put in other words. -/
theorem congr (hx : Checks condition x) (h : condition ↔ condition') : Checks condition' x where
  passes := fun h' => hx.passes (h.mpr h')
  refuses := fun h' => hx.refuses fun hc => h' (h.mp hc)

end Checks

/-- A color has to be finite in all channels. -/
theorem ColorSpec.checks_validate (c : ColorSpec) : Checks (c.toColor.isFinite) c.validate :=
  .ite _ _

/-- A transform has to be finite in all coefficients. -/
theorem MatrixSpec.checks_validate (m : MatrixSpec) : Checks (m.toMatrix3.isFinite) m.validate :=
  .ite _ _

/-- The characters that name channels. -/
def Channel.alphabet : List Char := ['r', 'g', 'b', 'a', '0', '1']

/-- Only the letters and digits of the alphabet name channels. -/
theorem Channel.ofChar?_eq_none_iff {c : Char} : ofChar? c = none ↔ c ∉ alphabet := by
  unfold ofChar? alphabet
  split <;> simp_all

/-- A reading of a character that takes the channel if there is one. -/
theorem Channel.checks_ofChar? {c : Char} {x : Except Error Channel}
    (hnone : ofChar? c = none → ∃ cause, x = .error (.validation cause))
    (hsome : ∀ channel, ofChar? c = some channel → x = .ok channel) : Checks (c ∈ alphabet) x where
  passes := by
    intro hc
    have hreads : ofChar? c ≠ none := fun h => ofChar?_eq_none_iff.mp h hc
    obtain ⟨channel, hchannel⟩ := Option.ne_none_iff_exists'.mp hreads
    exact ⟨channel, hsome channel hchannel⟩
  refuses := fun hc => hnone (ofChar?_eq_none_iff.mpr hc)

/-- A swizzle is refused unless it is four characters that name channels. -/
theorem Swizzle.checks_ofText (text : String) :
    Checks (text.toList.length = 4 ∧ ∀ c, c ∈ text.toList → c ∈ Channel.alphabet)
      (ofText text) := by
  delta ofText
  extract_lets channel
  have hchannel : ∀ c, Checks (c ∈ Channel.alphabet) (channel c) := fun c =>
    Channel.checks_ofChar? (fun h => ⟨_, by simp only [channel, h]; rfl⟩)
      fun _ h => by simp only [channel, h]
  match text.toList with
  | [r, g, b, a] =>
    refine Checks.congr ((hchannel r).bind fun _ _ => (hchannel g).bind fun _ _ =>
      (hchannel b).bind fun _ _ => (hchannel a).map _) ?_
    simp
  | [] | [_] | [_, _] | [_, _, _] | _ :: _ :: _ :: _ :: _ :: _ =>
    exact ⟨fun h => by simp at h, fun _ => ⟨_, rfl⟩⟩

/-- A color matrix is refused unless it has twenty finite coefficients. -/
theorem ColorMatrix.checks_ofList (coefficients : List Single)
    (unpremulInput clampRgbOutput premulOutput : Bool) :
    Checks (coefficients.length = 20 ∧ coefficients.all Ieee.isFinite)
      (ofList coefficients unpremulInput clampRgbOutput premulOutput) := by
  unfold ofList
  split
  · refine (Checks.ite _ _).congr ?_
    simp
  · rename_i hlength
    refine ⟨fun h => ?_, fun _ => ⟨_, rfl⟩⟩
    match coefficients, h.1 with
    | [_, _, _, _, _, _, _, _, _, _, _, _, _, _, _, _, _, _, _, _], _ =>
      exact absurd rfl (hlength _ _ _ _ _ _ _ _ _ _ _ _ _ _ _ _ _ _ _ _)

namespace Description

/-- The parameters of a description itself are acceptable, whatever those of its operands are. -/
def acceptable : Description → Bool
  | color c | overrideInput _ c _ | modulateAlpha _ c | modulateRgba _ c => c.toColor.isFinite
  | swizzle _ s => s.toList.length = 4 && s.toList.all (· ∈ Channel.alphabet)
  | matrix _ m => m.toMatrix3.isFinite
  | colorMatrix _ coefficients .. => coefficients.length = 20 && coefficients.all Ieee.isFinite
  | linearGradient start finish c d =>
    (start.toList ++ finish.toList).all Ieee.isFinite && c.toColor.isFinite && d.toColor.isFinite
  | destColor | premul _ | compose .. | blend .. | mulChildByInputAlpha _ | mulInputByChildAlpha _
  | clamp .. | deviceSpace _ => true

/-- All parameters of a description are looked at, whatever its operands have come to. -/
theorem checks_call (d : Description) (trees : List (Option Node)) :
    Checks d.acceptable (d.call trees) := by
  cases d with
  | destColor | premul | compose | blend | mulChildByInputAlpha | mulInputByChildAlpha | clamp
  | deviceSpace => exact (Checks.pure _).congr (by simp [acceptable])
  | color c | overrideInput _ c | modulateAlpha _ c | modulateRgba _ c =>
    exact c.checks_validate.map _
  | swizzle child s =>
    refine ((Swizzle.checks_ofText s).map _).congr ?_
    simp [acceptable]
  | matrix child m => exact m.checks_validate.map _
  | colorMatrix child coefficients =>
    refine ((ColorMatrix.checks_ofList coefficients _ _ _).map _).congr ?_
    simp [acceptable]
  | linearGradient start finish c d =>
    refine ((Checks.ite () _).bind fun _ _ =>
      c.checks_validate.bind fun _ _ => d.checks_validate.map _).congr ?_
    simp only [acceptable, Bool.and_eq_true, and_assoc]

/-- What is checked before the operands are built is checked again later. -/
theorem precheck_of_acceptable {d : Description} (h : d.acceptable) : d.precheck = .ok () := by
  cases d with
  | colorMatrix child coefficients u c p =>
    have hcheck := ColorMatrix.checks_ofList coefficients u c p
    simp only [acceptable, Bool.and_eq_true, decide_eq_true_eq] at h
    obtain ⟨m, hm⟩ := hcheck.passes h
    rw [precheck, hm]
    rfl
  | _ => rfl

theorem checks_precheck (d : Description) : Checks (d.precheck = .ok ()) d.precheck := by
  cases d with
  | colorMatrix child coefficients u c p =>
    have hcheck := ColorMatrix.checks_ofList coefficients u c p
    refine ⟨fun h => ⟨(), h⟩, fun h => ?_⟩
    by_cases hfits : coefficients.length = 20 ∧ coefficients.all Ieee.isFinite
    · obtain ⟨m, hm⟩ := hcheck.passes hfits
      rw [precheck, hm] at h
      exact absurd rfl h
    · obtain ⟨cause, hcause⟩ := hcheck.refuses hfits
      exact ⟨cause, by rw [precheck, hcause]; rfl⟩
  | _ => exact ⟨fun _ => ⟨(), rfl⟩, fun h => absurd rfl h⟩

end Description

end PixelEffect
