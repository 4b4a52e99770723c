import PixelEffect.Proofs.Shader.References

namespace PixelEffect

open Shader ProgramOptions

namespace ProgramOptions

variable {w : List Char}

theorem forall_continuesName_of_isIdentifier (h : isIdentifier w) :
    w ≠ [] ∧ ∀ c, c ∈ w → continuesName c := by
  cases w with
  | nil => cases h
  | cons c w =>
    obtain ⟨hstart, hrest⟩ := Bool.and_eq_true _ _ |>.mp h
    refine ⟨List.cons_ne_nil c w, List.forall_mem_cons.mpr ⟨?_, List.all_eq_true.mp hrest⟩⟩
    simp only [startsName, continuesName, Char.isAlphanum, Bool.or_eq_true] at hstart ⊢
    exact hstart.imp_left .inl

theorem isReserved_of_isGlobal (h : isGlobal w) : isReserved w := by
  rcases Bool.or_eq_true _ _ |>.mp h with h | h <;> rw [of_decide_eq_true h] <;> decide

/-- An entry point is accepted if it is an identifier that is neither reserved nor the name of a
function. -/
theorem validate_eq_ok_iff {options : ProgramOptions} :
    options.validate = .ok () ↔ isIdentifier options.entryPoint.toList ∧
      isReserved options.entryPoint.toList = false ∧
      isFunctionName options.entryPoint.toList = false := by
  simp only [validate]
  split
  · simp_all
  · split
    · simp_all
    · split <;> simp_all

end ProgramOptions

namespace Shader

theorem isDigit_of_mem_toString {x : UInt32} {c : Char} (hc : c ∈ (toString x).toList) :
    c.isDigit := by
  have hdigits : (toString x).toList = Nat.toDigits 10 x.toNat := by
    show (Nat.repr x.toNat).toList = _
    rw [Nat.toList_repr]
  rw [hdigits] at hc
  exact Nat.isDigit_of_mem_toDigits (by decide) (by decide) hc

theorem isInert_toString (x : UInt32) : ∀ c, c ∈ (toString x).toList → isInert c :=
  fun _ hc => isInert_of_isDigit (isDigit_of_mem_toString hc)

/-- The texts of a program are put together at line ends. -/
theorem references_append (s : String) {t : String} (h : t = "" ∨ startsApart t) :
    references (s ++ t) = references s ++ references t := by
  rcases h with rfl | h
  · simp [show references "" = [] from rfl]
  · exact references_append_of_startsApart s h

/-- The head of a function declares the parameters. -/
theorem references_head {s : String} (hw : ∀ c, c ∈ s.toList → continuesName c)
    (hne : s.toList ≠ []) (hglobal : isGlobal s.toList = false) :
    references (s ++ signature) =
      (if isFunctionName s.toList then [.call s.toList] else [])
        ++ [.declaration "_input".toList, .declaration "_coords".toList] := by
  have hsignature : signature =
      "(" ++ "_input: vec4<f32>, _coords: vec2<f32>) -> vec4<f32> \x7b\n" := rfl
  rw [hsignature, ← String.append_assoc, references_append_of_endsApart (endsApart_append _ rfl),
    references_applied hw hne hglobal rfl]
  rfl

/-- A function declares its parameters and refers to what its body does. -/
theorem GeneratedFunction.references_text (f : GeneratedFunction) :
    references f.text =
      .call f.name.text.toList :: .declaration "_input".toList :: .declaration "_coords".toList
        :: references f.bodyText := by
  have hhead :=
    references_head f.name.continuesName_text f.name.text_ne_nil (isGlobal_function f.name)
  rw [if_pos f.name.isFunctionName_text] at hhead
  rw [text_eq, references_append_blank _ rfl rfl,
    references_append_of_endsApart (endsApart_append _ rfl), String.append_assoc,
    references_blank_append rfl rfl, hhead]
  rfl

end Shader

namespace ShaderSource

variable {s : ShaderSource} {w : List Char}

/-- The block of uniforms declares the uniforms and itself. -/
theorem references_uniformText (s : ShaderSource) :
    references s.uniformText =
      if s.uniforms.isEmpty then []
      else (s.uniforms.map fun u => .declaration u.text.toList) ++ [.declaration ['u']] := by
  have hline : ∀ u : UniformName,
      references ("    " ++ u.text ++ ": " ++ u.type.sourceText ++ ",\n") =
        [.declaration u.text.toList] := by
    intro u
    have htype : references u.type.sourceText = [] := by cases u.type <;> rfl
    rw [references_append_blank _ rfl rfl,
      references_append_of_endsApart (endsApart_append _ rfl), htype, List.append_nil,
      String.append_assoc, references_blank_append rfl rfl,
      references_declared u.continuesName_text u.text_ne_nil (isGlobal_uniform u) rfl]
  unfold uniformText
  split
  · rfl
  · rw [references_append_of_startsApart _ rfl, references_separated rfl rfl rfl,
      references_separated rfl rfl rfl, references_blank_append rfl rfl,
      references_join fun _ => endsApart_append _ rfl,
      references_eq_nil (isInert_toString s.options.uniformGroup),
      references_eq_nil (isInert_toString s.options.uniformBinding), funext hline,
      ← List.map_eq_flatMap, List.append_nil, List.append_nil]
    rfl

theorem references_globalText (s : ShaderSource) :
    references s.globalText =
      (if s.fragCoord then
          [.declaration Variable.fragCoord.text.toList, .global Variable.fragCoord.text.toList]
        else [])
      ++ (if s.destination then
          [.declaration Variable.destColor.text.toList, .global Variable.destColor.text.toList]
        else []) := by
  unfold globalText
  cases s.fragCoord <;> cases s.destination <;> rfl

/-- The entry point refers to the function of the root. -/
theorem references_entryText (hvalid : s.options.validate = .ok ()) :
    references s.entryText =
      [.declaration "_input".toList, .declaration "_coords".toList, .call s.root.text.toList] := by
  obtain ⟨hidentifier, hreserved, hcollides⟩ := validate_eq_ok_iff.mp hvalid
  obtain ⟨hne, hname⟩ := forall_continuesName_of_isIdentifier hidentifier
  have hglobal : isGlobal s.options.entryPoint.toList = false := by
    rw [← Bool.not_eq_true]
    intro h
    rw [isReserved_of_isGlobal h] at hreserved
    cases hreserved
  have hhead := references_head hname hne hglobal
  rw [hcollides] at hhead
  have hcall : references (s.root.text ++ "(_input, _coords);\n\x7d\n") =
      [.call s.root.text.toList] := by
    have hrest : "(_input, _coords);\n\x7d\n" = "(" ++ "_input, _coords);\n\x7d\n" := rfl
    rw [hrest, ← String.append_assoc, references_append_of_endsApart (endsApart_append _ rfl),
      references_function]
    rfl
  have htext : s.entryText = "\nfn " ++ (s.options.entryPoint ++ signature) ++ "    return "
      ++ (s.root.text ++ "(_input, _coords);\n\x7d\n") := by
    simp only [entryText, String.append_assoc]
  rw [htext, references_append_of_endsApart (endsApart_append _ rfl), hcall,
    references_append_blank _ rfl rfl, references_blank_append rfl rfl, hhead]
  rfl

/-- A program refers to what its parts refer to. -/
theorem references_text (s : ShaderSource) :
    references s.text = references s.uniformText ++ references s.globalText
      ++ s.functions.flatMap (fun f => references f.text) ++ references s.entryText := by
  have hline : ∀ f : GeneratedFunction, references ("\n" ++ f.text) = references f.text :=
    fun f => references_blank_append rfl rfl f.text
  have hends : ∀ f : GeneratedFunction, endsApart ("\n" ++ f.text) := by
    intro f
    rw [GeneratedFunction.text_eq]
    exact endsApart_append _ (endsApart_append _ rfl)
  have huniforms : s.uniformText = "" ∨ startsApart s.uniformText := by
    unfold uniformText
    split
    · exact .inl rfl
    · simp only [String.append_assoc]
      exact .inr (startsApart_append rfl _)
  have hglobals : s.globalText = "" ∨ startsApart s.globalText := by
    unfold globalText
    cases s.fragCoord <;> cases s.destination <;> decide
  have hfunctions : String.join (s.functions.map fun f => "\n" ++ f.text) = "" ∨
      startsApart (String.join (s.functions.map fun f => "\n" ++ f.text)) := by
    cases s.functions with
    | nil => exact .inl rfl
    | cons f rest =>
      right
      rw [List.map_cons, String.join_cons]
      exact startsApart_append (startsApart_append rfl _) _
  have hentry : startsApart s.entryText := by
    simp only [entryText, String.append_assoc]
    exact startsApart_append rfl _
  have hheader : references "// generated by fxtree\n" = [] := rfl
  unfold text
  rw [references_append_of_startsApart _ hentry, references_append _ hfunctions,
    references_append _ hglobals, references_append _ huniforms,
    references_join hends, funext hline, hheader, List.nil_append]

/-- Uniforms are read in the bodies of functions only. -/
theorem read_mem_text (hvalid : s.options.validate = .ok ()) :
    .read w ∈ references s.text ↔ ∃ f, f ∈ s.functions ∧ .read w ∈ references f.bodyText := by
  have huniforms : .read w ∉ references s.uniformText := by
    rw [references_uniformText]
    split <;> simp
  have hglobals : .read w ∉ references s.globalText := by
    rw [references_globalText]
    split <;> split <;> simp
  rw [references_text, references_entryText hvalid]
  simp [huniforms, hglobals, GeneratedFunction.references_text]

/-- Outside of the functions the values of the renderer are named where they are declared. -/
theorem global_mem_text (hvalid : s.options.validate = .ok ()) :
    .global w ∈ references s.text ↔ .global w ∈ references s.globalText ∨
      ∃ f, f ∈ s.functions ∧ .global w ∈ references f.bodyText := by
  have huniforms : .global w ∉ references s.uniformText := by
    rw [references_uniformText]
    split <;> simp
  rw [references_text, references_entryText hvalid]
  simp [huniforms, GeneratedFunction.references_text]

/-- What is named where it should be declared is declared there. -/
theorem global_mem_globalText : .global w ∈ references s.globalText ↔
    s.fragCoord ∧ w = Variable.fragCoord.text.toList ∨
      s.destination ∧ w = Variable.destColor.text.toList := by
  rw [references_globalText]
  cases s.fragCoord <;> cases s.destination <;> simp

theorem declaration_mem_globalText : .declaration w ∈ references s.globalText ↔
    s.fragCoord ∧ w = Variable.fragCoord.text.toList ∨
      s.destination ∧ w = Variable.destColor.text.toList := by
  rw [references_globalText]
  cases s.fragCoord <;> cases s.destination <;> simp

/-- Every uniform is declared in the block. -/
theorem declaration_mem_uniformText {u : UniformName} (hu : u ∈ s.uniforms) :
    .declaration u.text.toList ∈ references s.uniformText := by
  have hne : s.uniforms.isEmpty = false := by
    cases h : s.uniforms with
    | nil => rw [h] at hu; cases hu
    | cons => rfl
  rw [references_uniformText, hne]
  exact List.mem_append_left _ (List.mem_map.mpr ⟨u, hu, rfl⟩)

end ShaderSource

end PixelEffect
