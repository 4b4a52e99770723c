import PixelEffect.Description.Reader
import PixelEffect.Description.Writer
import PixelEffect.Proofs.Description.Recursion
import PixelEffect.Proofs.Json.RoundTrip

namespace PixelEffect

/-- A number of a description. -/
inductive Number
  | single (x : Single)
  | double (x : Double)
deriving DecidableEq

namespace Number

def isFinite : Number → Bool
  | single x => x.isFinite
  | double x => x.isFinite

/-- The text of the number by itself is read as the number. -/
def ReadsBack : Number → Prop
  | single x => (Json.ofText (Json.ofSingle x).pretty).bind Json.toSingle? = some x
  | double x => (Json.ofText (Json.ofDouble x).pretty).bind Json.toDouble? = some x

instance : DecidablePred ReadsBack
  | single x =>
    inferInstanceAs
      (Decidable ((Json.ofText (Json.ofSingle x).pretty).bind Json.toSingle? = some x))
  | double x =>
    inferInstanceAs
      (Decidable ((Json.ofText (Json.ofDouble x).pretty).bind Json.toDouble? = some x))

end Number

open Number (single double)

namespace Json

/-- What a number is written as reads back as that number only if the text is a numeral. -/
theorem ofText_ofNumber {fmt : Float.Model.Format} {style : NumberStyle} {x : Ieee fmt} {v : Json}
    (h : ofText (ofNumber style x).pretty = some v) :
    (ofNumber style x).Legible ∧ v = ofNumber style x := by
  have hlegible : (ofNumber style x).Legible := by
    unfold ofNumber at h ⊢
    by_cases hfinite : x.isFinite
    · rw [if_pos hfinite] at h ⊢
      exact legible_of_ofText (style.strict_numeral x) h
    · rw [if_neg hfinite]
      exact .null
  have hnesting : (ofNumber style x).nesting = 0 := by
    unfold ofNumber
    split <;> rfl
  rw [hlegible.ofText_pretty (by omega)] at h
  exact ⟨hlegible, (Option.some.inj h).symm⟩

/-- A number that reads back is written legibly. -/
theorem legible_ofSingle {x : Single} (h : (single x).ReadsBack) : (ofSingle x).Legible := by
  obtain ⟨v, hv, _⟩ := Option.bind_eq_some_iff.mp h
  exact (ofText_ofNumber hv).1

theorem legible_ofDouble {x : Double} (h : (double x).ReadsBack) : (ofDouble x).Legible := by
  obtain ⟨v, hv, _⟩ := Option.bind_eq_some_iff.mp h
  exact (ofText_ofNumber hv).1

/-- A number that reads back is taken out of its JSON value unchanged. -/
theorem toSingle?_ofSingle {x : Single} (h : (single x).ReadsBack) :
    (ofSingle x).toSingle? = some x := by
  obtain ⟨v, hv, hx⟩ := Option.bind_eq_some_iff.mp h
  rwa [(ofText_ofNumber hv).2] at hx

theorem toDouble?_ofDouble {x : Double} (h : (double x).ReadsBack) :
    (ofDouble x).toDouble? = some x := by
  obtain ⟨v, hv, hx⟩ := Option.bind_eq_some_iff.mp h
  rwa [(ofText_ofNumber hv).2] at hx

theorem legible_ofSingles {xs : List Single} (h : ∀ n, n ∈ xs.map single → n.ReadsBack) :
    (ofSingles xs).Legible := by
  refine .array fun v hv => ?_
  obtain ⟨x, hx, rfl⟩ := List.mem_map.mp hv
  exact legible_ofSingle (h _ (List.mem_map_of_mem hx))

/-- A list reads back item by item. -/
theorem mapM_map_eq_some {α : Type} {write : α → Json} {read : Json → Option α} {xs : List α}
    (h : ∀ x, x ∈ xs → read (write x) = some x) : (xs.map write).mapM read = some xs := by
  induction xs with
  | nil => rfl
  | cons x xs ih =>
    have hxs := ih fun y hy => h y (List.mem_cons_of_mem _ hy)
    simp [h x List.mem_cons_self, hxs]

theorem toSingles?_ofSingles {xs : List Single} (h : ∀ n, n ∈ xs.map single → n.ReadsBack) :
    (ofSingles xs).toSingles? = some xs :=
  mapM_map_eq_some fun _ hx => toSingle?_ofSingle (h _ (List.mem_map_of_mem hx))

end Json

/-- A point reads back from the list of its coordinates. -/
theorem Point.ofJson?_ofSingles {p : Point} (h : ∀ n, n ∈ p.toList.map single → n.ReadsBack) :
    Point.ofJson? (.ofSingles p.toList) = some p := by
  rw [ofJson?, Json.toSingles?_ofSingles h]
  rfl

namespace ColorSpec

def numbers (c : ColorSpec) : List Number := c.toColor.toList.map single

/-- A color is written legibly if each of its numbers is. -/
theorem legible_toJson {c : ColorSpec} (h : ∀ n, n ∈ c.numbers → n.ReadsBack) :
    c.toJson.Legible := by
  cases c with
  | list c => exact Json.legible_ofSingles h
  | fields c =>
    refine .object fun m hm => ?_
    have hm : m.2 ∈ c.toList.map Json.ofSingle := List.mem_map_of_mem (f := Prod.snd) hm
    obtain ⟨x, hx, hv⟩ := List.mem_map.mp hm
    rw [← hv]
    exact Json.legible_ofSingle (h _ (List.mem_map_of_mem hx))

/-- A color keeps its form. -/
theorem ofJson?_toJson {c : ColorSpec} (h : ∀ n, n ∈ c.numbers → n.ReadsBack) :
    ofJson? c.toJson = some c := by
  cases c with
  | list c =>
    have hread : (Json.ofSingles c.toList).toSingles? = some c.toList :=
      Json.toSingles?_ofSingles h
    rw [toJson, Json.ofSingles, ofJson?, ← Json.ofSingles, hread]
    · rfl
    · rintro members ⟨⟩
  | fields c =>
    have hread : ∀ x, x ∈ c.toList → (Json.ofSingle x).toSingle? = some x :=
      fun x hx => Json.toSingle?_ofSingle (h _ (List.mem_map_of_mem hx))
    simp only [Color.toList, List.forall_mem_cons] at hread
    obtain ⟨hr, hg, hb, ha, _⟩ := hread
    simp [toJson, ofJson?, Fields.select, Fields.required, Fields.optional, List.lookup_cons, hr,
      hg, hb, ha]

end ColorSpec

namespace MatrixSpec

def numbers : MatrixSpec → List Number
  | rows m => m.toList.map single
  | affine m => m.toList.map double

theorem legible_toJson {m : MatrixSpec} (h : ∀ n, n ∈ m.numbers → n.ReadsBack) :
    m.toJson.Legible := by
  cases m with
  | rows m => exact Json.legible_ofSingles h
  | affine m =>
    refine .array fun v hv => ?_
    obtain ⟨x, hx, rfl⟩ := List.mem_map.mp hv
    exact Json.legible_ofDouble (h _ (List.mem_map_of_mem hx))

/-- A transform keeps its form. -/
theorem ofJson?_toJson {m : MatrixSpec} (h : ∀ n, n ∈ m.numbers → n.ReadsBack) :
    ofJson? m.toJson = some m := by
  cases m with
  | rows m =>
    have hread : (m.toList.map Json.ofSingle).mapM Json.toSingle? = some m.toList :=
      Json.toSingles?_ofSingles h
    simp only [Matrix3.toList, List.map_cons, List.map_nil] at hread
    simp only [toJson, Json.ofSingles, Matrix3.toList, List.map_cons, List.map_nil, ofJson?, hread]
    rfl
  | affine m =>
    have hread : (m.toList.map Json.ofDouble).mapM Json.toDouble? = some m.toList :=
      Json.mapM_map_eq_some fun _ hx => Json.toDouble?_ofDouble (h _ (List.mem_map_of_mem hx))
    simp only [Affine.toList, List.map_cons, List.map_nil] at hread
    simp only [toJson, Affine.toList, List.map_cons, List.map_nil, ofJson?, hread]
    rfl

end MatrixSpec

/-- Modes are told apart by their names. -/
theorem BlendMode.ofName?_name (mode : BlendMode) : ofName? mode.name = some mode := by
  cases mode <;> decide

/-- Behaviors are told apart by their names. -/
theorem BlendBehavior.ofName?_name (behavior : BlendBehavior) :
    ofName? behavior.name = some behavior := by
  cases behavior <;> decide

namespace EffectName

/-- Effects are told apart by their names. -/
theorem ofText?_text (name : EffectName) : ofText? name.text = some name := by
  cases name <;> decide

/-- No parameter is called like the member that names the effect. -/
theorem kind_not_mem_fields (name : EffectName) : "kind" ∉ name.fields := by
  cases name <;> decide

/-- No effect has two parameters of one name. -/
theorem nodup_fields (name : EffectName) : name.fields.Nodup := by
  cases name <;> decide

end EffectName

namespace Description

/-- Members in the order of the parameters say the same as an array of the parameters. -/
theorem parametersOfMembers_zip (names : List String) (parameters : List Json) :
    parametersOfMembers (names.zip parameters) = names.zip (parametersOfItems parameters) := by
  induction names generalizing parameters with
  | nil => rfl
  | cons name names ih =>
    cases parameters with
    | nil => rfl
    | cons v parameters => rw [List.zip_cons_cons, parametersOfMembers, parametersOfItems, ih,
        List.zip_cons_cons]

theorem length_parametersOfItems (parameters : List Json) :
    (parametersOfItems parameters).length = parameters.length := by
  induction parameters with
  | nil => rfl
  | cons v parameters ih => simp [parametersOfItems, ih]

/-- An effect that is written as an object is read as the one with these parameters. -/
theorem ofMembers_objectOf (nested : Bool) {name : EffectName} {parameters : List Json}
    (hlength : parameters.length = name.fields.length) :
    ofMembers nested
        (parametersOfMembers (("kind", .string name.text) :: name.fields.zip parameters)) =
      ofFields name (name.fields.zip (parametersOfItems parameters)) := by
  have hnames : (name.fields.zip (parametersOfItems parameters)).map (·.1) = name.fields :=
    List.map_fst_zip (Nat.le_of_eq (by rw [length_parametersOfItems, hlength]))
  have hmem : ∀ m, m ∈ name.fields.zip (parametersOfItems parameters) → m.1 ∈ name.fields := by
    intro m hm
    rw [← hnames]
    exact List.mem_map_of_mem hm
  have hkind : (name.fields.zip (parametersOfItems parameters)).filter (·.1 = "kind") = [] := by
    refine List.filter_eq_nil_iff.mpr fun m hm h => name.kind_not_mem_fields ?_
    rw [← of_decide_eq_true h]
    exact hmem m hm
  have hknown : (name.fields.zip (parametersOfItems parameters)).filter
      (fun m => name.fields.contains m.1) = name.fields.zip (parametersOfItems parameters) :=
    List.filter_eq_self.mpr fun m hm => List.contains_iff_mem.mpr (hmem m hm)
  have hselect : Fields.select name.fields (("kind", ⟨.string name.text, operandOfJson?
      (.string name.text)⟩) :: name.fields.zip (parametersOfItems parameters)) =
        some (name.fields.zip (parametersOfItems parameters)) := by
    have hdrop : name.fields.contains "kind" = false := by
      simpa using name.kind_not_mem_fields
    simp only [Fields.select, List.filter_cons, hdrop, hknown, hnames, Bool.false_eq_true,
      if_false, if_pos name.nodup_fields]
  rw [parametersOfMembers, parametersOfMembers_zip, ofMembers, List.filter_cons_of_pos rfl, hkind]
  simp only [EffectName.ofJson?, name.ofText?_text, hselect, Option.bind_eq_bind,
    Option.bind_some]

def effectName : Description → EffectName
  | color .. => .color
  | destColor => .destColor
  | overrideInput .. => .overrideInput
  | swizzle .. => .swizzle
  | premul .. => .premul
  | compose .. => .compose
  | blend .. => .blend
  | mulChildByInputAlpha .. => .mulChildByInputAlpha
  | mulInputByChildAlpha .. => .mulInputByChildAlpha
  | modulateAlpha .. => .modulateAlpha
  | modulateRgba .. => .modulateRgba
  | colorMatrix .. => .colorMatrix
  | clamp .. => .clamp
  | deviceSpace .. => .deviceSpace
  | matrix .. => .matrix
  | linearGradient .. => .linearGradient

/-- What is written for the parameters, in the order of their names. -/
def parameters : Description → List Json
  | color c => [c.toJson]
  | destColor => []
  | overrideInput child c useUniform => [childJson child, c.toJson, .bool useUniform]
  | swizzle child s => [childJson child, .string s]
  | premul child | mulChildByInputAlpha child | mulInputByChildAlpha child | deviceSpace child =>
    [childJson child]
  | compose f g => [childJson f, childJson g]
  | blend source destination mode behavior =>
    [childJson source, childJson destination, .string mode.name, .string behavior.name]
  | modulateAlpha child c | modulateRgba child c => [childJson child, c.toJson]
  | colorMatrix child coefficients unpremulInput clampRgbOutput premulOutput =>
    [childJson child, .ofSingles coefficients, .bool unpremulInput, .bool clampRgbOutput,
      .bool premulOutput]
  | clamp child toAlpha => [childJson child, .bool toAlpha]
  | matrix child m => [childJson child, m.toJson]
  | linearGradient start finish c d =>
    [.ofSingles start.toList, .ofSingles finish.toList, .array [c.toJson, d.toJson]]

/-- Every description is written as an object with its name and its parameters. -/
theorem toJson_eq (d : Description) : d.toJson = objectOf d.effectName d.parameters := by
  cases d <;> rfl

/-- A description is written with as many parameters as its effect has. -/
theorem length_parameters (d : Description) :
    d.parameters.length = d.effectName.fields.length := by
  cases d <;> rfl

mutual

def numbers : Description → List Number
  | color c => c.numbers
  | destColor => []
  | overrideInput child c _ | modulateAlpha child c | modulateRgba child c =>
    operandNumbers child ++ c.numbers
  | swizzle child _ | premul child | mulChildByInputAlpha child | mulInputByChildAlpha child
  | clamp child _ | deviceSpace child => operandNumbers child
  | compose f g => operandNumbers f ++ operandNumbers g
  | blend source destination .. => operandNumbers source ++ operandNumbers destination
  | colorMatrix child coefficients .. => operandNumbers child ++ coefficients.map single
  | matrix child m => operandNumbers child ++ m.numbers
  | linearGradient start finish c d =>
    start.toList.map single ++ finish.toList.map single ++ c.numbers ++ d.numbers

def operandNumbers : Option Description → List Number
  | none => []
  | some child => numbers child

end

/-- The numbers of an operand are among those of the description. -/
theorem mem_numbers_of_mem_operands {d child : Description} (h : some child ∈ d.operands)
    {n : Number} (hn : n ∈ child.numbers) : n ∈ d.numbers := by
  have hn : n ∈ operandNumbers (some child) := hn
  cases d <;> simp only [operands, List.mem_cons, List.not_mem_nil, or_false] at h <;>
    simp only [numbers, List.mem_append] <;> grind

/-- An operand reads back if its description does, and an absent one reads back as absent. -/
theorem operandOfJson?_childJson {child : Option Description}
    (h : ∀ c, child = some c → operandOfJson? c.toJson = some (some c)) :
    operandOfJson? (childJson child) = some child := by
  cases child with
  | none => rfl
  | some c => exact h c rfl

/-- Two colors read back from an array. -/
theorem pairOfJson?_toJson {c d : ColorSpec} (hc : ∀ n, n ∈ c.numbers → n.ReadsBack)
    (hd : ∀ n, n ∈ d.numbers → n.ReadsBack) :
    ColorSpec.pairOfJson? (.array [c.toJson, d.toJson]) = some (c, d) := by
  simp [ColorSpec.pairOfJson?, ColorSpec.ofJson?_toJson hc, ColorSpec.ofJson?_toJson hd]

theorem legible_childJson {child : Option Description}
    (h : ∀ c, child = some c → c.toJson.Legible) : (childJson child).Legible := by
  cases child with
  | none => exact .null
  | some c => exact h c rfl

section

open Parameter

attribute [local simp] effectName parameters EffectName.fields parametersOfItems ofFields
  operandOf valueOf flagOf Fields.required Fields.optional List.lookup_cons Json.toText?
  Json.toBool? Json.toChoice? Json.Legible.string Json.Legible.bool

/-- The parameters are read as what they were. -/
theorem ofFields_parameters {d : Description}
    (hchild : ∀ child, some child ∈ d.operands → operandOfJson? child.toJson = some (some child))
    (hnumbers : ∀ n, n ∈ d.numbers → n.ReadsBack) :
    ofFields d.effectName (d.effectName.fields.zip (parametersOfItems d.parameters)) = some d := by
  have hoperand : ∀ child, child ∈ d.operands → operandOfJson? (childJson child) = some child :=
    fun child h => operandOfJson?_childJson fun c hc => hchild c (hc ▸ h)
  cases d with
  | color c =>
    have hc := ColorSpec.ofJson?_toJson hnumbers
    simp [hc]
  | destColor => rfl
  | overrideInput child c | modulateAlpha child c | modulateRgba child c =>
    have hread := hoperand child List.mem_cons_self
    have hc := ColorSpec.ofJson?_toJson fun n hn => hnumbers n (List.mem_append_right _ hn)
    simp [hread, hc]
  | swizzle child | premul child | mulChildByInputAlpha child | mulInputByChildAlpha child
  | clamp child | deviceSpace child =>
    have hread := hoperand child List.mem_cons_self
    simp [hread]
  | compose f g =>
    have hf := hoperand f List.mem_cons_self
    have hg := hoperand g (List.mem_cons_of_mem _ List.mem_cons_self)
    simp [hf, hg]
  | blend source destination mode behavior =>
    have hsource := hoperand source List.mem_cons_self
    have hdestination := hoperand destination (List.mem_cons_of_mem _ List.mem_cons_self)
    simp [hsource, hdestination, mode.ofName?_name, behavior.ofName?_name]
  | colorMatrix child coefficients =>
    have hread := hoperand child List.mem_cons_self
    have hm := Json.toSingles?_ofSingles fun n hn => hnumbers n (List.mem_append_right _ hn)
    simp [hread, hm]
  | matrix child m =>
    have hread := hoperand child List.mem_cons_self
    have hm := MatrixSpec.ofJson?_toJson fun n hn => hnumbers n (List.mem_append_right _ hn)
    simp [hread, hm]
  | linearGradient start finish c d =>
    simp only [numbers, List.mem_append, or_imp, forall_and] at hnumbers
    obtain ⟨⟨⟨hstart, hfinish⟩, hc⟩, hd⟩ := hnumbers
    simp [Point.ofJson?_ofSingles hstart, Point.ofJson?_ofSingles hfinish,
      pairOfJson?_toJson hc hd]

/-- The parameters of a description are legible if its operands and its numbers are. -/
theorem legible_parameters {d : Description}
    (hchild : ∀ child, some child ∈ d.operands → child.toJson.Legible)
    (hnumbers : ∀ n, n ∈ d.numbers → n.ReadsBack) : ∀ v, v ∈ d.parameters → v.Legible := by
  have hoperand : ∀ child, child ∈ d.operands → (childJson child).Legible :=
    fun child h => legible_childJson fun c hc => hchild c (hc ▸ h)
  cases d with
  | color c => simpa using ColorSpec.legible_toJson hnumbers
  | destColor => simp
  | overrideInput child c | modulateAlpha child c | modulateRgba child c =>
    have hwrite := hoperand child List.mem_cons_self
    have hc := ColorSpec.legible_toJson fun n hn => hnumbers n (List.mem_append_right _ hn)
    simp [hwrite, hc]
  | swizzle child | premul child | mulChildByInputAlpha child | mulInputByChildAlpha child
  | clamp child | deviceSpace child =>
    have hwrite := hoperand child List.mem_cons_self
    simp [hwrite]
  | compose f g | blend f g =>
    have hf := hoperand f List.mem_cons_self
    have hg := hoperand g (List.mem_cons_of_mem _ List.mem_cons_self)
    simp [hf, hg]
  | colorMatrix child coefficients =>
    have hwrite := hoperand child List.mem_cons_self
    have hm := Json.legible_ofSingles fun n hn => hnumbers n (List.mem_append_right _ hn)
    simp [hwrite, hm]
  | matrix child m =>
    have hwrite := hoperand child List.mem_cons_self
    have hm := MatrixSpec.legible_toJson fun n hn => hnumbers n (List.mem_append_right _ hn)
    simp [hwrite, hm]
  | linearGradient start finish c d =>
    simp only [numbers, List.mem_append, or_imp, forall_and] at hnumbers
    obtain ⟨⟨⟨hstart, hfinish⟩, hc⟩, hd⟩ := hnumbers
    have hcolors : (Json.array [c.toJson, d.toJson]).Legible :=
      .array (by simp [ColorSpec.legible_toJson hc, ColorSpec.legible_toJson hd])
    simp [Json.legible_ofSingles hstart, Json.legible_ofSingles hfinish, hcolors]

end

/-- The operands are read as operands, so the description is. -/
theorem operandOfJson?_toJson {d : Description} (h : ∀ n, n ∈ d.numbers → n.ReadsBack) :
    operandOfJson? d.toJson = some (some d) := by
  induction d with
  | step d ih =>
    have hfields := ofFields_parameters
      (fun child hc => ih child hc fun n hn => h n (mem_numbers_of_mem_operands hc hn)) h
    rw [toJson_eq, objectOf, operandOfJson?, ofMembers_objectOf true d.length_parameters, hfields]
    rfl

/-- A description reads back from its JSON value, as far as each of its numbers does by itself. -/
theorem ofJson?_toJson {d : Description} (h : ∀ n, n ∈ d.numbers → n.ReadsBack) :
    ofJson? d.toJson = some d := by
  have hfields := ofFields_parameters
    (fun child hc => operandOfJson?_toJson fun n hn => h n (mem_numbers_of_mem_operands hc hn)) h
  rw [toJson_eq, objectOf, ofJson?, ofMembers_objectOf false d.length_parameters, hfields]

/-- The JSON value of a description survives being written, as far as its numbers do. -/
theorem legible_toJson {d : Description} (h : ∀ n, n ∈ d.numbers → n.ReadsBack) :
    d.toJson.Legible := by
  induction d with
  | step d ih =>
    have hparameters := legible_parameters
      (fun child hc => ih child hc fun n hn => h n (mem_numbers_of_mem_operands hc hn)) h
    rw [toJson_eq, objectOf]
    refine .object fun m hm => ?_
    rcases List.mem_cons.mp hm with rfl | hm
    · exact .string _
    · exact hparameters m.2 (List.of_mem_zip hm).2

/-- A description whose numbers are finite is read back from its text, if it is not nested too
deep. -/
theorem ofText_toText {d : Description} (hfinite : ∀ n, n ∈ d.numbers → n.isFinite)
    (hnumbers : ∀ n, n ∈ d.numbers → n.isFinite → n.ReadsBack)
    (hnesting : d.toJson.nesting ≤ Json.nestingLimit) : ofText d.toText = .ok d := by
  have hreads : ∀ n, n ∈ d.numbers → n.ReadsBack := fun n hn => hnumbers n hn (hfinite n hn)
  have htext := (legible_toJson hreads).ofText_pretty hnesting
  rw [ofText, toText, htext, Option.bind_some, ofJson?_toJson hreads]

/-- A description with both forms of colors and of transforms, with operands and without them. -/
def mixedForms : Description :=
  .compose
    (some (.overrideInput (some (.swizzle none "\"\n")) (.list ⟨0, -1, -0, 1⟩) true))
    (some (.matrix
      (some (.blend
        (some (.linearGradient ⟨0, -0⟩ ⟨.ofDecimal false 15 (-1), 1⟩
          (.list ⟨0, .ofDecimal false 1 (-1), 1, 1⟩) (.fields ⟨1, 0, .ofUInt32 1, 1⟩)))
        (some (.matrix (some (.colorMatrix none [1, 0] true false true))
          (.rows ⟨1, 0, -1, 0, 1, .ofDecimal true 25 10, 0, 0, 1⟩)))
        .screen .default))
      (.affine ⟨1, 0, 0, .ofDecimal false 1 (-1), -0, .ofDecimal true 3 200⟩)))

/-- The description above has finite numbers only and is read back from its text. -/
theorem ofText_toText_mixedForms :
    (∀ n, n ∈ mixedForms.numbers → n.isFinite) ∧
      (∀ n, n ∈ mixedForms.numbers → n.isFinite → n.ReadsBack) ∧
      mixedForms.toJson.nesting ≤ Json.nestingLimit ∧
      ofText mixedForms.toText = .ok mixedForms := by
  have hfinite : ∀ n, n ∈ mixedForms.numbers → n.isFinite := by decide +kernel
  have hnumbers : ∀ n, n ∈ mixedForms.numbers → n.isFinite → n.ReadsBack := by decide +kernel
  have hnesting : mixedForms.toJson.nesting ≤ Json.nestingLimit := by decide +kernel
  exact ⟨hfinite, hnumbers, hnesting, ofText_toText hfinite hnumbers hnesting⟩

end Description

end PixelEffect
