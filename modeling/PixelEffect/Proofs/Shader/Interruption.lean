import PixelEffect.Proofs.Shader.Builder
import PixelEffect.Proofs.Shader.Writing

namespace PixelEffect

/-- Only an override of the input has a uniform in one form and none in another. -/
theorem Kind.length_uniforms_le_iff {kind other : Kind} (h : kind.effectClass = other.effectClass) :
    kind.uniforms.length ≤ other.uniforms.length ↔
      ¬ ∃ c d, kind = overrideInput c false ∧ other = overrideInput d true := by
  cases kind with
  | overrideInput c specialized =>
    cases other with
    | overrideInput d specialized' =>
      cases specialized <;> cases specialized' <;> simp [uniforms]
    | _ => cases h
  | _ => cases other <;> first | contradiction | simp [uniforms]

namespace Shader.Outline

open Node

/-- Emitted outlines are written site by site. -/
theorem assignments_laidOut (first : UInt32) (n : Node) :
    (n.laidOut first).assignments n = (n.sites first).flatMap Site.assignments := by
  rw [assignments_eq_paths (fits_laidOut first n), List.flatMap_def, List.flatMap_def]
  congr 1
  rw [← List.forall₂_eq_eq_eq, List.forall₂_map_left_iff, List.forall₂_map_right_iff]
  refine (postPaths_sites first n).imp fun path s hs => ?_
  obtain ⟨m, k, hm, hoff, rfl⟩ := hs
  simp only [assignmentsAt, hm, hoff, Option.map_some, Entry.assignments, entry_laidOut]
  rfl

/-- What an emission that stops at the end of a path leaves behind. The path is the first one, in
pre-order, where the outline and the tree part. -/
structure StopsAt (path : Path) (o : Outline) (n : Node) (b : Builder) (o' : Outline)
    (b' : Builder) : Prop where
  parts : ¬ Agree (o.at? path) (n.at? path)
  agree : ∀ q, q < path → Agree (o.at? q) (n.at? q)
  shape : o'.blank = o.blank
  kept : ∀ q, ¬ LeftOf q path → (o'.at? q).map entry = (o.at? q).map entry
  /-- The nodes further left have the functions and uniforms that have been added for them. -/
  renewed : ∀ q m, LeftOf q path → n.at? q = some m → ∃ p f, o'.at? q = some p ∧
    p.entry.function = some f ∧ p.entry.uniforms = m.kind.uniforms.map (⟨f, ·⟩) ∧
    f ∈ (b'.functions.drop b.functions.length).map GeneratedFunction.name ∧
    p.entry.uniforms ⊆ b'.uniforms.drop b.uniforms.length

/-- An emission that fails stops at some node of the tree. -/
theorem exists_stopsAt {o o' : Outline} {n : Node} {b b' : Builder} {e : CodegenError}
    (h : emit o n b = ⟨o', b', .error e⟩) : ∃ path, StopsAt path o n b o' b' := by
  obtain ⟨path, hstops⟩ := exists_stops_of_emit_eq_error h
  obtain ⟨sites, rfl, _, hsites⟩ := hstops.exists_sites
  refine ⟨path, hstops.not_agree, fun q hq => hstops.agree_before hq,
    Option.some.inj hstops.blank_eq, fun q hq => hstops.kept hq, fun q m hq hm => ?_⟩
  obtain ⟨s, hs, hkind, hentry⟩ := hsites q m hq hm
  obtain ⟨p, hp, hpentry⟩ := Option.map_eq_some_iff.mp hentry
  refine ⟨p, s.function, hp, ?_, ?_, ?_, ?_⟩
  · rw [hpentry, siteEntry]
  · rw [hpentry, siteEntry, ← hkind]
    rfl
  · rw [Builder.extend, List.drop_left, List.map_map]
    exact List.mem_map_of_mem hs
  · rw [hpentry, Builder.extend, List.drop_left]
    exact fun u hu => List.mem_flatMap.mpr ⟨s, hs, hu⟩

section

variable {path : Path} {o o' : Outline} {n m : Node} {b b' : Builder}

/-- What an outline fits does not depend on the functions in it. -/
theorem StopsAt.fits_iff (h : StopsAt path o n b o' b') : o'.Fits m ↔ o.Fits m := by
  rw [Fits, Fits, h.shape]

/-- A node further left has been emitted as one of the same class. -/
theorem StopsAt.exists_renewed (h : StopsAt path o n b o' b') (hfits : o.Fits m) {q : Path}
    {k : Node} (hq : LeftOf q path) (hk : m.at? q = some k) :
    ∃ k' p, n.at? q = some k' ∧ k.kind.effectClass = k'.kind.effectClass ∧ o'.at? q = some p ∧
      p.entry.function.isSome ∧ p.entry.uniforms.length = k'.kind.uniforms.length := by
  -- Both trees agree with the outline there, so that their nodes are of one class.
  have hold : Agree (o.at? q) (m.at? q) := @agree_of_fits (some o) (some m) (congrArg some hfits) q
  have hnew := h.agree q hq.lt
  rw [hk] at hold
  cases ho : o.at? q with
  | none =>
    rw [ho] at hold
    exact hold.elim
  | some before =>
    rw [ho] at hold hnew
    cases hn : n.at? q with
    | none =>
      rw [hn] at hnew
      exact hnew.elim
    | some k' =>
      rw [hn] at hnew
      obtain ⟨p, f, hp, hf, huniforms, _⟩ := h.renewed q k' hq hn
      refine ⟨k', p, rfl, hold.1.symm.trans hnew.1, hp, Option.isSome_of_eq_some hf, ?_⟩
      rw [huniforms, List.length_map]

/-- A tree that could be written before still can, unless a node further left has a uniform that has
not been declared again. -/
theorem StopsAt.takes_iff (h : StopsAt path o n b o' b') (hfits : o.Fits m) (htakes : o.Takes m) :
    o'.Takes m ↔ ∀ q k k' c d, LeftOf q path → m.at? q = some k → n.at? q = some k' →
      k.kind = .overrideInput c false → k'.kind ≠ .overrideInput d true := by
  constructor
  · intro htakes' q k k' c d hq hk hk' hc hd
    obtain ⟨_, p, hk'', hclass, hp, _, hlength⟩ := h.exists_renewed hfits hq hk
    obtain rfl := Option.some.inj (hk'.symm.trans hk'')
    have hcount := (htakes' q p k hp hk).2
    rw [hlength, Kind.length_uniforms_le_iff hclass] at hcount
    exact hcount ⟨c, d, hc, hd⟩
  · intro hforms q p k hp hk
    by_cases hq : LeftOf q path
    · obtain ⟨k', _, hk', hclass, hp', hfunction, hlength⟩ := h.exists_renewed hfits hq hk
      obtain rfl := Option.some.inj (hp.symm.trans hp')
      refine ⟨hfunction, ?_⟩
      rw [hlength, Kind.length_uniforms_le_iff hclass]
      rintro ⟨c, d, hc, hd⟩
      exact hforms q k k' c d hq hk hk' hc hd
    · have hentry := h.kept q hq
      rw [hp] at hentry
      obtain ⟨before, hbefore, heq⟩ := Option.map_eq_some_iff.mp hentry.symm
      exact heq ▸ htakes q before k hbefore hk

/-- Where no node of the tree further left has a uniform, all values go where they went before. -/
theorem StopsAt.assignments_eq (h : StopsAt path o n b o' b') (hfits : o.Fits m)
    (hleft : ∀ q k, LeftOf q path → m.at? q = some k → k.kind.uniforms = []) :
    o'.assignments m = o.assignments m := by
  have hat : ∀ q, o'.assignmentsAt m q = o.assignmentsAt m q := by
    intro q
    by_cases hq : LeftOf q path
    · rw [assignmentsAt_eq_nil (fun k => hleft q k hq), assignmentsAt_eq_nil fun k => hleft q k hq]
    · rw [assignmentsAt, assignmentsAt, h.kept q hq]
  rw [assignments_eq_paths hfits, assignments_eq_paths (h.fits_iff.mpr hfits), funext hat]

end

/-- After an emission that goes through, writing the tree sets exactly the uniforms that have been
declared for it, and their names differ while the numbers last. An emission that stops later keeps
the functions and uniforms of all nodes but those further left than the place where it stops. What
could be written before still can, unless a node further left is an override that has a uniform in
the one tree and none in the other. Then each value goes to the name that its node has now, and
where no node further left has a uniform, these are the names from before. -/
theorem stopping_keeps_rest :
    (∀ (o : Outline) (n : Node) (b : Builder) (o' : Outline) (b' : Builder) (f : FunctionName),
      o.emit n b = ⟨o', b', .ok f⟩ →
        (∀ data, o'.write n data = (data.setAll (o'.assignments n), .ok ())) ∧
        (o'.assignments n).map (·.1) = b'.uniforms.drop b.uniforms.length ∧
        (n.size < 2 ^ 32 → (b'.uniforms.drop b.uniforms.length).Nodup)) ∧
    ∀ (o : Outline) (n : Node) (b : Builder) (o' : Outline) (b' : Builder) (e : CodegenError),
      o.emit n b = ⟨o', b', .error e⟩ → ∃ path, StopsAt path o n b o' b' ∧
        ∀ m start data, o.write m start = (data, .ok ()) →
          ((∃ data', o'.write m start = (data', .ok ())) ↔
            ∀ q k k' c d, LeftOf q path → m.at? q = some k → n.at? q = some k' →
              k.kind = .overrideInput c false → k'.kind ≠ .overrideInput d true) ∧
          (∀ data', o'.write m start = (data', .ok ()) →
            data' = start.setAll (o'.assignments m)) ∧
          ((∀ q k, LeftOf q path → m.at? q = some k → k.kind.uniforms = []) →
            o'.write m start = (data, .ok ())) := by
  constructor
  · intro o n b o' b' f h
    have hfits := fits_of_emit_eq_ok h
    rw [emit_of_fits hfits] at h
    cases h
    rw [assignments_laidOut, Builder.extend, List.drop_left, Site.map_fst_flatMap_assignments]
    exact ⟨write_laidOut b.next n, rfl, fun hsize =>
      Site.nodup_uniforms (n.nodup_functions_sites b.next hsize)⟩
  · intro o n b o' b' e h
    obtain ⟨path, hstops⟩ := exists_stopsAt h
    refine ⟨path, hstops, fun m start data hwrite => ?_⟩
    obtain ⟨hfits, htakes, hdata⟩ := write_eq_ok_iff.mp hwrite
    refine ⟨?_, fun data' hwrite' => (write_eq_ok_iff.mp hwrite').2.2, fun hleft => ?_⟩
    · simp only [write_eq_ok_iff, exists_and_left, exists_eq, and_true, hstops.fits_iff, hfits,
        true_and]
      exact hstops.takes_iff hfits htakes
    · refine write_eq_ok_iff.mpr ⟨hstops.fits_iff.mpr hfits, ?_, ?_⟩
      · refine (hstops.takes_iff hfits htakes).mpr fun q k k' c d hq hk _ hc _ => ?_
        have hnone := hleft q k hq hk
        rw [hc] at hnone
        cases hnone
      · rw [hstops.assignments_eq hfits hleft]
        exact hdata

/-- White over white is emitted and then stops at the destination color. After that its first leaf
has the name that it got last. -/
theorem stopping_keeps_rest_whiteOver :
    let t := whiteOver (.color .white) .all
    ∃ m b m' b' e path data data', (ofNode t).emit t .empty = ⟨m, b, .ok ⟨2⟩⟩ ∧
      (m.assignments t).map (·.1) = b.uniforms ∧ m.write t .empty = (data, .ok ()) ∧
      m.emit (whiteOver .destColor .empty) b = ⟨m', b', .error e⟩ ∧
      StopsAt path m (whiteOver .destColor .empty) b m' b' ∧
      m'.write t .empty = (data', .ok ()) ∧ data' = .setAll .empty (m'.assignments t) := by
  intro t
  obtain ⟨hgoes, hstops⟩ := stopping_keeps_rest
  have hemit := emit_of_fits (fits_ofNode t) .empty
  obtain ⟨hwrite, hnames, _⟩ := hgoes _ _ _ _ _ _ hemit
  obtain ⟨path, hstopped, hlater⟩ := hstops (t.laidOut 0) (whiteOver .destColor .empty)
    (Builder.empty.extend (t.sites 0)) _ _ _ rfl
  obtain ⟨_, hvalues, _⟩ := hlater t .empty _ (hwrite _)
  exact ⟨_, _, _, _, _, path, _, _, hemit, hnames, hwrite _, rfl, hstopped, rfl, hvalues _ rfl⟩

/-- White over what an effect without children yields. The white does not depend on the input, which
is overridden, and not with a uniform if that is specialized. -/
def overriddenOver (specialized : Bool) (kind : Kind) (optimizations : Optimizations) : Node :=
  .binary ⟨3⟩ (.blend .srcOver .skMode) ⟨true, optimizations.constantOutput⟩
    (some (.unary ⟨1⟩ (.overrideInput .white specialized) .all
      (some (.leaf ⟨0⟩ (.color .white) .all)) .passThrough))
    (some (.leaf ⟨2⟩ kind optimizations))

/-- An emission that stops loses the names of the nodes that it has come to. Afterwards the tree is
written to another uniform than it has declared, or it cannot be written any more. -/
theorem names_lost :
    (let t := whiteOver (.color .white) .all
      let first := (ofNode t).emit t .empty
      let later := first.outline.emit (whiteOver .destColor .empty) first.builder
      first.result = .ok ⟨2⟩ ∧ later.result = .error (.classDiffers "Color" "DestColor") ∧
        (later.outline.at? [0]).map entry ≠ (first.outline.at? [0]).map entry ∧
        first.builder.uniforms = [⟨⟨0⟩, .color⟩, ⟨⟨1⟩, .color⟩] ∧
        ∃ data, later.outline.write t .empty = (data, .ok ()) ∧
          data.entries.map (·.1) = [⟨⟨1⟩, .color⟩, ⟨⟨3⟩, .color⟩]) ∧
    (let t := overriddenOver false (.color .white) .all
      let first := (ofNode t).emit t .empty
      let later := first.outline.emit (overriddenOver true .destColor .empty) first.builder
      first.result = .ok ⟨3⟩ ∧ later.result = .error (.classDiffers "Color" "DestColor") ∧
        (first.outline.write t .empty).2 = .ok () ∧
        (later.outline.write t .empty).2 = .error (.uniformMissing "OverrideInput" 0)) := by
  refine ⟨⟨rfl, rfl, by decide, rfl, _, rfl, by decide⟩, rfl, rfl, rfl, rfl⟩

end Shader.Outline

end PixelEffect
