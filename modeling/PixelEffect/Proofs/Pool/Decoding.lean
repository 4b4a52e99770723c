import PixelEffect.Proofs.Key.Skeleton
import PixelEffect.Proofs.Pool.Exchange

namespace PixelEffect

namespace Pool

open Node

/-- What comes about without exchanges may as well come about where they are allowed. -/
theorem Reachable.rearranged {allowed : Operation → Prop} {pool : Pool}
    (h : Reachable allowed pool) : Rearranged (fun _ _ => True) pool := by
  induction h with
  | empty => exact .empty
  | step _ _ hstep ih =>
    cases hstep with
    | attach path htrees hn hm => exact .attach path ih htrees hn hm fun _ => trivial
    | create kind optimizations => exact .step ih (by decide) (.create kind optimizations)
    | call htrees hrun => exact .step ih (by decide) (.call htrees hrun)
    | clone path htrees hn hrun => exact .step ih (by decide) (.clone path htrees hn hrun)
    | recolor path htrees hn hm => exact .step ih (by decide) (.recolor path htrees hn hm)

/-- No operation makes a node say anything wrong about its own use of coordinates. -/
theorem preserved_declared (allowed : Operation → Prop) :
    Preserved allowed (Everywhere Declared) where
  create := fun _ => grows_declared.leaf
  call := fun _ _ _ _ _ hoperands hrun =>
    (Effect.Crafted.of_run hrun).grows grows_declared hoperands _ rfl
  attach := by
    intro _ root n m path child sampling hroot hchild hn hm
    have hattached := grows_declared.attached (hroot.at? hn) hchild hm
    exact hroot.replaceAt hattached
  clone := fun _ _ _ _ _ _ _ _ _ hrun => grows_declared.run_clone hrun
  recolor := by
    intro _ root n m path c hroot hn hm
    have hrecolored := everywhere_declared_recolor (hroot.at? hn) hm
    exact hroot.replaceAt hrecolored

/-- However nodes are moved, each of them says of itself what its kind does about coordinates. -/
theorem Rearranged.declared {admits : Node → Node → Prop} {pool : Pool}
    (h : Rearranged admits pool) :
    ∀ n, n ∈ pool.trees → n.Everywhere Declared := by
  induction h with
  | empty => exact fun _ hn => by cases hn
  | step _ _ hstep ih => exact hstep.preserves (preserved_declared fun _ => True) trivial ih
  | @attach trees rest next root n m child sampling path _ htrees hn hm _ ih =>
    exact Step.preserves (preserved_declared fun _ => True) trivial
      (.attach path htrees hn hm) ih
  | @exchange trees rest next a b n m path path' _ htrees hn hm _ _ ih =>
    have hall : ∀ n, n ∈ a :: b :: rest → n.Everywhere Declared :=
      fun n hn => ih n (htrees.mem_iff.mpr hn)
    simp only [List.forall_mem_cons] at hall ⊢
    obtain ⟨ha, hb, hrest⟩ := hall
    exact ⟨ha.replaceAt (hb.at? hm), hb.replaceAt (ha.at? hn), hrest⟩
  | @overwrite trees rest next root n m path _ htrees _ _ ih =>
    have hall : ∀ n, n ∈ root :: m :: rest → n.Everywhere Declared :=
      fun n hn => ih n (htrees.mem_iff.mpr hn)
    simp only [List.forall_mem_cons] at hall ⊢
    obtain ⟨hroot, hm, hrest⟩ := hall
    exact ⟨hroot.replaceAt hm, hrest⟩

/-- Keys are uniquely decodable. Take any two trees or parts of trees whose slots can be counted,
however they came about. If the words of the first one, with anything behind them, are the words of
the second one with anything behind them, then the two have the same skeleton, and what stands
behind is the same. So the words of one tree never go on to be those of another one, and two trees
have the same words exactly if they have the same skeleton. -/
theorem keys_uniquely_decodable {pool pool' : Pool} (hpool : Rearranged (fun _ _ => True) pool)
    (hpool' : Rearranged (fun _ _ => True) pool') {root root' a b : Node} {path path' : Path}
    (hroot : root ∈ pool.trees) (hroot' : root' ∈ pool'.trees) (ha : root.at? path = some a)
    (hb : root'.at? path' = some b) (hcountable : a.Countable) (hcountable' : b.Countable) :
    (∀ s t, a.keyWords ++ s = b.keyWords ++ t → a.SameSkeleton b ∧ s = t) ∧
      (a.keyWords <+: b.keyWords → a.keyWords = b.keyWords) ∧
      (a.keyWords = b.keyWords ↔ a.SameSkeleton b) := by
  have hdeclared := (hpool.declared root hroot).at? ha
  have hdeclared' := (hpool'.declared root' hroot').at? hb
  have hskeleton := sameSkeleton_iff_generic_eq hdeclared hdeclared'
  have hwords : ∀ s t, a.keyWords ++ s = b.keyWords ++ t → a.SameSkeleton b ∧ s = t := by
    intro s t h
    obtain ⟨hgeneric, hrest⟩ := generic_eq_of_words (hcountable.countsAgree hcountable') h
    exact ⟨hskeleton.mpr hgeneric, hrest⟩
  have hkeys : a.keyWords = b.keyWords ↔ a.SameSkeleton b := by
    rw [keyWords_eq_iff hcountable hcountable', hskeleton]
  refine ⟨hwords, ?_, hkeys⟩
  rintro ⟨s, hs⟩
  exact hkeys.mpr (hwords s [] (by rw [List.append_nil, hs])).1

theorem countable_clampedWhite (sampling : Sampling) : (clampedWhite sampling).Countable := by
  obtain ⟨kind, hasPerspective⟩ := sampling
  refine .mk (by simp [UInt32.size]) fun child hchild => ?_
  cases List.mem_singleton.mp hchild
  cases kind <;> cases hasPerspective <;> exact .mk (by decide) fun _ h => by cases h

/-- A child that is sampled elsewhere makes another skeleton, and words that no others complete. -/
theorem keys_uniquely_decodable_clampedWhite :
    ¬(clampedWhite .passThrough).SameSkeleton (clampedWhite .explicit) ∧
      ∀ s t, (clampedWhite .passThrough).keyWords ++ s ≠
        (clampedWhite .explicit).keyWords ++ t := by
  have hself : ∀ sampling, (clampedWhite sampling).at? [] = some (clampedWhite sampling) :=
    fun _ => rfl
  obtain ⟨hwords, _, hkeys⟩ := keys_uniquely_decodable
    (reachable_clampedWhite .passThrough).rearranged (reachable_clampedWhite .explicit).rearranged
    (List.mem_singleton.mpr rfl) (List.mem_singleton.mpr rfl) (hself _) (hself _)
    (countable_clampedWhite _) (countable_clampedWhite _)
  have hskeleton : ¬(clampedWhite .passThrough).SameSkeleton (clampedWhite .explicit) := by
    rw [← hkeys]
    decide
  exact ⟨hskeleton, fun s t h => hskeleton (hwords s t h).1⟩

end Pool

end PixelEffect
