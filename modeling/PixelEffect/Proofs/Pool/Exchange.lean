import PixelEffect.Proofs.Node.Announced
import PixelEffect.Proofs.Pool.Basic
import PixelEffect.Proofs.Shader.Closed

namespace PixelEffect

namespace Pool

open Node Shader

/-- The pools that a program can get to if it also exchanges nodes anywhere in two trees, or moves a
tree into the place of a node. Where a node below the root of a tree changes into another one,
`admits` has to hold of the old and the new node. -/
inductive Rearranged (admits : Node → Node → Prop) : Pool → Prop
  | empty : Rearranged admits empty
  | step {operation : Operation} {pool pool' : Pool} (hpool : Rearranged admits pool)
      (hoperation : operation ≠ .attach) (hstep : Step operation pool pool') :
      Rearranged admits pool'
  | attach {trees rest : List Node} {next : NodeId} {root n m : Node} {child : Option Node}
      {sampling : Sampling} (path : Path) (hpool : Rearranged admits ⟨trees, next⟩)
      (htrees : trees.Perm (root :: child.toList ++ rest)) (hn : root.at? path = some n)
      (hm : n.withChild child sampling = .ok m) (hadmits : path ≠ [] → admits n m) :
      Rearranged admits ⟨Node.replaceAt m path root :: rest, next⟩
  | exchange {trees rest : List Node} {next : NodeId} {a b n m : Node} (path path' : Path)
      (hpool : Rearranged admits ⟨trees, next⟩) (htrees : trees.Perm (a :: b :: rest))
      (hn : a.at? path = some n) (hm : b.at? path' = some m) (hadmits : path ≠ [] → admits n m)
      (hadmits' : path' ≠ [] → admits m n) :
      Rearranged admits ⟨Node.replaceAt m path a :: Node.replaceAt n path' b :: rest, next⟩
  | overwrite {trees rest : List Node} {next : NodeId} {root n m : Node} (path : Path)
      (hpool : Rearranged admits ⟨trees, next⟩) (htrees : trees.Perm (root :: m :: rest))
      (hn : root.at? path = some n) (hadmits : path ≠ [] → admits n m) :
      Rearranged admits ⟨Node.replaceAt m path root :: rest, next⟩

/-- The new node reads the destination only if the old one had announced it. -/
def AnnouncedBefore (old new : Node) : Prop :=
  new.flags.readsDestination → old.flags.readsDestination

/-- No operation but attaching can leave a read of the destination unannounced. -/
theorem preserved_announced : Preserved (· ≠ .attach) Announced where
  create := fun _ => announced_leaf
  call := fun _ _ _ _ _ hoperands hrun =>
    (Effect.Crafted.of_run hrun).grows grows_announced hoperands _ rfl
  attach := fun h => absurd rfl h
  clone := fun _ _ _ _ _ _ _ _ _ hrun => grows_announced.run_clone hrun
  recolor := by
    intro _ root n m path c hroot hn hm
    obtain ⟨hannounced, hflag⟩ := (hroot.at? hn).recolor hm
    exact hroot.replaceAt hn hannounced fun _ h => hflag ▸ h

/-- However nodes are moved, no read of the destination goes unannounced as long as each new node
below a root was announced by the one it replaces. -/
theorem Rearranged.announced {pool : Pool} (h : Rearranged AnnouncedBefore pool) :
    ∀ n, n ∈ pool.trees → n.Announced := by
  induction h with
  | empty => exact fun _ hn => by cases hn
  | step _ hoperation hstep ih => exact hstep.preserves preserved_announced hoperation ih
  | @attach trees rest next root n m child sampling path _ htrees hn hm hadmits ih =>
    have hall : ∀ n, n ∈ root :: child.toList ++ rest → n.Announced :=
      fun n hn => ih n (htrees.mem_iff.mpr hn)
    have hroot := hall root (by simp)
    have hchild : ∀ c, child = some c → c.Announced := by
      rintro c rfl
      exact hall c (by simp)
    have hnew := grows_announced.attached (hroot.at? hn) hchild hm
    rw [List.forall_mem_cons]
    exact ⟨hroot.replaceAt hn hnew hadmits, fun n hn => hall n (by simp [hn])⟩
  | @exchange trees rest next a b n m path path' _ htrees hn hm hadmits hadmits' ih =>
    have hall : ∀ n, n ∈ a :: b :: rest → n.Announced :=
      fun n hn => ih n (htrees.mem_iff.mpr hn)
    simp only [List.forall_mem_cons] at hall ⊢
    obtain ⟨ha, hb, hrest⟩ := hall
    exact ⟨ha.replaceAt hn (hb.at? hm) hadmits, hb.replaceAt hm (ha.at? hn) hadmits', hrest⟩
  | @overwrite trees rest next root n m path _ htrees hn hadmits ih =>
    have hall : ∀ n, n ∈ root :: m :: rest → n.Announced :=
      fun n hn => ih n (htrees.mem_iff.mpr hn)
    simp only [List.forall_mem_cons] at hall ⊢
    obtain ⟨hroot, hm, hrest⟩ := hall
    exact ⟨hroot.replaceAt hn hm hadmits, hrest⟩

/-- The destination is not read without leave. Let nodes be created, attached, copied, changed and
moved in any order, but such that a node that comes into a place below the root of a tree reads the
destination only if the one that was there had announced it. Then a program of a tree, or of any
part of it, that is generated without leave to read the destination belongs to a tree that contains
no destination color, and its text does not name the destination color. -/
theorem destination_reads_gated {pool : Pool} (hpool : Rearranged AnnouncedBefore pool)
    {root n : Node} {path : Path} (hroot : root ∈ pool.trees) (hn : root.at? path = some n)
    {options : ProgramOptions} (hforbidden : options.allowDestinationRead = false) {p : Program}
    (hp : Program.ofNode n options = .ok p) :
    ¬n.Contains .destColor ∧ .global Variable.destColor.text.toList ∉ references p.text := by
  have hannounced := (hpool.announced root hroot).at? hn
  obtain ⟨hvalid, hallowed, rfl⟩ := Program.ofNode_eq_ok_iff.mp hp
  have hflag : ¬n.flags.readsDestination := by
    intro hreads
    rw [hallowed hreads] at hforbidden
    cases hforbidden
  have hcontains : ¬n.Contains .destColor := fun h => hflag (hannounced.readsDestination h)
  have hmention := (@Program.destination_mem_text n options hvalid).not.mpr
    (not_or.mpr ⟨hflag, hcontains⟩)
  exact ⟨hcontains, hmention⟩

/-- A clamped white, and the same with another node in the place of the white. -/
def clampedOpaque : Node :=
  unary ⟨1⟩ (.clamp false) ⟨true, true⟩ (some (leaf ⟨0⟩ (.color .white) ⟨true, true⟩)) .passThrough

def clampedInstead (m : Node) : Node := Node.replaceAt m [0] clampedOpaque

/-- One exchange puts any source into the place of the white. -/
theorem rearranged_clampedInstead {admits : Node → Node → Prop} (s : Effect.Source) {m : Node}
    (hrun : s.build.run ⟨2⟩ = .ok (m, ⟨3⟩))
    (hadmits : ∀ white, clampedOpaque.at? [0] = some white → admits white m) :
    ∃ rest, Rearranged admits ⟨clampedInstead m :: rest, ⟨3⟩⟩ := by
  have hwhite : Rearranged admits ⟨[leaf ⟨0⟩ (.color .white) ⟨true, true⟩], ⟨1⟩⟩ :=
    .step .empty (by decide)
      (@Step.call [] [] _ _ (.source (.color .white)) (some _) (.refl _) rfl)
  have hclamp : Rearranged admits ⟨[clampedOpaque], ⟨2⟩⟩ :=
    .step hwhite (by decide)
      (@Step.call _ [] _ _ (.modify (.clamp false) (some _)) (some clampedOpaque) (.refl _) rfl)
  have hsource : Rearranged admits ⟨[m, clampedOpaque], ⟨3⟩⟩ := by
    refine .step hclamp (by decide)
      (@Step.call _ [clampedOpaque] _ _ (.source s) (some m) (.refl _) ?_)
    exact Build.run_map_eq_ok.mpr ⟨m, hrun, rfl⟩
  exact ⟨_, @Rearranged.exchange _ _ [] _ clampedOpaque m _ m [0] [] hsource (.swap _ _ _) rfl rfl
    (fun _ => hadmits _ rfl) (fun h => absurd rfl h)⟩

def withoutDestination : ProgramOptions :=
  { ProgramOptions.standard with allowDestinationRead := false }

/-- Exchanging the white for another color is admitted. -/
theorem destination_reads_gated_clampedTransparent :
    ∃ p, Program.ofNode (clampedInstead (leaf ⟨2⟩ (.color .transparent) ⟨false, true⟩))
        withoutDestination = .ok p ∧
      .global Variable.destColor.text.toList ∉ references p.text := by
  obtain ⟨rest, hpool⟩ := @rearranged_clampedInstead AnnouncedBefore (.color .transparent)
    (leaf ⟨2⟩ (.color .transparent) ⟨false, true⟩) rfl fun _ _ h => absurd h (by decide)
  have hp : Program.ofNode (clampedInstead (leaf ⟨2⟩ (.color .transparent) ⟨false, true⟩))
      withoutDestination = .ok _ :=
    Program.ofNode_eq_ok_iff.mpr ⟨rfl, by decide, rfl⟩
  exact ⟨_, hp, (@destination_reads_gated _ hpool _ _ [] List.mem_cons_self rfl _ rfl _ hp).2⟩

/-- If any node may come into the place of any other one, then a program that must not read the
destination does. The clamp still says that nothing below it reads the destination. -/
theorem destination_reads_let_through :
    ¬∀ (pool : Pool) (root : Node) (options : ProgramOptions) (p : Program),
      Rearranged (fun _ _ => True) pool → root ∈ pool.trees →
      options.allowDestinationRead = false → Program.ofNode root options = .ok p →
      ¬root.Contains .destColor ∧
        .global Variable.destColor.text.toList ∉ references p.text := by
  intro h
  obtain ⟨rest, hpool⟩ := @rearranged_clampedInstead (fun _ _ => True) .destColor
    (leaf ⟨2⟩ .destColor .empty) rfl fun _ _ => trivial
  have hp : Program.ofNode (clampedInstead (leaf ⟨2⟩ .destColor .empty)) withoutDestination =
      .ok _ :=
    Program.ofNode_eq_ok_iff.mpr ⟨rfl, by decide, rfl⟩
  have hcontains : (clampedInstead (leaf ⟨2⟩ .destColor .empty)).Contains .destColor :=
    ⟨[0], _, rfl, rfl⟩
  exact (h _ _ _ _ hpool List.mem_cons_self rfl hp).1 hcontains

end Pool

end PixelEffect
