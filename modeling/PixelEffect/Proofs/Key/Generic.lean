import PixelEffect.Proofs.Key.Codes
import PixelEffect.Proofs.Node.Path

namespace PixelEffect

namespace Kind

/-- The kind with all values that reach a program as uniforms replaced by fixed ones. -/
def generic : Kind → Kind
  | color _ => color .transparent
  | overrideInput _ false => overrideInput .transparent false
  | colorMatrix m =>
    let row : ColorRow := ⟨0, 0, 0, 0, 0⟩
    colorMatrix ⟨row, row, row, row, m.unpremulInput, m.clampRgbOutput, m.premulOutput⟩
  | matrix m => matrix (if m.hasPerspective then ⟨1, 0, 0, 0, 1, 0, 0, 0, 0⟩ else .identity)
  | linearGradient .. => linearGradient ⟨0, 0⟩ ⟨0, 0⟩ .transparent .transparent
  | kind => kind

@[simp] theorem effectClass_generic (kind : Kind) : kind.generic.effectClass = kind.effectClass := by
  cases kind with
  | overrideInput c specialized => cases specialized <;> rfl
  | _ => rfl

theorem hasPerspective_generic (m : Matrix3) :
    (if m.hasPerspective then (⟨1, 0, 0, 0, 1, 0, 0, 0, 0⟩ : Matrix3)
      else .identity).hasPerspective = m.hasPerspective := by
  cases m.hasPerspective <;> rfl

@[simp] theorem keyFields_generic (kind : Kind) : kind.generic.keyFields = kind.keyFields := by
  cases kind with
  | overrideInput c specialized => cases specialized <;> rfl
  | matrix m => simp only [generic, keyFields, hasPerspective_generic]
  | _ => rfl

/-- Kinds of one class whose parameters fill the same words have the same generic form, whatever
follows the words. -/
theorem generic_eq_of_words {k l : Kind} (hclass : k.effectClass = l.effectClass)
    {s t : List UInt32}
    (h : k.keyFields.map KeyField.toWord ++ s = l.keyFields.map KeyField.toWord ++ t) :
    k.generic = l.generic ∧ s = t := by
  cases k with
  | color | destColor | premul | compose | deviceSpace | linearGradient =>
    cases l <;> cases hclass
    exact ⟨rfl, h⟩
  | overrideInput c specialized =>
    cases l <;> cases hclass
    rename_i d specialized'
    obtain ⟨hflag, h⟩ := List.cons_eq_cons.mp h
    obtain rfl := KeyField.toWord_flag_injective hflag
    cases specialized with
    | false => exact ⟨rfl, h⟩
    | true =>
      obtain ⟨hr, h⟩ := List.cons_eq_cons.mp h
      obtain ⟨hg, h⟩ := List.cons_eq_cons.mp h
      obtain ⟨hb, h⟩ := List.cons_eq_cons.mp h
      obtain ⟨ha, h⟩ := List.cons_eq_cons.mp h
      have hcolor : c = d := by
        cases c
        cases d
        simp only [Color.mk.injEq]
        exact ⟨KeyField.toWord_number_injective hr, KeyField.toWord_number_injective hg,
          KeyField.toWord_number_injective hb, KeyField.toWord_number_injective ha⟩
      exact ⟨by rw [hcolor], h⟩
  | swizzle x =>
    cases l <;> cases hclass
    obtain ⟨hcode, h⟩ := List.cons_eq_cons.mp h
    exact ⟨by rw [Swizzle.code_injective hcode], h⟩
  | blend mode behavior =>
    cases l <;> cases hclass
    obtain ⟨hmode, h⟩ := List.cons_eq_cons.mp h
    obtain ⟨hbehavior, h⟩ := List.cons_eq_cons.mp h
    exact ⟨by rw [BlendMode.code_injective hmode, BlendBehavior.code_injective hbehavior], h⟩
  | colorMatrix m =>
    cases l <;> cases hclass
    obtain ⟨hunpremul, h⟩ := List.cons_eq_cons.mp h
    obtain ⟨hclamp, h⟩ := List.cons_eq_cons.mp h
    obtain ⟨hpremul, h⟩ := List.cons_eq_cons.mp h
    simp only [generic, KeyField.toWord_flag_injective hunpremul,
      KeyField.toWord_flag_injective hclamp, KeyField.toWord_flag_injective hpremul, true_and]
    exact h
  | clamp toAlpha =>
    cases l <;> cases hclass
    obtain ⟨hflag, h⟩ := List.cons_eq_cons.mp h
    exact ⟨by rw [KeyField.toWord_flag_injective hflag], h⟩
  | matrix m =>
    cases l <;> cases hclass
    obtain ⟨hflag, h⟩ := List.cons_eq_cons.mp h
    simp only [generic, KeyField.toWord_flag_injective hflag, true_and]
    exact h

end Kind

namespace Node

mutual

/-- What the key of a tree says about it. How the tree itself is sampled is not part of that. -/
def generic : Node → Node
  | mk data slots =>
    mk
      { id := ⟨0⟩, kind := data.kind.generic, parent := none
        flags := ⟨data.flags.usesCoordsDirectly, false, false, false, false⟩
        sampling := .unsampled, optimizations := .empty, capabilities := ⟨false⟩ }
      (genericSlots slots)

def genericSlots : List (Option Node) → List (Option Node)
  | [] => []
  | none :: rest => none :: genericSlots rest
  | some child :: rest => some (resampled child.sampling (generic child)) :: genericSlots rest

end

theorem genericSlots_eq_map (slots : List (Option Node)) :
    genericSlots slots =
      slots.map (Option.map fun child => resampled child.sampling child.generic) := by
  induction slots with
  | nil => rfl
  | cons slot rest ih => cases slot <;> simp [genericSlots, ih]

/-- Wherever both trees have a node and count its slots by the same word, the two nodes have equally
many. The word is the number of slots modulo `2 ^ 32`, so this says something about large trees
only. -/
def CountsAgree (a b : Node) : Prop :=
  ∀ path n m, a.at? path = some n → b.at? path = some m →
    n.slots.length.toUInt32 = m.slots.length.toUInt32 → n.slots.length = m.slots.length

/-- Trees with agreeing counts have children with agreeing counts. -/
theorem CountsAgree.child {a b child other : Node} (h : a.CountsAgree b) {i : Nat}
    (hchild : a.child? i = some child) (hother : b.child? i = some other) :
    child.CountsAgree other := by
  intro path n m hn hm
  exact h (i :: path) n m (at?_cons_eq_some.mpr ⟨child, hchild, hn⟩)
    (at?_cons_eq_some.mpr ⟨other, hother, hm⟩)

/-- The slots of two nodes can be read off their words, given that there are equally many. -/
theorem genericSlots_eq_of_words {xs ys : List (Option Node)} {s t : List UInt32}
    (ih : ∀ (i : Nat) child other, xs[i]? = some (some child) → ys[i]? = some (some other) →
      ∀ {s t : List UInt32}, child.keyWords ++ s = other.keyWords ++ t →
        child.generic = other.generic ∧ s = t)
    (hlength : xs.length = ys.length)
    (h : keyWordsOfSlots xs ++ s = keyWordsOfSlots ys ++ t) :
    genericSlots xs = genericSlots ys ∧ s = t := by
  induction xs generalizing ys with
  | nil =>
    obtain rfl := List.length_eq_zero_iff.mp hlength.symm
    exact ⟨rfl, h⟩
  | cons x xs ihSlots =>
    cases ys with
    | nil => cases hlength
    | cons y ys =>
      have ihRest := ihSlots
        (fun i child other hchild hother => ih (i + 1) child other hchild hother)
        (Nat.succ.inj hlength)
      cases x with
      | none =>
        cases y with
        | none =>
          obtain ⟨_, h⟩ := List.cons_eq_cons.mp h
          obtain ⟨hslots, h⟩ := ihRest h
          exact ⟨by rw [genericSlots, genericSlots, hslots], h⟩
        | some other =>
          exact absurd (List.cons_eq_cons.mp h).1.symm other.sampling.code_ne_emptySlotWord
      | some child =>
        cases y with
        | none =>
          exact absurd (List.cons_eq_cons.mp h).1 child.sampling.code_ne_emptySlotWord
        | some other =>
          simp only [keyWordsOfSlots, List.cons_append, List.append_assoc] at h
          obtain ⟨hsampling, h⟩ := List.cons_eq_cons.mp h
          obtain ⟨hchild, h⟩ := ih 0 child other rfl rfl h
          obtain ⟨hslots, h⟩ := ihRest h
          rw [genericSlots, genericSlots, hchild, hslots, Sampling.code_injective hsampling]
          exact ⟨rfl, h⟩

/-- The words in front of those of the slots, one by one. -/
theorem header_eq_of_words {data other : NodeData} {slots others : List (Option Node)}
    {s t : List UInt32} (h : (mk data slots).keyWords ++ s = (mk other others).keyWords ++ t) :
    data.kind.generic = other.kind.generic ∧
      data.flags.usesCoordsDirectly = other.flags.usesCoordsDirectly ∧
      slots.length.toUInt32 = others.length.toUInt32 ∧
      keyWordsOfSlots slots ++ s = keyWordsOfSlots others ++ t := by
  simp only [keyWords, List.cons_append, List.append_assoc] at h
  obtain ⟨hclass, h⟩ := List.cons_eq_cons.mp h
  obtain ⟨hdirect, h⟩ := List.cons_eq_cons.mp h
  obtain ⟨hkind, h⟩ := Kind.generic_eq_of_words (EffectClass.code_injective hclass) h
  obtain ⟨hlength, h⟩ := List.cons_eq_cons.mp h
  exact ⟨hkind, KeyField.toWord_flag_injective hdirect, hlength, h⟩

/-- A tree can be read off its key, up to what the key leaves out, whatever follows the key. -/
theorem generic_eq_of_words {a b : Node} {s t : List UInt32} (hcounts : a.CountsAgree b)
    (h : a.keyWords ++ s = b.keyWords ++ t) : a.generic = b.generic ∧ s = t := by
  induction a generalizing b s t with
  | mk data slots ih =>
    obtain ⟨other, others⟩ := b
    obtain ⟨hkind, hdirect, hlength, h⟩ := header_eq_of_words h
    have hslots : slots.length = others.length := hcounts [] _ _ rfl rfl hlength
    have hchildren : ∀ (i : Nat) child other, slots[i]? = some (some child) →
        others[i]? = some (some other) → child.CountsAgree other := fun i _ _ hchild hother =>
      hcounts.child (i := i) (Option.join_eq_some_iff.mpr hchild)
        (Option.join_eq_some_iff.mpr hother)
    obtain ⟨hgeneric, h⟩ := genericSlots_eq_of_words (fun i child other hchild hother =>
      ih child (List.mem_of_getElem? hchild) (hchildren i child other hchild hother)) hslots h
    simp only [generic, hkind, hdirect, hgeneric, true_and]
    exact h

/-- The words of a tree do not say how its root is sampled. -/
theorem keyWords_resampled (sampling : Sampling) (n : Node) :
    (n.resampled sampling).keyWords = n.keyWords := by
  cases n
  rfl

/-- The generic form of a tree has the key of the tree. -/
theorem keyWords_generic (n : Node) : n.generic.keyWords = n.keyWords := by
  induction n with
  | mk data slots ih =>
    have hslots : keyWordsOfSlots (genericSlots slots) = keyWordsOfSlots slots := by
      induction slots with
      | nil => rfl
      | cons slot rest ihRest =>
        have ihRest := ihRest fun child hchild => ih child (List.mem_cons_of_mem _ hchild)
        cases slot with
        | none => rw [genericSlots, keyWordsOfSlots, keyWordsOfSlots, ihRest]
        | some child =>
          rw [genericSlots, keyWordsOfSlots, keyWordsOfSlots, ihRest, keyWords_resampled,
            sampling_resampled, ih child List.mem_cons_self]
    rw [generic, keyWords, keyWords, hslots, genericSlots_eq_map, List.length_map]
    simp only [Kind.effectClass_generic, Kind.keyFields_generic]

/-- Every node of the tree has fewer slots than a key can count. -/
inductive Countable : Node → Prop
  | mk {data : NodeData} {slots : List (Option Node)} (hslots : slots.length < UInt32.size)
      (hchildren : ∀ child, some child ∈ slots → Countable child) : Countable (mk data slots)

/-- A tree is countable if its root is and the trees in its slots are. -/
theorem countable_iff {n : Node} :
    n.Countable ↔ n.slots.length < UInt32.size ∧
      ∀ child, some child ∈ n.slots → child.Countable := by
  constructor
  · rintro ⟨hslots, hchildren⟩
    exact ⟨hslots, hchildren⟩
  · obtain ⟨data, slots⟩ := n
    rintro ⟨hslots, hchildren⟩
    exact ⟨hslots, hchildren⟩

theorem Countable.at? {root n : Node} {path : Path} (h : root.Countable)
    (hn : root.at? path = some n) : n.Countable := by
  induction path generalizing root with
  | nil =>
    cases hn
    exact h
  | cons i path ih =>
    obtain ⟨child, hchild, hn⟩ := at?_cons_eq_some.mp hn
    exact ih ((countable_iff.mp h).2 child (mem_slots_of_child? hchild)) hn

/-- Where no count wraps around, equal words are equal counts. -/
theorem Countable.countsAgree {a b : Node} (ha : a.Countable) (hb : b.Countable) :
    a.CountsAgree b := by
  intro path n m hn hm hcount
  have hn := UInt32.toNat_ofNat_of_lt' (countable_iff.mp (ha.at? hn)).1
  have hm := UInt32.toNat_ofNat_of_lt' (countable_iff.mp (hb.at? hm)).1
  exact hn.symm.trans ((congrArg UInt32.toNat hcount).trans hm)

/-- Equal keys are those of trees with the same generic form. -/
theorem keyWords_eq_iff {a b : Node} (ha : a.Countable) (hb : b.Countable) :
    a.keyWords = b.keyWords ↔ a.generic = b.generic := by
  constructor
  · intro h
    exact (generic_eq_of_words (s := []) (t := []) (ha.countsAgree hb) (by rw [h])).1
  · intro h
    rw [← keyWords_generic a, h, keyWords_generic]

theorem keyWordsOfSlots_append (xs ys : List (Option Node)) :
    keyWordsOfSlots (xs ++ ys) = keyWordsOfSlots xs ++ keyWordsOfSlots ys := by
  induction xs with
  | nil => rfl
  | cons x xs ih => cases x <;> simp [keyWordsOfSlots, ih]

/-- A number below the word size is not above any other one with the same word. -/
theorem le_of_toUInt32_eq {n m : Nat} (hn : n < UInt32.size) (h : n.toUInt32 = m.toUInt32) :
    n ≤ m := by
  have hn : n.toUInt32.toNat = n := UInt32.toNat_ofNat_of_lt' hn
  have hm : m.toUInt32.toNat ≤ m := by
    rw [Nat.toUInt32, UInt32.toNat_ofNat']
    exact Nat.mod_le _ _
  rw [← hn, h]
  exact hm

/-- Both lists hold what is still to be read, the second one possibly more of it. Reading the words
never finds more slots on the first side, and in the end none is left over on the second. -/
theorem countable_of_keyWordsOfSlots {xs ys : List (Option Node)} (hlength : xs.length ≤ ys.length)
    (hxs : ∀ child, some child ∈ xs → child.Countable)
    (h : keyWordsOfSlots xs = keyWordsOfSlots ys) :
    xs.length = ys.length ∧ ∀ child, some child ∈ ys → child.Countable := by
  induction hwords : (keyWordsOfSlots xs).length using Nat.strongRecOn generalizing xs ys with
  | ind words ih =>
    match xs, ys, hlength with
    | [], [], _ => exact ⟨rfl, fun _ hchild => (by cases hchild)⟩
    | [], none :: _, _ | [], some _ :: _, _ => cases h
    | none :: xs, none :: ys, hlength =>
      obtain ⟨_, h⟩ := List.cons_eq_cons.mp h
      obtain ⟨hlength, hys⟩ := ih _ (by simp [← hwords, keyWordsOfSlots])
        (Nat.le_of_succ_le_succ hlength) (fun child hchild => hxs child (by simp [hchild])) h rfl
      exact ⟨congrArg (· + 1) hlength, by simpa using hys⟩
    | none :: _, some other :: _, _ =>
      exact absurd (List.cons_eq_cons.mp h).1.symm other.sampling.code_ne_emptySlotWord
    | some child :: _, none :: _, _ =>
      exact absurd (List.cons_eq_cons.mp h).1 child.sampling.code_ne_emptySlotWord
    | some (.mk data slots) :: xs, some (.mk other others) :: ys, hlength =>
      obtain ⟨_, h⟩ := List.cons_eq_cons.mp h
      obtain ⟨_, _, hcount, h⟩ := header_eq_of_words h
      obtain ⟨hslots, hchildren⟩ := countable_iff.mp (hxs _ List.mem_cons_self)
      have hle : slots.length ≤ others.length := le_of_toUInt32_eq hslots hcount
      rw [← keyWordsOfSlots_append, ← keyWordsOfSlots_append] at h
      obtain ⟨hall, hys⟩ := ih (keyWordsOfSlots (slots ++ xs)).length
        (by simp [← hwords, keyWordsOfSlots, keyWords, keyWordsOfSlots_append]; omega)
        (by simp only [List.length_append, List.length_cons] at hlength ⊢; omega)
        (by
          intro child hchild
          rcases List.mem_append.mp hchild with hchild | hchild
          · exact hchildren child hchild
          · exact hxs child (List.mem_cons_of_mem _ hchild)) h rfl
      simp only [List.length_append, List.length_cons] at hall hlength
      have hothers : others.length = slots.length := by omega
      refine ⟨by simp only [List.length_cons]; omega, ?_⟩
      intro child hchild
      rcases List.mem_cons.mp hchild with hchild | hchild
      · cases hchild
        exact .mk (hothers ▸ hslots) fun child hchild => hys child (by simp [hchild])
      · exact hys child (by simp [hchild])

/-- If the slots of one tree can be counted, so can those of every tree with the same key. -/
theorem Countable.of_keyWords_eq {a b : Node} (ha : a.Countable) (h : a.keyWords = b.keyWords) :
    b.Countable := by
  obtain ⟨data, slots⟩ := a
  obtain ⟨other, others⟩ := b
  obtain ⟨hslots, hchildren⟩ := countable_iff.mp ha
  have hwords : (Node.mk data slots).keyWords ++ [] = (Node.mk other others).keyWords ++ [] := by
    rw [h]
  obtain ⟨_, _, hcount, hwords⟩ := header_eq_of_words hwords
  rw [List.append_nil, List.append_nil] at hwords
  obtain ⟨hlength, hothers⟩ :=
    countable_of_keyWordsOfSlots (le_of_toUInt32_eq hslots hcount) hchildren hwords
  exact .mk (hlength ▸ hslots) hothers

end Node

end PixelEffect
