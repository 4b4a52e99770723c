import PixelEffect.Proofs.Json.Number
import PixelEffect.Proofs.Json.Text

namespace PixelEffect.Json

mutual

/-- How deep arrays and objects are nested. -/
def nesting : Json → Nat
  | array items => nestingOfItems items + 1
  | object members => nestingOfMembers members + 1
  | _ => 0

def nestingOfItems : List Json → Nat
  | [] => 0
  | item :: rest => max (nesting item) (nestingOfItems rest)

def nestingOfMembers : List (String × Json) → Nat
  | [] => 0
  | (_, v) :: rest => max (nesting v) (nestingOfMembers rest)

end

theorem nesting_le_of_mem_items {items : List Json} {v : Json} (h : v ∈ items) :
    v.nesting ≤ nestingOfItems items := by
  induction items with
  | nil => cases h
  | cons item rest ih =>
    rw [nestingOfItems]
    rcases List.mem_cons.mp h with rfl | h
    · omega
    · have hrest := ih h
      omega

theorem nesting_le_of_mem_members {members : List (String × Json)} {m : String × Json}
    (h : m ∈ members) : m.2.nesting ≤ nestingOfMembers members := by
  induction members with
  | nil => cases h
  | cons member rest ih =>
    rw [nestingOfMembers]
    rcases List.mem_cons.mp h with rfl | h
    · omega
    · have hrest := ih h
      omega

/-- All numbers in the value are such as JSON has them, and they are in range. -/
inductive Legible : Json → Prop
  | null : Legible null
  | bool (b : Bool) : Legible (bool b)
  | number {n : Numeral} (hstrict : n.Strict) (hrange : (JsonNumber.ofNumeral n).isSome) :
      Legible (number n)
  | string (s : String) : Legible (string s)
  | array {items : List Json} (hitems : ∀ v, v ∈ items → Legible v) : Legible (array items)
  | object {members : List (String × Json)} (hmembers : ∀ m, m ∈ members → Legible m.2) :
      Legible (object members)

theorem skipBlanks_of_not_blank {c : Char} (h : isBlank c = false) (cs : List Char) :
    skipBlanks (c :: cs) = c :: cs := by
  rw [skipBlanks, List.dropWhile_cons_of_neg (by simp [h])]

/-- The indentation of a line is skipped. -/
theorem skipBlanks_newline (level : Nat) {c : Char} (h : isBlank c = false) (cs : List Char) :
    skipBlanks (newline level ++ c :: cs) = c :: cs := by
  have hblank : ∀ d, d ∈ newline level → isBlank d := by
    intro d hd
    rcases List.mem_cons.mp hd with rfl | hd
    · rfl
    · rw [List.eq_of_mem_replicate hd]
      rfl
  rw [skipBlanks, List.dropWhile_append_of_pos hblank]
  exact skipBlanks_of_not_blank h cs

/-- A text that begins like a value. -/
def StartsValue (cs : List Char) : Prop :=
  ∃ c rest, cs = c :: rest ∧ isBlank c = false ∧ c ≠ ']' ∧ c ≠ '\x7d'

/-- Values begin with a character that is neither blank nor a closing bracket. -/
theorem startsValue_cons {c : Char} (rest : List Char)
    (h : isBlank c = false ∧ c ≠ ']' ∧ c ≠ '\x7d') : StartsValue (c :: rest) :=
  ⟨c, rest, rfl, h⟩

theorem StartsValue.append {cs : List Char} (h : StartsValue cs) (rest : List Char) :
    StartsValue (cs ++ rest) := by
  obtain ⟨c, cs, rfl, h⟩ := h
  exact startsValue_cons (cs ++ rest) h

theorem StartsValue.skipBlanks_newline {cs : List Char} (h : StartsValue cs) (level : Nat) :
    skipBlanks (newline level ++ cs) = cs := by
  obtain ⟨c, cs, rfl, hblank, _⟩ := h
  exact Json.skipBlanks_newline level hblank cs

section

variable {α : Type} {close : Char} {item : Reader α} {text : α → List Char} {level outer : Nat}

/-- The texts of things, each on a line of its own, with the closing bracket on another one. -/
def lines (close : Char) (text : α → List Char) (level outer : Nat) (x : α) (xs : List α)
    (rest : List Char) : List Char :=
  newline level ++ (text x
    ++ (xs.flatMap (fun y => ',' :: (newline level ++ text y)) ++ (newline outer ++ close :: rest)))

/-- The item is read back from its text, wherever the text stands. -/
structure ReadsBack (item : Reader α) (text : α → List Char) (x : α) : Prop where
  starts : StartsValue (text x)
  reads : ∀ rest, EndsNumber rest → item (text x ++ rest) = some (x, rest)

/-- The lines between brackets are read back one after the other. -/
theorem items_lines (hclose : isBlank close = false ∧ close ≠ ',') {x : α} {xs : List α}
    (hx : ReadsBack item text x) (hxs : ∀ y, y ∈ xs → ReadsBack item text y) {fuel : Nat}
    (hfuel : xs.length < fuel) (rest : List Char) :
    Reader.items close item fuel (lines close text level outer x xs rest) =
      some (x :: xs, rest) := by
  obtain ⟨fuel, rfl⟩ := Nat.exists_eq_succ_of_ne_zero (Nat.ne_of_gt (Nat.zero_lt_of_lt hfuel))
  induction xs generalizing x fuel with
  | nil =>
    have hend : EndsNumber (newline outer ++ close :: rest) := endsNumber_cons _ (by decide)
    rw [Reader.items, lines, (hx.starts.append _).skipBlanks_newline]
    simp only [List.flatMap_nil, List.nil_append, hx.reads _ hend, Option.bind_eq_bind,
      Option.bind_some, skipBlanks_newline outer hclose.1, if_true]
    rfl
  | cons y ys ih =>
    have hpos : fuel ≠ 0 := by
      rw [List.length_cons] at hfuel
      omega
    obtain ⟨fuel, rfl⟩ := Nat.exists_eq_succ_of_ne_zero hpos
    have hy := ih (hxs y List.mem_cons_self) (fun z hz => hxs z (List.mem_cons_of_mem _ hz)) fuel
      (by simpa using hfuel)
    rw [Reader.items, lines, (hx.starts.append _).skipBlanks_newline]
    simp only [List.flatMap_cons, List.cons_append, List.append_assoc]
    rw [hx.reads _ (endsNumber_cons _ (by decide)), Option.bind_eq_bind, Option.bind_some]
    simp only [skipBlanks_of_not_blank (show isBlank ',' = false from rfl), if_neg hclose.2.symm,
      if_true]
    rw [lines] at hy
    rw [hy]
    rfl

/-- There is fuel for all items, because every item takes a comma at least. -/
theorem sequence_lines (hclose : close = ']' ∨ close = '\x7d') {x : α} {xs : List α}
    (hx : ReadsBack item text x) (hxs : ∀ y, y ∈ xs → ReadsBack item text y) (rest : List Char) :
    Reader.sequence close item (lines close text level outer x xs rest) = some (x :: xs, rest) := by
  have hcommas := length_le_length_flatMap
    (fun y => List.cons_ne_nil ',' (newline level ++ text y)) xs
  have hfuel : xs.length < (lines close text level outer x xs rest).length + 1 := by
    simp only [lines, List.length_append]
    omega
  obtain ⟨c, cs, htext, hblank, hbracket, hbrace⟩ := hx.starts
  obtain ⟨ds, hskip⟩ : ∃ ds, skipBlanks (lines close text level outer x xs rest) = c :: ds := by
    rw [lines, htext]
    exact ⟨_, skipBlanks_newline level hblank _⟩
  have hne : c ≠ close := by rcases hclose with rfl | rfl <;> assumption
  have hseparates : isBlank close = false ∧ close ≠ ',' := by
    rcases hclose with rfl | rfl <;> decide
  rw [Reader.sequence, hskip]
  simp only [if_neg hne]
  exact items_lines hseparates hx hxs hfuel rest

end

theorem itemChars_eq (level : Nat) (items : List Json) :
    itemChars level items = items.flatMap fun v => ',' :: (newline level ++ chars level v) := by
  induction items with
  | nil => rfl
  | cons item rest ih => rw [itemChars, ih, List.flatMap_cons, List.cons_append]

/-- The text of a member of an object. -/
def nameChars (level : Nat) (m : String × Json) : List Char :=
  stringChars m.1 ++ ':' :: ' ' :: chars level m.2

theorem memberChars_eq (level : Nat) (members : List (String × Json)) :
    memberChars level members =
      members.flatMap fun m => ',' :: (newline level ++ nameChars level m) := by
  induction members with
  | nil => rfl
  | cons member rest ih =>
    rw [memberChars, ih, List.flatMap_cons]
    simp [nameChars]

/-- Which texts are read as values without parts. -/
theorem value_eq_scalar {c : Char} (hbracket : c ≠ '[') (hbrace : c ≠ '\x7b') (depth : Nat)
    (cs : List Char) : Reader.value depth (c :: cs) = Reader.scalar (c :: cs) := by
  cases depth with
  | zero => rfl
  | succ depth => simp [Reader.value, hbracket, hbrace]

/-- What begins like none of the words and like no string is read as a number. -/
theorem scalar_eq_numeral {c : Char} (hn : c ≠ 'n') (ht : c ≠ 't') (hf : c ≠ 'f') (hquote : c ≠ '"')
    (cs : List Char) :
    Reader.scalar (c :: cs) = (Reader.numeral (c :: cs)).bind fun read =>
      some (number read.1, read.2) := by
  simp only [Reader.scalar]
  split
  case h_5 => rfl
  all_goals exact absurd (List.cons.inj ‹_›).1 ‹_›

/-- A numeral begins with a sign or with a digit. -/
theorem exists_toChars_eq_cons {n : Numeral} (h : n.Strict) :
    ∃ c cs, n.toChars = c :: cs ∧ ∀ d : Char, d.isDigit = false → d ≠ '-' → c ≠ d := by
  rw [Numeral.toChars_eq]
  cases n.negative with
  | true => exact ⟨_, _, rfl, fun _ _ hminus => hminus.symm⟩
  | false =>
    cases hwhole : n.whole with
    | nil => exact absurd hwhole h.whole_ne
    | cons c ds =>
      have hdigit : c.isDigit := h.whole c (by rw [hwhole]; exact List.mem_cons_self)
      exact ⟨c, _, rfl, fun _ hd _ => Reader.ne_of_isDigit hdigit hd⟩

/-- A number is read back wherever it stands, if it is in range. -/
theorem value_number {n : Numeral} (h : n.Strict) (depth : Nat) {rest : List Char}
    (hrest : EndsNumber rest) :
    Reader.value depth (n.toChars ++ rest) =
      if (JsonNumber.ofNumeral n).isSome then some (number n, rest) else none := by
  obtain ⟨c, cs, hchars, hne⟩ := exists_toChars_eq_cons h
  have hnumeral := Reader.numeral_append h hrest
  rw [hchars, List.cons_append] at hnumeral ⊢
  rw [value_eq_scalar (hne '[' rfl (by decide)) (hne '\x7b' rfl (by decide)),
    scalar_eq_numeral (hne 'n' rfl (by decide)) (hne 't' rfl (by decide))
      (hne 'f' rfl (by decide)) (hne '"' rfl (by decide)), hnumeral]
  split <;> rfl

theorem startsValue_number {n : Numeral} (h : n.Strict) : StartsValue n.toChars := by
  obtain ⟨c, cs, hchars, hne⟩ := exists_toChars_eq_cons h
  have hblank : isBlank c = false := by
    simp [isBlank, hne ' ' rfl, hne '\t' rfl, hne '\n' rfl, hne '\r' rfl]
  rw [hchars]
  exact startsValue_cons cs ⟨hblank, hne ']' rfl (by decide), hne '\x7d' rfl (by decide)⟩

/-- The text of a value begins like a value. -/
theorem Legible.startsValue_chars {v : Json} (h : v.Legible) (level : Nat) :
    StartsValue (chars level v) := by
  cases h with
  | null | string => exact startsValue_cons _ (by decide)
  | bool b => cases b <;> exact startsValue_cons _ (by decide)
  | number hstrict =>
    rw [chars]
    exact startsValue_number hstrict
  | @array items => cases items <;> exact startsValue_cons _ (by decide)
  | @object members => cases members <;> exact startsValue_cons _ (by decide)

/-- A member is read back if its value is. -/
theorem member_nameChars {value : Reader Json} {level : Nat} {m : String × Json}
    (hv : ReadsBack value (chars level) m.2) :
    ReadsBack (Reader.member value) (nameChars level) m where
  starts := startsValue_cons _ (by decide)
  reads := by
    intro rest hrest
    obtain ⟨c, cs, htext, hblank, _⟩ := hv.starts
    have hvalue : value (c :: (cs ++ rest)) = some (m.2, rest) := by
      rw [← hv.reads rest hrest, htext, List.cons_append]
    have hskip : skipBlanks (' ' :: c :: (cs ++ rest)) = c :: (cs ++ rest) := by
      rw [skipBlanks, List.dropWhile_cons_of_pos rfl]
      exact skipBlanks_of_not_blank hblank _
    simp only [nameChars, stringChars, htext, List.append_assoc, List.cons_append,
      List.nil_append, Reader.member, string_stringChars, Option.bind_eq_bind, Option.bind_some,
      skipBlanks_of_not_blank (show isBlank ':' = false from rfl), hskip, hvalue]
    rfl

/-- An array that is not empty is written line by line. -/
theorem chars_array (level : Nat) (item : Json) (items : List Json) (rest : List Char) :
    chars level (array (item :: items)) ++ rest =
      '[' :: lines ']' (chars (level + 1)) (level + 1) level item items rest := by
  simp [chars, lines, itemChars_eq]

/-- So is an object. -/
theorem chars_object (level : Nat) (m : String × Json) (members : List (String × Json))
    (rest : List Char) :
    chars level (object (m :: members)) ++ rest =
      '\x7b' :: lines '\x7d' (nameChars (level + 1)) (level + 1) level m members rest := by
  simp [chars, lines, nameChars, memberChars_eq]

/-- A value is read back from its text, wherever the text stands. -/
theorem Legible.value_chars {v : Json} (h : v.Legible) {depth : Nat} (hdepth : v.nesting ≤ depth)
    (level : Nat) {rest : List Char} (hrest : EndsNumber rest) :
    Reader.value depth (chars level v ++ rest) = some (v, rest) := by
  induction h generalizing depth level rest with
  | null => cases depth <;> rfl
  | bool b => cases b <;> cases depth <;> rfl
  | number hstrict hrange => rw [chars, value_number hstrict depth hrest, if_pos hrange]
  | string s =>
    rw [chars, stringChars, List.append_assoc, List.cons_append,
      value_eq_scalar (by decide) (by decide)]
    simp only [Reader.scalar, List.singleton_append, string_stringChars, Option.bind_eq_bind,
      Option.bind_some]
    rfl
  | @array items hitems ih =>
    obtain ⟨depth, rfl⟩ := Nat.exists_eq_succ_of_ne_zero
      (Nat.ne_of_gt (Nat.lt_of_lt_of_le (Nat.succ_pos _) hdepth))
    have hback : ∀ v, v ∈ items → ReadsBack (Reader.value depth) (chars (level + 1)) v := by
      intro v hv
      have hle := nesting_le_of_mem_items hv
      rw [nesting] at hdepth
      exact ⟨(hitems v hv).startsValue_chars _, fun rest => ih v hv (by omega) (level + 1)⟩
    cases items with
    | nil => rfl
    | cons item items =>
      rw [chars_array, Reader.value, sequence_lines (.inl rfl) (hback item List.mem_cons_self)
        fun v hv => hback v (List.mem_cons_of_mem _ hv)]
      rfl
  | @object members hmembers ih =>
    obtain ⟨depth, rfl⟩ := Nat.exists_eq_succ_of_ne_zero
      (Nat.ne_of_gt (Nat.lt_of_lt_of_le (Nat.succ_pos _) hdepth))
    have hback : ∀ m, m ∈ members →
        ReadsBack (Reader.member (Reader.value depth)) (nameChars (level + 1)) m := by
      intro m hm
      have hle := nesting_le_of_mem_members hm
      rw [nesting] at hdepth
      exact member_nameChars
        ⟨(hmembers m hm).startsValue_chars _, fun rest => ih m hm (by omega) (level + 1)⟩
    cases members with
    | nil => rfl
    | cons m members =>
      rw [chars_object, Reader.value, sequence_lines (.inr rfl) (hback m List.mem_cons_self)
        fun m hm => hback m (List.mem_cons_of_mem _ hm)]
      rfl

theorem ofText_pretty_eq {v : Json} (h : StartsValue (chars 0 v)) :
    ofText v.pretty =
      (Reader.value nestingLimit (chars 0 v)).bind fun read =>
        if (skipBlanks read.2).isEmpty then some read.1 else none := by
  obtain ⟨c, cs, htext, hblank, _⟩ := h
  have hskip : skipBlanks (chars 0 v) = chars 0 v := by
    rw [htext]
    exact skipBlanks_of_not_blank hblank cs
  rw [ofText, pretty, String.toList_ofList, hskip]
  rfl

/-- A legible value that is not nested too deep is read back from its text. -/
theorem Legible.ofText_pretty {v : Json} (h : v.Legible) (hnesting : v.nesting ≤ nestingLimit) :
    ofText v.pretty = some v := by
  have hread := h.value_chars hnesting 0 endsNumber_nil
  rw [List.append_nil] at hread
  rw [ofText_pretty_eq (h.startsValue_chars 0), hread]
  rfl

/-- A number that can be read at all is in range. -/
theorem legible_of_ofText {n : Numeral} (h : n.Strict) {v : Json}
    (hread : ofText (number n).pretty = some v) : (number n).Legible := by
  refine .number h ?_
  have hvalue := value_number h nestingLimit endsNumber_nil
  have hstarts : StartsValue (chars 0 (number n)) := by
    rw [chars]
    exact startsValue_number h
  rw [List.append_nil] at hvalue
  rw [ofText_pretty_eq hstarts, chars, hvalue] at hread
  by_cases hrange : (JsonNumber.ofNumeral n).isSome
  · exact hrange
  · rw [if_neg hrange] at hread
    cases hread

end PixelEffect.Json
