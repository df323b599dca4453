import HelionDb.Parser

/-! Keywords in the texts of statements. A keyword is typed in any case, and an upper-cased text is searched for it; what
stands between keywords may contain it too. -/

namespace HelionDb

namespace AlongText

/-- What holds of the characters of a text is decided along the text, not over all characters. -/
scoped instance (priority := 2000) decidableForall (p : Char → Prop) [DecidablePred p] (text : List Char) :
    Decidable (∀ c ∈ text, p c) := List.decidableBAll p text

end AlongText

open scoped AlongText

/-! ### Places of patterns -/

section

variable {α : Type} {s a b : α} {pattern before after : List α}

/-- A pattern in a text with a separator lies on one side of it, or around it. -/
theorem infix_append_cons (h : pattern <:+: before ++ s :: after) :
    pattern <:+: before ∨ pattern <:+: after ∨
      ∃ front back, pattern = front ++ s :: back ∧ front <:+ before ∧ back <+: after := by
  obtain ⟨u, v, huv⟩ := h
  rw [List.append_assoc] at huv
  rcases List.append_eq_append_iff.mp huv with ⟨left, hbefore, hright⟩ | ⟨left, rfl, hright⟩
  · rcases List.append_eq_append_iff.mp hright with ⟨more, hleft, -⟩ | ⟨more, hpattern, hmore⟩
    · exact .inl ⟨u, more, by rw [hbefore, hleft, List.append_assoc]⟩
    · cases more with
      | nil => exact .inl ⟨u, [], by rw [hpattern, hbefore, List.append_nil, List.append_nil]⟩
      | cons c back =>
          obtain ⟨rfl, hafter⟩ := List.cons.inj hmore
          exact .inr (.inr ⟨left, back, hpattern, ⟨u, hbefore.symm⟩, ⟨v, hafter.symm⟩⟩)
  · cases left with
    | nil =>
        cases pattern with
        | nil => exact .inl (List.nil_infix)
        | cons c back =>
            obtain ⟨rfl, hafter⟩ := List.cons.inj hright
            exact .inr (.inr ⟨[], back, rfl, List.nil_suffix, ⟨v, hafter.symm⟩⟩)
    | cons c left =>
        obtain ⟨-, hafter⟩ := List.cons.inj hright
        exact .inr (.inl ⟨left, v, by rw [hafter, List.append_assoc]; rfl⟩)

/-- A pattern without the separator lies on one side of it. -/
theorem infix_of_notMem (hs : s ∉ pattern) (h : pattern <:+: before ++ s :: after) :
    pattern <:+: before ∨ pattern <:+: after := by
  rcases infix_append_cons h with h | h | ⟨front, back, rfl, -⟩
  · exact .inl h
  · exact .inr h
  · exact absurd (List.mem_append_right _ List.mem_cons_self) hs

/-- A text without the separator that starts another ends before it. -/
theorem prefix_of_notMem (hs : s ∉ pattern) (h : pattern <+: before ++ s :: after) : pattern <+: before := by
  obtain ⟨rest, hrest⟩ := h
  rcases List.append_eq_append_iff.mp hrest with ⟨more, hbefore, -⟩ | ⟨more, hpattern, hafter⟩
  · exact ⟨more, hbefore.symm⟩
  · cases more with
    | nil => rw [hpattern, List.append_nil]
    | cons c more =>
        obtain ⟨rfl, -⟩ := List.cons.inj hafter
        rw [hpattern] at hs
        exact absurd (List.mem_append_right _ List.mem_cons_self) hs

/-- A pattern that starts with the separator starts at the first one or lies behind it. -/
theorem prefix_or_infix_of_head (hs : s ∉ before) (h : s :: pattern <:+: before ++ s :: after) :
    pattern <+: after ∨ s :: pattern <:+: after := by
  rcases infix_append_cons h with h | h | ⟨front, back, heq, hfront, hback⟩
  · exact absurd (h.subset List.mem_cons_self) hs
  · exact .inr h
  · cases front with
    | nil => exact .inl ((List.cons.inj heq).2 ▸ hback)
    | cons c front =>
        obtain ⟨rfl, -⟩ := List.cons.inj heq
        exact absurd (hfront.subset List.mem_cons_self) hs

/-- Two characters around the separator stand around the first one or behind it. -/
theorem around_or_inside (ha : a ≠ s) (hs : s ∉ before) (h : [a, s, b] <:+: before ++ s :: after) :
    before.getLast? = some a ∧ after.head? = some b ∨ [a, s, b] <:+: after := by
  have hmem : s ∈ [a, s, b] := List.mem_cons_of_mem _ List.mem_cons_self
  rcases infix_append_cons h with h | h | ⟨front, back, heq, hfront, hback⟩
  · exact absurd (h.subset hmem) hs
  · exact .inr h
  · match front with
    | [] => exact absurd (List.cons.inj heq).1 ha
    | [c] =>
        obtain ⟨rfl, hrest⟩ := List.cons.inj heq
        obtain rfl : [b] = back := (List.cons.inj hrest).2
        obtain ⟨more, rfl⟩ := hfront
        obtain ⟨rest, rfl⟩ := hback
        exact .inl ⟨List.getLast?_concat, rfl⟩
    | c :: d :: front =>
        obtain ⟨rfl, -⟩ := List.cons.inj (List.cons.inj heq).2
        exact absurd (hfront.subset (List.mem_cons_of_mem _ List.mem_cons_self)) hs

/-- A character before the separator stands before the first one or behind it. -/
theorem last_or_infix (ha : a ≠ s) (hs : s ∉ before) (h : [a, s] <:+: before ++ s :: after) :
    before.getLast? = some a ∨ [a, s] <:+: after := by
  have hmem : s ∈ [a, s] := List.mem_cons_of_mem _ List.mem_cons_self
  rcases infix_append_cons h with h | h | ⟨front, back, heq, hfront, hback⟩
  · exact absurd (h.subset hmem) hs
  · exact .inr h
  · match front with
    | [] => exact absurd (List.cons.inj heq).1 ha
    | [c] =>
        obtain ⟨rfl, -⟩ := List.cons.inj heq
        obtain ⟨more, rfl⟩ := hfront
        exact .inl List.getLast?_concat
    | c :: d :: front =>
        obtain ⟨rfl, -⟩ := List.cons.inj (List.cons.inj heq).2
        exact absurd (hfront.subset (List.mem_cons_of_mem _ List.mem_cons_self)) hs

/-- A word before the separator that another text starts with is what the text has before its first one. -/
theorem eq_of_prefix_concat (hpattern : s ∉ pattern) (hs : s ∉ before) (h : pattern ++ [s] <+: before ++ s :: after) :
    pattern = before := by
  obtain ⟨rest, hrest⟩ := h
  rw [List.append_assoc] at hrest
  rcases List.append_eq_append_iff.mp hrest with ⟨more, hbefore, hmore⟩ | ⟨more, hother, hmore⟩
  · cases more with
    | nil => rw [hbefore, List.append_nil]
    | cons c more =>
        obtain ⟨rfl, -⟩ := List.cons.inj hmore
        rw [hbefore] at hs
        exact absurd (List.mem_append_right _ List.mem_cons_self) hs
  · cases more with
    | nil => rw [hother, List.append_nil]
    | cons c more =>
        obtain ⟨rfl, -⟩ := List.cons.inj hmore
        rw [hother] at hpattern
        exact absurd (List.mem_append_right _ List.mem_cons_self) hpattern

end

/-- A text without white space at its ends. -/
theorem trim_eq_self {text : List Char} (hhead : ∀ c ∈ text.head?, isWhitespace c = false)
    (hlast : ∀ c ∈ text.getLast?, isWhitespace c = false) : trim text = text := by
  have hstart : text.dropWhile isWhitespace = text := by
    cases text with
    | nil => rfl
    | cons c rest => exact List.dropWhile_cons_of_neg (by rw [hhead c rfl]; exact Bool.false_ne_true)
  rw [trim, hstart, List.rdropWhile_eq_self_iff]
  intro hne
  rw [hlast _ (List.getLast?_eq_some_getLast hne)]
  exact Bool.false_ne_true

theorem trim_cons {c : Char} (hc : isWhitespace c = true) (text : List Char) : trim (c :: text) = trim text := by
  rw [trim, List.dropWhile_cons_of_pos hc, trim]

/-- Only white space is trimmed. -/
theorem mem_trim {c : Char} {text : List Char} (hc : isWhitespace c = false) (hmem : c ∈ text) : c ∈ trim text := by
  have hdrop {rest : List Char} (h : c ∈ rest) : c ∈ rest.dropWhile isWhitespace := by
    rw [← @List.takeWhile_append_dropWhile _ isWhitespace rest] at h
    rcases List.mem_append.mp h with hfront | hback
    · have hspace : isWhitespace c = true := List.mem_takeWhile_imp hfront
      rw [hc] at hspace
      cases hspace
    · exact hback
  rw [trim, List.rdropWhile, List.mem_reverse]
  exact hdrop (List.mem_reverse.mpr (hdrop hmem))

/-- A text is what is trimmed of it, between white space. -/
theorem exists_eq_trim (text : List Char) :
    ∃ front back, text = front ++ (trim text ++ back) ∧ (∀ c ∈ front, isWhitespace c = true) ∧
      ∀ c ∈ back, isWhitespace c = true := by
  refine ⟨text.takeWhile isWhitespace, (text.dropWhile isWhitespace).rtakeWhile isWhitespace, ?_, ?_, ?_⟩
  · rw [trim, List.rdropWhile_append_rtakeWhile, List.takeWhile_append_dropWhile]
  · exact fun c hc => List.mem_takeWhile_imp hc
  · exact fun c hc => List.mem_rtakeWhile_imp hc

theorem trim_subset (text : List Char) : trim text ⊆ text :=
  fun _ hc => (List.dropWhile_sublist isWhitespace).subset ((List.rdropWhile_prefix isWhitespace _).subset hc)

theorem trimSemicolons_isPrefix (text : List Char) : trimSemicolons text <+: text := List.rdropWhile_prefix _ _

theorem head?_trim (text : List Char) : ∀ c ∈ (trim text).head?, isWhitespace c = false := by
  intro c hc
  obtain ⟨more, hmore⟩ : trim text <+: text.dropWhile isWhitespace := List.rdropWhile_prefix _ _
  have hhead : c ∈ (text.dropWhile isWhitespace).head? := by
    rw [← hmore]
    exact List.mem_head?_append_of_mem_head? hc
  have hnot := List.head?_dropWhile_not isWhitespace text
  rw [hhead] at hnot
  exact hnot

theorem getLast?_trim (text : List Char) : ∀ c ∈ (trim text).getLast?, isWhitespace c = false := by
  intro c hc
  have hne : trim text ≠ [] := by
    rintro hnil
    rw [hnil] at hc
    cases hc
  rw [List.getLast?_eq_some_getLast hne, Option.mem_some_iff] at hc
  rw [← hc, ← Bool.not_eq_true]
  exact List.rdropWhile_last_not _ _ hne

/-- A text that does not start with white space starts with what is trimmed of it. -/
theorem trim_isPrefix {text : List Char} (h : ∀ c ∈ text.head?, isWhitespace c = false) : trim text <+: text := by
  obtain ⟨front, back, htext, hfront, -⟩ := exists_eq_trim text
  cases front with
  | nil => exact ⟨back, htext.symm⟩
  | cons c front =>
      have hc := h c (by rw [htext]; rfl)
      rw [hfront c List.mem_cons_self] at hc
      cases hc

theorem head?_of_isPrefix {front text : List Char} (hleads : front <+: text) {p : Char → Prop}
    (h : ∀ c ∈ text.head?, p c) : ∀ c ∈ front.head?, p c := by
  obtain ⟨back, rfl⟩ := hleads
  exact fun c hc => h c (List.mem_head?_append_of_mem_head? hc)

/-- What is trimmed of a text and of white space around it. -/
theorem trim_append_whitespace {front back : List Char} (hfront : ∀ c ∈ front, isWhitespace c = true)
    (hback : ∀ c ∈ back, isWhitespace c = true) (text : List Char) : trim (front ++ (text ++ back)) = trim text := by
  have hrdrop (middle : List Char) : (middle ++ back).rdropWhile isWhitespace = middle.rdropWhile isWhitespace := by
    rw [List.rdropWhile, List.reverse_append, List.dropWhile_append_of_pos fun c hc => hback c (List.mem_reverse.mp hc)]
    rfl
  rw [trim, List.dropWhile_append_of_pos hfront, List.dropWhile_append]
  split
  next hempty =>
    have hspace : back.dropWhile isWhitespace = [] := List.dropWhile_eq_nil_iff.mpr hback
    rw [hspace, trim, List.isEmpty_iff.mp hempty]
  next => exact hrdrop _

theorem trimSemicolons_eq_self {text : List Char} (hlast : ∀ c ∈ text.getLast?, c ≠ ';') :
    trimSemicolons text = text := by
  rw [trimSemicolons, List.rdropWhile_eq_self_iff]
  intro hne hsemicolon
  exact hlast _ (List.getLast?_eq_some_getLast hne) (of_decide_eq_true hsemicolon)

theorem stripPrefix_append (front back : List Char) : stripPrefix front (front ++ back) = some back := by
  rw [stripPrefix, startsWith, if_pos (List.isPrefixOf_iff_prefix.mpr (List.prefix_append front back)), List.drop_left]

theorem startsWith_iff {pattern text : List Char} : startsWith pattern text = true ↔ pattern <+: text :=
  List.isPrefixOf_iff_prefix

theorem containsText_iff {pattern text : List Char} : containsText pattern text = true ↔ pattern <:+: text := by
  rw [containsText, Option.isSome_iff_ne_none, Ne, byteFind_eq_none_iff, not_not]

/-! ### Upper-cased texts -/

section

variable [UpperCasing]

@[simp] theorem upperText_nil : upperText [] = [] := rfl

@[simp] theorem upperText_cons (c : Char) (text : List Char) :
    upperText (c :: text) = UpperCasing.upper c ++ upperText text := rfl

@[simp] theorem upperText_append (before after : List Char) :
    upperText (before ++ after) = upperText before ++ upperText after := List.flatMap_append

theorem upperText_whitespace {text : List Char} (h : ∀ c ∈ text, isWhitespace c = true) : upperText text = text := by
  induction text with
  | nil => rfl
  | cons c rest ih =>
      obtain ⟨hc, hrest⟩ := List.forall_mem_cons.mp h
      rw [upperText_cons, UpperCasing.upper_whitespace c hc, ih hrest]
      rfl

theorem head?_upperText {text : List Char} (h : ∀ c ∈ text.head?, isWhitespace c = false) :
    ∀ c ∈ (upperText text).head?, isWhitespace c = false := by
  cases text with
  | nil => exact nofun
  | cons d rest =>
      intro c hc
      rw [upperText_cons, List.head?_append_of_ne_nil _ (UpperCasing.upper_ne_nil d)] at hc
      exact UpperCasing.isWhitespace_of_mem_upper d (h d rfl) c (List.mem_of_head? hc)

theorem getLast?_upperText {text : List Char} (h : ∀ c ∈ text.getLast?, isWhitespace c = false) :
    ∀ c ∈ (upperText text).getLast?, isWhitespace c = false := by
  rcases List.eq_nil_or_concat text with rfl | ⟨rest, d, rfl⟩
  · exact nofun
  · intro c hc
    rw [List.concat_eq_append, upperText_append, upperText_cons, upperText_nil, List.append_nil,
      List.getLast?_append_of_ne_nil _ (UpperCasing.upper_ne_nil d)] at hc
    refine UpperCasing.isWhitespace_of_mem_upper d (h d ?_) c (List.mem_of_getLast? hc)
    rw [List.concat_eq_append, List.getLast?_concat]
    rfl

/-- Upper-casing keeps white space where it is. -/
theorem trim_upperText (text : List Char) : trim (upperText text) = upperText (trim text) := by
  obtain ⟨front, back, htext, hfront, hback⟩ := exists_eq_trim text
  have hupper : upperText text = front ++ (upperText (trim text) ++ back) := by
    conv_lhs => rw [htext]
    rw [upperText_append, upperText_append, upperText_whitespace hfront, upperText_whitespace hback]
  rw [hupper, trim_append_whitespace hfront hback]
  exact trim_eq_self (head?_upperText (head?_trim text)) (getLast?_upperText (getLast?_trim text))

theorem upperText_isPrefix {front text : List Char} (h : front <+: text) : upperText front <+: upperText text := by
  obtain ⟨back, rfl⟩ := h
  exact ⟨upperText back, (upperText_append _ _).symm⟩

theorem upper_ascii {c : Char} (hc : c.toNat < 128) : UpperCasing.upper c = [c.toUpper] := by
  have hsame := CaseMapping.toUppercase_ascii (String.ofList [c]) fun d hd => by
    rw [String.toList_ofList, List.mem_singleton] at hd
    rw [hd]
    exact hc
  rw [UpperCasing.toUppercase_eq, String.toList_ofList, String.ofList_inj, List.flatMap_singleton] at hsame
  exact hsame

theorem upperText_ascii {text : List Char} (h : ∀ c ∈ text, c.toNat < 128) :
    upperText text = text.map Char.toUpper := by
  induction text with
  | nil => rfl
  | cons c rest ih =>
      obtain ⟨hc, hrest⟩ := List.forall_mem_cons.mp h
      rw [upperText_cons, upper_ascii hc, ih hrest]
      rfl

theorem byteLength_upperText {text : List Char} (h : ∀ c ∈ text, c.toNat < 128) :
    byteLength (upperText text) = byteLength text := by
  rw [upperText_ascii h, byteLength_eq_length h, byteLength_eq_length, List.length_map]
  refine List.forall_mem_map.mpr fun c hc => ?_
  have hc := h c hc
  have hupper := toNat_toUpper c
  split at hupper <;> omega

/-- A keyword that is typed in some case. -/
def TypedAs (keyword typed : List Char) : Prop := typed.map Char.toUpper = keyword

instance (keyword typed : List Char) : Decidable (TypedAs keyword typed) := inferInstanceAs (Decidable (_ = _))

omit [UpperCasing] in
theorem toNat_lt_of_toUpper {c : Char} (h : c.toUpper.toNat < 128) : c.toNat < 128 := by
  have hupper := toNat_toUpper c
  split at hupper <;> omega

variable {keyword typed : List Char}

omit [UpperCasing] in
theorem TypedAs.ascii (h : TypedAs keyword typed) (hkeyword : ∀ c ∈ keyword, c.toNat < 128) :
    ∀ c ∈ typed, c.toNat < 128 :=
  fun _ hc => toNat_lt_of_toUpper (hkeyword _ (h ▸ List.mem_map_of_mem hc))

theorem TypedAs.upperText (h : TypedAs keyword typed) (hkeyword : ∀ c ∈ keyword, c.toNat < 128) :
    upperText typed = keyword :=
  (upperText_ascii (h.ascii hkeyword)).trans h

omit [UpperCasing] in
theorem TypedAs.length (h : TypedAs keyword typed) : typed.length = keyword.length := by
  rw [← h, List.length_map]

omit [UpperCasing] in
theorem TypedAs.byteLength (h : TypedAs keyword typed) (hkeyword : ∀ c ∈ keyword, c.toNat < 128) :
    byteLength typed = byteLength keyword := by
  rw [byteLength_eq_length (h.ascii hkeyword), byteLength_eq_length hkeyword, h.length]

omit [UpperCasing] in
/-- A typed keyword starts with a white space only if the keyword does. -/
theorem TypedAs.head? (h : TypedAs keyword typed) (hne : keyword ≠ [])
    (hhead : ∀ c ∈ keyword.head?, isWhitespace c = false) (rest : List Char) :
    ∀ c ∈ (typed ++ rest).head?, isWhitespace c = false := by
  cases typed with
  | nil => exact absurd h.symm hne
  | cons d more =>
      rintro c ⟨⟩
      rw [← AsciiCase.isWhitespace_toUpper]
      exact hhead _ (by rw [← h]; rfl)

/-- A letter, a digit or an underscore. -/
def isIdentChar (c : Char) : Bool := c.isAlphanum || c = '_'

/-- A plain identifier. -/
def IsIdentifier (name : List Char) : Prop := name ≠ [] ∧ ∀ c ∈ name, isIdentChar c = true

instance (name : List Char) : Decidable (IsIdentifier name) := inferInstanceAs (Decidable (_ ∧ _))

omit [UpperCasing] in
theorem isIdentChar_iff {c : Char} :
    isIdentChar c = true ↔
      48 ≤ c.toNat ∧ c.toNat ≤ 57 ∨ 65 ≤ c.toNat ∧ c.toNat ≤ 90 ∨ 97 ≤ c.toNat ∧ c.toNat ≤ 122 ∨ c.toNat = 95 := by
  have hunderscore : c = '_' ↔ c.toNat = 95 := Char.toNat_inj.symm
  rw [isIdentChar, Bool.or_eq_true, decide_eq_true_eq, hunderscore]
  show ((decide (c.val ≥ 65 ∧ c.val ≤ 90) || decide (c.val ≥ 97) && decide (c.val ≤ 122)) ||
    decide (c.val ≥ 48) && decide (c.val ≤ 57)) = true ∨ c.toNat = 95 ↔ _
  simp only [Bool.or_eq_true, Bool.and_eq_true, decide_eq_true_eq, ge_iff_le, UInt32.le_iff_toNat_le]
  show (((65 ≤ c.toNat ∧ c.toNat ≤ 90) ∨ 97 ≤ c.toNat ∧ c.toNat ≤ 122) ∨ 48 ≤ c.toNat ∧ c.toNat ≤ 57) ∨ c.toNat = 95 ↔ _
  omega

variable {name : List Char}

omit [UpperCasing] in
theorem IsIdentifier.ascii (h : IsIdentifier name) : ∀ c ∈ name, c.toNat < 128 := by
  intro c hc
  have := isIdentChar_iff.mp (h.2 c hc)
  omega

omit [UpperCasing] in
theorem isWhitespace_of_isIdentChar {c : Char} (h : isIdentChar c = true) : isWhitespace c = false := by
  have := isIdentChar_iff.mp h
  simp [isWhitespace]
  omega

omit [UpperCasing] in
theorem IsIdentifier.notMem (h : IsIdentifier name) {c : Char} (hc : isIdentChar c = false) : c ∉ name := by
  intro hmem
  rw [h.2 c hmem] at hc
  cases hc

theorem IsIdentifier.upper (h : IsIdentifier name) : IsIdentifier (upperText name) := by
  rw [upperText_ascii h.ascii]
  refine ⟨fun hnil => h.1 (List.map_eq_nil_iff.mp hnil), List.forall_mem_map.mpr fun c hc => ?_⟩
  have hident := isIdentChar_iff.mp (h.2 c hc)
  have hupper := toNat_toUpper c
  rw [isIdentChar_iff]
  split at hupper <;> omega

theorem IsIdentifier.byteLength_upper (h : IsIdentifier name) : byteLength (upperText name) = byteLength name := by
  rw [byteLength_eq_length h.upper.ascii, byteLength_eq_length h.ascii, upperText_ascii h.ascii, List.length_map]

omit [UpperCasing] in
/-- A word is typed with letters. -/
theorem TypedAs.identifier (h : TypedAs keyword typed) (hkeyword : IsIdentifier keyword) : IsIdentifier typed := by
  refine ⟨fun hnil => hkeyword.1 (by rw [← h, hnil]; rfl), fun c hc => ?_⟩
  have hident := isIdentChar_iff.mp (hkeyword.2 _ (h ▸ List.mem_map_of_mem hc))
  have hupper := toNat_toUpper c
  rw [isIdentChar_iff]
  split at hupper <;> omega

omit [UpperCasing] in
/-- An identifier before a space is the text up to the first white space or parenthesis. -/
theorem IsIdentifier.takeWhile (h : IsIdentifier name) (rest : List Char) :
    (name ++ ' ' :: rest).takeWhile (fun c => !(isWhitespace c || c = '(')) = name := by
  rw [List.takeWhile_append_of_pos, List.takeWhile_cons_of_neg (by decide), List.append_nil]
  intro c hc
  have hopen : c ≠ '(' := fun heq => h.notMem (by decide) (heq ▸ hc)
  rw [isWhitespace_of_isIdentChar (h.2 c hc), decide_eq_false hopen]
  rfl

omit [UpperCasing] in
theorem trim_identifier (h : IsIdentifier name) : trim name = name := by
  cases hname : name with
  | nil => rfl
  | cons d more =>
      rw [← hname]
      refine trim_eq_self (fun c hc => ?_) fun c hc => isWhitespace_of_isIdentChar (h.2 c (List.mem_of_getLast? hc))
      exact isWhitespace_of_isIdentChar (h.2 c (List.mem_of_head? hc))

omit [UpperCasing] in
theorem IsIdentifier.trim_concat (h : IsIdentifier name) : trim (name ++ [' ']) = name := by
  cases hname : name with
  | nil => exact absurd hname h.1
  | cons d more =>
      rw [trim, List.cons_append, List.dropWhile_cons_of_neg, ← List.cons_append, ← hname,
        List.rdropWhile_concat_pos _ _ _ rfl, List.rdropWhile_eq_self_iff]
      · intro hne
        rw [isWhitespace_of_isIdentChar (h.2 _ (List.getLast_mem hne))]
        exact Bool.false_ne_true
      · rw [isWhitespace_of_isIdentChar (h.2 d (hname ▸ List.mem_cons_self))]
        exact Bool.false_ne_true

omit [UpperCasing] in
theorem IsIdentifier.head? (h : IsIdentifier name) (rest : List Char) :
    ∀ c ∈ (name ++ rest).head?, isWhitespace c = false := by
  cases hname : name with
  | nil => exact absurd hname h.1
  | cons d more =>
      rintro c ⟨⟩
      exact isWhitespace_of_isIdentChar (h.2 d (hname ▸ List.mem_cons_self))

end

end HelionDb
