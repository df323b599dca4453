import Mathlib.Data.List.Infix

/-! Patterns of wildcards over an alphabet: what a list of tokens matches, and that a word between two of them is
looked for at the front, at the end or anywhere. -/

namespace Wildcard

universe u

/-- A letter, a wildcard for one letter, or a wildcard for any number of them. -/
inductive Token (α : Type u) where
  | exactly (letter : α)
  | one
  | many

variable {α : Type u}

/-- The texts of a pattern. -/
def Matches : List (Token α) → List α → Prop
  | [], text => text = []
  | .exactly letter :: rest, text => ∃ tail, text = letter :: tail ∧ Matches rest tail
  | .one :: rest, text => ∃ letter tail, text = letter :: tail ∧ Matches rest tail
  | .many :: rest, text => ∃ front tail, text = front ++ tail ∧ Matches rest tail

/-- The pattern of a word without wildcards. -/
def word (letters : List α) : List (Token α) := letters.map .exactly

@[simp] theorem matches_nil {text : List α} : Matches [] text ↔ text = [] := .rfl

@[simp] theorem not_matches_exactly_nil {letter : α} {rest : List (Token α)} :
    ¬ Matches (.exactly letter :: rest) [] := by
  rintro ⟨tail, htext, -⟩
  cases htext

@[simp] theorem matches_exactly_cons {letter head : α} {rest : List (Token α)} {text : List α} :
    Matches (.exactly letter :: rest) (head :: text) ↔ letter = head ∧ Matches rest text := by
  constructor
  · rintro ⟨tail, htext, htail⟩
    obtain ⟨rfl, rfl⟩ := List.cons_eq_cons.mp htext
    exact ⟨rfl, htail⟩
  · rintro ⟨rfl, htail⟩
    exact ⟨text, rfl, htail⟩

@[simp] theorem not_matches_one_nil {rest : List (Token α)} : ¬ Matches (.one :: rest) [] := by
  rintro ⟨letter, tail, htext, -⟩
  cases htext

@[simp] theorem matches_one_cons {head : α} {rest : List (Token α)} {text : List α} :
    Matches (.one :: rest) (head :: text) ↔ Matches rest text := by
  constructor
  · rintro ⟨letter, tail, htext, htail⟩
    obtain ⟨rfl, rfl⟩ := List.cons_eq_cons.mp htext
    exact htail
  · intro htail
    exact ⟨head, text, rfl, htail⟩

@[simp] theorem matches_many_nil {rest : List (Token α)} : Matches (.many :: rest) [] ↔ Matches rest [] := by
  constructor
  · rintro ⟨front, tail, htext, htail⟩
    obtain ⟨-, rfl⟩ := List.append_eq_nil_iff.mp htext.symm
    exact htail
  · intro htail
    exact ⟨[], [], rfl, htail⟩

/-- Either the wildcard ends here or it takes one more letter. -/
theorem matches_many_cons {head : α} {rest : List (Token α)} {text : List α} :
    Matches (.many :: rest) (head :: text) ↔ Matches rest (head :: text) ∨ Matches (.many :: rest) text := by
  constructor
  · rintro ⟨front, tail, htext, htail⟩
    cases front with
    | nil =>
        left
        rw [htext]
        exact htail
    | cons letter front =>
        right
        obtain ⟨-, rfl⟩ := List.cons_eq_cons.mp htext
        exact ⟨front, tail, rfl, htail⟩
  · rintro (htail | ⟨front, tail, rfl, htail⟩)
    · exact ⟨[], head :: text, rfl, htail⟩
    · exact ⟨head :: front, tail, rfl, htail⟩

theorem matches_word_append {letters : List α} {rest : List (Token α)} {text : List α} :
    Matches (word letters ++ rest) text ↔ ∃ tail, text = letters ++ tail ∧ Matches rest tail := by
  induction letters generalizing text with
  | nil =>
      constructor
      · intro h
        exact ⟨text, rfl, h⟩
      · rintro ⟨tail, rfl, h⟩
        exact h
  | cons letter letters ih =>
      constructor
      · rintro ⟨tail, rfl, htail⟩
        obtain ⟨last, rfl, hlast⟩ := ih.mp htail
        exact ⟨last, rfl, hlast⟩
      · rintro ⟨tail, rfl, h⟩
        exact ⟨letters ++ tail, rfl, ih.mpr ⟨tail, rfl, h⟩⟩

theorem matches_many {text : List α} : Matches [.many] text :=
  ⟨text, [], (List.append_nil text).symm, rfl⟩

/-- A word in front of a wildcard is a prefix. -/
theorem matches_prefix {letters text : List α} : Matches (word letters ++ [.many]) text ↔ letters <+: text := by
  rw [matches_word_append]
  constructor
  · rintro ⟨tail, htext, -⟩
    exact ⟨tail, htext.symm⟩
  · rintro ⟨tail, htext⟩
    exact ⟨tail, htext.symm, matches_many⟩

/-- A word behind a wildcard is a suffix. -/
theorem matches_suffix {letters text : List α} : Matches (.many :: word letters) text ↔ letters <:+ text := by
  constructor
  · rintro ⟨front, tail, htext, htail⟩
    rw [← List.append_nil (word letters), matches_word_append] at htail
    obtain ⟨rest, rfl, rfl⟩ := htail
    rw [List.append_nil] at htext
    exact ⟨front, htext.symm⟩
  · rintro ⟨front, htext⟩
    refine ⟨front, letters, htext.symm, ?_⟩
    rw [← List.append_nil (word letters), matches_word_append]
    exact ⟨[], (List.append_nil letters).symm, rfl⟩

/-- A word between wildcards is a part. -/
theorem matches_infix {letters text : List α} :
    Matches (.many :: (word letters ++ [.many])) text ↔ letters <:+: text := by
  constructor
  · rintro ⟨front, tail, rfl, htail⟩
    obtain ⟨rest, rfl⟩ := matches_prefix.mp htail
    exact ⟨front, rest, List.append_assoc front letters rest⟩
  · rintro ⟨front, rest, rfl⟩
    refine ⟨front, letters ++ rest, List.append_assoc front letters rest, ?_⟩
    exact matches_prefix.mpr ⟨rest, rfl⟩

/-! ### Pieces -/

/-- What a token can stand for. -/
def Token.Takes : Token α → List α → Prop
  | .exactly letter, piece => piece = [letter]
  | .one, piece => piece.length = 1
  | .many, _ => True

/-- A token in front stands for a first piece of the text. -/
theorem matches_cons {token : Token α} {rest : List (Token α)} {text : List α} :
    Matches (token :: rest) text ↔ ∃ piece tail, text = piece ++ tail ∧ token.Takes piece ∧ Matches rest tail := by
  cases token with
  | exactly letter =>
      constructor
      · rintro ⟨tail, htext, htail⟩
        exact ⟨[letter], tail, htext, rfl, htail⟩
      · rintro ⟨piece, tail, htext, rfl, htail⟩
        exact ⟨tail, htext, htail⟩
  | one =>
      constructor
      · rintro ⟨letter, tail, htext, htail⟩
        exact ⟨[letter], tail, htext, rfl, htail⟩
      · rintro ⟨piece, tail, htext, hpiece, htail⟩
        obtain ⟨letter, rfl⟩ := List.length_eq_one_iff.mp hpiece
        exact ⟨letter, tail, htext, htail⟩
  | many =>
      constructor
      · rintro ⟨front, tail, htext, htail⟩
        exact ⟨front, tail, htext, trivial, htail⟩
      · rintro ⟨front, tail, htext, -, htail⟩
        exact ⟨front, tail, htext, htail⟩

/-- A pattern matches what its tokens stand for, piece by piece. -/
theorem matches_iff_pieces {tokens : List (Token α)} {text : List α} :
    Matches tokens text ↔ ∃ pieces : List (List α), List.Forall₂ Token.Takes tokens pieces ∧ text = pieces.flatten := by
  induction tokens generalizing text with
  | nil =>
      constructor
      · intro htext
        exact ⟨[], .nil, htext⟩
      · rintro ⟨pieces, hpieces, htext⟩
        cases hpieces
        exact htext
  | cons token rest ih =>
      rw [matches_cons]
      constructor
      · rintro ⟨piece, tail, rfl, htakes, htail⟩
        obtain ⟨pieces, hpieces, rfl⟩ := ih.mp htail
        exact ⟨piece :: pieces, .cons htakes hpieces, rfl⟩
      · rintro ⟨pieces, hpieces, htext⟩
        cases hpieces with
        | cons htakes hrest => exact ⟨_, _, htext, htakes, ih.mpr ⟨_, hrest, rfl⟩⟩

/-- Texts are tried behind a wildcard from the longest on. -/
instance decidableMatches [DecidableEq α] : ∀ (tokens : List (Token α)) (text : List α), Decidable (Matches tokens text)
  | [], text => inferInstanceAs (Decidable (text = []))
  | .exactly _ :: _, [] => .isFalse not_matches_exactly_nil
  | .exactly letter :: rest, head :: text =>
      have := decidableMatches rest text
      decidable_of_iff (letter = head ∧ Matches rest text) matches_exactly_cons.symm
  | .one :: _, [] => .isFalse not_matches_one_nil
  | .one :: rest, _ :: text =>
      have := decidableMatches rest text
      decidable_of_iff (Matches rest text) matches_one_cons.symm
  | .many :: rest, text =>
      have := decidableMatches rest
      decidable_of_iff (∃ tail ∈ text.tails, Matches rest tail) <| by
        constructor
        · rintro ⟨tail, htail, hrest⟩
          obtain ⟨front, rfl⟩ := (List.mem_tails tail text).mp htail
          exact ⟨front, tail, rfl, hrest⟩
        · rintro ⟨front, tail, rfl, hrest⟩
          exact ⟨tail, (List.mem_tails tail _).mpr ⟨front, rfl⟩, hrest⟩

end Wildcard
