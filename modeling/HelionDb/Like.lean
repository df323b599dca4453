import HelionDb.Eval
import HelionDb.Wildcard

/-! LIKE: the matcher on the pattern that `like_to_regex` writes finds exactly the texts of the pattern's tokens. -/

namespace HelionDb

open Wildcard

/-- What a character of a LIKE pattern stands for. -/
def likeToken (c : Char) : Wildcard.Token Char :=
  if c = '%' then .many else if c = '_' then .one else .exactly c

/-- The tokens of a LIKE pattern. -/
def likeTokens (pattern : String) : List (Wildcard.Token Char) := pattern.toList.map likeToken

/-- What `like_to_regex` writes for a token. -/
def tokenRegex : Wildcard.Token Char → List Char
  | .many => ['.', '*']
  | .one => ['.']
  | .exactly c => if c ∈ ".*+?^$|()[]\x7b\x7d\\".toList then ['\\', c] else [c]

theorem likeToRegex_eq (pattern : String) : likeToRegex pattern = (likeTokens pattern).flatMap tokenRegex := by
  rw [likeToRegex, likeTokens, List.flatMap_map]
  apply List.flatMap_congr
  intro c _
  unfold likeToken
  split
  · rfl
  · split
    · rfl
    · rfl

/-! ### The steps of the matcher -/

theorem simpleMatch_star_nil (rest : List Char) : simpleMatch ('.' :: '*' :: rest) [] = simpleMatch rest [] := by
  rw [simpleMatch]

theorem simpleMatch_star_cons (rest : List Char) (c : Char) (text : List Char) :
    simpleMatch ('.' :: '*' :: rest) (c :: text) =
      (simpleMatch rest (c :: text) || simpleMatch ('.' :: '*' :: rest) text) := by
  rw [simpleMatch]

theorem simpleMatch_dot_nil {rest : List Char} (hrest : rest.head? ≠ some '*') :
    simpleMatch ('.' :: rest) [] = false := by
  rw [simpleMatch]
  rintro tail - rfl
  exact hrest rfl

theorem simpleMatch_dot_cons {rest : List Char} (hrest : rest.head? ≠ some '*') (c : Char) (text : List Char) :
    simpleMatch ('.' :: rest) (c :: text) = simpleMatch rest text := by
  rw [simpleMatch]
  rintro tail rfl
  exact hrest rfl

theorem simpleMatch_escaped_nil (c : Char) (rest : List Char) : simpleMatch ('\\' :: c :: rest) [] = false := by
  rw [simpleMatch]
  intro tail h
  cases h

theorem simpleMatch_escaped_cons (escaped : Char) (rest : List Char) (c : Char) (text : List Char) :
    simpleMatch ('\\' :: escaped :: rest) (c :: text) = (escaped = c && simpleMatch rest text) := by
  rw [simpleMatch]

theorem simpleMatch_plain_nil {expected : Char} (rest : List Char) (hdot : expected ≠ '.') :
    simpleMatch (expected :: rest) [] = false := by
  rw [simpleMatch]
  rintro tail rfl -
  exact hdot rfl

theorem simpleMatch_plain_cons {expected : Char} (rest : List Char) (hdot : expected ≠ '.') (hslash : expected ≠ '\\')
    (c : Char) (text : List Char) :
    simpleMatch (expected :: rest) (c :: text) = (expected = c && simpleMatch rest text) := by
  rw [simpleMatch]
  · rintro tail rfl -
    exact hdot rfl
  · rintro rfl
    exact hdot rfl
  · rintro escaped tail rfl -
    exact hslash rfl

/-- The characters that are written with a backslash. -/
def regexSpecial : List Char := ".*+?^$|()[]\x7b\x7d\\".toList

theorem tokenRegex_special {c : Char} (hspecial : c ∈ regexSpecial) : tokenRegex (.exactly c) = ['\\', c] :=
  if_pos hspecial

theorem tokenRegex_plain {c : Char} (hplain : c ∉ regexSpecial) : tokenRegex (.exactly c) = [c] := if_neg hplain

/-- No token is written with a star in front. -/
theorem head_tokenRegex_ne_star (tokens : List (Wildcard.Token Char)) :
    (tokens.flatMap tokenRegex).head? ≠ some '*' := by
  cases tokens with
  | nil => nofun
  | cons token tokens =>
      rw [List.flatMap_cons]
      cases token with
      | many => nofun
      | one => nofun
      | exactly c =>
          by_cases hspecial : c ∈ regexSpecial
          · rw [tokenRegex_special hspecial]
            nofun
          · rw [tokenRegex_plain hspecial]
            intro hhead
            obtain rfl : c = '*' := Option.some.inj hhead
            exact hspecial (by decide)

/-- A letter stands for itself, with the backslash and without. -/
theorem simpleMatch_exactly (expected : Char) (rest : List Char) (text : List Char) :
    simpleMatch (tokenRegex (.exactly expected) ++ rest) text = true ↔
      ∃ tail, text = expected :: tail ∧ simpleMatch rest tail = true := by
  have hcons : ∀ c tail, (∃ tail', c :: tail = expected :: tail' ∧ simpleMatch rest tail' = true) ↔
      (decide (expected = c) && simpleMatch rest tail) = true := by
    intro c tail
    rw [Bool.and_eq_true, decide_eq_true_eq]
    constructor
    · rintro ⟨tail', h, hrest⟩
      obtain ⟨rfl, rfl⟩ := List.cons_eq_cons.mp h
      exact ⟨rfl, hrest⟩
    · rintro ⟨rfl, hrest⟩
      exact ⟨tail, rfl, hrest⟩
  have hnil : ¬ ∃ tail, [] = expected :: tail ∧ simpleMatch rest tail = true := by
    rintro ⟨tail, h, -⟩
    cases h
  by_cases hspecial : expected ∈ regexSpecial
  · rw [tokenRegex_special hspecial]
    cases text with
    | nil => exact iff_of_false (Bool.eq_false_iff.mp (simpleMatch_escaped_nil expected rest)) hnil
    | cons c text => exact (Bool.eq_iff_iff.mp (simpleMatch_escaped_cons expected rest c text)).trans (hcons c text).symm
  · rw [tokenRegex_plain hspecial]
    have hdot : expected ≠ '.' := by
      rintro rfl
      exact hspecial (by decide)
    have hslash : expected ≠ '\\' := by
      rintro rfl
      exact hspecial (by decide)
    cases text with
    | nil => exact iff_of_false (Bool.eq_false_iff.mp (simpleMatch_plain_nil rest hdot)) hnil
    | cons c text =>
        exact (Bool.eq_iff_iff.mp (simpleMatch_plain_cons rest hdot hslash c text)).trans (hcons c text).symm

/-- The matcher decides whether the text is one of the tokens. -/
theorem simpleMatch_iff (tokens : List (Wildcard.Token Char)) (text : List Char) :
    simpleMatch (tokens.flatMap tokenRegex) text = true ↔ Matches tokens text := by
  induction tokens generalizing text with
  | nil =>
      rw [List.flatMap_nil, simpleMatch_nil]
      exact List.isEmpty_iff
  | cons token tokens ih =>
      rw [List.flatMap_cons]
      cases token with
      | many =>
          induction text with
          | nil => exact (Bool.eq_iff_iff.mp (simpleMatch_star_nil _)).trans ((ih []).trans matches_many_nil.symm)
          | cons c text ihText =>
              rw [matches_many_cons, ← ih, ← ihText, ← Bool.or_eq_true]
              exact Bool.eq_iff_iff.mp (simpleMatch_star_cons _ c text)
      | one =>
          have hhead := head_tokenRegex_ne_star tokens
          cases text with
          | nil => exact iff_of_false (Bool.eq_false_iff.mp (simpleMatch_dot_nil hhead)) not_matches_one_nil
          | cons c text =>
              rw [matches_one_cons, ← ih]
              exact Bool.eq_iff_iff.mp (simpleMatch_dot_cons hhead c text)
      | exactly expected =>
          rw [simpleMatch_exactly]
          apply exists_congr
          intro tail
          rw [ih]

/-- The texts that LIKE finds. -/
theorem regexLite_iff (pattern text : String) :
    regexLite (likeToRegex pattern) text = true ↔ Matches (likeTokens pattern) text.toList := by
  rw [regexLite, likeToRegex_eq]
  exact simpleMatch_iff (likeTokens pattern) text.toList

/-- What a character of a pattern can stand for. -/
def StandsFor (c : Char) (piece : List Char) : Prop :=
  if c = '%' then True else if c = '_' then piece.length = 1 else piece = [c]

theorem takes_likeToken (c : Char) (piece : List Char) : (likeToken c).Takes piece ↔ StandsFor c piece := by
  unfold likeToken StandsFor
  by_cases hpercent : c = '%'
  · rw [if_pos hpercent, if_pos hpercent]
    exact Iff.rfl
  · rw [if_neg hpercent, if_neg hpercent]
    by_cases hunderscore : c = '_'
    · rw [if_pos hunderscore, if_pos hunderscore]
      exact Iff.rfl
    · rw [if_neg hunderscore, if_neg hunderscore]
      exact Iff.rfl

/-- LIKE finds a text exactly if it can be split into pieces that the characters of the pattern stand for, one piece for
each character. -/
theorem regexLite_splits (pattern text : String) :
    regexLite (likeToRegex pattern) text = true ↔
      ∃ pieces : List (List Char), List.Forall₂ StandsFor pattern.toList pieces ∧ text.toList = pieces.flatten := by
  rw [regexLite_iff, matches_iff_pieces, likeTokens]
  apply exists_congr
  intro pieces
  rw [List.forall₂_map_left_iff]
  apply and_congr_left'
  constructor
  · exact fun h => h.imp fun c piece => (takes_likeToken c piece).mp
  · exact fun h => h.imp fun c piece => (takes_likeToken c piece).mpr

/-- A text without a wildcard. -/
def Plain (text : String) : Prop := '%' ∉ text.toList ∧ '_' ∉ text.toList

instance (text : String) : Decidable (Plain text) := inferInstanceAs (Decidable (_ ∧ _))

theorem likeTokens_append (left right : String) : likeTokens (left ++ right) = likeTokens left ++ likeTokens right := by
  rw [likeTokens, String.toList_append, List.map_append]
  rfl

theorem likeTokens_percent : likeTokens "%" = [.many] := rfl

theorem likeTokens_of_plain {text : String} (hplain : Plain text) : likeTokens text = word text.toList := by
  rw [likeTokens, word]
  apply List.map_congr_left
  intro c hc
  have hpercent : c ≠ '%' := fun h => hplain.1 (h ▸ hc)
  have hunderscore : c ≠ '_' := fun h => hplain.2 (h ▸ hc)
  rw [likeToken, if_neg hpercent, if_neg hunderscore]

variable {operand text : String}

theorem regexLite_contains (hplain : Plain operand) :
    regexLite (likeToRegex ("%" ++ operand ++ "%")) text = true ↔ operand.toList <:+: text.toList := by
  rw [regexLite_iff, likeTokens_append, likeTokens_append, likeTokens_percent, likeTokens_of_plain hplain,
    List.append_assoc]
  exact matches_infix

theorem regexLite_startsWith (hplain : Plain operand) :
    regexLite (likeToRegex (operand ++ "%")) text = true ↔ operand.toList <+: text.toList := by
  rw [regexLite_iff, likeTokens_append, likeTokens_percent, likeTokens_of_plain hplain]
  exact matches_prefix

theorem regexLite_endsWith (hplain : Plain operand) :
    regexLite (likeToRegex ("%" ++ operand)) text = true ↔ operand.toList <:+ text.toList := by
  rw [regexLite_iff, likeTokens_append, likeTokens_percent, likeTokens_of_plain hplain]
  exact matches_suffix

end HelionDb
