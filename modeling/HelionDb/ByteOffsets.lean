import Mathlib.Algebra.GroupWithZero.Nat
import Mathlib.Data.List.Infix

/-! Positions in texts, counted in bytes of UTF-8. A search gives the bytes before what it finds, and a text is cut at a
number of bytes, which only works where a character starts. -/

namespace HelionDb

/-- `str::len`. -/
def byteLength (text : List Char) : Nat := (text.map Char.utf8Size).sum

@[simp] theorem byteLength_nil : byteLength [] = 0 := rfl

@[simp] theorem byteLength_cons (c : Char) (rest : List Char) :
    byteLength (c :: rest) = c.utf8Size + byteLength rest := rfl

@[simp] theorem byteLength_append (before after : List Char) :
    byteLength (before ++ after) = byteLength before + byteLength after := by
  rw [byteLength, List.map_append, List.sum_append]
  rfl

theorem utf8Size_eq_one {c : Char} (h : c.toNat < 128) : c.utf8Size = 1 :=
  Char.utf8Size_eq_one_iff.mpr (UInt32.le_iff_toNat_le.mpr (Nat.le_of_lt_succ h))

/-- A text of ASCII characters has as many bytes as characters. -/
theorem byteLength_eq_length {text : List Char} (h : ∀ c ∈ text, c.toNat < 128) : byteLength text = text.length := by
  induction text with
  | nil => rfl
  | cons c rest ih =>
      obtain ⟨hc, hrest⟩ := List.forall_mem_cons.mp h
      rw [byteLength_cons, utf8Size_eq_one hc, ih hrest, List.length_cons, Nat.add_comm]

/-- `text[n..]`, where byte `n` starts a character. -/
def fromByte : (n : Nat) → List Char → Option (List Char)
  | 0, chars => some chars
  | _ + 1, [] => none
  | n + 1, c :: rest => if c.utf8Size ≤ n + 1 then fromByte (n + 1 - c.utf8Size) rest else none

/-- `text[..n]`, where byte `n` starts a character. -/
def uptoByte : (n : Nat) → List Char → Option (List Char)
  | 0, _ => some []
  | _ + 1, [] => none
  | n + 1, c :: rest => if c.utf8Size ≤ n + 1 then (uptoByte (n + 1 - c.utf8Size) rest).map (c :: ·) else none

theorem fromByte_zero (text : List Char) : fromByte 0 text = some text := by
  unfold fromByte
  rfl

theorem uptoByte_zero (text : List Char) : uptoByte 0 text = some [] := by
  unfold uptoByte
  rfl

theorem fromByte_cons (n : Nat) (c : Char) (rest : List Char) :
    fromByte (c.utf8Size + n) (c :: rest) = fromByte n rest := by
  obtain ⟨k, hk⟩ := Nat.exists_eq_add_one_of_ne_zero (Nat.pos_iff_ne_zero.mp (Nat.add_pos_left c.utf8Size_pos n))
  rw [hk, fromByte, ← hk, if_pos (Nat.le_add_right _ _), Nat.add_sub_cancel_left]

theorem uptoByte_cons (n : Nat) (c : Char) (rest : List Char) :
    uptoByte (c.utf8Size + n) (c :: rest) = (uptoByte n rest).map (c :: ·) := by
  obtain ⟨k, hk⟩ := Nat.exists_eq_add_one_of_ne_zero (Nat.pos_iff_ne_zero.mp (Nat.add_pos_left c.utf8Size_pos n))
  rw [hk, uptoByte, ← hk, if_pos (Nat.le_add_right _ _), Nat.add_sub_cancel_left]

/-- A cut at the length of a part. -/
theorem fromByte_byteLength (before after : List Char) :
    fromByte (byteLength before) (before ++ after) = some after := by
  induction before with
  | nil => exact fromByte_zero after
  | cons c rest ih => rw [byteLength_cons, List.cons_append, fromByte_cons, ih]

theorem uptoByte_byteLength (before after : List Char) :
    uptoByte (byteLength before) (before ++ after) = some before := by
  induction before with
  | nil => exact uptoByte_zero after
  | cons c rest ih => rw [byteLength_cons, List.cons_append, uptoByte_cons, ih, Option.map_some]

/-- A number of bytes behind which a character starts, or the text ends. -/
def IsBoundary (n : Nat) (text : List Char) : Prop := ∃ before after, text = before ++ after ∧ byteLength before = n

theorem fromByte_eq_some_iff {n : Nat} {text after : List Char} :
    fromByte n text = some after ↔ ∃ before, text = before ++ after ∧ byteLength before = n := by
  constructor
  · intro h
    induction text generalizing n with
    | nil =>
        cases n with
        | zero => exact ⟨[], Option.some.inj ((fromByte_zero []).symm.trans h), rfl⟩
        | succ n => cases h
    | cons c rest ih =>
        cases n with
        | zero => exact ⟨[], Option.some.inj ((fromByte_zero (c :: rest)).symm.trans h), rfl⟩
        | succ n =>
            rw [fromByte] at h
            split at h
            next hle =>
              obtain ⟨before, hrest, hlength⟩ := ih h
              refine ⟨c :: before, by rw [hrest, List.cons_append], ?_⟩
              rw [byteLength_cons, hlength]
              omega
            next => cases h
  · rintro ⟨before, rfl, rfl⟩
    exact fromByte_byteLength before after

theorem uptoByte_eq_some_iff {n : Nat} {text before : List Char} :
    uptoByte n text = some before ↔ ∃ after, text = before ++ after ∧ byteLength before = n := by
  constructor
  · intro h
    induction text generalizing n before with
    | nil =>
        cases n with
        | zero => exact ⟨[], by rw [← Option.some.inj ((uptoByte_zero []).symm.trans h)]; exact ⟨rfl, rfl⟩⟩
        | succ n => cases h
    | cons c rest ih =>
        cases n with
        | zero => exact ⟨c :: rest, by rw [← Option.some.inj ((uptoByte_zero (c :: rest)).symm.trans h)]; exact ⟨rfl, rfl⟩⟩
        | succ n =>
            rw [uptoByte] at h
            split at h
            next hle =>
              obtain ⟨front, hfront, rfl⟩ := Option.map_eq_some_iff.mp h
              obtain ⟨after, hrest, hlength⟩ := ih hfront
              refine ⟨after, by rw [hrest, List.cons_append], ?_⟩
              rw [byteLength_cons, hlength]
              omega
            next => cases h
  · rintro ⟨after, rfl, rfl⟩
    exact uptoByte_byteLength before after

theorem isSome_fromByte_iff {n : Nat} {text : List Char} : (fromByte n text).isSome ↔ IsBoundary n text := by
  rw [Option.isSome_iff_exists, IsBoundary, exists_comm]
  exact exists_congr fun after => fromByte_eq_some_iff

theorem isSome_uptoByte_iff {n : Nat} {text : List Char} : (uptoByte n text).isSome ↔ IsBoundary n text := by
  rw [Option.isSome_iff_exists, IsBoundary]
  exact exists_congr fun before => uptoByte_eq_some_iff

/-- A cut works at a boundary only. -/
theorem isBoundary_of_fromByte {n : Nat} {text after : List Char} (h : fromByte n text = some after) :
    IsBoundary n text :=
  isSome_fromByte_iff.mp (Option.isSome_iff_exists.mpr ⟨after, h⟩)

theorem isBoundary_of_uptoByte {n : Nat} {text before : List Char} (h : uptoByte n text = some before) :
    IsBoundary n text :=
  isSome_uptoByte_iff.mp (Option.isSome_iff_exists.mpr ⟨before, h⟩)

theorem IsBoundary.exists_fromByte {n : Nat} {text : List Char} (h : IsBoundary n text) :
    ∃ after, fromByte n text = some after :=
  Option.isSome_iff_exists.mp (isSome_fromByte_iff.mpr h)

theorem IsBoundary.exists_uptoByte {n : Nat} {text : List Char} (h : IsBoundary n text) :
    ∃ before, uptoByte n text = some before :=
  Option.isSome_iff_exists.mp (isSome_uptoByte_iff.mpr h)

theorem isBoundary_cons_iff {n : Nat} {c : Char} {rest : List Char} :
    IsBoundary n (c :: rest) ↔ n = 0 ∨ ∃ m, n = c.utf8Size + m ∧ IsBoundary m rest := by
  constructor
  · rintro ⟨before, after, htext, rfl⟩
    cases before with
    | nil => exact .inl rfl
    | cons d before =>
        obtain ⟨rfl, rfl⟩ := List.cons.inj htext
        exact .inr ⟨byteLength before, rfl, before, after, rfl, rfl⟩
  · rintro (rfl | ⟨m, rfl, before, after, rfl, rfl⟩)
    · exact ⟨[], c :: rest, rfl, rfl⟩
    · exact ⟨c :: before, after, rfl, rfl⟩

/-- A boundary in a text is one in a part of it that is long enough. -/
theorem isBoundary_append_iff {n : Nat} {before after : List Char} (h : n ≤ byteLength before) :
    IsBoundary n (before ++ after) ↔ IsBoundary n before := by
  constructor
  · rintro ⟨front, back, htext, rfl⟩
    rcases List.append_eq_append_iff.mp htext with ⟨more, rfl, -⟩ | ⟨more, rfl, -⟩
    · rw [byteLength_append] at h
      have hmore : more = [] := by
        cases more with
        | nil => rfl
        | cons c rest =>
            rw [byteLength_cons] at h
            have hpos := c.utf8Size_pos
            omega
      exact ⟨before, [], (List.append_nil before).symm, by rw [hmore, List.append_nil]⟩
    · exact ⟨front, more, rfl, rfl⟩
  · rintro ⟨front, back, rfl, rfl⟩
    exact ⟨front, back ++ after, List.append_assoc _ _ _, rfl⟩

/-! ### Searches -/

/-- `text.find(pattern)`. -/
def byteFind (pattern : List Char) : List Char → Option Nat
  | [] => if pattern.isEmpty then some 0 else none
  | c :: rest =>
      if pattern.isPrefixOf (c :: rest) then some 0 else (byteFind pattern rest).map (c.utf8Size + ·)

/-- `text.rfind(pattern)`. -/
def byteRfind (pattern : List Char) : List Char → Option Nat
  | [] => if pattern.isEmpty then some 0 else none
  | c :: rest =>
      match byteRfind pattern rest with
      | some pos => some (c.utf8Size + pos)
      | none => if pattern.isPrefixOf (c :: rest) then some 0 else none

/-- `text.find(p)` for a condition on characters. -/
def byteFindIf (p : Char → Bool) : List Char → Option Nat
  | [] => none
  | c :: rest => if p c then some 0 else (byteFindIf p rest).map (c.utf8Size + ·)

/-- What a search finds stands there, and nowhere before. -/
theorem exists_of_byteFind {pattern text : List Char} {n : Nat} (h : byteFind pattern text = some n) :
    ∃ before after, text = before ++ (pattern ++ after) ∧ byteLength before = n ∧
      ∀ front back, text = front ++ (pattern ++ back) → before.length ≤ front.length := by
  induction text generalizing n with
  | nil =>
      rw [byteFind] at h
      split at h
      next hempty => exact ⟨[], [], by rw [List.isEmpty_iff.mp hempty]; rfl, Option.some.inj h, fun _ _ _ => Nat.zero_le _⟩
      next => cases h
  | cons c rest ih =>
      rw [byteFind] at h
      split at h
      next hleads =>
        obtain ⟨after, hafter⟩ := List.isPrefixOf_iff_prefix.mp hleads
        exact ⟨[], after, hafter.symm, Option.some.inj h, fun _ _ _ => Nat.zero_le _⟩
      next hleads =>
        obtain ⟨m, hm, rfl⟩ := Option.map_eq_some_iff.mp h
        obtain ⟨before, after, hrest, hlength, hfirst⟩ := ih hm
        refine ⟨c :: before, after, by rw [hrest, List.cons_append], by rw [byteLength_cons, hlength], ?_⟩
        rintro (_ | ⟨d, front⟩) back hback
        · exact absurd (List.isPrefixOf_iff_prefix.mpr ⟨back, hback.symm⟩) hleads
        · exact Nat.succ_le_succ (hfirst front back (List.cons.inj hback).2)

theorem byteFind_eq_none_iff {pattern text : List Char} : byteFind pattern text = none ↔ ¬ pattern <:+: text := by
  induction text with
  | nil =>
      rw [byteFind, List.infix_nil]
      cases pattern with
      | nil => exact iff_of_false nofun fun h => h rfl
      | cons c rest => exact iff_of_true rfl nofun
  | cons c rest ih =>
      rw [byteFind, List.infix_cons_iff, not_or, ← ih]
      split
      next hleads => exact iff_of_false nofun fun h => h.1 (List.isPrefixOf_iff_prefix.mp hleads)
      next hleads =>
        rw [Option.map_eq_none_iff]
        exact ⟨fun h => ⟨fun hp => hleads (List.isPrefixOf_iff_prefix.mpr hp), h⟩, And.right⟩

/-- The first place of a pattern is the one that a search finds. -/
theorem byteFind_of_first {pattern before after : List Char}
    (hfirst : ∀ front back, before ++ (pattern ++ after) = front ++ (pattern ++ back) → before.length ≤ front.length) :
    byteFind pattern (before ++ (pattern ++ after)) = some (byteLength before) := by
  cases hfind : byteFind pattern (before ++ (pattern ++ after)) with
  | none => exact absurd ⟨before, after, List.append_assoc _ _ _⟩ (byteFind_eq_none_iff.mp hfind)
  | some n =>
      obtain ⟨front, back, htext, hlength, hleast⟩ := exists_of_byteFind hfind
      have hle := hfirst front back htext
      have hge := hleast before after rfl
      obtain ⟨rfl, -⟩ := List.append_inj htext (Nat.le_antisymm hle hge)
      rw [hlength]

/-- A pattern is found where its first character stands for the first time. -/
theorem byteFind_of_notMem {c : Char} {rest before after : List Char} (hc : c ∉ before) :
    byteFind (c :: rest) (before ++ (c :: rest ++ after)) = some (byteLength before) := by
  refine byteFind_of_first fun front back h => ?_
  by_contra hlt
  obtain ⟨more, hmore⟩ : front ++ [c] <+: before := by
    refine List.prefix_of_prefix_length_le ⟨rest ++ back, ?_⟩ ⟨c :: rest ++ after, rfl⟩ ?_
    · rw [h, List.append_assoc]
      rfl
    · rw [List.length_append, List.length_singleton]
      omega
  rw [← hmore] at hc
  exact hc (List.mem_append_left _ (List.mem_append_right _ (List.mem_singleton_self c)))

theorem byteRfind_eq_none_iff {pattern text : List Char} : byteRfind pattern text = none ↔ ¬ pattern <:+: text := by
  induction text with
  | nil =>
      rw [byteRfind, List.infix_nil]
      cases pattern with
      | nil => exact iff_of_false nofun fun h => h rfl
      | cons c rest => exact iff_of_true rfl nofun
  | cons c rest ih =>
      rw [byteRfind, List.infix_cons_iff, not_or, ← ih]
      cases byteRfind pattern rest with
      | some pos => exact iff_of_false nofun fun h => nomatch h.2
      | none =>
          dsimp only
          split
          next hleads => exact iff_of_false nofun fun h => h.1 (List.isPrefixOf_iff_prefix.mp hleads)
          next hleads => exact iff_of_true rfl ⟨fun hp => hleads (List.isPrefixOf_iff_prefix.mpr hp), rfl⟩

/-- The last place of a pattern, behind whose start it does not stand again, is the one that a search from behind finds. -/
theorem byteRfind_of_last {c : Char} {rest before after : List Char} (hlast : ¬ c :: rest <:+: rest ++ after) :
    byteRfind (c :: rest) (before ++ (c :: rest ++ after)) = some (byteLength before) := by
  induction before with
  | nil =>
      rw [List.nil_append, List.cons_append, byteRfind, byteRfind_eq_none_iff.mpr hlast]
      exact if_pos (List.isPrefixOf_iff_prefix.mpr ⟨after, rfl⟩)
  | cons d before ih => rw [List.cons_append, byteRfind, ih, byteLength_cons]

/-- What a search from behind finds stands there. -/
theorem exists_of_byteRfind {pattern text : List Char} {n : Nat} (h : byteRfind pattern text = some n) :
    ∃ before after, text = before ++ (pattern ++ after) ∧ byteLength before = n := by
  induction text generalizing n with
  | nil =>
      rw [byteRfind] at h
      split at h
      next hempty => exact ⟨[], [], by rw [List.isEmpty_iff.mp hempty]; rfl, Option.some.inj h⟩
      next => cases h
  | cons c rest ih =>
      rw [byteRfind] at h
      cases hfind : byteRfind pattern rest with
      | some pos =>
          obtain ⟨before, after, hrest, hlength⟩ := ih hfind
          rw [hfind] at h
          refine ⟨c :: before, after, by rw [hrest, List.cons_append], ?_⟩
          rw [byteLength_cons, hlength]
          exact Option.some.inj h
      | none =>
          rw [hfind] at h
          dsimp only at h
          split at h
          next hleads =>
            obtain ⟨after, hafter⟩ := List.isPrefixOf_iff_prefix.mp hleads
            exact ⟨[], after, hafter.symm, Option.some.inj h⟩
          next => cases h

/-- What is found starts and ends at boundaries. -/
theorem isBoundary_of_byteFind {pattern text : List Char} {n : Nat} (h : byteFind pattern text = some n) :
    IsBoundary n text ∧ IsBoundary (n + byteLength pattern) text := by
  obtain ⟨before, after, rfl, rfl, -⟩ := exists_of_byteFind h
  exact ⟨⟨before, pattern ++ after, rfl, rfl⟩,
    ⟨before ++ pattern, after, (List.append_assoc _ _ _).symm, byteLength_append _ _⟩⟩

theorem isBoundary_of_byteRfind {pattern text : List Char} {n : Nat} (h : byteRfind pattern text = some n) :
    IsBoundary n text ∧ IsBoundary (n + byteLength pattern) text := by
  obtain ⟨before, after, rfl, rfl⟩ := exists_of_byteRfind h
  exact ⟨⟨before, pattern ++ after, rfl, rfl⟩,
    ⟨before ++ pattern, after, (List.append_assoc _ _ _).symm, byteLength_append _ _⟩⟩

theorem byteFindIf_of_first {p : Char → Bool} {c : Char} {before : List Char} (hbefore : ∀ d ∈ before, p d = false)
    (hc : p c = true) (after : List Char) : byteFindIf p (before ++ c :: after) = some (byteLength before) := by
  induction before with
  | nil => exact if_pos hc
  | cons d rest ih =>
      obtain ⟨hd, hrest⟩ := List.forall_mem_cons.mp hbefore
      rw [List.cons_append, byteFindIf, hd, if_neg Bool.false_ne_true, ih hrest, Option.map_some, byteLength_cons]

/-- What a search for a kind of character finds is the first one. -/
theorem exists_of_byteFindIf {p : Char → Bool} {text : List Char} {n : Nat} (h : byteFindIf p text = some n) :
    ∃ before c after, text = before ++ c :: after ∧ byteLength before = n ∧ p c = true ∧ ∀ d ∈ before, p d = false := by
  induction text generalizing n with
  | nil => cases h
  | cons c rest ih =>
      rw [byteFindIf] at h
      split at h
      next hc => exact ⟨[], c, rest, rfl, Option.some.inj h, hc, nofun⟩
      next hc =>
        obtain ⟨m, hm, rfl⟩ := Option.map_eq_some_iff.mp h
        obtain ⟨before, d, after, hrest, hlength, hd, hbefore⟩ := ih hm
        refine ⟨c :: before, d, after, by rw [hrest, List.cons_append], by rw [byteLength_cons, hlength], hd, ?_⟩
        exact List.forall_mem_cons.mpr ⟨Bool.eq_false_iff.mpr hc, hbefore⟩

/-- The text up to the first character of a kind, or all of it. -/
theorem uptoByte_byteFindIf (p : Char → Bool) (text : List Char) :
    uptoByte ((byteFindIf p text).getD (byteLength text)) text = some (text.takeWhile fun c => !p c) := by
  induction text with
  | nil => rfl
  | cons c rest ih =>
      rw [byteFindIf]
      split
      next hc => rw [Option.getD_some, uptoByte_zero, List.takeWhile_cons_of_neg (by rw [hc]; exact Bool.false_ne_true)]
      next hc =>
        have hgetD : ((byteFindIf p rest).map (c.utf8Size + ·)).getD (byteLength (c :: rest)) =
            c.utf8Size + (byteFindIf p rest).getD (byteLength rest) := by
          cases byteFindIf p rest <;> rfl
        rw [hgetD, uptoByte_cons, ih, Option.map_some, List.takeWhile_cons_of_pos (by rw [Bool.not_eq_true] at hc; rw [hc]; rfl)]

end HelionDb
