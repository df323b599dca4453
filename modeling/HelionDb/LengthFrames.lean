import HelionDb.Frames

/-! Frames behind a length: a number of some bytes, the highest first, and as many bytes of data. Bytes come in pieces, so a
reader waits until it has a whole frame. What it then takes off the front is the frame that was written there, whatever has
come behind it, as long as the number has room for the length. -/

namespace HelionDb

namespace LengthFrames

open Frames (leBytes leValue)

/-- A length as bytes, the highest first, with what does not fit cut off. -/
def header (width length : Nat) : List UInt8 := (leBytes width length).reverse

/-- The bytes of a frame. -/
def frame (width : Nat) (data : List UInt8) : List UInt8 := header width data.length ++ data

/-- The bytes of some frames. -/
def encode (width : Nat) (frames : List (List UInt8)) : List UInt8 := frames.flatMap (frame width)

/-- The data of the first frame and what is behind it, once it is there as a whole. -/
def next (width : Nat) (buf : List UInt8) : Option (List UInt8 × List UInt8) :=
  let length := leValue (buf.take width).reverse
  if width ≤ buf.length ∧ width + length ≤ buf.length then
    some ((buf.drop width).take length, buf.drop (width + length))
  else none

section

variable {width : Nat} {buf data rest more : List UInt8} {frames : List (List UInt8)}

theorem leValue_leBytes_mod (width value : Nat) : leValue (leBytes width value) = value % 256 ^ width := by
  induction width generalizing value with
  | zero => rw [Nat.pow_zero, Nat.mod_one]; rfl
  | succ width ih =>
      calc leValue (leBytes (width + 1) value)
        _ = value % 256 + 256 * (value / 256 % 256 ^ width) := by rw [leBytes, leValue, ih, UInt8.toNat_ofNat']
        _ = value % (256 * 256 ^ width) := Nat.mod_mul.symm
        _ = value % 256 ^ (width + 1) := by rw [Nat.pow_succ, Nat.mul_comm]

@[simp] theorem length_header (width length : Nat) : (header width length).length = width := by
  rw [header, List.length_reverse, Frames.length_leBytes]

theorem encode_cons (data : List UInt8) (frames : List (List UInt8)) :
    encode width (data :: frames) = frame width data ++ encode width frames :=
  List.flatMap_cons

theorem encode_append (first second : List (List UInt8)) :
    encode width (first ++ second) = encode width first ++ encode width second :=
  List.flatMap_append

theorem next_eq_some : next width buf = some (data, rest) ↔
    ∃ front, front.length = width ∧ leValue front.reverse = data.length ∧ buf = front ++ data ++ rest := by
  unfold next
  constructor
  · intro h
    dsimp only at h
    split at h
    · rename_i hroom
      obtain ⟨rfl, rfl⟩ := Prod.mk.inj (Option.some.inj h)
      refine ⟨buf.take width, ?_, ?_, ?_⟩
      · simp [hroom.1]
      · rw [List.length_take, List.length_drop]
        omega
      · rw [List.append_assoc, ← List.drop_drop, List.take_append_drop, List.take_append_drop]
    · cases h
  · rintro ⟨front, hwidth, hlength, rfl⟩
    have hfront : ((front ++ data ++ rest).take width) = front := by
      rw [List.append_assoc, List.take_left' hwidth]
    have hdata : ((front ++ data ++ rest).drop width) = data ++ rest := by
      rw [List.append_assoc, List.drop_left' hwidth]
    dsimp only
    rw [hfront, hlength, ← List.drop_drop, hdata, List.take_left' rfl, List.drop_left' rfl, if_pos]
    simp only [List.length_append]
    omega

/-- A frame that is there as a whole stays the first one when more bytes come. -/
theorem next_append (h : next width buf = some (data, rest)) (more : List UInt8) :
    next width (buf ++ more) = some (data, rest ++ more) := by
  obtain ⟨front, hwidth, hlength, rfl⟩ := next_eq_some.mp h
  exact next_eq_some.mpr ⟨front, hwidth, hlength, List.append_assoc _ _ _⟩

/-- What is read back of a frame is what was written exactly where the header has room for its length. -/
theorem next_frame_iff : next width (frame width data ++ rest) = some (data, rest) ↔ data.length < 256 ^ width := by
  have hheader : leValue (header width data.length).reverse = data.length % 256 ^ width := by
    rw [header, List.reverse_reverse, leValue_leBytes_mod]
  rw [next_eq_some]
  constructor
  · rintro ⟨front, hwidth, hlength, hsame⟩
    rw [frame] at hsame
    obtain rfl := List.append_inj_left ((List.append_assoc _ _ _).symm.trans (hsame.trans (List.append_assoc _ _ _)))
      ((length_header _ _).trans hwidth.symm)
    rw [hheader] at hlength
    calc data.length
      _ = data.length % 256 ^ width := hlength.symm
      _ < 256 ^ width := Nat.mod_lt _ (Nat.pow_pos (by decide))
  · intro hroom
    exact ⟨header width data.length, length_header _ _, hheader.trans (Nat.mod_eq_of_lt hroom), rfl⟩

theorem next_nil (hwidth : 0 < width) : next width [] = none := by
  rw [Option.eq_none_iff_forall_ne_some]
  intro result h
  obtain ⟨front, rfl, -, hsame⟩ := next_eq_some.mp h
  have hlength := congrArg List.length hsame
  simp only [List.length_nil, List.length_append] at hlength
  omega

/-- A reader that has some of the bytes of frames takes the first of them off, or waits. -/
theorem next_of_encode (hwidth : 0 < width) (hfit : ∀ data ∈ frames, data.length < 256 ^ width)
    (hbytes : buf ++ more = encode width frames) (h : next width buf = some (data, rest)) :
    ∃ others, frames = data :: others ∧ rest ++ more = encode width others := by
  have hwhole := next_append h more
  rw [hbytes] at hwhole
  cases frames with
  | nil =>
      rw [show encode width [] = [] from rfl, next_nil hwidth] at hwhole
      cases hwhole
  | cons first others =>
      rw [encode_cons, next_frame_iff.mpr (hfit first List.mem_cons_self)] at hwhole
      obtain ⟨rfl, hrest⟩ := Prod.mk.inj (Option.some.inj hwhole)
      exact ⟨others, rfl, hrest.symm⟩

/-- A reader that has all bytes and waits has read all frames. -/
theorem eq_nil_of_next (hfit : ∀ data ∈ frames, data.length < 256 ^ width)
    (hnone : next width (encode width frames) = none) : frames = [] := by
  cases frames with
  | nil => rfl
  | cons first others =>
      rw [encode_cons, next_frame_iff.mpr (hfit first List.mem_cons_self)] at hnone
      cases hnone

end

end LengthFrames

end HelionDb
