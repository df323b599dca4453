import Mathlib.Data.List.Basic
import Mathlib.Tactic.Ring
import Mathlib.Algebra.Order.Ring.Nat

/-! Frames in a buffer of bytes: a length of 8 bytes, the data, and a checksum of 4 bytes, both numbers with the lowest byte
first. A buffer is split into its frames up to where one is cut off. What is split are the frames that were written, also
where the buffer ends inside one of them. -/

namespace HelionDb

namespace Frames

/-- A number as bytes, the lowest first. -/
def leBytes : Nat → Nat → List UInt8
  | 0, _ => []
  | width + 1, value => UInt8.ofNat value :: leBytes width (value / 256)

/-- The number that bytes give. -/
def leValue : List UInt8 → Nat
  | [] => 0
  | byte :: rest => byte.toNat + 256 * leValue rest

@[simp] theorem length_leBytes (width value : Nat) : (leBytes width value).length = width := by
  induction width generalizing value with
  | zero => rfl
  | succ width ih => rw [leBytes, List.length_cons, ih]

theorem leValue_leBytes {width value : Nat} (h : value < 256 ^ width) : leValue (leBytes width value) = value := by
  induction width generalizing value with
  | zero =>
      rw [Nat.pow_zero, Nat.lt_one_iff] at h
      rw [h]
      rfl
  | succ width ih =>
      rw [Nat.pow_succ] at h
      have hrest : value / 256 < 256 ^ width := Nat.div_lt_of_lt_mul (by omega)
      rw [leBytes, leValue, ih hrest, UInt8.toNat_ofNat']
      exact Nat.mod_add_div value 256

/-! ### Frames -/

/-- The bytes of a frame. -/
def frame (data : List UInt8) (checksum : Nat) : List UInt8 :=
  leBytes 8 data.length ++ data ++ leBytes 4 checksum

/-- The bytes of some frames. -/
def encode (frames : List (List UInt8 × Nat)) : List UInt8 := frames.flatMap fun next => frame next.1 next.2

/-- The length that a header at an offset gives. -/
def lenAt (buf : List UInt8) (offset : Nat) : Nat := leValue ((buf.drop offset).take 8)

/-- Where the frames of a buffer start, and where the last one ends. -/
inductive Start (buf : List UInt8) : Nat → Prop
  | first : Start buf 0
  | next {offset : Nat} (h : Start buf offset) (hheader : offset + 8 ≤ buf.length)
      (hframe : offset + lenAt buf offset + 12 ≤ buf.length) : Start buf (offset + lenAt buf offset + 12)

/-- The frames of a buffer, up to the first one that is cut off. -/
def split (buf : List UInt8) : List (List UInt8 × Nat) :=
  if 8 ≤ buf.length ∧ lenAt buf 0 + 12 ≤ buf.length then
    ((buf.drop 8).take (lenAt buf 0), leValue ((buf.drop (lenAt buf 0 + 8)).take 4)) :: split (buf.drop (lenAt buf 0 + 12))
  else []
termination_by buf.length

/-- The first ones of some pieces, as long as they fit into a number of bytes one after the other. -/
def inside {α : Type} (size : α → Nat) : Nat → List α → List α
  | _, [] => []
  | room, piece :: rest => if size piece ≤ room then piece :: inside size (room - size piece) rest else []

section

variable {data rest : List UInt8} {checksum room offset : Nat} {frames done after : List (List UInt8 × Nat)}

@[simp] theorem length_frame (data : List UInt8) (checksum : Nat) : (frame data checksum).length = data.length + 12 := by
  simp only [frame, List.length_append, length_leBytes]
  omega

theorem encode_cons (next : List UInt8 × Nat) (frames : List (List UInt8 × Nat)) :
    encode (next :: frames) = frame next.1 next.2 ++ encode frames := List.flatMap_cons

theorem encode_append (first second : List (List UInt8 × Nat)) : encode (first ++ second) = encode first ++ encode second :=
  List.flatMap_append

theorem inside_map {α β : Type} (size : β → Nat) (f : α → β) (room : Nat) (pieces : List α) :
    inside size room (pieces.map f) = (inside (fun piece => size (f piece)) room pieces).map f := by
  induction pieces generalizing room with
  | nil => rfl
  | cons piece rest ih =>
      rw [List.map_cons, inside, inside]
      split
      · rw [List.map_cons, ih]
      · rfl

theorem mem_of_mem_inside {α : Type} {size : α → Nat} {room : Nat} {pieces : List α} {piece : α}
    (h : piece ∈ inside size room pieces) : piece ∈ pieces := by
  induction pieces generalizing room with
  | nil => cases h
  | cons first rest ih =>
      rw [inside] at h
      split at h
      · exact (List.mem_cons.mp h).elim (fun heq => heq ▸ List.mem_cons_self) fun hrest => List.mem_cons_of_mem _ (ih hrest)
      · cases h

theorem Start.le_length {buf : List UInt8} (h : Start buf offset) : offset ≤ buf.length := by
  cases h with
  | first => exact Nat.zero_le _
  | next _ _ hframe => exact hframe

theorem lenAt_drop (buf : List UInt8) (offset : Nat) : lenAt (buf.drop offset) 0 = lenAt buf offset := rfl

theorem split_of_fits {buf : List UInt8} (hheader : 8 ≤ buf.length) (hframe : lenAt buf 0 + 12 ≤ buf.length) :
    split buf =
      ((buf.drop 8).take (lenAt buf 0), leValue ((buf.drop (lenAt buf 0 + 8)).take 4)) ::
        split (buf.drop (lenAt buf 0 + 12)) := by
  rw [split, if_pos ⟨hheader, hframe⟩]

theorem split_drop_of_fits {buf : List UInt8} (hheader : offset + 8 ≤ buf.length)
    (hframe : offset + lenAt buf offset + 12 ≤ buf.length) :
    split (buf.drop offset) =
      ((buf.drop (offset + 8)).take (lenAt buf offset), leValue ((buf.drop (offset + 8 + lenAt buf offset)).take 4)) ::
        split (buf.drop (offset + lenAt buf offset + 12)) := by
  have hlength := @List.length_drop UInt8 offset buf
  rw [split_of_fits (by omega) (by rw [lenAt_drop]; omega), lenAt_drop, List.drop_drop, List.drop_drop, List.drop_drop,
    Nat.add_assoc offset 8, Nat.add_comm 8, Nat.add_assoc offset]

theorem split_of_short {buf : List UInt8} (h : buf.length < 8) : split buf = [] := by
  rw [split]
  exact if_neg fun hfits => Nat.not_lt.mpr hfits.1 h

theorem split_of_cut {buf : List UInt8} (h : buf.length < lenAt buf 0 + 12) : split buf = [] := by
  rw [split]
  exact if_neg fun hfits => Nat.not_lt.mpr hfits.2 h

/-- With 8 bytes of the frame there, its header gives the length of the data. -/
theorem lenAt_take (hdata : data.length < 256 ^ 8) (hroom : 8 ≤ room) :
    lenAt ((frame data checksum ++ rest).take room) 0 = data.length := by
  rw [lenAt, List.drop_zero, List.take_take, Nat.min_eq_left hroom, frame, List.append_assoc, List.append_assoc,
    List.take_append_of_le_length (by simp), List.take_of_length_le (by simp)]
  exact leValue_leBytes hdata

theorem split_frame (hdata : data.length < 256 ^ 8) (hchecksum : checksum < 256 ^ 4) (rest : List UInt8) :
    split (frame data checksum ++ rest) = (data, checksum) :: split rest := by
  have hlen : lenAt (frame data checksum ++ rest) 0 = data.length := by
    have htaken := @lenAt_take data rest checksum (frame data checksum ++ rest).length hdata (by simp; omega)
    rwa [List.take_length] at htaken
  have hlength : (frame data checksum ++ rest).length = data.length + 12 + rest.length := by
    rw [List.length_append, length_frame]
  have hdrop : (frame data checksum ++ rest).drop (data.length + 12) = rest := List.drop_left' (length_frame data checksum)
  have hbody : (frame data checksum ++ rest).drop 8 = data ++ (leBytes 4 checksum ++ rest) := by
    rw [frame, List.append_assoc, List.append_assoc]
    exact List.drop_left' (length_leBytes _ _)
  have hchecked : (frame data checksum ++ rest).drop (data.length + 8) = leBytes 4 checksum ++ rest := by
    rw [Nat.add_comm, ← List.drop_drop, hbody]
    exact List.drop_left' rfl
  rw [split_of_fits (by omega) (by omega), hlen, hdrop, hbody, hchecked, List.take_left' rfl, List.take_left' (length_leBytes _ _),
    leValue_leBytes hchecksum]

/-- A frame that is cut off ends the frames. -/
theorem split_take_frame (hdata : data.length < 256 ^ 8) (hcut : room < data.length + 12) :
    split ((frame data checksum ++ rest).take room) = [] := by
  have hlength := List.length_take_le room (frame data checksum ++ rest)
  by_cases hheader : 8 ≤ ((frame data checksum ++ rest).take room).length
  · apply split_of_cut
    rw [lenAt_take hdata (hheader.trans hlength)]
    omega
  · exact split_of_short (Nat.lt_of_not_le hheader)

/-- The lengths and checksums of some frames fit into their bytes. -/
def Fit (frames : List (List UInt8 × Nat)) : Prop := ∀ next ∈ frames, next.1.length < 256 ^ 8 ∧ next.2 < 256 ^ 4

/-- Splitting gives back the frames that are complete. -/
theorem split_take_encode (hfit : Fit frames) (room : Nat) :
    split ((encode frames).take room) = inside (fun next => next.1.length + 12) room frames := by
  induction frames generalizing room with
  | nil =>
      rw [encode, List.flatMap_nil, List.take_nil, inside]
      exact split_of_short (by decide)
  | cons next rest ih =>
      obtain ⟨⟨hdata, hchecksum⟩, hrest⟩ := List.forall_mem_cons.mp hfit
      rw [encode_cons, inside]
      split
      · have htake : (frame next.1 next.2 ++ encode rest).take room =
            frame next.1 next.2 ++ (encode rest).take (room - (next.1.length + 12)) := by
          rw [List.take_append, length_frame, List.take_of_length_le (by rwa [length_frame])]
        rw [htake, split_frame hdata hchecksum, ih hrest]
      · exact split_take_frame hdata (by omega)

theorem lenAt_encode {next : List UInt8 × Nat} (hfit : Fit (done ++ next :: after))
    (hroom : (encode done).length + 8 ≤ room) :
    lenAt ((encode (done ++ next :: after)).take room) (encode done).length = next.1.length := by
  have hnext := hfit next (List.mem_append_right _ List.mem_cons_self)
  rw [← lenAt_drop, List.drop_take, encode_append, List.drop_left, encode_cons]
  exact lenAt_take hnext.1 (by omega)

/-- In what is left of some frames, a frame starts where one of them does. -/
theorem Start.of_encode (hfit : Fit frames) (h : Start ((encode frames).take room) offset) :
    ∃ done after, frames = done ++ after ∧ offset = (encode done).length := by
  induction h with
  | first => exact ⟨[], frames, rfl, rfl⟩
  | @next offset h hheader hframe ih =>
      obtain ⟨done, after, rfl, rfl⟩ := ih
      rw [List.length_take] at hheader
      cases after with
      | nil =>
          rw [List.append_nil] at hheader
          omega
      | cons next after =>
          refine ⟨done ++ [next], after, by rw [List.append_assoc]; rfl, ?_⟩
          rw [lenAt_encode hfit (by omega), encode_append, encode_cons, List.length_append, List.length_append,
            length_frame]
          simp only [encode, List.flatMap_nil, List.length_nil]
          omega

/-- A header in what is left of some frames gives a length that they have. -/
theorem Start.add_lenAt_le (hfit : Fit frames) (h : Start ((encode frames).take room) offset)
    (hheader : offset + 8 ≤ ((encode frames).take room).length) :
    offset + lenAt ((encode frames).take room) offset + 12 ≤ (encode frames).length := by
  obtain ⟨done, after, rfl, rfl⟩ := h.of_encode hfit
  rw [List.length_take] at hheader
  cases after with
  | nil =>
      rw [List.append_nil] at hheader
      omega
  | cons next after =>
      rw [lenAt_encode hfit (by omega), encode_append, encode_cons, List.length_append, List.length_append, length_frame]
      omega

end

end Frames

end HelionDb
