import HelionDb.Frames
import HelionDb.Wal

/-! The bytes of the log. `append` writes one frame for a record, and replay reads a buffer of them at a running offset: a
frame whose checksum does not agree is passed over, one that is cut off ends the replay. Offsets are 64-bit numbers, so that
a length in a damaged header can carry a sum beyond them. -/

namespace HelionDb

open Frames

/-- What the log takes from `bincode` and `crc32fast`. -/
structure WalCodec where
  serialize : WalRecord → List UInt8
  deserialize : List UInt8 → Option WalRecord
  hash : List UInt8 → UInt32

/-- The bytes of a file in memory, which has at most `isize::MAX` of them. -/
structure WalBuffer where
  bytes : List UInt8
  length_lt : bytes.length < 2 ^ 63

namespace WalBuffer

/-! ### Offsets and slices -/

/-- The sum of two `usize`. One that overflows is a panic with overflow checks, and wraps without them. -/
def add (checks : Bool) (left right : Nat) : Option Nat :=
  if left + right < 2 ^ 64 then some (left + right) else if checks then none else some ((left + right) % 2 ^ 64)

/-- `buf[first..last]`, a panic where it is not inside the buffer. -/
def slice (buf : List UInt8) (first last : Nat) : Option (List UInt8) :=
  if first ≤ last ∧ last ≤ buf.length then some ((buf.take last).drop first) else none

/-- What a round of the loop reads: nothing more, or a frame and the offset behind it. -/
inductive Round where
  | stop
  | frame (data : List UInt8) (checksum : Nat) (next : Nat)

/-- A round of the loop of `replay_wal_buf`, up to the checksum. -/
def round (checks : Bool) (buf : List UInt8) (offset : Nat) : Option Round := do
  let headerEnd ← add checks offset 8
  if buf.length < headerEnd then
    some .stop
  else
    let header ← slice buf offset headerEnd
    let dataEnd ← add checks headerEnd (leValue header)
    let recordEnd ← add checks dataEnd 4
    if buf.length < recordEnd then
      some .stop
    else
      let data ← slice buf headerEnd dataEnd
      let checksum ← slice buf dataEnd recordEnd
      some (.frame data (leValue checksum) recordEnd)

section

variable {checks : Bool} {buf : List UInt8} {left right sum first last offset : Nat}

theorem add_of_lt (h : left + right < 2 ^ 64) : add checks left right = some (left + right) := if_pos h

theorem add_of_le (h : 2 ^ 64 ≤ left + right) :
    add checks left right = if checks then none else some ((left + right) % 2 ^ 64) := if_neg (Nat.not_lt.mpr h)

theorem add_lt (h : add checks left right = some sum) : sum < 2 ^ 64 := by
  unfold add at h
  split at h
  · obtain rfl := Option.some.inj h
    assumption
  · split at h
    · cases h
    · obtain rfl := Option.some.inj h
      exact Nat.mod_lt _ (by decide)

theorem slice_of_le (hfirst : first ≤ last) (hlast : last ≤ buf.length) :
    slice buf first last = some ((buf.drop first).take (last - first)) := by
  rw [slice, if_pos ⟨hfirst, hlast⟩, List.drop_take]

theorem le_of_slice {bytes : List UInt8} (h : slice buf first last = some bytes) : first ≤ last ∧ last ≤ buf.length := by
  unfold slice at h
  split at h
  · assumption
  · cases h

/-- A frame ends behind the offset and inside the buffer. -/
theorem next_of_round {data : List UInt8} {checksum next : Nat} (h : round checks buf offset = some (.frame data checksum next)) :
    offset < next ∧ next ≤ buf.length := by
  simp only [round, Option.bind_eq_bind, Option.bind_eq_some_iff] at h
  obtain ⟨headerEnd, hheaderEnd, h⟩ := h
  split at h
  · cases h
  simp only [Option.bind_eq_some_iff] at h
  obtain ⟨header, hheader, dataEnd, hdataEnd, recordEnd, hrecordEnd, h⟩ := h
  split at h
  · cases h
  simp only [Option.bind_eq_some_iff] at h
  obtain ⟨_, hdata, _, hchecksum, h⟩ := h
  cases h
  have hbefore := (le_of_slice hheader).1
  have hbetween := (le_of_slice hdata).1
  obtain ⟨hafter, hinside⟩ := le_of_slice hchecksum
  have hlt := add_lt hdataEnd
  refine ⟨?_, hinside⟩
  -- A sum with 4 that wraps is below the other summand.
  unfold add at hrecordEnd
  split at hrecordEnd
  · obtain rfl := Option.some.inj hrecordEnd
    omega
  · split at hrecordEnd
    · cases hrecordEnd
    · obtain rfl := Option.some.inj hrecordEnd
      omega

end

/-- What a round does with a frame. -/
def applyFrame (codec : WalCodec) (done : List Table × List WalRecord) (next : List UInt8 × Nat) :
    List Table × List WalRecord :=
  if next.2 ≠ (codec.hash next.1).toNat then done
  else
    match codec.deserialize next.1 with
    | none => done
    | some record => (applyWalRecord done.1 record, done.2 ++ [record])

/-- The loop of `replay_wal_buf` from an offset on. -/
def replayFrom (checks : Bool) (codec : WalCodec) (buf : List UInt8) (offset : Nat) (done : List Table × List WalRecord) :
    Option (List Table × List WalRecord) :=
  match h : round checks buf offset with
  | none => none
  | some .stop => some done
  | some (.frame data checksum next) =>
      have := next_of_round h
      replayFrom checks codec buf next (applyFrame codec done (data, checksum))
termination_by buf.length - offset

/-- `replay_wal_buf`, with overflow checks or without. A panic gives nothing. -/
def replayWalBuf (checks : Bool) (codec : WalCodec) (tables : List Table) (buf : WalBuffer) :
    Option (List Table × List WalRecord) :=
  replayFrom checks codec buf.bytes 0 (tables, [])

section

variable {checks : Bool} {codec : WalCodec} {buf : List UInt8} {offset : Nat} {done : List Table × List WalRecord}

theorem replayFrom_of_none (h : round checks buf offset = none) : replayFrom checks codec buf offset done = none := by
  rw [replayFrom]
  split <;> simp_all

theorem replayFrom_of_stop (h : round checks buf offset = some .stop) :
    replayFrom checks codec buf offset done = some done := by
  rw [replayFrom]
  split <;> simp_all

theorem replayFrom_of_frame {data : List UInt8} {checksum next : Nat}
    (h : round checks buf offset = some (.frame data checksum next)) :
    replayFrom checks codec buf offset done = replayFrom checks codec buf next (applyFrame codec done (data, checksum)) := by
  rw [replayFrom]
  split <;> simp_all

theorem round_of_lt (hbuf : buf.length < 2 ^ 63) (hoffset : offset ≤ buf.length) (hend : buf.length < offset + 8) :
    round checks buf offset = some .stop := by
  rw [round, add_of_lt (by omega), Option.bind_eq_bind, Option.bind_some, if_pos hend]

/-- Behind a header that is there the sum with the length is taken. -/
theorem round_of_header (hbuf : buf.length < 2 ^ 63) (hheader : offset + 8 ≤ buf.length) :
    round checks buf offset = (do
      let dataEnd ← add checks (offset + 8) (lenAt buf offset)
      let recordEnd ← add checks dataEnd 4
      if buf.length < recordEnd then
        some .stop
      else
        let data ← slice buf (offset + 8) dataEnd
        let checksum ← slice buf dataEnd recordEnd
        some (.frame data (leValue checksum) recordEnd)) := by
  rw [round, add_of_lt (by omega), Option.bind_eq_bind, Option.bind_some, if_neg (Nat.not_lt.mpr hheader),
    slice_of_le (Nat.le_add_right _ _) hheader, Nat.add_sub_cancel_left]
  rfl

theorem round_of_fits (hbuf : buf.length < 2 ^ 63) (hheader : offset + 8 ≤ buf.length)
    (hframe : offset + lenAt buf offset + 12 ≤ buf.length) :
    round checks buf offset = some (.frame ((buf.drop (offset + 8)).take (lenAt buf offset))
      (leValue ((buf.drop (offset + 8 + lenAt buf offset)).take 4)) (offset + lenAt buf offset + 12)) := by
  have hend : offset + 8 + lenAt buf offset + 4 = offset + lenAt buf offset + 12 := by omega
  have hchecksum : offset + lenAt buf offset + 12 - (offset + 8 + lenAt buf offset) = 4 := by omega
  rw [round_of_header hbuf hheader, add_of_lt (by omega), Option.bind_eq_bind, Option.bind_some,
    add_of_lt (by omega), Option.bind_eq_bind, Option.bind_some, if_neg (by omega),
    slice_of_le (by omega) (by omega), slice_of_le (by omega) (by omega), hend, hchecksum, Nat.add_sub_cancel_left]
  rfl

theorem round_of_cut (hbuf : buf.length < 2 ^ 63) (hheader : offset + 8 ≤ buf.length)
    (hcut : buf.length < offset + lenAt buf offset + 12) (hsum : offset + lenAt buf offset + 12 < 2 ^ 64) :
    round checks buf offset = some .stop := by
  rw [round_of_header hbuf hheader, add_of_lt (by omega), Option.bind_eq_bind, Option.bind_some,
    add_of_lt (by omega), Option.bind_eq_bind, Option.bind_some, if_pos (by omega)]

theorem round_of_overflow (hbuf : buf.length < 2 ^ 63) (hheader : offset + 8 ≤ buf.length)
    (hsum : 2 ^ 64 ≤ offset + lenAt buf offset + 12) : round true buf offset = none := by
  rw [round_of_header hbuf hheader]
  by_cases hdata : offset + 8 + lenAt buf offset < 2 ^ 64
  · rw [add_of_lt hdata, Option.bind_eq_bind, Option.bind_some, add_of_le (by omega)]
    rfl
  · rw [add_of_le (by omega)]
    rfl

end

/-- At every header that the frames before it lead to, the end of the frame is a `usize`. -/
def SumsFit (buf : List UInt8) : Prop :=
  ∀ offset, Start buf offset → offset + 8 ≤ buf.length → offset + lenAt buf offset + 12 < 2 ^ 64

section

variable {checks : Bool} {codec : WalCodec} {buf : List UInt8} {offset : Nat} {done : List Table × List WalRecord}

/-- Where no sum overflows, the loop takes the frames of the buffer one after the other. -/
theorem replayFrom_eq_split (hbuf : buf.length < 2 ^ 63) (hsums : SumsFit buf) (hstart : Start buf offset) :
    replayFrom checks codec buf offset done = some ((split (buf.drop offset)).foldl (applyFrame codec) done) := by
  induction hrest : buf.length - offset using Nat.strong_induction_on generalizing offset done with
  | _ rest ih =>
      have hoffset := hstart.le_length
      by_cases hheader : offset + 8 ≤ buf.length
      · by_cases hframe : offset + lenAt buf offset + 12 ≤ buf.length
        · have hnext := hstart.next hheader hframe
          rw [replayFrom_of_frame (round_of_fits hbuf hheader hframe), ih _ (by omega) hnext rfl,
            split_drop_of_fits hheader hframe, List.foldl_cons]
        · have hcut : buf.length < offset + lenAt buf offset + 12 := Nat.lt_of_not_le hframe
          rw [replayFrom_of_stop (round_of_cut hbuf hheader hcut (hsums offset hstart hheader)), split_of_cut]
          · rfl
          · rw [List.length_drop, lenAt_drop]
            omega
      · rw [replayFrom_of_stop (round_of_lt hbuf hoffset (Nat.lt_of_not_le hheader)), split_of_short]
        · rfl
        · rw [List.length_drop]
          omega

/-- The loop gets to every start of a frame. -/
theorem replayFrom_of_start (hbuf : buf.length < 2 ^ 63) (hstart : Start buf offset) (done : List Table × List WalRecord) :
    ∃ reached, replayFrom checks codec buf 0 done = replayFrom checks codec buf offset reached := by
  induction hstart with
  | first => exact ⟨done, rfl⟩
  | next _ hheader hframe ih =>
      obtain ⟨reached, hreached⟩ := ih
      exact ⟨_, hreached.trans (replayFrom_of_frame (round_of_fits hbuf hheader hframe))⟩

end

section

variable {codec : WalCodec} {tables : List Table} {buf : WalBuffer}

theorem replayWalBuf_eq_split (hsums : SumsFit buf.bytes) (checks : Bool) :
    replayWalBuf checks codec tables buf = some ((split buf.bytes).foldl (applyFrame codec) (tables, [])) :=
  replayFrom_eq_split buf.length_lt hsums .first

/-- Replay returns, with overflow checks and without, exactly where no sum of an offset and a length that it gets to
overflows. -/
theorem replayWalBuf_isSome_iff :
    (∀ checks, (replayWalBuf checks codec tables buf).isSome = true) ↔ SumsFit buf.bytes := by
  constructor
  · intro h offset hstart hheader
    by_contra hsum
    obtain ⟨reached, hreached⟩ := replayFrom_of_start buf.length_lt hstart (tables, [])
    have hnone : replayWalBuf true codec tables buf = none := by
      rw [replayWalBuf, hreached]
      exact replayFrom_of_none (round_of_overflow buf.length_lt hheader (Nat.le_of_not_lt hsum))
    have hsome := h true
    rw [hnone] at hsome
    cases hsome
  · intro hsums checks
    rw [replayWalBuf_eq_split hsums checks]
    rfl

end

/-- A buffer of one header with the highest length, and four bytes. -/
def highestLength : WalBuffer := { bytes := List.replicate 8 255 ++ List.replicate 4 0, length_lt := by decide }

theorem not_replayWalBuf_isSome :
    ¬ ∀ (checks : Bool) (codec : WalCodec) (tables : List Table) (buf : WalBuffer),
      (replayWalBuf checks codec tables buf).isSome = true := by
  intro h
  have hnone : ∀ checks, round checks highestLength.bytes 0 = none := by
    intro checks
    cases checks <;> rfl
  have hsome := h true { serialize := fun _ => [], deserialize := fun _ => none, hash := fun _ => 0 } [] highestLength
  rw [replayWalBuf, replayFrom_of_none (hnone true)] at hsome
  cases hsome

end WalBuffer

end HelionDb
