import HelionDb.WalBuffer

/-! What replay gives back of the records that were appended. A record is there exactly where its frame is, from the length
to the checksum, and where the data in it has not been changed so that the checksum tells. -/

namespace HelionDb

open Frames

namespace WalBuffer

/-- The first bytes of a file. -/
def truncate (buf : WalBuffer) (room : Nat) : WalBuffer :=
  { bytes := buf.bytes.take room
    length_lt := (List.length_take_le' room buf.bytes).trans_lt buf.length_lt }

@[simp] theorem bytes_truncate (buf : WalBuffer) (room : Nat) : (buf.truncate room).bytes = buf.bytes.take room := rfl

end WalBuffer

namespace WalCodec

variable (codec : WalCodec)

/-- `WalWriter::append`: the bytes of the file behind the ones that it has. -/
def append (file : List UInt8) (record : WalRecord) : List UInt8 :=
  file ++ leBytes 8 (codec.serialize record).length ++ codec.serialize record ++
    leBytes 4 (codec.hash (codec.serialize record)).toNat

/-- The file after some records. -/
def appendAll (records : List WalRecord) : List UInt8 := records.foldl codec.append []

/-- The length of the frame of a record. -/
def frameLength (record : WalRecord) : Nat := (codec.serialize record).length + 12

/-- A record in the log, with the data that its frame has by now: what was written, or other bytes of the same length with
another checksum. -/
structure LoggedRecord where
  record : WalRecord
  data : List UInt8
  length_eq : data.length = (codec.serialize record).length
  told : data = codec.serialize record ∨ codec.hash data ≠ codec.hash (codec.serialize record)

end WalCodec

namespace WalCodec

variable {codec : WalCodec}

namespace LoggedRecord

/-- The data as it is now, with the checksum as it was written. -/
def frame (logged : codec.LoggedRecord) : List UInt8 × Nat :=
  (logged.data, (codec.hash (codec.serialize logged.record)).toNat)

/-- The data is the one that was written. -/
def Intact (logged : codec.LoggedRecord) : Prop := logged.data = codec.serialize logged.record

instance (logged : codec.LoggedRecord) : Decidable logged.Intact :=
  inferInstanceAs (Decidable (logged.data = codec.serialize logged.record))

/-- A record as it was written. -/
def written (codec : WalCodec) (record : WalRecord) : codec.LoggedRecord :=
  { record, data := codec.serialize record, length_eq := rfl, told := .inl rfl }

/-- The bytes of the log by now. -/
def bytesOf (log : List codec.LoggedRecord) : List UInt8 := encode (log.map frame)

/-- The records whose frames are complete in the first bytes and intact. -/
def readable (room : Nat) (log : List codec.LoggedRecord) : List WalRecord :=
  ((inside (fun logged => codec.frameLength logged.record) room log).filter (·.Intact)).map (·.record)

theorem bytesOf_cons (logged : codec.LoggedRecord) (rest : List codec.LoggedRecord) :
    bytesOf (logged :: rest) = Frames.frame logged.data (codec.hash (codec.serialize logged.record)).toNat ++ bytesOf rest :=
  encode_cons _ _

theorem appendAll_eq_bytesOf (records : List WalRecord) : codec.appendAll records = bytesOf (records.map (written codec)) := by
  have hfrom : ∀ file, records.foldl codec.append file = file ++ bytesOf (records.map (written codec)) := by
    induction records with
    | nil =>
        intro file
        exact (List.append_nil file).symm
    | cons record rest ih =>
        intro file
        rw [List.foldl_cons, ih, List.map_cons, bytesOf_cons, append, Frames.frame]
        simp only [List.append_assoc]
        rfl
  exact hfrom []

theorem fit_frames {log : List codec.LoggedRecord} (hbytes : (bytesOf log).length < 2 ^ 63) : Fit (log.map frame) := by
  induction log with
  | nil => exact fun _ h => by cases h
  | cons logged rest ih =>
      rw [bytesOf_cons, List.length_append, length_frame] at hbytes
      rw [List.map_cons, Fit, List.forall_mem_cons]
      refine ⟨⟨?_, ?_⟩, ih (by omega)⟩
      · change logged.data.length < 256 ^ 8
        omega
      · exact (codec.hash (codec.serialize logged.record)).toNat_lt

/-- The records that are taken from some frames: those that are intact. -/
theorem foldl_applyFrame {log : List codec.LoggedRecord}
    (hcodec : ∀ logged ∈ log, codec.deserialize (codec.serialize logged.record) = some logged.record)
    (done : List Table × List WalRecord) :
    (log.map frame).foldl (WalBuffer.applyFrame codec) done =
      (replayRecords done.1 ((log.filter (·.Intact)).map (·.record)), done.2 ++ (log.filter (·.Intact)).map (·.record)) := by
  induction log generalizing done with
  | nil => simp [replayRecords]
  | cons logged rest ih =>
      obtain ⟨hlogged, hrest⟩ := List.forall_mem_cons.mp hcodec
      rw [List.map_cons, List.foldl_cons, ih hrest]
      by_cases hintact : logged.Intact
      · have htaken : WalBuffer.applyFrame codec done logged.frame =
            (applyWalRecord done.1 logged.record, done.2 ++ [logged.record]) := by
          have hdata : logged.data = codec.serialize logged.record := hintact
          simp [WalBuffer.applyFrame, frame, hdata, hlogged]
        rw [htaken, List.filter_cons_of_pos (by simpa using hintact), List.map_cons, List.append_assoc]
        rfl
      · have htold := logged.told.resolve_left hintact
        have hskipped : WalBuffer.applyFrame codec done logged.frame = done := by
          apply if_pos
          intro hsame
          exact htold (UInt32.toNat_inj.mp hsame.symm)
        rw [hskipped, List.filter_cons_of_neg (by simpa using hintact)]

theorem sumsFit_truncate {log : List codec.LoggedRecord} {file : WalBuffer} (hfile : file.bytes = bytesOf log) (room : Nat) :
    WalBuffer.SumsFit (file.truncate room).bytes := by
  have hbytes : (bytesOf log).length < 2 ^ 63 := hfile ▸ file.length_lt
  rw [WalBuffer.bytes_truncate, hfile, bytesOf]
  intro offset hstart hheader
  have hle := hstart.add_lenAt_le (fit_frames hbytes) hheader
  have hlength : (encode (log.map frame)).length < 2 ^ 63 := hbytes
  omega

/-- Replay of what is left of a log takes the intact records whose frames are complete. -/
theorem replayWalBuf_bytesOf {log : List codec.LoggedRecord}
    (hcodec : ∀ logged ∈ log, codec.deserialize (codec.serialize logged.record) = some logged.record)
    {file : WalBuffer} (hfile : file.bytes = bytesOf log) (checks : Bool) (tables : List Table) (room : Nat) :
    WalBuffer.replayWalBuf checks codec tables (file.truncate room) =
      some (replayRecords tables (readable room log), readable room log) := by
  have hbytes : (bytesOf log).length < 2 ^ 63 := hfile ▸ file.length_lt
  have hsize : (fun logged : codec.LoggedRecord => logged.frame.1.length + 12) =
      fun logged => codec.frameLength logged.record := by
    funext logged
    exact congrArg (· + 12) logged.length_eq
  have hsplit : split (file.truncate room).bytes =
      (inside (fun logged => codec.frameLength logged.record) room log).map frame := by
    rw [WalBuffer.bytes_truncate, hfile, bytesOf, split_take_encode (fit_frames hbytes), inside_map, hsize]
  rw [WalBuffer.replayWalBuf_eq_split (sumsFit_truncate hfile room), hsplit, foldl_applyFrame]
  · rfl
  · intro logged hlogged
    exact hcodec logged (mem_of_mem_inside hlogged)

end LoggedRecord

open LoggedRecord

/-- Of a file of appended records that ends anywhere, replay gives the records whose frames are complete; and where the data
of some frames has other checksums by now, it gives the others of them. -/
theorem replayWalBuf_appendAll {records : List WalRecord}
    (hcodec : ∀ record ∈ records, codec.deserialize (codec.serialize record) = some record) (checks : Bool)
    (tables : List Table) (room : Nat) :
    (∀ file : WalBuffer, file.bytes = codec.appendAll records →
      WalBuffer.replayWalBuf checks codec tables (file.truncate room) =
        some (replayRecords tables (inside codec.frameLength room records), inside codec.frameLength room records)) ∧
      ∀ log : List codec.LoggedRecord, log.map (·.record) = records →
        ∀ file : WalBuffer, file.bytes = bytesOf log →
          WalBuffer.replayWalBuf checks codec tables (file.truncate room) =
            some (replayRecords tables (readable room log), readable room log) := by
  constructor
  · intro file hfile
    have hlogged : ∀ logged ∈ records.map (written codec),
        codec.deserialize (codec.serialize logged.record) = some logged.record := by
      intro logged hmem
      obtain ⟨record, hrecord, rfl⟩ := List.mem_map.mp hmem
      exact hcodec record hrecord
    have hleft := replayWalBuf_bytesOf hlogged (hfile.trans (appendAll_eq_bytesOf records)) checks tables room
    have hall : readable room (records.map (written codec)) = inside codec.frameLength room records := by
      rw [readable, inside_map, List.filter_eq_self.mpr]
      · exact (List.map_map).trans (List.map_id _)
      · intro logged hmem
        obtain ⟨record, -, rfl⟩ := List.mem_map.mp hmem
        exact decide_eq_true rfl
    rwa [hall] at hleft
  · rintro log rfl file hfile
    exact replayWalBuf_bytesOf (fun logged hmem => hcodec _ (List.mem_map_of_mem hmem)) hfile checks tables room

/-! ### Two commits -/

/-- A bit of `crc32fast::hash`. -/
def crcBit (crc : UInt32) : UInt32 := if crc &&& 1 = 1 then (crc >>> 1) ^^^ 0xEDB88320 else crc >>> 1

/-- The checksum of the log, and commits as `bincode` writes them: the number of the variant and the transaction. -/
def ofCommits : WalCodec where
  serialize
    | .commit txid => leBytes 4 5 ++ leBytes 8 txid
    | _ => []
  deserialize data :=
    if data.length = 12 ∧ data.take 4 = leBytes 4 5 then some (.commit (leValue (data.drop 4))) else none
  hash data := data.foldl (fun crc byte => crcBit^[8] (crc ^^^ byte.toUInt32)) 0xFFFFFFFF ^^^ 0xFFFFFFFF

/-- The first of two commits, with another transaction by now. -/
def ofCommits.changed : ofCommits.LoggedRecord where
  record := .commit 1
  data := leBytes 4 5 ++ leBytes 8 3
  length_eq := rfl
  told := .inr (by decide +kernel)

/-- The second commit is cut off, and then the first one is changed. -/
theorem replayWalBuf_twoCommits :
    WalBuffer.replayWalBuf true ofCommits []
        (WalBuffer.truncate ⟨ofCommits.appendAll [.commit 1, .commit 2], by decide⟩ 30) = some ([], [.commit 1]) ∧
      WalBuffer.replayWalBuf true ofCommits []
        (WalBuffer.truncate ⟨bytesOf [ofCommits.changed, written ofCommits (.commit 2)], by decide⟩ 48) =
          some ([], [.commit 2]) := by
  have hcodec : ∀ record ∈ [WalRecord.commit 1, .commit 2],
      ofCommits.deserialize (ofCommits.serialize record) = some record := by decide
  constructor
  · exact (replayWalBuf_appendAll hcodec true [] 30).1 _ rfl
  · exact (replayWalBuf_appendAll hcodec true [] 48).2 [ofCommits.changed, written ofCommits (.commit 2)] rfl _ rfl

end WalCodec

end HelionDb
