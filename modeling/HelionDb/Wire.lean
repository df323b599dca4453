import HelionDb.LengthFrames
import HelionDb.StreamIsolation

/-! The bytes of the streams of `session.rs`. A client writes each message as a frame, the bytes arrive in pieces of any
size among those of other streams, and the task of a stream takes a message off once it is there as a whole. The server that
handles messages is the one of `Server`: how bytes are cut up and mixed decides about the order of the streams only, and on
one stream the messages are handled as they were written. -/

namespace HelionDb

/-- What `bincode` makes of messages. Nothing reads the token that a message carries. -/
class Bincode where
  serialize : ClientMessage → (token : UInt64) → List UInt8
  deserialize : List UInt8 → Option ClientMessage
  serializeReply : ServerMessage → List UInt8

namespace PlainText

open Frames (leBytes leValue)

/-- A text in ASCII behind its length. -/
def textBytes (text : String) : List UInt8 :=
  leBytes 8 text.toList.length ++ text.toList.map fun letter => UInt8.ofNat letter.toNat

/-- The number of texts, and the texts. -/
def textsBytes (texts : List String) : List UInt8 := leBytes 8 texts.length ++ texts.flatMap textBytes

/-- A text that may be missing. -/
def optionBytes : Option String → List UInt8
  | none => [0]
  | some text => 1 :: textBytes text

/-- The text at the front of some bytes. -/
def takeText (bytes : List UInt8) : Option (String × List UInt8) :=
  let length := leValue (bytes.take 8)
  if 8 + length ≤ bytes.length then
    some (String.ofList (((bytes.drop 8).take length).map fun byte => Char.ofNat byte.toNat), bytes.drop (8 + length))
  else none

/-- Messages of texts in ASCII, without statements to execute; opened where runs are evaluated. -/
scoped instance bincode : Bincode where
  serialize
    | .query sql, token => leBytes 4 0 ++ textBytes sql ++ leBytes 8 token.toNat
    | .prepare sql, token => leBytes 4 1 ++ textBytes sql ++ leBytes 8 token.toNat
    | .execute preparedId params, token =>
        leBytes 4 2 ++ leBytes 8 preparedId.toNat ++ textsBytes params ++ leBytes 8 token.toNat
    | .auth username password database, _ => leBytes 4 3 ++ textBytes username ++ textBytes password ++ textBytes database
    | .structuredQuery queryJson, token => leBytes 4 4 ++ textBytes queryJson ++ leBytes 8 token.toNat
  deserialize bytes :=
    (takeText (bytes.drop 4)).bind fun first =>
      match leValue (bytes.take 4) with
      | 0 => some (.query first.1)
      | 1 => some (.prepare first.1)
      | 3 => (takeText first.2).bind fun second => (takeText second.2).map fun third => .auth first.1 second.1 third.1
      | 4 => some (.structuredQuery first.1)
      | _ => none
  serializeReply
    | .queryResult columns rows rowsAffected error =>
        leBytes 4 0 ++ textsBytes columns ++ leBytes 8 rows.length ++ rows.flatMap textsBytes ++ leBytes 8 rowsAffected ++
          optionBytes error
    | .prepared id => leBytes 4 1 ++ leBytes 8 id.toNat
    | .error message => leBytes 4 2 ++ textBytes message
    | .authResult success token error => leBytes 4 3 ++ [if success then 1 else 0] ++ leBytes 8 token.toNat ++ optionBytes error
    | .structuredResult dataJson error => leBytes 4 4 ++ textBytes dataJson ++ optionBytes error

end PlainText

section

variable [Bincode]

/-- `write_message` of `conn.rs`; the length is a `u32`. -/
def writeMessage (written : ClientMessage × UInt64) : List UInt8 :=
  LengthFrames.frame 4 (Bincode.serialize written.1 written.2)

/-- `send_server_message`. -/
def sendServerMessage (reply : ServerMessage) : List UInt8 := LengthFrames.frame 4 (Bincode.serializeReply reply)

/-- Where the task of a stream is when it wants a message. -/
inductive Reading where
  | waiting
  | failed
  | message (msg : ClientMessage) (rest : List UInt8)

/-- `read_client_message` and `read_client_message_raw` on what has arrived. -/
def readClientMessage (inbox : List UInt8) (finished : Bool) : Reading :=
  match LengthFrames.next 4 inbox with
  | none => if finished then .failed else .waiting
  | some (data, rest) =>
      match Bincode.deserialize data with
      | some msg => .message msg rest
      | none => .failed

end

/-- A server with the bytes of its streams: those that have arrived and are not read, whether more can come, and those that
were sent. -/
structure Wire where
  server : Server
  inbox : Nat × Nat → List UInt8
  finished : Nat × Nat → Bool
  outbox : Nat × Nat → List UInt8

/-- What happens to it. -/
inductive WireEvent where
  | connect (peerCertDer : Option (List UInt8))
  | acceptBi (connection : Nat)
  | arrive (connection stream : Nat) (bytes : List UInt8)
  | finish (connection stream : Nat)
  | resume (connection stream : Nat) (draws : Draws)

namespace Wire

section

variable [CaseMapping] [Rendering] [SqlText] [StructuredText] [Certificates] [Bincode] (argon2 : Argon2)

/-- What a task that goes on reads; a task has ended with its stream. -/
def reading (wire : Wire) (connection stream : Nat) : Reading :=
  match wire.server.connections[connection]?.bind fun conn => conn.streams[stream]? with
  | none | some .closed => .waiting
  | some _ => readClientMessage (wire.inbox (connection, stream)) (wire.finished (connection, stream))

/-- What an event is to the server behind the bytes. -/
def eventOf (wire : Wire) : WireEvent → Option ServerEvent
  | .connect peerCertDer => some (.connect peerCertDer)
  | .acceptBi connection => some (.acceptBi connection)
  | .arrive _ _ _ | .finish _ _ => none
  | .resume connection stream draws =>
      match wire.reading connection stream with
      | .waiting => none
      | .failed => some (.readError connection stream)
      | .message msg _ => some (.receive connection stream msg draws)

/-- The bytes that are left when an event is over. -/
def inboxAfter (wire : Wire) : WireEvent → Nat × Nat → List UInt8
  | .arrive connection stream bytes =>
      Function.update wire.inbox (connection, stream) (wire.inbox (connection, stream) ++ bytes)
  | .resume connection stream _ =>
      match wire.reading connection stream with
      | .message _ rest => Function.update wire.inbox (connection, stream) rest
      | _ => wire.inbox
  | _ => wire.inbox

/-- The reply to an event goes out on its stream. -/
def outboxAfter (wire : Wire) : Option ServerEvent → Nat × Nat → List UInt8
  | some (.receive connection stream msg draws) =>
      match (wire.server.step argon2 (.receive connection stream msg draws)).reply with
      | some reply => Function.update wire.outbox (connection, stream)
          (wire.outbox (connection, stream) ++ sendServerMessage reply)
      | none => wire.outbox
  | _ => wire.outbox

/-- The server and its bytes behind an event. -/
def next (wire : Wire) (event : WireEvent) : Wire where
  server :=
    match wire.eventOf event with
    | some serverEvent => wire.server.next argon2 serverEvent
    | none => wire.server
  inbox := wire.inboxAfter event
  finished :=
    match event with
    | .finish connection stream => Function.update wire.finished (connection, stream) true
    | _ => wire.finished
  outbox := wire.outboxAfter argon2 (wire.eventOf event)

/-- What a run is to the server behind the bytes. -/
def eventsOf : Wire → List WireEvent → List ServerEvent
  | _, [] => []
  | wire, event :: rest => (wire.eventOf event).toList ++ eventsOf (wire.next argon2 event) rest

end

/-- The bytes that an event brings to a stream. -/
def bytesOn (connection stream : Nat) : WireEvent → List UInt8
  | .arrive other otherStream bytes => if (other, otherStream) = (connection, stream) then bytes else []
  | _ => []

/-- The bytes that arrive on a stream. -/
def arrivedOn (connection stream : Nat) (events : List WireEvent) : List UInt8 := events.flatMap (bytesOn connection stream)

end Wire

namespace Server

/-- The message that an event brings to a stream. -/
def messageOn (connection stream : Nat) : ServerEvent → Option ClientMessage
  | .receive other otherStream msg _ => if (other, otherStream) = (connection, stream) then some msg else none
  | _ => none

/-- The messages that a stream handles. -/
def receivedOn (connection stream : Nat) (events : List ServerEvent) : List ClientMessage :=
  events.filterMap (messageOn connection stream)

section

variable [CaseMapping] [Rendering] [SqlText] [StructuredText] [Certificates] (argon2 : Argon2)

/-- The reply of a stream to the message that an event brings to it. -/
def replyOn (server : Server) (connection stream : Nat) (event : ServerEvent) : Option ServerMessage :=
  (messageOn connection stream event).bind fun _ => (server.step argon2 event).reply

/-- The replies to the messages of a stream. -/
def repliesOn (connection stream : Nat) : Server → List ServerEvent → List ServerMessage
  | _, [] => []
  | server, event :: rest =>
      (server.replyOn argon2 connection stream event).toList ++ repliesOn connection stream (server.next argon2 event) rest

end

end Server

/-! ### One event -/

namespace Wire

section

variable [Bincode] {wire : Wire} {connection stream : Nat}

theorem readClientMessage_message {inbox rest : List UInt8} {finished : Bool} {msg : ClientMessage}
    (h : readClientMessage inbox finished = .message msg rest) :
    ∃ data, LengthFrames.next 4 inbox = some (data, rest) ∧ Bincode.deserialize data = some msg := by
  unfold readClientMessage at h
  cases hnext : LengthFrames.next 4 inbox with
  | none =>
      rw [hnext] at h
      cases finished <;> cases h
  | some found =>
      obtain ⟨data, behind⟩ := found
      rw [hnext] at h
      dsimp only at h
      cases hdata : Bincode.deserialize data with
      | none =>
          rw [hdata] at h
          cases h
      | some decoded =>
          rw [hdata] at h
          obtain ⟨rfl, rfl⟩ := Reading.message.inj h
          exact ⟨data, rfl, hdata⟩

theorem reading_message {rest : List UInt8} {msg : ClientMessage} (h : wire.reading connection stream = .message msg rest) :
    ∃ data, LengthFrames.next 4 (wire.inbox (connection, stream)) = some (data, rest) ∧
      Bincode.deserialize data = some msg := by
  unfold reading at h
  split at h
  · cases h
  · cases h
  · exact readClientMessage_message h

variable [CaseMapping] [Rendering] [SqlText] [StructuredText] [Certificates] {argon2 : Argon2}

/-- An event brings bytes to a stream, or it takes the first message off the bytes that are there, or neither. -/
theorem inbox_next (wire : Wire) (event : WireEvent) :
    (Server.receivedOn connection stream (wire.eventOf event).toList = [] ∧
      (wire.next argon2 event).inbox (connection, stream) =
        wire.inbox (connection, stream) ++ bytesOn connection stream event) ∨
    ∃ msg rest, wire.reading connection stream = .message msg rest ∧ bytesOn connection stream event = [] ∧
      Server.receivedOn connection stream (wire.eventOf event).toList = [msg] ∧
      (wire.next argon2 event).inbox (connection, stream) = rest := by
  cases event with
  | connect peerCertDer => exact .inl ⟨rfl, (List.append_nil _).symm⟩
  | acceptBi other => exact .inl ⟨rfl, (List.append_nil _).symm⟩
  | finish other otherStream => exact .inl ⟨rfl, (List.append_nil _).symm⟩
  | arrive other otherStream bytes =>
      refine .inl ⟨rfl, ?_⟩
      show Function.update wire.inbox (other, otherStream) _ (connection, stream) = _
      unfold bytesOn
      dsimp only
      by_cases hsame : (other, otherStream) = (connection, stream)
      · rw [hsame, Function.update_self, if_pos rfl]
      · rw [Function.update_of_ne (Ne.symm hsame), if_neg hsame, List.append_nil]
  | resume other otherStream draws =>
      have hinbox : (wire.next argon2 (.resume other otherStream draws)).inbox =
          wire.inboxAfter (.resume other otherStream draws) := rfl
      rw [hinbox]
      unfold inboxAfter eventOf
      dsimp only
      cases hreading : wire.reading other otherStream with
      | waiting => exact .inl ⟨rfl, (List.append_nil _).symm⟩
      | failed => exact .inl ⟨rfl, (List.append_nil _).symm⟩
      | message msg rest =>
          dsimp only
          by_cases hsame : (other, otherStream) = (connection, stream)
          · right
            obtain ⟨rfl, rfl⟩ := Prod.mk.inj hsame
            refine ⟨msg, rest, hreading, rfl, ?_, Function.update_self _ _ _⟩
            simp [Server.receivedOn, Server.messageOn]
          · left
            refine ⟨?_, ?_⟩
            · simp only [Server.receivedOn, Server.messageOn, if_neg hsame, Option.toList_some, List.filterMap_cons_none,
                List.filterMap_nil]
            · rw [Function.update_of_ne (Ne.symm hsame)]
              exact (List.append_nil _).symm

/-- What goes out on a stream is its reply. -/
theorem outbox_next (wire : Wire) (event : WireEvent) :
    (wire.next argon2 event).outbox (connection, stream) = wire.outbox (connection, stream) ++
      (((wire.eventOf event).bind (wire.server.replyOn argon2 connection stream)).toList.flatMap sendServerMessage) := by
  show wire.outboxAfter argon2 (wire.eventOf event) (connection, stream) = _
  cases wire.eventOf event with
  | none => exact (List.append_nil _).symm
  | some serverEvent =>
      cases serverEvent with
      | connect peerCertDer => exact (List.append_nil _).symm
      | acceptBi other => exact (List.append_nil _).symm
      | readError other otherStream => exact (List.append_nil _).symm
      | receive other otherStream msg draws =>
          unfold outboxAfter
          rw [Option.bind_some, Server.replyOn, Server.messageOn]
          dsimp only
          by_cases hsame : (other, otherStream) = (connection, stream)
          · rw [if_pos hsame, Option.bind_some]
            cases (wire.server.step argon2 (.receive other otherStream msg draws)).reply with
            | none => exact (List.append_nil _).symm
            | some reply =>
                dsimp only
                rw [hsame, Function.update_self]
                simp
          · rw [if_neg hsame, Option.bind_none]
            cases (wire.server.step argon2 (.receive other otherStream msg draws)).reply with
            | none => exact (List.append_nil _).symm
            | some reply =>
                dsimp only
                rw [Function.update_of_ne (Ne.symm hsame)]
                exact (List.append_nil _).symm

/-! ### Runs -/

/-- The server behind the bytes is the one that handles the events. -/
theorem server_run (wire : Wire) (events : List WireEvent) :
    (events.foldl (Wire.next argon2) wire).server =
      (wire.eventsOf argon2 events).foldl (Server.next argon2) wire.server := by
  induction events generalizing wire with
  | nil => rfl
  | cons event rest ih =>
      rw [List.foldl_cons, ih, eventsOf, List.foldl_append]
      apply congrArg (List.foldl _ · _)
      show (Wire.next argon2 wire event).server = _
      unfold Wire.next
      dsimp only
      cases wire.eventOf event with
      | none => rfl
      | some serverEvent => rfl

/-- A stream sends its replies one after the other. -/
theorem outbox_run (wire : Wire) (events : List WireEvent) :
    (events.foldl (Wire.next argon2) wire).outbox (connection, stream) = wire.outbox (connection, stream) ++
      (Server.repliesOn argon2 connection stream wire.server (wire.eventsOf argon2 events)).flatMap sendServerMessage := by
  induction events generalizing wire with
  | nil => exact (List.append_nil _).symm
  | cons event rest ih =>
      rw [List.foldl_cons, ih, outbox_next, List.append_assoc, eventsOf]
      apply congrArg
      have hserver := @server_run _ _ _ _ _ _ argon2 wire [event]
      rw [List.foldl_cons, List.foldl_nil, eventsOf, eventsOf, List.append_nil] at hserver
      rw [hserver]
      cases wire.eventOf event with
      | none => rfl
      | some serverEvent =>
          rw [Option.bind_some, Option.toList_some, List.singleton_append, Server.repliesOn, List.flatMap_append]
          rfl

omit [CaseMapping] [Rendering] [SqlText] [StructuredText] [Certificates] in
theorem flatMap_writeMessage (written : List (ClientMessage × UInt64)) :
    written.flatMap writeMessage =
      LengthFrames.encode 4 (written.map fun message => Bincode.serialize message.1 message.2) := by
  rw [LengthFrames.encode, List.flatMap_map]
  rfl

omit [CaseMapping] [Rendering] [SqlText] [StructuredText] [Certificates] in
theorem fits_of_room {written : List (ClientMessage × UInt64)}
    (hroom : ∀ message ∈ written, (Bincode.serialize message.1 message.2).length < 2 ^ 32) :
    ∀ data ∈ written.map fun message => Bincode.serialize message.1 message.2, data.length < 256 ^ 4 := by
  intro data hmem
  obtain ⟨message, hmessage, rfl⟩ := List.mem_map.mp hmem
  exact hroom message hmessage

omit [CaseMapping] [Rendering] [SqlText] [StructuredText] [Certificates] in
/-- The message that is taken off is the one written first. -/
theorem reading_written {written : List (ClientMessage × UInt64)} {coming rest : List UInt8} {msg : ClientMessage}
    (hroom : ∀ message ∈ written, (Bincode.serialize message.1 message.2).length < 2 ^ 32)
    (hcodec : ∀ message ∈ written, Bincode.deserialize (Bincode.serialize message.1 message.2) = some message.1)
    (hbytes : wire.inbox (connection, stream) ++ coming = written.flatMap writeMessage)
    (hreading : wire.reading connection stream = .message msg rest) :
    ∃ token others, written = (msg, token) :: others ∧ rest ++ coming = others.flatMap writeMessage := by
  obtain ⟨data, hnext, hdata⟩ := reading_message hreading
  rw [flatMap_writeMessage] at hbytes
  obtain ⟨others, hothers, hrest⟩ := LengthFrames.next_of_encode (by decide) (fits_of_room hroom) hbytes hnext
  obtain ⟨first, behind, rfl, hfirst, rfl⟩ := List.map_eq_cons_iff.mp hothers
  have hdecoded := hcodec first List.mem_cons_self
  rw [hfirst, hdata] at hdecoded
  obtain rfl := Option.some.inj hdecoded
  exact ⟨first.2, behind, rfl, hrest.trans (flatMap_writeMessage behind).symm⟩

omit [CaseMapping] [Rendering] [SqlText] [StructuredText] [Certificates] in
/-- Reading what was written does not fail before the end of the stream. -/
theorem reading_ne_failed {written : List (ClientMessage × UInt64)} {coming : List UInt8}
    (hroom : ∀ message ∈ written, (Bincode.serialize message.1 message.2).length < 2 ^ 32)
    (hcodec : ∀ message ∈ written, Bincode.deserialize (Bincode.serialize message.1 message.2) = some message.1)
    (hbytes : wire.inbox (connection, stream) ++ coming = written.flatMap writeMessage)
    (hopen : wire.finished (connection, stream) = false) : wire.reading connection stream ≠ .failed := by
  intro hfailed
  unfold reading at hfailed
  split at hfailed
  · cases hfailed
  · cases hfailed
  · unfold readClientMessage at hfailed
    rw [hopen] at hfailed
    cases hnext : LengthFrames.next 4 (wire.inbox (connection, stream)) with
    | none =>
        rw [hnext] at hfailed
        cases hfailed
    | some found =>
        obtain ⟨data, rest⟩ := found
        rw [flatMap_writeMessage] at hbytes
        obtain ⟨others, hothers, -⟩ := LengthFrames.next_of_encode (by decide) (fits_of_room hroom) hbytes hnext
        obtain ⟨first, behind, rfl, rfl, -⟩ := List.map_eq_cons_iff.mp hothers
        rw [hnext] at hfailed
        dsimp only at hfailed
        rw [hcodec first List.mem_cons_self] at hfailed
        cases hfailed

/-- A stream stays open through other events than its end. -/
theorem finished_next {event : WireEvent} (hevent : event ≠ .finish connection stream)
    (hopen : wire.finished (connection, stream) = false) :
    (wire.next argon2 event).finished (connection, stream) = false := by
  cases event with
  | connect peerCertDer => exact hopen
  | acceptBi other => exact hopen
  | arrive other otherStream bytes => exact hopen
  | resume other otherStream draws => exact hopen
  | finish other otherStream =>
      have hother : (connection, stream) ≠ (other, otherStream) := by
        intro hsame
        obtain ⟨rfl, rfl⟩ := Prod.mk.inj hsame
        exact hevent rfl
      exact (Function.update_of_ne hother _ _).trans hopen

omit [CaseMapping] [Rendering] [SqlText] [StructuredText] [Certificates] in
theorem eventOf_ne_readError {event : WireEvent} (hreading : wire.reading connection stream ≠ .failed) :
    wire.eventOf event ≠ some (.readError connection stream) := by
  intro hfailed
  cases event with
  | connect peerCertDer => cases hfailed
  | acceptBi other => cases hfailed
  | arrive other otherStream bytes => cases hfailed
  | finish other otherStream => cases hfailed
  | resume other otherStream draws =>
      unfold eventOf at hfailed
      dsimp only at hfailed
      cases hother : wire.reading other otherStream with
      | waiting =>
          rw [hother] at hfailed
          cases hfailed
      | message msg rest =>
          rw [hother] at hfailed
          cases hfailed
      | failed =>
          rw [hother] at hfailed
          cases hfailed
          exact hreading hother

/-- What is written on a stream is what has been handled, what is there, and what is on its way. -/
theorem received_run {written : List (ClientMessage × UInt64)} {inflight : List UInt8}
    (hroom : ∀ message ∈ written, (Bincode.serialize message.1 message.2).length < 2 ^ 32)
    (hcodec : ∀ message ∈ written, Bincode.deserialize (Bincode.serialize message.1 message.2) = some message.1)
    {wire : Wire} {events : List WireEvent}
    (hbytes : wire.inbox (connection, stream) ++ arrivedOn connection stream events ++ inflight =
      written.flatMap writeMessage) :
    ∃ done others, written = done ++ others ∧
      Server.receivedOn connection stream (wire.eventsOf argon2 events) = done.map Prod.fst ∧
      (events.foldl (Wire.next argon2) wire).inbox (connection, stream) ++ inflight = others.flatMap writeMessage ∧
      (wire.finished (connection, stream) = false → (∀ event ∈ events, event ≠ .finish connection stream) →
        ∀ event ∈ wire.eventsOf argon2 events, event ≠ .readError connection stream) := by
  induction events generalizing wire written with
  | nil =>
      refine ⟨[], written, rfl, rfl, ?_, fun _ _ event hevent => by cases hevent⟩
      rw [← hbytes]
      simp [arrivedOn]
  | cons event rest ih =>
      have hevents : arrivedOn connection stream (event :: rest) =
          bytesOn connection stream event ++ arrivedOn connection stream rest := List.flatMap_cons
      rw [hevents] at hbytes
      -- What is left on the stream is open to the rest of the run, and this event does not fail either.
      have hsound (hlater : (Wire.next argon2 wire event).finished (connection, stream) = false →
            (∀ later ∈ rest, later ≠ .finish connection stream) →
              ∀ later ∈ (Wire.next argon2 wire event).eventsOf argon2 rest, later ≠ .readError connection stream)
          (hopen : wire.finished (connection, stream) = false)
          (hends : ∀ later ∈ event :: rest, later ≠ .finish connection stream) :
          ∀ later ∈ (wire.eventOf event).toList ++ (Wire.next argon2 wire event).eventsOf argon2 rest,
            later ≠ .readError connection stream := by
        obtain ⟨hfirst, hrest⟩ := List.forall_mem_cons.mp hends
        intro later hmem
        rcases List.mem_append.mp hmem with hhere | hbehind
        · rintro rfl
          rw [List.append_assoc, List.append_assoc] at hbytes
          exact eventOf_ne_readError (reading_ne_failed hroom hcodec hbytes hopen) (Option.mem_toList.mp hhere)
        · exact hlater (finished_next hfirst hopen) hrest later hbehind
      rw [List.foldl_cons, eventsOf, Server.receivedOn, List.filterMap_append]
      rcases @inbox_next _ connection stream _ _ _ _ _ argon2 wire event with
        ⟨hnone, hinbox⟩ | ⟨msg, behind, hreading, hempty, hone, hinbox⟩
      · have hnext : (Wire.next argon2 wire event).inbox (connection, stream) ++ arrivedOn connection stream rest ++ inflight =
            written.flatMap writeMessage := by
          rw [hinbox, ← hbytes]
          simp only [List.append_assoc]
        obtain ⟨done, others, hwritten, hreceived, hleft, hlater⟩ := ih hroom hcodec hnext
        refine ⟨done, others, hwritten, ?_, hleft, hsound hlater⟩
        rw [← hreceived]
        exact congrArg (· ++ _) hnone
      · have hthere := hbytes
        rw [hempty, List.nil_append, List.append_assoc] at hthere
        obtain ⟨token, behindIt, rfl, hrest⟩ := reading_written hroom hcodec hthere hreading
        rw [← hinbox, ← List.append_assoc] at hrest
        obtain ⟨done, others, rfl, hreceived, hleft, hlater⟩ := ih
          (fun message hmem => hroom message (List.mem_cons_of_mem _ hmem))
          (fun message hmem => hcodec message (List.mem_cons_of_mem _ hmem)) hrest
        refine ⟨(msg, token) :: done, others, rfl, ?_, hleft, hsound hlater⟩
        rw [List.map_cons, ← hreceived]
        exact congrArg (· ++ _) hone

/-- Whatever pieces the bytes of the streams arrive in and however they are mixed, the server is the one that handles the
events behind them, a stream handles messages in the order in which they were written and each of them once, it fails only
behind its end, and it sends the replies of that server. What it has not handled is still there or on its way: once all
bytes have arrived and no message is there as a whole, everything that was written has been handled. -/
theorem run_refines {written : List (ClientMessage × UInt64)}
    (hroom : ∀ message ∈ written, (Bincode.serialize message.1 message.2).length < 2 ^ 32)
    (hcodec : ∀ message ∈ written, Bincode.deserialize (Bincode.serialize message.1 message.2) = some message.1)
    (start : Wire) (events : List WireEvent) (hstart : start.inbox (connection, stream) = [])
    (harrived : arrivedOn connection stream events <+: written.flatMap writeMessage) :
    let last := events.foldl (Wire.next argon2) start
    let handled := start.eventsOf argon2 events
    last.server = handled.foldl (Server.next argon2) start.server ∧
      last.outbox (connection, stream) = start.outbox (connection, stream) ++
        (Server.repliesOn argon2 connection stream start.server handled).flatMap sendServerMessage ∧
      Server.receivedOn connection stream handled <+: written.map Prod.fst ∧
      (start.finished (connection, stream) = false → (∀ event ∈ events, event ≠ .finish connection stream) →
        ∀ event ∈ handled, event ≠ .readError connection stream) ∧
      (arrivedOn connection stream events = written.flatMap writeMessage →
        LengthFrames.next 4 (last.inbox (connection, stream)) = none →
          Server.receivedOn connection stream handled = written.map Prod.fst) := by
  intro last handled
  obtain ⟨inflight, hinflight⟩ := harrived
  have hbytes : start.inbox (connection, stream) ++ arrivedOn connection stream events ++ inflight =
      written.flatMap writeMessage := by
    rw [hstart, List.nil_append, hinflight]
  obtain ⟨done, others, rfl, hreceived, hleft, hsound⟩ :=
    @received_run _ connection stream _ _ _ _ _ argon2 _ _ hroom hcodec _ _ hbytes
  refine ⟨server_run start events, outbox_run start events, ?_, hsound, ?_⟩
  · rw [hreceived, List.map_append]
    exact List.prefix_append _ _
  · intro hall hwaiting
    obtain rfl : inflight = [] := by
      rw [hall] at hinflight
      exact List.append_right_eq_self.mp hinflight
    have hnone : others.map (fun message => Bincode.serialize message.1 message.2) = [] := by
      apply LengthFrames.eq_nil_of_next
      · exact fits_of_room fun message hmessage => hroom message (List.mem_append_right _ hmessage)
      · rw [← flatMap_writeMessage, ← hleft, List.append_nil]
        exact hwaiting
    rw [hreceived, List.map_eq_nil_iff.mp hnone, List.append_nil]

end

section

open scoped AsciiCase PlainText Server.OwnedTable

/-- An Auth and a Query. -/
def greeting : List (ClientMessage × UInt64) := [(.auth "ann" "x" "", 0), (.query "SHOW TABLES", 1)]

/-- Their bytes arrive in two pieces, the first of which ends inside the Auth. -/
def greetingRun : List WireEvent :=
  [.arrive 0 0 ((greeting.flatMap writeMessage).take 9), .resume 0 0 .asGiven,
    .arrive 0 0 ((greeting.flatMap writeMessage).drop 9), .resume 0 0 .asGiven, .resume 0 0 .asGiven]

/-- The two databases with nothing on the way. -/
def quietWire : Wire :=
  { server := Server.neighbours, inbox := fun _ => [], finished := fun _ => false, outbox := fun _ => [] }

theorem run_refines_greeting :
    Server.receivedOn 0 0 (quietWire.eventsOf .plain greetingRun) = greeting.map Prod.fst := by
  have hroom : ∀ message ∈ greeting, (Bincode.serialize message.1 message.2).length < 2 ^ 32 := by decide
  have hcodec : ∀ message ∈ greeting, Bincode.deserialize (Bincode.serialize message.1 message.2) = some message.1 := by
    intro message hmem
    rcases List.mem_cons.mp hmem with rfl | hmem
    · rfl
    · obtain rfl := List.mem_singleton.mp hmem
      rfl
  have harrived : arrivedOn 0 0 greetingRun = greeting.flatMap writeMessage := by decide
  exact (run_refines hroom hcodec quietWire greetingRun rfl ⟨[], by rw [List.append_nil, harrived]⟩).2.2.2.2 harrived
    (by decide)

end

end Wire

end HelionDb
