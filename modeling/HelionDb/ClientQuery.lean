import HelionDb.Wire

/-! A query of the client in `conn.rs`. It opens a stream, authenticates, sends the query when it has a token, and returns
what it reads, or an error where the stream ends before that. Whatever goes on meanwhile on other streams and connections,
the reply to the query is that of one run of the statements, for the user that the Auth was accepted for, on the database of
the Auth as it is at that moment. -/

namespace HelionDb

/-- `query` on the reply to its Auth. -/
def readAuthResult : ServerMessage → Except HelionError UInt64
  | .authResult true token _ => .ok token
  | .authResult false _ (some message) => .error (.auth message)
  | .error message => .error (.auth message)
  | _ => .error (.auth "Unexpected auth response")

/-- `query` on the reply to its Query. -/
def readQueryResult : ServerMessage → Except HelionError QueryResult
  | .queryResult columns rows rowsAffected none => .ok { columns, columnTypes := [], rows, rowsAffected }
  | .queryResult _ _ _ (some message) => .error (.internal message)
  | .error message => .error (.internal message)
  | _ => .error (.internal "Unexpected response")

/-- The error of `read_message` where a stream ends before the length of a message; the text is of the crate `quinn`. -/
def readLengthError (text : String) : HelionError := .protocol ("Read length error: " ++ text)

/-- `read_message` with the replies that came on a stream, and the error where the stream ended; `none` while it waits. -/
def readMessage (ended : Option HelionError) (replies : List ServerMessage) : Option (Except HelionError ServerMessage) :=
  match replies.head? with
  | some reply => some (.ok reply)
  | none => ended.map .error

/-- `ClientConn::query` on the replies of its stream; `none` while it waits for one. -/
def clientQuery (ended : Option HelionError) (replies : List ServerMessage) : Option (Except HelionError QueryResult) :=
  (readMessage ended replies).bind fun auth =>
    match auth >>= readAuthResult with
    | .error err => some (.error err)
    | .ok _ => (readMessage ended replies.tail).map fun reply => reply >>= readQueryResult

/-- With a token it waits for the reply to its Query. -/
theorem clientQuery_accepted (token : UInt64) (ended : Option HelionError) (replies : List ServerMessage) :
    clientQuery ended (.authResult true token none :: replies) =
      (readMessage ended replies).map fun reply => reply >>= readQueryResult := rfl

namespace Server

/-! ### Other streams -/

/-- A connection after messages on its streams, but for the states of the streams. -/
structure KeepsConnection (conn changed : Connection) : Prop where
  streams : changed.streams = conn.streams
  peerCertDer : changed.peerCertDer = conn.peerCertDer
  sessions : changed.sessions = conn.sessions ∨ ∃ username, changed.sessions = (conn.sessions.createSession username).2

theorem KeepsConnection.refl (conn : Connection) : KeepsConnection conn conn := ⟨rfl, rfl, .inl rfl⟩

section

variable [CaseMapping] [Rendering] [SqlText] [StructuredText] [Certificates] {argon2 : Argon2} {server : Server}
  {connection stream : Nat}

/-- A message changes one stream of its connection, and creates a session at most. -/
theorem step_receive (server : Server) (connection stream : Nat) (msg : ClientMessage) (draws : Draws) :
    (server.step argon2 (.receive connection stream msg draws)).server.connections = server.connections ∨
    ∃ conn changed state, server.connections[connection]? = some conn ∧ KeepsConnection conn changed ∧
      (server.step argon2 (.receive connection stream msg draws)).server.connections =
        server.connections.set connection (withStream changed stream state) := by
  rw [step]
  cases hconn : server.connections[connection]? with
  | none => exact .inl rfl
  | some conn =>
      dsimp only
      have hclosed : ∃ original changed state, some conn = some original ∧ KeepsConnection original changed ∧
          server.connections.set connection (withStream conn stream .closed) =
            server.connections.set connection (withStream changed stream state) :=
        ⟨conn, conn, .closed, rfl, .refl conn, rfl⟩
      split
      · unfold handleFirst
        split
        · rename_i username password database
          dsimp only
          split
          · exact .inr hclosed
          · rename_i db hdb
            split
            · exact .inr ⟨conn, { conn with
                sessions := (conn.sessions.createSession (authenticate argon2 conn.peerCertDer username password db).1).2 }, _,
                rfl, ⟨rfl, rfl, .inr ⟨_, rfl⟩⟩, rfl⟩
            · exact .inr hclosed
        · exact .inr hclosed
      · rename_i username token database hstream
        split
        · exact .inl rfl
        · rename_i db hdb
          have hcases :=
            @handleMessage_cases _ _ _ _ argon2 server connection stream conn username token database db draws msg
          split at hcases
          · rename_i nextDatabase hpasses
            rw [hcases]
            exact .inr ⟨conn, { conn with prepared := (processAuthenticatedMessage argon2 draws msg database db conn.sessions
              conn.prepared token username).prepared }, _, rfl, ⟨rfl, rfl, .inl rfl⟩, rfl⟩
          · obtain ⟨reply, hsame | hclosing⟩ := hcases
            · rw [hsame]
              exact .inl rfl
            · rw [hclosing]
              exact .inr hclosed
      · exact .inl rfl

/-- An event is one of a stream. -/
def ServerEvent.IsOn (connection stream : Nat) : ServerEvent → Prop
  | .receive other otherStream _ _ | .readError other otherStream => (other, otherStream) = (connection, stream)
  | _ => False

omit [CaseMapping] [Rendering] [SqlText] [StructuredText] [Certificates] in
/-- What is set in the connection of another stream leaves a stream as it is. -/
theorem kept_set {conn original changed : Connection} {other otherStream : Nat} {state : StreamState}
    (hconn : server.connections[connection]? = some conn) (horiginal : server.connections[other]? = some original)
    (hkeeps : KeepsConnection original changed) (hother : (other, otherStream) ≠ (connection, stream)) :
    ∃ next, (server.connections.set other (withStream changed otherStream state))[connection]? = some next ∧
      next.streams[stream]? = conn.streams[stream]? ∧ next.peerCertDer = conn.peerCertDer ∧
      (next.sessions = conn.sessions ∨ ∃ username, next.sessions = (conn.sessions.createSession username).2) := by
  by_cases hsame : other = connection
  · subst hsame
    obtain rfl := Option.some.inj (horiginal.symm.trans hconn)
    have hstream : otherStream ≠ stream := fun h => hother (by rw [h])
    refine ⟨withStream changed otherStream state, List.getElem?_set_self (List.getElem?_eq_some_iff.mp hconn).1, ?_,
      hkeeps.peerCertDer, hkeeps.sessions⟩
    rw [withStream, List.getElem?_set_ne hstream, hkeeps.streams]
  · exact ⟨conn, by rw [List.getElem?_set_ne hsame, hconn], rfl, rfl, .inl rfl⟩

/-- An event on another stream leaves a stream as it is, and creates a session on its connection at most. -/
theorem next_elsewhere {conn : Connection} (hconn : server.connections[connection]? = some conn)
    {state : StreamState} (hstream : conn.streams[stream]? = some state) {event : ServerEvent}
    (hother : ¬ ServerEvent.IsOn connection stream event) :
    ∃ next, (server.next argon2 event).connections[connection]? = some next ∧ next.streams[stream]? = some state ∧
      next.peerCertDer = conn.peerCertDer ∧
      (next.sessions = conn.sessions ∨ ∃ username, next.sessions = (conn.sessions.createSession username).2) := by
  have hkept : ∃ next, server.connections[connection]? = some next ∧ next.streams[stream]? = some state ∧
      next.peerCertDer = conn.peerCertDer ∧
      (next.sessions = conn.sessions ∨ ∃ username, next.sessions = (conn.sessions.createSession username).2) :=
    ⟨conn, hconn, hstream, rfl, .inl rfl⟩
  unfold next
  cases event with
  | connect peerCertDer =>
      refine ⟨conn, ?_, hstream, rfl, .inl rfl⟩
      rw [step]
      exact List.getElem?_append_left (List.getElem?_eq_some_iff.mp hconn).1 |>.trans hconn
  | acceptBi other =>
      rw [step]
      cases horiginal : server.connections[other]? with
      | none => exact hkept
      | some original =>
          dsimp only
          by_cases hsame : other = connection
          · subst hsame
            obtain rfl := Option.some.inj (horiginal.symm.trans hconn)
            refine ⟨_, List.getElem?_set_self (List.getElem?_eq_some_iff.mp hconn).1, ?_, rfl, .inl rfl⟩
            exact (List.getElem?_append_left (List.getElem?_eq_some_iff.mp hstream).1).trans hstream
          · refine ⟨conn, ?_, hstream, rfl, .inl rfl⟩
            exact (List.getElem?_set_ne hsame).trans hconn
  | receive other otherStream msg draws =>
      obtain hsame | ⟨original, changed, newState, horiginal, hkeeps, hset⟩ :=
        @step_receive _ _ _ _ _ argon2 server other otherStream msg draws
      · rw [hsame]
        exact hkept
      · rw [hset, ← hstream]
        exact kept_set hconn horiginal hkeeps hother
  | readError other otherStream =>
      rw [step]
      cases horiginal : server.connections[other]? with
      | none => exact hkept
      | some original =>
          rw [← hstream]
          exact kept_set hconn horiginal (.refl original) hother

/-- Databases are never given up. -/
theorem databases_next {name : String} (h : (server.databases.lookup name).isSome = true) (event : ServerEvent) :
    ((server.next argon2 event).databases.lookup name).isSome = true := by
  have heffect := effect_step argon2 server event
  unfold next
  generalize server.step argon2 event = step at heffect
  cases heffect with
  | unchanged event reply => exact h
  | connected peerCertDer => exact h
  | opened other conn hconn => exact h
  | closed event other otherStream conn reply hconn => exact h
  | verified other otherStream conn username password database draws dbName db hname hconn hwaiting hdb haccepted => exact h
  | processed other otherStream conn username token database db draws msg nextDatabase hconn hother hdb hpasses =>
      show ((server.databases.insert database _).lookup name).isSome = true
      by_cases hsame : name = database
      · subst hsame
        rw [Finmap.lookup_insert]
        rfl
      · rw [Finmap.lookup_insert_of_ne _ hsame]
        exact h

/-- A stream has its user and token, its database is there, and of the tokens of its connection so many at most were given
out behind its own. -/
structure Entered (server : Server) (connection stream : Nat) (conn : Connection) (username : String) (token : UInt64)
    (database : String) (made : Nat) : Prop where
  connected : server.connections[connection]? = some conn
  authenticated : conn.streams[stream]? = some (.authenticated username token database)
  valid : conn.sessions.verifyToken token = some username
  counted : ∃ since, since ≤ made ∧ conn.sessions.nextToken = token + 1 + UInt64.ofNat since
  found : (server.databases.lookup database).isSome = true

variable {conn : Connection} {username database : String} {token : UInt64} {made : Nat}

omit [CaseMapping] [Rendering] [SqlText] [StructuredText] [Certificates] in
/-- A token comes back only when the counter has gone all the way round. -/
theorem token_ne {since : Nat} (h : since + 1 < 2 ^ 64) : token ≠ token + 1 + UInt64.ofNat since := by
  intro hsame
  have hnat := congrArg UInt64.toNat hsame
  rw [UInt64.toNat_add, UInt64.toNat_add, UInt64.toNat_ofNat', UInt64.toNat_one] at hnat
  have hlt := token.toNat_lt
  omega

/-- Events on other streams leave a stream behind its Auth there. -/
theorem Entered.next_elsewhere (h : server.Entered connection stream conn username token database made)
    (hroom : made + 1 < 2 ^ 64) {event : ServerEvent} (hother : ¬ ServerEvent.IsOn connection stream event) :
    ∃ next, (server.next argon2 event).Entered connection stream next username token database (made + 1) ∧
      next.peerCertDer = conn.peerCertDer := by
  obtain ⟨next, hnext, hstream, hcert, hsessions⟩ :=
    @Server.next_elsewhere _ _ _ _ _ argon2 server connection stream conn h.connected _ h.authenticated _ hother
  obtain ⟨since, hsince, hcounter⟩ := h.counted
  refine ⟨next, ⟨hnext, hstream, ?_, ?_, databases_next h.found event⟩, hcert⟩
  · obtain hsame | ⟨other, hcreated⟩ := hsessions
    · rw [hsame]
      exact h.valid
    · rw [hcreated, SessionManager.verifyToken, SessionManager.createSession, hcounter]
      dsimp only
      rw [Function.update_of_ne (token_ne (by omega))]
      exact h.valid
  · obtain hsame | ⟨other, hcreated⟩ := hsessions
    · rw [hsame]
      exact ⟨since, by omega, hcounter⟩
    · refine ⟨since + 1, by omega, ?_⟩
      rw [hcreated, SessionManager.createSession, hcounter, UInt64.ofNat_add, UInt64.add_assoc (token + 1)]
      rfl

/-- So does a run of them. -/
theorem Entered.run_elsewhere {events : List ServerEvent}
    (h : server.Entered connection stream conn username token database made) (hroom : made + events.length < 2 ^ 64)
    (hother : ∀ event ∈ events, ¬ ServerEvent.IsOn connection stream event) :
    ∃ last, (events.foldl (next argon2) server).Entered connection stream last username token database
      (made + events.length) := by
  induction events generalizing server conn made with
  | nil => exact ⟨conn, h⟩
  | cons event rest ih =>
      rw [List.length_cons] at hroom
      obtain ⟨hevent, hrest⟩ := List.forall_mem_cons.mp hother
      obtain ⟨nextConn, hnext, -⟩ := @Entered.next_elsewhere _ _ _ _ _ argon2 _ _ _ _ _ _ _ _ h (by omega) _ hevent
      obtain ⟨last, hlast⟩ := ih hnext (by omega) hrest
      refine ⟨last, ?_⟩
      rw [List.length_cons, show made + (rest.length + 1) = made + 1 + rest.length by omega]
      exact hlast

/-- A stream that waits for its Auth waits on through events on other streams. -/
theorem waiting_run {events : List ServerEvent} (hconn : server.connections[connection]? = some conn)
    (hwaiting : conn.streams[stream]? = some .accepted)
    (hother : ∀ event ∈ events, ¬ ServerEvent.IsOn connection stream event) :
    ∃ last, (events.foldl (next argon2) server).connections[connection]? = some last ∧
      last.streams[stream]? = some .accepted ∧ last.peerCertDer = conn.peerCertDer := by
  induction events generalizing server conn with
  | nil => exact ⟨conn, hconn, hwaiting, rfl⟩
  | cons event rest ih =>
      obtain ⟨hevent, hrest⟩ := List.forall_mem_cons.mp hother
      obtain ⟨nextConn, hnext, hstream, hcert, -⟩ :=
        @Server.next_elsewhere _ _ _ _ _ argon2 server connection stream conn hconn _ hwaiting _ hevent
      obtain ⟨last, hlast, hwaits, hsame⟩ := ih hnext hstream hrest
      exact ⟨last, hlast, hwaits, hsame.trans hcert⟩

omit [CaseMapping] [Rendering] [SqlText] [StructuredText] [Certificates] in
theorem isOn_iff {event : ServerEvent} : ServerEvent.IsOn connection stream event ↔
    (∃ msg, messageOn connection stream event = some msg) ∨ event = .readError connection stream := by
  cases event with
  | connect peerCertDer => simp [ServerEvent.IsOn, messageOn]
  | acceptBi other => simp [ServerEvent.IsOn, messageOn]
  | readError other otherStream => simp [ServerEvent.IsOn, messageOn]
  | receive other otherStream msg draws =>
      by_cases hsame : (other, otherStream) = (connection, stream) <;> simp_all [ServerEvent.IsOn, messageOn]

omit [CaseMapping] [Rendering] [SqlText] [StructuredText] [Certificates] in
/-- The first message of a stream, where reading does not fail. -/
theorem exists_of_receivedOn {events : List ServerEvent} {msg : ClientMessage} {rest : List ClientMessage}
    (hsound : ∀ event ∈ events, event ≠ .readError connection stream)
    (hreceived : receivedOn connection stream events = msg :: rest) :
    ∃ before draws after, events = before ++ .receive connection stream msg draws :: after ∧
      (∀ event ∈ before, ¬ ServerEvent.IsOn connection stream event) ∧ receivedOn connection stream after = rest := by
  obtain ⟨before, event, after, rfl, hnone, hevent, hafter⟩ := List.filterMap_eq_cons_iff.mp hreceived
  obtain ⟨draws, rfl⟩ : ∃ draws, event = .receive connection stream msg draws := by
    cases event with
    | connect peerCertDer => cases hevent
    | acceptBi other => cases hevent
    | readError other otherStream => cases hevent
    | receive other otherStream other_msg draws =>
        simp only [messageOn] at hevent
        split at hevent
        · rename_i hsame
          obtain ⟨rfl, rfl⟩ := Prod.mk.inj hsame
          obtain rfl := Option.some.inj hevent
          exact ⟨draws, rfl⟩
        · cases hevent
  refine ⟨before, draws, after, rfl, fun other hother hon => ?_, hafter⟩
  obtain ⟨message, hmessage⟩ | hfailed := isOn_iff.mp hon
  · rw [hnone other hother] at hmessage
    cases hmessage
  · exact hsound other (List.mem_append_left _ hother) hfailed

omit [CaseMapping] [Rendering] [SqlText] [StructuredText] [Certificates] in
theorem elsewhere_of_receivedOn {events : List ServerEvent} (hsound : ∀ event ∈ events, event ≠ .readError connection stream)
    (hnone : receivedOn connection stream events = []) : ∀ event ∈ events, ¬ ServerEvent.IsOn connection stream event := by
  intro event hevent hon
  obtain ⟨msg, hmsg⟩ | hfailed := isOn_iff.mp hon
  · rw [List.filterMap_eq_nil_iff.mp hnone event hevent] at hmsg
    cases hmsg
  · exact hsound event hevent hfailed

/-! ### What a client hears -/

omit [CaseMapping] [Rendering] [StructuredText] [Certificates] in
/-- Executing a plan parses a text, that of an EXPLAIN, on which `parse` panics. -/
def explainPanics : (depth : Nat) → Database → Plan → Bool
  | 0, _, .explain _ _ statement => SqlText.panics statement
  | depth + 1, db, .explain analyze _ statement =>
      SqlText.panics statement ||
        match db.explained statement with
        | .error _ => false
        | .ok inner => analyze && explainPanics depth db inner
  | _, _, _ => false

variable (argon2) in
/-- So does executing these statements. -/
def statementsPanic (draws : Draws) (username : String) : (executed : Nat) → Database → List HelionStatement → Bool
  | _, _, [] => false
  | executed, db, stmt :: rest =>
      match plan db.engine.tables stmt with
      | .error _ => false
      | .ok logicalPlan =>
          explainPanics draws.depth db logicalPlan ||
            match db.executeAs argon2 (draws.choices executed) (some username) draws.depth logicalPlan with
            | (.error _, _) => false
            | (.ok _, after) => statementsPanic draws username (executed + 1) after rest

variable (argon2) in
/-- `execute_sql_as` panics in `parse`, on its text or on that of an EXPLAIN in it. -/
def sqlPanics (draws : Draws) (username sql : String) (db : Database) : Bool :=
  SqlText.panics sql ||
    match SqlText.parse sql with
    | .error _ => false
    | .ok stmts => statementsPanic argon2 draws username 0 db stmts

variable (argon2) in
/-- The task of a stream panics over what an event brings to it. -/
def panicsOn (server : Server) (connection stream : Nat) : ServerEvent → Bool
  | .receive other otherStream msg draws =>
      decide ((other, otherStream) = (connection, stream)) &&
        match (server.step argon2 (.receive other otherStream msg draws)).deed with
        | .worked database username (some sql) _ => (server.databases.lookup database).any (sqlPanics argon2 draws username sql)
        | _ => false
  | _ => false

variable (argon2) in
/-- The replies that come on a stream: where its task panics there is none. -/
def heardOn (connection stream : Nat) : Server → List ServerEvent → List ServerMessage
  | _, [] => []
  | server, event :: rest =>
      (if server.panicsOn argon2 connection stream event then none else server.replyOn argon2 connection stream event).toList ++
        heardOn connection stream (server.next argon2 event) rest

variable (argon2) in
/-- The task of a stream has ended: it returned, or it panicked. -/
def endedOn (connection stream : Nat) : Server → List ServerEvent → Bool
  | server, [] => decide (server.streamAt connection stream = some .closed)
  | server, event :: rest =>
      server.panicsOn argon2 connection stream event || endedOn connection stream (server.next argon2 event) rest

theorem panicsOn_elsewhere {event : ServerEvent} (server : Server) (hother : ¬ ServerEvent.IsOn connection stream event) :
    server.panicsOn argon2 connection stream event = false := by
  cases event with
  | connect peerCertDer => rfl
  | acceptBi other => rfl
  | readError other otherStream => rfl
  | receive other otherStream msg draws =>
      have hnot : ¬ (other, otherStream) = (connection, stream) := hother
      rw [panicsOn, decide_eq_false hnot, Bool.false_and]

theorem heardOn_append {first : List ServerEvent} (server : Server) (second : List ServerEvent)
    (hother : ∀ event ∈ first, ¬ ServerEvent.IsOn connection stream event) :
    heardOn argon2 connection stream server (first ++ second) =
      heardOn argon2 connection stream (first.foldl (next argon2) server) second := by
  induction first generalizing server with
  | nil => rfl
  | cons event rest ih =>
      obtain ⟨hevent, hrest⟩ := List.forall_mem_cons.mp hother
      have hquiet : server.replyOn argon2 connection stream event = none := by
        rw [replyOn, Option.eq_none_iff_forall_ne_some.mpr fun msg hmsg => hevent (isOn_iff.mpr (.inl ⟨msg, hmsg⟩))]
        rfl
      rw [List.cons_append, heardOn, panicsOn_elsewhere server hevent, hquiet, ih _ hrest]
      rfl

theorem endedOn_append {first : List ServerEvent} (server : Server) (second : List ServerEvent)
    (hother : ∀ event ∈ first, ¬ ServerEvent.IsOn connection stream event) :
    endedOn argon2 connection stream server (first ++ second) =
      endedOn argon2 connection stream (first.foldl (next argon2) server) second := by
  induction first generalizing server with
  | nil => rfl
  | cons event rest ih =>
      obtain ⟨hevent, hrest⟩ := List.forall_mem_cons.mp hother
      rw [List.cons_append, endedOn, panicsOn_elsewhere server hevent, Bool.false_or, ih _ hrest, List.foldl_cons]

/-- While others go on nothing comes on a stream, and it has ended only if it was closed. -/
theorem heardOn_elsewhere {events : List ServerEvent} (server : Server)
    (hother : ∀ event ∈ events, ¬ ServerEvent.IsOn connection stream event) :
    heardOn argon2 connection stream server events = [] := by
  rw [← List.append_nil events, heardOn_append server [] hother, heardOn]

theorem endedOn_elsewhere {events : List ServerEvent} (server : Server)
    (hother : ∀ event ∈ events, ¬ ServerEvent.IsOn connection stream event) :
    endedOn argon2 connection stream server events =
      decide ((events.foldl (next argon2) server).streamAt connection stream = some .closed) := by
  rw [← List.append_nil events, endedOn_append server [] hother, endedOn, List.append_nil]

/-- A closed stream sends nothing more. -/
theorem heardOn_closed {events : List ServerEvent} (hclosed : server.streamAt connection stream = some .closed) :
    heardOn argon2 connection stream server events = [] := by
  induction events generalizing server with
  | nil => rfl
  | cons event rest ih =>
      obtain ⟨after, hafter, hfollows⟩ := follows_step argon2 event hclosed (by simp)
      cases hfollows
      have hquiet : server.replyOn argon2 connection stream event = none := by
        cases event with
        | connect peerCertDer => rfl
        | acceptBi other => rfl
        | readError other otherStream => rfl
        | receive other otherStream msg draws =>
            rw [replyOn, messageOn]
            split
            · rename_i hsame
              obtain ⟨rfl, rfl⟩ := Prod.mk.inj hsame
              rw [Option.bind_some, step]
              cases hconn : server.connections[other]? with
              | none => rfl
              | some conn =>
                  rw [streamAt_eq_some hconn] at hclosed
                  dsimp only
                  rw [hclosed]
            · rfl
      rw [heardOn, hquiet, ih hafter, ite_self]
      rfl

/-- It has ended, and stays so. -/
theorem endedOn_closed {events : List ServerEvent} (hclosed : server.streamAt connection stream = some .closed) :
    endedOn argon2 connection stream server events = true := by
  induction events generalizing server with
  | nil => exact decide_eq_true hclosed
  | cons event rest ih =>
      obtain ⟨after, hafter, hfollows⟩ := follows_step argon2 event hclosed (by simp)
      cases hfollows
      rw [endedOn, ih hafter, Bool.or_true]

/-! ### The answer to a query -/

variable (argon2) in
/-- What the client is told of the statements of a text: that the stream ended, where `parse` panics. -/
def toldOf (ended : HelionError) (draws : Draws) (username sql : String) (db : Database) : Except HelionError QueryResult :=
  if sqlPanics argon2 draws username sql db then .error ended
  else
    match (executeSqlAs argon2 draws username sql db).result with
    | .ok result => .ok { result with columnTypes := [] }
    | .error err => .error (.internal err.text)

variable (argon2) in
/-- What the client is told of a query: that the stream ended, too, where the server slices the text in the middle of a
letter. -/
def answer (server : Server) (ended : HelionError) (draws : Draws) (username sql : String) (db : Database) :
    Except HelionError QueryResult :=
  if CaseMapping.toUppercase (String.ofList (trimSql sql)) = "SHOW DATABASES" then
    .ok { columns := ["database_name"], columnTypes := [], rows := server.databaseNames.map fun name => [name]
          rowsAffected := server.databaseNames.length }
  else
    match useTarget (trimSql sql) with
    | some none => .error ended
    | some (some name) =>
        if (server.databases.lookup name).isSome then toldOf argon2 ended draws username sql db
        else .error (.internal ("Database '" ++ name ++ "' not found"))
    | none => toldOf argon2 ended draws username sql db

/-- What the handling of a message brings to a client that waits: a reply, or the end of the stream. -/
inductive Brings (argon2 : Argon2) (server : Server) (connection stream : Nat) (event : ServerEvent) (ended : HelionError) :
    Except HelionError QueryResult → Prop
  | reply (msg : ServerMessage) (hquiet : server.panicsOn argon2 connection stream event = false)
      (hreply : server.replyOn argon2 connection stream event = some msg) :
      Brings argon2 server connection stream event ended (readQueryResult msg)
  | panicked (hpanics : server.panicsOn argon2 connection stream event = true) :
      Brings argon2 server connection stream event ended (.error ended)
  | closed (hquiet : server.replyOn argon2 connection stream event = none)
      (hclosed : (server.next argon2 event).streamAt connection stream = some .closed) :
      Brings argon2 server connection stream event ended (.error ended)

/-- Then a query that the client has sent is answered so. -/
theorem Brings.answered {event : ServerEvent} {ended : HelionError} {answer : Except HelionError QueryResult}
    (h : Brings argon2 server connection stream event ended answer) {later : List ServerEvent}
    (hlater : ∀ other ∈ later, ¬ ServerEvent.IsOn connection stream other) :
    ((readMessage (if endedOn argon2 connection stream server (event :: later) then some ended else none)
        (heardOn argon2 connection stream server (event :: later))).map fun reply => reply >>= readQueryResult) = some answer := by
  rw [heardOn, heardOn_elsewhere _ hlater, endedOn]
  cases h with
  | reply msg hquiet hreply =>
      rw [hquiet, if_neg Bool.false_ne_true, hreply]
      rfl
  | panicked hpanics =>
      rw [hpanics]
      rfl
  | closed hquiet hclosed =>
      rw [endedOn_closed hclosed, hquiet, Bool.or_true, ite_self]
      rfl

omit [Certificates] in
/-- A text that is processed. -/
theorem processed_query {sql : String} {draws : Draws} {db : Database} {nextDatabase : String}
    (hvalid : conn.sessions.verifyToken token = some username) :
    let step := server.processed argon2 connection stream conn username token database db draws (.query sql) nextDatabase
    let execution := executeSqlAs argon2 draws username sql db
    step.reply = some (sqlReply execution.result) ∧
      step.deed = .worked database username (some sql) execution.executed := by
  unfold processed processAuthenticatedMessage
  dsimp only
  rw [if_neg (not_not.mpr hvalid)]
  exact ⟨rfl, rfl⟩

theorem brings_processed {sql : String} {draws : Draws} {db : Database} {nextDatabase : String}
    (hvalid : conn.sessions.verifyToken token = some username) (hdb : server.databases.lookup database = some db)
    (hstep : server.step argon2 (.receive connection stream (.query sql) draws) =
      server.processed argon2 connection stream conn username token database db draws (.query sql) nextDatabase)
    (ended : HelionError) :
    Brings argon2 server connection stream (.receive connection stream (.query sql) draws) ended
      (toldOf argon2 ended draws username sql db) := by
  obtain ⟨hreply, hdeed⟩ := @processed_query _ _ _ _ argon2 server connection stream conn username database token sql draws db
    nextDatabase hvalid
  rw [← hstep] at hreply hdeed
  have hpanics : server.panicsOn argon2 connection stream (.receive connection stream (.query sql) draws) =
      sqlPanics argon2 draws username sql db := by
    rw [panicsOn, hdeed, decide_eq_true rfl, Bool.true_and]
    dsimp only
    rw [hdb, Option.any_some]
  have hheard : server.replyOn argon2 connection stream (.receive connection stream (.query sql) draws) =
      some (sqlReply (executeSqlAs argon2 draws username sql db).result) := by
    rw [replyOn, messageOn, if_pos rfl, Option.bind_some, hreply]
  unfold toldOf
  split
  · rename_i hpanicked
    exact .panicked (hpanics.trans hpanicked)
  · rename_i hquiet
    have htold := @Brings.reply _ _ _ _ _ argon2 server connection stream _ ended _
      (hpanics.trans (Bool.eq_false_iff.mpr hquiet)) hheard
    cases hresult : (executeSqlAs argon2 draws username sql db).result with
    | ok result =>
        rw [hresult] at htold
        exact htold
    | error err =>
        rw [hresult] at htold
        exact htold

/-- The query of a stream behind its Auth. -/
theorem Entered.brings (h : server.Entered connection stream conn username token database made) (sql : String)
    (draws : Draws) (ended : HelionError) :
    ∃ db, server.databases.lookup database = some db ∧
      Brings argon2 server connection stream (.receive connection stream (.query sql) draws) ended
        (server.answer argon2 ended draws username sql db) := by
  obtain ⟨db, hdb⟩ := Option.isSome_iff_exists.mp h.found
  refine ⟨db, hdb, ?_⟩
  have hstep := @step_authenticated _ _ _ _ _ argon2 _ _ _ _ _ _ _ _ (.query sql) draws h.connected h.authenticated hdb
  rw [handleMessage] at hstep
  dsimp only at hstep
  have hprocessed := fun nextDatabase => @brings_processed _ _ _ _ _ argon2 server connection stream conn username database token
    sql draws db nextDatabase h.valid hdb
  have hanswered : ∀ step, server.step argon2 (.receive connection stream (.query sql) draws) = step →
      step.deed = .nothing → ∀ msg, step.reply = some msg →
        Brings argon2 server connection stream (.receive connection stream (.query sql) draws) ended (readQueryResult msg) := by
    rintro step rfl hdeed msg hreply
    refine .reply msg ?_ ?_
    · rw [panicsOn, hdeed]
      exact Bool.and_false _
    · rw [replyOn, messageOn, if_pos rfl, Option.bind_some, hreply]
  unfold answer
  split
  · rename_i hshow
    rw [if_pos hshow] at hstep
    exact hanswered _ hstep rfl _ rfl
  · rename_i hshow
    rw [if_neg hshow] at hstep
    cases htarget : useTarget (trimSql sql) with
    | none =>
        rw [htarget] at hstep
        exact hprocessed _ hstep ended
    | some target =>
        rw [htarget] at hstep
        cases target with
        | none =>
            refine .closed ?_ ?_
            · rw [replyOn, messageOn, if_pos rfl, Option.bind_some, hstep]
            · have hset := @streamAt_set connection stream connection stream server conn conn server.databases .closed
                h.connected rfl
              rw [if_pos ⟨rfl, rfl⟩, streamAt_eq_some h.connected, h.authenticated, Option.map_some] at hset
              rw [next, hstep]
              exact hset
        | some name =>
            dsimp only at hstep ⊢
            split
            · rename_i hthere
              rw [if_pos hthere] at hstep
              exact hprocessed _ hstep ended
            · rename_i hthere
              rw [if_neg hthere] at hstep
              exact hanswered _ hstep rfl _ rfl

/-- A first message executes nothing. -/
theorem panicsOn_first (hconn : server.connections[connection]? = some conn)
    (hwaiting : conn.streams[stream]? = some .accepted) (msg : ClientMessage) (draws : Draws) :
    server.panicsOn argon2 connection stream (.receive connection stream msg draws) = false := by
  have hdeed : ∀ database username text executed,
      (server.handleFirst argon2 connection stream conn msg).deed ≠ .worked database username text executed := by
    intro database username text executed
    unfold handleFirst
    split
    · dsimp only
      split
      · simp
      · split <;> simp
    · simp
  rw [panicsOn, step_accepted hconn hwaiting]
  cases hfirst : (server.handleFirst argon2 connection stream conn msg).deed with
  | nothing => exact Bool.and_false _
  | verified database username => exact Bool.and_false _
  | worked database username text executed => exact absurd hfirst (hdeed database username text executed)

/-- The stream behind an Auth: refused without a reply where there is no such database, refused, or accepted. -/
theorem reply_auth (hconn : server.connections[connection]? = some conn)
    (hwaiting : conn.streams[stream]? = some .accepted) (username password database : String) (draws : Draws) :
    let step := server.step argon2 (.receive connection stream (.auth username password database) draws)
    let home := server.authDatabase database
    (server.databases.lookup home = none ∧ step.reply = none ∧ step.server.streamAt connection stream = some .closed) ∨
    ∃ db, server.databases.lookup home = some db ∧
      let accepted := authenticate argon2 conn.peerCertDer username password db
      (accepted.2 = false ∧ step.reply = some (.authResult false 0 (some "Invalid credentials")) ∧
        step.server.streamAt connection stream = some .closed) ∨
      (accepted.2 = true ∧ ∃ token next, step.reply = some (.authResult true token none) ∧
        step.server.Entered connection stream next accepted.1 token home 0) := by
  have hclosed : (server.withConnection connection (withStream conn stream .closed)).streamAt connection stream =
      some .closed := by
    have hset := @streamAt_set connection stream connection stream server conn conn server.databases .closed hconn rfl
    rw [if_pos ⟨rfl, rfl⟩, streamAt_eq_some hconn, hwaiting, Option.map_some] at hset
    exact hset
  intro step home
  have hstep : step = server.handleFirst argon2 connection stream conn (.auth username password database) :=
    step_accepted hconn hwaiting
  cases hdb : server.databases.lookup home with
  | none =>
      left
      have hfirst : step = ⟨server.withConnection connection (withStream conn stream .closed), none, .nothing⟩ := by
        rw [hstep, handleFirst]
        dsimp only
        rw [show server.databases.lookup (if database.isEmpty then server.defaultDatabase else database) = none from hdb]
      rw [hfirst]
      exact ⟨rfl, rfl, hclosed⟩
  | some db =>
      right
      refine ⟨db, rfl, ?_⟩
      intro accepted
      cases haccepted : accepted.2 with
      | false =>
          left
          have hfirst : step = ⟨server.withConnection connection (withStream conn stream .closed),
              some (.authResult false 0 (some "Invalid credentials")), .nothing⟩ := by
            rw [hstep, handleFirst]
            dsimp only
            rw [show server.databases.lookup (if database.isEmpty then server.defaultDatabase else database) = some db from hdb]
            dsimp only
            rw [if_neg (by rw [show (authenticate argon2 conn.peerCertDer username password db).2 = false from haccepted]; decide)]
          rw [hfirst]
          exact ⟨rfl, rfl, hclosed⟩
      | true =>
          right
          refine ⟨rfl, conn.sessions.nextToken, withStream { conn with sessions := (conn.sessions.createSession accepted.1).2 }
            stream (.authenticated accepted.1 conn.sessions.nextToken home), ?_⟩
          have hfirst : step = ⟨server.withConnection connection (withStream
              { conn with sessions := (conn.sessions.createSession accepted.1).2 } stream
                (.authenticated accepted.1 conn.sessions.nextToken home)),
              some (.authResult true conn.sessions.nextToken none), .verified home accepted.1⟩ := by
            rw [hstep, handleFirst]
            dsimp only
            rw [show server.databases.lookup (if database.isEmpty then server.defaultDatabase else database) = some db from hdb]
            dsimp only
            rw [if_pos (show (authenticate argon2 conn.peerCertDer username password db).2 = true from haccepted)]
            rfl
          rw [hfirst]
          refine ⟨rfl, ⟨?_, ?_, ?_, ⟨0, le_rfl, (UInt64.add_zero _).symm⟩, ?_⟩⟩
          · exact List.getElem?_set_self (List.getElem?_eq_some_iff.mp hconn).1
          · exact List.getElem?_set_self (List.getElem?_eq_some_iff.mp hwaiting).1
          · exact Function.update_self _ _ _
          · show (server.databases.lookup home).isSome = true
            rw [hdb]
            rfl

/-- A query that comes on a stream behind its Auth is answered on the database as it is then. -/
theorem Entered.answered (h : server.Entered connection stream conn username token database made)
    {between later : List ServerEvent} (hroom : made + between.length < 2 ^ 64)
    (hbetween : ∀ event ∈ between, ¬ ServerEvent.IsOn connection stream event)
    (hlater : ∀ event ∈ later, ¬ ServerEvent.IsOn connection stream event) (sql : String) (draws : Draws)
    (ended : HelionError) :
    ∃ found, (between.foldl (next argon2) server).databases.lookup database = some found ∧
      ((readMessage
          (if endedOn argon2 connection stream server (between ++ .receive connection stream (.query sql) draws :: later) then
            some ended else none)
          (heardOn argon2 connection stream server (between ++ .receive connection stream (.query sql) draws :: later))).map
        fun reply => reply >>= readQueryResult) =
          some ((between.foldl (next argon2) server).answer argon2 ended draws username sql found) := by
  obtain ⟨lastConn, hstands⟩ := @Entered.run_elsewhere _ _ _ _ _ argon2 _ _ _ _ _ _ _ _ _ h hroom hbetween
  obtain ⟨found, hfound, hbrings⟩ := @Entered.brings _ _ _ _ _ argon2 _ _ _ _ _ _ _ _ hstands sql draws ended
  refine ⟨found, hfound, ?_⟩
  rw [heardOn_append _ _ hbetween, endedOn_append _ _ hbetween, hbrings.answered hlater]

/-- Without a query nothing comes on it, and it has not ended. -/
theorem Entered.silent (h : server.Entered connection stream conn username token database made) {events : List ServerEvent}
    (hroom : made + events.length < 2 ^ 64) (hother : ∀ event ∈ events, ¬ ServerEvent.IsOn connection stream event) :
    heardOn argon2 connection stream server events = [] ∧ endedOn argon2 connection stream server events = false := by
  obtain ⟨lastConn, hstands⟩ := @Entered.run_elsewhere _ _ _ _ _ argon2 _ _ _ _ _ _ _ _ _ h hroom hother
  refine ⟨heardOn_elsewhere _ hother, ?_⟩
  rw [endedOn_elsewhere _ hother, streamAt_eq_some hstands.connected, hstands.authenticated]
  rfl

/-- What a client is told that authenticates and asks: that the stream ended where its Auth names no database, that its
credentials are invalid where that database does not accept them, and else, once its query is handled, the answer for the
user that was accepted, on that database as it is then. -/
inductive Told (argon2 : Argon2) (ended : HelionError) (start : Server) (connection stream : Nat)
    (peerCertDer : Option (List UInt8)) (events : List ServerEvent) (username password database sql : String) :
    Option (Except HelionError QueryResult) → Prop
  | noDatabase (before after : List ServerEvent) (authDraws : Draws)
      (hevents : events = before ++ .receive connection stream (.auth username password database) authDraws :: after)
      (hunknown : (before.foldl (next argon2) start).databases.lookup
        ((before.foldl (next argon2) start).authDatabase database) = none) :
      Told argon2 ended start connection stream peerCertDer events username password database sql (some (.error ended))
  | refused (before after : List ServerEvent) (authDraws : Draws) (db : Database)
      (hevents : events = before ++ .receive connection stream (.auth username password database) authDraws :: after)
      (hdb : (before.foldl (next argon2) start).databases.lookup
        ((before.foldl (next argon2) start).authDatabase database) = some db)
      (hrefused : (authenticate argon2 peerCertDer username password db).2 = false) :
      Told argon2 ended start connection stream peerCertDer events username password database sql
        (some (.error (.auth "Invalid credentials")))
  | unasked (before after : List ServerEvent) (authDraws : Draws) (db : Database)
      (hevents : events = before ++ .receive connection stream (.auth username password database) authDraws :: after)
      (hdb : (before.foldl (next argon2) start).databases.lookup
        ((before.foldl (next argon2) start).authDatabase database) = some db)
      (haccepted : (authenticate argon2 peerCertDer username password db).2 = true)
      (hunasked : receivedOn connection stream after = []) :
      Told argon2 ended start connection stream peerCertDer events username password database sql none
  | answered (before between later : List ServerEvent) (authDraws draws : Draws) (db found : Database)
      (hevents : events = before ++ .receive connection stream (.auth username password database) authDraws ::
        (between ++ .receive connection stream (.query sql) draws :: later))
      (hdb : (before.foldl (next argon2) start).databases.lookup
        ((before.foldl (next argon2) start).authDatabase database) = some db)
      (haccepted : (authenticate argon2 peerCertDer username password db).2 = true)
      (hfound : ((before ++ .receive connection stream (.auth username password database) authDraws :: between).foldl
        (next argon2) start).databases.lookup ((before.foldl (next argon2) start).authDatabase database) = some found) :
      Told argon2 ended start connection stream peerCertDer events username password database sql
        (some (((before ++ .receive connection stream (.auth username password database) authDraws :: between).foldl
          (next argon2) start).answer argon2 ended draws (authenticate argon2 peerCertDer username password db).1 sql found))

/-- In every run in which reading from its stream does not fail, a client that sends an Auth and then perhaps its query is
told what it should be, whatever happens on other streams before, between and after. -/
theorem clientQuery_told (text : String) {start : Server} (hconn : start.connections[connection]? = some conn)
    (hwaiting : conn.streams[stream]? = some .accepted) {events : List ServerEvent} (hcount : events.length < 2 ^ 64)
    (hsound : ∀ event ∈ events, event ≠ .readError connection stream) {username password database sql : String}
    {sent : List ClientMessage} (hsent : sent = [] ∨ sent = [.query sql])
    (hreceived : receivedOn connection stream events = .auth username password database :: sent) :
    Told argon2 (readLengthError text) start connection stream conn.peerCertDer events username password database sql
      (clientQuery (if endedOn argon2 connection stream start events then some (readLengthError text) else none)
        (heardOn argon2 connection stream start events)) := by
  obtain ⟨before, authDraws, after, rfl, hbefore, hafter⟩ := exists_of_receivedOn hsound hreceived
  obtain ⟨last, hlast, hwaits, hcert⟩ := @waiting_run _ _ _ _ _ argon2 _ _ _ _ _ hconn hwaiting hbefore
  let atAuth := before.foldl (next argon2) start
  let authEvent : ServerEvent := .receive connection stream (.auth username password database) authDraws
  have hquiet : atAuth.panicsOn argon2 connection stream authEvent = false := panicsOn_first hlast hwaits _ _
  have hheard : heardOn argon2 connection stream start (before ++ authEvent :: after) =
      (atAuth.step argon2 authEvent).reply.toList ++
        heardOn argon2 connection stream (atAuth.step argon2 authEvent).server after := by
    rw [heardOn_append _ _ hbefore, heardOn, hquiet, if_neg Bool.false_ne_true, replyOn, messageOn, if_pos rfl,
      Option.bind_some]
    rfl
  have hended : endedOn argon2 connection stream start (before ++ authEvent :: after) =
      endedOn argon2 connection stream (atAuth.step argon2 authEvent).server after := by
    rw [endedOn_append _ _ hbefore, endedOn, hquiet, Bool.false_or]
    rfl
  rw [hheard, hended]
  obtain ⟨hunknown, hreply, hclosed⟩ | ⟨db, hdb, houtcome⟩ :=
    @reply_auth _ _ _ _ _ argon2 _ connection stream _ hlast hwaits username password database authDraws
  · rw [hreply, heardOn_closed hclosed, endedOn_closed hclosed]
    exact .noDatabase before after authDraws rfl hunknown
  · rw [hcert] at houtcome
    obtain ⟨hrefused, hreply, hclosed⟩ | ⟨haccepted, token, nextConn, hreply, hentered⟩ := houtcome
    · rw [hreply]
      exact .refused before after authDraws db rfl hdb hrefused
    · rw [hreply, Option.toList_some, List.singleton_append, clientQuery_accepted]
      have hsoundAfter : ∀ event ∈ after, event ≠ .readError connection stream := fun event hevent =>
        hsound event (List.mem_append_right _ (List.mem_cons_of_mem _ hevent))
      rcases hsent with rfl | rfl
      · have hroom : 0 + after.length < 2 ^ 64 := by
          simp only [List.length_append, List.length_cons] at hcount
          omega
        obtain ⟨hnothing, hopen⟩ := @Entered.silent _ _ _ _ _ argon2 _ _ _ _ _ _ _ _ hentered _ hroom
          (elsewhere_of_receivedOn hsoundAfter hafter)
        rw [hopen, hnothing]
        exact .unasked before after authDraws db rfl hdb haccepted hafter
      · obtain ⟨between, draws, later, rfl, hbetween, hlater⟩ := exists_of_receivedOn hsoundAfter hafter
        have hroom : 0 + between.length < 2 ^ 64 := by
          simp only [List.length_append, List.length_cons] at hcount
          omega
        have helsewhere := elsewhere_of_receivedOn (fun event hevent => hsoundAfter event
          (List.mem_append_right _ (List.mem_cons_of_mem _ hevent))) hlater
        obtain ⟨found, hfound, hanswered⟩ := @Entered.answered _ _ _ _ _ argon2 _ _ _ _ _ _ _ _ hentered _ _ hroom hbetween
          helsewhere sql draws (readLengthError text)
        have hquery : (before ++ authEvent :: between).foldl (next argon2) start =
            between.foldl (next argon2) (atAuth.step argon2 authEvent).server := by
          rw [List.foldl_append, List.foldl_cons]
          rfl
        rw [hanswered, ← hquery]
        rw [← hquery] at hfound
        exact .answered before between later authDraws draws db found rfl hdb haccepted hfound

end

section

open scoped AsciiCase PlainText OwnedTable

/-- While one stream authenticates and asks, another one is opened and tries a wrong password. -/
def busyRun : List ServerEvent :=
  [.acceptBi 0, .receive 0 0 (.auth "ann" "x" "") .asGiven, .receive 0 1 (.auth "ann" "y" "b") .asGiven, asks "SHOW TABLES"]

theorem clientQuery_told_busy :
    Told .plain (readLengthError "stream finished early") neighbours 0 0 none busyRun "ann" "x" "" "SHOW TABLES"
      (clientQuery
        (if endedOn .plain 0 0 neighbours busyRun then some (readLengthError "stream finished early") else none)
        (heardOn .plain 0 0 neighbours busyRun)) := by
  have hsound : ∀ event ∈ busyRun, event ≠ .readError 0 0 := by simp [busyRun, asks]
  have hconn : neighbours.connections[0]? = some ⟨none, .new, fun _ => none, [.accepted]⟩ := rfl
  exact clientQuery_told _ hconn rfl (by decide) hsound (.inr rfl) rfl

end

end Server

end HelionDb
