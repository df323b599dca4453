import HelionDb.Server

/-! What a step does to a stream. A stream authenticates at most once, with its first message; behind that its
user and token stay, and only USE changes the database that its messages run on. Each kind of step has a
case of its own, which the properties of runs go through. -/

namespace HelionDb

namespace Server

section

variable {connection stream other otherStream : Nat}

/-- The state of a stream. -/
def streamAt (server : Server) (connection stream : Nat) : Option StreamState :=
  server.connections[connection]?.bind fun conn => conn.streams[stream]?

/-- A change of one stream, whatever becomes of the rest of its connection. -/
theorem streamAt_set {server : Server} {conn next : Connection} {databases : DatabaseMap} {state : StreamState}
    (hconn : server.connections[other]? = some conn) (hstreams : next.streams = conn.streams) :
    streamAt { server with databases, connections := server.connections.set other (withStream next otherStream state) }
        connection stream =
      if connection = other ∧ stream = otherStream then (server.streamAt connection stream).map fun _ => state
      else server.streamAt connection stream := by
  unfold streamAt
  dsimp only
  by_cases hconnection : connection = other
  · subst hconnection
    rw [hconn, List.getElem?_set_self (List.getElem?_eq_some_iff.mp hconn).1, Option.bind_some, Option.bind_some,
      withStream, hstreams]
    by_cases hstream : stream = otherStream
    · subst hstream
      rw [if_pos ⟨rfl, rfl⟩]
      by_cases hlt : stream < conn.streams.length
      · rw [List.getElem?_set_self hlt, List.getElem?_eq_getElem hlt]
        rfl
      · rw [List.getElem?_eq_none (by simpa using hlt), List.getElem?_eq_none (by simpa using hlt)]
        rfl
    · rw [if_neg fun h => hstream h.2, List.getElem?_set_ne (Ne.symm hstream)]
  · rw [if_neg fun h => hconnection h.1, List.getElem?_set_ne (Ne.symm hconnection)]

/-- What a message of a stream meets: its user and token, with which the connection agrees, and its database. -/
structure Serves (server : Server) (connection stream : Nat) (conn : Connection) (username : String) (token : UInt64)
    (database : String) (db : Database) : Prop where
  connected : server.connections[connection]? = some conn
  authenticated : conn.streams[stream]? = some (.authenticated username token database)
  found : server.databases.lookup database = some db
  valid : conn.sessions.verifyToken token = some username

/-- Where an authenticated stream can go: its user and token stay, its database may change. -/
inductive Follows : StreamState → StreamState → Prop
  | closed (state : StreamState) : Follows state .closed
  | moved (username : String) (token : UInt64) (database nextDatabase : String) :
      Follows (.authenticated username token database) (.authenticated username token nextDatabase)

end

section

variable [CaseMapping] [Rendering] [SqlText] [StructuredText] [Certificates] {argon2 : Argon2} {server : Server}
  {connection stream : Nat} {state : StreamState}

/-- The database that a stream goes on with when a message is processed; none where the stream answers itself. -/
def passesTo (databases : DatabaseMap) (database : String) : ClientMessage → Option String
  | .query sql =>
      if CaseMapping.toUppercase (String.ofList (trimSql sql)) = "SHOW DATABASES" then none
      else
        match useTarget (trimSql sql) with
        | none => some database
        | some none => none
        | some (some name) => if (databases.lookup name).isSome then some name else none
  | _ => some database

/-- The steps of a server. -/
inductive Effect (argon2 : Argon2) (server : Server) : ServerEvent → Step → Prop
  | unchanged (event : ServerEvent) (reply : Option ServerMessage) : Effect argon2 server event ⟨server, reply, .nothing⟩
  | connected (peerCertDer : Option (List UInt8)) :
      Effect argon2 server (.connect peerCertDer)
        ⟨{ server with connections := server.connections ++ [⟨peerCertDer, .new, fun _ => none, []⟩] }, none, .nothing⟩
  | opened (connection : Nat) (conn : Connection) (hconn : server.connections[connection]? = some conn) :
      Effect argon2 server (.acceptBi connection)
        ⟨server.withConnection connection { conn with streams := conn.streams ++ [.accepted] }, none, .nothing⟩
  | closed (event : ServerEvent) (connection stream : Nat) (conn : Connection) (reply : Option ServerMessage)
      (hconn : server.connections[connection]? = some conn) :
      Effect argon2 server event ⟨server.withConnection connection (withStream conn stream .closed), reply, .nothing⟩
  | verified (connection stream : Nat) (conn : Connection) (username password database : String) (draws : Draws)
      (dbName : String) (db : Database) (hname : dbName = if database.isEmpty then server.defaultDatabase else database)
      (hconn : server.connections[connection]? = some conn) (hstream : conn.streams[stream]? = some .accepted)
      (hdb : server.databases.lookup dbName = some db)
      (haccepted : (authenticate argon2 conn.peerCertDer username password db).2 = true) :
      Effect argon2 server (.receive connection stream (.auth username password database) draws)
        ⟨server.withConnection connection (withStream
            { conn with sessions := (conn.sessions.createSession (authenticate argon2 conn.peerCertDer username password db).1).2 }
            stream (.authenticated (authenticate argon2 conn.peerCertDer username password db).1
              (conn.sessions.createSession (authenticate argon2 conn.peerCertDer username password db).1).1 dbName)),
          some (.authResult true
            (conn.sessions.createSession (authenticate argon2 conn.peerCertDer username password db).1).1 none),
          .verified dbName (authenticate argon2 conn.peerCertDer username password db).1⟩
  | processed (connection stream : Nat) (conn : Connection) (username : String) (token : UInt64) (database : String)
      (db : Database) (draws : Draws) (msg : ClientMessage) (nextDatabase : String)
      (hconn : server.connections[connection]? = some conn)
      (hstream : conn.streams[stream]? = some (.authenticated username token database))
      (hdb : server.databases.lookup database = some db)
      (hpasses : passesTo server.databases database msg = some nextDatabase) :
      Effect argon2 server (.receive connection stream msg draws)
        (server.processed argon2 connection stream conn username token database db draws msg nextDatabase)

omit [Certificates] in
/-- A message of an authenticated stream is processed, or the stream answers it. -/
theorem handleMessage_cases (server : Server) (connection stream : Nat) (conn : Connection) (username : String)
    (token : UInt64) (database : String) (db : Database) (draws : Draws) (msg : ClientMessage) :
    match passesTo server.databases database msg with
    | some nextDatabase =>
        server.handleMessage argon2 connection stream conn username token database db draws msg =
          server.processed argon2 connection stream conn username token database db draws msg nextDatabase
    | none => ∃ reply, server.handleMessage argon2 connection stream conn username token database db draws msg = ⟨server, reply, .nothing⟩ ∨
        server.handleMessage argon2 connection stream conn username token database db draws msg =
          ⟨server.withConnection connection (withStream conn stream .closed), reply, .nothing⟩ := by
  cases msg with
  | query sql =>
      unfold handleMessage passesTo
      dsimp only
      by_cases hshow : CaseMapping.toUppercase (String.ofList (trimSql sql)) = "SHOW DATABASES"
      · rw [if_pos hshow, if_pos hshow]
        exact ⟨_, .inl rfl⟩
      · rw [if_neg hshow, if_neg hshow]
        cases useTarget (trimSql sql) with
        | none => rfl
        | some target =>
            cases target with
            | none => exact ⟨_, .inr rfl⟩
            | some name =>
                dsimp only
                by_cases hknown : (server.databases.lookup name).isSome = true
                · rw [if_pos hknown, if_pos hknown]
                · rw [if_neg hknown, if_neg hknown]
                  exact ⟨_, .inl rfl⟩
  | prepare sql => rfl
  | execute preparedId params => rfl
  | auth username password database => rfl
  | structuredQuery queryJson => rfl

theorem effect_step (argon2 : Argon2) (server : Server) (event : ServerEvent) :
    Effect argon2 server event (server.step argon2 event) := by
  cases event with
  | connect peerCertDer => exact .connected peerCertDer
  | acceptBi connection =>
      rw [step]
      split
      · exact .unchanged _ _
      · rename_i conn hconn
        exact .opened connection conn hconn
  | receive connection stream msg draws =>
      rw [step]
      split
      · exact .unchanged _ _
      · rename_i conn hconn
        split
        · rename_i hstream
          unfold handleFirst
          split
          · rename_i username password database
            dsimp only
            split
            · exact .closed _ _ _ _ _ hconn
            · rename_i db hdb
              split
              · rename_i haccepted
                exact .verified connection stream conn username password database draws _ db rfl hconn hstream hdb haccepted
              · exact .closed _ _ _ _ _ hconn
          · exact .closed _ _ _ _ _ hconn
        · rename_i username token database hstream
          split
          · exact .unchanged _ _
          · rename_i db hdb
            have hcases :=
              @handleMessage_cases _ _ _ _ argon2 server connection stream conn username token database db draws msg
            split at hcases
            · rename_i nextDatabase hpasses
              rw [hcases]
              exact .processed connection stream conn username token database db draws msg nextDatabase hconn hstream hdb hpasses
            · obtain ⟨reply, hsame | hclosed⟩ := hcases
              · rw [hsame]
                exact .unchanged _ _
              · rw [hclosed]
                exact .closed _ _ _ _ _ hconn
        · exact .unchanged _ _
  | readError connection stream =>
      rw [step]
      split
      · exact .unchanged _ _
      · rename_i conn hconn
        exact .closed _ _ _ _ _ hconn

omit [CaseMapping] [Rendering] [SqlText] [StructuredText] [Certificates] in
theorem follows_refl (hstate : state ≠ .accepted) : Follows state state := by
  cases state with
  | accepted => exact absurd rfl hstate
  | authenticated username token database => exact .moved username token database database
  | closed => exact .closed .closed

omit [CaseMapping] [Rendering] [SqlText] [StructuredText] [Certificates] in
theorem streamAt_eq_some {conn : Connection} (hconn : server.connections[connection]? = some conn) :
    server.streamAt connection stream = conn.streams[stream]? := by
  rw [streamAt, hconn, Option.bind_some]

omit [CaseMapping] [Rendering] [SqlText] [StructuredText] [Certificates] in
/-- A new connection has no streams. -/
theorem streamAt_connected (server : Server) (conn : Connection) (hstreams : conn.streams = []) :
    streamAt { server with connections := server.connections ++ [conn] } connection stream =
      server.streamAt connection stream := by
  unfold streamAt
  dsimp only
  by_cases hlt : connection < server.connections.length
  · rw [List.getElem?_append_left hlt]
  · rw [List.getElem?_append_right (Nat.le_of_not_lt hlt), List.getElem?_eq_none (Nat.le_of_not_lt hlt), Option.bind_none]
    by_cases hnew : connection - server.connections.length = 0
    · rw [hnew, List.getElem?_cons_zero, Option.bind_some, hstreams, List.getElem?_nil]
    · rw [List.getElem?_eq_none (by simp; omega), Option.bind_none]

omit [CaseMapping] [Rendering] [SqlText] [StructuredText] [Certificates] in
/-- A new stream of a connection comes behind those there are. -/
theorem streamAt_opened {other : Nat} {conn : Connection} (hconn : server.connections[other]? = some conn) :
    (server.withConnection other { conn with streams := conn.streams ++ [.accepted] }).streamAt connection stream =
      if connection = other ∧ stream = conn.streams.length then some .accepted else server.streamAt connection stream := by
  unfold streamAt withConnection
  dsimp only
  by_cases hsame : connection = other
  · subst hsame
    rw [List.getElem?_set_self (List.getElem?_eq_some_iff.mp hconn).1, hconn, Option.bind_some, Option.bind_some]
    dsimp only
    split
    · rename_i hnew
      rw [hnew.2, List.getElem?_append_right le_rfl, Nat.sub_self, List.getElem?_cons_zero]
    · rename_i hold
      by_cases hlt : stream < conn.streams.length
      · rw [List.getElem?_append_left hlt]
      · rw [List.getElem?_eq_none (by simp; omega), List.getElem?_eq_none (Nat.le_of_not_lt hlt)]
  · rw [if_neg fun h => hsame h.1, List.getElem?_set_ne (Ne.symm hsame)]

/-- A stream that is no longer waiting for its Auth never authenticates again. -/
theorem follows_step (argon2 : Argon2) (event : ServerEvent) (hstream : server.streamAt connection stream = some state)
    (hstate : state ≠ .accepted) :
    ∃ next, (server.next argon2 event).streamAt connection stream = some next ∧ Follows state next := by
  have heffect := effect_step argon2 server event
  unfold next
  generalize server.step argon2 event = step at heffect
  -- What is set is the stream that the event is about, so the other streams stay as they are.
  have hset {other otherStream : Nat} {conn changed : Connection} {databases : DatabaseMap} {newState : StreamState}
      (hconn : server.connections[other]? = some conn) (hstreams : changed.streams = conn.streams)
      (hfollows : connection = other ∧ stream = otherStream → Follows state newState) :
      ∃ next, streamAt
        { server with databases, connections := server.connections.set other (withStream changed otherStream newState) }
          connection stream = some next ∧ Follows state next := by
    rw [streamAt_set hconn hstreams]
    split
    · rename_i hsame
      exact ⟨newState, by rw [hstream]; rfl, hfollows hsame⟩
    · exact ⟨state, hstream, follows_refl hstate⟩
  have hown {other otherStream : Nat} {conn : Connection} (hconn : server.connections[other]? = some conn)
      (hsame : connection = other ∧ stream = otherStream) : conn.streams[otherStream]? = some state := by
    obtain ⟨rfl, rfl⟩ := hsame
    exact (streamAt_eq_some hconn).symm.trans hstream
  cases heffect with
  | unchanged event reply => exact ⟨state, hstream, follows_refl hstate⟩
  | connected peerCertDer => exact ⟨state, (streamAt_connected server _ rfl).trans hstream, follows_refl hstate⟩
  | opened other conn hconn =>
      refine ⟨state, ?_, follows_refl hstate⟩
      rw [streamAt_opened hconn, if_neg, hstream]
      rintro ⟨rfl, rfl⟩
      rw [streamAt_eq_some hconn, List.getElem?_eq_none le_rfl] at hstream
      cases hstream
  | closed event other otherStream conn reply hconn => exact hset hconn rfl fun _ => .closed state
  | verified other otherStream conn username password database draws dbName db hname hconn hwaiting hdb haccepted =>
      refine hset hconn rfl fun hsame => absurd ?_ hstate
      exact Option.some.inj ((hown hconn hsame).symm.trans hwaiting)
  | processed other otherStream conn username token database db draws msg nextDatabase hconn hother hdb hpasses =>
      refine hset hconn rfl fun hsame => ?_
      obtain rfl := Option.some.inj ((hown hconn hsame).symm.trans hother)
      exact .moved username token database nextDatabase

/-! ### Messages behind the first one -/

omit [CaseMapping] [Rendering] [SqlText] [StructuredText] [Certificates] in
theorem Serves.streamAt {conn : Connection} {username database : String} {token : UInt64} {db : Database}
    (h : server.Serves connection stream conn username token database db) :
    server.streamAt connection stream = some (.authenticated username token database) :=
  (streamAt_eq_some h.connected).trans h.authenticated

theorem step_accepted {conn : Connection} {msg : ClientMessage} {draws : Draws}
    (hconn : server.connections[connection]? = some conn) (hstream : conn.streams[stream]? = some .accepted) :
    server.step argon2 (.receive connection stream msg draws) = server.handleFirst argon2 connection stream conn msg := by
  rw [step, hconn]
  dsimp only
  rw [hstream]

theorem step_authenticated {conn : Connection} {username database : String} {token : UInt64} {db : Database}
    {msg : ClientMessage} {draws : Draws} (hconn : server.connections[connection]? = some conn)
    (hstream : conn.streams[stream]? = some (.authenticated username token database))
    (hdb : server.databases.lookup database = some db) :
    server.step argon2 (.receive connection stream msg draws) =
      server.handleMessage argon2 connection stream conn username token database db draws msg := by
  rw [step, hconn]
  dsimp only
  rw [hstream]
  dsimp only
  rw [hdb]

/-- The deed of a message on an authenticated stream that passes it on. -/
theorem deed_of_passes {conn : Connection} {username database nextDatabase : String} {token : UInt64} {db : Database}
    {msg : ClientMessage} {draws : Draws} (hconn : server.connections[connection]? = some conn)
    (hstream : conn.streams[stream]? = some (.authenticated username token database))
    (hdb : server.databases.lookup database = some db) (hpasses : passesTo server.databases database msg = some nextDatabase) :
    (server.step argon2 (.receive connection stream msg draws)).deed =
      (processAuthenticatedMessage argon2 draws msg database db conn.sessions conn.prepared token username).deed := by
  have hcases := @handleMessage_cases _ _ _ _ argon2 server connection stream conn username token database db draws msg
  rw [hpasses] at hcases
  rw [step_authenticated hconn hstream hdb]
  exact congrArg Step.deed hcases

omit [Certificates] in
/-- Work is done for the user of the stream, on its database, behind a valid token. -/
theorem worked_processAuthenticatedMessage {msg : ClientMessage} {draws : Draws} {sessions : SessionManager}
    {prepared : PreparedCache} {token : UInt64} {username user database dbName : String} {db : Database}
    {text : Option String} {executed : Nat}
    (h : (processAuthenticatedMessage argon2 draws msg database db sessions prepared token username).deed =
      .worked dbName user text executed) :
    sessions.verifyToken token = some username ∧ dbName = database ∧ user = username := by
  unfold processAuthenticatedMessage at h
  split at h
  · cases h
  · rename_i htoken
    refine ⟨not_not.mp htoken, ?_⟩
    cases msg with
    | execute preparedId params =>
        dsimp only at h
        split at h <;> cases h <;> exact ⟨rfl, rfl⟩
    | _ =>
        cases h
        exact ⟨rfl, rfl⟩

/-- Only a message of a stream that the server serves makes it work for a user. -/
theorem serves_of_worked {msg : ClientMessage} {draws : Draws} {username database : String} {text : Option String}
    {executed : Nat}
    (hdeed : (server.step argon2 (.receive connection stream msg draws)).deed = .worked database username text executed) :
    ∃ conn token db nextDatabase, server.Serves connection stream conn username token database db ∧
      passesTo server.databases database msg = some nextDatabase := by
  have heffect := effect_step argon2 server (.receive connection stream msg draws)
  generalize server.step argon2 (.receive connection stream msg draws) = step at heffect hdeed
  cases heffect with
  | processed _ _ conn user token dbName db _ _ nextDatabase hconn hstream hdb hpasses =>
      obtain ⟨htoken, rfl, rfl⟩ := worked_processAuthenticatedMessage hdeed
      exact ⟨conn, token, db, nextDatabase, ⟨hconn, hstream, hdb, htoken⟩, hpasses⟩
  | _ => cases hdeed

end

end Server

end HelionDb
