import HelionDb.ByteOffsets
import HelionDb.Protocol

/-! The server of `session.rs`: databases, each with its own users, connections with their session tokens and
prepared statements, and streams that first authenticate and then send messages. A message is handled in one
step. Next to the reply a step tells what it did: whom it verified against which database, and for whom it
worked on which. What the crate `x509_parser` reads from a certificate and the statements that a structured
query leads to are parameters. -/

namespace HelionDb

/-- The attributes of the subject of a certificate, as their types and texts. -/
class Certificates where
  subject : List UInt8 → Option (List (String × Option String))

/-- The plans that a structured query runs: it reads and writes rows. -/
def Plan.OnRows : Plan → Prop
  | .query _ | .insert _ _ | .update _ _ _ _ | .delete _ _ _ => True
  | _ => False

/-- `execute_structured` as the plans it makes on the tables there are and what it does with their results. -/
inductive Structured where
  | done (result : Except HelionError String)
  | call (plan : List Table → Except HelionError { plan : Plan // plan.OnRows }) (next : QueryResult → Structured)

/-- What the JSON text of a structured query asks for. -/
class StructuredText where
  request : String → Structured

namespace PlainText

/-- A stand-in for clients without certificates; opened where runs are evaluated. -/
scoped instance certificates : Certificates where
  subject _ := none

/-- A stand-in that refuses every structured query; opened where runs are evaluated. -/
scoped instance structuredText : StructuredText where
  request _ := .done (.error (.parse "Structured query parse error"))

end PlainText

/-- What the statements of a message draw while they run. -/
structure Draws where
  choices : Nat → Choices
  depth : Nat

/-- Draws of a run that draws nothing in particular. -/
def Draws.asGiven : Draws := { choices := fun _ => .asGiven, depth := 0 }

/-- What running a request leaves: its result, the engine and how many statements went to `execute_as`. -/
structure Execution (α : Type) where
  result : Except HelionError α
  db : Database
  executed : Nat

/-- What a message made the server do. -/
inductive Deed where
  | nothing
  /-- A user was accepted by the user store of a database. -/
  | verified (database username : String)
  /-- The server worked on a database for a user: on the text of statements if there was one, executing so many. -/
  | worked (database username : String) (text : Option String) (executed : Nat)
  deriving DecidableEq

/-- A stream: before its first message, behind a successful Auth, or done with. -/
inductive StreamState where
  | accepted
  | authenticated (username : String) (token : UInt64) (database : String)
  | closed
  deriving DecidableEq

structure Connection where
  peerCertDer : Option (List UInt8)
  sessions : SessionManager
  prepared : PreparedCache
  streams : List StreamState

/-- `DatabaseMap`. -/
abbrev DatabaseMap := Finmap fun _ : String => Database

structure Server where
  databases : DatabaseMap
  defaultDatabase : String
  connections : List Connection

/-- What happens to a server. -/
inductive ServerEvent where
  | connect (peerCertDer : Option (List UInt8))
  | acceptBi (connection : Nat)
  | receive (connection stream : Nat) (msg : ClientMessage) (draws : Draws)
  | readError (connection stream : Nat)

section

variable [CaseMapping] [Rendering] [SqlText] (argon2 : Argon2)

/-- The loop of `execute_sql_as`. -/
def executeStatements (draws : Draws) (username : String) :
    (executed : Nat) → (lastResult : Option QueryResult) → Database → List HelionStatement → Execution QueryResult
  | executed, lastResult, db, [] =>
      { result :=
          match lastResult with
          | some result => .ok result
          | none => .error (.internal "No statements executed")
        db, executed }
  | executed, _, db, stmt :: rest =>
      match plan db.engine.tables stmt with
      | .error err => { result := .error err, db, executed }
      | .ok logicalPlan =>
          match db.executeAs argon2 (draws.choices executed) (some username) draws.depth logicalPlan with
          | (.error err, next) => { result := .error err, db := next, executed := executed + 1 }
          | (.ok result, next) => executeStatements draws username (executed + 1) (some result) next rest

/-- `execute_sql_as`. -/
def executeSqlAs (draws : Draws) (username sql : String) (db : Database) : Execution QueryResult :=
  match SqlText.parse sql with
  | .error err => { result := .error err, db, executed := 0 }
  | .ok stmts => executeStatements argon2 draws username 0 none db stmts

/-- `execute_structured`. -/
def Structured.run (draws : Draws) (username : String) : Structured → (executed : Nat) → Database → Execution String
  | done result, executed, db => { result, db, executed }
  | call makePlan next, executed, db =>
      match makePlan db.engine.tables with
      | .error err => { result := .error err, db, executed }
      | .ok logicalPlan =>
          match db.executeAs argon2 (draws.choices executed) (some username) draws.depth logicalPlan.1 with
          | (.error err, after) => { result := .error err, db := after, executed := executed + 1 }
          | (.ok result, after) => (next result).run draws username (executed + 1) after

/-- What `process_authenticated_message` leaves behind. -/
structure Processed where
  reply : ServerMessage
  db : Database
  prepared : PreparedCache
  deed : Deed

/-- The reply to a text of statements. -/
def sqlReply : Except HelionError QueryResult → ServerMessage
  | .ok result => .queryResult result.columns result.rows result.rowsAffected none
  | .error err => .error err.text

/-- The statements of a Query or an Execute. -/
def processSql (draws : Draws) (database username sql : String) (db : Database) (prepared : PreparedCache) : Processed :=
  let execution := executeSqlAs argon2 draws username sql db
  { reply := sqlReply execution.result, db := execution.db, prepared
    deed := .worked database username (some sql) execution.executed }

variable [StructuredText]

/-- `process_authenticated_message` on the engine of a database. -/
def processAuthenticatedMessage (draws : Draws) (msg : ClientMessage) (database : String) (db : Database)
    (sessions : SessionManager) (prepared : PreparedCache) (token : UInt64) (username : String) : Processed :=
  if sessions.verifyToken token ≠ some username then
    { reply := .error "Invalid session token", db, prepared, deed := .nothing }
  else
    match msg with
    | .query sql => processSql argon2 draws database username sql db prepared
    | .prepare sql =>
        { reply := .prepared (simpleHash sql), db
          prepared := Function.update prepared (simpleHash sql) (some sql), deed := .worked database username none 0 }
    | .execute preparedId params =>
        match prepared preparedId with
        | some originalSql => processSql argon2 draws database username (substituteParams originalSql params) db prepared
        | none =>
            { reply := .error ("Prepared statement " ++ toString preparedId.toNat ++ " not found"), db, prepared
              deed := .worked database username none 0 }
    | .structuredQuery queryJson =>
        let execution := (StructuredText.request queryJson).run argon2 draws username 0 db
        { reply :=
            match execution.result with
            | .ok dataJson => .structuredResult dataJson none
            | .error err => .error err.text
          db := execution.db, prepared, deed := .worked database username none execution.executed }
    | .auth _ _ _ => { reply := .error "Already authenticated", db, prepared, deed := .worked database username none 0 }

/-! ### Streams -/

/-- `sql.trim().trim_end_matches(';').trim()`. -/
def trimSql (sql : String) : List Char := trim ((trim sql.toList).rdropWhile (· = ';'))

/-- The database that a text switches to; `some none` where the slicing of the text panics. -/
def useTarget (sqlTrimmed : List Char) : Option (Option String) :=
  if "USE ".toList.isPrefixOf (CaseMapping.toUppercase (String.ofList sqlTrimmed)).toList then
    some ((fromByte 3 sqlTrimmed).map fun rest => String.ofList (trim rest))
  else none

/-- `extract_cn_from_der`. -/
def extractCnFromDer [Certificates] (der : List UInt8) : Option String :=
  (Certificates.subject der).bind fun attributes => attributes.findSome? fun part =>
    if "CN".toList <:+: part.1.toList then
      part.2.bind fun value =>
        let trimmed := String.ofList (trim value.toList)
        if !trimmed.isEmpty && trimmed.utf8ByteSize ≤ 255 then some trimmed else none
    else none

/-- The authentication in `handle_stream`: the name the session goes by, and whether it is accepted. -/
def authenticate [Certificates] (peerCertDer : Option (List UInt8)) (username password : String) (db : Database) :
    String × Bool :=
  match peerCertDer.bind extractCnFromDer with
  | some cn => if db.users.userExists cn then (cn, true) else (username, db.verifyUser argon2 username password)
  | none => (username, db.verifyUser argon2 username password)

namespace Server

/-- The server after a step, the reply and what it did. -/
structure Step where
  server : Server
  reply : Option ServerMessage
  deed : Deed

/-- A connection after a change. -/
def withConnection (server : Server) (connection : Nat) (next : Connection) : Server :=
  { server with connections := server.connections.set connection next }

/-- A stream of a connection after a change. -/
def withStream (conn : Connection) (stream : Nat) (next : StreamState) : Connection :=
  { conn with streams := conn.streams.set stream next }

/-- The first message of a stream. -/
def handleFirst [Certificates] (server : Server) (connection stream : Nat) (conn : Connection) (msg : ClientMessage) : Step :=
  match msg with
  | .auth username password database =>
      let dbName := if database.isEmpty then server.defaultDatabase else database
      match server.databases.lookup dbName with
      | none => { server := server.withConnection connection (withStream conn stream .closed), reply := none, deed := .nothing }
      | some db =>
          let outcome := authenticate argon2 conn.peerCertDer username password db
          if outcome.2 then
            let created := conn.sessions.createSession outcome.1
            { server := server.withConnection connection
                (withStream { conn with sessions := created.2 } stream (.authenticated outcome.1 created.1 dbName))
              reply := some (.authResult true created.1 none), deed := .verified dbName outcome.1 }
          else
            { server := server.withConnection connection (withStream conn stream .closed)
              reply := some (.authResult false 0 (some "Invalid credentials")), deed := .nothing }
  | _ =>
      { server := server.withConnection connection (withStream conn stream .closed)
        reply := some (.error "Authentication required. Send Auth message first."), deed := .nothing }

/-- A message that goes to `process_authenticated_message`; the stream goes on with a database. -/
def processed (server : Server) (connection stream : Nat) (conn : Connection) (username : String) (token : UInt64)
    (database : String) (db : Database) (draws : Draws) (msg : ClientMessage) (nextDatabase : String) : Step :=
  let outcome := processAuthenticatedMessage argon2 draws msg database db conn.sessions conn.prepared token username
  { server :=
      { server with
        databases := server.databases.insert database outcome.db
        connections := server.connections.set connection
          (withStream { conn with prepared := outcome.prepared } stream (.authenticated username token nextDatabase)) }
    reply := some outcome.reply, deed := outcome.deed }

/-- A message behind the first one, on the engine of a database. -/
def handleMessage (server : Server) (connection stream : Nat) (conn : Connection) (username : String) (token : UInt64)
    (database : String) (db : Database) (draws : Draws) (msg : ClientMessage) : Step :=
  match msg with
  | .query sql =>
      let sqlTrimmed := trimSql sql
      if CaseMapping.toUppercase (String.ofList sqlTrimmed) = "SHOW DATABASES" then
        let dbNames := server.databases.keys.sort
        { server, reply := some (.queryResult ["database_name"] (dbNames.map fun name => [name]) dbNames.length none)
          deed := .nothing }
      else
        match useTarget sqlTrimmed with
        | none => processed argon2 server connection stream conn username token database db draws msg database
        | some none =>
            { server := server.withConnection connection (withStream conn stream .closed), reply := none, deed := .nothing }
        | some (some name) =>
            if (server.databases.lookup name).isSome then
              processed argon2 server connection stream conn username token database db draws msg name
            else { server, reply := some (.error ("Database '" ++ name ++ "' not found")), deed := .nothing }
  | _ => processed argon2 server connection stream conn username token database db draws msg database

/-- The names that SHOW DATABASES lists. -/
def databaseNames (server : Server) : List String := server.databases.keys.sort

/-- One step of the server. -/
def step [Certificates] (server : Server) : ServerEvent → Step
  | .connect peerCertDer =>
      { server := { server with
          connections := server.connections ++ [{ peerCertDer, sessions := .new, prepared := fun _ => none, streams := [] }] }
        reply := none, deed := .nothing }
  | .acceptBi connection =>
      match server.connections[connection]? with
      | none => { server, reply := none, deed := .nothing }
      | some conn =>
          { server := server.withConnection connection { conn with streams := conn.streams ++ [.accepted] }
            reply := none, deed := .nothing }
  | .receive connection stream msg draws =>
      match server.connections[connection]? with
      | none => { server, reply := none, deed := .nothing }
      | some conn =>
          match conn.streams[stream]? with
          | some .accepted => handleFirst argon2 server connection stream conn msg
          | some (.authenticated username token database) =>
              match server.databases.lookup database with
              | none => { server, reply := none, deed := .nothing }
              | some db => handleMessage argon2 server connection stream conn username token database db draws msg
          | _ => { server, reply := none, deed := .nothing }
  | .readError connection stream =>
      match server.connections[connection]? with
      | none => { server, reply := none, deed := .nothing }
      | some conn =>
          { server := server.withConnection connection (withStream conn stream .closed), reply := none, deed := .nothing }

/-- The server behind an event. -/
def next [Certificates] (server : Server) (event : ServerEvent) : Server := (server.step argon2 event).server

end Server

end

end HelionDb
