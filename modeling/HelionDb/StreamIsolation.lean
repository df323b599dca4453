import HelionDb.Reach
import HelionDb.Streams
import HelionDb.UserRecovery

/-! Databases on a stream. The user of a stream and its token stay as the Auth message left them, while USE
changes the database that the messages run on. The user is never shown to the user store of the new
database, so a statement runs on a database that has verified its user exactly when the stream is, at that
moment, on the database that its Auth named. -/

namespace HelionDb

section

variable [CaseMapping] [Rendering] [SqlText] {argon2 : Argon2} {draws : Draws} {username : String}

/-- The text parses to a first statement that can be planned. -/
def StartsSql (db : Database) (sql : String) : Prop :=
  ∃ first rest logicalPlan, SqlText.parse sql = .ok (first :: rest) ∧ plan db.engine.tables first = .ok logicalPlan

theorem le_executed_executeStatements (executed : Nat) (lastResult : Option QueryResult) (db : Database)
    (stmts : List HelionStatement) :
    executed ≤ (executeStatements argon2 draws username executed lastResult db stmts).executed := by
  induction stmts generalizing executed lastResult db with
  | nil => exact Nat.le_refl executed
  | cons stmt rest ih =>
      rw [executeStatements]
      split
      · exact Nat.le_refl executed
      · split
        · exact Nat.le_succ executed
        · exact Nat.le_of_succ_le (ih _ _ _)

/-- A text executes a statement exactly when its first one can be planned. -/
theorem executed_executeSqlAs_pos_iff {sql : String} {db : Database} :
    0 < (executeSqlAs argon2 draws username sql db).executed ↔ StartsSql db sql := by
  unfold executeSqlAs StartsSql
  cases hparse : SqlText.parse sql with
  | error err => simp
  | ok stmts =>
      cases stmts with
      | nil => simp [executeStatements]
      | cons first rest =>
          dsimp only
          rw [executeStatements]
          cases hplan : plan db.engine.tables first with
          | error err => simp [hplan]
          | ok logicalPlan =>
              refine iff_of_true ?_ ⟨first, rest, logicalPlan, rfl, hplan⟩
              dsimp only
              split
              · exact Nat.one_pos
              · exact le_executed_executeStatements 1 _ _ _

theorem le_executed_run (structured : Structured) (executed : Nat) (db : Database) :
    executed ≤ (structured.run argon2 draws username executed db).executed := by
  induction structured generalizing executed db with
  | done result => exact Nat.le_refl executed
  | call makePlan next ih =>
      rw [Structured.run]
      split
      · exact Nat.le_refl executed
      · split
        · exact Nat.le_succ executed
        · exact Nat.le_of_succ_le (ih _ _ _)

variable [StructuredText]

/-- The message leads to a statement that is executed. -/
def ClientMessage.Starts (db : Database) (prepared : PreparedCache) : ClientMessage → Prop
  | .query sql => StartsSql db sql
  | .execute preparedId params =>
      ∃ originalSql, prepared preparedId = some originalSql ∧ StartsSql db (substituteParams originalSql params)
  | .structuredQuery queryJson =>
      ∃ makePlan next logicalPlan, StructuredText.request queryJson = .call makePlan next ∧
        makePlan db.engine.tables = .ok logicalPlan
  | .prepare _ | .auth _ _ _ => False

/-- A message behind a valid token is worked on for the user of the stream, on its database. -/
theorem deed_processAuthenticatedMessage {msg : ClientMessage} {database : String} {db : Database}
    {sessions : SessionManager} {prepared : PreparedCache} {token : UInt64}
    (htoken : sessions.verifyToken token = some username) :
    ∃ text executed, (processAuthenticatedMessage argon2 draws msg database db sessions prepared token username).deed =
      .worked database username text executed ∧ (0 < executed ↔ msg.Starts db prepared) := by
  unfold processAuthenticatedMessage
  rw [if_neg (not_not.mpr htoken)]
  cases msg with
  | query sql => exact ⟨_, _, rfl, executed_executeSqlAs_pos_iff⟩
  | prepare sql => exact ⟨_, _, rfl, by simp [ClientMessage.Starts]⟩
  | execute preparedId params =>
      dsimp only [ClientMessage.Starts]
      cases hprepared : prepared preparedId with
      | none => exact ⟨_, _, rfl, by simp⟩
      | some originalSql =>
          refine ⟨_, _, rfl, executed_executeSqlAs_pos_iff.trans ?_⟩
          simp
  | auth username password database => exact ⟨_, _, rfl, by simp [ClientMessage.Starts]⟩
  | structuredQuery queryJson =>
      refine ⟨_, _, rfl, ?_⟩
      dsimp only [ClientMessage.Starts]
      cases hrequest : StructuredText.request queryJson with
      | done result => simp [Structured.run]
      | call makePlan next =>
          rw [Structured.run]
          cases hplan : makePlan db.engine.tables with
          | error err =>
              refine iff_of_false (Nat.lt_irrefl 0) ?_
              rintro ⟨makePlan', next', logicalPlan, hsame, hok⟩
              cases hsame
              rw [hplan] at hok
              cases hok
          | ok logicalPlan =>
              refine iff_of_true ?_ ⟨makePlan, next, logicalPlan, rfl, hplan⟩
              dsimp only
              split
              · exact Nat.one_pos
              · exact le_executed_run _ 1 _

end

/-! ### Runs of a stream -/

namespace Server

section

variable [CaseMapping] [Rendering] [SqlText] [StructuredText] [Certificates] {argon2 : Argon2} {server : Server}
  {connection stream : Nat} {home : String}

/-- The database that an Auth message names. -/
def authDatabase (server : Server) (database : String) : String :=
  if database.isEmpty then server.defaultDatabase else database

/-- A statement that the event executes on the stream runs on the database that verified its user. -/
def ActsVerified (argon2 : Argon2) (connection stream : Nat) (auth : Deed) (server : Server) (event : ServerEvent) : Prop :=
  ∀ msg draws, event = .receive connection stream msg draws →
    ∀ database username text executed, (server.step argon2 event).deed = .worked database username text executed →
      0 < executed → auth = .verified database username

/-- A message of the stream that leads to a statement comes while the stream is on a database. -/
def StaysOn (home : String) (connection stream : Nat) (server : Server) (event : ServerEvent) : Prop :=
  ∀ msg draws conn username token database db nextDatabase, event = .receive connection stream msg draws →
    server.Serves connection stream conn username token database db →
    passesTo server.databases database msg = some nextDatabase → msg.Starts db conn.prepared → database = home

/-- Where a stream is behind its Auth: done with, or running for the user that the named database verified. -/
def EnteredAt (connection stream : Nat) (home : String) (auth : Deed) (server : Server) : Prop :=
  server.streamAt connection stream = some .closed ∨
    ∃ username token database, server.streamAt connection stream = some (.authenticated username token database) ∧
      auth = .verified home username

/-- An Auth verifies a user against the database it names, by the user store of that database. -/
theorem verified_iff {conn : Connection} (hconn : server.connections[connection]? = some conn)
    (hstream : conn.streams[stream]? = some .accepted) {username password database dbName user : String} {draws : Draws} :
    (server.step argon2 (.receive connection stream (.auth username password database) draws)).deed =
        .verified dbName user ↔
      dbName = server.authDatabase database ∧ ∃ db, server.databases.lookup dbName = some db ∧
        authenticate argon2 conn.peerCertDer username password db = (user, true) := by
  rw [step_accepted hconn hstream]
  dsimp only [handleFirst]
  constructor
  · intro hdeed
    split at hdeed
    · cases hdeed
    · rename_i db hdb
      split at hdeed
      · rename_i haccepted
        cases hdeed
        exact ⟨rfl, db, hdb, Prod.ext rfl haccepted⟩
      · cases hdeed
  · rintro ⟨rfl, db, hdb, haccepted⟩
    rw [authDatabase] at hdb ⊢
    rw [hdb]
    dsimp only
    rw [haccepted, if_pos rfl]

omit [CaseMapping] [Rendering] [SqlText] [StructuredText] [Certificates] in
theorem EnteredAt.auth_eq {auth : Deed} {conn : Connection} {username database : String} {token : UInt64}
    (hentered : EnteredAt connection stream home auth server) (hconn : server.connections[connection]? = some conn)
    (hstream : conn.streams[stream]? = some (.authenticated username token database)) : auth = .verified home username := by
  have hat := (streamAt_eq_some hconn).trans hstream
  obtain hclosed | ⟨user, _, _, hheld, hhome⟩ := hentered
  · cases hclosed.symm.trans hat
  · cases hheld.symm.trans hat
    exact hhome

theorem enteredAt_auth (hwaiting : server.streamAt connection stream = some .accepted)
    (username password database : String) (draws : Draws) :
    let auth := server.step argon2 (.receive connection stream (.auth username password database) draws)
    EnteredAt connection stream (server.authDatabase database) auth.deed auth.server := by
  obtain ⟨conn, hconn, hstream⟩ := Option.bind_eq_some_iff.mp hwaiting
  rw [step_accepted hconn hstream]
  have hset (changed : Connection) (hstreams : changed.streams = conn.streams) (state : StreamState) :
      (server.withConnection connection (withStream changed stream state)).streamAt connection stream = some state := by
    rw [withConnection, streamAt_set hconn hstreams, if_pos ⟨rfl, rfl⟩, hwaiting]
    rfl
  dsimp only [handleFirst]
  split
  · exact .inl (hset conn rfl .closed)
  · split
    · exact .inr ⟨_, _, server.authDatabase database, by exact hset _ (by rfl) _, rfl⟩
    · exact .inl (hset conn rfl .closed)

theorem enteredAt_next {auth : Deed} (event : ServerEvent) (h : EnteredAt connection stream home auth server) :
    EnteredAt connection stream home auth (server.next argon2 event) := by
  obtain hclosed | ⟨username, token, database, hstream, hauth⟩ := h
  · obtain ⟨next, hnext, hfollows⟩ := follows_step argon2 event hclosed (by simp)
    cases hfollows
    exact .inl hnext
  · obtain ⟨next, hnext, hfollows⟩ := follows_step argon2 event hstream (by simp)
    cases hfollows with
    | closed => exact .inl hnext
    | moved _ _ _ nextDatabase => exact .inr ⟨username, token, nextDatabase, hnext, hauth⟩

/-- An event executes a statement of the stream on the database of its user exactly when it stays at home. -/
theorem actsVerified_iff {auth : Deed} (hentered : EnteredAt connection stream home auth server) (event : ServerEvent) :
    ActsVerified argon2 connection stream auth server event ↔ StaysOn home connection stream server event := by
  constructor
  · intro hacts msg draws conn username token database db nextDatabase hevent hserves hpasses hstarts
    subst hevent
    obtain ⟨text, executed, hworked, hpos⟩ := deed_processAuthenticatedMessage hserves.valid
    have hdeed := (deed_of_passes hserves.connected hserves.authenticated hserves.found hpasses).trans hworked
    have hauth := hacts msg draws rfl database username text executed hdeed (hpos.mpr hstarts)
    rw [hentered.auth_eq hserves.connected hserves.authenticated] at hauth
    cases hauth
    rfl
  · intro hstays msg draws hevent database username text executed hdeed hpos
    subst hevent
    obtain ⟨conn, token, db, nextDatabase, hserves, hpasses⟩ := serves_of_worked hdeed
    rw [deed_of_passes hserves.connected hserves.authenticated hserves.found hpasses] at hdeed
    obtain ⟨text', executed', hworked, hstarts⟩ := deed_processAuthenticatedMessage hserves.valid
    rw [hworked] at hdeed
    cases hdeed
    obtain rfl := hstays msg draws conn username token database db nextDatabase rfl hserves hpasses (hstarts.mp hpos)
    exact hentered.auth_eq hserves.connected hserves.authenticated

/-- Behind the Auth of a stream, whatever happens to the server, the statements of the stream run on databases
that verified their user exactly when each of them comes while the stream is on the database of its Auth. -/
theorem stream_isolated_iff (start : Server) (hwaiting : start.streamAt connection stream = some .accepted)
    (username password database : String) (draws : Draws) (events : List ServerEvent) :
    let auth := start.step argon2 (.receive connection stream (.auth username password database) draws)
    (∀ before event after, events = before ++ event :: after →
        ActsVerified argon2 connection stream auth.deed (before.foldl (next argon2) auth.server) event) ↔
      Meets (next argon2) (StaysOn (start.authDatabase database) connection stream) auth.server events := by
  intro auth
  rw [← Meets.iff_splits]
  exact Meets.congr (P := EnteredAt connection stream (start.authDatabase database) auth.deed)
    (fun state event h => enteredAt_next event h) (fun state event h => actsVerified_iff h event)
    (enteredAt_auth hwaiting username password database draws) events

end

namespace OwnedTable

/-- A stand-in for the statements of the runs below; opened where they are evaluated. -/
scoped instance (priority := high) sqlText : SqlText where
  parse text :=
    match text with
    | "SHOW TABLES" => .ok [.showTables]
    | "USE b" => .ok [.useDatabase "b"]
    | "DROP TABLE t" => .ok [.dropTable "t" false]
    | _ => .error (.parse "Expected statement")
  renderPlan _ _ := "plan"

end OwnedTable

section

open scoped AsciiCase PlainText OwnedTable

/-- A database with a user and one with a table that does not know the user. -/
def neighbours : Server :=
  { databases :=
      (Finmap.singleton "a" (Database.empty.adminStep .plain (.createUser "ann" "x" "s"))).insert "b"
        (Database.empty.adminStep .plain (.createTable "t" [.new "a" .integer] none))
    defaultDatabase := "a"
    connections := [{ peerCertDer := none, sessions := .new, prepared := fun _ => none, streams := [.accepted] }] }

/-- The user authenticates to the default database. -/
def entered : Step := neighbours.step .plain (.receive 0 0 (.auth "ann" "x" "") .asGiven)

/-- A Query on the stream. -/
def asks (sql : String) : ServerEvent := .receive 0 0 (.query sql) .asGiven

theorem stream_isolated_entered :
    ActsVerified .plain 0 0 entered.deed (entered.server.next .plain (asks "SHOW TABLES")) (asks "USE b") := by
  have hverified : ∀ before event after, [asks "SHOW TABLES", asks "USE b"] = before ++ event :: after →
      ActsVerified .plain 0 0 entered.deed (before.foldl (next .plain) entered.server) event := by
    refine (stream_isolated_iff neighbours (by decide) "ann" "x" "" .asGiven _).mpr ⟨?_, ?_, trivial⟩
    · rintro _ _ conn username token database db _ _ hserves _ _
      have hat : entered.server.streamAt 0 0 = some (.authenticated "ann" 1 "a") := by decide
      cases hserves.streamAt.symm.trans hat
      decide
    · rintro _ _ conn username token database db _ _ hserves _ _
      have hat : (entered.server.next .plain (asks "SHOW TABLES")).streamAt 0 0 = some (.authenticated "ann" 1 "a") := by decide
      cases hserves.streamAt.symm.trans hat
      decide
  exact hverified [asks "SHOW TABLES"] (asks "USE b") [] rfl

/-- The user moves to the other database and drops its table, as a user that database does not have. -/
theorem not_stream_isolated_moved :
    entered.deed = .verified "a" "ann" ∧
      (∃ db, neighbours.databases.lookup "b" = some db ∧ db.users.userExists "ann" = false ∧ db.tableExists "t" = true) ∧
      (∃ db, ([asks "USE b", asks "DROP TABLE t"].foldl (next .plain) entered.server).databases.lookup "b" = some db ∧
        db.tableExists "t" = false) ∧
      ¬ ∀ before event after, [asks "USE b", asks "DROP TABLE t"] = before ++ event :: after →
        ActsVerified .plain 0 0 entered.deed (before.foldl (next .plain) entered.server) event := by
  refine ⟨by decide, ⟨_, rfl, by decide, by decide⟩, ⟨_, rfl, by decide⟩, fun h => ?_⟩
  have hdeed : ((entered.server.next .plain (asks "USE b")).step .plain (asks "DROP TABLE t")).deed =
      .worked "b" "ann" (some "DROP TABLE t") 1 := by decide
  have hverified := h [asks "USE b"] (asks "DROP TABLE t") [] rfl _ _ rfl "b" "ann" _ 1 hdeed Nat.one_pos
  revert hverified
  decide

end

end Server

end HelionDb
