import HelionDb.Reach
import HelionDb.Streams
import HelionDb.UserRecovery

/-! Prepared statements of a connection. Its streams share one table of them, under identifiers that are
hashes of their texts, so an Execute runs the text that was prepared last among those with its identifier. -/

namespace HelionDb

namespace Server

section

variable [CaseMapping] [Rendering] [SqlText] [StructuredText] [Certificates] {argon2 : Argon2} {server : Server}
  {connection stream : Nat} {conn : Connection} {username database : String} {token : UInt64} {db : Database}
  {prepared : PreparedCache} {draws : Draws} {msg : ClientMessage}

/-- The prepared statements that the streams of a connection share. -/
def preparedAt (server : Server) (connection : Nat) : Option PreparedCache :=
  server.connections[connection]?.map fun conn => conn.prepared

/-- An Execute of an identifier, on whatever stream of the connection it is worked on, runs a text. -/
def RunsPrepared (argon2 : Argon2) (connection : Nat) (id : UInt64) (sql : String) (server : Server) : Prop :=
  ∀ stream params draws database username text executed,
    (server.step argon2 (.receive connection stream (.execute id params) draws)).deed =
      .worked database username text executed → text = some (substituteParams sql params)

/-- A Prepare that the connection serves gives the identifier of a text to no other text. -/
def KeepsText (connection : Nat) (sql : String) (server : Server) (event : ServerEvent) : Prop :=
  ∀ stream text draws conn username token database db, event = .receive connection stream (.prepare text) draws →
    server.Serves connection stream conn username token database db → simpleHash text = simpleHash sql → text = sql

/-! ### One step -/

omit [CaseMapping] [Rendering] [SqlText] [StructuredText] [Certificates] in
theorem preparedAt_eq (hconn : server.connections[connection]? = some conn) :
    server.preparedAt connection = some conn.prepared := by
  rw [preparedAt, hconn, Option.map_some]

omit [CaseMapping] [Rendering] [SqlText] [StructuredText] [Certificates] in
/-- A change of a connection, whatever becomes of the databases. -/
theorem preparedAt_set {other : Nat} {databases : DatabaseMap} {next : Connection}
    (hconn : server.connections[other]? = some conn) :
    preparedAt { server with databases, connections := server.connections.set other next } connection =
      if connection = other then some next.prepared else server.preparedAt connection := by
  unfold preparedAt
  dsimp only
  split
  · rename_i hsame
    subst hsame
    rw [List.getElem?_set_self (List.getElem?_eq_some_iff.mp hconn).1, Option.map_some]
  · rename_i hother
    rw [List.getElem?_set_ne (Ne.symm hother)]

omit [Certificates] in
theorem prepared_processAuthenticatedMessage {sessions : SessionManager} (hmsg : ∀ sql, msg ≠ .prepare sql) :
    (processAuthenticatedMessage argon2 draws msg database db sessions prepared token username).prepared = prepared := by
  unfold processAuthenticatedMessage
  split
  · rfl
  · cases msg with
    | prepare sql => exact absurd rfl (hmsg sql)
    | execute preparedId params =>
        dsimp only
        split <;> rfl
    | _ => rfl

omit [Certificates] in
theorem processAuthenticatedMessage_prepare {sessions : SessionManager} (sql : String)
    (htoken : sessions.verifyToken token = some username) :
    processAuthenticatedMessage argon2 draws (.prepare sql) database db sessions prepared token username =
      { reply := .prepared (simpleHash sql), db, prepared := Function.update prepared (simpleHash sql) (some sql)
        deed := .worked database username none 0 } := by
  unfold processAuthenticatedMessage
  rw [if_neg (not_not.mpr htoken)]

/-- A step prepares a text on a stream that it serves, or leaves the prepared statements as they are. -/
theorem preparedAt_next (argon2 : Argon2) (event : ServerEvent) (hprepared : server.preparedAt connection = some prepared) :
    (server.next argon2 event).preparedAt connection = some prepared ∨
      ∃ stream sql draws conn username token database db, event = .receive connection stream (.prepare sql) draws ∧
        server.Serves connection stream conn username token database db ∧
        (server.next argon2 event).preparedAt connection =
          some (Function.update prepared (simpleHash sql) (some sql)) := by
  have heffect := effect_step argon2 server event
  unfold next
  generalize server.step argon2 event = step at heffect
  -- Where the changed connection has the prepared statements it had, so has every connection.
  have hset {other : Nat} {conn changed : Connection} {databases : DatabaseMap}
      (hconn : server.connections[other]? = some conn) (hsame : changed.prepared = conn.prepared) :
      preparedAt { server with databases, connections := server.connections.set other changed } connection =
        some prepared := by
    rw [preparedAt_set hconn]
    split
    · rename_i hother
      subst hother
      rw [hsame, ← preparedAt_eq hconn, hprepared]
    · exact hprepared
  cases heffect with
  | unchanged event reply => exact .inl hprepared
  | connected peerCertDer =>
      obtain ⟨conn, hconn, rfl⟩ := Option.map_eq_some_iff.mp hprepared
      have hlt := (List.getElem?_eq_some_iff.mp hconn).1
      refine .inl (preparedAt_eq ?_)
      rw [← hconn]
      exact List.getElem?_append_left hlt
  | opened other conn hconn => exact .inl (hset hconn rfl)
  | closed event other otherStream conn reply hconn => exact .inl (hset hconn rfl)
  | verified other otherStream conn username password database draws dbName db hname hconn hwaiting hdb haccepted =>
      exact .inl (hset hconn rfl)
  | processed other otherStream conn username token database db draws msg nextDatabase hconn hstream hdb hpasses =>
      by_cases hprepares : ∃ sql, msg = .prepare sql
      · obtain ⟨sql, rfl⟩ := hprepares
        by_cases htoken : conn.sessions.verifyToken token = some username
        · by_cases hother : connection = other
          · subst hother
            refine .inr ⟨otherStream, sql, draws, conn, username, token, database, db, rfl, ⟨hconn, hstream, hdb, htoken⟩, ?_⟩
            have hheld := Option.some.inj ((preparedAt_eq hconn).symm.trans hprepared)
            dsimp only [processed]
            rw [preparedAt_set hconn, if_pos rfl, processAuthenticatedMessage_prepare sql htoken, ← hheld]
            rfl
          · refine .inl ?_
            dsimp only [processed]
            rw [preparedAt_set hconn, if_neg hother, hprepared]
        · refine .inl (hset hconn ?_)
          dsimp only [withStream, processAuthenticatedMessage]
          rw [if_pos htoken]
      · refine .inl (hset hconn ?_)
        exact prepared_processAuthenticatedMessage fun sql hsql => hprepares ⟨sql, hsql⟩

/-- A Prepare on a stream that the server serves: it puts the text under its hash, and the stream is served on. -/
theorem Serves.prepare (argon2 : Argon2) (h : server.Serves connection stream conn username token database db) (sql : String)
    (draws : Draws) :
    ∃ next, (server.next argon2 (.receive connection stream (.prepare sql) draws)).Serves connection stream next username
      token database db ∧ next.prepared = Function.update conn.prepared (simpleHash sql) (some sql) := by
  have hstep : server.step argon2 (.receive connection stream (.prepare sql) draws) =
      server.processed argon2 connection stream conn username token database db draws (.prepare sql) database :=
    step_authenticated h.connected h.authenticated h.found
  have hlt := (List.getElem?_eq_some_iff.mp h.connected).1
  have hltStream := (List.getElem?_eq_some_iff.mp h.authenticated).1
  rw [next, hstep]
  dsimp only [processed]
  rw [processAuthenticatedMessage_prepare sql h.valid]
  refine ⟨_, ⟨List.getElem?_set_self hlt, List.getElem?_set_self hltStream, Finmap.lookup_insert _, h.valid⟩, rfl⟩

/-- An Execute on a stream that the server serves: it runs the text under the identifier, if there is one. -/
theorem Serves.execute (argon2 : Argon2) (h : server.Serves connection stream conn username token database db) (id : UInt64)
    (params : List String) (draws : Draws) :
    ∃ executed, (server.step argon2 (.receive connection stream (.execute id params) draws)).deed =
      .worked database username ((conn.prepared id).map fun sql => substituteParams sql params) executed := by
  rw [deed_of_passes h.connected h.authenticated h.found rfl]
  unfold processAuthenticatedMessage
  rw [if_neg (not_not.mpr h.valid)]
  dsimp only
  cases conn.prepared id with
  | none => exact ⟨0, rfl⟩
  | some sql => exact ⟨_, rfl⟩

/-- An identifier is handed out to a stream that the server serves. -/
theorem serves_of_prepared {sql : String} {id : UInt64}
    (hreply : (server.step argon2 (.receive connection stream (.prepare sql) draws)).reply = some (.prepared id)) :
    id = simpleHash sql ∧ ∃ conn username token database db, server.Serves connection stream conn username token database db := by
  rw [step] at hreply
  split at hreply
  · cases hreply
  · rename_i conn hconn
    split at hreply
    · cases hreply
    · rename_i username token database hstream
      split at hreply
      · cases hreply
      · rename_i db hdb
        by_cases htoken : conn.sessions.verifyToken token = some username
        · refine ⟨?_, conn, username, token, database, db, hconn, hstream, hdb, htoken⟩
          dsimp only [handleMessage, processed] at hreply
          rw [processAuthenticatedMessage_prepare sql htoken] at hreply
          cases hreply
          rfl
        · dsimp only [handleMessage, processed, processAuthenticatedMessage] at hreply
          rw [if_pos htoken] at hreply
          cases hreply
    · cases hreply

/-- The identifier stands for the text. -/
def Holds (connection : Nat) (sql : String) (server : Server) : Prop :=
  ∃ prepared, server.preparedAt connection = some prepared ∧ prepared (simpleHash sql) = some sql

theorem Holds.runsPrepared {sql : String} (h : Holds connection sql server) :
    RunsPrepared argon2 connection (simpleHash sql) sql server := by
  intro stream params draws database username text executed hdeed
  obtain ⟨prepared, hprepared, hheld⟩ := h
  obtain ⟨conn, token, db, _, hserves, -⟩ := serves_of_worked hdeed
  obtain ⟨executed', hexecutes⟩ := hserves.execute argon2 (simpleHash sql) params draws
  have hsame := Option.some.inj ((preparedAt_eq hserves.connected).symm.trans hprepared)
  rw [hexecutes, hsame, hheld] at hdeed
  cases hdeed
  rfl

theorem Holds.next {sql : String} {event : ServerEvent} (h : Holds connection sql server)
    (hkeeps : KeepsText connection sql server event) : Holds connection sql (server.next argon2 event) := by
  obtain ⟨prepared, hprepared, hheld⟩ := h
  rcases preparedAt_next argon2 event hprepared with
    hsame | ⟨stream, text, draws, conn, username, token, database, db, hevent, hserves, hupdated⟩
  · exact ⟨prepared, hsame, hheld⟩
  · refine ⟨_, hupdated, ?_⟩
    by_cases hhash : simpleHash text = simpleHash sql
    · obtain rfl := hkeeps stream text draws conn username token database db hevent hserves hhash
      rw [Function.update_self]
    · rw [Function.update_of_ne (Ne.symm hhash)]
      exact hheld

/-- A Prepare that gives the identifier away is seen by the next Execute, even one without parameters. -/
theorem keepsText_of_runsPrepared {sql : String} {event : ServerEvent}
    (hruns : RunsPrepared argon2 connection (simpleHash sql) sql (server.next argon2 event)) :
    KeepsText connection sql server event := by
  intro stream text draws conn username token database db hevent hserves hhash
  subst hevent
  obtain ⟨next, hnext, hupdated⟩ := hserves.prepare argon2 text draws
  obtain ⟨executed, hdeed⟩ := hnext.execute argon2 (simpleHash sql) [] draws
  have hran := hruns stream [] draws database username _ executed hdeed
  rw [hupdated, ← hhash, Function.update_self] at hran
  exact String.ofList_toList.symm.trans ((Option.some.inj hran).trans String.ofList_toList)

/-- Behind a Prepare that was answered with an identifier, whatever happens to the server, an Execute of the
identifier on the connection runs the text of the Prepare exactly when no other text of the same hash is
prepared there. -/
theorem prepared_runs_iff (start : Server) (stream : Nat) (sql : String) (id : UInt64) (draws : Draws)
    (hreply : (start.step argon2 (.receive connection stream (.prepare sql) draws)).reply = some (.prepared id))
    (events : List ServerEvent) :
    let prepared := start.next argon2 (.receive connection stream (.prepare sql) draws)
    (∀ taken, taken <+: events → RunsPrepared argon2 connection id sql (taken.foldl (next argon2) prepared)) ↔
      Meets (next argon2) (KeepsText connection sql) prepared events := by
  obtain ⟨rfl, conn, username, token, database, db, hserves⟩ := serves_of_prepared hreply
  obtain ⟨next, hnext, hupdated⟩ := hserves.prepare argon2 sql draws
  have hstart : Holds connection sql (start.next argon2 (.receive connection stream (.prepare sql) draws)) :=
    ⟨_, preparedAt_eq hnext.connected, by rw [hupdated, Function.update_self]⟩
  refine (Meets.iff_shown (P := Holds connection sql) (fun state h => h.runsPrepared) (fun state event h hkeeps => ?_)
    (fun state event _ hruns => keepsText_of_runsPrepared hruns) hstart events).symm
  exact h.next hkeeps

end

namespace Tables

/-- A stand-in for the statements of the runs below; opened where they are evaluated. -/
scoped instance (priority := high) sqlText : SqlText where
  parse text :=
    match text with
    | "SHOW TABLES" => .ok [.showTables]
    | "DROP TABLE az" => .ok [.dropTable "az" false]
    | "DROP TABLE bY" => .ok [.dropTable "bY" false]
    | _ => .error (.parse "Expected statement")
  renderPlan _ _ := "plan"

end Tables

section

open scoped AsciiCase PlainText Tables

/-- Two tables and two users. -/
def furnished : List AdminCall :=
  [.createTable "az" [.new "a" .integer] none, .createTable "bY" [.new "a" .integer] none, .createUser "ann" "x" "s",
    .createUser "bob" "y" "s"]

/-- A connection with two streams, before the first message of either. -/
def joined : Server :=
  { databases := Finmap.singleton "a" (furnished.foldl (Database.adminStep .plain) .empty)
    defaultDatabase := "a"
    connections := [{ peerCertDer := none, sessions := .new, prepared := fun _ => none, streams := [.accepted, .accepted] }] }

/-- Each user has authenticated on a stream. -/
def shared : Server :=
  [.receive 0 0 (.auth "ann" "x" "") .asGiven, .receive 0 1 (.auth "bob" "y" "") .asGiven].foldl (next .plain) joined

/-- A Prepare on a stream. -/
def prepares (stream : Nat) (sql : String) : ServerEvent := .receive 0 stream (.prepare sql) .asGiven

theorem prepared_runs_shared :
    RunsPrepared .plain 0 (simpleHash "DROP TABLE az") "DROP TABLE az"
      ([prepares 1 "SHOW TABLES", prepares 1 "DROP TABLE az"].foldl (next .plain)
        (shared.next .plain (prepares 0 "DROP TABLE az"))) := by
  have hruns : ∀ taken, taken <+: [prepares 1 "SHOW TABLES", prepares 1 "DROP TABLE az"] →
      RunsPrepared .plain 0 (simpleHash "DROP TABLE az") "DROP TABLE az"
        (taken.foldl (next .plain) (shared.next .plain (prepares 0 "DROP TABLE az"))) := by
    refine (prepared_runs_iff shared 0 "DROP TABLE az" _ .asGiven (by decide) _).mpr ⟨?_, ?_, trivial⟩
    · rintro _ _ _ _ _ _ _ _ ⟨⟩ _ hhash
      revert hhash
      decide
    · rintro _ _ _ _ _ _ _ _ ⟨⟩ _ _
      rfl
  exact hruns _ (List.prefix_refl _)

/-- One user prepares a statement that drops its table, the other one a statement with the same hash. The first
user executes the identifier it was given, and the table of the other statement is gone. -/
theorem not_prepared_runs_replaced :
    (shared.step .plain (prepares 0 "DROP TABLE az")).reply = some (.prepared (simpleHash "DROP TABLE az")) ∧
      ((((shared.next .plain (prepares 0 "DROP TABLE az")).next .plain (prepares 1 "DROP TABLE bY")).next .plain
          (.receive 0 0 (.execute (simpleHash "DROP TABLE az") []) .asGiven)).databases.lookup "a").map
            (fun db => (db.tableExists "az", db.tableExists "bY")) = some (true, false) ∧
      ¬ ∀ taken, taken <+: [prepares 1 "DROP TABLE bY"] →
        RunsPrepared .plain 0 (simpleHash "DROP TABLE az") "DROP TABLE az"
          (taken.foldl (next .plain) (shared.next .plain (prepares 0 "DROP TABLE az"))) := by
  refine ⟨by decide, by decide +kernel, fun h => ?_⟩
  have hran := h [prepares 1 "DROP TABLE bY"] (List.prefix_refl _) 0 [] .asGiven "a" "ann" (some "DROP TABLE bY") 1 (by decide +kernel)
  revert hran
  decide

end

end Server

end HelionDb
