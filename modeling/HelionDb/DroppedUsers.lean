import HelionDb.Reach
import HelionDb.Streams
import HelionDb.UserRecovery

/-! Users that are dropped while the server runs. A drop takes the user out of the user store of its database,
where a new Auth looks, and leaves the tokens of the connections alone. So from then on the server works for
the user on streams that authenticated before, and on streams that another database has verified. -/

namespace HelionDb

/-! ### Who creates a user -/

section

variable [CaseMapping] [Rendering] [SqlText] {argon2 : Argon2} {choices : Choices} {currentUser : Option String}
  {db : Database} {username : String} {draws : Draws}

/-- The statement creates the user, by itself or behind EXPLAIN ANALYZE. -/
inductive HelionStatement.CreatesUser (username : String) : HelionStatement → Prop
  | direct (name password : String) (same : lowerName name = lowerName username) :
      CreatesUser username (.createUser name password)
  | analyzed (verbose : Bool) (statement : String) (first : HelionStatement) (rest : List HelionStatement)
      (parses : SqlText.parse statement = .ok (first :: rest)) (creates : CreatesUser username first) :
      CreatesUser username (.explain true verbose statement)

omit [Rendering] [SqlText] in
/-- Only the call that creates a user lets a name exist. -/
theorem Database.userExists_adminStep {call : AdminCall} (hgone : db.users.userExists username = false)
    (hcall : ∀ name password salt, call = .createUser name password salt → lowerName name ≠ lowerName username) :
    (db.adminStep argon2 call).users.userExists username = false := by
  have heffect := adminStep_effect argon2 db call
  generalize db.adminStep argon2 call = next at heffect
  cases heffect with
  | createUser name password salt hash users fresh hashed added =>
      have hother := hcall name password salt rfl
      change users.userExists username = false
      rw [UserStore.userExists_eq] at hgone ⊢
      rw [@UserStore.getUser_of_added db.users users { username := name, passwordHash := hash } fresh added,
        if_neg (Ne.symm hother)]
      exact hgone
  | dropUser name users existing kept =>
      change users.userExists username = false
      rw [UserStore.userExists_eq] at hgone ⊢
      rw [UserStore.getUser_of_kept kept]
      split
      · rfl
      · exact hgone
  | alterUserPassword name newPassword salt hash user existing hashed =>
      exact (UserStore.userExists_setHash db.users name hash username).trans hgone
  | _ => exact hgone

omit [Rendering] [SqlText] in
/-- Behind DROP USER the name does not exist, whether it did before or not. -/
theorem Database.userExists_dropUser (db : Database) (username : String) :
    (db.dropUser username).2.users.userExists username = false := by
  unfold dropUser
  cases hdropped : db.users.dropUser username with
  | error err =>
      dsimp only
      by_contra hexists
      obtain ⟨next, hok⟩ := UserStore.exists_dropUser (Bool.not_eq_false _ ▸ hexists)
      rw [hdropped] at hok
      cases hok
  | ok users =>
      obtain ⟨-, hkept⟩ := UserStore.dropUser_eq_ok.mp hdropped
      change users.userExists username = false
      rw [UserStore.userExists_eq, UserStore.getUser_of_kept hkept, if_pos rfl]
      rfl

omit [CaseMapping] [Rendering] [SqlText] in
/-- The plans that create a user or explain a statement come from the statements that say so. -/
theorem stmt_of_plan {tables : List Table} {stmt : HelionStatement} {statementPlan : Plan}
    (h : plan tables stmt = .ok statementPlan) :
    (∀ name password, statementPlan = .createUser name password → stmt = .createUser name password) ∧
    ∀ analyze verbose statement, statementPlan = .explain analyze verbose statement →
      stmt = .explain analyze verbose statement := by
  cases stmt with
  | createUser name password =>
      cases h
      refine ⟨?_, nofun⟩
      rintro _ _ ⟨⟩
      rfl
  | explain analyze verbose statement =>
      cases h
      refine ⟨nofun, ?_⟩
      rintro _ _ _ ⟨⟩
      rfl
  | update =>
      simp only [plan, Loop.bind_ok_iff] at h
      obtain ⟨_, _, _, _, h⟩ := h
      cases h
      exact ⟨nofun, nofun⟩
  | insert | select | delete | createIndex =>
      simp only [plan, Loop.bind_ok_iff] at h
      obtain ⟨_, _, h⟩ := h
      cases h
      exact ⟨nofun, nofun⟩
  | _ =>
      cases h
      exact ⟨nofun, nofun⟩

omit [CaseMapping] [Rendering] in
/-- A statement that comes to a call that creates a user is one that creates it. -/
theorem createsUser_of_callOf {tables : List Table} {stmt : HelionStatement} {statementPlan : Plan} {depth : Nat}
    {name password salt : String} (hplan : plan tables stmt = .ok statementPlan)
    (hcall : Database.callOf choices.salt depth db statementPlan = some (.createUser name password salt)) :
    stmt.CreatesUser name := by
  induction depth generalizing tables stmt statementPlan with
  | zero =>
      cases statementPlan with
      | createUser name' password' =>
          obtain rfl := (stmt_of_plan hplan).1 _ _ rfl
          cases hcall
          exact .direct name password rfl
      | explain analyze verbose statement =>
          rw [Database.callOf] at hcall
          split at hcall
          · cases hcall
          · split at hcall <;> cases hcall
      | _ => cases hcall
  | succ depth ih =>
      cases statementPlan with
      | createUser name' password' =>
          obtain rfl := (stmt_of_plan hplan).1 _ _ rfl
          cases hcall
          exact .direct name password rfl
      | explain analyze verbose statement =>
          obtain rfl := (stmt_of_plan hplan).2 _ _ _ rfl
          rw [Database.callOf] at hcall
          split at hcall
          · cases hcall
          · rename_i inner hinner
            split at hcall
            · rename_i hanalyze
              subst hanalyze
              unfold Database.explained at hinner
              split at hinner
              · cases hinner
              · cases hinner
              · rename_i first rest hparse
                exact .analyzed verbose statement first rest hparse (ih hinner hcall)
            · cases hcall
      | _ => cases hcall

omit [CaseMapping] [Rendering] in
theorem HelionStatement.CreatesUser.congr {stmt : HelionStatement} {name : String} (h : stmt.CreatesUser name)
    (hsame : lowerName name = lowerName username) : stmt.CreatesUser username := by
  induction h with
  | direct other password same => exact .direct other password (same.trans hsame)
  | analyzed verbose statement first rest parses _ ih => exact .analyzed verbose statement first rest parses ih

theorem Database.userExists_executeAs {depth : Nat} {statementPlan : Plan} (hgone : db.users.userExists username = false)
    (hcall : ∀ name password salt,
      callOf choices.salt depth db statementPlan = some (.createUser name password salt) → lowerName name ≠ lowerName username) :
    (db.executeAs argon2 choices currentUser depth statementPlan).2.users.userExists username = false := by
  have heffect : MakesCall argon2 db (callOf choices.salt depth db statementPlan)
      (db.executeAs argon2 choices currentUser depth statementPlan).2 := executeAs_effect depth statementPlan
  unfold MakesCall at heffect
  split at heffect
  · rename_i call hcomes
    rw [heffect]
    exact userExists_adminStep hgone fun name password salt hsame => hcall name password salt (hsame ▸ hcomes)
  · obtain ⟨engine, -, hnext⟩ := heffect
    rw [hnext]
    exact hgone

/-- Statements that do not create the user leave its name without one. -/
theorem userExists_executeStatements {user : String} {executed : Nat} {lastResult : Option QueryResult}
    {stmts : List HelionStatement} (hgone : db.users.userExists username = false)
    (hstmts : ∀ stmt ∈ stmts, ¬ stmt.CreatesUser username) :
    (executeStatements argon2 draws user executed lastResult db stmts).db.users.userExists username = false := by
  induction stmts generalizing executed lastResult db with
  | nil => exact hgone
  | cons stmt rest ih =>
      rw [executeStatements]
      split
      · exact hgone
      · rename_i logicalPlan hplan
        have hafter :
            (db.executeAs argon2 (draws.choices executed) (some user) draws.depth logicalPlan).2.users.userExists
            username = false := Database.userExists_executeAs hgone fun name password salt hcall hsame =>
          hstmts stmt List.mem_cons_self ((createsUser_of_callOf hplan hcall).congr hsame)
        split
        · rename_i hrun
          rw [hrun] at hafter
          exact hafter
        · rename_i hrun
          rw [hrun] at hafter
          exact ih hafter fun other hother => hstmts other (List.mem_cons_of_mem stmt hother)

/-- Behind statements that went through, among them a DROP USER that nothing later undoes, the name does not exist. -/
theorem userExists_of_dropUser {user : String} {executed : Nat} {lastResult : Option QueryResult}
    {before rest : List HelionStatement} {ifExists : Bool} {result : QueryResult}
    (hrest : ∀ stmt ∈ rest, ¬ stmt.CreatesUser username)
    (hok : (executeStatements argon2 draws user executed lastResult db (before ++ .dropUser username ifExists :: rest)).result =
      .ok result) :
    (executeStatements argon2 draws user executed lastResult db
      (before ++ .dropUser username ifExists :: rest)).db.users.userExists username = false := by
  induction before generalizing executed lastResult db with
  | nil =>
      rw [List.nil_append, executeStatements] at hok ⊢
      dsimp only [plan] at hok ⊢
      have hdropped : (db.executeAs argon2 (draws.choices executed) (some user) draws.depth
          (.dropUser username ifExists)).2.users.userExists username = false := by
        rw [Database.executeAs]
        split
        · split <;> exact db.userExists_dropUser username
        · exact db.userExists_dropUser username
      split at hok
      · cases hok
      · rename_i hrun
        rw [hrun] at hdropped
        exact userExists_executeStatements hdropped hrest
  | cons stmt earlier ih =>
      rw [List.cons_append, executeStatements] at hok ⊢
      split at hok
      · cases hok
      · split at hok
        · cases hok
        · exact ih hok

end

namespace Server

section

variable [CaseMapping] [Rendering] [SqlText] [StructuredText] [Certificates] {argon2 : Argon2} {server : Server}
  {connection stream : Nat} {username database : String} {token : UInt64} {db : Database} {msg : ClientMessage}
  {draws : Draws}

/-- A message that went through, with a DROP USER among its statements and none behind it that creates the user. -/
def DropsUser (argon2 : Argon2) (database username : String) (server : Server) (event : ServerEvent) : Prop :=
  ∃ user text executed before ifExists rest columns rows affected,
    (server.step argon2 event).deed = .worked database user (some text) executed ∧
      SqlText.parse text = .ok (before ++ .dropUser username ifExists :: rest) ∧
      (∀ stmt ∈ rest, ¬ stmt.CreatesUser username) ∧
      (server.step argon2 event).reply = some (.queryResult columns rows affected none)

/-- The user is not in the user store of the database. -/
def Absent (database username : String) (server : Server) : Prop :=
  ∀ db ∈ server.databases.lookup database, db.users.userExists username = false

/-- Whatever happens, the user is not created again in the database. -/
def StaysAbsent (argon2 : Argon2) (database username : String) (server : Server) (event : ServerEvent) : Prop :=
  Absent database username (server.next argon2 event)

omit [Certificates] in
theorem processAuthenticatedMessage_text {sessions : SessionManager} {prepared : PreparedCache} {user dbName text : String}
    {executed : Nat}
    (h : (processAuthenticatedMessage argon2 draws msg database db sessions prepared token username).deed =
      .worked dbName user (some text) executed) :
    processAuthenticatedMessage argon2 draws msg database db sessions prepared token username =
      processSql argon2 draws dbName user text db prepared := by
  unfold processAuthenticatedMessage at h ⊢
  split at h
  · cases h
  · rename_i htoken
    rw [if_neg htoken]
    cases msg with
    | query sql =>
        cases h
        rfl
    | execute preparedId params =>
        dsimp only at h ⊢
        split at h
        · cases h
          rfl
        · cases h
    | _ => cases h

theorem DropsUser.absent {event : ServerEvent} (h : DropsUser argon2 database username server event) :
    Absent database username (server.next argon2 event) := by
  obtain ⟨user, text, executed, before, ifExists, rest, columns, rows, affected, hdeed, hparse, hrest, hreply⟩ := h
  have heffect := effect_step argon2 server event
  unfold next
  generalize server.step argon2 event = step at heffect hdeed hreply
  cases heffect with
  | processed connection stream conn name token dbName db draws msg nextDatabase hconn hstream hdb hpasses =>
      dsimp only [processed] at hdeed hreply ⊢
      obtain ⟨-, rfl, rfl⟩ := worked_processAuthenticatedMessage hdeed
      rw [processAuthenticatedMessage_text hdeed] at hreply ⊢
      dsimp only [processSql, executeSqlAs] at hreply ⊢
      rw [hparse] at hreply ⊢
      dsimp only at hreply ⊢
      intro after hafter
      cases (Finmap.lookup_insert _).symm.trans hafter
      cases hresult : (executeStatements argon2 draws user 0 none db (before ++ .dropUser username ifExists :: rest)).result with
      | error err =>
          rw [hresult] at hreply
          cases hreply
      | ok result => exact userExists_of_dropUser hrest hresult
  | _ => cases hdeed

omit [CaseMapping] [Rendering] [SqlText] [StructuredText] in
/-- Only users that the user store has are accepted. -/
theorem userExists_of_authenticate {peerCertDer : Option (List UInt8)} {name password user : String}
    (h : authenticate argon2 peerCertDer name password db = (user, true)) : db.users.userExists user = true := by
  have hverified : ∀ verified, (verified, db.verifyUser argon2 verified password) = (user, true) →
      db.users.userExists user = true := by
    rintro verified hsame
    obtain ⟨rfl, hlogin⟩ := Prod.mk.inj hsame
    rw [Database.verifyUser, UserStore.verifyLogin] at hlogin
    rw [UserStore.userExists_eq]
    split at hlogin
    · cases hlogin
    · rename_i held hheld
      rw [hheld]
      rfl
  unfold authenticate at h
  split at h
  · split at h
    · rename_i cn _ hexists
      cases h
      exact hexists
    · exact hverified name h
  · exact hverified name h

/-- An authenticated stream was so before the step, for the same user, or it authenticates in the step. -/
theorem authenticated_of_next {event : ServerEvent}
    (hafter : (server.next argon2 event).streamAt connection stream = some (.authenticated username token database)) :
    (∃ earlier, server.streamAt connection stream = some (.authenticated username token earlier)) ∨
      ∃ name password named draws dbName db, event = .receive connection stream (.auth name password named) draws ∧
        (server.step argon2 event).deed = .verified dbName username ∧ server.databases.lookup dbName = some db ∧
        db.users.userExists username = true := by
  have heffect := effect_step argon2 server event
  unfold next at hafter
  generalize server.step argon2 event = step at heffect hafter
  have hset {other otherStream : Nat} {conn changed : Connection} {databases : DatabaseMap} {state : StreamState}
      (hconn : server.connections[other]? = some conn) (hstreams : changed.streams = conn.streams)
      (hat : streamAt
        { server with databases, connections := server.connections.set other (withStream changed otherStream state) }
          connection stream = some (.authenticated username token database)) :
      server.streamAt connection stream = some (.authenticated username token database) ∨
        connection = other ∧ stream = otherStream ∧ state = .authenticated username token database ∧
          conn.streams[otherStream]? = server.streamAt connection stream := by
    rw [streamAt_set hconn hstreams] at hat
    split at hat
    · rename_i hsame
      obtain ⟨rfl, rfl⟩ := hsame
      obtain ⟨-, -, hstate⟩ := Option.map_eq_some_iff.mp hat
      exact .inr ⟨rfl, rfl, hstate, (streamAt_eq_some hconn).symm⟩
    · exact .inl hat
  cases heffect with
  | unchanged event reply => exact .inl ⟨database, hafter⟩
  | connected peerCertDer => exact .inl ⟨database, (streamAt_connected server _ rfl).symm.trans hafter⟩
  | opened other conn hconn =>
      refine .inl ⟨database, ?_⟩
      dsimp only at hafter
      rw [streamAt_opened hconn] at hafter
      split at hafter
      · cases hafter
      · exact hafter
  | closed event other otherStream conn reply hconn =>
      obtain hsame | ⟨-, -, hstate, -⟩ := hset hconn (by rfl) hafter
      · exact .inl ⟨database, hsame⟩
      · cases hstate
  | verified other otherStream conn name password named draws dbName db hname hconn hwaiting hdb haccepted =>
      obtain hsame | ⟨rfl, rfl, hstate, -⟩ := hset hconn (by rfl) hafter
      · exact .inl ⟨database, hsame⟩
      · cases hstate
        exact .inr ⟨name, password, named, draws, _, db, rfl, rfl, hdb, userExists_of_authenticate (Prod.ext rfl haccepted)⟩
  | processed other otherStream conn name token' dbName db draws msg nextDatabase hconn hstream hdb hpasses =>
      obtain hsame | ⟨rfl, rfl, hstate, hat⟩ := hset hconn (by rfl) hafter
      · exact .inl ⟨database, hsame⟩
      · cases hstate
        exact .inl ⟨dbName, hat.symm.trans hstream⟩

/-! ### Runs -/

/-- The stream has authenticated as the user. -/
def HasEntered (connection stream : Nat) (username : String) (server : Server) : Prop :=
  ∃ token database, server.streamAt connection stream = some (.authenticated username token database)

/-- Among the events there is one with which the stream authenticates as the user to another database. -/
def EntersElsewhere (argon2 : Argon2) (connection stream : Nat) (username database : String) (server : Server)
    (events : List ServerEvent) : Prop :=
  ∃ first name password named draws later other,
    events = first ++ .receive connection stream (.auth name password named) draws :: later ∧
      ((first.foldl (next argon2) server).step argon2 (.receive connection stream (.auth name password named) draws)).deed =
        .verified other username ∧
      other ≠ database

theorem Absent.run {start : Server} (habsent : Absent database username start) {events : List ServerEvent}
    (hmeets : Meets (next argon2) (StaysAbsent argon2 database username) start events) :
    Absent database username (events.foldl (next argon2) start) :=
  (Reaches.of_meets hmeets).invariant (fun _ _ _ hstays => hstays) habsent

omit [CaseMapping] [Rendering] [SqlText] [StructuredText] [Certificates] in
theorem userExists_congr {user : String} (hsame : lowerName user = lowerName username) :
    db.users.userExists user = db.users.userExists username := by
  rw [UserStore.userExists_eq, UserStore.userExists_eq, UserStore.getUser_eq, UserStore.getUser_eq, hsame]

/-- While a database does not have the user, a stream that is authenticated as the user was so at the start, or it
has authenticated to another database. -/
theorem entered_of_authenticated {start : Server} {user dbName : String} (habsent : Absent database username start)
    (events : List ServerEvent) (hmeets : Meets (next argon2) (StaysAbsent argon2 database username) start events)
    (hat : (events.foldl (next argon2) start).streamAt connection stream = some (.authenticated user token dbName))
    (hsame : lowerName user = lowerName username) :
    HasEntered connection stream user start ∨ EntersElsewhere argon2 connection stream user database start events := by
  induction events using List.reverseRecOn generalizing token dbName with
  | nil => exact .inl ⟨token, dbName, hat⟩
  | append_singleton before event ih =>
      obtain ⟨hbefore, -⟩ := Meets.append_iff.mp hmeets
      rw [List.foldl_append] at hat
      obtain ⟨earlier, hearlier⟩ | ⟨name, password, named, draws, other, db, rfl, hdeed, hdb, hexists⟩ :=
        authenticated_of_next hat
      · refine (ih hbefore hearlier).imp_right ?_
        rintro ⟨first, name, password, named, draws, later, other, rfl, hdeed, hother⟩
        exact ⟨first, name, password, named, draws, later ++ [event], other, by simp, hdeed, hother⟩
      · refine .inr ⟨before, name, password, named, draws, [], other, rfl, hdeed, ?_⟩
        rintro rfl
        have hgone := habsent.run hbefore db hdb
        rw [← userExists_congr hsame, hexists] at hgone
        cases hgone

/-- Behind a DROP USER that went through, and as long as the user is not created again, the server works for the
user only on streams that had authenticated as the user before, and on streams that authenticate to another database. -/
theorem dropped_user_enters_elsewhere (start : Server) (drop : ServerEvent)
    (hdrop : DropsUser argon2 database username start drop) (events : List ServerEvent)
    (hagain : Meets (next argon2) (StaysAbsent argon2 database username) (start.next argon2 drop) events) :
    ∀ before connection stream msg draws after, events = before ++ .receive connection stream msg draws :: after →
      ∀ dbName user text executed, lowerName user = lowerName username →
        ((before.foldl (next argon2) (start.next argon2 drop)).step argon2 (.receive connection stream msg draws)).deed =
          .worked dbName user text executed →
        HasEntered connection stream user start ∨
          EntersElsewhere argon2 connection stream user database (start.next argon2 drop) before := by
  rintro before connection stream msg draws after rfl dbName user text executed hsame hdeed
  obtain ⟨hbefore, -⟩ := Meets.append_iff.mp hagain
  obtain ⟨conn, token, db, _, hserves, -⟩ := serves_of_worked hdeed
  refine (entered_of_authenticated hdrop.absent before hbefore hserves.streamAt hsame).imp_left ?_
  rintro ⟨token, held, hat⟩
  obtain ⟨earlier, hearlier⟩ | ⟨name, password, named, draws, other, db, rfl, hverified, -⟩ := authenticated_of_next hat
  · exact ⟨token, earlier, hearlier⟩
  · obtain ⟨_, _, _, _, _, _, _, _, _, hworked, -⟩ := hdrop
    rw [hverified] at hworked
    cases hworked

end

namespace Departure

/-- A stand-in for the statements of the runs below; opened where they are evaluated. -/
scoped instance (priority := high) sqlText : SqlText where
  parse text :=
    match text with
    | "SHOW TABLES" => .ok [.showTables]
    | "DROP USER ann" => .ok [.dropUser "ann" false]
    | "DROP TABLE t" => .ok [.dropTable "t" false]
    | _ => .error (.parse "Expected statement")
  renderPlan _ _ := "plan"

end Departure

section

open scoped AsciiCase PlainText Departure

/-- A table and two users. -/
def household : List AdminCall :=
  [.createTable "t" [.new "a" .integer] none, .createUser "ann" "x" "s", .createUser "bob" "y" "s"]

/-- Two databases that share a user, and a connection with three streams. -/
def doors : Server :=
  { databases :=
      (Finmap.singleton "a" (household.foldl (Database.adminStep .plain) .empty)).insert "b"
        (Database.empty.adminStep .plain (.createUser "ann" "z" "s"))
    defaultDatabase := "a"
    connections :=
      [{ peerCertDer := none, sessions := .new, prepared := fun _ => none, streams := [.accepted, .accepted, .accepted] }] }

/-- Each of the users has authenticated to the first database on a stream. -/
def occupied : Server :=
  [.receive 0 0 (.auth "ann" "x" "a") .asGiven, .receive 0 1 (.auth "bob" "y" "a") .asGiven].foldl (next .plain) doors

/-- One user drops the other. -/
def evicts : ServerEvent := .receive 0 1 (.query "DROP USER ann") .asGiven

theorem dropsUser_evicts : DropsUser .plain "a" "ann" occupied evicts :=
  ⟨"bob", "DROP USER ann", 1, [], false, [], [], [], 1, by decide, rfl, by simp, by decide⟩

/-- The dropped user enters the other database. -/
def returns : List ServerEvent :=
  [.receive 0 2 (.auth "ann" "z" "b") .asGiven, .receive 0 2 (.query "SHOW TABLES") .asGiven]

theorem dropped_user_enters_returns :
    HasEntered 0 2 "ann" occupied ∨
      EntersElsewhere .plain 0 2 "ann" "a" (occupied.next .plain evicts) [.receive 0 2 (.auth "ann" "z" "b") .asGiven] := by
  have hentered : ∀ before connection stream msg draws after,
      returns = before ++ .receive connection stream msg draws :: after →
        ∀ dbName user text executed, lowerName user = lowerName "ann" →
          ((before.foldl (next .plain) (occupied.next .plain evicts)).step .plain
            (.receive connection stream msg draws)).deed = .worked dbName user text executed →
          HasEntered connection stream user occupied ∨
            EntersElsewhere .plain connection stream user "a" (occupied.next .plain evicts) before := by
    refine dropped_user_enters_elsewhere occupied evicts dropsUser_evicts returns ⟨?_, ?_, trivial⟩
    · unfold StaysAbsent Absent
      decide
    · unfold StaysAbsent Absent
      decide
  exact hentered [_] 0 2 (.query "SHOW TABLES") .asGiven [] rfl "b" "ann" (some "SHOW TABLES") 1 rfl (by decide)

/-- On the stream on which it had authenticated, the dropped user drops the table. -/
theorem not_dropped_user_stopped :
    DropsUser .plain "a" "ann" occupied evicts ∧ Absent "a" "ann" (occupied.next .plain evicts) ∧
      ((occupied.next .plain evicts).step .plain (.receive 0 0 (.query "DROP TABLE t") .asGiven)).deed =
        .worked "a" "ann" (some "DROP TABLE t") 1 ∧
      (((occupied.next .plain evicts).next .plain (.receive 0 0 (.query "DROP TABLE t") .asGiven)).databases.lookup "a").map
        (fun db => db.tableExists "t") = some false := by
  refine ⟨dropsUser_evicts, dropsUser_evicts.absent, by decide, by decide⟩

end

end Server

end HelionDb
