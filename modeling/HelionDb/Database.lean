import HelionDb.Permissions
import HelionDb.Users
import HelionDb.WellFormed

/-! The engine of `engine.rs` with its users and grants, and its administration: every operation changes
the stores in memory and appends a record, which recovery reads back without the tables. -/

namespace HelionDb

/-- `DatabaseEngine` with all its parts. -/
structure Database where
  engine : DatabaseEngine
  users : UserStore
  permissions : PermissionStore

/-- What an engine finds when it starts: the configured default engine, the tables in the files of the
disk engine, the variable `HELION_PASSWORD` and the salt of the hash it then draws. -/
structure Startup where
  defaultEngine : String
  loaded : String → Option Table
  helionPassword : Option String
  salt : String

namespace DatabaseEngine

/-- `create_table` fails and changes nothing, or it adds the table. -/
theorem createTable_cases (engine : DatabaseEngine) (name : String) (columns : List ColumnMeta)
    (engineName : Option String) :
    (∃ err, engine.createTable name columns engineName = (.error err, engine)) ∨
      ∃ catalog, (engine.tables.any fun table => eqIgnoreAsciiCase table.name name) = false ∧
        engine.createTable name columns engineName =
          (.ok (), { engine with
            catalog, tables := engine.tables ++ [Table.new name columns]
            wal := engine.wal ++ [.createTable name columns] }) := by
  unfold createTable
  split
  · exact .inl ⟨_, rfl⟩
  · rename_i hfresh
    dsimp only
    split
    · exact .inl ⟨_, rfl⟩
    · exact .inr ⟨_, Bool.not_eq_true _ ▸ hfresh, rfl⟩

/-- `drop_table` fails and changes nothing, or it removes the table. -/
theorem dropTable_cases (engine : DatabaseEngine) (name : String) :
    (∃ err, engine.dropTable name = (.error err, engine)) ∨
      ∃ catalog, (engine.tables.any fun table => eqIgnoreAsciiCase table.name name) = true ∧
        engine.dropTable name =
          (.ok (), { engine with
            catalog, tables := engine.tables.filter fun table => !eqIgnoreAsciiCase table.name name
            wal := engine.wal ++ [.dropTable name] }) := by
  unfold dropTable
  split
  · rename_i hexists
    split
    · exact .inl ⟨_, rfl⟩
    · exact .inr ⟨_, hexists, rfl⟩
  · exact .inl ⟨_, rfl⟩

end DatabaseEngine

/-- Neither about users nor about grants. -/
def WalRecord.IsTable : WalRecord → Prop
  | .createUser _ _ | .dropUser _ | .grant _ _ _ | .revoke _ _ _ => False
  | _ => True

/-- One round of the loop of `replay_users_from_wal`. -/
def replayUserRecord (store : UserStore) : WalRecord → UserStore
  | .createUser username passwordHash =>
      match store.insertUser { username, passwordHash } with
      | .ok next => next
      | .error _ => store
  | .dropUser username =>
      match store.dropUser username with
      | .ok next => next
      | .error _ => store
  | _ => store

/-- `replay_users_from_wal`. -/
def replayUsersFromWal (records : List WalRecord) : UserStore := records.foldl replayUserRecord .new

section

variable [CaseMapping]

/-- One round of the loop of `replay_permissions_from_wal`. -/
def replayPermissionRecord (store : PermissionStore) : WalRecord → PermissionStore
  | .grant username table permission => store.grant username table permission
  | .revoke username table permission => store.revoke username table permission
  | _ => store

/-- `replay_permissions_from_wal`. -/
def replayPermissionsFromWal (records : List WalRecord) : PermissionStore :=
  records.foldl replayPermissionRecord .new

namespace Database

/-- The records of the rotated log and of the current one. -/
def log (db : Database) : List WalRecord := db.engine.walOld ++ db.engine.wal

/-- `WalWriter::append`. -/
def append (db : Database) (record : WalRecord) : Database :=
  { db with engine := { db.engine with wal := db.engine.wal ++ [record] } }

/-- `DatabaseEngine::bootstrap_default_user`. -/
def bootstrapDefaultUser (argon2 : Argon2) (startup : Startup) (db : Database) : Except HelionError Database :=
  if db.users.userCount ≠ 0 then .ok db
  else
    match startup.helionPassword with
    | none => .ok db
    | some password =>
        match db.users.createUser argon2 "helion" password startup.salt with
        | .error err => .error err
        | .ok users =>
            .ok { db with
              users
              permissions := db.engine.tables.foldl (fun permissions table =>
                permissions.grant "helion" table.name .all) db.permissions }

/-- `DatabaseEngine::open` on a directory with these logs and this catalog file. -/
def openDirectory (argon2 : Argon2) (startup : Startup) (walOld wal : List WalRecord) (saved : Option CatalogData) :
    Except HelionError Database :=
  match DatabaseEngine.openWithDurability walOld wal saved startup.defaultEngine startup.loaded with
  | .error err => .error err
  | .ok engine =>
      bootstrapDefaultUser argon2 startup
        { engine, users := replayUsersFromWal (walOld ++ wal)
          permissions := replayPermissionsFromWal (walOld ++ wal) }

/-- An engine that started on an empty directory. -/
def Opened (argon2 : Argon2) (startup : Startup) (db : Database) : Prop :=
  openDirectory argon2 startup [] [] none = .ok db

/-- An empty directory has no tables, no grants and no log, and no user but a configured default one. -/
theorem Opened.cases {argon2 : Argon2} {startup : Startup} {db : Database} (h : Opened argon2 startup db) :
    db.engine.tables = [] ∧ db.log = [] ∧ db.permissions = .new ∧
      (startup.helionPassword = none ∧ db.users = .new ∨
        ∃ password hash, startup.helionPassword = some password ∧
          db.users.users = [{ username := "helion", passwordHash := hash }]) := by
  unfold Opened openDirectory at h
  rw [show DatabaseEngine.openWithDurability [] [] none startup.defaultEngine startup.loaded = .ok _ from rfl] at h
  dsimp only at h
  unfold bootstrapDefaultUser at h
  rw [if_neg (by simp [UserStore.userCount, replayUsersFromWal, UserStore.new])] at h
  split at h
  · rename_i hpassword
    obtain rfl := Except.ok.inj h
    exact ⟨rfl, rfl, rfl, .inl ⟨hpassword, rfl⟩⟩
  · rename_i password hpassword
    split at h
    · cases h
    · rename_i users hcreated
      obtain rfl := Except.ok.inj h
      obtain ⟨-, hash, -, hadded⟩ := UserStore.createUser_eq_ok.mp hcreated
      exact ⟨rfl, rfl, rfl, .inr ⟨password, hash, hpassword, hadded⟩⟩

/-- `tables.iter().any(|t| t.name.eq_ignore_ascii_case(name))`. -/
def tableExists (db : Database) (name : String) : Bool :=
  db.engine.tables.any fun table => eqIgnoreAsciiCase table.name name

/-- `DatabaseEngine::create_table`: the default admin user, when there is one, gets all of it. -/
def createTable (db : Database) (name : String) (columns : List ColumnMeta) (engineName : Option String) :
    Loop.Outcome HelionError Database :=
  let outcome := db.engine.createTable name columns engineName
  match outcome.1 with
  | .error err => (.error err, { db with engine := outcome.2 })
  | .ok () =>
      (.ok (), { db with
        engine := outcome.2
        permissions :=
          if db.users.userExists "helion" then db.permissions.grant "helion" name .all else db.permissions })

/-- `DatabaseEngine::drop_table`. -/
def dropTable (db : Database) (name : String) : Loop.Outcome HelionError Database :=
  let outcome := db.engine.dropTable name
  match outcome.1 with
  | .error err => (.error err, { db with engine := outcome.2 })
  | .ok () => (.ok (), { db with engine := outcome.2, permissions := db.permissions.removeTable name })

/-- `DatabaseEngine::create_user`. -/
def createUser (argon2 : Argon2) (db : Database) (username password salt : String) :
    Loop.Outcome HelionError Database :=
  match db.users.createUser argon2 username password salt with
  | .error err => (.error err, db)
  | .ok users =>
      match users.getUser username with
      | none => (.error (.internal ("Failed to find just-created user '" ++ username ++ "'")), { db with users })
      | some user => (.ok (), { db with users }.append (.createUser user.username user.passwordHash))

/-- `DatabaseEngine::drop_user`. -/
def dropUser (db : Database) (username : String) : Loop.Outcome HelionError Database :=
  match db.users.dropUser username with
  | .error err => (.error err, db)
  | .ok users =>
      (.ok (), { db with users, permissions := db.permissions.removeUser username }.append (.dropUser username))

/-- `DatabaseEngine::alter_user_password`; the record it appends is the one of a created user. -/
def alterUserPassword (argon2 : Argon2) (db : Database) (username newPassword salt : String) :
    Loop.Outcome HelionError Database :=
  match db.users.updatePassword argon2 username newPassword salt with
  | .error err => (.error err, db)
  | .ok users =>
      match users.getUser username with
      | none => (.error (.internal ("Failed to find updated user '" ++ username ++ "'")), { db with users })
      | some user => (.ok (), { db with users }.append (.createUser user.username user.passwordHash))

/-- `DatabaseEngine::verify_user`. -/
def verifyUser (argon2 : Argon2) (db : Database) (username password : String) : Bool :=
  db.users.verifyLogin argon2 username password

/-- `DatabaseEngine::grant_permission`. -/
def grantPermission (db : Database) (username table : String) (permission : Permission) :
    Loop.Outcome HelionError Database :=
  if db.users.userExists username = false then
    (.error (.auth ("User '" ++ username ++ "' does not exist")), db)
  else if db.tableExists table = false then (.error (.tableNotFound table), db)
  else
    (.ok (), { db with permissions := db.permissions.grant username table permission }.append
      (.grant username table permission))

/-- `DatabaseEngine::revoke_permission`. -/
def revokePermission (db : Database) (username table : String) (permission : Permission) :
    Loop.Outcome HelionError Database :=
  (.ok (), { db with permissions := db.permissions.revoke username table permission }.append
    (.revoke username table permission))

/-- `DatabaseEngine::shutdown`. -/
def shutdown (db : Database) : Database := { db with engine := db.engine.shutdown }

end Database

/-! ### Calls -/

/-- A call of an administrative operation, with the salt that a hash draws. -/
inductive AdminCall where
  | createTable (name : String) (columns : List ColumnMeta) (engineName : Option String)
  | dropTable (name : String)
  | createUser (username password salt : String)
  | dropUser (username : String)
  | alterUserPassword (username newPassword salt : String)
  | grantPermission (username table : String) (permission : Permission)
  | revokePermission (username table : String) (permission : Permission)

namespace Database

/-- The outcome of a call. -/
def call (argon2 : Argon2) (db : Database) : AdminCall → Loop.Outcome HelionError Database
  | .createTable name columns engineName => db.createTable name columns engineName
  | .dropTable name => db.dropTable name
  | .createUser username password salt => db.createUser argon2 username password salt
  | .dropUser username => db.dropUser username
  | .alterUserPassword username newPassword salt => db.alterUserPassword argon2 username newPassword salt
  | .grantPermission username table permission => db.grantPermission username table permission
  | .revokePermission username table permission => db.revokePermission username table permission

/-- The state a call leaves, whether it returned Ok or not. -/
def adminStep (argon2 : Argon2) (db : Database) (call : AdminCall) : Database := (db.call argon2 call).2

/-- The call returns Ok. -/
def CallOk (argon2 : Argon2) (db : Database) (call : AdminCall) : Prop := (db.call argon2 call).1 = .ok ()

/-- What a call can do to the stores and to the log. -/
inductive AdminEffect (argon2 : Argon2) (db : Database) : AdminCall → Database → Prop
  | failed (call : AdminCall) (err : HelionError) (failure : (db.call argon2 call).1 = .error err) :
      AdminEffect argon2 db call db
  | createTable (name : String) (columns : List ColumnMeta) (engineName : Option String) (engine : DatabaseEngine)
      (fresh : db.tableExists name = false)
      (tables : engine.tables = db.engine.tables ++ [Table.new name columns]) (walOld : engine.walOld = db.engine.walOld)
      (wal : engine.wal = db.engine.wal ++ [.createTable name columns])
      (created : (db.engine.createTable name columns engineName).1 = .ok ()) :
      AdminEffect argon2 db (.createTable name columns engineName)
        { db with
          engine
          permissions :=
            if db.users.userExists "helion" then db.permissions.grant "helion" name .all else db.permissions }
  | dropTable (name : String) (engine : DatabaseEngine) (existing : db.tableExists name = true)
      (tables : engine.tables = db.engine.tables.filter fun table => !eqIgnoreAsciiCase table.name name)
      (walOld : engine.walOld = db.engine.walOld) (wal : engine.wal = db.engine.wal ++ [.dropTable name])
      (dropped : (db.engine.dropTable name).1 = .ok ()) :
      AdminEffect argon2 db (.dropTable name) { db with engine, permissions := db.permissions.removeTable name }
  | createUser (username password salt hash : String) (users : UserStore)
      (fresh : db.users.userExists username = false) (hashed : argon2.hashPassword password salt = .ok hash)
      (added : users.users = db.users.users ++ [{ username, passwordHash := hash }]) :
      AdminEffect argon2 db (.createUser username password salt) ({ db with users }.append (.createUser username hash))
  | dropUser (username : String) (users : UserStore) (existing : db.users.userExists username = true)
      (kept : users.users = db.users.users.filter fun user => !eqIgnoreAsciiCase user.username username) :
      AdminEffect argon2 db (.dropUser username)
        ({ db with users, permissions := db.permissions.removeUser username }.append (.dropUser username))
  | alterUserPassword (username newPassword salt hash : String) (user : User)
      (existing : db.users.getUser username = some user) (hashed : argon2.hashPassword newPassword salt = .ok hash) :
      AdminEffect argon2 db (.alterUserPassword username newPassword salt)
        ({ db with users := db.users.setHash username hash }.append (.createUser user.username hash))
  | grantPermission (username table : String) (permission : Permission)
      (user : db.users.userExists username = true) (existing : db.tableExists table = true) :
      AdminEffect argon2 db (.grantPermission username table permission)
        ({ db with permissions := db.permissions.grant username table permission }.append
          (.grant username table permission))
  | revokePermission (username table : String) (permission : Permission) :
      AdminEffect argon2 db (.revokePermission username table permission)
        ({ db with permissions := db.permissions.revoke username table permission }.append
          (.revoke username table permission))

variable {argon2 : Argon2} {db : Database}

private theorem createTable_effect (name : String) (columns : List ColumnMeta) (engineName : Option String) :
    AdminEffect argon2 db (.createTable name columns engineName) (db.createTable name columns engineName).2 := by
  have hfailed := @AdminEffect.failed _ argon2 db (.createTable name columns engineName)
  dsimp only [call] at hfailed
  unfold createTable at hfailed ⊢
  rcases db.engine.createTable_cases name columns engineName with ⟨err, herr⟩ | ⟨catalog, hfresh, hok⟩
  · simp only [herr] at hfailed ⊢
    exact hfailed err rfl
  · simp only [hok]
    exact .createTable name columns engineName _ hfresh rfl rfl rfl (congrArg Prod.fst hok)

private theorem dropTable_effect (name : String) :
    AdminEffect argon2 db (.dropTable name) (db.dropTable name).2 := by
  have hfailed := @AdminEffect.failed _ argon2 db (.dropTable name)
  dsimp only [call] at hfailed
  unfold dropTable at hfailed ⊢
  rcases db.engine.dropTable_cases name with ⟨err, herr⟩ | ⟨catalog, hexists, hok⟩
  · simp only [herr] at hfailed ⊢
    exact hfailed err rfl
  · simp only [hok]
    exact .dropTable name _ hexists rfl rfl rfl (congrArg Prod.fst hok)

private theorem createUser_effect (username password salt : String) :
    AdminEffect argon2 db (.createUser username password salt) (db.createUser argon2 username password salt).2 := by
  have hfailed := @AdminEffect.failed _ argon2 db (.createUser username password salt)
  dsimp only [call] at hfailed
  unfold createUser at hfailed ⊢
  cases hcreated : db.users.createUser argon2 username password salt with
  | error err =>
      rw [hcreated] at hfailed
      exact hfailed _ rfl
  | ok users =>
      obtain ⟨hfresh, hash, hhash, hadded⟩ := UserStore.createUser_eq_ok.mp hcreated
      have hfound : users.getUser username = some { username, passwordHash := hash } :=
        UserStore.getUser_eq_some.mpr ⟨hadded ▸ List.mem_concat_self, rfl⟩
      simp only [hfound]
      exact .createUser username password salt hash users hfresh hhash hadded

private theorem dropUser_effect (username : String) :
    AdminEffect argon2 db (.dropUser username) (db.dropUser username).2 := by
  have hfailed := @AdminEffect.failed _ argon2 db (.dropUser username)
  dsimp only [call] at hfailed
  unfold dropUser at hfailed ⊢
  cases hdropped : db.users.dropUser username with
  | error err =>
      rw [hdropped] at hfailed
      exact hfailed _ rfl
  | ok users =>
      obtain ⟨hexists, hkept⟩ := UserStore.dropUser_eq_ok.mp hdropped
      exact .dropUser username users hexists hkept

private theorem alterUserPassword_effect (username newPassword salt : String) :
    AdminEffect argon2 db (.alterUserPassword username newPassword salt)
      (db.alterUserPassword argon2 username newPassword salt).2 := by
  have hfailed := @AdminEffect.failed _ argon2 db (.alterUserPassword username newPassword salt)
  dsimp only [call] at hfailed
  unfold alterUserPassword at hfailed ⊢
  cases haltered : db.users.updatePassword argon2 username newPassword salt with
  | error err =>
      rw [haltered] at hfailed
      exact hfailed _ rfl
  | ok users =>
      obtain ⟨hexists, hash, hhash, rfl⟩ := UserStore.updatePassword_eq_ok.mp haltered
      rw [UserStore.userExists_eq] at hexists
      obtain ⟨user, huser⟩ := Option.isSome_iff_exists.mp hexists
      have hfound : (db.users.setHash username hash).getUser username = some (user.withHash hash) := by
        rw [UserStore.getUser_setHash, if_pos rfl, huser]
        rfl
      simp only [hfound]
      exact .alterUserPassword username newPassword salt hash user huser hhash

/-- Every call has one of the effects. -/
theorem adminStep_effect (argon2 : Argon2) (db : Database) (call : AdminCall) :
    AdminEffect argon2 db call (db.adminStep argon2 call) := by
  cases call with
  | createTable name columns engineName => exact createTable_effect name columns engineName
  | dropTable name => exact dropTable_effect name
  | createUser username password salt => exact createUser_effect username password salt
  | dropUser username => exact dropUser_effect username
  | alterUserPassword username newPassword salt => exact alterUserPassword_effect username newPassword salt
  | grantPermission username table permission =>
      have hfailed := @AdminEffect.failed _ argon2 db (.grantPermission username table permission)
      dsimp only [Database.call, adminStep] at hfailed ⊢
      unfold grantPermission at hfailed ⊢
      split
      · rename_i huser
        rw [if_pos huser] at hfailed
        exact hfailed _ rfl
      · rename_i huser
        rw [if_neg huser] at hfailed
        split
        · rename_i htable
          rw [if_pos htable] at hfailed
          exact hfailed _ rfl
        · rename_i htable
          exact .grantPermission username table permission (Bool.not_eq_false _ ▸ huser) (Bool.not_eq_false _ ▸ htable)
  | revokePermission username table permission => exact .revokePermission username table permission

/-! ### Well-formed engines -/

/-- A default user leaves the tables alone. -/
theorem bootstrapDefaultUser_engine {next : Database} {startup : Startup}
    (h : bootstrapDefaultUser argon2 startup db = .ok next) : next.engine = db.engine := by
  unfold bootstrapDefaultUser at h
  split at h
  · exact Except.ok.inj h ▸ rfl
  · split at h
    · exact Except.ok.inj h ▸ rfl
    · split at h
      · cases h
      · exact Except.ok.inj h ▸ rfl

/-- A directory that a well-formed engine left opens to a well-formed engine. -/
theorem wellFormed_openDirectory {next : Database} {startup : Startup} {engine : DatabaseEngine}
    (hengine : engine.WellFormed)
    (h : openDirectory argon2 startup engine.walOld engine.wal engine.catalog.saved = .ok next) :
    next.engine.WellFormed ∧ next.engine.walOld = engine.walOld := by
  obtain ⟨opened, hopen, -, hwalOld, -, -, hwf⟩ := hengine.reopen startup.defaultEngine startup.loaded
  unfold openDirectory at h
  rw [hopen] at h
  have hsame : next.engine = opened := bootstrapDefaultUser_engine h
  rw [hsame]
  exact ⟨hwf, hwalOld⟩

/-- An empty directory opens to a well-formed engine. -/
theorem wellFormed_opened {startup : Startup} (h : Opened argon2 startup db) :
    db.engine.WellFormed ∧ db.engine.walOld = [] :=
  wellFormed_openDirectory (DatabaseEngine.WellFormed.fresh startup.defaultEngine) h

omit [CaseMapping] in
/-- A record of a user or a grant does not show in the tables that a log rebuilds. -/
theorem wellFormed_append (h : db.engine.WellFormed) {record : WalRecord} (hrecord : ¬ record.IsTable) :
    (db.append record).engine.WellFormed := by
  refine h.of_frame rfl (.refl _) (congrArg _ ?_)
  change replayRecords [] (db.engine.walOld ++ (db.engine.wal ++ [record])) = db.engine.recovered
  rw [← List.append_assoc, replayRecords_append]
  cases record <;> first | rfl | exact absurd trivial hrecord

theorem wellFormed_adminStep (argon2 : Argon2) (h : db.engine.WellFormed) (call : AdminCall) :
    (db.adminStep argon2 call).engine.WellFormed := by
  have heffect := adminStep_effect argon2 db call
  cases call with
  | createTable name columns engineName =>
      have hengine : (db.createTable name columns engineName).2.engine =
          (db.engine.createTable name columns engineName).2 := by
        unfold createTable
        dsimp only
        split <;> rfl
      change (db.createTable name columns engineName).2.engine.WellFormed
      rw [hengine]
      exact h.transition (DatabaseEngine.serialStep_transition db.engine
        { op := .execute (.createTable name columns engineName), orders := .asGiven })
  | dropTable name =>
      have hengine : (db.dropTable name).2.engine = (db.engine.dropTable name).2 := by
        unfold dropTable
        dsimp only
        split <;> rfl
      have hexecuted : (db.engine.execute .asGiven (.dropTable name false)).2 = (db.engine.dropTable name).2 := by
        simp only [DatabaseEngine.execute, affecting]
        split <;> rfl
      change (db.dropTable name).2.engine.WellFormed
      rw [hengine, ← hexecuted]
      exact h.transition (DatabaseEngine.serialStep_transition db.engine
        { op := .execute (.dropTable name false), orders := .asGiven })
  | createUser username password salt =>
      generalize db.adminStep argon2 (.createUser username password salt) = next at heffect
      cases heffect with
      | failed => exact h
      | createUser => exact wellFormed_append h id
  | dropUser username =>
      generalize db.adminStep argon2 (.dropUser username) = next at heffect
      cases heffect with
      | failed => exact h
      | dropUser => exact wellFormed_append h id
  | alterUserPassword username newPassword salt =>
      generalize db.adminStep argon2 (.alterUserPassword username newPassword salt) = next at heffect
      cases heffect with
      | failed => exact h
      | alterUserPassword => exact wellFormed_append h id
  | grantPermission username table permission =>
      generalize db.adminStep argon2 (.grantPermission username table permission) = next at heffect
      cases heffect with
      | failed => exact h
      | grantPermission => exact wellFormed_append h id
  | revokePermission username table permission => exact wellFormed_append h id

end Database

end

end HelionDb
