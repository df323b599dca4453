import HelionDb.Database
import HelionDb.TableDdl

/-! Administration whose log append fails. Every operation changes memory before it logs. `create_table` and `drop_table`
change it back when the append fails; the operations on users and grants return the error and leave memory as it is. -/

namespace HelionDb

/-- How a log append ends. One that fails may have written its record: the sync comes last. -/
inductive LogAppend where
  | logged
  | failed (err : HelionError) (written : Bool)

namespace Database

section Operations

variable [CaseMapping] (append : LogAppend) (db : Database)

/-- `WalWriter::append`, which may fail. -/
def appending (record : WalRecord) : Loop.Outcome HelionError Database :=
  match append with
  | .logged => (.ok (), db.append record)
  | .failed err written => (.error err, if written then db.append record else db)

/-- `DatabaseEngine::create_table`: after a failed append the catalog and the list drop the name again. -/
def createTableLogging (name : String) (columns : List ColumnMeta) (engineName : Option String) :
    Loop.Outcome HelionError Database :=
  if db.tableExists name then (.error (.tableAlreadyExists name), db)
  else
    match db.engine.catalog.createTable name columns
        ((engineName.map normalizeEngineName).getD db.engine.catalog.defaultEngine) with
    | .error err => (.error err, db)
    | .ok catalog =>
        let listed := { db with
          engine := { db.engine with catalog, tables := db.engine.tables ++ [Table.new name columns] } }
        match listed.appending append (.createTable name columns) with
        | (.error err, left) =>
            (.error err, { left with
              engine := { left.engine with
                catalog := match left.engine.catalog.dropTable name with
                  | .ok dropped => dropped
                  | .error _ => left.engine.catalog
                tables := TableThread.without name left.engine.tables } })
        | (.ok (), logged) =>
            (.ok (), { logged with
              permissions :=
                if logged.users.userExists "helion" then logged.permissions.grant "helion" name .all
                else logged.permissions })

/-- `DatabaseEngine::drop_table`: after a failed append the table is created again from the copy taken before. -/
def dropTableLogging (name : String) : Loop.Outcome HelionError Database :=
  match db.engine.tables.find? fun table => eqIgnoreAsciiCase table.name name with
  | none => (.error (.tableNotFound name), db)
  | some snapshot =>
      let engineName := (db.engine.catalog.metadata name).getD db.engine.catalog.defaultEngine
      match db.engine.catalog.dropTable name with
      | .error err => (.error err, db)
      | .ok catalog =>
          let dropped := { db with
            engine := { db.engine with catalog, tables := TableThread.without name db.engine.tables } }
          match dropped.appending append (.dropTable name) with
          | (.error err, left) =>
              (.error err, { left with
                engine := { left.engine with
                  catalog := match left.engine.catalog.createTable snapshot.name snapshot.columns engineName with
                    | .ok created => created.restore snapshot
                    | .error _ => left.engine.catalog.restore snapshot
                  tables := left.engine.tables ++ [snapshot] } })
          | (.ok (), logged) => (.ok (), { logged with permissions := logged.permissions.removeTable name })

/-- `DatabaseEngine::create_user`. -/
def createUserLogging (argon2 : Argon2) (username password salt : String) : Loop.Outcome HelionError Database :=
  match db.users.createUser argon2 username password salt with
  | .error err => (.error err, db)
  | .ok users =>
      match users.getUser username with
      | none => (.error (.internal ("Failed to find just-created user '" ++ username ++ "'")), { db with users })
      | some user => { db with users }.appending append (.createUser user.username user.passwordHash)

/-- `DatabaseEngine::drop_user`: the grants go only once the append is through. -/
def dropUserLogging (username : String) : Loop.Outcome HelionError Database :=
  match db.users.dropUser username with
  | .error err => (.error err, db)
  | .ok users =>
      match { db with users }.appending append (.dropUser username) with
      | (.error err, left) => (.error err, left)
      | (.ok (), logged) => (.ok (), { logged with permissions := logged.permissions.removeUser username })

/-- `DatabaseEngine::alter_user_password`. -/
def alterUserPasswordLogging (argon2 : Argon2) (username newPassword salt : String) : Loop.Outcome HelionError Database :=
  match db.users.updatePassword argon2 username newPassword salt with
  | .error err => (.error err, db)
  | .ok users =>
      match users.getUser username with
      | none => (.error (.internal ("Failed to find updated user '" ++ username ++ "'")), { db with users })
      | some user => { db with users }.appending append (.createUser user.username user.passwordHash)

/-- `DatabaseEngine::grant_permission`. -/
def grantPermissionLogging (username table : String) (permission : Permission) : Loop.Outcome HelionError Database :=
  if db.users.userExists username = false then
    (.error (.auth ("User '" ++ username ++ "' does not exist")), db)
  else if db.tableExists table = false then (.error (.tableNotFound table), db)
  else
    { db with permissions := db.permissions.grant username table permission }.appending append
      (.grant username table permission)

/-- `DatabaseEngine::revoke_permission`. -/
def revokePermissionLogging (username table : String) (permission : Permission) : Loop.Outcome HelionError Database :=
  { db with permissions := db.permissions.revoke username table permission }.appending append
    (.revoke username table permission)

/-- The outcome of a call whose append may fail. -/
def callLogging (argon2 : Argon2) : AdminCall → Loop.Outcome HelionError Database
  | .createTable name columns engineName => db.createTableLogging append name columns engineName
  | .dropTable name => db.dropTableLogging append name
  | .createUser username password salt => db.createUserLogging append argon2 username password salt
  | .dropUser username => db.dropUserLogging append username
  | .alterUserPassword username newPassword salt => db.alterUserPasswordLogging append argon2 username newPassword salt
  | .grantPermission username table permission => db.grantPermissionLogging append username table permission
  | .revokePermission username table permission => db.revokePermissionLogging append username table permission

/-- With an append that goes through, these are the calls. -/
theorem callLogging_logged (argon2 : Argon2) (call : AdminCall) :
    db.callLogging .logged argon2 call = db.call argon2 call := by
  cases call with
  | createTable name columns engineName =>
      change db.createTableLogging .logged name columns engineName = db.createTable name columns engineName
      unfold createTableLogging createTable DatabaseEngine.createTable tableExists
      by_cases hexists : (db.engine.tables.any fun table => eqIgnoreAsciiCase table.name name) = true
      · rw [if_pos hexists, if_pos hexists]
      · rw [if_neg hexists, if_neg hexists]
        cases engineName with
        | none =>
            dsimp only [Option.map_none, Option.getD_none]
            cases db.engine.catalog.createTable name columns db.engine.catalog.defaultEngine <;> rfl
        | some given =>
            dsimp only [Option.map_some, Option.getD_some]
            cases db.engine.catalog.createTable name columns (normalizeEngineName given) <;> rfl
  | dropTable name =>
      change db.dropTableLogging .logged name = db.dropTable name
      unfold dropTableLogging dropTable DatabaseEngine.dropTable
      cases hfound : db.engine.tables.find? fun table => eqIgnoreAsciiCase table.name name with
      | none =>
          have hnone : ¬ (db.engine.tables.any fun table => eqIgnoreAsciiCase table.name name) = true := by
            rw [Bool.not_eq_true]
            exact List.any_eq_false.mpr (List.find?_eq_none.mp hfound)
          rw [if_neg hnone]
      | some snapshot =>
          have hname := List.find?_some hfound
          have hany : (db.engine.tables.any fun table => eqIgnoreAsciiCase table.name name) = true :=
            List.any_eq_true.mpr ⟨snapshot, List.mem_of_find?_eq_some hfound, hname⟩
          rw [if_pos hany]
          dsimp only
          cases db.engine.catalog.dropTable name <;> rfl
  | createUser username password salt => rfl
  | dropUser username =>
      change db.dropUserLogging .logged username = db.dropUser username
      unfold dropUserLogging dropUser
      cases db.users.dropUser username <;> rfl
  | alterUserPassword username newPassword salt => rfl
  | grantPermission username table permission => rfl
  | revokePermission username table permission => rfl

end Operations

/-- Two states with the same tables, catalog, users and grants. -/
structure Unchanged (before after : Database) : Prop where
  tables : after.engine.tables = before.engine.tables
  metadata : after.engine.catalog.metadata = before.engine.catalog.metadata
  engines : after.engine.catalog.engines = before.engine.catalog.engines
  defaultEngine : after.engine.catalog.defaultEngine = before.engine.catalog.defaultEngine
  users : after.users = before.users
  permissions : after.permissions = before.permissions

/-- Where a failed append leaves things as they were. A `create_table` removes what it put in, which was nothing before
if the catalog and its engine did not know the name. A `drop_table` puts back the copy of the list, at its end. -/
def Undone [CaseMapping] (argon2 : Argon2) (db : Database) : AdminCall → Prop
  | .createTable name _ engineName =>
      db.engine.catalog.metadata name = none ∧
        ∀ kind, Catalog.getEngine ((engineName.map normalizeEngineName).getD db.engine.catalog.defaultEngine) = .ok kind →
          db.engine.catalog.engines kind name = none
  | .dropTable name =>
      ∃ others table, db.engine.tables = others ++ [table] ∧
        (∀ other ∈ others, eqIgnoreAsciiCase other.name name = false) ∧ table.name = name ∧
          ∀ kind, db.engine.catalog.getTableEngine name = .ok kind → db.engine.catalog.engines kind name = some table
  | .createUser _ _ _ => False
  | .dropUser _ => False
  | .alterUserPassword username newPassword salt =>
      ∀ user, db.users.getUser username = some user → argon2.hashPassword newPassword salt = .ok user.passwordHash
  | .grantPermission username table permission =>
      ∃ others, db.permissions.held username table = others ++ [permission] ∧
        ∀ other ∈ others, other.kind ≠ permission.kind
  | .revokePermission username table permission =>
      ∀ held ∈ db.permissions.held username table, permission.survives held = true

end Database

namespace Catalog

variable {catalog next : Catalog} {name engineName : String} {columns : List ColumnMeta} {kind : EngineKind}

/-- Metadata and engine tables, with the entries of one name set. -/
structure Sets (catalog : Catalog) (kind : EngineKind) (name : String) (engineName : Option String)
    (table : Option Table) (next : Catalog) : Prop where
  metadata : next.metadata = Function.update catalog.metadata name engineName
  engines : next.engines = Function.update catalog.engines kind (Function.update (catalog.engines kind) name table)
  defaultEngine : next.defaultEngine = catalog.defaultEngine

theorem getTableEngine_eq_ok : catalog.getTableEngine name = .ok kind ↔ catalog.metadata name = some kind.name := by
  constructor
  · intro h
    unfold getTableEngine at h
    split at h
    · cases h
    · rename_i given hgiven
      split at h
      · rename_i found hfound
        obtain rfl := Except.ok.inj h
        rw [hgiven, engineNamed_eq_some.mp hfound]
      · cases h
  · exact getTableEngine_of_metadata

theorem createTable_sets (h : catalog.createTable name columns engineName = .ok next) :
    ∃ kind, getEngine engineName = .ok kind ∧
      catalog.Sets kind name (some kind.name) (some (Table.new name columns)) next := by
  unfold createTable at h
  split at h
  · cases h
  · rename_i kind hkind
    obtain rfl := Except.ok.inj h
    refine ⟨kind, hkind, ?_, rfl, rfl⟩
    rw [← getEngine_eq_ok.mp hkind]
    rfl

theorem dropTable_sets (h : catalog.dropTable name = .ok next) :
    ∃ kind, catalog.getTableEngine name = .ok kind ∧ catalog.Sets kind name none none next := by
  unfold dropTable at h
  split at h
  · cases h
  · rename_i kind hkind
    obtain rfl := Except.ok.inj h
    exact ⟨kind, hkind, rfl, rfl, rfl⟩

theorem exists_createTable (hkind : getEngine engineName = .ok kind) :
    ∃ next, catalog.createTable name columns engineName = .ok next := by
  rw [createTable, hkind]
  exact ⟨_, rfl⟩

theorem exists_dropTable (hkind : catalog.getTableEngine name = .ok kind) :
    ∃ next, catalog.dropTable name = .ok next := by
  rw [dropTable, hkind]
  exact ⟨_, rfl⟩

theorem Sets.trans {first last : Option Table} {engine lastEngine : Option String} {middle : Catalog}
    (h : catalog.Sets kind name engine first middle) (hnext : middle.Sets kind name lastEngine last next) :
    catalog.Sets kind name lastEngine last next := by
  refine ⟨?_, ?_, hnext.defaultEngine.trans h.defaultEngine⟩
  · rw [hnext.metadata, h.metadata, Function.update_idem]
  · rw [hnext.engines, h.engines, Function.update_self, Function.update_idem, Function.update_idem]

/-- Setting the entries of a name changes nothing exactly when they were these. -/
theorem Sets.same_iff {table : Option Table} {engine : Option String} (h : catalog.Sets kind name engine table next) :
    (next.metadata = catalog.metadata ∧ next.engines = catalog.engines) ↔
      catalog.metadata name = engine ∧ catalog.engines kind name = table := by
  rw [h.metadata, h.engines, Function.update_eq_self_iff, Function.update_eq_self_iff, Function.update_eq_self_iff,
    eq_comm, eq_comm (a := table)]

end Catalog

namespace Database

variable [CaseMapping] {argon2 : Argon2} {db : Database} (err : HelionError) (written : Bool)

/-- The same but for the log and one name of the catalog. -/
structure OneName (before after : Database) (kind : EngineKind) (name : String) (engineName : Option String)
    (table : Option Table) : Prop where
  catalog : before.engine.catalog.Sets kind name engineName table after.engine.catalog
  users : after.users = before.users
  permissions : after.permissions = before.permissions

omit [CaseMapping] in
theorem OneName.unchanged_iff {after : Database} {kind : EngineKind} {name : String} {engineName : Option String}
    {table : Option Table} (h : OneName db after kind name engineName table) :
    Unchanged db after ↔ after.engine.tables = db.engine.tables ∧ db.engine.catalog.metadata name = engineName ∧
      db.engine.catalog.engines kind name = table := by
  rw [← h.catalog.same_iff]
  constructor
  · intro hsame
    exact ⟨hsame.tables, hsame.metadata, hsame.engines⟩
  · rintro ⟨htables, hmetadata, hengines⟩
    exact ⟨htables, hmetadata, hengines, h.catalog.defaultEngine, h.users, h.permissions⟩

omit [CaseMapping] in
theorem without_append_new {name : String} (columns : List ColumnMeta) (hfresh : db.tableExists name = false) :
    TableThread.without name (db.engine.tables ++ [Table.new name columns]) = db.engine.tables := by
  have hnew : eqIgnoreAsciiCase (Table.new name columns).name name = true := by
    rw [Table.new_name]
    exact eqIgnoreAsciiCase_eq.mpr rfl
  rw [TableThread.without, List.filter_append, List.filter_singleton, hnew, Bool.not_true, cond_false, List.append_nil,
    List.filter_eq_self]
  intro table htable
  have hne := List.any_eq_false.mp hfresh table htable
  rw [Bool.not_eq_true] at hne
  rw [hne]
  rfl

/-- A `create_table` whose append fails leaves the catalog without the name. -/
theorem createTableLogging_failed {name : String} {columns : List ColumnMeta} {engineName : Option String}
    (hreached : (db.createTableLogging .logged name columns engineName).1 = .ok ()) :
    (db.createTableLogging (.failed err written) name columns engineName).1 = .error err ∧
      (db.createTableLogging (.failed err written) name columns engineName).2.engine.tables = db.engine.tables ∧
      ∃ kind, Catalog.getEngine ((engineName.map normalizeEngineName).getD db.engine.catalog.defaultEngine) = .ok kind ∧
        OneName db (db.createTableLogging (.failed err written) name columns engineName).2 kind name none none := by
  unfold createTableLogging at hreached ⊢
  by_cases hexists : db.tableExists name = true
  · rw [if_pos hexists] at hreached
    cases hreached
  · rw [if_neg hexists] at hreached ⊢
    cases hcreated : db.engine.catalog.createTable name columns
        ((engineName.map normalizeEngineName).getD db.engine.catalog.defaultEngine) with
    | error other =>
        rw [hcreated] at hreached
        cases hreached
    | ok created =>
        obtain ⟨kind, hkind, hsets⟩ := Catalog.createTable_sets hcreated
        have hrouted : created.getTableEngine name = .ok kind := by
          rw [Catalog.getTableEngine_eq_ok, hsets.metadata, Function.update_self]
        obtain ⟨dropped, hdropped⟩ := Catalog.exists_dropTable hrouted
        obtain ⟨other, hother, hunset⟩ := Catalog.dropTable_sets hdropped
        obtain rfl := Except.ok.inj (hrouted.symm.trans hother)
        have htables := without_append_new columns (Bool.not_eq_true _ ▸ hexists)
        cases written with
        | false =>
            dsimp only [appending]
            rw [if_neg Bool.false_ne_true, hdropped]
            exact ⟨rfl, htables, kind, hkind, hsets.trans hunset, rfl, rfl⟩
        | true =>
            dsimp only [appending, append]
            rw [if_pos rfl, hdropped]
            exact ⟨rfl, htables, kind, hkind, hsets.trans hunset, rfl, rfl⟩

/-- A `drop_table` whose append fails puts the first table of that name at the end, and into the catalog. -/
theorem dropTableLogging_failed {name : String} (hreached : (db.dropTableLogging .logged name).1 = .ok ()) :
    (db.dropTableLogging (.failed err written) name).1 = .error err ∧
      ∃ snapshot kind middle,
        (db.engine.tables.find? fun table => eqIgnoreAsciiCase table.name name) = some snapshot ∧
        db.engine.catalog.getTableEngine name = .ok kind ∧
        (db.dropTableLogging (.failed err written) name).2.engine.tables =
          TableThread.without name db.engine.tables ++ [snapshot] ∧
        db.engine.catalog.Sets kind name none none middle ∧
        middle.Sets kind snapshot.name (some kind.name) (some snapshot)
          (db.dropTableLogging (.failed err written) name).2.engine.catalog ∧
        (db.dropTableLogging (.failed err written) name).2.users = db.users ∧
        (db.dropTableLogging (.failed err written) name).2.permissions = db.permissions := by
  unfold dropTableLogging at hreached ⊢
  cases hfound : db.engine.tables.find? fun table => eqIgnoreAsciiCase table.name name with
  | none =>
      rw [hfound] at hreached
      cases hreached
  | some snapshot =>
      rw [hfound] at hreached
      dsimp only at hreached ⊢
      cases hdropped : db.engine.catalog.dropTable name with
      | error other =>
          rw [hdropped] at hreached
          cases hreached
      | ok dropped =>
          obtain ⟨kind, hkind, hunset⟩ := Catalog.dropTable_sets hdropped
          have hmetadata := Catalog.getTableEngine_eq_ok.mp hkind
          have hengine : Catalog.getEngine ((db.engine.catalog.metadata name).getD db.engine.catalog.defaultEngine) =
              .ok kind := by
            rw [hmetadata]
            exact Catalog.getEngine_kind kind
          obtain ⟨created, hcreated⟩ := @Catalog.exists_createTable dropped snapshot.name _ snapshot.columns _ hengine
          obtain ⟨other, hother, hset⟩ := Catalog.createTable_sets hcreated
          obtain rfl := Except.ok.inj (hengine.symm.trans hother)
          have hrouted : created.getTableEngine snapshot.name = .ok kind := by
            rw [Catalog.getTableEngine_eq_ok, hset.metadata, Function.update_self]
          have hrestored :
              dropped.Sets kind snapshot.name (some kind.name) (some snapshot) (created.restore snapshot) := by
            refine ⟨?_, ?_, ?_⟩
            · rw [Catalog.restore, hrouted]
              exact hset.metadata
            · rw [Catalog.restore, hrouted]
              dsimp only [Catalog.restoreTable, Catalog.setTable]
              rw [hset.engines, Function.update_self, Function.update_idem, Function.update_idem]
            · rw [Catalog.restore, hrouted]
              exact hset.defaultEngine
          cases written with
          | false =>
              dsimp only [appending]
              rw [if_neg Bool.false_ne_true, hcreated]
              exact ⟨rfl, snapshot, kind, dropped, rfl, hkind, rfl, hunset, hrestored, rfl, rfl⟩
          | true =>
              dsimp only [appending, append]
              rw [if_pos rfl, hcreated]
              exact ⟨rfl, snapshot, kind, dropped, rfl, hkind, rfl, hunset, hrestored, rfl, rfl⟩

omit [CaseMapping] in
/-- Removing a name and putting its first table at the end gives the same list exactly when that table was there alone
and last. -/
theorem without_concat_iff {name : String} {tables : List Table} {snapshot : Table}
    (hfound : (tables.find? fun table => eqIgnoreAsciiCase table.name name) = some snapshot) :
    TableThread.without name tables ++ [snapshot] = tables ↔
      ∃ others, tables = others ++ [snapshot] ∧ ∀ other ∈ others, eqIgnoreAsciiCase other.name name = false := by
  constructor
  · intro hsame
    refine ⟨TableThread.without name tables, hsame.symm, fun other hother => ?_⟩
    have hkept := List.of_mem_filter hother
    rwa [Bool.not_eq_true'] at hkept
  · rintro ⟨others, rfl, hothers⟩
    have hname : eqIgnoreAsciiCase snapshot.name name = true := by
      have hmatch := List.find?_some hfound
      exact hmatch
    have hkept : TableThread.without name others = others := by
      rw [TableThread.without, List.filter_eq_self]
      intro other hother
      rw [hothers other hother]
      rfl
    rw [TableThread.without, List.filter_append, List.filter_singleton, hname, Bool.not_true, cond_false, List.append_nil]
    exact congrArg (· ++ [snapshot]) hkept

omit [CaseMapping] in
theorem unchanged_appending_iff (before : Database) (record : WalRecord) :
    Unchanged before (db.appending (.failed err written) record).2 ↔ Unchanged before db := by
  cases written with
  | false => exact Iff.rfl
  | true => exact ⟨fun h => ⟨h.1, h.2, h.3, h.4, h.5, h.6⟩, fun h => ⟨h.1, h.2, h.3, h.4, h.5, h.6⟩⟩

omit [CaseMapping] in
/-- Only the users may differ. -/
theorem unchanged_users_iff (users : UserStore) : Unchanged db { db with users } ↔ users = db.users :=
  ⟨Unchanged.users, fun h => ⟨rfl, rfl, rfl, rfl, h, rfl⟩⟩

omit [CaseMapping] in
/-- Only the grants may differ. -/
theorem unchanged_permissions_iff (permissions : PermissionStore) :
    Unchanged db { db with permissions } ↔ permissions = db.permissions :=
  ⟨Unchanged.permissions, fun h => ⟨rfl, rfl, rfl, rfl, rfl, h⟩⟩

theorem dropTable_unchanged_iff {name : String} (hreached : (db.dropTableLogging .logged name).1 = .ok ()) :
    (db.dropTableLogging (.failed err written) name).1 = .error err ∧
      (Unchanged db (db.dropTableLogging (.failed err written) name).2 ↔ db.Undone argon2 (.dropTable name)) := by
  obtain ⟨herr, snapshot, kind, middle, hfound, hkind, htables, hunset, hset, husers, hpermissions⟩ :=
    dropTableLogging_failed err written hreached
  generalize (db.dropTableLogging (.failed err written) name).2 = after at *
  have hmetadata := Catalog.getTableEngine_eq_ok.mp hkind
  refine ⟨herr, ?_, ?_⟩
  · intro h
    obtain ⟨others, hothers, hdistinct⟩ := (without_concat_iff hfound).mp (htables.symm.trans h.tables)
    have hname : snapshot.name = name := by
      by_contra hne
      have hgone : after.engine.catalog.metadata name = none := by
        rw [hset.metadata, Function.update_of_ne (Ne.symm hne), hunset.metadata, Function.update_self]
      rw [h.metadata, hmetadata] at hgone
      cases hgone
    refine ⟨others, snapshot, hothers, hdistinct, hname, fun other hother => ?_⟩
    obtain rfl := Except.ok.inj (hkind.symm.trans hother)
    rw [← h.engines, hset.engines, Function.update_self, ← hname, Function.update_self]
  · rintro ⟨others, table, hothers, hdistinct, hname, hheld⟩
    have hsame : snapshot = table := by
      have hnone : others.find? (fun table => eqIgnoreAsciiCase table.name name) = none := by
        rw [List.find?_eq_none]
        intro other hother
        rw [hdistinct other hother]
        exact Bool.false_ne_true
      rw [hothers, List.find?_append, hnone, Option.none_or, List.find?_singleton,
        if_pos (eqIgnoreAsciiCase_eq.mpr (congrArg lowerName hname))] at hfound
      exact (Option.some.inj hfound).symm
    subst hsame
    subst hname
    have hone : OneName db after kind snapshot.name (some kind.name) (some snapshot) :=
      ⟨hunset.trans hset, husers, hpermissions⟩
    rw [hone.unchanged_iff]
    exact ⟨htables.trans ((without_concat_iff hfound).mpr ⟨others, hothers, hdistinct⟩), hmetadata, hheld kind hkind⟩

theorem setHeld_eq_self_iff (store : PermissionStore) (username table : String) (permissions : List Permission) :
    PermissionStore.mk (Function.update store.grants (PermissionStore.keyOf username table) permissions) = store ↔
      permissions = store.held username table := by
  have hfield : PermissionStore.mk (Function.update store.grants (PermissionStore.keyOf username table) permissions) =
      store ↔ Function.update store.grants (PermissionStore.keyOf username table) permissions = store.grants :=
    ⟨congrArg PermissionStore.grants, congrArg PermissionStore.mk⟩
  exact hfield.trans Function.update_eq_self_iff

/-- Granting changes nothing exactly when the permission is held, the last and the only one of its kind. -/
theorem grant_eq_self_iff (store : PermissionStore) (username table : String) (permission : Permission) :
    store.grant username table permission = store ↔
      ∃ others, store.held username table = others ++ [permission] ∧ ∀ other ∈ others, other.kind ≠ permission.kind := by
  refine (setHeld_eq_self_iff store username table _).trans ?_
  constructor
  · intro hsame
    refine ⟨_, hsame.symm, fun other hother => ?_⟩
    have hkept := List.of_mem_filter hother
    exact of_decide_eq_true hkept
  · rintro ⟨others, hheld, hothers⟩
    have hkept : others.filter (fun other => other.kind ≠ permission.kind) = others := by
      rw [List.filter_eq_self]
      exact fun other hother => decide_eq_true (hothers other hother)
    rw [hheld, List.filter_append, hkept]
    simp

/-- Revoking changes nothing exactly when nothing that is held is revoked. -/
theorem revoke_eq_self_iff (store : PermissionStore) (username table : String) (permission : Permission) :
    store.revoke username table permission = store ↔
      ∀ held ∈ store.held username table, permission.survives held = true := by
  rw [← List.filter_eq_self]
  exact setHeld_eq_self_iff store username table _

theorem createUser_unchanged_iff {username password salt : String}
    (hreached : (db.createUserLogging .logged argon2 username password salt).1 = .ok ()) :
    (db.createUserLogging (.failed err written) argon2 username password salt).1 = .error err ∧
      (Unchanged db (db.createUserLogging (.failed err written) argon2 username password salt).2 ↔
        db.Undone argon2 (.createUser username password salt)) := by
  unfold createUserLogging at hreached ⊢
  cases hcreated : db.users.createUser argon2 username password salt with
  | error other =>
      rw [hcreated] at hreached
      cases hreached
  | ok users =>
      obtain ⟨-, hash, -, hadded⟩ := UserStore.createUser_eq_ok.mp hcreated
      have hfound : users.getUser username = some { username, passwordHash := hash } :=
        UserStore.getUser_eq_some.mpr ⟨hadded ▸ List.mem_concat_self, rfl⟩
      simp only [hfound]
      refine ⟨rfl, ?_⟩
      rw [unchanged_appending_iff, unchanged_users_iff, Undone, iff_false]
      intro hsame
      have hlength := congrArg List.length hadded
      rw [hsame, List.length_append, List.length_singleton] at hlength
      omega

theorem dropUser_unchanged_iff {username : String}
    (hreached : (db.dropUserLogging .logged username).1 = .ok ()) :
    (db.dropUserLogging (.failed err written) username).1 = .error err ∧
      (Unchanged db (db.dropUserLogging (.failed err written) username).2 ↔ db.Undone argon2 (.dropUser username)) := by
  unfold dropUserLogging at hreached ⊢
  cases hdropped : db.users.dropUser username with
  | error other =>
      rw [hdropped] at hreached
      cases hreached
  | ok users =>
      obtain ⟨hexists, hkept⟩ := UserStore.dropUser_eq_ok.mp hdropped
      refine ⟨rfl, ?_⟩
      refine (unchanged_appending_iff err written db (.dropUser username)).trans ?_
      rw [unchanged_users_iff, Undone, iff_false]
      rintro rfl
      obtain ⟨user, huser, hname⟩ := List.any_eq_true.mp hexists
      have hstays := List.filter_eq_self.mp hkept.symm user huser
      rw [hname] at hstays
      cases hstays

theorem alterUserPassword_unchanged_iff {username newPassword salt : String}
    (hreached : (db.alterUserPasswordLogging .logged argon2 username newPassword salt).1 = .ok ()) :
    (db.alterUserPasswordLogging (.failed err written) argon2 username newPassword salt).1 = .error err ∧
      (Unchanged db (db.alterUserPasswordLogging (.failed err written) argon2 username newPassword salt).2 ↔
        db.Undone argon2 (.alterUserPassword username newPassword salt)) := by
  unfold alterUserPasswordLogging at hreached ⊢
  cases haltered : db.users.updatePassword argon2 username newPassword salt with
  | error other =>
      rw [haltered] at hreached
      cases hreached
  | ok users =>
      obtain ⟨hexists, hash, hhash, rfl⟩ := UserStore.updatePassword_eq_ok.mp haltered
      rw [UserStore.userExists_eq] at hexists
      obtain ⟨user, huser⟩ := Option.isSome_iff_exists.mp hexists
      have hfound : (db.users.setHash username hash).getUser username = some (user.withHash hash) := by
        rw [UserStore.getUser_setHash, if_pos rfl, huser]
        rfl
      simp only [hfound]
      refine ⟨rfl, ?_⟩
      rw [unchanged_appending_iff, unchanged_users_iff, UserStore.setHash_eq_self_iff]
      refine forall₂_congr fun held _ => ?_
      rw [hhash, Except.ok.injEq, eq_comm]

theorem grantPermission_unchanged_iff {username table : String} {permission : Permission}
    (hreached : (db.grantPermissionLogging .logged username table permission).1 = .ok ()) :
    (db.grantPermissionLogging (.failed err written) username table permission).1 = .error err ∧
      (Unchanged db (db.grantPermissionLogging (.failed err written) username table permission).2 ↔
        db.Undone argon2 (.grantPermission username table permission)) := by
  unfold grantPermissionLogging at hreached ⊢
  by_cases huser : db.users.userExists username = false
  · rw [if_pos huser] at hreached
    cases hreached
  · rw [if_neg huser] at hreached ⊢
    by_cases htable : db.tableExists table = false
    · rw [if_pos htable] at hreached
      cases hreached
    · rw [if_neg htable]
      refine ⟨rfl, ?_⟩
      rw [unchanged_appending_iff, unchanged_permissions_iff]
      exact grant_eq_self_iff db.permissions username table permission

/-- When the log append of a call fails that gets so far, the state is the one before exactly where the call is undone. -/
theorem unchanged_iff_undone (argon2 : Argon2) (db : Database) (call : AdminCall)
    (hreached : (db.callLogging .logged argon2 call).1 = .ok ()) :
    (db.callLogging (.failed err written) argon2 call).1 = .error err ∧
      (Unchanged db (db.callLogging (.failed err written) argon2 call).2 ↔ db.Undone argon2 call) := by
  cases call with
  | createTable name columns engineName =>
      rw [callLogging] at hreached ⊢
      obtain ⟨herr, htables, kind, hkind, hone⟩ := createTableLogging_failed err written hreached
      refine ⟨herr, hone.unchanged_iff.trans ?_⟩
      constructor
      · rintro ⟨-, hmetadata, hengines⟩
        refine ⟨hmetadata, fun other hother => ?_⟩
        obtain rfl := Except.ok.inj (hkind.symm.trans hother)
        exact hengines
      · rintro ⟨hmetadata, hengines⟩
        exact ⟨htables, hmetadata, hengines kind hkind⟩
  | dropTable name => exact dropTable_unchanged_iff err written hreached
  | createUser username password salt => exact createUser_unchanged_iff err written hreached
  | dropUser username => exact dropUser_unchanged_iff err written hreached
  | alterUserPassword username newPassword salt => exact alterUserPassword_unchanged_iff err written hreached
  | grantPermission username table permission => exact grantPermission_unchanged_iff err written hreached
  | revokePermission username table permission =>
      refine ⟨rfl, ?_⟩
      refine (unchanged_appending_iff err written db (.revoke username table permission)).trans ?_
      rw [unchanged_permissions_iff]
      exact revoke_eq_self_iff db.permissions username table permission

end Database

namespace Database

open AsciiCase

/-- A table with rows, a user, and grants on the table. -/
def heldDb : Database :=
  [AdminCall.createUser "ann" "pw" "s", .grantPermission "ann" "t" (.insert ["a"]), .grantPermission "ann" "t" (.select []),
    .grantPermission "bob" "t" .all].foldl (fun db call => (db.callLogging .logged .plain call).2)
      ⟨DatabaseEngine.heldRowsRun.foldl DatabaseEngine.serialStep (.fresh "disk"), .new, .new⟩

/-- Revoking what the user does not hold and granting again what was granted last are undone, and dropping the user is not. -/
theorem unchanged_iff_undone_held :
    Unchanged heldDb
        (heldDb.callLogging (.failed appendError true) .plain (.revokePermission "ann" "t" .delete)).2 ∧
      Unchanged heldDb
        (heldDb.callLogging (.failed appendError true) .plain (.grantPermission "ann" "t" (.select []))).2 ∧
      ¬ Unchanged heldDb (heldDb.callLogging (.failed appendError true) .plain (.dropUser "ann")).2 := by
  refine ⟨?_, ?_, fun h => ?_⟩
  · refine ((unchanged_iff_undone appendError true .plain heldDb (.revokePermission "ann" "t" .delete) rfl).2).mpr ?_
    show ∀ held ∈ heldDb.permissions.held "ann" "t", Permission.survives .delete held = true
    decide
  · refine ((unchanged_iff_undone appendError true .plain heldDb (.grantPermission "ann" "t" (.select [])) rfl).2).mpr ?_
    exact ⟨[.insert ["a"]], rfl, by decide⟩
  · exact ((unchanged_iff_undone appendError true .plain heldDb (.dropUser "ann") rfl).2).mp h

/-- A user whose record the log did not take is there all the same. -/
theorem not_unchanged_after_failed_append :
    ¬ ∀ (argon2 : Argon2) (db : Database) (call : AdminCall) (err : HelionError) (written : Bool),
      (db.callLogging .logged argon2 call).1 = .ok () →
        Unchanged db (db.callLogging (.failed err written) argon2 call).2 := by
  intro h
  have hsame := (h .plain ⟨.fresh "memory", .new, .new⟩ (.createUser "ann" "pw" "s") appendError false (by rfl)).users
  have hlength := congrArg (List.length ∘ UserStore.users) hsame
  revert hlength
  decide

end Database

end HelionDb
