import HelionDb.Privileges

/-! Users and tables that do not meet. The stores of users and of tables tell names apart without regard to ASCII case, the
grants are kept under the names in lower case of Unicode, and that gives one key to names which the stores keep apart. -/

namespace HelionDb

/-- The answers of a store of grants about a user and a table. -/
structure Answers where
  canSelect : List String → Bool
  canInsert : List String → Bool
  canUpdate : List String → Bool
  canDelete : Bool

namespace AdminCall

/-- A grant to a user, a revocation from it, or its drop. -/
def OnUser (user : String) : AdminCall → Prop
  | .grantPermission username _ _ | .revokePermission username _ _ | .dropUser username => username = user
  | _ => False

/-- A grant on a table, a revocation on it, or its drop. -/
def OnTable (name : String) : AdminCall → Prop
  | .grantPermission _ table _ | .revokePermission _ table _ | .dropTable table => table = name
  | _ => False

end AdminCall

namespace Database

section

variable [CaseMapping] {argon2 : Argon2} {db : Database} {user other table name : String} {call : AdminCall}

def answers (db : Database) (username table : String) : Answers where
  canSelect := db.permissions.canSelect username table
  canInsert := db.permissions.canInsert username table
  canUpdate := db.permissions.canUpdate username table
  canDelete := db.permissions.canDelete username table

theorem answers_eq_of_held {before after : Database}
    (h : after.permissions.held user table = before.permissions.held user table) :
    after.answers user table = before.answers user table := by
  unfold answers PermissionStore.canSelect PermissionStore.canInsert PermissionStore.canUpdate PermissionStore.canDelete
    PermissionStore.can
  rw [h]

/-- A grant or a revocation leaves what is held under another key. -/
theorem held_grant_of_ne (store : PermissionStore) (permission : Permission)
    (hkey : PermissionStore.keyOf other name ≠ PermissionStore.keyOf user table) :
    (store.grant user table permission).held other name = store.held other name :=
  Function.update_of_ne hkey _ _

theorem held_revoke_self (store : PermissionStore) (permission : Permission)
    (hkey : PermissionStore.keyOf user table = PermissionStore.keyOf other name) :
    (store.revoke user table permission).held other name = (store.held other name).filter permission.survives := by
  unfold PermissionStore.held PermissionStore.revoke PermissionStore.held
  dsimp only
  rw [hkey, Function.update_self]

theorem held_revoke_of_ne (store : PermissionStore) (permission : Permission)
    (hkey : PermissionStore.keyOf other name ≠ PermissionStore.keyOf user table) :
    (store.revoke user table permission).held other name = store.held other name :=
  Function.update_of_ne hkey _ _

/-- A call on a user leaves what is held under another name. -/
theorem held_adminStep_of_onUser (hcall : call.OnUser user)
    (hname : CaseMapping.toLowercase user ≠ CaseMapping.toLowercase other) (table : String) :
    (db.adminStep argon2 call).permissions.held other table = db.permissions.held other table := by
  have hkey (name : String) : PermissionStore.keyOf other table ≠ PermissionStore.keyOf user name :=
    fun hsame => hname (congrArg Prod.fst hsame).symm
  have heffect := adminStep_effect argon2 db call
  generalize db.adminStep argon2 call = after at heffect ⊢
  cases heffect with
  | failed => rfl
  | createTable | dropTable | createUser | alterUserPassword => exact hcall.elim
  | dropUser username users existing kept =>
      obtain rfl : username = user := hcall
      exact if_neg fun hsame => hname hsame.symm
  | grantPermission username granted permission =>
      obtain rfl : username = user := hcall
      exact held_grant_of_ne _ permission (hkey granted)
  | revokePermission username revoked permission =>
      obtain rfl : username = user := hcall
      exact held_revoke_of_ne _ permission (hkey revoked)

/-- A call on a table leaves what is held on another name. -/
theorem held_adminStep_of_onTable (hcall : call.OnTable table)
    (hname : CaseMapping.toLowercase table ≠ CaseMapping.toLowercase other) (username : String) :
    (db.adminStep argon2 call).permissions.held username other = db.permissions.held username other := by
  have hkey (user : String) : PermissionStore.keyOf username other ≠ PermissionStore.keyOf user table :=
    fun hsame => hname (congrArg Prod.snd hsame).symm
  have heffect := adminStep_effect argon2 db call
  generalize db.adminStep argon2 call = after at heffect ⊢
  cases heffect with
  | failed => rfl
  | createTable | createUser | dropUser | alterUserPassword => exact hcall.elim
  | dropTable dropped engine existing tables walOld wal ok =>
      obtain rfl : dropped = table := hcall
      exact if_neg fun hsame => hname hsame.symm
  | grantPermission user granted permission =>
      obtain rfl : granted = table := hcall
      exact held_grant_of_ne _ permission (hkey user)
  | revokePermission user revoked permission =>
      obtain rfl : revoked = table := hcall
      exact held_revoke_of_ne _ permission (hkey user)

/-- What is held under a key that no call of a sequence changes. -/
theorem held_foldl_adminStep {calls : List AdminCall}
    (hstep : ∀ call ∈ calls, ∀ db : Database,
      (db.adminStep argon2 call).permissions.held user table = db.permissions.held user table) (db : Database) :
    (calls.foldl (adminStep argon2) db).permissions.held user table = db.permissions.held user table := by
  induction calls generalizing db with
  | nil => rfl
  | cons call rest ih =>
      rw [List.foldl_cons, ih fun later hlater => hstep later (List.mem_cons_of_mem _ hlater)]
      exact hstep call List.mem_cons_self db

/-- The revocations that take the right to delete from whoever has the key. -/
def revocations (user table : String) : List AdminCall :=
  [.revokePermission user table .delete, .revokePermission user table .all]

theorem canDelete_revocations (hkey : PermissionStore.keyOf user table = PermissionStore.keyOf other name) :
    ((revocations user table).foldl (adminStep argon2) db).permissions.canDelete other name = false := by
  have hheld : ((revocations user table).foldl (adminStep argon2) db).permissions.held other name =
      ((db.permissions.held other name).filter Permission.delete.survives).filter Permission.all.survives := by
    change ((db.permissions.revoke user table .delete).revoke user table .all).held other name = _
    rw [held_revoke_self _ _ hkey, held_revoke_self _ _ hkey]
  rw [PermissionStore.canDelete, hheld, List.any_eq_false]
  intro permission hmem hkind
  obtain ⟨hmem, hall⟩ := List.mem_filter.mp hmem
  obtain ⟨-, hdelete⟩ := List.mem_filter.mp hmem
  cases permission with
  | select | insert | update => cases hkind
  | delete => cases hdelete
  | all => cases hall

theorem userExists_adminStep_createTable (db : Database) (table : String) :
    (db.adminStep .plain (.createTable table [] none)).users = db.users := by
  rw [adminStep, call, createTable]
  cases (db.engine.createTable table [] none).1 with
  | error err => rfl
  | ok => rfl

/-- A table can be created where there is none. -/
theorem tableExists_adminStep_createTable {db : Database} (htables : db.engine.tables = [])
    (hengine : db.engine.catalog.defaultEngine = "disk") (table : String) :
    (db.adminStep .plain (.createTable table [] none)).tableExists table = true := by
  have hkind : Catalog.getEngine "disk" = .ok .disk := by decide
  rcases db.engine.createTable_cases table [] none with ⟨err, herr⟩ | ⟨catalog, -, hok⟩
  · rw [DatabaseEngine.createTable, htables, List.any_nil, if_neg Bool.false_ne_true] at herr
    dsimp only at herr
    rw [hengine, Catalog.createTable, hkind] at herr
    cases herr
  · rw [adminStep, call, createTable, hok, tableExists]
    dsimp only
    rw [htables, List.nil_append, List.any_cons, Table.new_name, eqIgnoreAsciiCase_refl, Bool.true_or]

end

section

variable [CaseMapping] [Rendering] [SqlText] {user other table name : String}

/-- No sequence of calls on a user changes an answer about another one. -/
def UsersApart (user other : String) : Prop :=
  ∀ argon2 db (calls : List AdminCall), Reachable argon2 db → (∀ call ∈ calls, AdminCall.OnUser user call) →
    ∀ table, (calls.foldl (adminStep argon2) db).answers other table = db.answers other table

/-- No sequence of calls on a table changes an answer about another one. -/
def TablesApart (name other : String) : Prop :=
  ∀ argon2 db (calls : List AdminCall), Reachable argon2 db → (∀ call ∈ calls, AdminCall.OnTable name call) →
    ∀ username, (calls.foldl (adminStep argon2) db).answers username other = db.answers username other

/-- Some engine lets a user delete from a table. -/
theorem exists_canDelete (user table : String) :
    ∃ db, Reachable .plain db ∧ db.permissions.canDelete user table = true := by
  let calls : List AdminCall :=
    [.createUser user "x" "s", .createTable table [] none, .grantPermission user table .delete]
  refine ⟨calls.foldl (adminStep .plain) empty, ⟨.quiet, empty, empty_opened .plain, ?_⟩, ?_⟩
  · exact @Reaches.foldl _ _ (eventStep .plain) (calls.map fun call => .history (.admin call)) empty
  · obtain ⟨users, hcreated⟩ := @UserStore.exists_createUser .new user .plain "x" "s" _ rfl rfl
    obtain ⟨-, hash, -, hadded⟩ := UserStore.createUser_eq_ok.mp hcreated
    have hfound : users.getUser user = some { username := user, passwordHash := hash } :=
      UserStore.getUser_eq_some.mpr ⟨hadded ▸ List.mem_concat_self, rfl⟩
    have hcreateUser : empty.adminStep .plain (.createUser user "x" "s") =
        { empty with users }.append (.createUser user hash) := by
      rw [adminStep, call, createUser, show empty.users = .new from rfl, hcreated]
      dsimp only
      rw [hfound]
    rw [List.foldl_cons, List.foldl_cons, List.foldl_cons, List.foldl_nil, hcreateUser]
    generalize hcreateTable : ({ empty with users }.append (.createUser user hash)).adminStep .plain
      (.createTable table [] none) = db
    have huser : db.users.userExists user = true := by
      rw [← hcreateTable, userExists_adminStep_createTable, UserStore.userExists_eq]
      exact Option.isSome_iff_exists.mpr ⟨_, hfound⟩
    have htable : db.tableExists table = true := by
      rw [← hcreateTable]
      exact tableExists_adminStep_createTable rfl rfl table
    have hheld : (db.permissions.grant user table .delete).held user table =
        (db.permissions.held user table).filter (fun other => other.kind ≠ .delete) ++ [.delete] :=
      Function.update_self _ _ _
    have hneg : ¬ true = false := Bool.noConfusion
    rw [adminStep, call, grantPermission, huser, htable, if_neg hneg, if_neg hneg]
    show PermissionStore.canDelete (db.permissions.grant user table .delete) user table = true
    rw [PermissionStore.canDelete, hheld, List.any_append]
    exact Bool.or_true _

theorem usersApart_iff : UsersApart user other ↔ CaseMapping.toLowercase user ≠ CaseMapping.toLowercase other := by
  constructor
  · intro hapart hname
    obtain ⟨db, hreachable, hdelete⟩ := exists_canDelete other "t"
    have hsame := hapart .plain db (revocations user "t") hreachable (by simp [revocations, AdminCall.OnUser]) "t"
    have hkey : PermissionStore.keyOf user "t" = PermissionStore.keyOf other "t" := congrArg (·, _) hname
    have hafter := (canDelete_revocations hkey).symm.trans (congrArg Answers.canDelete hsame)
    exact absurd (hafter.trans hdelete) Bool.false_ne_true
  · intro hname argon2 db calls _ hcalls table
    exact answers_eq_of_held
      (held_foldl_adminStep (fun call hcall _ => held_adminStep_of_onUser (hcalls call hcall) hname table) db)

theorem tablesApart_iff : TablesApart table name ↔ CaseMapping.toLowercase table ≠ CaseMapping.toLowercase name := by
  constructor
  · intro hapart hname
    obtain ⟨db, hreachable, hdelete⟩ := exists_canDelete "u" name
    have hsame := hapart .plain db (revocations "u" table) hreachable (by simp [revocations, AdminCall.OnTable]) "u"
    have hkey : PermissionStore.keyOf "u" table = PermissionStore.keyOf "u" name := congrArg (_, ·) hname
    have hafter := (canDelete_revocations hkey).symm.trans (congrArg Answers.canDelete hsame)
    exact absurd (hafter.trans hdelete) Bool.false_ne_true
  · intro hname argon2 db calls _ hcalls username
    exact answers_eq_of_held
      (held_foldl_adminStep (fun call hcall _ => held_adminStep_of_onTable (hcalls call hcall) hname username) db)

/-- Two users and two tables are independent just where the names in lower case of Unicode differ. -/
theorem principals_independent_iff (user other table name : String) :
    UsersApart user other ∧ TablesApart table name ↔
      CaseMapping.toLowercase user ≠ CaseMapping.toLowercase other ∧
        CaseMapping.toLowercase table ≠ CaseMapping.toLowercase name :=
  and_congr usersApart_iff tablesApart_iff

end

namespace KelvinCase

/-- A case mapping that, as the one of Unicode, takes the Kelvin sign for a capital k. -/
scoped instance mapping : CaseMapping where
  toLowercase text := String.ofList (text.toList.map fun c => if c = '\u212A' then 'k' else c.toLower)
  toUppercase text := String.ofList (text.toList.map Char.toUpper)
  toLowercase_ascii text h := by
    refine congrArg String.ofList (List.map_congr_left fun c hc => if_neg ?_)
    rintro rfl
    exact absurd (h _ hc) (by decide)
  toUppercase_ascii := AsciiCase.mapping.toUppercase_ascii

open scoped PlainText

/-- A table and two users whose names differ in the Kelvin sign. -/
def namesakes : List AdminCall :=
  [.createTable "t" [.new "a" .integer] none, .createUser "k" "x" "s", .createUser "\u212A" "y" "s"]

/-- A grant to the one is a grant to the other, and so is the drop. -/
theorem not_principals_independent :
    Reachable .plain (namesakes.foldl (adminStep .plain) empty) ∧
      (namesakes.foldl (adminStep .plain) empty).users.userCount = 2 ∧ eqIgnoreAsciiCase "\u212A" "k" = false ∧
      (namesakes.foldl (adminStep .plain) empty).permissions.canDelete "k" "t" = false ∧
      ((namesakes ++ [AdminCall.grantPermission "\u212A" "t" .delete]).foldl (adminStep .plain)
        empty).permissions.canDelete "k" "t" = true ∧
      ((namesakes ++ [AdminCall.grantPermission "k" "t" .delete, AdminCall.dropUser "\u212A"]).foldl (adminStep .plain)
        empty).permissions.canDelete "k" "t" = false := by
  refine ⟨⟨.quiet, empty, empty_opened .plain,
    @Reaches.foldl _ _ (eventStep .plain) (namesakes.map fun call => .history (.admin call)) empty⟩, ?_⟩
  decide

end KelvinCase

end Database

end HelionDb
