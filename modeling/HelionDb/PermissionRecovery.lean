import HelionDb.UserRecovery

/-! Recovery of grants. A grant and a revocation are logged; what the drop of a user or a table takes away,
and what the creation of a table gives to the default user, is not. The kinds of permission are followed
one at a time, since a question about one kind never looks at another one but ALL. -/

namespace HelionDb

/-- The kinds that can answer a question about reading or inserting. -/
def Permission.Kind.IsAccess (kind : Permission.Kind) : Prop := kind = .select ∨ kind = .insert ∨ kind = .all

namespace Database

section

variable [CaseMapping] {argon2 : Argon2} {start db : Database} {startup : Startup}

/-- The log rebuilds the permissions of these kinds. -/
def GrantsRecovered (db : Database) : Prop :=
  ∀ kind : Permission.Kind, kind.IsAccess → ∀ key,
    (replayPermissionsFromWal db.log).ofKind kind key = db.permissions.ofKind kind key

/-- The call changes no permission of these kinds without a record: a table is created while the default
user is absent or holds ALL on it already, and what is dropped has no permissions left. -/
def GrantsLogged (db : Database) : AdminCall → Prop
  | .createTable name _ _ => db.tableExists name = false → db.users.userExists "helion" = true →
      db.permissions.ofKind .all (PermissionStore.keyOf "helion" name) = [.all]
  | .dropTable name => db.tableExists name = true →
      ∀ kind : Permission.Kind, kind.IsAccess → ∀ user,
        db.permissions.ofKind kind (user, CaseMapping.toLowercase name) = []
  | .dropUser username => db.users.userExists username = true →
      ∀ kind : Permission.Kind, kind.IsAccess → ∀ table,
        db.permissions.ofKind kind (CaseMapping.toLowercase username, table) = []
  | _ => True

theorem replayPermissionsFromWal_concat (records : List WalRecord) (record : WalRecord) :
    replayPermissionsFromWal (records ++ [record]) =
      replayPermissionRecord (replayPermissionsFromWal records) record := List.foldl_concat _ _ _ _

/-- A call under the guard keeps the log and the permissions in agreement. -/
theorem GrantsRecovered.adminStep (h : db.GrantsRecovered) {call : AdminCall} (hguard : db.GrantsLogged call) :
    (db.adminStep argon2 call).GrantsRecovered := by
  have heffect := adminStep_effect argon2 db call
  generalize db.adminStep argon2 call = next at heffect
  intro kind hkind key
  have hkey := h kind hkind key
  cases heffect with
  | failed call err failure => exact hkey
  | createTable name columns engineName engine fresh tables walOld wal =>
      rw [log_of_engine walOld wal, replayPermissionsFromWal_concat]
      change (replayPermissionsFromWal db.log).ofKind kind key = _
      rw [hkey]
      dsimp only
      split
      · rename_i hhelion
        rw [PermissionStore.ofKind_grant]
        split
        · rename_i hsame
          obtain ⟨rfl, rfl⟩ := hsame
          exact hguard fresh hhelion
        · rfl
      · rfl
  | dropTable name engine existing tables walOld wal =>
      rw [log_of_engine walOld wal, replayPermissionsFromWal_concat]
      change (replayPermissionsFromWal db.log).ofKind kind key = _
      rw [hkey, PermissionStore.ofKind_removeTable]
      split
      · rename_i hname
        exact Prod.eta key ▸ hname ▸ hguard existing kind hkind key.1
      · rfl
  | createUser username password salt hash users fresh hashed added =>
      rw [log_append, replayPermissionsFromWal_concat]
      exact hkey
  | dropUser username users existing kept =>
      rw [log_append, replayPermissionsFromWal_concat]
      change (replayPermissionsFromWal db.log).ofKind kind key = (db.permissions.removeUser username).ofKind kind key
      rw [hkey, PermissionStore.ofKind_removeUser]
      split
      · rename_i hname
        exact Prod.eta key ▸ hname ▸ hguard existing kind hkind key.2
      · rfl
  | alterUserPassword username newPassword salt hash user existing hashed =>
      rw [log_append, replayPermissionsFromWal_concat]
      exact hkey
  | grantPermission username table permission user existing =>
      rw [log_append, replayPermissionsFromWal_concat]
      change ((replayPermissionsFromWal db.log).grant username table permission).ofKind kind key =
        (db.permissions.grant username table permission).ofKind kind key
      rw [PermissionStore.ofKind_grant, PermissionStore.ofKind_grant, hkey]
  | revokePermission username table permission =>
      rw [log_append, replayPermissionsFromWal_concat]
      change ((replayPermissionsFromWal db.log).revoke username table permission).ofKind kind key =
        (db.permissions.revoke username table permission).ofKind kind key
      rw [PermissionStore.ofKind_revoke, PermissionStore.ofKind_revoke, hkey]

/-- Stores that agree kind by kind answer alike. -/
theorem can_congr {left right : PermissionStore}
    (h : ∀ kind : Permission.Kind, kind.IsAccess → ∀ key, left.ofKind kind key = right.ofKind kind key)
    {kind : Permission.Kind} (hkind : kind.IsAccess) (username table : String) (columns : List String) :
    left.can username table kind columns = right.can username table kind columns := by
  rw [PermissionStore.can_eq, PermissionStore.can_eq, h kind hkind, h .all (.inr (.inr rfl))]

/-- Nothing is granted on an empty directory. -/
theorem grantsRecovered_opened (h : Opened argon2 startup db) : db.GrantsRecovered := by
  obtain ⟨-, hlog, hpermissions, -⟩ := h.cases
  intro kind _ key
  rw [hlog, hpermissions]
  rfl

/-- In every run of administrative calls under the guard, the grants that the log rebuilds answer every
question about reading and inserting as the ones in memory do. -/
theorem grants_recovered (hstart : Opened argon2 startup start) (h : Reaches (adminStep argon2) GrantsLogged start db)
    (username table : String) (columns : List String) :
    (replayPermissionsFromWal db.log).canSelect username table columns =
        db.permissions.canSelect username table columns ∧
      (replayPermissionsFromWal db.log).canInsert username table columns =
        db.permissions.canInsert username table columns := by
  have hrecovered : db.GrantsRecovered :=
    h.invariant (fun _ _ hdb hguard => GrantsRecovered.adminStep hdb hguard) (grantsRecovered_opened hstart)
  exact ⟨can_congr hrecovered (.inl rfl) username table columns,
    can_congr hrecovered (.inr (.inl rfl)) username table columns⟩

end

section

open scoped AsciiCase

/-- A table and a user with a grant on one column. -/
def granting : List AdminCall :=
  [.createTable "t" [.new "a" .integer] none, .createUser "ann" "x" "s", .grantPermission "ann" "t" (.select ["a"])]

/-- The grant is revoked, and then the table is dropped and created again. -/
def regranting : List AdminCall :=
  granting ++ [AdminCall.revokePermission "ann" "t" (.select ["a"]), AdminCall.dropTable "t",
    AdminCall.createTable "t" [.new "a" .integer] none]

theorem grants_recovered_revoked :
    (replayPermissionsFromWal (regranting.foldl (adminStep .plain) empty).log).canSelect "ann" "t" ["a"] =
      (regranting.foldl (adminStep .plain) empty).permissions.canSelect "ann" "t" ["a"] := by
  have hmeets : Meets (adminStep .plain) GrantsLogged empty regranting := by
    refine ⟨?_, trivial, trivial, trivial, ?_, ?_, trivial⟩
    · rintro - ⟨⟩
    · rintro - kind - user
      change ((PermissionStore.new.grant "ann" "t" (.select ["a"])).revoke "ann" "t" (.select ["a"])).ofKind kind _ = []
      rw [PermissionStore.ofKind_revoke, PermissionStore.ofKind_grant]
      split_ifs with hkey hgranted hgranted
      · rfl
      · rfl
      · exact absurd hgranted.1 hkey
      · rfl
    · rintro - ⟨⟩
  exact (grants_recovered (empty_opened .plain) (.of_meets hmeets) "ann" "t" ["a"]).1

/-- The user is dropped and created again. -/
def recreating : List AdminCall := granting ++ [AdminCall.dropUser "ann", AdminCall.createUser "ann" "y" "s"]

/-- Every call returns Ok; in memory the new user has no grant, and recovery gives it the old one. -/
theorem not_grants_recovered_dropped :
    Meets (adminStep .plain) (CallOk .plain) empty recreating ∧
      (recreating.foldl (adminStep .plain) empty).permissions.canSelect "ann" "t" ["a"] = false ∧
      (replayPermissionsFromWal (recreating.foldl (adminStep .plain) empty).log).canSelect "ann" "t" ["a"] = true := by
  refine ⟨⟨rfl, rfl, rfl, rfl, rfl, trivial⟩, ?_⟩
  decide

end

end Database

end HelionDb
