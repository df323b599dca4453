import HelionDb.Database
import HelionDb.Serial

/-! Recovery of users. A changed password is logged as the creation of a user that is already there, and
the default user is not logged at all; everything else replays to the store in memory. -/

namespace HelionDb

namespace Database

variable {argon2 : Argon2} {db : Database} {startup : Startup}

/-- The log rebuilds the users that are in memory. -/
def UsersRecovered (db : Database) : Prop := replayUsersFromWal db.log = db.users

instance (db : Database) : Decidable db.UsersRecovered := inferInstanceAs (Decidable (_ = _))

/-- A changed password has the hash that the user has already. -/
def KeepsHash (argon2 : Argon2) (db : Database) : AdminCall → Prop
  | .alterUserPassword username newPassword salt => ∀ user hash, db.users.getUser username = some user →
      argon2.hashPassword newPassword salt = .ok hash → user.passwordHash = hash
  | _ => True

theorem replayUsersFromWal_concat (records : List WalRecord) (record : WalRecord) :
    replayUsersFromWal (records ++ [record]) = replayUserRecord (replayUsersFromWal records) record :=
  List.foldl_concat _ _ _ _

theorem log_append (db : Database) (record : WalRecord) : (db.append record).log = db.log ++ [record] :=
  (List.append_assoc _ _ _).symm

theorem log_of_engine {engine : DatabaseEngine} {record : WalRecord} {users : UserStore}
    {permissions : PermissionStore} (hwalOld : engine.walOld = db.engine.walOld)
    (hwal : engine.wal = db.engine.wal ++ [record]) :
    log { engine, users, permissions } = db.log ++ [record] := by
  unfold log
  rw [hwalOld, hwal, List.append_assoc]

section

variable [CaseMapping]

/-- A call keeps the log and the users in agreement exactly when it changes no hash. -/
theorem usersRecovered_adminStep_iff (h : db.UsersRecovered) (call : AdminCall) :
    (db.adminStep argon2 call).UsersRecovered ↔ db.KeepsHash argon2 call := by
  have heffect := adminStep_effect argon2 db call
  generalize db.adminStep argon2 call = next at heffect
  unfold UsersRecovered at h ⊢
  cases heffect with
  | failed call err failure =>
      cases call with
      | alterUserPassword username newPassword salt =>
          refine iff_of_true h fun user hash huser hhash => ?_
          have hok : (db.users.updatePassword argon2 username newPassword salt) =
              .ok (db.users.setHash username hash) := by
            rw [UserStore.updatePassword_eq_ok, UserStore.userExists_eq, huser]
            exact ⟨rfl, hash, hhash, rfl⟩
          have hfound : (db.users.setHash username hash).getUser username = some (user.withHash hash) := by
            rw [UserStore.getUser_setHash, if_pos rfl, huser]
            rfl
          simp only [Database.call, alterUserPassword, hok, hfound] at failure
          cases failure
      | _ => exact iff_of_true h trivial
  | createTable name columns engineName engine fresh tables walOld wal =>
      rw [log_of_engine walOld wal, replayUsersFromWal_concat]
      exact iff_of_true h trivial
  | dropTable name engine existing tables walOld wal =>
      rw [log_of_engine walOld wal, replayUsersFromWal_concat]
      exact iff_of_true h trivial
  | createUser username password salt hash users fresh hashed added =>
      rw [log_append, replayUsersFromWal_concat]
      refine iff_of_true ?_ trivial
      change replayUserRecord (replayUsersFromWal db.log) _ = users
      have hok : db.users.insertUser { username, passwordHash := hash } = .ok users :=
        UserStore.insertUser_eq_ok.mpr ⟨fresh, added⟩
      rw [h, replayUserRecord, hok]
  | dropUser username users existing kept =>
      rw [log_append, replayUsersFromWal_concat]
      refine iff_of_true ?_ trivial
      change replayUserRecord (replayUsersFromWal db.log) _ = users
      rw [h, replayUserRecord, UserStore.dropUser_eq_ok.mpr ⟨existing, kept⟩]
  | alterUserPassword username newPassword salt hash user existing hashed =>
      rw [log_append, replayUsersFromWal_concat]
      change replayUserRecord (replayUsersFromWal db.log) _ = db.users.setHash username hash ↔ _
      have hexists : db.users.userExists user.username = true :=
        UserStore.userExists_iff.mpr ⟨user, (UserStore.getUser_eq_some.mp existing).1, rfl⟩
      -- The record is the one of a new user, and replay refuses it: the old hash stays.
      have hrefused : replayUserRecord db.users (.createUser user.username hash) = db.users := by
        rw [replayUserRecord, UserStore.insertUser, dif_pos hexists]
      rw [h, hrefused, eq_comm, UserStore.setHash_eq_self_iff]
      constructor
      · intro hsame other otherHash hother hotherHash
        obtain rfl := Except.ok.inj (hashed.symm.trans hotherHash)
        exact hsame other hother
      · exact fun hkeeps other hother => hkeeps other hash hother hashed
  | grantPermission username table permission user existing =>
      rw [log_append, replayUsersFromWal_concat]
      exact iff_of_true h trivial
  | revokePermission username table permission =>
      rw [log_append, replayUsersFromWal_concat]
      exact iff_of_true h trivial

/-- Starting on an empty directory leaves the log empty, and adds the default user if one is configured. -/
theorem usersRecovered_opened_iff (h : Opened argon2 startup db) :
    db.UsersRecovered ↔ startup.helionPassword = none := by
  obtain ⟨-, hlog, -, ⟨hpassword, husers⟩ | ⟨password, hash, hpassword, husers⟩⟩ := h.cases
  · refine iff_of_true ?_ hpassword
    rw [UsersRecovered, hlog, husers]
    rfl
  · refine iff_of_false (fun hrecovered => ?_) (hpassword ▸ Option.some_ne_none _)
    rw [UsersRecovered, hlog] at hrecovered
    rw [← hrecovered] at husers
    cases husers

/-- After every prefix of a run of administrative calls, the log rebuilds the users in memory, exactly
when no default user was added at the start and no call changed a password hash. -/
theorem users_recovered_iff (h : Opened argon2 startup db) (calls : List AdminCall) :
    (∀ taken, taken <+: calls → (taken.foldl (adminStep argon2) db).UsersRecovered) ↔
      startup.helionPassword = none ∧ Meets (adminStep argon2) (KeepsHash argon2) db calls := by
  have hstep : ∀ (state : Database) (call : AdminCall), state.UsersRecovered →
      ((adminStep argon2 state call).UsersRecovered ↔ KeepsHash argon2 state call) :=
    fun _ call hstate => usersRecovered_adminStep_iff hstate call
  constructor
  · intro hall
    have hstart := hall [] List.nil_prefix
    exact ⟨(usersRecovered_opened_iff h).mp hstart, (Meets.iff_prefixes hstep hstart calls).mpr hall⟩
  · rintro ⟨hpassword, hmeets⟩
    exact (Meets.iff_prefixes hstep ((usersRecovered_opened_iff h).mpr hpassword) calls).mp hmeets

end

end Database

/-- A start without a default user. -/
def Startup.quiet : Startup := { defaultEngine := "disk", loaded := fun _ => none, helionPassword := none, salt := "s" }

namespace Database

/-- The engine that starts so on an empty directory. -/
def empty : Database := { engine := .fresh "disk", users := .new, permissions := .new }

theorem empty_opened [CaseMapping] (argon2 : Argon2) : Opened argon2 .quiet empty := rfl

section

open scoped AsciiCase

/-- A user is created, dropped and created again. -/
def recreated : List AdminCall := [.createUser "Ann" "old" "s", .dropUser "ann", .createUser "ANN" "new" "s"]

theorem users_recovered_recreated : (recreated.foldl (adminStep .plain) empty).UsersRecovered := by
  have hrecovered := (users_recovered_iff (empty_opened .plain) recreated).mpr ⟨rfl, trivial, trivial, trivial, trivial⟩
  exact hrecovered recreated List.prefix_rfl

/-- A user is created and gets another password. -/
def altered : List AdminCall := [.createUser "ann" "old" "s", .alterUserPassword "ann" "new" "t"]

/-- Both calls return Ok, and recovery brings the old password back. -/
theorem not_users_recovered_altered :
    Meets (adminStep .plain) (CallOk .plain) empty altered ∧
      (altered.foldl (adminStep .plain) empty).verifyUser .plain "ann" "old" = false ∧
      (replayUsersFromWal (altered.foldl (adminStep .plain) empty).log).verifyLogin .plain "ann" "old" = true ∧
      (replayUsersFromWal (altered.foldl (adminStep .plain) empty).log).verifyLogin .plain "ann" "new" = false ∧
      ¬ (altered.foldl (adminStep .plain) empty).UsersRecovered := by
  refine ⟨⟨rfl, rfl, trivial⟩, ?_⟩
  decide

end

end Database

end HelionDb
