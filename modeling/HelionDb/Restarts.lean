import HelionDb.PermissionRecovery

/-! Restarts. A shutdown writes a checkpoint and rotates the log, and the file it rotates away takes the
place of the one rotated before. The checkpoint holds tables only, so users and grants live exactly as long
as the first rotated file: an open behind the second rotation finds none of them. -/

namespace HelionDb

/-- Shutting the engine down, and opening its directory. -/
inductive Upkeep where
  | shutdown
  | reopen (startup : Startup)

/-- What gives an engine its users, grants and tables: calls, and serial work on its tables. -/
inductive HistoryOp where
  | admin (call : AdminCall)
  | storage (call : SerialCall)

/-- Every open finds at most one rotation behind it, the earlier ones included. -/
def OpensInTime : Nat → List Upkeep → Prop
  | _, [] => True
  | rotations, .shutdown :: rest => OpensInTime (rotations + 1) rest
  | rotations, .reopen _ :: rest => rotations ≤ 1 ∧ OpensInTime rotations rest

/-- No open configures a default user. -/
def WithoutDefaultUser (ops : List Upkeep) : Prop :=
  ∀ startup, Upkeep.reopen startup ∈ ops → startup.helionPassword = none

namespace Database

/-- Users and grants come from `create_user` and `grant_permission` only. -/
def CreatesOnly (db : Database) : HistoryOp → Prop
  | .admin (.createTable _ _ _) => db.users.userExists "helion" = false
  | .admin (.createUser _ _ _) => True
  | .admin (.grantPermission _ _ _) => True
  | .admin _ => False
  | .storage call =>
      match call.op with
      | .execute (.createTable _ _ _) | .execute (.dropTable _ _) | .shutdown | .reopen _ _ => False
      | _ => True

/-- Permissions that agree on the kinds of access. -/
def SameGrants (left right : PermissionStore) : Prop :=
  ∀ kind : Permission.Kind, kind.IsAccess → ∀ key, left.ofKind kind key = right.ofKind kind key

/-! ### Logs of tables -/

theorem foldl_replayUserRecord {records : List WalRecord} (h : ∀ record ∈ records, record.IsTable)
    (store : UserStore) : records.foldl replayUserRecord store = store := by
  refine Loop.foldl_eq_self (fun record hrecord _ => ?_) store
  have htable := h record hrecord
  cases record <;> first | rfl | cases htable

/-- The rotated log stays, and only records of tables are appended. -/
def LogGrows (engine next : DatabaseEngine) : Prop :=
  next.walOld = engine.walOld ∧
    ∃ records, (∀ record ∈ records, WalRecord.IsTable record) ∧ next.wal = engine.wal ++ records

theorem LogGrows.refl (engine : DatabaseEngine) : LogGrows engine engine :=
  ⟨rfl, [], List.forall_mem_nil _, (List.append_nil _).symm⟩

theorem isTable_walRecords (tx : Transaction) : ∀ record ∈ tx.walRecords, record.IsTable := by
  intro record hrecord
  rcases List.mem_append.mp hrecord with hentry | hcommit
  · obtain ⟨entry, -, rfl⟩ := List.mem_map.mp hentry
    unfold WriteEntry.walRecord
    split <;> trivial
  · obtain rfl := List.mem_singleton.mp hcommit
    trivial

theorem logGrows_commit (engine : DatabaseEngine) (orders : CommitOrders) (tx : Transaction) :
    LogGrows engine (engine.commit orders tx).2.2 := by
  obtain ⟨-, -, hwalOld, hwal | hwal⟩ := DatabaseEngine.commit_frame engine orders tx
  · exact ⟨hwalOld, [], List.forall_mem_nil _, hwal.trans (List.append_nil _).symm⟩
  · exact ⟨hwalOld, _, isTable_walRecords tx, hwal⟩

theorem logGrows_withWriteTxn (engine : DatabaseEngine) (orders : CommitOrders)
    (f : Transaction → List Table → Except HelionError (List WriteEntry)) :
    LogGrows engine (engine.withWriteTxn orders f).2 := by
  cases hf : f engine.begin.1 engine.tables with
  | error err =>
      rw [DatabaseEngine.withWriteTxn, hf]
      exact .refl engine
  | ok entries =>
      rw [DatabaseEngine.withWriteTxn_of_ok hf]
      exact logGrows_commit engine.begin.2 orders _

theorem logGrows_reworked {engine next : DatabaseEngine} (h : engine.Reworked next) : LogGrows engine next := by
  cases h with
  | same => exact .refl engine
  | read => exact .refl engine
  | committed start hstart orders tx =>
      rcases hstart with rfl | rfl
      · exact logGrows_commit start.begin.2 orders tx
      · exact logGrows_commit engine.readSnapshot.2.begin.2 orders tx
  | migrated name targetEngine => exact .refl engine
  | reindexed tableName table indexes htable => exact .refl engine

theorem logGrows_execute (engine : DatabaseEngine) (orders : CommitOrders) (statement : LogicalPlan) :
    LogGrows engine (engine.execute orders statement).2 := by
  cases statement with
  | createTable name columns engineName =>
      rcases engine.createTable_cases name columns engineName with ⟨err, h⟩ | ⟨catalog, -, h⟩
      · rw [DatabaseEngine.execute, h]
        exact .refl engine
      · rw [DatabaseEngine.execute, h]
        exact ⟨rfl, [.createTable name columns], List.forall_mem_singleton.mpr trivial, rfl⟩
  | dropTable name ifExists =>
      have hdrop : LogGrows engine (engine.dropTable name).2 := by
        rcases engine.dropTable_cases name with ⟨err, h⟩ | ⟨catalog, -, h⟩
        · rw [h]
          exact .refl engine
        · rw [h]
          exact ⟨rfl, [.dropTable name], List.forall_mem_singleton.mpr trivial, rfl⟩
      simp only [DatabaseEngine.execute]
      split
      · split <;> exact hdrop
      · exact hdrop
  | _ => exact logGrows_reworked (engine.reworked_execute orders trivial)

/-- Serial work on tables only logs records of tables. -/
theorem logGrows_serialStep {db : Database} {call : SerialCall} (hguard : db.CreatesOnly (.storage call)) :
    LogGrows db.engine (db.engine.serialStep call) := by
  unfold DatabaseEngine.serialStep
  cases hop : call.op with
  | execute plan => exact logGrows_execute db.engine call.orders plan
  | writeTxn f => exact logGrows_withWriteTxn db.engine call.orders f
  | readTxn => exact .refl db.engine
  | checkpoint =>
      exact ⟨rfl, [DatabaseEngine.checkpointRecord db.engine.tables], List.forall_mem_singleton.mpr trivial, rfl⟩
  | shutdown =>
      simp only [CreatesOnly, hop] at hguard
  | reopen defaultEngine loaded =>
      simp only [CreatesOnly, hop] at hguard

section

variable [CaseMapping] {argon2 : Argon2}

/-- An open that fails leaves the directory as it was. -/
def upkeepStep (argon2 : Argon2) (db : Database) : Upkeep → Database
  | .shutdown => db.shutdown
  | .reopen startup =>
      match openDirectory argon2 startup db.engine.walOld db.engine.wal db.engine.catalog.saved with
      | .ok next => next
      | .error _ => db

def historyStep (argon2 : Argon2) (db : Database) : HistoryOp → Database
  | .admin call => db.adminStep argon2 call
  | .storage call => { db with engine := db.engine.serialStep call }

/-- The same users can authenticate, and every question about reading and inserting has the same answer. -/
def SameAccess (argon2 : Argon2) (before after : Database) : Prop :=
  (∀ username password, after.verifyUser argon2 username password = before.verifyUser argon2 username password) ∧
    ∀ username table columns,
      after.permissions.canSelect username table columns = before.permissions.canSelect username table columns ∧
        after.permissions.canInsert username table columns = before.permissions.canInsert username table columns

theorem foldl_replayPermissionRecord {records : List WalRecord} (h : ∀ record ∈ records, record.IsTable)
    (store : PermissionStore) : records.foldl replayPermissionRecord store = store := by
  refine Loop.foldl_eq_self (fun record hrecord _ => ?_) store
  have htable := h record hrecord
  cases record <;> first | rfl | cases htable

/-- Records of tables on both sides of the others do not show in the replay of users and grants. -/
theorem replay_between {before records after : List WalRecord} (hbefore : ∀ record ∈ before, record.IsTable)
    (hafter : ∀ record ∈ after, record.IsTable) :
    replayUsersFromWal (before ++ (records ++ after)) = replayUsersFromWal records ∧
      replayPermissionsFromWal (before ++ (records ++ after)) = replayPermissionsFromWal records := by
  unfold replayUsersFromWal replayPermissionsFromWal
  constructor
  · rw [List.foldl_append, List.foldl_append, foldl_replayUserRecord hbefore,
      foldl_replayUserRecord hafter]
  · rw [List.foldl_append, List.foldl_append, foldl_replayPermissionRecord hbefore,
      foldl_replayPermissionRecord hafter]

/-- A log that grows by records of tables rebuilds the same users and grants. -/
theorem LogGrows.replay {engine next : DatabaseEngine} (h : LogGrows engine next) :
    replayUsersFromWal (next.walOld ++ next.wal) = replayUsersFromWal (engine.walOld ++ engine.wal) ∧
      replayPermissionsFromWal (next.walOld ++ next.wal) =
        replayPermissionsFromWal (engine.walOld ++ engine.wal) := by
  obtain ⟨hwalOld, records, hrecords, hwal⟩ := h
  rw [hwalOld, hwal, ← List.append_assoc]
  exact replay_between (List.forall_mem_nil _) hrecords

/-- What holds of an engine whose users and grants come from `create_user` and `grant_permission`. -/
structure Built (argon2 : Argon2) (db : Database) : Prop where
  wellFormed : db.engine.WellFormed
  unrotated : db.engine.walOld = []
  users : db.UsersRecovered
  grants : db.GrantsRecovered
  hashed : ∀ user ∈ db.users.users, ∃ password salt, argon2.hashPassword password salt = .ok user.passwordHash
  granted : db.users = .new → SameGrants db.permissions .new

theorem Built.opened {startup : Startup} {db : Database} (h : Opened argon2 startup db)
    (hquiet : startup.helionPassword = none) : Built argon2 db := by
  have hrecovered := (usersRecovered_opened_iff h).mpr hquiet
  have hgrants := grantsRecovered_opened h
  obtain ⟨hwf, hwalOld⟩ := wellFormed_opened h
  obtain ⟨-, -, hpermissions, ⟨-, husers⟩ | ⟨password, hash, hpassword, -⟩⟩ := h.cases
  · refine ⟨hwf, hwalOld, hrecovered, hgrants, ?_, fun _ => hpermissions ▸ fun _ _ _ => rfl⟩
    rw [husers]
    exact List.forall_mem_nil _
  · rw [hquiet] at hpassword
    cases hpassword

theorem Built.admin {db : Database} (h : Built argon2 db) {call : AdminCall} (hguard : db.CreatesOnly (.admin call)) :
    Built argon2 (db.adminStep argon2 call) := by
  have hwf := wellFormed_adminStep argon2 h.wellFormed call
  have hkeeps : db.KeepsHash argon2 call := by
    cases call <;> trivial
  have hlogged : db.GrantsLogged call := by
    cases call with
    | createTable name columns engineName =>
        intro _ hhelion
        rw [show db.users.userExists "helion" = false from hguard] at hhelion
        cases hhelion
    | createUser username password salt => trivial
    | grantPermission username table permission => trivial
    | _ => exact hguard.elim
  have husers := (usersRecovered_adminStep_iff h.users call).mpr hkeeps
  have hgrants : (db.adminStep argon2 call).GrantsRecovered := h.grants.adminStep hlogged
  have heffect := adminStep_effect argon2 db call
  generalize db.adminStep argon2 call = next at heffect hwf husers hgrants ⊢
  suffices hrest : next.engine.walOld = [] ∧
      (∀ user ∈ next.users.users, ∃ password salt, argon2.hashPassword password salt = .ok user.passwordHash) ∧
      (next.users = .new → SameGrants next.permissions .new) from
    ⟨hwf, hrest.1, husers, hgrants, hrest.2.1, hrest.2.2⟩
  cases heffect with
  | failed call err failure => exact ⟨h.unrotated, h.hashed, h.granted⟩
  | createTable name columns engineName engine fresh tables walOld wal =>
      refine ⟨walOld.trans h.unrotated, h.hashed, fun hnew => ?_⟩
      have hguard : db.users.userExists "helion" = false := hguard
      simp only [hguard]
      exact h.granted hnew
  | createUser username password salt hash users fresh hashed added =>
      refine ⟨h.unrotated, fun user huser => ?_, fun hnew => ?_⟩
      · rcases List.mem_append.mp (added ▸ huser) with hold | hnew
        · exact h.hashed user hold
        · obtain rfl := List.mem_singleton.mp hnew
          exact ⟨password, salt, hashed⟩
      · have hnil : users.users = [] := congrArg UserStore.users hnew
        rw [hnil] at added
        simp at added
  | grantPermission username table permission user existing =>
      refine ⟨h.unrotated, h.hashed, fun hnew => ?_⟩
      have hnew : db.users = .new := hnew
      rw [hnew] at user
      cases user
  | dropTable => exact hguard.elim
  | dropUser => exact hguard.elim
  | alterUserPassword => exact hguard.elim
  | revokePermission => exact hguard.elim

theorem Built.step {db : Database} (h : Built argon2 db) {op : HistoryOp} (hguard : db.CreatesOnly op) :
    Built argon2 (db.historyStep argon2 op) := by
  cases op with
  | storage call =>
      have hgrows := logGrows_serialStep hguard
      have hwf := h.wellFormed.transition (DatabaseEngine.serialStep_transition db.engine call)
      exact ⟨hwf, hgrows.1.trans h.unrotated, hgrows.replay.1.trans h.users,
        fun kind hkind key => hgrows.replay.2 ▸ h.grants kind hkind key, h.hashed, h.granted⟩
  | admin call => exact h.admin hguard

/-! ### Restarts -/

/-- What an engine keeps through shutdowns and opens: the log rebuilds the users and grants of the origin
as long as they are not rotated away. -/
structure Upkept (origin db : Database) (rotations : Nat) : Prop where
  wellFormed : db.engine.WellFormed
  unrotated : rotations = 0 → ∀ record ∈ db.engine.walOld, WalRecord.IsTable record
  rotated : 1 ≤ rotations → ∀ record ∈ db.engine.wal, WalRecord.IsTable record
  lost : 2 ≤ rotations → ∀ record ∈ db.engine.walOld, WalRecord.IsTable record
  logged : rotations ≤ 1 →
    replayUsersFromWal db.log = origin.users ∧ SameGrants (replayPermissionsFromWal db.log) origin.permissions

/-- The stores in memory are those of the origin. -/
def Kept (origin db : Database) : Prop := db.users = origin.users ∧ SameGrants db.permissions origin.permissions

/-- Nothing is left of users and grants. -/
def Lost (db : Database) : Prop := db.users = .new ∧ db.permissions = .new

variable {origin db : Database} {rotations : Nat} {startup : Startup} {ops : List Upkeep}

theorem Upkept.shutdown (h : Upkept origin db rotations) : Upkept origin db.shutdown (rotations + 1) := by
  have hcheckpoint : ∀ record ∈ [DatabaseEngine.checkpointRecord db.engine.tables], WalRecord.IsTable record :=
    fun record hrecord => List.mem_singleton.mp hrecord ▸ trivial
  refine ⟨h.wellFormed.shutdown, fun hzero => absurd hzero (Nat.succ_ne_zero _), fun _ => List.forall_mem_nil _, ?_, ?_⟩
  · intro htwo record hrecord
    exact (List.mem_append.mp hrecord).elim (h.rotated (by omega) record) (hcheckpoint record)
  · intro hone
    have hzero : rotations = 0 := by omega
    obtain ⟨husers, hgrants⟩ := h.logged (by omega)
    have hbefore := h.unrotated hzero
    have hlog : db.shutdown.log = [] ++ (db.engine.wal ++ [DatabaseEngine.checkpointRecord db.engine.tables]) := by
      exact List.append_nil _
    obtain ⟨hsameUsers, hsameGrants⟩ :=
      @replay_between _ [] db.engine.wal _ (List.forall_mem_nil _) hcheckpoint
    obtain ⟨holdUsers, holdGrants⟩ := @replay_between _ _ db.engine.wal [] hbefore (List.forall_mem_nil _)
    rw [List.append_nil] at holdUsers holdGrants
    rw [hlog, hsameUsers, hsameGrants, ← holdUsers, ← holdGrants]
    exact ⟨husers, hgrants⟩

/-- An open succeeds, and its stores are the replayed ones unless there is a default user to add. -/
theorem Upkept.reopened (h : Upkept origin db rotations) (argon2 : Argon2)
    (hquiet : startup.helionPassword = none ∨ replayUsersFromWal db.log ≠ .new) :
    ∃ engine : DatabaseEngine, engine.WellFormed ∧ engine.walOld = db.engine.walOld ∧
      engine.wal = db.engine.wal ∧
      upkeepStep argon2 db (.reopen startup) =
        { engine, users := replayUsersFromWal db.log, permissions := replayPermissionsFromWal db.log } := by
  obtain ⟨engine, hopen, -, hwalOld, hwal, -, hwf⟩ := h.wellFormed.reopen startup.defaultEngine startup.loaded
  refine ⟨engine, hwf, hwalOld, hwal, ?_⟩
  have hboot : bootstrapDefaultUser argon2 startup
      { engine, users := replayUsersFromWal db.log, permissions := replayPermissionsFromWal db.log } =
      .ok { engine, users := replayUsersFromWal db.log, permissions := replayPermissionsFromWal db.log } := by
    unfold bootstrapDefaultUser
    split
    · rfl
    · rename_i hcount
      rcases hquiet with hnone | husers
      · rw [hnone]
      · exact absurd (UserStore.ext (List.length_eq_zero_iff.mp (not_not.mp hcount))) husers
  dsimp only [upkeepStep, openDirectory]
  rw [hopen]
  dsimp only
  rw [show replayUsersFromWal (db.engine.walOld ++ db.engine.wal) = replayUsersFromWal db.log from rfl,
    show replayPermissionsFromWal (db.engine.walOld ++ db.engine.wal) = replayPermissionsFromWal db.log from rfl, hboot]

theorem Upkept.of_engine (h : Upkept origin db rotations) {engine : DatabaseEngine} (hwf : engine.WellFormed)
    (hwalOld : engine.walOld = db.engine.walOld) (hwal : engine.wal = db.engine.wal) (users : UserStore)
    (permissions : PermissionStore) : Upkept origin { engine, users, permissions } rotations := by
  have hlog : log { engine, users, permissions } = db.log := congrArg₂ (· ++ ·) hwalOld hwal
  refine ⟨hwf, fun hzero => hwalOld ▸ h.unrotated hzero, fun hone => hwal ▸ h.rotated hone,
    fun htwo => hwalOld ▸ h.lost htwo, fun hone => ?_⟩
  rw [hlog]
  exact h.logged hone

/-- Behind the second rotation the log has no user and no grant. -/
theorem Upkept.replay_lost (h : Upkept origin db rotations) (htwo : 2 ≤ rotations) :
    replayUsersFromWal db.log = .new ∧ replayPermissionsFromWal db.log = .new := by
  have hlog : db.log = db.engine.walOld ++ ([] ++ db.engine.wal) := rfl
  rw [hlog]
  exact replay_between (h.lost htwo) (h.rotated (by omega))

/-- Opens in time keep users and grants. -/
theorem Upkept.kept (h : Upkept origin db rotations) (hkept : Kept origin db) (hintime : OpensInTime rotations ops)
    (hquiet : WithoutDefaultUser ops ∨ origin.users ≠ .new) :
    Kept origin (ops.foldl (upkeepStep argon2) db) := by
  induction ops generalizing db rotations with
  | nil => exact hkept
  | cons op rest ih =>
      have hrest : WithoutDefaultUser rest ∨ origin.users ≠ .new :=
        hquiet.imp_left fun hnone startup hmem => hnone startup (List.mem_cons_of_mem _ hmem)
      cases op with
      | shutdown => exact ih h.shutdown hkept hintime hrest
      | reopen startup =>
          obtain ⟨husers, hgrants⟩ := h.logged hintime.1
          have hstart : startup.helionPassword = none ∨ replayUsersFromWal db.log ≠ .new :=
            hquiet.imp (fun hnone => hnone startup List.mem_cons_self) fun hsome => husers ▸ hsome
          obtain ⟨engine, hwf, hwalOld, hwal, hstep⟩ := h.reopened argon2 hstart
          rw [List.foldl_cons, hstep]
          exact ih (h.of_engine hwf hwalOld hwal _ _) ⟨husers, hgrants⟩ hintime.2 hrest

/-- What is lost stays lost. -/
theorem Upkept.stays_lost (h : Upkept origin db rotations) (htwo : 2 ≤ rotations) (hlost : Lost db)
    (hquiet : WithoutDefaultUser ops) : Lost (ops.foldl (upkeepStep argon2) db) := by
  induction ops generalizing db rotations with
  | nil => exact hlost
  | cons op rest ih =>
      have hrest : WithoutDefaultUser rest := fun startup hmem => hquiet startup (List.mem_cons_of_mem _ hmem)
      cases op with
      | shutdown => exact ih h.shutdown (by omega) hlost hrest
      | reopen startup =>
          obtain ⟨engine, hwf, hwalOld, hwal, hstep⟩ :=
            h.reopened argon2 (.inl (hquiet startup List.mem_cons_self))
          rw [List.foldl_cons, hstep]
          exact ih (h.of_engine hwf hwalOld hwal _ _) htwo (h.replay_lost htwo) hrest

/-- An open behind a second rotation loses them. -/
theorem Upkept.loses (h : Upkept origin db rotations) (hlate : ¬ OpensInTime rotations ops)
    (hquiet : WithoutDefaultUser ops) : Lost (ops.foldl (upkeepStep argon2) db) := by
  induction ops generalizing db rotations with
  | nil => exact absurd trivial hlate
  | cons op rest ih =>
      have hrest : WithoutDefaultUser rest := fun startup hmem => hquiet startup (List.mem_cons_of_mem _ hmem)
      cases op with
      | shutdown => exact ih h.shutdown hlate hrest
      | reopen startup =>
          obtain ⟨engine, hwf, hwalOld, hwal, hstep⟩ :=
            h.reopened argon2 (.inl (hquiet startup List.mem_cons_self))
          rw [List.foldl_cons, hstep]
          have hnext := h.of_engine hwf hwalOld hwal (replayUsersFromWal db.log) (replayPermissionsFromWal db.log)
          by_cases hone : rotations ≤ 1
          · exact ih hnext (fun hintime => hlate ⟨hone, hintime⟩) hrest
          · exact hnext.stays_lost (by omega) (h.replay_lost (by omega)) hrest

/-- Before the first shutdown the log has no rotated part. -/
theorem Built.upkept (h : Built argon2 db) : Upkept db db 0 where
  wellFormed := h.wellFormed
  unrotated _ := h.unrotated ▸ List.forall_mem_nil _
  rotated hone := absurd hone (by omega)
  lost htwo := absurd htwo (by omega)
  logged _ := ⟨h.users, h.grants⟩

theorem Kept.sameAccess (h : Kept origin db) : SameAccess argon2 origin db := by
  refine ⟨fun username password => ?_, fun username table columns => ?_⟩
  · rw [verifyUser, verifyUser, h.1]
  · exact ⟨can_congr h.2 (.inl rfl) username table columns, can_congr h.2 (.inr (.inl rfl)) username table columns⟩

/-- A user that was there cannot authenticate any more. -/
theorem Lost.not_sameAccess (haccepts : argon2.Accepts) (hbuilt : Built argon2 origin) (husers : origin.users ≠ .new)
    (h : Lost db) : ¬ SameAccess argon2 origin db := by
  intro hsame
  obtain ⟨user, huser⟩ := List.exists_mem_of_ne_nil origin.users.users fun hnil => husers (UserStore.ext hnil)
  obtain ⟨password, salt, hhash⟩ := hbuilt.hashed user huser
  have hfound : origin.users.getUser user.username = some user := UserStore.getUser_eq_some.mpr ⟨huser, rfl⟩
  have hbefore : origin.verifyUser argon2 user.username password = true := by
    rw [verifyUser, UserStore.verifyLogin, hfound]
    exact haccepts password salt user.passwordHash hhash
  have hafter := hsame.1 user.username password
  rw [hbefore, verifyUser, h.1] at hafter
  cases hafter

/-- Users and grants survive shutdowns and opens when every open finds at most one rotation behind it,
and where no open adds a default user, only then. -/
theorem access_survives_iff {start : Database} (hstart : Opened argon2 startup start)
    (hquiet : startup.helionPassword = none) (hbuilt : Reaches (historyStep argon2) CreatesOnly start db)
    (haccepts : argon2.Accepts) (ops : List Upkeep) :
    (db.users ≠ .new → OpensInTime 0 ops → SameAccess argon2 db (ops.foldl (upkeepStep argon2) db)) ∧
      (WithoutDefaultUser ops →
        (SameAccess argon2 db (ops.foldl (upkeepStep argon2) db) ↔ db.users = .new ∨ OpensInTime 0 ops)) := by
  have hdb : Built argon2 db :=
    hbuilt.invariant (fun _ _ hstate hguard => hstate.step hguard) (Built.opened hstart hquiet)
  have hkept : Kept db db := ⟨rfl, fun _ _ _ => rfl⟩
  refine ⟨fun husers hintime => (hdb.upkept.kept hkept hintime (.inr husers)).sameAccess, fun hnodefault => ?_⟩
  constructor
  · intro hsame
    by_contra hneither
    obtain ⟨husers, hlate⟩ := not_or.mp hneither
    exact (hdb.upkept.loses hlate hnodefault).not_sameAccess haccepts hdb husers hsame
  · intro hcond
    by_cases hintime : OpensInTime 0 ops
    · exact (hdb.upkept.kept hkept hintime (.inl hnodefault)).sameAccess
    · have husers := hcond.resolve_right hintime
      have hlost : Lost (ops.foldl (upkeepStep argon2) db) := hdb.upkept.loses hintime hnodefault
      obtain ⟨hlostUsers, hlostGrants⟩ := hlost
      refine Kept.sameAccess ⟨hlostUsers.trans husers.symm, fun kind hkind key => ?_⟩
      rw [hlostGrants]
      exact (hdb.granted husers kind hkind key).symm

end

/-- Shutdowns each followed by an open. -/
def cycles (startups : List Startup) : List Upkeep :=
  startups.flatMap fun startup => [.shutdown, .reopen startup]

/-- Every open of a list of cycles is in time exactly when there is at most one. -/
theorem opensInTime_cycles_iff (startups : List Startup) : OpensInTime 0 (cycles startups) ↔ startups.length ≤ 1 := by
  match startups with
  | [] => exact iff_of_true trivial (Nat.zero_le _)
  | [startup] => exact iff_of_true ⟨le_rfl, trivial⟩ le_rfl
  | first :: second :: rest => exact iff_of_false (fun h => absurd h.2.1 (by omega)) (by simp)

section

open scoped AsciiCase

/-- A user with a grant on a table. -/
def settled : List HistoryOp := granting.map .admin

theorem access_survives_settled :
    SameAccess .plain (settled.foldl (historyStep .plain) empty)
      ((cycles [.quiet]).foldl (upkeepStep .plain) (settled.foldl (historyStep .plain) empty)) := by
  have hmeets : Meets (historyStep .plain) CreatesOnly empty settled := ⟨rfl, trivial, trivial, trivial⟩
  have haccepts : Argon2.plain.Accepts := Argon2.plain_accepts
  refine (access_survives_iff (empty_opened .plain) rfl (.of_meets hmeets) haccepts (cycles [.quiet])).1 ?_ ?_
  · decide
  · exact (opensInTime_cycles_iff _).mpr le_rfl

/-- Before the first shutdown the user can authenticate and read the column; after one cycle it still
can, and after two cycles neither is left. -/
theorem not_access_survives_cycles :
    (settled.foldl (historyStep .plain) empty).verifyUser .plain "ann" "x" = true ∧
      ((cycles [.quiet, .quiet]).foldl (upkeepStep .plain) (settled.foldl (historyStep .plain) empty)).verifyUser
        .plain "ann" "x" = false ∧
      (settled.foldl (historyStep .plain) empty).permissions.canSelect "ann" "t" ["a"] = true ∧
      ((cycles [.quiet, .quiet]).foldl (upkeepStep .plain)
        (settled.foldl (historyStep .plain) empty)).permissions.canSelect "ann" "t" ["a"] = false := by
  decide

end

end Database

end HelionDb
