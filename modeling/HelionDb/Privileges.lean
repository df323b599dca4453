import HelionDb.ExecuteAs
import HelionDb.Restarts

/-! What a user can do to its own authority by statements. Grants, the management of users and the dropping
of tables go to the engine without a look at who asks, so a run leaves the authority of a user as it was
exactly when each of its statements does. -/

namespace HelionDb

/-- A planned statement with what it draws and the depth its EXPLAIN may reach. -/
structure Statement where
  plan : Plan
  depth : Nat
  choices : Choices

/-- What happens to an engine: statements of users, calls of its own operations, restarts. -/
inductive EngineEvent where
  | statement (currentUser : Option String) (statement : Statement)
  | history (op : HistoryOp)
  | upkeep (op : Upkeep)

namespace Database

section

variable [CaseMapping] [Rendering] [SqlText] {argon2 : Argon2} {start db : Database} {username table : String}

/-- The engine behind a statement, whether it returned Ok or not. -/
def runAs (argon2 : Argon2) (currentUser : Option String) (db : Database) (statement : Statement) : Database :=
  (executeAs argon2 statement.choices currentUser statement.depth db statement.plan).2

def eventStep (argon2 : Argon2) (db : Database) : EngineEvent → Database
  | .statement currentUser statement => db.runAs argon2 currentUser statement
  | .history op => db.historyStep argon2 op
  | .upkeep op => db.upkeepStep argon2 op

/-- An engine that events lead to from an empty directory. -/
def Reachable (argon2 : Argon2) (db : Database) : Prop :=
  ∃ startup start, Opened argon2 startup start ∧ Reaches (eventStep argon2) (fun _ _ => True) start db

theorem wellFormed_runAs (h : db.engine.WellFormed) (currentUser : Option String) (statement : Statement) :
    (db.runAs argon2 currentUser statement).engine.WellFormed := by
  have heffect := @executeAs_effect _ _ _ argon2 statement.choices currentUser db statement.depth statement.plan
  unfold MakesCall at heffect
  unfold runAs
  split at heffect
  · rw [heffect]
    exact wellFormed_adminStep argon2 h _
  · obtain ⟨engine, hreworked, hnext⟩ := heffect
    rw [hnext]
    exact (h.reworked hreworked).1

theorem Reachable.wellFormed (h : Reachable argon2 db) : db.engine.WellFormed := by
  obtain ⟨startup, start, hopened, hrun⟩ := h
  have hstart : start.engine.WellFormed := (wellFormed_opened hopened).1
  refine hrun.invariant (P := fun state => state.engine.WellFormed) (fun state event hstate _ => ?_) hstart
  cases event with
  | statement currentUser statement => exact wellFormed_runAs hstate currentUser statement
  | history op =>
      cases op with
      | admin call => exact wellFormed_adminStep argon2 hstate call
      | storage call => exact hstate.transition (DatabaseEngine.serialStep_transition state.engine call)
  | upkeep op =>
      cases op with
      | shutdown => exact hstate.shutdown
      | reopen startup =>
          change (upkeepStep argon2 state (.reopen startup)).engine.WellFormed
          simp only [upkeepStep]
          split
          · rename_i hopen
            exact (wellFormed_openDirectory hstate hopen).1
          · exact hstate

/-! ### Authority -/

/-- The user has not gained a table, the other users are as they were, and the table is still there. -/
structure Contained (username table : String) (start db : Database) : Prop where
  select : ∀ columns, db.permissions.canSelect username table columns = false
  insert : ∀ columns, db.permissions.canInsert username table columns = false
  others : ∀ other, lowerName other ≠ lowerName username → db.users.getUser other = start.users.getUser other
  table : db.tableExists table = true

/-- The call returns Ok. -/
def Admissible (argon2 : Argon2) (db : Database) : AdminCall → Prop
  | .createTable name columns engineName => (db.engine.createTable name columns engineName).1 = .ok ()
  | .dropTable name => name ∈ db.engine.tables.map Table.name
  | .createUser username password salt =>
      db.users.userExists username = false ∧ ∃ hash, argon2.hashPassword password salt = .ok hash
  | .dropUser username => db.users.userExists username = true
  | .alterUserPassword username newPassword salt =>
      db.users.userExists username = true ∧ ∃ hash, argon2.hashPassword newPassword salt = .ok hash
  | .grantPermission username table _ => db.users.userExists username = true ∧ db.tableExists table = true
  | .revokePermission _ _ _ => True

/-- A call that is refused, or one that gives the user no access to the table, touches no other user and
does not drop the table. -/
def HarmlessCall (argon2 : Argon2) (username table : String) (db : Database) (call : AdminCall) : Prop :=
  Admissible argon2 db call →
    match call with
    | .createTable name _ _ => db.users.userExists "helion" = true →
        PermissionStore.keyOf username table ≠ PermissionStore.keyOf "helion" name
    | .dropTable name => lowerName table ≠ lowerName name
    | .createUser other _ _ | .dropUser other => lowerName other = lowerName username
    | .alterUserPassword other _ _ => lowerName other ≠ lowerName username → db.KeepsHash argon2 call
    | .grantPermission other name permission =>
        PermissionStore.keyOf username table = PermissionStore.keyOf other name → ¬ permission.kind.IsAccess
    | .revokePermission _ _ _ => True

/-- The administrative call a statement comes to, if there is one, is harmless. -/
def Harmless (argon2 : Argon2) (username table : String) (db : Database) (statement : Statement) : Prop :=
  ∀ call, callOf statement.choices.salt statement.depth db statement.plan = some call →
    HarmlessCall argon2 username table db call

/-- No permission of the kinds that allow to read or to insert. -/
def NoAccess (permissions : PermissionStore) (key : String × String) : Prop :=
  ∀ kind : Permission.Kind, kind.IsAccess → permissions.ofKind kind key = []

omit [Rendering] [SqlText] in
/-- A permission of a kind allows the kind on no columns, so only the lack of all of them refuses it. -/
theorem can_eq_false_iff {permissions : PermissionStore} {kind : Permission.Kind} (hkind : kind = .select ∨ kind = .insert) :
    (∀ columns, permissions.can username table kind columns = false) ↔
      permissions.ofKind kind (PermissionStore.keyOf username table) = [] ∧
        permissions.ofKind .all (PermissionStore.keyOf username table) = [] := by
  constructor
  · intro h
    have hnone := h []
    rw [PermissionStore.can_eq, Bool.or_eq_false_iff, List.any_eq_false, List.any_eq_false] at hnone
    refine ⟨List.eq_nil_iff_forall_not_mem.mpr fun permission hmem => hnone.1 permission hmem ?_,
      List.eq_nil_iff_forall_not_mem.mpr fun permission hmem => hnone.2 permission hmem ?_⟩
    · exact Permission.allows_nil hkind (.inl (by simpa using (List.mem_filter.mp hmem).2))
    · exact Permission.allows_nil hkind (.inr (by simpa using (List.mem_filter.mp hmem).2))
  · rintro ⟨hnone, hall⟩ columns
    exact PermissionStore.can_eq_false hnone hall columns

omit [Rendering] [SqlText] in
theorem contained_iff : Contained username table start db ↔
    NoAccess db.permissions (PermissionStore.keyOf username table) ∧
      (∀ other, lowerName other ≠ lowerName username → db.users.getUser other = start.users.getUser other) ∧
      db.tableExists table = true := by
  constructor
  · rintro ⟨hselect, hinsert, hothers, htable⟩
    obtain ⟨hnoSelect, hnoAll⟩ := (can_eq_false_iff (.inl rfl)).mp hselect
    obtain ⟨hnoInsert, -⟩ := (can_eq_false_iff (.inr rfl)).mp hinsert
    exact ⟨by rintro kind (rfl | rfl | rfl) <;> assumption, hothers, htable⟩
  · rintro ⟨hnone, hothers, htable⟩
    exact ⟨(can_eq_false_iff (.inl rfl)).mpr ⟨hnone _ (.inl rfl), hnone _ (.inr (.inr rfl))⟩,
      (can_eq_false_iff (.inr rfl)).mpr ⟨hnone _ (.inr (.inl rfl)), hnone _ (.inr (.inr rfl))⟩, hothers, htable⟩

/-! ### One statement -/

omit [Rendering] [SqlText] in
/-- A call that fails is not admissible, in a well-formed engine. -/
theorem not_admissible_of_failed (hwf : db.engine.WellFormed) {call : AdminCall} {err : HelionError}
    (h : (db.call argon2 call).1 = .error err) : ¬ Admissible argon2 db call := by
  intro hok
  cases call with
  | createTable name columns engineName =>
      have hok : (db.engine.createTable name columns engineName).1 = .ok () := hok
      simp only [Database.call, createTable, hok] at h
      cases h
  | dropTable name =>
      obtain ⟨table, htable, hname⟩ := List.mem_map.mp hok
      have hexists : (db.engine.tables.any fun table => eqIgnoreAsciiCase table.name name) = true :=
        List.any_eq_true.mpr ⟨table, htable, hname ▸ eqIgnoreAsciiCase_refl _⟩
      obtain ⟨engineName, hengine⟩ := Option.isSome_iff_exists.mp ((hwf.registered name).mpr hok)
      obtain ⟨kind, rfl, -⟩ := hwf.held name engineName hengine
      have hkind := Catalog.getTableEngine_of_metadata hengine
      simp only [Database.call, dropTable, DatabaseEngine.dropTable, hexists, if_true, Catalog.dropTable, hkind] at h
      cases h
  | createUser username password salt =>
      obtain ⟨hfresh, hash, hhash⟩ := hok
      obtain ⟨users, hcreated⟩ := UserStore.exists_createUser hfresh hhash
      obtain ⟨-, hash, -, hadded⟩ := UserStore.createUser_eq_ok.mp hcreated
      have hfound : users.getUser username = some { username, passwordHash := hash } :=
        UserStore.getUser_eq_some.mpr ⟨hadded ▸ List.mem_concat_self, rfl⟩
      simp only [Database.call, createUser, hcreated, hfound] at h
      cases h
  | dropUser username =>
      obtain ⟨users, hdropped⟩ := UserStore.exists_dropUser hok
      simp only [Database.call, dropUser, hdropped] at h
      cases h
  | alterUserPassword username newPassword salt =>
      obtain ⟨hexists, hash, hhash⟩ := hok
      have haltered := UserStore.updatePassword_eq_ok.mpr ⟨hexists, hash, hhash, rfl⟩
      rw [← UserStore.userExists_setHash db.users username hash, UserStore.userExists_eq] at hexists
      obtain ⟨user, hfound⟩ := Option.isSome_iff_exists.mp hexists
      simp only [Database.call, alterUserPassword, haltered, hfound] at h
      cases h
  | grantPermission username table permission =>
      obtain ⟨huser, htable⟩ := hok
      simp [Database.call, grantPermission, huser, htable] at h
  | revokePermission username table permission => cases h

omit [Rendering] [SqlText] in
theorem noAccess_grant_iff {permissions : PermissionStore} {key : String × String} (h : NoAccess permissions key)
    (other name : String) (permission : Permission) :
    NoAccess (permissions.grant other name permission) key ↔
      (key = PermissionStore.keyOf other name → ¬ permission.kind.IsAccess) := by
  constructor
  · intro hnone hkey haccess
    have hgranted := hnone permission.kind haccess
    rw [PermissionStore.ofKind_grant, if_pos ⟨hkey, rfl⟩] at hgranted
    cases hgranted
  · intro hother kind hkind
    rw [PermissionStore.ofKind_grant, if_neg]
    · exact h kind hkind
    · rintro ⟨hkey, rfl⟩
      exact hother hkey hkind

omit [CaseMapping] [Rendering] [SqlText] in
/-- A table is still there behind the drop of a table, unless it is that one. -/
theorem tableExists_filter {engine : DatabaseEngine} {name : String} (h : db.tableExists table = true)
    (htables : engine.tables = db.engine.tables.filter fun table => !eqIgnoreAsciiCase table.name name) :
    tableExists { db with engine } table = true ↔ lowerName table ≠ lowerName name := by
  obtain ⟨found, hfound, hname⟩ := List.any_eq_true.mp h
  rw [tableExists, htables, List.any_eq_true]
  constructor
  · rintro ⟨kept, hkept, hkeptName⟩ hsame
    have hstays := (List.mem_filter.mp hkept).2
    rw [eqIgnoreAsciiCase_eq, hsame, ← eqIgnoreAsciiCase_eq] at hkeptName
    rw [hkeptName] at hstays
    cases hstays
  · intro hother
    refine ⟨found, List.mem_filter.mpr ⟨hfound, ?_⟩, hname⟩
    rw [Bool.not_eq_true', Bool.eq_false_iff]
    exact fun hdropped => hother ((eqIgnoreAsciiCase_eq.mp hname).symm.trans (eqIgnoreAsciiCase_eq.mp hdropped))

omit [CaseMapping] [Rendering] [SqlText] in
/-- A change of one account leaves all others but one exactly when it is the account of that one. -/
theorem keepsOthers_iff {users : UserStore} {other : String} {account : Option User}
    (hgetUser : ∀ name, users.getUser name = if lowerName name = lowerName other then account else db.users.getUser name)
    (hchanged : account ≠ db.users.getUser other)
    (hothers : ∀ candidate, lowerName candidate ≠ lowerName username →
      db.users.getUser candidate = start.users.getUser candidate) :
    (∀ candidate, lowerName candidate ≠ lowerName username → users.getUser candidate = start.users.getUser candidate) ↔
      lowerName other = lowerName username := by
  constructor
  · intro hsame
    by_contra hother
    have hafter := hsame other hother
    rw [hgetUser, if_pos rfl, ← hothers other hother] at hafter
    exact hchanged hafter
  · intro howner candidate hcandidate
    rw [hgetUser, if_neg fun hsame => hcandidate (hsame.trans howner)]
    exact hothers candidate hcandidate

omit [CaseMapping] [Rendering] [SqlText] in
/-- A new hash leaves all others but one exactly when it is that one's, or the hash of the account already. -/
theorem keepsOthers_setHash_iff {other hash : String}
    (hothers : ∀ candidate, lowerName candidate ≠ lowerName username →
      db.users.getUser candidate = start.users.getUser candidate) :
    (∀ candidate, lowerName candidate ≠ lowerName username →
        (db.users.setHash other hash).getUser candidate = start.users.getUser candidate) ↔
      (lowerName other ≠ lowerName username →
        ∀ found, db.users.getUser other = some found → found.passwordHash = hash) := by
  have hgetUser := UserStore.getUser_setHash db.users other hash
  constructor
  · intro hsame hother found hfound
    have hafter := hsame other hother
    rw [hgetUser, if_pos rfl, ← hothers other hother, hfound, Option.map_some, Option.some.injEq] at hafter
    exact (congrArg User.passwordHash hafter).symm
  · intro hkeeps candidate hcandidate
    rw [hgetUser]
    split
    · rename_i hsame
      have hother : lowerName other ≠ lowerName username := hsame ▸ hcandidate
      have hself := (UserStore.setHash_eq_self_iff db.users other hash).mpr fun found hfound => hkeeps hother found hfound
      have hmapped := hgetUser candidate
      rw [hself, if_pos hsame] at hmapped
      rw [← hmapped]
      exact hothers candidate hcandidate
    · exact hothers candidate hcandidate

omit [Rendering] [SqlText] in
/-- A call keeps the authority of a user where it was exactly when it is harmless. -/
theorem contained_adminStep_iff (hwf : db.engine.WellFormed) (h : Contained username table start db) (call : AdminCall) :
    Contained username table start (db.adminStep argon2 call) ↔ HarmlessCall argon2 username table db call := by
  have heffect := adminStep_effect argon2 db call
  generalize db.adminStep argon2 call = next at heffect
  obtain ⟨hnone, hothers, htable⟩ := contained_iff.mp h
  rw [contained_iff]
  cases heffect with
  | failed call err failure =>
      exact iff_of_true ⟨hnone, hothers, htable⟩ fun hok => absurd hok (not_admissible_of_failed hwf failure)
  | createTable name columns engineName engine fresh tables walOld wal created =>
      have hstays : (engine.tables.any fun candidate => eqIgnoreAsciiCase candidate.name table) = true := by
        rw [tables, List.any_append, Bool.or_eq_true]
        exact .inl htable
      dsimp only [HarmlessCall, Admissible]
      rw [imp_iff_right created]
      refine (and_iff_left ⟨hothers, hstays⟩).trans ?_
      split
      · rename_i hhelion
        rw [noAccess_grant_iff hnone, imp_iff_right hhelion]
        exact ⟨fun hharmless hkey => hharmless hkey (.inr (.inr rfl)), fun hne hkey => absurd hkey hne⟩
      · rename_i hhelion
        exact iff_of_true hnone fun hexists => absurd hexists hhelion
  | dropTable name engine existing tables walOld wal dropped =>
      have hname : name ∈ db.engine.tables.map Table.name := by
        unfold DatabaseEngine.dropTable at dropped
        split at dropped
        · split at dropped
          · cases dropped
          · rename_i hcatalog
            exact hwf.mem_names_of_dropTable hcatalog
        · cases dropped
      have hkeeps : NoAccess (db.permissions.removeTable name) (PermissionStore.keyOf username table) := by
        intro kind hkind
        rw [PermissionStore.ofKind_removeTable]
        split
        · rfl
        · exact hnone kind hkind
      refine (and_iff_right hkeeps).trans ((and_iff_right hothers).trans ?_)
      exact (tableExists_filter htable tables).trans (imp_iff_right hname).symm
  | createUser other password salt hash users fresh hashed added =>
      have hgetUser :=
        @UserStore.getUser_of_added db.users users { username := other, passwordHash := hash } fresh added
      have hchanged : some { username := other, passwordHash := hash } ≠ db.users.getUser other := by
        intro hsame
        rw [UserStore.userExists_eq, ← hsame] at fresh
        cases fresh
      dsimp only [HarmlessCall, Admissible]
      rw [imp_iff_right ⟨fresh, hash, hashed⟩]
      refine (and_iff_right hnone).trans ((and_iff_left htable).trans ?_)
      exact keepsOthers_iff hgetUser hchanged hothers
  | dropUser other users existing kept =>
      have hgetUser := UserStore.getUser_of_kept kept
      have hkeeps : NoAccess (db.permissions.removeUser other) (PermissionStore.keyOf username table) := by
        intro kind hkind
        rw [PermissionStore.ofKind_removeUser]
        split
        · rfl
        · exact hnone kind hkind
      have hchanged : none ≠ db.users.getUser other := by
        intro hsame
        rw [UserStore.userExists_eq, ← hsame] at existing
        cases existing
      dsimp only [HarmlessCall, Admissible]
      rw [imp_iff_right existing]
      refine (and_iff_right hkeeps).trans ((and_iff_left htable).trans ?_)
      exact keepsOthers_iff hgetUser hchanged hothers
  | alterUserPassword other newPassword salt hash user existing hashed =>
      have hexists : db.users.userExists other = true := by rw [UserStore.userExists_eq, existing]; rfl
      dsimp only [HarmlessCall, Admissible]
      rw [imp_iff_right ⟨hexists, hash, hashed⟩]
      refine (and_iff_right hnone).trans ((and_iff_left htable).trans ?_)
      refine (keepsOthers_setHash_iff hothers).trans ?_
      refine ⟨fun hkeeps hother found newHash hfound hnewHash => ?_, fun hkeeps hother found hfound =>
        hkeeps hother found hash hfound hashed⟩
      obtain rfl := Except.ok.inj (hashed.symm.trans hnewHash)
      exact hkeeps hother found hfound
  | grantPermission other name permission user existing =>
      dsimp only [HarmlessCall, Admissible]
      rw [imp_iff_right ⟨user, existing⟩, ← noAccess_grant_iff hnone]
      exact and_iff_left ⟨hothers, htable⟩
  | revokePermission other name permission =>
      refine iff_of_true ⟨fun kind hkind => ?_, hothers, htable⟩ fun _ => trivial
      change (db.permissions.revoke other name permission).ofKind kind _ = []
      rw [PermissionStore.ofKind_revoke, hnone kind hkind]
      split <;> rfl

/-- A statement keeps the authority of a user where it was exactly when it is harmless. -/
theorem contained_runAs_iff (hwf : db.engine.WellFormed) (h : Contained username table start db)
    (currentUser : Option String) (statement : Statement) :
    Contained username table start (db.runAs argon2 currentUser statement) ↔
      Harmless argon2 username table db statement := by
  have heffect := @executeAs_effect _ _ _ argon2 statement.choices currentUser db statement.depth statement.plan
  unfold MakesCall at heffect
  unfold runAs Harmless
  split at heffect
  · rename_i call hcall
    rw [heffect, hcall, contained_adminStep_iff hwf h call]
    exact ⟨fun hharmless _ hsame => Option.some.inj hsame ▸ hharmless, fun hall => hall call rfl⟩
  · rename_i hcall
    obtain ⟨engine, hreworked, hnext⟩ := heffect
    have hschema := (hwf.reworked hreworked).2
    rw [hnext, hcall]
    refine iff_of_true ⟨h.select, h.insert, h.others, ?_⟩ fun _ hsome => by cases hsome
    have hexists : (db.engine.tables.any fun candidate => eqIgnoreAsciiCase candidate.name table) = true := h.table
    change (engine.tables.any fun candidate => eqIgnoreAsciiCase candidate.name table) = true
    have hany (tables : List Table) : (tables.any fun candidate => eqIgnoreAsciiCase candidate.name table) =
        (tables.map Table.name).any fun name => eqIgnoreAsciiCase name table := by
      rw [List.any_map]
      rfl
    rw [hany, map_name_eq_of_schema hschema, ← hany]
    exact hexists

/-- Where a user has no permission on a table, a run of its own statements leaves it without access, the
other users as they were and the table in place, after every prefix, exactly when each statement is harmless. -/
theorem contained_runs_iff (hstart : Reachable argon2 start) (hheld : start.permissions.held username table = [])
    (hexists : start.tableExists table = true) (statements : List Statement) :
    (∀ taken, taken <+: statements →
        Contained username table start (taken.foldl (runAs argon2 (some username)) start)) ↔
      Meets (runAs argon2 (some username)) (Harmless argon2 username table) start statements := by
  have hwf := hstart.wellFormed
  have hcontained : Contained username table start start := by
    refine contained_iff.mpr ⟨fun kind _ => ?_, fun _ _ => rfl, hexists⟩
    change (start.permissions.held username table).filter _ = []
    rw [hheld, List.filter_nil]
  have hstep : ∀ (state : Database) (statement : Statement),
      state.engine.WellFormed ∧ Contained username table start state →
        ((state.runAs argon2 (some username) statement).engine.WellFormed ∧
            Contained username table start (state.runAs argon2 (some username) statement) ↔
          Harmless argon2 username table state statement) := by
    intro state statement hstate
    rw [and_iff_right (wellFormed_runAs hstate.1 (some username) statement)]
    exact contained_runAs_iff hstate.1 hstate.2 (some username) statement
  rw [Meets.iff_prefixes hstep ⟨hwf, hcontained⟩ statements]
  refine forall₂_congr fun taken _ => (and_iff_right ?_).symm
  exact (Reaches.foldl taken start).invariant (P := fun state => state.engine.WellFormed)
    (fun state statement hstate _ => wellFormed_runAs hstate (some username) statement) hwf

end

section

open scoped AsciiCase PlainText

/-- A table, and a user without permissions next to another one. -/
def strangers : List AdminCall :=
  [.createTable "t" [.new "a" .integer] none, .createUser "ann" "x" "s", .createUser "bob" "y" "s"]

/-- The engine on which they meet. -/
def estranged : Database := strangers.foldl (adminStep .plain) empty

theorem estranged_reachable : Reachable .plain estranged :=
  ⟨.quiet, empty, empty_opened .plain,
    @Reaches.foldl _ _ (eventStep .plain) (strangers.map fun call => .history (.admin call)) empty⟩

/-- Statements of the user on what is its own. -/
def ownStatements : List Statement :=
  [Plan.createTable "own" [.new "a" .integer] none, .alterUser "ann" "z", .dropTable "own" false].map
    fun plan => { plan, depth := 0, choices := .asGiven }

theorem contained_ownStatements :
    Contained "ann" "t" estranged (ownStatements.foldl (runAs .plain (some "ann")) estranged) := by
  refine (contained_runs_iff estranged_reachable rfl rfl ownStatements).mpr ?_ ownStatements (List.prefix_refl _)
  refine ⟨?_, ?_, ?_, trivial⟩
  · rintro - ⟨⟩ - ⟨⟩
  · rintro - ⟨⟩ - hother
    exact absurd rfl hother
  · rintro - ⟨⟩ -
    decide

/-- The user grants itself the table, drops the other user and then the table. -/
def hostileStatements : List Statement :=
  [Plan.grant "ann" "t" [] .all, .dropUser "bob" false, .dropTable "t" false].map
    fun plan => { plan, depth := 0, choices := .asGiven }

/-- Every one of the statements goes through. -/
theorem not_contained_hostileStatements :
    Reachable .plain estranged ∧ estranged.permissions.held "ann" "t" = [] ∧ estranged.tableExists "t" = true ∧
      ((hostileStatements.take 1).foldl (runAs .plain (some "ann")) estranged).permissions.canSelect "ann" "t" ["a"] = true ∧
      estranged.users.userExists "bob" = true ∧
      ((hostileStatements.take 2).foldl (runAs .plain (some "ann")) estranged).users.userExists "bob" = false ∧
      (hostileStatements.foldl (runAs .plain (some "ann")) estranged).tableExists "t" = false := by
  refine ⟨estranged_reachable, ?_⟩
  decide

end

end Database

end HelionDb
