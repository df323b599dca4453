import HelionDb.InsertPlans
import HelionDb.Revocations
import HelionDb.ExecuteAs
import HelionDb.UserRecovery

/-! The grants that an INSERT is checked against. The planned rows no longer say which columns the statement named, and
the check asks for columns without names, so what decides is not whether the columns are granted. -/

namespace HelionDb

/-- The error that refuses a statement to a user. -/
def HelionError.isDenied : HelionError → Bool
  | .permissionDenied _ => true
  | _ => false

/-- The columns that an INSERT assigns: the ones it names, or else all. -/
def assignedColumns (table : Table) (columns : List String) : List String :=
  if columns.isEmpty then table.columns.map (·.name) else columns

/-- The INSERTs that are permitted as their columns are. With values to insert, and with no granted column that has no
name, the columns must be out of reach; otherwise they must be granted. -/
def InsertDecided (granted : List String) (table : Table) (columns : List String) (values : List (List Datum)) : Prop :=
  granted = [] ∨
    Permission.covers granted (assignedColumns table columns) = decide (values = [] ∨ table.columns = [] ∨ "" ∈ granted)

section

variable {err : HelionError}

theorem Index.checkUnique_error {isInsert : Bool} {rowIdx : Nat} {row : Row} {index : Index}
    (h : index.checkUnique isInsert rowIdx row = .error err) : err.isDenied = false := by
  unfold checkUnique at h
  split at h
  · cases h
  · split at h
    · cases h
    · split at h
      · split at h
        · cases h
        · split at h <;> cases h
          rfl
      · cases h

theorem Index.applyChange_error {operation : WriteOp} {oldRow : Option Row} {rowIdx : Nat} {index : Index}
    (h : (index.applyChange operation oldRow rowIdx).1 = .error err) : err.isDenied = false := by
  have hrenamed {message : String} {outcome : Loop.Outcome HelionError Index}
      (h : (Loop.mapError (.internalFrom message) outcome).1 = .error err) : err.isDenied = false := by
    rw [Loop.mapError] at h
    cases hfirst : outcome.1 <;> rw [hfirst] at h <;> cases h
    rfl
  cases operation with
  | insert row => exact hrenamed h
  | update newRow =>
      cases oldRow with
      | none =>
          cases h
          rfl
      | some old => exact hrenamed h
  | delete => cases oldRow <;> cases h

theorem checkUniqueWrites_error {tx : Transaction} {snapshot : String → Option Table}
    (h : checkUniqueWrites tx snapshot = .error err) : err.isDenied = false := by
  refine Loop.checkAll_error (P := fun err => err.isDenied = false) (fun entry err hentry => ?_) h
  unfold checkUniqueEntry at hentry
  split at hentry
  · cases hentry
  · split at hentry
    · exact Loop.checkAll_error (fun _ _ => Index.checkUnique_error) hentry
    · exact Loop.checkAll_error (fun _ _ => Index.checkUnique_error) hentry
    · cases hentry

theorem applyToEngines_error {order : HashOrder} {tx : Transaction} {snapshot : String → Option Table} {catalog : Catalog}
    (h : (applyToEngines order tx snapshot catalog).1 = .error err) : err.isDenied = false := by
  refine Loop.runAll_error (P := fun err => err.isDenied = false) (fun name catalog err hname => ?_) h
  unfold applyToEngine at hname
  split at hname
  · rename_i hroute
    cases hname
    unfold Catalog.routeOf Catalog.getEngine at hroute
    split at hroute <;> cases hroute
    rfl
  · unfold Catalog.applyChanges at hname
    split at hname <;> cases hname
    rfl

theorem installWrites_error {order : HashOrder} {tx : Transaction} {snapshot : String → Option Table} {tables : List Table}
    (h : (installWrites order tx snapshot tables).1 = .error err) : err.isDenied = false := by
  refine Loop.runAll_error (P := fun err => err.isDenied = false) (fun name tables err hname => ?_) h
  unfold installTable at hname
  split at hname
  · cases hname
  · split at hname
    · cases hname
    · refine Loop.runAll_error (P := fun err => err.isDenied = false) (fun entry table err hentry => ?_) hname
      exact Loop.updateEach_error (fun _ _ => Index.applyChange_error) hentry

/-- No write is refused by the engine itself. -/
theorem DatabaseEngine.withWriteTxn_error {engine : DatabaseEngine} {orders : CommitOrders} {entries : List WriteEntry}
    (h : (engine.withWriteTxn orders fun _ _ => .ok entries).1 = .error err) : err.isDenied = false := by
  unfold withWriteTxn commit commitChecked at h
  dsimp only at h
  split at h
  · cases h
    rfl
  · split at h
    · cases h
      rfl
    · split at h
      · rename_i hunique
        cases h
        exact checkUniqueWrites_error hunique
      · split at h
        · rename_i hstored
          cases h
          exact applyToEngines_error hstored
        · split at h
          · rename_i hinstalled
            cases h
            exact installWrites_error hinstalled
          · cases h

theorem DatabaseEngine.execute_insert_error {engine : DatabaseEngine} {orders : CommitOrders} {tableName : String}
    {rows : List Row} (h : (engine.execute orders (.insert tableName rows)).1 = .error err) : err.isDenied = false := by
  rw [execute] at h
  split at h
  · cases h
    rfl
  · rw [affecting] at h
    cases hrun : (engine.withWriteTxn orders fun _ _ => .ok (insertEntries tableName _ rows)).1 with
    | ok _ =>
        rw [hrun] at h
        cases h
    | error other =>
        rw [hrun] at h
        cases h
        exact withWriteTxn_error hrun

end

/-! ### Permitted statements -/

namespace Database

section

variable [CaseMapping] [Rendering] [SqlText] {argon2 : Argon2} {choices : Choices} {depth : Nat} {db : Database}
  {user tableName : String} {granted columns : List String} {values : List (List Datum)} {planned : Plan}

/-- The user is not refused the statement. -/
def permits (argon2 : Argon2) (choices : Choices) (depth : Nat) (db : Database) (user : String) (planned : Plan) : Bool :=
  match (db.executeAs argon2 choices (some user) depth planned).1 with
  | .ok _ => true
  | .error err => !err.isDenied

/-- An INSERT of rows is permitted exactly if the check passes for as many columns without names as the first row is
wide. -/
theorem permits_insert (rows : List Row) :
    db.permits argon2 choices depth user (.insert tableName rows) =
      db.permissions.canInsert user tableName (((rows.head?.map fun row => row.values).getD []).map fun _ => "") := by
  rw [permits, executeAs, checked, checkInsert, checkAccess, PermissionStore.canInsert]
  cases db.permissions.can user tableName .insert (((rows.head?.map fun row => row.values).getD []).map fun _ => "") with
  | false => rfl
  | true =>
      rw [if_pos rfl]
      dsimp only
      rw [afterEngine]
      cases hrun : (db.engine.execute choices.orders (.insert tableName rows)).1 with
      | ok count => rfl
      | error err =>
          show (!err.isDenied) = true
          rw [DatabaseEngine.execute_insert_error hrun]
          rfl

omit [Rendering] [SqlText] in
/-- A lone grant of columns covers columns without names where there are none, or where it lists one. -/
theorem canInsert_blank {given : List Datum} (hgrants : db.permissions.held user tableName = [.insert granted]) :
    db.permissions.canInsert user tableName (given.map fun _ => "") =
      decide (granted = [] ∨ given = [] ∨ "" ∈ granted) := by
  rw [PermissionStore.canInsert, PermissionStore.can, hgrants, List.any_cons, List.any_nil, Bool.or_false]
  show Permission.covers granted (given.map fun _ => "") = _
  rw [Bool.eq_iff_iff, Permission.covers, Bool.or_eq_true, List.isEmpty_iff, List.all_map, decide_eq_true_iff]
  refine or_congr_right ?_
  have hblank : (granted.any fun candidate => eqIgnoreAsciiCase candidate "") = true ↔ "" ∈ granted := by
    rw [List.any_eq_true]
    constructor
    · rintro ⟨candidate, hcandidate, hsame⟩
      obtain rfl : candidate = "" := by
        have hlower := eqIgnoreAsciiCase_iff.mp hsame
        exact String.toList_injective (List.map_eq_nil_iff.mp hlower)
      exact hcandidate
    · exact fun hmem => ⟨"", hmem, eqIgnoreAsciiCase_refl ""⟩
  cases given with
  | nil => exact iff_of_true rfl (.inl rfl)
  | cons first rest =>
      rw [List.all_eq_true]
      constructor
      · exact fun h => .inr (hblank.mp (h first List.mem_cons_self))
      · rintro (h | h)
        · cases h
        · exact fun _ _ => hblank.mpr h

/-- What a planned INSERT asks of a user whose only grant is one of columns. -/
theorem permits_planned_insert {table : Table} (hgrants : db.permissions.held user tableName = [.insert granted])
    (htable : findTable tableName db.engine.tables = some table)
    (hplan : plan db.engine.tables (.insert tableName columns values) = .ok planned) :
    db.permits argon2 choices depth user planned =
      decide (granted = [] ∨ values = [] ∨ table.columns = [] ∨ "" ∈ granted) := by
  obtain ⟨rows, hrows, hplanned⟩ := Loop.bind_ok_iff.mp hplan
  obtain rfl := Except.ok.inj hplanned
  obtain ⟨other, targets, hother, htargets, hpaired⟩ := planInsert_ok_iff.mp hrows
  obtain rfl := Option.some.inj (htable.symm.trans hother)
  rw [permits_insert, canInsert_blank hgrants, decide_eq_decide]
  refine or_congr_right ?_
  cases hpaired with
  | nil => exact iff_of_true (.inl rfl) (.inl rfl)
  | cons hfirst _ =>
      rename_i row _ _ _
      have hwidth := (planInsertRow_values hfirst).1
      have hempty : row.values = [] ↔ table.columns = [] := by
        rw [← List.length_eq_zero_iff, ← List.length_eq_zero_iff, hwidth]
      simp [hempty]

/-- The law of column grants holds of an INSERT exactly if the statement is decided by them. -/
theorem permits_insert_iff {table : Table} (hgrants : db.permissions.held user tableName = [.insert granted])
    (htable : findTable tableName db.engine.tables = some table)
    (hplan : plan db.engine.tables (.insert tableName columns values) = .ok planned) :
    (db.permits argon2 choices depth user planned = true ↔
        Permission.covers granted (assignedColumns table columns) = true) ↔
      InsertDecided granted table columns values := by
  rw [permits_planned_insert hgrants htable hplan, InsertDecided, decide_eq_true_iff]
  rw [@Bool.eq_iff_iff (Permission.covers _ _) (decide (values = [] ∨ _)), decide_eq_true_iff]
  by_cases hall : granted = []
  · rw [hall]
    exact iff_of_true (iff_of_true (.inl rfl) rfl) (.inl rfl)
  · rw [or_iff_right hall, or_iff_right hall]
    exact ⟨Iff.symm, Iff.symm⟩

end

section Samples

open scoped AsciiCase PlainText

/-- A table of two columns and a user who may insert into some of them. -/
def insertCalls (granted : List String) : List AdminCall :=
  [.createTable "item" [.new "id" .integer, .new "name" .text] none, .createUser "ann" "x" "s",
    .grantPermission "ann" "item" (.insert granted)]

/-- The database after the calls. -/
def insertable (granted : List String) : Database := (insertCalls granted).foldl (adminStep .plain) empty

/-- The granted column does not cover `INSERT INTO item (id, name) VALUES (1, 'a')`, which is refused. -/
theorem permits_insert_outside :
    (permits .plain .asGiven 0 (insertable ["id"]) "ann" (.insert "item" [⟨[.integer 1, .text "a"]⟩]) = true ↔
        Permission.covers ["id"] ["id", "name"] = true) ↔
      InsertDecided ["id"] (Table.new "item" [.new "id" .integer, .new "name" .text]) ["id", "name"]
        [[.bigInt 1, .text "a"]] :=
  @permits_insert_iff _ _ _ .plain .asGiven 0 (insertable ["id"]) "ann" "item" ["id"] ["id", "name"]
    [[.bigInt 1, .text "a"]] (.insert "item" [⟨[.integer 1, .text "a"]⟩]) _ rfl rfl rfl

/-- A grant on both columns permits neither `INSERT INTO item (id, name) VALUES (1, 'a')` nor the same without the
columns, nor does one on the only column that is named; an INSERT without rows is permitted to all columns. -/
theorem not_permits_insert :
    (∀ columns ∈ [["id", "name"], []], ∃ planned,
        plan (insertable ["id", "name"]).engine.tables (.insert "item" columns [[.bigInt 1, .text "a"]]) = .ok planned ∧
          Permission.covers ["id", "name"] ["id", "name"] = true ∧
          permits .plain .asGiven 0 (insertable ["id", "name"]) "ann" planned = false) ∧
      (∃ planned, plan (insertable ["id"]).engine.tables (.insert "item" ["id"] [[.bigInt 1]]) = .ok planned ∧
          Permission.covers ["id"] ["id"] = true ∧
          permits .plain .asGiven 0 (insertable ["id"]) "ann" planned = false) ∧
      ∃ planned, plan (insertable ["id"]).engine.tables (.insert "item" ["id", "name"] []) = .ok planned ∧
          Permission.covers ["id"] ["id", "name"] = false ∧
          permits .plain .asGiven 0 (insertable ["id"]) "ann" planned = true := by
  refine ⟨fun columns hcolumns => ?_, ⟨_, rfl, by decide, by decide⟩, _, rfl, by decide, by decide⟩
  rcases List.mem_cons.mp hcolumns with rfl | hcolumns
  · exact ⟨_, rfl, by decide, by decide⟩
  · obtain rfl := List.mem_singleton.mp hcolumns
    exact ⟨_, rfl, by decide, by decide⟩

end Samples

end Database

end HelionDb
