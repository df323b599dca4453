import HelionDb.Query

/-! The whole of `execute_as`. Reading and changing rows is checked against the permissions of the user;
the other statements go to the engine as they are. EXPLAIN parses its text again, and with ANALYZE runs the
plan it finds there. -/

namespace HelionDb

/-- `parse`, which rests on the crate `sqlparser`, and the `{:?}` of a plan, or its `{:#?}` when verbose. The texts that make
`parse` panic, as it slices them at bytes, have an error here, since nothing of them is run; the task of their stream ends
without a reply. -/
class SqlText where
  parse : String → Except HelionError (List HelionStatement)
  panics : String → Bool := fun _ => false
  parse_of_panics : ∀ text, panics text = true → ∃ err, parse text = .error err := by simp
  renderPlan : (verbose : Bool) → Plan → String

namespace PlainText

/-- A stand-in that knows no statement; opened where plans are executed that parse no text. -/
scoped instance sqlText : SqlText where
  parse _ := .error (.parse "Expected statement")
  renderPlan _ _ := "plan"

end PlainText

/-- What a statement draws while it runs. -/
structure Choices extends QueryChoices where
  orders : CommitOrders
  salt : String

/-- Choices of a run that draws nothing in particular. -/
def Choices.asGiven : Choices := { QueryChoices.asGiven with orders := .asGiven, salt := "s" }

/-- The condition of an UPDATE or a DELETE as a predicate on rows. -/
def rowFilter [CaseMapping] [Rendering] (choices : Choices) (whereClause : Option Expression)
    (tableColumns : List ColumnMeta) (row : Row) : Bool :=
  match whereClause with
  | none => true
  | some condition => Expression.passes (condition.evaluate choices.uuidv7 row.values tableColumns)

/-- The administrative call that a statement makes. -/
def Plan.adminCall (salt : String) : Plan → Option AdminCall
  | .createTable name columns engine => some (.createTable name columns engine)
  | .dropTable name _ => some (.dropTable name)
  | .createUser username password => some (.createUser username password salt)
  | .dropUser username _ => some (.dropUser username)
  | .alterUser username password => some (.alterUserPassword username password salt)
  | .grant username table _ permission => some (.grantPermission username table permission)
  | .revoke username table _ permission => some (.revokePermission username table permission)
  | _ => none

namespace Database

section

variable [CaseMapping] [Rendering] [SqlText]

/-- The result of an administrative call that counts as so many rows. -/
def afterCall (argon2 : Argon2) (db : Database) (call : AdminCall) (count : Nat) :
    Except HelionError QueryResult × Database :=
  let outcome := db.call argon2 call
  (outcome.1.map fun _ => .affected count, outcome.2)

/-- The result of a statement that changes tables. -/
def afterEngine (db : Database) (orders : CommitOrders) (statement : LogicalPlan) :
    Except HelionError QueryResult × Database :=
  let executed := db.engine.execute orders statement
  (executed.1.map QueryResult.affected, { db with engine := executed.2 })

/-- A statement that needs a permission, if it has a user. -/
def checked (currentUser : Option String) (check : String → Except HelionError Unit) (db : Database)
    (outcome : Except HelionError QueryResult × Database) : Except HelionError QueryResult × Database :=
  match currentUser with
  | none => outcome
  | some user =>
      match check user with
      | .error err => (.error err, db)
      | .ok () => outcome

/-- The plan that EXPLAIN shows. -/
def explained (db : Database) (statement : String) : Except HelionError Plan :=
  match SqlText.parse statement with
  | .error err => .error err
  | .ok [] => .error (.parse "Expected statement to explain")
  | .ok (inner :: _) => plan db.engine.tables inner

/-- The result of EXPLAIN. -/
def explainResult (lines : List String) : QueryResult :=
  { columns := ["QUERY PLAN"], columnTypes := ["TEXT"], rows := lines.map fun line => [line], rowsAffected := 0 }

/-- `execute_as`; `depth` bounds how deep EXPLAIN ANALYZE may be nested, as the stack does. -/
def executeAs (argon2 : Argon2) (choices : Choices) (currentUser : Option String) :
    (depth : Nat) → Database → Plan → Except HelionError QueryResult × Database
  | _, db, .query tree =>
      (db.queryResult choices.toQueryChoices tree currentUser, { db with engine := db.engine.readSnapshot.2 })
  | _, db, .createTable name columns engine => db.afterCall argon2 (.createTable name columns engine) 0
  | _, db, .dropTable name ifExists =>
      let outcome := db.afterCall argon2 (.dropTable name) 0
      match outcome.1 with
      | .error (.tableNotFound table) =>
          if ifExists then (.ok (.affected 0), outcome.2) else (.error (.tableNotFound table), outcome.2)
      | _ => outcome
  | _, db, .alterTableEngine name target =>
      let outcome := db.engine.alterTableEngine name target
      (outcome.1.map fun _ => .affected 0, { db with engine := outcome.2 })
  | depth, db, .explain analyze verbose statement =>
      match db.explained statement with
      | .error err => (.error err, db)
      | .ok inner =>
          if analyze then
            match depth with
            | 0 => (.error (.internal "stack overflow"), db)
            | depth + 1 =>
                let analyzed := executeAs argon2 choices currentUser depth db inner
                (analyzed.1.map fun result => explainResult
                  [SqlText.renderPlan verbose inner, "rows=" ++ toString result.rowsAffected ++ ", columns=" ++
                    toString result.columns.length], analyzed.2)
          else (.ok (explainResult [SqlText.renderPlan verbose inner]), db)
  | _, db, .insert tableName rows =>
      -- The check asks for columns without names, as many as the first row has values.
      let columns := ((rows.head?.map fun row => row.values).getD []).map fun _ => ""
      checked currentUser (db.checkInsert · tableName columns) db
        (db.afterEngine choices.orders (.insert tableName rows))
  | _, db, .update tableName assignments whereClause tableColumns =>
      let columns := assignments.filterMap fun assignment => tableColumns[assignment.1]?.map (·.name)
      checked currentUser (db.checkUpdate · tableName columns) db
        (db.afterEngine choices.orders (.update tableName assignments (rowFilter choices whereClause tableColumns)))
  | _, db, .delete tableName whereClause tableColumns =>
      checked currentUser (db.checkDelete · tableName) db
        (db.afterEngine choices.orders (.delete tableName (rowFilter choices whereClause tableColumns)))
  | _, db, .createUser username password => db.afterCall argon2 (.createUser username password choices.salt) 1
  | _, db, .dropUser username ifExists =>
      let outcome := db.afterCall argon2 (.dropUser username) 1
      match outcome.1 with
      | .error err => if ifExists then (.ok (.affected 0), outcome.2) else (.error err, outcome.2)
      | .ok _ => outcome
  | _, db, .alterUser username password => db.afterCall argon2 (.alterUserPassword username password choices.salt) 1
  | _, db, .grant username table _ permission => db.afterCall argon2 (.grantPermission username table permission) 1
  | _, db, .revoke username table _ permission => db.afterCall argon2 (.revokePermission username table permission) 1
  | _, db, .createIndex name table columns unique ifNotExists =>
      db.afterEngine choices.orders (.createIndex name table columns unique ifNotExists)
  | _, db, .dropIndex name table ifExists => db.afterEngine choices.orders (.dropIndex name table ifExists)
  | _, db, .showTables =>
      (.ok { columns := ["table_name"], columnTypes := ["TEXT"], rows := db.engine.tables.map fun table => [table.name],
             rowsAffected := 0 }, db)
  | _, db, .showDatabases =>
      (.ok { columns := ["database_name"], columnTypes := ["TEXT"], rows := [["default"]], rowsAffected := 1 }, db)
  | _, db, .useDatabase name =>
      if name.isEmpty then (.error (.internal "Database name cannot be empty"), db) else (.ok (.affected 0), db)

/-- The administrative call that a statement comes to, the one behind EXPLAIN ANALYZE included. -/
def callOf (salt : String) : (depth : Nat) → Database → Plan → Option AdminCall
  | depth, db, .explain analyze _ statement =>
      match db.explained statement with
      | .error _ => none
      | .ok inner =>
          if analyze then
            match depth with
            | 0 => none
            | depth + 1 => callOf salt depth db inner
          else none
  | _, _, plan => plan.adminCall salt

variable {argon2 : Argon2} {choices : Choices} {currentUser : Option String} {db : Database}

/-- What a statement does to an engine, given the call it comes to. -/
def MakesCall (argon2 : Argon2) (db : Database) (call : Option AdminCall) (next : Database) : Prop :=
  match call with
  | some call => next = db.adminStep argon2 call
  | none => ∃ engine, db.engine.Reworked engine ∧ next = { db with engine }

omit [Rendering] [SqlText] in
private theorem checked_effect (check : String → Except HelionError Unit) (orders : CommitOrders)
    (statement : LogicalPlan) (hkeeps : statement.KeepsTables) :
    MakesCall argon2 db none (checked currentUser check db (db.afterEngine orders statement)).2 := by
  have hrun := db.engine.reworked_execute orders hkeeps
  unfold checked
  split
  · exact ⟨_, hrun, rfl⟩
  · split
    · exact ⟨db.engine, .same, rfl⟩
    · exact ⟨_, hrun, rfl⟩

private theorem executeAs_effect_flat (depth : Nat) (plan : Plan)
    (hplan : ∀ analyze verbose statement, plan ≠ .explain analyze verbose statement) :
    MakesCall argon2 db (plan.adminCall choices.salt) (executeAs argon2 choices currentUser depth db plan).2 := by
  cases plan with
  | query tree =>
      rw [executeAs]
      exact ⟨_, .read, rfl⟩
  | explain analyze verbose statement => exact absurd rfl (hplan analyze verbose statement)
  | dropTable name ifExists =>
      rw [executeAs]
      split
      · split <;> rfl
      · rfl
  | dropUser username ifExists =>
      rw [executeAs]
      split
      · split <;> rfl
      · rfl
  | alterTableEngine name target =>
      rw [executeAs]
      exact ⟨_, .migrated name target, rfl⟩
  | insert tableName rows =>
      rw [executeAs]
      exact checked_effect _ _ (.insert tableName rows) trivial
  | update tableName assignments whereClause tableColumns =>
      rw [executeAs]
      exact checked_effect _ _ (.update tableName assignments (rowFilter choices whereClause tableColumns)) trivial
  | delete tableName whereClause tableColumns =>
      rw [executeAs]
      exact checked_effect _ _ (.delete tableName (rowFilter choices whereClause tableColumns)) trivial
  | createIndex name table columns unique ifNotExists =>
      rw [executeAs]
      exact @checked_effect _ _ none _ (fun _ => .ok ()) _ (.createIndex name table columns unique ifNotExists) trivial
  | dropIndex name table ifExists =>
      rw [executeAs]
      exact @checked_effect _ _ none _ (fun _ => .ok ()) _ (.dropIndex name table ifExists) trivial
  | useDatabase name =>
      rw [executeAs]
      refine ⟨db.engine, .same, ?_⟩
      split <;> rfl
  | showTables =>
      rw [executeAs]
      exact ⟨db.engine, .same, rfl⟩
  | showDatabases =>
      rw [executeAs]
      exact ⟨db.engine, .same, rfl⟩
  | _ =>
      rw [executeAs]
      rfl

/-- A statement makes the administrative call it comes to, or it only works on the tables. -/
theorem executeAs_effect (depth : Nat) (plan : Plan) :
    MakesCall argon2 db (callOf choices.salt depth db plan)
      (executeAs argon2 choices currentUser depth db plan).2 := by
  have hsame : MakesCall argon2 db none db := ⟨db.engine, .same, rfl⟩
  induction depth generalizing plan with
  | zero =>
      cases plan with
      | explain analyze verbose statement =>
          simp only [executeAs, callOf]
          split
          · exact hsame
          · split <;> exact hsame
      | _ => exact executeAs_effect_flat 0 _ (by simp)
  | succ depth ih =>
      cases plan with
      | explain analyze verbose statement =>
          simp only [executeAs, callOf]
          split
          · exact hsame
          · rename_i inner _
            split
            · exact ih inner
            · exact hsame
      | _ => exact executeAs_effect_flat (depth + 1) _ (by simp)

end

end Database

end HelionDb
