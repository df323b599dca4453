import HelionDb.PlainRuns

/-! Structured writes on plain tables. A create, an update and a deletion are each one statement on the rows of their table,
with the values that their JSON gives to the columns; an upsert is its update where a row is selected, and its create where
none is. So a run that also has structured writes is a run of statements. -/

namespace HelionDb

structure UpsertInput where
  fromTable : String
  whereClause : Json
  create : List (String × Json)
  update : List (String × Json)

/-- The structured requests that write. -/
inductive StructuredWrite where
  | create (input : CreateInput)
  | update (input : UpdateInput)
  | delete (input : DeleteInput)
  | upsert (input : UpsertInput)

/-- The update that an upsert tries first. -/
def UpsertInput.updateInput (input : UpsertInput) : UpdateInput :=
  { fromTable := input.fromTable, whereClause := input.whereClause, data := input.update }

/-- The create for an upsert whose update selects no row. -/
def UpsertInput.createInput (input : UpsertInput) : CreateInput :=
  { fromTable := input.fromTable, data := input.create }

def StructuredWrite.fromTable : StructuredWrite → String
  | create input => input.fromTable
  | update input => input.fromTable
  | delete input => input.fromTable
  | upsert input => input.fromTable

namespace StructuredWrite

/-- An INSERT of the row that a create makes. -/
def createStatement (input : CreateInput) (table : PlainTable) : Except HelionError RowStatement :=
  (createRow (Table.new input.fromTable table.columns) input).map fun row => .insert [row]

end StructuredWrite

section

variable [CaseMapping] [Rendering] [NumberText]

namespace DatabaseEngine

/-- `execute_upsert`. -/
def executeUpsert (engine : DatabaseEngine) (orders reorders : CommitOrders) (input : UpsertInput) : Executed :=
  let updated := engine.executeUpdate orders input.updateInput
  match updated.1 with
  | .error err => (.error err, updated.2)
  | .ok rowsAffected =>
      if rowsAffected = 0 then updated.2.executeCreate reorders input.createInput else (.ok rowsAffected, updated.2)

/-- The arms of `execute_structured` that write. An upsert may commit twice, in these orders. -/
def executeStructured (engine : DatabaseEngine) (orders reorders : CommitOrders) : StructuredWrite → Executed
  | .create input => engine.executeCreate orders input
  | .update input => engine.executeUpdate orders input
  | .delete input => engine.executeDelete orders input
  | .upsert input => engine.executeUpsert orders reorders input

end DatabaseEngine

namespace StructuredWrite

def updateStatement (input : UpdateInput) (table : PlainTable) : Except HelionError RowStatement := do
  let whereExpr ← input.whereClause.parseWhereClause
  let assignments ← setValues (Table.new input.fromTable table.columns) input
  return .update assignments (DatabaseEngine.whereFilter whereExpr table.columns)

def deleteStatement (input : DeleteInput) (table : PlainTable) : Except HelionError RowStatement :=
  input.whereClause.parseWhereClause.map fun whereExpr => .delete (DatabaseEngine.whereFilter whereExpr table.columns)

/-- The one statement that a request is on a table, if it can be made. -/
def statementOn (table : PlainTable) : StructuredWrite → Except HelionError RowStatement
  | create input => createStatement input table
  | update input => updateStatement input table
  | delete input => deleteStatement input table
  | upsert input => do
      let updates ← updateStatement input.updateInput table
      if updates.affects table.rows = 0 then createStatement input.createInput table else return updates

def statement (tables : PlainTables) (write : StructuredWrite) : Except HelionError RowStatement :=
  match tables write.fromTable with
  | none => .error (.tableNotFound write.fromTable)
  | some table => write.statementOn table

end StructuredWrite

/-- A step of the plain tables for a request: it is refused because there is no statement for it, or it is its statement, which
may be refused. The count is that of the statement; the response of a create has the row in its place. -/
inductive WriteStep (tables : PlainTables) (write : StructuredWrite) : Except HelionError Nat → PlainTables → Prop
  | refused (err : HelionError) (hnone : write.statement tables = .error err) : WriteStep tables write (.error err) tables
  | stated (statement : RowStatement) (orders : CommitOrders) (result : Except HelionError Nat) (next : PlainTables)
      (hstatement : write.statement tables = .ok statement)
      (hstep : PlainStep tables (.statement (statement.plan write.fromTable) orders) result next) :
      WriteStep tables write result next

/-- What happens to a database that also gets structured requests. An upsert may commit twice, in these orders. -/
inductive Request where
  | call (call : ClientCall)
  | write (write : StructuredWrite) (orders reorders : CommitOrders)

inductive RequestStep (tables : PlainTables) : Request → Except HelionError Nat → PlainTables → Prop
  | call {call : ClientCall} {result : Except HelionError Nat} {next : PlainTables}
      (hstep : PlainStep tables call result next) : RequestStep tables (.call call) result next
  | write {write : StructuredWrite} {orders reorders : CommitOrders} {result : Except HelionError Nat} {next : PlainTables}
      (hstep : WriteStep tables write result next) : RequestStep tables (.write write orders reorders) result next

/-- A run of requests with their results. -/
inductive RequestRun : PlainTables → List (Request × Except HelionError Nat) → PlainTables → Prop
  | nil (tables : PlainTables) : RequestRun tables [] tables
  | cons {tables next final : PlainTables} {request : Request} {result : Except HelionError Nat}
      {rest : List (Request × Except HelionError Nat)} (hstep : RequestStep tables request result next)
      (hrest : RequestRun next rest final) : RequestRun tables ((request, result) :: rest) final

/-- A request that is the same statement as another makes the same step. -/
theorem WriteStep.of_statement {tables next : PlainTables} {write other : StructuredWrite} {result : Except HelionError Nat}
    (h : WriteStep tables write result next) (hstatement : write.statement tables = other.statement tables)
    (hname : write.fromTable = other.fromTable) : WriteStep tables other result next := by
  cases h with
  | refused err hnone => exact .refused err (hstatement.symm.trans hnone)
  | stated statement orders _ _ hmade hstep =>
      rw [hname] at hstep
      exact .stated statement orders _ _ (hstatement.symm.trans hmade) hstep

end

/-- What a request gives to the columns depends on the columns only. -/
theorem createRow_congr {left right : Table} (h : left.columns = right.columns) (input : CreateInput) :
    createRow left input = createRow right input := by
  simp only [createRow, requireColumn, Json.toColumn, Table.columnIndex, h]

theorem setValues_congr {left right : Table} (h : left.columns = right.columns) (input : UpdateInput) :
    setValues left input = setValues right input := by
  simp only [setValues, requireColumn, Json.toColumn, Table.columnIndex, h]

namespace DatabaseEngine

variable {engine : DatabaseEngine} {orders reorders : CommitOrders} {table : PlainTable}

theorem exists_requireTable {name : String} (htable : engine.plain name = some table) :
    ∃ found, requireTable engine.tables name = .ok found ∧ (Table.new name table.columns).columns = found.columns := by
  obtain ⟨found, hfound, rfl⟩ := Option.map_eq_some_iff.mp htable
  exact ⟨found, by rw [requireTable, hfound], Table.new_columns _ _⟩

theorem requireTable_of_none {name : String} (hnone : engine.plain name = none) :
    requireTable engine.tables name = .error (.tableNotFound name) := by
  rw [requireTable, plain_eq_none_iff.mp hnone]

theorem nextTxid_execute_rows (hroom : engine.mvcc.nextTxid + 3 ≤ u64Max) (name : String) (statement : RowStatement) :
    (engine.execute orders (statement.plan name)).2.mvcc.nextTxid ≤ engine.mvcc.nextTxid + 2 := by
  have hids : engine.CounterRoom := by
    unfold CounterRoom
    omega
  have hread : (engine.readPhase name statement).2.mvcc.nextTxid ≤ engine.mvcc.nextTxid + 1 := by
    rcases readPhase_engine engine name statement with hsame | hread
    · rw [hsame]
      omega
    · rw [hread, readSnapshot_nextTxid hids]
  rw [execute_plan]
  split
  · rename_i hphase
    rw [hphase] at hread
    dsimp only at hread ⊢
    omega
  · rename_i hphase
    rw [hphase] at hread
    dsimp only at hread ⊢
    split
    · dsimp only
      omega
    · rw [writePhase_nextTxid]
      · omega
      · unfold CounterRoom
        omega

theorem Kept.rows_step (h : engine.Kept) {name : String} {statement : RowStatement}
    (hroom : engine.mvcc.nextTxid + 3 ≤ u64Max) (hfits : (statement.plan name).Fits engine.plain)
    (hapart : (statement.plan name).KeepsApart engine.plain) (orders : CommitOrders) :
    PlainStep engine.plain (.statement (statement.plan name) orders) (engine.execute orders (statement.plan name)).1
        (engine.execute orders (statement.plan name)).2.plain ∧
      (engine.execute orders (statement.plan name)).2.Kept := by
  have hguard : engine.PlainGuard (.statement (statement.plan name) orders) := by
    refine ⟨?_, fun plan given heq => ?_, fun plan given heq => ?_⟩
    · unfold CounterRoom
      omega
    · rw [← (ClientCall.statement.inj heq).1]
      exact hfits
    · rw [← (ClientCall.statement.inj heq).1]
      exact hapart
  exact ⟨h.plainStep_call hguard, h.call hguard⟩

theorem Kept.readSnapshot (h : engine.Kept) (hroom : engine.CounterRoom) : engine.readSnapshot.2.Kept :=
  @Kept.transition_of_none engine h { op := .readTxn, orders := .asGiven } hroom rfl _
    (.ids _ (readSnapshot_idStep engine))

theorem count_eq_affects {tables after : PlainTables} {name : String} {assignments : List (Nat × Datum)}
    {filter : Row → Bool} {count : Nat} (htable : tables name = some table)
    (hstep : PlainStep tables (.statement (.update name assignments filter) orders) (.ok count) after) :
    count = (RowStatement.update assignments filter).affects table.rows := by
  cases hstep with
  | done _ _ _ hdone =>
      obtain ⟨found, hfound, -, hcount⟩ := hdone
      obtain rfl := Option.some.inj (htable.symm.trans hfound)
      exact hcount

/-- An update that selects no row leaves the tables, and reports none. -/
theorem done_of_affects_none {tables after : PlainTables} {name : String} {assignments : List (Nat × Datum)}
    {filter : Row → Bool} {result : Except HelionError Nat} (htable : tables name = some table)
    (hnone : (RowStatement.update assignments filter).affects table.rows = 0)
    (hstep : PlainStep tables (.statement (.update name assignments filter) orders) result after) :
    result = .ok 0 ∧ after = tables := by
  have hunselected : ∀ row, some row ∈ table.rows → filter row = false := by
    intro row hrow
    exact Bool.eq_false_iff.mpr (List.countP_eq_zero.mp hnone (some row) hrow)
  cases hstep with
  | refused _ _ err hrefused =>
      obtain ⟨definition, -, -, row, hrow, hfilter, -⟩ := hrefused table htable
      rw [hunselected row hrow] at hfilter
      cases hfilter
  | done _ _ count hdone =>
      obtain ⟨found, hfound, -, rfl⟩ := hdone
      obtain rfl := Option.some.inj (htable.symm.trans hfound)
      refine ⟨by rw [hnone], ?_⟩
      have hrows : (RowStatement.update assignments filter).meaning table.rows = table.rows := by
        rw [RowStatement.meaning]
        refine (List.map_congr_left fun row hrow => ?_).trans (List.map_id _)
        cases row with
        | none => rfl
        | some row => rw [Option.map_some, hunselected row hrow, if_neg Bool.false_ne_true, id]
      have hsame : PlainTable.onRows (.update assignments filter) table = table := by
        rw [PlainTable.onRows, hrows]
      rw [LogicalPlan.meaning, onTable_of_find htable hsame]
      exact Function.update_eq_self_iff.mpr htable.symm

/-! ### One request -/

section

variable [CaseMapping] [Rendering] [NumberText]

theorem executeUpdate_statement (input : UpdateInput) :
    engine.executeUpdate orders input =
      match (StructuredWrite.update input).statement engine.plain with
      | .error err => (.error err, engine)
      | .ok statement => engine.execute orders (statement.plan input.fromTable) := by
  rw [executeUpdate, StructuredWrite.statement, StructuredWrite.fromTable]
  cases htable : engine.plain input.fromTable with
  | none => rw [requireTable_of_none htable]
  | some table =>
      obtain ⟨found, hfound, hcolumns⟩ := exists_requireTable htable
      rw [hfound]
      dsimp only
      rw [StructuredWrite.statementOn, StructuredWrite.updateStatement, setValues_congr hcolumns]
      rw [Table.new_columns] at hcolumns
      cases input.whereClause.parseWhereClause with
      | error err => rfl
      | ok whereExpr =>
          dsimp only
          cases setValues found input with
          | error err => rfl
          | ok assignments =>
              rw [hcolumns]
              rfl

theorem executeDelete_statement (input : DeleteInput) :
    engine.executeDelete orders input =
      match (StructuredWrite.delete input).statement engine.plain with
      | .error err => (.error err, engine)
      | .ok statement => engine.execute orders (statement.plan input.fromTable) := by
  rw [executeDelete, StructuredWrite.statement, StructuredWrite.fromTable]
  cases htable : engine.plain input.fromTable with
  | none => rw [requireTable_of_none htable]
  | some table =>
      obtain ⟨found, hfound, hcolumns⟩ := exists_requireTable htable
      rw [Table.new_columns] at hcolumns
      rw [hfound]
      dsimp only
      rw [StructuredWrite.statementOn, StructuredWrite.deleteStatement, hcolumns]
      cases input.whereClause.parseWhereClause <;> rfl

/-- A create reads the table again, unless its INSERT returned an error. -/
theorem executeCreate_statement (input : CreateInput) :
    engine.executeCreate orders input =
      match (StructuredWrite.create input).statement engine.plain with
      | .error err => (.error err, engine)
      | .ok statement =>
          let inserted := engine.execute orders (statement.plan input.fromTable)
          match inserted.1 with
          | .error err => (.error err, inserted.2)
          | .ok rowsAffected => (.ok rowsAffected, if 0 < rowsAffected then inserted.2.readSnapshot.2 else inserted.2) := by
  rw [executeCreate, StructuredWrite.statement, StructuredWrite.fromTable]
  cases htable : engine.plain input.fromTable with
  | none => rw [requireTable_of_none htable]
  | some table =>
      obtain ⟨found, hfound, hcolumns⟩ := exists_requireTable htable
      rw [hfound]
      dsimp only
      rw [StructuredWrite.statementOn, StructuredWrite.createStatement, createRow_congr hcolumns]
      cases createRow found input <;> rfl

/-- Requests under which a database does what is said of its plain tables: ids are left, and the statement of the request
inserts rows that fit, sets columns that are there and, where no held key stops it, leaves the keys of unique indexes apart. -/
structure WriteGuard (engine : DatabaseEngine) (write : StructuredWrite) : Prop where
  room : engine.mvcc.nextTxid + 6 ≤ u64Max
  fits : ∀ statement, write.statement engine.plain = .ok statement →
    (statement.plan write.fromTable).Fits engine.plain
  apart : ∀ statement, write.statement engine.plain = .ok statement →
    (statement.plan write.fromTable).KeepsApart engine.plain

/-- A create is its INSERT. -/
theorem Kept.create_step (h : engine.Kept) (hroom : engine.mvcc.nextTxid + 4 ≤ u64Max) {input : CreateInput}
    (hfits : ∀ statement, (StructuredWrite.create input).statement engine.plain = .ok statement →
      (statement.plan input.fromTable).Fits engine.plain)
    (hapart : ∀ statement, (StructuredWrite.create input).statement engine.plain = .ok statement →
      (statement.plan input.fromTable).KeepsApart engine.plain) :
    WriteStep engine.plain (.create input) (engine.executeCreate orders input).1
        (engine.executeCreate orders input).2.plain ∧ (engine.executeCreate orders input).2.Kept := by
  rw [executeCreate_statement]
  cases hstatement : (StructuredWrite.create input).statement engine.plain with
  | error err => exact ⟨.refused err hstatement, h⟩
  | ok statement =>
      obtain ⟨hstep, hkept⟩ := h.rows_step (by omega) (hfits statement hstatement) (hapart statement hstatement) orders
      have hids := @nextTxid_execute_rows engine orders (by omega) input.fromTable statement
      dsimp only
      generalize engine.execute orders (statement.plan input.fromTable) = inserted at hstep hkept hids
      obtain ⟨result, after⟩ := inserted
      cases result with
      | error err => exact ⟨.stated statement orders _ _ hstatement hstep, hkept⟩
      | ok rowsAffected =>
          dsimp only
          split
          · have hsame : after.readSnapshot.2.plain = after.plain := plain_of_tables rfl
            have hroom : after.mvcc.nextTxid + 2 ≤ u64Max := by
              dsimp only at hids
              omega
            rw [hsame]
            exact ⟨.stated statement orders _ _ hstatement hstep, hkept.readSnapshot hroom⟩
          · exact ⟨.stated statement orders _ _ hstatement hstep, hkept⟩

theorem update_of_statement {tables : PlainTables} {input : UpdateInput} {statement : RowStatement}
    (h : (StructuredWrite.update input).statement tables = .ok statement) :
    ∃ table assignments filter, tables input.fromTable = some table ∧ statement = .update assignments filter := by
  rw [StructuredWrite.statement, StructuredWrite.fromTable] at h
  cases htable : tables input.fromTable with
  | none =>
      rw [htable] at h
      cases h
  | some table =>
      rw [htable] at h
      dsimp only at h
      rw [StructuredWrite.statementOn, StructuredWrite.updateStatement] at h
      cases hexpr : input.whereClause.parseWhereClause with
      | error err =>
          rw [hexpr] at h
          cases h
      | ok whereExpr =>
          cases hvalues : setValues (Table.new input.fromTable table.columns) input with
          | error err =>
              rw [hexpr, hvalues] at h
              cases h
          | ok assignments =>
              rw [hexpr, hvalues] at h
              exact ⟨table, assignments, _, rfl, (Except.ok.inj h).symm⟩

theorem upsert_statement {tables : PlainTables} {input : UpsertInput} (htable : tables input.fromTable = some table) :
    (StructuredWrite.upsert input).statement tables = do
      let updates ← (StructuredWrite.update input.updateInput).statement tables
      if updates.affects table.rows = 0 then (StructuredWrite.create input.createInput).statement tables
      else return updates := by
  simp only [StructuredWrite.statement, StructuredWrite.fromTable, UpsertInput.updateInput, UpsertInput.createInput, htable,
    StructuredWrite.statementOn]

/-- An upsert is its update where that selects a row, and its create where it selects none. -/
theorem Kept.upsert_step (h : engine.Kept) {input : UpsertInput} (hguard : engine.WriteGuard (.upsert input)) :
    WriteStep engine.plain (.upsert input) (engine.executeUpsert orders reorders input).1
        (engine.executeUpsert orders reorders input).2.plain ∧
      (engine.executeUpsert orders reorders input).2.Kept := by
  have hroom := hguard.room
  rw [executeUpsert, executeUpdate_statement]
  cases hupdates : (StructuredWrite.update input.updateInput).statement engine.plain with
  | error err =>
      refine ⟨.refused err ?_, h⟩
      cases htable : engine.plain input.fromTable with
      | none =>
          rw [StructuredWrite.statement, StructuredWrite.fromTable, htable, ← hupdates, StructuredWrite.statement,
            StructuredWrite.fromTable, UpsertInput.updateInput, htable]
      | some table =>
          rw [upsert_statement htable, hupdates]
          rfl
  | ok updates =>
      obtain ⟨table, assignments, filter, htable, rfl⟩ := update_of_statement hupdates
      have hstatement := upsert_statement htable
      rw [hupdates] at hstatement
      have hname : input.updateInput.fromTable = input.fromTable := rfl
      rw [hname]
      dsimp only
      by_cases hnone : (RowStatement.update assignments filter).affects table.rows = 0
      · have hcreates : (StructuredWrite.upsert input).statement engine.plain =
            (StructuredWrite.create input.createInput).statement engine.plain := hstatement.trans (if_pos hnone)
        have hapart : (LogicalPlan.update input.fromTable assignments filter).KeepsApart engine.plain := by
          rintro found hfound - definition - - idx other row held ⟨old, hold, hfilter⟩
          obtain rfl := Option.some.inj (htable.symm.trans hfound)
          exact absurd hfilter (List.countP_eq_zero.mp hnone (some old) (List.mem_of_getElem? hold))
        have hfits : (LogicalPlan.update input.fromTable assignments filter).Fits engine.plain := by
          rintro found hfound ⟨row, hrow, hfilter, -⟩
          obtain rfl := Option.some.inj (htable.symm.trans hfound)
          exact absurd hfilter (List.countP_eq_zero.mp hnone (some row) hrow)
        obtain ⟨hstep, hkept⟩ := @Kept.rows_step engine h input.fromTable (.update assignments filter) (by omega) hfits hapart
          orders
        obtain ⟨hresult, hplain⟩ := done_of_affects_none htable hnone hstep
        have hids := @nextTxid_execute_rows engine orders (by omega) input.fromTable (.update assignments filter)
        generalize engine.execute orders ((RowStatement.update assignments filter).plan input.fromTable) = updated
          at hkept hresult hplain hids
        have hcreated := @Kept.create_step updated.2 reorders _ _ _ hkept (by omega) input.createInput
          (fun statement hmade => ?_) fun statement hmade => ?_
        · rw [hresult]
          dsimp only
          rw [if_pos rfl]
          rw [hplain] at hcreated
          exact ⟨hcreated.1.of_statement hcreates.symm rfl, hcreated.2⟩
        · rw [hplain] at hmade ⊢
          exact hguard.fits statement (hcreates.trans hmade)
        · rw [hplain] at hmade ⊢
          exact hguard.apart statement (hcreates.trans hmade)
      · have hupdated : (StructuredWrite.upsert input).statement engine.plain = .ok (.update assignments filter) :=
          hstatement.trans (if_neg hnone)
        obtain ⟨hstep, hkept⟩ := @Kept.rows_step engine h input.fromTable (.update assignments filter) (by omega)
          (hguard.fits _ hupdated) (hguard.apart _ hupdated) orders
        generalize engine.execute orders ((RowStatement.update assignments filter).plan input.fromTable) = updated
          at hstep hkept
        obtain ⟨result, after⟩ := updated
        cases result with
        | error err => exact ⟨.stated _ orders _ _ hupdated hstep, hkept⟩
        | ok count =>
            have hcount : count ≠ 0 := by
              rw [count_eq_affects htable hstep]
              exact hnone
            dsimp only
            rw [if_neg hcount]
            exact ⟨.stated _ orders _ _ hupdated hstep, hkept⟩

/-- A structured write is refused because there is no statement for it, or it is its statement. -/
theorem Kept.writeStep (h : engine.Kept) {write : StructuredWrite} (hguard : engine.WriteGuard write) :
    WriteStep engine.plain write (engine.executeStructured orders reorders write).1
        (engine.executeStructured orders reorders write).2.plain ∧
      (engine.executeStructured orders reorders write).2.Kept := by
  have hroom := hguard.room
  cases write with
  | create input => exact h.create_step (by omega) hguard.fits hguard.apart
  | update input =>
      rw [executeStructured, executeUpdate_statement]
      cases hstatement : (StructuredWrite.update input).statement engine.plain with
      | error err => exact ⟨.refused err hstatement, h⟩
      | ok statement =>
          obtain ⟨hstep, hkept⟩ := h.rows_step (by omega) (hguard.fits statement hstatement)
            (hguard.apart statement hstatement) orders
          exact ⟨.stated statement orders _ _ hstatement hstep, hkept⟩
  | delete input =>
      rw [executeStructured, executeDelete_statement]
      cases hstatement : (StructuredWrite.delete input).statement engine.plain with
      | error err => exact ⟨.refused err hstatement, h⟩
      | ok statement =>
          obtain ⟨hstep, hkept⟩ := h.rows_step (by omega) (hguard.fits statement hstatement)
            (hguard.apart statement hstatement) orders
          exact ⟨.stated statement orders _ _ hstatement hstep, hkept⟩
  | upsert input => exact h.upsert_step hguard

/-! ### Runs with requests -/

/-- One request after the other: calls of the client, and structured writes with the orders of their commits. -/
def requestStep (engine : DatabaseEngine) : Request → DatabaseEngine
  | .call call => engine.clientStep call
  | .write write orders reorders => (engine.executeStructured orders reorders write).2

def requestResult (engine : DatabaseEngine) : Request → Except HelionError Nat
  | .call call => engine.clientResult call
  | .write write orders reorders => (engine.executeStructured orders reorders write).1

/-- The requests with what they return. -/
def requestResults (engine : DatabaseEngine) : List Request → List (Request × Except HelionError Nat)
  | [] => []
  | request :: rest => (request, engine.requestResult request) :: (engine.requestStep request).requestResults rest

def RequestGuard (engine : DatabaseEngine) : Request → Prop
  | .call call => engine.PlainGuard call
  | .write write _ _ => engine.WriteGuard write

theorem Kept.requestStep (h : engine.Kept) {request : Request} (hguard : engine.RequestGuard request) :
    RequestStep engine.plain request (engine.requestResult request) (engine.requestStep request).plain ∧
      (engine.requestStep request).Kept := by
  cases request with
  | call call => exact ⟨.call (h.plainStep_call hguard), h.call hguard⟩
  | write write orders reorders =>
      obtain ⟨hstep, hkept⟩ := @Kept.writeStep engine orders reorders _ _ _ h write hguard
      exact ⟨.write hstep, hkept⟩

theorem Kept.requestRun (h : engine.Kept) {requests : List Request}
    (hguard : Meets DatabaseEngine.requestStep RequestGuard engine requests) :
    RequestRun engine.plain (engine.requestResults requests) (requests.foldl DatabaseEngine.requestStep engine).plain ∧
      (requests.foldl DatabaseEngine.requestStep engine).Kept := by
  induction requests generalizing engine with
  | nil => exact ⟨.nil _, h⟩
  | cons request rest ih =>
      obtain ⟨hrequest, hrest⟩ := hguard
      obtain ⟨hstep, hkept⟩ := h.requestStep hrequest
      obtain ⟨hrun, hafter⟩ := ih hkept hrest
      exact ⟨.cons hstep hrun, hafter⟩

/-- In a run from a new database every structured write, too, does to the plain tables what its one statement says, or is
refused, and the next reader sees the rows that they hold. -/
theorem requestResults_run (defaultEngine : String) {requests : List Request}
    (hguard : Meets requestStep RequestGuard (fresh defaultEngine) requests) :
    RequestRun (fun _ => none) ((fresh defaultEngine).requestResults requests)
        (requests.foldl requestStep (fresh defaultEngine)).plain ∧
      (requests.foldl requestStep (fresh defaultEngine)).ShowsPlain := by
  obtain ⟨hrun, hkept⟩ := (Kept.fresh defaultEngine).requestRun hguard
  exact ⟨hrun, hkept.toSteady.showsPlain⟩

end

section

open scoped AsciiCase PlainText

/-- The WHERE of a request for the row with a key. -/
def keyIs (key : UInt64) : Json := .object [("id", .number (.posInt key))]

/-- A create for the row with this key. -/
def createKey (key : UInt64) : CreateInput := { fromTable := "t", data := [("id", .number (.posInt key))] }

/-- An upsert of the row with this key. -/
def upsertOne : UpsertInput :=
  { fromTable := "t", whereClause := keyIs 1, create := [("id", .number (.posInt 1))], update := [] }

/-- A table with a primary key, an upsert, which creates its row, a create, which is refused for the key that the row holds,
and an update and a deletion of the row. -/
def keyWrites : List Request :=
  [.call (.statement (.createTable "t" [(ColumnMeta.new "id" .integer).primaryKey] none) .asGiven),
    .write (.upsert upsertOne) .asGiven .asGiven, .write (.create (createKey 1)) .asGiven .asGiven,
    .write (.update { fromTable := "t", whereClause := keyIs 1, data := [("id", .number (.posInt 2))] }) .asGiven .asGiven,
    .write (.delete { fromTable := "t", whereClause := keyIs 2 }) .asGiven .asGiven]

/-- The database after so many of these requests. -/
def keyWritesEngine (done : Nat) : DatabaseEngine := (keyWrites.take done).foldl requestStep (fresh "disk")

theorem upsertOne_statement {statement : RowStatement}
    (h : (StructuredWrite.upsert upsertOne).statement (keyWritesEngine 1).plain = .ok statement) :
    statement = .insert (keyRows [.integer 1]) := by
  have hcreate : (StructuredWrite.create upsertOne.createInput).statement (keyWritesEngine 1).plain =
      .ok (.insert (keyRows [.integer 1])) := rfl
  rw [@upsert_statement _ _ _ _ _ upsertOne rfl] at h
  cases hupdates : (StructuredWrite.update upsertOne.updateInput).statement (keyWritesEngine 1).plain with
  | error err =>
      rw [hupdates] at h
      cases h
  | ok updates =>
      obtain ⟨table, assignments, filter, -, rfl⟩ := update_of_statement hupdates
      rw [hupdates] at h
      exact (Except.ok.inj (hcreate.symm.trans h)).symm

theorem requestResults_run_keyWrites :
    RequestRun (fun _ => none) ((fresh "disk").requestResults keyWrites)
        (keyWrites.foldl requestStep (fresh "disk")).plain ∧
      (keyWrites.foldl requestStep (fresh "disk")).ShowsPlain := by
  have hroom : ∀ done ∈ List.range 5, (keyWritesEngine done).mvcc.nextTxid + 6 ≤ u64Max := by decide
  have hcreated : (keyWritesEngine 1).plain "t" = some (keyedRowsAt []) := rfl
  have hupserted : (keyWritesEngine 2).plain "t" = some (keyedRowsAt [some { values := [.integer 1] }]) := rfl
  have hkept : (keyWritesEngine 3).plain "t" = some (keyedRowsAt [some { values := [.integer 1] }]) := rfl
  have hupdated : (keyWritesEngine 4).plain "t" = some (keyedRowsAt [some { values := [.integer 2] }]) := rfl
  have hcall : (fresh "disk").PlainGuard
      (.statement (.createTable "t" [(ColumnMeta.new "id" .integer).primaryKey] none) .asGiven) :=
    plainGuard_statement (by unfold CounterRoom; decide) (by exact trivial) (by exact trivial) _
  refine requestResults_run "disk" ⟨hcall, ⟨hroom 1 (by decide), ?_, ?_⟩, ⟨hroom 2 (by decide), ?_, ?_⟩,
    ⟨hroom 3 (by decide), ?_, ?_⟩, ⟨hroom 4 (by decide), ?_, ?_⟩, trivial⟩
  · -- The upsert creates a row, which fits.
    intro statement hstatement
    obtain rfl := upsertOne_statement hstatement
    refine fun table htable => ?_
    obtain rfl := Option.some.inj (hcreated.symm.trans htable)
    decide
  · intro statement hstatement
    obtain rfl := upsertOne_statement hstatement
    refine fun table htable _ => ?_
    obtain rfl := Option.some.inj (hcreated.symm.trans htable)
    exact RowStatement.leavesApart_of_pairwise (by decide)
  · -- So does the row of the create, but its key is held.
    intro statement hstatement
    obtain rfl : RowStatement.insert (keyRows [.integer 1]) = statement := Except.ok.inj hstatement
    refine fun table htable => ?_
    obtain rfl := Option.some.inj (hupserted.symm.trans htable)
    decide
  · intro statement hstatement
    obtain rfl : RowStatement.insert (keyRows [.integer 1]) = statement := Except.ok.inj hstatement
    refine fun table htable hclear => ?_
    obtain rfl := Option.some.inj (hupserted.symm.trans htable)
    refine absurd ⟨_, List.mem_singleton_self _, rfl, { values := [.integer 1] }, List.mem_singleton_self _, rfl, ?_⟩ hclear
    exact ⟨_, List.mem_singleton_self _, rfl⟩
  · -- The update sets a column that is there.
    intro statement hstatement
    obtain rfl := Except.ok.inj hstatement
    refine fun table htable => ?_
    rintro ⟨row, hrow, -, hmissing⟩
    obtain rfl := Option.some.inj (hkept.symm.trans htable)
    obtain rfl := Option.some.inj (List.mem_singleton.mp hrow)
    cases hmissing
  · intro statement hstatement
    obtain rfl := Except.ok.inj hstatement
    refine fun table htable _ => ?_
    obtain rfl := Option.some.inj (hkept.symm.trans htable)
    exact RowStatement.leavesApart_of_pairwise fun _ _ => List.pairwise_singleton _ _
  · intro statement hstatement
    obtain rfl := Except.ok.inj hstatement
    trivial
  · intro statement hstatement
    obtain rfl := Except.ok.inj hstatement
    refine fun table htable _ => ?_
    obtain rfl := Option.some.inj (hupdated.symm.trans htable)
    exact RowStatement.leavesApart_of_pairwise fun _ _ => List.pairwise_singleton _ _

-- Of the requests of this run only the create is refused.
example : ((fresh "disk").requestResults keyWrites).map (fun entry => entry.2.toBool) = [true, true, false, true, true] := rfl

end

end DatabaseEngine

end HelionDb
