import HelionDb.Statements
import HelionDb.Steady

/-! Statements on their way. An INSERT, UPDATE or DELETE reads its table and computes its writes in a first phase, and
begins and commits the transaction that makes them in a second one; other statements may run in between. Run alone,
the phases of a statement are the whole statement. -/

namespace HelionDb

/-- An INSERT, UPDATE or DELETE on a table. -/
inductive RowStatement where
  | insert (rows : List Row)
  | update (assignments : List (Nat × Datum)) (filter : Row → Bool)
  | delete (filter : Row → Bool)

namespace RowStatement

/-- The plan that is executed for it. -/
def plan (tableName : String) : RowStatement → LogicalPlan
  | insert rows => .insert tableName rows
  | update assignments filter => .update tableName assignments filter
  | delete filter => .delete tableName filter

/-- With no row to write an UPDATE or a DELETE has no second phase; an INSERT always has one. -/
def skipsWrite (entries : List WriteEntry) : RowStatement → Bool
  | insert _ => false
  | update _ _ => entries.isEmpty
  | delete _ => entries.isEmpty

end RowStatement

namespace DatabaseEngine

/-- The first phase of a statement: the entries it will write, and the engine after its snapshot. -/
def readPhase (engine : DatabaseEngine) (tableName : String) (statement : RowStatement) :
    Except HelionError (List WriteEntry) × DatabaseEngine :=
  match findTable tableName engine.tables with
  | none => (.error (.tableNotFound tableName), engine)
  | some table =>
      match statement with
      | .insert rows => (.ok (insertEntries tableName table.rowCount rows), engine)
      | .update assignments filter =>
          match updateEntries tableName assignments (engine.selectRows table filter) with
          | none => (.error (.internal "index out of bounds"), engine.readSnapshot.2)
          | some entries => (.ok entries, engine.readSnapshot.2)
      | .delete filter =>
          (.ok (deleteEntries tableName (engine.selectRows table filter)), engine.readSnapshot.2)

/-- The second phase: the transaction that writes the entries. -/
def writePhase (engine : DatabaseEngine) (orders : CommitOrders) (entries : List WriteEntry) : Executed :=
  affecting entries.length (engine.withWriteTxn orders fun _ _ => .ok entries)

variable {engine : DatabaseEngine} {tableName : String} {statement : RowStatement}

theorem readPhase_engine (engine : DatabaseEngine) (tableName : String) (statement : RowStatement) :
    (engine.readPhase tableName statement).2 = engine ∨
      (engine.readPhase tableName statement).2 = engine.readSnapshot.2 := by
  unfold readPhase
  split
  · exact Or.inl rfl
  · cases statement with
    | insert rows => exact Or.inl rfl
    | update assignments filter =>
        dsimp only
        split <;> exact Or.inr rfl
    | delete filter => exact Or.inr rfl

theorem readPhase_tables (engine : DatabaseEngine) (tableName : String) (statement : RowStatement) :
    (engine.readPhase tableName statement).2.tables = engine.tables := by
  rcases readPhase_engine engine tableName statement with hsame | hread
  · rw [hsame]
  · rw [hread]
    rfl

/-- The write phase commits a transaction that begins on the engine as it is now. -/
theorem writePhase_eq (engine : DatabaseEngine) (orders : CommitOrders) (entries : List WriteEntry) :
    engine.writePhase orders entries =
      (((engine.begin.2.commit orders (engine.beginWith entries)).1.map fun _ => entries.length),
        (engine.begin.2.commit orders (engine.beginWith entries)).2.2) := by
  rw [writePhase, withWriteTxn_of_ok rfl]
  rfl

/-- With nothing in between, the phases of a statement are the statement. -/
theorem execute_plan (engine : DatabaseEngine) (orders : CommitOrders) (tableName : String) (statement : RowStatement) :
    engine.execute orders (statement.plan tableName) =
      match engine.readPhase tableName statement with
      | (.error err, after) => (.error err, after)
      | (.ok entries, after) =>
          if statement.skipsWrite entries then (.ok 0, after) else after.writePhase orders entries := by
  cases htable : findTable tableName engine.tables with
  | none => cases statement <;> simp only [RowStatement.plan, execute, readPhase, htable]
  | some table =>
      cases statement with
      | insert rows =>
          have hlength : (insertEntries tableName table.rowCount rows).length = rows.length := by
            simp [insertEntries]
          simp [RowStatement.plan, execute, readPhase, htable, RowStatement.skipsWrite, writePhase, hlength]
      | update assignments filter =>
          cases hentries : updateEntries tableName assignments (engine.selectRows table filter) with
          | none => simp only [RowStatement.plan, execute, readPhase, htable, hentries]
          | some entries =>
              simp only [RowStatement.plan, execute, readPhase, htable, hentries, RowStatement.skipsWrite,
                writeEntries, writePhase]
              rfl
      | delete filter =>
          simp only [RowStatement.plan, execute, readPhase, htable, RowStatement.skipsWrite, writeEntries, writePhase]
          rfl

end DatabaseEngine

/-! ### Threads -/

/-- Where a statement stands: it has not read, it has its entries, or it is done with what it wrote. -/
inductive StatementPhase where
  | ready
  | computed (entries : List WriteEntry)
  | done (written : List WriteEntry) (result : Except HelionError Nat)

/-- A statement on its way, with the hash orders of the commit it will run. -/
structure StatementThread where
  tableName : String
  statement : RowStatement
  orders : CommitOrders
  phase : StatementPhase

namespace StatementThread

/-- The statement returned Ok. -/
def isOk (thread : StatementThread) : Bool :=
  match thread.phase with
  | .done _ (.ok _) => true
  | _ => false

/-- The next phase of a statement. -/
def advance (thread : StatementThread) (engine : DatabaseEngine) : StatementThread × DatabaseEngine :=
  match thread.phase with
  | .ready =>
      match engine.readPhase thread.tableName thread.statement with
      | (.error err, after) => ({ thread with phase := .done [] (.error err) }, after)
      | (.ok entries, after) =>
          if thread.statement.skipsWrite entries then ({ thread with phase := .done [] (.ok 0) }, after)
          else ({ thread with phase := .computed entries }, after)
  | .computed entries =>
      let written := engine.writePhase thread.orders entries
      ({ thread with phase := .done entries written.1 }, written.2)
  | .done _ _ => (thread, engine)

/-- What a phase of a statement can do. -/
inductive Advance (thread : StatementThread) (engine : DatabaseEngine) : StatementThread → DatabaseEngine → Prop
  | fail (err : HelionError) (hphase : thread.phase = .ready)
      (hread : (engine.readPhase thread.tableName thread.statement).1 = .error err) :
      Advance thread engine { thread with phase := .done [] (.error err) }
        (engine.readPhase thread.tableName thread.statement).2
  | skip (entries : List WriteEntry) (hphase : thread.phase = .ready)
      (hread : (engine.readPhase thread.tableName thread.statement).1 = .ok entries)
      (hskips : thread.statement.skipsWrite entries = true) :
      Advance thread engine { thread with phase := .done [] (.ok 0) }
        (engine.readPhase thread.tableName thread.statement).2
  | read (entries : List WriteEntry) (hphase : thread.phase = .ready)
      (hread : (engine.readPhase thread.tableName thread.statement).1 = .ok entries)
      (hwrites : thread.statement.skipsWrite entries = false) :
      Advance thread engine { thread with phase := .computed entries }
        (engine.readPhase thread.tableName thread.statement).2
  | write (entries : List WriteEntry) (hphase : thread.phase = .computed entries) :
      Advance thread engine { thread with phase := .done entries (engine.writePhase thread.orders entries).1 }
        (engine.writePhase thread.orders entries).2
  | idle (written : List WriteEntry) (result : Except HelionError Nat) (hphase : thread.phase = .done written result) :
      Advance thread engine thread engine

theorem advance_spec (thread : StatementThread) (engine : DatabaseEngine) :
    Advance thread engine (thread.advance engine).1 (thread.advance engine).2 := by
  obtain ⟨tableName, statement, orders, phase⟩ := thread
  cases phase with
  | ready =>
      simp only [advance]
      split
      · rename_i err after hread
        have hspec := @Advance.fail ⟨tableName, statement, orders, .ready⟩ engine err rfl (by rw [hread])
        rwa [hread] at hspec
      · rename_i entries after hread
        split
        · rename_i hskips
          have hspec := @Advance.skip ⟨tableName, statement, orders, .ready⟩ engine entries rfl (by rw [hread]) hskips
          rwa [hread] at hspec
        · rename_i hwrites
          have hspec := @Advance.read ⟨tableName, statement, orders, .ready⟩ engine entries rfl (by rw [hread])
            (Bool.eq_false_iff.mpr hwrites)
          rwa [hread] at hspec
  | computed entries => exact .write entries rfl
  | done written result => exact .idle written result rfl

end StatementThread

/-- An engine and the statements on their way. -/
structure StatementMachine where
  engine : DatabaseEngine
  threads : List StatementThread

namespace StatementMachine

/-- The thread at a position takes its next phase. -/
def step (machine : StatementMachine) (position : Nat) : StatementMachine :=
  match machine.threads[position]? with
  | none => machine
  | some thread =>
      let next := thread.advance machine.engine
      { engine := next.2, threads := machine.threads.set position next.1 }

/-- Statements on one table, none of which has read. -/
def ready (engine : DatabaseEngine) (tableName : String) (statements : List (RowStatement × CommitOrders)) :
    StatementMachine :=
  { engine
    threads := statements.map fun (statement, orders) => { tableName, statement, orders, phase := .ready } }

theorem step_of_thread {machine : StatementMachine} {position : Nat} {thread : StatementThread}
    (hthread : machine.threads[position]? = some thread) :
    machine.step position = { engine := (thread.advance machine.engine).2
                              threads := machine.threads.set position (thread.advance machine.engine).1 } := by
  simp only [step, hthread]

theorem step_of_none {machine : StatementMachine} {position : Nat} (hthread : machine.threads[position]? = none) :
    machine.step position = machine := by
  simp only [step, hthread]

theorem set_same {threads : List StatementThread} {position : Nat} {thread : StatementThread}
    (hthread : threads[position]? = some thread) : threads.set position thread = threads := by
  obtain ⟨hlt, rfl⟩ := List.getElem?_eq_some_iff.mp hthread
  exact List.set_getElem_self hlt

/-- What one thread adds to a list of the machine's threads is what its phase adds. -/
theorem flatMap_set_perm {β : Type} (f : StatementThread → List β) {threads : List StatementThread} {position : Nat}
    {thread : StatementThread} (hthread : threads[position]? = some thread) (hnone : f thread = [])
    (next : StatementThread) : ((threads.set position next).flatMap f).Perm (threads.flatMap f ++ f next) := by
  obtain ⟨hlt, rfl⟩ := List.getElem?_eq_some_iff.mp hthread
  have hsplit : threads = threads.take position ++ threads[position] :: threads.drop (position + 1) := by
    rw [List.cons_getElem_drop_succ, List.take_append_drop]
  have hthreads : threads.flatMap f = (threads.take position).flatMap f ++ (threads.drop (position + 1)).flatMap f := by
    conv_lhs => rw [hsplit]
    rw [List.flatMap_append, List.flatMap_cons, hnone, List.nil_append]
  rw [List.set_eq_take_append_cons_drop, if_pos hlt, hthreads, List.flatMap_append, List.flatMap_cons, List.append_assoc]
  exact List.perm_append_comm.append_left _

end StatementMachine

end HelionDb
