import HelionDb.IndexMaintenance

/-! Commits and checkpoints whose steps interleave. A commit takes a copy of the tables, checks it for
conflicts and for uniqueness, appends to the log, applies to the storage engines and installs in memory;
each of these is one step, and other threads may run in between. A checkpoint copies the tables and appends
the copy to the log later. Run alone, the steps of a commit are the whole commit. -/

namespace HelionDb

/-- Where a commit stands, with the copy it works on. -/
inductive CommitPhase where
  | ready
  | cloned (copy : List Table)
  | conflictFree (copy : List Table)
  | uniqueChecked (copy : List Table)
  | logged (copy : List Table)
  | stored (copy : List Table)
  | done (result : Except HelionError Unit)

/-- A transaction on its way through a commit. -/
structure CommitThread where
  tx : Transaction
  orders : CommitOrders
  phase : CommitPhase

namespace CommitThread

/-- The commit returned Ok. -/
def isOk (thread : CommitThread) : Bool :=
  match thread.phase with
  | .done (.ok ()) => true
  | _ => false

/-- The transaction as it was handed to the commit. -/
def request (thread : CommitThread) : Transaction := { thread.tx with status := .inProgress }

/-- The thread after its commit returned Ok. -/
def committed (thread : CommitThread) : CommitThread :=
  { thread with tx := { thread.tx with status := .committed }, phase := .done (.ok ()) }

theorem request_committed {thread : CommitThread} (hrunning : thread.tx.status = .inProgress) :
    thread.committed.request = thread.tx := by rw [request, committed, ← hrunning]

/-- The next step of a commit. -/
def advance (thread : CommitThread) (engine : DatabaseEngine) : CommitThread × DatabaseEngine :=
  match thread.phase with
  | .ready =>
      if thread.tx.status ≠ .inProgress then
        ({ thread with phase := .done (.error (.transaction
          ("Transaction " ++ toString thread.tx.txId ++ " is not in progress"))) }, engine)
      else ({ thread with phase := .cloned engine.tables }, engine)
  | .cloned copy =>
      match checkConflicts thread.tx (snapshotTables copy) with
      | .error _ =>
          ({ thread with
              tx := { thread.tx with status := .aborted }
              phase := .done (.error (.conflict thread.tx.txId)) },
            { engine with mvcc := engine.mvcc.rollbackTransaction thread.tx })
      | .ok () => ({ thread with phase := .conflictFree copy }, engine)
  | .conflictFree copy =>
      match checkUniqueWrites thread.tx (snapshotTables copy) with
      | .error err => ({ thread with phase := .done (.error err) }, engine)
      | .ok () => ({ thread with phase := .uniqueChecked copy }, engine)
  | .uniqueChecked copy => ({ thread with phase := .logged copy }, engine.logWrites thread.tx)
  | .logged copy =>
      let stored := applyToEngines thread.orders.engines thread.tx (snapshotTables copy) engine.catalog
      match stored.1 with
      | .error err => ({ thread with phase := .done (.error err) }, { engine with catalog := stored.2 })
      | .ok () => ({ thread with phase := .stored copy }, { engine with catalog := stored.2 })
  | .stored copy =>
      let installed := installWrites thread.orders.memory thread.tx (snapshotTables copy) engine.tables
      match installed.1 with
      | .error err => ({ thread with phase := .done (.error err) }, { engine with tables := installed.2 })
      | .ok () =>
          (thread.committed,
            { engine with tables := installed.2, mvcc := engine.mvcc.commitTransaction thread.tx })
  | .done _ => (thread, engine)

/-- What a step of a commit can do. -/
inductive Advance (thread : CommitThread) (engine : DatabaseEngine) : CommitThread → DatabaseEngine → Prop
  | refuse (tx : Transaction) (err : HelionError) (mvcc : MvccStore) (hopen : thread.isOk = false) :
      Advance thread engine { thread with tx, phase := .done (.error err) } { engine with mvcc }
  | clone (hphase : thread.phase = .ready) (hrunning : thread.tx.status = .inProgress) :
      Advance thread engine { thread with phase := .cloned engine.tables } engine
  | conflictFree (copy : List Table) (hphase : thread.phase = .cloned copy)
      (hcheck : checkConflicts thread.tx (snapshotTables copy) = .ok ()) :
      Advance thread engine { thread with phase := .conflictFree copy } engine
  | uniqueChecked (copy : List Table) (hphase : thread.phase = .conflictFree copy)
      (hcheck : checkUniqueWrites thread.tx (snapshotTables copy) = .ok ()) :
      Advance thread engine { thread with phase := .uniqueChecked copy } engine
  | log (copy : List Table) (hphase : thread.phase = .uniqueChecked copy) :
      Advance thread engine { thread with phase := .logged copy } (engine.logWrites thread.tx)
  | store (copy : List Table) (catalog : Catalog) (hphase : thread.phase = .logged copy)
      (hrouting : catalog.SameRouting engine.catalog) :
      Advance thread engine { thread with phase := .stored copy } { engine with catalog }
  | storeFail (err : HelionError) (catalog : Catalog) (hopen : thread.isOk = false)
      (hrouting : catalog.SameRouting engine.catalog) :
      Advance thread engine { thread with phase := .done (.error err) } { engine with catalog }
  | install (copy : List Table) (hphase : thread.phase = .stored copy)
      (hok : (installWrites thread.orders.memory thread.tx (snapshotTables copy) engine.tables).1 = .ok ()) :
      Advance thread engine thread.committed
        { engine with
          tables := (installWrites thread.orders.memory thread.tx (snapshotTables copy) engine.tables).2
          mvcc := engine.mvcc.commitTransaction thread.tx }
  | installFail (copy : List Table) (err : HelionError) (hphase : thread.phase = .stored copy)
      (hfail : (installWrites thread.orders.memory thread.tx (snapshotTables copy) engine.tables).1 = .error err) :
      Advance thread engine { thread with phase := .done (.error err) }
        { engine with
          tables := (installWrites thread.orders.memory thread.tx (snapshotTables copy) engine.tables).2 }
  | idle (result : Except HelionError Unit) (hphase : thread.phase = .done result) :
      Advance thread engine thread engine

theorem advance_spec (thread : CommitThread) (engine : DatabaseEngine) :
    Advance thread engine (thread.advance engine).1 (thread.advance engine).2 := by
  obtain ⟨tx, orders, phase⟩ := thread
  unfold CommitThread.advance
  cases phase with
  | ready =>
      dsimp only
      split
      · exact .refuse tx _ engine.mvcc rfl
      · rename_i hrunning
        exact .clone rfl (not_not.mp hrunning)
  | cloned copy =>
      dsimp only
      split
      · exact .refuse _ _ _ rfl
      · rename_i hcheck
        exact .conflictFree copy rfl hcheck
  | conflictFree copy =>
      dsimp only
      split
      · exact .refuse tx _ engine.mvcc rfl
      · rename_i hcheck
        exact .uniqueChecked copy rfl hcheck
  | uniqueChecked copy => exact .log copy rfl
  | logged copy =>
      have hrouting := applyToEngines_sameRouting orders.engines tx (snapshotTables copy) engine.catalog
      dsimp only
      split
      · exact .storeFail _ _ rfl hrouting
      · exact .store copy _ rfl hrouting
  | stored copy =>
      dsimp only
      split
      · rename_i hfail
        exact .installFail copy _ rfl hfail
      · rename_i hok
        exact .install copy rfl hok
  | done result => exact .idle result rfl

/-- The next step of a thread that runs alone. -/
def advanceAlone (alone : CommitThread × DatabaseEngine) : CommitThread × DatabaseEngine :=
  alone.1.advance alone.2

/-- With nothing in between, the steps of a commit are the commit. -/
theorem advanceAlone_commit (engine : DatabaseEngine) (orders : CommitOrders) (tx : Transaction) :
    advanceAlone^[6] ({ tx, orders, phase := .ready }, engine) =
      ({ tx := (engine.commit orders tx).2.1, orders, phase := .done (engine.commit orders tx).1 },
        (engine.commit orders tx).2.2) := by
  have hdone : ∀ (count : Nat) (thread : CommitThread) (engine : DatabaseEngine) (result : Except HelionError Unit),
      thread.phase = .done result → advanceAlone^[count] (thread, engine) = (thread, engine) := by
    intro count thread engine result hphase
    refine Function.iterate_fixed ?_ count
    simp only [advanceAlone, advance, hphase]
  rw [Function.iterate_succ_apply, advanceAlone]
  dsimp only [advance]
  by_cases hstatus : tx.status = .inProgress
  · rw [if_neg (not_not.mpr hstatus), Function.iterate_succ_apply, advanceAlone]
    dsimp only [advance]
    cases hconflicts : checkConflicts tx (snapshotTables engine.tables) with
    | error other =>
        rw [hdone _ _ _ _ rfl, DatabaseEngine.commit, if_neg (not_not.mpr hstatus), hconflicts]
    | ok u =>
        rw [Function.iterate_succ_apply, advanceAlone]
        dsimp only [advance]
        cases hunique : checkUniqueWrites tx (snapshotTables engine.tables) with
        | error err =>
            rw [hdone _ _ _ _ rfl, DatabaseEngine.commit, if_neg (not_not.mpr hstatus), hconflicts, hunique]
        | ok u =>
            rw [DatabaseEngine.commit_of_accepted hstatus ⟨hconflicts, hunique⟩, Function.iterate_succ_apply,
              advanceAlone, Function.iterate_succ_apply, advanceAlone]
            dsimp only [advance, DatabaseEngine.commitChecked]
            cases hstored : (applyToEngines orders.engines tx (snapshotTables engine.tables)
                (engine.logWrites tx).catalog).1 with
            | error err => rw [hdone _ _ _ _ rfl]
            | ok u =>
                rw [Function.iterate_succ_apply, advanceAlone, Function.iterate_zero_apply]
                dsimp only [advance]
                cases hinstalled : (installWrites orders.memory tx (snapshotTables engine.tables)
                    (engine.logWrites tx).tables).1 <;> rfl
  · rw [if_pos hstatus, hdone _ _ _ _ rfl, DatabaseEngine.commit, if_pos hstatus]

end CommitThread

/-! ### The machine -/

/-- An engine, the commits on their way, and the copies of checkpoints that are not appended yet. -/
structure Machine where
  engine : DatabaseEngine
  threads : List CommitThread
  copies : List (List Table)

inductive MachineOp where
  | begin (entries : List WriteEntry) (orders : CommitOrders)
  | advance (position : Nat)
  | checkpointCopy
  | checkpointAppend (position : Nat)

namespace Machine

def step (machine : Machine) : MachineOp → Machine
  | .begin entries orders =>
      { machine with
        engine := machine.engine.begin.2
        threads := machine.threads ++ [{ tx := machine.engine.beginWith entries, orders, phase := .ready }] }
  | .advance position =>
      match machine.threads[position]? with
      | none => machine
      | some thread =>
          let next := thread.advance machine.engine
          { machine with engine := next.2, threads := machine.threads.set position next.1 }
  | .checkpointCopy => { machine with copies := machine.copies ++ [machine.engine.tables] }
  | .checkpointAppend position =>
      match machine.copies[position]? with
      | none => machine
      | some copy =>
          { machine with
            engine := { machine.engine with
              wal := machine.engine.wal ++ [DatabaseEngine.checkpointRecord copy] }
            copies := machine.copies.eraseIdx position }

/-- A machine on an engine before any of its commits. -/
def idle (engine : DatabaseEngine) : Machine := { engine, threads := [], copies := [] }

/-- A step begins a transaction, advances a commit, copies the tables, appends a copy, or does nothing. -/
theorem step_cases (machine : Machine) (op : MachineOp) :
    (∃ entries orders, op = .begin entries orders ∧ machine.step op = { machine with
        engine := machine.engine.begin.2
        threads := machine.threads ++ [{ tx := machine.engine.beginWith entries, orders, phase := .ready }] }) ∨
    (∃ position thread, op = .advance position ∧ machine.threads[position]? = some thread ∧
      machine.step op = { machine with
        engine := (thread.advance machine.engine).2
        threads := machine.threads.set position (thread.advance machine.engine).1 }) ∨
    (op = .checkpointCopy ∧ machine.step op = { machine with copies := machine.copies ++ [machine.engine.tables] }) ∨
    (∃ position copy, op = .checkpointAppend position ∧ machine.copies[position]? = some copy ∧
      machine.step op = { machine with
        engine := { machine.engine with
          wal := machine.engine.wal ++ [DatabaseEngine.checkpointRecord copy] }
        copies := machine.copies.eraseIdx position }) ∨
    machine.step op = machine := by
  cases op with
  | begin entries orders => exact Or.inl ⟨entries, orders, rfl, rfl⟩
  | advance position =>
      cases hthread : machine.threads[position]? with
      | none => exact Or.inr (Or.inr (Or.inr (Or.inr (by simp only [step, hthread]))))
      | some thread =>
          exact Or.inr (Or.inl ⟨position, thread, rfl, hthread, by simp only [step, hthread]⟩)
  | checkpointCopy => exact Or.inr (Or.inr (Or.inl ⟨rfl, rfl⟩))
  | checkpointAppend position =>
      cases hcopy : machine.copies[position]? with
      | none => exact Or.inr (Or.inr (Or.inr (Or.inr (by simp only [step, hcopy]))))
      | some copy =>
          exact Or.inr (Or.inr (Or.inr (Or.inl ⟨position, copy, rfl, hcopy, by simp only [step, hcopy]⟩)))

end Machine

end HelionDb
