import HelionDb.Chains
import HelionDb.Commit
import HelionDb.Executor
import HelionDb.Reach

/-! Serial runs of the engine: statements, write transactions, checkpoints, shutdowns and reopens, one
after another, each of which may fail. `Transition` says once what a call can do to the engine; every
invariant of serial runs is a case analysis of it. -/

namespace HelionDb

inductive SerialOp where
  | execute (plan : LogicalPlan)
  | writeTxn (f : Transaction → List Table → Except HelionError (List WriteEntry))
  | readTxn
  | checkpoint
  | shutdown
  | reopen (defaultEngine : String) (loaded : String → Option Table)

/-- A call together with the hash orders of the commit it may run. -/
structure SerialCall where
  op : SerialOp
  orders : CommitOrders

namespace DatabaseEngine

/-- An engine opened on an empty directory. -/
def fresh (defaultEngine : String) : DatabaseEngine :=
  { tables := [], catalog := Catalog.openSaved none defaultEngine fun _ => none, mvcc := .withStartId 1,
    walOld := [], wal := [] }

theorem openWithDurability_empty (defaultEngine : String) :
    openWithDurability [] [] none defaultEngine (fun _ => none) = .ok (fresh defaultEngine) := rfl

/-- One serial call. A reopen that fails leaves the directory as it was. -/
def serialStep (engine : DatabaseEngine) (call : SerialCall) : DatabaseEngine :=
  match call.op with
  | .execute plan => (engine.execute call.orders plan).2
  | .writeTxn f => (engine.withWriteTxn call.orders f).2
  | .readTxn => engine.readSnapshot.2
  | .checkpoint => engine.writeCheckpoint
  | .shutdown => engine.shutdown
  | .reopen defaultEngine loaded =>
      match openWithDurability engine.walOld engine.wal engine.catalog.saved defaultEngine loaded with
      | .ok next => next
      | .error _ => engine

/-- The engines that guarded serial runs on an initially empty directory reach. -/
def SerialReachable (guard : DatabaseEngine → SerialCall → Prop) (engine : DatabaseEngine) : Prop :=
  ∃ defaultEngine, Reaches serialStep guard (fresh defaultEngine) engine

/-- The transaction that `begin` hands out, with its writes buffered. -/
def beginWith (engine : DatabaseEngine) (entries : List WriteEntry) : Transaction :=
  { engine.begin.1 with writeSet := entries }

theorem foldl_addWrite (entries : List WriteEntry) (tx : Transaction) :
    entries.foldl Transaction.addWrite tx = { tx with writeSet := tx.writeSet ++ entries } := by
  induction entries generalizing tx with
  | nil => simp
  | cons entry rest ih => rw [List.foldl_cons, ih, Transaction.addWrite, List.append_assoc]; rfl

theorem withWriteTxn_of_ok {engine : DatabaseEngine} {orders : CommitOrders}
    {f : Transaction → List Table → Except HelionError (List WriteEntry)} {entries : List WriteEntry}
    (hf : f engine.begin.1 engine.tables = .ok entries) :
    engine.withWriteTxn orders f =
      ((engine.begin.2.commit orders (engine.beginWith entries)).1,
        (engine.begin.2.commit orders (engine.beginWith entries)).2.2) := by
  rw [withWriteTxn, hf]
  dsimp only
  rw [foldl_addWrite]
  rfl

/-- The write transaction that a call commits: the engine it begins on, and its entries. -/
def commitOf (engine : DatabaseEngine) : SerialOp → Option (DatabaseEngine × List WriteEntry)
  | .execute (.insert tableName rows) =>
      (findTable tableName engine.tables).map fun table =>
        (engine, insertEntries tableName table.rowCount rows)
  | .execute (.update tableName assignments filter) =>
      (findTable tableName engine.tables).bind fun table =>
        (updateEntries tableName assignments (engine.selectRows table filter)).bind fun entries =>
          if entries.isEmpty then none else some (engine.readSnapshot.2, entries)
  | .execute (.delete tableName filter) =>
      (findTable tableName engine.tables).bind fun table =>
        let entries := deleteEntries tableName (engine.selectRows table filter)
        if entries.isEmpty then none else some (engine.readSnapshot.2, entries)
  | .writeTxn f => (f engine.begin.1 engine.tables).toOption.map fun entries => (engine, entries)
  | _ => none

/-- The transaction that a call commits, and the engine it commits it on. -/
def pending (engine : DatabaseEngine) (op : SerialOp) : Option (DatabaseEngine × Transaction) :=
  (engine.commitOf op).map fun commit => (commit.1.begin.2, commit.1.beginWith commit.2)

theorem commitOf_start {engine : DatabaseEngine} {op : SerialOp} {start : DatabaseEngine} {entries : List WriteEntry}
    (h : engine.commitOf op = some (start, entries)) : start = engine ∨ start = engine.readSnapshot.2 := by
  unfold commitOf at h
  split at h
  · obtain ⟨table, -, heq⟩ := Option.map_eq_some_iff.mp h
    exact Or.inl (Prod.mk.inj heq).1.symm
  · obtain ⟨table, -, h⟩ := Option.bind_eq_some_iff.mp h
    obtain ⟨selected, -, h⟩ := Option.bind_eq_some_iff.mp h
    split at h
    · cases h
    · exact Or.inr (Prod.mk.inj (Option.some.inj h)).1.symm
  · obtain ⟨table, -, h⟩ := Option.bind_eq_some_iff.mp h
    dsimp only at h
    split at h
    · cases h
    · exact Or.inr (Prod.mk.inj (Option.some.inj h)).1.symm
  · obtain ⟨given, -, heq⟩ := Option.map_eq_some_iff.mp h
    exact Or.inl (Prod.mk.inj heq).1.symm
  · cases h

/-- Up to its commit a call only begins transactions. -/
theorem pending_frame {engine begun : DatabaseEngine} {op : SerialOp} {tx : Transaction}
    (h : engine.pending op = some (begun, tx)) :
    begun = { engine with mvcc := begun.mvcc } ∧ tx.status = .inProgress := by
  obtain ⟨⟨start, entries⟩, hcommit, heq⟩ := Option.map_eq_some_iff.mp h
  obtain ⟨rfl, rfl⟩ := Prod.mk.inj heq
  rcases commitOf_start hcommit with rfl | rfl <;> exact ⟨rfl, rfl⟩

/-- What handing out an id does to the store: the counter steps, and only that id may become active or
stop being it. -/
structure IdStep (store next : MvccStore) : Prop where
  counter : next.nextTxid = (store.nextTxid + 1) % 2 ^ 64
  active : next.activeTxns ⊆ insert store.nextTxid store.activeTxns
  kept : store.activeTxns.erase store.nextTxid ⊆ next.activeTxns

/-- What one serial call can do. -/
inductive Transition (engine : DatabaseEngine) (call : SerialCall) : DatabaseEngine → Prop
  | same : Transition engine call engine
  | ids (mvcc : MvccStore) (hids : IdStep engine.mvcc mvcc) : Transition engine call { engine with mvcc }
  | write (start : DatabaseEngine) (entries : List WriteEntry)
      (hcommit : engine.commitOf call.op = some (start, entries))
      (hstart : start = engine ∨ start = engine.readSnapshot.2) :
      Transition engine call (start.begin.2.commit call.orders (start.beginWith entries)).2.2
  | create (name : String) (columns : List ColumnMeta) (engineName : String) (catalog : Catalog)
      (hfresh : ∀ table ∈ engine.tables, eqIgnoreAsciiCase table.name name = false)
      (hcatalog : engine.catalog.createTable name columns engineName = .ok catalog) :
      Transition engine call { engine with
        catalog, tables := engine.tables ++ [Table.new name columns],
        wal := engine.wal ++ [.createTable name columns] }
  | drop (name : String) (catalog : Catalog) (hcatalog : engine.catalog.dropTable name = .ok catalog) :
      Transition engine call { engine with
        catalog, tables := engine.tables.filter fun table => !eqIgnoreAsciiCase table.name name,
        wal := engine.wal ++ [.dropTable name] }
  | migrate (name targetEngine : String) :
      Transition engine call { engine with catalog := (engine.catalog.migrateTable name targetEngine).2 }
  | createIndex (tableName : String) (table next : Table) (name : String) (columns : List Nat)
      (unique : Bool) (htable : findTable tableName engine.tables = some table)
      (hnext : table.addIndex name columns unique = .ok next) :
      Transition engine call { engine with tables := updateTable tableName (fun _ => next) engine.tables }
  | dropIndex (tableName : String) (table next : Table) (name : String) (ifExists : Bool)
      (hop : call.op = .execute (.dropIndex name tableName ifExists))
      (htable : findTable tableName engine.tables = some table) (hnext : table.dropIndex name = .ok next) :
      Transition engine call { engine with tables := updateTable tableName (fun _ => next) engine.tables }
  | checkpoint : Transition engine call engine.writeCheckpoint
  | shutdown : Transition engine call engine.shutdown
  | reopen (defaultEngine : String) (loaded : String → Option Table) (next : DatabaseEngine)
      (hop : call.op = .reopen defaultEngine loaded)
      (hopen : openWithDurability engine.walOld engine.wal engine.catalog.saved defaultEngine loaded = .ok next) :
      Transition engine call next

section Cases

variable (engine : DatabaseEngine) (orders : CommitOrders) {call : SerialCall}

theorem begin_idStep : IdStep engine.mvcc engine.begin.2.mvcc :=
  ⟨rfl, Finset.Subset.refl _, (Finset.erase_subset _ _).trans (Finset.subset_insert _ _)⟩

theorem readSnapshot_idStep : IdStep engine.mvcc engine.readSnapshot.2.mvcc :=
  ⟨rfl, Finset.erase_subset _ _, Finset.erase_subset_erase _ (Finset.subset_insert _ _)⟩

private theorem createTable_transition (name : String) (columns : List ColumnMeta)
    (engineName : Option String) : Transition engine call (engine.createTable name columns engineName).2 := by
  unfold createTable
  split
  · exact .same
  · rename_i hfresh
    dsimp only
    split
    · exact .same
    · rename_i catalog hcatalog
      refine .create name columns _ catalog (fun table htable => ?_) hcatalog
      simpa using List.any_eq_false.mp (Bool.not_eq_true _ ▸ hfresh) table htable

private theorem dropTable_transition (name : String) : Transition engine call (engine.dropTable name).2 := by
  unfold dropTable
  split
  · split
    · exact .same
    · rename_i catalog hcatalog
      exact .drop name catalog hcatalog
  · exact .same

private theorem executeCreateIndex_transition (name tableName : String) (columns : List String)
    (unique ifNotExists : Bool) :
    Transition engine call (engine.executeCreateIndex name tableName columns unique ifNotExists).2 := by
  unfold executeCreateIndex
  split
  · exact .same
  · rename_i table htable
    split
    · split <;> exact .same
    · split
      · exact .same
      · split
        · exact .same
        · rename_i next hnext
          exact .createIndex tableName table next name _ unique htable hnext

private theorem executeDropIndex_transition (name tableName : String) (ifExists : Bool)
    (hop : call.op = .execute (.dropIndex name tableName ifExists)) :
    Transition engine call (engine.executeDropIndex name tableName ifExists).2 := by
  unfold executeDropIndex
  split
  · split <;> exact .same
  · rename_i table htable
    split
    · split <;> exact .same
    · rename_i next hnext
      exact .dropIndex tableName table next name ifExists hop htable hnext

/-- A statement over selected rows: it reads, and writes unless there is nothing to write. -/
private theorem writeEntries_transition (entries : List WriteEntry)
    (hcommit : entries ≠ [] → engine.commitOf call.op = some (engine.readSnapshot.2, entries)) :
    Transition engine call (engine.readSnapshot.2.writeEntries call.orders entries).2 := by
  unfold writeEntries
  split
  · exact .ids _ (readSnapshot_idStep engine)
  · rename_i hempty
    rw [affecting, withWriteTxn_of_ok rfl]
    exact .write _ entries (hcommit fun heq => hempty (heq ▸ rfl)) (Or.inr rfl)

private theorem execute_transition (plan : LogicalPlan) (hop : call.op = .execute plan) :
    Transition engine call (engine.execute call.orders plan).2 := by
  cases plan with
  | createTable name columns engineName => exact createTable_transition engine name columns engineName
  | dropTable name ifExists =>
      have hdrop := @dropTable_transition engine call name
      simp only [execute]
      split
      · split <;> exact hdrop
      · exact hdrop
  | alterTableEngine name targetEngine => exact .migrate name targetEngine
  | insert tableName rows =>
      simp only [execute]
      split
      · exact .same
      · rename_i table htable
        rw [affecting, withWriteTxn_of_ok rfl]
        exact .write engine _ (by rw [hop, commitOf, htable]; rfl) (Or.inl rfl)
  | update tableName assignments filter =>
      simp only [execute]
      split
      · exact .same
      · rename_i table htable
        split
        · exact .ids _ (readSnapshot_idStep engine)
        · rename_i entries hentries
          refine writeEntries_transition engine entries fun hempty => ?_
          simp [hop, commitOf, htable, hentries, hempty]
  | delete tableName filter =>
      simp only [execute]
      split
      · exact .same
      · rename_i table htable
        refine writeEntries_transition engine _ fun hempty => ?_
        simp [hop, commitOf, htable, hempty]
  | createIndex name tableName columns unique ifNotExists =>
      exact executeCreateIndex_transition engine name tableName columns unique ifNotExists
  | dropIndex name tableName ifExists => exact executeDropIndex_transition engine name tableName ifExists hop

/-- Every serial call is one of the transitions. -/
theorem serialStep_transition (call : SerialCall) : Transition engine call (engine.serialStep call) := by
  unfold serialStep
  split
  · rename_i plan hop
    exact execute_transition engine plan hop
  · rename_i f hop
    cases hf : f engine.begin.1 engine.tables with
    | error err =>
        have herror : engine.withWriteTxn call.orders f = (.error err, engine.begin.2) := by
          rw [withWriteTxn, hf]
        rw [herror]
        exact .ids _ (begin_idStep engine)
    | ok entries =>
        rw [withWriteTxn_of_ok hf]
        exact .write engine entries (by rw [hop, commitOf, hf]; rfl) (Or.inl rfl)
  · exact .ids _ (readSnapshot_idStep engine)
  · exact .checkpoint
  · exact .shutdown
  · rename_i defaultEngine loaded hop
    split
    · rename_i next hopen
      exact .reopen defaultEngine loaded next hop hopen
    · exact .same

end Cases

end DatabaseEngine

end HelionDb
