import HelionDb.Session

/-! The phases of a commit behind its log append. The checks in front of it do not see what storage
engines and index maintenance see: a key of NULLs, a key written twice by one transaction, an update of a
row that is not there or a table that no engine holds gets past them, into the log, and then fails. -/

namespace HelionDb

namespace DatabaseEngine

/-- The phases after the log append go through for a transaction: storage engines hold its tables, and
on each of them every key it adds is free, or its own, when its turn comes. -/
structure CommitSafe (engine : DatabaseEngine) (tx : Transaction) : Prop where
  held : ∀ name ∈ tx.tableNames, engine.catalog.Holds name
  maintained : ∀ name ∈ tx.tableNames, ∀ table, findTable name engine.tables = some table →
    MaintenanceAdmissible (snapshotTables engine.tables) (tx.entriesOf name) table

/-- The indexes after maintenance: the old ones, with the pair changes of the entries carried out. -/
def Maintained (snapshot : String → Option Table) (entries : List WriteEntry) (before after : List Index) :
    Prop :=
  List.Forall₂ (fun old new => new.definition = old.definition ∧
    new.pairs = KeyPairs.applyAll old.pairs (indexChanges snapshot old.definition entries)) before after

/-- What a commit that got through leaves behind. -/
structure Completes (engine : DatabaseEngine) (orders : CommitOrders) (tx : Transaction) : Prop where
  ok : (engine.commit orders tx).1 = .ok ()
  chains : ∀ name, (engine.commit orders tx).2.2.chainsOf name = engine.placedChains tx name
  indexes : ∀ name table, findTable name engine.tables = some table →
    ∃ after, findTable name (engine.commit orders tx).2.2.tables = some after ∧
      Maintained (snapshotTables engine.tables) (tx.entriesOf name) table.indexes after.indexes
  inactive : tx.txId ∉ (engine.commit orders tx).2.2.mvcc.activeTxns

variable {engine : DatabaseEngine} {orders : CommitOrders} {tx : Transaction}

theorem maintained_nil (snapshot : String → Option Table) (indexes : List Index) :
    Maintained snapshot [] indexes indexes :=
  List.forall₂_same.mpr fun _ _ => ⟨rfl, rfl⟩

theorem exists_of_maintained {snapshot : String → Option Table} {entries : List WriteEntry}
    {before after : List Index} (h : Maintained snapshot entries before after) {new : Index} (hnew : new ∈ after) :
    ∃ old ∈ before, new.definition = old.definition ∧
      new.pairs = KeyPairs.applyAll old.pairs (indexChanges snapshot old.definition entries) := by
  induction h with
  | nil => cases hnew
  | cons hhead _ ih =>
      rcases List.mem_cons.mp hnew with rfl | hmem
      · exact ⟨_, List.mem_cons_self, hhead⟩
      · obtain ⟨old, hold, hspec⟩ := ih hmem
        exact ⟨old, List.mem_cons_of_mem _ hold, hspec⟩

theorem maintained_installOn {snapshot : String → Option Table} {name : String} {chains : List Chain}
    {table : Table} (h : MaintenanceAdmissible snapshot (tx.entriesOf name) table) :
    Maintained snapshot (tx.entriesOf name) table.indexes (installOn tx snapshot name chains table).2.indexes := by
  rw [Maintained, installOn_indexes h, List.forall₂_map_right_iff]
  refine List.forall₂_same.mpr fun index hindex => ?_
  exact ⟨maintainIndex_definition _ _ _, pairs_maintainIndex (maintainIndex_ok_iff.mpr (h index hindex))⟩

theorem applyWriteSet_of_mem {snapshot : String → Option Table} {name : String} {copy : Table}
    (hname : name ∈ tx.tableNames) (hcopy : snapshot name = some copy) :
    applyWriteSet tx snapshot name =
      some (placeAll tx.txId copy.versionChains (tableChanges tx snapshot name)) := by
  rw [applyWriteSet, if_pos hname, hcopy, Option.map_some]

/-- An accepted commit returns Ok exactly when it is safe. -/
theorem commit_ok_iff (hwf : engine.WellFormed) (hrunning : tx.status = .inProgress)
    (haccept : ChecksAccept tx (snapshotTables engine.tables)) :
    (engine.commit orders tx).1 = .ok () ↔ engine.CommitSafe tx := by
  rw [commit_of_accepted hrunning haccept, commitChecked_ok_iff]
  constructor
  · rintro ⟨hheld, hmaintained⟩
    refine ⟨hheld, fun name hname table htable => ?_⟩
    have hchains := applyWriteSet_of_mem hname ((hwf.snapshotTables_eq name).trans htable)
    exact hmaintained name hname _ hchains table htable
  · rintro ⟨hheld, hmaintained⟩
    exact ⟨hheld, fun name hname _ _ table htable => hmaintained name hname table htable⟩

/-- After a commit that returned Ok every index holds its pairs under the changes of the transaction. -/
theorem maintained_commit (hwf : engine.WellFormed) (hok : (engine.commit orders tx).1 = .ok ()) {name : String}
    {table : Table} (htable : findTable name engine.tables = some table) :
    ∃ after, findTable name (engine.commit orders tx).2.2.tables = some after ∧
      Maintained (snapshotTables engine.tables) (tx.entriesOf name) table.indexes after.indexes := by
  obtain ⟨hinstalls, hinstalled, hcommit⟩ := commit_ok hok
  have hsafe := (commit_ok_iff hwf hinstalls.running hinstalls.accept).mp hok
  rw [hcommit]
  by_cases hname : name ∈ tx.tableNames
  · have hmem : name ∈ orders.memory.order tx.tableNames := orders.memory.mem_order.mpr hname
    have hdone := findTable_runAll_of_ok (orders.memory.nodup tx.nodup_tableNames) hmem hinstalled
    rw [findTable_installTable, applyWriteSet, if_pos hname, hwf.snapshotTables_eq, htable] at hdone
    exact ⟨_, hdone, maintained_installOn (hsafe.maintained name hname table htable)⟩
  · have hmem : name ∉ orders.memory.order tx.tableNames := fun h => hname (orders.memory.mem_order.mp h)
    refine ⟨table, (findTable_runAll_of_not_mem hmem).trans htable, ?_⟩
    rw [Transaction.entriesOf_eq_nil hname]
    exact maintained_nil _ _

theorem completes_of_ok (hwf : engine.WellFormed) (hok : (engine.commit orders tx).1 = .ok ()) :
    engine.Completes orders tx := by
  refine ⟨hok, chainsOf_commit_of_ok hwf hok, fun name table htable => maintained_commit hwf hok htable, ?_⟩
  rw [(commit_ok hok).2.2]
  exact Finset.notMem_erase _ _

theorem definitions_of_maintained {snapshot : String → Option Table} {entries : List WriteEntry}
    {before after : List Index} (h : Maintained snapshot entries before after) :
    after.map (·.definition) = before.map (·.definition) := by
  induction h with
  | nil => rfl
  | cons hhead _ ih => rw [List.map_cons, List.map_cons, hhead.1, ih]

/-- Maintenance goes through on every table under a safe commit, also on those it does not name. -/
theorem CommitSafe.maintenance (h : engine.CommitSafe tx) (hwf : engine.WellFormed) {table : Table}
    (htable : table ∈ engine.tables) :
    MaintenanceAdmissible (snapshotTables engine.tables) (tx.entriesOf table.name) table := by
  by_cases hname : table.name ∈ tx.tableNames
  · exact h.maintained table.name hname table (hwf.findTable_self htable)
  · rw [Transaction.entriesOf_eq_nil hname]
    exact fun index _ => ⟨by simp, trivial⟩

/-- Every table after a commit that returned Ok is a table from before with its writes installed. -/
theorem table_of_commit_ok (hwf : engine.WellFormed) (hok : (engine.commit orders tx).1 = .ok ())
    {after : Table} (hafter : after ∈ (engine.commit orders tx).2.2.tables) :
    ∃ table ∈ engine.tables, table.schema = after.schema ∧
      after.versionChains = placeAll tx.txId table.versionChains
        (tableChanges tx (snapshotTables engine.tables) table.name) ∧
      Maintained (snapshotTables engine.tables) (tx.entriesOf table.name) table.indexes after.indexes ∧
      MaintenanceAdmissible (snapshotTables engine.tables) (tx.entriesOf table.name) table := by
  have hcompletes := completes_of_ok hwf hok
  have hinstalls := (commit_ok hok).1
  have hsafe := (commit_ok_iff hwf hinstalls.running hinstalls.accept).mp hok
  have hschema : after.schema ∈ engine.tables.map Table.schema :=
    (commit_frame engine orders tx).1 ▸ List.mem_map_of_mem hafter
  obtain ⟨table, htable, heq⟩ := List.mem_map.mp hschema
  have hname : table.name = after.name := (Prod.mk.inj heq).1
  have hfound := hwf.findTable_self htable
  have hself : findTable table.name (engine.commit orders tx).2.2.tables = some after :=
    hname ▸ (hwf.commit orders tx).findTable_self hafter
  obtain ⟨found, hfoundAfter, hmaintained⟩ := hcompletes.indexes table.name table hfound
  obtain rfl : found = after := Option.some.inj (hfoundAfter.symm.trans hself)
  have hplaced := hcompletes.chains table.name
  rw [chainsOf, placedChains, chainsOf, hself, hfound] at hplaced
  exact ⟨table, htable, heq, Option.some.inj hplaced, hmaintained, hsafe.maintenance hwf htable⟩

theorem walRecords_ne_nil (tx : Transaction) : tx.walRecords ≠ [] := by simp [Transaction.walRecords]

/-- A commit whose checks pass goes through to its end exactly when it is safe; one that is not fails
with its records, the Commit record among them, in the log. -/
theorem commit_completes_iff {session : Session} (h : session.Reachable fun _ _ => True)
    (hrunning : tx.status = .inProgress) (haccept : ChecksAccept tx (snapshotTables session.engine.tables)) :
    (session.engine.Completes orders tx ↔ session.engine.CommitSafe tx) ∧
      (((session.engine.commit orders tx).1 ≠ .ok () → (session.engine.commit orders tx).2.2.wal =
        session.engine.wal) ↔ session.engine.CommitSafe tx) := by
  have hwf := h.sound.wellFormed
  have hok := @commit_ok_iff session.engine orders tx hwf hrunning haccept
  refine ⟨⟨fun hcompletes => hok.mp hcompletes.ok, fun hsafe => completes_of_ok hwf (hok.mpr hsafe)⟩, ?_⟩
  constructor
  · intro hunlogged
    by_contra hunsafe
    have hwal := hunlogged (mt hok.mp hunsafe)
    rw [commit_of_accepted hrunning haccept, (commitChecked_wal _ _ _ _).1] at hwal
    exact walRecords_ne_nil tx (List.append_right_eq_self.mp hwal)
  · exact fun hsafe hfailed => absurd (hok.mpr hsafe) hfailed

/-- A table with one UNIQUE column. -/
def uniqueColumnRun : List SerialCall :=
  [{ op := .execute (.createTable "t" [{ ColumnMeta.new "a" .integer with isUnique := true }] none)
     orders := .asGiven }]

/-- An INSERT of these values into the table. -/
def insertingRows (values : List Datum) : Transaction :=
  (uniqueColumnRun.foldl serialStep (fresh "disk")).beginWith
    (insertEntries "t" 0 (values.map fun value => { values := [value] }))

/-- The engine on which that INSERT commits. -/
def uniqueColumnEngine : DatabaseEngine := (uniqueColumnRun.foldl serialStep (fresh "disk")).begin.2

theorem uniqueColumnEngine_reachable :
    Session.Reachable (fun _ _ => True) { engine := uniqueColumnEngine, txs := [insertingRows []] } :=
  ⟨_, ⟨"disk", .foldl uniqueColumnRun _⟩, .single SessionOp.begin trivial⟩

/-- Two rows in the table, and a transaction that updates one, deletes the other and inserts a third. -/
def heldRowsRun : List SerialCall :=
  uniqueColumnRun ++
    [{ op := .execute (.insert "t" [{ values := [.integer 1] }, { values := [.integer 2] }]), orders := .asGiven }]

def heldRowsEngine : DatabaseEngine := (heldRowsRun.foldl serialStep (fresh "disk")).begin.2

def changesRows : Transaction :=
  (heldRowsRun.foldl serialStep (fresh "disk")).beginWith
    [{ tableName := "t", rowIdx := 0, oldTxidMax := u64Max, operation := .update { values := [.integer 3] } },
      { tableName := "t", rowIdx := 1, oldTxidMax := u64Max, operation := .delete },
      { tableName := "t", rowIdx := 2, oldTxidMax := u64Max, operation := .insert { values := [.integer 4] } }]

theorem commit_completes_changes : heldRowsEngine.Completes .asGiven changesRows := by
  have hreachable : Session.Reachable (fun _ _ => True)
      { engine := heldRowsEngine, txs := [(heldRowsRun.foldl serialStep (fresh "disk")).beginWith []] } :=
    ⟨_, ⟨"disk", .foldl heldRowsRun _⟩, .single SessionOp.begin trivial⟩
  have hsafe : heldRowsEngine.CommitSafe changesRows :=
    (@commit_ok_iff heldRowsEngine .asGiven _ hreachable.sound.wellFormed rfl ⟨rfl, rfl⟩).mp rfl
  exact (commit_completes_iff hreachable rfl ⟨rfl, rfl⟩).1.mpr hsafe

/-- Two NULL keys pass both checks and are logged with their Commit record; then the second one is
refused by the index, and the transaction stays active. -/
theorem commit_fails_two_nulls :
    Session.Reachable (fun _ _ => True) { engine := uniqueColumnEngine, txs := [insertingRows []] } ∧
      ChecksAccept (insertingRows [.null, .null]) (snapshotTables uniqueColumnEngine.tables) ∧
      (uniqueColumnEngine.commit .asGiven (insertingRows [.null, .null])).1 =
        .error (.internalFrom "Index insert failed after commit: " (.duplicateKey "uq_t_a" [.null])) ∧
      (uniqueColumnEngine.commit .asGiven (insertingRows [.null, .null])).2.2.wal =
        uniqueColumnEngine.wal ++ (insertingRows [.null, .null]).walRecords ∧
      (insertingRows [.null, .null]).txId ∈
        (uniqueColumnEngine.commit .asGiven (insertingRows [.null, .null])).2.2.mvcc.activeTxns :=
  ⟨uniqueColumnEngine_reachable, ⟨rfl, rfl⟩, rfl, rfl, by decide⟩

end DatabaseEngine

end HelionDb
