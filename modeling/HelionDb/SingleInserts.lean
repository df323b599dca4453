import HelionDb.ConcurrentInserts
import HelionDb.IndexMaintenance

/-! An INSERT of one row. The check of the commit asks every unique index about the row, and then every index takes it or
refuses it; a row that is refused only then is in the table all the same. -/

namespace HelionDb

/-- The check of a commit passes a row at every unique index, as the next row of the table. -/
def Table.PassesUnique (table : Table) (row : Row) : Prop :=
  ∀ index ∈ table.indexes, index.checkUnique true table.rowCount row = .ok ()

/-- Every index takes the row, once it stands in the table. -/
def Table.TakesRow (table : Table) (row : Row) : Prop :=
  ∀ index ∈ table.indexes, (index.applyChange (.insert row) none table.rowCount).1 = .ok ()

namespace DatabaseEngine

variable {engine : DatabaseEngine} {orders : CommitOrders} {tx : Transaction} {name : String} {table : Table} {row : Row}

/-- A transaction on one table that reaches the in-memory phase leaves its versions there, whether it returns Ok or not. -/
theorem chainsOf_commit_of_installs (hwf : engine.WellFormed) (h : engine.Installs tx) (hnames : tx.tableNames = [name]) :
    (engine.commit orders tx).2.2.chainsOf name = engine.placedChains tx name := by
  have horder : orders.memory.order [name] = [name] := List.perm_singleton.mp (orders.memory.perm [name])
  rw [commit_of_accepted h.running h.accept, chainsOf]
  rcases commitChecked_tables engine orders tx (snapshotTables engine.tables) with ⟨-, htables⟩ | ⟨hnot, -⟩
  · rw [htables, installWrites, hnames, horder]
    have hrun : (Loop.runAll (installTable tx (snapshotTables engine.tables)) [name] engine.tables).2 =
        (installTable tx (snapshotTables engine.tables) name engine.tables).2 := by
      rw [Loop.runAll]
      cases installTable tx (snapshotTables engine.tables) name engine.tables with
      | mk result tables => cases result <;> rfl
    rw [hrun]
    exact chainsOf_installTable hwf (hnames ▸ List.mem_cons_self)
  · exact absurd h.held hnot

/-- The transaction of an INSERT of one row. -/
def insertsOne (engine : DatabaseEngine) (name : String) (table : Table) (row : Row) : Transaction :=
  engine.beginWith (insertEntries name table.rowCount [row])

theorem writeSet_insertsOne (engine : DatabaseEngine) (name : String) (table : Table) (row : Row) :
    (engine.insertsOne name table row).writeSet =
      [{ tableName := name, rowIdx := table.rowCount, oldTxidMax := u64Max, operation := .insert row }] := rfl

theorem entriesOf_insertsOne (engine : DatabaseEngine) (name : String) (table : Table) (row : Row) :
    (engine.insertsOne name table row).entriesOf name = (engine.insertsOne name table row).writeSet :=
  (entriesOf_of_named (fun _ hentry => tableName_of_mem_insertEntries hentry) name).trans (if_pos rfl)

theorem checksAccept_insertsOne_iff (hwf : engine.WellFormed) (htable : findTable name engine.tables = some table) :
    ChecksAccept (engine.insertsOne name table row) (snapshotTables engine.tables) ↔ table.PassesUnique row := by
  have hcopy : snapshotTables engine.tables name = some table := (hwf.snapshotTables_eq name).trans htable
  have hconflicts : checkConflicts (engine.insertsOne name table row) (snapshotTables engine.tables) = .ok () := by
    refine checkConflicts_ok_iff.mpr fun entry hentry => ?_
    rw [writeSet_insertsOne, List.mem_singleton] at hentry
    rw [hentry, conflictOf, hcopy]
    dsimp only
    rw [Table.rowCount, List.getElem?_eq_none le_rfl]
  rw [ChecksAccept, and_iff_right hconflicts, checkUniqueWrites, Loop.checkAll_ok_iff, writeSet_insertsOne,
    List.forall_mem_singleton, checkUniqueEntry, hcopy]
  exact Loop.checkAll_ok_iff

theorem commitSafe_insertsOne_iff (hwf : engine.WellFormed) (htable : findTable name engine.tables = some table) :
    engine.begin.2.CommitSafe (engine.insertsOne name table row) ↔ table.TakesRow row := by
  have hnames : ∀ other, other ∈ (engine.insertsOne name table row).tableNames ↔ other = name := by
    intro other
    rw [Transaction.mem_tableNames, writeSet_insertsOne]
    simp [eq_comm]
  have hmaintained : MaintenanceAdmissible (snapshotTables engine.begin.2.tables)
      ((engine.insertsOne name table row).entriesOf name) table ↔ table.TakesRow row := by
    refine forall₂_congr fun index _ => ?_
    rw [entriesOf_insertsOne, writeSet_insertsOne, List.forall_mem_singleton, indexChanges_cons, Index.applyChange_ok_iff,
      indexChanges, List.flatMap_nil, List.append_nil]
    rfl
  rw [← hmaintained]
  constructor
  · exact fun hsafe => hsafe.maintained name ((hnames name).mpr rfl) table htable
  · intro h
    refine ⟨fun other hother => ?_, fun other hother found hfound => ?_⟩
    · obtain rfl := (hnames other).mp hother
      obtain ⟨hmem, hname⟩ := hwf.findTable_eq_some.mp htable
      exact hwf.holds (hname ▸ List.mem_map_of_mem hmem)
    · obtain rfl := (hnames other).mp hother
      obtain rfl := Option.some.inj (htable.symm.trans hfound)
      exact h

theorem execute_insert_one (htable : findTable name engine.tables = some table) (orders : CommitOrders) (row : Row) :
    engine.execute orders (.insert name [row]) =
      affecting 1 ((engine.begin.2.commit orders (engine.insertsOne name table row)).1,
        (engine.begin.2.commit orders (engine.insertsOne name table row)).2.2) := by
  simp only [execute, htable]
  rw [withWriteTxn_of_ok rfl]
  rfl

/-- A row that a unique index does not pass leaves the tables as they are. -/
theorem execute_insert_not_passed (hwf : engine.WellFormed) (htable : findTable name engine.tables = some table)
    (h : ¬ table.PassesUnique row) :
    (∃ err, (engine.execute orders (.insert name [row])).1 = .error err) ∧
      (engine.execute orders (.insert name [row])).2.chainsOf name = engine.chainsOf name := by
  have haccept : ¬ ChecksAccept (engine.insertsOne name table row) (snapshotTables engine.begin.2.tables) :=
    mt (checksAccept_insertsOne_iff hwf htable).mp h
  rw [execute_insert_one htable]
  constructor
  · cases hresult : (engine.begin.2.commit orders (engine.insertsOne name table row)).1 with
    | error err =>
        refine ⟨err, ?_⟩
        rfl
    | ok => exact absurd (commit_ok hresult).1.accept haccept
  · show (engine.begin.2.commit orders (engine.insertsOne name table row)).2.2.chainsOf name = _
    rw [commit_of_not_accepted haccept]
    rfl

/-- A row that every unique index passes is added, and Ok is returned if none refuses it after that. -/
theorem execute_insert_passed (hwf : engine.WellFormed) (htable : findTable name engine.tables = some table)
    (h : table.PassesUnique row) :
    (engine.execute orders (.insert name [row])).2.chainsOf name =
        some (table.versionChains ++ [[.newInsert engine.begin.1.txId row]]) ∧
      ((engine.execute orders (.insert name [row])).1 = .ok 1 ↔ table.TakesRow row) ∧
      ∀ count, (engine.execute orders (.insert name [row])).1 = .ok count → count = 1 := by
  have hbegun : engine.begin.2.WellFormed := hwf.of_frame rfl (.refl _) rfl
  have haccept := (checksAccept_insertsOne_iff hwf htable).mpr h
  have hnames : (engine.insertsOne name table row).tableNames = [name] := rfl
  have hinstalls : engine.begin.2.Installs (engine.insertsOne name table row) := by
    refine ⟨rfl, haccept, fun other hother => ?_⟩
    obtain rfl := List.mem_singleton.mp (hnames ▸ hother)
    obtain ⟨hmem, hname⟩ := hwf.findTable_eq_some.mp htable
    exact hbegun.holds (hname ▸ List.mem_map_of_mem hmem)
  have hchains := @chainsOf_commit_of_installs _ orders _ name hbegun hinstalls hnames
  rw [execute_insert_one htable, affecting]
  refine ⟨hchains.trans ?_, ?_, ?_⟩
  · rw [placedChains, chainsOf, show findTable name engine.begin.2.tables = some table from htable, tableChanges,
      entriesOf_insertsOne, writeSet_insertsOne, Option.map_some, Option.map_some]
    refine congrArg some ?_
    exact (rowsPlaced_insertEntries engine.begin.1.txId (snapshotTables engine.tables) name (le_refl _) [row]).append
  · rw [← commitSafe_insertsOne_iff hwf htable, ← commit_ok_iff hbegun rfl haccept]
    dsimp only
    cases (engine.begin.2.commit orders (engine.insertsOne name table row)).1 with
    | error err => exact iff_of_false (by rintro ⟨⟩) (by rintro ⟨⟩)
    | ok => exact iff_of_true rfl rfl
  · intro count hcount
    dsimp only at hcount
    cases hresult : (engine.begin.2.commit orders (engine.insertsOne name table row)).1 with
    | error err =>
        rw [hresult] at hcount
        cases hcount
    | ok =>
        rw [hresult] at hcount
        exact (Except.ok.inj hcount).symm

end DatabaseEngine

end HelionDb
