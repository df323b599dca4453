import HelionDb.WellFormed

/-! Index definitions over a restart. Neither the DDL records nor a checkpoint carries any, so recovery
gives every table the indexes that `Table::new` builds for its keys and UNIQUE columns. The definitions
of a table survive exactly when they are these. -/

namespace HelionDb

/-- The definitions that `Table::new` gives a table of this schema. -/
def Table.builtDefinitions (table : Table) : Finset IndexMeta :=
  (Table.new table.name table.columns).definitions.toFinset

theorem Table.builtDefinitions_congr {left right : Table} (h : left.schema = right.schema) :
    left.builtDefinitions = right.builtDefinitions := by
  obtain ⟨hname, hcolumns⟩ := Prod.mk.inj h
  rw [builtDefinitions, hname, hcolumns]
  rfl

/-- A table with the indexes of `Table::new`. -/
def Table.Built (table : Table) : Prop := table.indexes = (Table.new table.name table.columns).indexes

theorem Table.built_new (name : String) (columns : List ColumnMeta) : (Table.new name columns).Built := by
  rw [Built, new_name, new_columns]

theorem TableImage.built_restore (image : TableImage) : image.restore.Built := by
  rw [Table.Built, TableImage.restore]
  change (Table.new image.name image.columns).indexes = _
  simp only [Table.new_name, Table.new_columns]

/-- A change of the chains alone leaves a table built. -/
private theorem built_update {tables : List Table} {name : String} {f : Table → Table}
    (hf : ∀ table, (f table).schema = table.schema ∧ (f table).indexes = table.indexes)
    (h : ∀ table ∈ tables, table.Built) : ∀ table ∈ updateTable name f tables, table.Built := by
  intro table htable
  rcases KeyedList.mem_update htable with hold | ⟨old, hold, -, rfl⟩
  · exact h table hold
  · obtain ⟨hschema, hindexes⟩ := hf old
    obtain ⟨hname, hcolumns⟩ := Prod.mk.inj hschema
    rw [Table.Built, hindexes, hname, hcolumns]
    exact h old hold

theorem built_applyWalRecord {tables : List Table} (h : ∀ table ∈ tables, table.Built) (record : WalRecord) :
    ∀ table ∈ applyWalRecord tables record, table.Built := by
  cases record with
  | createTable name columns =>
      rw [applyWalRecord]
      split
      · exact h
      · intro table htable
        rcases List.mem_append.mp htable with hold | hnew
        · exact h table hold
        · rw [List.mem_singleton.mp hnew]
          exact Table.built_new name columns
  | dropTable name => exact fun table htable => h table (List.mem_filter.mp htable).1
  | insert name row txid =>
      refine built_update (fun table => ?_) h
      unfold Table.replayInsert
      split <;> exact ⟨rfl, rfl⟩
  | update name rowIdx newRow txid =>
      refine built_update (fun table => ?_) h
      unfold Table.replayUpdate
      split <;> exact ⟨rfl, rfl⟩
  | delete name rowIdx txid =>
      refine built_update (fun table => ?_) h
      unfold Table.replayDelete
      split
      · exact ⟨rfl, rfl⟩
      · split <;> exact ⟨rfl, rfl⟩
  | checkpoint tableCount images =>
      intro table htable
      obtain ⟨image, -, rfl⟩ := List.mem_map.mp htable
      exact image.built_restore
  | commit | createUser | dropUser | grant | revoke => exact h

theorem built_replayRecords {tables : List Table} (h : ∀ table ∈ tables, table.Built)
    (records : List WalRecord) : ∀ table ∈ replayRecords tables records, table.Built := by
  induction records generalizing tables with
  | nil => exact h
  | cons record rest ih => exact ih (built_applyWalRecord h record)

namespace DatabaseEngine

variable {engine : DatabaseEngine}

/-- Every table that recovery replays has the indexes of `Table::new`. -/
theorem built_recovered (engine : DatabaseEngine) : ∀ table ∈ engine.recovered, table.Built :=
  built_replayRecords (by simp) _

/-! ### The definitions of a name -/

/-- The set of index definitions of a table. -/
def indexDefinitions (engine : DatabaseEngine) (name : String) : Option (Finset IndexMeta) :=
  (findTable name engine.tables).map fun table => table.definitions.toFinset

/-- Shutting the engine down and opening it again gives every table the index definitions it had. -/
def DefinitionsSurvive (engine : DatabaseEngine) (defaultEngine : String) (loaded : String → Option Table) :
    Prop :=
  ∃ next, openWithDurability engine.shutdown.walOld engine.shutdown.wal engine.shutdown.catalog.saved
      defaultEngine loaded = .ok next ∧
    ∀ name, next.indexDefinitions name = engine.indexDefinitions name

theorem definitions_rebuildIfEmpty {table : Table} (h : table.Built) :
    (rebuildIfEmpty table).definitions.toFinset = (rebuildIfEmpty table).builtDefinitions := by
  obtain ⟨hname, hcolumns, -⟩ := TableImage.mk.inj (rebuildIfEmpty_image table)
  rw [Table.builtDefinitions, rebuildIfEmpty_definitions, hname, hcolumns, Table.definitions, h]
  rfl

/-- After a restart a name has the definitions that `Table::new` builds for its table. -/
theorem indexDefinitions_reopened (h : engine.WellFormed) {next : DatabaseEngine}
    (htables : next.tables = engine.recovered.map rebuildIfEmpty) (hnext : next.WellFormed) (name : String) :
    next.indexDefinitions name = (findTable name engine.tables).map Table.builtDefinitions := by
  have hschema : next.tables.map Table.schema = engine.tables.map Table.schema := by
    rw [htables, ← h.schema]
    refine WellFormed.map_schema_of_image ?_
    rw [List.map_map]
    exact List.map_congr_left fun table _ => rebuildIfEmpty_image table
  have hbuilt : ∀ table ∈ next.tables, table.definitions.toFinset = table.builtDefinitions := by
    intro table htable
    rw [htables] at htable
    obtain ⟨replayed, hreplayed, rfl⟩ := List.mem_map.mp htable
    exact definitions_rebuildIfEmpty (built_recovered engine replayed hreplayed)
  have hsame := findTable_schema hschema name
  rw [indexDefinitions]
  cases hfound : findTable name next.tables with
  | none =>
      rw [hfound] at hsame
      rw [Option.map_eq_none_iff.mp hsame.symm]
      rfl
  | some table =>
      rw [hfound] at hsame
      obtain ⟨owner, howner, heq⟩ := Option.map_eq_some_iff.mp hsame.symm
      obtain ⟨hname, hcolumns⟩ := Prod.mk.inj heq
      rw [howner, Option.map_some, Option.map_some, hbuilt table (hnext.findTable_eq_some.mp hfound).1]
      simp only [Table.builtDefinitions, hname, hcolumns]

/-- Index definitions survive a restart exactly when every table has those that `Table::new` builds for
its columns: no index created by hand is left, and none of the automatic ones was dropped. -/
theorem definitionsSurvive_iff (h : SerialReachable (fun _ _ => True) engine) (defaultEngine : String)
    (loaded : String → Option Table) :
    engine.DefinitionsSurvive defaultEngine loaded ↔
      ∀ table ∈ engine.tables, table.definitions.toFinset = table.builtDefinitions := by
  have hwf := h.wellFormed
  obtain ⟨next, hopen, htables, -, -, -, hnext⟩ := hwf.shutdown.reopen defaultEngine loaded
  have hreopened := indexDefinitions_reopened hwf.shutdown htables hnext
  constructor
  · rintro ⟨opened, hopened, hsame⟩ table htable
    obtain rfl := Except.ok.inj (hopen.symm.trans hopened)
    have hname := hsame table.name
    have hfound : findTable table.name engine.shutdown.tables = some table := hwf.findTable_self htable
    rw [hreopened, hfound, indexDefinitions, hwf.findTable_self htable] at hname
    exact (Option.some.inj hname).symm
  · intro hbuilt
    refine ⟨next, hopen, fun name => ?_⟩
    rw [hreopened, indexDefinitions]
    change (findTable name engine.tables).map _ = _
    cases hfound : findTable name engine.tables with
    | none => rfl
    | some table => exact congrArg some (hbuilt table (hwf.findTable_eq_some.mp hfound).1).symm

/-- A table with a primary key and a UNIQUE column. -/
def keyedRun : List SerialCall :=
  [{ op := .execute (.createTable "t"
      [(ColumnMeta.new "id" .integer).primaryKey, { ColumnMeta.new "mail" .text with isUnique := true }] none)
     orders := .asGiven }]

theorem definitionsSurvive_keyedRun :
    (keyedRun.foldl serialStep (fresh "disk")).DefinitionsSurvive "disk" fun _ => none :=
  (definitionsSurvive_iff ⟨"disk", .foldl keyedRun _⟩ "disk" fun _ => none).mpr (by decide)

/-- A unique index created on a table without keys. -/
def indexedRun : List SerialCall :=
  [{ op := .execute (.createTable "t" [.new "a" .integer] none), orders := .asGiven },
    { op := .execute (.createIndex "a_once" "t" ["a"] true false), orders := .asGiven }]

/-- The restart loses the unique index. -/
theorem not_definitionsSurvive_indexedRun :
    SerialReachable (fun _ _ => True) (indexedRun.foldl serialStep (fresh "disk")) ∧
      ¬ (indexedRun.foldl serialStep (fresh "disk")).DefinitionsSurvive "disk" fun _ => none := by
  refine ⟨⟨"disk", .foldl indexedRun _⟩, ?_⟩
  rintro ⟨next, hopen, hsame⟩
  have hbefore : (indexedRun.foldl serialStep (fresh "disk")).indexDefinitions "t" =
      some {{ name := "a_once", columns := [0], isUnique := true }} := by decide
  have hafter : (openWithDurability (indexedRun.foldl serialStep (fresh "disk")).shutdown.walOld
      (indexedRun.foldl serialStep (fresh "disk")).shutdown.wal
      (indexedRun.foldl serialStep (fresh "disk")).shutdown.catalog.saved "disk" fun _ => none).toOption.map
        (fun opened => opened.indexDefinitions "t") = some (some ∅) := by decide
  rw [hopen] at hafter
  have hlost : next.indexDefinitions "t" = some ∅ := Option.some.inj hafter
  rw [hsame, hbefore] at hlost
  exact absurd hlost (by decide)

end DatabaseEngine

end HelionDb
