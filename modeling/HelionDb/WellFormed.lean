import HelionDb.Serial

/-! What holds of every engine that serial calls reach, whatever they are: table names differ, even
ignoring case; the catalog knows exactly the tables there are and the engine it names for each holds
it; and the log rebuilds tables of the same names and columns. -/

namespace HelionDb

/-- The name and the columns of a table. -/
def Table.schema (table : Table) : String × List ColumnMeta := (table.name, table.columns)

namespace DatabaseEngine

/-- The tables that the log of an engine rebuilds. -/
def recovered (engine : DatabaseEngine) : List Table := replayWal engine.walOld engine.wal

structure WellFormed (engine : DatabaseEngine) : Prop where
  names : (engine.tables.map fun table => lowerName table.name).Nodup
  registered : ∀ name, (engine.catalog.metadata name).isSome ↔ name ∈ engine.tables.map Table.name
  held : ∀ name engineName, engine.catalog.metadata name = some engineName →
    ∃ kind : EngineKind, engineName = kind.name ∧ (engine.catalog.engines kind name).isSome
  saved : ∀ name, engine.catalog.metadata name =
    engine.catalog.saved.bind fun data => data.tables name
  schema : engine.recovered.map Table.schema = engine.tables.map Table.schema

end DatabaseEngine

/-! ### Replay and schemas -/

/-- A replayed write changes no schema. -/
theorem schema_applyWalRecord_write (tables : List Table) (txId : Nat) (entry : WriteEntry) :
    (applyWalRecord tables (entry.walRecord txId)).map Table.schema = tables.map Table.schema := by
  unfold WriteEntry.walRecord
  cases entry.operation with
  | insert row =>
      refine KeyedList.map_update_of_keeps fun table => ?_
      unfold Table.replayInsert
      split <;> rfl
  | update newRow =>
      refine KeyedList.map_update_of_keeps fun table => ?_
      unfold Table.replayUpdate
      split <;> rfl
  | delete =>
      refine KeyedList.map_update_of_keeps fun table => ?_
      unfold Table.replayDelete
      split
      · rfl
      · split <;> rfl

theorem schema_replay_walRecords (tables : List Table) (tx : Transaction) :
    (replayRecords tables tx.walRecords).map Table.schema = tables.map Table.schema := by
  rw [Transaction.walRecords, replayRecords_append]
  change (replayRecords tables (tx.writeSet.map (WriteEntry.walRecord tx.txId))).map Table.schema = _
  induction tx.writeSet generalizing tables with
  | nil => rfl
  | cons entry rest ih =>
      rw [List.map_cons]
      exact (ih _).trans (schema_applyWalRecord_write tables tx.txId entry)

theorem map_name_eq_of_schema {left right : List Table} (h : left.map Table.schema = right.map Table.schema) :
    left.map Table.name = right.map Table.name := by
  have hmap := congrArg (List.map Prod.fst) h
  rwa [List.map_map, List.map_map] at hmap

/-- Lists of one image find tables of one image. -/
theorem findTable_image {left right : List Table} (h : left.map Table.image = right.map Table.image)
    (name : String) : (findTable name left).map Table.image = (findTable name right).map Table.image := by
  have hlookup : ∀ tables : List Table, KeyedList.lookup TableImage.name name (tables.map Table.image) =
      (findTable name tables).map Table.image := fun _ => KeyedList.lookup_map fun _ => rfl
  rw [← hlookup, ← hlookup, h]

/-- A table of lists of one image has the same chains in both. -/
theorem findTable_chains {left right : List Table} (h : left.map Table.image = right.map Table.image)
    {name : String} {table : Table} (htable : findTable name right = some table) :
    ∃ other, findTable name left = some other ∧ other.versionChains = table.versionChains := by
  have himage := findTable_image h name
  rw [htable] at himage
  obtain ⟨other, hother, hsame⟩ := Option.map_eq_some_iff.mp himage
  exact ⟨other, hother, congrArg TableImage.versionChains hsame⟩

/-- Lists of tables with one list of schemas have the same schema under every name. -/
theorem findTable_schema {left right : List Table} (h : left.map Table.schema = right.map Table.schema)
    (name : String) : (findTable name left).map Table.schema = (findTable name right).map Table.schema := by
  have hlookup : ∀ tables : List Table, KeyedList.lookup Prod.fst name (tables.map Table.schema) =
      (findTable name tables).map Table.schema := fun _ => KeyedList.lookup_map fun _ => rfl
  rw [← hlookup, ← hlookup, h]

theorem map_lowerName (tables : List Table) :
    (tables.map fun table => lowerName table.name) = (tables.map Table.name).map lowerName := by
  rw [List.map_map]
  rfl

namespace DatabaseEngine

variable {engine : DatabaseEngine}

theorem replayWal_append (walOld wal records : List WalRecord) :
    replayWal walOld (wal ++ records) = replayRecords (replayWal walOld wal) records := by
  rw [replayWal, ← List.append_assoc, replayRecords_append]
  rfl

/-- A commit keeps names and columns, routing and the rotated log, and appends either nothing or the
records of its transaction. -/
theorem commit_frame (engine : DatabaseEngine) (orders : CommitOrders) (tx : Transaction) :
    let next := (engine.commit orders tx).2.2
    next.tables.map Table.schema = engine.tables.map Table.schema ∧
      next.catalog.SameRouting engine.catalog ∧ next.walOld = engine.walOld ∧
      (next.wal = engine.wal ∨ next.wal = engine.wal ++ tx.walRecords) := by
  intro next
  rcases commit_cases engine orders tx with ⟨err, -, hsame | haborted⟩ | ⟨-, -, hchecked⟩
  · have hnext : next = engine := congrArg Prod.snd hsame
    rw [hnext]
    exact ⟨rfl, .refl _, rfl, Or.inl rfl⟩
  · have hnext : next = { engine with mvcc := engine.mvcc.rollbackTransaction tx } :=
      congrArg Prod.snd haborted
    rw [hnext]
    exact ⟨rfl, .refl _, rfl, Or.inl rfl⟩
  · have hnext : next = (engine.commitChecked orders tx (snapshotTables engine.tables)).2.2 :=
      congrArg (fun outcome => outcome.2.2) hchecked
    rw [hnext]
    obtain ⟨hwal, hwalOld⟩ := commitChecked_wal engine orders tx (snapshotTables engine.tables)
    refine ⟨?_, commitChecked_catalog engine orders tx _, hwalOld, Or.inr hwal⟩
    rcases commitChecked_tables engine orders tx (snapshotTables engine.tables) with ⟨-, htables⟩ | ⟨-, htables⟩
    · rw [htables]
      exact map_installWrites (fun name chains table => by simp [Table.schema]) orders.memory engine.tables
    · rw [htables]

namespace WellFormed

theorem nodup_names (h : engine.WellFormed) : (engine.tables.map Table.name).Nodup := by
  have hnames := h.names
  rw [map_lowerName] at hnames
  exact hnames.of_map _

theorem findTable_eq_some (h : engine.WellFormed) {name : String} {table : Table} :
    findTable name engine.tables = some table ↔ table ∈ engine.tables ∧ table.name = name :=
  KeyedList.lookup_eq_some_iff h.nodup_names

theorem findTable_self (h : engine.WellFormed) {table : Table} (hmem : table ∈ engine.tables) :
    findTable table.name engine.tables = some table := KeyedList.lookup_self h.nodup_names hmem

/-- The copy a commit takes holds the tables themselves. -/
theorem snapshotTables_eq (h : engine.WellFormed) (name : String) :
    snapshotTables engine.tables name = findTable name engine.tables :=
  KeyedList.lookupLast_eq h.nodup_names

/-- Ignoring case, a name that is in use is used by its own table only. -/
theorem eqIgnoreAsciiCase_iff_eq (h : engine.WellFormed) {name : String}
    (hname : name ∈ engine.tables.map Table.name) {table : Table} (hmem : table ∈ engine.tables) :
    eqIgnoreAsciiCase table.name name = true ↔ table.name = name := by
  constructor
  · intro heq
    obtain ⟨owner, howner, rfl⟩ := List.mem_map.mp hname
    rw [List.inj_on_of_nodup_map h.names hmem howner (eqIgnoreAsciiCase_eq.mp heq)]
  · rintro rfl
    exact eqIgnoreAsciiCase_refl _

/-- Every table is held by the engine that the catalog names for it. -/
theorem holds (h : engine.WellFormed) {name : String} (hname : name ∈ engine.tables.map Table.name) :
    engine.catalog.Holds name := by
  obtain ⟨engineName, hengine⟩ := Option.isSome_iff_exists.mp ((h.registered name).mpr hname)
  obtain ⟨kind, rfl, hheld⟩ := h.held name engineName hengine
  refine ⟨kind, ?_, hheld⟩
  rw [Catalog.routeOf, hengine, Option.getD_some, Catalog.getEngine_eq_ok, Catalog.normalizeEngineName_kind]

theorem fresh (defaultEngine : String) : (fresh defaultEngine).WellFormed where
  names := List.nodup_nil
  registered := by simp [DatabaseEngine.fresh, Catalog.openSaved]
  held := by simp [DatabaseEngine.fresh, Catalog.openSaved]
  saved := by simp [DatabaseEngine.fresh, Catalog.openSaved]
  schema := rfl

/-- A step that keeps schemas, routing and what the log says of schemas keeps the invariant. -/
theorem of_frame (h : engine.WellFormed) {next : DatabaseEngine}
    (htables : next.tables.map Table.schema = engine.tables.map Table.schema)
    (hcatalog : next.catalog.SameRouting engine.catalog)
    (hrecovered : next.recovered.map Table.schema = engine.recovered.map Table.schema) : next.WellFormed := by
  have hnames := map_name_eq_of_schema htables
  refine ⟨?_, ?_, ?_, ?_, ?_⟩
  · rw [map_lowerName, hnames, ← map_lowerName]
    exact h.names
  · intro name
    rw [hcatalog.metadata, hnames]
    exact h.registered name
  · intro name engineName hengine
    rw [hcatalog.metadata] at hengine
    obtain ⟨kind, hkind, hheld⟩ := h.held name engineName hengine
    exact ⟨kind, hkind, by rw [hcatalog.holds]; exact hheld⟩
  · intro name
    rw [hcatalog.metadata, hcatalog.saved]
    exact h.saved name
  · rw [hrecovered, htables]
    exact h.schema

theorem commit (h : engine.WellFormed) (orders : CommitOrders) (tx : Transaction) :
    (engine.commit orders tx).2.2.WellFormed := by
  obtain ⟨htables, hcatalog, hwalOld, hwal | hwal⟩ := commit_frame engine orders tx
  · refine h.of_frame htables hcatalog ?_
    rw [recovered, hwalOld, hwal]
    rfl
  · refine h.of_frame htables hcatalog ?_
    rw [recovered, hwalOld, hwal, replayWal_append]
    exact schema_replay_walRecords engine.recovered tx

theorem createTable (h : engine.WellFormed) {name engineName : String} {columns : List ColumnMeta}
    {catalog : Catalog} (hfresh : ∀ table ∈ engine.tables, eqIgnoreAsciiCase table.name name = false)
    (hcatalog : engine.catalog.createTable name columns engineName = .ok catalog) :
    WellFormed { engine with
      catalog, tables := engine.tables ++ [Table.new name columns],
      wal := engine.wal ++ [.createTable name columns] } := by
  unfold Catalog.createTable at hcatalog
  split at hcatalog
  · cases hcatalog
  · rename_i kind hkind
    cases hcatalog
    have hnew : name ∉ engine.tables.map Table.name := by
      intro hmem
      obtain ⟨table, htable, rfl⟩ := List.mem_map.mp hmem
      have hself := hfresh table htable
      rw [eqIgnoreAsciiCase_refl] at hself
      cases hself
    refine ⟨?_, ?_, ?_, ?_, ?_⟩
    · rw [List.map_append, List.map_singleton, Table.new_name, List.nodup_append]
      refine ⟨h.names, List.nodup_singleton _, ?_⟩
      intro lower hlower other hother heq
      obtain ⟨table, htable, rfl⟩ := List.mem_map.mp hlower
      have hcase := hfresh table htable
      rw [List.mem_singleton.mp hother] at heq
      rw [eqIgnoreAsciiCase_eq.mpr heq] at hcase
      cases hcase
    · intro other
      rw [List.map_append, List.map_singleton, Table.new_name, List.mem_append, List.mem_singleton]
      simp only [Catalog.save]
      by_cases hother : other = name
      · subst hother
        simp
      · rw [Function.update_of_ne hother, h.registered other]
        simp [hother]
    · intro other otherEngine hother
      simp only [Catalog.save] at hother
      by_cases hname : other = name
      · subst hname
        rw [Function.update_self] at hother
        cases hother
        exact ⟨kind, Catalog.getEngine_eq_ok.mp hkind, Catalog.isSome_setTable_self _ _ _ _⟩
      · rw [Function.update_of_ne hname] at hother
        obtain ⟨held, hheld, hsome⟩ := h.held other otherEngine hother
        exact ⟨held, hheld, Catalog.isSome_setTable hsome kind name _⟩
    · intro other
      rfl
    · have hnames := map_name_eq_of_schema h.schema
      have hany : (engine.recovered.any fun table => table.name == name) = false := by
        rw [← hnames] at hnew
        refine List.any_eq_false.mpr fun table htable hsame => hnew ?_
        exact List.mem_map.mpr ⟨table, htable, by simpa using hsame⟩
      rw [recovered, replayWal_append]
      change (applyWalRecord engine.recovered (.createTable name columns)).map Table.schema = _
      rw [applyWalRecord, if_neg (by rw [hany]; decide), List.map_append, List.map_append, h.schema]

/-- Dropping a table ignoring case drops the table of that very name. -/
theorem filter_dropped (h : engine.WellFormed) {name : String} (hname : name ∈ engine.tables.map Table.name) :
    engine.tables.filter (fun table => !eqIgnoreAsciiCase table.name name) =
      engine.tables.filter fun table => table.name != name := by
  refine List.filter_congr fun table htable => ?_
  by_cases hsame : table.name = name
  · simp [hsame]
  · have hnot := mt (h.eqIgnoreAsciiCase_iff_eq hname htable).mp hsame
    simp [hsame, hnot]

theorem mem_names_of_dropTable (h : engine.WellFormed) {name : String} {catalog : Catalog}
    (hcatalog : engine.catalog.dropTable name = .ok catalog) : name ∈ engine.tables.map Table.name := by
  refine (h.registered name).mp ?_
  cases hengine : engine.catalog.metadata name with
  | none =>
      rw [Catalog.dropTable, Catalog.getTableEngine, hengine] at hcatalog
      cases hcatalog
  | some engineName => rfl

theorem dropTable (h : engine.WellFormed) {name : String} {catalog : Catalog}
    (hcatalog : engine.catalog.dropTable name = .ok catalog) :
    WellFormed { engine with
      catalog, tables := engine.tables.filter fun table => !eqIgnoreAsciiCase table.name name,
      wal := engine.wal ++ [.dropTable name] } := by
  have hname := h.mem_names_of_dropTable hcatalog
  have hfilter := h.filter_dropped hname
  unfold Catalog.dropTable at hcatalog
  cases hengine : engine.catalog.metadata name with
  | none =>
      rw [Catalog.getTableEngine, hengine] at hcatalog
      cases hcatalog
  | some engineName =>
      obtain ⟨kind, rfl, hheld⟩ := h.held name engineName hengine
      rw [Catalog.getTableEngine_of_metadata hengine] at hcatalog
      cases hcatalog
      refine ⟨?_, ?_, ?_, ?_, ?_⟩
      · exact h.names.sublist (List.filter_sublist.map _)
      · intro other
        simp only [Catalog.save]
        by_cases hother : other = name
        · subst hother
          simp only [Function.update_self, Option.isSome_none, Bool.false_eq_true, false_iff, List.mem_map,
            List.mem_filter]
          rintro ⟨table, ⟨-, hcase⟩, rfl⟩
          simp at hcase
        · rw [Function.update_of_ne hother, h.registered other, hfilter]
          simp only [List.mem_map, List.mem_filter]
          constructor
          · rintro ⟨table, htable, rfl⟩
            exact ⟨table, ⟨htable, by simpa using hother⟩, rfl⟩
          · rintro ⟨table, ⟨htable, -⟩, rfl⟩
            exact ⟨table, htable, rfl⟩
      · intro other otherEngine hother
        simp only [Catalog.save] at hother
        by_cases hsame : other = name
        · subst hsame
          rw [Function.update_self] at hother
          cases hother
        · rw [Function.update_of_ne hsame] at hother
          obtain ⟨held, hkind, hsome⟩ := h.held other otherEngine hother
          exact ⟨held, hkind, Catalog.isSome_setTable_of_ne hsome (Or.inr hsame) none⟩
      · intro other
        rfl
      · rw [recovered, replayWal_append]
        change (applyWalRecord engine.recovered (.dropTable name)).map Table.schema = _
        have hmap : ∀ tables : List Table, (tables.filter fun table => table.name != name).map Table.schema =
            (tables.map Table.schema).filter fun schema => schema.1 != name := by
          intro tables
          rw [List.filter_map]
          rfl
        rw [applyWalRecord, hmap, h.schema, ← hmap, hfilter]

/-- A migration moves a table from one engine to the other and keeps everything else. -/
theorem migrateTable (h : engine.WellFormed) (name targetEngine : String) :
    WellFormed { engine with catalog := (engine.catalog.migrateTable name targetEngine).2 } := by
  cases hengine : engine.catalog.metadata name with
  | none =>
      simp only [Catalog.migrateTable, hengine]
      exact h
  | some engineName =>
      obtain ⟨kind, rfl, hheld⟩ := h.held name engineName hengine
      simp only [Catalog.migrateTable, hengine, Catalog.getTableEngine_of_metadata hengine,
        Catalog.getEngine_kind]
      split
      · exact h
      · rename_i hdifferent
        split
        · exact h
        · rename_i snapshot _
          split
          · exact h
          · rename_i target htarget
            have htargetName : normalizeEngineName targetEngine = target.name := by
              rw [← normalizeEngineName_idem]
              exact Catalog.getEngine_eq_ok.mp htarget
            have hkinds : target ≠ kind := fun heq => hdifferent (heq ▸ htargetName).symm
            refine ⟨h.names, fun other => ?_, fun other otherEngine hother => ?_, fun _ => rfl, h.schema⟩
            · change (Function.update engine.catalog.metadata name _ other).isSome ↔ _
              by_cases hname : other = name
              · subst hname
                rw [Function.update_self, ← h.registered, hengine]
                rfl
              · rw [Function.update_of_ne hname]
                exact h.registered other
            · change Function.update engine.catalog.metadata name _ other = some otherEngine at hother
              by_cases hname : other = name
              · subst hname
                rw [Function.update_self] at hother
                cases hother
                exact ⟨target, htargetName, Catalog.isSome_setTable_of_ne
                  (Catalog.isSome_setTable (Catalog.isSome_setTable_self _ _ _ _) target snapshot.name snapshot)
                  (Or.inl hkinds) none⟩
              · rw [Function.update_of_ne hname] at hother
                obtain ⟨held, hheldName, hsome⟩ := h.held other otherEngine hother
                exact ⟨held, hheldName, Catalog.isSome_setTable_of_ne
                  (Catalog.isSome_setTable (Catalog.isSome_setTable hsome target name _) target _ snapshot)
                  (Or.inr hname) none⟩

theorem map_schema_of_image {left right : List Table} (h : left.map Table.image = right.map Table.image) :
    left.map Table.schema = right.map Table.schema := by
  have hmap := congrArg (List.map fun image : TableImage => (image.name, image.columns)) h
  rwa [List.map_map, List.map_map] at hmap

/-- Replacing a table by itself with other indexes is giving it those indexes. -/
theorem updateTable_indexes (h : engine.WellFormed) {tableName : String} {table : Table}
    (htable : findTable tableName engine.tables = some table) (indexes : List Index) :
    updateTable tableName (fun _ => { table with indexes }) engine.tables =
      updateTable tableName (fun old => { old with indexes }) engine.tables := by
  refine KeyedList.update_congr fun item hitem hkey => ?_
  obtain ⟨hmem, hkeyTable⟩ := h.findTable_eq_some.mp htable
  rw [List.inj_on_of_nodup_map h.nodup_names hitem hmem (hkey.trans hkeyTable.symm)]

/-- Changing the indexes of a table changes no image. -/
theorem map_image_reindex (h : engine.WellFormed) {tableName : String} {table : Table}
    (htable : findTable tableName engine.tables = some table) (indexes : List Index) :
    (updateTable tableName (fun _ => { table with indexes }) engine.tables).map Table.image =
      engine.tables.map Table.image := by
  rw [h.updateTable_indexes htable]
  exact KeyedList.map_update_of_keeps fun _ => rfl

/-- Changing the indexes of a table keeps everything the invariant speaks of. -/
theorem reindex (h : engine.WellFormed) {tableName : String} {table : Table}
    (htable : findTable tableName engine.tables = some table) (indexes : List Index) :
    WellFormed { engine with
      tables := updateTable tableName (fun _ => { table with indexes }) engine.tables } :=
  h.of_frame (map_schema_of_image (h.map_image_reindex htable indexes)) (.refl _) rfl

/-- A log that ends in a checkpoint rebuilds the tables of the checkpoint. -/
theorem recovered_checkpoint (prior : List WalRecord) (tables : List Table) :
    (replayRecords [] (prior ++ [checkpointRecord tables])).map Table.image = tables.map Table.image :=
  replayRecords_checkpoint [] prior _ _

theorem writeCheckpoint (h : engine.WellFormed) : engine.writeCheckpoint.WellFormed := by
  refine ⟨h.names, h.registered, h.held, h.saved, map_schema_of_image ?_⟩
  rw [recovered, replayWal, DatabaseEngine.writeCheckpoint, ← List.append_assoc]
  exact recovered_checkpoint _ _

theorem shutdown (h : engine.WellFormed) : engine.shutdown.WellFormed := by
  refine ⟨h.names, h.registered, h.held, h.saved, map_schema_of_image ?_⟩
  rw [recovered, replayWal, DatabaseEngine.shutdown, DatabaseEngine.writeCheckpoint, List.append_nil]
  exact recovered_checkpoint _ _

end WellFormed

/-! ### Reopening -/

theorem rebuildIfEmpty_image (table : Table) : (rebuildIfEmpty table).image = table.image := by
  unfold rebuildIfEmpty
  split <;> rfl

theorem rebuildIfEmpty_definitions (table : Table) : (rebuildIfEmpty table).definitions = table.definitions := by
  unfold rebuildIfEmpty
  split
  · exact table.rebuildIndexes_definitions
  · rfl

private theorem restoreToEngine_of_metadata {catalog : Catalog} {table : Table} {kind : EngineKind}
    (hmetadata : catalog.metadata table.name = some kind.name) :
    restoreToEngine table catalog = (.ok (), catalog.restoreTable kind table) := by
  simp [restoreToEngine, Catalog.routeOf, hmetadata, Catalog.getEngine_kind]

/-- Restoring tables that the catalog routes puts each into its engine and keeps the rest. -/
private theorem runAll_restoreToEngine {tables : List Table} {catalog : Catalog}
    (hrouted : ∀ table ∈ tables, ∃ kind : EngineKind, catalog.metadata table.name = some kind.name) :
    let outcome := Loop.runAll restoreToEngine tables catalog
    outcome.1 = .ok () ∧ outcome.2.metadata = catalog.metadata ∧ outcome.2.saved = catalog.saved ∧
      (∀ kind name, (catalog.engines kind name).isSome → (outcome.2.engines kind name).isSome) ∧
      ∀ table ∈ tables, ∀ kind : EngineKind, catalog.metadata table.name = some kind.name →
        (outcome.2.engines kind table.name).isSome := by
  induction tables generalizing catalog with
  | nil => exact ⟨rfl, rfl, rfl, fun _ _ h => h, by simp⟩
  | cons table rest ih =>
      obtain ⟨kind, hkind⟩ := hrouted table List.mem_cons_self
      have hstep := restoreToEngine_of_metadata hkind
      have hrest : ∀ other ∈ rest, ∃ kind : EngineKind,
          (catalog.restoreTable kind table).metadata other.name = some kind.name :=
        fun other hother => hrouted other (List.mem_cons_of_mem _ hother)
      obtain ⟨hok, hmetadata, hsaved, hkeep, hheld⟩ :=
        @ih (catalog.restoreTable kind table) hrest
      intro outcome
      have houtcome : outcome = Loop.runAll restoreToEngine rest (catalog.restoreTable kind table) := by
        refine (Loop.runAll_cons_ok restoreToEngine (by rw [hstep]) rest).trans ?_
        rw [hstep]
      rw [houtcome]
      refine ⟨hok, hmetadata, hsaved, fun other name hsome => ?_, fun other hother otherKind hotherKind => ?_⟩
      · exact hkeep other name (Catalog.isSome_setTable hsome kind table.name table)
      · rcases List.mem_cons.mp hother with rfl | hmem
        · rw [hkind] at hotherKind
          have hsame : kind = otherKind := by
            have hnames := Option.some.inj hotherKind
            cases kind <;> cases otherKind <;> first | rfl | exact absurd hnames (by decide)
          subst hsame
          exact hkeep kind other.name (Catalog.isSome_setTable_self _ _ _ _)
        · exact hheld other hmem otherKind hotherKind

section Reopen

variable (defaultEngine : String) (loaded : String → Option Table)

private theorem openSaved_metadata (h : engine.WellFormed) (name : String) :
    (Catalog.openSaved engine.catalog.saved defaultEngine loaded).metadata name = engine.catalog.metadata name := by
  have hsaved := h.saved name
  unfold Catalog.openSaved
  cases hdata : engine.catalog.saved with
  | none =>
      rw [hdata] at hsaved
      exact hsaved.symm
  | some data =>
      rw [hdata] at hsaved
      change (data.tables name).map normalizeEngineName = _
      change _ = data.tables name at hsaved
      cases hengine : engine.catalog.metadata name with
      | none =>
          rw [← hsaved, hengine]
          rfl
      | some engineName =>
          obtain ⟨kind, rfl, -⟩ := h.held name engineName hengine
          rw [← hsaved, hengine, Option.map_some, Catalog.normalizeEngineName_kind]

/-- A well-formed engine can always be reopened from its directory; the tables are the replayed ones,
with their indexes rebuilt. -/
theorem WellFormed.reopen (h : engine.WellFormed) :
    ∃ next, openWithDurability engine.walOld engine.wal engine.catalog.saved defaultEngine loaded = .ok next ∧
      next.tables = engine.recovered.map rebuildIfEmpty ∧ next.walOld = engine.walOld ∧ next.wal = engine.wal ∧
      next.mvcc = .withStartId (startIdOf engine.recovered) ∧ next.WellFormed := by
  have himage : (engine.recovered.map rebuildIfEmpty).map Table.image = engine.recovered.map Table.image := by
    rw [List.map_map]
    exact List.map_congr_left fun table _ => rebuildIfEmpty_image table
  have hschema := (WellFormed.map_schema_of_image himage).trans h.schema
  have hnames := map_name_eq_of_schema hschema
  have hmetadata := openSaved_metadata defaultEngine loaded h
  have hrouted : ∀ table ∈ engine.recovered.map rebuildIfEmpty, ∃ kind : EngineKind,
      (Catalog.openSaved engine.catalog.saved defaultEngine loaded).metadata table.name = some kind.name := by
    intro table htable
    have hname : table.name ∈ engine.tables.map Table.name := hnames ▸ List.mem_map_of_mem htable
    obtain ⟨engineName, hengine⟩ := Option.isSome_iff_exists.mp ((h.registered table.name).mpr hname)
    obtain ⟨kind, rfl, -⟩ := h.held table.name engineName hengine
    exact ⟨kind, (hmetadata table.name).trans hengine⟩
  obtain ⟨hok, hkeepMetadata, hkeepSaved, -, hheld⟩ := runAll_restoreToEngine hrouted
  have hopen := openWithDurability_of_restored hok
  refine ⟨_, hopen, rfl, rfl, rfl, rfl, ?_⟩
  refine ⟨?_, fun name => ?_, fun name engineName hengine => ?_, fun name => ?_, ?_⟩
  · change ((engine.recovered.map rebuildIfEmpty).map fun table => lowerName table.name).Nodup
    rw [map_lowerName, hnames, ← map_lowerName]
    exact h.names
  · refine (Eq.to_iff (congrArg (fun metadata => (metadata name).isSome = true) hkeepMetadata)).trans ?_
    rw [hmetadata, h.registered name]
    exact (iff_of_eq (congrArg (name ∈ ·) hnames)).symm
  · have hrouted := (congrFun hkeepMetadata name).symm.trans hengine
    obtain ⟨kind, hkind, -⟩ := h.held name engineName ((hmetadata name).symm.trans hrouted)
    refine ⟨kind, hkind, ?_⟩
    have hname : name ∈ (engine.recovered.map rebuildIfEmpty).map Table.name := by
      rw [hnames, ← h.registered, ← hmetadata, hrouted]
      rfl
    obtain ⟨table, htable, rfl⟩ := List.mem_map.mp hname
    exact hheld table htable kind (hkind ▸ hrouted)
  · refine (congrFun hkeepMetadata name).trans ?_
    rw [hmetadata, h.saved name]
    refine congrArg (fun saved : Option CatalogData => saved.bind fun data => data.tables name) ?_
    refine Eq.trans ?_ hkeepSaved.symm
    unfold Catalog.openSaved
    split <;> rfl
  · exact (WellFormed.map_schema_of_image himage).symm

end Reopen

/-- Every transition keeps the invariant. -/
theorem WellFormed.transition (h : engine.WellFormed) {call : SerialCall} {after : DatabaseEngine}
    (htransition : Transition engine call after) : after.WellFormed := by
  cases htransition with
  | same => exact h
  | ids mvcc hids => exact h.of_frame rfl (.refl _) rfl
  | write start entries hcommit hstart =>
      have hbegun : start.begin.2.WellFormed := by
        rcases hstart with rfl | rfl <;> exact h.of_frame rfl (.refl _) rfl
      exact hbegun.commit call.orders _
  | create name columns engineName catalog hfresh hcatalog => exact h.createTable hfresh hcatalog
  | drop name catalog hcatalog => exact h.dropTable hcatalog
  | migrate name targetEngine => exact h.migrateTable name targetEngine
  | createIndex tableName table next name columns unique htable hnext =>
      obtain ⟨index, rfl, -⟩ := Table.addIndex_ok hnext
      exact h.reindex htable _
  | dropIndex tableName table next name ifExists hop htable hnext =>
      obtain ⟨pos, rfl⟩ := Table.dropIndex_ok hnext
      exact h.reindex htable _
  | checkpoint => exact h.writeCheckpoint
  | shutdown => exact h.shutdown
  | reopen defaultEngine loaded next hop hopen =>
      obtain ⟨opened, hopened, -, -, -, -, hwf⟩ := h.reopen defaultEngine loaded
      rw [hopened] at hopen
      cases hopen
      exact hwf

/-- A statement that neither creates nor drops a table keeps the invariant, and every name and column. -/
theorem WellFormed.reworked (h : engine.WellFormed) {next : DatabaseEngine} (hreworked : engine.Reworked next) :
    next.WellFormed ∧ next.tables.map Table.schema = engine.tables.map Table.schema := by
  cases hreworked with
  | same => exact ⟨h, rfl⟩
  | read => exact ⟨h.of_frame rfl (.refl _) rfl, rfl⟩
  | committed start hstart orders tx =>
      have hbegun : start.begin.2.WellFormed := by
        rcases hstart with rfl | rfl <;> exact h.of_frame rfl (.refl _) rfl
      obtain ⟨hschema, -⟩ := commit_frame start.begin.2 orders tx
      refine ⟨hbegun.commit orders tx, hschema.trans ?_⟩
      rcases hstart with rfl | rfl <;> rfl
  | migrated name targetEngine => exact ⟨h.migrateTable name targetEngine, rfl⟩
  | reindexed tableName table indexes htable =>
      exact ⟨h.reindex htable indexes, map_schema_of_image (h.map_image_reindex htable indexes)⟩

/-- Every engine that serial calls reach is well formed. -/
theorem SerialReachable.wellFormed {guard : DatabaseEngine → SerialCall → Prop}
    (h : SerialReachable guard engine) : engine.WellFormed := by
  obtain ⟨defaultEngine, run⟩ := h
  exact run.invariant (fun state call hwf _ => hwf.transition (serialStep_transition state call))
    (WellFormed.fresh defaultEngine)

end DatabaseEngine

end HelionDb
