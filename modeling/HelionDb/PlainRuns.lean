import HelionDb.PlainStatements

/-! A serial client of a database sees plain tables. Every statement is a step of them, a restart keeps the rows, whether
the engine was shut down or the process was stopped, and readers in between see the rows that they hold. -/

namespace HelionDb

namespace DatabaseEngine

variable {engine : DatabaseEngine} {orders : CommitOrders} {name : String} {table : Table}

/-! ### Tables and indexes -/

theorem findTable_append_new {tables : List Table} {new : Table} (hnew : ∀ table ∈ tables, table.name ≠ new.name)
    (other : String) :
    findTable other (tables ++ [new]) = if other = new.name then some new else findTable other tables := by
  rw [findTable, KeyedList.lookup, List.find?_append]
  by_cases hother : other = new.name
  · subst hother
    have hnone : tables.find? (fun table => table.name == new.name) = none :=
      List.find?_eq_none.mpr fun table htable => by simp [hnew table htable]
    rw [if_pos rfl, hnone]
    simp
  · have hlast : [new].find? (fun table => table.name == other) = none := by simp [Ne.symm hother]
    rw [if_neg hother, hlast, Option.or_none]
    rfl

theorem plain_createTable (engine : DatabaseEngine) (name : String) (columns : List ColumnMeta)
    (engineName : Option String) :
    (∃ err, engine.createTable name columns engineName = (.error err, engine)) ∨
      ((engine.createTable name columns engineName).1 = .ok () ∧
        (∀ other, (engine.plain other).isSome = true → eqIgnoreAsciiCase other name = false) ∧
        (engine.createTable name columns engineName).2.plain =
          (LogicalPlan.createTable name columns engineName).meaning engine.plain) := by
  unfold DatabaseEngine.createTable
  split
  · exact .inl ⟨_, rfl⟩
  · rename_i hfree
    dsimp only
    split
    · exact .inl ⟨_, rfl⟩
    · have hapart : ∀ table ∈ engine.tables, eqIgnoreAsciiCase table.name name = false := by
        intro table htable
        by_contra hsame
        exact hfree (List.any_eq_true.mpr ⟨table, htable, Bool.of_not_eq_false hsame⟩)
      refine .inr ⟨rfl, fun other hother => ?_, ?_⟩
      · rw [plain, Option.isSome_map] at hother
        obtain ⟨table, htable⟩ := Option.isSome_iff_exists.mp hother
        obtain ⟨hmem, rfl⟩ := KeyedList.mem_of_lookup htable
        exact hapart table hmem
      · have hnew : ∀ table ∈ engine.tables, table.name ≠ (Table.new name columns).name := by
          intro table htable heq
          have hsame := hapart table htable
          rw [heq, Table.new_name, eqIgnoreAsciiCase_refl] at hsame
          cases hsame
        have hname := Table.new_name name columns
        funext other
        rw [plain, findTable_append_new hnew, LogicalPlan.meaning, Function.update_apply, hname]
        by_cases hother : other = name
        · rw [if_pos hother, if_pos hother, Option.map_some, Table.new_columns, Table.contents, Table.new_versionChains]
          rfl
        · rw [if_neg hother, if_neg hother]
          rfl

theorem WellFormed.plain_dropTable (h : engine.WellFormed) :
    (engine.dropTable name = (.error (.tableNotFound name), engine) ∧ engine.plain name = none) ∨
      ((engine.dropTable name).1 = .ok () ∧ (engine.plain name).isSome = true ∧
        (engine.dropTable name).2.plain = Function.update engine.plain name none) := by
  have hmissing : name ∉ engine.tables.map Table.name → engine.plain name = none := by
    intro hname
    rw [plain_eq_none_iff]
    exact KeyedList.lookup_eq_none_iff.mpr fun table htable hsame => hname (List.mem_map.mpr ⟨table, htable, hsame⟩)
  unfold DatabaseEngine.dropTable
  split
  · cases hengine : engine.catalog.metadata name with
    | none =>
        have herr : engine.catalog.dropTable name = .error (.tableNotFound name) := by
          rw [Catalog.dropTable, Catalog.getTableEngine, hengine]
        rw [herr]
        refine .inl ⟨rfl, hmissing fun hname => ?_⟩
        have hregistered := (h.registered name).mpr hname
        rw [hengine] at hregistered
        cases hregistered
    | some engineName =>
        obtain ⟨kind, rfl, -⟩ := h.held name engineName hengine
        cases hcatalog : engine.catalog.dropTable name with
        | error err =>
            rw [Catalog.dropTable, Catalog.getTableEngine_of_metadata hengine] at hcatalog
            cases hcatalog
        | ok catalog =>
            have hmem := h.mem_names_of_dropTable hcatalog
            obtain ⟨table, htable, hname⟩ := List.mem_map.mp hmem
            have hfound : findTable name engine.tables = some table := hname ▸ h.findTable_self htable
            refine .inr ⟨rfl, by rw [plain_of_find hfound]; rfl, ?_⟩
            funext other
            rw [plain, Function.update_apply]
            dsimp only
            rw [h.filter_dropped hmem]
            by_cases hother : other = name
            · rw [if_pos hother, Option.map_eq_none_iff]
              refine KeyedList.lookup_eq_none_iff.mpr fun table htable hsame => ?_
              have hkept := (List.mem_filter.mp htable).2
              simp [hsame, hother] at hkept
            · rw [if_neg hother, plain]
              congr 1
              rw [findTable, KeyedList.lookup, List.find?_filter, findTable, KeyedList.lookup]
              congr 1
              funext table
              by_cases hname : table.name = other
              · simp [hname, hother]
              · simp [hname]
  · rename_i hnone
    refine .inl ⟨rfl, hmissing fun hname => ?_⟩
    obtain ⟨table, htable, rfl⟩ := List.mem_map.mp hname
    exact hnone (List.any_eq_true.mpr ⟨table, htable, eqIgnoreAsciiCase_refl _⟩)

/-- A table with other indexes. -/
theorem plain_reindexed (h : engine.WellFormed) (htable : findTable name engine.tables = some table) (indexes : List Index) :
    ({ engine with tables := updateTable name (fun _ => { table with indexes }) engine.tables } : DatabaseEngine).plain =
      engine.plain.onTable name fun table => { table with indexes := indexes.map (·.definition) } := by
  funext other
  rw [plain, PlainTables.onTable, Function.update_apply]
  dsimp only
  rw [h.updateTable_indexes htable]
  by_cases hother : other = name
  · subst hother
    have hfound : findTable other (updateTable other (fun old => { old with indexes }) engine.tables) =
        (findTable other engine.tables).map fun old => { old with indexes } :=
      KeyedList.lookup_update_self fun _ => rfl
    rw [if_pos rfl, hfound, htable, plain_of_find htable]
    rfl
  · have hkeeps : ∀ old : Table, ({ old with indexes } : Table).name = old.name := fun _ => rfl
    have hfound : findTable other (updateTable name (fun old => { old with indexes }) engine.tables) =
        findTable other engine.tables := KeyedList.lookup_update_of_ne hkeeps hother
    rw [if_neg hother, hfound, plain]

theorem onTable_of_find {change : PlainTable → PlainTable} {changed : PlainTable} {tables : PlainTables}
    {table : PlainTable} (htable : tables name = some table) (hchange : change table = changed) :
    tables.onTable name change = Function.update tables name (some changed) := by
  rw [PlainTables.onTable, htable, Option.map_some, hchange]

theorem indexColumns_ok {tableName : String} {columns : List String} {positions : List Nat}
    (hpositions : indexColumns table tableName columns = .ok positions) :
    positions = columns.filterMap fun column => table.columns.findIdx? fun candidate => candidate.name == column := by
  unfold indexColumns at hpositions
  rw [mapM_ok_iff_forall₂] at hpositions
  induction hpositions with
  | nil => rfl
  | cons hfirst _ ih =>
      rw [List.filterMap_cons, ← ih]
      split at hfirst
      · rename_i idx hidx
        rw [hidx, Except.ok.inj hfirst]
      · cases hfirst

theorem hasIndex_plain {indexName : String} (table : Table) :
    PlainTable.hasIndex indexName
        { columns := table.columns, indexes := table.definitions, rows := table.contents.rows } =
      table.indexes.any fun index => index.definition.name == indexName := by
  rw [PlainTable.hasIndex, Table.definitions, List.any_map]
  rfl

/-- CREATE INDEX leaves the tables with the index that it says, or is refused. -/
theorem plain_createIndex (h : engine.WellFormed) (indexName tableName : String) (columns : List String)
    (unique ifNotExists : Bool) :
    (∃ err, engine.executeCreateIndex indexName tableName columns unique ifNotExists = (.error err, engine)) ∨
      ∃ count, (engine.executeCreateIndex indexName tableName columns unique ifNotExists).1 = .ok count ∧
        (LogicalPlan.createIndex indexName tableName columns unique ifNotExists).Done engine.plain count ∧
        (engine.executeCreateIndex indexName tableName columns unique ifNotExists).2.plain =
          engine.plain.onTable tableName (PlainTable.withIndex indexName columns unique) := by
  unfold executeCreateIndex
  split
  · exact .inl ⟨_, rfl⟩
  · rename_i table htable
    have hfound := plain_of_find htable
    have hindexed := @hasIndex_plain indexName table
    split
    · rename_i hexists
      rw [hexists] at hindexed
      split
      · rename_i hif
        refine .inr ⟨0, rfl, ⟨_, hfound, ?_⟩, ?_⟩
        · rw [if_pos hindexed]
          exact ⟨hif, rfl⟩
        · rw [onTable_of_find hfound rfl, PlainTable.withIndex, if_pos hindexed]
          exact (Function.update_eq_self_iff.mpr hfound.symm).symm
      · exact .inl ⟨_, rfl⟩
    · rename_i hnew
      rw [Bool.eq_false_iff.mpr hnew, ← Bool.not_eq_true] at hindexed
      split
      · exact .inl ⟨_, rfl⟩
      · rename_i positions hpositions
        split
        · exact .inl ⟨_, rfl⟩
        · rename_i next hnext
          obtain ⟨index, rfl, hdefinition, -⟩ := Table.addIndex_ok hnext
          refine .inr ⟨1, rfl, ⟨_, hfound, ?_⟩, ?_⟩
          · rw [if_neg hindexed]
          · rw [plain_reindexed h htable, onTable_of_find hfound rfl, onTable_of_find hfound rfl, PlainTable.withIndex,
              if_neg hindexed, List.map_append, List.map_singleton, hdefinition, indexColumns_ok hpositions]
            rfl

theorem map_definition_eraseIdx {indexes : List Index} {indexName : String} {position : Nat}
    (hposition : (indexes.findIdx? fun index => index.definition.name == indexName) = some position) :
    (indexes.eraseIdx position).map (·.definition) =
      (indexes.map (·.definition)).eraseP fun definition => definition.name == indexName := by
  have herased : (indexes.eraseP fun index => index.definition.name == indexName) = indexes.eraseIdx position := by
    rw [List.eraseP_eq_eraseIdx, hposition]
  rw [← herased, List.eraseP_map]
  rfl

/-- DROP INDEX leaves the tables without the index, or is refused. -/
theorem plain_dropIndex (h : engine.WellFormed) (indexName tableName : String) (ifExists : Bool) :
    (∃ err, engine.executeDropIndex indexName tableName ifExists = (.error err, engine) ∧
        (LogicalPlan.dropIndex indexName tableName ifExists).Refused engine.plain) ∨
      ((engine.executeDropIndex indexName tableName ifExists).1 = .ok 1 ∧
        (LogicalPlan.dropIndex indexName tableName ifExists).Done engine.plain 1 ∧
        (engine.executeDropIndex indexName tableName ifExists).2.plain =
          engine.plain.onTable tableName (PlainTable.withoutIndex indexName)) := by
  unfold executeDropIndex
  split
  · rename_i hnone
    have hgone := plain_eq_none_iff.mpr hnone
    split
    · rename_i hif
      refine .inr ⟨rfl, ⟨rfl, .inr hif⟩, ?_⟩
      rw [PlainTables.onTable, hgone, Option.map_none]
      exact (Function.update_eq_self_iff.mpr hgone.symm).symm
    · rename_i hif
      refine .inl ⟨_, rfl, fun found hfound => ?_, Bool.eq_false_iff.mpr hif⟩
      rw [hgone] at hfound
      cases hfound
  · rename_i table htable
    have hfound := plain_of_find htable
    have hindexed := @hasIndex_plain indexName table
    unfold Table.dropIndex
    cases hposition : table.indexes.findIdx? fun index => index.definition.name == indexName with
    | none =>
        have hnone := List.findIdx?_eq_none_iff.mp hposition
        dsimp only
        split
        · rename_i hif
          refine .inr ⟨rfl, ⟨rfl, .inr hif⟩, ?_⟩
          have hkept : (table.definitions.eraseP fun definition => definition.name == indexName) = table.definitions := by
            refine List.eraseP_of_forall_not fun definition hdefinition => ?_
            obtain ⟨index, hindex, rfl⟩ := List.mem_map.mp hdefinition
            exact Bool.eq_false_iff.mp (hnone index hindex)
          rw [onTable_of_find hfound rfl, PlainTable.withoutIndex]
          dsimp only
          rw [hkept]
          exact (Function.update_eq_self_iff.mpr hfound.symm).symm
        · rename_i hif
          refine .inl ⟨_, rfl, fun given hgiven => ?_, Bool.eq_false_iff.mpr hif⟩
          obtain rfl := Option.some.inj (hfound.symm.trans hgiven)
          rw [hindexed, List.any_eq_false]
          exact fun index hindex => Bool.eq_false_iff.mp (hnone index hindex)
    | some position =>
        obtain ⟨hlt, hname, -⟩ := List.findIdx?_eq_some_iff_getElem.mp hposition
        refine .inr ⟨rfl, ⟨rfl, .inl ⟨_, hfound, ?_⟩⟩, ?_⟩
        · rw [hindexed]
          exact List.any_eq_true.mpr ⟨_, List.getElem_mem hlt, hname⟩
        · dsimp only
          rw [plain_reindexed h htable, onTable_of_find hfound rfl, onTable_of_find hfound rfl, PlainTable.withoutIndex]
          dsimp only
          rw [map_definition_eraseIdx hposition]
          rfl

/-- Every statement is a step of the plain tables. -/
theorem Kept.plainStep (h : engine.Kept) {plan : LogicalPlan}
    (hguard : SteadyGuard engine { op := .execute plan, orders }) (hfits : plan.Fits engine.plain) :
    PlainStep engine.plain (.statement plan orders) (engine.execute orders plan).1
      (engine.execute orders plan).2.plain := by
  cases plan with
  | insert name new => exact @Kept.plainStep_rows engine orders name (.insert new) h hguard hfits
  | update name assignments filter =>
      exact @Kept.plainStep_rows engine orders name (.update assignments filter) h hguard hfits
  | delete name filter => exact @Kept.plainStep_rows engine orders name (.delete filter) h hguard hfits
  | createTable name columns engineName =>
      rw [execute, affecting]
      rcases plain_createTable engine name columns engineName with ⟨err, hrefused⟩ | ⟨hok, hfree, hplain⟩
      · rw [hrefused]
        exact .refused _ _ err trivial
      · rw [hok, hplain]
        exact .done _ _ 0 ⟨rfl, hfree⟩
  | dropTable name ifExists =>
      rw [execute]
      rcases @WellFormed.plain_dropTable engine name h.wellFormed with ⟨hrefused, hmissing⟩ | ⟨hok, hthere, hplain⟩
      · rw [hrefused]
        dsimp only
        cases ifExists with
        | false => exact .refused _ _ _ ⟨hmissing, rfl⟩
        | true =>
            have hdone : PlainStep engine.plain (.statement (.dropTable name true) orders) (.ok 0)
                (Function.update engine.plain name none) := .done _ _ 0 ⟨rfl, .inr rfl⟩
            rwa [Function.update_eq_self_iff.mpr hmissing.symm] at hdone
      · rw [hok]
        dsimp only
        rw [affecting, hok, hplain]
        exact .done _ _ 0 ⟨rfl, .inl hthere⟩
  | alterTableEngine name targetEngine =>
      have hsame : (engine.alterTableEngine name targetEngine).2.plain = engine.plain := plain_of_tables rfl
      rw [execute, affecting, hsame]
      cases (engine.alterTableEngine name targetEngine).1 with
      | error err => exact .refused _ _ err trivial
      | ok u => exact .done _ _ 0 rfl
  | createIndex name tableName columns unique ifNotExists =>
      rw [execute]
      rcases plain_createIndex h.wellFormed name tableName columns unique ifNotExists with
        ⟨err, hrefused⟩ | ⟨count, hok, hdone, hplain⟩
      · rw [hrefused]
        exact .refused _ _ err trivial
      · rw [hok, hplain]
        exact .done _ _ count hdone
  | dropIndex name tableName ifExists =>
      rw [execute]
      rcases plain_dropIndex h.wellFormed name tableName ifExists with ⟨err, hrefused, hwhy⟩ | ⟨hok, hdone, hplain⟩
      · rw [hrefused]
        exact .refused _ _ err hwhy
      · rw [hok, hplain]
        exact .done _ _ 1 hdone

/-! ### Runs -/

theorem Kept.acceptedSafe (h : engine.Kept) (hroom : engine.CounterRoom) {plan : LogicalPlan}
    (hapart : plan.KeepsApart engine.plain) : engine.AcceptedSafe { op := .execute plan, orders } := by
  cases plan with
  | insert name new => exact @Kept.acceptedSafe_rows engine orders name (.insert new) h hroom hapart
  | update name assignments filter => exact @Kept.acceptedSafe_rows engine orders name (.update assignments filter) h hroom hapart
  | delete name filter => exact @Kept.acceptedSafe_rows engine orders name (.delete filter) h hroom hapart
  | createTable | dropTable | alterTableEngine | createIndex | dropIndex => exact acceptedSafe_of_none rfl

/-- The operations of a shutdown on its files: the checkpoint goes into the log, then `rotate` removes the old log and gives
the log its name. -/
def shutdownOps : List (DatabaseEngine → DatabaseEngine) :=
  [writeCheckpoint, fun engine => { engine with walOld := [] }, fun engine => { engine with walOld := engine.wal, wal := [] }]

/-- A shutdown of which so many file operations are done. The append of the checkpoint is one of them: that a record may be
torn within it is left out. -/
def stoppedShutdown (engine : DatabaseEngine) (stopped : Nat) : DatabaseEngine :=
  (shutdownOps.take stopped).foldl (fun engine operation => operation engine) engine

/-- All operations are the shutdown. -/
theorem stoppedShutdown_all (engine : DatabaseEngine) {stopped : Nat} (h : shutdownOps.length ≤ stopped) :
    engine.stoppedShutdown stopped = engine.shutdown := by
  rw [stoppedShutdown, List.take_of_length_le h]
  rfl

def clientStep (engine : DatabaseEngine) : ClientCall → DatabaseEngine
  | .statement plan orders => engine.serialStep { op := .execute plan, orders }
  | .checkpoint => engine.serialStep { op := .checkpoint, orders := .asGiven }
  | .restart stopped defaultEngine loaded =>
      (engine.stoppedShutdown stopped).serialStep { op := .reopen defaultEngine loaded, orders := .asGiven }

/-- What a call returns; a checkpoint or a restart returns nothing. -/
def clientResult (engine : DatabaseEngine) : ClientCall → Except HelionError Nat
  | .statement plan orders => (engine.execute orders plan).1
  | .checkpoint | .restart _ _ _ => .ok 0

/-- One call after the other, with what they return. -/
def clientResults (engine : DatabaseEngine) : List ClientCall → List (ClientCall × Except HelionError Nat)
  | [] => []
  | call :: rest => (call, engine.clientResult call) :: (engine.clientStep call).clientResults rest

/-- Calls under which a database does what is said of its plain tables: ids are left, and a statement inserts rows that fit,
sets columns that are there and, where no held key stops it, leaves the keys of unique indexes apart. -/
structure PlainGuard (engine : DatabaseEngine) (call : ClientCall) : Prop where
  room : engine.CounterRoom
  fits : ∀ plan orders, call = .statement plan orders → plan.Fits engine.plain
  apart : ∀ plan orders, call = .statement plan orders → plan.KeepsApart engine.plain

theorem plainGuard_statement {plan : LogicalPlan} (hroom : engine.CounterRoom) (hfits : plan.Fits engine.plain)
    (hapart : plan.KeepsApart engine.plain) (orders : CommitOrders) : engine.PlainGuard (.statement plan orders) := by
  refine ⟨hroom, fun given _ heq => ?_, fun given _ heq => ?_⟩
  · rw [← (ClientCall.statement.inj heq).1]
    exact hfits
  · rw [← (ClientCall.statement.inj heq).1]
    exact hapart

/-- A call that is no statement asks for ids only. -/
theorem plainGuard_quiet {call : ClientCall} (hroom : engine.CounterRoom)
    (hquiet : ∀ plan orders, call ≠ .statement plan orders) : engine.PlainGuard call :=
  ⟨hroom, fun plan orders heq => absurd heq (hquiet plan orders), fun plan orders heq => absurd heq (hquiet plan orders)⟩

/-- An engine that is opened again has the rows, and the indexes that the schema demands. -/
theorem Kept.plain_reopen (h : engine.Kept) (defaultEngine : String) (loaded : String → Option Table) :
    (engine.serialStep { op := .reopen defaultEngine loaded, orders := .asGiven }).plain = engine.plain.restarted := by
  obtain ⟨next, hopen, htables, -⟩ := h.wellFormed.reopen defaultEngine loaded
  have hstep : engine.serialStep { op := .reopen defaultEngine loaded, orders := .asGiven } = next := by
    simp only [serialStep, hopen]
  have himage : next.tables.map Table.image = engine.tables.map Table.image := by
    have hrecovered : engine.recovered.map Table.image = engine.tables.map Table.image := h.mirrored
    rw [htables, List.map_map, ← hrecovered]
    exact List.map_congr_left fun table _ => rebuildIfEmpty_image table
  funext name
  have hfound := findTable_image himage name
  rw [hstep, plain, PlainTables.restarted, plain]
  cases hnext : findTable name next.tables with
  | none =>
      rw [hnext] at hfound
      rw [Option.map_eq_none_iff.mp hfound.symm]
      rfl
  | some table =>
      rw [hnext, Option.map_some] at hfound
      obtain ⟨old, hold, hsame⟩ := Option.map_eq_some_iff.mp hfound.symm
      obtain ⟨hmem, hname⟩ := KeyedList.mem_of_lookup hnext
      rw [htables] at hmem
      obtain ⟨replayed, hreplayed, rfl⟩ := List.mem_map.mp hmem
      have hcolumns : old.columns = (rebuildIfEmpty replayed).columns := congrArg TableImage.columns hsame
      have hchains : old.versionChains = (rebuildIfEmpty replayed).versionChains := congrArg TableImage.versionChains hsame
      obtain ⟨hname', hcolumns', -⟩ := TableImage.mk.inj (rebuildIfEmpty_image replayed)
      have hdefinitions : (rebuildIfEmpty replayed).definitions = (Table.new name old.columns).definitions := by
        rw [rebuildIfEmpty_definitions, Table.definitions, built_recovered _ replayed hreplayed, ← hname', hname, hcolumns,
          hcolumns']
        rfl
      rw [hold, Option.map_some, Option.map_some, Option.map_some, hdefinitions, hcolumns, Table.contents, Table.contents,
        hchains]

/-- A call that commits nothing. -/
theorem Kept.transition_of_none (h : engine.Kept) {call : SerialCall} (hroom : engine.CounterRoom)
    (hpending : engine.pending call.op = none) {after : DatabaseEngine} (htransition : Transition engine call after) :
    after.Kept := by
  have hguard := indexGuard_of_none hroom hpending
  refine ⟨h.toSteady.transition ⟨hroom, hguard.safe⟩ htransition,
    h.consistent.transition h.wellFormed h.dated hguard htransition,
    h.mirrored.transition h.wellFormed (fun begun tx hsome => ?_) htransition⟩
  rw [hpending] at hsome
  cases hsome

/-- An engine with other logs that rebuild the same tables. -/
theorem Kept.relogged (h : engine.Kept) {walOld wal : List WalRecord}
    (hmirrored : ({ engine with walOld, wal } : DatabaseEngine).Mirrored) :
    ({ engine with walOld, wal } : DatabaseEngine).Kept where
  wellFormed := ⟨h.wellFormed.names, h.wellFormed.registered, h.wellFormed.held, h.wellFormed.saved,
    WellFormed.map_schema_of_image hmirrored⟩
  dated := ⟨h.dated.positive, h.dated.bounded, h.dated.live, h.dated.live.of_image hmirrored⟩
  settled := ⟨h.settled.zero, h.settled.live, h.settled.live.of_image hmirrored⟩
  consistent := h.consistent
  mirrored := hmirrored

/-- A shutdown changes nothing but the logs, and wherever it stops they rebuild the tables. -/
theorem Mirrored.stoppedShutdown (h : engine.Mirrored) (stopped : Nat) :
    ∃ walOld wal, engine.stoppedShutdown stopped = { engine with walOld, wal } ∧
      ({ engine with walOld, wal } : DatabaseEngine).Mirrored := by
  have hcheckpoint : ∀ walOld, ({ engine with walOld, wal := engine.wal ++ [checkpointRecord engine.tables] } :
      DatabaseEngine).Mirrored := by
    intro walOld
    rw [Mirrored, recovered, replayWal, ← List.append_assoc]
    exact WellFormed.recovered_checkpoint _ _
  rcases stopped with _ | _ | _ | stopped
  · exact ⟨engine.walOld, engine.wal, rfl, h⟩
  · exact ⟨_, _, rfl, hcheckpoint engine.walOld⟩
  · exact ⟨_, _, rfl, hcheckpoint []⟩
  · refine ⟨_, _, stoppedShutdown_all engine (Nat.le_add_left 3 stopped), ?_⟩
    rw [Mirrored, recovered, replayWal, List.append_nil]
    exact WellFormed.recovered_checkpoint _ _

theorem Kept.reopen (h : engine.Kept) (hroom : engine.CounterRoom) (defaultEngine : String)
    (loaded : String → Option Table) :
    (engine.serialStep { op := .reopen defaultEngine loaded, orders := .asGiven }).Kept :=
  h.transition_of_none hroom rfl (serialStep_transition _ _)

/-- Calls keep what serial calls keep. -/
theorem Kept.call (h : engine.Kept) {call : ClientCall} (hguard : engine.PlainGuard call) :
    (engine.clientStep call).Kept := by
  cases call with
  | statement plan orders =>
      have hsafe := @Kept.acceptedSafe engine orders h hguard.room plan (hguard.apart plan orders rfl)
      have htransition := serialStep_transition engine { op := .execute plan, orders }
      refine ⟨h.toSteady.transition ⟨hguard.room, hsafe⟩ htransition,
        h.consistent.transition h.wellFormed h.dated
          ⟨hguard.room, hsafe, writesExact_execute h.wellFormed h.dated plan orders⟩ htransition,
        h.mirrored.transition h.wellFormed (replayGuard_execute h.wellFormed plan orders ?_) htransition⟩
      rintro name rows table rfl htable
      exact hguard.fits _ orders rfl _ (plain_of_find htable)
  | checkpoint =>
      have htransition := serialStep_transition engine { op := .checkpoint, orders := .asGiven }
      exact h.transition_of_none hguard.room rfl htransition
  | restart stopped defaultEngine loaded =>
      obtain ⟨walOld, wal, hstopped, hmirrored⟩ := h.mirrored.stoppedShutdown stopped
      rw [clientStep, hstopped]
      exact (h.relogged hmirrored).reopen hguard.room defaultEngine loaded

/-- What the next reader sees of every table is what the plain tables hold, in the order of the positions. -/
def ShowsPlain (engine : DatabaseEngine) : Prop :=
  ∀ table ∈ engine.tables, ∃ shown, engine.plain table.name = some shown ∧
    (table.scanVisible engine.readSnapshot.1.txid engine.readSnapshot.1.active).map Prod.snd = shown.rows.filterMap id

theorem Steady.showsPlain (h : engine.Steady) : engine.ShowsPlain := by
  intro table htable
  refine ⟨_, plain_of_find (h.wellFormed.findTable_self htable), ?_⟩
  have hselected := h.selectRows_eq htable fun _ => true
  rw [selectRows, List.filter_true, List.filter_true] at hselected
  rw [hselected, TableContents.entries, List.map_filterMap]
  conv_rhs => rw [← List.zipIdx_map_fst 0 table.contents.rows, List.filterMap_map]
  refine List.filterMap_congr fun entry _ => ?_
  obtain ⟨row, idx⟩ := entry
  cases row <;> rfl

/-- Each call is a step of the plain tables. -/
theorem Kept.plainStep_call (h : engine.Kept) {call : ClientCall} (hguard : engine.PlainGuard call) :
    PlainStep engine.plain call (engine.clientResult call) (engine.clientStep call).plain := by
  cases call with
  | statement plan orders =>
      exact h.plainStep ⟨hguard.room, h.acceptedSafe hguard.room (hguard.apart plan orders rfl)⟩ (hguard.fits plan orders rfl)
  | checkpoint =>
      have hplain : (engine.clientStep .checkpoint).plain = engine.plain := plain_of_tables rfl
      rw [hplain]
      exact .checkpointed
  | restart stopped defaultEngine loaded =>
      have hplain : (engine.clientStep (.restart stopped defaultEngine loaded)).plain = engine.plain.restarted := by
        obtain ⟨walOld, wal, hstopped, hmirrored⟩ := h.mirrored.stoppedShutdown stopped
        rw [clientStep, hstopped, (h.relogged hmirrored).plain_reopen]
        rfl
      rw [hplain]
      exact .restarted stopped defaultEngine loaded

/-- So a run of calls is a run of the plain tables. -/
theorem Kept.plainRun (h : engine.Kept) {calls : List ClientCall} (hguard : Meets clientStep PlainGuard engine calls) :
    PlainRun engine.plain (engine.clientResults calls) (calls.foldl clientStep engine).plain ∧
      (calls.foldl clientStep engine).Kept := by
  induction calls generalizing engine with
  | nil => exact ⟨.nil _, h⟩
  | cons call rest ih =>
      obtain ⟨hcall, hrest⟩ := hguard
      obtain ⟨hrun, hafter⟩ := ih (h.call hcall) hrest
      exact ⟨.cons (h.plainStep_call hcall) hrun, hafter⟩

theorem Kept.fresh (defaultEngine : String) : (DatabaseEngine.fresh defaultEngine).Kept where
  wellFormed := WellFormed.fresh defaultEngine
  dated := Dated.fresh defaultEngine
  settled := Settled.fresh defaultEngine
  consistent := List.forall_mem_nil _
  mirrored := rfl

/-- A serial client of a new database sees plain tables: each of its statements does what is said of them or is refused,
a restart keeps the rows, and the next reader sees the rows that they hold. -/
theorem clientResults_plainRun (defaultEngine : String) {calls : List ClientCall}
    (hguard : Meets clientStep PlainGuard (fresh defaultEngine) calls) :
    PlainRun (fun _ => none) ((fresh defaultEngine).clientResults calls)
        (calls.foldl clientStep (fresh defaultEngine)).plain ∧
      (calls.foldl clientStep (fresh defaultEngine)).ShowsPlain := by
  obtain ⟨hrun, hkept⟩ := (Kept.fresh defaultEngine).plainRun hguard
  exact ⟨hrun, hkept.toSteady.showsPlain⟩

/-- A table with a primary key and two rows, of which one gets another key after a checkpoint and one is deleted, and a
process that is stopped within its shutdown. -/
def twoKeysStopped : List ClientCall :=
  [.statement (.createTable "t" [(ColumnMeta.new "id" .integer).primaryKey] none) .asGiven,
    .statement (.insert "t" (keyRows [.integer 1, .integer 2])) .asGiven, .checkpoint,
    .statement (.update "t" [(0, .integer 3)] fun row => row.values = [.integer 1]) .asGiven,
    .statement (.delete "t" fun row => row.values = [.integer 2]) .asGiven, .restart 2 "disk" fun _ => none]

/-- The engine after so many of these calls. -/
def twoKeysEngine (done : Nat) : DatabaseEngine := (twoKeysStopped.take done).foldl clientStep (fresh "disk")

/-- The table of that engine with these rows. -/
def keyedRowsAt (rows : List (Option Row)) : PlainTable where
  columns := [(ColumnMeta.new "id" .integer).primaryKey]
  indexes := [{ name := "pk_t", columns := [0], isUnique := true }]
  rows

theorem clientResults_plainRun_twoKeysStopped :
    PlainRun (fun _ => none) ((fresh "disk").clientResults twoKeysStopped)
        (twoKeysStopped.foldl clientStep (fresh "disk")).plain ∧
      (twoKeysStopped.foldl clientStep (fresh "disk")).ShowsPlain := by
  have hroom : ∀ done ∈ List.range 6, (twoKeysEngine done).CounterRoom := by
    unfold CounterRoom
    decide
  have hcreated : (twoKeysEngine 1).plain "t" = some (keyedRowsAt []) := rfl
  have hinserted : (twoKeysEngine 3).plain "t" =
      some (keyedRowsAt [some { values := [.integer 1] }, some { values := [.integer 2] }]) := rfl
  have hupdated : (twoKeysEngine 4).plain "t" =
      some (keyedRowsAt [some { values := [.integer 3] }, some { values := [.integer 2] }]) := rfl
  refine clientResults_plainRun "disk" ⟨plainGuard_statement (hroom 0 (by decide)) (by exact trivial) (by exact trivial) _,
    plainGuard_statement (hroom 1 (by decide)) ?_ ?_ _, plainGuard_quiet (hroom 2 (by decide)) (by simp),
    plainGuard_statement (hroom 3 (by decide)) ?_ ?_ _, plainGuard_statement (hroom 4 (by decide)) (by exact trivial) ?_ _,
    plainGuard_quiet (hroom 5 (by decide)) (by simp), trivial⟩
  · -- The rows that are inserted fit.
    intro table htable
    obtain rfl := Option.some.inj (hcreated.symm.trans htable)
    decide
  · -- Their keys differ.
    intro table htable _
    obtain rfl := Option.some.inj (hcreated.symm.trans htable)
    exact RowStatement.leavesApart_of_pairwise (by decide)
  · -- The column that is set is there.
    rintro table htable ⟨row, hrow, -, hmissing⟩
    obtain rfl := Option.some.inj (hinserted.symm.trans htable)
    simp [keyedRowsAt] at hrow
    rcases hrow with rfl | rfl <;> cases hmissing
  · -- The new key is no other row's.
    intro table htable _
    obtain rfl := Option.some.inj (hinserted.symm.trans htable)
    exact RowStatement.leavesApart_of_pairwise (by decide)
  · intro table htable _
    obtain rfl := Option.some.inj (hupdated.symm.trans htable)
    exact RowStatement.leavesApart_of_pairwise (by decide)

end DatabaseEngine

end HelionDb
