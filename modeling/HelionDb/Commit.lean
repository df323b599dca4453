import HelionDb.Engine

/-! What the phases of a commit do. The storage engines accept a write set when they hold its tables.
The in-memory phase gives each table its new chains and carries out, on each of its indexes, the pair
changes of the entries in order; it gets through when those are admissible. -/

namespace HelionDb

namespace Catalog

/-- Two catalogs that route alike and hold tables of the same names. -/
structure SameRouting (left right : Catalog) : Prop where
  metadata : left.metadata = right.metadata
  defaultEngine : left.defaultEngine = right.defaultEngine
  saved : left.saved = right.saved
  holds : ∀ kind name, (left.engines kind name).isSome = (right.engines kind name).isSome

namespace SameRouting

variable {left middle right : Catalog}

theorem refl (catalog : Catalog) : SameRouting catalog catalog := ⟨rfl, rfl, rfl, fun _ _ => rfl⟩

theorem trans (first : SameRouting left middle) (second : SameRouting middle right) :
    SameRouting left right :=
  ⟨first.metadata.trans second.metadata, first.defaultEngine.trans second.defaultEngine,
    first.saved.trans second.saved, fun kind name => (first.holds kind name).trans (second.holds kind name)⟩

theorem symm (h : SameRouting left right) : SameRouting right left :=
  ⟨h.metadata.symm, h.defaultEngine.symm, h.saved.symm, fun kind name => (h.holds kind name).symm⟩

theorem routeOf (h : SameRouting left right) (name : String) : left.routeOf name = right.routeOf name := by
  simp only [Catalog.routeOf, h.metadata, h.defaultEngine]

theorem holds_iff (h : SameRouting left right) (name : String) : left.Holds name ↔ right.Holds name := by
  simp only [Holds, h.routeOf, h.holds]

end SameRouting

/-- Replacing a table that an engine holds changes no routing. -/
theorem sameRouting_setTable {catalog : Catalog} {kind : EngineKind} {name : String}
    (hheld : (catalog.engines kind name).isSome) (table : Table) :
    SameRouting (catalog.setTable kind name (some table)) catalog := by
  refine ⟨rfl, rfl, rfl, fun other otherName => ?_⟩
  by_cases hkind : other = kind
  · subst hkind
    by_cases hname : otherName = name
    · subst hname
      simp [setTable, hheld]
    · simp [setTable, hname]
  · simp [setTable, hkind]

end Catalog

theorem applyToEngine_sameRouting (tx : Transaction) (snapshot : String → Option Table) (name : String)
    (catalog : Catalog) : Catalog.SameRouting (applyToEngine tx snapshot name catalog).2 catalog := by
  unfold applyToEngine Catalog.applyChanges
  split
  · exact .refl catalog
  · split
    · exact .refl catalog
    · rename_i table hheld
      exact Catalog.sameRouting_setTable (by rw [hheld]; rfl) _

theorem applyToEngine_ok_iff {tx : Transaction} {snapshot : String → Option Table} {name : String}
    {catalog : Catalog} : (applyToEngine tx snapshot name catalog).1 = .ok () ↔ catalog.Holds name := by
  unfold applyToEngine Catalog.applyChanges Catalog.Holds
  split
  · rename_i hroute
    simp [hroute]
  · rename_i kind hroute
    split
    · rename_i hnone
      simp [hroute, hnone]
    · rename_i table hheld
      simp [hroute, hheld]

/-- The storage-engine phase gets through exactly when every named table is held. -/
theorem applyToEngines_ok_iff {order : HashOrder} {tx : Transaction} {snapshot : String → Option Table}
    {catalog : Catalog} :
    (applyToEngines order tx snapshot catalog).1 = .ok () ↔ ∀ name ∈ tx.tableNames, catalog.Holds name := by
  have hstep : ∀ (name : String) (state : Catalog),
      (applyToEngine tx snapshot name state).1 = .ok () ↔ state.Holds name :=
    fun _ _ => applyToEngine_ok_iff
  refine (Loop.runAll_ok_iff_forall _ hstep ?_ (order.nodup tx.nodup_tableNames)).trans ?_
  · exact fun item other state _ => (applyToEngine_sameRouting tx snapshot item state).holds_iff other
  · simp only [HashOrder.mem_order]

theorem applyToEngines_sameRouting (order : HashOrder) (tx : Transaction)
    (snapshot : String → Option Table) (catalog : Catalog) :
    Catalog.SameRouting (applyToEngines order tx snapshot catalog).2 catalog :=
  Loop.runAll_invariant _ (fun name _ state hstate => (applyToEngine_sameRouting tx snapshot name state).trans hstate)
    (.refl catalog)

/-- The old row that maintenance uses for an entry. -/
def oldRowOf (snapshot : String → Option Table) (entry : WriteEntry) : Option Row :=
  (snapshot entry.tableName).bind fun copy => copy.getVisibleRow entry.rowIdx

/-- The pair changes that entries ask of an index with this definition. -/
def indexChanges (snapshot : String → Option Table) (definition : IndexMeta) (entries : List WriteEntry) :
    List (KeyPairs.Change (List Datum) Nat) :=
  entries.flatMap fun entry => entry.operation.keyChanges definition (oldRowOf snapshot entry) entry.rowIdx

theorem indexChanges_cons (snapshot : String → Option Table) (definition : IndexMeta) (entry : WriteEntry)
    (rest : List WriteEntry) :
    indexChanges snapshot definition (entry :: rest) =
      entry.operation.keyChanges definition (oldRowOf snapshot entry) entry.rowIdx ++
        indexChanges snapshot definition rest := List.flatMap_cons

/-- Maintenance of one index for one entry. -/
def maintainIndex (snapshot : String → Option Table) (entry : WriteEntry) (index : Index) :
    Loop.Outcome HelionError Index :=
  index.applyChange entry.operation (oldRowOf snapshot entry) entry.rowIdx

section MaintainIndex

variable {snapshot : String → Option Table} {entries : List WriteEntry} {index : Index}

theorem maintainIndex_definition (snapshot : String → Option Table) (entries : List WriteEntry)
    (index : Index) :
    (Loop.runAll (maintainIndex snapshot) entries index).2.definition = index.definition :=
  Loop.runAll_invariant (maintainIndex snapshot)
    (fun _ _ state hstate => (Index.applyChange_definition _ _ _ state).trans hstate) rfl

theorem maintainIndex_ok_iff :
    (Loop.runAll (maintainIndex snapshot) entries index).1 = .ok () ↔
      (∀ entry ∈ entries, ¬ entry.operation.LacksOldRow (oldRowOf snapshot entry)) ∧
        KeyPairs.Admissible index.definition.isUnique index.pairs
          (indexChanges snapshot index.definition entries) := by
  induction entries generalizing index with
  | nil => simp [indexChanges, KeyPairs.Admissible]
  | cons entry rest ih =>
      rw [Loop.runAll_cons_ok_iff, List.forall_mem_cons, indexChanges_cons, KeyPairs.admissible_append]
      constructor
      · rintro ⟨hentry, hrest⟩
        obtain ⟨hold, hadmits⟩ := Index.applyChange_ok_iff.mp hentry
        obtain ⟨hothers, hlater⟩ := ih.mp hrest
        rw [maintainIndex, Index.applyChange_definition, Index.pairs_applyChange hentry] at hlater
        exact ⟨⟨hold, hothers⟩, hadmits, hlater⟩
      · rintro ⟨⟨hold, hothers⟩, hadmits, hlater⟩
        have hentry := Index.applyChange_ok_iff.mpr ⟨hold, hadmits⟩
        refine ⟨hentry, ih.mpr ⟨hothers, ?_⟩⟩
        rw [maintainIndex, Index.applyChange_definition, Index.pairs_applyChange hentry]
        exact hlater

theorem pairs_maintainIndex (hok : (Loop.runAll (maintainIndex snapshot) entries index).1 = .ok ()) :
    (Loop.runAll (maintainIndex snapshot) entries index).2.pairs =
      KeyPairs.applyAll index.pairs (indexChanges snapshot index.definition entries) := by
  induction entries generalizing index with
  | nil => rfl
  | cons entry rest ih =>
      obtain ⟨hentry, hrest⟩ := (Loop.runAll_cons_ok_iff _).mp hok
      rw [Loop.runAll_cons_ok _ hentry, ih hrest, indexChanges_cons, KeyPairs.applyAll_append, maintainIndex,
        Index.applyChange_definition, Index.pairs_applyChange hentry]

end MaintainIndex

/-- Index maintenance of a list of entries goes through on a table. -/
def MaintenanceAdmissible (snapshot : String → Option Table) (entries : List WriteEntry) (table : Table) :
    Prop :=
  ∀ index ∈ table.indexes,
    (∀ entry ∈ entries, ¬ entry.operation.LacksOldRow (oldRowOf snapshot entry)) ∧
      KeyPairs.Admissible index.definition.isUnique index.pairs (indexChanges snapshot index.definition entries)

section InstallOn

variable (tx : Transaction) (snapshot : String → Option Table) (name : String) (chains : List Chain)
  (table : Table)

/-- The new chains go in first, then each index is maintained on its own. -/
theorem installOn_eq :
    installOn tx snapshot name chains table =
      ((Loop.runAll (fun entry => Loop.updateEach (maintainIndex snapshot entry)) (tx.entriesOf name)
          table.indexes).1,
        { table with
          versionChains := chains
          indexes := (Loop.runAll (fun entry => Loop.updateEach (maintainIndex snapshot entry))
            (tx.entriesOf name) table.indexes).2 }) :=
  Loop.runAll_lift (maintainEntry snapshot)
    (fun indexes => { table with versionChains := chains, indexes := indexes })
    (fun _ _ => rfl) (tx.entriesOf name) table.indexes

@[simp] theorem installOn_name : (installOn tx snapshot name chains table).2.name = table.name := by
  rw [installOn_eq]

@[simp] theorem installOn_columns : (installOn tx snapshot name chains table).2.columns = table.columns := by
  rw [installOn_eq]

@[simp] theorem installOn_versionChains :
    (installOn tx snapshot name chains table).2.versionChains = chains := by
  rw [installOn_eq]

variable {tx snapshot name chains table}

theorem installOn_ok_iff :
    (installOn tx snapshot name chains table).1 = .ok () ↔
      MaintenanceAdmissible snapshot (tx.entriesOf name) table := by
  rw [installOn_eq]
  refine (Loop.runAll_updateEach_ok_iff (maintainIndex snapshot)).trans ?_
  exact forall₂_congr fun index _ => maintainIndex_ok_iff

/-- After maintenance every index holds its old pairs under the changes of the entries. -/
theorem installOn_indexes (hok : MaintenanceAdmissible snapshot (tx.entriesOf name) table) :
    (installOn tx snapshot name chains table).2.indexes =
      table.indexes.map fun index => (Loop.runAll (maintainIndex snapshot) (tx.entriesOf name) index).2 := by
  rw [installOn_eq]
  exact Loop.runAll_updateEach_of_ok (maintainIndex snapshot) fun index hindex =>
    maintainIndex_ok_iff.mpr (hok index hindex)

end InstallOn

/-! ### The in-memory phase -/

section Install

variable {order : HashOrder} {tx : Transaction} {snapshot : String → Option Table} {name other : String}
  {names : List String} {tables : List Table}

theorem applyWriteSet_some {chains : List Chain} (h : applyWriteSet tx snapshot name = some chains) :
    name ∈ tx.tableNames ∧ ∃ copy, snapshot name = some copy ∧
      chains = placeAll tx.txId copy.versionChains (tableChanges tx snapshot name) := by
  unfold applyWriteSet at h
  split at h
  · rename_i hname
    obtain ⟨copy, hcopy, rfl⟩ := Option.map_eq_some_iff.mp h
    exact ⟨hname, copy, hcopy, rfl⟩
  · cases h

/-- Whatever installing keeps of each table is kept of the list of tables. -/
theorem map_installTable {γ : Type} {g : Table → γ}
    (hg : ∀ name chains table, g (installOn tx snapshot name chains table).2 = g table) (name : String)
    (tables : List Table) : (installTable tx snapshot name tables).2.map g = tables.map g := by
  unfold installTable
  split
  · rfl
  · split
    · rfl
    · exact KeyedList.map_update_of_keeps fun table => hg name _ table

theorem map_installWrites {γ : Type} {g : Table → γ}
    (hg : ∀ name chains table, g (installOn tx snapshot name chains table).2 = g table) (order : HashOrder)
    (tables : List Table) : (installWrites order tx snapshot tables).2.map g = tables.map g :=
  Loop.runAll_invariant _ (fun name _ state hstate => (map_installTable hg name state).trans hstate) rfl

/-- Installing one table leaves the others alone. -/
theorem findTable_installTable_of_ne (hother : other ≠ name) :
    findTable other (installTable tx snapshot name tables).2 = findTable other tables := by
  unfold installTable
  split
  · rfl
  · split
    · rfl
    · exact KeyedList.lookup_update_of_ne (fun table => installOn_name tx snapshot name _ table) hother

/-- What installing a table leaves under its name, also when its indexes fail. -/
theorem findTable_installTable (tx : Transaction) (snapshot : String → Option Table) (name : String)
    (tables : List Table) :
    findTable name (installTable tx snapshot name tables).2 =
      match applyWriteSet tx snapshot name with
      | none => findTable name tables
      | some chains => (findTable name tables).map fun table => (installOn tx snapshot name chains table).2 := by
  cases hchains : applyWriteSet tx snapshot name with
  | none => simp only [installTable, hchains]
  | some chains =>
      cases htable : findTable name tables with
      | none => simp only [installTable, hchains, htable, Option.map_none]
      | some table =>
          simp only [installTable, hchains, htable]
          rw [← htable]
          exact KeyedList.lookup_update_self fun table => installOn_name tx snapshot name chains table

/-- Installing a table gets through when it has no new chains, is gone, or its indexes do. -/
theorem installTable_ok_iff :
    (installTable tx snapshot name tables).1 = .ok () ↔
      ∀ chains, applyWriteSet tx snapshot name = some chains → ∀ table, findTable name tables = some table →
        MaintenanceAdmissible snapshot (tx.entriesOf name) table := by
  unfold installTable
  split
  · rename_i hchains
    simp [hchains]
  · rename_i chains hchains
    split
    · rename_i hnone
      simp [hnone]
    · rename_i table htable
      simp only [hchains, htable, Option.some.injEq, forall_eq', installOn_ok_iff]

/-- A table that the loop does not visit stays. -/
theorem findTable_runAll_of_not_mem (hname : name ∉ names) :
    findTable name (Loop.runAll (installTable tx snapshot) names tables).2 = findTable name tables := by
  refine Loop.runAll_invariant (P := fun state => findTable name state = findTable name tables) _ ?_ rfl
  intro visited hvisited state hstate
  have hne : name ≠ visited := fun heq => hname (heq ▸ hvisited)
  exact (findTable_installTable_of_ne hne).trans hstate

/-- The table the loop leaves under a name is the old one, or the old one with its writes installed. -/
theorem findTable_runAll_cases (hnodup : names.Nodup) :
    findTable name (Loop.runAll (installTable tx snapshot) names tables).2 = findTable name tables ∨
      name ∈ names ∧ findTable name (Loop.runAll (installTable tx snapshot) names tables).2 =
        findTable name (installTable tx snapshot name tables).2 := by
  induction names generalizing tables with
  | nil => exact Or.inl rfl
  | cons visited rest ih =>
      obtain ⟨hvisited, hrest⟩ := List.nodup_cons.mp hnodup
      cases hitem : (installTable tx snapshot visited tables).1 with
      | error err =>
          rw [Loop.runAll_cons_error _ hitem]
          by_cases hname : name = visited
          · subst hname
            exact Or.inr ⟨List.mem_cons_self, rfl⟩
          · exact Or.inl (findTable_installTable_of_ne hname)
      | ok u =>
          rw [Loop.runAll_cons_ok _ hitem]
          by_cases hname : name = visited
          · subst hname
            exact Or.inr ⟨List.mem_cons_self, findTable_runAll_of_not_mem hvisited⟩
          · have hkeep := @findTable_installTable_of_ne tx snapshot visited name tables hname
            rcases @ih (installTable tx snapshot visited tables).2 hrest with hsame | ⟨hmem, hdone⟩
            · exact Or.inl (hsame.trans hkeep)
            · refine Or.inr ⟨List.mem_cons_of_mem _ hmem, ?_⟩
              rw [hdone, findTable_installTable, findTable_installTable, hkeep]

/-- When the loop gets through, every table it visits has its writes installed. -/
theorem findTable_runAll_of_ok (hnodup : names.Nodup) (hname : name ∈ names)
    (hok : (Loop.runAll (installTable tx snapshot) names tables).1 = .ok ()) :
    findTable name (Loop.runAll (installTable tx snapshot) names tables).2 =
      findTable name (installTable tx snapshot name tables).2 := by
  induction names generalizing tables with
  | nil => cases hname
  | cons visited rest ih =>
      obtain ⟨hvisited, hrest⟩ := List.nodup_cons.mp hnodup
      obtain ⟨hitem, hlater⟩ := (Loop.runAll_cons_ok_iff _).mp hok
      rw [Loop.runAll_cons_ok _ hitem]
      rcases List.mem_cons.mp hname with rfl | hmem
      · exact findTable_runAll_of_not_mem hvisited
      · have hne : name ≠ visited := fun heq => hvisited (heq ▸ hmem)
        rw [ih hrest hmem hlater, findTable_installTable, findTable_installTable,
          findTable_installTable_of_ne hne]

/-- The in-memory phase gets through exactly when index maintenance does on each table. -/
theorem installWrites_ok_iff :
    (installWrites order tx snapshot tables).1 = .ok () ↔
      ∀ name ∈ tx.tableNames, ∀ chains, applyWriteSet tx snapshot name = some chains →
        ∀ table, findTable name tables = some table →
          MaintenanceAdmissible snapshot (tx.entriesOf name) table := by
  have hstep : ∀ (name : String) (state : List Table), (installTable tx snapshot name state).1 = .ok () ↔
      ∀ chains, applyWriteSet tx snapshot name = some chains → ∀ table, findTable name state = some table →
        MaintenanceAdmissible snapshot (tx.entriesOf name) table := fun _ _ => installTable_ok_iff
  refine (Loop.runAll_ok_iff_forall _ hstep ?_ (order.nodup tx.nodup_tableNames)).trans ?_
  · intro item other state hne
    rw [findTable_installTable_of_ne hne]
  · simp only [HashOrder.mem_order]

end Install

/-! ### The whole commit -/

namespace DatabaseEngine

variable {engine : DatabaseEngine} {orders : CommitOrders} {tx : Transaction}

/-- Nothing but the transaction's status and the active set changes in a commit that stops before
its log phase; the others run the remaining phases on the copy of the tables. -/
theorem commit_cases (engine : DatabaseEngine) (orders : CommitOrders) (tx : Transaction) :
    (∃ err, (engine.commit orders tx).1 = .error err ∧
      ((engine.commit orders tx).2 = (tx, engine) ∨
        (engine.commit orders tx).2 = ({ tx with status := .aborted },
          { engine with mvcc := engine.mvcc.rollbackTransaction tx }))) ∨
    (tx.status = .inProgress ∧ ChecksAccept tx (snapshotTables engine.tables) ∧
      engine.commit orders tx = engine.commitChecked orders tx (snapshotTables engine.tables)) := by
  unfold commit
  split
  · exact Or.inl ⟨_, rfl, Or.inl rfl⟩
  · rename_i hstatus
    split
    · exact Or.inl ⟨_, rfl, Or.inr rfl⟩
    · rename_i hconflicts
      split
      · exact Or.inl ⟨_, rfl, Or.inl rfl⟩
      · rename_i hunique
        exact Or.inr ⟨not_not.mp hstatus, ⟨hconflicts, hunique⟩, rfl⟩

/-- A commit whose checks pass runs the remaining phases. -/
theorem commit_of_accepted (hstatus : tx.status = .inProgress)
    (haccept : ChecksAccept tx (snapshotTables engine.tables)) :
    engine.commit orders tx = engine.commitChecked orders tx (snapshotTables engine.tables) := by
  unfold commit
  rw [if_neg (not_not.mpr hstatus), haccept.1, haccept.2]

/-- A commit that a check stops changes nothing but the store. -/
theorem commit_of_not_accepted (haccept : ¬ ChecksAccept tx (snapshotTables engine.tables)) :
    (engine.commit orders tx).2.2 = { engine with mvcc := (engine.commit orders tx).2.2.mvcc } := by
  rcases commit_cases engine orders tx with ⟨err, -, hsame | haborted⟩ | ⟨-, hchecks, -⟩
  · rw [hsame]
  · rw [haborted]
  · exact absurd hchecks haccept

/-- The three ways a commit ends whose checks pass: a storage engine refuses, an index refuses, or
everything gets through. -/
theorem commitChecked_cases (engine : DatabaseEngine) (orders : CommitOrders) (tx : Transaction)
    (snapshot : String → Option Table) :
    (∃ err, (applyToEngines orders.engines tx snapshot engine.catalog).1 = .error err ∧
      engine.commitChecked orders tx snapshot =
        (.error err, tx, { engine.logWrites tx with
          catalog := (applyToEngines orders.engines tx snapshot engine.catalog).2 })) ∨
    ((applyToEngines orders.engines tx snapshot engine.catalog).1 = .ok () ∧
      ∃ err, (installWrites orders.memory tx snapshot engine.tables).1 = .error err ∧
        engine.commitChecked orders tx snapshot =
          (.error err, tx, { engine.logWrites tx with
            catalog := (applyToEngines orders.engines tx snapshot engine.catalog).2
            tables := (installWrites orders.memory tx snapshot engine.tables).2 })) ∨
    ((applyToEngines orders.engines tx snapshot engine.catalog).1 = .ok () ∧
      (installWrites orders.memory tx snapshot engine.tables).1 = .ok () ∧
        engine.commitChecked orders tx snapshot =
          (.ok (), { tx with status := .committed }, { engine.logWrites tx with
            catalog := (applyToEngines orders.engines tx snapshot engine.catalog).2
            tables := (installWrites orders.memory tx snapshot engine.tables).2
            mvcc := engine.mvcc.commitTransaction tx })) := by
  dsimp only [commitChecked, logWrites]
  cases hstored : (applyToEngines orders.engines tx snapshot engine.catalog).1 with
  | error err => exact Or.inl ⟨err, rfl, rfl⟩
  | ok u =>
      cases hinstalled : (installWrites orders.memory tx snapshot engine.tables).1 with
      | error err => exact Or.inr (Or.inl ⟨rfl, err, rfl, rfl⟩)
      | ok u => exact Or.inr (Or.inr ⟨rfl, rfl, rfl⟩)

variable (engine orders tx)

/-- The log phase is never undone. -/
theorem commitChecked_wal (snapshot : String → Option Table) :
    (engine.commitChecked orders tx snapshot).2.2.wal = engine.wal ++ tx.walRecords ∧
      (engine.commitChecked orders tx snapshot).2.2.walOld = engine.walOld := by
  rcases commitChecked_cases engine orders tx snapshot with ⟨_, _, h⟩ | ⟨_, _, _, h⟩ | ⟨_, _, h⟩ <;>
    rw [h] <;> exact ⟨rfl, rfl⟩

/-- The catalog routes as before. -/
theorem commitChecked_catalog (snapshot : String → Option Table) :
    (engine.commitChecked orders tx snapshot).2.2.catalog.SameRouting engine.catalog := by
  have hrouting := applyToEngines_sameRouting orders.engines tx snapshot engine.catalog
  rcases commitChecked_cases engine orders tx snapshot with ⟨_, _, h⟩ | ⟨_, _, _, h⟩ | ⟨_, _, h⟩ <;>
    rw [h] <;> exact hrouting

/-- The tables after a commit whose checks pass: untouched when a storage engine refuses, else those
of the in-memory phase as far as it got. -/
theorem commitChecked_tables (snapshot : String → Option Table) :
    ((∀ name ∈ tx.tableNames, engine.catalog.Holds name) ∧
      (engine.commitChecked orders tx snapshot).2.2.tables =
        (installWrites orders.memory tx snapshot engine.tables).2) ∨
    (¬ (∀ name ∈ tx.tableNames, engine.catalog.Holds name) ∧
      (engine.commitChecked orders tx snapshot).2.2.tables = engine.tables) := by
  have hholds : (applyToEngines orders.engines tx snapshot engine.catalog).1 = .ok () ↔ _ :=
    applyToEngines_ok_iff
  rw [← hholds]
  rcases commitChecked_cases engine orders tx snapshot with
    ⟨err, hstored, h⟩ | ⟨hstored, _, _, h⟩ | ⟨hstored, _, h⟩
  · refine Or.inr ⟨fun hok => ?_, by rw [h]; rfl⟩
    rw [hstored] at hok
    cases hok
  · exact Or.inl ⟨hstored, by rw [h]⟩
  · exact Or.inl ⟨hstored, by rw [h]⟩

/-- A commit whose checks pass returns Ok exactly when the storage engines hold its tables and index
maintenance is admissible on each of them. -/
theorem commitChecked_ok_iff (snapshot : String → Option Table) :
    (engine.commitChecked orders tx snapshot).1 = .ok () ↔
      (∀ name ∈ tx.tableNames, engine.catalog.Holds name) ∧
        ∀ name ∈ tx.tableNames, ∀ chains, applyWriteSet tx snapshot name = some chains →
          ∀ table, findTable name engine.tables = some table →
            MaintenanceAdmissible snapshot (tx.entriesOf name) table := by
  have hholds : (applyToEngines orders.engines tx snapshot engine.catalog).1 = .ok () ↔ _ :=
    applyToEngines_ok_iff
  have hadmissible : (installWrites orders.memory tx snapshot engine.tables).1 = .ok () ↔ _ :=
    installWrites_ok_iff
  rw [← hholds, ← hadmissible]
  rcases commitChecked_cases engine orders tx snapshot with
    ⟨err, hstored, h⟩ | ⟨hstored, err, hinstalled, h⟩ | ⟨hstored, hinstalled, h⟩
  · simp [h, hstored]
  · simp [h, hinstalled]
  · simp [h, hstored, hinstalled]

end DatabaseEngine

end HelionDb
