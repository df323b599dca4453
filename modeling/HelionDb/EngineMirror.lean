import HelionDb.ChangeReplay
import HelionDb.LogFailures
import HelionDb.Statements

/-! The tables in memory and the copies that the storage engines serve. A write set is applied twice, by the store to the
copy of the tables that the commit took and by a storage engine to its own table. While statements run one after another the
two start from the same chains, so they end with the same ones, also where the indexes refuse the rows in between. Creating,
dropping and moving a table keep every other engine free of it. -/

namespace HelionDb

/-- What an engine and the store do to chains is the same for changes of one transaction. -/
theorem replay_eq_placeAll {txid : Nat} {changes : List (Nat × RowVersion)}
    (hchanges : ∀ change ∈ changes, change.2.txidMin = txid) (chains : List Chain) :
    replay chains changes = placeAll txid chains changes := by
  induction changes generalizing chains with
  | nil => rfl
  | cons change rest ih =>
      rw [replay_cons, placeAll_cons, hchanges change List.mem_cons_self]
      exact ih (fun other hother => hchanges other (List.mem_cons_of_mem _ hother)) _

theorem Loop.runAll_singleton {α σ ε : Type} (f : α → σ → Loop.Outcome ε σ) (item : α) (state : σ) :
    Loop.runAll f [item] state = f item state := by
  cases hitem : (f item state).1 with
  | error err =>
      rw [Loop.runAll_cons_error f hitem, ← hitem]
  | ok u =>
      rw [Loop.runAll_cons_ok f hitem, Loop.runAll_nil, ← hitem]

/-- A write set whose entries are all for one table names that table or none. -/
theorem Transaction.tableNames_of_named {tx : Transaction} {tableName : String}
    (hnamed : ∀ entry ∈ tx.writeSet, entry.tableName = tableName) :
    tx.tableNames = [] ∨ tx.tableNames = [tableName] := by
  have hmem : ∀ name ∈ tx.tableNames, name = tableName := by
    intro name hname
    obtain ⟨entry, hentry, rfl⟩ := Transaction.mem_tableNames.mp hname
    exact hnamed entry hentry
  have hnodup := tx.nodup_tableNames
  rcases List.eq_nil_or_concat tx.tableNames with hnil | ⟨before, last, hlast⟩
  · exact .inl hnil
  · apply Or.inr
    rw [hlast, List.concat_eq_append] at hmem hnodup ⊢
    have hbefore : before = [] := by
      rw [List.eq_nil_iff_forall_not_mem]
      intro name hname
      have hsame := (hmem name (List.mem_append_left _ hname)).trans (hmem last (by simp)).symm
      exact (List.nodup_append.mp hnodup).2.2 name hname last (List.mem_singleton_self _) hsame
    rw [hbefore, List.nil_append, hmem last (by simp)]

section OneTable

variable {tx : Transaction} {snapshot : String → Option Table} {name : String} (order : HashOrder)

theorem applyToEngines_of_names (hnames : tx.tableNames = [name]) (catalog : Catalog) :
    applyToEngines order tx snapshot catalog = applyToEngine tx snapshot name catalog := by
  have hperm := order.perm tx.tableNames
  rw [applyToEngines]
  rw [hnames] at hperm ⊢
  rw [List.perm_singleton.mp hperm, Loop.runAll_singleton]

theorem installWrites_of_names (hnames : tx.tableNames = [name]) (tables : List Table) :
    installWrites order tx snapshot tables = installTable tx snapshot name tables := by
  have hperm := order.perm tx.tableNames
  rw [installWrites]
  rw [hnames] at hperm ⊢
  rw [List.perm_singleton.mp hperm, Loop.runAll_singleton]

theorem applyToEngines_of_empty (hnames : tx.tableNames = []) (catalog : Catalog) :
    applyToEngines order tx snapshot catalog = (.ok (), catalog) := by
  have hperm := order.perm tx.tableNames
  rw [applyToEngines]
  rw [hnames] at hperm ⊢
  rw [hperm.eq_nil, Loop.runAll_nil]

theorem installWrites_of_empty (hnames : tx.tableNames = []) (tables : List Table) :
    installWrites order tx snapshot tables = (.ok (), tables) := by
  have hperm := order.perm tx.tableNames
  rw [installWrites]
  rw [hnames] at hperm ⊢
  rw [hperm.eq_nil, Loop.runAll_nil]

end OneTable

namespace Catalog

variable {catalog next : Catalog} {kind target : EngineKind} {name : String} {snapshot : Table}

/-- A table that changed its engine, everything else as before. -/
structure Moves (catalog : Catalog) (kind target : EngineKind) (name : String) (snapshot : Table)
    (next : Catalog) : Prop where
  different : target ≠ kind
  source : catalog.metadata name = some kind.name
  found : catalog.engines kind name = some snapshot
  metadata : next.metadata = Function.update catalog.metadata name (some target.name)
  left : next.engines kind name = none
  arrived : next.engines target name = some snapshot
  kept : ∀ other otherName, otherName ≠ name → next.engines other otherName = catalog.engines other otherName

/-- A migration that does anything moves the table, provided that the engine keeps it under its own name. -/
theorem migrateTable_cases (catalog : Catalog) (name targetEngine : String)
    (hnamed : ∀ (kind : EngineKind) (stored : Table), catalog.metadata name = some kind.name →
      catalog.engines kind name = some stored → stored.name = name) :
    (catalog.migrateTable name targetEngine).2 = catalog ∨
      ∃ kind target snapshot, catalog.Moves kind target name snapshot (catalog.migrateTable name targetEngine).2 := by
  cases hengine : catalog.metadata name with
  | none =>
      simp only [migrateTable, hengine]
      exact .inl trivial
  | some engineName =>
      cases hcurrent : catalog.getTableEngine name with
      | error err =>
          simp only [migrateTable, hengine, hcurrent]
          split <;> exact .inl rfl
      | ok kind =>
          have hkind := getTableEngine_eq_ok.mp hcurrent
          obtain rfl : engineName = kind.name := Option.some.inj (hengine.symm.trans hkind)
          simp only [migrateTable, hengine, hcurrent, getEngine_kind]
          split
          · exact .inl rfl
          · rename_i hdifferent
            split
            · exact .inl rfl
            · rename_i snapshot hsnapshot
              split
              · exact .inl rfl
              · rename_i target htarget
                have htargetName : normalizeEngineName targetEngine = target.name := by
                  rw [← normalizeEngineName_idem]
                  exact getEngine_eq_ok.mp htarget
                have hkinds : target ≠ kind := fun hsame => hdifferent (hsame ▸ htargetName).symm
                have hsnapshotName := hnamed kind snapshot hkind hsnapshot
                refine .inr ⟨kind, target, snapshot, hkinds, hkind, hsnapshot, ?_, ?_, ?_, ?_⟩
                · rw [← htargetName]
                  rfl
                · exact setTable_self _ _ _ _
                · rw [setTable_of_ne _ (.inl hkinds)]
                  show (setTable _ target snapshot.name (some snapshot)).engines target name = some snapshot
                  rw [hsnapshotName, setTable_self]
                · intro other otherName hother
                  rw [setTable_of_ne _ (.inr hother)]
                  show (setTable _ target snapshot.name (some snapshot)).engines other otherName = _
                  rw [setTable_of_ne _ (.inr (hsnapshotName ▸ hother)), setTable_of_ne _ (.inr hother)]

end Catalog

namespace DatabaseEngine

/-- The engine that the catalog names for a table holds its chains, and no other engine holds the table. -/
def Mirrors (engine : DatabaseEngine) : Prop :=
  ∀ table ∈ engine.tables, ∃ kind, engine.catalog.getTableEngine table.name = .ok kind ∧
    (∃ stored, engine.catalog.engines kind table.name = some stored ∧ stored.versionChains = table.versionChains) ∧
    ∀ other, other ≠ kind → engine.catalog.engines other table.name = none

/-- Engines hold tables under their own names, those of the catalog only, and with the chains that are in memory. -/
structure InStep (engine : DatabaseEngine) : Prop where
  held : ∀ table ∈ engine.tables, ∀ kind : EngineKind, engine.catalog.metadata table.name = some kind.name →
    ∃ stored, engine.catalog.engines kind table.name = some stored ∧ stored.name = table.name ∧
      stored.versionChains = table.versionChains
  alone : ∀ (kind : EngineKind) (name : String), (engine.catalog.engines kind name).isSome = true →
    engine.catalog.metadata name = some kind.name

variable {engine : DatabaseEngine}

theorem kind_of_name {kind other : EngineKind} (h : kind.name = other.name) : kind = other := by
  cases kind <;> cases other <;> first | rfl | exact absurd h (by decide)

/-- An engine that the catalog does not name for a table holds nothing under its name. -/
theorem InStep.eq_none (h : engine.InStep) {kind : EngineKind} {name : String}
    (hname : engine.catalog.metadata name ≠ some kind.name) : engine.catalog.engines kind name = none := by
  rw [← Option.not_isSome_iff_eq_none]
  exact mt (h.alone kind name) hname

theorem InStep.eq_none_of_ne (h : engine.InStep) {kind other : EngineKind} {name : String}
    (hkind : engine.catalog.metadata name = some kind.name) (hother : other ≠ kind) :
    engine.catalog.engines other name = none := by
  apply h.eq_none
  rw [hkind]
  exact fun hname => hother (kind_of_name (Option.some.inj hname)).symm

theorem InStep.mirrors (h : engine.InStep) (hwf : engine.WellFormed) : engine.Mirrors := by
  intro table htable
  obtain ⟨engineName, hengine⟩ := Option.isSome_iff_exists.mp ((hwf.registered table.name).mpr (List.mem_map_of_mem htable))
  obtain ⟨kind, rfl, -⟩ := hwf.held table.name engineName hengine
  obtain ⟨stored, hstored, -, hchains⟩ := h.held table htable kind hengine
  exact ⟨kind, Catalog.getTableEngine_of_metadata hengine, ⟨stored, hstored, hchains⟩,
    fun other => h.eq_none_of_ne hengine⟩

/-- Replacing what is kept of a table in memory by a table of the same name and chains. -/
theorem InStep.of_chains (h : engine.InStep) {next : DatabaseEngine} (hcatalog : next.catalog = engine.catalog)
    (htables : ∀ table ∈ next.tables, ∃ old ∈ engine.tables, old.name = table.name ∧
      old.versionChains = table.versionChains) : next.InStep := by
  constructor
  · intro table htable kind hkind
    obtain ⟨old, hold, hname, hchains⟩ := htables table htable
    rw [hcatalog, ← hname] at hkind ⊢
    obtain ⟨stored, hstored, hstoredName, hstoredChains⟩ := h.held old hold kind hkind
    exact ⟨stored, hstored, hstoredName, hstoredChains.trans hchains⟩
  · intro kind name hheld
    rw [hcatalog] at hheld ⊢
    exact h.alone kind name hheld

theorem InStep.of_same (h : engine.InStep) {next : DatabaseEngine} (hcatalog : next.catalog = engine.catalog)
    (htables : next.tables = engine.tables) : next.InStep :=
  h.of_chains hcatalog fun table htable => ⟨table, htables ▸ htable, rfl, rfl⟩

/-! ### Tables that are created, dropped and moved -/

/-- One name of the catalog set: its engine holds what is new under it, and the other engine nothing. -/
theorem InStep.of_sets (h : engine.InStep) {kind : EngineKind} {name : String} {engineName : Option String}
    {table : Option Table} {next : DatabaseEngine}
    (hsets : engine.catalog.Sets kind name engineName table next.catalog)
    (hothers : ∀ other ∈ next.tables, other.name ≠ name → other ∈ engine.tables)
    (hname : ∀ other ∈ next.tables, other.name = name → ∃ stored, table = some stored ∧ stored.name = name ∧
      stored.versionChains = other.versionChains)
    (hnamed : table.isSome = true → engineName = some kind.name)
    (halone : ∀ other, other ≠ kind → engine.catalog.engines other name = none)
    (hkind : ∀ other : EngineKind, engineName = some other.name → other = kind) : next.InStep := by
  constructor
  · intro other hother otherKind hmetadata
    rw [hsets.metadata] at hmetadata
    rw [hsets.engines]
    by_cases hsame : other.name = name
    · rw [hsame, Function.update_self] at hmetadata
      obtain ⟨stored, hstored, hstoredName, hchains⟩ := hname other hother hsame
      obtain rfl := hkind otherKind hmetadata
      rw [Function.update_self, hsame, Function.update_self]
      exact ⟨stored, hstored, hstoredName, hchains⟩
    · rw [Function.update_of_ne hsame] at hmetadata
      obtain ⟨stored, hstored, hrest⟩ := h.held other (hothers other hother hsame) otherKind hmetadata
      refine ⟨stored, ?_, hrest⟩
      by_cases hkinds : otherKind = kind
      · subst hkinds
        rw [Function.update_self, Function.update_of_ne hsame]
        exact hstored
      · rw [Function.update_of_ne hkinds]
        exact hstored
  · intro otherKind other hheld
    rw [hsets.metadata]
    rw [hsets.engines] at hheld
    by_cases hsame : other = name
    · subst hsame
      rw [Function.update_self]
      by_cases hkinds : otherKind = kind
      · subst hkinds
        rw [Function.update_self, Function.update_self] at hheld
        exact hnamed hheld
      · rw [Function.update_of_ne hkinds, halone otherKind hkinds] at hheld
        cases hheld
    · rw [Function.update_of_ne hsame]
      apply h.alone otherKind other
      by_cases hkinds : otherKind = kind
      · subst hkinds
        rwa [Function.update_self, Function.update_of_ne hsame] at hheld
      · rwa [Function.update_of_ne hkinds] at hheld

/-- A created table starts empty in its engine and in memory. -/
theorem InStep.create (h : engine.InStep) (hwf : engine.WellFormed) {name engineName : String}
    {columns : List ColumnMeta} {catalog : Catalog}
    (hfresh : ∀ table ∈ engine.tables, eqIgnoreAsciiCase table.name name = false)
    (hcatalog : engine.catalog.createTable name columns engineName = .ok catalog) :
    InStep { engine with
      catalog, tables := engine.tables ++ [Table.new name columns],
      wal := engine.wal ++ [.createTable name columns] } := by
  obtain ⟨kind, -, hsets⟩ := Catalog.createTable_sets hcatalog
  have hnew : ∀ table ∈ engine.tables, table.name ≠ name := by
    intro table htable hsame
    have hcase := hfresh table htable
    rw [hsame, eqIgnoreAsciiCase_refl] at hcase
    cases hcase
  refine h.of_sets hsets ?_ ?_ ?_ ?_ ?_
  · intro other hother hne
    rcases List.mem_append.mp hother with hold | hadded
    · exact hold
    · rw [List.mem_singleton.mp hadded] at hne
      exact absurd (Table.new_name name columns) hne
  · intro other hother hsame
    rcases List.mem_append.mp hother with hold | hadded
    · exact absurd hsame (hnew other hold)
    · rw [List.mem_singleton.mp hadded]
      exact ⟨_, rfl, Table.new_name name columns, rfl⟩
  · exact fun _ => rfl
  · intro other _
    apply h.eq_none
    intro hname
    obtain ⟨table, htable, hsame⟩ := List.mem_map.mp ((hwf.registered name).mp (by rw [hname]; rfl))
    exact hnew table htable hsame
  · intro other hother
    exact (kind_of_name (Option.some.inj hother)).symm

/-- A dropped table leaves its engine and memory together. -/
theorem InStep.drop (h : engine.InStep) (hwf : engine.WellFormed) {name : String} {catalog : Catalog}
    (hcatalog : engine.catalog.dropTable name = .ok catalog) :
    InStep { engine with
      catalog, tables := engine.tables.filter fun table => !eqIgnoreAsciiCase table.name name,
      wal := engine.wal ++ [.dropTable name] } := by
  obtain ⟨kind, hkind, hsets⟩ := Catalog.dropTable_sets hcatalog
  rw [hwf.filter_dropped (hwf.mem_names_of_dropTable hcatalog)]
  refine h.of_sets hsets ?_ ?_ ?_ ?_ ?_
  · intro other hother _
    exact (List.mem_filter.mp hother).1
  · intro other hother hsame
    have hkept := (List.mem_filter.mp hother).2
    rw [hsame, bne_self_eq_false] at hkept
    cases hkept
  · intro hsome
    cases hsome
  · exact fun other => h.eq_none_of_ne (Catalog.getTableEngine_eq_ok.mp hkind)
  · intro other hother
    cases hother

/-- A table that moves takes its chains to the other engine and leaves none behind. -/
theorem InStep.migrate (h : engine.InStep) (hwf : engine.WellFormed) (name targetEngine : String) :
    InStep { engine with catalog := (engine.catalog.migrateTable name targetEngine).2 } := by
  have hnamed : ∀ (kind : EngineKind) (stored : Table), engine.catalog.metadata name = some kind.name →
      engine.catalog.engines kind name = some stored →
        stored.name = name ∧ ∀ table ∈ engine.tables, table.name = name → stored.versionChains = table.versionChains := by
    intro kind stored hkind hstored
    obtain ⟨table, htable, rfl⟩ := List.mem_map.mp ((hwf.registered name).mp (by rw [hkind]; rfl))
    obtain ⟨copy, hcopy, hcopyName, hchains⟩ := h.held table htable kind hkind
    obtain rfl : stored = copy := Option.some.inj (hstored.symm.trans hcopy)
    refine ⟨hcopyName, fun other hother hsame => ?_⟩
    rw [Option.some.inj ((hwf.findTable_self hother).symm.trans (hsame ▸ hwf.findTable_self htable))]
    exact hchains
  rcases engine.catalog.migrateTable_cases name targetEngine fun kind stored hkind hstored =>
      (hnamed kind stored hkind hstored).1 with hsame | ⟨kind, target, snapshot, hmoves⟩
  · exact h.of_same hsame rfl
  · obtain ⟨hsnapshotName, hchains⟩ := hnamed kind snapshot hmoves.source hmoves.found
    constructor
    · intro table htable other hother
      rw [hmoves.metadata] at hother
      by_cases hsame : table.name = name
      · rw [hsame, Function.update_self] at hother
        obtain rfl := kind_of_name (Option.some.inj hother)
        exact ⟨snapshot, hsame ▸ hmoves.arrived, hsnapshotName.trans hsame.symm, hchains table htable hsame⟩
      · rw [Function.update_of_ne hsame] at hother
        rw [hmoves.kept other _ hsame]
        exact h.held table htable other hother
    · intro other otherName hheld
      rw [hmoves.metadata]
      by_cases hsame : otherName = name
      · subst hsame
        rw [Function.update_self]
        have hother : other ≠ kind := by
          rintro rfl
          rw [hmoves.left] at hheld
          cases hheld
        have hdifferent := hmoves.different
        cases other <;> cases kind <;> cases target <;> first | rfl | contradiction
      · rw [Function.update_of_ne hsame]
        rw [hmoves.kept other _ hsame] at hheld
        exact h.alone other otherName hheld

/-! ### Write sets -/

/-- The storage engine of a table places the changes on the same chains as the store, and its own table keeps its name. -/
theorem InStep.applyToEngine_eq (h : engine.InStep) (hwf : engine.WellFormed) (tx : Transaction) {table : Table}
    (htable : table ∈ engine.tables) :
    ∃ (kind : EngineKind) (stored : Table), engine.catalog.metadata table.name = some kind.name ∧
      stored.name = table.name ∧
      stored.versionChains =
        placeAll tx.txId table.versionChains (tableChanges tx (snapshotTables engine.tables) table.name) ∧
      applyToEngine tx (snapshotTables engine.tables) table.name engine.catalog =
        (.ok (), engine.catalog.setTable kind table.name (some stored)) := by
  obtain ⟨engineName, hengine⟩ := Option.isSome_iff_exists.mp ((hwf.registered table.name).mpr (List.mem_map_of_mem htable))
  obtain ⟨kind, rfl, -⟩ := hwf.held table.name engineName hengine
  obtain ⟨copy, hcopy, hcopyName, hchains⟩ := h.held table htable kind hengine
  have hroute : engine.catalog.routeOf table.name = .ok kind := by
    rw [Catalog.routeOf, hengine, Option.getD_some, Catalog.getEngine_kind]
  refine ⟨kind, { copy with
    versionChains := replay copy.versionChains (tableChanges tx (snapshotTables engine.tables) table.name) },
    hengine, hcopyName, ?_, ?_⟩
  · show replay copy.versionChains _ = _
    rw [hchains]
    exact replay_eq_placeAll (fun change hchange => (mem_tableChanges hchange).1) _
  · simp only [applyToEngine, hroute, Catalog.applyChanges, hcopy]
    rfl

/-- What the in-memory phase leaves of a table that the transaction writes, also where an index refuses a row. -/
theorem chains_installTable {tx : Transaction} (hwf : engine.WellFormed) {table written : Table}
    (htable : table ∈ engine.tables) (hnames : tx.tableNames = [table.name])
    (hwritten : findTable table.name (installTable tx (snapshotTables engine.tables) table.name engine.tables).2 =
      some written) :
    written.versionChains =
      placeAll tx.txId table.versionChains (tableChanges tx (snapshotTables engine.tables) table.name) := by
  have hfound := hwf.findTable_self htable
  have hmem : table.name ∈ tx.tableNames := by
    rw [hnames]
    exact List.mem_singleton_self _
  rw [findTable_installTable, applyWriteSet_of_mem hmem ((hwf.snapshotTables_eq _).trans hfound), hfound]
    at hwritten
  dsimp only [Option.map_some] at hwritten
  rw [← Option.some.inj hwritten, installOn_versionChains]

/-- A commit whose writes are for one table leaves the same chains in its engine as in memory, wherever it stops. -/
theorem InStep.commit (h : engine.InStep) (hwf : engine.WellFormed) (orders : CommitOrders) {tx : Transaction}
    {table : Table} (htable : table ∈ engine.tables) (hnamed : ∀ entry ∈ tx.writeSet, entry.tableName = table.name) :
    (engine.commit orders tx).2.2.InStep := by
  have hwfNext := hwf.commit orders tx
  rcases commit_cases engine orders tx with ⟨err, -, hsame | haborted⟩ | ⟨-, -, hchecked⟩
  · rw [hsame]
    exact h
  · rw [haborted]
    exact h.of_same rfl rfl
  · rw [hchecked] at hwfNext ⊢
    have hcases := commitChecked_cases engine orders tx (snapshotTables engine.tables)
    rcases Transaction.tableNames_of_named hnamed with hnone | hnames
    · rw [applyToEngines_of_empty _ hnone, installWrites_of_empty _ hnone] at hcases
      rcases hcases with ⟨err, herr, -⟩ | ⟨-, err, herr, -⟩ | ⟨-, -, hdone⟩
      · cases herr
      · cases herr
      · rw [hdone]
        exact h.of_same rfl rfl
    · obtain ⟨kind, stored, hkind, hstoredName, hstored, hengines⟩ := h.applyToEngine_eq hwf tx htable
      rw [applyToEngines_of_names _ hnames, installWrites_of_names _ hnames, hengines] at hcases
      have hdone : (engine.commitChecked orders tx (snapshotTables engine.tables)).2.2.catalog =
          engine.catalog.setTable kind table.name (some stored) ∧
          (engine.commitChecked orders tx (snapshotTables engine.tables)).2.2.tables =
            (installTable tx (snapshotTables engine.tables) table.name engine.tables).2 := by
        rcases hcases with ⟨err, herr, -⟩ | ⟨-, err, -, hstopped⟩ | ⟨-, -, hdone⟩
        · cases herr
        · rw [hstopped]
          exact ⟨rfl, rfl⟩
        · rw [hdone]
          exact ⟨rfl, rfl⟩
      obtain ⟨hcatalog, htables⟩ := hdone
      have hsets : engine.catalog.Sets kind table.name (some kind.name) (some stored)
          (engine.commitChecked orders tx (snapshotTables engine.tables)).2.2.catalog := by
        rw [hcatalog]
        exact ⟨(Function.update_eq_self_iff.mpr hkind.symm).symm, rfl, rfl⟩
      refine h.of_sets hsets ?_ ?_ (fun _ => rfl) (fun other => h.eq_none_of_ne hkind)
        fun other hother => (kind_of_name (Option.some.inj hother)).symm
      · intro other hother hne
        have hfound := hwfNext.findTable_self hother
        rw [htables, findTable_installTable_of_ne hne] at hfound
        exact (hwf.findTable_eq_some.mp hfound).1
      · intro other hother hsame
        have hfound := hwfNext.findTable_self hother
        rw [htables, hsame] at hfound
        exact ⟨stored, rfl, hstoredName, hstored.trans (chains_installTable hwf htable hnames hfound).symm⟩

theorem InStep.reindex (h : engine.InStep) (hwf : engine.WellFormed) {tableName : String} {table : Table}
    (htable : findTable tableName engine.tables = some table) (indexes : List Index) :
    InStep { engine with tables := updateTable tableName (fun _ => { table with indexes }) engine.tables } := by
  rw [hwf.updateTable_indexes htable]
  refine h.of_chains rfl fun other hother => ?_
  rcases KeyedList.mem_update hother with hold | ⟨old, hold, -, rfl⟩
  · exact ⟨other, hold, rfl, rfl⟩
  · exact ⟨old, hold, rfl, rfl⟩

end DatabaseEngine

/-- A SQL statement: SELECT begins a read, every other one executes a plan. -/
def SerialCall.IsStatement (call : SerialCall) : Prop :=
  call.op = .readTxn ∨ ∃ plan, call.op = .execute plan

namespace DatabaseEngine

variable {engine : DatabaseEngine}

theorem InStep.fresh (defaultEngine : String) : (fresh defaultEngine).InStep := by
  constructor
  · intro table htable
    cases htable
  · intro kind name hheld
    cases kind <;> cases hheld

theorem InStep.transition (h : engine.InStep) (hwf : engine.WellFormed) {call : SerialCall}
    (hcall : call.IsStatement) {after : DatabaseEngine} (htransition : Transition engine call after) :
    after.InStep := by
  cases htransition with
  | same => exact h
  | ids mvcc hids => exact h.of_same rfl rfl
  | write start entries hcommit hstart =>
      obtain ⟨plan, hplan⟩ : ∃ plan, call.op = .execute plan := by
        rcases hcall with hread | hplan
        · rw [hread] at hcommit
          cases hcommit
        · exact hplan
      have hpending : engine.pending (.execute plan) = some (start.begin.2, start.beginWith entries) := by
        rw [hplan] at hcommit
        rw [pending, hcommit, Option.map_some]
      obtain ⟨tableName, table, hfound, hwrites⟩ := pending_execute hpending
      obtain ⟨htable, rfl⟩ := hwf.findTable_eq_some.mp hfound
      have hbegun : start.begin.2.InStep ∧ start.begin.2.WellFormed ∧ table ∈ start.begin.2.tables := by
        rcases hstart with rfl | rfl <;> exact ⟨h.of_same rfl rfl, hwf.of_frame rfl (.refl _) rfl, htable⟩
      exact hbegun.1.commit hbegun.2.1 call.orders hbegun.2.2 hwrites.named
  | create name columns engineName catalog hfresh hcatalog => exact h.create hwf hfresh hcatalog
  | drop name catalog hcatalog => exact h.drop hwf hcatalog
  | migrate name targetEngine => exact h.migrate hwf name targetEngine
  | createIndex tableName table next name columns unique htable hnext =>
      obtain ⟨index, rfl, -⟩ := Table.addIndex_ok hnext
      exact h.reindex hwf htable _
  | dropIndex tableName table next name ifExists hop htable hnext =>
      obtain ⟨pos, rfl⟩ := Table.dropIndex_ok hnext
      exact h.reindex hwf htable _
  | checkpoint => exact h.of_same rfl rfl
  | shutdown => exact h.of_same rfl rfl
  | reopen defaultEngine loaded next hop hopen =>
      rcases hcall with hread | ⟨plan, hplan⟩
      · rw [hop] at hread
        cases hread
      · rw [hop] at hplan
        cases hplan

/-- After every serial run of statements, also of ones that fail, the engine that the catalog names for a table holds the
chains that are in memory, and no other engine holds the table. -/
theorem engines_mirror_tables (h : SerialReachable (fun _ call => call.IsStatement) engine) : engine.Mirrors := by
  obtain ⟨defaultEngine, run⟩ := h
  have hrun : engine.WellFormed ∧ engine.InStep := by
    refine run.invariant (P := fun state => state.WellFormed ∧ state.InStep) ?_
      ⟨WellFormed.fresh defaultEngine, InStep.fresh defaultEngine⟩
    intro state call hstate hcall
    have htransition := serialStep_transition state call
    exact ⟨hstate.1.transition htransition, hstate.2.transition hstate.1 hcall htransition⟩
  exact hrun.2.mirrors hrun.1

/-- The second INSERT is refused by the unique index, then the table changes its engine. -/
def movedRun : List SerialCall :=
  [.createTable "t" [{ ColumnMeta.new "a" .integer with isUnique := true }] none,
    .insert "t" [{ values := [.integer 1] }], .insert "t" [{ values := [.integer 1] }],
    .alterTableEngine "t" "memory"].map fun plan => { op := .execute plan, orders := .asGiven }

theorem mirrors_movedRun :
    (movedRun.foldl serialStep (fresh "disk")).catalog.metadata "t" = some "memory" ∧
      (movedRun.foldl serialStep (fresh "disk")).tables.map (fun table => table.versionChains.length) = [1] ∧
        (movedRun.foldl serialStep (fresh "disk")).Mirrors :=
  ⟨rfl, rfl, engines_mirror_tables
    ⟨"disk", .of_meets ⟨.inr ⟨_, rfl⟩, .inr ⟨_, rfl⟩, .inr ⟨_, rfl⟩, .inr ⟨_, rfl⟩, trivial⟩⟩⟩

end DatabaseEngine

end HelionDb
