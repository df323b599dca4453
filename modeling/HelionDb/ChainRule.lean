import HelionDb.WellFormed

/-! What calls do to version chains. A commit places its versions on the chains of each table it names
or leaves them alone. A property of chains carries over when new rows have it and extending a chain does
not lose it: commit, replay and every serial call then keep it of the chains in memory and of those that
the log rebuilds. -/

namespace HelionDb

/-- Writing under an id keeps a property of chains. -/
structure ChainRule (txid : Nat) (P : Chain → Prop) : Prop where
  single : ∀ version : RowVersion, version.txidMin = txid → version.txidMax = u64Max → P [version]
  extend : ∀ (chain : Chain) (version : RowVersion), P chain → version.txidMin = txid →
    version.txidMax = u64Max → P (extendChain txid version chain)

/-- All chains of some tables have a property. -/
def AllChains (P : Chain → Prop) (tables : List Table) : Prop :=
  ∀ table ∈ tables, ∀ chain ∈ table.versionChains, P chain

namespace AllChains

variable {P : Chain → Prop} {tables : List Table}

theorem nil (P : Chain → Prop) : AllChains P [] := by simp [AllChains]

theorem mono {Q : Chain → Prop} (h : AllChains P tables) (hPQ : ∀ chain, P chain → Q chain) :
    AllChains Q tables := fun table htable chain hchain => hPQ chain (h table htable chain hchain)

theorem append_new (h : AllChains P tables) (name : String) (columns : List ColumnMeta) :
    AllChains P (tables ++ [Table.new name columns]) := by
  intro table htable
  rcases List.mem_append.mp htable with hold | hnew
  · exact h table hold
  · simp [List.mem_singleton.mp hnew]

theorem filter (h : AllChains P tables) (keep : Table → Bool) : AllChains P (tables.filter keep) :=
  fun table htable => h table (List.mem_filter.mp htable).1

theorem update (h : AllChains P tables) {name : String} {f : Table → Table}
    (hf : ∀ table ∈ tables, ∀ chain ∈ (f table).versionChains, P chain) :
    AllChains P (updateTable name f tables) := by
  intro table htable
  rcases KeyedList.mem_update htable with hold | ⟨old, hold, -, rfl⟩
  · exact h table hold
  · exact hf old hold

/-- The images of the tables say which chains there are. -/
theorem of_image {others : List Table} (h : AllChains P tables)
    (himage : others.map Table.image = tables.map Table.image) : AllChains P others := by
  intro table htable
  have hmem : table.image ∈ tables.map Table.image := himage ▸ List.mem_map_of_mem htable
  obtain ⟨source, hsource, heq⟩ := List.mem_map.mp hmem
  have hchains : source.versionChains = table.versionChains := congrArg TableImage.versionChains heq
  exact hchains ▸ h source hsource

end AllChains

namespace ChainRule

variable {txid : Nat} {P : Chain → Prop}

/-- What holds of the id it is written under holds of all creators of a chain. -/
theorem creators {p : Nat → Prop} (htxid : p txid) : ChainRule txid fun chain => ∀ version ∈ chain, p version.txidMin where
  single version hmin _ := by
    intro other hother
    rw [List.mem_singleton.mp hother, hmin]
    exact htxid
  extend chain version hchain hmin _ := by
    intro other hother
    rcases List.mem_append.mp hother with hold | hnew
    · rcases List.eq_nil_or_concat chain with rfl | ⟨prior, latest, rfl⟩
      · cases hold
      · rw [List.concat_eq_append] at hchain hold
        rw [closeLatest_concat] at hold
        rcases List.mem_append.mp hold with hprior | hlatest
        · exact hchain other (List.mem_append_left _ hprior)
        · rw [List.mem_singleton.mp hlatest]
          exact hchain latest (List.mem_append_right _ List.mem_cons_self)
    · rw [List.mem_singleton.mp hnew, hmin]
      exact htxid

theorem placeVersion (h : ChainRule txid P) {chains : List Chain} {rowIdx : Nat} {version : RowVersion}
    (hchains : ∀ chain ∈ chains, P chain) (hmin : version.txidMin = txid) (hopen : version.txidMax = u64Max) :
    ∀ chain ∈ HelionDb.placeVersion txid chains (rowIdx, version), P chain := by
  intro chain hchain
  rcases mem_placeVersion hchain with hold | ⟨old, hold, rfl⟩ | rfl
  · exact hchains chain hold
  · exact h.extend old version (hchains old hold) hmin hopen
  · exact h.single version hmin hopen

theorem placeAll (h : ChainRule txid P) {chains : List Chain} {changes : List (Nat × RowVersion)}
    (hchains : ∀ chain ∈ chains, P chain)
    (hchanges : ∀ change ∈ changes, change.2.txidMin = txid ∧ change.2.txidMax = u64Max) :
    ∀ chain ∈ HelionDb.placeAll txid chains changes, P chain := by
  induction changes generalizing chains with
  | nil => exact hchains
  | cons change rest ih =>
      obtain ⟨hmin, hopen⟩ := hchanges change List.mem_cons_self
      exact ih (h.placeVersion hchains hmin hopen) fun other hother =>
        hchanges other (List.mem_cons_of_mem _ hother)

theorem applyWalRecord (h : ChainRule txid P) {tables : List Table} (htables : AllChains P tables)
    (entry : WriteEntry) : AllChains P (applyWalRecord tables (entry.walRecord txid)) := by
  unfold WriteEntry.walRecord
  cases entry.operation with
  | insert row =>
      refine htables.update fun table htable => ?_
      unfold Table.replayInsert
      split
      · exact htables table htable
      · intro chain hchain
        rcases List.mem_append.mp hchain with hold | hnew
        · exact htables table htable chain hold
        · rw [List.mem_singleton.mp hnew]
          exact h.single _ rfl rfl
  | update newRow =>
      refine htables.update fun table htable => ?_
      unfold Table.replayUpdate
      split
      · rename_i hrow
        rw [← placeVersion_of_lt hrow]
        exact h.placeVersion (htables table htable) rfl rfl
      · exact htables table htable
  | delete =>
      refine htables.update fun table htable => ?_
      unfold Table.replayDelete
      split
      · exact htables table htable
      · rename_i chain hchain
        split
        · exact htables table htable
        · rw [← placeVersion_of_lt (List.getElem?_eq_some_iff.mp hchain).1]
          exact h.placeVersion (htables table htable) rfl rfl

theorem replay_walRecords {tx : Transaction} (h : ChainRule tx.txId P) {tables : List Table}
    (htables : AllChains P tables) : AllChains P (replayRecords tables tx.walRecords) := by
  rw [Transaction.walRecords, replayRecords_append]
  change AllChains P (replayRecords tables (tx.writeSet.map (WriteEntry.walRecord tx.txId)))
  induction tx.writeSet generalizing tables with
  | nil => exact htables
  | cons entry rest ih => exact ih (h.applyWalRecord htables entry)

/-- The in-memory phase keeps the property, also when it stops early. -/
theorem installWrites {tx : Transaction} (h : ChainRule tx.txId P) {snapshot : String → Option Table}
    (hsnapshot : ∀ name copy, snapshot name = some copy → ∀ chain ∈ copy.versionChains, P chain)
    {tables : List Table} (htables : AllChains P tables) (order : HashOrder) :
    AllChains P (installWrites order tx snapshot tables).2 := by
  refine Loop.runAll_invariant (P := AllChains P) _ (fun name _ state hstate => ?_) htables
  unfold installTable
  split
  · exact hstate
  · rename_i chains hchains
    split
    · exact hstate
    · refine hstate.update fun table _ => ?_
      obtain ⟨-, copy, hcopy, rfl⟩ := applyWriteSet_some hchains
      rw [installOn_versionChains]
      refine h.placeAll (hsnapshot name copy hcopy) fun change hchange => ?_
      exact ⟨(mem_tableChanges hchange).1, (mem_tableChanges hchange).2.1⟩

end ChainRule

/-- A chain whose last version is open. -/
def LastOpen (chain : Chain) : Prop :=
  ∃ prior latest, chain = prior ++ [latest] ∧ latest.txidMax = u64Max

/-- Whoever writes, the last version stays open. -/
theorem lastOpen_rule (txid : Nat) : ChainRule txid LastOpen where
  single version _ hopen := ⟨[], version, rfl, hopen⟩
  extend chain version _ _ hopen := ⟨closeLatest txid chain, version, rfl, hopen⟩

namespace DatabaseEngine

variable {engine : DatabaseEngine} {P : Chain → Prop}

theorem mem_of_snapshotTables {tables : List Table} {name : String} {copy : Table}
    (h : snapshotTables tables name = some copy) : copy ∈ tables :=
  List.mem_reverse.mp (List.mem_of_find?_eq_some h)

/-- A commit keeps the property of the chains in memory and of those in the log. -/
theorem chains_commit {tx : Transaction}
    (hrule : ChecksAccept tx (snapshotTables engine.tables) → ChainRule tx.txId P)
    (hlive : AllChains P engine.tables) (hlogged : AllChains P engine.recovered) (orders : CommitOrders) :
    AllChains P (engine.commit orders tx).2.2.tables ∧ AllChains P (engine.commit orders tx).2.2.recovered := by
  rcases commit_cases engine orders tx with ⟨err, -, hsame | haborted⟩ | ⟨-, haccept, hchecked⟩
  · rw [hsame]
    exact ⟨hlive, hlogged⟩
  · rw [haborted]
    exact ⟨hlive, hlogged⟩
  · have hrule := hrule haccept
    rw [hchecked]
    obtain ⟨hwal, hwalOld⟩ := commitChecked_wal engine orders tx (snapshotTables engine.tables)
    refine ⟨?_, ?_⟩
    · rcases commitChecked_tables engine orders tx (snapshotTables engine.tables) with ⟨-, htables⟩ | ⟨-, htables⟩
      · rw [htables]
        exact hrule.installWrites (fun _ copy hcopy => hlive copy (mem_of_snapshotTables hcopy)) hlive _
      · rw [htables]
        exact hlive
    · rw [recovered, hwal, hwalOld, replayWal_append]
      exact hrule.replay_walRecords hlogged

/-- Every serial call keeps a property that writing under the id of its commit keeps. -/
theorem chains_transition (hwf : engine.WellFormed) {call : SerialCall} {after : DatabaseEngine}
    (hrule : ∀ begun tx, engine.pending call.op = some (begun, tx) →
      ChecksAccept tx (snapshotTables engine.tables) → after = (begun.commit call.orders tx).2.2 →
        ChainRule tx.txId P)
    (hlive : AllChains P engine.tables) (hlogged : AllChains P engine.recovered)
    (htransition : Transition engine call after) :
    AllChains P after.tables ∧ AllChains P after.recovered := by
  cases htransition with
  | same => exact ⟨hlive, hlogged⟩
  | ids mvcc hids => exact ⟨hlive, hlogged⟩
  | write start entries hcommit hstart =>
      have hwriter := hrule start.begin.2 (start.beginWith entries) (by rw [pending, hcommit]; rfl)
      refine chains_commit (fun haccept => hwriter ?_ rfl) ?_ ?_ call.orders
      · rcases hstart with rfl | rfl <;> exact haccept
      · rcases hstart with rfl | rfl <;> exact hlive
      · rcases hstart with rfl | rfl <;> exact hlogged
  | create name columns engineName catalog hfresh hcatalog =>
      refine ⟨hlive.append_new name columns, ?_⟩
      rw [recovered, replayWal_append]
      change AllChains P (applyWalRecord engine.recovered (.createTable name columns))
      rw [applyWalRecord]
      split
      · exact hlogged
      · exact hlogged.append_new name columns
  | drop name catalog hcatalog =>
      refine ⟨hlive.filter _, ?_⟩
      rw [recovered, replayWal_append]
      exact hlogged.filter _
  | migrate name targetEngine => exact ⟨hlive, hlogged⟩
  | createIndex tableName table next name columns unique htable hnext =>
      obtain ⟨index, rfl, -⟩ := Table.addIndex_ok hnext
      exact ⟨hlive.update fun _ _ => hlive table (hwf.findTable_eq_some.mp htable).1, hlogged⟩
  | dropIndex tableName table next name ifExists hop htable hnext =>
      obtain ⟨pos, rfl⟩ := Table.dropIndex_ok hnext
      exact ⟨hlive.update fun _ _ => hlive table (hwf.findTable_eq_some.mp htable).1, hlogged⟩
  | checkpoint =>
      refine ⟨hlive, hlive.of_image ?_⟩
      rw [recovered, replayWal, writeCheckpoint, ← List.append_assoc]
      exact WellFormed.recovered_checkpoint _ _
  | shutdown =>
      refine ⟨hlive, hlive.of_image ?_⟩
      rw [recovered, replayWal, shutdown, writeCheckpoint, List.append_nil]
      exact WellFormed.recovered_checkpoint _ _
  | reopen defaultEngine loaded next hop hopen =>
      obtain ⟨opened, hopened, htables, hwalOld, hwal, -, -⟩ := hwf.reopen defaultEngine loaded
      have hsame : opened = after := Except.ok.inj (hopened.symm.trans hopen)
      subst hsame
      have hrecovered : opened.recovered = engine.recovered := by rw [recovered, hwalOld, hwal, ← recovered]
      rw [htables, hrecovered]
      refine ⟨hlogged.of_image ?_, hlogged⟩
      rw [List.map_map]
      exact List.map_congr_left fun table _ => rebuildIfEmpty_image table

/-- In every engine that serial calls reach, the last version of every chain is open. -/
theorem SerialReachable.lastOpen {guard : DatabaseEngine → SerialCall → Prop}
    (h : SerialReachable guard engine) :
    AllChains LastOpen engine.tables ∧ AllChains LastOpen engine.recovered := by
  obtain ⟨defaultEngine, run⟩ := h
  have hinv := run.invariant (P := fun state => state.WellFormed ∧ AllChains LastOpen state.tables ∧
      AllChains LastOpen state.recovered) (fun state call hstate _ => ?_)
    ⟨WellFormed.fresh defaultEngine, .nil _, .nil _⟩
  · exact hinv.2
  · obtain ⟨hwf, hlive, hlogged⟩ := hstate
    have htransition := serialStep_transition state call
    exact ⟨hwf.transition htransition,
      chains_transition hwf (fun _ tx _ _ _ => lastOpen_rule tx.txId) hlive hlogged htransition⟩

/-! ### The chains of a name -/

/-- The version chains of the table of a name. -/
def chainsOf (engine : DatabaseEngine) (name : String) : Option (List Chain) :=
  (findTable name engine.tables).map (·.versionChains)

/-- A transaction whose commit reaches the in-memory phase. -/
structure Installs (engine : DatabaseEngine) (tx : Transaction) : Prop where
  running : tx.status = .inProgress
  accept : ChecksAccept tx (snapshotTables engine.tables)
  held : ∀ name ∈ tx.tableNames, engine.catalog.Holds name

/-- The chains of a name with the versions of a transaction placed on them. -/
def placedChains (engine : DatabaseEngine) (tx : Transaction) (name : String) : Option (List Chain) :=
  (engine.chainsOf name).map fun chains =>
    placeAll tx.txId chains (tableChanges tx (snapshotTables engine.tables) name)

section Placed

variable {orders : CommitOrders} {tx : Transaction} {name : String}

theorem placedChains_of_not_mem (hname : name ∉ tx.tableNames) :
    engine.placedChains tx name = engine.chainsOf name := by
  have hchanges : tableChanges tx (snapshotTables engine.tables) name = [] := by
    rw [tableChanges, Transaction.entriesOf_eq_nil hname]
    rfl
  rw [placedChains, hchanges]
  exact congrFun Option.map_id _

theorem chainsOf_installTable (hwf : engine.WellFormed) (hname : name ∈ tx.tableNames) :
    (findTable name (installTable tx (snapshotTables engine.tables) name engine.tables).2).map
        (·.versionChains) = engine.placedChains tx name := by
  rw [findTable_installTable, applyWriteSet, if_pos hname, hwf.snapshotTables_eq, placedChains, chainsOf]
  cases hfound : findTable name engine.tables with
  | none => rfl
  | some table => exact congrArg some (installOn_versionChains _ _ _ _ _)

/-- A commit leaves the chains of a name alone or places its versions on them. -/
theorem chainsOf_commit_cases (hwf : engine.WellFormed) (orders : CommitOrders) (tx : Transaction)
    (name : String) :
    (engine.commit orders tx).2.2.chainsOf name = engine.chainsOf name ∨
      engine.Installs tx ∧ name ∈ tx.tableNames ∧
        (engine.commit orders tx).2.2.chainsOf name = engine.placedChains tx name := by
  rcases commit_cases engine orders tx with ⟨err, -, hsame | haborted⟩ | ⟨hrunning, haccept, hchecked⟩
  · rw [hsame]
    exact Or.inl rfl
  · rw [haborted]
    exact Or.inl rfl
  · rw [hchecked]
    rcases commitChecked_tables engine orders tx (snapshotTables engine.tables) with
      ⟨hheld, htables⟩ | ⟨-, htables⟩
    · rw [chainsOf, htables]
      rcases findTable_runAll_cases (orders.memory.nodup tx.nodup_tableNames) with hsame | ⟨hmem, hdone⟩
      · exact Or.inl (congrArg _ hsame)
      · have hname := orders.memory.mem_order.mp hmem
        refine Or.inr ⟨⟨hrunning, haccept, hheld⟩, hname, ?_⟩
        exact (congrArg _ hdone).trans (chainsOf_installTable hwf hname)
    · rw [chainsOf, htables]
      exact Or.inl rfl

/-- A commit that returns Ok got through all its phases. -/
theorem commit_ok (hok : (engine.commit orders tx).1 = .ok ()) :
    engine.Installs tx ∧ (installWrites orders.memory tx (snapshotTables engine.tables) engine.tables).1 = .ok () ∧
      engine.commit orders tx = (.ok (), { tx with status := .committed }, { engine.logWrites tx with
        catalog := (applyToEngines orders.engines tx (snapshotTables engine.tables) engine.catalog).2
        tables := (installWrites orders.memory tx (snapshotTables engine.tables) engine.tables).2
        mvcc := engine.mvcc.commitTransaction tx }) := by
  rcases commit_cases engine orders tx with ⟨err, herr, -⟩ | ⟨hrunning, haccept, hchecked⟩
  · rw [herr] at hok
    cases hok
  · rw [hchecked] at hok ⊢
    rcases commitChecked_cases engine orders tx (snapshotTables engine.tables) with
      ⟨err, -, h⟩ | ⟨-, err, -, h⟩ | ⟨hstored, hinstalled, h⟩
    · rw [h] at hok
      cases hok
    · rw [h] at hok
      cases hok
    · exact ⟨⟨hrunning, haccept, applyToEngines_ok_iff.mp hstored⟩, hinstalled, h⟩

/-- A commit that returns Ok has placed its versions on the chains of every name. -/
theorem chainsOf_commit_of_ok (hwf : engine.WellFormed) (hok : (engine.commit orders tx).1 = .ok ())
    (name : String) : (engine.commit orders tx).2.2.chainsOf name = engine.placedChains tx name := by
  obtain ⟨-, hinstalled, hcommit⟩ := commit_ok hok
  rw [hcommit, chainsOf]
  by_cases hname : name ∈ tx.tableNames
  · have hmem : name ∈ orders.memory.order tx.tableNames := orders.memory.mem_order.mpr hname
    have hdone := findTable_runAll_of_ok (orders.memory.nodup tx.nodup_tableNames) hmem hinstalled
    exact (congrArg _ hdone).trans (chainsOf_installTable hwf hname)
  · have hmem : name ∉ orders.memory.order tx.tableNames := fun h => hname (orders.memory.mem_order.mp h)
    rw [placedChains_of_not_mem hname]
    exact congrArg _ (findTable_runAll_of_not_mem hmem)

end Placed

end DatabaseEngine

end HelionDb
