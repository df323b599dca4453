import HelionDb.ChainRule
import HelionDb.IndexMaintenance
import HelionDb.Statements

/-! Replay against commit. Commit places the versions of a write set on the chains as they are when it
begins; replay validates inserted rows, appends them wherever they were meant to go, and reads the row a
deletion repeats off what it has rebuilt so far. The two agree on entries that both read alike. -/

namespace HelionDb

/-! ### One table -/

/-- Replay of the record of an entry on its table. -/
def WriteEntry.replay (txId : Nat) (entry : WriteEntry) (table : Table) : Table :=
  match entry.operation with
  | .insert row => table.replayInsert row txId
  | .update newRow => table.replayUpdate entry.rowIdx newRow txId
  | .delete => table.replayDelete entry.rowIdx txId

theorem applyWalRecord_walRecord (tables : List Table) (txId : Nat) (entry : WriteEntry) :
    applyWalRecord tables (entry.walRecord txId) = updateTable entry.tableName (entry.replay txId) tables := by
  unfold WriteEntry.walRecord
  cases hoperation : entry.operation with
  | insert row =>
      refine congrArg (fun f => updateTable entry.tableName f tables) (funext fun table => ?_)
      rw [WriteEntry.replay, hoperation]
  | update newRow =>
      refine congrArg (fun f => updateTable entry.tableName f tables) (funext fun table => ?_)
      rw [WriteEntry.replay, hoperation]
  | delete =>
      refine congrArg (fun f => updateTable entry.tableName f tables) (funext fun table => ?_)
      rw [WriteEntry.replay, hoperation]

theorem schema_replay (txId : Nat) (entry : WriteEntry) (table : Table) :
    (entry.replay txId table).schema = table.schema := by
  unfold WriteEntry.replay
  split
  · unfold Table.replayInsert
    split <;> rfl
  · unfold Table.replayUpdate
    split <;> rfl
  · unfold Table.replayDelete
    split
    · rfl
    · split <;> rfl

/-- The latest row at a position of some chains. -/
def latestRow (chains : List Chain) (rowIdx : Nat) : Option Row :=
  (chains[rowIdx]?.bind List.getLast?).map (·.row)

/-- Replay does with an entry what the commit does: an inserted row fits the schema and goes to the end,
an updated row is there, and a deletion repeats the row that the copy of the commit has. -/
def EntryReplays (columns : List ColumnMeta) (snapshot : String → Option Table) (chains : List Chain)
    (entry : WriteEntry) : Prop :=
  match entry.operation with
  | .insert row => chains.length ≤ entry.rowIdx ∧ RowFits columns row
  | .update _ => entry.rowIdx < chains.length
  | .delete =>
      latestRow chains entry.rowIdx =
        (snapshot entry.tableName).bind fun copy => latestRow copy.versionChains entry.rowIdx

/-- Every entry is replayed faithfully when its turn comes. -/
def EntriesReplay (columns : List ColumnMeta) (txId : Nat) (snapshot : String → Option Table) :
    List Chain → List WriteEntry → Prop
  | _, [] => True
  | chains, entry :: rest =>
      EntryReplays columns snapshot chains entry ∧
        EntriesReplay columns txId snapshot (placeEntry txId snapshot chains entry) rest

section OneTable

variable {txId : Nat} {snapshot : String → Option Table} {entry : WriteEntry} {table : Table}

private theorem entryVersion_latestRow (hdelete : entry.operation = .delete) :
    entryVersion txId snapshot entry =
      ((snapshot entry.tableName).bind fun copy => latestRow copy.versionChains entry.rowIdx).map
        fun row => (entry.rowIdx, .newDelete txId row) := by
  unfold entryVersion latestRow
  rw [hdelete]
  dsimp only
  cases snapshot entry.tableName with
  | none => rfl
  | some copy =>
      dsimp only [Option.bind_some]
      cases copy.versionChains[entry.rowIdx]? with
      | none => rfl
      | some chain =>
          dsimp only [Option.bind_some]
          rw [Option.map_map]
          rfl

theorem image_replay (h : EntryReplays table.columns snapshot table.versionChains entry) :
    (entry.replay txId table).image =
      { table.image with versionChains := placeEntry txId snapshot table.versionChains entry } := by
  unfold EntryReplays at h
  unfold WriteEntry.replay
  cases hoperation : entry.operation with
  | insert row =>
      rw [hoperation] at h
      have hplaced : placeEntry txId snapshot table.versionChains entry =
          table.versionChains ++ [[.newInsert txId row]] := by
        rw [placeEntry, entryVersion, hoperation]
        exact placeVersion_of_le h.1
      rw [hplaced]
      change (table.replayInsert row txId).image = _
      rw [Table.replayInsert, Table.validateRow_ok_iff.mpr h.2]
      rfl
  | update newRow =>
      rw [hoperation] at h
      have hplaced : placeEntry txId snapshot table.versionChains entry =
          table.versionChains.modify entry.rowIdx (extendChain txId (.newUpdate txId newRow)) := by
        rw [placeEntry, entryVersion, hoperation]
        exact placeVersion_of_lt h
      rw [hplaced]
      change (table.replayUpdate entry.rowIdx newRow txId).image = _
      rw [Table.replayUpdate, if_pos h]
      rfl
  | delete =>
      rw [hoperation] at h
      change (table.replayDelete entry.rowIdx txId).image = _
      rw [placeEntry, entryVersion_latestRow hoperation, ← h, Table.replayDelete, latestRow]
      split
      · rename_i hnone
        rw [hnone]
        rfl
      · rename_i chain hchain
        rw [hchain, Option.bind_some]
        split
        · rename_i hempty
          rw [hempty]
          rfl
        · rename_i latest hlatest
          have hplaced : placeVersion txId table.versionChains (entry.rowIdx, .newDelete txId latest.row) =
              table.versionChains.modify entry.rowIdx (extendChain txId (.newDelete txId latest.row)) :=
            placeVersion_of_lt (List.getElem?_eq_some_iff.mp hchain).1
          rw [hlatest, Option.map_some, Option.map_some]
          change _ = TableImage.mk _ _ (placeVersion txId table.versionChains (entry.rowIdx, _))
          rw [hplaced]
          rfl

/-- Faithful entries, replayed in order, place their versions on the chains. -/
theorem image_foldl_replay {entries : List WriteEntry}
    (h : EntriesReplay table.columns txId snapshot table.versionChains entries) :
    (entries.foldl (fun table entry => entry.replay txId table) table).image =
      { table.image with
        versionChains := placeAll txId table.versionChains (entries.filterMap (entryVersion txId snapshot)) } := by
  induction entries generalizing table with
  | nil => rfl
  | cons entry rest ih =>
      obtain ⟨hhead, hrest⟩ := h
      have hstep := @image_replay txId snapshot entry table hhead
      obtain ⟨hname, hcolumns, hchains⟩ := TableImage.mk.inj hstep
      change (entry.replay txId table).columns = table.columns at hcolumns
      change (entry.replay txId table).versionChains = placeEntry txId snapshot table.versionChains entry at hchains
      rw [List.foldl_cons, ih (by rw [hcolumns, hchains]; exact hrest), hstep, placeAll_filterMap_cons, hchains]

end OneTable

/-- What a log does to a table through the records of a transaction. -/
theorem findTable_replay_walRecords (tables : List Table) (tx : Transaction) (name : String) :
    findTable name (replayRecords tables tx.walRecords) = (findTable name tables).map fun table =>
      (tx.entriesOf name).foldl (fun table entry => entry.replay tx.txId table) table := by
  rw [Transaction.walRecords, replayRecords_append]
  change findTable name (replayRecords tables (tx.writeSet.map (WriteEntry.walRecord tx.txId))) = _
  rw [Transaction.entriesOf]
  have hname : ∀ (entry : WriteEntry) (table : Table), (entry.replay tx.txId table).name = table.name :=
    fun entry table => (Prod.mk.inj (schema_replay tx.txId entry table)).1
  induction tx.writeSet generalizing tables with
  | nil => exact (congrFun Option.map_id _).symm
  | cons entry rest ih =>
      rw [List.map_cons]
      change findTable name (replayRecords (applyWalRecord tables (entry.walRecord tx.txId)) _) = _
      rw [applyWalRecord_walRecord, ih, List.filter_cons]
      by_cases hentry : entry.tableName = name
      · subst hentry
        rw [if_pos (beq_self_eq_true _), findTable, KeyedList.lookup_update_self (hname entry), Option.map_map]
        rfl
      · rw [if_neg (by simpa using hentry), findTable, KeyedList.lookup_update_of_ne (hname entry) (Ne.symm hentry)]

namespace DatabaseEngine

variable {engine : DatabaseEngine} {orders : CommitOrders} {tx : Transaction}

/-! ### One commit -/

/-- The versions of an accepted transaction reach all its tables: the commit is safe, or its only table is
held by an engine (a table gets its chains before its indexes can fail). -/
def Lands (engine : DatabaseEngine) (tx : Transaction) : Prop :=
  engine.CommitSafe tx ∨ (tx.tableNames.length ≤ 1 ∧ ∀ name ∈ tx.tableNames, engine.catalog.Holds name)

/-- Replay of the records of a transaction does what its commit does: it names no table there is, or its
versions reach all its tables and every entry is replayed faithfully. -/
def ReplaysFaithfully (engine : DatabaseEngine) (tx : Transaction) : Prop :=
  (∀ name ∈ tx.tableNames, name ∉ engine.tables.map Table.name) ∨
    (engine.Lands tx ∧ ∀ table ∈ engine.tables,
      EntriesReplay table.columns tx.txId (snapshotTables engine.tables) table.versionChains
        (tx.entriesOf table.name))

private theorem installWrites_single {snapshot : String → Option Table} (hsingle : tx.tableNames.length ≤ 1)
    {name : String} (hname : name ∈ tx.tableNames) (order : HashOrder) (tables : List Table) :
    (installWrites order tx snapshot tables).2 = (installTable tx snapshot name tables).2 := by
  obtain ⟨only, honly⟩ := List.length_eq_one_iff.mp (Nat.le_antisymm hsingle (List.length_pos_of_mem hname))
  rw [honly] at hname
  obtain rfl := List.mem_singleton.mp hname
  have hperm : order.order tx.tableNames = [name] := by
    rw [honly]
    exact List.perm_singleton.mp (order.perm [name])
  rw [installWrites, hperm]
  cases hitem : (installTable tx snapshot name tables).1 with
  | ok u => rw [Loop.runAll_cons_ok _ hitem, Loop.runAll_nil]
  | error err => rw [Loop.runAll_cons_error _ hitem]

theorem chainsOf_commit_of_lands (hwf : engine.WellFormed) (hrunning : tx.status = .inProgress)
    (haccept : ChecksAccept tx (snapshotTables engine.tables)) (hlands : engine.Lands tx) (name : String) :
    (engine.commit orders tx).2.2.chainsOf name = engine.placedChains tx name := by
  rcases hlands with hsafe | ⟨hsingle, hheld⟩
  · exact chainsOf_commit_of_ok hwf ((commit_ok_iff hwf hrunning haccept).mpr hsafe) name
  · by_cases hname : name ∈ tx.tableNames
    · have htables : (engine.commit orders tx).2.2.tables =
          (installTable tx (snapshotTables engine.tables) name engine.tables).2 := by
        rw [commit_of_accepted hrunning haccept]
        rcases commitChecked_tables engine orders tx (snapshotTables engine.tables) with
          ⟨-, htables⟩ | ⟨hnot, -⟩
        · rw [htables, installWrites_single hsingle hname]
        · exact absurd hheld hnot
      rw [chainsOf, htables]
      exact chainsOf_installTable hwf hname
    · rcases chainsOf_commit_cases hwf orders tx name with hsame | ⟨-, hmem, -⟩
      · rw [hsame, placedChains_of_not_mem hname]
      · exact absurd hmem hname

theorem chainsOf_commit_of_unknown (hwf : engine.WellFormed)
    (hunknown : ∀ name ∈ tx.tableNames, name ∉ engine.tables.map Table.name) (name : String) :
    (engine.commit orders tx).2.2.chainsOf name = engine.placedChains tx name := by
  rcases chainsOf_commit_cases hwf orders tx name with hsame | ⟨-, -, hplaced⟩
  · rw [hsame]
    by_cases hname : name ∈ tx.tableNames
    · have hnone : engine.chainsOf name = none := by
        rw [chainsOf, Option.map_eq_none_iff]
        refine KeyedList.lookup_eq_none_iff.mpr fun table htable heq => hunknown name hname ?_
        exact heq ▸ List.mem_map_of_mem htable
      rw [placedChains, hnone]
      rfl
    · rw [placedChains_of_not_mem hname]
  · exact hplaced

/-- Replay of a faithful transaction on the tables before its commit gives the images after it. -/
theorem image_replay_walRecords (hwf : engine.WellFormed) (hrunning : tx.status = .inProgress)
    (haccept : ChecksAccept tx (snapshotTables engine.tables)) (hfaithful : engine.ReplaysFaithfully tx) :
    (replayRecords engine.tables tx.walRecords).map Table.image =
      (engine.commit orders tx).2.2.tables.map Table.image := by
  have hchains : ∀ name, (engine.commit orders tx).2.2.chainsOf name = engine.placedChains tx name := by
    rcases hfaithful with hunknown | ⟨hlands, -⟩
    · exact chainsOf_commit_of_unknown hwf hunknown
    · exact chainsOf_commit_of_lands hwf hrunning haccept hlands
  have hentries : ∀ table ∈ engine.tables, EntriesReplay table.columns tx.txId (snapshotTables engine.tables)
      table.versionChains (tx.entriesOf table.name) := by
    rcases hfaithful with hunknown | ⟨-, hentries⟩
    · intro table htable
      have hname : table.name ∉ tx.tableNames :=
        fun hname => hunknown table.name hname (List.mem_map_of_mem htable)
      rw [Transaction.entriesOf_eq_nil hname]
      trivial
    · exact hentries
  have hreplayed := schema_replay_walRecords engine.tables tx
  have hcommitted := (commit_frame engine orders tx).1
  have hnames : ∀ tables : List Table, (tables.map Table.image).map TableImage.name = tables.map Table.name := by
    intro tables
    rw [List.map_map]
    rfl
  refine @KeyedList.ext_lookup _ _ _ TableImage.name _ _ ?_ ?_ fun name => ?_
  · rw [hnames, hnames, map_name_eq_of_schema (hreplayed.trans hcommitted.symm)]
  · rw [hnames, map_name_eq_of_schema hreplayed]
    exact hwf.nodup_names
  · have hlookup : ∀ tables : List Table, KeyedList.lookup TableImage.name name (tables.map Table.image) =
        (findTable name tables).map Table.image := fun _ => KeyedList.lookup_map fun _ => rfl
    rw [hlookup, hlookup, findTable_replay_walRecords]
    have hschema := findTable_schema hcommitted name
    have hplaced := hchains name
    rw [placedChains, chainsOf, chainsOf] at hplaced
    cases hfound : findTable name engine.tables with
    | none =>
        rw [hfound] at hschema
        rw [Option.map_eq_none_iff.mp hschema]
        rfl
    | some table =>
        rw [hfound] at hschema hplaced
        obtain ⟨htable, rfl⟩ := hwf.findTable_eq_some.mp hfound
        obtain ⟨after, hafter, hafterSchema⟩ := Option.map_eq_some_iff.mp hschema
        obtain ⟨hname, hcolumns⟩ := Prod.mk.inj hafterSchema
        rw [hafter] at hplaced ⊢
        have hafterChains := Option.some.inj hplaced
        rw [Option.map_some, Option.map_some, image_foldl_replay (hentries table htable)]
        refine congrArg some ?_
        simp only [Table.image, hname, hcolumns, hafterChains]
        rfl

/-- The log rebuilds the tables in memory: names, columns and version chains. -/
def Mirrored (engine : DatabaseEngine) : Prop :=
  engine.recovered.map Table.image = engine.tables.map Table.image

/-- The commit of a call, if its checks accept it, is replayed faithfully. -/
def ReplayGuard (engine : DatabaseEngine) (call : SerialCall) : Prop :=
  ∀ begun tx, engine.pending call.op = some (begun, tx) → ChecksAccept tx (snapshotTables engine.tables) →
    begun.ReplaysFaithfully tx

theorem Mirrored.commit (h : engine.Mirrored) (hwf : engine.WellFormed) (hrunning : tx.status = .inProgress)
    (hfaithful : ChecksAccept tx (snapshotTables engine.tables) → engine.ReplaysFaithfully tx) :
    (engine.commit orders tx).2.2.Mirrored := by
  by_cases haccept : ChecksAccept tx (snapshotTables engine.tables)
  · have himage := @image_replay_walRecords engine orders tx hwf hrunning haccept (hfaithful haccept)
    rw [Mirrored, ← himage]
    obtain ⟨hwal, hwalOld⟩ := commitChecked_wal engine orders tx (snapshotTables engine.tables)
    rw [recovered, commit_of_accepted hrunning haccept, hwal, hwalOld, replayWal_append]
    exact replayRecords_congr h _
  · rw [commit_of_not_accepted haccept]
    exact h

/-- Serial calls under the guard keep log and memory in step. -/
theorem Mirrored.transition (h : engine.Mirrored) (hwf : engine.WellFormed) {call : SerialCall}
    (hguard : engine.ReplayGuard call) {after : DatabaseEngine} (htransition : Transition engine call after) :
    after.Mirrored := by
  cases htransition with
  | same | ids | migrate => exact h
  | write start entries hcommit hstart =>
      have hfaithful := hguard start.begin.2 (start.beginWith entries) (by rw [pending, hcommit]; rfl)
      rcases hstart with rfl | rfl
      · exact Mirrored.commit h (hwf.of_frame rfl (.refl _) rfl) rfl hfaithful
      · exact Mirrored.commit h (hwf.of_frame rfl (.refl _) rfl) rfl hfaithful
  | create name columns engineName catalog hfresh hcatalog =>
      have hnone : (engine.tables.any fun table => table.name == name) = false := by
        refine List.any_eq_false.mpr fun table htable hsame => ?_
        have hcase := hfresh table htable
        rw [eq_of_beq hsame, eqIgnoreAsciiCase_refl] at hcase
        cases hcase
      have hrecord : applyWalRecord engine.tables (.createTable name columns) =
          engine.tables ++ [Table.new name columns] := by
        rw [applyWalRecord, hnone]
        rfl
      rw [Mirrored, recovered, replayWal_append, ← hrecord]
      exact applyWalRecord_congr h (.createTable name columns)
  | drop name catalog hcatalog =>
      rw [Mirrored, recovered, replayWal_append, hwf.filter_dropped (hwf.mem_names_of_dropTable hcatalog)]
      exact applyWalRecord_congr h (.dropTable name)
  | createIndex tableName table next name columns unique htable hnext =>
      obtain ⟨index, rfl, -⟩ := Table.addIndex_ok hnext
      exact h.trans (hwf.map_image_reindex htable _).symm
  | dropIndex tableName table next name ifExists hop htable hnext =>
      obtain ⟨pos, rfl⟩ := Table.dropIndex_ok hnext
      exact h.trans (hwf.map_image_reindex htable _).symm
  | checkpoint =>
      rw [Mirrored, recovered, replayWal, writeCheckpoint, ← List.append_assoc]
      exact WellFormed.recovered_checkpoint _ _
  | shutdown =>
      rw [Mirrored, recovered, replayWal, shutdown, writeCheckpoint, List.append_nil]
      exact WellFormed.recovered_checkpoint _ _
  | reopen defaultEngine loaded next hop hopen =>
      obtain ⟨opened, hopened, htables, hwalOld, hwal, -⟩ := hwf.reopen defaultEngine loaded
      have hsame : opened = after := Except.ok.inj (hopened.symm.trans hopen)
      subst hsame
      rw [Mirrored, recovered, hwalOld, hwal, htables, List.map_map]
      exact List.map_congr_left fun table _ => (rebuildIfEmpty_image table).symm

theorem SerialReachable.mirrored (h : SerialReachable ReplayGuard engine) :
    engine.WellFormed ∧ engine.Mirrored := by
  obtain ⟨defaultEngine, run⟩ := h
  refine run.invariant (P := fun state => state.WellFormed ∧ state.Mirrored) (fun state call hstate hguard => ?_)
    ⟨WellFormed.fresh defaultEngine, rfl⟩
  have htransition := serialStep_transition state call
  exact ⟨hstate.1.transition htransition, hstate.2.transition hstate.1 hguard htransition⟩

theorem entriesReplay_insert {columns : List ColumnMeta} {txId : Nat} {snapshot : String → Option Table}
    (tableName : String) {rows : List Row} (hfits : ∀ row ∈ rows, RowFits columns row) (chains : List Chain) :
    EntriesReplay columns txId snapshot chains (insertEntries tableName chains.length rows) := by
  induction rows generalizing chains with
  | nil => trivial
  | cons row rest ih =>
      rw [insertEntries_cons]
      refine ⟨⟨le_rfl, hfits row List.mem_cons_self⟩, ?_⟩
      have hplaced : placeEntry txId snapshot chains
          { tableName, rowIdx := chains.length, oldTxidMax := u64Max, operation := .insert row } =
            chains ++ [[.newInsert txId row]] := placeVersion_of_le le_rfl
      have hlength : (chains ++ [[RowVersion.newInsert txId row]]).length = chains.length + 1 := by simp
      rw [hplaced, ← hlength]
      exact ih (fun other hother => hfits other (List.mem_cons_of_mem _ hother)) _

/-- Updates and deletions of different rows find each row as the copy has it. -/
theorem entriesReplay_of_nodup {columns : List ColumnMeta} {txId : Nat} {snapshot : String → Option Table}
    {copy : Table} {entries : List WriteEntry} {chains : List Chain}
    (hnodup : (entries.map (·.rowIdx)).Nodup) (hinsert : ∀ entry ∈ entries, ∀ row, entry.operation ≠ .insert row)
    (hcopy : ∀ entry ∈ entries, snapshot entry.tableName = some copy)
    (hrow : ∀ entry ∈ entries, entry.rowIdx < chains.length)
    (hsame : ∀ entry ∈ entries, chains[entry.rowIdx]? = copy.versionChains[entry.rowIdx]?) :
    EntriesReplay columns txId snapshot chains entries := by
  induction entries generalizing chains with
  | nil => trivial
  | cons entry rest ih =>
      obtain ⟨hentry, hrest⟩ := List.nodup_cons.mp hnodup
      refine ⟨?_, ih hrest (fun other hother => hinsert other (List.mem_cons_of_mem _ hother))
        (fun other hother => hcopy other (List.mem_cons_of_mem _ hother)) (fun other hother => ?_)
        (fun other hother => ?_)⟩
      · unfold EntryReplays
        cases hoperation : entry.operation with
        | insert row => exact absurd hoperation (hinsert entry List.mem_cons_self row)
        | update row => exact hrow entry List.mem_cons_self
        | delete =>
            dsimp only
            rw [hcopy entry List.mem_cons_self, Option.bind_some, latestRow, latestRow,
              hsame entry List.mem_cons_self]
      · exact (hrow other (List.mem_cons_of_mem _ hother)).trans_le (length_le_placeEntry _ _ _ _)
      · have hne : other.rowIdx ≠ entry.rowIdx := fun heq => hentry (List.mem_map.mpr ⟨other, hother, heq⟩)
        rw [getElem?_placeEntry_of_ne (hrow other (List.mem_cons_of_mem _ hother)) hne]
        exact hsame other (List.mem_cons_of_mem _ hother)

/-- A statement is replayed faithfully; of an INSERT it is enough that its rows fit the schema, as the
rows of a planned INSERT do. -/
theorem replayGuard_execute (hwf : engine.WellFormed) (plan : LogicalPlan) (orders : CommitOrders)
    (hfits : ∀ tableName rows table, plan = .insert tableName rows →
      findTable tableName engine.tables = some table → ∀ row ∈ rows, RowFits table.columns row) :
    engine.ReplayGuard { op := .execute plan, orders } := by
  intro begun tx hpending haccept
  obtain ⟨tableName, table, htable, hwrites⟩ := pending_execute hpending
  have hnamed := hwrites.named
  have hnames : ∀ name ∈ tx.tableNames, name = tableName := by
    intro name hname
    obtain ⟨entry, hentry, rfl⟩ := Transaction.mem_tableNames.mp hname
    exact hnamed entry hentry
  have hsingle : tx.tableNames.length ≤ 1 :=
    (List.subperm_of_subset tx.nodup_tableNames fun name hname =>
      List.mem_singleton.mpr (hnames name hname)).length_le
  rw [(pending_frame hpending).1]
  refine Or.inr ⟨Or.inr ⟨hsingle, fun name hname => ?_⟩, fun other hother => ?_⟩
  · rw [hnames name hname]
    obtain ⟨hmem, rfl⟩ := hwf.findTable_eq_some.mp htable
    exact hwf.holds (List.mem_map_of_mem hmem)
  · change EntriesReplay other.columns tx.txId (snapshotTables engine.tables) other.versionChains _
    rw [entriesOf_of_named hnamed]
    split
    · rename_i hname
      obtain rfl : other = table := Option.some.inj ((hwf.findTable_self hother).symm.trans (hname ▸ htable))
      generalize tx.writeSet = entries at hwrites ⊢
      cases hwrites with
      | insert rows hplan => exact entriesReplay_insert tableName (hfits tableName rows other hplan htable) _
      | «over» filter _ hover =>
          refine entriesReplay_of_nodup hover.nodup hover.noInsert (fun entry hentry => ?_)
            (fun entry hentry => hover.lt_length hentry) (fun _ _ => rfl)
          rw [hover.named entry hentry, hwf.snapshotTables_eq, htable]
    · trivial

/-- In every serial run under the guard, replaying the log gives for every table the columns and version
chains that are in memory. -/
theorem recovered_image_eq (h : SerialReachable ReplayGuard engine) :
    engine.recovered.map Table.image = engine.tables.map Table.image := h.mirrored.2

/-- A table with a NOT NULL column, and a structured create of this value, which is not validated. -/
def createNotNull : SerialCall :=
  { op := .execute (.createTable "t" [(ColumnMeta.new "a" .text).notNull] none), orders := .asGiven }

def structuredCreate (value : Datum) : SerialCall :=
  { op := .execute (.insert "t" [{ values := [value] }]), orders := .asGiven }

theorem recovered_image_eq_text :
    (([createNotNull, structuredCreate (.text "x")].foldl serialStep (fresh "disk")).recovered.map Table.image) =
      ([createNotNull, structuredCreate (.text "x")].foldl serialStep (fresh "disk")).tables.map Table.image := by
  have hcreated : SerialReachable (fun _ _ => True) ([createNotNull].foldl serialStep (fresh "disk")) :=
    ⟨"disk", .foldl _ _⟩
  refine recovered_image_eq ⟨"disk", .of_meets ⟨?_, ?_, trivial⟩⟩
  · rintro begun tx hpending
    cases hpending
  · refine replayGuard_execute hcreated.wellFormed _ _ fun tableName rows table hplan hfound row hrow => ?_
    obtain ⟨rfl, rfl⟩ := LogicalPlan.insert.inj hplan
    obtain rfl := Option.some.inj hfound
    obtain rfl := List.mem_singleton.mp hrow
    decide

/-- A structured create that leaves a NOT NULL column out returns Ok; its row is in memory and replay
skips it. -/
theorem not_recovered_image_eq_null :
    SerialReachable (fun _ _ => True)
        ([createNotNull, structuredCreate .null].foldl serialStep (fresh "disk")) ∧
      (([createNotNull].foldl serialStep (fresh "disk")).execute .asGiven
        (.insert "t" [{ values := [.null] }])).1 = .ok 1 ∧
      ([createNotNull, structuredCreate .null].foldl serialStep (fresh "disk")).recovered.map Table.image ≠
        ([createNotNull, structuredCreate .null].foldl serialStep (fresh "disk")).tables.map Table.image :=
  ⟨⟨"disk", .foldl _ _⟩, rfl, by decide⟩

end DatabaseEngine

end HelionDb
