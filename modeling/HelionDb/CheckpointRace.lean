import HelionDb.ConcurrentCommit
import HelionDb.RecoveryChains

/-! Checkpoints that race with commits. A Checkpoint record replaces everything that the log rebuilds up to
it, so it erases a commit that is in the log and not in the copy. When a copy is appended only while it is
what is in memory and no commit is between its log append and its install, the log goes on to rebuild every
transaction whose commit returned Ok. -/

namespace HelionDb

/-! ### Write sets that land -/

/-- The version of an entry is there. -/
def EntryPresent (txId : Nat) (chains : List Chain) (entry : WriteEntry) : Prop :=
  match entry.operation with
  | .insert row => ∃ chain ∈ chains, ∃ version ∈ chain,
      version.txidMin = txId ∧ version.row = row ∧ version.isDeleted = false
  | .update row => ∃ chain, chains[entry.rowIdx]? = some chain ∧ ∃ version ∈ chain,
      version.txidMin = txId ∧ version.row = row ∧ version.isDeleted = false
  | .delete => ∃ chain, chains[entry.rowIdx]? = some chain ∧ ∃ version ∈ chain,
      version.txidMin = txId ∧ version.isDeleted = true

/-- An inserted row fits the schema, an updated row is there when its turn comes, and a deleted row is in the
copy. -/
def EntryLands (columns : List ColumnMeta) (snapshot : String → Option Table) (chains : List Chain)
    (entry : WriteEntry) : Prop :=
  match entry.operation with
  | .insert row => RowFits columns row
  | .update _ => entry.rowIdx < chains.length
  | .delete => ∃ copy, snapshot entry.tableName = some copy ∧ entry.rowIdx < copy.versionChains.length

/-- Every entry lands when its turn comes. -/
def EntriesLand (columns : List ColumnMeta) (txId : Nat) (snapshot : String → Option Table) :
    List Chain → List WriteEntry → Prop
  | _, [] => True
  | chains, entry :: rest =>
      EntryLands columns snapshot chains entry ∧
        EntriesLand columns txId snapshot (placeEntry txId snapshot chains entry) rest

/-- The write set lands on the tables it names. -/
def WritesLand (snapshot : String → Option Table) (tx : Transaction) : Prop :=
  ∀ name table, snapshot name = some table →
    EntriesLand table.columns tx.txId snapshot table.versionChains (tx.entriesOf name)

theorem ChainsKept.length_le {before after : List Chain} (h : ChainsKept before after) :
    before.length ≤ after.length := by
  rcases Nat.eq_zero_or_pos before.length with hzero | hpos
  · omega
  · have hlast : before.length - 1 < before.length := by omega
    obtain ⟨later, hlater, -⟩ := h _ _ (List.getElem?_eq_getElem hlast)
    have := (List.getElem?_eq_some_iff.mp hlater).1
    omega

/-- A version that stays stays in its chain. -/
theorem ChainsKept.mem {before after : List Chain} (h : ChainsKept before after) {rowIdx : Nat} {chain : Chain}
    (hchain : before[rowIdx]? = some chain) :
    ∃ later, after[rowIdx]? = some later ∧
      ∀ version ∈ chain, ∃ kept ∈ later, VersionKept version kept := by
  obtain ⟨later, hlater, hversions⟩ := h rowIdx chain hchain
  refine ⟨later, hlater, fun version hversion => ?_⟩
  obtain ⟨position, hposition⟩ := List.mem_iff_getElem?.mp hversion
  obtain ⟨kept, hkept, hsame⟩ := hversions position version hposition
  exact ⟨kept, List.mem_of_getElem? hkept, hsame⟩

theorem EntryPresent.mono {txId : Nat} {before after : List Chain} {entry : WriteEntry}
    (h : EntryPresent txId before entry) (hkept : ChainsKept before after) : EntryPresent txId after entry := by
  unfold EntryPresent at h ⊢
  cases hoperation : entry.operation with
  | insert row =>
      rw [hoperation] at h
      obtain ⟨chain, hchain, version, hversion, hid, hrow, hlive⟩ := h
      obtain ⟨rowIdx, hrowIdx⟩ := List.mem_iff_getElem?.mp hchain
      obtain ⟨later, hlater, hmem⟩ := hkept.mem hrowIdx
      obtain ⟨kept, hkeptMem, hsame⟩ := hmem version hversion
      exact ⟨later, List.mem_of_getElem? hlater, kept, hkeptMem, hsame.creator.trans hid, hsame.row.trans hrow,
        hsame.deleted.trans hlive⟩
  | update row =>
      rw [hoperation] at h
      obtain ⟨chain, hchain, version, hversion, hid, hrow, hlive⟩ := h
      obtain ⟨later, hlater, hmem⟩ := hkept.mem hchain
      obtain ⟨kept, hkeptMem, hsame⟩ := hmem version hversion
      exact ⟨later, hlater, kept, hkeptMem, hsame.creator.trans hid, hsame.row.trans hrow,
        hsame.deleted.trans hlive⟩
  | delete =>
      rw [hoperation] at h
      obtain ⟨chain, hchain, version, hversion, hid, hdeleted⟩ := h
      obtain ⟨later, hlater, hmem⟩ := hkept.mem hchain
      obtain ⟨kept, hkeptMem, hsame⟩ := hmem version hversion
      exact ⟨later, hlater, kept, hkeptMem, hsame.creator.trans hid, hsame.deleted.trans hdeleted⟩

/-- A placed version is in the chain of its row, or in the new one at the end. -/
theorem mem_placeVersion_self (txid : Nat) (chains : List Chain) (rowIdx : Nat) (version : RowVersion) :
    ∃ chain ∈ placeVersion txid chains (rowIdx, version), version ∈ chain := by
  rcases Nat.lt_or_ge rowIdx chains.length with hrow | hrow
  · refine ⟨_, List.mem_of_getElem? (getElem?_placeVersion_self hrow), ?_⟩
    exact List.mem_append_right _ (List.mem_singleton_self version)
  · exact ⟨[version], List.mem_of_getElem? (getElem?_placeVersion_new hrow), List.mem_singleton_self version⟩

theorem placed_at (txid : Nat) {chains : List Chain} {rowIdx : Nat} (hrow : rowIdx < chains.length)
    (version : RowVersion) :
    ∃ chain, (placeVersion txid chains (rowIdx, version))[rowIdx]? = some chain ∧ version ∈ chain :=
  ⟨_, getElem?_placeVersion_self hrow, List.mem_append_right _ (List.mem_singleton_self version)⟩

section Live

variable {columns : List ColumnMeta} {txId : Nat} {snapshot : String → Option Table} {chains : List Chain}

theorem entryVersion_placed {entry : WriteEntry} {change : Nat × RowVersion}
    (h : entryVersion txId snapshot entry = some change) :
    change.2.txidMin = txId ∧ change.2.txidMax = u64Max :=
  ⟨(entryVersion_some h).2.1, (entryVersion_some h).2.2⟩

theorem lastOpen_placeEntry (hopen : ∀ chain ∈ chains, LastOpen chain) (entry : WriteEntry) :
    ∀ chain ∈ placeEntry txId snapshot chains entry, LastOpen chain :=
  (lastOpen_rule txId).placeAll hopen fun _ hchange => entryVersion_placed (Option.mem_toList.mp hchange)

/-- An entry that lands is present once it is placed. -/
theorem present_placeEntry {entry : WriteEntry} (hlands : EntryLands columns snapshot chains entry)
    (hcopy : ∀ copy, snapshot entry.tableName = some copy →
      copy.versionChains.length ≤ chains.length ∧ ∀ chain ∈ copy.versionChains, LastOpen chain) :
    EntryPresent txId (placeEntry txId snapshot chains entry) entry := by
  unfold EntryLands at hlands
  unfold EntryPresent
  cases hoperation : entry.operation with
  | insert row =>
      have hplaced : placeEntry txId snapshot chains entry =
          placeVersion txId chains (entry.rowIdx, .newInsert txId row) := by
        rw [placeEntry, entryVersion, hoperation]
        rfl
      obtain ⟨chain, hchain, hversion⟩ := mem_placeVersion_self txId chains entry.rowIdx (.newInsert txId row)
      rw [hplaced]
      exact ⟨chain, hchain, _, hversion, rfl, rfl, rfl⟩
  | update row =>
      rw [hoperation] at hlands
      have hplaced : placeEntry txId snapshot chains entry =
          placeVersion txId chains (entry.rowIdx, .newUpdate txId row) := by
        rw [placeEntry, entryVersion, hoperation]
        rfl
      obtain ⟨chain, hchain, hversion⟩ := placed_at txId hlands (.newUpdate txId row)
      rw [hplaced]
      exact ⟨chain, hchain, _, hversion, rfl, rfl, rfl⟩
  | delete =>
      rw [hoperation] at hlands
      obtain ⟨copy, hsnapshot, hrow⟩ := hlands
      obtain ⟨hlength, hopen⟩ := hcopy copy hsnapshot
      obtain ⟨prior, latest, hlast, -⟩ := hopen _ (List.getElem_mem hrow)
      have hplaced : placeEntry txId snapshot chains entry =
          placeVersion txId chains (entry.rowIdx, .newDelete txId latest.row) := by
        rw [placeEntry, entryVersion_delete hoperation hsnapshot hrow hlast]
        rfl
      obtain ⟨chain, hchain, hversion⟩ := placed_at txId (hrow.trans_le hlength) (.newDelete txId latest.row)
      rw [hplaced]
      exact ⟨chain, hchain, _, hversion, rfl, rfl⟩

/-- Entries that land are present once they are all placed. -/
theorem present_placeAll {entries : List WriteEntry} (hlands : EntriesLand columns txId snapshot chains entries)
    (hopen : ∀ chain ∈ chains, LastOpen chain)
    (hcopy : ∀ entry ∈ entries, ∀ copy, snapshot entry.tableName = some copy →
      copy.versionChains.length ≤ chains.length ∧ ∀ chain ∈ copy.versionChains, LastOpen chain) :
    ∀ entry ∈ entries,
      EntryPresent txId (placeAll txId chains (entries.filterMap (entryVersion txId snapshot))) entry := by
  induction entries generalizing chains with
  | nil => exact List.forall_mem_nil _
  | cons entry rest ih =>
      obtain ⟨hhead, hrest⟩ := hlands
      have hnext := @lastOpen_placeEntry txId snapshot chains hopen entry
      have hlength := length_le_placeEntry txId snapshot chains entry
      rw [placeAll_filterMap_cons]
      refine List.forall_mem_cons.mpr ⟨?_, ih hrest hnext fun other hother copy hsnapshot => ?_⟩
      · refine (present_placeEntry hhead (hcopy entry List.mem_cons_self)).mono (.placeAll hnext ?_)
        intro change hchange
        obtain ⟨other, -, hversion⟩ := List.mem_filterMap.mp hchange
        exact entryVersion_placed hversion
      · obtain ⟨hcopyLength, hcopyOpen⟩ := hcopy other (List.mem_cons_of_mem _ hother) copy hsnapshot
        exact ⟨hcopyLength.trans hlength, hcopyOpen⟩

end Live

/-! ### Replay of write sets that land -/

section Logged

variable {txId : Nat} {snapshot : String → Option Table} {chains : List Chain} {table : Table}
  {entry : WriteEntry}

theorem replay_columns (entry : WriteEntry) (txId : Nat) (table : Table) :
    (entry.replay txId table).columns = table.columns := (Prod.mk.inj (schema_replay txId entry table)).2

/-- Replay of an entry leaves the chains alone or places a version. -/
theorem replay_versionChains (entry : WriteEntry) (txId : Nat) (table : Table) :
    (entry.replay txId table).versionChains = table.versionChains ∨
      ∃ change : Nat × RowVersion, change.2.txidMin = txId ∧ change.2.txidMax = u64Max ∧
        (entry.replay txId table).versionChains = placeVersion txId table.versionChains change := by
  unfold WriteEntry.replay
  cases entry.operation with
  | insert row =>
      dsimp only [Table.replayInsert]
      split
      · exact Or.inl rfl
      · exact Or.inr ⟨(table.versionChains.length, .newInsert txId row), rfl, rfl, (placeVersion_of_le le_rfl).symm⟩
  | update row =>
      dsimp only [Table.replayUpdate]
      split
      · rename_i hrow
        exact Or.inr ⟨(entry.rowIdx, .newUpdate txId row), rfl, rfl, (placeVersion_of_lt hrow).symm⟩
      · exact Or.inl rfl
  | delete =>
      dsimp only [Table.replayDelete]
      split
      · exact Or.inl rfl
      · rename_i chain hchain
        split
        · exact Or.inl rfl
        · rename_i latest hlatest
          have hrow := (List.getElem?_eq_some_iff.mp hchain).1
          exact Or.inr ⟨(entry.rowIdx, .newDelete txId latest.row), rfl, rfl, (placeVersion_of_lt hrow).symm⟩

theorem chainsKept_replay (hopen : ∀ chain ∈ table.versionChains, LastOpen chain) (entry : WriteEntry)
    (txId : Nat) : ChainsKept table.versionChains (entry.replay txId table).versionChains := by
  rcases replay_versionChains entry txId table with hsame | ⟨change, -, -, hplaced⟩
  · rw [hsame]
    exact .refl _
  · rw [hplaced]
    exact .placeVersion txId hopen change

theorem lastOpen_replay (hopen : ∀ chain ∈ table.versionChains, LastOpen chain) (entry : WriteEntry)
    (txId : Nat) : ∀ chain ∈ (entry.replay txId table).versionChains, LastOpen chain := by
  rcases replay_versionChains entry txId table with hsame | ⟨change, hmin, hmax, hplaced⟩
  · rw [hsame]
    exact hopen
  · rw [hplaced]
    obtain ⟨rowIdx, version⟩ := change
    exact (lastOpen_rule txId).placeVersion hopen hmin hmax

/-- Replay of entries keeps the versions of their table. -/
theorem chainsKept_foldl_replay (entries : List WriteEntry) (hopen : ∀ chain ∈ table.versionChains, LastOpen chain) :
    ChainsKept table.versionChains
      (entries.foldl (fun table entry => entry.replay txId table) table).versionChains := by
  induction entries generalizing table with
  | nil => exact .refl _
  | cons entry rest ih =>
      exact (chainsKept_replay hopen entry txId).trans (ih (lastOpen_replay hopen entry txId))

/-- Replay of an entry that lands, on a table with at least as many rows: the entry is present, and the
table still has at least as many rows. -/
theorem replay_lands (hlands : EntryLands table.columns snapshot chains entry)
    (hlength : chains.length ≤ table.versionChains.length)
    (hcopy : ∀ copy, snapshot entry.tableName = some copy → copy.versionChains.length ≤ chains.length)
    (hopen : ∀ chain ∈ table.versionChains, LastOpen chain) :
    EntryPresent txId (entry.replay txId table).versionChains entry ∧
      (placeEntry txId snapshot chains entry).length ≤ (entry.replay txId table).versionChains.length := by
  have hone : ∀ change : Nat × RowVersion, (placeVersion txId chains change).length ≤ chains.length + 1 := by
    intro change
    unfold placeVersion
    split <;> simp
  have hin : ∀ change : Nat × RowVersion, change.1 < chains.length →
      (placeVersion txId chains change).length = chains.length := by
    rintro ⟨rowIdx, version⟩ hrow
    rw [placeVersion_of_lt hrow, List.length_modify]
  unfold EntryLands at hlands
  unfold EntryPresent WriteEntry.replay placeEntry entryVersion
  cases hoperation : entry.operation with
  | insert row =>
      rw [hoperation] at hlands
      have hvalid : table.validateRow row = .ok () := Table.validateRow_ok_iff.mpr hlands
      dsimp only [Table.replayInsert]
      rw [hvalid]
      refine ⟨⟨[.newInsert txId row], by simp, _, List.mem_singleton_self _, rfl, rfl, rfl⟩, ?_⟩
      refine (hone (entry.rowIdx, .newInsert txId row)).trans ?_
      rw [List.length_append, List.length_singleton]
      omega
  | update row =>
      rw [hoperation] at hlands
      have hrow : entry.rowIdx < table.versionChains.length := hlands.trans_le hlength
      dsimp only [Table.replayUpdate]
      rw [if_pos hrow]
      dsimp only
      rw [← placeVersion_of_lt hrow]
      obtain ⟨chain, hchain, hversion⟩ := placed_at txId hrow (.newUpdate txId row)
      refine ⟨⟨chain, hchain, _, hversion, rfl, rfl, rfl⟩, ?_⟩
      rw [placeVersion_of_lt hrow, List.length_modify]
      exact (hin (entry.rowIdx, .newUpdate txId row) hlands).le.trans hlength
  | delete =>
      rw [hoperation] at hlands
      obtain ⟨copy, hsnapshot, hrowCopy⟩ := hlands
      have hrowChains : entry.rowIdx < chains.length := hrowCopy.trans_le (hcopy copy hsnapshot)
      have hrow : entry.rowIdx < table.versionChains.length := hrowChains.trans_le hlength
      obtain ⟨prior, latest, hlast, -⟩ := hopen _ (List.getElem_mem hrow)
      have hlatest : table.versionChains[entry.rowIdx].getLast? = some latest := by
        rw [hlast]
        exact List.getLast?_concat
      have hreplayed : table.replayDelete entry.rowIdx txId =
          { table with versionChains :=
              placeVersion txId table.versionChains (entry.rowIdx, .newDelete txId latest.row) } := by
        rw [Table.replayDelete, List.getElem?_eq_getElem hrow]
        dsimp only
        rw [hlatest, placeVersion_of_lt hrow]
      dsimp only
      rw [hreplayed]
      obtain ⟨chain, hchain, hversion⟩ := placed_at txId hrow (.newDelete txId latest.row)
      refine ⟨⟨chain, hchain, _, hversion, rfl, rfl⟩, ?_⟩
      dsimp only
      rw [placeVersion_of_lt hrow, List.length_modify]
      refine le_trans (le_of_eq ?_) hlength
      split
      · rfl
      · split
        · rfl
        · rename_i chain _
          cases chain.getLast? with
          | none => rfl
          | some latest => exact hin (entry.rowIdx, .newDelete txId latest.row) hrowChains

/-- Replay of entries that land, on a table with at least as many rows. -/
theorem foldl_replay_lands {entries : List WriteEntry}
    (hlands : EntriesLand table.columns txId snapshot chains entries)
    (hlength : chains.length ≤ table.versionChains.length)
    (hcopy : ∀ entry ∈ entries, ∀ copy, snapshot entry.tableName = some copy →
      copy.versionChains.length ≤ chains.length)
    (hopen : ∀ chain ∈ table.versionChains, LastOpen chain) :
    (∀ entry ∈ entries, EntryPresent txId
        (entries.foldl (fun table entry => entry.replay txId table) table).versionChains entry) ∧
      (placeAll txId chains (entries.filterMap (entryVersion txId snapshot))).length ≤
        (entries.foldl (fun table entry => entry.replay txId table) table).versionChains.length := by
  induction entries generalizing chains table with
  | nil => exact ⟨List.forall_mem_nil _, hlength⟩
  | cons entry rest ih =>
      obtain ⟨hhead, hrest⟩ := hlands
      obtain ⟨hpresent, hstep⟩ := @replay_lands txId snapshot chains table entry hhead hlength
        (hcopy entry List.mem_cons_self) hopen
      have hnext := lastOpen_replay hopen entry txId
      obtain ⟨hall, hlast⟩ := @ih (placeEntry txId snapshot chains entry) (entry.replay txId table)
        (by rw [replay_columns]; exact hrest) hstep
        (fun other hother copy hsnapshot =>
          (hcopy other (List.mem_cons_of_mem _ hother) copy hsnapshot).trans (length_le_placeEntry _ _ _ _))
        hnext
      rw [placeAll_filterMap_cons]
      refine ⟨List.forall_mem_cons.mpr ⟨?_, hall⟩, hlast⟩
      exact hpresent.mono (chainsKept_foldl_replay rest hnext)

end Logged

/-- The same tables, each with the versions it had. -/
structure Grows (before after : List Table) : Prop where
  schema : after.map Table.schema = before.map Table.schema
  kept : ∀ name old, findTable name before = some old → ∃ new, findTable name after = some new ∧
    ChainsKept old.versionChains new.versionChains

namespace Grows

variable {before after : List Table}

theorem refl (tables : List Table) : Grows tables tables :=
  ⟨rfl, fun _ old hold => ⟨old, hold, .refl _⟩⟩

/-- Tables of one schema have the same columns under a name. -/
theorem columns_eq (h : after.map Table.schema = before.map Table.schema) {name : String} {old new : Table}
    (hold : findTable name before = some old) (hnew : findTable name after = some new) :
    new.columns = old.columns := by
  have hschema := findTable_schema h name
  rw [hold, hnew] at hschema
  exact (Prod.mk.inj (Option.some.inj hschema)).2

/-- A table there is now was there before. -/
theorem exists_old (h : after.map Table.schema = before.map Table.schema) {name : String} {new : Table}
    (hnew : findTable name after = some new) : ∃ old, findTable name before = some old := by
  have hschema := findTable_schema h name
  rw [hnew] at hschema
  obtain ⟨old, hold, -⟩ := Option.map_eq_some_iff.mp hschema.symm
  exact ⟨old, hold⟩

/-- Replay of a transaction grows the tables. -/
theorem replay {tables : List Table} (hopen : AllChains LastOpen tables) (tx : Transaction) :
    Grows tables (replayRecords tables tx.walRecords) := by
  refine ⟨schema_replay_walRecords tables tx, fun name old hold => ?_⟩
  rw [findTable_replay_walRecords, hold]
  exact ⟨_, rfl, chainsKept_foldl_replay _ (hopen old (KeyedList.mem_of_lookup hold).1)⟩

end Grows

/-- Every entry on a table there is has its version there. -/
def Present (tables : List Table) (tx : Transaction) : Prop :=
  ∀ entry ∈ tx.writeSet, ∀ table, findTable entry.tableName tables = some table →
    EntryPresent tx.txId table.versionChains entry

theorem Present.mono {before after : List Table} {tx : Transaction} (h : Present before tx)
    (hgrows : Grows before after) : Present after tx := by
  intro entry hentry new hnew
  obtain ⟨old, hold⟩ := Grows.exists_old hgrows.schema hnew
  obtain ⟨found, hfound, hkept⟩ := hgrows.kept entry.tableName old hold
  obtain rfl := Option.some.inj (hfound.symm.trans hnew)
  exact (h entry hentry old hold).mono hkept

theorem Present.of_image {left right : List Table} (himage : left.map Table.image = right.map Table.image)
    {tx : Transaction} (h : Present left tx) : Present right tx := by
  intro entry hentry table htable
  obtain ⟨other, hother, hchains⟩ := findTable_chains himage htable
  exact hchains ▸ h entry hentry other hother

/-! ### Runs -/

namespace CommitThread

/-- The records are in the log and the install is still to come. -/
def InFlight (thread : CommitThread) : Prop :=
  ∃ copy, thread.phase = .logged copy ∨ thread.phase = .stored copy

/-- The tables of the copy are the tables there are, with at least as many rows now. -/
structure CopyOk (engine : DatabaseEngine) (copy : List Table) : Prop where
  columns : ∀ name, (snapshotTables copy name).map Table.columns =
    (findTable name engine.tables).map Table.columns
  lengths : ∀ name old live, snapshotTables copy name = some old → findTable name engine.tables = some live →
    old.versionChains.length ≤ live.versionChains.length

/-- The log rebuilds the writes, and as many rows as the install will leave. -/
structure InLog (engine : DatabaseEngine) (copy : List Table) (tx : Transaction) : Prop where
  lands : WritesLand (snapshotTables copy) tx
  present : Present engine.recovered tx
  room : ∀ name old logged, snapshotTables copy name = some old → findTable name engine.recovered = some logged →
    (placeAll tx.txId old.versionChains (tableChanges tx (snapshotTables copy) name)).length ≤
      logged.versionChains.length

/-- What a phase says of the log and the memory. -/
def Safe (engine : DatabaseEngine) (thread : CommitThread) : Prop :=
  match thread.phase with
  | .cloned copy | .conflictFree copy | .uniqueChecked copy => CopyOk engine copy
  | .logged copy | .stored copy => CopyOk engine copy ∧ InLog engine copy thread.tx
  | .done (.ok ()) => Present engine.tables thread.tx ∧ Present engine.recovered thread.tx
  | .ready | .done (.error _) => True

variable {engine after : DatabaseEngine} {thread : CommitThread}

theorem CopyOk.mono {copy : List Table} (h : CopyOk engine copy) (htables : Grows engine.tables after.tables) :
    CopyOk after copy := by
  refine ⟨fun name => ?_, fun name old new hold hnew => ?_⟩
  · have hschema := congrArg (Option.map Prod.snd) (findTable_schema htables.schema name)
    rw [Option.map_map, Option.map_map] at hschema
    exact (h.columns name).trans hschema.symm
  · obtain ⟨live, hlive⟩ := Grows.exists_old htables.schema hnew
    obtain ⟨found, hfound, hkept⟩ := htables.kept name live hlive
    obtain rfl := Option.some.inj (hfound.symm.trans hnew)
    exact (h.lengths name old live hold hlive).trans hkept.length_le

theorem InLog.mono {copy : List Table} {tx : Transaction} (h : InLog engine copy tx)
    (hlog : Grows engine.recovered after.recovered) : InLog after copy tx := by
  refine ⟨h.lands, h.present.mono hlog, fun name old logged hold hlogged => ?_⟩
  obtain ⟨before, hbefore⟩ := Grows.exists_old hlog.schema hlogged
  obtain ⟨found, hfound, hkept⟩ := hlog.kept name before hbefore
  obtain rfl := Option.some.inj (hfound.symm.trans hlogged)
  exact (h.room name old before hold hbefore).trans hkept.length_le

theorem Safe.mono (h : Safe engine thread) (htables : Grows engine.tables after.tables)
    (hlog : Grows engine.recovered after.recovered) : Safe after thread := by
  unfold Safe at h ⊢
  cases hphase : thread.phase with
  | ready => trivial
  | cloned copy | conflictFree copy | uniqueChecked copy =>
      rw [hphase] at h
      exact CopyOk.mono h htables
  | logged copy | stored copy =>
      rw [hphase] at h
      exact ⟨h.1.mono htables, h.2.mono hlog⟩
  | done result =>
      rw [hphase] at h
      cases result with
      | error err => trivial
      | ok u => exact ⟨h.1.mono htables, h.2.mono hlog⟩

end CommitThread

namespace Machine

variable {start : DatabaseEngine} {machine : Machine}

/-- A commit that logs has a write set that lands on its copy; a commit that installs meets the install guard;
and a checkpoint is appended while its copy is what is in memory and no commit is in flight. -/
def RaceGuard (machine : Machine) : MachineOp → Prop
  | .advance position => InstallGuard machine (.advance position) ∧
      ∀ thread copy, machine.threads[position]? = some thread → thread.phase = .uniqueChecked copy →
        WritesLand (snapshotTables copy) thread.tx
  | .checkpointAppend position => ∀ copy, machine.copies[position]? = some copy →
      copy.map Table.image = machine.engine.tables.map Table.image ∧
        ∀ thread ∈ machine.threads, ¬ thread.InFlight
  | _ => True

/-- What steps under the guard keep. -/
structure Recoverable (start : DatabaseEngine) (machine : Machine) : Prop where
  linear : Linearized start machine
  schema : machine.engine.recovered.map Table.schema = machine.engine.tables.map Table.schema
  logged : AllChains LastOpen machine.engine.recovered
  lengths : ∀ name live logged, findTable name machine.engine.tables = some live →
    findTable name machine.engine.recovered = some logged →
      live.versionChains.length ≤ logged.versionChains.length
  threads : ∀ thread ∈ machine.threads, CommitThread.Safe machine.engine thread

/-- The tables in memory are those of a sturdy engine. -/
theorem Recoverable.serial (h : Recoverable start machine) (hstart : start.Sturdy) :
    ∃ serial : DatabaseEngine, serial.Sturdy ∧ serial.tables = machine.engine.tables := by
  obtain ⟨order, hserial⟩ := h.linear.serial
  exact ⟨_, hstart.commits order, hserial.tables⟩

/-- Steps that only grow memory and log. -/
theorem Recoverable.grow (h : Recoverable start machine) {next : Machine} (hlinear : Linearized start next)
    (htables : Grows machine.engine.tables next.engine.tables)
    (hlog : Grows machine.engine.recovered next.engine.recovered)
    (hlogged : AllChains LastOpen next.engine.recovered)
    (hlengths : ∀ name live logged, findTable name next.engine.tables = some live →
      findTable name next.engine.recovered = some logged →
        live.versionChains.length ≤ logged.versionChains.length)
    (hthreads : ∀ thread ∈ next.threads, thread ∈ machine.threads ∨ CommitThread.Safe next.engine thread) :
    Recoverable start next where
  linear := hlinear
  schema := hlog.schema.trans (h.schema.trans htables.schema.symm)
  logged := hlogged
  lengths := hlengths
  threads := fun thread hthread => (hthreads thread hthread).elim
    (fun hold => (h.threads thread hold).mono htables hlog) id

/-- Steps that leave tables and log alone. -/
theorem Recoverable.quiet (h : Recoverable start machine) {next : Machine} (hlinear : Linearized start next)
    (htables : next.engine.tables = machine.engine.tables)
    (hrecovered : next.engine.recovered = machine.engine.recovered)
    (hthreads : ∀ thread ∈ next.threads, thread ∈ machine.threads ∨ CommitThread.Safe machine.engine thread) :
    Recoverable start next := by
  have hgrows : Grows machine.engine.tables next.engine.tables := htables ▸ .refl _
  have hlog : Grows machine.engine.recovered next.engine.recovered := hrecovered ▸ .refl _
  refine h.grow hlinear hgrows hlog (hrecovered ▸ h.logged) ?_ fun thread hthread => ?_
  · rw [htables, hrecovered]
    exact h.lengths
  · exact (hthreads thread hthread).imp_right fun hsafe => hsafe.mono hgrows hlog

/-- After the log append of a write set that lands, the log rebuilds it. -/
theorem Recoverable.inLog (h : Recoverable start machine) {copy : List Table} {tx : Transaction}
    (hcopy : CommitThread.CopyOk machine.engine copy) (hlands : WritesLand (snapshotTables copy) tx) :
    CommitThread.InLog (machine.engine.logWrites tx) copy tx := by
  have hrecovered : (machine.engine.logWrites tx).recovered =
      replayRecords machine.engine.recovered tx.walRecords := DatabaseEngine.replayWal_append _ _ _
  have htable : ∀ name old logged, snapshotTables copy name = some old →
      findTable name machine.engine.recovered = some logged →
        (∀ entry ∈ tx.entriesOf name, EntryPresent tx.txId ((tx.entriesOf name).foldl
            (fun table entry => entry.replay tx.txId table) logged).versionChains entry) ∧
          (placeAll tx.txId old.versionChains (tableChanges tx (snapshotTables copy) name)).length ≤
            ((tx.entriesOf name).foldl (fun table entry => entry.replay tx.txId table) logged).versionChains.length := by
    intro name old logged hold hlogged
    obtain ⟨live, hlive⟩ := Grows.exists_old h.schema hlogged
    have hcolumns : logged.columns = old.columns := by
      have hsame := hcopy.columns name
      rw [hold, hlive] at hsame
      exact (Grows.columns_eq h.schema hlive hlogged).trans (Option.some.inj hsame).symm
    have hlength := (hcopy.lengths name old live hold hlive).trans (h.lengths name live logged hlive hlogged)
    refine foldl_replay_lands (hcolumns ▸ hlands name old hold) hlength (fun entry hentry other hother => ?_)
      (h.logged logged (KeyedList.mem_of_lookup hlogged).1)
    rw [(Transaction.mem_entriesOf.mp hentry).2, hold] at hother
    exact (Option.some.inj hother) ▸ le_rfl
  have hcopied : ∀ name logged, findTable name machine.engine.recovered = some logged →
      ∃ old, snapshotTables copy name = some old := by
    intro name logged hlogged
    obtain ⟨live, hlive⟩ := Grows.exists_old h.schema hlogged
    have hsame := hcopy.columns name
    rw [hlive] at hsame
    obtain ⟨old, hold, -⟩ := Option.map_eq_some_iff.mp hsame
    exact ⟨old, hold⟩
  refine ⟨hlands, fun entry hentry table hfound => ?_, fun name old table hold hfound => ?_⟩
  · rw [hrecovered, findTable_replay_walRecords] at hfound
    obtain ⟨logged, hlogged, rfl⟩ := Option.map_eq_some_iff.mp hfound
    obtain ⟨old, hold⟩ := hcopied _ logged hlogged
    exact (htable _ old logged hold hlogged).1 entry (Transaction.mem_entriesOf.mpr ⟨hentry, rfl⟩)
  · rw [hrecovered, findTable_replay_walRecords] at hfound
    obtain ⟨logged, hlogged, rfl⟩ := Option.map_eq_some_iff.mp hfound
    exact (htable name old logged hold hlogged).2

theorem Recoverable.log (h : Recoverable start machine) {next : Machine} (hlinear : Linearized start next)
    {copy : List Table} {thread : CommitThread} (hmem : thread ∈ machine.threads)
    (hphase : thread.phase = .uniqueChecked copy) (hlands : WritesLand (snapshotTables copy) thread.tx)
    (hengine : next.engine = machine.engine.logWrites thread.tx)
    (hthreads : ∀ other ∈ next.threads, other ∈ machine.threads ∨ other = { thread with phase := .logged copy }) :
    Recoverable start next := by
  have hcopy : CommitThread.CopyOk machine.engine copy := by
    have hsafe := h.threads thread hmem
    unfold CommitThread.Safe at hsafe
    rwa [hphase] at hsafe
  have hrecovered : next.engine.recovered = replayRecords machine.engine.recovered thread.tx.walRecords := by
    rw [hengine]
    exact DatabaseEngine.replayWal_append _ _ _
  have htables : next.engine.tables = machine.engine.tables := by rw [hengine]; rfl
  have hlog : Grows machine.engine.recovered next.engine.recovered := hrecovered ▸ .replay h.logged thread.tx
  have hgrows : Grows machine.engine.tables next.engine.tables := htables ▸ .refl _
  refine h.grow hlinear hgrows hlog ?_ (fun name live logged hlive hlogged => ?_) fun other hother => ?_
  · rw [hrecovered]
    exact (lastOpen_rule thread.tx.txId).replay_walRecords h.logged
  · rw [htables] at hlive
    obtain ⟨before, hbefore⟩ := Grows.exists_old hlog.schema hlogged
    obtain ⟨found, hfound, hkept⟩ := hlog.kept name before hbefore
    obtain rfl := Option.some.inj (hfound.symm.trans hlogged)
    exact (h.lengths name live before hlive hbefore).trans hkept.length_le
  · rcases hthreads other hother with hold | rfl
    · exact Or.inl hold
    · exact Or.inr ⟨hcopy.mono hgrows, hengine ▸ h.inLog hcopy hlands⟩

/-- What an install under the guard leaves under a name: the old chains with the versions of the write set
on them, computed from the copy or from memory alike. -/
theorem installed_chains {serial : DatabaseEngine} (hserial : serial.Sturdy) {thread : CommitThread}
    {copy : List Table} {installed : List Table}
    (hcopy : ∀ name ∈ thread.tx.tableNames, snapshotTables copy name = snapshotTables serial.tables name)
    (hok : (serial.commit thread.orders thread.tx).1 = .ok ())
    (hinstalled : (serial.commit thread.orders thread.tx).2.2.tables = installed) {name : String} {new : Table}
    (hnew : findTable name installed = some new) :
    (name ∉ thread.tx.tableNames ∧ ∃ live, findTable name serial.tables = some live ∧
        new.versionChains = live.versionChains) ∨
      (name ∈ thread.tx.tableNames ∧ ∃ live, findTable name serial.tables = some live ∧
        snapshotTables copy name = some live ∧ new.versionChains = placeAll thread.tx.txId live.versionChains
          (tableChanges thread.tx (snapshotTables copy) name)) := by
  have hchains := DatabaseEngine.chainsOf_commit_of_ok hserial.wellFormed hok name
  rw [DatabaseEngine.chainsOf, hinstalled, hnew] at hchains
  by_cases hname : name ∈ thread.tx.tableNames
  · rw [DatabaseEngine.placedChains, ← tableChanges_congr (hcopy name hname)] at hchains
    obtain ⟨old, hold, hplaced⟩ := Option.map_eq_some_iff.mp hchains.symm
    obtain ⟨live, hlive, rfl⟩ := Option.map_eq_some_iff.mp hold
    refine Or.inr ⟨hname, live, hlive, ?_, hplaced.symm⟩
    rw [hcopy name hname, hserial.wellFormed.snapshotTables_eq, hlive]
  · rw [DatabaseEngine.placedChains_of_not_mem hname] at hchains
    obtain ⟨live, hlive, hsame⟩ := Option.map_eq_some_iff.mp hchains.symm
    exact Or.inl ⟨hname, live, hlive, hsame.symm⟩

theorem Recoverable.install (h : Recoverable start machine) (hstart : start.Sturdy) {next : Machine}
    (hlinear : Linearized start next) {copy : List Table} {thread : CommitThread}
    (hmem : thread ∈ machine.threads) (hphase : thread.phase = .stored copy)
    (hcopy : ∀ name ∈ thread.tx.tableNames, snapshotTables copy name = snapshotTables machine.engine.tables name)
    (hsafe : machine.engine.CommitSafe thread.tx)
    (htables : next.engine.tables =
      (installWrites thread.orders.memory thread.tx (snapshotTables copy) machine.engine.tables).2)
    (hrecovered : next.engine.recovered = machine.engine.recovered)
    (hthreads : ∀ other ∈ next.threads, other ∈ machine.threads ∨ other = thread.committed) :
    Recoverable start next := by
  have hchecked : thread.tx.status = .inProgress ∧ ChecksAccept thread.tx (snapshotTables copy) := by
    have hphaseOk := h.linear.phases thread hmem
    unfold CommitThread.PhaseOk at hphaseOk
    rwa [hphase] at hphaseOk
  obtain ⟨hcopyOk, hlog⟩ : CommitThread.CopyOk machine.engine copy ∧
      CommitThread.InLog machine.engine copy thread.tx := by
    have hthreadSafe := h.threads thread hmem
    unfold CommitThread.Safe at hthreadSafe
    rwa [hphase] at hthreadSafe
  obtain ⟨order, hserialized⟩ := h.linear.serial
  obtain ⟨hok, -, hinstalled⟩ := hserialized.install hstart hchecked.1 hchecked.2 hcopy hsafe
  have hserial := hstart.commits order
  have hsame := hserialized.tables
  generalize order.foldl DatabaseEngine.commitThread start = serial at hok hinstalled hserial hsame
  rw [← htables] at hinstalled
  have hchains := fun name new => @installed_chains serial hserial thread copy next.engine.tables
    (hsame ▸ hcopy) hok hinstalled name new
  rw [hsame] at hchains
  have hgrows : Grows machine.engine.tables next.engine.tables := by
    refine ⟨?_, fun name old hold => ?_⟩
    · rw [← hinstalled, ← hsame]
      exact (DatabaseEngine.commit_frame serial thread.orders thread.tx).1
    · have hold' : serial.chainsOf name = some old.versionChains := by
        rw [DatabaseEngine.chainsOf, hsame, hold]
        rfl
      obtain ⟨later, hlater, hkept⟩ := hserial.chainsKept_commit thread.orders thread.tx hold'
      rw [DatabaseEngine.chainsOf, hinstalled] at hlater
      obtain ⟨new, hnew, rfl⟩ := Option.map_eq_some_iff.mp hlater
      exact ⟨new, hnew, hkept⟩
  refine h.grow hlinear hgrows (hrecovered ▸ .refl _) (hrecovered ▸ h.logged)
    (fun name new logged hnew hlogged => ?_) fun other hother => ?_
  · rw [hrecovered] at hlogged
    rcases hchains name new hnew with ⟨-, live, hlive, hunchanged⟩ | ⟨-, live, hlive, hold, hplaced⟩
    · rw [hunchanged]
      exact h.lengths name live logged hlive hlogged
    · rw [hplaced]
      exact hlog.room name live logged hold hlogged
  · rcases hthreads other hother with hold | rfl
    · exact Or.inl hold
    · refine Or.inr ⟨fun entry hentry new hnew => ?_, hrecovered ▸ hlog.present⟩
      have hname : entry.tableName ∈ thread.tx.tableNames := Transaction.mem_tableNames.mpr ⟨entry, hentry, rfl⟩
      rcases hchains entry.tableName new hnew with ⟨hnot, -⟩ | ⟨-, live, hlive, hold, hplaced⟩
      · exact absurd hname hnot
      · rw [hplaced]
        have hopen := hserial.live live (hsame ▸ (KeyedList.mem_of_lookup hlive).1)
        refine present_placeAll (hlog.lands _ live hold) hopen (fun other hother found hfound => ?_) entry
          (Transaction.mem_entriesOf.mpr ⟨hentry, rfl⟩)
        rw [(Transaction.mem_entriesOf.mp hother).2, hold] at hfound
        obtain rfl := Option.some.inj hfound
        exact ⟨le_rfl, hopen⟩

theorem Recoverable.advance (h : Recoverable start machine) (hstart : start.Sturdy) {position : Nat}
    {thread : CommitThread} (hthread : machine.threads[position]? = some thread)
    (hguard : RaceGuard machine (.advance position)) {next : CommitThread} {after : DatabaseEngine}
    (hadvance : CommitThread.Advance thread machine.engine next after) :
    Recoverable start { machine with engine := after, threads := machine.threads.set position next } := by
  have hlinear := h.linear.advance hstart hthread hguard.1 hadvance
  have hmem := List.mem_of_getElem? hthread
  have hthreads : ∀ other ∈ machine.threads.set position next, other ∈ machine.threads ∨ other = next :=
    fun other hother => List.mem_or_eq_of_mem_set hother
  have hsafe := h.threads thread hmem
  unfold CommitThread.Safe at hsafe
  cases hadvance with
  | refuse tx err mvcc hnot | storeFail err catalog hnot hrouting =>
      refine h.quiet hlinear rfl rfl fun other hother => (hthreads other hother).imp_right ?_
      rintro rfl
      trivial
  | clone hphase hrunning =>
      refine h.quiet hlinear rfl rfl fun other hother => (hthreads other hother).imp_right ?_
      rintro rfl
      obtain ⟨serial, hserial, hsame⟩ := h.serial hstart
      have hlookup : ∀ name, snapshotTables machine.engine.tables name = findTable name machine.engine.tables := by
        intro name
        rw [← hsame]
        exact hserial.wellFormed.snapshotTables_eq name
      refine ⟨fun name => by rw [hlookup], fun name old live hold hlive => ?_⟩
      rw [hlookup, hlive] at hold
      exact (Option.some.inj hold) ▸ le_rfl
  | conflictFree copy hphase hcheck | uniqueChecked copy hphase hcheck | store copy catalog hphase hrouting =>
      rw [hphase] at hsafe
      refine h.quiet hlinear rfl rfl fun other hother => (hthreads other hother).imp_right ?_
      rintro rfl
      exact hsafe
  | log copy hphase => exact h.log hlinear hmem hphase (hguard.2 thread copy hthread hphase) rfl hthreads
  | install copy hphase hok =>
      obtain ⟨hcopy, hcommitSafe⟩ := hguard.1 thread copy hthread hphase
      exact h.install hstart hlinear hmem hphase hcopy hcommitSafe rfl rfl hthreads
  | installFail copy err hphase hfail =>
      obtain ⟨hcopy, hcommitSafe⟩ := hguard.1 thread copy hthread hphase
      have hchecked := h.linear.phases thread hmem
      unfold CommitThread.PhaseOk at hchecked
      rw [hphase] at hchecked
      obtain ⟨order, hserialized⟩ := h.linear.serial
      obtain ⟨-, hok, -⟩ := hserialized.install hstart hchecked.1 hchecked.2 hcopy hcommitSafe
      rw [hok] at hfail
      cases hfail
  | idle result hphase =>
      refine h.quiet hlinear rfl rfl fun other hother => (hthreads other hother).imp_right fun heq => ?_
      exact heq ▸ h.threads thread hmem

/-- An append of what is in memory, with no commit in flight: the log rebuilds the memory. -/
theorem Recoverable.checkpoint (h : Recoverable start machine) (hstart : start.Sturdy) {next : Machine}
    (hlinear : Linearized start next) {copy : List Table}
    (himage : copy.map Table.image = machine.engine.tables.map Table.image)
    (hidle : ∀ thread ∈ machine.threads, ¬ thread.InFlight) (hthreads : next.threads = machine.threads)
    (hengine : next.engine = { machine.engine with
      wal := machine.engine.wal ++ [DatabaseEngine.checkpointRecord copy] }) : Recoverable start next := by
  have htables : next.engine.tables = machine.engine.tables := by rw [hengine]
  have hrecovered : next.engine.recovered.map Table.image = next.engine.tables.map Table.image := by
    rw [htables, ← himage, hengine, DatabaseEngine.recovered, DatabaseEngine.replayWal, ← List.append_assoc]
    exact DatabaseEngine.WellFormed.recovered_checkpoint _ copy
  obtain ⟨serial, hserial, hsame⟩ := h.serial hstart
  refine ⟨hlinear, DatabaseEngine.WellFormed.map_schema_of_image hrecovered, ?_, fun name live logged hlive hlogged => ?_, fun thread hthread => ?_⟩
  · exact AllChains.of_image (htables ▸ hsame ▸ hserial.live) hrecovered
  · obtain ⟨found, hfound, hchains⟩ := findTable_chains hrecovered hlive
    obtain rfl := Option.some.inj (hfound.symm.trans hlogged)
    exact hchains ▸ le_rfl
  · rw [hthreads] at hthread
    have hsafe := h.threads thread hthread
    have hquiet := hidle thread hthread
    have hcopies : ∀ copy, CommitThread.CopyOk machine.engine copy → CommitThread.CopyOk next.engine copy :=
      fun copy hcopy => hcopy.mono (htables ▸ .refl _)
    unfold CommitThread.Safe at hsafe ⊢
    cases hphase : thread.phase with
    | ready => trivial
    | cloned copy | conflictFree copy | uniqueChecked copy =>
        rw [hphase] at hsafe
        exact hcopies copy hsafe
    | logged copy => exact absurd ⟨copy, Or.inl hphase⟩ hquiet
    | stored copy => exact absurd ⟨copy, Or.inr hphase⟩ hquiet
    | done result =>
        rw [hphase] at hsafe
        cases result with
        | error err => trivial
        | ok u =>
            have hpresent : Present next.engine.tables thread.tx := htables ▸ hsafe.1
            exact ⟨hpresent, hpresent.of_image hrecovered.symm⟩

theorem Recoverable.step (h : Recoverable start machine) (hstart : start.Sturdy) {op : MachineOp}
    (hguard : RaceGuard machine op) : Recoverable start (machine.step op) := by
  have hinstall : InstallGuard machine op := by
    cases op with
    | advance position => exact hguard.1
    | begin | checkpointCopy | checkpointAppend => trivial
  have hlinear := h.linear.step hstart hinstall
  rcases step_cases machine op with ⟨entries, orders, -, hstep⟩ | ⟨position, thread, rfl, hthread, hstep⟩ |
    ⟨-, hstep⟩ | ⟨position, copy, rfl, hcopy, hstep⟩ | hstep
  · rw [hstep] at hlinear ⊢
    refine h.quiet hlinear rfl rfl fun thread hthread => (List.mem_append.mp hthread).imp_right fun hnew => ?_
    rw [List.mem_singleton.mp hnew]
    trivial
  · rw [hstep]
    exact h.advance hstart hthread hguard (CommitThread.advance_spec thread machine.engine)
  · rw [hstep] at hlinear ⊢
    exact h.quiet hlinear rfl rfl fun _ hthread => Or.inl hthread
  · rw [hstep] at hlinear ⊢
    obtain ⟨himage, hidle⟩ := hguard copy hcopy
    exact h.checkpoint hstart hlinear himage hidle rfl rfl
  · rw [hstep]
    exact h

/-- In every state that steps under the guard reach, the log rebuilds every transaction whose commit returned
Ok: each of its versions is in the table of its name. -/
theorem committed_recovered (hstart : start.SerialReachable DatabaseEngine.ReplayGuard)
    (hrun : Reaches step RaceGuard (idle start) machine) {thread : CommitThread}
    (hthread : thread ∈ machine.threads) (hok : thread.isOk = true) {entry : WriteEntry}
    (hentry : entry ∈ thread.tx.writeSet) {live : Table}
    (hlive : findTable entry.tableName machine.engine.tables = some live) :
    ∃ logged, findTable entry.tableName machine.engine.recovered = some logged ∧
      EntryPresent thread.tx.txId logged.versionChains entry := by
  have hsturdy := sturdy_of_reachable hstart
  obtain ⟨hwf, hmirrored⟩ := hstart.mirrored
  have hidle : Recoverable start (idle start) := by
    refine ⟨⟨by simp [idle], [], ⟨.refl _, trivial, rfl, .refl _⟩⟩, hwf.schema, hsturdy.logged, ?_, by simp [idle]⟩
    intro name live logged hlive hlogged
    obtain ⟨found, hfound, hchains⟩ := findTable_chains hmirrored hlive
    obtain rfl := Option.some.inj (hfound.symm.trans hlogged)
    exact hchains ▸ le_rfl
  have hlast := hrun.invariant (fun _ _ h hguard => Recoverable.step h hsturdy hguard) hidle
  have hpresent : Present machine.engine.recovered thread.tx := by
    have hsafe := hlast.threads thread hthread
    unfold CommitThread.Safe at hsafe
    unfold CommitThread.isOk at hok
    split at hok
    · rename_i hphase
      rw [hphase] at hsafe
      exact hsafe.2
    · cases hok
  have hschema := findTable_schema hlast.schema entry.tableName
  rw [hlive] at hschema
  obtain ⟨logged, hlogged, -⟩ := Option.map_eq_some_iff.mp hschema
  exact ⟨logged, hlogged, hpresent entry hentry logged hlogged⟩

private theorem raceGuard_of_phase {machine : Machine} {position : Nat}
    (h : ∀ thread, machine.threads[position]? = some thread →
      ∀ copy, thread.phase ≠ .stored copy ∧ thread.phase ≠ .uniqueChecked copy) :
    RaceGuard machine (.advance position) :=
  ⟨fun thread copy hthread hphase => absurd hphase (h thread hthread copy).1,
    fun thread copy hthread hphase => absurd hphase (h thread hthread copy).2⟩

/-- A commit, and behind it a checkpoint. -/
theorem committed_recovered_behind :
    ∃ logged, findTable "t" ((commitAlone ++ [MachineOp.checkpointCopy, MachineOp.checkpointAppend 0]).foldl step
        (idle emptyTable)).engine.recovered = some logged ∧
      EntryPresent 1 logged.versionChains
        { tableName := "t", rowIdx := 0, oldTxidMax := u64Max, operation := .insert { values := [.integer 1] } } := by
  have hstart : emptyTable.SerialReachable DatabaseEngine.ReplayGuard :=
    ⟨"disk", .of_meets (show Meets _ _ _ [_] from ⟨by rintro begun tx ⟨⟩, trivial⟩)⟩
  have hrun : Meets step RaceGuard (idle emptyTable)
      (commitAlone ++ [MachineOp.checkpointCopy, MachineOp.checkpointAppend 0]) := by
    refine ⟨trivial, ?_, ?_, ?_, ⟨?_, ?_⟩, ?_, ⟨?_, ?_⟩, trivial, ?_, trivial⟩
    · exact raceGuard_of_phase (by rintro thread ⟨⟩ copy; exact ⟨by rintro ⟨⟩, by rintro ⟨⟩⟩)
    · exact raceGuard_of_phase (by rintro thread ⟨⟩ copy; exact ⟨by rintro ⟨⟩, by rintro ⟨⟩⟩)
    · exact raceGuard_of_phase (by rintro thread ⟨⟩ copy; exact ⟨by rintro ⟨⟩, by rintro ⟨⟩⟩)
    · rintro thread copy ⟨⟩ ⟨⟩
    · rintro thread copy ⟨⟩ ⟨⟩
      intro name table htable
      obtain ⟨hmem, rfl⟩ := KeyedList.mem_of_lookup htable
      obtain rfl := List.mem_singleton.mp hmem
      exact ⟨show RowFits [ColumnMeta.new "a" .integer] { values := [.integer 1] } from by decide, trivial⟩
    · exact raceGuard_of_phase (by rintro thread ⟨⟩ copy; exact ⟨by rintro ⟨⟩, by rintro ⟨⟩⟩)
    · rintro thread copy ⟨⟩ ⟨⟩
      refine ⟨fun name _ => rfl, by decide, fun name hname table htable index hindex => ?_⟩
      obtain rfl := List.mem_singleton.mp (show name ∈ ["t"] from hname)
      cases htable
      cases hindex
    · rintro thread copy ⟨⟩ ⟨⟩
    · rintro copy ⟨⟩
      refine ⟨rfl, fun thread hthread => ?_⟩
      obtain rfl := List.mem_singleton.mp hthread
      rintro ⟨copy, hphase | hphase⟩
      · cases hphase
      · cases hphase
  exact committed_recovered hstart (.of_meets hrun) (List.mem_singleton.mpr rfl) rfl (List.mem_singleton.mpr rfl) rfl

/-- A copy taken before a commit and appended behind it: the commit returned Ok, and the log has lost it. -/
theorem not_committed_recovered_between :
    emptyTable.SerialReachable (fun _ _ => True) ∧
      ((MachineOp.checkpointCopy :: commitAlone ++ [MachineOp.checkpointAppend 0]).foldl step
        (idle emptyTable)).threads.map CommitThread.isOk = [true] ∧
      ((MachineOp.checkpointCopy :: commitAlone ++ [MachineOp.checkpointAppend 0]).foldl step
        (idle emptyTable)).engine.chainsOf "t" = some [[.newInsert 1 { values := [.integer 1] }]] ∧
      ((MachineOp.checkpointCopy :: commitAlone ++ [MachineOp.checkpointAppend 0]).foldl step
        (idle emptyTable)).engine.recovered.map Table.versionChains = [[]] :=
  ⟨emptyTable_reachable, rfl, rfl, rfl⟩

end Machine

end HelionDb
