import HelionDb.CrashAtomicity
import HelionDb.StoppedFlushes

/-! Directories of the format before bases and deltas, in which one file has the whole table. Opening migrates them: the
loader writes the schema, gives the file another name, and serves the table from memory without a base. So until a flush
has written one, the next loader finds a schema and none of the rows of that file. -/

namespace HelionDb

/-- The directory of a table, with `table.bin` and `table.bin.migrated`. -/
structure TableFiles where
  dir : TableDir
  old : Option Table
  migrated : Option Table

/-- A file operation of `migrate_from_old_format`. -/
inductive MigrationOp where
  | writeMeta (schema : String × List ColumnMeta)
  | renameOld

namespace TableFiles

/-- A directory that is not there, or has no files. -/
def empty : TableFiles := { dir := .empty, old := none, migrated := none }

/-- What `load_existing_tables` takes from a directory. -/
def load (files : TableFiles) : Option Table :=
  if files.dir.schema.isSome then files.dir.loadTableFromDelta else files.old

/-- What it writes there. -/
def migrationOps (files : TableFiles) (name : String) : List MigrationOp :=
  if files.dir.schema.isSome then []
  else
    match files.old with
    | some table => [.writeMeta (name, table.columns), .renameOld]
    | none => []

def run (files : TableFiles) : MigrationOp → TableFiles
  | .writeMeta schema => { files with dir := { files.dir with schema := some schema } }
  | .renameOld => { files with old := none, migrated := files.old }

/-- The directory after the first operations of its migration. -/
def migrate (files : TableFiles) (name : String) (done : Nat) : TableFiles :=
  ((files.migrationOps name).take done).foldl run files

/-- The loader finds a schema and no base, with rows in a file of the old format that it does not read. -/
def Exposed (files : TableFiles) : Prop :=
  files.dir.schema.isSome = true ∧ files.dir.bases = [] ∧
    ∃ table, (files.old = some table ∨ files.migrated = some table) ∧ table.versionChains ≠ []

end TableFiles

/-- The disk engine over processes: its directories, and the tables in the memory of the process that runs. -/
structure DiskStore where
  engine : DiskEngine
  old : String → Option Table
  migrated : String → Option Table
  running : Bool

/-- An event of the engine. A flush that stops does so within its file operations, and an open that stops has done some of
the operations of each directory; those of the loop are the ones that stop in one directory with the later ones left out. -/
inductive DiskEvent where
  | opens
  | opensPartly (done : String → Nat)
  | call (call : DiskCall)
  | flushStops (ops : List (String × FlushOp))
  | stops

namespace DiskStore

/-- Directories of the old format, and no process. -/
def ofOld (old : String → Option Table) : DiskStore :=
  { engine := .opened, old := old, migrated := fun _ => none, running := false }

/-- The directory of a table. -/
def files (store : DiskStore) (name : String) : TableFiles :=
  { dir := store.engine.dirs name, old := store.old name, migrated := store.migrated name }

/-- The store with other files and other tables in memory. -/
def withFiles (store : DiskStore) (files : String → TableFiles) (tables : String → Option Table) (running : Bool) : DiskStore :=
  { engine := { store.engine with dirs := fun name => (files name).dir, tables := tables }
    old := fun name => (files name).old
    migrated := fun name => (files name).migrated
    running := running }

/-- `DiskEngine::open`: `load_existing_tables` on every directory. -/
def opens (store : DiskStore) : DiskStore :=
  store.withFiles (fun name => (store.files name).migrate name ((store.files name).migrationOps name).length)
    (fun name => (store.files name).load) true

def step (store : DiskStore) : DiskEvent → DiskStore
  | .opens => store.opens
  | .opensPartly done => store.withFiles (fun name => (store.files name).migrate name (done name)) (fun _ => none) false
  | .call (.dropTable name) =>
      { store with
        engine := store.engine.dropTable name
        old := Function.update store.old name none
        migrated := Function.update store.migrated name none }
  | .call call => { store with engine := store.engine.step call }
  | .flushStops ops => { store with engine := store.engine.stopped ops }
  | .stops => store.withFiles store.files (fun _ => none) false

/-- The store after some events on directories of the old format. -/
def after (old : String → Option Table) (events : List DiskEvent) : DiskStore := events.foldl step (ofOld old)

/-- The event can come now. A process opens where none runs. A table is created where there is none, and written to by
transactions of ascending ids. -/
def Fits (store : DiskStore) : DiskEvent → Prop
  | .opens | .opensPartly _ => store.running = false
  | .call (.createTable name _) => store.running = true ∧ store.engine.tables name = none
  | .call (.applyWriteSet name changes) =>
      store.running = true ∧ changes ≠ [] ∧ ∃ table txid, store.engine.tables name = some table ∧
        lastWriter table.versionChains < txid ∧ ∀ change ∈ changes, change.2.txidMin = txid
  | .call (.dropTable _) | .call .flush | .stops => store.running = true
  | .flushStops ops => store.running = true ∧
      ∃ order removed, order.Nodup ∧ ops <+: store.engine.flushOps order removed

/-- What an event says of the rows of the tables. -/
def toldStep (rows : String → Option (List Chain)) : DiskEvent → String → Option (List Chain)
  | .call (.createTable name _) => Function.update rows name (some [])
  | .call (.dropTable name) => Function.update rows name none
  | .call (.applyWriteSet name changes) => Function.update rows name ((rows name).map (replay · changes))
  | _ => rows

/-- The rows that the tables have been told: those of the old files, and then what the calls say. -/
def told (old : String → Option Table) (events : List DiskEvent) : String → Option (List Chain) :=
  events.foldl toldStep fun name => (old name).map (·.versionChains)

end DiskStore

/-! ### Versions -/

section

variable {chains : List Chain}

theorem chainVersions_placeVersion (txid : Nat) (chains : List Chain) (change : Nat × RowVersion) :
    chainVersions (placeVersion txid chains change) = chainVersions chains + 1 := by
  obtain ⟨row, version⟩ := change
  by_cases hrow : row < chains.length
  · rw [placeVersion_of_lt hrow]
    exact chainVersions_modify hrow txid version
  · rw [placeVersion_of_le (Nat.le_of_not_lt hrow)]
    simp [chainVersions]

/-- Every change adds one version. -/
theorem chainVersions_replay (chains : List Chain) (changes : List (Nat × RowVersion)) :
    chainVersions (replay chains changes) = chainVersions chains + changes.length := by
  induction changes generalizing chains with
  | nil => simp
  | cons change rest ih =>
      rw [replay_cons, ih, chainVersions_placeVersion, List.length_cons]
      omega

theorem chainVersions_pos (h : 0 < lastWriter chains) : 0 < chainVersions chains := by
  by_contra hnone
  have hempty : ∀ chain ∈ chains, chain = [] := by
    intro chain hchain
    by_contra hne
    exact hnone (List.sum_pos_iff_exists_pos_nat.mpr
      ⟨chain.length, List.mem_map_of_mem hchain, List.length_pos_iff.mpr hne⟩)
  have hle : lastWriter chains ≤ 0 := by
    apply lastWriter_le
    intro chain hchain version hlast
    rw [hempty chain hchain] at hlast
    cases hlast
  omega

/-- The changes of a later transaction make it the last writer. -/
theorem lastWriter_replay {changes : List (Nat × RowVersion)} {txid : Nat} (hne : changes ≠ [])
    (hwriter : ∀ change ∈ changes, change.2.txidMin = txid) (hlater : lastWriter chains < txid) :
    lastWriter (replay chains changes) = txid := by
  apply le_antisymm
  · exact lastWriter_replay_le hlater.le fun change hchange => (hwriter change hchange).le
  · exact le_lastWriter_replay hne fun change hchange => (hwriter change hchange).ge

end

namespace TableDir

section

variable {dir : TableDir} {last txid : Nat} {changes : List (Nat × RowVersion)} {rows : List Chain}

theorem latestBase_of_bases_nil (hbases : dir.bases = []) : dir.latestBase = (0, none) := by
  rw [latestBase, hbases]
  rfl

theorem not_mem_deltas_of_later (hkept : dir.WellKept (List.range (last + 1))) (hlater : last < txid) :
    ∀ delta ∈ dir.deltas, delta.1 < txid := by
  intro delta hdelta
  have hused := List.mem_range.mp (hkept.used delta hdelta)
  omega

theorem WellKept.writeDelta_later (h : dir.WellKept (List.range (last + 1))) (hne : changes ≠ [])
    (hwriter : ∀ change ∈ changes, change.2.txidMin = txid) (hlater : last < txid) :
    (dir.writeDelta changes txid).WellKept (List.range (txid + 1)) := by
  refine (h.writeDelta (fun hmem => absurd (List.mem_range.mp hmem) (by omega)) hne hwriter).mono ?_
  intro used hmem
  simp only [List.mem_append, List.mem_range, List.mem_singleton] at hmem ⊢
  omega

/-- Without a base, the delta of a later transaction is the last one that the loader applies. -/
theorem loadedChains_writeDelta_bare (hkept : dir.WellKept (List.range (last + 1))) (hbases : dir.bases = [])
    (hne : changes ≠ []) (hwriter : ∀ change ∈ changes, change.2.txidMin = txid) (hlater : last < txid) :
    (dir.writeDelta changes txid).loadedChains = replay dir.loadedChains changes := by
  have hused := not_mem_deltas_of_later hkept hlater
  have hfresh : txid ∉ dir.deltas.map Prod.fst := by
    intro hmem
    obtain ⟨delta, hdelta, rfl⟩ := List.mem_map.mp hmem
    exact Nat.lt_irrefl _ (hused delta hdelta)
  rw [loadedChains_writeDelta_iff hkept hfresh hne hwriter, latestBase_of_bases_nil hbases]
  refine ⟨by omega, ?_⟩
  intro change _ other hother
  obtain ⟨delta, hdelta, -⟩ := List.mem_flatMap.mp hother
  obtain ⟨hmem, habove⟩ := List.mem_filter.mp hdelta
  exact absurd (of_decide_eq_true habove) (Nat.lt_asymm (hused delta (mem_newerDeltas.mp hmem).1))

/-- The first base is above all deltas, so that nothing is read but it. -/
theorem ascending_firstBase {table : Table} (hkept : dir.WellKept (List.range (lastWriter table.versionChains + 1)))
    (hschema : dir.schema.isSome = true) (hbases : dir.bases = []) (hpos : 0 < lastWriter table.versionChains)
    {deltas : List (Nat × List (Nat × RowVersion))} (hdeltas : deltas.Sublist dir.deltas) :
    ({ dir.writeBase table with deltas := deltas } : TableDir).Ascending (some table) (lastWriter table.versionChains) := by
  have hbase : ({ dir.writeBase table with deltas := deltas } : TableDir).latestBase =
      (lastWriter table.versionChains, some table) := by
    simp only [latestBase, writeBase, hbases, List.filter_nil, List.nil_append, List.foldl_cons, List.foldl_nil, if_pos hpos]
  have hnewer : ({ dir.writeBase table with deltas := deltas } : TableDir).newerDeltas = [] := by
    apply List.eq_nil_iff_forall_not_mem.mpr
    intro delta hdelta
    obtain ⟨hmem, habove⟩ := mem_newerDeltas.mp hdelta
    have hused := List.mem_range.mp (hkept.used delta (hdeltas.subset hmem))
    rw [hbase] at habove
    dsimp only at habove
    omega
  refine ⟨hkept.writeBase table hdeltas, by simp, ?_, ?_⟩
  · rintro found ⟨⟩
    rw [reloads_iff, loadedChains, hnewer, baseChains, hbase]
    exact ⟨hschema, rfl⟩
  · rintro found ⟨⟩
    exact le_rfl

theorem Ascending.of_chains {table found : Table} (h : dir.Ascending (some table) last)
    (hchains : found.versionChains = table.versionChains) : dir.Ascending (some found) last := by
  refine ⟨h.kept, by simp, ?_, ?_⟩
  · rintro other ⟨⟩
    rw [hchains]
    exact h.reloads table rfl
  · rintro other ⟨⟩
    rw [hchains]
    exact h.writer table rfl

theorem Ascending.schema {table : Table} (h : dir.Ascending (some table) last) : dir.schema.isSome = true :=
  (reloads_iff.mp (h.reloads table rfl)).1

end

end TableDir

/-! ### What holds of a directory -/

namespace TableFiles

/-- The rows of an old file, if there are any, were written by transactions from 1 on. -/
def OfWriters (table : Table) : Prop := table.versionChains = [] ∨ 0 < lastWriter table.versionChains

/-- A directory after a migration and before the first base. -/
structure Bare (files : TableFiles) (rows : List Chain) : Prop where
  exposed : files.Exposed
  kept : files.dir.WellKept (List.range (lastWriter rows + 1))
  written : 0 < lastWriter rows
  fewer : chainVersions files.dir.loadedChains < chainVersions rows

/-- What holds of the directory of a table with these rows: it is of the old format, or bare, or the loader gives the rows
back. -/
inductive Holds : TableFiles → Option (List Chain) → Prop
  | absent : Holds empty none
  | old {table : Table} (hrows : OfWriters table) :
      Holds { dir := .empty, old := some table, migrated := none } (some table.versionChains)
  | bare {files : TableFiles} {rows : List Chain} (h : files.Bare rows) : Holds files (some rows)
  | given {files : TableFiles} {table : Table} (hdir : files.dir.Ascending (some table) (lastWriter table.versionChains))
      (hsafe : ¬ files.Exposed) : Holds files (some table.versionChains)

section

variable {files : TableFiles} {rows : List Chain} {told : Option (List Chain)} {changes : List (Nat × RowVersion)}
  {txid : Nat}

theorem load_of_schema (hschema : files.dir.schema.isSome = true) : files.load = files.dir.loadTableFromDelta :=
  if_pos hschema

theorem migrate_of_schema (hschema : files.dir.schema.isSome = true) (name : String) (done : Nat) :
    files.migrate name done = files := by
  rw [migrate, migrationOps, if_pos hschema, List.take_nil]
  rfl

/-- What is loaded are the rows of the table exactly where the loader does not find the directory exposed. -/
theorem Holds.load_iff (h : files.Holds told) : files.load.map (·.versionChains) = told ↔ ¬ files.Exposed := by
  cases h with
  | absent => exact iff_of_true rfl fun hexposed => by cases hexposed.1
  | old hrows => exact iff_of_true rfl fun hexposed => by cases hexposed.1
  | @bare _ rows h =>
      refine iff_of_false (fun hload => ?_) fun hsafe => hsafe h.exposed
      obtain ⟨loaded, hloaded, hrows⟩ := Option.map_eq_some_iff.mp hload
      rw [load_of_schema h.exposed.1] at hloaded
      have hchains := (TableDir.reloads_iff.mp ⟨loaded, hloaded, hrows⟩).2
      have hfewer := h.fewer
      rw [hchains] at hfewer
      exact Nat.lt_irrefl _ hfewer
  | @given _ table hdir hsafe =>
      refine iff_of_true ?_ hsafe
      obtain ⟨loaded, hloaded, hrows⟩ := hdir.reloads table rfl
      rw [load_of_schema hdir.schema, hloaded, Option.map_some, hrows]

/-- From its schema on, a directory is exposed where the table of its old file has rows. -/
theorem holds_of_meta {table : Table} (hrows : OfWriters table) {name : String}
    (hmeta : files.dir = { TableDir.empty with schema := some (name, table.columns) })
    (hfiles : ∀ other, files.old = some other ∨ files.migrated = some other ↔ other = table) :
    files.Holds (some table.versionChains) := by
  have hdir : files.dir.Ascending (some (Table.new name table.columns)) (lastWriter table.versionChains) := by
    rw [hmeta]
    exact (TableDir.ascending_empty _).createTable name table.columns
  by_cases hempty : table.versionChains = []
  · refine .given (hdir.of_chains (by rw [hempty, Table.new_versionChains])) ?_
    rintro ⟨-, -, other, hother, hne⟩
    exact hne ((hfiles other).mp hother ▸ hempty)
  · have hpos := hrows.resolve_left hempty
    have hexposed : files.Exposed := ⟨hdir.schema, by rw [hmeta]; rfl, table, (hfiles table).mpr rfl, hempty⟩
    refine .bare ⟨hexposed, hdir.kept, hpos, ?_⟩
    have hloaded := (TableDir.reloads_iff.mp (hdir.reloads _ rfl)).2
    rw [hloaded, Table.new_versionChains]
    exact chainVersions_pos hpos

/-- Opening keeps this, also where it stops. -/
theorem Holds.migrate (h : files.Holds told) (name : String) (done : Nat) : (files.migrate name done).Holds told := by
  cases h with
  | absent =>
      have hnone : empty.migrate name done = empty := by
        rw [TableFiles.migrate, show empty.migrationOps name = [] from rfl, List.take_nil]
        rfl
      rw [hnone]
      exact .absent
  | bare h =>
      rw [migrate_of_schema h.exposed.1]
      exact .bare h
  | given hdir hsafe =>
      rw [migrate_of_schema hdir.schema]
      exact .given hdir hsafe
  | @old table hrows =>
      match done with
      | 0 => exact .old hrows
      | 1 =>
          apply holds_of_meta hrows rfl
          simp [TableFiles.migrate, migrationOps, TableDir.empty, run, eq_comm]
      | done + 2 =>
          apply holds_of_meta hrows
          · simp [TableFiles.migrate, migrationOps, TableDir.empty, run]
            rfl
          · simp [TableFiles.migrate, migrationOps, TableDir.empty, run, eq_comm]

/-- The delta of a later transaction. -/
theorem Holds.writeDelta (h : files.Holds (some rows)) (hschema : files.dir.schema.isSome = true) (hne : changes ≠ [])
    (hwriter : ∀ change ∈ changes, change.2.txidMin = txid) (hlater : lastWriter rows < txid) :
    ({ files with dir := files.dir.writeDelta changes txid } : TableFiles).Holds (some (replay rows changes)) := by
  have hlast := lastWriter_replay hne hwriter hlater
  have hsame : (files.dir.writeDelta changes txid).schema = files.dir.schema ∧
      (files.dir.writeDelta changes txid).bases = files.dir.bases := by
    unfold TableDir.writeDelta
    split <;> exact ⟨rfl, rfl⟩
  have hexposed : ({ files with dir := files.dir.writeDelta changes txid } : TableFiles).Exposed ↔ files.Exposed := by
    simp only [Exposed, hsame]
  cases h with
  | old hrows => cases hschema
  | bare h =>
      refine .bare ⟨hexposed.mpr h.exposed, ?_, ?_, ?_⟩
      · rw [hlast]
        exact h.kept.writeDelta_later hne hwriter hlater
      · omega
      · rw [TableDir.loadedChains_writeDelta_bare h.kept h.exposed.2.1 hne hwriter hlater, chainVersions_replay,
          chainVersions_replay]
        exact Nat.add_lt_add_right h.fewer _
  | @given _ table hdir hsafe =>
      have hwritten : (files.dir.writeDelta changes txid).Ascending
          (some { table with versionChains := replay table.versionChains changes })
          (lastWriter (replay table.versionChains changes)) := by
        rw [hlast]
        exact hdir.writeDelta hne hwriter hlater
      exact .given hwritten fun h => hsafe (hexposed.mp h)

/-- A flush, wherever it stops. -/
theorem Holds.flushed {table : Table} (h : files.Holds (some table.versionChains))
    (hschema : files.dir.schema.isSome = true) {flushed : TableDir}
    (hflushed : flushed = files.dir ∨
      ∃ deltas, deltas.Sublist files.dir.deltas ∧ flushed = { files.dir.writeBase table with deltas := deltas }) :
    ({ files with dir := flushed } : TableFiles).Holds (some table.versionChains) := by
  rcases hflushed with rfl | ⟨deltas, hdeltas, rfl⟩
  · exact h
  · have hsafe : ¬ ({ files with dir := { files.dir.writeBase table with deltas := deltas } } : TableFiles).Exposed :=
      fun hexposed => absurd hexposed.2.1 (List.append_ne_nil_of_right_ne_nil _ (List.cons_ne_nil _ _))
    generalize hrows : table.versionChains = rows at h
    cases h with
    | old _ => cases hschema
    | bare h =>
        subst hrows
        exact .given (TableDir.ascending_firstBase h.kept hschema h.exposed.2.1 h.written hdeltas) hsafe
    | @given _ found hdir _ =>
        have hmemory := hdir.of_chains hrows
        rw [← hrows] at hmemory ⊢
        exact .given (hmemory.flushed (.inr ⟨deltas, hdeltas, rfl⟩)) hsafe

/-- A flush that is done has written a base. -/
theorem not_exposed_flushed (files : TableFiles) (table : Table) :
    ¬ ({ files with dir := (files.dir.writeBase table).cleanDeltas } : TableFiles).Exposed :=
  fun hexposed => absurd hexposed.2.1 (List.append_ne_nil_of_right_ne_nil _ (List.cons_ne_nil _ _))

theorem holds_created (name : String) (columns : List ColumnMeta) :
    ({ empty with dir := { TableDir.empty with schema := some (name, columns) } } : TableFiles).Holds (some []) := by
  have hdir : TableDir.Ascending { TableDir.empty with schema := some (name, columns) }
      (some (Table.new name columns)) (lastWriter (Table.new name columns).versionChains) := by
    exact (TableDir.ascending_empty _).createTable name columns
  have hsafe : ¬ ({ empty with dir := { TableDir.empty with schema := some (name, columns) } } : TableFiles).Exposed := by
    rintro ⟨-, -, other, hother, -⟩
    rcases hother with h | h <;> cases h
  have hholds := Holds.given hdir hsafe
  rwa [Table.new_versionChains] at hholds

end

end TableFiles

/-! ### Runs -/

namespace DiskStore

/-- What holds of a table with these rows. -/
structure Keeps (store : DiskStore) (name : String) (rows : Option (List Chain)) : Prop where
  files : (store.files name).Holds rows
  memory : store.running = true → (store.engine.tables name).map (·.versionChains) = rows
  schema : store.running = true → rows.isSome = true → (store.engine.dirs name).schema.isSome = true

section

variable {store : DiskStore} {name other : String} {rows : String → Option (List Chain)} {columns : List ColumnMeta}
  {changes : List (Nat × RowVersion)} {ops : List (String × FlushOp)} {old : String → Option Table}
  {events : List DiskEvent}

/-- Without a process only the files count. -/
theorem Keeps.of_stopped {told : Option (List Chain)} (hstopped : store.running = false)
    (hfiles : (store.files name).Holds told) : store.Keeps name told := by
  have hnever : store.running ≠ true := by simp [hstopped]
  exact ⟨hfiles, fun hrunning => absurd hrunning hnever, fun hrunning => absurd hrunning hnever⟩

/-- A call on another table. -/
theorem Keeps.congr {told : Option (List Chain)} (h : store.Keeps name told) {after : DiskStore}
    (hfiles : after.files name = store.files name) (htables : after.engine.tables name = store.engine.tables name)
    (hrunning : after.running = store.running) : after.Keeps name told := by
  have hdirs : after.engine.dirs name = store.engine.dirs name := congrArg TableFiles.dir hfiles
  constructor
  · rw [hfiles]
    exact h.files
  · rw [htables, hrunning]
    exact h.memory
  · rw [hdirs, hrunning]
    exact h.schema

theorem Keeps.opens (h : store.Keeps name (rows name)) (hsafe : ¬ (store.files name).Exposed) :
    store.opens.Keeps name (rows name) := by
  refine ⟨h.files.migrate name _, fun _ => h.files.load_iff.mpr hsafe, fun _ hsome => ?_⟩
  show ((store.files name).migrate name _).dir.schema.isSome = true
  have hfiles := h.files
  generalize store.files name = files at hfiles
  generalize rows name = told at hfiles hsome
  cases hfiles with
  | absent => cases hsome
  | old hrows => rfl
  | bare h =>
      rw [TableFiles.migrate_of_schema h.exposed.1]
      exact h.exposed.1
  | given hdir _ =>
      rw [TableFiles.migrate_of_schema hdir.schema]
      exact hdir.schema

theorem Keeps.createTable (h : store.Keeps name (rows name)) (hrunning : store.running = true)
    (hnew : store.engine.tables other = none) :
    (store.step (.call (.createTable other columns))).Keeps name
      (toldStep rows (.call (.createTable other columns)) name) := by
  by_cases hname : name = other
  · subst hname
    have hnone : rows name = none := by rw [← h.memory hrunning, hnew, Option.map_none]
    have hempty : store.files name = .empty := by
      have hfiles := h.files
      rw [hnone] at hfiles
      generalize store.files name = files at hfiles
      cases hfiles
      rfl
    have hcreated : (store.step (.call (.createTable name columns))).files name =
        { TableFiles.empty with dir := { TableDir.empty with schema := some (name, columns) } } := by
      calc
        _ = { store.files name with dir := { (store.files name).dir with schema := some (name, columns) } } := by
          simp [DiskStore.files, DiskStore.step, DiskEngine.step, DiskEngine.createTable]
        _ = _ := by rw [hempty]; rfl
    have htables : (store.step (.call (.createTable name columns))).engine.tables name = some (Table.new name columns) :=
      Function.update_self _ _ _
    rw [toldStep, Function.update_self]
    refine ⟨hcreated ▸ TableFiles.holds_created name columns, fun _ => ?_, fun _ _ => ?_⟩
    · rw [htables, Option.map_some, Table.new_versionChains]
    · exact congrArg (fun files : TableFiles => files.dir.schema.isSome) hcreated
  · rw [toldStep, Function.update_of_ne hname]
    refine h.congr ?_ (Function.update_of_ne hname _ _) rfl
    simp [DiskStore.files, DiskStore.step, DiskEngine.step, DiskEngine.createTable, Function.update_of_ne hname]

theorem Keeps.dropTable (h : store.Keeps name (rows name)) :
    (store.step (.call (.dropTable other))).Keeps name (toldStep rows (.call (.dropTable other)) name) := by
  by_cases hname : name = other
  · subst hname
    have hdropped : (store.step (.call (.dropTable name))).files name = .empty := by
      simp [DiskStore.files, DiskStore.step, DiskEngine.dropTable, TableFiles.empty]
    have htables : (store.step (.call (.dropTable name))).engine.tables name = none := Function.update_self _ _ _
    rw [toldStep, Function.update_self]
    exact ⟨hdropped ▸ .absent, fun _ => by rw [htables]; rfl, fun _ hsome => by cases hsome⟩
  · rw [toldStep, Function.update_of_ne hname]
    refine h.congr ?_ (Function.update_of_ne hname _ _) rfl
    simp [DiskStore.files, DiskStore.step, DiskEngine.dropTable, Function.update_of_ne hname]

theorem Keeps.applyWriteSet (h : store.Keeps name (rows name)) (hfits : store.Fits (.call (.applyWriteSet other changes))) :
    (store.step (.call (.applyWriteSet other changes))).Keeps name
      (toldStep rows (.call (.applyWriteSet other changes)) name) := by
  obtain ⟨hrunning, hne, table, txid, htable, hlater, hwriter⟩ := hfits
  have hstep : store.step (.call (.applyWriteSet other changes)) = { store with engine := _ } :=
    congrArg (fun engine => { store with engine := engine }) (DiskEngine.step_applyWriteSet hne hwriter)
  by_cases hname : name = other
  · subst hname
    have htold : rows name = some table.versionChains := by rw [← h.memory hrunning, htable, Option.map_some]
    have hfiles := h.files
    have hschema := h.schema hrunning (by rw [htold]; rfl)
    rw [htold] at hfiles
    have hwritten := hfiles.writeDelta hschema hne hwriter hlater
    rw [toldStep, Function.update_self, htold, Option.map_some, hstep]
    refine ⟨?_, fun _ => ?_, fun _ _ => ?_⟩
    · simpa [DiskStore.files] using hwritten
    · simp [htable]
    · simp only [Function.update_self]
      unfold TableDir.writeDelta
      split <;> exact hschema
  · rw [toldStep, Function.update_of_ne hname, hstep]
    refine h.congr ?_ (Function.update_of_ne hname _ _) rfl
    simp [DiskStore.files, Function.update_of_ne hname]

/-- A flush of all tables, wherever it stops. -/
theorem Keeps.flushed (h : store.Keeps name (rows name)) (hrunning : store.running = true) {engine : DiskEngine}
    (htables : engine.tables = store.engine.tables)
    (hnone : store.engine.tables name = none → engine.dirs name = store.engine.dirs name)
    (hsome : ∀ table, store.engine.tables name = some table → engine.dirs name = store.engine.dirs name ∨
      ∃ deltas, deltas.Sublist (store.engine.dirs name).deltas ∧
        engine.dirs name = { (store.engine.dirs name).writeBase table with deltas := deltas }) :
    ({ store with engine := engine } : DiskStore).Keeps name (rows name) := by
  cases htable : store.engine.tables name with
  | none =>
      refine h.congr ?_ (congrFun htables name) rfl
      exact congrArg (fun dir => TableFiles.mk dir (store.old name) (store.migrated name)) (hnone htable)
  | some table =>
      have htold : rows name = some table.versionChains := by rw [← h.memory hrunning, htable, Option.map_some]
      have hschema := h.schema hrunning (by rw [htold]; rfl)
      have hfiles := h.files
      rw [htold] at hfiles ⊢
      have hflushed := hfiles.flushed hschema (hsome table htable)
      refine ⟨hflushed, fun _ => ?_, fun _ _ => ?_⟩
      · rw [htables, htable, Option.map_some]
      · show (engine.dirs name).schema.isSome = true
        rcases hsome table htable with hsame | ⟨deltas, -, hbase⟩
        · rw [hsame]
          exact hschema
        · rw [hbase]
          exact hschema

/-- A step keeps what holds of a table, unless it opens the directory where it is exposed. -/
theorem Keeps.step (h : store.Keeps name (rows name)) {event : DiskEvent} (hfits : store.Fits event)
    (hsafe : event = .opens → ¬ (store.files name).Exposed) : (store.step event).Keeps name (toldStep rows event name) := by
  cases event with
  | opens => exact h.opens (hsafe rfl)
  | opensPartly done => exact .of_stopped rfl (h.files.migrate name _)
  | call call =>
      cases call with
      | createTable created columns => exact h.createTable hfits.1 hfits.2
      | dropTable dropped => exact h.dropTable
      | applyWriteSet written changes => exact h.applyWriteSet hfits
      | flush =>
          refine h.flushed hfits rfl DiskEngine.flush_dirs_of_none ?_
          exact fun table htable => .inr ⟨[], List.nil_sublist _, DiskEngine.flush_dirs_of_some htable⟩
  | flushStops ops =>
      obtain ⟨hrunning, order, removed, horder, hops⟩ := hfits
      refine h.flushed hrunning rfl (DiskEngine.stopped_dirs_of_none horder hops) ?_
      exact fun table htable => DiskEngine.stopped_dirs_cases horder hops htable
  | stops => exact .of_stopped rfl h.files

theorem after_concat (old : String → Option Table) (events : List DiskEvent) (event : DiskEvent) :
    after old (events ++ [event]) = (after old events).step event := by
  rw [after, List.foldl_append]
  rfl

theorem told_concat (old : String → Option Table) (events : List DiskEvent) (event : DiskEvent) :
    told old (events ++ [event]) = toldStep (told old events) event := by
  rw [told, List.foldl_append]
  rfl

/-- In a run in which no open finds the directory of a table exposed. -/
theorem keeps_after (hold : ∀ table, old name = some table → TableFiles.OfWriters table)
    (hfits : ∀ done event, done ++ [event] <+: events → (after old done).Fits event)
    (hsafe : ∀ done, done ++ [DiskEvent.opens] <+: events → ¬ ((after old done).files name).Exposed) :
    (after old events).Keeps name (told old events name) := by
  induction events using List.reverseRecOn with
  | nil =>
      apply Keeps.of_stopped rfl
      show TableFiles.Holds { dir := .empty, old := old name, migrated := none } ((old name).map (·.versionChains))
      cases htable : old name with
      | none => exact .absent
      | some table => exact .old (hold table htable)
  | append_singleton done event ih =>
      have hdone : done <+: done ++ [event] := List.prefix_append _ _
      rw [after_concat, told_concat]
      apply (ih (fun _ _ h => hfits _ _ (h.trans hdone)) fun _ h => hsafe _ (h.trans hdone)).step
      · exact hfits done event List.prefix_rfl
      · rintro rfl
        exact hsafe done List.prefix_rfl

/-- After a flush that is done no directory is exposed. -/
theorem Keeps.not_exposed_flush {told : Option (List Chain)} (h : store.Keeps name told) (hrunning : store.running = true) :
    ¬ ((store.step (.call .flush)).files name).Exposed := by
  have hfiles : (store.step (.call .flush)).files name =
      { store.files name with dir := store.engine.flush.dirs name } := rfl
  rw [hfiles]
  cases htable : store.engine.tables name with
  | some table =>
      rw [DiskEngine.flush_dirs_of_some htable]
      exact (store.files name).not_exposed_flushed table
  | none =>
      have hnone : told = none := by rw [← h.memory hrunning, htable, Option.map_none]
      have habsent := h.files
      rw [hnone] at habsent
      rw [DiskEngine.flush_dirs_of_none htable]
      show ¬ (store.files name).Exposed
      generalize store.files name = files at habsent
      cases habsent
      exact fun hexposed => by cases hexposed.1

/-- A table of the old format with one row. -/
def oneOldRow : String → Option Table :=
  Function.update (fun _ => none) "t" (some { Table.new "t" [.new "a" .integer] with
    versionChains := [[.newInsert 1 { values := [.integer 5] }]] })

/-- No process runs at the start, and after a stop. -/
theorem last_of_not_running (hfits : ∀ done event, done ++ [event] <+: events → (after old done).Fits event)
    (hwhole : ∀ done, DiskEvent.opensPartly done ∉ events) (hstopped : (after old events).running = false) :
    events = [] ∨ ∃ done, events = done ++ [DiskEvent.stops] := by
  obtain rfl | ⟨done, last, rfl⟩ := List.eq_nil_or_concat events
  · exact .inl rfl
  · rw [List.concat_eq_append] at hfits hwhole hstopped ⊢
    have hlast := hfits done last List.prefix_rfl
    rw [after_concat] at hstopped
    cases last with
    | opens => cases hstopped
    | opensPartly count => exact absurd (List.mem_append_right _ (List.mem_singleton_self _)) (hwhole count)
    | flushStops ops => exact absurd (hlast.1.symm.trans hstopped) (by decide)
    | stops => exact .inr ⟨done, rfl⟩
    | call call =>
        have hrunning : (after old done).running = true := by
          cases call with
          | createTable name columns => exact hlast.1
          | dropTable name => exact hlast
          | applyWriteSet name changes => exact hlast.1
          | flush => exact hlast
        have hsame : ((after old done).step (.call call)).running = (after old done).running := by cases call <;> rfl
        exact absurd (hrunning.symm.trans (hsame.symm.trans hstopped)) (by decide)

/-- Where every process flushes before it stops and no open is cut off, every open gives every table the rows it has been
told. -/
theorem opens_told_of_flushed (hold : ∀ table, old name = some table → TableFiles.OfWriters table)
    (hfits : ∀ done event, done ++ [event] <+: events → (after old done).Fits event)
    (hwhole : ∀ done, DiskEvent.opensPartly done ∉ events)
    (hflushed : ∀ done, done ++ [DiskEvent.stops] <+: events → ∃ before, done = before ++ [DiskEvent.call .flush]) :
    ∀ done, done ++ [DiskEvent.opens] <+: events →
      ((after old (done ++ [DiskEvent.opens])).engine.tables name).map (·.versionChains) = told old done name := by
  have hsafe : ∀ done, done ++ [DiskEvent.opens] <+: events → ¬ ((after old done).files name).Exposed := by
    intro done hdone
    have htaken : done <+: events := (List.prefix_append _ _).trans hdone
    induction hlength : done.length using Nat.strong_induction_on generalizing done with
    | _ length ih =>
        obtain rfl | ⟨closed, rfl⟩ := last_of_not_running (fun _ _ h => hfits _ _ (h.trans htaken))
          (fun count hmem => hwhole count (htaken.subset hmem)) (hfits done .opens hdone)
        · exact fun hexposed => by cases hexposed.1
        · obtain ⟨before, rfl⟩ := hflushed closed htaken
          have hflush : before ++ [DiskEvent.call .flush] <+: events := (List.prefix_append _ _).trans htaken
          have hbefore : before <+: events := (List.prefix_append _ _).trans hflush
          have hkeeps : (after old before).Keeps name (told old before name) := by
            refine keeps_after hold (fun _ _ h => hfits _ _ (h.trans hbefore)) fun earlier hearlier => ?_
            have hshorter := hearlier.length_le
            simp only [List.length_append, List.length_singleton] at hshorter hlength
            exact ih earlier.length (by omega) earlier (hearlier.trans hbefore)
              ((List.prefix_append _ _).trans (hearlier.trans hbefore)) rfl
          rw [after_concat, after_concat]
          exact (hkeeps.not_exposed_flush (hfits before _ hflush))
  intro done hdone
  have htaken : done <+: events := (List.prefix_append _ _).trans hdone
  have hkeeps := @keeps_after name old done hold (fun _ _ h => hfits _ _ (h.trans htaken))
    fun earlier hearlier => hsafe earlier (hearlier.trans htaken)
  rw [after_concat]
  exact hkeeps.files.load_iff.mpr (hsafe done hdone)

end

end DiskStore

end HelionDb
