import HelionDb.StatementPhases

/-! What a table holds, whatever the versions behind it: its schema, its indexes and the live row of each position.
While ids are left and every accepted commit is safe, what a statement reads, whether its writes go through and what
they leave all depend on these contents alone. -/

namespace HelionDb

/-- A table without its history. -/
@[ext] structure TableContents where
  name : String
  columns : List ColumnMeta
  indexes : List Index
  rows : List (Option Row)

/-- The contents of a table. -/
def Table.contents (table : Table) : TableContents :=
  { name := table.name, columns := table.columns, indexes := table.indexes, rows := table.versionChains.map liveRow }

/-- The live rows with their positions. -/
def TableContents.entries (contents : TableContents) : List (Nat × Row) :=
  contents.rows.zipIdx.filterMap fun (row, idx) => row.map fun row => (idx, row)

theorem rowAt_eq (chains : List Chain) (rowIdx : Nat) : rowAt chains rowIdx = (chains.map liveRow)[rowIdx]?.join := by
  rw [rowAt, List.getElem?_map]
  cases chains[rowIdx]? <;> rfl

/-- Lists of the same contents find tables of the same contents. -/
theorem findTable_contents {left right : List Table} (h : left.map Table.contents = right.map Table.contents)
    (name : String) : (findTable name left).map Table.contents = (findTable name right).map Table.contents := by
  have hlookup : ∀ tables : List Table, KeyedList.lookup TableContents.name name (tables.map Table.contents) =
      (findTable name tables).map Table.contents := fun _ => KeyedList.lookup_map fun _ => rfl
  rw [← hlookup, ← hlookup, h]

/-- A scan that sees the last version of every chain finds the live rows. -/
theorem ChainsWf.scanVisible_eq {next txid : Nat} {table : Table} (h : ChainsWf next table.versionChains)
    (htxid : next ≤ txid) {active : Finset Nat}
    (hactive : ∀ chain ∈ table.versionChains, ∀ version ∈ chain, version.txidMin ∉ active) :
    table.scanVisible txid active = table.contents.entries := by
  rw [Table.scanVisible, TableContents.entries, Table.contents, List.zipIdx_map, List.filterMap_map]
  refine List.filterMap_congr fun entry hentry => ?_
  obtain ⟨chain, idx⟩ := entry
  have hmem : chain ∈ table.versionChains := List.mem_of_getElem? (List.mem_zipIdx_iff_getElem?.mp hentry)
  simp only [Function.comp_apply, Prod.map_apply, id_eq, (h chain hmem).latestVisible_eq htxid (hactive chain hmem),
    liveRow, Option.map_map, Function.comp_def]

/-! ### Placing rows -/

/-- The row that a version leaves live. -/
def RowVersion.live (version : RowVersion) : Option Row := if version.isDeleted then none else some version.row

/-- Placing a version, seen from the live rows. -/
def placeRow (rows : List (Option Row)) (change : Nat × Option Row) : List (Option Row) :=
  if change.1 < rows.length then rows.set change.1 change.2 else rows ++ [change.2]

theorem map_placeVersion (txid : Nat) (chains : List Chain) (change : Nat × RowVersion) :
    (placeVersion txid chains change).map liveRow = placeRow (chains.map liveRow) (change.1, change.2.live) := by
  rw [placeRow, List.length_map, placeVersion]
  split
  · apply List.ext_getElem?
    intro position
    rw [List.getElem?_map, List.getElem?_modify, List.getElem?_set, List.length_map, List.getElem?_map]
    by_cases hposition : change.1 = position
    · subst hposition
      rename_i hlt
      simp [hlt, RowVersion.live]
    · simp [hposition]
  · simp [RowVersion.live]

theorem map_placeAll (txid : Nat) (chains : List Chain) (changes : List (Nat × RowVersion)) :
    (placeAll txid chains changes).map liveRow =
      (changes.map fun change => (change.1, change.2.live)).foldl placeRow (chains.map liveRow) := by
  induction changes generalizing chains with
  | nil => rfl
  | cons change rest ih => rw [placeAll_cons, ih, map_placeVersion, List.map_cons, List.foldl_cons]

/-- The live row that an entry leaves, given the rows there are. -/
def entryRow (rows : Option (List (Option Row))) (entry : WriteEntry) : Option (Nat × Option Row) :=
  match entry.operation with
  | .insert row => some (entry.rowIdx, some row)
  | .update row => some (entry.rowIdx, some row)
  | .delete => (rows.bind fun rows => rows[entry.rowIdx]?).map fun _ => (entry.rowIdx, none)

theorem entryVersion_live {txId : Nat} {tables : String → Option Table} {entry : WriteEntry}
    (hchains : ∀ table, tables entry.tableName = some table → ∀ chain ∈ table.versionChains, chain ≠ []) :
    (entryVersion txId tables entry).map (fun change => (change.1, change.2.live)) =
      entryRow ((tables entry.tableName).map fun table => table.contents.rows) entry := by
  unfold entryVersion entryRow
  cases entry.operation with
  | insert row => rfl
  | update row => rfl
  | delete =>
      cases htable : tables entry.tableName with
      | none => rfl
      | some table =>
          simp only [Option.map_some, Option.bind_some, Table.contents, List.getElem?_map]
          cases hchain : table.versionChains[entry.rowIdx]? with
          | none => rfl
          | some chain =>
              have hne := hchains table htable chain (List.mem_of_getElem? hchain)
              dsimp only
              rw [List.getLast?_eq_some_getLast hne]
              rfl

theorem tableChanges_live {tx : Transaction} {tables : String → Option Table} {name : String}
    (hchains : ∀ table, tables name = some table → ∀ chain ∈ table.versionChains, chain ≠ []) :
    (tableChanges tx tables name).map (fun change => (change.1, change.2.live)) =
      (tx.entriesOf name).filterMap (entryRow ((tables name).map fun table => table.contents.rows)) := by
  rw [tableChanges, List.map_filterMap]
  refine List.filterMap_congr fun entry hentry => ?_
  obtain rfl := (Transaction.mem_entriesOf.mp hentry).2
  exact entryVersion_live hchains

namespace DatabaseEngine

variable {engine left right : DatabaseEngine} {orders : CommitOrders} {entries : List WriteEntry}

/-- The live row of each position of the table of a name. -/
def rowsOf (engine : DatabaseEngine) (name : String) : List (Option Row) :=
  ((findTable name engine.tables).map fun table => table.contents.rows).getD []

/-- What serial calls keep while ids are left and their accepted commits are safe. -/
structure Steady (engine : DatabaseEngine) : Prop where
  wellFormed : engine.WellFormed
  dated : engine.Dated
  settled : engine.Settled

theorem SerialReachable.isSteady (h : SerialReachable SteadyGuard engine) : engine.Steady :=
  ⟨h.steady.1, h.steady.2.1, h.steady.2.2⟩

theorem Steady.transition (h : engine.Steady) {call : SerialCall} (hguard : SteadyGuard engine call)
    {after : DatabaseEngine} (htransition : Transition engine call after) : after.Steady :=
  ⟨h.wellFormed.transition htransition, h.dated.transition h.wellFormed hguard.room htransition,
    h.settled.transition h.wellFormed h.dated hguard.room hguard.safe htransition⟩

theorem Steady.begun (h : engine.Steady) : engine.begin.2.WellFormed := h.wellFormed.of_frame rfl (.refl _) rfl

/-- Taking a snapshot. -/
theorem Steady.readSnapshot (h : engine.Steady) (hroom : engine.CounterRoom) : engine.readSnapshot.2.Steady := by
  have htransition : Transition engine { op := .readTxn, orders := .asGiven } engine.readSnapshot.2 :=
    .ids _ (readSnapshot_idStep engine)
  exact h.transition ⟨hroom, acceptedSafe_of_none rfl⟩ htransition

/-- The call behind the write phase of a statement. -/
def writeCall (orders : CommitOrders) (entries : List WriteEntry) : SerialCall :=
  { op := .writeTxn fun _ _ => .ok entries, orders }

theorem pending_writeCall (engine : DatabaseEngine) (orders : CommitOrders) (entries : List WriteEntry) :
    engine.pending (writeCall orders entries).op = some (engine.begin.2, engine.beginWith entries) := rfl

/-- A statement selects from the contents of its table. -/
theorem Steady.selectRows_eq (h : engine.Steady) {table : Table} (htable : table ∈ engine.tables) (filter : Row → Bool) :
    engine.selectRows table filter = table.contents.entries.filter fun entry => filter entry.2 := by
  have hscan := ChainsWf.scanVisible_eq (h.dated.live table htable) le_rfl (h.settled.live table htable)
  exact congrArg (List.filter fun entry => filter entry.2) hscan

theorem find_contents (hsame : left.tables.map Table.contents = right.tables.map Table.contents) {name : String}
    {table : Table} (htable : findTable name left.tables = some table) :
    ∃ other, findTable name right.tables = some other ∧ other.contents = table.contents := by
  have hcontents := findTable_contents hsame name
  rw [htable, Option.map_some] at hcontents
  obtain ⟨other, hother, heq⟩ := Option.map_eq_some_iff.mp hcontents.symm
  exact ⟨other, hother, heq⟩

/-- Engines of the same contents have a statement compute the same entries. -/
theorem Steady.readPhase_eq (hleft : left.Steady) (hright : right.Steady)
    (hsame : left.tables.map Table.contents = right.tables.map Table.contents) (name : String)
    (statement : RowStatement) : (left.readPhase name statement).1 = (right.readPhase name statement).1 := by
  cases htable : findTable name left.tables with
  | none =>
      have hnone := findTable_contents hsame name
      rw [htable, Option.map_none] at hnone
      simp only [readPhase, htable, Option.map_eq_none_iff.mp hnone.symm]
  | some table =>
      obtain ⟨other, hother, hcontents⟩ := find_contents hsame htable
      have hselect (filter : Row → Bool) : left.selectRows table filter = right.selectRows other filter := by
        rw [hleft.selectRows_eq (hleft.wellFormed.findTable_eq_some.mp htable).1,
          hright.selectRows_eq (hright.wellFormed.findTable_eq_some.mp hother).1, hcontents]
      cases statement with
      | insert rows =>
          have hcount : table.rowCount = other.rowCount := by
            have hlength := congrArg (fun contents => contents.rows.length) hcontents
            simp only [Table.contents, List.length_map] at hlength
            exact hlength.symm
          simp only [readPhase, htable, hother, hcount]
      | update assignments filter =>
          simp only [readPhase, htable, hother, hselect]
          cases updateEntries name assignments (right.selectRows other filter) <;> rfl
      | delete filter => simp only [readPhase, htable, hother, hselect]

/-! ### What statements write -/

/-- No transaction that begins now conflicts with what is there. -/
theorem Steady.checkConflicts_ok (h : engine.Steady) (entries : List WriteEntry) :
    checkConflicts (engine.beginWith entries) (snapshotTables engine.tables) = .ok () := by
  refine checkConflicts_ok_iff.mpr fun entry _ => ?_
  unfold conflictOf
  split
  · rfl
  · rename_i table htable
    split
    · rfl
    · rename_i chain hchain
      split
      · rfl
      · rename_i version hversion
        have hmem : version ∈ chain := List.mem_reverse.mp (List.mem_of_find?_eq_some hversion)
        exact if_neg (h.settled.live table (mem_of_snapshotTables htable) chain (List.mem_of_getElem? hchain) version hmem)

/-- The rows that maintenance takes for the old ones. -/
theorem Steady.oldRowOf_eq (h : engine.Steady) (entry : WriteEntry) :
    oldRowOf (snapshotTables engine.tables) entry =
      ((findTable entry.tableName engine.tables).map Table.contents).bind fun contents =>
        contents.rows[entry.rowIdx]?.join := by
  rw [oldRowOf, h.wellFormed.snapshotTables_eq]
  cases htable : findTable entry.tableName engine.tables with
  | none => rfl
  | some table =>
      have hmem := (h.wellFormed.findTable_eq_some.mp htable).1
      exact (ChainsWf.getVisibleRow_eq (h.dated.live table hmem) h.dated.bounded entry.rowIdx).trans (rowAt_eq _ _)

section Same

variable (hleft : left.Steady) (hright : right.Steady)
  (hsame : left.tables.map Table.contents = right.tables.map Table.contents)

include hleft hright hsame

theorem Steady.oldRowOf_congr : oldRowOf (snapshotTables left.tables) = oldRowOf (snapshotTables right.tables) := by
  funext entry
  rw [hleft.oldRowOf_eq, hright.oldRowOf_eq, findTable_contents hsame]

theorem Steady.indexChanges_congr :
    indexChanges (snapshotTables left.tables) = indexChanges (snapshotTables right.tables) := by
  funext definition given
  rw [indexChanges, indexChanges, Steady.oldRowOf_congr hleft hright hsame]

theorem Steady.checkUniqueWrites_eq (entries : List WriteEntry) :
    checkUniqueWrites (left.beginWith entries) (snapshotTables left.tables) =
      checkUniqueWrites (right.beginWith entries) (snapshotTables right.tables) := by
  have hentry : checkUniqueEntry (snapshotTables left.tables) = checkUniqueEntry (snapshotTables right.tables) := by
    funext entry
    rw [checkUniqueEntry, checkUniqueEntry, hleft.wellFormed.snapshotTables_eq, hright.wellFormed.snapshotTables_eq]
    cases htable : findTable entry.tableName left.tables with
    | none =>
        have hnone := findTable_contents hsame entry.tableName
        rw [htable, Option.map_none] at hnone
        rw [Option.map_eq_none_iff.mp hnone.symm]
    | some table =>
        obtain ⟨other, hother, hcontents⟩ := find_contents hsame htable
        have hindexes : other.indexes = table.indexes := congrArg TableContents.indexes hcontents
        rw [hother]
        dsimp only
        cases entry.operation <;> simp only [Table.checkUniqueConstraints, hindexes]
  rw [checkUniqueWrites, checkUniqueWrites, hentry]
  rfl

/-- A transaction on known tables is safe on both or on neither. -/
theorem Steady.commitSafe_congr (hknown : ∀ entry ∈ entries, (findTable entry.tableName right.tables).isSome)
    (hsafe : left.begin.2.CommitSafe (left.beginWith entries)) :
    right.begin.2.CommitSafe (right.beginWith entries) := by
  refine ⟨fun name hname => ?_, fun name hname table htable index hindex => ?_⟩
  · obtain ⟨entry, hentry, rfl⟩ := Transaction.mem_tableNames.mp hname
    obtain ⟨table, htable⟩ := Option.isSome_iff_exists.mp (hknown entry hentry)
    obtain ⟨hmem, hname⟩ := hright.wellFormed.findTable_eq_some.mp htable
    rw [← hname]
    exact hright.wellFormed.holds (List.mem_map_of_mem hmem)
  · obtain ⟨other, hother, hcontents⟩ := find_contents hsame.symm htable
    have hindexes : other.indexes = table.indexes := congrArg TableContents.indexes hcontents
    have hadmissible :
        MaintenanceAdmissible (snapshotTables left.tables) ((right.beginWith entries).entriesOf name) other :=
      hsafe.maintained name hname other hother
    have hindex := hadmissible index (hindexes ▸ hindex)
    rw [Steady.oldRowOf_congr hleft hright hsame, Steady.indexChanges_congr hleft hright hsame] at hindex
    exact hindex

end Same

/-- A write phase that the uniqueness check stops changes no table. -/
theorem Steady.writePhase_refused (h : engine.Steady) {err : HelionError}
    (hchecked : checkUniqueWrites (engine.beginWith entries) (snapshotTables engine.tables) = .error err) :
    engine.writePhase orders entries = (.error err, engine.begin.2) := by
  have hconflicts : checkConflicts (engine.beginWith entries) (snapshotTables engine.begin.2.tables) = .ok () :=
    h.checkConflicts_ok entries
  have hunique :
      checkUniqueWrites (engine.beginWith entries) (snapshotTables engine.begin.2.tables) = .error err := hchecked
  have hrunning : ¬ (engine.beginWith entries).status ≠ .inProgress := not_not.mpr rfl
  rw [writePhase_eq, commit, if_neg hrunning, hconflicts, hunique]
  rfl

/-- Maintenance leaves one list of indexes. -/
theorem maintained_unique {snapshot : String → Option Table} {before after other : List Index}
    (h : Maintained snapshot entries before after) (hother : Maintained snapshot entries before other) :
    after = other := by
  induction h generalizing other with
  | nil => exact (List.forall₂_nil_left_iff.mp hother).symm
  | cons hhead _ ih =>
      obtain ⟨new, rest, hnew, hrest, rfl⟩ := List.forall₂_cons_left_iff.mp hother
      rw [ih hrest, Index.ext_pairs (hhead.1.trans hnew.1.symm) (hhead.2.trans hnew.2.symm)]

/-- The contents of a table after a commit that returned Ok. -/
theorem Steady.contents_commit (h : engine.Steady)
    (hok : (engine.begin.2.commit orders (engine.beginWith entries)).1 = .ok ()) {name : String} {table : Table}
    (htable : findTable name engine.tables = some table) :
    ∃ after, findTable name (engine.begin.2.commit orders (engine.beginWith entries)).2.2.tables = some after ∧
      after.name = table.name ∧ after.columns = table.columns ∧
      Maintained (snapshotTables engine.tables) ((engine.beginWith entries).entriesOf name) table.indexes after.indexes ∧
      after.contents.rows = (((engine.beginWith entries).entriesOf name).filterMap
        (entryRow (some table.contents.rows))).foldl placeRow table.contents.rows := by
  have hbegun := h.begun
  obtain ⟨after, hafter, hmaintained⟩ := maintained_commit hbegun hok htable
  have hschema := findTable_schema (commit_frame engine.begin.2 orders (engine.beginWith entries)).1 name
  rw [hafter, show findTable name engine.begin.2.tables = some table from htable, Option.map_some, Option.map_some] at hschema
  obtain ⟨hname, hcolumns⟩ := Prod.mk.inj (Option.some.inj hschema)
  refine ⟨after, hafter, hname, hcolumns, hmaintained, ?_⟩
  have hplaced := chainsOf_commit_of_ok hbegun hok name
  rw [chainsOf, placedChains, chainsOf, hafter,
    show findTable name engine.begin.2.tables = some table from htable, Option.map_some, Option.map_some,
    Option.map_some] at hplaced
  have hcopy : snapshotTables engine.tables name = some table := (h.wellFormed.snapshotTables_eq name).trans htable
  have hchanges :=
    @tableChanges_live (engine.beginWith entries) (snapshotTables engine.tables) name fun found hfound chain hchain =>
    (h.dated.live found (mem_of_snapshotTables hfound) chain hchain).ne_nil
  rw [hcopy, Option.map_some] at hchanges
  rw [Table.contents, Option.some.inj hplaced, map_placeAll]
  exact congrArg (fun changes => changes.foldl placeRow (table.versionChains.map liveRow)) hchanges

section Same

variable (hleft : left.Steady) (hright : right.Steady)
  (hsame : left.tables.map Table.contents = right.tables.map Table.contents)

include hleft hright hsame

/-- Commits that return Ok leave the same contents. -/
theorem Steady.commit_contents_eq
    (hokLeft : (left.begin.2.commit orders (left.beginWith entries)).1 = .ok ())
    (hokRight : (right.begin.2.commit orders (right.beginWith entries)).1 = .ok ()) :
    (left.begin.2.commit orders (left.beginWith entries)).2.2.tables.map Table.contents =
      (right.begin.2.commit orders (right.beginWith entries)).2.2.tables.map Table.contents := by
  have hnames (engine : DatabaseEngine) (tx : Transaction) :
      ((engine.commit orders tx).2.2.tables.map Table.contents).map TableContents.name = engine.tables.map Table.name := by
    rw [List.map_map]
    exact map_name_eq_of_schema (commit_frame engine orders tx).1
  have hkeys : left.tables.map Table.name = right.tables.map Table.name := by
    have hmapped := congrArg (List.map TableContents.name) hsame
    rwa [List.map_map, List.map_map] at hmapped
  have hlookup (tables : List Table) (name : String) :
      KeyedList.lookup TableContents.name name (tables.map Table.contents) = (findTable name tables).map Table.contents :=
    KeyedList.lookup_map fun _ => rfl
  refine @KeyedList.ext_lookup TableContents String _ TableContents.name _ _ ?_ ?_ fun name => ?_
  · rw [hnames, hnames]
    exact hkeys
  · rw [hnames]
    exact hleft.begun.nodup_names
  · rw [hlookup, hlookup]
    cases htable : findTable name left.tables with
    | none =>
        have hgone := findTable_contents hsame name
        rw [htable, Option.map_none] at hgone
        have hnone (engine : DatabaseEngine) (tx : Transaction) (hnone : findTable name engine.tables = none) :
            findTable name (engine.commit orders tx).2.2.tables = none := by
          have hschema := findTable_schema (commit_frame engine orders tx).1 name
          rw [hnone, Option.map_none] at hschema
          exact Option.map_eq_none_iff.mp hschema
        rw [hnone left.begin.2 _ htable, hnone right.begin.2 _ (Option.map_eq_none_iff.mp hgone.symm)]
    | some table =>
        obtain ⟨other, hother, hcontents⟩ := find_contents hsame htable
        obtain ⟨after, hafter, hname, hcolumns, hmaintained, hrows⟩ := hleft.contents_commit hokLeft htable
        obtain ⟨after', hafter', hname', hcolumns', hmaintained', hrows'⟩ := hright.contents_commit hokRight hother
        have hindexes : other.indexes = table.indexes := congrArg TableContents.indexes hcontents
        have hsameIndexes : after.indexes = after'.indexes := by
          rw [hindexes, Maintained, ← Steady.indexChanges_congr hleft hright hsame] at hmaintained'
          exact maintained_unique hmaintained hmaintained'
        have hsameRows : after.contents.rows = after'.contents.rows := by
          rw [hrows, hrows', hcontents]
          rfl
        rw [hafter, hafter', Option.map_some, Option.map_some]
        congr 1
        have hnames : other.name = table.name := congrArg TableContents.name hcontents
        have hcolumnsOther : other.columns = table.columns := congrArg TableContents.columns hcontents
        exact TableContents.ext (hname.trans (hnames ▸ hname'.symm)) (hcolumns.trans (hcolumnsOther ▸ hcolumns'.symm))
          hsameIndexes hsameRows

/-- A write phase has the same result on both, and leaves the same contents. -/
theorem Steady.writePhase_congr (hknown : ∀ entry ∈ entries, (findTable entry.tableName right.tables).isSome)
    (hsafe : left.AcceptedSafe (writeCall orders entries)) :
    (left.writePhase orders entries).1 = (right.writePhase orders entries).1 ∧
      (left.writePhase orders entries).2.tables.map Table.contents =
        (right.writePhase orders entries).2.tables.map Table.contents ∧
      right.AcceptedSafe (writeCall orders entries) := by
  have hunique := Steady.checkUniqueWrites_eq hleft hright hsame entries
  cases hchecked : checkUniqueWrites (left.beginWith entries) (snapshotTables left.tables) with
  | error err =>
      rw [hchecked] at hunique
      rw [hleft.writePhase_refused hchecked, hright.writePhase_refused hunique.symm]
      refine ⟨rfl, hsame, fun begun tx hpending haccept => ?_⟩
      obtain ⟨-, rfl⟩ := Prod.mk.inj (Option.some.inj ((pending_writeCall right orders entries).symm.trans hpending))
      rw [haccept.2] at hunique
      cases hunique
  | ok u =>
      rw [hchecked] at hunique
      have hacceptLeft : ChecksAccept (left.beginWith entries) (snapshotTables left.tables) :=
        ⟨hleft.checkConflicts_ok entries, hchecked⟩
      have hacceptRight : ChecksAccept (right.beginWith entries) (snapshotTables right.tables) :=
        ⟨hright.checkConflicts_ok entries, hunique.symm⟩
      have hsafeLeft := hsafe _ _ (pending_writeCall left orders entries) hacceptLeft
      have hsafeRight := Steady.commitSafe_congr hleft hright hsame hknown hsafeLeft
      have hokLeft : (left.begin.2.commit orders (left.beginWith entries)).1 = .ok () :=
        (commit_ok_iff hleft.begun rfl hacceptLeft).mpr hsafeLeft
      have hokRight : (right.begin.2.commit orders (right.beginWith entries)).1 = .ok () :=
        (commit_ok_iff hright.begun rfl hacceptRight).mpr hsafeRight
      rw [writePhase_eq, writePhase_eq, hokLeft, hokRight]
      refine ⟨rfl, Steady.commit_contents_eq hleft hright hsame hokLeft hokRight, fun begun tx hpending _ => ?_⟩
      obtain ⟨rfl, rfl⟩ := Prod.mk.inj (Option.some.inj ((pending_writeCall right orders entries).symm.trans hpending))
      exact hsafeRight

end Same

end DatabaseEngine

end HelionDb
