import HelionDb.PlainTables
import HelionDb.RecoveryChains

/-! INSERT, UPDATE and DELETE do what is said of the plain tables. Where the indexes of a database agree with its chains,
the check before a commit finds a key held exactly if a live row has it, so a statement is refused exactly where that is
said; and where it leaves the keys of unique indexes apart, the commit gets through. -/

namespace HelionDb

theorem exists_mem_keysOf {definition : IndexMeta} {chains : List Chain} {key : List Datum} :
    (∃ other, (key, other) ∈ keysOf definition chains) ↔
      ∃ held, some held ∈ chains.map liveRow ∧ definition.extractKey held = key := by
  constructor
  · rintro ⟨other, held, hrow, hkey⟩
    rw [rowAt_eq, Option.join_eq_some_iff] at hrow
    exact ⟨held, List.mem_of_getElem? hrow, hkey⟩
  · rintro ⟨held, hmem, hkey⟩
    obtain ⟨other, hother⟩ := List.mem_iff_getElem?.mp hmem
    refine ⟨other, held, ?_, hkey⟩
    rw [rowAt_eq, hother]
    rfl

section Check

variable {index : Index} {chains : List Chain} {rowIdx : Nat} {row old : Row}

theorem Index.checkUnique_ok_iff {isInsert : Bool} :
    index.checkUnique isInsert rowIdx row = .ok () ↔
      (index.definition.isUnique = true → (index.extractKey row).all Datum.isNull = false →
        ∀ rows, index.get (index.extractKey row) = some rows →
          (rows.card = 1 ∧ rowIdx ∈ rows) ∨ (isInsert = false ∧ rowIdx ∈ rows)) := by
  unfold checkUnique
  cases hunique : index.definition.isUnique with
  | false => simp
  | true =>
      cases hnull : (index.extractKey row).all Datum.isNull with
      | true => simp
      | false =>
          cases hget : index.get (index.extractKey row) with
          | none => simp
          | some rows =>
              by_cases hone : rows.card = 1 ∧ rowIdx ∈ rows
              · simp [hone]
              · by_cases hmem : rowIdx ∈ rows <;> cases isInsert <;> simp_all

/-- A new row passes an index that agrees with the chains unless its key is held. -/
theorem Index.checkUnique_insert (hpairs : index.pairs = keysOf index.definition chains)
    (hfree : rowAt chains rowIdx = none) :
    index.checkUnique true rowIdx row = .ok () ↔ ¬ (index.definition.isUnique = true ∧
      KeyHeld index.definition (chains.map liveRow) (index.definition.extractKey row)) := by
  have hnot : ∀ rows, index.get (index.extractKey row) = some rows → rowIdx ∉ rows := by
    intro rows hget hmem
    have hpair := (mem_pairs_of_get hget).mpr hmem
    rw [hpairs, mem_keysOf, hfree] at hpair
    cases hpair
  rw [checkUnique_ok_iff, KeyHeld, ← exists_mem_keysOf, ← hpairs]
  constructor
  · rintro h ⟨hunique, hnull, other, hother⟩
    obtain ⟨rows, hget, -⟩ := mem_pairs.mp hother
    rcases h hunique hnull rows hget with ⟨-, hmem⟩ | ⟨hfalse, -⟩
    · exact hnot rows hget hmem
    · cases hfalse
  · intro h hunique hnull rows hget
    obtain ⟨other, hother⟩ := Finset.nonempty_iff_ne_empty.mpr (index.entries_nonempty _ rows hget)
    exact absurd ⟨hunique, hnull, other, (mem_pairs_of_get hget).mpr hother⟩ h

/-- A changed row passes it if it keeps its key, or gets one that is not held. -/
theorem Index.checkUnique_update (hpairs : index.pairs = keysOf index.definition chains)
    (hold : rowAt chains rowIdx = some old) :
    index.checkUnique false rowIdx row = .ok () ↔ ¬ (index.definition.isUnique = true ∧
      index.definition.extractKey old ≠ index.definition.extractKey row ∧
      KeyHeld index.definition (chains.map liveRow) (index.definition.extractKey row)) := by
  have hmem : ∀ rows, index.get (index.extractKey row) = some rows →
      (rowIdx ∈ rows ↔ index.definition.extractKey old = index.definition.extractKey row) := by
    intro rows hget
    rw [← mem_pairs_of_get hget, hpairs, mem_keysOf, hold, Option.map_some, Option.some.injEq]
    rfl
  rw [checkUnique_ok_iff, KeyHeld, ← exists_mem_keysOf, ← hpairs]
  constructor
  · rintro h ⟨hunique, hkey, hnull, other, hother⟩
    obtain ⟨rows, hget, -⟩ := mem_pairs.mp hother
    rcases h hunique hnull rows hget with ⟨-, hrow⟩ | ⟨-, hrow⟩
    · exact hkey ((hmem rows hget).mp hrow)
    · exact hkey ((hmem rows hget).mp hrow)
  · intro h hunique hnull rows hget
    obtain ⟨other, hother⟩ := Finset.nonempty_iff_ne_empty.mpr (index.entries_nonempty _ rows hget)
    by_cases hkey : index.definition.extractKey old = index.definition.extractKey row
    · exact .inr ⟨rfl, (hmem rows hget).mpr hkey⟩
    · exact absurd ⟨hunique, hkey, hnull, other, (mem_pairs_of_get hget).mpr hother⟩ h

end Check

namespace DatabaseEngine

/-- The tables as they are without their versions. -/
def plain (engine : DatabaseEngine) : PlainTables := fun name =>
  (findTable name engine.tables).map fun table =>
    { columns := table.columns, indexes := table.definitions, rows := table.contents.rows }

variable {engine : DatabaseEngine} {orders : CommitOrders} {entries : List WriteEntry} {name : String} {table : Table}
  {statement : RowStatement}

theorem plain_of_find (htable : findTable name engine.tables = some table) :
    engine.plain name =
      some { columns := table.columns, indexes := table.definitions, rows := table.contents.rows } := by
  rw [plain, htable, Option.map_some]

theorem plain_eq_none_iff : engine.plain name = none ↔ findTable name engine.tables = none := by
  rw [plain, Option.map_eq_none_iff]

/-- What serial calls keep while ids are left and accepted commits are safe, exact and replayed faithfully. -/
structure Kept (engine : DatabaseEngine) : Prop extends engine.Steady where
  consistent : engine.Consistent
  mirrored : engine.Mirrored

/-! ### Statements that read -/

/-- What a statement computes for its table, if it can, is what it says and for as many rows. -/
theorem Steady.readPhase_ok (h : engine.Steady) (hread : (engine.readPhase name statement).1 = .ok entries) :
    ∃ table, findTable name engine.tables = some table ∧ ¬ statement.OutOfRange table.contents.rows ∧
      placedEntries entries table.contents.rows = statement.meaning table.contents.rows ∧
      entries.length = statement.affects table.contents.rows := by
  cases htable : findTable name engine.tables with
  | none =>
      simp only [DatabaseEngine.readPhase, htable] at hread
      cases hread
  | some table =>
      have hselected := h.selectRows_eq (h.wellFormed.findTable_eq_some.mp htable).1
      refine ⟨table, rfl, ?_⟩
      cases statement with
      | insert new =>
          simp only [DatabaseEngine.readPhase, htable, Except.ok.injEq] at hread
          have hcount : table.rowCount = table.contents.rows.length := by
            rw [Table.contents, List.length_map]
            rfl
          rw [hcount] at hread
          subst hread
          refine ⟨id, placedEntries_insert name table.contents new, ?_⟩
          simp [insertEntries, RowStatement.affects]
      | update assignments filter =>
          simp only [DatabaseEngine.readPhase, htable, hselected, updateEntries_eq] at hread
          split at hread
          · cases hread
          · rename_i found hentries
            split at hentries
            · rename_i hrange
              obtain rfl := Option.some.inj hentries
              obtain rfl := Except.ok.inj hread
              refine ⟨?_, placedEntries_update, ?_⟩
              · rintro ⟨row, hrow, hfilter, hnone⟩
                obtain ⟨idx, hidx⟩ := List.mem_iff_getElem?.mp hrow
                exact hrange (idx, row) (List.mem_filter.mpr ⟨mem_entries.mpr hidx, hfilter⟩) hnone
              · rw [List.length_map, length_selected]
                rfl
            · cases hentries
      | delete filter =>
          simp only [DatabaseEngine.readPhase, htable, hselected, Except.ok.injEq] at hread
          subst hread
          refine ⟨id, placedEntries_delete, ?_⟩
          rw [deleteEntries, List.length_map, length_selected]
          rfl

/-- A statement that cannot compute its entries has no table or lacks a column. -/
theorem Steady.readPhase_error (h : engine.Steady) {err : HelionError}
    (hread : (engine.readPhase name statement).1 = .error err) :
    findTable name engine.tables = none ∨
      ∃ table, findTable name engine.tables = some table ∧ statement.OutOfRange table.contents.rows := by
  cases htable : findTable name engine.tables with
  | none => exact .inl rfl
  | some table =>
      have hselected := h.selectRows_eq (h.wellFormed.findTable_eq_some.mp htable).1
      refine .inr ⟨table, rfl, ?_⟩
      cases statement with
      | insert new =>
          simp only [DatabaseEngine.readPhase, htable] at hread
          cases hread
      | update assignments filter =>
          simp only [DatabaseEngine.readPhase, htable, hselected, updateEntries_eq] at hread
          split at hread
          · rename_i hentries
            split at hentries
            · cases hentries
            · rename_i hrange
              simp only [not_forall, not_not] at hrange
              obtain ⟨entry, hentry, hnone⟩ := hrange
              obtain ⟨hlisted, hfilter⟩ := List.mem_filter.mp hentry
              exact ⟨entry.2, List.mem_of_getElem? (mem_entries.mp hlisted), hfilter, hnone⟩
          · cases hread
      | delete filter =>
          simp only [DatabaseEngine.readPhase, htable] at hread
          cases hread

theorem forall_mem_insertEntries {startIdx : Nat} {new : List Row} {P : WriteEntry → Prop} :
    (∀ entry ∈ insertEntries name startIdx new, P entry) ↔ ∀ row idx, (row, idx) ∈ new.zipIdx →
      P { tableName := name, rowIdx := startIdx + idx, oldTxidMax := u64Max, operation := .insert row } := by
  rw [insertEntries, List.forall_mem_map]
  exact ⟨fun h row idx hmem => h (row, idx) hmem, fun h entry hentry => h entry.1 entry.2 hentry⟩

theorem checkUniqueWrites_ok_iff (hwf : engine.WellFormed) (hnamed : ∀ entry ∈ entries, entry.tableName = name)
    (htable : findTable name engine.tables = some table) :
    checkUniqueWrites (engine.beginWith entries) (snapshotTables engine.tables) = .ok () ↔
      ∀ entry ∈ entries, ∀ index ∈ table.indexes,
        match entry.operation with
        | .insert row => index.checkUnique true entry.rowIdx row = .ok ()
        | .update row => index.checkUnique false entry.rowIdx row = .ok ()
        | .delete => True := by
  rw [checkUniqueWrites, Loop.checkAll_ok_iff]
  refine forall₂_congr fun entry hentry => ?_
  rw [checkUniqueEntry, hwf.snapshotTables_eq, hnamed entry hentry, htable]
  dsimp only
  cases entry.operation with
  | insert row => exact Loop.checkAll_ok_iff
  | update row => exact Loop.checkAll_ok_iff
  | delete => exact iff_of_true rfl fun _ _ => trivial

/-- The check before a commit stops the statements of which a row clashes. -/
theorem Kept.checkUniqueWrites_ok_iff (h : engine.Kept) (hread : (engine.readPhase name statement).1 = .ok entries)
    (htable : findTable name engine.tables = some table) :
    checkUniqueWrites (engine.beginWith entries) (snapshotTables engine.tables) = .ok () ↔
      ¬ statement.Clashes table.definitions table.contents.rows := by
  have hmem := (h.wellFormed.findTable_eq_some.mp htable).1
  have hselected := h.selectRows_eq hmem
  have hpairs := h.consistent table hmem
  rw [DatabaseEngine.checkUniqueWrites_ok_iff h.wellFormed (readPhase_known hread).2 htable]
  cases statement with
  | insert new =>
      simp only [DatabaseEngine.readPhase, htable, Except.ok.injEq] at hread
      subst hread
      have hfree : ∀ idx, rowAt table.versionChains (table.rowCount + idx) = none :=
        fun idx => rowAt_eq_none_of_le (Nat.le_add_right _ _)
      rw [forall_mem_insertEntries]
      constructor
      · rintro h ⟨definition, hdefinition, hunique, row, hrow, hheld⟩
        obtain ⟨index, hindex, rfl⟩ := List.mem_map.mp hdefinition
        obtain ⟨idx, hidx⟩ := List.mem_iff_getElem?.mp hrow
        have hpassed := h row idx (List.mem_zipIdx_iff_getElem?.mpr hidx) index hindex
        exact (Index.checkUnique_insert (hpairs index hindex) (hfree idx)).mp hpassed ⟨hunique, hheld⟩
      · intro h row idx hrow index hindex
        refine (Index.checkUnique_insert (hpairs index hindex) (hfree idx)).mpr ?_
        rintro ⟨hunique, hheld⟩
        exact h ⟨index.definition, List.mem_map_of_mem hindex, hunique, row,
          List.mem_of_getElem? (List.mem_zipIdx_iff_getElem?.mp hrow), hheld⟩
  | update assignments filter =>
      simp only [DatabaseEngine.readPhase, htable, hselected, updateEntries_eq] at hread
      split at hread
      · cases hread
      · rename_i found hentries
        split at hentries
        · obtain rfl := Option.some.inj hentries
          obtain rfl := Except.ok.inj hread
          have hlive : ∀ idx row, table.contents.rows[idx]? = some (some row) → rowAt table.versionChains idx = some row := by
            intro idx row hrow
            rw [rowAt_eq, Option.join_eq_some_iff]
            exact hrow
          rw [List.forall_mem_map]
          constructor
          · rintro h ⟨definition, hdefinition, hunique, row, hrow, hfilter, hkey, hheld⟩
            obtain ⟨index, hindex, rfl⟩ := List.mem_map.mp hdefinition
            obtain ⟨idx, hidx⟩ := List.mem_iff_getElem?.mp hrow
            have hpassed := h (idx, row) (List.mem_filter.mpr ⟨mem_entries.mpr hidx, hfilter⟩) index hindex
            exact (Index.checkUnique_update (hpairs index hindex) (hlive idx row hidx)).mp hpassed ⟨hunique, hkey, hheld⟩
          · intro h entry hentry index hindex
            obtain ⟨hlisted, hfilter⟩ := List.mem_filter.mp hentry
            have hrow := mem_entries.mp hlisted
            refine (Index.checkUnique_update (hpairs index hindex) (hlive entry.1 entry.2 hrow)).mpr ?_
            rintro ⟨hunique, hkey, hheld⟩
            exact h ⟨index.definition, List.mem_map_of_mem hindex, hunique, entry.2, List.mem_of_getElem? hrow, hfilter, hkey,
              hheld⟩
        · cases hentries
  | delete filter =>
      simp only [DatabaseEngine.readPhase, htable, Except.ok.injEq] at hread
      subst hread
      refine iff_of_true ?_ id
      rw [deleteEntries, List.forall_mem_map]
      exact fun _ _ _ _ => trivial

/-! ### Statements that write -/

/-- What a commit on one table that returned Ok leaves. -/
theorem Steady.plain_commit (h : engine.Steady)
    (hok : (engine.begin.2.commit orders (engine.beginWith entries)).1 = .ok ())
    (hnamed : ∀ entry ∈ entries, entry.tableName = name) :
    (engine.begin.2.commit orders (engine.beginWith entries)).2.2.plain =
      engine.plain.onTable name fun table => { table with rows := placedEntries entries table.rows } := by
  funext other
  rw [PlainTables.onTable]
  cases hother : findTable other engine.tables with
  | none =>
      have hschema := findTable_schema (commit_frame engine.begin.2 orders (engine.beginWith entries)).1 other
      rw [show findTable other engine.begin.2.tables = none from hother, Option.map_none] at hschema
      have hgone : engine.plain other = none := plain_eq_none_iff.mpr hother
      rw [plain_eq_none_iff.mpr (Option.map_eq_none_iff.mp hschema)]
      by_cases hname : other = name
      · subst hname
        rw [Function.update_self, hgone, Option.map_none]
      · rw [Function.update_of_ne hname, hgone]
  | some table =>
      obtain ⟨after, hafter, -, hcolumns, hmaintained, hrows⟩ := h.contents_commit hok hother
      have hdefinitions : after.definitions = table.definitions := definitions_of_maintained hmaintained
      have hentries := @entriesOf_of_named (engine.beginWith entries) name hnamed other
      rw [plain_of_find hafter, hcolumns, hdefinitions, hrows, hentries]
      by_cases hname : other = name
      · subst hname
        rw [Function.update_self, plain_of_find hother, if_pos rfl]
        rfl
      · rw [Function.update_of_ne hname, plain_of_find hother, if_neg hname]
        rfl

/-- A statement commits what its read phase computed, unless that is nothing. -/
theorem pending_plan :
    engine.pending (.execute (statement.plan name)) =
      ((engine.readPhase name statement).1.toOption.filter fun entries => !statement.skipsWrite entries).map
        fun entries => ((engine.readPhase name statement).2.begin.2, (engine.readPhase name statement).2.beginWith entries) := by
  cases htable : findTable name engine.tables with
  | none => cases statement <;> simp [pending, commitOf, RowStatement.plan, readPhase, htable, Except.toOption]
  | some table =>
      cases statement with
      | insert new =>
          simp [pending, commitOf, RowStatement.plan, readPhase, htable, Except.toOption, RowStatement.skipsWrite]
      | update assignments filter =>
          cases hentries : updateEntries name assignments (engine.selectRows table filter) with
          | none => simp [pending, commitOf, RowStatement.plan, readPhase, htable, hentries, Except.toOption]
          | some found =>
              by_cases hempty : found = [] <;> simp [pending, commitOf, RowStatement.plan, readPhase, htable, hentries,
                Except.toOption, RowStatement.skipsWrite, Option.filter, hempty]
      | delete filter =>
          by_cases hempty : deleteEntries name (engine.selectRows table filter) = [] <;>
            simp [pending, commitOf, RowStatement.plan, readPhase, htable, Except.toOption, RowStatement.skipsWrite,
              Option.filter, hempty]

theorem plain_of_tables {left right : DatabaseEngine} (h : left.tables = right.tables) : left.plain = right.plain := by
  funext name
  rw [plain, plain, h]

/-- Maintenance puts the keys of the rows that a statement writes into an index, each at the position of its row. -/
theorem Steady.written_of_add (h : engine.Steady) (hread : (engine.readPhase name statement).1 = .ok entries)
    (htable : findTable name engine.tables = some table) {definition : IndexMeta} {key : List Datum} {idx : Nat}
    (hadd : .add key idx ∈ indexChanges (snapshotTables engine.tables) definition entries) :
    ∃ row, statement.Writes table.contents.rows idx ∧
      (statement.meaning table.contents.rows)[idx]? = some (some row) ∧ definition.extractKey row = key := by
  obtain ⟨entry, hentry, hchange⟩ := List.mem_flatMap.mp hadd
  have hselected := h.selectRows_eq (h.wellFormed.findTable_eq_some.mp htable).1
  cases statement with
  | insert new =>
      simp only [DatabaseEngine.readPhase, htable, Except.ok.injEq] at hread
      subst hread
      obtain ⟨placed, hplaced, rfl⟩ := List.mem_map.mp hentry
      obtain ⟨rfl, rfl⟩ := KeyPairs.Change.add.inj (List.mem_singleton.mp hchange)
      have hcount : table.contents.rows.length = table.rowCount := by
        rw [Table.contents, List.length_map]
        rfl
      refine ⟨placed.1, hcount.trans_le (Nat.le_add_right _ _), ?_, rfl⟩
      rw [RowStatement.meaning, List.getElem?_append_right (hcount.trans_le (Nat.le_add_right _ _)), hcount,
        Nat.add_sub_cancel_left, List.getElem?_map, List.mem_zipIdx_iff_getElem?.mp hplaced]
      rfl
  | update assignments filter =>
      simp only [DatabaseEngine.readPhase, htable, hselected, updateEntries_eq] at hread
      split at hread
      · cases hread
      · rename_i found hentries
        split at hentries
        · obtain rfl := Option.some.inj hentries
          obtain rfl := Except.ok.inj hread
          obtain ⟨⟨position, row⟩, hlisted, rfl⟩ := List.mem_map.mp hentry
          obtain ⟨hrow, hfilter⟩ := List.mem_filter.mp hlisted
          have hthere := mem_entries.mp hrow
          have hnew : key = definition.extractKey (assignedRow assignments row) ∧ idx = position := by
            unfold WriteOp.keyChanges updateEntry at hchange
            dsimp only at hchange
            split at hchange
            · rcases List.mem_cons.mp hchange with hdrop | hadd
              · cases hdrop
              · obtain ⟨rfl, rfl⟩ := KeyPairs.Change.add.inj (List.mem_singleton.mp hadd)
                exact ⟨rfl, rfl⟩
            · cases hchange
          obtain ⟨rfl, rfl⟩ := hnew
          refine ⟨assignedRow assignments row, ⟨row, hthere, hfilter⟩, ?_, rfl⟩
          rw [RowStatement.meaning, List.getElem?_map, hthere, Option.map_some, Option.map_some, if_pos hfilter]
        · cases hentries
  | delete filter =>
      simp only [DatabaseEngine.readPhase, htable, Except.ok.injEq] at hread
      subst hread
      obtain ⟨placed, -, rfl⟩ := List.mem_map.mp hentry
      unfold WriteOp.keyChanges at hchange
      dsimp only at hchange
      split at hchange
      · cases List.mem_singleton.mp hchange
      · cases hchange

/-- Maintenance finds the old row of each entry of a statement. -/
theorem Steady.oldRow_found (h : engine.Steady) (hread : (engine.readPhase name statement).1 = .ok entries)
    (htable : findTable name engine.tables = some table) {entry : WriteEntry} (hentry : entry ∈ entries) :
    ¬ entry.operation.LacksOldRow (oldRowOf (snapshotTables engine.tables) entry) := by
  have hselected := h.selectRows_eq (h.wellFormed.findTable_eq_some.mp htable).1
  cases statement with
  | insert new =>
      simp only [DatabaseEngine.readPhase, htable, Except.ok.injEq] at hread
      subst hread
      obtain ⟨placed, -, rfl⟩ := List.mem_map.mp hentry
      exact id
  | update assignments filter =>
      simp only [DatabaseEngine.readPhase, htable, hselected, updateEntries_eq] at hread
      split at hread
      · cases hread
      · rename_i found hentries
        split at hentries
        · obtain rfl := Option.some.inj hentries
          obtain rfl := Except.ok.inj hread
          obtain ⟨⟨position, row⟩, hlisted, rfl⟩ := List.mem_map.mp hentry
          have hthere := mem_entries.mp (List.mem_filter.mp hlisted).1
          intro hnone
          have hold := h.oldRowOf_eq (updateEntry name assignments (position, row))
          rw [updateEntry, htable, Option.map_some, Option.bind_some, hthere] at hold
          cases hold.symm.trans hnone
        · cases hentries
  | delete filter =>
      simp only [DatabaseEngine.readPhase, htable, Except.ok.injEq] at hread
      subst hread
      obtain ⟨placed, -, rfl⟩ := List.mem_map.mp hentry
      exact id

/-- A statement that leaves keys apart commits. -/
theorem Kept.commitSafe (h : engine.Kept) (hread : (engine.readPhase name statement).1 = .ok entries)
    (htable : findTable name engine.tables = some table)
    (hapart : statement.LeavesApart table.definitions table.contents.rows) {start : DatabaseEngine} (hwf : start.WellFormed)
    (htables : start.tables = engine.tables) : start.begin.2.CommitSafe (start.beginWith entries) := by
  obtain ⟨hmem, hname⟩ := h.wellFormed.findTable_eq_some.mp htable
  have hnamed := (readPhase_known hread).2
  have hbegun : start.begin.2.WellFormed := hwf.of_frame rfl (.refl _) rfl
  have hsame : start.begin.2.tables = engine.tables := htables
  refine ⟨fun other hother => ?_, fun other hother found hfound index hindex => ⟨fun entry hentry => ?_, ?_⟩⟩
  · obtain ⟨entry, hentry, rfl⟩ := Transaction.mem_tableNames.mp hother
    rw [hnamed entry hentry, ← hname]
    exact hbegun.holds (List.mem_map_of_mem (hsame ▸ hmem))
  · rw [hsame]
    exact h.toSteady.oldRow_found hread htable (Transaction.mem_entriesOf.mp hentry).1
  · obtain ⟨entry, hentry, rfl⟩ := Transaction.mem_tableNames.mp hother
    rw [hsame, hnamed entry hentry] at hfound
    rw [hsame, hnamed entry hentry]
    obtain rfl := Option.some.inj (htable.symm.trans hfound)
    rw [h.consistent table hmem index hindex, @entriesOf_of_named (start.beginWith entries) name hnamed name, if_pos rfl]
    cases hunique : index.definition.isUnique with
    | false => exact KeyPairs.admissible_of_not_unique _ _
    | true =>
        obtain ⟨found, hfound', hrange, -⟩ := h.toSteady.readPhase_ok hread
        obtain rfl := Option.some.inj (htable.symm.trans hfound')
        have hleaves := hapart index.definition (List.mem_map_of_mem hindex) hunique
        refine KeyPairs.admissible_of_apart (fun key idx other hadd hheld => ?_) fun key idx other hadd hother => ?_
        · obtain ⟨row, hwrites, hrow, rfl⟩ := h.toSteady.written_of_add hread htable hadd
          obtain ⟨held, hheld, hkey⟩ := hheld
          rw [rowAt_eq, Option.join_eq_some_iff] at hheld
          obtain ⟨kept, hkept, hsame⟩ := RowStatement.key_kept hrange hwrites hrow hheld hkey
          exact hleaves idx other row kept hwrites hrow hkept hsame
        · obtain ⟨row, hwrites, hrow, rfl⟩ := h.toSteady.written_of_add hread htable hadd
          obtain ⟨held, -, hheld, hsame⟩ := h.toSteady.written_of_add hread htable hother
          exact hleaves idx other row held hwrites hrow hheld hsame

/-- The rows change as the statement says. -/
theorem onTable_placed {tables : PlainTables} {table : PlainTable} (htable : tables name = some table)
    (hrows : placedEntries entries table.rows = statement.meaning table.rows) :
    (tables.onTable name fun table => { table with rows := placedEntries entries table.rows }) =
      tables.onTable name (PlainTable.onRows statement) := by
  rw [PlainTables.onTable, PlainTables.onTable, htable, Option.map_some, Option.map_some, hrows]
  rfl

theorem done_of_rows {tables : PlainTables} {count : Nat} (h : statement.Done name tables count) :
    (statement.plan name).Done tables count := by
  cases statement <;> exact h

theorem refused_of_rows {tables : PlainTables} (h : statement.Refused name tables) :
    (statement.plan name).Refused tables := by
  cases statement <;> exact h

theorem inRange_of_fits {tables : PlainTables} (h : (statement.plan name).Fits tables) {table : PlainTable}
    (htable : tables name = some table) : ¬ statement.OutOfRange table.rows := by
  cases statement with
  | update assignments filter => exact h table htable
  | insert new => exact id
  | delete filter => exact id

theorem meaning_of_rows (tables : PlainTables) :
    (statement.plan name).meaning tables = tables.onTable name (PlainTable.onRows statement) := by
  cases statement <;> rfl

/-- The second phase of a statement: refused where a row clashes, or done. -/
theorem Kept.plainStep_write (h : engine.Kept) (hread : (engine.readPhase name statement).1 = .ok entries)
    (hroom : engine.CounterRoom) (hsafe : (engine.readPhase name statement).2.AcceptedSafe (writeCall orders entries)) :
    PlainStep engine.plain (.statement (statement.plan name) orders)
      ((engine.readPhase name statement).2.writePhase orders entries).1
      ((engine.readPhase name statement).2.writePhase orders entries).2.plain := by
  obtain ⟨table, htable, -, hrows, hlength⟩ := h.toSteady.readPhase_ok hread
  have hchecks := h.checkUniqueWrites_ok_iff hread htable
  have hsteady := h.toSteady.readPhase hroom name statement
  have htables := readPhase_tables engine name statement
  have hplain := plain_of_tables htables
  have hfound := plain_of_find htable
  generalize (engine.readPhase name statement).2 = after at hsteady htables hplain hsafe
  have hchecked : checkUniqueWrites (after.beginWith entries) (snapshotTables after.tables) =
      checkUniqueWrites (engine.beginWith entries) (snapshotTables engine.tables) := by
    rw [htables]
    rfl
  cases hresult : checkUniqueWrites (engine.beginWith entries) (snapshotTables engine.tables) with
  | error err =>
      rw [hresult] at hchecked hchecks
      rw [hsteady.writePhase_refused hchecked]
      have hsame : after.begin.2.plain = engine.plain := plain_of_tables htables
      rw [hsame]
      refine .refused _ _ err (refused_of_rows fun found hgiven => ?_)
      obtain rfl := Option.some.inj (hfound.symm.trans hgiven)
      by_contra hclear
      cases hchecks.mpr hclear
  | ok u =>
      rw [hresult] at hchecked hchecks
      have haccept : ChecksAccept (after.beginWith entries) (snapshotTables after.tables) :=
        ⟨hsteady.checkConflicts_ok entries, hchecked⟩
      have hcommit : (after.begin.2.commit orders (after.beginWith entries)).1 = .ok () :=
        (commit_ok_iff hsteady.begun rfl haccept).mpr (hsafe _ _ (pending_writeCall after orders entries) haccept)
      rw [writePhase_eq, hcommit, hsteady.plain_commit hcommit (readPhase_known hread).2, hplain,
        onTable_placed hfound hrows, ← meaning_of_rows]
      exact .done _ _ _ (done_of_rows ⟨_, hfound, hchecks.mp rfl, hlength⟩)

/-- An INSERT, UPDATE or DELETE is a step of the plain tables. -/
theorem Kept.plainStep_rows (h : engine.Kept)
    (hguard : SteadyGuard engine { op := .execute (statement.plan name), orders })
    (hfits : (statement.plan name).Fits engine.plain) :
    PlainStep engine.plain (.statement (statement.plan name) orders) (engine.execute orders (statement.plan name)).1
      (engine.execute orders (statement.plan name)).2.plain := by
  have hplain := plain_of_tables (readPhase_tables engine name statement)
  cases hread : (engine.readPhase name statement).1 with
  | error err =>
      have hexecuted : engine.execute orders (statement.plan name) = (.error err, (engine.readPhase name statement).2) := by
        rw [execute_plan, ← Prod.mk.eta (p := engine.readPhase name statement), hread]
      rw [hexecuted, hplain]
      refine .refused _ _ err (refused_of_rows fun found hfound => ?_)
      rcases h.toSteady.readPhase_error hread with hnone | ⟨table, htable, hrange⟩
      · rw [plain_eq_none_iff.mpr hnone] at hfound
        cases hfound
      · exact absurd hrange (inRange_of_fits hfits (plain_of_find htable))
  | ok entries =>
      cases hskips : statement.skipsWrite entries with
      | false =>
          have hexecuted : engine.execute orders (statement.plan name) =
              (engine.readPhase name statement).2.writePhase orders entries := by
            rw [execute_plan, ← Prod.mk.eta (p := engine.readPhase name statement), hread]
            dsimp only
            rw [hskips, if_neg Bool.false_ne_true]
          rw [hexecuted]
          refine h.plainStep_write hread hguard.room fun begun tx hpending haccept => ?_
          refine hguard.safe begun tx ?_ (readPhase_tables engine name statement ▸ haccept)
          rw [pending_plan, hread, ← hpending]
          simp [Except.toOption, hskips, pending_writeCall]
      | true =>
          have hexecuted : engine.execute orders (statement.plan name) = (.ok 0, (engine.readPhase name statement).2) := by
            rw [execute_plan, ← Prod.mk.eta (p := engine.readPhase name statement), hread]
            dsimp only
            rw [hskips, if_pos rfl]
          have hnone : entries = [] := by
            cases statement with
            | insert new => cases hskips
            | update assignments filter => exact List.isEmpty_iff.mp hskips
            | delete filter => exact List.isEmpty_iff.mp hskips
          subst hnone
          obtain ⟨table, htable, -, hrows, hlength⟩ := h.toSteady.readPhase_ok hread
          have hclear := (h.checkUniqueWrites_ok_iff hread htable).mp rfl
          have hunchanged : (statement.plan name).meaning engine.plain = engine.plain := by
            rw [meaning_of_rows, ← onTable_placed (plain_of_find htable) hrows, PlainTables.onTable, plain_of_find htable]
            exact Function.update_eq_self_iff.mpr (plain_of_find htable).symm
          have hdone : PlainStep engine.plain (.statement (statement.plan name) orders) (.ok 0)
              ((statement.plan name).meaning engine.plain) :=
            .done _ _ _ (done_of_rows ⟨_, plain_of_find htable, hclear, hlength⟩)
          rw [hexecuted, hplain]
          rwa [hunchanged] at hdone

/-- Where a statement that is not stopped leaves keys apart, its commit is safe if its checks accept it. -/
theorem Kept.acceptedSafe_rows (h : engine.Kept) (hroom : engine.CounterRoom)
    (hapart : statement.KeepsApart name engine.plain) :
    engine.AcceptedSafe { op := .execute (statement.plan name), orders } := by
  intro begun tx hpending haccept
  have hcommits : engine.pending (.execute (statement.plan name)) = some (begun, tx) := hpending
  rw [pending_plan, Option.map_eq_some_iff] at hcommits
  obtain ⟨entries, hentries, heq⟩ := hcommits
  obtain ⟨rfl, rfl⟩ := Prod.mk.inj heq
  have hread : (engine.readPhase name statement).1 = .ok entries := by
    cases hresult : (engine.readPhase name statement).1 with
    | error err =>
        rw [hresult] at hentries
        cases hentries
    | ok found =>
        rw [hresult, Except.toOption, Option.filter_eq_some_iff] at hentries
        rw [Option.some.inj hentries.1]
  obtain ⟨table, htable, -⟩ := h.toSteady.readPhase_ok hread
  refine h.commitSafe hread htable (hapart _ (plain_of_find htable) ?_) (h.toSteady.readPhase hroom name statement).wellFormed
    (readPhase_tables engine name statement)
  exact (h.checkUniqueWrites_ok_iff hread htable).mp haccept.2

end DatabaseEngine

end HelionDb
