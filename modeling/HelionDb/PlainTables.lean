import HelionDb.ConcurrentStatements
import HelionDb.RowWrites
import HelionDb.Uniqueness

/-! Tables without versions, ids or logs: a schema, index definitions, and a row or none at each position. What SQL says
of a statement is said of them: what it does to the rows, how many it is for, and when it is refused because a row that
it writes has a key that another row holds. The rows that a statement of a database writes, put in their places, are
those that it says. -/

namespace HelionDb

/-! ### Plain tables -/

/-- A schema, the definitions of the indexes, and the row of each position. -/
@[ext] structure PlainTable where
  columns : List ColumnMeta
  indexes : List IndexMeta
  rows : List (Option Row)

/-- The tables of a database by their names. -/
abbrev PlainTables := String → Option PlainTable

/-- The values of a row after the assignments of an UPDATE. -/
def assignedRow (assignments : List (Nat × Datum)) (row : Row) : Row :=
  { values := (assign row.values assignments).getD row.values }

/-- A row holds this key, which is not NULL throughout. -/
def KeyHeld (definition : IndexMeta) (rows : List (Option Row)) (key : List Datum) : Prop :=
  key.all Datum.isNull = false ∧ ∃ held, some held ∈ rows ∧ definition.extractKey held = key

namespace RowStatement

/-- What a statement says of the rows of its table. -/
def meaning : RowStatement → List (Option Row) → List (Option Row)
  | insert new, rows => rows ++ new.map some
  | update assignments filter, rows =>
      rows.map (Option.map fun row => if filter row then assignedRow assignments row else row)
  | delete filter, rows => rows.map (Option.filter fun row => !filter row)

/-- How many rows it is for. -/
def affects : RowStatement → List (Option Row) → Nat
  | insert new, _ => new.length
  | update _ filter, rows => rows.countP fun row => row.any filter
  | delete filter, rows => rows.countP fun row => row.any filter

/-- A row that it writes gets a key of a unique index that a row holds already. -/
def Clashes (indexes : List IndexMeta) (rows : List (Option Row)) : RowStatement → Prop
  | insert new => ∃ definition ∈ indexes, definition.isUnique = true ∧
      ∃ row ∈ new, KeyHeld definition rows (definition.extractKey row)
  | update assignments filter => ∃ definition ∈ indexes, definition.isUnique = true ∧
      ∃ row, some row ∈ rows ∧ filter row = true ∧
        definition.extractKey row ≠ definition.extractKey (assignedRow assignments row) ∧
        KeyHeld definition rows (definition.extractKey (assignedRow assignments row))
  | delete _ => False

/-- It writes the row of this position. -/
def Writes (rows : List (Option Row)) (idx : Nat) : RowStatement → Prop
  | insert _ => rows.length ≤ idx
  | update _ filter => ∃ row, rows[idx]? = some (some row) ∧ filter row = true
  | delete _ => False

/-- No row that it writes is left with a key of a unique index that another row has too, NULL or not. -/
def LeavesApart (indexes : List IndexMeta) (rows : List (Option Row)) (statement : RowStatement) : Prop :=
  ∀ definition ∈ indexes, definition.isUnique = true → ∀ (idx other : Nat) (row held : Row), statement.Writes rows idx →
    (statement.meaning rows)[idx]? = some (some row) → (statement.meaning rows)[other]? = some (some held) →
      definition.extractKey held = definition.extractKey row → other = idx

/-- Keys that differ from one position to the next are apart. -/
theorem leavesApart_of_pairwise {indexes : List IndexMeta} {rows : List (Option Row)} {statement : RowStatement}
    (h : ∀ definition ∈ indexes, ((statement.meaning rows).map (Option.map definition.extractKey)).Pairwise
      fun left right => left = none ∨ left ≠ right) : statement.LeavesApart indexes rows := by
  intro definition hdefinition _ idx other row held _ hrow hheld hkey
  have hapart : ∀ (first second : Nat) (left right : Row), first < second →
      (statement.meaning rows)[first]? = some (some left) → (statement.meaning rows)[second]? = some (some right) →
        definition.extractKey left ≠ definition.extractKey right := by
    intro first second left right hlt hleft hright hsame
    obtain ⟨hfirst, hleft⟩ := List.getElem?_eq_some_iff.mp hleft
    obtain ⟨hsecond, hright⟩ := List.getElem?_eq_some_iff.mp hright
    have hpair := List.pairwise_iff_getElem.mp (h definition hdefinition) first second (by simpa using hfirst)
      (by simpa using hsecond) hlt
    simp [hleft, hright, hsame] at hpair
  rcases Nat.lt_trichotomy idx other with hlt | hsame | hlt
  · exact absurd hkey.symm (hapart idx other row held hlt hrow hheld)
  · exact hsame.symm
  · exact absurd hkey (hapart other idx held row hlt hheld hrow)

/-- It assigns to a column that a row it is for does not have. -/
def OutOfRange (rows : List (Option Row)) : RowStatement → Prop
  | update assignments filter => ∃ row, some row ∈ rows ∧ filter row = true ∧ assign row.values assignments = none
  | insert _ | delete _ => False

end RowStatement

namespace PlainTables

/-- One table changes. -/
def onTable (name : String) (change : PlainTable → PlainTable) (tables : PlainTables) : PlainTables :=
  Function.update tables name ((tables name).map change)

/-- A restart keeps the indexes that the schema demands and no others. -/
def restarted (tables : PlainTables) : PlainTables := fun name =>
  (tables name).map fun table => { table with indexes := (Table.new name table.columns).definitions }

end PlainTables

/-- A statement on the rows of a table. -/
def PlainTable.onRows (statement : RowStatement) (table : PlainTable) : PlainTable :=
  { table with rows := statement.meaning table.rows }

def PlainTable.hasIndex (name : String) (table : PlainTable) : Bool :=
  table.indexes.any fun definition => definition.name == name

/-- CREATE INDEX, unless there is an index of the name. -/
def PlainTable.withIndex (name : String) (columns : List String) (unique : Bool) (table : PlainTable) : PlainTable :=
  if table.hasIndex name then table
  else
    let positions := columns.filterMap fun column => table.columns.findIdx? fun candidate => candidate.name == column
    { table with indexes := table.indexes ++ [{ name, columns := positions, isUnique := unique }] }

/-- DROP INDEX, if there is an index of the name. -/
def PlainTable.withoutIndex (name : String) (table : PlainTable) : PlainTable :=
  { table with indexes := table.indexes.eraseP fun definition => definition.name == name }

/-- What a statement says of the tables. -/
def LogicalPlan.meaning : LogicalPlan → PlainTables → PlainTables
  | .createTable name columns _, tables =>
      Function.update tables name (some { columns, indexes := (Table.new name columns).definitions, rows := [] })
  | .dropTable name _, tables => Function.update tables name none
  | .insert name new, tables => tables.onTable name (PlainTable.onRows (.insert new))
  | .update name assignments filter, tables => tables.onTable name (PlainTable.onRows (.update assignments filter))
  | .delete name filter, tables => tables.onTable name (PlainTable.onRows (.delete filter))
  | .createIndex name table columns unique _, tables => tables.onTable table (PlainTable.withIndex name columns unique)
  | .dropIndex name table _, tables => tables.onTable table (PlainTable.withoutIndex name)
  | .alterTableEngine _ _, tables => tables

/-- When a statement on rows is done: its table is there, and no key clashes. -/
def RowStatement.Done (name : String) (tables : PlainTables) (count : Nat) (statement : RowStatement) : Prop :=
  ∃ table, tables name = some table ∧ ¬ statement.Clashes table.indexes table.rows ∧
    count = statement.affects table.rows

/-- When it is refused. -/
def RowStatement.Refused (name : String) (tables : PlainTables) (statement : RowStatement) : Prop :=
  ∀ table, tables name = some table → statement.Clashes table.indexes table.rows

/-- What is said of the tables where a statement is done, with the number of rows it reports. -/
def LogicalPlan.Done (tables : PlainTables) (count : Nat) : LogicalPlan → Prop
  | .createTable name _ _ => count = 0 ∧ ∀ other, (tables other).isSome = true → eqIgnoreAsciiCase other name = false
  | .dropTable name ifExists => count = 0 ∧ ((tables name).isSome = true ∨ ifExists = true)
  | .insert name new => (RowStatement.insert new).Done name tables count
  | .update name assignments filter => (RowStatement.update assignments filter).Done name tables count
  | .delete name filter => (RowStatement.delete filter).Done name tables count
  | .createIndex name table _ _ ifNotExists => ∃ found, tables table = some found ∧
      if found.hasIndex name then ifNotExists = true ∧ count = 0 else count = 1
  | .dropIndex name table ifExists => count = 1 ∧
      ((∃ found, tables table = some found ∧ found.hasIndex name = true) ∨ ifExists = true)
  | .alterTableEngine _ _ => count = 0

/-- What is said of the tables where a statement is refused. CREATE and ALTER have other reasons for it too: an engine or a
column that is not known, or rows that a new unique index does not hold. -/
def LogicalPlan.Refused (tables : PlainTables) : LogicalPlan → Prop
  | .insert name new => (RowStatement.insert new).Refused name tables
  | .update name assignments filter => (RowStatement.update assignments filter).Refused name tables
  | .delete name filter => (RowStatement.delete filter).Refused name tables
  | .dropTable name ifExists => tables name = none ∧ ifExists = false
  | .dropIndex name table ifExists => (∀ found, tables table = some found → found.hasIndex name = false) ∧ ifExists = false
  | .createTable _ _ _ | .createIndex _ _ _ _ _ | .alterTableEngine _ _ => True

/-- A statement on rows that no held key stops leaves the keys of unique indexes apart. -/
def RowStatement.KeepsApart (name : String) (tables : PlainTables) (statement : RowStatement) : Prop :=
  ∀ table, tables name = some table → ¬ statement.Clashes table.indexes table.rows →
    statement.LeavesApart table.indexes table.rows

def LogicalPlan.KeepsApart (tables : PlainTables) : LogicalPlan → Prop
  | .insert name new => (RowStatement.insert new).KeepsApart name tables
  | .update name assignments filter => (RowStatement.update assignments filter).KeepsApart name tables
  | .delete name filter => (RowStatement.delete filter).KeepsApart name tables
  | _ => True

/-- The rows of an INSERT fit the columns of its table, and the columns that an UPDATE sets are there: the code panics where
one is not. -/
def LogicalPlan.Fits (tables : PlainTables) : LogicalPlan → Prop
  | .insert name new => ∀ table, tables name = some table → ∀ row ∈ new, RowFits table.columns row
  | .update name assignments filter =>
      ∀ table, tables name = some table → ¬ (RowStatement.update assignments filter).OutOfRange table.rows
  | _ => True

/-- What happens to a client of one database: its statements, checkpoints of the engine's loop, of which each copies the
tables and appends its record between two calls, and restarts after the process was stopped, between two calls or when so
many operations of a shutdown were done, of which the append of the checkpoint is one. -/
inductive ClientCall where
  | statement (plan : LogicalPlan) (orders : CommitOrders)
  | checkpoint
  | restart (stopped : Nat) (defaultEngine : String) (loaded : String → Option Table)

/-- A step of the plain tables: a statement that is refused leaves them, one that is done leaves what it says. -/
inductive PlainStep (tables : PlainTables) : ClientCall → Except HelionError Nat → PlainTables → Prop
  | refused (plan : LogicalPlan) (orders : CommitOrders) (err : HelionError) (hrefused : plan.Refused tables) :
      PlainStep tables (.statement plan orders) (.error err) tables
  | done (plan : LogicalPlan) (orders : CommitOrders) (count : Nat) (hdone : plan.Done tables count) :
      PlainStep tables (.statement plan orders) (.ok count) (plan.meaning tables)
  | checkpointed : PlainStep tables .checkpoint (.ok 0) tables
  | restarted (stopped : Nat) (defaultEngine : String) (loaded : String → Option Table) :
      PlainStep tables (.restart stopped defaultEngine loaded) (.ok 0) tables.restarted

/-- A run of calls with their results. -/
inductive PlainRun : PlainTables → List (ClientCall × Except HelionError Nat) → PlainTables → Prop
  | nil (tables : PlainTables) : PlainRun tables [] tables
  | cons {tables next final : PlainTables} {call : ClientCall} {result : Except HelionError Nat}
      {rest : List (ClientCall × Except HelionError Nat)} (hstep : PlainStep tables call result next)
      (hrest : PlainRun next rest final) : PlainRun tables ((call, result) :: rest) final

/-- Where one of two lookups finds all that the other does, they give the same list only if they agree. -/
theorem agree_of_filterMap_eq {α β : Type} {left right : α → Option β} {items : List α}
    (hnested : ∀ item, (right item).isSome = true → (left item).isSome = true)
    (h : items.filterMap left = items.filterMap right) : ∀ item ∈ items, left item = right item := by
  have hlength : ∀ rest : List α, (rest.filterMap right).length ≤ (rest.filterMap left).length := by
    intro rest
    rw [List.length_filterMap_eq_countP, List.length_filterMap_eq_countP]
    exact List.countP_mono_left fun item _ => hnested item
  induction items with
  | nil => exact List.forall_mem_nil _
  | cons first rest ih =>
      rw [List.filterMap_cons, List.filterMap_cons] at h
      cases hleft : left first with
      | none =>
          cases hright : right first with
          | none =>
              rw [hleft, hright] at h
              exact List.forall_mem_cons.mpr ⟨hleft.trans hright.symm, ih h⟩
          | some value =>
              have hfound := hnested first
              rw [hright, hleft] at hfound
              cases hfound rfl
      | some value =>
          cases hright : right first with
          | none =>
              rw [hleft, hright] at h
              have hrest := hlength rest
              dsimp only at h
              rw [← h, List.length_cons] at hrest
              omega
          | some other =>
              rw [hleft, hright] at h
              obtain ⟨rfl, hrest⟩ := List.cons.inj h
              exact List.forall_mem_cons.mpr ⟨hleft.trans hright.symm, ih hrest⟩

/-- Rows with the same key have the same values in its columns. -/
theorem values_of_extractKey_eq {definition : IndexMeta} {row held : Row}
    (h : definition.extractKey held = definition.extractKey row) :
    ∀ column ∈ definition.columns, held.values[column]? = row.values[column]? := by
  have hnested : ∀ left right : Row, left.values.length ≤ right.values.length → ∀ column : Nat,
      (left.values[column]?).isSome = true → (right.values[column]?).isSome = true := by
    intro left right hle column
    simp only [isSome_getElem?]
    omega
  rcases Nat.le_total row.values.length held.values.length with hle | hle
  · exact agree_of_filterMap_eq (hnested row held hle) h
  · intro column hcolumn
    exact (agree_of_filterMap_eq (hnested held row hle) h.symm column hcolumn).symm

/-- A row whose key an assignment gives to another keeps it under the assignment. -/
theorem extractKey_assignedRow {definition : IndexMeta} {assignments : List (Nat × Datum)} {row held : Row}
    (hrow : assign row.values assignments ≠ none) (hheld : assign held.values assignments ≠ none)
    (h : definition.extractKey held = definition.extractKey (assignedRow assignments row)) :
    definition.extractKey (assignedRow assignments held) = definition.extractKey held := by
  have hassigned : ∀ given : Row, assign given.values assignments ≠ none →
      (assignedRow assignments given).values = writeAll given.values assignments := by
    intro given hgiven
    obtain ⟨values, hvalues⟩ := Option.ne_none_iff_exists'.mp hgiven
    rw [assignedRow, hvalues, ← eq_writeAll_of_assign hvalues]
    rfl
  have hvalues := values_of_extractKey_eq h
  refine List.filterMap_congr fun column hcolumn => ?_
  have hsame := hvalues column hcolumn
  rw [hassigned row hrow, getElem?_writeAll] at hsame
  rw [hassigned held hheld, getElem?_writeAll]
  cases hlast : lastAt column assignments with
  | none => simp
  | some value =>
      rw [hsame, hlast, Option.map_map]
      rfl

/-- A row that has the key of a written row before a statement has it afterwards. -/
theorem RowStatement.key_kept {statement : RowStatement} {rows : List (Option Row)} {definition : IndexMeta}
    {idx other : Nat} {row held : Row} (hrange : ¬ statement.OutOfRange rows) (hwrites : statement.Writes rows idx)
    (hrow : (statement.meaning rows)[idx]? = some (some row)) (hheld : rows[other]? = some (some held))
    (hkey : definition.extractKey held = definition.extractKey row) :
    ∃ kept, (statement.meaning rows)[other]? = some (some kept) ∧
      definition.extractKey kept = definition.extractKey row := by
  cases statement with
  | insert new =>
      refine ⟨held, ?_, hkey⟩
      rw [meaning, List.getElem?_append_left (List.getElem?_eq_some_iff.mp hheld).1, hheld]
  | update assignments filter =>
      have hassign : ∀ (given : Nat) (found : Row), rows[given]? = some (some found) → filter found = true →
          assign found.values assignments ≠ none := by
        intro given found hfound hfilter hnone
        exact hrange ⟨found, List.mem_of_getElem? hfound, hfilter, hnone⟩
      obtain ⟨old, hold, hfilter⟩ := hwrites
      rw [meaning, List.getElem?_map, hold, Option.map_some, Option.map_some, if_pos hfilter, Option.some.injEq,
        Option.some.injEq] at hrow
      subst hrow
      rw [meaning, List.getElem?_map, hheld, Option.map_some, Option.map_some]
      refine ⟨_, rfl, ?_⟩
      split
      · rename_i hselected
        rw [extractKey_assignedRow (hassign idx old hold hfilter) (hassign other held hheld hselected) hkey, hkey]
      · exact hkey
  | delete filter => exact hwrites.elim

/-! ### Rows in their places -/

/-- Rows placed at positions that are there, each once, stand there, and all others stay. -/
theorem getElem?_foldl_placeRow {rows : List (Option Row)} {changes : List (Nat × Option Row)}
    (hthere : ∀ change ∈ changes, change.1 < rows.length) (honce : (changes.map Prod.fst).Nodup) :
    (∀ change ∈ changes, (changes.foldl placeRow rows)[change.1]? = some change.2) ∧
      ∀ idx, idx ∉ changes.map Prod.fst → (changes.foldl placeRow rows)[idx]? = rows[idx]? := by
  induction changes generalizing rows with
  | nil => simp
  | cons first rest ih =>
      obtain ⟨hfirst, hrest⟩ := List.nodup_cons.mp honce
      have hlt := hthere first List.mem_cons_self
      have hplaced : placeRow rows first = rows.set first.1 first.2 := if_pos hlt
      have hthere' : ∀ change ∈ rest, change.1 < (placeRow rows first).length := by
        intro change hchange
        rw [hplaced, List.length_set]
        exact hthere change (List.mem_cons_of_mem _ hchange)
      obtain ⟨hput, hkept⟩ := ih hthere' hrest
      rw [List.foldl_cons]
      constructor
      · intro change hchange
        rcases List.mem_cons.mp hchange with rfl | hlater
        · rw [hkept _ hfirst, hplaced, List.getElem?_set_self hlt]
        · exact hput change hlater
      · intro idx hidx
        rw [List.map_cons, List.mem_cons, not_or] at hidx
        rw [hkept idx hidx.2, hplaced, List.getElem?_set_ne (Ne.symm hidx.1)]

theorem length_foldl_placeRow {rows : List (Option Row)} {changes : List (Nat × Option Row)}
    (hthere : ∀ change ∈ changes, change.1 < rows.length) : (changes.foldl placeRow rows).length = rows.length := by
  induction changes generalizing rows with
  | nil => rfl
  | cons first rest ih =>
      have hplaced : placeRow rows first = rows.set first.1 first.2 := if_pos (hthere first List.mem_cons_self)
      rw [List.foldl_cons, ih, hplaced, List.length_set]
      intro change hchange
      rw [hplaced, List.length_set]
      exact hthere change (List.mem_cons_of_mem _ hchange)

/-- Rows placed one after the other behind the last position. -/
theorem foldl_placeRow_behind (rows : List (Option Row)) (new : List Row) :
    ((new.zipIdx rows.length).map fun entry => (entry.2, some entry.1)).foldl placeRow rows = rows ++ new.map some := by
  induction new generalizing rows with
  | nil => simp
  | cons row rest ih =>
      have hplaced : placeRow rows (rows.length, some row) = rows ++ [some row] := if_neg (lt_irrefl _)
      have hlength : rows.length + 1 = (rows ++ [some row]).length := by simp
      rw [List.zipIdx_cons, List.map_cons, List.foldl_cons, hplaced, hlength, ih, List.map_cons, List.append_assoc]
      rfl

theorem mem_entries {contents : TableContents} {idx : Nat} {row : Row} :
    (idx, row) ∈ contents.entries ↔ contents.rows[idx]? = some (some row) := by
  rw [TableContents.entries, List.mem_filterMap]
  constructor
  · rintro ⟨entry, hentry, hrow⟩
    obtain ⟨found, hfound, hpair⟩ := Option.map_eq_some_iff.mp hrow
    obtain ⟨rfl, rfl⟩ := Prod.mk.inj hpair
    rw [List.mem_zipIdx_iff_getElem?.mp hentry, hfound]
  · intro hrow
    exact ⟨(some row, idx), List.mem_zipIdx_iff_getElem?.mpr hrow, rfl⟩

theorem nodup_entries (contents : TableContents) : (contents.entries.map Prod.fst).Nodup := by
  have hpositions : (contents.rows.zipIdx).Pairwise fun left right => left.2 < right.2 := by
    rw [← List.pairwise_map, List.zipIdx_map_snd]
    exact List.pairwise_lt_range'
  have hsorted : contents.entries.Pairwise fun left right => left.1 < right.1 := by
    refine hpositions.filterMap _ fun entry other hlt left hleft right hright => ?_
    obtain ⟨_, -, rfl⟩ := Option.map_eq_some_iff.mp hleft
    obtain ⟨_, -, rfl⟩ := Option.map_eq_some_iff.mp hright
    exact hlt
  exact (List.pairwise_map.mpr hsorted).imp Nat.ne_of_lt

/-- The rows that a filter takes are replaced where they stand. -/
theorem foldl_placeRow_selected (contents : TableContents) (filter : Row → Bool) (replace : Row → Option Row) :
    (((contents.entries.filter fun entry => filter entry.2).map fun entry => (entry.1, replace entry.2)).foldl placeRow
      contents.rows) = contents.rows.map fun row => row.bind fun row => if filter row then replace row else some row := by
  have hmem : ∀ change ∈ (contents.entries.filter fun entry => filter entry.2).map
      (fun entry => (entry.1, replace entry.2)), ∃ row, contents.rows[change.1]? = some (some row) ∧
        filter row = true ∧ change.2 = replace row := by
    intro change hchange
    obtain ⟨entry, hentry, rfl⟩ := List.mem_map.mp hchange
    obtain ⟨hlisted, hfilter⟩ := List.mem_filter.mp hentry
    exact ⟨entry.2, mem_entries.mp hlisted, hfilter, rfl⟩
  have hthere : ∀ change ∈ (contents.entries.filter fun entry => filter entry.2).map
      (fun entry => (entry.1, replace entry.2)), change.1 < contents.rows.length := by
    intro change hchange
    obtain ⟨row, hrow, -⟩ := hmem change hchange
    exact (List.getElem?_eq_some_iff.mp hrow).1
  have honce : (((contents.entries.filter fun entry => filter entry.2).map
      fun entry => (entry.1, replace entry.2)).map Prod.fst).Nodup := by
    rw [List.map_map]
    exact (nodup_entries contents).sublist ((List.filter_sublist).map Prod.fst)
  obtain ⟨hput, hkept⟩ := getElem?_foldl_placeRow hthere honce
  apply List.ext_getElem?
  intro idx
  rw [List.getElem?_map]
  cases hrow : contents.rows[idx]? with
  | none =>
      rw [Option.map_none, List.getElem?_eq_none_iff, length_foldl_placeRow hthere]
      exact List.getElem?_eq_none_iff.mp hrow
  | some held =>
      by_cases hselected : ∃ row, held = some row ∧ filter row = true
      · obtain ⟨row, rfl, hfilter⟩ := hselected
        have hlisted : (idx, row) ∈ contents.entries.filter fun entry => filter entry.2 :=
          List.mem_filter.mpr ⟨mem_entries.mpr hrow, hfilter⟩
        rw [hput (idx, replace row) (List.mem_map.mpr ⟨_, hlisted, rfl⟩), Option.map_some, Option.bind_some, if_pos hfilter]
      · rw [hkept, hrow, Option.map_some, Option.some.injEq]
        · cases held with
          | none => rfl
          | some row =>
              rw [Option.bind_some, if_neg fun hfilter => hselected ⟨row, rfl, hfilter⟩]
        · intro hmoved
          obtain ⟨change, hchange, rfl⟩ := List.mem_map.mp hmoved
          obtain ⟨row, hheld, hfilter, -⟩ := hmem change hchange
          exact hselected ⟨row, Option.some.inj (hrow.symm.trans hheld), hfilter⟩

theorem length_selected (contents : TableContents) (filter : Row → Bool) :
    (contents.entries.filter fun entry => filter entry.2).length = contents.rows.countP fun row => row.any filter := by
  have hrows : contents.rows = contents.rows.zipIdx.map Prod.fst := by simp
  conv_rhs => rw [hrows, List.countP_map]
  rw [← List.countP_eq_length_filter, TableContents.entries, List.countP_filterMap]
  congr 1
  funext entry
  cases hrow : entry.1 <;> simp [hrow]

/-- The entries of a statement, on the live rows of its table. -/
def placedEntries (entries : List WriteEntry) (rows : List (Option Row)) : List (Option Row) :=
  (entries.filterMap (entryRow (some rows))).foldl placeRow rows

/-- The entry that an UPDATE writes for a row. -/
def updateEntry (name : String) (assignments : List (Nat × Datum)) (entry : Nat × Row) : WriteEntry :=
  { tableName := name, rowIdx := entry.1, oldTxidMax := u64Max, operation := .update (assignedRow assignments entry.2) }

section Entries

variable {name : String} {assignments : List (Nat × Datum)} {entries : List WriteEntry} {contents : TableContents}
  {filter : Row → Bool}

/-- An UPDATE has an entry for every row that it selects, unless one lacks a column. -/
theorem updateEntries_eq (selected : List (Nat × Row)) :
    updateEntries name assignments selected =
      if ∀ entry ∈ selected, assign entry.2.values assignments ≠ none then
        some (selected.map (updateEntry name assignments))
      else none := by
  induction selected with
  | nil => simp [updateEntries]
  | cons first rest ih =>
      obtain ⟨rowIdx, row⟩ := first
      rw [updateEntries, ih]
      cases hvalues : assign row.values assignments with
      | none => simp [hvalues]
      | some values =>
          by_cases hrest : ∀ entry ∈ rest, assign entry.2.values assignments ≠ none
          · rw [if_pos hrest, if_pos (List.forall_mem_cons.mpr ⟨by simp [hvalues], hrest⟩)]
            simp [updateEntry, assignedRow, hvalues]
          · rw [if_neg hrest, if_neg fun hall => hrest (List.forall_mem_cons.mp hall).2]

theorem changes_insertEntries (name : String) (rows : Option (List (Option Row))) (startIdx : Nat) (new : List Row) :
    (insertEntries name startIdx new).filterMap (entryRow rows) =
      (new.zipIdx startIdx).map fun entry => (entry.2, some entry.1) := by
  induction new generalizing startIdx with
  | nil => rfl
  | cons row rest ih =>
      rw [insertEntries_cons, List.filterMap_cons, List.zipIdx_cons, List.map_cons, ih]
      rfl

theorem placedEntries_insert (name : String) (contents : TableContents) (new : List Row) :
    placedEntries (insertEntries name contents.rows.length new) contents.rows =
      (RowStatement.insert new).meaning contents.rows := by
  rw [placedEntries, changes_insertEntries, foldl_placeRow_behind]
  rfl

theorem placedEntries_update :
    placedEntries ((contents.entries.filter fun entry => filter entry.2).map (updateEntry name assignments)) contents.rows =
      (RowStatement.update assignments filter).meaning contents.rows := by
  have hchanges : ((contents.entries.filter fun entry => filter entry.2).map (updateEntry name assignments)).filterMap
      (entryRow (some contents.rows)) = (contents.entries.filter fun entry => filter entry.2).map
        fun entry => (entry.1, some (assignedRow assignments entry.2)) := by
    rw [List.filterMap_map, ← List.filterMap_eq_map]
    rfl
  rw [placedEntries, hchanges, foldl_placeRow_selected contents filter fun row => some (assignedRow assignments row),
    RowStatement.meaning]
  congr 1
  funext row
  cases row with
  | none => rfl
  | some row =>
      rw [Option.bind_some, Option.map_some]
      split <;> rfl

theorem placedEntries_delete :
    placedEntries (deleteEntries name (contents.entries.filter fun entry => filter entry.2)) contents.rows =
      (RowStatement.delete filter).meaning contents.rows := by
  have hchanges : (deleteEntries name (contents.entries.filter fun entry => filter entry.2)).filterMap
      (entryRow (some contents.rows)) =
        (contents.entries.filter fun entry => filter entry.2).map fun entry => (entry.1, none) := by
    rw [deleteEntries, List.filterMap_map, ← List.filterMap_eq_map]
    refine List.filterMap_congr fun entry hentry => ?_
    have hrow := mem_entries.mp (List.mem_filter.mp hentry).1
    simp only [Function.comp_apply, entryRow, Option.bind_some, hrow, Option.map_some]
  rw [placedEntries, hchanges, foldl_placeRow_selected contents filter fun _ => none, RowStatement.meaning]
  congr 1
  funext row
  cases row with
  | none => rfl
  | some row => cases hfilter : filter row <;> simp [hfilter, Option.filter]

end Entries

end HelionDb
