import HelionDb.ScalarLiterals
import HelionDb.SingleInserts

/-! Structured writes against SQL writes of the same values. The data of a request assign JSON scalars to columns, and
the statement has the literals that write them. A create and its INSERT, an update and its UPDATE, agree and keep to
the constraints of the table exactly when every scalar is common to both in its column. -/

namespace HelionDb

section

variable [CaseMapping] [SqlExprText]

/-- An INSERT of rows of literals: parsed, planned and executed. -/
def DatabaseEngine.executeInsert (engine : DatabaseEngine) (orders : CommitOrders) (uuidv7 : BitVec 128)
    (tableName : String) (columns : List String) (values : List (List SqlExpr)) : Executed :=
  match values.mapM (List.mapM (sqlExprToDatum uuidv7)) with
  | .error err => (.error err, engine)
  | .ok literals =>
      match planInsert engine.tables tableName columns literals with
      | .error err => (.error err, engine)
      | .ok rows => engine.execute orders (.insert tableName rows)

/-- The assignments that the plan of an UPDATE hands to the executor. -/
def planSqlUpdate (tables : List Table) (uuidv7 : BitVec 128) (tableName : String)
    (assignments : List (String × SqlExpr)) : Except HelionError (List (Nat × Datum)) := do
  let literals ← assignments.mapM fun (column, expr) => return (column, ← sqlExprToDatum uuidv7 expr)
  planUpdate tables tableName literals

end

/-- The data assign at most one value to a column. -/
def OncePerColumn (table : Table) (data : List (String × Json)) : Prop :=
  ((table.named data).map Prod.fst).Nodup

/-- Every name of the data is a column. -/
def KnownColumns (table : Table) (data : List (String × Json)) : Prop :=
  ∀ entry ∈ data, (table.columnIndex entry.1).isSome

instance (table : Table) (data : List (String × Json)) : Decidable (OncePerColumn table data) :=
  inferInstanceAs (Decidable (List.Nodup _))

/-- The value that the data assign to a column, a null where they assign none. -/
def givenAt (table : Table) (data : List (String × Json)) (idx : Nat) : Json :=
  (lastAt idx (table.named data)).getD .null

/-- The literals write the scalars, entry by entry. -/
def WrittenAs (data : List (String × Json)) (literals : List SqlExpr) : Prop :=
  List.Forall₂ (fun entry expr => Corresponds entry.2 expr) data literals

/-! ### Assignments -/

/-- A scalar on its way to a position, with the literal that writes it. -/
abbrev Assigned := Nat × Json × SqlExpr

namespace Assigned

/-- The value that a structured request places. -/
def placed (table : Table) (assigned : Assigned) : Nat × Datum := (assigned.1, assigned.2.1.toColumn table assigned.1)

/-- The value that SQL places. -/
def PlacedBySql [CaseMapping] [SqlExprText] (table : Table) (uuidv7 : BitVec 128) (assigned : Assigned)
    (target : Nat × Datum) : Prop :=
  assigned.1 = target.1 ∧
    ∃ literal, sqlExprToDatum uuidv7 assigned.2.2 = .ok literal ∧ coerceTo table target.1 literal = .ok target.2

end Assigned

/-- The data with the positions of their columns. -/
structure Assigns (table : Table) (data : List (String × Json)) (literals : List SqlExpr)
    (assigned : List Assigned) : Prop where
  entries : List.Forall₂ (fun entry (target : Assigned) =>
    table.columnIndex entry.1 = some target.1 ∧ entry.2 = target.2.1) data assigned
  named : table.named data = assigned.map fun target => (target.1, target.2.1)
  literals : literals = assigned.map fun target => target.2.2
  corresponds : ∀ target ∈ assigned, Corresponds target.2.1 target.2.2

section Assigning

variable {table : Table} {data : List (String × Json)} {literals : List SqlExpr} {assigned : List Assigned}

theorem exists_assigns (hliterals : WrittenAs data literals) (hknown : KnownColumns table data) :
    ∃ assigned, Assigns table data literals assigned := by
  induction hliterals with
  | nil => exact ⟨[], .nil, rfl, rfl, nofun⟩
  | @cons entry expr rest exprs hfirst _ ih =>
      obtain ⟨hentry, hrest⟩ := List.forall_mem_cons.mp hknown
      obtain ⟨idx, hidx⟩ := Option.isSome_iff_exists.mp hentry
      obtain ⟨assigned, hassigned⟩ := ih hrest
      refine ⟨(idx, entry.2, expr) :: assigned, .cons ⟨hidx, rfl⟩ hassigned.entries, ?_, ?_, ?_⟩
      · rw [Table.named, List.filterMap_cons, hidx]
        exact congrArg ((idx, entry.2) :: ·) hassigned.named
      · rw [hassigned.literals]
        rfl
      · exact List.forall_mem_cons.mpr ⟨hfirst, hassigned.corresponds⟩

namespace Assigns

/-- The columns that the names of a statement stand for. -/
theorem columns (h : Assigns table data literals assigned) (tableName : String) :
    (data.map Prod.fst).mapM (requireColumn table tableName) = .ok (assigned.map Prod.fst) := by
  rw [mapM_ok_iff_forall₂, List.forall₂_map_left_iff, List.forall₂_map_right_iff]
  refine h.entries.imp fun entry target hentry => ?_
  rw [requireColumn, hentry.1]

/-- What a structured request places. -/
theorem placeJson (h : Assigns table data literals assigned) (fromTable : String) :
    data.mapM (HelionDb.placeJson table fromTable) = .ok (assigned.map (Assigned.placed table)) := by
  rw [mapM_ok_iff_forall₂, List.forall₂_map_right_iff]
  refine h.entries.imp fun entry target hentry => ?_
  rw [HelionDb.placeJson, requireColumn, hentry.1, hentry.2]
  rfl

/-- The data assign a value where the assignments have it. -/
theorem givenAt (h : Assigns table data literals assigned) (idx : Nat) :
    HelionDb.givenAt table data idx = (lastAt idx (assigned.map fun target => (target.1, target.2.1))).getD .null := by
  rw [HelionDb.givenAt, h.named]

end Assigns

section Sql

variable [CaseMapping] [SqlExprText] {uuidv7 : BitVec 128}

/-- Literals that are read and placed one after the other. -/
theorem placedBySql_iff {placed : List (Nat × Datum)} :
    (∃ values, (assigned.map fun target => target.2.2).mapM (sqlExprToDatum uuidv7) = .ok values ∧
      ((assigned.map Prod.fst).zip values).mapM (placeLiteral table) = .ok placed) ↔
      List.Forall₂ (Assigned.PlacedBySql table uuidv7) assigned placed := by
  simp only [mapM_ok_iff_forall₂, List.forall₂_map_left_iff]
  constructor
  · rintro ⟨values, hvalues, hplaced⟩
    induction hvalues generalizing placed with
    | nil =>
        rw [List.map_nil, List.zip_nil_left, List.forall₂_nil_left_iff] at hplaced
        exact hplaced ▸ .nil
    | cons hliteral _ ih =>
        rw [List.map_cons, List.zip_cons_cons, List.forall₂_cons_left_iff] at hplaced
        obtain ⟨target, targets, hfirst, hrest, rfl⟩ := hplaced
        obtain ⟨coerced, hcoerced, htarget⟩ := Loop.bind_ok_iff.mp hfirst
        obtain rfl := Except.ok.inj htarget
        exact .cons ⟨rfl, _, hliteral, hcoerced⟩ (ih hrest)
  · intro h
    induction h with
    | nil => exact ⟨[], .nil, .nil⟩
    | @cons source target sources targets hfirst _ ih =>
        obtain ⟨hidx, literal, hliteral, hcoerced⟩ := hfirst
        obtain ⟨values, hvalues, hplaced⟩ := ih
        refine ⟨literal :: values, .cons hliteral hvalues, ?_⟩
        rw [List.map_cons, List.zip_cons_cons]
        refine .cons ?_ hplaced
        rw [placeLiteral, hidx, hcoerced]
        rfl

/-- SQL places the literals at the positions of the assignments. -/
theorem placed_positions {placed : List (Nat × Datum)}
    (h : List.Forall₂ (Assigned.PlacedBySql table uuidv7) assigned placed) :
    placed.map Prod.fst = assigned.map Prod.fst := by
  induction h with
  | nil => rfl
  | cons hfirst _ ih => rw [List.map_cons, List.map_cons, ih, hfirst.1]

/-- The row that an INSERT of one row of literals plans. -/
def sqlRow (table : Table) (uuidv7 : BitVec 128) (tableName : String) (columns : List String)
    (literals : List SqlExpr) : Except HelionError Row := do
  let values ← literals.mapM (sqlExprToDatum uuidv7)
  let colIndices ← resolveColumns table tableName columns
  planInsertRow table colIndices values

omit [CaseMapping] [SqlExprText] in
theorem Assigns.resolveColumns_zip (h : Assigns table data literals assigned) (tableName : String)
    {values : List Datum} (hlength : values.length = assigned.length) :
    ∃ colIndices, resolveColumns table tableName (data.map Prod.fst) = .ok colIndices ∧
      colIndices.zip values = (assigned.map Prod.fst).zip values := by
  have hcolumns := h.columns tableName
  rw [resolveColumns]
  cases hempty : (data.map Prod.fst).isEmpty with
  | true =>
      have hnil : data = [] := List.map_eq_nil_iff.mp (List.isEmpty_iff.mp hempty)
      have hentries := h.entries
      rw [hnil, List.forall₂_nil_left_iff] at hentries
      rw [hentries, List.length_nil, List.length_eq_zero_iff] at hlength
      exact ⟨_, rfl, by rw [hlength, List.zip_nil_right, List.zip_nil_right]⟩
  | false => exact ⟨_, hcolumns, rfl⟩

theorem Assigns.sqlRow_ok_iff (h : Assigns table data literals assigned) {tableName : String} {row : Row} :
    sqlRow table uuidv7 tableName (data.map Prod.fst) literals = .ok row ↔
      ∃ placed, List.Forall₂ (Assigned.PlacedBySql table uuidv7) assigned placed ∧
        row = { values := writeAll (List.replicate table.columns.length .null) placed } ∧
        table.validateRow row = .ok () := by
  simp only [sqlRow, h.literals, Loop.bind_ok_iff, planInsertRow_eq]
  constructor
  · rintro ⟨values, hvalues, colIndices, hcolumns, placed, hplaced, ⟨⟩, hvalid, hrow⟩
    obtain rfl := Except.ok.inj hrow
    have hlength : values.length = assigned.length := by
      have hall := (mapM_ok_iff_forall₂.mp hvalues).length_eq
      rw [← hall, List.length_map]
    obtain ⟨others, hothers, hzip⟩ := h.resolveColumns_zip tableName hlength
    rw [Except.ok.inj (hcolumns.symm.trans hothers), hzip] at hplaced
    exact ⟨placed, placedBySql_iff.mp ⟨values, hvalues, hplaced⟩, rfl, hvalid⟩
  · rintro ⟨placed, hplaced, rfl, hvalid⟩
    obtain ⟨values, hvalues, hzipped⟩ := placedBySql_iff.mpr hplaced
    have hlength : values.length = assigned.length := by
      have hall := (mapM_ok_iff_forall₂.mp hvalues).length_eq
      rw [← hall, List.length_map]
    obtain ⟨colIndices, hcolumns, hzip⟩ := h.resolveColumns_zip tableName hlength
    exact ⟨values, hvalues, colIndices, hcolumns, placed, hzip ▸ hzipped, (), hvalid, rfl⟩

end Sql

/-! ### Rows -/

/-- The values that both kinds of request store alike are given to all columns. -/
def AllCommon (table : Table) (data : List (String × Json)) : Prop :=
  ∀ entry ∈ table.columns.zipIdx, (givenAt table data entry.2).Common entry.1

instance (table : Table) (data : List (String × Json)) : Decidable (AllCommon table data) :=
  inferInstanceAs (Decidable (∀ entry ∈ table.columns.zipIdx, (givenAt table data entry.2).Common entry.1))

/-- A NOT NULL column is given no value, or an integer column one outside its range. -/
def Improper (table : Table) (data : List (String × Json)) : Prop :=
  ∃ entry ∈ table.columns.zipIdx, entry.1.nullable = false ∧ givenAt table data entry.2 = .null ∨
    (givenAt table data entry.2).OutOfRange entry.1

/-- The row that a structured create stores. -/
def createdRow (table : Table) (assigned : List Assigned) : Row :=
  { values := writeAll (List.replicate table.columns.length .null) (assigned.map (Assigned.placed table)) }

theorem lastAt_map {α β : Type} (f : Nat → α → β) (idx : Nat) (assignments : List (Nat × α)) :
    lastAt idx (assignments.map fun a => (a.1, f a.1 a.2)) = (lastAt idx assignments).map (f idx) := by
  induction assignments with
  | nil => rfl
  | cons first rest ih =>
      rw [List.map_cons, lastAt_cons, lastAt_cons, ih, Option.map_or]
      by_cases hfirst : first.1 = idx
      · rw [if_pos hfirst, if_pos hfirst, ← hfirst]
        rfl
      · rw [if_neg hfirst, if_neg hfirst]
        rfl

theorem mem_of_lastAt {α : Type} {idx : Nat} {value : α} {assignments : List (Nat × α)}
    (h : lastAt idx assignments = some value) : (idx, value) ∈ assignments := by
  obtain ⟨⟨found, last⟩, hfound, rfl⟩ := Option.map_eq_some_iff.mp h
  have hidx := List.find?_some (p := fun assignment : Nat × α => decide (assignment.1 = idx)) hfound
  obtain rfl : found = idx := of_decide_eq_true hidx
  exact List.mem_reverse.mp (List.mem_of_find?_eq_some hfound)

/-- Where every position is assigned once, its last value is the only one. -/
theorem lastAt_of_mem {α : Type} {idx : Nat} {value : α} {assignments : List (Nat × α)}
    (hnodup : (assignments.map Prod.fst).Nodup) (hmem : (idx, value) ∈ assignments) :
    lastAt idx assignments = some value := by
  induction assignments with
  | nil => cases hmem
  | cons first rest ih =>
      obtain ⟨hfresh, hrest⟩ := List.nodup_cons.mp hnodup
      rw [lastAt_cons]
      rcases List.mem_cons.mp hmem with rfl | hmem
      · cases hlast : lastAt idx rest with
        | none => rw [Option.none_or, if_pos rfl]
        | some other => exact absurd (List.mem_map_of_mem (mem_of_lastAt hlast)) hfresh
      · rw [ih hrest hmem, Option.some_or]

/-- What a structured create stores in a column. -/
theorem Assigns.getElem?_createdRow (h : Assigns table data literals assigned) {idx : Nat} {column : ColumnMeta}
    (hcolumn : table.columns[idx]? = some column) :
    (createdRow table assigned).values[idx]? = some ((HelionDb.givenAt table data idx).toDatumAs column.dataType) := by
  have hlt := (List.getElem?_eq_some_iff.mp hcolumn).1
  have hplaced : lastAt idx (assigned.map (Assigned.placed table)) =
      (lastAt idx (table.named data)).map (Json.toColumn table idx) := by
    rw [h.named, ← lastAt_map, List.map_map]
    rfl
  rw [createdRow, getElem?_writeAll, List.getElem?_replicate, if_pos hlt, hplaced, Option.map_some,
    HelionDb.givenAt]
  cases lastAt idx (table.named data) with
  | none => rfl
  | some value => rw [Option.map_some, Option.getD_some, Option.getD_some, Json.toColumn, hcolumn]

theorem Assigns.nodup (h : Assigns table data literals assigned) (honce : OncePerColumn table data) :
    (assigned.map Prod.fst).Nodup := by
  rw [OncePerColumn, h.named, List.map_map] at honce
  exact honce

/-- A value that is assigned is the one given at its position. -/
theorem Assigns.givenAt_of_mem (h : Assigns table data literals assigned) (honce : OncePerColumn table data)
    {target : Assigned} (htarget : target ∈ assigned) : HelionDb.givenAt table data target.1 = target.2.1 := by
  have hnamed : (target.1, target.2.1) ∈ table.named data := by
    rw [h.named]
    exact List.mem_map_of_mem (f := fun target : Assigned => (target.1, target.2.1)) htarget
  rw [HelionDb.givenAt, lastAt_of_mem honce hnamed, Option.getD_some]

/-- The column of an assignment. -/
theorem Assigns.column_of_mem (h : Assigns table data literals assigned) {target : Assigned}
    (htarget : target ∈ assigned) : ∃ column, table.columns[target.1]? = some column := by
  obtain ⟨entry, -, hindex, -⟩ := exists_of_mem_forall₂ h.entries.flip htarget
  obtain ⟨hlt, -⟩ := List.findIdx?_eq_some_iff_getElem.mp hindex
  exact ⟨_, List.getElem?_eq_getElem hlt⟩

section Common

variable [CaseMapping] [SqlExprText]

/-- What is given to a column is stored alike, whether it is written by a literal or left out. -/
theorem Assigns.stored_of_common (h : Assigns table data literals assigned) {idx : Nat} {column : ColumnMeta}
    (hcommon : (HelionDb.givenAt table data idx).Common column) :
    validateColumn column ((HelionDb.givenAt table data idx).toDatumAs column.dataType) = .ok () ∧
      ¬ (HelionDb.givenAt table data idx).OutOfRange column := by
  cases hlast : lastAt idx (table.named data) with
  | none =>
      have hgiven : HelionDb.givenAt table data idx = .null := by rw [HelionDb.givenAt, hlast, Option.getD_none]
      rw [hgiven] at hcommon ⊢
      exact ⟨(storedAlike_null.mpr hcommon).valid, (storedAlike_null.mpr hcommon).inRange⟩
  | some value =>
      have hmem := mem_of_lastAt hlast
      rw [h.named] at hmem
      obtain ⟨target, htarget, heq⟩ := List.mem_map.mp hmem
      obtain ⟨-, rfl⟩ := Prod.mk.inj heq
      have hgiven : HelionDb.givenAt table data idx = target.2.1 := by rw [HelionDb.givenAt, hlast, Option.getD_some]
      rw [hgiven] at hcommon ⊢
      obtain ⟨literal, -, halike⟩ := (@literalStoredAlike_iff _ _ _ 0 _ _ (h.corresponds target htarget)).mpr hcommon
      exact ⟨halike.valid, halike.inRange⟩

/-- Both plans make one row, and no integer is out of range, exactly when all values are common. -/
theorem Assigns.sqlRow_eq_iff (h : Assigns table data literals assigned) (honce : OncePerColumn table data)
    (uuidv7 : BitVec 128) (tableName : String) :
    (sqlRow table uuidv7 tableName (data.map Prod.fst) literals = .ok (createdRow table assigned) ∧
      ¬ Improper table data) ↔ AllCommon table data := by
  have hvalue {idx : Nat} {column : ColumnMeta} (hcolumn : table.columns[idx]? = some column) :=
    h.getElem?_createdRow hcolumn
  rw [h.sqlRow_ok_iff]
  constructor
  · rintro ⟨⟨placed, hplaced, hrow, hvalid⟩, hproper⟩ ⟨column, idx⟩ hentry
    have hcolumn := List.mem_zipIdx_iff_getElem?.mp hentry
    have hchecked : validateColumn column ((HelionDb.givenAt table data idx).toDatumAs column.dataType) = .ok () := by
      refine (Table.validateRow_ok_iff.mp hvalid).2 (column, _) (List.mem_iff_getElem?.mpr ⟨idx, ?_⟩)
      exact List.getElem?_zip_eq_some.mpr ⟨hcolumn, hvalue hcolumn⟩
    have hinRange : ¬ (HelionDb.givenAt table data idx).OutOfRange column :=
      fun hout => hproper ⟨_, hentry, .inr hout⟩
    cases hlast : lastAt idx (table.named data) with
    | none =>
        have hgiven : HelionDb.givenAt table data idx = .null := by rw [HelionDb.givenAt, hlast, Option.getD_none]
        rw [hgiven] at hchecked hinRange ⊢
        exact storedAlike_null.mp ⟨rfl, hchecked, hinRange⟩
    | some value =>
        have hmem := mem_of_lastAt hlast
        rw [h.named] at hmem
        obtain ⟨target, htarget, heq⟩ := List.mem_map.mp hmem
        obtain ⟨rfl, rfl⟩ := Prod.mk.inj heq
        have hgiven := h.givenAt_of_mem honce htarget
        obtain ⟨⟨idx, coerced⟩, hmem, hidx, literal, hliteral, hcoerced⟩ := exists_of_mem_forall₂ hplaced htarget
        obtain rfl : target.1 = idx := hidx
        have hsql := lastAt_of_mem (placed_positions hplaced ▸ h.nodup honce) hmem
        have hsame := hvalue hcolumn
        rw [hrow, getElem?_writeAll, List.getElem?_replicate, if_pos (List.getElem?_eq_some_iff.mp hcolumn).1, hsql,
          Option.map_some, Option.getD_some] at hsame
        rw [hgiven] at hsame hchecked hinRange ⊢
        rw [coerceTo, hcolumn, Option.some.inj hsame] at hcoerced
        exact (literalStoredAlike_iff (h.corresponds target htarget)).mp
          ⟨literal, hliteral, hcoerced, hchecked, hinRange⟩
  · intro hcommon
    have hall {idx : Nat} {column : ColumnMeta} (hcolumn : table.columns[idx]? = some column) :=
      h.stored_of_common (hcommon _ (mem_zipIdx_of_getElem? hcolumn))
    refine ⟨⟨assigned.map (Assigned.placed table), ?_, rfl, ?_⟩, ?_⟩
    · rw [List.forall₂_map_right_iff, List.forall₂_same]
      intro target htarget
      obtain ⟨column, hcolumn⟩ := h.column_of_mem htarget
      have hvalue := hcommon _ (mem_zipIdx_of_getElem? hcolumn)
      rw [h.givenAt_of_mem honce htarget] at hvalue
      obtain ⟨literal, hliteral, halike⟩ := (literalStoredAlike_iff (h.corresponds target htarget)).mpr hvalue
      refine ⟨rfl, literal, hliteral, ?_⟩
      rw [Assigned.placed, coerceTo, Json.toColumn, hcolumn]
      exact halike.coerced
    · refine Table.validateRow_ok_iff.mpr ⟨?_, ?_⟩
      · rw [createdRow, length_writeAll, List.length_replicate]
      · rintro ⟨column, datum⟩ hpair
        obtain ⟨idx, hpair⟩ := List.mem_iff_getElem?.mp hpair
        obtain ⟨hcolumn, hdatum⟩ := List.getElem?_zip_eq_some.mp hpair
        rw [hvalue hcolumn] at hdatum
        rw [← Option.some.inj hdatum]
        exact (hall hcolumn).1
    · rintro ⟨⟨column, idx⟩, hentry, himproper⟩
      have hcolumn := List.mem_zipIdx_iff_getElem?.mp hentry
      rcases himproper with ⟨hrequired, hnull⟩ | hout
      · have hstored := (hall hcolumn).1
        rw [hnull, Json.toDatumAs, validateColumn, hrequired] at hstored
        cases hstored
      · exact (hall hcolumn).2 hout

end Common

end Assigning

namespace DatabaseEngine

variable {engine : DatabaseEngine}

/-- A new table takes any row. -/
theorem execute_insert_new (hwf : engine.WellFormed) {name : String} {columns : List ColumnMeta}
    (htable : findTable name engine.tables = some (Table.new name columns)) (orders : CommitOrders) (row : Row) :
    (engine.execute orders (.insert name [row])).1 = .ok 1 ∧
      (engine.execute orders (.insert name [row])).2.chainsOf name =
        some [[.newInsert engine.begin.1.txId row]] := by
  have hpasses : (Table.new name columns).PassesUnique row := by
    intro index hindex
    rw [Table.index_new hindex]
    simp [Index.checkUnique, Index.get, Index.new]
  have htakes : (Table.new name columns).TakesRow row := by
    intro index hindex
    rw [Table.index_new hindex, Index.applyChange_ok_iff]
    simp [WriteOp.LacksOldRow, WriteOp.keyChanges, KeyPairs.Admissible, KeyPairs.Admits]
  obtain ⟨hchains, hok, -⟩ := @execute_insert_passed _ orders _ _ row hwf htable hpasses
  rw [Table.new_versionChains, List.nil_append] at hchains
  exact ⟨hok.mpr htakes, hchains⟩

/-- A table can be created under every name with any columns. -/
theorem exists_new_table (name : String) (columns : List ColumnMeta) :
    ∃ engine : DatabaseEngine, engine.SerialReachable (fun _ _ => True) ∧
      findTable name engine.tables = some (Table.new name columns) := by
  have hcreated : ((fresh "memory").serialStep
      { op := .execute (.createTable name columns none), orders := .asGiven }).tables = [Table.new name columns] := rfl
  refine ⟨_, ⟨"memory", .single { op := .execute (.createTable name columns none), orders := .asGiven } trivial⟩, ?_⟩
  rw [hcreated]
  simp [findTable, KeyedList.lookup]

section Requests

variable [CaseMapping] [SqlExprText] {orders : CommitOrders} {uuidv7 : BitVec 128} {table : Table} {name : String}
  {data : List (String × Json)} {literals : List SqlExpr}

/-- An INSERT of one row of literals executes the row it plans. -/
theorem executeInsert_eq (htable : findTable name engine.tables = some table) (columns : List String) :
    engine.executeInsert orders uuidv7 name columns [literals] =
      match sqlRow table uuidv7 name columns literals with
      | .error err => (.error err, engine)
      | .ok row => engine.execute orders (.insert name [row]) := by
  rw [executeInsert, sqlRow, List.mapM_cons, List.mapM_nil]
  cases hvalues : literals.mapM (sqlExprToDatum uuidv7) with
  | error err => rfl
  | ok values =>
      simp only [bind, Except.bind, pure, Except.pure, planInsert, htable]
      cases hcolumns : resolveColumns table name columns with
      | error err => rfl
      | ok colIndices =>
          simp only [bind, Except.bind, List.mapM_cons, List.mapM_nil]
          cases planInsertRow table colIndices values <;> rfl

omit [CaseMapping] [SqlExprText] in
/-- A structured create executes the row it makes, and reads the table again. -/
theorem executeCreate_eq (htable : findTable name engine.tables = some table) :
    (engine.executeCreate orders { fromTable := name, data }).1 =
        (match createRow table { fromTable := name, data } with
          | .error err => .error err
          | .ok row => (engine.execute orders (.insert name [row])).1) ∧
      (engine.executeCreate orders { fromTable := name, data }).2.tables =
        (match createRow table { fromTable := name, data } with
          | .error _ => engine.tables
          | .ok row => (engine.execute orders (.insert name [row])).2.tables) := by
  simp only [executeCreate, requireTable, htable]
  cases createRow table { fromTable := name, data } with
  | error err => exact ⟨rfl, rfl⟩
  | ok row =>
      dsimp only
      cases (engine.execute orders (.insert name [row])).1 with
      | error err => exact ⟨rfl, rfl⟩
      | ok rowsAffected =>
          refine ⟨rfl, ?_⟩
          dsimp only
          split <;> rfl

end Requests

end DatabaseEngine

section Agreement

open DatabaseEngine

variable [CaseMapping] [SqlExprText] {table : Table} {name : String} {data : List (String × Json)}
  {literals : List SqlExpr} {uuidv7 : BitVec 128}

/-- A structured create and the INSERT of the same columns and values: both go through or neither, with the same tables
after them, and not with a value that the column must refuse. -/
structure CreateAgrees (engine : DatabaseEngine) (table : Table) (orders : CommitOrders) (uuidv7 : BitVec 128)
    (name : String) (data : List (String × Json)) (literals : List SqlExpr) : Prop where
  accepted : (engine.executeCreate orders { fromTable := name, data }).1.isOk =
    (engine.executeInsert orders uuidv7 name (data.map Prod.fst) [literals]).1.isOk
  stored : (engine.executeCreate orders { fromTable := name, data }).1.isOk = true →
    (engine.executeCreate orders { fromTable := name, data }).2.tables =
      (engine.executeInsert orders uuidv7 name (data.map Prod.fst) [literals]).2.tables
  refused : Improper table data → (engine.executeCreate orders { fromTable := name, data }).1.isOk = false

omit [CaseMapping] [SqlExprText] in
theorem createRow_of_assigns {assigned : List Assigned} (h : Assigns table data literals assigned) :
    createRow table { fromTable := name, data } = .ok (createdRow table assigned) := by
  rw [createRow_eq, h.placeJson]
  rfl

omit [CaseMapping] [SqlExprText] in
theorem createRow_unknown (hunknown : ¬ KnownColumns table data) :
    ∃ err, createRow table { fromTable := name, data } = .error err := by
  rw [createRow_eq]
  cases hplaced : data.mapM (placeJson table name) with
  | error err => exact ⟨err, rfl⟩
  | ok placed => exact absurd (known_of_placeJson hplaced) hunknown

theorem sqlRow_unknown (hunknown : ¬ KnownColumns table data) :
    ∃ err, sqlRow table uuidv7 name (data.map Prod.fst) literals = .error err := by
  cases hrow : sqlRow table uuidv7 name (data.map Prod.fst) literals with
  | error err => exact ⟨err, rfl⟩
  | ok row =>
      obtain ⟨values, -, hrow⟩ := Loop.bind_ok_iff.mp hrow
      obtain ⟨colIndices, hcolumns, -⟩ := Loop.bind_ok_iff.mp hrow
      refine absurd (fun entry hentry => ?_) hunknown
      rw [resolveColumns, if_neg (by simpa using List.ne_nil_of_mem hentry)] at hcolumns
      obtain ⟨idx, hidx⟩ := exists_of_mem_mapM_ok hcolumns (List.mem_map_of_mem hentry)
      split at hidx
      · rename_i found hfound
        rw [hfound]
        rfl
      · cases hidx

/-- Where every value is common, a create and its INSERT agree on any engine. -/
theorem createAgrees_of_common {engine : DatabaseEngine} (htable : findTable name engine.tables = some table)
    (hliterals : WrittenAs data literals) (honce : OncePerColumn table data)
    (hcommon : KnownColumns table data → AllCommon table data) (orders : CommitOrders) (uuidv7 : BitVec 128) :
    CreateAgrees engine table orders uuidv7 name data literals := by
  have hcreate := @executeCreate_eq engine orders table name data htable
  have hinsert := @executeInsert_eq engine _ _ orders uuidv7 table name literals htable (data.map Prod.fst)
  by_cases hknown : KnownColumns table data
  · obtain ⟨assigned, hassigned⟩ := exists_assigns hliterals hknown
    obtain ⟨hrow, hproper⟩ := (hassigned.sqlRow_eq_iff honce uuidv7 name).mpr (hcommon hknown)
    rw [createRow_of_assigns hassigned] at hcreate
    rw [hrow] at hinsert
    refine ⟨?_, fun _ => ?_, fun himproper => absurd himproper hproper⟩
    · rw [hcreate.1, hinsert]
    · rw [hcreate.2, hinsert]
  · obtain ⟨err, herr⟩ := @createRow_unknown table name data hknown
    obtain ⟨err', herr'⟩ := @sqlRow_unknown _ _ table name data literals uuidv7 hknown
    rw [herr] at hcreate
    rw [herr'] at hinsert
    refine ⟨?_, fun hok => ?_, fun _ => ?_⟩
    · rw [hcreate.1, hinsert]
      rfl
    · rw [hcreate.1] at hok
      cases hok
    · rw [hcreate.1]
      rfl

/-- On a new table the two agree only when every value is common. -/
theorem common_of_createAgrees {engine : DatabaseEngine} (hwf : engine.WellFormed) {columns : List ColumnMeta}
    (htable : findTable name engine.tables = some (Table.new name columns)) (hliterals : WrittenAs data literals)
    (honce : OncePerColumn (Table.new name columns) data) {orders : CommitOrders}
    (hagrees : CreateAgrees engine (Table.new name columns) orders uuidv7 name data literals)
    (hknown : KnownColumns (Table.new name columns) data) : AllCommon (Table.new name columns) data := by
  obtain ⟨assigned, hassigned⟩ := exists_assigns hliterals hknown
  have hcreate := @executeCreate_eq engine orders _ name data htable
  have hinsert := @executeInsert_eq engine _ _ orders uuidv7 _ name literals htable (data.map Prod.fst)
  obtain ⟨hcreated, hchains⟩ := execute_insert_new hwf htable orders (createdRow (Table.new name columns) assigned)
  rw [createRow_of_assigns hassigned] at hcreate
  have hok : (engine.executeCreate orders { fromTable := name, data }).1.isOk = true := by
    rw [hcreate.1]
    exact congrArg Except.isOk hcreated
  have haccepted := hagrees.accepted.symm.trans hok
  have hstored := hagrees.stored hok
  refine (hassigned.sqlRow_eq_iff honce uuidv7 name).mp ⟨?_, fun himproper => ?_⟩
  · cases hrow : sqlRow (Table.new name columns) uuidv7 name (data.map Prod.fst) literals with
    | error err =>
        rw [hinsert, hrow] at haccepted
        cases haccepted
    | ok row =>
        rw [hinsert, hrow, hcreate.2] at hstored
        obtain ⟨-, hother⟩ := execute_insert_new hwf htable orders row
        have hsame := congrArg (fun tables => (findTable name tables).map (·.versionChains)) hstored
        have hrows := hchains.symm.trans (hsame.trans hother)
        simp only [Option.some.injEq, List.cons.injEq, and_true, RowVersion.newInsert, RowVersion.mk.injEq] at hrows
        rw [hrows.2.2]
  · rw [hagrees.refused himproper] at hok
    cases hok

end Agreement

end HelionDb
