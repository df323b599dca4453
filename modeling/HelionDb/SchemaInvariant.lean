import HelionDb.ChainRule
import HelionDb.RowWrites
import HelionDb.Statements

/-! The schema invariant. A live row is valid when it passes `validate_row` and has a value in the primary key. Planned
INSERTs are validated, but UPDATEs and structured requests are not: each kind of request has a condition on its
values under which the rows it stores are valid, and runs of requests that meet theirs keep every live row valid. -/

namespace HelionDb

/-- A column that takes a NULL. -/
def ColumnMeta.TakesNull (column : ColumnMeta) : Prop := column.nullable = true ∧ column.isPrimaryKey = false

instance (column : ColumnMeta) : Decidable column.TakesNull := inferInstanceAs (Decidable (_ ∧ _))

/-- A column takes a value: validation lets it through, and it is not a NULL in the primary key. -/
def ColumnMeta.Takes (column : ColumnMeta) (datum : Datum) : Prop :=
  validateColumn column datum = .ok () ∧ (column.isPrimaryKey = true → datum ≠ .null)

instance (column : ColumnMeta) (datum : Datum) : Decidable (column.Takes datum) := inferInstanceAs (Decidable (_ ∧ _))

/-- A row that passes `validate_row` and has no NULL in the primary key. -/
def RowValid (columns : List ColumnMeta) (row : Row) : Prop :=
  RowFits columns row ∧ ∀ pair ∈ columns.zip row.values, pair.1.isPrimaryKey = true → pair.2 ≠ .null

instance (columns : List ColumnMeta) (row : Row) : Decidable (RowValid columns row) := inferInstanceAs (Decidable (_ ∧ _))

/-- Every row that any snapshot can see is valid. -/
def LiveRowsValid (engine : DatabaseEngine) : Prop :=
  ∀ table ∈ engine.tables, ∀ (snapshotTxid : Nat) (activeTxns : Finset Nat),
    ∀ entry ∈ table.scanVisible snapshotTxid activeTxns, RowValid table.columns entry.2

namespace ColumnMeta

variable {column : ColumnMeta} {datum : Datum}

theorem takes_null_iff : column.Takes .null ↔ column.TakesNull := by
  cases hnullable : column.nullable <;> cases hkey : column.isPrimaryKey <;>
    simp [Takes, TakesNull, validateColumn, Datum.isNull, hnullable, hkey]

theorem takes_iff_of_ne_null (hdatum : datum ≠ .null) :
    column.Takes datum ↔ typesCompatible column.dataType datum.dataType = true := by
  have hnull : datum.isNull = false := by
    cases datum <;> first | rfl | exact absurd rfl hdatum
  rw [Takes, validateColumn, hnull]
  cases typesCompatible column.dataType datum.dataType <;> simp [hdatum]

end ColumnMeta

/-- A row is valid when it has a value for each column, and the column takes it. -/
theorem rowValid_iff {columns : List ColumnMeta} {row : Row} :
    RowValid columns row ↔ row.values.length = columns.length ∧
      ∀ (idx : Nat) (column : ColumnMeta) (datum : Datum), columns[idx]? = some column →
        row.values[idx]? = some datum → column.Takes datum := by
  have hpairs {column : ColumnMeta} {datum : Datum} : (column, datum) ∈ columns.zip row.values ↔
      ∃ idx : Nat, columns[idx]? = some column ∧ row.values[idx]? = some datum := by
    simp only [List.mem_iff_getElem?, List.getElem?_zip_eq_some]
  constructor
  · rintro ⟨⟨hlength, hfits⟩, hkeyed⟩
    refine ⟨hlength, fun idx column datum hcolumn hdatum => ?_⟩
    have hmem := hpairs.mpr ⟨idx, hcolumn, hdatum⟩
    exact ⟨hfits _ hmem, hkeyed _ hmem⟩
  · rintro ⟨hlength, htakes⟩
    refine ⟨⟨hlength, fun pair hpair => ?_⟩, fun pair hpair => ?_⟩
    · obtain ⟨idx, hcolumn, hdatum⟩ := hpairs.mp hpair
      exact (htakes idx _ _ hcolumn hdatum).1
    · obtain ⟨idx, hcolumn, hdatum⟩ := hpairs.mp hpair
      exact (htakes idx _ _ hcolumn hdatum).2

/-- Placing values that their columns take on a valid row leaves it valid. -/
theorem RowValid.writeAll {columns : List ColumnMeta} {row : Row} (h : RowValid columns row)
    {assignments : List (Nat × Datum)}
    (htakes : ∀ (idx : Nat) (column : ColumnMeta) (datum : Datum), columns[idx]? = some column →
      lastAt idx assignments = some datum → column.Takes datum) :
    RowValid columns { values := HelionDb.writeAll row.values assignments } := by
  obtain ⟨hlength, hvalid⟩ := rowValid_iff.mp h
  refine rowValid_iff.mpr ⟨(length_writeAll _ _).trans hlength, fun idx column datum hcolumn hdatum => ?_⟩
  rw [getElem?_writeAll] at hdatum
  obtain ⟨old, hold, rfl⟩ := Option.map_eq_some_iff.mp hdatum
  cases hlast : lastAt idx assignments with
  | none => exact hvalid idx column old hcolumn hold
  | some datum => exact htakes idx column datum hcolumn hlast

/-- A new row is valid when every column takes the value placed in it, a NULL where none is. -/
theorem rowValid_writeAll_null {columns : List ColumnMeta} {assignments : List (Nat × Datum)}
    (htakes : ∀ (idx : Nat) (column : ColumnMeta), columns[idx]? = some column →
      column.Takes ((lastAt idx assignments).getD .null)) :
    RowValid columns { values := writeAll (List.replicate columns.length .null) assignments } := by
  refine rowValid_iff.mpr ⟨by rw [length_writeAll, List.length_replicate], fun idx column datum hcolumn hdatum => ?_⟩
  rw [getElem?_writeAll] at hdatum
  obtain ⟨old, hold, rfl⟩ := Option.map_eq_some_iff.mp hdatum
  obtain ⟨hlt, rfl⟩ := List.getElem?_eq_some_iff.mp hold
  rw [List.getElem_replicate]
  exact htakes idx column hcolumn

/-- A coerced value is a NULL exactly when the literal was one, and otherwise of a type its column takes. -/
theorem coerceDatum_ok {value coerced : Datum} {target : DataType} (h : coerceDatum value target = .ok coerced) :
    (coerced = .null ↔ value = .null) ∧ (coerced ≠ .null → typesCompatible target coerced.dataType = true) := by
  have hrefused : coerceDatum.mismatch value target ≠ .ok coerced := nofun
  have hlength (length : Option Nat) : typesCompatible (.varChar length) (.varChar none) = true ∧
      typesCompatible (.char length) (.char none) = true := by cases length <;> simp [typesCompatible]
  unfold coerceDatum at h
  split at h
  case h_1 => cases h; simp
  all_goals
    first
      | (cases h; exact ⟨by simp, fun _ => rfl⟩)
      | (cases h; exact ⟨by simp, fun _ => (hlength _).1⟩)
      | (cases h; exact ⟨by simp, fun _ => (hlength _).2⟩)
      | exact absurd h hrefused
      | (split at h
         · cases h; exact ⟨by simp, fun _ => rfl⟩
         · cases h)

/-- A column takes a coerced value unless it is a NULL that it does not take. -/
theorem takes_coerced {column : ColumnMeta} {value coerced : Datum}
    (h : coerceDatum value column.dataType = .ok coerced) (hnull : value = .null → column.TakesNull) :
    column.Takes coerced := by
  obtain ⟨hsame, hcompatible⟩ := coerceDatum_ok h
  by_cases hcoerced : coerced = .null
  · rw [hcoerced, ColumnMeta.takes_null_iff]
    exact hnull (hsame.mp hcoerced)
  · exact (ColumnMeta.takes_iff_of_ne_null hcoerced).mpr (hcompatible hcoerced)

/-- The JSON values that a column takes as `json_value_to_datum` makes them. -/
def Json.Fits (column : ColumnMeta) : Json → Prop
  | .bool _ => column.dataType = .boolean
  | .number _ => column.dataType ∈ [.smallInt, .integer, .bigInt, .real, .double]
  | .string _ =>
      match column.dataType with
      | .text | .varChar _ | .char _ => True
      | _ => False
  | .null | .array _ | .object _ => column.TakesNull

instance (column : ColumnMeta) (value : Json) : Decidable (value.Fits column) := by
  unfold Json.Fits
  cases value <;> dsimp only <;> try infer_instance
  split <;> infer_instance

theorem Json.takes_iff_fits {column : ColumnMeta} {value : Json} :
    column.Takes (value.toDatumAs column.dataType) ↔ value.Fits column := by
  cases value with
  | null => exact ColumnMeta.takes_null_iff
  | array items => exact ColumnMeta.takes_null_iff
  | object entries => exact ColumnMeta.takes_null_iff
  | bool b =>
      rw [ColumnMeta.takes_iff_of_ne_null (by simp [Json.toDatumAs])]
      cases htype : column.dataType <;> simp [Json.toDatumAs, Json.Fits, htype, typesCompatible, Datum.dataType]
  | number n =>
      rw [ColumnMeta.takes_iff_of_ne_null (by cases column.dataType <;> simp [Json.toDatumAs])]
      cases htype : column.dataType <;> simp [Json.toDatumAs, Json.Fits, htype, typesCompatible, Datum.dataType]
  | string s =>
      rw [ColumnMeta.takes_iff_of_ne_null (by cases column.dataType <;> simp [Json.toDatumAs])]
      cases htype : column.dataType <;> simp [Json.toDatumAs, Json.Fits, htype, typesCompatible, Datum.dataType]

/-! ### Rows of plans -/

/-- The values given for columns by name, with the positions of the columns. -/
def Table.named {β : Type} (table : Table) (data : List (String × β)) : List (Nat × β) :=
  data.filterMap fun entry => (table.columnIndex entry.1).map (·, entry.2)

/-- The literals of a row leave no primary key without a value that would let a NULL in. -/
def GivesKeys (table : Table) (colIndices : List Nat) (rowValues : List Datum) : Prop :=
  ∀ entry ∈ table.columns.zipIdx, entry.1.isPrimaryKey = true → entry.1.nullable = true →
    (lastAt entry.2 (colIndices.zip rowValues)).getD .null ≠ .null

/-- The literals of SET leave no column with a NULL that it does not take. -/
def SetsTaken (table : Table) (assignments : List (String × Datum)) : Prop :=
  ∀ entry ∈ table.columns.zipIdx, lastAt entry.2 (table.named assignments) = some .null → entry.1.TakesNull

/-- The data of a structured create have for every column a value that fits it; one left out counts as null. -/
def CreatesFitting (table : Table) (data : List (String × Json)) : Prop :=
  (∀ entry ∈ data, (table.columnIndex entry.1).isSome) →
    ∀ entry ∈ table.columns.zipIdx, ((lastAt entry.2 (table.named data)).getD .null).Fits entry.1

/-- The data of a structured update have only values that fit their columns. -/
def SetsFitting (table : Table) (data : List (String × Json)) : Prop :=
  (∀ entry ∈ data, (table.columnIndex entry.1).isSome) →
    ∀ entry ∈ table.columns.zipIdx, ∀ value ∈ lastAt entry.2 (table.named data), value.Fits entry.1

instance (table : Table) (colIndices : List Nat) (rowValues : List Datum) :
    Decidable (GivesKeys table colIndices rowValues) := inferInstanceAs (Decidable (∀ _ ∈ _, _))

instance (table : Table) (assignments : List (String × Datum)) : Decidable (SetsTaken table assignments) :=
  inferInstanceAs (Decidable (∀ _ ∈ _, _))

instance (table : Table) (data : List (String × Json)) : Decidable (CreatesFitting table data) :=
  inferInstanceAs (Decidable (_ → ∀ _ ∈ _, _))

instance (table : Table) (data : List (String × Json)) : Decidable (SetsFitting table data) :=
  inferInstanceAs (Decidable (_ → ∀ _ ∈ _, _))

section Plans

variable {table : Table}

theorem mem_zipIdx_of_getElem? {columns : List ColumnMeta} {idx : Nat} {column : ColumnMeta}
    (h : columns[idx]? = some column) : (column, idx) ∈ columns.zipIdx := List.mem_zipIdx_iff_getElem?.mpr h

/-- The literals of an INSERT and the values placed for them. -/
theorem placeLiteral_rel {given placed : List (Nat × Datum)} (h : given.mapM (placeLiteral table) = .ok placed)
    (idx : Nat) :
    Option.Rel (fun value coerced => coerceTo table idx value = .ok coerced) (lastAt idx given) (lastAt idx placed) := by
  refine lastAt_rel (P := fun idx value coerced => coerceTo table idx value = .ok coerced)
    ((mapM_ok_iff_forall₂.mp h).imp fun source target hplace => ?_) idx
  obtain ⟨coerced, hcoerced, htarget⟩ := Loop.bind_ok_iff.mp hplace
  obtain rfl := Except.ok.inj htarget
  exact ⟨rfl, hcoerced⟩

theorem planInsertRow_valid {colIndices : List Nat} {rowValues : List Datum} {row : Row}
    (hkeys : GivesKeys table colIndices rowValues) (hok : planInsertRow table colIndices rowValues = .ok row) :
    RowValid table.columns row := by
  rw [planInsertRow_eq] at hok
  obtain ⟨placed, hplaced, hok⟩ := Loop.bind_ok_iff.mp hok
  obtain ⟨⟨⟩, hvalid, hok⟩ := Loop.bind_ok_iff.mp hok
  obtain rfl := Except.ok.inj hok
  have hfits := Table.validateRow_ok_iff.mp hvalid
  refine rowValid_writeAll_null fun idx column hcolumn => ?_
  have hdatum : (writeAll (List.replicate table.columns.length .null) placed)[idx]? =
      some ((lastAt idx placed).getD .null) := by
    have hlt := (List.getElem?_eq_some_iff.mp hcolumn).1
    rw [getElem?_writeAll, List.getElem?_replicate, if_pos hlt, Option.map_some]
  have hchecked := hfits.2 (column, (lastAt idx placed).getD .null) (List.mem_iff_getElem?.mpr ⟨idx, List.getElem?_zip_eq_some.mpr ⟨hcolumn, hdatum⟩⟩)
  refine ⟨hchecked, fun hkey hnull => ?_⟩
  cases hnullable : column.nullable with
  | false =>
      rw [hnull, validateColumn, hnullable] at hchecked
      cases hchecked
  | true =>
      have hgiven := hkeys _ (mem_zipIdx_of_getElem? hcolumn) hkey hnullable
      have hrel := placeLiteral_rel hplaced idx
      cases hlast : lastAt idx (colIndices.zip rowValues) with
      | none =>
          rw [hlast] at hgiven
          exact hgiven rfl
      | some value =>
          rw [hlast] at hgiven hrel
          cases hcoerced : lastAt idx placed with
          | none =>
              rw [hcoerced] at hrel
              cases hrel
          | some coerced =>
              rw [hcoerced] at hrel hnull
              cases hrel with
              | some h =>
                  rw [coerceTo, hcolumn] at h
                  exact hgiven ((coerceDatum_ok h).1.mp hnull)

/-- A traversal that finds the column of every name keeps the names in step. -/
theorem named_forall₂ {β : Type} {place : String × β → Except HelionError (Nat × Datum)} {P : Nat → β → Datum → Prop}
    (hplace : ∀ entry target, place entry = .ok target →
      table.columnIndex entry.1 = some target.1 ∧ P target.1 entry.2 target.2)
    {data : List (String × β)} {placed : List (Nat × Datum)} (h : data.mapM place = .ok placed) :
    List.Forall₂ (fun source target => source.1 = target.1 ∧ P target.1 source.2 target.2) (table.named data) placed := by
  have hall := mapM_ok_iff_forall₂.mp h
  clear h
  induction hall with
  | nil => exact .nil
  | cons hfirst _ ih =>
      obtain ⟨hcolumn, hrel⟩ := hplace _ _ hfirst
      rw [Table.named, List.filterMap_cons, hcolumn]
      exact .cons ⟨rfl, hrel⟩ ih

/-- The literals of SET and the values placed for them. -/
theorem planUpdate_rel {tables : List Table} {tableName : String} (htable : findTable tableName tables = some table)
    {assignments : List (String × Datum)} {placed : List (Nat × Datum)}
    (h : planUpdate tables tableName assignments = .ok placed) (idx : Nat) :
    Option.Rel (fun value coerced => coerceTo table idx value = .ok coerced) (lastAt idx (table.named assignments))
      (lastAt idx placed) := by
  rw [planUpdate, htable] at h
  refine lastAt_rel (P := fun idx value coerced => coerceTo table idx value = .ok coerced)
    (named_forall₂ (P := fun idx value coerced => coerceTo table idx value = .ok coerced) (fun entry target hplace => ?_) h) idx
  dsimp only at hplace
  split at hplace
  · rename_i idx hcolumn
    obtain ⟨coerced, hcoerced, htarget⟩ := Loop.bind_ok_iff.mp hplace
    obtain rfl := Except.ok.inj htarget
    exact ⟨hcolumn, hcoerced⟩
  · cases hplace

/-- The data of a structured request and the values placed for them. -/
theorem placeJson_rel {fromTable : String} {data : List (String × Json)} {placed : List (Nat × Datum)}
    (h : data.mapM (placeJson table fromTable) = .ok placed) (idx : Nat) :
    Option.Rel (fun value datum => datum = value.toColumn table idx) (lastAt idx (table.named data))
      (lastAt idx placed) := by
  refine lastAt_rel (P := fun idx value datum => datum = Json.toColumn table idx value)
    (named_forall₂ (P := fun idx value datum => datum = Json.toColumn table idx value) (fun entry target hplace => ?_) h) idx
  obtain ⟨idx, hcolumn, htarget⟩ := Loop.bind_ok_iff.mp hplace
  obtain rfl := Except.ok.inj htarget
  rw [requireColumn] at hcolumn
  split at hcolumn
  · rename_i hfound
    obtain rfl := Except.ok.inj hcolumn
    exact ⟨hfound, rfl⟩
  · cases hcolumn

/-- A structured request that is carried out names columns only. -/
theorem known_of_placeJson {fromTable : String} {data : List (String × Json)} {placed : List (Nat × Datum)}
    (h : data.mapM (placeJson table fromTable) = .ok placed) : ∀ entry ∈ data, (table.columnIndex entry.1).isSome := by
  intro entry hentry
  obtain ⟨target, hplace⟩ := exists_of_mem_mapM_ok h hentry
  obtain ⟨idx, hcolumn, -⟩ := Loop.bind_ok_iff.mp hplace
  rw [requireColumn] at hcolumn
  split at hcolumn
  · rename_i hfound
    rw [hfound]
    rfl
  · cases hcolumn

theorem createRow_valid {input : CreateInput} {row : Row} (hfits : CreatesFitting table input.data)
    (hok : createRow table input = .ok row) : RowValid table.columns row := by
  rw [createRow_eq] at hok
  cases hplaced : input.data.mapM (placeJson table input.fromTable) with
  | error err =>
      rw [hplaced] at hok
      cases hok
  | ok placed =>
      rw [hplaced] at hok
      obtain rfl := Except.ok.inj hok
      refine rowValid_writeAll_null fun idx column hcolumn => ?_
      have hgiven := hfits (known_of_placeJson hplaced) _ (mem_zipIdx_of_getElem? hcolumn)
      have hrel := placeJson_rel hplaced idx
      revert hgiven hrel
      cases lastAt idx (table.named input.data) <;> cases lastAt idx placed <;> intro hgiven hrel
      · exact ColumnMeta.takes_null_iff.mpr hgiven
      · cases hrel
      · cases hrel
      · cases hrel with
        | some hdatum =>
            rw [hdatum, Json.toColumn, hcolumn]
            exact Json.takes_iff_fits.mpr hgiven

/-- The columns take what a planned UPDATE places. -/
theorem planUpdate_takes {tables : List Table} {tableName : String} (htable : findTable tableName tables = some table)
    {assignments : List (String × Datum)} (htaken : SetsTaken table assignments) {placed : List (Nat × Datum)}
    (hok : planUpdate tables tableName assignments = .ok placed) {idx : Nat} {column : ColumnMeta} {datum : Datum}
    (hcolumn : table.columns[idx]? = some column) (hlast : lastAt idx placed = some datum) : column.Takes datum := by
  have hgiven := htaken _ (mem_zipIdx_of_getElem? hcolumn)
  have hrel := planUpdate_rel htable hok idx
  rw [hlast] at hrel
  cases hvalue : lastAt idx (table.named assignments) with
  | none =>
      rw [hvalue] at hrel
      cases hrel
  | some value =>
      rw [hvalue] at hrel hgiven
      cases hrel with
      | some h =>
          rw [coerceTo, hcolumn] at h
          exact takes_coerced h fun hnull => hgiven (congrArg some hnull)

/-- The columns take what a structured update places. -/
theorem setValues_takes {input : UpdateInput} (hfits : SetsFitting table input.data) {placed : List (Nat × Datum)}
    (hok : setValues table input = .ok placed) {idx : Nat} {column : ColumnMeta} {datum : Datum}
    (hcolumn : table.columns[idx]? = some column) (hlast : lastAt idx placed = some datum) : column.Takes datum := by
  rw [setValues_eq] at hok
  have hgiven := hfits (known_of_placeJson hok) _ (mem_zipIdx_of_getElem? hcolumn)
  have hrel := placeJson_rel hok idx
  rw [hlast] at hrel
  cases hvalue : lastAt idx (table.named input.data) with
  | none =>
      rw [hvalue] at hrel
      cases hrel
  | some value =>
      rw [hvalue] at hrel
      cases hrel with
      | some hdatum =>
          rw [hdatum, Json.toColumn, hcolumn]
          exact Json.takes_iff_fits.mpr (hgiven value hvalue)

end Plans

/-! ### Stored rows -/

/-- Every version of a table that is not a tombstone holds a valid row. -/
def Table.RowsValid (table : Table) : Prop :=
  ∀ chain ∈ table.versionChains, ∀ version ∈ chain, version.isDeleted = false → RowValid table.columns version.row

/-- Closing the last version of a chain keeps its rows. -/
theorem mem_closeLatest {txid : Nat} {chain : Chain} {version : RowVersion} (h : version ∈ closeLatest txid chain) :
    ∃ old ∈ chain, version.row = old.row ∧ version.isDeleted = old.isDeleted := by
  rcases List.eq_nil_or_concat chain with rfl | ⟨prior, latest, rfl⟩
  · cases h
  · rw [List.concat_eq_append, closeLatest_concat] at h
    rcases List.mem_append.mp h with hprior | hlatest
    · exact ⟨version, by simp [hprior], rfl, rfl⟩
    · rw [List.mem_singleton.mp hlatest]
      exact ⟨latest, by simp, rfl, rfl⟩

theorem placeAll_rowsValid {txid : Nat} {columns : List ColumnMeta} {chains : List Chain}
    {changes : List (Nat × RowVersion)}
    (hchains : ∀ chain ∈ chains, ∀ version ∈ chain, version.isDeleted = false → RowValid columns version.row)
    (hchanges : ∀ change ∈ changes, change.2.isDeleted = false → RowValid columns change.2.row) :
    ∀ chain ∈ placeAll txid chains changes, ∀ version ∈ chain,
      version.isDeleted = false → RowValid columns version.row := by
  induction changes generalizing chains with
  | nil => exact hchains
  | cons change rest ih =>
      obtain ⟨hfirst, hrest⟩ := List.forall_mem_cons.mp hchanges
      rw [placeAll_cons]
      refine ih (fun chain hchain version hversion hlive => ?_) hrest
      rcases mem_placeVersion hchain with hold | ⟨old, hold, rfl⟩ | rfl
      · exact hchains chain hold version hversion hlive
      · rcases List.mem_append.mp hversion with hclosed | hnew
        · obtain ⟨before, hbefore, hrow, hdeleted⟩ := mem_closeLatest hclosed
          rw [hrow]
          exact hchains old hold before hbefore (hdeleted ▸ hlive)
        · rw [List.mem_singleton.mp hnew] at hlive ⊢
          exact hfirst hlive
      · rw [List.mem_singleton.mp hversion] at hlive ⊢
        exact hfirst hlive

namespace DatabaseEngine

variable {engine : DatabaseEngine} {orders : CommitOrders}

/-- The rows that entries store fit the tables they go to. -/
def EntriesValid (engine : DatabaseEngine) (entries : List WriteEntry) : Prop :=
  ∀ entry ∈ entries, ∀ table, findTable entry.tableName engine.tables = some table → ∀ row,
    entry.operation = .insert row ∨ entry.operation = .update row → RowValid table.columns row

theorem tableChanges_rowsValid {entries : List WriteEntry} (h : engine.EntriesValid entries) {name : String}
    {table : Table} (htable : findTable name engine.tables = some table) {tables : String → Option Table} :
    ∀ change ∈ tableChanges (engine.beginWith entries) tables name,
      change.2.isDeleted = false → RowValid table.columns change.2.row := by
  intro change hchange hlive
  obtain ⟨entry, hentry, hversion⟩ := List.mem_filterMap.mp hchange
  obtain ⟨hmem, hname⟩ := Transaction.mem_entriesOf.mp hentry
  have hvalid := h entry hmem table (hname ▸ htable)
  unfold entryVersion at hversion
  split at hversion
  · rename_i row hop
    obtain rfl := Option.some.inj hversion
    exact hvalid row (.inl hop)
  · rename_i row hop
    obtain rfl := Option.some.inj hversion
    exact hvalid row (.inr hop)
  · split at hversion
    · cases hversion
    · split at hversion
      · cases hversion
      · obtain ⟨latest, -, rfl⟩ := Option.map_eq_some_iff.mp hversion
        cases hlive

/-- The tables whose stored rows are all valid. -/
def StoredRowsValid (engine : DatabaseEngine) : Prop := ∀ table ∈ engine.tables, table.RowsValid

theorem StoredRowsValid.live (h : engine.StoredRowsValid) : LiveRowsValid engine := by
  intro table htable snapshotTxid activeTxns entry hentry
  obtain ⟨chain, hchain, version, hversion, hrow⟩ := Table.mem_scanVisible.mp hentry
  obtain ⟨hselected, hlive⟩ := Option.filter_eq_some_iff.mp hversion
  rw [← hrow]
  exact h table htable chain (List.mem_of_getElem? hchain) version
    (List.mem_reverse.mp (List.mem_of_find?_eq_some hselected)) (by simpa using hlive)

theorem StoredRowsValid.commit (h : engine.StoredRowsValid) (hwf : engine.WellFormed) {entries : List WriteEntry}
    (hentries : engine.EntriesValid entries) :
    (engine.begin.2.commit orders (engine.beginWith entries)).2.2.StoredRowsValid := by
  have hbegun : engine.begin.2.WellFormed := hwf.of_frame rfl (.refl _) rfl
  have hschemas := (commit_frame engine.begin.2 orders (engine.beginWith entries)).1
  have hafter : (engine.begin.2.commit orders (engine.beginWith entries)).2.2.WellFormed := hbegun.commit _ _
  intro table htable
  have hfound := hafter.findTable_eq_some.mpr ⟨htable, rfl⟩
  have hschema := findTable_schema hschemas table.name
  rw [hfound, Option.map_some] at hschema
  obtain ⟨old, hold, hsame⟩ := Option.map_eq_some_iff.mp hschema.symm
  have hcolumns : old.columns = table.columns := (Prod.mk.inj hsame).2
  have hvalid := h old (hwf.findTable_eq_some.mp hold).1
  rw [Table.RowsValid, hcolumns] at hvalid
  rcases chainsOf_commit_cases hbegun orders (engine.beginWith entries) table.name with hkept | ⟨-, -, hplaced⟩
  · rw [chainsOf, chainsOf, hfound, hold] at hkept
    have hchains : table.versionChains = old.versionChains := Option.some.inj hkept
    rw [Table.RowsValid, hchains]
    exact hvalid
  · rw [chainsOf, placedChains, chainsOf, hfound, hold] at hplaced
    have hchains : table.versionChains = placeAll _ old.versionChains _ := Option.some.inj hplaced
    rw [Table.RowsValid, hchains]
    refine placeAll_rowsValid hvalid ?_
    rw [← hcolumns]
    exact tableChanges_rowsValid hentries hold

theorem StoredRowsValid.transition (h : engine.StoredRowsValid) (hwf : engine.WellFormed) {call : SerialCall}
    (hlive : ∀ defaultEngine loaded, call.op ≠ .reopen defaultEngine loaded)
    (hentries : ∀ start entries, engine.commitOf call.op = some (start, entries) → engine.EntriesValid entries)
    {after : DatabaseEngine} (htransition : Transition engine call after) : after.StoredRowsValid := by
  have hindexes {tableName : String} {found : Table} {indexes : List Index}
      (hfound : findTable tableName engine.tables = some found) :
      ∀ table ∈ updateTable tableName (fun _ => { found with indexes }) engine.tables, table.RowsValid := by
    intro table htable
    rcases KeyedList.mem_update htable with hold | ⟨old, -, -, rfl⟩
    · exact h table hold
    · exact h found (hwf.findTable_eq_some.mp hfound).1
  cases htransition with
  | same => exact h
  | ids mvcc hids => exact h
  | write start entries hcommit hstart =>
      have hvalid := hentries start entries hcommit
      rcases hstart with rfl | rfl
      · exact h.commit hwf hvalid
      · have hread : engine.readSnapshot.2.WellFormed := hwf.of_frame rfl (.refl _) rfl
        have hstored : engine.readSnapshot.2.StoredRowsValid := h
        have hgiven : engine.readSnapshot.2.EntriesValid entries := hvalid
        exact hstored.commit hread hgiven
  | create name columns engineName catalog hfresh hcatalog =>
      intro table htable
      rcases List.mem_append.mp htable with hold | hnew
      · exact h table hold
      · rw [List.mem_singleton.mp hnew]
        simp [Table.RowsValid]
  | drop name catalog hcatalog => exact fun table htable => h table (List.mem_filter.mp htable).1
  | migrate name targetEngine => exact h
  | createIndex tableName table next name columns unique htable hnext =>
      obtain ⟨index, rfl, -⟩ := Table.addIndex_ok hnext
      exact hindexes htable
  | dropIndex tableName table next name ifExists hop htable hnext =>
      obtain ⟨pos, rfl⟩ := Table.dropIndex_ok hnext
      exact hindexes htable
  | checkpoint => exact h
  | shutdown => exact h
  | reopen defaultEngine loaded next hop hopen => exact absurd hop (hlive defaultEngine loaded)

end DatabaseEngine

end HelionDb
