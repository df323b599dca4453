import HelionDb.StructuredWrites

/-! The plan of an INSERT. Each row of VALUES is laid over a row of NULLs, position by position: values beyond the last
target are dropped, targets beyond the last value stay NULL, a target that is named twice keeps the last value, and
the defaults of the schema are not read. -/

namespace HelionDb

/-- A planned row: as wide as the table, with the coerced value in each target, and in any other column its default or
NULL. -/
structure PlannedRow (table : Table) (targets : List Nat) (rowValues : List Datum) (row : Row) : Prop where
  arity : rowValues.length = targets.length
  width : row.values.length = table.columns.length
  named : ∀ (position idx : Nat) (value : Datum), targets[position]? = some idx → rowValues[position]? = some value →
    ∃ stored, coerceTo table idx value = .ok stored ∧ row.values[idx]? = some stored
  others : ∀ (idx : Nat) (column : ColumnMeta), table.columns[idx]? = some column → idx ∉ targets →
    row.values[idx]? = some (column.default.getD .null)

/-- A plan that succeeds has distinct targets, and a planned row for each row of VALUES. -/
def PlansInsert (tables : List Table) (tableName : String) (columns : List String) (values : List (List Datum)) : Prop :=
  ∀ rows, planInsert tables tableName columns values = .ok rows →
    ∃ table targets, findTable tableName tables = some table ∧ resolveColumns table tableName columns = .ok targets ∧
      targets.Nodup ∧ List.Forall₂ (PlannedRow table targets) values rows

/-- A row of VALUES that the plan takes: every value that has a target fits it, and the last value of a NOT NULL column
is no NULL. -/
structure RowTaken (table : Table) (targets : List Nat) (rowValues : List Datum) : Prop where
  fits : ∀ given ∈ targets.zip rowValues, ∃ stored, coerceTo table given.1 given.2 = .ok stored
  notNull : ∀ idx column, table.columns[idx]? = some column → column.nullable = false →
    ∃ value, lastAt idx (targets.zip rowValues) = some value ∧ value ≠ .null

/-- The statements whose rows are planned as they should be. Where the plan takes all rows, each has a value for each
target, no target is named twice, and a column that is not named has no default but NULL. -/
def InsertSafe (tables : List Table) (tableName : String) (columns : List String) (values : List (List Datum)) : Prop :=
  ∀ table targets, findTable tableName tables = some table → resolveColumns table tableName columns = .ok targets →
    (∀ rowValues ∈ values, RowTaken table targets rowValues) →
    (∀ rowValues ∈ values, rowValues.length = targets.length) ∧ targets.Nodup ∧
      ∀ idx column, values ≠ [] → table.columns[idx]? = some column → idx ∉ targets → column.default.getD .null = .null

section

variable {table : Table} {tableName : String} {columns : List String} {targets : List Nat} {rowValues : List Datum}

theorem Table.columnIndex_lt {name : String} {idx : Nat} (h : table.columnIndex name = some idx) :
    idx < table.columns.length := by
  obtain ⟨hlt, -⟩ := List.findIdx?_eq_some_iff_getElem.mp h
  exact hlt

/-- Every target is a column. -/
theorem lt_of_mem_resolveColumns (h : resolveColumns table tableName columns = .ok targets) {idx : Nat}
    (hidx : idx ∈ targets) : idx < table.columns.length := by
  unfold resolveColumns at h
  split at h
  · cases h
    exact List.mem_range.mp hidx
  · obtain ⟨name, -, hname⟩ := Loop.exists_of_mapM_ok h hidx
    cases hfound : table.columnIndex name with
    | none =>
        rw [hfound] at hname
        cases hname
    | some found =>
        rw [hfound] at hname
        cases hname
        exact Table.columnIndex_lt hfound

/-- Where every target has its value, the targets of the assignments are all of them. -/
theorem map_fst_zip (hlength : rowValues.length = targets.length) : (targets.zip rowValues).map Prod.fst = targets :=
  List.map_fst_zip (by omega)

theorem lastAt_eq_none {α : Type} {idx : Nat} {assignments : List (Nat × α)} (h : idx ∉ assignments.map Prod.fst) :
    lastAt idx assignments = none := by
  cases hlast : lastAt idx assignments with
  | none => rfl
  | some value => exact absurd (List.mem_map_of_mem (mem_of_lastAt hlast)) h

/-! ### Rows -/

/-- The value of a column in the row that assignments make of NULLs. -/
theorem getElem?_filled {placed : List (Nat × Datum)} {idx : Nat} (hidx : idx < table.columns.length) :
    (writeAll (List.replicate table.columns.length .null) placed)[idx]? = some ((lastAt idx placed).getD .null) := by
  rw [getElem?_writeAll, List.getElem?_replicate, if_pos hidx, Option.map_some]

theorem validateColumn_ok_iff {column : ColumnMeta} {datum : Datum} :
    validateColumn column datum = .ok () ↔
      (datum = .null → column.nullable = true) ∧
        (datum ≠ .null → typesCompatible column.dataType datum.dataType = true) := by
  by_cases hnull : datum = .null
  · rw [hnull]
    cases hnullable : column.nullable <;> simp [validateColumn, Datum.isNull, hnullable]
  · have hsome : datum.isNull = false := by
      cases datum <;> first | rfl | exact absurd rfl hnull
    rw [validateColumn, hsome]
    cases typesCompatible column.dataType datum.dataType <;> simp [hnull]

/-- A filled row is valid exactly if no NOT NULL column is left without a value. -/
theorem validateRow_filled_iff {placed : List (Nat × Datum)}
    (hplaced : (targets.zip rowValues).mapM (placeLiteral table) = .ok placed) :
    table.validateRow { values := writeAll (List.replicate table.columns.length .null) placed } = .ok () ↔
      ∀ (idx : Nat) (column : ColumnMeta), table.columns[idx]? = some column → column.nullable = false →
        ∃ value, lastAt idx (targets.zip rowValues) = some value ∧ value ≠ .null := by
  rw [Table.validateRow_ok_iff]
  constructor
  · rintro ⟨-, hpairs⟩ idx column hcolumn hnullable
    have hlt := (List.getElem?_eq_some_iff.mp hcolumn).1
    have hpair : (column, (lastAt idx placed).getD .null) ∈
        table.columns.zip (writeAll (List.replicate table.columns.length .null) placed) :=
      List.mem_iff_getElem?.mpr ⟨idx, List.getElem?_zip_eq_some.mpr ⟨hcolumn, getElem?_filled hlt⟩⟩
    have hvalid := (validateColumn_ok_iff.mp (hpairs _ hpair)).1
    have hrel := placeLiteral_rel hplaced idx
    revert hvalid hrel
    cases lastAt idx (targets.zip rowValues) <;> cases lastAt idx placed <;> intro hvalid hrel
    · rw [hnullable] at hvalid
      cases hvalid rfl
    · cases hrel
    · cases hrel
    · rename_i value stored
      obtain ⟨hcoerced⟩ := hrel
      rw [coerceTo, hcolumn] at hcoerced
      refine ⟨value, rfl, fun hvalue => ?_⟩
      have hstored := hvalid ((coerceDatum_ok hcoerced).1.mpr hvalue)
      rw [hnullable] at hstored
      cases hstored
  · intro hgiven
    refine ⟨by rw [length_writeAll, List.length_replicate], fun pair hpair => ?_⟩
    obtain ⟨idx, hidx⟩ := List.mem_iff_getElem?.mp hpair
    obtain ⟨hcolumn, hdatum⟩ := List.getElem?_zip_eq_some.mp hidx
    rw [getElem?_filled (List.getElem?_eq_some_iff.mp hcolumn).1] at hdatum
    have hdatum := Option.some.inj hdatum
    have hrel := placeLiteral_rel hplaced idx
    have hnull := hgiven idx pair.1 hcolumn
    apply validateColumn_ok_iff.mpr
    rw [← hdatum]
    revert hrel hnull
    cases lastAt idx (targets.zip rowValues) <;> cases lastAt idx placed <;> intro hrel hnull
    · refine ⟨fun _ => ?_, fun h => absurd rfl h⟩
      by_contra hnullable
      obtain ⟨value, hvalue, -⟩ := hnull (Bool.eq_false_iff.mpr hnullable)
      cases hvalue
    · cases hrel
    · cases hrel
    · obtain ⟨hcoerced⟩ := hrel
      rw [coerceTo, hcolumn] at hcoerced
      obtain ⟨hsame, hcompatible⟩ := coerceDatum_ok hcoerced
      refine ⟨fun hstored => ?_, hcompatible⟩
      by_contra hnullable
      obtain ⟨value, hvalue, hne⟩ := hnull (Bool.eq_false_iff.mpr hnullable)
      obtain rfl := Option.some.inj hvalue
      exact hne (hsame.mp hstored)

theorem exists_mapM_ok_iff {ε α β : Type} {f : α → Except ε β} {items : List α} :
    (∃ results, items.mapM f = .ok results) ↔ ∀ item ∈ items, ∃ result, f item = .ok result := by
  simp only [mapM_ok_iff_forall₂]
  induction items with
  | nil => exact iff_of_true ⟨[], .nil⟩ nofun
  | cons item rest ih =>
      rw [List.forall_mem_cons, ← ih]
      constructor
      · rintro ⟨results, hresults⟩
        obtain ⟨result, others, hfirst, hrest, rfl⟩ := List.forall₂_cons_left_iff.mp hresults
        exact ⟨⟨result, hfirst⟩, others, hrest⟩
      · rintro ⟨⟨result, hfirst⟩, others, hrest⟩
        exact ⟨result :: others, .cons hfirst hrest⟩

theorem exists_placeLiteral_iff {given : Nat × Datum} :
    (∃ placed, placeLiteral table given = .ok placed) ↔ ∃ stored, coerceTo table given.1 given.2 = .ok stored := by
  simp only [placeLiteral, Loop.bind_ok_iff]
  constructor
  · rintro ⟨placed, stored, hstored, -⟩
    exact ⟨stored, hstored⟩
  · rintro ⟨stored, hstored⟩
    exact ⟨(given.1, stored), stored, hstored, rfl⟩

/-- A row is planned exactly if it is taken. -/
theorem planInsertRow_ok_iff :
    (∃ row, planInsertRow table targets rowValues = .ok row) ↔ RowTaken table targets rowValues := by
  simp only [planInsertRow_eq, Loop.bind_ok_iff]
  constructor
  · rintro ⟨row, placed, hplaced, ⟨⟩, hvalid, -⟩
    refine ⟨fun given hgiven => ?_, (validateRow_filled_iff hplaced).mp hvalid⟩
    exact exists_placeLiteral_iff.mp (exists_mapM_ok_iff.mp ⟨placed, hplaced⟩ given hgiven)
  · rintro ⟨hfits, hnotNull⟩
    obtain ⟨placed, hplaced⟩ :=
      exists_mapM_ok_iff.mpr fun given hgiven => exists_placeLiteral_iff.mpr (hfits given hgiven)
    exact ⟨_, placed, hplaced, (), (validateRow_filled_iff hplaced).mpr hnotNull, rfl⟩

/-- The values of a row that is planned: the last value given for a column, coerced, or NULL. -/
theorem planInsertRow_values {row : Row} (hok : planInsertRow table targets rowValues = .ok row) :
    row.values.length = table.columns.length ∧
      ∀ idx, idx < table.columns.length → ∃ stored, row.values[idx]? = some (stored.getD .null) ∧
        Option.Rel (fun value stored => coerceTo table idx value = .ok stored) (lastAt idx (targets.zip rowValues))
          stored := by
  rw [planInsertRow_eq] at hok
  obtain ⟨placed, hplaced, hok⟩ := Loop.bind_ok_iff.mp hok
  obtain ⟨⟨⟩, -, hok⟩ := Loop.bind_ok_iff.mp hok
  obtain rfl := Except.ok.inj hok
  refine ⟨by rw [length_writeAll, List.length_replicate], fun idx hlt => ?_⟩
  exact ⟨lastAt idx placed, getElem?_filled hlt, placeLiteral_rel hplaced idx⟩

/-- A column that is not named is NULL. -/
theorem planInsertRow_others {row : Row} (hok : planInsertRow table targets rowValues = .ok row)
    {idx : Nat} (hlt : idx < table.columns.length) (hother : idx ∉ targets) : row.values[idx]? = some .null := by
  obtain ⟨stored, hstored, hrel⟩ := (planInsertRow_values hok).2 idx hlt
  have hnone : lastAt idx (targets.zip rowValues) = none := by
    apply lastAt_eq_none
    intro hmem
    obtain ⟨given, hgiven, rfl⟩ := List.mem_map.mp hmem
    exact hother (List.of_mem_zip hgiven).1
  rw [hnone] at hrel
  cases hrel
  exact hstored

/-- Where every target is named once and given a value, the value is in its column. -/
theorem planInsertRow_named {row : Row} (hok : planInsertRow table targets rowValues = .ok row)
    (hlength : rowValues.length = targets.length) (hnodup : targets.Nodup) {position idx : Nat} {value : Datum}
    (hlt : idx < table.columns.length) (htarget : targets[position]? = some idx)
    (hvalue : rowValues[position]? = some value) :
    ∃ stored, coerceTo table idx value = .ok stored ∧ row.values[idx]? = some stored := by
  obtain ⟨stored, hstored, hrel⟩ := (planInsertRow_values hok).2 idx hlt
  have hlast : lastAt idx (targets.zip rowValues) = some value := by
    apply lastAt_of_mem
    · rw [map_fst_zip hlength]
      exact hnodup
    · exact List.mem_iff_getElem?.mpr ⟨position, List.getElem?_zip_eq_some.mpr ⟨htarget, hvalue⟩⟩
  rw [hlast] at hrel
  cases hrel with
  | some hcoerced => exact ⟨_, hcoerced, hstored⟩

end

section

variable {tables : List Table} {tableName : String} {columns : List String} {values : List (List Datum)}

theorem planInsert_ok {table : Table} {targets : List Nat} (htable : findTable tableName tables = some table)
    (htargets : resolveColumns table tableName columns = .ok targets) :
    planInsert tables tableName columns values = values.mapM (planInsertRow table targets) := by
  rw [planInsert, htable]
  show (resolveColumns table tableName columns >>= _) = _
  rw [htargets]
  rfl

theorem planInsert_ok_iff {rows : List Row} :
    planInsert tables tableName columns values = .ok rows ↔
      ∃ table targets, findTable tableName tables = some table ∧ resolveColumns table tableName columns = .ok targets ∧
        List.Forall₂ (fun rowValues row => planInsertRow table targets rowValues = .ok row) values rows := by
  constructor
  · intro hrows
    cases htable : findTable tableName tables with
    | none =>
        rw [planInsert, htable] at hrows
        cases hrows
    | some table =>
        rw [planInsert, htable] at hrows
        obtain ⟨targets, htargets, hrows⟩ := Loop.bind_ok_iff.mp hrows
        exact ⟨table, targets, rfl, htargets, mapM_ok_iff_forall₂.mp hrows⟩
  · rintro ⟨table, targets, htable, htargets, hrows⟩
    rw [planInsert_ok htable htargets]
    exact mapM_ok_iff_forall₂.mpr hrows

/-- An INSERT is planned as it should be exactly if it is safe. -/
theorem plansInsert_iff : PlansInsert tables tableName columns values ↔ InsertSafe tables tableName columns values := by
  constructor
  · intro hplans table targets htable htargets htaken
    obtain ⟨rows, hrows⟩ := exists_mapM_ok_iff.mpr fun rowValues hmem => planInsertRow_ok_iff.mpr (htaken rowValues hmem)
    obtain ⟨other, others, hother, hothers, hnodup, hplanned⟩ := hplans rows ((planInsert_ok htable htargets).trans hrows)
    obtain rfl := Option.some.inj (htable.symm.trans hother)
    obtain rfl := Except.ok.inj (htargets.symm.trans hothers)
    refine ⟨fun rowValues hmem => ?_, hnodup, fun idx column hne hcolumn hidx => ?_⟩
    · obtain ⟨row, -, hrow⟩ := exists_of_mem_forall₂ hplanned hmem
      exact hrow.arity
    · have hrows := mapM_ok_iff_forall₂.mp hrows
      -- The first row has both the default and a NULL in the column.
      cases hplanned with
      | nil => exact absurd rfl hne
      | cons hfirst _ =>
          obtain ⟨hok, -⟩ := List.forall₂_cons.mp hrows
          have hnull := planInsertRow_others hok (List.getElem?_eq_some_iff.mp hcolumn).1 hidx
          exact Option.some.inj ((hfirst.others idx column hcolumn hidx).symm.trans hnull)
  · intro hsafe rows hrows
    obtain ⟨table, targets, htable, htargets, hplanned⟩ := planInsert_ok_iff.mp hrows
    have htaken : ∀ rowValues ∈ values, RowTaken table targets rowValues := by
      intro rowValues hmem
      obtain ⟨row, -, hrow⟩ := exists_of_mem_forall₂ hplanned hmem
      exact planInsertRow_ok_iff.mp ⟨row, hrow⟩
    obtain ⟨harity, hnodup, hdefault⟩ := hsafe table targets htable htargets htaken
    refine ⟨table, targets, htable, htargets, hnodup, ?_⟩
    refine ((List.forall₂_and_left values rows).mpr ⟨fun rowValues hmem => hmem, hplanned⟩).imp ?_
    rintro rowValues row ⟨hmem, hok⟩
    refine ⟨harity rowValues hmem, (planInsertRow_values hok).1, ?_, ?_⟩
    · intro position idx value htarget hvalue
      have hlt := lt_of_mem_resolveColumns htargets (List.mem_of_getElem? htarget)
      exact planInsertRow_named hok (harity rowValues hmem) hnodup hlt htarget hvalue
    · intro idx column hcolumn hidx
      rw [hdefault idx column (List.ne_nil_of_mem hmem) hcolumn hidx]
      exact planInsertRow_others hok (List.getElem?_eq_some_iff.mp hcolumn).1 hidx

end

/-- A table with a default. -/
def defaulted : Table :=
  Table.new "t" [.new "a" .bigInt, { ColumnMeta.new "b" .bigInt with default := some (.bigInt 7) }]

/-- `INSERT INTO t VALUES (1)` and `INSERT INTO t (a, b) VALUES (1, 2, 3)` are planned with a value missing and one too
many, `INSERT INTO t (a, a) VALUES (1, 2)` keeps the second value, and `INSERT INTO t (a) VALUES (1)` leaves the default
out. -/
theorem not_plansInsert :
    ¬ PlansInsert [defaulted] "t" [] [[.bigInt 1]] ∧
      ¬ PlansInsert [defaulted] "t" ["a", "b"] [[.bigInt 1, .bigInt 2, .bigInt 3]] ∧
      ¬ PlansInsert [defaulted] "t" ["a", "a"] [[.bigInt 1, .bigInt 2]] ∧
      ¬ PlansInsert [defaulted] "t" ["a"] [[.bigInt 1]] := by
  refine ⟨fun h => ?_, fun h => ?_, fun h => ?_, fun h => ?_⟩
  · obtain ⟨table, targets, htable, htargets, -, hrows⟩ := h [{ values := [.bigInt 1, .null] }] rfl
    cases htable
    cases htargets
    exact absurd (List.forall₂_cons.mp hrows).1.arity (by decide)
  · obtain ⟨table, targets, htable, htargets, -, hrows⟩ := h [{ values := [.bigInt 1, .bigInt 2] }] rfl
    cases htable
    cases htargets
    exact absurd (List.forall₂_cons.mp hrows).1.arity (by decide)
  · obtain ⟨table, targets, htable, htargets, hnodup, -⟩ := h [{ values := [.bigInt 2, .null] }] rfl
    cases htable
    cases htargets
    exact absurd hnodup (by decide)
  · obtain ⟨table, targets, htable, htargets, -, hrows⟩ := h [{ values := [.bigInt 1, .null] }] rfl
    cases htable
    cases htargets
    have hdefault := (List.forall₂_cons.mp hrows).1.others 1 _ rfl (by decide)
    cases hdefault

end HelionDb
