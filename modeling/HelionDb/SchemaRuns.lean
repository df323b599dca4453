import HelionDb.SchemaInvariant

/-! Runs of requests against the schema invariant: SQL INSERTs and UPDATEs, their structured counterparts, and the
statements that store no row. While every request meets the condition of its kind, every live row is valid. -/

namespace HelionDb

/-- Neither INSERT nor UPDATE. -/
def LogicalPlan.StoresNoRow : LogicalPlan → Prop
  | insert _ _ | update _ _ _ => False
  | _ => True

/-- A request as it arrives; the WHERE of an UPDATE is the predicate it evaluates to. -/
inductive WriteRequest where
  | insert (tableName : String) (columns : List String) (values : List (List Datum))
  | update (tableName : String) (assignments : List (String × Datum)) (filter : Row → Bool)
  | create (input : CreateInput)
  | structuredUpdate (input : UpdateInput)
  | structuredDelete (input : DeleteInput)
  | statement (plan : LogicalPlan) (storesNoRow : plan.StoresNoRow)

/-- A request with the hash orders of the commit it may run. -/
structure RequestCall where
  request : WriteRequest
  orders : CommitOrders

namespace SchemaMachine

open DatabaseEngine

section

variable [CaseMapping] [Rendering] [NumberText]

/-- Plan and execute a request; one that is refused changes nothing. -/
def step (engine : DatabaseEngine) (call : RequestCall) : DatabaseEngine :=
  match call.request with
  | .insert tableName columns values =>
      match planInsert engine.tables tableName columns values with
      | .error _ => engine
      | .ok rows => (engine.execute call.orders (.insert tableName rows)).2
  | .update tableName assignments filter =>
      match planUpdate engine.tables tableName assignments with
      | .error _ => engine
      | .ok placed => (engine.execute call.orders (.update tableName placed filter)).2
  | .create input => (engine.executeCreate call.orders input).2
  | .structuredUpdate input => (engine.executeUpdate call.orders input).2
  | .structuredDelete input => (engine.executeDelete call.orders input).2
  | .statement plan _ => (engine.execute call.orders plan).2

/-- An INSERT gives every primary key column that was declared nullable a value. An UPDATE that selects a row sets no
column to a NULL that it does not take. A structured create or update has values that fit their columns, and a create
leaves no column out that takes no NULL. -/
def guard (engine : DatabaseEngine) (call : RequestCall) : Prop :=
  match call.request with
  | .insert tableName columns values =>
      ∀ table ∈ findTable tableName engine.tables,
        ∀ colIndices ∈ (resolveColumns table tableName columns).toOption,
          ∀ rowValues ∈ values, GivesKeys table colIndices rowValues
  | .update tableName assignments filter =>
      ∀ table ∈ findTable tableName engine.tables,
        engine.selectRows table filter ≠ [] → SetsTaken table assignments
  | .create input => ∀ table ∈ findTable input.fromTable engine.tables, CreatesFitting table input.data
  | .structuredUpdate input =>
      ∀ table ∈ findTable input.fromTable engine.tables,
        ∀ whereExpr ∈ input.whereClause.parseWhereClause.toOption,
          engine.selectRows table (whereFilter whereExpr table.columns) ≠ [] → SetsFitting table input.data
  | .structuredDelete _ => True
  | .statement _ _ => True

instance (engine : DatabaseEngine) (call : RequestCall) : Decidable (guard engine call) :=
  match call with
  | ⟨.insert _ _ _, _⟩ => inferInstanceAs (Decidable (∀ _ ∈ _, ∀ _ ∈ _, ∀ _ ∈ _, _))
  | ⟨.update _ _ _, _⟩ => inferInstanceAs (Decidable (∀ _ ∈ _, _ → _))
  | ⟨.create _, _⟩ => inferInstanceAs (Decidable (∀ _ ∈ _, _))
  | ⟨.structuredUpdate _, _⟩ => inferInstanceAs (Decidable (∀ _ ∈ _, ∀ _ ∈ _, _ → _))
  | ⟨.structuredDelete _, _⟩ => inferInstanceAs (Decidable True)
  | ⟨.statement _ _, _⟩ => inferInstanceAs (Decidable True)

/-- What the runs keep. -/
structure Sound (engine : DatabaseEngine) : Prop where
  wellFormed : engine.WellFormed
  stored : engine.StoredRowsValid

omit [CaseMapping] [Rendering] [NumberText] in
theorem sound_fresh (defaultEngine : String) : Sound (fresh defaultEngine) :=
  ⟨.fresh defaultEngine, fun table htable => absurd htable (by simp [fresh])⟩

section Steps

variable {engine : DatabaseEngine} (orders : CommitOrders)

omit [CaseMapping] [Rendering] [NumberText]

theorem Sound.readSnapshot (h : Sound engine) : Sound engine.readSnapshot.2 :=
  ⟨h.wellFormed.of_frame rfl (.refl _) rfl, h.stored⟩

/-- A plan whose entries store valid rows keeps all of them valid. -/
theorem Sound.execute (h : Sound engine) {plan : LogicalPlan}
    (hentries : ∀ start entries, engine.commitOf (.execute plan) = some (start, entries) →
      engine.EntriesValid entries) : Sound (engine.execute orders plan).2 := by
  have htransition := serialStep_transition engine { op := .execute plan, orders }
  exact ⟨h.wellFormed.transition htransition,
    h.stored.transition h.wellFormed (fun _ _ => by simp) hentries htransition⟩

theorem Sound.execute_insert (h : Sound engine) {tableName : String} {rows : List Row}
    (hrows : ∀ table, findTable tableName engine.tables = some table → ∀ row ∈ rows, RowValid table.columns row) :
    Sound (engine.execute orders (.insert tableName rows)).2 := by
  apply h.execute orders
  intro start entries hcommit entry hentry table htable row hop
  obtain ⟨found, -, heq⟩ := Option.map_eq_some_iff.mp hcommit
  obtain ⟨-, rfl⟩ := Prod.mk.inj heq
  rw [tableName_of_mem_insertEntries hentry] at htable
  obtain ⟨⟨stored, i⟩, hstored, rfl⟩ := List.mem_map.mp hentry
  rcases hop with hop | hop
  · obtain rfl := WriteOp.insert.inj hop
    exact hrows table htable stored (List.mem_of_getElem? (List.mem_zipIdx_iff_getElem?.mp hstored))
  · cases hop

/-- The entries of an UPDATE hold the selected rows with the values placed on them. -/
theorem mem_updateEntries {tableName : String} {assignments : List (Nat × Datum)} {selected : List (Nat × Row)}
    {entries : List WriteEntry} (h : updateEntries tableName assignments selected = some entries)
    {entry : WriteEntry} (hentry : entry ∈ entries) :
    entry.tableName = tableName ∧ ∃ old ∈ selected,
      entry.operation = .update { values := writeAll old.2.values assignments } := by
  induction selected generalizing entries with
  | nil =>
      cases h
      cases hentry
  | cons first rest ih =>
      obtain ⟨rowIdx, row⟩ := first
      rw [updateEntries] at h
      split at h
      · rename_i values others hassign hothers
        cases h
        rcases List.mem_cons.mp hentry with rfl | hmem
        · exact ⟨rfl, _, List.mem_cons_self, by rw [eq_writeAll_of_assign hassign]⟩
        · obtain ⟨hname, old, hold, hop⟩ := ih hothers hmem
          exact ⟨hname, old, List.mem_cons_of_mem _ hold, hop⟩
      · cases h

theorem Sound.execute_update (h : Sound engine) {tableName : String} {assignments : List (Nat × Datum)}
    {filter : Row → Bool}
    (htakes : ∀ table, findTable tableName engine.tables = some table → engine.selectRows table filter ≠ [] →
      ∀ (idx : Nat) (column : ColumnMeta) (datum : Datum), table.columns[idx]? = some column →
        lastAt idx assignments = some datum → column.Takes datum) :
    Sound (engine.execute orders (.update tableName assignments filter)).2 := by
  apply h.execute orders
  intro start entries hcommit entry hentry table htable row hop
  obtain ⟨found, hfound, hcommit⟩ := Option.bind_eq_some_iff.mp hcommit
  obtain ⟨given, hgiven, hcommit⟩ := Option.bind_eq_some_iff.mp hcommit
  split at hcommit
  · cases hcommit
  · obtain ⟨-, rfl⟩ := Prod.mk.inj (Option.some.inj hcommit)
    obtain ⟨hname, ⟨idx, old⟩, hold, hstored⟩ := mem_updateEntries hgiven hentry
    obtain rfl : found = table := Option.some.inj (hfound.symm.trans (hname ▸ htable))
    rw [hstored] at hop
    rcases hop with hop | hop
    · cases hop
    · obtain rfl := WriteOp.update.inj hop
      have hlive := h.stored.live found (h.wellFormed.findTable_eq_some.mp hfound).1 _ _ _ (List.mem_filter.mp hold).1
      exact hlive.writeAll (htakes found hfound (List.ne_nil_of_mem hold))

theorem Sound.execute_statement (h : Sound engine) {plan : LogicalPlan} (hplan : plan.StoresNoRow) :
    Sound (engine.execute orders plan).2 := by
  apply h.execute orders
  intro start entries hcommit entry hentry table htable row hop
  cases plan with
  | insert | update => exact hplan.elim
  | delete tableName filter =>
      obtain ⟨found, -, hcommit⟩ := Option.bind_eq_some_iff.mp hcommit
      dsimp only at hcommit
      split at hcommit
      · cases hcommit
      · obtain ⟨-, rfl⟩ := Prod.mk.inj (Option.some.inj hcommit)
        obtain ⟨_, -, rfl⟩ := List.mem_map.mp hentry
        rcases hop with hop | hop <;> cases hop
  | createTable | dropTable | alterTableEngine | createIndex | dropIndex => cases hcommit

end Steps

theorem Sound.step {engine : DatabaseEngine} {call : RequestCall} (h : Sound engine) (hguard : guard engine call) :
    Sound (SchemaMachine.step engine call) := by
  obtain ⟨request, orders⟩ := call
  cases request with
  | insert tableName columns values =>
      simp only [SchemaMachine.step]
      split
      · exact h
      · rename_i rows hplan
        refine h.execute_insert orders fun table htable row hrow => ?_
        rw [planInsert, htable] at hplan
        obtain ⟨colIndices, hcolumns, hplan⟩ := Loop.bind_ok_iff.mp hplan
        obtain ⟨rowValues, hvalues, hrowPlan⟩ := Loop.exists_of_mapM_ok hplan hrow
        exact planInsertRow_valid (hguard table htable colIndices (by rw [hcolumns]; rfl) rowValues hvalues) hrowPlan
  | update tableName assignments filter =>
      simp only [SchemaMachine.step]
      split
      · exact h
      · rename_i placed hplan
        refine h.execute_update orders fun table htable hselected idx column datum hcolumn hlast => ?_
        exact planUpdate_takes htable (hguard table htable hselected) hplan hcolumn hlast
  | create input =>
      simp only [SchemaMachine.step, executeCreate, requireTable]
      cases htable : findTable input.fromTable engine.tables with
      | none => exact h
      | some table =>
          dsimp only
          split
          · exact h
          · rename_i row hrow
            have hinserted : Sound (engine.execute orders (.insert input.fromTable [row])).2 := by
              refine h.execute_insert orders fun found hfound other hother => ?_
              obtain rfl : table = found := Option.some.inj (htable.symm.trans hfound)
              rw [List.mem_singleton.mp hother]
              exact createRow_valid (hguard table htable) hrow
            split
            · exact hinserted
            · split
              · exact hinserted.readSnapshot
              · exact hinserted
  | structuredUpdate input =>
      simp only [SchemaMachine.step, executeUpdate, requireTable]
      cases htable : findTable input.fromTable engine.tables with
      | none => exact h
      | some table =>
          dsimp only
          split
          · exact h
          · rename_i whereExpr hwhere
            split
            · exact h
            · rename_i placed hplaced
              refine h.execute_update orders fun found hfound hselected idx column datum hcolumn hlast => ?_
              obtain rfl : table = found := Option.some.inj (htable.symm.trans hfound)
              have hfits := hguard table htable whereExpr (by rw [hwhere]; rfl) hselected
              exact setValues_takes hfits hplaced hcolumn hlast
  | structuredDelete input =>
      simp only [SchemaMachine.step, executeDelete, requireTable]
      cases htable : findTable input.fromTable engine.tables with
      | none => exact h
      | some table =>
          dsimp only
          split
          · exact h
          · exact h.execute_statement orders trivial
  | statement plan hplan => exact h.execute_statement orders hplan

/-- While every request meets the condition of its kind, every live row is valid. -/
theorem live_rows_valid {defaultEngine : String} {engine : DatabaseEngine}
    (run : Reaches step guard (fresh defaultEngine) engine) : LiveRowsValid engine :=
  (run.invariant (fun _ _ h hguard => Sound.step h hguard) (sound_fresh defaultEngine)).stored.live

end

/-! ### Runs -/

open scoped AsciiCase PlainText

/-- A table with a column that takes no NULL. -/
def people : List ColumnMeta := [(ColumnMeta.new "id" .integer).primaryKey, (ColumnMeta.new "age" .integer).notNull]

/-- Create the table and carry requests out, none of which meets a conflict of hash orders. -/
def runOn (columns : List ColumnMeta) (requests : List WriteRequest) : DatabaseEngine :=
  ((.statement (.createTable "people" columns none) trivial :: requests).map fun request =>
    { request, orders := .asGiven }).foldl step (fresh "memory")

/-- INSERT INTO people VALUES (1, 30). -/
def insertsPerson : WriteRequest := .insert "people" [] [[.bigInt 1, .bigInt 30]]

/-- UPDATE people SET age = NULL. -/
def forgetsAge : WriteRequest := .update "people" [("age", .null)] fun _ => true

/-- A structured create without the age. -/
def createsAgeless : WriteRequest := .create { fromTable := "people", data := [("id", .number (.posInt 2))] }

/-- A structured update that puts a text into the age. -/
def writesAgeOut : WriteRequest :=
  .structuredUpdate {
    fromTable := "people"
    whereClause := .object [("id", .number (.posInt 1))]
    data := [("age", .string "thirty")] }

/-- INSERT INTO people VALUES (NULL, 30), the id being declared PRIMARY KEY NULL. -/
def insertsKeyless : WriteRequest := .insert "people" [] [[.null, .bigInt 30]]

def nullableKey : List ColumnMeta :=
  [{ ColumnMeta.primaryKey (.new "id" .integer) with nullable := true }, ColumnMeta.new "age" .integer]

/-- Requests of each kind that keep to the schema. -/
def keepsToSchema : List WriteRequest :=
  [insertsPerson, .update "people" [("age", .bigInt 31)] fun _ => true,
    .create { fromTable := "people", data := [("id", .number (.posInt 2)), ("Age", .number (.posInt 40))] },
    .structuredUpdate {
      fromTable := "people"
      whereClause := .object [("id", .number (.posInt 2))]
      data := [("age", .number (.posInt 41))] }]

/-- Every row is valid after them. -/
theorem live_rows_valid_kept : LiveRowsValid (runOn people keepsToSchema) :=
  live_rows_valid (.of_meets ⟨trivial, by decide, by decide, by decide, by decide, trivial⟩)

/-- A scan of the only table that finds a row that is not valid. -/
theorem not_live_rows_of_scan {engine : DatabaseEngine} (columns : List ColumnMeta) (row : Row)
    (hscan : engine.tables.map (fun table => (table.columns, table.scanVisible 9 ∅)) = [(columns, [(0, row)])])
    (hrow : ¬ RowValid columns row) : ¬ LiveRowsValid engine := by
  intro h
  obtain ⟨table, htables, heq⟩ := List.map_eq_singleton_iff.mp hscan
  obtain ⟨rfl, hrows⟩ := Prod.mk.inj heq
  exact hrow (h table (htables ▸ List.mem_singleton_self table) 9 ∅ (0, row) (hrows ▸ List.mem_singleton_self _))

/-- Each of the ways past the schema leaves a live row that is not valid. -/
theorem not_live_rows_valid :
    ¬ LiveRowsValid (runOn people [insertsPerson, forgetsAge]) ∧
      ¬ LiveRowsValid (runOn people [createsAgeless]) ∧
      ¬ LiveRowsValid (runOn people [insertsPerson, writesAgeOut]) ∧
      ¬ LiveRowsValid (runOn nullableKey [insertsKeyless]) := by
  refine ⟨?_, ?_, ?_, ?_⟩
  · exact not_live_rows_of_scan people { values := [.integer 1, .null] } rfl (by decide)
  · exact not_live_rows_of_scan people { values := [.integer 2, .null] } rfl (by decide)
  · exact not_live_rows_of_scan people { values := [.integer 1, .text "thirty"] } rfl (by decide)
  · exact not_live_rows_of_scan nullableKey { values := [.null, .integer 30] } rfl (by decide)

end SchemaMachine

end HelionDb
