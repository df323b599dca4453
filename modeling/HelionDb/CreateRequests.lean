import HelionDb.IncludeJoin
import HelionDb.Privileges
import HelionDb.RowWrites
import HelionDb.SingleInserts

/-! The create request of `structured.rs`, as a user makes it. It inserts a row in a transaction of its own, then reads the
whole table again, and answers with the last row it finds. Others may commit in between, and the second part has to be
permitted as well. -/

namespace HelionDb

/-! ### The object of a row -/

theorem length_dotted_lt (table name : String) : name.length < (table ++ "." ++ name).length := by
  rw [String.length_append, String.length_append, show ".".length = 1 from rfl]
  omega

theorem qualifiedNames_single (name : String) (columns : List ColumnMeta) :
    qualifiedNames [(name, columns)] = columns.map fun column =>
      if 1 < (columns.map (·.name)).count column.name then name ++ "." ++ column.name else column.name := by
  simp [qualifiedNames]

/-- The columns of one table keep their names exactly if no two share one. -/
theorem subset_qualifiedNames_iff {name : String} {columns : List ColumnMeta} :
    columns.map (·.name) ⊆ qualifiedNames [(name, columns)] ↔ (columns.map (·.name)).Nodup := by
  rw [qualifiedNames_single, List.nodup_iff_count_le_one]
  constructor
  · -- A shared name could only be shown for a shorter one that is shared as well.
    intro hsubset shared
    induction hlength : shared.length using Nat.strong_induction_on generalizing shared with
    | _ length ih =>
        by_contra hmany
        have hmem : shared ∈ columns.map (·.name) := List.count_pos_iff.mp (by omega)
        obtain ⟨column, hcolumn, hshown⟩ := List.mem_map.mp (hsubset hmem)
        by_cases hcount : 1 < (columns.map (·.name)).count column.name
        · rw [if_pos hcount] at hshown
          have hshorter := length_dotted_lt name column.name
          rw [hshown, hlength] at hshorter
          exact absurd (ih _ hshorter column.name rfl) (by omega)
        · rw [if_neg hcount] at hshown
          exact hmany (hshown ▸ Nat.not_lt.mp hcount)
  · intro hunique shown hmem
    obtain ⟨column, hcolumn, rfl⟩ := List.mem_map.mp hmem
    refine List.mem_map.mpr ⟨column, hcolumn, ?_⟩
    rw [if_neg (Nat.not_lt.mpr (hunique _))]

theorem qualifiedNames_of_nodup {name : String} {columns : List ColumnMeta} (hnodup : (columns.map (·.name)).Nodup) :
    qualifiedNames [(name, columns)] = columns.map (·.name) := by
  rw [qualifiedNames_single]
  refine List.map_congr_left fun column _ => if_neg ?_
  exact Nat.not_lt.mpr (List.nodup_iff_count_le_one.mp hnodup _)

/-- The object has every value of a row as its text, under the name of the column. -/
def Json.Shows [Rendering] (data : Json) (columns : List ColumnMeta) (row : Row) : Prop :=
  ∀ entry ∈ columns.zip row.values, data.get entry.1.name = some (.string entry.2.display)

theorem shows_rowFields_iff [Rendering] {name : String} {columns : List ColumnMeta} {texts : List String} {row : Row}
    (hwidth : row.values.length = columns.length) (htexts : texts.length ≤ columns.length) :
    (Json.object (rowFields ((qualifiedNames [(name, columns)]).zip texts))).Shows columns row ↔
      (columns.map (·.name)).Nodup ∧ texts = row.values.map Datum.display := by
  have hpairs : ((columns.map (·.name)).zip (row.values.map Datum.display)) =
      (columns.zip row.values).map fun entry => (entry.1.name, entry.2.display) := by
    rw [List.zip_map]
    rfl
  constructor
  · intro hshows
    have hnodup : (columns.map (·.name)).Nodup := by
      refine (@subset_qualifiedNames_iff name columns).mp fun shown hshown => ?_
      have hfst : columns.map (·.name) = (columns.zip row.values).map fun entry => entry.1.name := by
        conv_lhs => rw [← @List.map_fst_zip _ _ columns row.values hwidth.ge]
        rw [List.map_map]
        rfl
      rw [hfst] at hshown
      obtain ⟨entry, hentry, rfl⟩ := List.mem_map.mp hshown
      exact (List.of_mem_zip (mem_of_getField_rowFields (hshows entry hentry))).1
    refine ⟨hnodup, ?_⟩
    rw [qualifiedNames_of_nodup hnodup] at hshows
    have hshown : ∀ (i : Nat) (value : Datum), row.values[i]? = some value → texts[i]? = some value.display := by
      intro i value hvalue
      obtain ⟨column, hcolumn⟩ : ∃ column, columns[i]? = some column :=
        ⟨_, List.getElem?_eq_getElem (hwidth ▸ (List.getElem?_eq_some_iff.mp hvalue).1)⟩
      have hentry : (column, value) ∈ columns.zip row.values :=
        List.mem_iff_getElem?.mpr ⟨i, List.getElem?_zip_eq_some.mpr ⟨hcolumn, hvalue⟩⟩
      obtain ⟨j, hj⟩ := List.mem_iff_getElem?.mp (mem_of_getField_rowFields (hshows _ hentry))
      obtain ⟨hname, htext⟩ := List.getElem?_zip_eq_some.mp hj
      have hfound : (columns.map (·.name))[i]? = some column.name := by rw [List.getElem?_map, hcolumn]; rfl
      obtain ⟨hi, -⟩ := List.getElem?_eq_some_iff.mp hfound
      rwa [(List.getElem?_inj hi hnodup).mp (hfound.trans hname.symm)]
    apply List.ext_getElem?
    intro i
    rw [List.getElem?_map]
    cases hvalue : row.values[i]? with
    | some value => exact hshown i value hvalue
    | none =>
        refine List.getElem?_eq_none ?_
        have := List.getElem?_eq_none_iff.mp hvalue
        omega
  · rintro ⟨hnodup, rfl⟩ entry hentry
    rw [qualifiedNames_of_nodup hnodup, hpairs]
    refine @getField_rowFields_of_mem _ (entry.1.name, entry.2.display) ?_ (List.mem_map_of_mem hentry)
    rw [← hpairs, List.map_fst_zip (by simp [hwidth])]
    exact hnodup

/-! ### The request -/

namespace Database

section

variable [CaseMapping] [Rendering] [SqlText] {argon2 : Argon2} {choices reread : Choices} {db mid : Database}
  {between : Database → Database} {input : CreateInput} {currentUser : Option String} {table : Table} {row : Row}

/-- The plan that reads the whole table again. -/
def readBack (fromTable : String) (table : Table) : QueryPlan :=
  .projection (.tableScan fromTable table.columns none none none) (List.range table.columns.length)
    [(fromTable, table.columns)]

/-- The first part of `execute_create`: the INSERT, with the table it was planned on. -/
def createInsert (argon2 : Argon2) (choices : Choices) (db : Database) (input : CreateInput)
    (currentUser : Option String) : Except HelionError (Table × QueryResult) × Database :=
  match requireTable db.engine.tables input.fromTable with
  | .error err => (.error err, db)
  | .ok table =>
      match createRow table input with
      | .error err => (.error err, db)
      | .ok row =>
          let inserted := executeAs argon2 choices currentUser 0 db (.insert input.fromTable [row])
          (inserted.1.map fun result => (table, result), inserted.2)

/-- The second part of `execute_create`: the response, for which the table is read again. -/
def createReply (argon2 : Argon2) (reread : Choices) (mid : Database) (fromTable : String) (table : Table)
    (result : QueryResult) (currentUser : Option String) : Except HelionError Json × Database :=
  if 0 < result.rowsAffected then
    let reFetch := executeAs argon2 reread currentUser 0 mid (.query (readBack fromTable table))
    (reFetch.1.map fun found =>
      .object [("data", (found.rows.getLast?.map fun row => .object (rowFields (found.columns.zip row))).getD .null)],
      reFetch.2)
  else (.ok (.object [("data", .null)]), mid)

/-- `execute_create`, without the text of the response. What others do between its two parts is a parameter. -/
def executeCreate (argon2 : Argon2) (choices reread : Choices) (between : Database → Database) (db : Database)
    (input : CreateInput) (currentUser : Option String) : Except HelionError Json × Database :=
  let inserted := db.createInsert argon2 choices input currentUser
  match inserted.1 with
  | .error err => (.error err, inserted.2)
  | .ok (table, result) => (between inserted.2).createReply argon2 reread input.fromTable table result currentUser

/-- A create is all or nothing: an Err adds no row to the table, and an Ok adds one and returns an object with its
values. The chains are those before and after the first part, as the second only reads. -/
def CreatesWhole (argon2 : Argon2) (choices reread : Choices) (between : Database → Database) (db : Database)
    (input : CreateInput) (currentUser : Option String) : Prop :=
  let after := (db.createInsert argon2 choices input currentUser).2.engine.chainsOf input.fromTable
  match (db.executeCreate argon2 choices reread between input currentUser).1 with
  | .error _ => after = db.engine.chainsOf input.fromTable
  | .ok reply =>
      ∃ table txid row fields, findTable input.fromTable db.engine.tables = some table ∧
        after = some (table.versionChains ++ [[.newInsert txid row]]) ∧
        reply = .object [("data", .object fields)] ∧ (Json.object fields).Shows table.columns row

/-- The user may insert a row into the table, as `execute_as` checks it. -/
def MayInsert (db : Database) (fromTable : String) (row : Row) (currentUser : Option String) : Prop :=
  ∀ user, currentUser = some user → db.checkInsert user fromTable (row.values.map fun _ => "") = .ok ()

/-- Where the table is read again, the user may read it, its columns have names of their own, and its last row has the
texts of the new one. -/
structure ReadsBack (mid : Database) (reread : Choices) (fromTable : String) (table : Table) (row : Row)
    (currentUser : Option String) : Prop where
  permitted : ∀ user, currentUser = some user →
    mid.checkPlanPermissions reread.toQueryChoices (readBack fromTable table) user = .ok ()
  names : (table.columns.map (·.name)).Nodup
  last : ∃ found values, findTable fromTable mid.engine.tables = some found ∧
    ((mid.execContext reread.toQueryChoices).rowsIn found).getLast? = some values ∧
    (values.take table.columns.length).map Datum.display = row.values.map Datum.display

omit [SqlText] in
theorem executeTree_readBack {choices : QueryChoices} {fromTable : String} {found : Table}
    (hfound : findTable fromTable mid.engine.tables = some found) (table : Table) :
    executeTree (mid.execContext choices) (readBack fromTable table) =
      .ok (((mid.execContext choices).rowsIn found).map fun values => values.take table.columns.length) := by
  have hscan : executeTree (mid.execContext choices) (.tableScan fromTable table.columns none none none) =
      .ok ((mid.execContext choices).rowsIn found) :=
    (executeTree_filtered hfound table.columns none).trans
      (congrArg Except.ok (List.filter_eq_self.mpr fun _ _ => rfl))
  have hwidth : combinedLen [(fromTable, table.columns)] = table.columns.length := by simp [combinedLen]
  have hnone : (List.range table.columns.length).any (table.columns.length ≤ ·) = false := by
    rw [List.any_eq_false]
    intro idx hidx hwide
    exact Nat.not_le.mpr (List.mem_range.mp hidx) (of_decide_eq_true hwide)
  rw [readBack, executeTree, hscan]
  show Except.ok (projectRows _ _ _) = _
  rw [projectRows, hwidth, hnone, if_neg Bool.false_ne_true]
  congr 2
  funext values
  exact take_eq_filterMap_range _ values

omit [CaseMapping] [Rendering] [SqlText] in
theorem colNames_readBack (fromTable : String) (table : Table) :
    (readBack fromTable table).colNames = qualifiedNames [(fromTable, table.columns)] := by
  have hlength : (qualifiedNames [(fromTable, table.columns)]).length = table.columns.length := by
    rw [qualifiedNames_single, List.length_map]
  rw [readBack, QueryPlan.colNames, ← hlength, take_eq_filterMap_range, List.take_length]

omit [SqlText] in
theorem queryResult_ok_iff {choices : QueryChoices} {tree : QueryPlan} {result : QueryResult} :
    db.queryResult choices tree currentUser = .ok result ↔
      (∀ user, currentUser = some user → db.checkPlanPermissions choices tree user = .ok ()) ∧
        ∃ rows, executeTree (db.execContext choices) tree = .ok rows ∧
          result = { columns := tree.colNames, columnTypes := tree.colTypes
                     rows := rows.map fun row => row.map Datum.display, rowsAffected := rows.length } := by
  constructor
  · intro h
    cases currentUser with
    | none =>
        obtain ⟨⟨⟩, -, h⟩ := Loop.bind_ok_iff.mp h
        obtain ⟨rows, hrows, h⟩ := Loop.bind_ok_iff.mp h
        exact ⟨nofun, rows, hrows, (Except.ok.inj h).symm⟩
    | some user =>
        obtain ⟨hcheck, hrows⟩ := queryResult_ok h
        exact ⟨fun _ huser => Option.some.inj huser ▸ hcheck, hrows⟩
  · rintro ⟨hpermitted, rows, hrows, rfl⟩
    exact queryResult_of_rows hpermitted hrows

/-- The response shows the new row exactly if it is read back. -/
theorem createReply_shows_iff {fromTable : String} (hwidth : row.values.length = table.columns.length) :
    (∃ fields, (mid.createReply argon2 reread fromTable table (.affected 1) currentUser).1 =
        .ok (.object [("data", .object fields)]) ∧ (Json.object fields).Shows table.columns row) ↔
      ReadsBack mid reread fromTable table row currentUser := by
  have hreply : (mid.createReply argon2 reread fromTable table (.affected 1) currentUser).1 =
      (mid.queryResult reread.toQueryChoices (readBack fromTable table) currentUser).map fun found =>
        .object [("data",
          (found.rows.getLast?.map fun row => Json.object (rowFields (found.columns.zip row))).getD .null)] := rfl
  rw [hreply]
  constructor
  · rintro ⟨fields, hfields, hshows⟩
    cases hresult : mid.queryResult reread.toQueryChoices (readBack fromTable table) currentUser with
    | error err =>
        rw [hresult] at hfields
        cases hfields
    | ok result =>
        obtain ⟨hpermitted, rows, hrows, rfl⟩ := queryResult_ok_iff.mp hresult
        cases hfound : findTable fromTable mid.engine.tables with
        | none =>
            rw [readBack, executeTree, executeTree, executeTableScan, requireTable, execContext, hfound] at hrows
            cases hrows
        | some found =>
            obtain rfl := Except.ok.inj ((executeTree_readBack hfound table).symm.trans hrows)
            rw [hresult, colNames_readBack] at hfields
            cases hlast : ((mid.execContext reread.toQueryChoices).rowsIn found).getLast? with
            | none => simp [Except.map, List.getLast?_map, hlast] at hfields
            | some values =>
                simp only [Except.map, List.getLast?_map, hlast, Option.map_some, Option.getD_some, Except.ok.injEq,
                  Json.object.injEq, List.cons.injEq, Prod.mk.injEq, true_and, and_true] at hfields
                rw [← hfields] at hshows
                obtain ⟨hnames, htexts⟩ := (shows_rowFields_iff hwidth (by simp)).mp hshows
                exact ⟨hpermitted, hnames, found, values, hfound, hlast, htexts⟩
  · rintro ⟨hpermitted, hnames, found, values, hfound, hlast, htexts⟩
    refine ⟨rowFields ((qualifiedNames [(fromTable, table.columns)]).zip
      ((values.take table.columns.length).map Datum.display)), ?_, ?_⟩
    · rw [queryResult_of_rows hpermitted (executeTree_readBack hfound table), colNames_readBack]
      simp [Except.map, List.getLast?_map, hlast]
    · exact (shows_rowFields_iff hwidth (by simp)).mpr ⟨hnames, htexts⟩

omit [CaseMapping] [Rendering] [SqlText] in
theorem length_of_createRow (h : createRow table input = .ok row) : row.values.length = table.columns.length := by
  rw [createRow_eq] at h
  cases hplaced : input.data.mapM (placeJson table input.fromTable) with
  | error err =>
      rw [hplaced] at h
      cases h
  | ok placed =>
      rw [hplaced] at h
      obtain rfl := Except.ok.inj h
      simp

/-- The answer to the insert of one row. -/
theorem executeAs_insert_one (argon2 : Argon2) (choices : Choices) (db : Database) (fromTable : String) (row : Row)
    (currentUser : Option String) :
    executeAs argon2 choices currentUser 0 db (.insert fromTable [row]) =
      checked currentUser (db.checkInsert · fromTable (row.values.map fun _ => "")) db
        (db.afterEngine choices.orders (.insert fromTable [row])) := rfl

omit [SqlText] in
theorem checked_of_mayInsert {fromTable : String} (h : db.MayInsert fromTable row currentUser)
    (outcome : Except HelionError QueryResult × Database) :
    checked currentUser (db.checkInsert · fromTable (row.values.map fun _ => "")) db outcome = outcome := by
  cases currentUser with
  | none => rfl
  | some user => rw [checked, h user rfl]

omit [SqlText] in
theorem checked_of_not_mayInsert {fromTable : String} (h : ¬ db.MayInsert fromTable row currentUser)
    (outcome : Except HelionError QueryResult × Database) :
    ∃ err, checked currentUser (db.checkInsert · fromTable (row.values.map fun _ => "")) db outcome = (.error err, db) := by
  cases currentUser with
  | none => exact absurd nofun h
  | some user =>
      cases hcheck : db.checkInsert user fromTable (row.values.map fun _ => "") with
      | error err => exact ⟨err, by rw [checked, hcheck]⟩
      | ok => exact absurd (fun _ huser => Option.some.inj huser ▸ hcheck) h

/-- A create whose insert does not return Ok is whole exactly if the insert leaves the rows as they are. -/
theorem createsWhole_of_error {err : HelionError} {after : Database}
    (h : db.createInsert argon2 choices input currentUser = (.error err, after)) :
    CreatesWhole argon2 choices reread between db input currentUser ↔
      after.engine.chainsOf input.fromTable = db.engine.chainsOf input.fromTable := by
  rw [CreatesWhole, executeCreate, h]

/-- A create that has added its row is whole exactly if it reads the row back. -/
theorem createsWhole_of_added {after : Database} {txid : Nat}
    (h : db.createInsert argon2 choices input currentUser = (.ok (table, .affected 1), after))
    (htable : findTable input.fromTable db.engine.tables = some table)
    (hchains : after.engine.chainsOf input.fromTable = some (table.versionChains ++ [[.newInsert txid row]]))
    (hwidth : row.values.length = table.columns.length) :
    CreatesWhole argon2 choices reread between db input currentUser ↔
      ReadsBack (between after) reread input.fromTable table row currentUser := by
  rw [CreatesWhole, executeCreate, h, ← @createReply_shows_iff _ _ _ argon2 _ _ _ _ _ _ hwidth]
  dsimp only
  cases hreply : ((between after).createReply argon2 reread input.fromTable table (.affected 1) currentUser).1 with
  | error err =>
      refine iff_of_false (fun hkept => ?_) nofun
      have hbefore : db.engine.chainsOf input.fromTable = some table.versionChains := by
        rw [DatabaseEngine.chainsOf, htable]
        rfl
      have hlonger := congrArg List.length (Option.some.inj (hchains.symm.trans (hkept.trans hbefore)))
      simp at hlonger
  | ok reply =>
      constructor
      · rintro ⟨found, other, new, fields, hfound, hafter, rfl, hshows⟩
        obtain rfl := Option.some.inj (htable.symm.trans hfound)
        have hnew := List.append_cancel_left (Option.some.inj (hafter.symm.trans hchains))
        obtain rfl : new = row := congrArg RowVersion.row (List.singleton_inj.mp (List.singleton_inj.mp hnew))
        exact ⟨fields, rfl, hshows⟩
      · rintro ⟨fields, hfields, hshows⟩
        exact ⟨table, txid, row, fields, htable, hchains, Except.ok.inj hfields, hshows⟩

theorem createInsert_of_row (htable : requireTable db.engine.tables input.fromTable = .ok table)
    (hrow : createRow table input = .ok row) {outcome : Except HelionError QueryResult × Database}
    (houtcome : checked currentUser (db.checkInsert · input.fromTable (row.values.map fun _ => "")) db
      (db.afterEngine choices.orders (.insert input.fromTable [row])) = outcome) :
    db.createInsert argon2 choices input currentUser = (outcome.1.map fun result => (table, result), outcome.2) := by
  rw [createInsert, htable]
  dsimp only
  rw [hrow]
  dsimp only
  rw [executeAs_insert_one, houtcome]

/-- A create that may insert its row, by what the insert makes of it. -/
theorem createsWhole_inserted_iff (hwf : db.engine.WellFormed)
    (htable : requireTable db.engine.tables input.fromTable = .ok table) (hrow : createRow table input = .ok row)
    (hmay : db.MayInsert input.fromTable row currentUser) :
    CreatesWhole argon2 choices reread between db input currentUser ↔
      (table.PassesUnique row → table.TakesRow row ∧
        ReadsBack (between (db.afterEngine choices.orders (.insert input.fromTable [row])).2) reread input.fromTable
          table row currentUser) := by
  have hfind := requireTable_ok_iff.mp htable
  have hinsert := @createInsert_of_row _ _ _ argon2 choices _ _ _ _ _ htable hrow _ (checked_of_mayInsert hmay _)
  have hbefore : db.engine.chainsOf input.fromTable = some table.versionChains := by
    rw [DatabaseEngine.chainsOf, hfind]
    rfl
  rw [afterEngine] at hinsert ⊢
  dsimp only at hinsert ⊢
  by_cases hunique : table.PassesUnique row
  · obtain ⟨hchains, htakes, hone⟩ :=
      @DatabaseEngine.execute_insert_passed _ choices.orders _ _ _ hwf hfind hunique
    rw [forall_prop_of_true hunique]
    cases hresult : (db.engine.execute choices.orders (.insert input.fromTable [row])).1 with
    | ok count =>
        obtain rfl := hone count hresult
        rw [hresult] at hinsert
        rw [and_iff_right (htakes.mp hresult)]
        exact createsWhole_of_added hinsert hfind hchains (length_of_createRow hrow)
    | error err =>
        rw [hresult] at hinsert
        rw [createsWhole_of_error hinsert]
        refine iff_of_false (fun hkept => ?_) fun h => ?_
        · have hlonger := congrArg List.length (Option.some.inj (hchains.symm.trans (hkept.trans hbefore)))
          simp at hlonger
        · cases hresult.symm.trans (htakes.mpr h.1)
  · obtain ⟨⟨err, herr⟩, hkept⟩ :=
      @DatabaseEngine.execute_insert_not_passed _ choices.orders _ _ _ hwf hfind hunique
    rw [herr] at hinsert
    exact iff_of_true ((createsWhole_of_error hinsert).mpr hkept) fun h => absurd h hunique

/-- A create is all or nothing exactly if a row that the checks let through is then taken by every index and read back. -/
theorem createsWhole_iff (hreachable : Reachable argon2 db) :
    CreatesWhole argon2 choices reread between db input currentUser ↔
      ∀ table row, requireTable db.engine.tables input.fromTable = .ok table → createRow table input = .ok row →
        db.MayInsert input.fromTable row currentUser → table.PassesUnique row →
          table.TakesRow row ∧
            ReadsBack (between (db.afterEngine choices.orders (.insert input.fromTable [row])).2) reread input.fromTable
              table row currentUser := by
  cases htable : requireTable db.engine.tables input.fromTable with
  | error err =>
      have hinsert : db.createInsert argon2 choices input currentUser = (.error err, db) := by
        rw [createInsert, htable]
      exact iff_of_true ((createsWhole_of_error hinsert).mpr rfl) nofun
  | ok table =>
      cases hrow : createRow table input with
      | error err =>
          have hinsert : db.createInsert argon2 choices input currentUser = (.error err, db) := by
            rw [createInsert, htable]
            dsimp only
            rw [hrow]
          refine iff_of_true ((createsWhole_of_error hinsert).mpr rfl) fun other row hother hcreated => ?_
          obtain rfl := Except.ok.inj hother
          cases hrow.symm.trans hcreated
      | ok row =>
          by_cases hmay : db.MayInsert input.fromTable row currentUser
          · rw [createsWhole_inserted_iff hreachable.wellFormed htable hrow hmay]
            constructor
            · intro h other new hother hnew _
              obtain rfl := Except.ok.inj hother
              obtain rfl := Except.ok.inj (hrow.symm.trans hnew)
              exact h
            · exact fun h => h table row rfl hrow hmay
          · obtain ⟨err, herr⟩ :=
              checked_of_not_mayInsert hmay (db.afterEngine choices.orders (.insert input.fromTable [row]))
            have hinsert := @createInsert_of_row _ _ _ argon2 choices _ _ _ _ _ htable hrow _ herr
            refine iff_of_true ((createsWhole_of_error hinsert).mpr rfl) fun other new hother hnew hnow => ?_
            obtain rfl := Except.ok.inj hother
            obtain rfl := Except.ok.inj (hrow.symm.trans hnew)
            exact absurd hnow hmay

end

section Samples

open scoped AsciiCase PlainText

/-- A table, and a user who may insert into it but not read it. -/
def creators : List AdminCall :=
  [.createTable "item" [.new "name" .text] none, .createUser "ann" "x" "s", .grantPermission "ann" "item" (.insert [])]

/-- The database after the calls. -/
def creatable : Database := creators.foldl (adminStep .plain) empty

theorem creatable_reachable : Reachable .plain creatable :=
  ⟨.quiet, empty, empty_opened .plain,
    @Reaches.foldl _ _ (eventStep .plain) (creators.map fun call => .history (.admin call)) empty⟩

/-- A request with the name of an item. -/
def itemRequest (name : String) : CreateInput := { fromTable := "item", data := [("name", .string name)] }

/-- Another session inserts a row. -/
def insertOther (db : Database) : Database :=
  (executeAs .plain .asGiven none 0 db (.insert "item" [⟨[.text "b"]⟩])).2

/-- With nobody in between, a request without a user is answered with its row. -/
theorem createsWhole_quiet : CreatesWhole .plain .asGiven .asGiven id creatable (itemRequest "a") none := by
  rw [createsWhole_iff creatable_reachable]
  intro table row htable hrow _ _
  obtain rfl := Except.ok.inj htable
  obtain rfl := Except.ok.inj hrow
  exact ⟨nofun, nofun, by decide, _, [.text "a"], rfl, by decide, by decide⟩

/-- A user who may only insert gets an Err and the row is there, and a row that is inserted in between is returned. -/
theorem not_createsWhole :
    ¬ CreatesWhole .plain .asGiven .asGiven id creatable (itemRequest "a") (some "ann") ∧
      ¬ CreatesWhole .plain .asGiven .asGiven insertOther creatable (itemRequest "a") none := by
  constructor
  · intro h
    have hreply : (executeCreate .plain .asGiven .asGiven id creatable (itemRequest "a") (some "ann")).1 = .error _ := rfl
    rw [CreatesWhole, hreply] at h
    exact absurd h (by decide)
  · intro h
    have hreply : (executeCreate .plain .asGiven .asGiven insertOther creatable (itemRequest "a") none).1 =
        .ok (.object [("data", .object [("name", .string "b")])]) := rfl
    rw [CreatesWhole, hreply] at h
    obtain ⟨table, txid, row, fields, htable, hafter, hfields, hshows⟩ := h
    obtain rfl := Option.some.inj htable
    have hnew : some [[(⟨[.text "a"]⟩ : Row)]] = some [[row]] :=
      congrArg (Option.map (List.map (List.map RowVersion.row))) hafter
    obtain rfl := List.singleton_inj.mp (List.singleton_inj.mp (Option.some.inj hnew))
    simp only [Json.object.injEq, List.cons.injEq, Prod.mk.injEq, true_and, and_true] at hfields
    obtain rfl := hfields
    have hshown := hshows (.new "name" .text, .text "a") List.mem_cons_self
    exact absurd (Json.string.inj (Option.some.inj hshown)) (by decide)

end Samples

end Database

end HelionDb
