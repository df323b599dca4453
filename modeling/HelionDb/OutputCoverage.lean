import HelionDb.ExecuteAs
import HelionDb.PlannedQuery
import HelionDb.UserRecovery

/-! What a user sees of a SELECT. The permission check counts positions over the columns of the tables of
the statement, one table after the other, and the rows come out of the joins. Every algorithm puts the
values of the left side before those of the right side, whichever side it builds from, so the two ways of
counting agree: a cell of the result is a value of the column whose permission was checked for it. -/

namespace HelionDb

/-! ### Rows of joined tables -/

/-- What a table contributes to a joined row: the values of a row that the snapshot sees or, where rows are
padded, as many NULLs. -/
def Piece (ctx : ExecContext) (padded : Bool) (name : String) (values : List Datum) : Prop :=
  ∃ table, findTable name ctx.tables = some table ∧
    ((∃ rowIdx row, table.visibleAt ctx.snapshot rowIdx = some row ∧ values = row.values) ∨
      padded = true ∧ values = padding table.columns.length)

/-- A row made of one piece for each table. -/
def JoinedRow (ctx : ExecContext) (padded : Bool) (info : List (String × List ColumnMeta)) (row : List Datum) :
    Prop :=
  ∃ pieces, List.Forall₂ (fun entry => Piece ctx padded entry.1) info pieces ∧ row = pieces.flatten

/-- A row of a join: rows of both sides side by side, or one of them next to NULLs. -/
inductive JoinsRows (joinType : JoinType) (leftWidth rightWidth : Nat) (leftRow rightRow : List Datum → Prop) :
    List Datum → Prop where
  | both {left right : List Datum} (hleft : leftRow left) (hright : rightRow right) :
      JoinsRows joinType leftWidth rightWidth leftRow rightRow (left ++ right)
  | leftOnly {left : List Datum} (hleft : leftRow left) (htype : joinType = .left) :
      JoinsRows joinType leftWidth rightWidth leftRow rightRow (left ++ padding rightWidth)
  | rightOnly {right : List Datum} (hright : rightRow right) (htype : joinType = .right) :
      JoinsRows joinType leftWidth rightWidth leftRow rightRow (padding leftWidth ++ right)

section

variable {ctx : ExecContext} {padded : Bool}

theorem combinedLen_append (left right : List (String × List ColumnMeta)) :
    combinedLen (left ++ right) = combinedLen left + combinedLen right := by
  simp [combinedLen]

theorem slotsWidth_shiftSlots (width : Nat) (slots : List Expression.TableSlot) :
    slotsWidth (shiftSlots width slots) = slotsWidth slots := by
  simp [slotsWidth, shiftSlots, Function.comp_def]

theorem slotsWidth_joinSlots (left right : List Expression.TableSlot) :
    slotsWidth (joinSlots left right) = slotsWidth left + slotsWidth right := by
  calc slotsWidth (joinSlots left right)
    _ = slotsWidth left + slotsWidth (shiftSlots (slotsWidth left) right) := by simp [slotsWidth, joinSlots]
    _ = slotsWidth left + slotsWidth right := by rw [slotsWidth_shiftSlots]

/-- The columns that conditions are evaluated over are as many as those of the tables of the tree. -/
theorem slotsWidth_slots (plan : QueryPlan) : slotsWidth plan.slots = combinedLen plan.tableInfo := by
  induction plan with
  | tableScan table columns condition indexName indexKeys => simp [QueryPlan.slots, QueryPlan.tableInfo, slotsWidth, combinedLen]
  | join left right joinType algorithm ihLeft ihRight =>
      rw [QueryPlan.slots, slotsWidth_joinSlots, ihLeft, ihRight]
      exact (combinedLen_append _ _).symm
  | filter input predicate ih => exact ih
  | projection input columns tableMap ih => exact ih
  | sort input orderBy ih => exact ih
  | limit input count offset ih => exact ih

theorem padding_add (left right : Nat) : padding (left + right) = padding left ++ padding right :=
  List.replicate_add left right Datum.null

/-- Rows of two sides make up a row of the tables of both. -/
theorem JoinedRow.append {left right : List (String × List ColumnMeta)} {leftRow rightRow : List Datum}
    (hleft : JoinedRow ctx padded left leftRow) (hright : JoinedRow ctx padded right rightRow) :
    JoinedRow ctx padded (left ++ right) (leftRow ++ rightRow) := by
  obtain ⟨leftPieces, hleftPieces, rfl⟩ := hleft
  obtain ⟨rightPieces, hrightPieces, rfl⟩ := hright
  exact ⟨leftPieces ++ rightPieces, List.rel_append hleftPieces hrightPieces, List.flatten_append.symm⟩

/-- NULLs stand for a row of tables that there are. -/
theorem JoinedRow.padding {info : List (String × List ColumnMeta)}
    (hinfo : ∀ entry ∈ info, ∃ table, findTable entry.1 ctx.tables = some table ∧ table.columns = entry.2) :
    JoinedRow ctx true info (padding (combinedLen info)) := by
  induction info with
  | nil => exact ⟨[], .nil, rfl⟩
  | cons entry rest ih =>
      rw [List.forall_mem_cons] at hinfo
      obtain ⟨⟨table, htable, hcolumns⟩, hrest⟩ := hinfo
      have hpiece : Piece ctx true entry.1 (HelionDb.padding entry.2.length) :=
        ⟨table, htable, .inr ⟨rfl, congrArg (fun columns => HelionDb.padding columns.length) hcolumns.symm⟩⟩
      have hsum : combinedLen (entry :: rest) = entry.2.length + combinedLen rest := by simp [combinedLen]
      obtain ⟨pieces, hpieces, hflat⟩ := ih hrest
      refine ⟨HelionDb.padding entry.2.length :: pieces, .cons hpiece hpieces, ?_⟩
      rw [hsum, padding_add, hflat, List.flatten_cons]

/-- A planned tree reads tables that there are. -/
theorem known_of_wellPlanned {rules : PlanRules} {tables : List Table} {plan : QueryPlan}
    (h : plan.WellPlanned rules tables) :
    ∀ entry ∈ plan.tableInfo, ∃ table, findTable entry.1 tables = some table ∧ table.columns = entry.2 := by
  induction plan with
  | tableScan name columns condition indexName indexKeys =>
      intro entry hentry
      obtain rfl := List.mem_singleton.mp hentry
      exact h.1.2
  | join left right joinType algorithm ihLeft ihRight =>
      intro entry hentry
      exact (List.mem_append.mp hentry).elim (ihLeft h.1 entry) (ihRight h.2.1 entry)
  | filter input predicate ih => exact ih h.1
  | projection input columns tableMap ih => exact h.elim
  | sort input orderBy ih => exact ih h.1
  | limit input count offset ih => exact ih h

/-- A join of rows of planned sides makes rows of the tables of both. -/
theorem joinedRow_of_joinsRows {rules : PlanRules} {left right : QueryPlan} {joinType : JoinType}
    {leftRow rightRow : List Datum → Prop} {row : List Datum}
    (hplannedLeft : left.WellPlanned rules ctx.tables) (hplannedRight : right.WellPlanned rules ctx.tables)
    (hpadded : joinType = .left ∨ joinType = .right → padded = true)
    (hleft : ∀ row, leftRow row → JoinedRow ctx padded left.tableInfo row)
    (hright : ∀ row, rightRow row → JoinedRow ctx padded right.tableInfo row)
    (h : JoinsRows joinType (slotsWidth left.slots) (slotsWidth right.slots) leftRow rightRow row) :
    JoinedRow ctx padded (left.tableInfo ++ right.tableInfo) row := by
  rw [slotsWidth_slots, slotsWidth_slots] at h
  cases h with
  | both hl hr => exact (hleft _ hl).append (hright _ hr)
  | leftOnly hl htype =>
      obtain rfl := hpadded (.inl htype)
      exact (hleft _ hl).append (.padding (known_of_wellPlanned hplannedRight))
  | rightOnly hr htype =>
      obtain rfl := hpadded (.inr htype)
      exact JoinedRow.append (.padding (known_of_wellPlanned hplannedLeft)) (hright _ hr)

end

section

variable [CaseMapping] [Rendering] {choices : QueryChoices} {joinType : JoinType}
  {leftSlots rightSlots : List Expression.TableSlot} {leftRows rightRows : DataRows} {row : List Datum}

theorem joinsRows_combineLeft {slots : List Expression.TableSlot} {condition : Option Expression}
    {leftWidth rightWidth : Nat} {leftRow : List Datum} {candidates : DataRows} {isLeft isRight : List Datum → Prop}
    (hleft : isLeft leftRow) (hright : ∀ candidate ∈ candidates, isRight candidate)
    (h : row ∈ combineLeft choices slots joinType condition rightWidth leftRow candidates) :
    JoinsRows joinType leftWidth rightWidth isLeft isRight row := by
  unfold combineLeft at h
  dsimp only at h
  split at h
  · rename_i hnone
    rw [Bool.and_eq_true] at hnone
    rw [List.mem_singleton.mp h]
    exact .leftOnly hleft (of_decide_eq_true hnone.2)
  · obtain ⟨candidate, hcandidate, rfl⟩ := List.mem_map.mp (List.mem_filter.mp h).1
    exact .both hleft (hright candidate hcandidate)

theorem joinsRows_nestedLoopJoin {onClause : Option Expression}
    (h : row ∈ nestedLoopJoin choices leftSlots rightSlots joinType onClause leftRows rightRows) :
    JoinsRows joinType (slotsWidth leftSlots) (slotsWidth rightSlots) (· ∈ leftRows) (· ∈ rightRows) row := by
  rcases List.mem_append.mp h with hmatched | hunmatched
  · obtain ⟨leftRow, hleft, hrow⟩ := List.mem_flatMap.mp hmatched
    exact joinsRows_combineLeft hleft (fun _ hmem => hmem) hrow
  · split at hunmatched
    · rename_i htype
      obtain ⟨rightRow, hright, rfl⟩ := List.mem_map.mp hunmatched
      exact .rightOnly (List.mem_filter.mp hright).1 htype
    · cases hunmatched

theorem joinsRows_indexNestedLoopJoin {innerSlot : Expression.TableSlot} {outerKeyIndices : List Nat}
    {remainingOn : Option Expression} {innerRows : List Datum → DataRows} {leftWidth : Nat}
    {isInner : List Datum → Prop} (hinner : ∀ key, ∀ row ∈ innerRows key, isInner row)
    (h : row ∈ indexNestedLoopJoin choices leftSlots innerSlot joinType outerKeyIndices remainingOn innerRows leftRows) :
    JoinsRows joinType leftWidth innerSlot.columns.length (· ∈ leftRows) isInner row := by
  obtain ⟨outerRow, houter, hrow⟩ := List.mem_flatMap.mp h
  exact joinsRows_combineLeft houter (hinner _) hrow

/-- Whichever side a hash join builds from, the values of the left side come first. -/
theorem joinsRows_hashJoin {buildLeft : Bool} {buildKeyIndices probeKeyIndices : List Nat}
    {remainingOn : Option Expression}
    (h : row ∈ hashJoin choices leftSlots rightSlots joinType buildLeft buildKeyIndices probeKeyIndices remainingOn
      leftRows rightRows) :
    JoinsRows joinType (slotsWidth leftSlots) (slotsWidth rightSlots) (· ∈ leftRows) (· ∈ rightRows) row := by
  have hunmatchedRow (test : List Datum → Bool) {keyIndices : List Nat} {rows : DataRows} {row : List Datum}
      (hmem : row ∈ (((HashTable.build keyIndices rows).iterated choices).filter fun entry => test entry.1).flatMap
        Prod.snd) : row ∈ rows := by
    have hbuilt := @HashTable.rowsWhere_build_perm keyIndices rows test
    have hrow := ((HashTable.iterated_perm.filter _).flatMap_right _).mem_iff.mp hmem
    exact (List.mem_filter.mp (hbuilt.mem_iff.mp hrow)).1
  rcases List.mem_append.mp h with hmatched | hunmatched
  · obtain ⟨probeRow, hprobe, hrow⟩ := List.mem_flatMap.mp hmatched
    replace hrow := (List.mem_ite_nil_left.mp hrow).2
    obtain ⟨buildRow, hbuild, rfl⟩ := List.mem_map.mp (List.mem_filter.mp hrow).1
    rw [HashTable.lookup_build] at hbuild
    replace hbuild := (List.mem_filter.mp hbuild).1
    cases buildLeft with
    | true => exact .both hbuild hprobe
    | false => exact .both hprobe hbuild
  · split at hunmatched
    · rename_i htype
      obtain ⟨rfl, rfl⟩ := htype
      obtain ⟨leftRow, hleft, rfl⟩ := List.mem_map.mp hunmatched
      exact .leftOnly (hunmatchedRow (fun key => !probeHasKey key rightRows probeKeyIndices) hleft) rfl
    · split at hunmatched
      · rename_i htype
        obtain ⟨rfl, hbuild⟩ := htype
        obtain ⟨rightRow, hright, rfl⟩ := List.mem_map.mp hunmatched
        cases buildLeft with
        | true => cases hbuild
        | false => exact .rightOnly (hunmatchedRow (fun key => !probeHasKey key leftRows buildKeyIndices) hright) rfl
      · cases hunmatched

end

section

variable {ctx : ExecContext} {padded : Bool}

theorem visible_of_mem_indexedRows {table : Table} {index : Index} {snapshot : Snapshot} {key : List Datum}
    {values : List Datum} (h : values ∈ indexedRows table index snapshot key) :
    ∃ rowIdx row, table.visibleAt snapshot rowIdx = some row ∧ values = row.values := by
  unfold indexedRows at h
  split at h
  · cases h
  · obtain ⟨rowIdx, -, hrow⟩ := List.mem_filterMap.mp h
    obtain ⟨row, hvisible, rfl⟩ := Option.map_eq_some_iff.mp hrow
    exact ⟨rowIdx, row, hvisible, rfl⟩

theorem visible_of_mem_scanRows {table : Table} {indexName : Option String} {indexKeys : Option (List Datum)}
    {rows : DataRows} (hrun : scanRows ctx table indexName indexKeys = .ok rows) {values : List Datum}
    (h : values ∈ rows) : ∃ rowIdx row, table.visibleAt ctx.snapshot rowIdx = some row ∧ values = row.values := by
  unfold scanRows at hrun
  split at hrun
  · cases hrun
    obtain ⟨⟨rowIdx, row⟩, hmem, rfl⟩ := List.mem_map.mp h
    obtain ⟨chain, hchain, version, hversion, rfl⟩ := Table.mem_scanVisible.mp hmem
    refine ⟨rowIdx, version.row, ?_, rfl⟩
    rw [Table.visibleAt, hchain, Option.bind_some, hversion, Option.map_some]
  · split at hrun
    · cases hrun
    · cases hrun
      exact visible_of_mem_indexedRows h

variable [CaseMapping] [Rendering]

/-- Every row of a planned tree is made of rows of its tables, in their order. -/
theorem joinedRow_executeTree {rules : PlanRules} {plan : QueryPlan} (hplanned : plan.WellPlanned rules ctx.tables)
    (houter : plan.outer = true → padded = true) {rows : DataRows} (hrun : executeTree ctx plan = .ok rows) :
    ∀ row ∈ rows, JoinedRow ctx padded plan.tableInfo row := by
  induction plan generalizing rows with
  | tableScan name columns condition indexName indexKeys =>
      intro row hrow
      obtain ⟨found, hfound, hrun⟩ := Loop.bind_ok_iff.mp hrun
      obtain ⟨visible, hvisible, hrun⟩ := Loop.bind_ok_iff.mp hrun
      cases hrun
      obtain ⟨⟨-, table, htable, rfl⟩, -, -⟩ := hplanned
      obtain rfl := Option.some.inj (htable.symm.trans (requireTable_ok_iff.mp hfound))
      have hpiece := visible_of_mem_scanRows hvisible (List.mem_filter.mp hrow).1
      exact ⟨[row], .cons ⟨table, htable, .inl hpiece⟩ .nil, by simp⟩
  | join left right joinType algorithm ihLeft ihRight =>
      intro row hrow
      obtain ⟨hleft, hright, halgorithm⟩ := hplanned
      simp only [QueryPlan.outer, Bool.or_eq_true, decide_eq_true_eq] at houter
      have houterLeft : left.outer = true → padded = true := fun h => houter (.inl (.inl (.inl h)))
      have houterRight : right.outer = true → padded = true := fun h => houter (.inl (.inl (.inr h)))
      have htype : joinType = .left ∨ joinType = .right → padded = true :=
        fun h => houter (h.elim (fun h => .inl (.inr h)) .inr)
      cases algorithm with
      | nestedLoop onClause =>
          obtain ⟨leftRows, hleftRun, hrun⟩ := Loop.bind_ok_iff.mp hrun
          obtain ⟨rightRows, hrightRun, hrun⟩ := Loop.bind_ok_iff.mp hrun
          cases hrun
          exact joinedRow_of_joinsRows hleft hright htype (ihLeft hleft houterLeft hleftRun)
            (ihRight hright houterRight hrightRun) (joinsRows_nestedLoopJoin hrow)
      | indexNestedLoop innerTable innerColumns indexName keys remainingOn =>
          obtain ⟨outerRows, houterRun, hrun⟩ := Loop.bind_ok_iff.mp hrun
          obtain ⟨inner, hinner, hrun⟩ := Loop.bind_ok_iff.mp hrun
          split at hrun
          · cases hrun
          · cases hrun
            obtain ⟨hinfo, ⟨-, table, htable, hcolumns⟩, -⟩ := halgorithm
            obtain rfl := Option.some.inj (htable.symm.trans (requireTable_ok_iff.mp hinner))
            have hwidth : slotsWidth right.slots = innerColumns.length := by
              rw [slotsWidth_slots, hinfo]
              simp [combinedLen]
            refine joinedRow_of_joinsRows hleft hright htype (ihLeft hleft houterLeft houterRun)
              (fun values hvalues => ?_)
              (hwidth ▸ joinsRows_indexNestedLoopJoin (fun key _ hmem => visible_of_mem_indexedRows hmem) hrow)
            rw [hinfo]
            exact ⟨[values], .cons ⟨table, htable, .inl hvalues⟩ .nil, by simp⟩
      | hashJoin buildLeft buildKeys probeKeys remainingOn =>
          obtain ⟨leftRows, hleftRun, hrun⟩ := Loop.bind_ok_iff.mp hrun
          obtain ⟨rightRows, hrightRun, hrun⟩ := Loop.bind_ok_iff.mp hrun
          cases hrun
          exact joinedRow_of_joinsRows hleft hright htype (ihLeft hleft houterLeft hleftRun)
            (ihRight hright houterRight hrightRun) (joinsRows_hashJoin hrow)
  | filter input predicate ih =>
      intro row hrow
      obtain ⟨inputRows, hinput, hrun⟩ := Loop.bind_ok_iff.mp hrun
      cases hrun
      exact ih hplanned.1 houter hinput row (List.mem_filter.mp hrow).1
  | projection input columns tableMap ih => exact hplanned.elim
  | sort input orderBy ih =>
      intro row hrow
      obtain ⟨inputRows, hinput, hrun⟩ := Loop.bind_ok_iff.mp hrun
      cases hrun
      exact ih hplanned.1 houter hinput row (sortRows_perm.mem_iff.mp hrow)
  | limit input count offset ih =>
      intro row hrow
      obtain ⟨inputRows, hinput, hrun⟩ := Loop.bind_ok_iff.mp hrun
      cases hrun
      exact ih hplanned houter hinput row (List.mem_of_mem_drop (List.mem_of_mem_take hrow))

end

/-- The number of the table that a position over all columns falls into, and the position in that table. -/
def placeOf : List (String × List ColumnMeta) → Nat → Nat × Nat
  | [], idx => (0, idx)
  | entry :: rest, idx =>
      if idx < entry.2.length then (0, idx)
      else ((placeOf rest (idx - entry.2.length)).1 + 1, (placeOf rest (idx - entry.2.length)).2)

section

variable {tableMap : List (String × List ColumnMeta)} {idx : Nat}

/-- A position within all columns is one of a column of a table. -/
theorem placeOf_column (h : idx < combinedLen tableMap) :
    ∃ entry column, tableMap[(placeOf tableMap idx).1]? = some entry ∧
      entry.2[(placeOf tableMap idx).2]? = some column := by
  induction tableMap generalizing idx with
  | nil => exact absurd h (Nat.not_lt_zero idx)
  | cons entry rest ih =>
      rw [combinedLen_cons] at h
      rw [placeOf]
      split
      · rename_i hlt
        exact ⟨entry, entry.2[idx], rfl, List.getElem?_eq_getElem hlt⟩
      · obtain ⟨found, column, hfound, hcolumn⟩ := ih (show idx - entry.2.length < combinedLen rest by omega)
        exact ⟨found, column, by rw [List.getElem?_cons_succ, hfound], hcolumn⟩

/-- In a row made of pieces as wide as the tables, the value at a position is the one at its place. -/
theorem placeOf_value {pieces : List (List Datum)}
    (hwidth : List.Forall₂ (fun entry values => values.length = entry.2.length) tableMap pieces)
    (h : idx < combinedLen tableMap) :
    ∃ values value, pieces[(placeOf tableMap idx).1]? = some values ∧
      values[(placeOf tableMap idx).2]? = some value ∧ pieces.flatten[idx]? = some value := by
  induction hwidth generalizing idx with
  | nil => exact absurd h (Nat.not_lt_zero idx)
  | @cons entry values rest others hlength hrest ih =>
      rw [combinedLen_cons] at h
      rw [placeOf, List.flatten_cons]
      split
      · rename_i hlt
        have hvalue := List.getElem?_eq_getElem (hlength ▸ hlt)
        exact ⟨values, _, rfl, hvalue, by rw [List.getElem?_append_left (hlength ▸ hlt), hvalue]⟩
      · rename_i hge
        obtain ⟨found, value, hfound, hvalue, hflat⟩ := ih (show idx - entry.2.length < combinedLen rest by omega)
        refine ⟨found, value, by rw [List.getElem?_cons_succ, hfound], hvalue, ?_⟩
        rw [List.getElem?_append_right (by omega), hlength, hflat]

/-- The scan over the tables stops at the one that a position falls into. -/
theorem findSome_locateIn (whole : List (String × List ColumnMeta)) {offset : Nat}
    (hfind : ∀ entry ∈ tableMap, whole.find? (fun other => other.1 = entry.1) = some entry) (hle : offset ≤ idx)
    (h : idx - offset < combinedLen tableMap) {entry : String × List ColumnMeta} {column : ColumnMeta}
    (hentry : tableMap[(placeOf tableMap (idx - offset)).1]? = some entry)
    (hcolumn : entry.2[(placeOf tableMap (idx - offset)).2]? = some column) :
    (tableOffsets offset tableMap).findSome? (locateIn whole idx) = some (entry.1, column.name) := by
  induction tableMap generalizing offset with
  | nil => exact absurd h (Nat.not_lt_zero _)
  | cons first rest ih =>
      rw [List.forall_mem_cons] at hfind
      rw [placeOf] at hentry hcolumn
      rw [tableOffsets, List.findSome?_cons, locateIn, hfind.1]
      dsimp only
      by_cases hlt : idx - offset < first.2.length
      · rw [if_pos hlt] at hentry hcolumn
        obtain rfl := Option.some.inj hentry
        rw [if_pos ⟨hle, by omega⟩, hcolumn]
        rfl
      · rw [if_neg hlt] at hentry hcolumn
        rw [if_neg (fun hin => hlt (by omega))]
        have hrest : idx - (offset + first.2.length) = idx - offset - first.2.length := by omega
        rw [combinedLen_cons] at h
        rw [List.getElem?_cons_succ, ← hrest] at hentry
        rw [← hrest] at hcolumn
        exact ih hfind.2 (by omega) (by omega) hentry hcolumn

/-- The check locates a position at its place, as long as tables of one name have the same columns. -/
theorem locateColumn_placeOf (hsame : ∀ left ∈ tableMap, ∀ right ∈ tableMap, left.1 = right.1 → left = right)
    (h : idx < combinedLen tableMap) {entry : String × List ColumnMeta} {column : ColumnMeta}
    (hentry : tableMap[(placeOf tableMap idx).1]? = some entry)
    (hcolumn : entry.2[(placeOf tableMap idx).2]? = some column) :
    locateColumn tableMap idx = some (entry.1, column.name) := by
  have hfind : ∀ entry ∈ tableMap, tableMap.find? (fun other => other.1 = entry.1) = some entry := by
    intro entry hmem
    cases hfound : tableMap.find? fun other => other.1 = entry.1 with
    | none => exact absurd (decide_eq_true rfl) (List.find?_eq_none.mp hfound entry hmem)
    | some other =>
        have hname : other.1 = entry.1 := by simpa using List.find?_some hfound
        rw [hsame other (List.mem_of_find?_eq_some hfound) entry hmem hname]
  exact findSome_locateIn tableMap hfind (Nat.zero_le idx) h hentry hcolumn

end

/-- The entry of a name in a table of values that is given name by name. -/
theorem find?_map_of_mem {α : Type} {names : List String} (f : String → α) {name : String} (h : name ∈ names) :
    (names.map fun name => (name, f name)).find? (fun entry => entry.1 = name) = some (name, f name) := by
  induction names with
  | nil => cases h
  | cons first rest ih =>
      rw [List.map_cons, List.find?_cons]
      by_cases hname : first = name
      · simp [hname]
      · rw [decide_eq_false hname]
        exact ih ((List.mem_cons.mp h).resolve_left (Ne.symm hname))

namespace Database

variable [CaseMapping] [Rendering] {db : Database} {choices : QueryChoices} {user : String}

theorem checkSelect_ok_iff {table : String} {columns : List String} :
    db.checkSelect user table columns = .ok () ↔ db.permissions.canSelect user table columns = true := by
  rw [checkSelect, checkAccess, PermissionStore.canSelect]
  split
  · rename_i h
    simp [h]
  · rename_i h
    simp [h]

/-- A query of a user passes the check before it runs. -/
theorem queryResult_ok {tree : QueryPlan} {result : QueryResult}
    (h : db.queryResult choices tree (some user) = .ok result) :
    db.checkPlanPermissions choices tree user = .ok () ∧ ∃ rows, executeTree (db.execContext choices) tree = .ok rows ∧
      result = { columns := tree.colNames, columnTypes := tree.colTypes,
                 rows := rows.map fun row => row.map Datum.display, rowsAffected := rows.length } := by
  unfold queryResult at h
  dsimp only at h
  obtain ⟨⟨⟩, hcheck, h⟩ := Loop.bind_ok_iff.mp h
  obtain ⟨rows, hrows, h⟩ := Loop.bind_ok_iff.mp h
  exact ⟨hcheck, rows, hrows, (Except.ok.inj h).symm⟩

/-- The user may select each column that a projection outputs. -/
theorem canSelect_of_checkPlanPermissions {input : QueryPlan} {columns : List Nat}
    {tableMap : List (String × List ColumnMeta)}
    (h : db.checkPlanPermissions choices (.projection input columns tableMap) user = .ok ()) {idx : Nat}
    (hidx : idx ∈ columns) {name column : String} (hlocated : locateColumn tableMap idx = some (name, column)) :
    db.permissions.canSelect user name [column] = true := by
  unfold checkPlanPermissions at h
  dsimp only [requiredColumns] at h
  have hneeded : (name, column) ∈ columns.filterMap (locateColumn tableMap) :=
    List.mem_filterMap.mpr ⟨idx, hidx, hlocated⟩
  generalize columns.filterMap (locateColumn tableMap) = needed at h hneeded
  have hname : name ∈ (needed.map Prod.fst).dedup := List.mem_dedup.mpr (List.mem_map_of_mem hneeded)
  have hcheck := Loop.checkAll_ok_iff.mp h name ((choices.nameOrder_perm _).mem_iff.mpr (by simpa using hname))
  rw [find?_map_of_mem _ hname] at hcheck
  refine PermissionStore.can_of_mem (checkSelect_ok_iff.mp hcheck) ?_
  exact List.mem_map.mpr ⟨(name, column), List.mem_filter.mpr ⟨hneeded, by simp⟩, rfl⟩

end Database

/-! ### Coverage -/

/-- The rows of a table are as wide as its schema. -/
def Table.RowsFit (table : Table) : Prop :=
  ∀ chain ∈ table.versionChains, ∀ version ∈ chain, version.row.values.length = table.columns.length

/-- A column of one of the tables of a statement that the user may select. -/
def Selectable [CaseMapping] (db : Database) (user : String) (names : List String) (place : Nat × Nat) : Prop :=
  ∃ table column, names[place.1]? = some table.name ∧ findTable table.name db.engine.tables = some table ∧
    table.columns[place.2]? = some column ∧ db.permissions.canSelect user table.name [column.name] = true

/-- The cell shows the value at a place in the pieces of a joined row. -/
def ShowsPlace [Rendering] (pieces : List (List Datum)) (place : Nat × Nat) (cell : String) : Prop :=
  ∃ values value, pieces[place.1]? = some values ∧ values[place.2]? = some value ∧ cell = value.display

section

variable [CaseMapping] [Rendering] [SqlText] {argon2 : Argon2} {choices : Choices} {user : String} {depth : Nat}
  {db : Database} {statement : SelectStatement} {planned : Plan} {result : QueryResult}

omit [CaseMapping] [Rendering] [SqlText] in
theorem Table.RowsFit.visible {table : Table} (h : table.RowsFit) {snapshot : Snapshot} {rowIdx : Nat} {row : Row}
    (hvisible : table.visibleAt snapshot rowIdx = some row) : row.values.length = table.columns.length := by
  obtain ⟨version, hversion, rfl⟩ := Option.map_eq_some_iff.mp hvisible
  obtain ⟨chain, hchain, hselected⟩ := Option.bind_eq_some_iff.mp hversion
  have hselect : selectVersion chain snapshot.txid snapshot.active = some version :=
    (Option.filter_eq_some_iff.mp hselected).1
  exact h chain (List.mem_of_getElem? hchain) version (List.mem_reverse.mp (List.mem_of_find?_eq_some hselect))

omit [CaseMapping] [Rendering] [SqlText] in
/-- The pieces of a joined row are as wide as their tables. -/
theorem width_of_piece {ctx : ExecContext} {padded : Bool} (hfit : ∀ table ∈ ctx.tables, table.RowsFit) {name : String}
    {table : Table} (htable : findTable name ctx.tables = some table) {values : List Datum}
    (h : Piece ctx padded name values) : values.length = table.columns.length := by
  obtain ⟨found, hfound, hpiece⟩ := h
  obtain rfl := Option.some.inj (htable.symm.trans hfound)
  obtain ⟨rowIdx, row, hvisible, rfl⟩ | ⟨-, rfl⟩ := hpiece
  · exact (hfit table (KeyedList.mem_of_lookup htable).1).visible hvisible
  · exact List.length_replicate

omit [CaseMapping] [SqlText] in
/-- A projection of positions within a joined row shows its values at their places. -/
theorem showsPlaces_keyAt {pieces : List (List Datum)} {tableMap : List (String × List ColumnMeta)}
    (hwidth : List.Forall₂ (fun entry values => values.length = entry.2.length) tableMap pieces) {columns : List Nat}
    (hcolumns : ∀ idx ∈ columns, idx < combinedLen tableMap) :
    List.Forall₂ (ShowsPlace pieces) (columns.map (placeOf tableMap))
      ((keyAt columns pieces.flatten).map Datum.display) := by
  induction columns with
  | nil => exact .nil
  | cons idx rest ih =>
      rw [List.forall_mem_cons] at hcolumns
      obtain ⟨values, value, hvalues, hvalue, hflat⟩ := placeOf_value hwidth hcolumns.1
      rw [keyAt, List.filterMap_cons, hflat, List.map_cons, List.map_cons]
      exact .cons ⟨values, value, hvalues, hvalue, rfl⟩ (ih hcolumns.2)

omit [CaseMapping] [Rendering] [SqlText] in
theorem length_qualifiedNames (tableMap : List (String × List ColumnMeta)) :
    (qualifiedNames tableMap).length = combinedLen tableMap := by
  simp [qualifiedNames, combinedLen]

omit [CaseMapping] [Rendering] [SqlText] in
/-- A projection of positions within the columns has a name for each. -/
theorem length_colNames {input : QueryPlan} {columns : List Nat} {tableMap : List (String × List ColumnMeta)}
    (hcolumns : ∀ idx ∈ columns, idx < combinedLen tableMap) :
    (QueryPlan.projection input columns tableMap).colNames.length = columns.length := by
  have hnames : ∀ idx ∈ columns, ((qualifiedNames tableMap)[idx]?).isSome := by
    intro idx hidx
    rw [List.getElem?_eq_getElem ((hcolumns idx hidx).trans_eq (length_qualifiedNames tableMap).symm)]
    rfl
  calc (columns.filterMap fun i => (qualifiedNames tableMap)[i]?).length
    _ = columns.countP fun i => ((qualifiedNames tableMap)[i]?).isSome := List.length_filterMap_eq_countP
    _ = columns.length := List.countP_eq_length.mpr hnames

/-- Every column of the result of a SELECT that a user runs is a column of one of its tables that the user may
select: in each row of the result, its cell shows the value of that column in a row of the table that the snapshot
sees, or a NULL in an outer join. -/
theorem output_covered (hfit : ∀ table ∈ db.engine.tables, table.RowsFit)
    (hplan : plan db.engine.tables (.select statement) = .ok planned)
    (hrun : (db.executeAs argon2 choices (some user) depth planned).1 = .ok result) :
    ∃ places, places.length = result.columns.length ∧ (∀ place ∈ places, Selectable db user statement.names place) ∧
      ∀ row ∈ result.rows, ∃ pieces,
        List.Forall₂ (Piece (db.execContext choices.toQueryChoices) statement.padded) statement.names pieces ∧
          List.Forall₂ (ShowsPlace pieces) places row := by
  obtain ⟨tree, htree, hquery⟩ := Loop.bind_ok_iff.mp hplan
  cases hquery
  obtain ⟨input, columns, tableMap, rfl, hsourced, hresolved, hinfo, houter, hplanned⟩ := planSelect_ok htree
  have hsame := Sourced.same hsourced
  have hcolumns := lt_of_resolveSelectColumns hsame hresolved
  -- The tree that runs is a projection over the optimized rest of the plan.
  have hkeeps : QueryPlan.Keeps (.any tableMap) db.engine.tables input (input.optimize db.engine.tables) :=
    QueryPlan.keeps_optimize input
  have hwell := hkeeps.planned (hplanned (.any tableMap) rfl fun _ _ => trivial)
  rw [Database.executeAs] at hrun
  change db.queryResult choices.toQueryChoices
    (.projection (input.optimize db.engine.tables) columns tableMap) (some user) = .ok result at hrun
  obtain ⟨hcheck, rows, hrows, rfl⟩ := Database.queryResult_ok hrun
  obtain ⟨inputRows, hinput, hproject⟩ := Loop.bind_ok_iff.mp hrows
  obtain rfl : projectRows columns (combinedLen tableMap) inputRows = rows := Except.ok.inj hproject
  refine ⟨columns.map (placeOf tableMap), ?_, ?_, ?_⟩
  · rw [List.length_map]
    exact (@length_colNames (input.optimize db.engine.tables) _ _ hcolumns).symm
  · intro place hplace
    obtain ⟨idx, hidx, rfl⟩ := List.mem_map.mp hplace
    obtain ⟨entry, column, hentry, hcolumn⟩ := placeOf_column (hcolumns idx hidx)
    obtain ⟨table, htable, hsource⟩ := Sourced.all hsourced entry (List.mem_of_getElem? hentry)
    have hname := name_of_findTable htable
    have hcolumns' : entry.2 = table.columns := congrArg Prod.snd hsource
    refine ⟨table, column, ?_, hname ▸ htable, hcolumns' ▸ hcolumn, hname ▸ ?_⟩
    · rw [Sourced.names hsourced, List.getElem?_map, hentry, hname]
      rfl
    · exact Database.canSelect_of_checkPlanPermissions hcheck hidx
        (locateColumn_placeOf hsame (hcolumns idx hidx) hentry hcolumn)
  · intro row hrow
    obtain ⟨values, hvalues, rfl⟩ := List.mem_map.mp hrow
    have hnone : ¬(columns.any (combinedLen tableMap ≤ ·) = true) := by
      simpa using hcolumns
    rw [projectRows, if_neg hnone] at hvalues
    obtain ⟨inputRow, hmem, rfl⟩ := List.mem_map.mp hvalues
    have hpadded : (input.optimize db.engine.tables).outer = true → statement.padded = true := by
      rw [hkeeps.outer, houter]
      exact id
    obtain ⟨pieces, hpieces, rfl⟩ := joinedRow_executeTree hwell hpadded hinput inputRow hmem
    rw [hkeeps.info, hinfo] at hpieces
    refine ⟨pieces, ?_, showsPlaces_keyAt ?_ hcolumns⟩
    · rw [Sourced.names hsourced]
      exact List.forall₂_map_left_iff.mpr hpieces
    · refine ((List.forall₂_and_left _ _).mpr ⟨Sourced.all hsourced, hpieces⟩).imp ?_
      rintro entry values ⟨⟨table, htable, hsource⟩, hpiece⟩
      calc values.length
        _ = table.columns.length := width_of_piece hfit htable hpiece
        _ = entry.2.length := congrArg (fun entry => entry.2.length) hsource.symm

end

section

open scoped AsciiCase PlainText
open Database (adminStep empty)

/-- Two tables and a user who may select a column of each. -/
def shopCalls : List AdminCall :=
  [.createTable "item" [.new "id" .integer, .new "price" .integer] none,
    .createTable "tag" [.new "item" .integer, .new "label" .text] none, .createUser "ann" "x" "s",
    .grantPermission "ann" "item" (.select ["id"]), .grantPermission "ann" "tag" (.select ["label"])]

/-- The tables with an item that has a tag and one that has none; the price of the first item is given. -/
def shop (price : Datum) : Database :=
  [Plan.insert "item" [⟨[.integer 1, price]⟩, ⟨[.integer 2, .integer 9]⟩],
    .insert "tag" [⟨[.integer 1, .text "new"]⟩]].foldl
      (fun db plan => (db.executeAs .plain .asGiven none 0 plan).2) (shopCalls.foldl (adminStep .plain) empty)

/-- SELECT id, label FROM item LEFT JOIN tag ON id = item. -/
def labels : SelectStatement :=
  { tableName := "item", columns := [.expr (.column "id"), .expr (.column "label")], whereClause := none, orderBy := [],
    limit := none, offset := none,
    joins := [{ rightTable := "tag", joinType := .left, onClause := some (.binaryOp (.column "id") .eq (.column "item")) }] }

/-- Its plan, a hash join that builds from the items. -/
def labelsPlan : Plan :=
  let items := [ColumnMeta.new "id" .integer, .new "price" .integer]
  let tags := [ColumnMeta.new "item" .integer, .new "label" .text]
  .query (.projection
    (.join (.tableScan "item" items none none none) (.tableScan "tag" tags none none none) .left
      (.hashJoin true [0] [0] (some (.binaryOp (.column "id") .eq (.column "item"))))) [0, 3]
    [("item", items), ("tag", tags)])

def labelsResult : QueryResult :=
  { columns := ["id", "label"], columnTypes := ["INTEGER", "TEXT"], rows := [["1", "new"], ["2", "NULL"]], rowsAffected := 2 }

theorem output_covered_labels :
    ∃ places, places.length = 2 ∧ (∀ place ∈ places, Selectable (shop (.integer 7)) "ann" ["item", "tag"] place) ∧
      ∀ row ∈ [["1", "new"], ["2", "NULL"]], ∃ pieces,
        List.Forall₂ (Piece ((shop (.integer 7)).execContext .asGiven) true) ["item", "tag"] pieces ∧
          List.Forall₂ (ShowsPlace pieces) places row := by
  have hfit : ∀ table ∈ (shop (.integer 7)).engine.tables, table.RowsFit := by
    unfold Table.RowsFit
    decide
  exact @output_covered _ _ _ .plain .asGiven "ann" 0 (shop (.integer 7)) labels labelsPlan labelsResult hfit rfl rfl

end

end HelionDb
