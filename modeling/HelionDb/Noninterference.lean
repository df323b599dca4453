import HelionDb.OutputCoverage
import HelionDb.Relational

/-! What a user can find out about columns it may not select. The check of a SELECT asks for the columns
that the projection outputs and for no others. A condition on a hidden column therefore shows in the rows
that come out. Where the user may select every column that a condition can mean, two states that differ in
hidden columns only give one result. -/

namespace HelionDb

open Relational (SameOutcome)

/-! ### References -/

namespace Expression

mutual

/-- The columns that an expression names, with their tables where it gives them. -/
def references : Expression → List (Option String × String)
  | .column name => [(none, name)]
  | .qualifiedColumn table name => [(some table, name)]
  | .literal _ => []
  | .binaryOp left _ right => left.references ++ right.references
  | .unaryOp _ inner | .isNull inner | .isNotNull inner | .inList inner _ | .like inner _ => inner.references
  | .between inner low high => inner.references ++ low.references ++ high.references
  | .function _ args => referencesAll args

/-- The columns that the arguments of a function name. -/
def referencesAll : List Expression → List (Option String × String)
  | [] => []
  | arg :: rest => arg.references ++ referencesAll rest

end

/-- The position in a table that a reference can mean, ignoring case. -/
def Means (reference : Option String × String) (entry : String × List ColumnMeta) (idx : Nat) : Prop :=
  (∀ table, reference.1 = some table → eqIgnoreAsciiCase entry.1 table = true) ∧
    positionOf entry.2 reference.2 = some idx

section

variable [CaseMapping] [Rendering] {uuidv7 : BitVec 128}
  {left right : Option String → String → Except HelionError Datum}

mutual

/-- An expression has one value under lookups that agree on the columns it names. -/
theorem evaluateWith_congr (expr : Expression)
    (h : ∀ reference ∈ expr.references, left reference.1 reference.2 = right reference.1 reference.2) :
    expr.evaluateWith uuidv7 left = expr.evaluateWith uuidv7 right := by
  cases expr with
  | column name => exact h (none, name) (List.mem_singleton_self _)
  | qualifiedColumn table name => exact h (some table, name) (List.mem_singleton_self _)
  | literal value => rfl
  | binaryOp l op r =>
      have hl := evaluateWith_congr l fun reference hmem => h reference (List.mem_append_left _ hmem)
      have hr := evaluateWith_congr r fun reference hmem => h reference (List.mem_append_right _ hmem)
      simp only [evaluateWith, hl, hr]
  | unaryOp op inner => simp only [evaluateWith, evaluateWith_congr inner h]
  | isNull inner => simp only [evaluateWith, evaluateWith_congr inner h]
  | isNotNull inner => simp only [evaluateWith, evaluateWith_congr inner h]
  | inList inner list => simp only [evaluateWith, evaluateWith_congr inner h]
  | between inner low high =>
      have hinner := evaluateWith_congr inner fun reference hmem =>
        h reference (List.mem_append_left _ (List.mem_append_left _ hmem))
      have hlow := evaluateWith_congr low fun reference hmem =>
        h reference (List.mem_append_left _ (List.mem_append_right _ hmem))
      have hhigh := evaluateWith_congr high fun reference hmem => h reference (List.mem_append_right _ hmem)
      simp only [evaluateWith, hinner, hlow, hhigh]
  | like inner pattern => simp only [evaluateWith, evaluateWith_congr inner h]
  | function name args => simp only [evaluateWith, evaluateAll_congr args h]

theorem evaluateAll_congr (args : List Expression)
    (h : ∀ reference ∈ referencesAll args, left reference.1 reference.2 = right reference.1 reference.2) :
    evaluateAll uuidv7 left args = evaluateAll uuidv7 right args := by
  cases args with
  | nil => rfl
  | cons arg rest =>
      have harg := evaluateWith_congr arg fun reference hmem => h reference (List.mem_append_left _ hmem)
      have hrest := evaluateAll_congr rest fun reference hmem => h reference (List.mem_append_right _ hmem)
      simp only [evaluateAll, harg, hrest]

end

end

end Expression

/-- The columns that a user sees: by the name of the table, its columns and the position in them. -/
abbrev Sight := String → List ColumnMeta → Nat → Prop

/-- The positions that a user sees in a row of joined tables. -/
def Sight.within (sight : Sight) : List (String × List ColumnMeta) → Nat → Prop
  | [], _ => False
  | entry :: rest, idx =>
      if idx < entry.2.length then sight entry.1 entry.2 idx else sight.within rest (idx - entry.2.length)

/-- Rows of joined tables that agree where the user sees them. -/
structure Agree (sight : Sight) (info : List (String × List ColumnMeta)) (left right : List Datum) : Prop where
  leftWidth : left.length = combinedLen info
  rightWidth : right.length = combinedLen info
  visible : ∀ idx, sight.within info idx → left[idx]? = right[idx]?

section

variable {sight : Sight} {left right : List Datum} {leftInfo rightInfo : List (String × List ColumnMeta)}

theorem within_append (idx : Nat) : sight.within (leftInfo ++ rightInfo) idx ↔
    if idx < combinedLen leftInfo then sight.within leftInfo idx
    else sight.within rightInfo (idx - combinedLen leftInfo) := by
  induction leftInfo generalizing idx with
  | nil => simp [combinedLen]
  | cons entry rest ih =>
      rw [List.cons_append, Sight.within, Sight.within, combinedLen_cons]
      by_cases hfirst : idx < entry.2.length
      · rw [if_pos hfirst, if_pos hfirst, if_pos (by omega)]
      · rw [if_neg hfirst, if_neg hfirst, ih]
        by_cases hrest : idx - entry.2.length < combinedLen rest
        · rw [if_pos hrest, if_pos (by omega)]
        · rw [if_neg hrest, if_neg (by omega), Nat.sub_sub]

theorem Agree.append {left' right' : List Datum} (h : Agree sight leftInfo left left')
    (hnext : Agree sight rightInfo right right') :
    Agree sight (leftInfo ++ rightInfo) (left ++ right) (left' ++ right') := by
  refine ⟨?_, ?_, fun idx hidx => ?_⟩
  · rw [List.length_append, h.leftWidth, hnext.leftWidth, combinedLen_append]
  · rw [List.length_append, h.rightWidth, hnext.rightWidth, combinedLen_append]
  · rw [within_append] at hidx
    split at hidx
    · rename_i hlt
      rw [List.getElem?_append_left (hlt.trans_eq h.leftWidth.symm),
        List.getElem?_append_left (hlt.trans_eq h.rightWidth.symm)]
      exact h.visible idx hidx
    · rename_i hge
      have hle : combinedLen leftInfo ≤ idx := Nat.not_lt.mp hge
      rw [List.getElem?_append_right (h.leftWidth.trans_le hle), List.getElem?_append_right (h.rightWidth.trans_le hle),
        h.leftWidth, h.rightWidth]
      exact hnext.visible _ hidx

theorem agree_padding (info : List (String × List ColumnMeta)) :
    Agree sight info (padding (combinedLen info)) (padding (combinedLen info)) :=
  ⟨List.length_replicate, List.length_replicate, fun _ _ => rfl⟩

/-- Rows that agree have one key at visible positions. -/
theorem Agree.keyAt_eq {info : List (String × List ColumnMeta)} (h : Agree sight info left right) {indices : List Nat}
    (hindices : ∀ idx ∈ indices, sight.within info idx) : keyAt indices left = keyAt indices right :=
  List.filterMap_congr fun idx hidx => h.visible idx (hindices idx hidx)

end

section

open Expression (TableSlot Means lookupJoin findUnqualified positionOf)

/-- The tables of a combined row from a position on. -/
def slotsFrom : (offset : Nat) → List (String × List ColumnMeta) → List TableSlot
  | _, [] => []
  | offset, entry :: rest =>
      { name := entry.1, offset, columns := entry.2 } :: slotsFrom (offset + entry.2.length) rest

theorem shiftSlots_slotsFrom (width offset : Nat) (info : List (String × List ColumnMeta)) :
    shiftSlots width (slotsFrom offset info) = slotsFrom (offset + width) info := by
  induction info generalizing offset with
  | nil => rfl
  | cons entry rest ih =>
      have hoffset : offset + entry.2.length + width = offset + width + entry.2.length := by omega
      change _ :: shiftSlots width (slotsFrom (offset + entry.2.length) rest) = _
      rw [ih, hoffset, slotsFrom]

theorem slotsFrom_append (offset : Nat) (left right : List (String × List ColumnMeta)) :
    slotsFrom offset (left ++ right) = slotsFrom offset left ++ slotsFrom (offset + combinedLen left) right := by
  induction left generalizing offset with
  | nil => rfl
  | cons entry rest ih => rw [List.cons_append, slotsFrom, ih, slotsFrom, List.cons_append, combinedLen_cons, Nat.add_assoc]

/-- Conditions on the rows of a tree are evaluated over its tables, one behind the other. -/
theorem slots_eq (plan : QueryPlan) : plan.slots = slotsFrom 0 plan.tableInfo := by
  induction plan with
  | tableScan table columns condition indexName indexKeys => rfl
  | join left right joinType algorithm ihLeft ihRight =>
      calc joinSlots left.slots right.slots
        _ = left.slots ++ shiftSlots (combinedLen left.tableInfo) right.slots := by rw [joinSlots, slotsWidth_slots]
        _ = slotsFrom 0 left.tableInfo ++ slotsFrom (0 + combinedLen left.tableInfo) right.tableInfo := by
          rw [ihLeft, ihRight, shiftSlots_slotsFrom]
        _ = slotsFrom 0 (left.tableInfo ++ right.tableInfo) := (slotsFrom_append _ _ _).symm
  | filter input predicate ih => exact ih
  | projection input columns tableMap ih => exact ih
  | sort input orderBy ih => exact ih
  | limit input count offset ih => exact ih

variable {sight : Sight} {info : List (String × List ColumnMeta)} {left right : List Datum}

/-- A user sees a position of a combined row where it sees the column of the table. -/
theorem within_of_mem_slotsFrom {offset : Nat} {slot : TableSlot} (h : slot ∈ slotsFrom offset info) :
    (slot.name, slot.columns) ∈ info ∧ offset ≤ slot.offset ∧
      ∀ idx < slot.columns.length, sight slot.name slot.columns idx → sight.within info (slot.offset - offset + idx) := by
  induction info generalizing offset with
  | nil => cases h
  | cons entry rest ih =>
      rcases List.mem_cons.mp h with rfl | hrest
      · refine ⟨List.mem_cons_self, Nat.le_refl _, fun idx hlt hsight => ?_⟩
        rw [Nat.sub_self, Nat.zero_add, Sight.within, if_pos hlt]
        exact hsight
      · obtain ⟨hmem, hle, hwithin⟩ := ih hrest
        refine ⟨List.mem_cons_of_mem _ hmem, by omega, fun idx hlt hsight => ?_⟩
        have hposition :
            slot.offset - offset + idx - entry.2.length = slot.offset - (offset + entry.2.length) + idx := by
          omega
        rw [Sight.within, if_neg (by omega), hposition]
        exact hwithin idx hlt hsight

theorem findUnqualified_some {name : String} {slots : List TableSlot} {found : Option Nat} {idx : Nat}
    (h : findUnqualified name found slots = .ok (some idx)) :
    found = some idx ∨ ∃ slot ∈ slots, ∃ position, positionOf slot.columns name = some position ∧
      idx = slot.offset + position := by
  fun_induction findUnqualified name found slots with
  | case1 found => exact .inl (Except.ok.inj h)
  | case2 found slot rest hnone ih =>
      rcases ih h with hfound | ⟨other, hmem, hother⟩
      · exact .inl hfound
      · exact .inr ⟨other, List.mem_cons_of_mem _ hmem, hother⟩
  | case3 slot rest position hposition other => cases h
  | case4 slot rest position hposition ih =>
      rcases ih h with hfound | ⟨other, hmem, hother⟩
      · exact .inr ⟨slot, List.mem_cons_self, position, hposition, (Option.some.inj hfound).symm⟩
      · exact .inr ⟨other, List.mem_cons_of_mem _ hmem, hother⟩

/-- A reference has one value in rows that agree, when the user sees all that it can mean. -/
theorem lookupJoin_eq (h : Agree sight info left right) {reference : Option String × String}
    (hsees : ∀ entry ∈ info, ∀ idx, Means reference entry idx → sight entry.1 entry.2 idx) :
    lookupJoin left (slotsFrom 0 info) reference.1 reference.2 =
      lookupJoin right (slotsFrom 0 info) reference.1 reference.2 := by
  have hvalue : ∀ slot ∈ slotsFrom 0 info, ∀ position, Means reference (slot.name, slot.columns) position →
      left[slot.offset + position]? = right[slot.offset + position]? := by
    intro slot hslot position hmeans
    obtain ⟨hmem, -, hwithin⟩ := @within_of_mem_slotsFrom sight _ _ _ hslot
    rw [← Nat.sub_zero slot.offset]
    exact h.visible _ (hwithin position (lt_of_positionOf hmeans.2) (hsees _ hmem position hmeans))
  obtain ⟨table, name⟩ := reference
  unfold lookupJoin
  cases table with
  | some table =>
      dsimp only
      split
      · rfl
      · rename_i slot hfound
        split
        · rfl
        · rename_i position hposition
          have hname : eqIgnoreAsciiCase slot.name table = true := by simpa using List.find?_some hfound
          rw [hvalue slot (List.mem_of_find?_eq_some hfound) position ⟨fun _ hsome => Option.some.inj hsome ▸ hname, hposition⟩]
  | none =>
      dsimp only
      split
      · rfl
      · rfl
      · rename_i idx hfound
        rcases findUnqualified_some hfound with hnone | ⟨slot, hslot, position, hposition, rfl⟩
        · cases hnone
        · rw [hvalue slot hslot position ⟨fun _ hsome => (nomatch hsome), hposition⟩]

end

/-- What the planner sees of a table: its name, its columns and the definitions of its indexes. -/
structure SameOutline (left right : Table) : Prop where
  name : left.name = right.name
  columns : left.columns = right.columns
  definitions : List.Forall₂ (fun index other : Index => index.definition = other.definition) left.indexes right.indexes

section

open Relational

variable {left right : List Table}

theorem rel_findTable {R : Table → Table → Prop} (hname : ∀ table other, R table other → table.name = other.name)
    (h : List.Forall₂ R left right) (name : String) : Option.Rel R (findTable name left) (findTable name right) :=
  rel_find? h fun table other hsame => by rw [hname table other hsame]

theorem rel_requireTable {R : Table → Table → Prop} (hname : ∀ table other, R table other → table.name = other.name)
    (h : List.Forall₂ R left right) (name : String) :
    SameOutcome R (requireTable left name) (requireTable right name) := by
  have hfound := rel_findTable hname h name
  unfold requireTable
  revert hfound
  generalize findTable name left = found
  generalize findTable name right = other
  intro hfound
  cases hfound with
  | none => exact .error _
  | some hsame => exact .ok hsame

variable (h : List.Forall₂ SameOutline left right)

include h

theorem outline_requireTable (name : String) :
    SameOutcome SameOutline (requireTable left name) (requireTable right name) :=
  rel_requireTable (fun _ _ hsame => hsame.name) h name

theorem planSelect_eq (statement : SelectStatement) : planSelect left statement = planSelect right statement := by
  have hjoin (plan : QueryPlan) (clause : JoinClause) : planJoin left plan clause = planJoin right plan clause := by
    unfold planJoin
    refine (outline_requireTable h clause.rightTable).bind_eq fun table other hsame => ?_
    rw [scanOf, scanOf, hsame.columns]
  have hlist : resolveTableList left statement = resolveTableList right statement := by
    unfold resolveTableList
    refine (SameOutcome.mapM (outline_requireTable h) _).bind_eq fun resolved others hsame => ?_
    rw [map_eq hsame fun table other hsame => by rw [hsame.name, hsame.columns]]
  unfold planSelect
  rw [hlist, funext₂ hjoin]
  refine (outline_requireTable h statement.tableName).bind_eq fun table other hsame => ?_
  rw [scanOf, scanOf, hsame.columns]

omit h in
theorem chooseIndexForFilter_eq {table other : Table} (h : SameOutline table other) (condition : Expression) :
    QueryPlan.chooseIndexForFilter table condition = QueryPlan.chooseIndexForFilter other condition := by
  unfold QueryPlan.chooseIndexForFilter coerceTo
  rw [h.columns]
  split
  · rfl
  · split
    · rfl
    · rename_i idx _
      split
      · rfl
      · have hfound := rel_find? (p := fun index => index.definition.columns = [idx])
          (q := fun index => index.definition.columns = [idx]) h.definitions fun index other hsame => by rw [hsame]
        revert hfound
        generalize table.indexes.find? _ = found
        generalize other.indexes.find? _ = found'
        intro hfound
        cases hfound with
        | none => rfl
        | some hsame => rw [Option.map_some, Option.map_some, hsame]

theorem selectIndexes_eq (plan : QueryPlan) : plan.selectIndexes left = plan.selectIndexes right := by
  induction plan with
  | tableScan name columns condition indexName indexKeys =>
      cases indexName with
      | some indexName => rfl
      | none =>
          have hchosen :
              ((findTable name left).bind fun found => condition.bind (QueryPlan.chooseIndexForFilter found)) =
              (findTable name right).bind fun found => condition.bind (QueryPlan.chooseIndexForFilter found) := by
            have hfound := rel_findTable (fun _ _ hsame => hsame.name) h name
            revert hfound
            generalize findTable name left = found
            generalize findTable name right = other
            intro hfound
            cases hfound with
            | none => rfl
            | some hsame => rw [Option.bind_some, Option.bind_some, funext (chooseIndexForFilter_eq hsame)]
          simp only [QueryPlan.selectIndexes, hchosen]
  | join l r joinType algorithm ihLeft ihRight => simp only [QueryPlan.selectIndexes, ihLeft, ihRight]
  | filter input predicate ih => simp only [QueryPlan.selectIndexes, ih]
  | projection input columns tableMap ih => simp only [QueryPlan.selectIndexes, ih]
  | sort input orderBy ih => simp only [QueryPlan.selectIndexes, ih]
  | limit input count offset ih => simp only [QueryPlan.selectIndexes, ih]

theorem chooseIndexJoin_eq (l r : QueryPlan) (on : Expression) :
    QueryPlan.chooseIndexJoin left l r on = QueryPlan.chooseIndexJoin right l r on := by
  unfold QueryPlan.chooseIndexJoin
  split
  · rename_i name columns _ _ _
    have hfound := rel_findTable (fun _ _ hsame => hsame.name) h name
    revert hfound
    generalize findTable name left = found
    generalize findTable name right = other
    intro hfound
    cases hfound with
    | none => rfl
    | @some table other hsame =>
        have hcolumn (pair : Expression × Expression) :
            QueryPlan.innerColumn table pair = QueryPlan.innerColumn other pair := by
          unfold QueryPlan.innerColumn QueryPlan.columnIn
          rw [hsame.columns]
        dsimp only
        congr 1
        funext pair
        rw [hcolumn]
        split
        · rfl
        · exact findSome?_eq hsame.definitions fun index other heq => by rw [heq]
  · rfl

theorem chooseJoinAlgorithms_eq (plan : QueryPlan) :
    plan.chooseJoinAlgorithms left = plan.chooseJoinAlgorithms right := by
  induction plan with
  | tableScan name columns condition indexName indexKeys => rfl
  | join l r joinType algorithm ihLeft ihRight =>
      cases algorithm <;>
        simp only [QueryPlan.chooseJoinAlgorithms, QueryPlan.selectJoinAlgorithm, ihLeft, ihRight, chooseIndexJoin_eq h]
  | filter input predicate ih => simp only [QueryPlan.chooseJoinAlgorithms, ih]
  | projection input columns tableMap ih => simp only [QueryPlan.chooseJoinAlgorithms, ih]
  | sort input orderBy ih => simp only [QueryPlan.chooseJoinAlgorithms, ih]
  | limit input count offset ih => simp only [QueryPlan.chooseJoinAlgorithms, ih]

/-- A SELECT is planned by the outline of the tables alone. -/
theorem plan_select_eq (statement : SelectStatement) :
    plan left (.select statement) = plan right (.select statement) := by
  have hoptimize (tree : QueryPlan) : tree.optimize left = tree.optimize right := by
    rw [QueryPlan.optimize, QueryPlan.optimize, selectIndexes_eq h, chooseJoinAlgorithms_eq h]
  rw [plan, plan, planSelect_eq h, funext hoptimize]

end

/-! ### Tables that differ in hidden columns only -/

/-- Versions of a row that agree in all but hidden columns. -/
structure SameVersion (sight : Sight) (entry : String × List ColumnMeta) (left right : RowVersion) : Prop where
  txidMin : left.txidMin = right.txidMin
  txidMax : left.txidMax = right.txidMax
  isDeleted : left.isDeleted = right.isDeleted
  row : Agree sight [entry] left.row.values right.row.values

/-- Tables of one schema that agree in all but hidden columns. An index on visible columns has the same
entries in both; no two indexes of a table have one name. -/
structure SameTable (sight : Sight) (left right : Table) : Prop where
  name : left.name = right.name
  columns : left.columns = right.columns
  chains : List.Forall₂ (List.Forall₂ (SameVersion sight (left.name, left.columns))) left.versionChains
    right.versionChains
  indexes : List.Forall₂ (fun index other => index.definition = other.definition ∧
    ((∀ idx ∈ index.definition.columns, sight left.name left.columns idx) → index.entries = other.entries))
    left.indexes right.indexes
  distinct : (left.indexes.map fun index => index.definition.name).Nodup

/-- The rules of a query whose conditions mean visible columns only. -/
def Sight.rules (sight : Sight) (entries : List (String × List ColumnMeta)) : PlanRules where
  entries := entries
  expr condition := ∀ reference ∈ condition.references, ∀ entry ∈ entries, ∀ idx,
    Expression.Means reference entry idx → sight entry.1 entry.2 idx
  column := sight
  literal _ _ hmem := nomatch hmem
  binaryOp _ _ _ := List.forall_mem_append
  named name h entry hentry idx hposition :=
    h (none, name) (List.mem_singleton_self _) entry hentry idx ⟨fun _ hsome => (nomatch hsome), hposition⟩

section

open Relational

variable {sight : Sight} {left right : Table} {snapshot : Snapshot}

/-- A table agrees with itself. -/
theorem SameTable.refl {table : Table} (hfit : table.RowsFit)
    (hdistinct : (table.indexes.map fun index => index.definition.name).Nodup) : SameTable sight table table where
  name := rfl
  columns := rfl
  chains := List.forall₂_same.mpr fun chain hchain => List.forall₂_same.mpr fun version hversion =>
    have hwidth : version.row.values.length = combinedLen [(table.name, table.columns)] := by
      rw [hfit chain hchain version hversion]
      simp [combinedLen]
    ⟨rfl, rfl, rfl, hwidth, hwidth, fun _ _ => rfl⟩
  indexes := List.forall₂_same.mpr fun _ _ => ⟨rfl, fun _ => rfl⟩
  distinct := hdistinct

theorem SameTable.outline (h : SameTable sight left right) : SameOutline left right :=
  ⟨h.name, h.columns, h.indexes.imp fun _ _ hsame => hsame.1⟩

/-- A snapshot selects versions that agree from chains that agree. -/
theorem rel_latestVisible {entry : String × List ColumnMeta} {chain other : Chain}
    (h : List.Forall₂ (SameVersion sight entry) chain other) (txid : Nat) (active : Finset Nat) :
    Option.Rel (SameVersion sight entry) (latestVisible chain txid active) (latestVisible other txid active) := by
  have hselected : Option.Rel (SameVersion sight entry) (selectVersion chain txid active)
      (selectVersion other txid active) := by
    refine rel_find? (List.forall₂_reverse_iff.mpr h) fun version other hsame => ?_
    rw [isVersionVisible, isVersionVisible, hsame.txidMin, hsame.txidMax]
  unfold latestVisible
  revert hselected
  generalize selectVersion chain txid active = selected
  generalize selectVersion other txid active = selected'
  intro hselected
  cases hselected with
  | none => exact .none
  | @some version other hsame =>
      rw [Option.filter_some, Option.filter_some, hsame.isDeleted]
      split
      · exact .some hsame
      · exact .none

/-- The rows a snapshot sees at one position agree. -/
theorem rel_visibleAt (h : SameTable sight left right) (snapshot : Snapshot) (rowIdx : Nat) :
    Option.Rel (Agree sight [(left.name, left.columns)]) ((left.visibleAt snapshot rowIdx).map (·.values))
      ((right.visibleAt snapshot rowIdx).map (·.values)) := by
  have hchain := rel_getElem? h.chains rowIdx
  unfold Table.visibleAt
  revert hchain
  generalize left.versionChains[rowIdx]? = chain
  generalize right.versionChains[rowIdx]? = other
  intro hchain
  cases hchain with
  | none => exact .none
  | @some chain other hsame =>
      have hversion := rel_latestVisible hsame snapshot.txid snapshot.active
      rw [Option.bind_some, Option.bind_some]
      revert hversion
      generalize latestVisible chain snapshot.txid snapshot.active = version
      generalize latestVisible other snapshot.txid snapshot.active = version'
      intro hversion
      cases hversion with
      | none => exact .none
      | some hrow => exact .some hrow.row

/-- The rows of a scan, chain by chain. -/
theorem scanVisible_values (table : Table) (txid : Nat) (active : Finset Nat) :
    (table.scanVisible txid active).map (fun entry => entry.2.values) =
      table.versionChains.filterMap fun chain => (latestVisible chain txid active).map (·.row.values) := by
  have hzip (chains : List Chain) (start : Nat) :
      ((chains.zipIdx start).filterMap fun entry =>
        (latestVisible entry.1 txid active).map fun version => (entry.2, version.row)).map (fun entry => entry.2.values) =
          chains.filterMap fun chain => (latestVisible chain txid active).map (·.row.values) := by
    induction chains generalizing start with
    | nil => rfl
    | cons chain rest ih =>
        rw [List.zipIdx_cons, List.filterMap_cons, List.filterMap_cons]
        dsimp only
        cases latestVisible chain txid active with
        | none => exact ih (start + 1)
        | some version => exact congrArg (List.cons version.row.values) (ih (start + 1))
  exact hzip table.versionChains 0

theorem agree_scanVisible (h : SameTable sight left right) (txid : Nat) (active : Finset Nat) :
    List.Forall₂ (Agree sight [(left.name, left.columns)])
      ((left.scanVisible txid active).map fun entry => entry.2.values)
      ((right.scanVisible txid active).map fun entry => entry.2.values) := by
  rw [scanVisible_values, scanVisible_values]
  refine List.rel_filterMap (fun chain other hsame => ?_) h.chains
  have hversion := rel_latestVisible hsame txid active
  revert hversion
  generalize latestVisible chain txid active = version
  generalize latestVisible other txid active = version'
  intro hversion
  cases hversion with
  | none => exact .none
  | some hrow => exact .some hrow.row

/-- An index on visible columns finds rows that agree. -/
theorem agree_indexedRows (h : SameTable sight left right) {index other : Index} (hentries : index.entries = other.entries)
    (key : List Datum) :
    List.Forall₂ (Agree sight [(left.name, left.columns)]) (indexedRows left index snapshot key)
      (indexedRows right other snapshot key) := by
  unfold indexedRows Index.get
  rw [hentries]
  split
  · exact .nil
  · rename_i rowIndices _
    refine List.rel_filterMap (R := Eq) (fun rowIdx rowIdx' hsame => ?_) (List.forall₂_eq_eq_eq ▸ rfl)
    rw [hsame]
    exact rel_visibleAt h snapshot rowIdx'

/-- The index of a name is on visible columns when an index of the name is. -/
theorem rel_findIndex (h : SameTable sight left right) {name : String} {index : Index} (hmem : index ∈ left.indexes)
    (hname : index.definition.name = name)
    (hvisible : ∀ idx ∈ index.definition.columns, sight left.name left.columns idx) :
    ∃ other, (left.indexes.find? fun index => index.definition.name = name) = some index ∧
      (right.indexes.find? fun index => index.definition.name = name) = some other ∧ index.entries = other.entries := by
  have hfirst : (left.indexes.find? fun index => index.definition.name = name) = some index := by
    have hlookup := KeyedList.lookup_self h.distinct hmem
    rw [hname] at hlookup
    rw [← hlookup]
    exact congrArg (fun p => left.indexes.find? p) (funext fun index => (beq_eq_decide _ _).symm)
  have hrel :=
    rel_find? (p := fun index => index.definition.name = name) (q := fun index => index.definition.name = name)
    h.indexes fun index other hsame => by rw [hsame.1]
  rw [hfirst] at hrel
  obtain ⟨other, hother, hsame⟩ : ∃ other, (right.indexes.find? fun index => index.definition.name = name) = some other ∧
      index.entries = other.entries := by
    revert hrel
    generalize right.indexes.find? _ = found
    intro hrel
    cases hrel with
    | some hsame => exact ⟨_, rfl, hsame.2 hvisible⟩
  exact ⟨other, hfirst, hother, hsame⟩

end

/-! ### Joins of rows that agree -/

section

open Relational

variable [CaseMapping] [Rendering] {choices : QueryChoices} {sight : Sight} {entries : List (String × List ColumnMeta)}
  {info leftInfo rightInfo : List (String × List ColumnMeta)} {left right left' right' : List Datum}
  {leftRows leftRows' rightRows rightRows' : DataRows} {joinType : JoinType} {condition : Option Expression}

/-- A condition that means visible columns only takes both of two rows that agree, or none. -/
theorem satisfies_eq (hentries : ∀ entry ∈ info, entry ∈ entries)
    (hcondition : ∀ part, condition = some part → (sight.rules entries).expr part) (h : Agree sight info left right) :
    satisfies choices (slotsFrom 0 info) condition left = satisfies choices (slotsFrom 0 info) condition right := by
  unfold satisfies
  cases condition with
  | none => rfl
  | some part =>
      dsimp only
      rw [Expression.evaluateJoin, Expression.evaluateJoin, Expression.evaluateWith_congr part fun reference hmem => ?_]
      exact lookupJoin_eq h fun entry hentry => hcondition part rfl reference hmem entry (hentries entry hentry)

omit [CaseMapping] [Rendering] in
/-- Rows that agree have one key at columns that may be looked up. -/
theorem keyAt_eq {keys : List Nat} (hkeys : ∀ idx ∈ keys, QueryPlan.KeyAllowed (sight.rules entries) info idx)
    (h : Agree sight info left right) : keyAt keys left = keyAt keys right := by
  refine List.filterMap_congr fun idx hidx => ?_
  obtain ⟨name, columns, rfl, hsight⟩ := hkeys idx hidx
  have hwidth : combinedLen [(name, columns)] = columns.length := by simp [combinedLen]
  by_cases hlt : idx < columns.length
  · refine h.visible idx ?_
    rw [Sight.within, if_pos hlt]
    exact hsight
  · rw [List.getElem?_eq_none (by rw [h.leftWidth, hwidth]; omega), List.getElem?_eq_none (by rw [h.rightWidth, hwidth]; omega)]

theorem agree_combineLeft (hentries : ∀ entry ∈ leftInfo ++ rightInfo, entry ∈ entries)
    (hcondition : ∀ part, condition = some part → (sight.rules entries).expr part) (hleft : Agree sight leftInfo left left')
    (hright : List.Forall₂ (Agree sight rightInfo) rightRows rightRows') :
    List.Forall₂ (Agree sight (leftInfo ++ rightInfo))
      (combineLeft choices (slotsFrom 0 (leftInfo ++ rightInfo)) joinType condition (combinedLen rightInfo) left rightRows)
      (combineLeft choices (slotsFrom 0 (leftInfo ++ rightInfo)) joinType condition (combinedLen rightInfo) left' rightRows') := by
  have hcombined :
      List.Forall₂ (Agree sight (leftInfo ++ rightInfo)) (rightRows.map (left ++ ·)) (rightRows'.map (left' ++ ·)) :=
    List.rel_map (fun _ _ hrow => hleft.append hrow) hright
  have hfound := rel_filter hcombined fun _ _ hrow => @satisfies_eq _ _ choices _ _ _ _ _ _ hentries hcondition hrow
  unfold combineLeft
  dsimp only
  rw [isEmpty_eq hfound]
  split
  · exact .cons (hleft.append (agree_padding rightInfo)) .nil
  · exact hfound

theorem agree_nestedLoopJoin {l r : QueryPlan} (hentries : ∀ entry ∈ l.tableInfo ++ r.tableInfo, entry ∈ entries)
    (hcondition : ∀ part, condition = some part → (sight.rules entries).expr part)
    (hleft : List.Forall₂ (Agree sight l.tableInfo) leftRows leftRows')
    (hright : List.Forall₂ (Agree sight r.tableInfo) rightRows rightRows') :
    List.Forall₂ (Agree sight (l.tableInfo ++ r.tableInfo))
      (nestedLoopJoin choices l.slots r.slots joinType condition leftRows rightRows)
      (nestedLoopJoin choices l.slots r.slots joinType condition leftRows' rightRows') := by
  have hslots : joinSlots l.slots r.slots = slotsFrom 0 (l.tableInfo ++ r.tableInfo) :=
    slots_eq (.join l r joinType (.nestedLoop none))
  unfold nestedLoopJoin
  rw [hslots, slotsWidth_slots, slotsWidth_slots]
  refine List.rel_append (List.rel_flatMap hleft fun _ _ hrow => agree_combineLeft hentries hcondition hrow hright) ?_
  split
  · refine List.rel_map (fun _ _ hrow => (agree_padding l.tableInfo).append hrow) (rel_filter hright fun _ _ hrow => ?_)
    rw [any_eq hleft fun _ _ hleftRow => satisfies_eq hentries hcondition (hleftRow.append hrow)]
  · exact .nil

theorem agree_indexNestedLoopJoin {l r : QueryPlan} {innerSlot : Expression.TableSlot} {keys : List Nat}
    {innerRows innerRows' : List Datum → DataRows} (hslot : slotsFrom 0 r.tableInfo = [innerSlot])
    (hentries : ∀ entry ∈ l.tableInfo ++ r.tableInfo, entry ∈ entries)
    (hcondition : ∀ part, condition = some part → (sight.rules entries).expr part)
    (hkeys : ∀ idx ∈ keys, QueryPlan.KeyAllowed (sight.rules entries) l.tableInfo idx)
    (hleft : List.Forall₂ (Agree sight l.tableInfo) leftRows leftRows')
    (hinner : ∀ key, List.Forall₂ (Agree sight r.tableInfo) (innerRows key) (innerRows' key)) :
    List.Forall₂ (Agree sight (l.tableInfo ++ r.tableInfo))
      (indexNestedLoopJoin choices l.slots innerSlot joinType keys condition innerRows leftRows)
      (indexNestedLoopJoin choices l.slots innerSlot joinType keys condition innerRows' leftRows') := by
  have hslots : joinSlots l.slots r.slots = slotsFrom 0 (l.tableInfo ++ r.tableInfo) :=
    slots_eq (.join l r joinType (.nestedLoop none))
  have hwidth : innerSlot.columns.length = combinedLen r.tableInfo := by
    rw [← slotsWidth_slots, slots_eq, hslot]
    simp [slotsWidth]
  unfold indexNestedLoopJoin
  rw [← hslot, ← slots_eq, hslots, hwidth]
  refine List.rel_flatMap hleft fun _ _ hrow => ?_
  rw [keyAt_eq hkeys hrow]
  exact agree_combineLeft hentries hcondition hrow (hinner _)

/-- Two entries of hash tables have one key, and rows that agree. -/
def SameEntry (sight : Sight) (info : List (String × List ColumnMeta)) (left right : List Datum × DataRows) : Prop :=
  left.1 = right.1 ∧ List.Forall₂ (Agree sight info) left.2 right.2

section

variable {table table' : HashTable} {key : List Datum}

omit [CaseMapping] [Rendering] in
theorem sameEntry_push (h : List.Forall₂ (SameEntry sight info) table table') (hrow : Agree sight info left right) :
    List.Forall₂ (SameEntry sight info) (table.push key left) (table'.push key right) := by
  induction h with
  | nil => exact .cons ⟨rfl, .cons hrow .nil⟩ .nil
  | cons hentry hrest ih =>
      rw [HashTable.push, HashTable.push, hentry.1]
      split
      · exact .cons ⟨rfl, List.rel_append hentry.2 (.cons hrow .nil)⟩ hrest
      · exact .cons hentry ih

omit [CaseMapping] [Rendering] in
theorem sameEntry_build {keys : List Nat} (hkeys : ∀ idx ∈ keys, QueryPlan.KeyAllowed (sight.rules entries) info idx)
    {rows rows' : DataRows} (h : List.Forall₂ (Agree sight info) rows rows') :
    List.Forall₂ (SameEntry sight info) (HashTable.build keys rows) (HashTable.build keys rows') := by
  refine List.rel_foldl (P := List.Forall₂ (SameEntry sight info)) (fun _ _ htable _ _ hrow => ?_) .nil h
  dsimp only
  rw [keyAt_eq hkeys hrow]
  split
  · exact htable
  · exact sameEntry_push htable hrow

omit [CaseMapping] [Rendering] in
theorem agree_lookup (h : List.Forall₂ (SameEntry sight info) table table') :
    List.Forall₂ (Agree sight info) (table.lookup key) (table'.lookup key) := by
  induction h with
  | nil => exact .nil
  | cons hentry hrest ih =>
      rw [HashTable.lookup, HashTable.lookup, hentry.1]
      split
      · exact hentry.2
      · exact ih

omit [CaseMapping] [Rendering] in
/-- The order in which a map is iterated is told by its keys. -/
theorem sameEntry_iterated (h : List.Forall₂ (SameEntry sight info) table table') :
    List.Forall₂ (SameEntry sight info) (table.iterated choices) (table'.iterated choices) := by
  rw [HashTable.iterated, HashTable.iterated, map_eq h fun _ _ hentry => hentry.1]
  exact rel_positions h _

end

/-- A hash join that builds from its left side looks visible columns up only. -/
theorem agree_hashJoin {l r : QueryPlan} {buildKeys probeKeys : List Nat}
    (hentries : ∀ entry ∈ l.tableInfo ++ r.tableInfo, entry ∈ entries)
    (hcondition : ∀ part, condition = some part → (sight.rules entries).expr part)
    (hbuild : ∀ idx ∈ buildKeys, QueryPlan.KeyAllowed (sight.rules entries) l.tableInfo idx)
    (hprobe : ∀ idx ∈ probeKeys, QueryPlan.KeyAllowed (sight.rules entries) r.tableInfo idx)
    (hleft : List.Forall₂ (Agree sight l.tableInfo) leftRows leftRows')
    (hright : List.Forall₂ (Agree sight r.tableInfo) rightRows rightRows') :
    List.Forall₂ (Agree sight (l.tableInfo ++ r.tableInfo))
      (hashJoin choices l.slots r.slots joinType true buildKeys probeKeys condition leftRows rightRows)
      (hashJoin choices l.slots r.slots joinType true buildKeys probeKeys condition leftRows' rightRows') := by
  have hslots : joinSlots l.slots r.slots = slotsFrom 0 (l.tableInfo ++ r.tableInfo) :=
    slots_eq (.join l r joinType (.nestedLoop none))
  have htable := sameEntry_build hbuild hleft
  have hprobed (key : List Datum) : probeHasKey key rightRows probeKeys = probeHasKey key rightRows' probeKeys :=
    any_eq hright fun _ _ hrow => by rw [keyAt_eq hprobe hrow]
  unfold hashJoin
  simp only [if_true, hslots, slotsWidth_slots, hprobed]
  refine List.rel_append (List.rel_flatMap hright fun _ _ hrow => ?_) ?_
  · rw [keyAt_eq hprobe hrow]
    split
    · exact .nil
    · refine rel_filter (List.rel_map (fun _ _ hbuildRow => ?_) (agree_lookup htable)) fun _ _ =>
        satisfies_eq hentries hcondition
      exact hbuildRow.append hrow
  · have hunmatched := List.rel_flatMap (rel_filter (@sameEntry_iterated choices _ _ _ _ htable) fun _ _ hentry =>
        congrArg (fun key => !probeHasKey key rightRows' probeKeys) hentry.1) fun _ _ hentry => hentry.2
    split
    · exact List.rel_map (fun _ _ hrow => hrow.append (agree_padding r.tableInfo)) hunmatched
    · split
      · rename_i hright
        exact absurd hright.2 (by simp)
      · exact .nil

/-- Rows that agree are sorted alike. -/
theorem agree_sortRows {orderBy : List OrderByExpr} (hentries : ∀ entry ∈ info, entry ∈ entries)
    (horder : ∀ order ∈ orderBy, (sight.rules entries).expr order.expr) (h : List.Forall₂ (Agree sight info) leftRows leftRows') :
    List.Forall₂ (Agree sight info) (sortRows choices (slotsFrom 0 info) orderBy leftRows)
      (sortRows choices (slotsFrom 0 info) orderBy leftRows') := by
  have hlength := h.length_eq
  have hvalue (order : OrderByExpr) (horder : (sight.rules entries).expr order.expr) (idx : Nat) :
      order.expr.evaluateJoin choices.uuidv7 (leftRows[idx]?.getD []) (slotsFrom 0 info) =
        order.expr.evaluateJoin choices.uuidv7 (leftRows'[idx]?.getD []) (slotsFrom 0 info) := by
    have hrow := rel_getElem? h idx
    revert hrow
    generalize leftRows[idx]? = first
    generalize leftRows'[idx]? = second
    intro hrow
    cases hrow with
    | none => rfl
    | some hrow => exact Expression.evaluateWith_congr order.expr fun reference hmem =>
        lookupJoin_eq hrow fun entry hentry => horder reference hmem entry (hentries entry hentry)
  have hcompare (i j : Nat) :
      compareRows choices (slotsFrom 0 info) (leftRows[i]?.getD []) (leftRows[j]?.getD []) orderBy =
        compareRows choices (slotsFrom 0 info) (leftRows'[i]?.getD []) (leftRows'[j]?.getD []) orderBy := by
    clear hlength
    induction orderBy with
    | nil => rfl
    | cons order rest ih =>
        rw [List.forall_mem_cons] at horder
        rw [compareRows, compareRows, hvalue order horder.1 i, hvalue order horder.1 j, ih horder.2]
  unfold sortRows
  simp only [hcompare, hlength]
  exact rel_positions h _

end

section

open Relational

variable [CaseMapping] [Rendering] {sight : Sight} {entries : List (String × List ColumnMeta)} {tables others : List Table}
  {snapshot : Snapshot} {choices : QueryChoices}

omit [CaseMapping] [Rendering] in
theorem mem_entries_of_wellPlanned {rules : PlanRules} {plan : QueryPlan} (h : plan.WellPlanned rules tables) :
    ∀ entry ∈ plan.tableInfo, entry ∈ rules.entries := by
  induction plan with
  | tableScan name columns condition indexName indexKeys =>
      intro entry hentry
      exact List.mem_singleton.mp hentry ▸ h.1.1
  | join left right joinType algorithm ihLeft ihRight =>
      intro entry hentry
      exact (List.mem_append.mp hentry).elim (ihLeft h.1 entry) (ihRight h.2.1 entry)
  | filter input predicate ih => exact ih h.1
  | projection input columns tableMap ih => exact h.elim
  | sort input orderBy ih => exact ih h.1
  | limit input count offset ih => exact ih h

omit [CaseMapping] [Rendering] in
/-- The table that a scan reads and its counterpart. -/
theorem rel_scanAllowed (htables : List.Forall₂ (SameTable sight) tables others) {rules : PlanRules} {name : String}
    {columns : List ColumnMeta} (hscan : QueryPlan.ScanAllowed rules tables name columns) :
    ∃ table other, requireTable tables name = .ok table ∧ requireTable others name = .ok other ∧
      SameTable sight table other ∧ (table.name, table.columns) = (name, columns) := by
  obtain ⟨-, table, htable, rfl⟩ := hscan
  have hrequired := rel_requireTable (fun _ _ hsame => hsame.name) htables name
  rw [requireTable_ok_iff.mpr htable] at hrequired
  revert hrequired
  generalize hother : requireTable others name = required
  intro hrequired
  cases hrequired with
  | @ok _ other hsame =>
      exact ⟨table, other, requireTable_ok_iff.mpr htable, rfl, hsame, by rw [name_of_findTable htable]⟩

omit [CaseMapping] [Rendering] in
/-- The table of an index on visible columns, the index, and their counterparts. -/
theorem rel_indexAllowed (htables : List.Forall₂ (SameTable sight) tables others) {name indexName : String}
    {columns : List ColumnMeta} (hscan : QueryPlan.ScanAllowed (sight.rules entries) tables name columns)
    (hindex : QueryPlan.IndexAllowed (sight.rules entries) tables name columns indexName) :
    ∃ table other index index', requireTable tables name = .ok table ∧ requireTable others name = .ok other ∧
      SameTable sight table other ∧ (table.name, table.columns) = (name, columns) ∧
      (table.indexes.find? fun index => index.definition.name = indexName) = some index ∧
      (other.indexes.find? fun index => index.definition.name = indexName) = some index' ∧ index.entries = index'.entries := by
  obtain ⟨table, other, htable, hother, hsame, hentry⟩ := rel_scanAllowed htables hscan
  obtain ⟨found, hfound, index, hmem, hname, hvisible⟩ := hindex
  obtain rfl := Option.some.inj ((requireTable_ok_iff.mp htable).symm.trans hfound)
  obtain ⟨rfl, rfl⟩ := Prod.mk.inj hentry
  obtain ⟨index', hfirst, hsecond, hentries⟩ := rel_findIndex hsame hmem hname hvisible
  exact ⟨table, other, index, index', htable, hother, hsame, rfl, hfirst, hsecond, hentries⟩

/-- A planned tree whose conditions mean visible columns only gives rows that agree. -/
theorem agree_executeTree (htables : List.Forall₂ (SameTable sight) tables others) {plan : QueryPlan}
    (hplanned : plan.WellPlanned (sight.rules entries) tables) (hbuilds : plan.BuildsLeft) :
    SameOutcome (List.Forall₂ (Agree sight plan.tableInfo)) (executeTree { tables, snapshot, choices } plan)
      (executeTree { tables := others, snapshot, choices } plan) := by
  induction plan with
  | tableScan name columns condition indexName indexKeys =>
      have hentries := mem_entries_of_wellPlanned hplanned
      obtain ⟨hscan, hcondition, hindex⟩ := hplanned
      rw [executeTree, executeTree, executeTableScan, executeTableScan]
      have hfilter {rows rows' : DataRows} (hrows : List.Forall₂ (Agree sight [(name, columns)]) rows rows') :
          List.Forall₂ (Agree sight [(name, columns)])
            (rows.filter (satisfies choices [{ name, offset := 0, columns }] condition))
            (rows'.filter (satisfies choices [{ name, offset := 0, columns }] condition)) :=
        rel_filter hrows fun _ _ hrow => satisfies_eq hentries hcondition hrow
      cases indexName with
      | none =>
          obtain ⟨table, other, htable, hother, hsame, hentry⟩ := rel_scanAllowed htables hscan
          rw [htable, hother]
          exact .ok (hfilter (hentry ▸ agree_scanVisible hsame _ _))
      | some indexName =>
          obtain ⟨table, other, index, index', htable, hother, hsame, hentry, hfirst, hsecond, hsameEntries⟩ :=
            rel_indexAllowed htables hscan (hindex indexName rfl)
          rw [htable, hother]
          change SameOutcome _ (scanRows _ table _ _ >>= _) (scanRows _ other _ _ >>= _)
          rw [scanRows, scanRows]
          dsimp only
          rw [hfirst, hsecond]
          exact .ok (hfilter (hentry ▸ agree_indexedRows hsame hsameEntries _))
  | join left right joinType algorithm ihLeft ihRight =>
      have hentries := mem_entries_of_wellPlanned hplanned
      obtain ⟨hleft, hright, halgorithm⟩ := hplanned
      cases algorithm with
      | nestedLoop onClause =>
          rw [executeTree, executeTree]
          refine (ihLeft hleft hbuilds.1).bind fun leftRows leftRows' hleftRows => ?_
          refine (ihRight hright hbuilds.2).bind fun rightRows rightRows' hrightRows => ?_
          exact .ok (agree_nestedLoopJoin hentries halgorithm hleftRows hrightRows)
      | indexNestedLoop innerTable innerColumns indexName keys remainingOn =>
          obtain ⟨hinfo, hscan, hindex, hkeys, hcondition⟩ := halgorithm
          obtain ⟨table, other, index, index', htable, hother, hsame, hentry, hfirst, hsecond, hsameEntries⟩ :=
            rel_indexAllowed htables hscan hindex
          rw [executeTree, executeTree]
          refine (ihLeft hleft hbuilds.1).bind fun outerRows outerRows' houterRows => ?_
          rw [htable, hother]
          simp only [bind, Except.bind]
          rw [hfirst, hsecond]
          refine .ok (agree_indexNestedLoopJoin ?_ hentries hcondition hkeys houterRows fun key => ?_)
          · rw [hinfo]
            rfl
          · rw [hinfo, ← hentry]
            exact agree_indexedRows hsame hsameEntries key
      | hashJoin buildLeft buildKeys probeKeys remainingOn =>
          obtain ⟨hbuildsLeft, hbuildsRight, rfl⟩ := hbuilds
          obtain ⟨hkeys, hcondition⟩ := halgorithm
          rw [executeTree, executeTree]
          refine (ihLeft hleft hbuildsLeft).bind fun leftRows leftRows' hleftRows => ?_
          refine (ihRight hright hbuildsRight).bind fun rightRows rightRows' hrightRows => ?_
          exact .ok (agree_hashJoin hentries hcondition (hkeys rfl).1 (hkeys rfl).2 hleftRows hrightRows)
  | filter input predicate ih =>
      rw [executeTree, executeTree]
      refine (ih hplanned.1 hbuilds).bind fun rows rows' hrows => .ok ?_
      rw [slots_eq]
      refine rel_filter hrows fun _ _ hrow => satisfies_eq (mem_entries_of_wellPlanned hplanned.1) ?_ hrow
      exact fun part hsome => Option.some.inj hsome ▸ hplanned.2
  | projection input columns tableMap ih => exact hplanned.elim
  | sort input orderBy ih =>
      rw [executeTree, executeTree]
      refine (ih hplanned.1 hbuilds).bind fun rows rows' hrows => .ok ?_
      rw [slots_eq]
      have hentries : ∀ entry ∈ input.tableInfo, entry ∈ entries := mem_entries_of_wellPlanned hplanned.1
      exact agree_sortRows hentries hplanned.2 hrows
  | limit input count offset ih =>
      rw [executeTree, executeTree]
      refine (ih hplanned hbuilds).bind fun rows rows' hrows => .ok ?_
      exact List.forall₂_take _ (List.forall₂_drop _ hrows)

end

/-! ### Noninterference -/

/-- A position at a place that the user sees is one that it sees. -/
theorem within_of_placeOf {sight : Sight} {info : List (String × List ColumnMeta)} {idx : Nat}
    (h : idx < combinedLen info) {entry : String × List ColumnMeta} (hentry : info[(placeOf info idx).1]? = some entry)
    (hsight : sight entry.1 entry.2 (placeOf info idx).2) : sight.within info idx := by
  induction info generalizing idx with
  | nil => exact absurd h (Nat.not_lt_zero idx)
  | cons first rest ih =>
      rw [combinedLen_cons] at h
      rw [placeOf] at hentry hsight
      rw [Sight.within]
      by_cases hlt : idx < first.2.length
      · rw [if_pos hlt] at hentry hsight ⊢
        exact Option.some.inj hentry ▸ hsight
      · rw [if_neg hlt] at hentry hsight ⊢
        exact ih (by omega) hentry hsight

namespace Database

section

variable [CaseMapping]

/-- The columns that a user may select. -/
def sight (db : Database) (user : String) : Sight := fun name columns idx =>
  ∀ column, columns[idx]? = some column → db.permissions.canSelect user name [column.name] = true

/-- Two states that differ in values of columns that the user may not select, and in nothing else that a query
reads. -/
structure SameButHidden (user : String) (left right : Database) : Prop where
  permissions : left.permissions = right.permissions
  mvcc : left.engine.mvcc = right.engine.mvcc
  tables : List.Forall₂ (SameTable (left.sight user)) left.engine.tables right.engine.tables

/-- The user may select every column that a reference in WHERE, ON or ORDER BY can mean. -/
def MayReference (db : Database) (user : String) (statement : SelectStatement) : Prop :=
  ∀ condition ∈ statement.conditions, ∀ reference ∈ condition.references, ∀ name ∈ statement.names, ∀ table,
    findTable name db.engine.tables = some table → ∀ idx, Expression.Means reference (table.name, table.columns) idx →
      db.sight user table.name table.columns idx

variable [Rendering]

/-- Planning a SELECT and executing it as a user. -/
def planAndExecute [SqlText] (db : Database) (argon2 : Argon2) (choices : Choices) (user : String) (depth : Nat)
    (statement : SelectStatement) : Except HelionError QueryResult := do
  let planned ← plan db.engine.tables (.select statement)
  (db.executeAs argon2 choices (some user) depth planned).1

variable {choices : QueryChoices} {user : String} {left right : Database}

/-- The check of a projection reads the permissions alone. -/
theorem checkPlanPermissions_eq (h : left.permissions = right.permissions) (input : QueryPlan) (columns : List Nat)
    (tableMap : List (String × List ColumnMeta)) :
    left.checkPlanPermissions choices (.projection input columns tableMap) user =
      right.checkPlanPermissions choices (.projection input columns tableMap) user := by
  unfold checkPlanPermissions checkSelect checkAccess
  rw [h]
  rfl

/-- The user sees every position that a projection outputs, once the check has passed. -/
theorem within_of_checkPlanPermissions {input : QueryPlan} {columns : List Nat}
    {tableMap : List (String × List ColumnMeta)}
    (hsame : ∀ entry ∈ tableMap, ∀ other ∈ tableMap, entry.1 = other.1 → entry = other)
    (hcolumns : ∀ idx ∈ columns, idx < combinedLen tableMap)
    (h : left.checkPlanPermissions choices (.projection input columns tableMap) user = .ok ()) :
    ∀ idx ∈ columns, (left.sight user).within tableMap idx := by
  intro idx hidx
  obtain ⟨entry, column, hentry, hcolumn⟩ := placeOf_column (hcolumns idx hidx)
  refine within_of_placeOf (hcolumns idx hidx) hentry fun found hfound => ?_
  obtain rfl := Option.some.inj (hcolumn.symm.trans hfound)
  exact canSelect_of_checkPlanPermissions h hidx (locateColumn_placeOf hsame (hcolumns idx hidx) hentry hcolumn)

/-- A query whose conditions mean visible columns only has one result in states that differ in hidden columns. -/
theorem queryResult_eq (h : SameButHidden user left right) {input : QueryPlan} {columns : List Nat}
    {tableMap : List (String × List ColumnMeta)}
    (hsame : ∀ entry ∈ tableMap, ∀ other ∈ tableMap, entry.1 = other.1 → entry = other)
    (hcolumns : ∀ idx ∈ columns, idx < combinedLen tableMap) (hinfo : input.tableInfo = tableMap)
    (hplanned : input.WellPlanned ((left.sight user).rules tableMap) left.engine.tables) (hbuilds : input.BuildsLeft) :
    left.queryResult choices (.projection input columns tableMap) (some user) =
      right.queryResult choices (.projection input columns tableMap) (some user) := by
  have hcheck := @checkPlanPermissions_eq _ _ choices user _ _ h.permissions input columns tableMap
  unfold queryResult
  dsimp only
  rw [← hcheck]
  cases hpassed : left.checkPlanPermissions choices (.projection input columns tableMap) user with
  | error err => rfl
  | ok passed =>
      have hvisible := within_of_checkPlanPermissions hsame hcolumns hpassed
      have hsnapshot : left.engine.readSnapshot.1 = right.engine.readSnapshot.1 := by
        rw [DatabaseEngine.readSnapshot, DatabaseEngine.readSnapshot, DatabaseEngine.begin, DatabaseEngine.begin, h.mvcc]
      have hrows : executeTree (left.execContext choices) (.projection input columns tableMap) =
          executeTree (right.execContext choices) (.projection input columns tableMap) := by
        rw [execContext, execContext, ← hsnapshot, executeTree, executeTree]
        refine (agree_executeTree h.tables hplanned hbuilds).bind_eq fun rows others hagree => congrArg Except.ok ?_
        rw [projectRows, projectRows, if_neg (by simpa using hcolumns), if_neg (by simpa using hcolumns)]
        exact Relational.map_eq hagree fun _ _ hrow => (hinfo ▸ hrow).keyAt_eq hvisible
      rw [hrows]

/-- Where a user may select every column that the conditions of a SELECT can mean, planning and executing it gives
one result in states that differ in columns that the user may not select, as long as no hash join builds from its
right side. -/
theorem select_noninterferes [SqlText] {argon2 : Argon2} {choices : Choices} {depth : Nat} {statement : SelectStatement}
    (h : SameButHidden user left right) (hreferences : left.MayReference user statement)
    (hbuilds : ∀ tree, plan left.engine.tables (.select statement) = .ok (.query tree) → tree.BuildsLeft) :
    left.planAndExecute argon2 choices user depth statement = right.planAndExecute argon2 choices user depth statement := by
  have houtline : List.Forall₂ SameOutline left.engine.tables right.engine.tables :=
    h.tables.imp fun _ _ hsame => hsame.outline
  unfold planAndExecute
  rw [← plan_select_eq houtline statement]
  cases hplan : plan left.engine.tables (.select statement) with
  | error err => rfl
  | ok planned =>
      obtain ⟨tree, htree, hquery⟩ := Loop.bind_ok_iff.mp hplan
      cases hquery
      obtain ⟨input, columns, tableMap, rfl, hsourced, hresolved, hinfo, -, hplanned⟩ := planSelect_ok htree
      have hsame := Sourced.same hsourced
      have hkeeps : QueryPlan.Keeps ((left.sight user).rules tableMap) left.engine.tables input
          (input.optimize left.engine.tables) := QueryPlan.keeps_optimize input
      have hconditions : ∀ condition ∈ statement.conditions, ((left.sight user).rules tableMap).expr condition := by
        intro condition hcondition reference hreference entry hentry idx hmeans
        obtain ⟨table, htable, hsource⟩ := Sourced.all hsourced entry hentry
        have hname : entry.1 ∈ statement.names := Sourced.names hsourced ▸ List.mem_map_of_mem hentry
        have hentryEq : entry = (table.name, table.columns) := by rw [name_of_findTable htable, ← hsource]
        rw [hentryEq] at hmeans ⊢
        exact hreferences condition hcondition reference hreference entry.1 hname table htable idx hmeans
      change (left.executeAs argon2 choices (some user) depth (.query _)).1 =
        (right.executeAs argon2 choices (some user) depth (.query _)).1
      rw [executeAs, executeAs]
      refine queryResult_eq h hsame (lt_of_resolveSelectColumns hsame hresolved) (hkeeps.info.trans hinfo) ?_
        (hbuilds (.projection _ _ _) hplan)
      exact hkeeps.planned (hplanned _ rfl hconditions)

end

end Database

section

open scoped AsciiCase PlainText
open Database

/-- Two prices that the user may not select. -/
theorem sameButHidden_prices : SameButHidden "ann" (shop (.integer 7)) (shop (.integer 8)) := by
  have hpermissions (n : Int32) :
      (shop (.integer n)).permissions = (shopCalls.foldl (adminStep .plain) empty).permissions := rfl
  have hmvccSeven : (shop (.integer 7)).engine.mvcc = { nextTxid := 3, activeTxns := {0} } := rfl
  have hmvccEight : (shop (.integer 8)).engine.mvcc = { nextTxid := 3, activeTxns := {0} } := rfl
  refine ⟨(hpermissions 7).trans (hpermissions 8).symm, hmvccSeven.trans hmvccEight.symm,
    .cons ⟨rfl, rfl, ?_, .nil, List.nodup_nil⟩ (.cons (.refl ?_ List.nodup_nil) .nil)⟩
  · refine .cons (.cons ⟨rfl, rfl, rfl, rfl, rfl, fun idx hidx => ?_⟩ .nil)
      (.cons (.cons ⟨rfl, rfl, rfl, rfl, rfl, fun _ _ => rfl⟩ .nil) .nil)
    match idx with
    | 0 => rfl
    | 1 => exact absurd (hidx (.new "price" .integer) rfl) (by decide)
    | _ + 2 => rfl
  · unfold Table.RowsFit
    decide

/-- SELECT id FROM item WHERE a column has a value ORDER BY id. -/
def idsWhere (column : String) (value : Datum) : SelectStatement :=
  { tableName := "item", columns := [.expr (.column "id")],
    whereClause := some (.binaryOp (.column column) .eq (.literal value)), orderBy := [⟨.column "id", .asc⟩],
    limit := none, offset := none, joins := [] }

/-- The condition on the id lets nothing through about the prices. -/
theorem select_noninterferes_ids :
    (shop (.integer 7)).planAndExecute .plain .asGiven "ann" 0 (idsWhere "id" (.integer 1)) =
      (shop (.integer 8)).planAndExecute .plain .asGiven "ann" 0 (idsWhere "id" (.integer 1)) := by
  refine select_noninterferes sameButHidden_prices ?_ ?_
  · intro condition hcondition reference hreference name hname table htable idx hmeans column hcolumn
    have hreferences : ∀ condition ∈ (idsWhere "id" (.integer 1)).conditions, ∀ reference ∈ condition.references,
        reference = (none, "id") := by simp [idsWhere, SelectStatement.conditions, Expression.references]
    obtain rfl := hreferences condition hcondition reference hreference
    obtain rfl : name = "item" := List.mem_singleton.mp hname
    cases htable
    cases hmeans.2
    cases hcolumn
    decide
  · rintro tree ⟨⟩
    exact trivial

/-- The condition on the price does: the item comes out where it costs 7 and stays away where it costs 8. -/
theorem not_select_noninterferes_price :
    SameButHidden "ann" (shop (.integer 7)) (shop (.integer 8)) ∧
      (shop (.integer 7)).permissions.canSelect "ann" "item" ["price"] = false ∧
      (shop (.integer 7)).planAndExecute .plain .asGiven "ann" 0 (idsWhere "price" (.integer 7)) =
        .ok { columns := ["id"], columnTypes := ["INTEGER"], rows := [["1"]], rowsAffected := 1 } ∧
      (shop (.integer 8)).planAndExecute .plain .asGiven "ann" 0 (idsWhere "price" (.integer 7)) =
        .ok { columns := ["id"], columnTypes := ["INTEGER"], rows := [], rowsAffected := 0 } := by
  refine ⟨sameButHidden_prices, ?_, rfl, rfl⟩
  decide

end

end HelionDb
