import HelionDb.StructuredWrites

/-! Structured updates against SQL UPDATEs of the same values, and the two kinds of writes together. An UPDATE only sets
what it is given, so that only the columns it names have to be common. -/

namespace HelionDb

section

variable [CaseMapping] [SqlExprText] {table : Table} {tables : List Table} {name : String} {whereClause : Json}
  {data : List (String × Json)} {literals : List SqlExpr} {assigned : List Assigned} {uuidv7 : BitVec 128}

/-- The values that are set are common to both kinds of request. -/
def SetsCommon (table : Table) (data : List (String × Json)) : Prop :=
  ∀ entry ∈ table.columns.zipIdx, ∀ value ∈ lastAt entry.2 (table.named data), value.Common entry.1

/-- A NOT NULL column is set to null, or an integer column to a value outside its range. -/
def SetsImproper (table : Table) (data : List (String × Json)) : Prop :=
  ∃ entry ∈ table.columns.zipIdx, ∃ value ∈ lastAt entry.2 (table.named data),
    entry.1.nullable = false ∧ value = .null ∨ value.OutOfRange entry.1

/-- A structured update and the UPDATE of the same columns and values: both are planned or neither, with the same values
set at the same positions, and not with a value that the column must refuse. -/
structure UpdateAgrees (tables : List Table) (table : Table) (uuidv7 : BitVec 128) (name : String) (whereClause : Json)
    (data : List (String × Json)) (literals : List SqlExpr) : Prop where
  accepted : (setValues table { fromTable := name, whereClause, data }).isOk =
    (planSqlUpdate tables uuidv7 name ((data.map Prod.fst).zip literals)).isOk
  stored : (setValues table { fromTable := name, whereClause, data }).isOk = true →
    setValues table { fromTable := name, whereClause, data } =
      planSqlUpdate tables uuidv7 name ((data.map Prod.fst).zip literals)
  refused : SetsImproper table data → (setValues table { fromTable := name, whereClause, data }).isOk = false

/-- The assignments that the plan of an UPDATE makes of its literals. -/
theorem Assigns.planSqlUpdate_ok_iff (h : Assigns table data literals assigned)
    (htable : findTable name tables = some table) {placed : List (Nat × Datum)} :
    planSqlUpdate tables uuidv7 name ((data.map Prod.fst).zip literals) = .ok placed ↔
      List.Forall₂ (Assigned.PlacedBySql table uuidv7) assigned placed := by
  rw [planSqlUpdate, h.literals, Loop.bind_ok_iff]
  simp only [planUpdate, htable, mapM_ok_iff_forall₂]
  have hentries := h.entries
  clear h
  constructor
  · rintro ⟨values, hvalues, hplaced⟩
    induction hentries generalizing values placed with
    | nil =>
        rw [List.map_nil, List.map_nil, List.zip_nil_left, List.forall₂_nil_left_iff] at hvalues
        rw [hvalues, List.forall₂_nil_left_iff] at hplaced
        exact hplaced ▸ .nil
    | @cons entry target rest targets hfirst _ ih =>
        rw [List.map_cons, List.map_cons, List.zip_cons_cons, List.forall₂_cons_left_iff] at hvalues
        obtain ⟨value, others, hvalue, hothers, rfl⟩ := hvalues
        obtain ⟨literal, hliteral, hpair⟩ := Loop.bind_ok_iff.mp hvalue
        obtain rfl := Except.ok.inj hpair
        rw [List.forall₂_cons_left_iff] at hplaced
        obtain ⟨first, later, hplace, hlater, rfl⟩ := hplaced
        simp only [hfirst.1] at hplace
        obtain ⟨coerced, hcoerced, hpair⟩ := Loop.bind_ok_iff.mp hplace
        obtain rfl := Except.ok.inj hpair
        exact .cons ⟨rfl, literal, hliteral, hcoerced⟩ (ih _ hothers hlater)
  · intro hplaced
    induction hentries generalizing placed with
    | nil =>
        rw [List.forall₂_nil_left_iff] at hplaced
        exact ⟨[], .nil, hplaced ▸ .nil⟩
    | @cons entry target rest targets hfirst _ ih =>
        rw [List.forall₂_cons_left_iff] at hplaced
        obtain ⟨first, later, ⟨hidx, literal, hliteral, hcoerced⟩, hlater, rfl⟩ := hplaced
        obtain ⟨values, hvalues, hplaces⟩ := ih hlater
        refine ⟨(entry.1, literal) :: values, ?_, ?_⟩
        · rw [List.map_cons, List.map_cons, List.zip_cons_cons]
          refine .cons ?_ hvalues
          dsimp only
          rw [hliteral]
          rfl
        · refine .cons ?_ hplaces
          simp only [hfirst.1, hidx, hcoerced]
          rfl

omit [CaseMapping] [SqlExprText] in
/-- Only a null is turned into a NULL. -/
theorem eq_null_of_toDatumAs {value : Json} {expr : SqlExpr} (h : Corresponds value expr) {targetType : DataType}
    (hnull : value.toDatumAs targetType = .null) : value = .null := by
  revert hnull
  cases h with
  | null => exact fun _ => rfl
  | bool | string | posInt | negInt | float | negFloat => cases targetType <;> simp [Json.toDatumAs]

/-- Both plans set the same, and nothing improper, exactly when all values that are set are common. -/
theorem Assigns.planSqlUpdate_eq_iff (h : Assigns table data literals assigned) (honce : OncePerColumn table data)
    (htable : findTable name tables = some table) :
    (planSqlUpdate tables uuidv7 name ((data.map Prod.fst).zip literals) = .ok (assigned.map (Assigned.placed table)) ∧
      ¬ SetsImproper table data) ↔ SetsCommon table data := by
  rw [h.planSqlUpdate_ok_iff htable, List.forall₂_map_right_iff, List.forall₂_same]
  have hlast {target : Assigned} (htarget : target ∈ assigned) :
      lastAt target.1 (table.named data) = some target.2.1 := by
    refine lastAt_of_mem honce ?_
    rw [h.named]
    exact List.mem_map_of_mem (f := fun target : Assigned => (target.1, target.2.1)) htarget
  have htargets {idx : Nat} {value : Json} (hvalue : value ∈ lastAt idx (table.named data)) :
      ∃ target ∈ assigned, target.1 = idx ∧ target.2.1 = value := by
    have hmem := mem_of_lastAt hvalue
    rw [h.named] at hmem
    obtain ⟨target, htarget, heq⟩ := List.mem_map.mp hmem
    exact ⟨target, htarget, Prod.mk.inj heq⟩
  constructor
  · rintro ⟨hplaced, hproper⟩ ⟨column, idx⟩ hentry value hvalue
    obtain ⟨target, htarget, rfl, rfl⟩ := htargets hvalue
    obtain ⟨-, literal, hliteral, hcoerced⟩ := hplaced target htarget
    have hcolumn := List.mem_zipIdx_iff_getElem?.mp hentry
    rw [Assigned.placed, coerceTo, Json.toColumn, hcolumn] at hcoerced
    refine (literalStoredAlike_iff (h.corresponds target htarget)).mp ⟨literal, hliteral, hcoerced, ?_, ?_⟩
    · by_cases hnull : target.2.1.toDatumAs column.dataType = .null
      · have hvalueNull := eq_null_of_toDatumAs (h.corresponds target htarget) hnull
        cases hnullable : column.nullable with
        | true => rw [hnull, validateColumn, hnullable]; rfl
        | false => exact absurd ⟨_, hentry, _, hvalue, .inl ⟨hnullable, hvalueNull⟩⟩ hproper
      · exact ((ColumnMeta.takes_iff_of_ne_null hnull).mpr ((coerceDatum_ok hcoerced).2 hnull)).1
    · exact fun hout => hproper ⟨_, hentry, _, hvalue, .inr hout⟩
  · intro hcommon
    refine ⟨fun target htarget => ?_, ?_⟩
    · obtain ⟨column, hcolumn⟩ := h.column_of_mem htarget
      have hvalue := hcommon _ (mem_zipIdx_of_getElem? hcolumn) _ (hlast htarget)
      obtain ⟨literal, hliteral, halike⟩ := (literalStoredAlike_iff (h.corresponds target htarget)).mpr hvalue
      refine ⟨rfl, literal, hliteral, ?_⟩
      rw [Assigned.placed, coerceTo, Json.toColumn, hcolumn]
      exact halike.coerced
    · rintro ⟨⟨column, idx⟩, hentry, value, hvalue, himproper⟩
      obtain ⟨target, htarget, rfl, rfl⟩ := htargets hvalue
      have hgiven := hcommon _ hentry _ hvalue
      rcases himproper with ⟨hrequired, hnull⟩ | hout
      · rw [hnull, Json.Common, hrequired] at hgiven
        cases hgiven
      · obtain ⟨_, -, halike⟩ :=
          (@literalStoredAlike_iff _ _ _ uuidv7 _ _ (h.corresponds target htarget)).mpr hgiven
        exact halike.inRange hout

omit [CaseMapping] [SqlExprText] in
theorem setValues_unknown (hunknown : ¬ KnownColumns table data) :
    ∃ err, setValues table { fromTable := name, whereClause, data } = .error err := by
  rw [setValues_eq]
  cases hplaced : data.mapM (placeJson table name) with
  | error err => exact ⟨err, rfl⟩
  | ok placed => exact absurd (known_of_placeJson hplaced) hunknown

theorem planSqlUpdate_unknown (hliterals : WrittenAs data literals) (hunknown : ¬ KnownColumns table data)
    (htable : findTable name tables = some table) :
    ∃ err, planSqlUpdate tables uuidv7 name ((data.map Prod.fst).zip literals) = .error err := by
  cases hplan : planSqlUpdate tables uuidv7 name ((data.map Prod.fst).zip literals) with
  | error err => exact ⟨err, rfl⟩
  | ok placed =>
      obtain ⟨values, hvalues, hplaced⟩ := Loop.bind_ok_iff.mp hplan
      rw [planUpdate, htable] at hplaced
      refine absurd (fun entry hentry => ?_) hunknown
      have hfst : entry.1 ∈ ((data.map Prod.fst).zip literals).map Prod.fst := by
        rw [List.map_fst_zip (by rw [List.length_map, hliterals.length_eq])]
        exact List.mem_map_of_mem hentry
      obtain ⟨pair, hpair, hname⟩ := List.mem_map.mp hfst
      obtain ⟨value, hmem, hvalue⟩ := exists_of_mem_forall₂ (mapM_ok_iff_forall₂.mp hvalues) hpair
      obtain ⟨literal, -, heq⟩ := Loop.bind_ok_iff.mp hvalue
      obtain rfl := Except.ok.inj heq
      obtain ⟨target, htarget⟩ := exists_of_mem_mapM_ok hplaced hmem
      dsimp only at htarget
      split at htarget
      · rename_i found hfound
        rw [← hname, hfound]
        rfl
      · cases htarget

/-- An update and its UPDATE agree exactly when every value that is set is common. -/
theorem updateAgrees_iff (htable : findTable name tables = some table) (hliterals : WrittenAs data literals)
    (honce : OncePerColumn table data) :
    UpdateAgrees tables table uuidv7 name whereClause data literals ↔
      (KnownColumns table data → SetsCommon table data) := by
  by_cases hknown : KnownColumns table data
  · obtain ⟨assigned, hassigned⟩ := exists_assigns hliterals hknown
    have hset : setValues table { fromTable := name, whereClause, data } = .ok (assigned.map (Assigned.placed table)) :=
      hassigned.placeJson name
    have hiff := @Assigns.planSqlUpdate_eq_iff _ _ _ _ _ _ _ _ uuidv7 hassigned honce htable
    constructor
    · intro hagrees _
      have hok : (setValues table { fromTable := name, whereClause, data }).isOk = true := by rw [hset]; rfl
      refine hiff.mp ⟨(hagrees.stored hok).symm.trans hset, fun himproper => ?_⟩
      rw [hagrees.refused himproper] at hok
      cases hok
    · intro hcommon
      obtain ⟨hplan, hproper⟩ := hiff.mpr (hcommon hknown)
      refine ⟨?_, fun _ => ?_, fun himproper => absurd himproper hproper⟩
      · rw [hset, hplan]
      · rw [hset, hplan]
  · obtain ⟨err, herr⟩ := @setValues_unknown table name whereClause data hknown
    obtain ⟨err', herr'⟩ := @planSqlUpdate_unknown _ _ table tables name data literals uuidv7 hliterals hknown htable
    refine iff_of_true ⟨?_, fun hok => ?_, fun _ => ?_⟩ fun h => absurd h hknown
    · rw [herr, herr']
      rfl
    · rw [herr] at hok
      cases hok
    · rw [herr]
      rfl

end

section Schema

variable {table other : Table} {data : List (String × Json)}

/-- Only the columns of a table matter to these conditions. -/
theorem named_congr (hcolumns : other.columns = table.columns) : other.named data = table.named data := by
  simp only [Table.named, Table.columnIndex, hcolumns]

theorem knownColumns_congr (hcolumns : other.columns = table.columns) :
    KnownColumns other data ↔ KnownColumns table data := by
  simp only [KnownColumns, Table.columnIndex, hcolumns]

theorem oncePerColumn_congr (hcolumns : other.columns = table.columns) :
    OncePerColumn other data ↔ OncePerColumn table data := by
  rw [OncePerColumn, OncePerColumn, named_congr hcolumns]

theorem allCommon_congr (hcolumns : other.columns = table.columns) : AllCommon other data ↔ AllCommon table data := by
  simp only [AllCommon, givenAt, named_congr hcolumns, hcolumns]

end Schema

open DatabaseEngine in
/-- Structured creates agree with their INSERTs on every table of a schema exactly when the values of all columns are
common, and structured updates with their UPDATEs exactly when the values they set are. -/
theorem structured_writes_agree_iff [CaseMapping] [SqlExprText] (name : String) (table : Table)
    (data : List (String × Json)) (literals : List SqlExpr) (hliterals : WrittenAs data literals)
    (honce : OncePerColumn table data) :
    ((∀ engine : DatabaseEngine, engine.SerialReachable (fun _ _ => True) → ∀ found,
        findTable name engine.tables = some found → found.columns = table.columns → ∀ orders uuidv7,
          CreateAgrees engine found orders uuidv7 name data literals) ↔
        (KnownColumns table data → AllCommon table data)) ∧
      ∀ tables, findTable name tables = some table → ∀ uuidv7 whereClause,
        (UpdateAgrees tables table uuidv7 name whereClause data literals ↔
          (KnownColumns table data → SetsCommon table data)) := by
  refine ⟨⟨fun hagrees hknown => ?_, fun hcommon engine _ found hfound hcolumns orders uuidv7 => ?_⟩,
    fun tables htable uuidv7 whereClause => updateAgrees_iff htable hliterals honce⟩
  · obtain ⟨engine, hreachable, htable⟩ := exists_new_table name table.columns
    have hcolumns : (Table.new name table.columns).columns = table.columns := Table.new_columns name table.columns
    have hnew := hagrees engine hreachable _ htable hcolumns .asGiven 0
    exact (allCommon_congr hcolumns).mp (common_of_createAgrees hreachable.wellFormed htable hliterals
      ((oncePerColumn_congr hcolumns).mpr honce) hnew ((knownColumns_congr hcolumns).mpr hknown))
  · refine createAgrees_of_common hfound hliterals ((oncePerColumn_congr hcolumns).mpr honce) (fun hknown => ?_) orders
      uuidv7
    exact (allCommon_congr hcolumns).mpr (hcommon ((knownColumns_congr hcolumns).mp hknown))

/-! ### Writes to one table -/

namespace Accounts

open DatabaseEngine
open scoped AsciiCase PlainText

def columns : List ColumnMeta :=
  [ColumnMeta.primaryKey (.new "id" .integer), (ColumnMeta.new "age" .integer).notNull, .new "balance" .bigInt]

def createsAccounts : SerialCall := { op := .execute (.createTable "accounts" columns none), orders := .asGiven }

/-- The engine with the table. -/
def engine : DatabaseEngine := (fresh "memory").serialStep createsAccounts

def table : Table := Table.new "accounts" columns

def number (text : String) : SqlExpr := .value (.number text)

/-- Values that both kinds of request store. -/
def stored : List (String × Json) := [("id", .number (.posInt 1)), ("age", .number (.posInt 30))]

/-- Without the age. -/
def ageless : List (String × Json) := [("id", .number (.posInt 1))]

/-- With an age above the greatest INTEGER, 2 ^ 32 + 1. -/
def tooOld : List (String × Json) := [("id", .number (.posInt 1)), ("age", .number (.posInt 4294967297))]

/-- An age that is taken away. -/
def forgotten : List (String × Json) := [("age", .null)]

theorem structured_writes_agree_stored :
    CreateAgrees engine table .asGiven 0 "accounts" stored [number "1", number "30"] :=
  (structured_writes_agree_iff "accounts" table stored [number "1", number "30"]
    (.cons (.posInt 1 "1" rfl) (.cons (.posInt 30 "30" rfl) .nil)) (by decide)).1.mpr (fun _ => by decide) engine
    ⟨"memory", .single createsAccounts trivial⟩ table rfl rfl .asGiven 0

/-- The create is accepted and the INSERT is not, without a value in a NOT NULL column or with an integer out of range;
both kinds of update take a NULL away from the check. -/
theorem not_structured_writes_agree :
    engine.SerialReachable (fun _ _ => True) ∧ findTable "accounts" engine.tables = some table ∧
      (WrittenAs ageless [number "1"] ∧
        ¬ CreateAgrees engine table .asGiven 0 "accounts" ageless [number "1"]) ∧
      (WrittenAs tooOld [number "1", number "4294967297"] ∧
        ¬ CreateAgrees engine table .asGiven 0 "accounts" tooOld [number "1", number "4294967297"]) ∧
      WrittenAs forgotten [.value .null] ∧
      ¬ UpdateAgrees engine.tables table 0 "accounts" (.object []) forgotten [.value .null] := by
  refine ⟨⟨"memory", .single createsAccounts trivial⟩, rfl, ⟨.cons (.posInt 1 "1" rfl) .nil, fun h => ?_⟩,
    ⟨.cons (.posInt 1 "1" rfl) (.cons (.posInt 4294967297 "4294967297" rfl) .nil), fun h => ?_⟩, .cons .null .nil,
    fun h => ?_⟩
  · exact absurd h.accepted (by decide)
  · exact absurd h.accepted (by decide)
  · have hrefused := h.refused ⟨((ColumnMeta.new "age" .integer).notNull, 1), by decide, .null, rfl, .inl ⟨rfl, rfl⟩⟩
    cases hrefused

end Accounts

end HelionDb
