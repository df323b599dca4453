import HelionDb.PlannedQuery
import HelionDb.Query

/-! The expansion of a SELECT list. Each item denotes positions of the combined row. The resolution appends the positions
of the items one after another, but a `*` only sets a flag that counts when nothing else was appended, `t.*` of an
unknown table appends nothing, and a single table answers to any name. -/

namespace HelionDb

/-- The items of a SELECT list. -/
inductive SelectItem where
  | all
  | allOf (table : String)
  | column (name : String)
  | columnOf (table name : String)
  deriving DecidableEq

/-- The item that a selected column is; other expressions are none. -/
def SelectColumn.item? : SelectColumn → Option SelectItem
  | .wildcard => some .all
  | .qualWildcard table => some (.allOf table)
  | .qualified name _ =>
      match splitAtDot name with
      | some (table, column) => some (.columnOf table column)
      | none => some (.column name)
  | .expr (.column name) => some (.column name)
  | .expr (.qualifiedColumn table name) => some (.columnOf table name)
  | .expr _ => none

section

variable (tableMap : List (String × List ColumnMeta))

/-- Where the columns of a table start in the combined row. -/
def startOf (i : Nat) : Nat := combinedLen (tableMap.take i)

/-- The first table of a name. -/
def tableAt (table : String) : Option Nat := tableMap.findIdx? fun entry => eqIgnoreAsciiCase entry.1 table

/-- The position of the column that a table has of a name. -/
def columnAt (name : String) (i : Nat) : Option Nat := do
  let entry ← tableMap[i]?
  let idx ← Expression.positionOf entry.2 name
  return startOf tableMap i + idx

/-- The positions of the columns that the tables have of a name. -/
def columnsAt (name : String) : List Nat := (List.range tableMap.length).filterMap (columnAt tableMap name)

/-- The positions that an item denotes; none if it names an unknown table or column, or an ambiguous column. -/
def SelectItem.positions : SelectItem → Option (List Nat)
  | .all => some (List.range (combinedLen tableMap))
  | .allOf table => do
      let i ← tableAt tableMap table
      let entry ← tableMap[i]?
      return (List.range entry.2.length).map (startOf tableMap i + ·)
  | .column name =>
      match columnsAt tableMap name with
      | [position] => some [position]
      | _ => none
  | .columnOf table name => do
      let i ← tableAt tableMap table
      let position ← columnAt tableMap name i
      return [position]

/-- The positions of the items, one after another. -/
def expansion (items : List SelectItem) : Option (List Nat) :=
  (items.mapM (SelectItem.positions tableMap)).map List.flatten

/-- An item names an unknown table. -/
def SelectItem.Stray : SelectItem → Prop
  | .allOf table | .columnOf table _ => tableAt tableMap table = none
  | _ => False

/-- An item that is refused: an unknown or ambiguous column, where a single table answers to any name. -/
def SelectItem.Refused : SelectItem → Prop
  | .all | .allOf _ => False
  | .column name => ∀ position, columnsAt tableMap name ≠ [position]
  | .columnOf table name =>
      match tableAt tableMap table with
      | some i => columnAt tableMap name i = none
      | none => tableMap.length ≠ 1 ∨ columnAt tableMap name 0 = none

/-- The lists that expand as they should: a refused item, or no item of an unknown table and no `*`, unless it stands
once and with no other item that denotes a column. -/
def SelectSafe (items : List SelectItem) : Prop :=
  (∃ item ∈ items, item.Refused tableMap) ∨
    (∀ item ∈ items, ¬ item.Stray tableMap) ∧
      if .all ∈ items then
        combinedLen tableMap = 0 ∨
          items.count .all = 1 ∧ ∀ item ∈ items, item ≠ .all → item.positions tableMap = some []
      else items ≠ [] ∨ combinedLen tableMap = 0

/-- What the resolution makes of an item: nothing yet for a `*`, and no positions for an unknown table. -/
def SelectItem.resolved : SelectItem → Option (Option (List Nat))
  | .all => some none
  | .allOf table => some (some (((SelectItem.allOf table).positions tableMap).getD []))
  | .column name => ((SelectItem.column name).positions tableMap).map some
  | .columnOf table name =>
      match tableAt tableMap table with
      | some i => (columnAt tableMap name i).map fun position => some [position]
      | none => if tableMap.length = 1 then (columnAt tableMap name 0).map fun position => some [position] else none

end

/-! ### Offsets -/

section

variable {tableMap : List (String × List ColumnMeta)}

theorem startOf_succ (entry : String × List ColumnMeta) (rest : List (String × List ColumnMeta)) (i : Nat) :
    startOf (entry :: rest) (i + 1) = entry.2.length + startOf rest i := by
  rw [startOf, List.take_succ_cons, combinedLen_cons, startOf]

theorem startOf_le {i : Nat} {entry : String × List ColumnMeta} (h : tableMap[i]? = some entry) :
    startOf tableMap i + entry.2.length ≤ combinedLen tableMap := by
  induction tableMap generalizing i with
  | nil => cases h
  | cons first rest ih =>
      rw [combinedLen_cons]
      cases i with
      | zero =>
          obtain rfl := Option.some.inj h
          rw [startOf, List.take_zero, combinedLen]
          simp
      | succ i =>
          rw [startOf_succ]
          have hle := ih h
          omega

theorem columnAt_succ (name : String) (entry : String × List ColumnMeta) (rest : List (String × List ColumnMeta))
    (i : Nat) : columnAt (entry :: rest) name (i + 1) = (columnAt rest name i).map (entry.2.length + ·) := by
  simp only [columnAt, List.getElem?_cons_succ, startOf_succ]
  cases rest[i]? with
  | none => rfl
  | some found =>
      cases hidx : Expression.positionOf found.2 name <;> simp [hidx, Nat.add_assoc]

/-- The positions of a column name, table by table. -/
theorem positionsOf_eq (name : String) (offset : Nat) :
    positionsOf name offset tableMap = (columnsAt tableMap name).map (offset + ·) := by
  induction tableMap generalizing offset with
  | nil => rfl
  | cons entry rest ih =>
      have hrest : (List.range rest.length).filterMap (columnAt (entry :: rest) name ∘ Nat.succ) =
          (columnsAt rest name).map (entry.2.length + ·) := by
        rw [columnsAt, List.map_filterMap]
        apply List.filterMap_congr
        intro i _
        exact columnAt_succ name entry rest i
      have hfirst : columnAt (entry :: rest) name 0 = Expression.positionOf entry.2 name := by
        simp [columnAt, startOf, combinedLen]
      rw [positionsOf, columnsAt, List.length_cons, List.range_succ_eq_map, List.filterMap_cons, hfirst,
        List.filterMap_map, hrest]
      cases Expression.positionOf entry.2 name with
      | none => simp [ih, Nat.add_assoc, Function.comp_def]
      | some idx => simp [ih, Nat.add_assoc, Function.comp_def]

theorem tableAt_cons (table : String) (entry : String × List ColumnMeta) (rest : List (String × List ColumnMeta)) :
    tableAt (entry :: rest) table =
      if eqIgnoreAsciiCase entry.1 table then some 0 else (tableAt rest table).map (· + 1) := by
  rw [tableAt, List.findIdx?_cons, tableAt]

theorem find?_table (table : String) :
    (tableMap.find? fun entry => eqIgnoreAsciiCase entry.1 table) =
      (tableAt tableMap table).bind fun i => tableMap[i]? := by
  induction tableMap with
  | nil => rfl
  | cons entry rest ih =>
      rw [List.find?_cons, tableAt_cons]
      cases eqIgnoreAsciiCase entry.1 table with
      | true => rfl
      | false =>
          rw [ih]
          cases tableAt rest table <;> rfl

theorem find?_tableOffsets (table : String) (offset : Nat) :
    ((tableOffsets offset tableMap).find? fun entry => eqIgnoreAsciiCase entry.1 table) =
      (tableAt tableMap table).bind fun i =>
        tableMap[i]?.map fun entry => (entry.1, offset + startOf tableMap i) := by
  induction tableMap generalizing offset with
  | nil => rfl
  | cons entry rest ih =>
      rw [tableOffsets, List.find?_cons, tableAt_cons]
      cases eqIgnoreAsciiCase entry.1 table with
      | true => simp [startOf, combinedLen]
      | false =>
          rw [ih]
          cases tableAt rest table with
          | none => rfl
          | some i => simp [startOf_succ, Nat.add_assoc]

/-- The first table of a name has it. -/
theorem name_of_tableAt {table : String} {i : Nat} {entry : String × List ColumnMeta} (h : tableAt tableMap table = some i)
    (hentry : tableMap[i]? = some entry) : eqIgnoreAsciiCase entry.1 table = true := by
  obtain ⟨hlt, hname, -⟩ := List.findIdx?_eq_some_iff_getElem.mp h
  rw [List.getElem?_eq_getElem hlt] at hentry
  rw [← Option.some.inj hentry]
  exact hname

/-- The offset of the name of a table is the start of the first table that has it. -/
theorem offsetOf_eq {table : String} {i : Nat} {entry : String × List ColumnMeta} (htable : tableAt tableMap table = some i)
    (h : tableMap[i]? = some entry) : offsetOf tableMap entry.1 = startOf tableMap i := by
  have hname := name_of_tableAt htable h
  induction tableMap generalizing i with
  | nil => cases h
  | cons first rest ih =>
      rw [offsetOf]
      rw [tableAt_cons] at htable
      split at htable
      · obtain rfl := Option.some.inj htable
        obtain rfl := Option.some.inj h
        rw [List.takeWhile_cons_of_neg (by simp)]
        rfl
      · rename_i hother
        obtain ⟨j, hj, rfl⟩ := Option.map_eq_some_iff.mp htable
        have hne : first.1 ≠ entry.1 := fun heq => hother (heq ▸ hname)
        rw [List.takeWhile_cons_of_pos (by simpa using hne), combinedLen_cons, startOf_succ, ← ih hj h, offsetOf]

theorem find?_name {table : String} {i : Nat} {entry : String × List ColumnMeta} (htable : tableAt tableMap table = some i)
    (h : tableMap[i]? = some entry) : (tableMap.find? fun other => other.1 = entry.1) = some entry := by
  have hname := name_of_tableAt htable h
  induction tableMap generalizing i with
  | nil => cases h
  | cons first rest ih =>
      rw [List.find?_cons]
      rw [tableAt_cons] at htable
      split at htable
      · obtain rfl := Option.some.inj htable
        obtain rfl := Option.some.inj h
        simp
      · rename_i hother
        obtain ⟨j, hj, rfl⟩ := Option.map_eq_some_iff.mp htable
        have hne : first.1 ≠ entry.1 := fun heq => hother (heq ▸ hname)
        simp only [hne, decide_false]
        exact ih hj h

/-! ### Items -/

/-- The columns of a name, resolved: there is to be one. -/
theorem toOption_resolveUnqualifiedColumn (name : String) :
    ((resolveUnqualifiedColumn tableMap name).map fun position => some [position]).toOption =
      (SelectItem.column name).resolved tableMap := by
  have hpositions : positionsOf name 0 tableMap = columnsAt tableMap name := by
    rw [positionsOf_eq]
    simp
  rw [resolveUnqualifiedColumn, hpositions, SelectItem.resolved, SelectItem.positions]
  rcases columnsAt tableMap name with _ | ⟨position, _ | ⟨other, rest⟩⟩
  · rfl
  · rfl
  · rfl

theorem columnAt_of_get {i : Nat} {entry : String × List ColumnMeta} (h : tableMap[i]? = some entry) (name : String) :
    columnAt tableMap name i = (Expression.positionOf entry.2 name).map (startOf tableMap i + ·) := by
  rw [columnAt, h]
  cases hidx : Expression.positionOf entry.2 name <;> simp [hidx]

/-- A column of a table, resolved: a single table answers to any name. -/
theorem toOption_resolveQualifiedColumn (table name : String) :
    ((resolveQualifiedColumn tableMap table name).map fun position => some [position]).toOption =
      (SelectItem.columnOf table name).resolved tableMap := by
  unfold resolveQualifiedColumn
  rw [find?_table, SelectItem.resolved]
  cases htable : tableAt tableMap table with
  | some i =>
      have hlt := (List.findIdx?_eq_some_iff_getElem.mp htable).1
      have hentry := List.getElem?_eq_getElem hlt
      simp only [Option.bind_some, hentry, columnAt_of_get hentry, offsetOf_eq htable hentry]
      cases Expression.positionOf tableMap[i].2 name <;> rfl
  | none =>
      rcases hmap : tableMap with _ | ⟨first, _ | ⟨second, rest⟩⟩
      · rfl
      · have hfirst : columnAt [first] name 0 = Expression.positionOf first.2 name := by
          simp [columnAt, startOf, combinedLen]
        simp only [Option.bind_none, List.length_singleton, if_true, hfirst]
        cases Expression.positionOf first.2 name <;> rfl
      · simp only [Option.bind_none, List.length_cons]
        rw [if_neg (by omega)]
        rfl

/-- The columns of a table, resolved: none where there is no such table. -/
theorem resolveSelectColumn_qualWildcard (table : String) :
    resolveSelectColumn tableMap (.qualWildcard table) =
      .ok (some (((SelectItem.allOf table).positions tableMap).getD [])) := by
  rw [resolveSelectColumn, find?_tableOffsets, SelectItem.positions]
  cases htable : tableAt tableMap table with
  | none => rfl
  | some i =>
      have hlt := (List.findIdx?_eq_some_iff_getElem.mp htable).1
      have hentry := List.getElem?_eq_getElem hlt
      have hname := find?_name htable hentry
      simp [hentry, hname]

/-- A selected column is resolved as its item. -/
theorem toOption_resolveSelectColumn {column : SelectColumn}
    {item : SelectItem} (hitem : column.item? = some item) :
    (resolveSelectColumn tableMap column).toOption = item.resolved tableMap := by
  cases column with
  | wildcard =>
      cases hitem
      rfl
  | qualWildcard table =>
      cases hitem
      rw [resolveSelectColumn_qualWildcard]
      rfl
  | qualified name aliasName =>
      rw [SelectColumn.item?] at hitem
      rw [resolveSelectColumn]
      cases hdot : splitAtDot name with
      | none =>
          rw [hdot] at hitem
          cases hitem
          exact toOption_resolveUnqualifiedColumn name
      | some parts =>
          rw [hdot] at hitem
          cases hitem
          exact toOption_resolveQualifiedColumn parts.1 parts.2
  | expr expr =>
      cases expr with
      | column name =>
          cases hitem
          exact toOption_resolveUnqualifiedColumn name
      | qualifiedColumn table name =>
          cases hitem
          exact toOption_resolveQualifiedColumn table name
      | _ => cases hitem

theorem refused_iff {item : SelectItem} : item.Refused tableMap ↔ item.resolved tableMap = none := by
  cases item with
  | all => exact iff_of_false id nofun
  | allOf table => exact iff_of_false id nofun
  | column name =>
      rw [SelectItem.Refused, SelectItem.resolved, SelectItem.positions]
      rcases columnsAt tableMap name with _ | ⟨position, _ | ⟨other, rest⟩⟩ <;> simp
  | columnOf table name =>
      rw [SelectItem.Refused, SelectItem.resolved]
      cases tableAt tableMap table with
      | some i => simp
      | none => by_cases hlength : tableMap.length = 1 <;> simp [hlength]

/-- A refused item denotes nothing. -/
theorem positions_of_refused {item : SelectItem} (h : item.Refused tableMap) : item.positions tableMap = none := by
  have hresolved := refused_iff.mp h
  cases item with
  | all => cases h
  | allOf table => cases h
  | column name => exact Option.map_eq_none_iff.mp hresolved
  | columnOf table name =>
      rw [SelectItem.resolved] at hresolved
      rw [SelectItem.positions]
      cases htable : tableAt tableMap table with
      | none => rfl
      | some i =>
          rw [htable] at hresolved
          simp [Option.map_eq_none_iff.mp hresolved]

/-- An item of an unknown table denotes nothing. -/
theorem positions_of_stray {item : SelectItem} (h : item.Stray tableMap) : item.positions tableMap = none := by
  cases item with
  | all => cases h
  | column name => cases h
  | allOf table =>
      have hnone : tableAt tableMap table = none := h
      simp [SelectItem.positions, hnone]
  | columnOf table name =>
      have hnone : tableAt tableMap table = none := h
      simp [SelectItem.positions, hnone]

/-- Any other item is resolved as what it denotes, unless it is a `*`. -/
theorem resolved_of_known {item : SelectItem} (hrefused : ¬ item.Refused tableMap) (hstray : ¬ item.Stray tableMap) :
    ∃ positions, item.positions tableMap = some positions ∧
      item.resolved tableMap = some (if item = .all then none else some positions) := by
  rw [refused_iff] at hrefused
  cases item with
  | all => exact ⟨_, rfl, rfl⟩
  | allOf table =>
      obtain ⟨i, htable⟩ := Option.ne_none_iff_exists'.mp hstray
      have hlt := (List.findIdx?_eq_some_iff_getElem.mp htable).1
      simp [SelectItem.resolved, SelectItem.positions, htable, List.getElem?_eq_getElem hlt]
  | column name =>
      obtain ⟨positions, hpositions⟩ := Option.ne_none_iff_exists'.mp hrefused
      obtain ⟨found, hfound, rfl⟩ := Option.map_eq_some_iff.mp hpositions
      exact ⟨found, hfound, hpositions⟩
  | columnOf table name =>
      obtain ⟨i, htable⟩ := Option.ne_none_iff_exists'.mp hstray
      rw [SelectItem.resolved, htable] at hrefused
      obtain ⟨positions, hpositions⟩ := Option.ne_none_iff_exists'.mp hrefused
      obtain ⟨position, hposition, -⟩ := Option.map_eq_some_iff.mp hpositions
      simp [SelectItem.resolved, SelectItem.positions, htable, hposition]

theorem columnAt_lt {name : String} {i position : Nat} (h : columnAt tableMap name i = some position) :
    position < combinedLen tableMap := by
  cases hentry : tableMap[i]? with
  | none => simp [columnAt, hentry] at h
  | some entry =>
      rw [columnAt_of_get hentry] at h
      obtain ⟨idx, hidx, rfl⟩ := Option.map_eq_some_iff.mp h
      have hlt := lt_of_positionOf hidx
      have hle := startOf_le hentry
      omega

/-- Every position that an item denotes is one of the combined row. -/
theorem positions_lt {item : SelectItem} {positions : List Nat} (h : item.positions tableMap = some positions) :
    ∀ position ∈ positions, position < combinedLen tableMap := by
  intro position hmem
  cases item with
  | all =>
      cases h
      exact List.mem_range.mp hmem
  | allOf table =>
      obtain ⟨i, htable, h⟩ := Option.bind_eq_some_iff.mp h
      obtain ⟨entry, hentry, h⟩ := Option.bind_eq_some_iff.mp h
      cases h
      obtain ⟨idx, hidx, rfl⟩ := List.mem_map.mp hmem
      have hlt := List.mem_range.mp hidx
      have hle := startOf_le hentry
      omega
  | column name =>
      rw [SelectItem.positions] at h
      split at h
      · rename_i found hfound
        cases h
        obtain rfl := List.mem_singleton.mp hmem
        have hcolumn : position ∈ columnsAt tableMap name := hfound ▸ List.mem_singleton_self position
        obtain ⟨i, -, hi⟩ := List.mem_filterMap.mp hcolumn
        exact columnAt_lt hi
      · cases h
  | columnOf table name =>
      obtain ⟨i, htable, h⟩ := Option.bind_eq_some_iff.mp h
      obtain ⟨found, hfound, h⟩ := Option.bind_eq_some_iff.mp h
      cases h
      obtain rfl := List.mem_singleton.mp hmem
      exact columnAt_lt hfound

/-! ### Lists -/

theorem mapM_eq_none_iff {α β : Type} {f : α → Option β} {items : List α} :
    items.mapM f = none ↔ ∃ item ∈ items, f item = none := by
  induction items with
  | nil => simp
  | cons item rest ih =>
      rw [List.mapM_cons, List.exists_mem_cons_iff, ← ih]
      cases f item with
      | none => simp
      | some first => cases rest.mapM f <;> simp

theorem mapM_eq_some_map {α β : Type} {f : α → Option β} {g : α → β} {items : List α}
    (h : ∀ item ∈ items, f item = some (g item)) : items.mapM f = some (items.map g) := by
  induction items with
  | nil => rfl
  | cons item rest ih =>
      obtain ⟨hfirst, hrest⟩ := List.forall_mem_cons.mp h
      rw [List.mapM_cons, hfirst, ih hrest]
      rfl

theorem toOption_mapM_resolveSelectColumn {columns : List SelectColumn}
    {items : List SelectItem} (hitems : columns.mapM SelectColumn.item? = some items) :
    (columns.mapM (resolveSelectColumn tableMap)).toOption = items.mapM (SelectItem.resolved tableMap) := by
  induction columns generalizing items with
  | nil =>
      cases hitems
      rfl
  | cons column rest ih =>
      rw [List.mapM_cons] at hitems
      obtain ⟨item, hitem, hitems⟩ := Option.bind_eq_some_iff.mp hitems
      obtain ⟨others, hothers, hitems⟩ := Option.bind_eq_some_iff.mp hitems
      cases hitems
      rw [List.mapM_cons, List.mapM_cons, ← toOption_resolveSelectColumn hitem, ← ih hothers]
      cases resolveSelectColumn tableMap column with
      | error e => rfl
      | ok first => cases rest.mapM (resolveSelectColumn tableMap) <;> rfl

/-- The result of the resolution: all columns for a `*` where no other item has any. -/
def combined (tableMap : List (String × List ColumnMeta)) (resolved : List (Option (List Nat))) : List Nat :=
  let result := (resolved.filterMap id).flatten
  if resolved.any Option.isNone && result.isEmpty then List.range (combinedLen tableMap) else result

theorem toOption_resolveSelectColumns {columns : List SelectColumn}
    {items : List SelectItem} (hitems : columns.mapM SelectColumn.item? = some items) :
    (resolveSelectColumns tableMap columns).toOption =
      if items = [] then some (List.range (combinedLen tableMap))
      else (items.mapM (SelectItem.resolved tableMap)).map (combined tableMap) := by
  rw [← toOption_mapM_resolveSelectColumn hitems, resolveSelectColumns]
  cases columns with
  | nil =>
      cases hitems
      rfl
  | cons column rest =>
      have hne : items ≠ [] := by
        rintro rfl
        rw [List.mapM_cons] at hitems
        obtain ⟨item, -, hitems⟩ := Option.bind_eq_some_iff.mp hitems
        obtain ⟨others, -, hitems⟩ := Option.bind_eq_some_iff.mp hitems
        cases hitems
      rw [if_neg hne, List.isEmpty_cons, if_neg Bool.false_ne_true]
      cases (column :: rest).mapM (resolveSelectColumn tableMap) with
      | error e => rfl
      | ok resolved =>
          show Except.toOption (if _ then _ else _) = some (combined tableMap resolved)
          rw [combined]
          split <;> rfl

section Stars

variable {items : List SelectItem} (placed : SelectItem → List Nat)

/-- What the items other than `*` denote. -/
def withoutStars (placed : SelectItem → List Nat) (items : List SelectItem) : List Nat :=
  (items.filter (· ≠ .all)).flatMap placed

theorem withoutStars_cons_all (rest : List SelectItem) :
    withoutStars placed (.all :: rest) = withoutStars placed rest := by
  rw [withoutStars, List.filter_cons_of_neg (by decide), withoutStars]

theorem withoutStars_cons {item : SelectItem} (h : item ≠ .all) (rest : List SelectItem) :
    withoutStars placed (item :: rest) = placed item ++ withoutStars placed rest := by
  rw [withoutStars, List.filter_cons_of_pos (by simpa using h), List.flatMap_cons, withoutStars]

theorem flatten_marked :
    ((items.map fun item => if item = .all then none else some (placed item)).filterMap id).flatten =
      withoutStars placed items := by
  induction items with
  | nil => rfl
  | cons item rest ih =>
      rw [List.map_cons]
      by_cases hall : item = .all
      · rw [if_pos hall, hall, withoutStars_cons_all, ← ih]
        rfl
      · rw [if_neg hall, withoutStars_cons placed hall, ← ih]
        rfl

theorem any_marked :
    (items.map fun item => if item = .all then none else some (placed item)).any Option.isNone =
      decide (.all ∈ items) := by
  rw [Bool.eq_iff_iff, List.any_eq_true, decide_eq_true_iff]
  constructor
  · rintro ⟨marked, hmarked, hnone⟩
    obtain ⟨item, hitem, rfl⟩ := List.mem_map.mp hmarked
    by_cases hall : item = .all
    · exact hall ▸ hitem
    · rw [if_neg hall] at hnone
      cases hnone
  · intro hall
    exact ⟨_, List.mem_map_of_mem hall, rfl⟩

theorem length_flatMap_stars :
    (items.flatMap placed).length = (withoutStars placed items).length + items.count .all * (placed .all).length := by
  induction items with
  | nil => simp [withoutStars]
  | cons item rest ih =>
      rw [List.flatMap_cons, List.length_append, ih]
      by_cases hall : item = .all
      · rw [hall, withoutStars_cons_all, List.count_cons_self, Nat.succ_mul]
        omega
      · rw [withoutStars_cons placed hall, List.length_append, List.count_cons_of_ne hall]
        omega

/-- A list without a `*`. -/
theorem withoutStars_eq (h : .all ∉ items) : withoutStars placed items = items.flatMap placed := by
  rw [withoutStars, List.filter_eq_self.mpr]
  intro item hitem
  apply decide_eq_true
  rintro rfl
  exact h hitem

/-- A `*` among items that denote nothing. -/
theorem flatMap_of_withoutStars (h : withoutStars placed items = []) (hone : items.count .all = 1) :
    items.flatMap placed = placed .all := by
  induction items with
  | nil => cases hone
  | cons item rest ih =>
      rw [List.flatMap_cons]
      by_cases hall : item = .all
      · rw [hall, withoutStars_cons_all] at h
        rw [hall, List.count_cons_self] at hone
        have hnone : .all ∉ rest := List.count_eq_zero.mp (by omega)
        rw [hall, ← withoutStars_eq placed hnone, h, List.append_nil]
      · rw [withoutStars_cons placed hall] at h
        rw [List.count_cons_of_ne hall] at hone
        obtain ⟨hitem, hrest⟩ := List.append_eq_nil_iff.mp h
        rw [hitem, ih hrest hone, List.nil_append]

end Stars

/-- A list of known items comes out as it should exactly if no `*` is dropped. -/
theorem combined_eq_iff {items : List SelectItem} {placed : SelectItem → List Nat}
    (hplaced : ∀ item ∈ items, item.positions tableMap = some (placed item))
    (hall : placed .all = List.range (combinedLen tableMap)) (hne : items ≠ []) :
    combined tableMap (items.map fun item => if item = .all then none else some (placed item)) =
        items.flatMap placed ↔
      if .all ∈ items then
        combinedLen tableMap = 0 ∨
          items.count .all = 1 ∧ ∀ item ∈ items, item ≠ .all → item.positions tableMap = some []
      else items ≠ [] ∨ combinedLen tableMap = 0 := by
  rw [combined, flatten_marked, any_marked]
  have hlength := @length_flatMap_stars items placed
  rw [hall, List.length_range] at hlength
  by_cases hstar : .all ∈ items
  · rw [if_pos hstar, decide_eq_true hstar, Bool.true_and]
    have hcount := List.count_pos_iff.mpr hstar
    have hothers :
        withoutStars placed items = [] ↔ ∀ item ∈ items, item ≠ .all → item.positions tableMap = some [] := by
      rw [withoutStars, List.flatMap_eq_nil_iff]
      constructor
      · intro h item hitem hne
        rw [hplaced item hitem, h item (List.mem_filter.mpr ⟨hitem, decide_eq_true hne⟩)]
      · intro h item hitem
        obtain ⟨hitem, hne⟩ := List.mem_filter.mp hitem
        exact Option.some.inj ((hplaced item hitem).symm.trans (h item hitem (of_decide_eq_true hne)))
    rw [← hothers]
    by_cases hrest : withoutStars placed items = []
    · rw [hrest, List.isEmpty_nil, if_pos rfl]
      rw [hrest, List.length_nil, Nat.zero_add] at hlength
      constructor
      · intro heq
        rw [← heq, List.length_range] at hlength
        rcases Nat.eq_zero_or_pos (combinedLen tableMap) with hzero | hpos
        · exact Or.inl hzero
        · exact Or.inr ⟨Nat.eq_of_mul_eq_mul_right hpos (by omega), rfl⟩
      · rintro (hzero | ⟨hone, -⟩)
        · rw [hzero, Nat.mul_zero] at hlength
          rw [hzero, List.length_eq_zero_iff.mp hlength, List.range_zero]
        · rw [flatMap_of_withoutStars placed hrest hone, hall]
    · rw [if_neg (by simpa using hrest)]
      have hcolumns : 0 < combinedLen tableMap := by
        obtain ⟨position, hposition⟩ := List.exists_mem_of_ne_nil _ hrest
        obtain ⟨item, hitem, hmem⟩ := List.mem_flatMap.mp hposition
        exact Nat.zero_lt_of_lt (positions_lt (hplaced item (List.mem_filter.mp hitem).1) position hmem)
      apply iff_of_false
      · intro heq
        have hpos := Nat.mul_pos hcount hcolumns
        rw [← heq] at hlength
        omega
      · rintro (hzero | ⟨-, hnil⟩)
        · omega
        · exact hrest hnil
  · rw [if_neg hstar, decide_eq_false hstar, Bool.false_and, if_neg Bool.false_ne_true]
    exact iff_of_true (withoutStars_eq placed hstar) (Or.inl hne)

/-- A SELECT list expands as it should exactly if it is safe. -/
theorem toOption_resolveSelectColumns_iff {columns : List SelectColumn} {items : List SelectItem}
    (hitems : columns.mapM SelectColumn.item? = some items) :
    (resolveSelectColumns tableMap columns).toOption = expansion tableMap items ↔ SelectSafe tableMap items := by
  rw [toOption_resolveSelectColumns hitems, expansion, SelectSafe]
  by_cases hrefused : ∃ item ∈ items, item.Refused tableMap
  · obtain ⟨item, hitem, hitemRefused⟩ := hrefused
    have hresolved : items.mapM (SelectItem.resolved tableMap) = none :=
      mapM_eq_none_iff.mpr ⟨item, hitem, refused_iff.mp hitemRefused⟩
    have hpositions : items.mapM (SelectItem.positions tableMap) = none :=
      mapM_eq_none_iff.mpr ⟨item, hitem, positions_of_refused hitemRefused⟩
    rw [if_neg (List.ne_nil_of_mem hitem), hresolved, hpositions]
    exact iff_of_true rfl (Or.inl ⟨item, hitem, hitemRefused⟩)
  · rw [or_iff_right hrefused]
    have hrefused : ∀ item ∈ items, ¬ item.Refused tableMap := fun item hitem h => hrefused ⟨item, hitem, h⟩
    by_cases hstray : ∃ item ∈ items, item.Stray tableMap
    · obtain ⟨item, hitem, hitemStray⟩ := hstray
      have hpositions : items.mapM (SelectItem.positions tableMap) = none :=
        mapM_eq_none_iff.mpr ⟨item, hitem, positions_of_stray hitemStray⟩
      rw [if_neg (List.ne_nil_of_mem hitem), hpositions]
      apply iff_of_false
      · intro heq
        obtain ⟨other, hother, hnone⟩ := mapM_eq_none_iff.mp (Option.map_eq_none_iff.mp heq)
        exact hrefused other hother (refused_iff.mpr hnone)
      · rintro ⟨hknown, -⟩
        exact hknown item hitem hitemStray
    · have hstray : ∀ item ∈ items, ¬ item.Stray tableMap := fun item hitem h => hstray ⟨item, hitem, h⟩
      rw [and_iff_right hstray]
      let placed (item : SelectItem) : List Nat := (item.positions tableMap).getD []
      have hknown : ∀ item ∈ items, item.positions tableMap = some (placed item) ∧
          item.resolved tableMap = some (if item = .all then none else some (placed item)) := by
        intro item hitem
        obtain ⟨positions, hpositions, hresolved⟩ := resolved_of_known (hrefused item hitem) (hstray item hitem)
        have hsame : placed item = positions := by
          show (item.positions tableMap).getD [] = positions
          rw [hpositions, Option.getD_some]
        rw [hsame]
        exact ⟨hpositions, hresolved⟩
      rw [mapM_eq_some_map fun item hitem => (hknown item hitem).1,
        mapM_eq_some_map fun item hitem => (hknown item hitem).2, Option.map_some, Option.map_some]
      by_cases hempty : items = []
      · subst hempty
        rw [if_pos rfl, if_neg List.not_mem_nil]
        rw [or_iff_right fun h => h rfl]
        show some (List.range (combinedLen tableMap)) = some [] ↔ _
        rw [Option.some_inj, List.range_eq_nil]
      · rw [if_neg hempty, Option.some_inj]
        exact combined_eq_iff (fun item hitem => (hknown item hitem).1) rfl hempty

end

section Samples

/-- Two joined tables. -/
def joinedTables : List (String × List ColumnMeta) :=
  [("t", [.new "a" .integer, .new "b" .integer]), ("u", [.new "c" .integer])]

/-- `SELECT u.*, c, t.a` over two tables. -/
theorem toOption_resolveSelectColumns_joined :
    (resolveSelectColumns joinedTables
        [.qualWildcard "u", .expr (.column "c"), .expr (.qualifiedColumn "t" "a")]).toOption =
      expansion joinedTables [.allOf "u", .column "c", .columnOf "t" "a"] := by
  have hitems : [SelectColumn.qualWildcard "u", .expr (.column "c"), .expr (.qualifiedColumn "t" "a")].mapM
      SelectColumn.item? = some [.allOf "u", .column "c", .columnOf "t" "a"] := rfl
  apply (toOption_resolveSelectColumns_iff hitems).mpr
  refine Or.inr ⟨?_, Or.inl (List.cons_ne_nil _ _)⟩
  intro item hitem
  rcases List.mem_cons.mp hitem with rfl | hitem
  · exact Option.some_ne_none 1
  rcases List.mem_cons.mp hitem with rfl | hitem
  · exact id
  · obtain rfl := List.mem_singleton.mp hitem
    exact Option.some_ne_none 0

/-- `SELECT *, a` gives `a` only, `SELECT x.*, a` drops the item of an unknown table, and `SELECT x.a FROM t` takes the
column from `t`. -/
theorem not_toOption_resolveSelectColumns :
    (resolveSelectColumns joinedTables [.wildcard, .expr (.column "a")]).toOption = some [0] ∧
      some [0] ≠ expansion joinedTables [.all, .column "a"] ∧
      (resolveSelectColumns joinedTables [.qualWildcard "x", .expr (.column "a")]).toOption = some [0] ∧
      some [0] ≠ expansion joinedTables [.allOf "x", .column "a"] ∧
      (resolveSelectColumns [("t", [.new "a" .integer])] [.expr (.qualifiedColumn "x" "a")]).toOption = some [0] ∧
      some [0] ≠ expansion [("t", [.new "a" .integer])] [.columnOf "x" "a"] := by
  have hstar : expansion joinedTables [.all, .column "a"] = some [0, 1, 2, 0] := rfl
  have htable : expansion joinedTables [.allOf "x", .column "a"] = none := rfl
  have hcolumn : expansion [("t", [.new "a" .integer])] [.columnOf "x" "a"] = none := rfl
  rw [hstar, htable, hcolumn]
  exact ⟨rfl, by decide, rfl, nofun, rfl, nofun⟩

end Samples

end HelionDb
