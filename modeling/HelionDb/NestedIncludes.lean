import HelionDb.IncludeJoin

/-! A findMany request with an include against what it asks for: every row of the page once, in order, with the rows that
refer to it. The join takes its page of the pairs, not of the rows, leaves out ORDER BY, and finds the rows that refer by the
columns of the wrong table. Where that table has no column of the foreign key's name, it finds none at all. -/

namespace HelionDb

/-- An object has the values of a row under the names of its columns. -/
def Json.ShowsRow [Rendering] (item : Json) (table : String) (columns : List ColumnMeta) (row : List Datum) : Prop :=
  ∀ entry ∈ columns.zip row, item.get (table ++ "." ++ entry.1.name) = some (.string entry.2.display)

/-- The value of a row under the name of a column. -/
def valueUnder (columns : List ColumnMeta) (name : String) (row : List Datum) : Option Datum :=
  (Expression.positionOf columns name).map fun idx => row[idx]?.getD .null

namespace IncludeRequest

section Asked

variable [CaseMapping] [Rendering] [NumberText] {ctx : ExecContext} (request : IncludeRequest ctx.tables)

/-- The rows of the parent that the request selects, in its order. -/
def selected : DataRows :=
  request.input.page (sortRows ctx.choices
    [{ name := request.input.fromTable, offset := 0, columns := request.parent.columns }]
    (request.input.orderBy.map OrderByInput.expr) request.taken)

/-- A row of the child refers to a row of the parent. -/
def refers (row other : List Datum) : Bool :=
  match valueUnder request.parent.columns request.fk.parentColumn row,
      valueUnder request.child.columns request.fk.childColumn other with
  | some key, some reference => !key.isNull && !reference.isNull && key.datumEq reference
  | _, _ => false

/-- The rows of the child that belong to a row of the parent, under the filter of the include. -/
def kids (row : List Datum) : DataRows :=
  ((ctx.rowsIn request.child).filter
    (satisfies ctx.choices [{ name := request.inc.relation, offset := 0, columns := request.child.columns }]
      request.childFilter)).filter (request.refers row)

/-- An array of objects for exactly the rows that belong to a row. -/
def ListsKids (listed : List Json) (row : List Datum) : Prop :=
  ∃ order, order.Perm (request.kids row) ∧
    List.Forall₂ (fun item other => item.ShowsRow request.inc.relation request.child.columns other) listed order

/-- The selected rows in their order, each with the rows that belong to it. -/
def Answers (data : List Json) : Prop :=
  List.Forall₂ (fun item row =>
    item.ShowsRow request.input.fromTable request.parent.columns row ∧
      ∃ listed, item.get request.inc.relation = some (.array listed) ∧ request.ListsKids listed row)
    data request.selected

end Asked

section Shown

variable [CaseMapping] [Rendering] [NumberText] {ctx : ExecContext} (request : IncludeRequest ctx.tables)

/-- The fields of a row of the parent that has these texts. -/
def parentObject (texts : List String) : Json :=
  .object (rowFields ((namesUnder request.input.fromTable request.parent.columns).zip texts))

/-- The texts of a row of the child that the join keeps. -/
def keptTexts (other : List Datum) : List String := (other.map Datum.display).take request.parent.columns.length

/-- The fields of a row of the child, under the names of the parent's columns. -/
def childObject (other : List Datum) : List (String × Json) :=
  rowFields ((namesUnder request.inc.relation request.parent.columns).zip (request.keptTexts other))

/-- The rows that the page has beside a row of these texts, less blank ones and less repeated ones. -/
def shownChildren (texts : List String) : List (List (String × Json)) :=
  keepNew hasFieldsOf ((request.input.page request.pairs).filterMap fun pair =>
    if pair.1.map Datum.display = texts then
      (pair.2.filter fun other => !(request.keptTexts other).all (· = "NULL")).map request.childObject
    else none)

/-- The array of the relation does not take the place of another field. -/
def HasOwnField : Prop :=
  request.parent.columns ≠ [] ∧ request.inc.relation ≠ "_key" ∧
    request.inc.relation ∉ namesUnder request.input.fromTable request.parent.columns

/-- The page of the pairs has the selected rows in their order, each with texts of its own, and beside each one the rows that
belong to it. -/
structure PageAgrees : Prop where
  named : request.selected ≠ [] → request.HasOwnField
  shown : List.Forall₂ (fun texts row =>
    (request.parentObject texts).ShowsRow request.input.fromTable request.parent.columns row ∧
      request.ListsKids ((request.shownChildren texts).map .object) row)
    (distinct ((request.input.page request.pairs).map fun pair => pair.1.map Datum.display)) request.selected

end Shown

/-! ### The flat rows -/

section Flat

variable [CaseMapping] [Rendering] [NumberText] {ctx : ExecContext} {request : IncludeRequest ctx.tables}

omit [CaseMapping] [Rendering] [NumberText] in
theorem length_namesUnder (table : String) (columns : List ColumnMeta) :
    (namesUnder table columns).length = columns.length :=
  List.length_map _

theorem length_of_mem_taken (hfit : request.parent.RowsFit) {row : List Datum} (hrow : row ∈ request.taken) :
    row.length = request.parent.columns.length := by
  obtain ⟨⟨rowIdx, values⟩, hvisible, rfl⟩ := List.mem_map.mp (List.mem_filter.mp hrow).1
  obtain ⟨chain, hchain, version, hversion, rfl⟩ := Table.mem_scanVisible.mp hvisible
  have hseen : request.parent.visibleAt ctx.snapshot rowIdx = some version.row := by
    rw [Table.visibleAt, hchain, Option.bind_some, hversion, Option.map_some]
  exact hfit.visible hseen

theorem fst_mem_taken {pair : List Datum × Option (List Datum)} (hpair : pair ∈ request.pairs) :
    pair.1 ∈ request.taken := by
  obtain ⟨row, hrow, hpair⟩ := List.mem_flatMap.mp hpair
  split at hpair
  · rw [List.mem_singleton.mp hpair]
    exact hrow
  · obtain ⟨other, -, rfl⟩ := List.mem_map.mp hpair
    exact hrow

omit [CaseMapping] in
/-- The texts of a joined row. -/
theorem joinedTexts_eq {pair : List Datum × Option (List Datum)} (hwidth : pair.1.length = request.parent.columns.length) :
    ((request.joinedRow pair).take (2 * request.parent.columns.length)).map Datum.display =
      pair.1.map Datum.display ++ request.keptTexts (pair.2.getD (padding request.parent.columns.length)) := by
  have hrest : 2 * request.parent.columns.length - pair.1.length = request.parent.columns.length := by omega
  rw [joinedRow, List.take_append, hrest, List.take_of_length_le (by omega), List.map_append, keptTexts, List.map_take]

omit [CaseMapping] in
theorem keptTexts_padding :
    request.keptTexts (padding request.parent.columns.length) = List.replicate request.parent.columns.length "NULL" := by
  rw [keptTexts, padding, List.map_replicate, List.take_of_length_le (by rw [List.length_replicate])]
  rfl

omit [CaseMapping] [Rendering] in
/-- A joined row after the columns of the parent. -/
theorem drop_joinedTexts {texts kept : List String} (hwidth : texts.length = request.parent.columns.length) :
    ((namesUnder request.input.fromTable request.parent.columns ++
        namesUnder request.inc.relation request.parent.columns).zip (texts ++ kept)).drop request.parent.columns.length =
      (namesUnder request.inc.relation request.parent.columns).zip kept := by
  rw [List.zip_append (by rw [length_namesUnder, hwidth])]
  apply List.drop_left'
  rw [List.length_zip, length_namesUnder, hwidth, Nat.min_self]

omit [CaseMapping] [Rendering] in
theorem blank_joinedTexts {texts kept : List String} (hwidth : texts.length = request.parent.columns.length)
    (hkept : kept.length ≤ request.parent.columns.length) :
    blank (namesUnder request.input.fromTable request.parent.columns ++
        namesUnder request.inc.relation request.parent.columns) request.parent.columns.length (texts ++ kept) =
      kept.all (· = "NULL") := by
  have hcut : (texts ++ kept).take (namesUnder request.input.fromTable request.parent.columns ++
      namesUnder request.inc.relation request.parent.columns).length = texts ++ kept := by
    apply List.take_of_length_le
    rw [List.length_append, List.length_append, length_namesUnder, length_namesUnder]
    omega
  rw [blank, hcut, List.drop_left' hwidth]
  cases kept with
  | nil => simp
  | cons first rest =>
      have hlong : ¬ (texts ++ first :: rest).length ≤ request.parent.columns.length := by
        rw [List.length_append, List.length_cons]
        omega
      rw [decide_eq_false hlong, Bool.false_or]

/-- The objects that the request puts into the array of a parent. -/
theorem childrenOf_page (hfit : request.parent.RowsFit) (texts : List String) :
    childrenOf (namesUnder request.input.fromTable request.parent.columns ++
        namesUnder request.inc.relation request.parent.columns) request.parent.columns.length
      ((request.input.page request.pairs).map fun pair =>
        ((request.joinedRow pair).take (2 * request.parent.columns.length)).map Datum.display) texts =
      request.shownChildren texts := by
  rw [childrenOf, shownChildren, List.filter_map, List.map_map, ← List.filterMap_eq_filter, List.map_filterMap]
  congr 1
  apply List.filterMap_congr
  intro pair hpair
  have hwidth := length_of_mem_taken hfit (fst_mem_taken (FindManyInput.mem_of_mem_page hpair))
  have htexts : (pair.1.map Datum.display).length = request.parent.columns.length := by
    rw [List.length_map, hwidth]
  have hkept : ∀ other, (request.keptTexts other).length ≤ request.parent.columns.length :=
    fun other => List.length_take_le _ _
  have hobject : ∀ other, pair.2 = some other → childFields
      (namesUnder request.input.fromTable request.parent.columns ++ namesUnder request.inc.relation request.parent.columns)
      request.parent.columns.length
      (((request.joinedRow pair).take (2 * request.parent.columns.length)).map Datum.display) = request.childObject other := by
    intro other hother
    rw [joinedTexts_eq hwidth, childFields, drop_joinedTexts htexts, hother, Option.getD_some, childObject]
  rw [Option.guard]
  simp only [Function.comp_apply, joinedTexts_eq hwidth, List.take_left' htexts, blank_joinedTexts htexts (hkept _)]
  by_cases hsame : pair.1.map Datum.display = texts
  · rw [if_pos hsame, decide_eq_true hsame, Bool.true_and]
    cases hother : pair.2 with
    | none =>
        rw [Option.getD_none, keptTexts_padding]
        simp
    | some other =>
        rw [Option.getD_some, Option.filter_some]
        split
        · exact congrArg some (hobject other hother)
        · rfl
  · rw [if_neg hsame, decide_eq_false hsame, Bool.false_and, if_neg Bool.false_ne_true]
    rfl

end Flat

/-! ### The answer -/

section Answer

variable [CaseMapping] [Rendering] [NumberText] {ctx : ExecContext} {request : IncludeRequest ctx.tables}

variable (request) in
/-- What the request returns. -/
def data : List Json :=
  buildNestedJson
    (namesUnder request.input.fromTable request.parent.columns ++
      namesUnder request.inc.relation request.parent.columns)
    ((request.input.page request.pairs).map fun pair =>
      ((request.joinedRow pair).take (2 * request.parent.columns.length)).map Datum.display)
    [{ parentIdx := 0, childIdx := request.parent.columns.length, parentCol := request.fk.parentColumn
       childCol := request.fk.childColumn, parentTable := request.input.fromTable
       childTable := request.inc.relation }]

omit [CaseMapping] [Rendering] [NumberText] in
/-- A qualified name is not the name of the key. -/
theorem qualified_ne_key (table column : String) : table ++ "." ++ column ≠ "_key" := by
  intro hsame
  have hdot : '.' ∈ (table ++ "." ++ column).toList := by simp
  rw [hsame] at hdot
  exact absurd hdot (by decide)

theorem keys_eq (hfit : request.parent.RowsFit) :
    ((request.input.page request.pairs).map fun pair =>
        ((request.joinedRow pair).take (2 * request.parent.columns.length)).map Datum.display).map
          (fun row => row.take request.parent.columns.length) =
      (request.input.page request.pairs).map fun pair => pair.1.map Datum.display := by
  rw [List.map_map]
  apply List.map_congr_left
  intro pair hpair
  have hwidth := length_of_mem_taken hfit (fst_mem_taken (FindManyInput.mem_of_mem_page hpair))
  rw [Function.comp_apply, joinedTexts_eq hwidth, List.take_left' (by rw [List.length_map, hwidth])]

/-- Where the relation has a field of its own, there is an object for each list of texts on the page. -/
theorem forall₂_data (hfit : request.parent.RowsFit) (hcolumns : request.parent.columns ≠ [])
    (hrelation : request.inc.relation ≠ "_key") :
    List.Forall₂
      (fun texts item =>
        item.get request.inc.relation = some (.array ((request.shownChildren texts).map .object)) ∧
          ∀ name, name ≠ request.inc.relation → name ≠ "_key" →
            item.get name = (request.parentObject texts).get name)
      (distinct ((request.input.page request.pairs).map fun pair => pair.1.map Datum.display)) request.data := by
  have hnested := @forall₂_buildNestedJson
    (namesUnder request.input.fromTable request.parent.columns ++ namesUnder request.inc.relation request.parent.columns)
    { parentIdx := 0, childIdx := request.parent.columns.length, parentCol := request.fk.parentColumn
      childCol := request.fk.childColumn, parentTable := request.input.fromTable, childTable := request.inc.relation }
    ((request.input.page request.pairs).map fun pair =>
      ((request.joinedRow pair).take (2 * request.parent.columns.length)).map Datum.display)
    (by simpa [namesUnder] using hcolumns) hrelation ?_
  · rw [keys_eq hfit] at hnested
    refine hnested.imp fun texts item hitem => ⟨?_, ?_⟩
    · rw [← childrenOf_page hfit]
      exact hitem.1
    · intro name hname hkey
      rw [hitem.2 name hname hkey, List.take_left' (length_namesUnder _ _)]
      rfl
  · intro row hrow
    obtain ⟨pair, hpair, rfl⟩ := List.mem_map.mp hrow
    have hwidth := length_of_mem_taken hfit (fst_mem_taken (FindManyInput.mem_of_mem_page hpair))
    rw [joinedTexts_eq hwidth, List.length_append, List.length_map, hwidth]
    exact Nat.le_add_right _ _

theorem data_eq_nil_iff : request.data = [] ↔ request.input.page request.pairs = [] := by
  rw [data, buildNestedJson_eq_nil_iff, List.map_eq_nil_iff]

theorem length_of_mem_selected (hfit : request.parent.RowsFit) {row : List Datum} (hrow : row ∈ request.selected) :
    row.length = request.parent.columns.length := by
  apply length_of_mem_taken hfit
  exact sortRows_perm.mem_iff.mp (FindManyInput.mem_of_mem_page hrow)

/-- An answer to a request that selects rows has a field for the relation that no other field takes. -/
theorem hasOwnField_of_answers (hfit : request.parent.RowsFit) (hanswers : request.Answers request.data)
    (hsome : request.selected ≠ []) : request.HasOwnField := by
  obtain ⟨row, rest, hselected⟩ := List.exists_cons_of_ne_nil hsome
  rw [Answers, hselected] at hanswers
  cases hdata : request.data with
  | nil =>
      rw [hdata] at hanswers
      cases hanswers
  | cons item items =>
      have hitem : item ∈ request.data := by
        rw [hdata]
        exact List.mem_cons_self
      rw [hdata, List.forall₂_cons] at hanswers
      obtain ⟨⟨hreads, listed, hlisted, -⟩, -⟩ := hanswers
      have hcolumns : request.parent.columns ≠ [] := by
        intro hnone
        rw [data, hnone] at hitem
        obtain ⟨texts, -, rfl⟩ : ∃ texts, texts ∈ _ ∧ Json.object (rowFields (List.zip [] texts)) = item :=
          List.mem_map.mp hitem
        cases hlisted
      have hrelation : request.inc.relation ≠ "_key" := by
        intro hkey
        rw [hkey, get_key_buildNestedJson (List.cons_ne_nil _ _) (by simpa [namesUnder] using hcolumns) hitem] at hlisted
        cases hlisted
      refine ⟨hcolumns, hrelation, fun hname => ?_⟩
      obtain ⟨column, hcolumn, hsame⟩ := List.mem_map.mp hname
      obtain ⟨idx, hidx, rfl⟩ := List.getElem_of_mem hcolumn
      have hwidth := length_of_mem_selected hfit (hselected ▸ List.mem_cons_self)
      have hfield := hreads (request.parent.columns[idx], row[idx]) (by
        rw [List.mem_iff_getElem]
        exact ⟨idx, by rw [List.length_zip, hwidth, Nat.min_self]; exact hidx, List.getElem_zip⟩)
      rw [hsame, hlisted] at hfield
      cases hfield

/-- What the request returns is what it asks for exactly where the page of the pairs agrees with it. -/
theorem answers_iff (hfit : request.parent.RowsFit) : request.Answers request.data ↔ request.PageAgrees := by
  by_cases hsome : request.selected = []
  · have hempty : request.Answers request.data ↔ request.input.page request.pairs = [] := by
      rw [Answers, hsome, List.forall₂_nil_right_iff, data_eq_nil_iff]
    rw [hempty]
    constructor
    · intro hnone
      refine ⟨fun h => absurd hsome h, ?_⟩
      rw [hnone, hsome]
      exact .nil
    · rintro ⟨-, hshown⟩
      rw [hsome, List.forall₂_nil_right_iff] at hshown
      rw [List.eq_nil_iff_forall_not_mem]
      intro pair hpair
      have hmem := mem_distinct.mpr (List.mem_map_of_mem (f := fun pair => pair.1.map Datum.display) hpair)
      rw [hshown] at hmem
      cases hmem
  · have hshown : request.HasOwnField → (request.Answers request.data ↔ List.Forall₂ (fun texts row =>
        (request.parentObject texts).ShowsRow request.input.fromTable request.parent.columns row ∧
          request.ListsKids ((request.shownChildren texts).map .object) row)
        (distinct ((request.input.page request.pairs).map fun pair => pair.1.map Datum.display)) request.selected) := by
      rintro ⟨hcolumns, hrelation, hname⟩
      apply forall₂_congr_left (forall₂_data hfit hcolumns hrelation)
      rintro texts item row ⟨hlisted, hfields⟩
      apply and_congr
      · apply forall₂_congr
        intro entry hentry
        have hown : request.input.fromTable ++ "." ++ entry.1.name ∈
            namesUnder request.input.fromTable request.parent.columns :=
          List.mem_map_of_mem (List.of_mem_zip (a := entry.1) (b := entry.2) hentry).1
        rw [hfields _ (fun hsame => hname (hsame ▸ hown)) (qualified_ne_key _ _)]
      · rw [hlisted]
        constructor
        · rintro ⟨listed, hsame, hkids⟩
          obtain rfl := Json.array.inj (Option.some.inj hsame)
          exact hkids
        · intro hkids
          exact ⟨_, rfl, hkids⟩
    constructor
    · intro hanswers
      have hown := hasOwnField_of_answers hfit hanswers hsome
      exact ⟨fun _ => hown, (hshown hown).mp hanswers⟩
    · rintro ⟨hown, hagrees⟩
      exact (hshown (hown hsome)).mpr hagrees

/-- One side of the ON condition has no column. -/
theorem finds_eq_false (hmissing : Expression.positionOf request.parent.columns request.fk.parentColumn = none ∨
      Expression.positionOf request.parent.columns request.fk.childColumn = none) (row other : List Datum) :
    request.finds row other = false := by
  have hlookup : ∀ table name, Expression.positionOf request.parent.columns name = none →
      ∃ err, Expression.lookupJoin (row ++ other) request.slots (some table) name = .error err := by
    intro table name hnone
    rw [Expression.lookupJoin]
    split
    · exact ⟨_, rfl⟩
    · rename_i slot hslot
      have hcolumns : slot.columns = request.parent.columns := by
        have hmem := List.mem_of_find?_eq_some hslot
        rcases List.mem_cons.mp hmem with rfl | hmem
        · rfl
        · rw [List.mem_singleton.mp hmem]
      rw [hcolumns, hnone]
      exact ⟨_, rfl⟩
  rw [finds, satisfies, onClause, includeOn, Expression.evaluateJoin, Expression.evaluateWith, Expression.evaluateWith,
    Expression.evaluateWith]
  rcases hmissing with hparent | hchild
  · obtain ⟨err, herr⟩ := hlookup request.input.fromTable _ hparent
    rw [herr]
    rfl
  · obtain ⟨err, herr⟩ := hlookup request.inc.relation _ hchild
    rw [herr]
    cases Expression.lookupJoin (row ++ other) request.slots (some request.input.fromTable) request.fk.parentColumn <;> rfl

variable (request) in
/-- The page in the order of the table has the rows that the request selects, each with texts of its own, and none of them
has a row that belongs to it. -/
structure PageChildless : Prop where
  named : request.selected ≠ [] → request.HasOwnField
  shown : List.Forall₂
    (fun texts row => (request.parentObject texts).ShowsRow request.input.fromTable request.parent.columns row)
    (distinct ((request.input.page request.taken).map fun row => row.map Datum.display)) request.selected
  childless : ∀ row ∈ request.selected, request.kids row = []

/-- Where no row is ever found, the page has to be childless. -/
theorem pageAgrees_iff_childless
    (hmissing : Expression.positionOf request.parent.columns request.fk.parentColumn = none ∨
      Expression.positionOf request.parent.columns request.fk.childColumn = none) :
    request.PageAgrees ↔ request.PageChildless := by
  have hpairs : request.pairs = request.taken.map fun row => (row, none) := by
    rw [pairs, List.map_eq_flatMap]
    apply List.flatMap_congr
    intro row _
    rw [List.filter_eq_nil_iff.mpr fun other _ => by rw [finds_eq_false hmissing]; decide]
  have hkeys : ((request.input.page request.pairs).map fun pair => pair.1.map Datum.display) =
      (request.input.page request.taken).map fun row => row.map Datum.display := by
    rw [hpairs, ← FindManyInput.map_page, List.map_map]
    rfl
  have hshown : ∀ texts, request.shownChildren texts = [] := by
    intro texts
    have hnone : ((request.input.page request.pairs).filterMap fun pair =>
        if pair.1.map Datum.display = texts then
          (pair.2.filter fun other => !(request.keptTexts other).all (· = "NULL")).map request.childObject
        else none) = [] := by
      rw [List.filterMap_eq_nil_iff, hpairs, ← FindManyInput.map_page]
      intro pair hpair
      obtain ⟨row, -, rfl⟩ := List.mem_map.mp hpair
      exact ite_self _
    rw [shownChildren, hnone]
    rfl
  have hkids :
      ∀ texts row, request.ListsKids ((request.shownChildren texts).map .object) row ↔ request.kids row = [] := by
    intro texts row
    rw [hshown]
    constructor
    · rintro ⟨order, hperm, hlisted⟩
      rw [List.map_nil, List.forall₂_nil_left_iff] at hlisted
      rw [hlisted] at hperm
      exact hperm.symm.eq_nil
    · intro hnone
      exact ⟨[], hnone ▸ .refl _, .nil⟩
  constructor
  · rintro ⟨hnamed, hagrees⟩
    rw [hkeys] at hagrees
    simp only [hkids] at hagrees
    obtain ⟨hrows, hchildless⟩ := forall₂_and_right.mp hagrees
    exact ⟨hnamed, hrows, hchildless⟩
  · rintro ⟨hnamed, hrows, hchildless⟩
    refine ⟨hnamed, ?_⟩
    rw [hkeys]
    simp only [hkids]
    exact forall₂_and_right.mpr ⟨hrows, hchildless⟩

end Answer

end IncludeRequest

end HelionDb
