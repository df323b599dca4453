import HelionDb.NestedObjects

/-! The flat result of a LEFT JOIN of a parent with any number of relations, against the objects that `build_nested_json`
makes of it. The code compares texts: it takes parents and children of the same texts for one, drops children of NULLs
only, and takes everything behind the parent for a row of the first relation. -/

namespace HelionDb

/-! ### Flat results -/

/-- A row of a LEFT JOIN: the row of the parent, and next to it one of each relation or none, where NULLs pad it. -/
structure FlatRow where
  parent : List Datum
  children : List (Option (List Datum))

/-- The row of a relation that stands next to the parent. -/
def FlatRow.child (row : FlatRow) (i : Nat) : Option (List Datum) := row.children[i]?.join

/-- The flat result of a LEFT JOIN, with the names under which it shows the columns of the parent and of each relation. -/
structure FlatJoin where
  parentNames : List String
  relations : List (String × List String)
  rows : List FlatRow
  fits : ∀ row ∈ rows, row.parent.length = parentNames.length ∧
    List.Forall₂ (fun relation child => ∀ values ∈ child, values.length = relation.2.length) relations row.children

namespace FlatJoin

section

variable [Rendering]

/-- The names of the relations' columns, which come after those of the parent. -/
def tailNames (join : FlatJoin) : List String := join.relations.flatMap Prod.snd

/-- The texts of the relations in a row. -/
def tail (join : FlatJoin) (row : FlatRow) : List String :=
  (join.relations.zip row.children).flatMap fun entry =>
    (entry.2.getD (padding entry.1.2.length)).map Datum.display

/-- The columns of the result. -/
def columns (join : FlatJoin) : List String := join.parentNames ++ join.tailNames

/-- A row of the result. -/
def texts (join : FlatJoin) (row : FlatRow) : List String := row.parent.map Datum.display ++ join.tail row

/-- The result is one of a request on these tables: the request includes the relations in their order. -/
structure Of (join : FlatJoin) (tables : List Table) (input : FindManyInput) : Prop where
  parent : ∃ parent, findTable input.fromTable tables = some parent ∧ parent.columns.length = join.parentNames.length
  included : List.Forall₂ (fun inc relation => inc.relation = relation.1 ∧
    (findRelationship tables input.fromTable inc.relation).isSome ∧
      ∃ child, findTable inc.relation tables = some child ∧ child.columns.length = relation.2.length)
    input.includes join.relations

/-- The rows of a relation that stand next to a parent. -/
def childrenOf (join : FlatJoin) (parent : List Datum) (i : Nat) : List (List Datum) :=
  (join.rows.filter fun row => row.parent = parent).filterMap fun row => row.child i

end

end FlatJoin

/-- The object has the values of a row under their names, and nothing else. -/
def Json.IsRow [Rendering] (item : Json) (names : List String) (values : List Datum) : Prop :=
  ∃ fields, item = .object fields ∧
    (∀ entry ∈ names.zip values, getField entry.1 fields = some (.string entry.2.display)) ∧
      ∀ name, name ∉ names → getField name fields = none

namespace FlatJoin

section

variable [Rendering]

/-- An object has the values of a parent, for each relation an array of the rows next to the parent, each once, and
nothing else. -/
def ObjectOf (join : FlatJoin) (parent : List Datum) (item : Json) : Prop :=
  (∀ entry ∈ join.parentNames.zip parent, item.get entry.1 = some (.string entry.2.display)) ∧
    (∀ i relation, join.relations[i]? = some relation →
      ∃ listed order, item.get relation.1 = some (.array listed) ∧ order.Perm (distinct (join.childrenOf parent i)) ∧
        List.Forall₂ (fun child values => child.IsRow relation.2 values) listed order) ∧
      ∀ name, name ∉ join.parentNames → name ∉ join.relations.map Prod.fst → item.get name = none

/-- Some objects group a flat result: one for each row of the parent, in the order in which the rows first appear. -/
def Groups (join : FlatJoin) (items : List Json) : Prop :=
  List.Forall₂ join.ObjectOf (distinct (join.rows.map FlatRow.parent)) items

/-- Texts show values under their names. -/
def Shown (names texts own : List String) (values : List Datum) : Prop :=
  ∀ entry ∈ own.zip values, shownText entry.1 (names.zip texts) = some entry.2.display

/-- Nothing but NULL stands behind the parent. -/
def Blank (join : FlatJoin) (row : FlatRow) : Prop := ∀ text ∈ join.tail row, text = "NULL"

instance (join : FlatJoin) (row : FlatRow) : Decidable (join.Blank row) := List.decidableBAll _ _

/-- What stands behind the parent is one row of a relation, without columns of another. -/
def TailIs (join : FlatJoin) (row : FlatRow) (names : List String) (values : List Datum) : Prop :=
  join.tailNames ⊆ names ∧ Shown join.tailNames (join.tail row) names values

/-- What stands behind the parents are the rows of one relation, and none of them is blank or has the texts of another one
next to the same parent. -/
structure TellsChildren (join : FlatJoin) (i : Nat) (names : List String) : Prop where
  listed : ∀ row ∈ join.rows, ¬ join.Blank row →
    ∃ other ∈ join.rows, other.parent = row.parent ∧ ∃ values, other.child i = some values ∧ join.TailIs row names values
  found : ∀ row ∈ join.rows, ∀ values, row.child i = some values →
    ∃ other ∈ join.rows, other.parent = row.parent ∧ ¬ join.Blank other ∧ join.TailIs other names values
  told : ∀ row ∈ join.rows, ∀ other ∈ join.rows, row.parent = other.parent → ∀ values, row.child i = some values →
    ∀ others, other.child i = some others → values.map Datum.display = others.map Datum.display → values = others

/-- The texts tell the rows of a flat result apart, and only the first relation has rows. -/
structure Tells (join : FlatJoin) : Prop where
  columns : join.columns ≠ []
  relations : "_key" ∉ join.relations.map Prod.fst
  parentNames : ∀ name ∈ join.parentNames, name ≠ "_key" ∧ name ∉ join.relations.map Prod.fst
  shown : ∀ row ∈ join.rows, Shown join.parentNames (row.parent.map Datum.display) join.parentNames row.parent
  parents : ∀ row ∈ join.rows, ∀ other ∈ join.rows,
    row.parent.map Datum.display = other.parent.map Datum.display → row.parent = other.parent
  others : ∀ i relation, join.relations[i]? = some relation → join.relations.head?.map Prod.fst ≠ some relation.1 →
    ∀ row ∈ join.rows, row.child i = none
  first : ∀ i relation, join.relations[i]? = some relation → join.relations.head?.map Prod.fst = some relation.1 →
    join.TellsChildren i relation.2

/-- Where the columns of each relation start. -/
def offsets : Nat → List (String × List String) → List (String × Nat)
  | _, [] => []
  | start, relation :: rest => (relation.1, start) :: offsets (start + relation.2.length) rest

omit [Rendering] in
theorem le_of_mem_offsets {start : Nat} {relations : List (String × List String)} {entry : String × Nat}
    (h : entry ∈ offsets start relations) : start ≤ entry.2 := by
  induction relations generalizing start with
  | nil => cases h
  | cons relation rest ih =>
      rcases List.mem_cons.mp h with rfl | h
      · exact le_rfl
      · exact (Nat.le_add_right _ _).trans (ih h)

omit [Rendering] in
theorem map_fst_offsets (start : Nat) (relations : List (String × List String)) :
    (offsets start relations).map Prod.fst = relations.map Prod.fst := by
  induction relations generalizing start with
  | nil => rfl
  | cons relation rest ih => rw [offsets, List.map_cons, List.map_cons, ih]

omit [Rendering] in
theorem Of.resolveFkForIncludes_offsets {join : FlatJoin} {tables : List Table} {input : FindManyInput}
    (h : join.Of tables input) :
    (resolveFkForIncludes input tables).map (fun fk => (fk.childTable, fk.childIdx)) =
      offsets join.parentNames.length join.relations := by
  obtain ⟨⟨parent, hparent, hwidth⟩, hincluded⟩ := h
  have hloop : ∀ (includes : List IncludeInput) (relations : List (String × List String)) (state : List FkInfo × Nat),
      List.Forall₂ (fun inc relation => inc.relation = relation.1 ∧
        (findRelationship tables input.fromTable inc.relation).isSome ∧
          ∃ child, findTable inc.relation tables = some child ∧ child.columns.length = relation.2.length)
        includes relations →
      (includes.foldl (resolveInclude tables input.fromTable) state).1.map (fun fk => (fk.childTable, fk.childIdx)) =
        state.1.map (fun fk => (fk.childTable, fk.childIdx)) ++ offsets state.2 relations := by
    intro includes relations state hall
    induction hall generalizing state with
    | nil => rw [offsets, List.append_nil, List.foldl_nil]
    | @cons inc relation _ _ hfirst _ ih =>
        obtain ⟨hname, hrelated, child, hchild, hcolumns⟩ := hfirst
        obtain ⟨⟨found, fk⟩, hfound⟩ := Option.isSome_iff_exists.mp hrelated
        rw [List.foldl_cons, ih, resolveInclude, hfound, hchild, offsets]
        simp [hname, hcolumns]
  rw [resolveFkForIncludes, hparent]
  dsimp only
  rw [hloop _ _ _ hincluded, hwidth]
  rfl

section Texts

variable {join : FlatJoin} {row : FlatRow}

theorem length_tail (h : row ∈ join.rows) : (join.tail row).length = join.tailNames.length := by
  have hchildren := (join.fits row h).2
  rw [tail, tailNames, List.length_flatMap, List.length_flatMap]
  congr 1
  generalize join.relations = relations at hchildren ⊢
  generalize row.children = children at hchildren ⊢
  induction hchildren with
  | nil => rfl
  | @cons relation child _ _ hfirst _ ih =>
      rw [List.zip_cons_cons, List.map_cons, List.map_cons, ih]
      congr 1
      rw [List.length_map]
      cases child with
      | none => simp [padding]
      | some values => exact hfirst values rfl

theorem take_texts (h : row ∈ join.rows) : (join.texts row).take join.parentNames.length = row.parent.map Datum.display := by
  rw [texts]
  exact List.take_left' (by rw [List.length_map, (join.fits row h).1])

theorem length_texts (h : row ∈ join.rows) : (join.texts row).length = join.columns.length := by
  rw [texts, columns, List.length_append, List.length_append, List.length_map, (join.fits row h).1, length_tail h]

theorem blank_texts_iff (h : row ∈ join.rows) :
    blank join.columns join.parentNames.length (join.texts row) = true ↔ join.Blank row := by
  have hwidth := (join.fits row h).1
  have hdrop : ((join.texts row).take join.columns.length).drop join.parentNames.length = join.tail row := by
    rw [List.take_of_length_le (length_texts h).le, texts]
    exact List.drop_left' (by rw [List.length_map, hwidth])
  rw [blank, hdrop, Bool.or_eq_true, List.all_eq_true, decide_eq_true_iff]
  constructor
  · rintro (hshort | hall)
    · have hnil : (join.tail row).length = 0 := by
        rw [texts, List.length_append, List.length_map, hwidth] at hshort
        omega
      rw [Blank, List.length_eq_zero_iff.mp hnil]
      exact nofun
    · exact fun text htext => of_decide_eq_true (hall text htext)
  · exact fun hblank => .inr fun text htext => decide_eq_true (hblank text htext)

theorem childFields_texts (h : row ∈ join.rows) :
    childFields join.columns join.parentNames.length (join.texts row) = rowFields (join.tailNames.zip (join.tail row)) := by
  rw [childFields, columns, texts, List.zip_append (by rw [List.length_map, (join.fits row h).1])]
  congr 1
  exact List.drop_left' (by rw [List.length_zip, List.length_map, (join.fits row h).1, Nat.min_self])

/-! ### The objects that are built -/

/-- What stands behind a parent with these texts. -/
def tailsOf (join : FlatJoin) (key : List String) : List (List String) :=
  (join.rows.filter fun row => row.parent.map Datum.display = key ∧ ¬ join.Blank row).map join.tail

/-- The object of texts that stand behind a parent. -/
def tailFields (join : FlatJoin) (texts : List String) : List (String × Json) := rowFields (join.tailNames.zip texts)

/-- What the object for the texts of a parent has. -/
structure Built (join : FlatJoin) (first : String) (key : List String) (item : Json) : Prop where
  nested : item.get first = some (.array ((keepNew
    (fun texts kept => hasFieldsOf (join.tailFields texts) (join.tailFields kept)) (join.tailsOf key)).map
      fun texts => .object (join.tailFields texts)))
  empty : ∀ name ∈ join.relations.map Prod.fst, name ≠ first → name ≠ "_key" → item.get name = some (.array [])
  own : ∀ name, name ∉ join.relations.map Prod.fst → name ≠ "_key" →
    item.get name = (shownText name (join.parentNames.zip key)).map .string
  keyless : item.get "_key" = none

theorem childrenOf_texts (key : List String) :
    HelionDb.childrenOf join.columns join.parentNames.length (join.rows.map join.texts) key =
      (keepNew (fun texts kept => hasFieldsOf (join.tailFields texts) (join.tailFields kept)) (join.tailsOf key)).map
        join.tailFields := by
  have hfilter : (join.rows.map join.texts).filter
      (fun row => row.take join.parentNames.length = key && !blank join.columns join.parentNames.length row) =
        (join.rows.filter fun row => row.parent.map Datum.display = key ∧ ¬ join.Blank row).map join.texts := by
    rw [List.filter_map]
    congr 1
    refine List.filter_congr fun row hrow => ?_
    rw [Function.comp_apply, take_texts hrow, Bool.eq_iff_iff, Bool.and_eq_true, decide_eq_true_iff, decide_eq_true_iff,
      Bool.not_eq_eq_eq_not, Bool.not_true, ← Bool.not_eq_true, blank_texts_iff hrow]
  have hfields : ((join.rows.filter fun row => row.parent.map Datum.display = key ∧ ¬ join.Blank row).map join.texts).map
      (childFields join.columns join.parentNames.length) = (join.tailsOf key).map join.tailFields := by
    rw [tailsOf, List.map_map, List.map_map]
    exact List.map_congr_left fun row hrow => childFields_texts (List.mem_filter.mp hrow).1
  rw [HelionDb.childrenOf, hfilter, hfields, keepNew_map]

/-- There is an object for all texts that a parent has. -/
theorem forall₂_built {fkInfo : List FkInfo} {first : String × List String} {others : List (String × List String)}
    (hrelations : join.relations = first :: others) (hcolumns : join.columns ≠ []) (hfirst : first.1 ≠ "_key")
    (hoffsets : fkInfo.map (fun fk => (fk.childTable, fk.childIdx)) = offsets join.parentNames.length join.relations) :
    List.Forall₂ (join.Built first.1) (distinct (join.rows.map fun row => row.parent.map Datum.display))
      (buildNestedJson join.columns (join.rows.map join.texts) fkInfo) := by
  rw [hrelations, offsets] at hoffsets
  obtain ⟨fk, rest, rfl, hfk, hrest⟩ := List.map_eq_cons_iff.mp hoffsets
  obtain ⟨hname, hstart⟩ := Prod.mk.inj hfk
  have hle : ∀ other ∈ rest, fk.childIdx ≤ other.childIdx := by
    intro other hother
    have hmem : (other.childTable, other.childIdx) ∈ offsets (join.parentNames.length + first.2.length) others :=
      hrest ▸ List.mem_map_of_mem hother
    have := le_of_mem_offsets hmem
    dsimp only at this
    omega
  have hnames : (fk :: rest).map FkInfo.childTable = join.relations.map Prod.fst := by
    have hothers : rest.map FkInfo.childTable = others.map Prod.fst := by
      rw [← map_fst_offsets (join.parentNames.length + first.2.length) others, ← hrest, List.map_map]
      rfl
    rw [hrelations, List.map_cons, List.map_cons, hothers]
    exact congrArg (· :: _) hname
  have hsingle := @forall₂_buildNestedJson join.columns fk (join.rows.map join.texts) hcolumns (hname ▸ hfirst)
    (List.forall_mem_map.mpr fun row hrow => by
      rw [length_texts hrow, columns, List.length_append]
      omega)
  have hseveral := @forall₂_buildNestedJson_several fk rest join.columns (join.rows.map join.texts) hcolumns hle
  have hkeys : (join.rows.map join.texts).map (fun row => row.take fk.childIdx) =
      join.rows.map fun row => row.parent.map Datum.display := by
    rw [List.map_map]
    exact List.map_congr_left fun row hrow => by rw [Function.comp_apply, hstart, take_texts hrow]
  have hown : join.columns.take fk.childIdx = join.parentNames := by rw [columns, hstart, List.take_left]
  rw [hkeys] at hsingle
  refine (forall₂_and_right.mpr ⟨forall₂_trans hsingle hseveral, fun item hitem =>
    get_key_buildNestedJson (List.cons_ne_nil _ _) hcolumns hitem⟩).imp ?_
  rintro key item ⟨⟨single, ⟨hnested, howned⟩, hitem⟩, hkeyless⟩
  have hmem : ∀ name, name ∈ rest.map FkInfo.childTable ∧ name ≠ fk.childTable ↔
      name ∈ join.relations.map Prod.fst ∧ name ≠ first.1 := by
    intro name
    rw [← hnames, List.map_cons, List.mem_cons, hname]
    tauto
  refine ⟨?_, ?_, ?_, hkeyless⟩
  · rw [← hname, hitem, if_neg fun hnot => hnot.2.1 rfl, hnested, hstart, childrenOf_texts, List.map_map]
    rfl
  · intro name hrelation hne hkey
    rw [hitem, if_pos ⟨((hmem name).mpr ⟨hrelation, hne⟩).1, hname ▸ hne, hkey⟩]
  · intro name hrelation hkey
    have hfk : name ≠ fk.childTable := fun heq => hrelation (by rw [heq, hname, hrelations]; exact List.mem_cons_self)
    rw [hitem, if_neg fun hnot => hrelation ((hmem name).mp ⟨hnot.1, hnot.2.1⟩).1, howned name hfk hkey, hown,
      getField_rowFields_eq]

/-! ### One parent -/

omit [Rendering] in
theorem mem_childrenOf {parent : List Datum} {i : Nat} {values : List Datum} :
    values ∈ join.childrenOf parent i ↔ ∃ row ∈ join.rows, row.parent = parent ∧ row.child i = some values := by
  rw [childrenOf, List.mem_filterMap]
  constructor
  · rintro ⟨row, hrow, hchild⟩
    obtain ⟨hmem, hparent⟩ := List.mem_filter.mp hrow
    exact ⟨row, hmem, of_decide_eq_true hparent, hchild⟩
  · rintro ⟨row, hmem, hparent, hchild⟩
    exact ⟨row, List.mem_filter.mpr ⟨hmem, decide_eq_true hparent⟩, hchild⟩

omit [Rendering] in
theorem length_of_mem_childrenOf {parent : List Datum} {i : Nat} {relation : String × List String}
    (hrelation : join.relations[i]? = some relation) {values : List Datum} (h : values ∈ join.childrenOf parent i) :
    values.length = relation.2.length := by
  obtain ⟨row, hrow, -, hchild⟩ := mem_childrenOf.mp h
  obtain ⟨child, hget, rfl⟩ : ∃ child, row.children[i]? = some child ∧ child = some values := by
    cases hget : row.children[i]? with
    | none =>
        rw [FlatRow.child, hget] at hchild
        cases hchild
    | some child =>
        rw [FlatRow.child, hget] at hchild
        exact ⟨child, rfl, hchild⟩
  have hpair : (relation, some values) ∈ join.relations.zip row.children :=
    List.mem_iff_getElem?.mpr ⟨i, List.getElem?_zip_eq_some.mpr ⟨hrelation, hget⟩⟩
  exact (List.forall₂_iff_zip.mp (join.fits row hrow).2).2 hpair values rfl

theorem mem_tailsOf {parent : List Datum} (hparent : parent ∈ join.rows.map FlatRow.parent)
    (htold : ∀ row ∈ join.rows, ∀ other ∈ join.rows,
      row.parent.map Datum.display = other.parent.map Datum.display → row.parent = other.parent) {texts : List String} :
    texts ∈ join.tailsOf (parent.map Datum.display) ↔
      ∃ row ∈ join.rows, row.parent = parent ∧ ¬ join.Blank row ∧ join.tail row = texts := by
  obtain ⟨other, hother, rfl⟩ := List.mem_map.mp hparent
  rw [tailsOf, List.mem_map]
  constructor
  · rintro ⟨row, hrow, htail⟩
    obtain ⟨hmem, hkept⟩ := List.mem_filter.mp hrow
    obtain ⟨hsame, hblank⟩ := of_decide_eq_true hkept
    exact ⟨row, hmem, htold row hmem other hother hsame, hblank, htail⟩
  · rintro ⟨row, hmem, hsame, hblank, htail⟩
    exact ⟨row, List.mem_filter.mpr ⟨hmem, decide_eq_true ⟨by rw [hsame], hblank⟩⟩, htail⟩

/-- The object of what stands behind a parent has the values of a row under names exactly if the texts show them. -/
theorem isRow_tailFields_iff (h : row ∈ join.rows) {names : List String} {values : List Datum} :
    (Json.object (join.tailFields (join.tail row))).IsRow names values ↔ join.TailIs row names values := by
  have hget : ∀ name, getField name (join.tailFields (join.tail row)) =
      (shownText name (join.tailNames.zip (join.tail row))).map .string := getField_rowFields_eq _
  have hvalue : ∀ name value, getField name (join.tailFields (join.tail row)) = some (.string value) ↔
      shownText name (join.tailNames.zip (join.tail row)) = some value := by
    intro name value
    rw [hget, Option.map_eq_some_iff]
    exact ⟨fun ⟨text, htext, heq⟩ => Json.string.inj heq ▸ htext, fun htext => ⟨value, htext, rfl⟩⟩
  have hnone : ∀ name, getField name (join.tailFields (join.tail row)) = none ↔ name ∉ join.tailNames := by
    intro name
    rw [hget, Option.map_eq_none_iff, ← isSome_shownText_iff (length_tail h), Option.not_isSome_iff_eq_none]
  constructor
  · rintro ⟨fields, hfields, hshown, honly⟩
    obtain rfl := Json.object.inj hfields
    refine ⟨fun name hname => ?_, fun entry hentry => (hvalue _ _).mp (hshown entry hentry)⟩
    by_contra hnot
    exact (hnone name).mp (honly name hnot) hname
  · rintro ⟨hsubset, hshown⟩
    exact ⟨_, rfl, fun entry hentry => (hvalue _ _).mpr (hshown entry hentry),
      fun name hname => (hnone name).mpr fun hmem => hname (hsubset hmem)⟩

/-- Equal texts show the same values. -/
theorem shown_congr {names texts own : List String} {values others : List Datum}
    (hsame : values.map Datum.display = others.map Datum.display) :
    Shown names texts own values ↔ Shown names texts own others := by
  have hpairs : ∀ values : List Datum, Shown names texts own values ↔
      ∀ entry ∈ own.zip (values.map Datum.display), shownText entry.1 (names.zip texts) = some entry.2 := by
    intro values
    rw [List.zip_map_right, List.forall_mem_map]
    rfl
  rw [hpairs, hpairs, hsame]

/-- Texts that show two rows of one width show the same texts of them. -/
theorem display_eq_of_shown {names texts own : List String} {values others : List Datum}
    (hvalues : values.length = own.length) (hothers : others.length = own.length) (h : Shown names texts own values)
    (h' : Shown names texts own others) : values.map Datum.display = others.map Datum.display := by
  induction own generalizing values others with
  | nil =>
      rw [List.length_eq_zero_iff.mp hvalues, List.length_eq_zero_iff.mp hothers]
  | cons name own ih =>
      cases values with
      | nil => cases hvalues
      | cons value values =>
          cases others with
          | nil => cases hothers
          | cons other others =>
              have hfirst := (h (name, value) List.mem_cons_self).symm.trans (h' (name, other) List.mem_cons_self)
              rw [List.map_cons, List.map_cons, Option.some.inj hfirst,
                ih (Nat.succ.inj hvalues) (Nat.succ.inj hothers) (fun entry hentry => h entry (List.mem_cons_of_mem _ hentry))
                  fun entry hentry => h' entry (List.mem_cons_of_mem _ hentry)]

/-- The rows of one relation next to a parent are told apart. -/
structure TellsAt (join : FlatJoin) (parent : List Datum) (i : Nat) (names : List String) : Prop where
  listed : ∀ row ∈ join.rows, row.parent = parent → ¬ join.Blank row →
    ∃ values ∈ join.childrenOf parent i, join.TailIs row names values
  found : ∀ values ∈ join.childrenOf parent i,
    ∃ row ∈ join.rows, row.parent = parent ∧ ¬ join.Blank row ∧ join.TailIs row names values
  told : ∀ values ∈ join.childrenOf parent i, ∀ others ∈ join.childrenOf parent i,
    values.map Datum.display = others.map Datum.display → values = others

/-- Tails with the same shown texts show the same values. -/
theorem isRow_tailFields_congr {row other : FlatRow} (hrow : row ∈ join.rows) (hother : other ∈ join.rows)
    (hshown : ∀ name, shownText name (join.tailNames.zip (join.tail row)) =
      shownText name (join.tailNames.zip (join.tail other))) (names : List String) (values : List Datum) :
    (Json.object (join.tailFields (join.tail row))).IsRow names values ↔
      (Json.object (join.tailFields (join.tail other))).IsRow names values := by
  rw [isRow_tailFields_iff hrow, isRow_tailFields_iff hother]
  exact and_congr_right fun _ => forall₂_congr fun entry _ => by rw [hshown]

/-- Tails that show the same values have no text to differ in. -/
theorem shownText_eq_of_isRow {row other : FlatRow} (hrow : row ∈ join.rows) (hother : other ∈ join.rows)
    {names : List String} {values : List Datum} (hwidth : values.length = names.length)
    (h : (Json.object (join.tailFields (join.tail row))).IsRow names values)
    (h' : (Json.object (join.tailFields (join.tail other))).IsRow names values) (name : String) :
    shownText name (join.tailNames.zip (join.tail row)) = shownText name (join.tailNames.zip (join.tail other)) := by
  obtain ⟨hsubset, hshown⟩ := (isRow_tailFields_iff hrow).mp h
  obtain ⟨-, hshown'⟩ := (isRow_tailFields_iff hother).mp h'
  by_cases hname : name ∈ join.tailNames
  · have hkey := hsubset hname
    rw [← @List.map_fst_zip _ _ names values hwidth.ge] at hkey
    obtain ⟨entry, hentry, rfl⟩ := List.mem_map.mp hkey
    rw [hshown entry hentry, hshown' entry hentry]
  · have hnone : ∀ row ∈ join.rows, shownText name (join.tailNames.zip (join.tail row)) = none := by
      intro row hrow
      rw [← Option.not_isSome_iff_eq_none, isSome_shownText_iff (length_tail hrow)]
      exact hname
    rw [hnone row hrow, hnone other hother]

/-- The array of the first relation has the rows next to the parent exactly if they are told apart. -/
theorem lists_children_iff {parent : List Datum} (hparent : parent ∈ join.rows.map FlatRow.parent)
    (htold : ∀ row ∈ join.rows, ∀ other ∈ join.rows,
      row.parent.map Datum.display = other.parent.map Datum.display → row.parent = other.parent)
    {i : Nat} {relation : String × List String} (hrelation : join.relations[i]? = some relation) :
    (∃ order, order.Perm (distinct (join.childrenOf parent i)) ∧
      List.Forall₂ (fun texts values => (Json.object (join.tailFields texts)).IsRow relation.2 values)
        (keepNew (fun texts kept => hasFieldsOf (join.tailFields texts) (join.tailFields kept))
          (join.tailsOf (parent.map Datum.display))) order) ↔
      join.TellsAt parent i relation.2 := by
  have hrow : ∀ texts ∈ join.tailsOf (parent.map Datum.display),
      ∃ row ∈ join.rows, row.parent = parent ∧ ¬ join.Blank row ∧ join.tail row = texts :=
    fun texts htexts => (mem_tailsOf hparent htold).mp htexts
  have hfields : ∀ texts ∈ join.tailsOf (parent.map Datum.display), ∀ kept ∈ join.tailsOf (parent.map Datum.display),
      (hasFieldsOf (join.tailFields texts) (join.tailFields kept) = true ↔
        ∀ name, shownText name (join.tailNames.zip texts) = shownText name (join.tailNames.zip kept)) := by
    intro texts htexts kept hkept
    obtain ⟨row, hmem, -, -, rfl⟩ := hrow texts htexts
    obtain ⟨other, hother, -, -, rfl⟩ := hrow kept hkept
    exact hasFieldsOf_rowFields_iff (length_tail hmem) (length_tail hother)
  have hwidth : ∀ values ∈ join.childrenOf parent i, values.length = relation.2.length :=
    fun values hvalues => length_of_mem_childrenOf hrelation hvalues
  rw [exists_perm_forall₂_iff (fun texts => hasFieldsOf_self _)]
  · constructor
    · rintro ⟨hlisted, hfound, hone⟩
      have hrows : ∀ values ∈ join.childrenOf parent i,
          ∃ row ∈ join.rows, row.parent = parent ∧ ¬ join.Blank row ∧ join.TailIs row relation.2 values := by
        intro values hvalues
        obtain ⟨texts, htexts, hshown⟩ := hfound values hvalues
        obtain ⟨row, hmem, hsame, hblank, rfl⟩ := hrow texts htexts
        exact ⟨row, hmem, hsame, hblank, (isRow_tailFields_iff hmem).mp hshown⟩
      refine ⟨fun row hmem hsame hblank => ?_, hrows, fun values hvalues others hothers hdisplay => ?_⟩
      · obtain ⟨values, hvalues, hshown⟩ :=
          hlisted _ ((mem_tailsOf hparent htold).mpr ⟨row, hmem, hsame, hblank, rfl⟩)
        exact ⟨values, hvalues, (isRow_tailFields_iff hmem).mp hshown⟩
      · obtain ⟨row, hmem, hsame, hblank, htail⟩ := hrows values hvalues
        exact hone _ ((mem_tailsOf hparent htold).mpr ⟨row, hmem, hsame, hblank, rfl⟩) values hvalues others hothers
          ((isRow_tailFields_iff hmem).mpr htail)
          ((isRow_tailFields_iff hmem).mpr ⟨htail.1, (shown_congr hdisplay).mp htail.2⟩)
    · rintro ⟨hlisted, hfound, htold⟩
      refine ⟨fun texts htexts => ?_, fun values hvalues => ?_, fun texts htexts values hvalues others hothers h h' => ?_⟩
      · obtain ⟨row, hmem, hsame, hblank, rfl⟩ := hrow texts htexts
        obtain ⟨values, hvalues, htail⟩ := hlisted row hmem hsame hblank
        exact ⟨values, hvalues, (isRow_tailFields_iff hmem).mpr htail⟩
      · obtain ⟨row, hmem, hsame, hblank, htail⟩ := hfound values hvalues
        exact ⟨_, (mem_tailsOf hparent ‹_›).mpr ⟨row, hmem, hsame, hblank, rfl⟩, (isRow_tailFields_iff hmem).mpr htail⟩
      · obtain ⟨row, hmem, -, -, rfl⟩ := hrow texts htexts
        exact htold values hvalues others hothers (display_eq_of_shown (hwidth values hvalues) (hwidth others hothers)
          ((isRow_tailFields_iff hmem).mp h).2 ((isRow_tailFields_iff hmem).mp h').2)
  · intro texts htexts kept hkept hsame
    have hshown := (hfields texts htexts kept hkept).mp hsame
    obtain ⟨row, hmem, -, -, rfl⟩ := hrow texts htexts
    obtain ⟨other, hother, -, -, rfl⟩ := hrow kept hkept
    exact isRow_tailFields_congr hmem hother hshown relation.2
  · intro texts htexts kept hkept values hvalues h h'
    apply (hfields texts htexts kept hkept).mpr
    obtain ⟨row, hmem, -, -, rfl⟩ := hrow texts htexts
    obtain ⟨other, hother, -, -, rfl⟩ := hrow kept hkept
    exact shownText_eq_of_isRow hmem hother (hwidth values hvalues) h h'

/-- What the texts of a flat result tell of one parent. -/
structure TellsParent (join : FlatJoin) (first : String) (parent : List Datum) : Prop where
  names : ∀ name ∈ join.parentNames, name ≠ "_key" ∧ name ∉ join.relations.map Prod.fst
  shown : Shown join.parentNames (parent.map Datum.display) join.parentNames parent
  relations : "_key" ∉ join.relations.map Prod.fst
  others : ∀ i relation, join.relations[i]? = some relation → relation.1 ≠ first → join.childrenOf parent i = []
  first : ∀ i relation, join.relations[i]? = some relation → relation.1 = first → join.TellsAt parent i relation.2

/-- A column of the parent is in its object exactly if nothing else has its name. -/
theorem Built.shows_iff {first : String} {parent : List Datum} {item : Json}
    (h : join.Built first (parent.map Datum.display) item)
    (hwidth : parent.length = join.parentNames.length) :
    (∀ entry ∈ join.parentNames.zip parent, item.get entry.1 = some (.string entry.2.display)) ↔
      (∀ name ∈ join.parentNames, name ≠ "_key" ∧ name ∉ join.relations.map Prod.fst) ∧
        Shown join.parentNames (parent.map Datum.display) join.parentNames parent := by
  have hvalue : ∀ name value, name ≠ "_key" → name ∉ join.relations.map Prod.fst →
      (item.get name = some (.string value) ↔
        shownText name (join.parentNames.zip (parent.map Datum.display)) = some value) := by
    intro name value hkey hname
    rw [h.own name hname hkey, Option.map_eq_some_iff]
    exact ⟨fun ⟨text, htext, heq⟩ => Json.string.inj heq ▸ htext, fun htext => ⟨value, htext, rfl⟩⟩
  constructor
  · intro hshown
    have hnames : ∀ name ∈ join.parentNames, name ≠ "_key" ∧ name ∉ join.relations.map Prod.fst := by
      intro name hname
      rw [← @List.map_fst_zip _ _ join.parentNames parent hwidth.ge] at hname
      obtain ⟨entry, hentry, rfl⟩ := List.mem_map.mp hname
      have hentry := hshown entry hentry
      have hkey : entry.1 ≠ "_key" := by
        intro hkey
        rw [hkey, h.keyless] at hentry
        cases hentry
      refine ⟨hkey, fun hrelation => ?_⟩
      by_cases hsame : entry.1 = first
      · rw [hsame, h.nested] at hentry
        cases hentry
      · rw [h.empty entry.1 hrelation hsame hkey] at hentry
        cases hentry
    refine ⟨hnames, fun entry hentry => ?_⟩
    obtain ⟨hkey, hname⟩ := hnames entry.1 (List.of_mem_zip hentry).1
    exact (hvalue _ _ hkey hname).mp (hshown entry hentry)
  · rintro ⟨hnames, hshown⟩ entry hentry
    obtain ⟨hkey, hname⟩ := hnames entry.1 (List.of_mem_zip hentry).1
    exact (hvalue _ _ hkey hname).mpr (hshown entry hentry)

/-- The array of the first relation is the one asked for exactly if the rows next to the parent are told apart. -/
theorem Built.lists_iff {first : String} {parent : List Datum} {item : Json}
    (h : join.Built first (parent.map Datum.display) item) (hparent : parent ∈ join.rows.map FlatRow.parent)
    (htold : ∀ row ∈ join.rows, ∀ other ∈ join.rows,
      row.parent.map Datum.display = other.parent.map Datum.display → row.parent = other.parent)
    {i : Nat} {relation : String × List String} (hrelation : join.relations[i]? = some relation)
    (hsame : relation.1 = first) :
    (∃ listed order, item.get relation.1 = some (.array listed) ∧ order.Perm (distinct (join.childrenOf parent i)) ∧
      List.Forall₂ (fun child values => child.IsRow relation.2 values) listed order) ↔
        join.TellsAt parent i relation.2 := by
  rw [← lists_children_iff hparent htold hrelation, hsame, h.nested]
  constructor
  · rintro ⟨listed, order, hlisted, hperm, hrows⟩
    obtain rfl := Json.array.inj (Option.some.inj hlisted)
    exact ⟨order, hperm, List.forall₂_map_left_iff.mp hrows⟩
  · rintro ⟨order, hperm, hrows⟩
    exact ⟨_, order, rfl, hperm, List.forall₂_map_left_iff.mpr hrows⟩

/-- The array of another relation is the one asked for exactly if there is no row next to the parent. -/
theorem Built.lists_nothing_iff {first : String} {parent : List Datum} {item : Json}
    (h : join.Built first (parent.map Datum.display) item) {i : Nat} {relation : String × List String}
    (hrelation : join.relations[i]? = some relation) (hne : relation.1 ≠ first) (hkey : relation.1 ≠ "_key") :
    (∃ listed order, item.get relation.1 = some (.array listed) ∧ order.Perm (distinct (join.childrenOf parent i)) ∧
      List.Forall₂ (fun child values => child.IsRow relation.2 values) listed order) ↔ join.childrenOf parent i = [] := by
  rw [h.empty relation.1 (List.mem_map_of_mem (List.mem_of_getElem? hrelation)) hne hkey]
  constructor
  · rintro ⟨listed, order, hlisted, hperm, hrows⟩
    obtain rfl := Json.array.inj (Option.some.inj hlisted)
    cases hrows
    rw [List.eq_nil_iff_forall_not_mem]
    intro values hvalues
    exact absurd (hperm.mem_iff.mpr (mem_distinct.mpr hvalues)) List.not_mem_nil
  · intro hnone
    rw [hnone]
    exact ⟨[], [], rfl, .refl _, .nil⟩

/-- The object for a parent is the one asked for exactly if the texts tell what there is of it. -/
theorem Built.objectOf_iff {first : String} {parent : List Datum} {item : Json}
    (h : join.Built first (parent.map Datum.display) item)
    (hparent : parent ∈ join.rows.map FlatRow.parent)
    (htold : ∀ row ∈ join.rows, ∀ other ∈ join.rows,
      row.parent.map Datum.display = other.parent.map Datum.display → row.parent = other.parent) :
    join.ObjectOf parent item ↔ join.TellsParent first parent := by
  have hwidth : parent.length = join.parentNames.length := by
    obtain ⟨row, hrow, rfl⟩ := List.mem_map.mp hparent
    exact (join.fits row hrow).1
  have hrest : ∀ name, name ∉ join.parentNames → name ∉ join.relations.map Prod.fst → item.get name = none := by
    intro name hname hrelation
    by_cases hkey : name = "_key"
    · rw [hkey, h.keyless]
    · rw [h.own name hrelation hkey, Option.map_eq_none_iff, ← Option.not_isSome_iff_eq_none,
        isSome_shownText_iff (by rw [List.length_map, hwidth])]
      exact hname
  rw [ObjectOf, h.shows_iff hwidth]
  constructor
  · rintro ⟨⟨hnames, hshown⟩, harrays, -⟩
    have hkeyless : "_key" ∉ join.relations.map Prod.fst := by
      intro hmem
      obtain ⟨relation, hrelation, hname⟩ := List.mem_map.mp hmem
      obtain ⟨i, hi⟩ := List.mem_iff_getElem?.mp hrelation
      obtain ⟨listed, order, hlisted, -, -⟩ := harrays i relation hi
      rw [hname, h.keyless] at hlisted
      cases hlisted
    refine ⟨hnames, hshown, hkeyless, fun i relation hrelation hne => ?_, fun i relation hrelation hsame => ?_⟩
    · have hkey : relation.1 ≠ "_key" :=
        fun hkey => hkeyless (hkey ▸ List.mem_map_of_mem (List.mem_of_getElem? hrelation))
      exact (h.lists_nothing_iff hrelation hne hkey).mp (harrays i relation hrelation)
    · exact (h.lists_iff hparent htold hrelation hsame).mp (harrays i relation hrelation)
  · rintro ⟨hnames, hshown, hkeyless, hothers, hchildren⟩
    refine ⟨⟨hnames, hshown⟩, fun i relation hrelation => ?_, hrest⟩
    by_cases hsame : relation.1 = first
    · exact (h.lists_iff hparent htold hrelation hsame).mpr (hchildren i relation hrelation hsame)
    · have hkey : relation.1 ≠ "_key" :=
        fun hkey => hkeyless (hkey ▸ List.mem_map_of_mem (List.mem_of_getElem? hrelation))
      exact (h.lists_nothing_iff hrelation hsame hkey).mpr (hothers i relation hrelation hsame)

omit [Rendering] in
theorem childrenOf_eq_nil_iff {i : Nat} :
    (∀ parent ∈ join.rows.map FlatRow.parent, join.childrenOf parent i = []) ↔ ∀ row ∈ join.rows, row.child i = none := by
  constructor
  · intro h row hrow
    rw [Option.eq_none_iff_forall_ne_some]
    intro values hvalues
    have hmem := mem_childrenOf.mpr ⟨row, hrow, rfl, hvalues⟩
    rw [h row.parent (List.mem_map_of_mem hrow)] at hmem
    cases hmem
  · intro h parent _
    rw [List.eq_nil_iff_forall_not_mem]
    intro values hvalues
    obtain ⟨row, hrow, -, hchild⟩ := mem_childrenOf.mp hvalues
    rw [h row hrow] at hchild
    cases hchild

theorem tellsChildren_iff {i : Nat} {names : List String} :
    join.TellsChildren i names ↔ ∀ parent ∈ join.rows.map FlatRow.parent, join.TellsAt parent i names := by
  constructor
  · rintro ⟨hlisted, hfound, htold⟩ parent -
    refine ⟨fun row hrow hsame hblank => ?_, fun values hvalues => ?_, fun values hvalues others hothers hdisplay => ?_⟩
    · obtain ⟨other, hother, hparent, values, hchild, htail⟩ := hlisted row hrow hblank
      exact ⟨values, mem_childrenOf.mpr ⟨other, hother, hparent.trans hsame, hchild⟩, htail⟩
    · obtain ⟨row, hrow, hsame, hchild⟩ := mem_childrenOf.mp hvalues
      obtain ⟨other, hother, hparent, hblank, htail⟩ := hfound row hrow values hchild
      exact ⟨other, hother, hparent.trans hsame, hblank, htail⟩
    · obtain ⟨row, hrow, hsame, hchild⟩ := mem_childrenOf.mp hvalues
      obtain ⟨other, hother, hsame', hchild'⟩ := mem_childrenOf.mp hothers
      exact htold row hrow other hother (hsame.trans hsame'.symm) values hchild others hchild' hdisplay
  · intro h
    refine ⟨fun row hrow hblank => ?_, fun row hrow values hchild => ?_, ?_⟩
    · obtain ⟨values, hvalues, htail⟩ := (h row.parent (List.mem_map_of_mem hrow)).listed row hrow rfl hblank
      obtain ⟨other, hother, hparent, hchild⟩ := mem_childrenOf.mp hvalues
      exact ⟨other, hother, hparent, values, hchild, htail⟩
    · exact (h row.parent (List.mem_map_of_mem hrow)).found values (mem_childrenOf.mpr ⟨row, hrow, rfl, hchild⟩)
    · intro row hrow other hother hsame values hchild others hchild' hdisplay
      exact (h row.parent (List.mem_map_of_mem hrow)).told values (mem_childrenOf.mpr ⟨row, hrow, rfl, hchild⟩) others
        (mem_childrenOf.mpr ⟨other, hother, hsame.symm, hchild'⟩) hdisplay

/-- The texts tell a result apart exactly if they tell apart what there is of each parent. -/
theorem tells_iff {first : String × List String} {others : List (String × List String)}
    (hrelations : join.relations = first :: others) (hcolumns : join.columns ≠ []) (hrows : join.rows ≠ []) :
    join.Tells ↔
      (∀ row ∈ join.rows, ∀ other ∈ join.rows,
        row.parent.map Datum.display = other.parent.map Datum.display → row.parent = other.parent) ∧
      ∀ parent ∈ join.rows.map FlatRow.parent, join.TellsParent first.1 parent := by
  have hhead : ∀ relation : String × List String,
      join.relations.head?.map Prod.fst = some relation.1 ↔ relation.1 = first.1 := by
    intro relation
    rw [hrelations, List.head?_cons, Option.map_some, Option.some_inj]
    exact eq_comm
  constructor
  · intro h
    refine ⟨h.parents, fun parent hparent => ?_⟩
    refine ⟨h.parentNames, ?_, h.relations, fun i relation hrelation hne => ?_, fun i relation hrelation hsame => ?_⟩
    · obtain ⟨row, hrow, rfl⟩ := List.mem_map.mp hparent
      exact h.shown row hrow
    · exact childrenOf_eq_nil_iff.mpr (h.others i relation hrelation (mt (hhead relation).mp hne)) parent hparent
    · exact tellsChildren_iff.mp (h.first i relation hrelation ((hhead relation).mpr hsame)) parent hparent
  · rintro ⟨htold, hparents⟩
    obtain ⟨row, hrow⟩ := List.exists_mem_of_ne_nil _ hrows
    have hone := hparents row.parent (List.mem_map_of_mem hrow)
    refine ⟨hcolumns, hone.relations, hone.names, fun row hrow => (hparents _ (List.mem_map_of_mem hrow)).shown, htold,
      fun i relation hrelation hne => ?_, fun i relation hrelation hsame => ?_⟩
    · exact childrenOf_eq_nil_iff.mp fun parent hparent =>
        (hparents parent hparent).others i relation hrelation (mt (hhead relation).mpr hne)
    · exact tellsChildren_iff.mpr fun parent hparent =>
        (hparents parent hparent).first i relation hrelation ((hhead relation).mp hsame)

end Texts

/-- The groups of a flat result are complete exactly if its texts tell the rows apart and only the first relation has some. -/
theorem groups_buildNestedJson_iff {join : FlatJoin} {tables : List Table} {input : FindManyInput}
    (hof : join.Of tables input) (hincluded : join.relations ≠ []) :
    join.Groups (buildNestedJson join.columns (join.rows.map join.texts) (resolveFkForIncludes input tables)) ↔
      (join.rows ≠ [] → join.Tells) := by
  have hoffsets := hof.resolveFkForIncludes_offsets
  generalize resolveFkForIncludes input tables = fkInfo at hoffsets
  obtain ⟨first, others, hrelations⟩ := List.exists_cons_of_ne_nil hincluded
  have hget : join.relations[0]? = some first := by rw [hrelations]; rfl
  by_cases hrows : join.rows = []
  · have hnone : buildNestedJson join.columns (join.rows.map join.texts) fkInfo = [] :=
      buildNestedJson_eq_nil_iff.mpr (by rw [hrows]; rfl)
    rw [hnone, Groups, hrows]
    exact iff_of_true .nil fun h => absurd rfl h
  rw [forall_prop_of_true hrows]
  -- An object of the result for which the first relation has no array.
  have hmissing : (∀ item ∈ buildNestedJson join.columns (join.rows.map join.texts) fkInfo, item.get first.1 = none) →
      ¬ join.Groups (buildNestedJson join.columns (join.rows.map join.texts) fkInfo) := by
    intro hall hgroups
    obtain ⟨row, hrow⟩ := List.exists_mem_of_ne_nil _ hrows
    obtain ⟨item, hitem, -, harrays, -⟩ := exists_of_mem_forall₂ hgroups (mem_distinct.mpr (List.mem_map_of_mem hrow))
    obtain ⟨listed, order, hlisted, -⟩ := harrays 0 first hget
    rw [hall item hitem] at hlisted
    cases hlisted
  by_cases hcolumns : join.columns = []
  · refine iff_of_false (hmissing fun item hitem => ?_) fun h => h.columns hcolumns
    rw [hcolumns, buildNestedJson, if_pos (by simp)] at hitem
    obtain ⟨row, -, rfl⟩ := List.mem_map.mp hitem
    rfl
  by_cases hfirst : first.1 = "_key"
  · refine iff_of_false (hmissing fun item hitem => ?_) fun h => h.relations ?_
    · rw [hfirst]
      refine get_key_buildNestedJson ?_ hcolumns hitem
      rintro rfl
      rw [hrelations] at hoffsets
      cases hoffsets
    · rw [hrelations, ← hfirst]
      exact List.mem_cons_self
  have hbuilt := forall₂_built hrelations hcolumns hfirst hoffsets
  have hkeys : (join.rows.map fun row => row.parent.map Datum.display) =
      (join.rows.map FlatRow.parent).map fun parent => parent.map Datum.display := by
    rw [List.map_map]
    rfl
  rw [hkeys] at hbuilt
  rw [tells_iff hrelations hcolumns hrows]
  constructor
  · intro hgroups
    have htold := eq_of_length_distinct (hbuilt.length_eq.trans hgroups.length_eq.symm)
    rw [distinct_map htold, List.forall₂_map_left_iff] at hbuilt
    have hpairs : ∀ row ∈ join.rows, ∀ other ∈ join.rows,
        row.parent.map Datum.display = other.parent.map Datum.display → row.parent = other.parent :=
      fun row hrow other hother => htold _ (List.mem_map_of_mem hrow) _ (List.mem_map_of_mem hother)
    refine ⟨hpairs, fun parent hparent => ?_⟩
    exact (forall₂_iff_of_forall₂ hbuilt fun parent hparent item hitem =>
      hitem.objectOf_iff (mem_distinct.mp hparent) hpairs).mp hgroups parent (mem_distinct.mpr hparent)
  · rintro ⟨hpairs, hparents⟩
    have htold : ∀ parent ∈ join.rows.map FlatRow.parent, ∀ other ∈ join.rows.map FlatRow.parent,
        parent.map Datum.display = other.map Datum.display → parent = other := by
      intro parent hparent other hother
      obtain ⟨row, hrow, rfl⟩ := List.mem_map.mp hparent
      obtain ⟨another, hanother, rfl⟩ := List.mem_map.mp hother
      exact hpairs row hrow another hanother
    rw [distinct_map htold, List.forall₂_map_left_iff] at hbuilt
    exact (forall₂_iff_of_forall₂ hbuilt fun parent hparent item hitem =>
      hitem.objectOf_iff (mem_distinct.mp hparent) hpairs).mpr fun parent hparent =>
        hparents parent (mem_distinct.mp hparent)

end

end FlatJoin

section Samples

open scoped PlainText

namespace FlatJoin

/-- Users, and two tables that refer to them. -/
def userTables : List Table :=
  [.new "users" [.new "name" .text], .new "posts" [.new "user_id" .text], .new "comments" [.new "user_id" .text]]

/-- A request of users with some relations. -/
def usersWith (relations : List String) : FindManyInput where
  fromTable := "users"
  whereClause := none
  select := none
  includes := relations.map fun relation => { relation, whereClause := none }
  orderBy := []
  take := none
  skip := none

/-- Users with their posts. -/
def withPosts (rows : List (Datum × Option Datum)) : FlatJoin where
  parentNames := ["name"]
  relations := [("posts", ["user_id"])]
  rows := rows.map fun row => { parent := [row.1], children := [row.2.map ([·])] }
  fits := by
    refine List.forall_mem_map.mpr fun row _ => ⟨rfl, .cons (fun values hvalues => ?_) .nil⟩
    obtain ⟨value, -, rfl⟩ := Option.map_eq_some_iff.mp hvalues
    rfl

theorem withPosts_of (rows : List (Datum × Option Datum)) : (withPosts rows).Of userTables (usersWith ["posts"]) :=
  ⟨⟨_, rfl, rfl⟩, .cons ⟨rfl, rfl, _, rfl, rfl⟩ .nil⟩

/-- A user with a post and one without are grouped. -/
theorem groups_withPosts :
    (withPosts [(.text "ann", some (.text "ann")), (.text "bob", none)]).Groups
      (buildNestedJson ["name", "user_id"] [["ann", "ann"], ["bob", "NULL"]]
        (resolveFkForIncludes (usersWith ["posts"]) userTables)) := by
  refine (groups_buildNestedJson_iff (withPosts_of _) (by decide)).mpr fun _ => ?_
  have hshown : TailIs (withPosts [(.text "ann", some (.text "ann")), (.text "bob", none)])
      ⟨[.text "ann"], [some [.text "ann"]]⟩ ["user_id"] [.text "ann"] :=
    ⟨List.Subset.refl _, List.forall_mem_singleton.mpr rfl⟩
  refine ⟨nofun, by decide, by decide, ?_, by decide, ?_, ?_⟩
  · exact List.forall_mem_cons.mpr ⟨List.forall_mem_singleton.mpr rfl, List.forall_mem_singleton.mpr
      (List.forall_mem_singleton.mpr rfl)⟩
  · rintro (_ | i) relation hrelation hne
    · exact absurd (congrArg (Option.map Prod.fst) hrelation) hne
    · cases hrelation
  · rintro (_ | i) relation hrelation -
    · obtain rfl := Option.some.inj hrelation
      refine ⟨?_, ?_, ?_⟩
      · refine List.forall_mem_cons.mpr ⟨fun _ => ?_, List.forall_mem_singleton.mpr fun hblank => absurd (by decide) hblank⟩
        exact ⟨_, List.mem_cons_self, rfl, _, rfl, hshown⟩
      · refine List.forall_mem_cons.mpr ⟨fun values hvalues => ?_, List.forall_mem_singleton.mpr nofun⟩
        obtain rfl := Option.some.inj hvalues
        exact ⟨_, List.mem_cons_self, rfl, by decide, hshown⟩
      · have hone : ∀ row ∈ (withPosts [(.text "ann", some (.text "ann")), (.text "bob", none)]).rows, ∀ values,
            row.child 0 = some values → values = [.text "ann"] :=
          List.forall_mem_cons.mpr ⟨fun values hvalues => (Option.some.inj hvalues).symm, List.forall_mem_singleton.mpr nofun⟩
        intro row hrow other hother _ values hvalues others hothers _
        rw [hone row hrow values hvalues, hone other hother others hothers]
    · cases hrelation

/-- Users with their posts and their comments. -/
def withComments (rows : List (Datum × Datum × Datum)) : FlatJoin where
  parentNames := ["name"]
  relations := [("posts", ["posts.user_id"]), ("comments", ["comments.user_id"])]
  rows := rows.map fun row => { parent := [row.1], children := [some [row.2.1], some [row.2.2]] }
  fits := by
    refine List.forall_mem_map.mpr fun row _ => ⟨rfl, .cons ?_ (.cons ?_ .nil)⟩
    · exact fun values hvalues => Option.some.inj hvalues ▸ rfl
    · exact fun values hvalues => Option.some.inj hvalues ▸ rfl

/-- The second of two relations stays without rows, a post of NULLs is dropped, and a user without a name is taken for
one who is called NULL. -/
theorem not_groups :
    ¬ (withComments [(.text "ann", .text "ann", .text "ann")]).Groups
        (buildNestedJson ["name", "posts.user_id", "comments.user_id"] [["ann", "ann", "ann"]]
          (resolveFkForIncludes (usersWith ["posts", "comments"]) userTables)) ∧
      ¬ (withPosts [(.text "ann", some .null)]).Groups
        (buildNestedJson ["name", "user_id"] [["ann", "NULL"]]
          (resolveFkForIncludes (usersWith ["posts"]) userTables)) ∧
      ¬ (withPosts [(.null, none), (.text "NULL", none)]).Groups
        (buildNestedJson ["name", "user_id"] [["NULL", "NULL"], ["NULL", "NULL"]]
          (resolveFkForIncludes (usersWith ["posts"]) userTables)) := by
  refine ⟨fun h => ?_, fun h => ?_, fun h => ?_⟩
  · obtain ⟨-, harrays, -⟩ := (List.forall₂_cons.mp (show List.Forall₂ _ (_ :: _) (_ :: _) from h)).1
    obtain ⟨listed, order, hlisted, hperm, hrows⟩ := harrays 1 ("comments", ["comments.user_id"]) rfl
    obtain rfl : [] = listed := Json.array.inj (Option.some.inj hlisted)
    obtain rfl := List.forall₂_nil_left_iff.mp hrows
    exact absurd hperm.length_eq (by decide)
  · obtain ⟨-, harrays, -⟩ := (List.forall₂_cons.mp (show List.Forall₂ _ (_ :: _) (_ :: _) from h)).1
    obtain ⟨listed, order, hlisted, hperm, hrows⟩ := harrays 0 ("posts", ["user_id"]) rfl
    obtain rfl : [] = listed := Json.array.inj (Option.some.inj hlisted)
    obtain rfl := List.forall₂_nil_left_iff.mp hrows
    exact absurd hperm.length_eq (by decide)
  · exact absurd h.length_eq (by decide)

end FlatJoin

end Samples

end HelionDb
