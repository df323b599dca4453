import HelionDb.NestedIncludes
import HelionDb.NestedObjects

/-! When a findMany request with an include is answered, said of the rows of its two tables: which rows of the child pass the
ON condition and which refer, what their texts are, and where the page is cut. -/

namespace HelionDb

section Lists

variable {α β γ : Type}

theorem forall₂_congr_of_mem {R S : α → β → Prop} {items : List α} {others : List β}
    (h : ∀ item ∈ items, ∀ other ∈ others, (R item other ↔ S item other)) :
    List.Forall₂ R items others ↔ List.Forall₂ S items others := by
  induction items generalizing others with
  | nil => rw [List.forall₂_nil_left_iff, List.forall₂_nil_left_iff]
  | cons item items ih =>
      cases others with
      | nil => rw [List.forall₂_nil_right_iff, List.forall₂_nil_right_iff]
      | cons other others =>
          have hrest := ih fun item hitem other hother =>
            h item (List.mem_cons_of_mem _ hitem) other (List.mem_cons_of_mem _ hother)
          rw [List.forall₂_cons, List.forall₂_cons, h item List.mem_cons_self other List.mem_cons_self, hrest]

theorem forall₂_eq_map_iff {g : β → α} {items : List α} {others : List β} :
    List.Forall₂ (fun item other => item = g other) items others ↔ items = others.map g := by
  rw [← List.forall₂_eq_eq_eq, List.forall₂_map_right_iff]

/-- Some order of the others goes with the items one by one exactly if both have the same images. -/
theorem exists_perm_forall₂_eq_iff {f : α → γ} {g : β → γ} {items : List α} {others : List β} :
    (∃ order, order.Perm others ∧ List.Forall₂ (fun item other => f item = g other) items order) ↔
      (items.map f).Perm (others.map g) := by
  constructor
  · rintro ⟨order, hperm, hsame⟩
    have hmap : items.map f = order.map g := by
      rw [← forall₂_eq_map_iff, List.forall₂_map_left_iff]
      exact hsame
    rw [hmap]
    exact hperm.map g
  · intro hperm
    have hsame : List.Forall₂ (fun image other => image = g other) (others.map g) others := forall₂_eq_map_iff.mpr rfl
    obtain ⟨order, hrel, horder⟩ := List.perm_comp_forall₂ hperm hsame
    exact ⟨order, horder, List.forall₂_map_left_iff.mp hrel⟩

/-- Items without repetitions have the images of the others exactly if these are told apart and each side has its images on
the other one. -/
theorem perm_map_distinct_iff [DecidableEq α] {f : α → γ} {g : β → γ} {items : List α} {others : List β}
    (hinj : ∀ item ∈ items, ∀ twin ∈ items, f item ∈ others.map g → f item = f twin → item = twin) :
    ((distinct items).map f).Perm (others.map g) ↔
      (others.map g).Nodup ∧ (∀ other ∈ others, ∃ item ∈ items, f item = g other) ∧
        ∀ item ∈ items, ∃ other ∈ others, f item = g other := by
  have hnodup : (∀ item ∈ items, f item ∈ others.map g) → ((distinct items).map f).Nodup := by
    intro himages
    refine (nodup_distinct items).map_on fun item hitem twin htwin hsame => ?_
    exact hinj item (mem_distinct.mp hitem) twin (mem_distinct.mp htwin) (himages item (mem_distinct.mp hitem)) hsame
  constructor
  · intro hperm
    have himages : ∀ item ∈ items, f item ∈ others.map g := fun item hitem =>
      hperm.mem_iff.mp (List.mem_map_of_mem (mem_distinct.mpr hitem))
    refine ⟨hperm.nodup_iff.mp (hnodup himages), fun other hother => ?_, fun item hitem => ?_⟩
    · obtain ⟨item, hitem, hsame⟩ := List.mem_map.mp (hperm.mem_iff.mpr (List.mem_map_of_mem (f := g) hother))
      exact ⟨item, mem_distinct.mp hitem, hsame⟩
    · obtain ⟨other, hother, hsame⟩ := List.mem_map.mp (himages item hitem)
      exact ⟨other, hother, hsame.symm⟩
  · rintro ⟨hothers, hfound, himages⟩
    have hitems : ∀ item ∈ items, f item ∈ others.map g := by
      intro item hitem
      obtain ⟨other, hother, hsame⟩ := himages item hitem
      exact hsame ▸ List.mem_map_of_mem hother
    rw [List.perm_ext_iff_of_nodup (hnodup hitems) hothers]
    intro image
    constructor
    · intro himage
      obtain ⟨item, hitem, rfl⟩ := List.mem_map.mp himage
      exact hitems item (mem_distinct.mp hitem)
    · intro himage
      obtain ⟨other, hother, rfl⟩ := List.mem_map.mp himage
      obtain ⟨item, hitem, hsame⟩ := hfound other hother
      exact hsame ▸ List.mem_map_of_mem (mem_distinct.mpr hitem)

end Lists

section Texts

variable {names : List String} {texts other : List String} {columns own : List ColumnMeta}

theorem zip_take_left (names texts : List String) : (names.take texts.length).zip texts = names.zip texts := by
  induction names generalizing texts with
  | nil => simp
  | cons name names ih => cases texts <;> simp [ih]

theorem zip_take_right (names texts : List String) : names.zip (texts.take names.length) = names.zip texts := by
  induction names generalizing texts with
  | nil => simp
  | cons name names ih => cases texts <;> simp [ih]

theorem nodup_zip (hnames : names.Nodup) (texts : List String) : ((names.zip texts).map Prod.fst).Nodup := by
  have hfirst : (names.zip texts).map Prod.fst = names.take texts.length := by
    rw [← zip_take_left, List.map_fst_zip (by rw [List.length_take]; exact Nat.min_le_left _ _)]
  rw [hfirst]
  exact hnames.sublist (List.take_sublist _ _)

theorem shownText_eq_some_iff (hnames : names.Nodup) {name text : String} :
    shownText name (names.zip texts) = some text ↔ (name, text) ∈ names.zip texts := by
  have hnodup := nodup_zip hnames texts
  rw [shownText, KeyedList.lookupLast_eq hnodup, Option.map_eq_some_iff]
  constructor
  · rintro ⟨⟨found, value⟩, hentry, rfl⟩
    obtain ⟨hmem, rfl⟩ := KeyedList.mem_of_lookup hentry
    exact hmem
  · intro hmem
    exact ⟨(name, text), KeyedList.lookup_self hnodup hmem, rfl⟩

/-- Under names that differ each column has its own text. -/
theorem map_shownText (hnames : names.Nodup) (hlength : texts.length = names.length) :
    (names.map fun name => shownText name (names.zip texts)) = texts.map some := by
  apply List.ext_getElem
  · rw [List.length_map, List.length_map, hlength]
  · intro i hi _
    rw [List.length_map] at hi
    rw [List.getElem_map, List.getElem_map, shownText_eq_some_iff hnames, List.mem_iff_getElem]
    exact ⟨i, by rw [List.length_zip, hlength, Nat.min_self]; exact hi, List.getElem_zip⟩

/-- The table in front of the names does not matter. -/
theorem shownText_namesUnder (table : String) (columns : List ColumnMeta) (texts : List String) (name : String) :
    shownText (table ++ "." ++ name) ((namesUnder table columns).zip texts) =
      shownText name ((columns.map ColumnMeta.name).zip texts) := by
  have hzip : (namesUnder table columns).zip texts =
      ((columns.map ColumnMeta.name).zip texts).map (Prod.map (table ++ "." ++ ·) id) := by
    rw [namesUnder, List.zip_map_left, List.zip_map_left, List.map_map]
    rfl
  have htest : (fun item : String × String => Prod.fst item == table ++ "." ++ name) ∘ Prod.map (table ++ "." ++ ·) id =
      fun item : String × String => Prod.fst item == name := by
    funext item
    rw [Bool.eq_iff_iff]
    simp
  rw [shownText, shownText, KeyedList.lookupLast, KeyedList.lookupLast, hzip, ← List.map_reverse, List.find?_map, htest,
    Option.map_map]
  rfl

/-- The texts that columns of some names get from a row with the names of other columns. -/
def textsUnder (columns own : List ColumnMeta) (texts : List String) : List (Option String) :=
  own.map fun column => shownText column.name ((columns.map ColumnMeta.name).zip texts)

theorem textsUnder_take (columns own : List ColumnMeta) (texts : List String) :
    textsUnder columns own (texts.take columns.length) = textsUnder columns own texts := by
  have hzip := zip_take_right (columns.map ColumnMeta.name) texts
  rw [List.length_map] at hzip
  rw [textsUnder, textsUnder, hzip]

theorem textsUnder_self (hnames : (columns.map ColumnMeta.name).Nodup) (hlength : texts.length = columns.length) :
    textsUnder columns columns texts = texts.map some := by
  rw [← map_shownText hnames (by rw [List.length_map, hlength]), textsUnder, List.map_map]
  rfl

/-- Columns that all get a text, and are no fewer than the texts, tell the texts apart. -/
theorem eq_of_textsUnder (hcolumns : (columns.map ColumnMeta.name).Nodup) (hown : (own.map ColumnMeta.name).Nodup)
    (htexts : texts.length ≤ own.length) (hlength : other.length = texts.length)
    (hwidth : texts.length ≤ columns.length) (hall : none ∉ textsUnder columns own texts)
    (hsame : textsUnder columns own texts = textsUnder columns own other) : texts = other := by
  have hheads : ((columns.map ColumnMeta.name).take texts.length).Nodup := hcolumns.sublist (List.take_sublist _ _)
  have hcount : ((columns.map ColumnMeta.name).take texts.length).length = texts.length := by
    rw [List.length_take, List.length_map, Nat.min_eq_left hwidth]
  -- The columns take their texts from the first names, of which there are no more than columns.
  have hsubset : own.map ColumnMeta.name ⊆ (columns.map ColumnMeta.name).take texts.length := by
    intro name hname
    obtain ⟨column, hcolumn, rfl⟩ := List.mem_map.mp hname
    cases htext : shownText column.name ((columns.map ColumnMeta.name).zip texts) with
    | none => exact absurd (htext ▸ List.mem_map_of_mem hcolumn) hall
    | some text =>
        rw [← zip_take_left] at htext
        exact (List.of_mem_zip ((shownText_eq_some_iff hheads).mp htext)).1
  have hperm : (own.map ColumnMeta.name).Perm ((columns.map ColumnMeta.name).take texts.length) :=
    (hown.subperm hsubset).perm_of_length_le (by rw [hcount, List.length_map]; exact htexts)
  have hshown : ∀ given : List String, given.length = texts.length →
      (((columns.map ColumnMeta.name).take texts.length).map fun name =>
        shownText name ((columns.map ColumnMeta.name).zip given)) = given.map some := by
    intro given hgiven
    rw [← map_shownText hheads (hgiven.trans hcount.symm), ← hgiven, zip_take_left]
  have hnames : ∀ name ∈ (columns.map ColumnMeta.name).take texts.length,
      shownText name ((columns.map ColumnMeta.name).zip texts) = shownText name ((columns.map ColumnMeta.name).zip other) := by
    intro name hname
    obtain ⟨column, hcolumn, rfl⟩ := List.mem_map.mp (hperm.mem_iff.mpr hname)
    exact List.map_inj_left.mp hsame column hcolumn
  apply List.map_injective_iff.mpr (Option.some_injective String)
  calc
    texts.map some = _ := (hshown texts rfl).symm
    _ = _ := List.map_congr_left hnames
    _ = other.map some := hshown other hlength

/-- The object of some texts shows a row exactly if the columns of the row get its texts from them. -/
theorem showsRow_iff [Rendering] {table : String} {row : List Datum} (hwidth : row.length = own.length) :
    (Json.object (rowFields ((namesUnder table columns).zip texts))).ShowsRow table own row ↔
      textsUnder columns own texts = row.map fun value => some value.display := by
  rw [textsUnder, ← forall₂_eq_map_iff, List.forall₂_map_left_iff, List.forall₂_iff_zip]
  constructor
  · intro hshows
    refine ⟨hwidth.symm, fun {column value} hmem => ?_⟩
    have hfield := hshows (column, value) hmem
    rw [Json.get, getField_rowFields_eq, shownText_namesUnder] at hfield
    obtain ⟨text, htext, hsame⟩ := Option.map_eq_some_iff.mp hfield
    rw [htext, Json.string.inj hsame]
  · rintro ⟨-, htexts⟩ entry hentry
    rw [Json.get, getField_rowFields_eq, shownText_namesUnder, htexts hentry]
    rfl

end Texts

namespace IncludeRequest

/-! ### The rows that are found and the rows that refer -/

section Rows

variable [CaseMapping] [Rendering] [NumberText] {ctx : ExecContext} (request : IncludeRequest ctx.tables)

/-- No two columns of one of the tables have the same name. -/
structure NamesApart : Prop where
  parent : (request.parent.columns.map ColumnMeta.name).Nodup
  child : (request.child.columns.map ColumnMeta.name).Nodup

/-- A row of the child that passes the ON condition stands on the page beside a row of the parent with these texts, and is
not blank. -/
def Beside (texts : List String) (other : List Datum) : Prop :=
  (∃ pair ∈ request.input.page request.pairs, pair.1.map Datum.display = texts ∧ pair.2 = some other) ∧
    ∃ text ∈ (other.map Datum.display).take request.parent.columns.length, text ≠ "NULL"

/-- A row of the child has the texts of another one when it is read under the parent's columns of the same names. -/
def ReadAs (other kid : List Datum) : Prop :=
  textsUnder request.parent.columns request.child.columns (other.map Datum.display) = kid.map fun value => some value.display

/-- The page of the pairs of rows has the selected rows, each with texts of its own and in their order. The rows that refer to
one of them have texts of their own too, each stands on the page beside it, and nothing else does. -/
structure RowsAgree : Prop where
  named : request.selected ≠ [] → request.HasOwnField
  paged : distinct ((request.input.page request.pairs).map fun pair => pair.1.map Datum.display) =
    request.selected.map fun row => row.map Datum.display
  apart : ∀ row ∈ request.selected, ((request.kids row).map fun kid => kid.map Datum.display).Nodup
  found : ∀ row ∈ request.selected, ∀ kid ∈ request.kids row,
    ∃ other, request.Beside (row.map Datum.display) other ∧ request.ReadAs other kid
  referring : ∀ row ∈ request.selected, ∀ other, request.Beside (row.map Datum.display) other →
    ∃ kid ∈ request.kids row, request.ReadAs other kid

variable {request}

omit [CaseMapping] [Rendering] [NumberText] in
theorem length_of_mem_rowsIn {table : Table} (hfit : table.RowsFit) {row : List Datum} (hrow : row ∈ ctx.rowsIn table) :
    row.length = table.columns.length := by
  obtain ⟨⟨rowIdx, values⟩, hvisible, rfl⟩ := List.mem_map.mp hrow
  obtain ⟨chain, hchain, version, hversion, rfl⟩ := Table.mem_scanVisible.mp hvisible
  have hseen : table.visibleAt ctx.snapshot rowIdx = some version.row := by
    rw [Table.visibleAt, hchain, Option.bind_some, hversion, Option.map_some]
  exact hfit.visible hseen

theorem snd_mem_rowsIn {pair : List Datum × Option (List Datum)} (hpair : pair ∈ request.pairs) {other : List Datum}
    (hother : pair.2 = some other) : other ∈ ctx.rowsIn request.child := by
  obtain ⟨row, -, hpair⟩ := List.mem_flatMap.mp hpair
  split at hpair
  · rw [List.mem_singleton.mp hpair] at hother
    cases hother
  · obtain ⟨found, hfound, rfl⟩ := List.mem_map.mp hpair
    rw [← Option.some.inj hother]
    exact (List.mem_filter.mp (List.mem_filter.mp hfound).1).1

variable (request) in
/-- The texts of the rows of the child beside a row of the parent with these texts, less blank ones. -/
def foundTexts (texts : List String) : List (List String) :=
  (request.input.page request.pairs).filterMap fun pair =>
    if pair.1.map Datum.display = texts then
      (pair.2.filter fun other => !(request.keptTexts other).all (· = "NULL")).map request.keptTexts
    else none

theorem mem_foundTexts {texts kept : List String} :
    kept ∈ request.foundTexts texts ↔ ∃ other, request.Beside texts other ∧ request.keptTexts other = kept := by
  have hblank : ∀ other, (!(request.keptTexts other).all (· = "NULL")) = true ↔
      ∃ text ∈ (other.map Datum.display).take request.parent.columns.length, text ≠ "NULL" := by
    intro other
    rw [keptTexts]
    simp
  rw [foundTexts, List.mem_filterMap]
  constructor
  · rintro ⟨pair, hpair, hkept⟩
    split at hkept
    · obtain ⟨other, hother, rfl⟩ := Option.map_eq_some_iff.mp hkept
      obtain ⟨hother, hshown⟩ := Option.filter_eq_some_iff.mp hother
      exact ⟨other, ⟨⟨pair, hpair, ‹_›, hother⟩, (hblank other).mp hshown⟩, rfl⟩
    · cases hkept
  · rintro ⟨other, ⟨⟨pair, hpair, htexts, hother⟩, hshown⟩, rfl⟩
    refine ⟨pair, hpair, ?_⟩
    rw [if_pos htexts, hother, Option.filter_some, if_pos ((hblank other).mpr hshown), Option.map_some]

theorem length_of_mem_foundTexts (hchild : request.child.RowsFit) {texts kept : List String}
    (hkept : kept ∈ request.foundTexts texts) :
    kept.length = min request.parent.columns.length request.child.columns.length := by
  obtain ⟨other, ⟨⟨pair, hpair, -, hother⟩, -⟩, rfl⟩ := mem_foundTexts.mp hkept
  have hwidth := length_of_mem_rowsIn hchild (snd_mem_rowsIn (FindManyInput.mem_of_mem_page hpair) hother)
  rw [keptTexts, List.length_take, List.length_map, hwidth]

/-- The array has an object for each list of texts that is found. -/
theorem shownChildren_eq (hnames : (request.parent.columns.map ColumnMeta.name).Nodup) (hchild : request.child.RowsFit)
    (texts : List String) :
    request.shownChildren texts = (distinct (request.foundTexts texts)).map fun kept =>
      rowFields ((namesUnder request.inc.relation request.parent.columns).zip kept) := by
  have hmap : ((request.input.page request.pairs).filterMap fun pair =>
      if pair.1.map Datum.display = texts then
        (pair.2.filter fun other => !(request.keptTexts other).all (· = "NULL")).map request.childObject
      else none) = (request.foundTexts texts).map fun kept =>
        rowFields ((namesUnder request.inc.relation request.parent.columns).zip kept) := by
    rw [foundTexts, List.map_filterMap]
    congr 1
    funext pair
    split
    · rw [Option.map_map]
      rfl
    · rfl
  rw [shownChildren, hmap, keepNew_map, distinct]
  congr 1
  refine keepNew_congr fun kept hkept other hother => ?_
  have hwidth := length_of_mem_foundTexts hchild hkept
  have hsame : other.length = kept.length := (length_of_mem_foundTexts hchild hother).trans hwidth.symm
  have hcount : ((namesUnder request.inc.relation request.parent.columns).take kept.length).length = kept.length := by
    rw [List.length_take, length_namesUnder, hwidth]
    omega
  have hunder : (namesUnder request.inc.relation request.parent.columns).Nodup := by
    rw [namesUnder, ← Function.comp_def, ← List.map_map]
    exact hnames.map fun _ _ h => by simpa using h
  have hheads := hunder.sublist (List.take_sublist kept.length _)
  have hzip := zip_take_left (namesUnder request.inc.relation request.parent.columns) other
  rw [hsame] at hzip
  rw [Bool.eq_iff_iff, decide_eq_true_iff, ← zip_take_left (namesUnder request.inc.relation request.parent.columns) kept, ← hzip,
    hasFieldsOf_rowFields_iff hcount.symm (hsame.trans hcount.symm)]
  constructor
  · intro hshown
    apply List.map_injective_iff.mpr (Option.some_injective String)
    rw [← map_shownText hheads hcount.symm, ← map_shownText hheads (hsame.trans hcount.symm)]
    exact List.map_congr_left fun name _ => (hshown name).symm
  · rintro rfl name
    rfl

theorem mem_kids {row kid : List Datum} (hkid : kid ∈ request.kids row) : kid ∈ ctx.rowsIn request.child :=
  (List.mem_filter.mp (List.mem_filter.mp hkid).1).1

/-- The array lists the rows that refer exactly if the rows found have their texts. -/
theorem listsKids_iff_perm (hnames : (request.parent.columns.map ColumnMeta.name).Nodup) (hchild : request.child.RowsFit)
    (texts : List String) (row : List Datum) :
    request.ListsKids ((request.shownChildren texts).map .object) row ↔
      ((distinct (request.foundTexts texts)).map (textsUnder request.parent.columns request.child.columns)).Perm
        ((request.kids row).map fun kid => kid.map fun value => some value.display) := by
  rw [ListsKids, shownChildren_eq hnames hchild, ← exists_perm_forall₂_eq_iff]
  refine exists_congr fun order => and_congr_right fun hperm => ?_
  rw [List.map_map, List.forall₂_map_left_iff]
  refine forall₂_congr_of_mem fun kept _ kid hkid => ?_
  exact showsRow_iff (length_of_mem_rowsIn hchild (mem_kids (hperm.mem_iff.mp hkid)))

theorem listsKids_iff (hnames : request.NamesApart) (hchild : request.child.RowsFit) (texts : List String)
    (row : List Datum) :
    request.ListsKids ((request.shownChildren texts).map .object) row ↔
      ((request.kids row).map fun kid => kid.map Datum.display).Nodup ∧
        (∀ kid ∈ request.kids row, ∃ other, request.Beside texts other ∧ request.ReadAs other kid) ∧
          ∀ other, request.Beside texts other → ∃ kid ∈ request.kids row, request.ReadAs other kid := by
  have hread : ∀ other, textsUnder request.parent.columns request.child.columns (request.keptTexts other) =
      textsUnder request.parent.columns request.child.columns (other.map Datum.display) :=
    fun other => textsUnder_take _ _ _
  have htexts : ((request.kids row).map fun kid => kid.map fun value => some value.display) =
      ((request.kids row).map fun kid => kid.map Datum.display).map (List.map some) := by
    simp [List.map_map, Function.comp_def]
  rw [listsKids_iff_perm hnames.parent hchild, perm_map_distinct_iff]
  · refine and_congr ?_ (and_congr ?_ ?_)
    · rw [htexts]
      exact List.nodup_map_iff (List.map_injective_iff.mpr (Option.some_injective String))
    · refine forall₂_congr fun kid _ => ?_
      constructor
      · rintro ⟨kept, hkept, hsame⟩
        obtain ⟨other, hbeside, rfl⟩ := mem_foundTexts.mp hkept
        exact ⟨other, hbeside, (hread other).symm.trans hsame⟩
      · rintro ⟨other, hbeside, hsame⟩
        exact ⟨_, mem_foundTexts.mpr ⟨other, hbeside, rfl⟩, (hread other).trans hsame⟩
    · constructor
      · intro h other hbeside
        obtain ⟨kid, hkid, hsame⟩ := h _ (mem_foundTexts.mpr ⟨other, hbeside, rfl⟩)
        exact ⟨kid, hkid, (hread other).symm.trans hsame⟩
      · intro h kept hkept
        obtain ⟨other, hbeside, rfl⟩ := mem_foundTexts.mp hkept
        obtain ⟨kid, hkid, hsame⟩ := h other hbeside
        exact ⟨kid, hkid, (hread other).trans hsame⟩
  · intro kept hkept twin htwin himage hsame
    have hwidth := length_of_mem_foundTexts hchild hkept
    have hnone : none ∉ textsUnder request.parent.columns request.child.columns kept := by
      obtain ⟨kid, -, himage⟩ := List.mem_map.mp himage
      rw [← himage]
      simp
    exact eq_of_textsUnder hnames.parent hnames.child (by omega)
      ((length_of_mem_foundTexts hchild htwin).trans hwidth.symm) (by omega) hnone hsame

/-- The page of the pairs agrees with the request exactly where the rows do. -/
theorem pageAgrees_iff_rowsAgree (hnames : request.NamesApart) (hparent : request.parent.RowsFit)
    (hchild : request.child.RowsFit) : request.PageAgrees ↔ request.RowsAgree := by
  have hshown : ∀ texts ∈ distinct ((request.input.page request.pairs).map fun pair => pair.1.map Datum.display),
      ∀ row ∈ request.selected,
        ((request.parentObject texts).ShowsRow request.input.fromTable request.parent.columns row ∧
            request.ListsKids ((request.shownChildren texts).map .object) row ↔
          texts = row.map Datum.display ∧
            request.ListsKids ((request.shownChildren (row.map Datum.display)).map .object) row) := by
    intro texts htexts row hrow
    obtain ⟨pair, hpair, rfl⟩ := List.mem_map.mp (mem_distinct.mp htexts)
    have hpaired := length_of_mem_taken hparent (fst_mem_taken (FindManyInput.mem_of_mem_page hpair))
    have htext : (request.parentObject (pair.1.map Datum.display)).ShowsRow request.input.fromTable request.parent.columns row ↔
        pair.1.map Datum.display = row.map Datum.display := by
      rw [parentObject, showsRow_iff (length_of_mem_selected hparent hrow),
        textsUnder_self hnames.parent (by rw [List.length_map, hpaired]), ← Function.comp_def, ← List.map_map]
      exact (List.map_injective_iff.mpr (Option.some_injective String)).eq_iff
    rw [htext]
    refine and_congr_right fun hsame => ?_
    rw [hsame]
  have hlisted := fun row => listsKids_iff hnames hchild (row.map Datum.display) row
  constructor
  · rintro ⟨hnamed, hpage⟩
    rw [forall₂_congr_of_mem hshown, forall₂_and_right, forall₂_eq_map_iff] at hpage
    obtain ⟨hpaged, hkids⟩ := hpage
    exact ⟨hnamed, hpaged, fun row hrow => ((hlisted row).mp (hkids row hrow)).1,
      fun row hrow => ((hlisted row).mp (hkids row hrow)).2.1, fun row hrow => ((hlisted row).mp (hkids row hrow)).2.2⟩
  · intro h
    refine ⟨h.named, ?_⟩
    rw [forall₂_congr_of_mem hshown, forall₂_and_right, forall₂_eq_map_iff]
    exact ⟨h.paged, fun row hrow => (hlisted row).mpr ⟨h.apart row hrow, h.found row hrow, h.referring row hrow⟩⟩

end Rows

end IncludeRequest

section

variable [CaseMapping] [Rendering] [NumberText] {db : Database} {choices : QueryChoices}

/-- The request returns what it asks for. -/
def FindManyAnswered (request : IncludeRequest (db.execContext choices).tables) (currentUser : Option String) : Prop :=
  ∃ data, db.executeFindMany choices request.input currentUser = .ok (.object [("data", .array data)]) ∧
    request.Answers data

theorem answered_iff_pageAgrees (request : IncludeRequest (db.execContext choices).tables) (currentUser : Option String)
    (hparent : request.parent.RowsFit)
    (hpermitted : ∀ user, currentUser = some user → ∀ tree,
      buildFindManyPlan request.input db.engine.tables = .ok tree → db.checkPlanPermissions choices tree user = .ok ()) :
    FindManyAnswered request currentUser ↔ request.PageAgrees := by
  rw [← IncludeRequest.answers_iff hparent, FindManyAnswered, executeFindMany_eq request hpermitted]
  constructor
  · rintro ⟨data, hdata, hanswers⟩
    have hsame : request.data = data := by
      injection hdata with hobject
      injection hobject with hentries
      injection hentries with hentry
      injection hentry with _ harray
      injection harray
    rw [hsame]
    exact hanswers
  · intro hanswers
    exact ⟨_, rfl, hanswers⟩

end

/-! ### Two tables -/

section

open AsciiCase PlainText

/-- Two tables with rows that one transaction inserted, in an engine of later transactions. -/
def twoTables (parent child : String) (parentColumns childColumns : List ColumnMeta) (parentRows childRows : DataRows) :
    Database where
  engine := { DatabaseEngine.fresh "disk" with
    tables := [
      { Table.new parent parentColumns with
        versionChains := parentRows.map fun values => [.newInsert 1 { values }] },
      { Table.new child childColumns with versionChains := childRows.map fun values => [.newInsert 1 { values }] }]
    mvcc := .withStartId 2 }
  users := .new
  permissions := .new

/-- The tables of such an engine have rows of their columns. -/
theorem rowsFit_inserted (name : String) (columns : List ColumnMeta) {rows : DataRows}
    (hwidth : ∀ row ∈ rows, row.length = columns.length) :
    ({ Table.new name columns with versionChains := rows.map fun values => [.newInsert 1 { values }] } : Table).RowsFit := by
  intro chain hchain version hversion
  obtain ⟨row, hrow, rfl⟩ := List.mem_map.mp hchain
  rw [List.mem_singleton.mp hversion]
  exact (hwidth row hrow).trans (congrArg List.length (Table.new_columns name columns).symm)

/-- A table and one that refers to it by a column of a name that the table itself has. Two rows refer to the first one. -/
def alikeTables : Database :=
  twoTables "a" "b" [.new "id" .text, .new "a_id" .text] [.new "id" .text, .new "a_id" .text]
    [[.text "1", .text "x"], [.text "2", .text "y"]]
    [[.text "7", .text "1"], [.text "8", .text "3"], [.text "9", .text "1"]]

/-- The request for the rows of `a` with those of `b`. -/
def alikeRequest : IncludeRequest (alikeTables.execContext .asGiven).tables where
  input := { fromTable := "a", whereClause := none, select := none, includes := [{ relation := "b", whereClause := none }]
             orderBy := [], take := some 3, skip := none }
  inc := { relation := "b", whereClause := none }
  parent := _
  child := _
  fk := { childColumn := "a_id", parentColumn := "id" }
  filter := none
  childFilter := none
  includes := rfl
  select := rfl
  parentFound := rfl
  childFound := rfl
  related := rfl
  filterParsed := rfl
  childFilterParsed := rfl

theorem pairs_alikeRequest : alikeRequest.input.page alikeRequest.pairs =
    [([.text "1", .text "x"], some [.text "7", .text "1"]), ([.text "1", .text "x"], some [.text "9", .text "1"]),
      ([.text "2", .text "y"], none)] := rfl

/-- Both rows that refer to the first row stand beside it, and nothing stands beside the second one. -/
theorem beside_alikeRequest {texts : List String} {other : List Datum} :
    alikeRequest.Beside texts other ↔
      texts = ["1", "x"] ∧ (other = [.text "7", .text "1"] ∨ other = [.text "9", .text "1"]) := by
  rw [IncludeRequest.Beside, pairs_alikeRequest]
  constructor
  · rintro ⟨⟨pair, hpair, rfl, hother⟩, -⟩
    simp only [List.mem_cons, List.not_mem_nil, or_false] at hpair
    rcases hpair with rfl | rfl | rfl
    · exact ⟨rfl, .inl (Option.some.inj hother).symm⟩
    · exact ⟨rfl, .inr (Option.some.inj hother).symm⟩
    · cases hother
  · rintro ⟨rfl, rfl | rfl⟩
    · exact ⟨⟨_, List.mem_cons_self, rfl, rfl⟩, "7", by decide, by decide⟩
    · exact ⟨⟨_, List.mem_cons_of_mem _ List.mem_cons_self, rfl, rfl⟩, "9", by decide, by decide⟩

theorem rowsAgree_alikeRequest : alikeRequest.RowsAgree := by
  have hselected : alikeRequest.selected = [[.text "1", .text "x"], [.text "2", .text "y"]] := rfl
  have hfirst : alikeRequest.kids [.text "1", .text "x"] = [[.text "7", .text "1"], [.text "9", .text "1"]] := rfl
  have hsecond : alikeRequest.kids [.text "2", .text "y"] = [] := rfl
  refine ⟨fun _ => ⟨List.cons_ne_nil _ _, by decide, by decide⟩, rfl, ?_, ?_, ?_⟩ <;>
    rw [hselected, List.forall_mem_cons, List.forall_mem_singleton, hfirst, hsecond]
  · decide
  · refine ⟨fun kid hkid => ⟨kid, beside_alikeRequest.mpr ⟨rfl, by simpa using hkid⟩, ?_⟩, List.forall_mem_nil _⟩
    rcases List.mem_cons.mp hkid with rfl | hkid
    · rfl
    · rw [List.mem_singleton.mp hkid]
      rfl
  · refine ⟨fun other hbeside => ⟨other, by simpa using (beside_alikeRequest.mp hbeside).2, ?_⟩, fun other hbeside => ?_⟩
    · rcases (beside_alikeRequest.mp hbeside).2 with rfl | rfl <;> rfl
    · exact absurd (beside_alikeRequest.mp hbeside).1 (by decide)

/-- Users and an order of one of them. -/
def usersAndOrders : Database :=
  twoTables "users" "orders" [.new "id" .text, .new "name" .text]
    [.new "id" .text, { ColumnMeta.new "user_id" .text with references := some { foreignTable := "users", foreignColumn := "id" } }]
    [[.text "1", .text "Alice"]] [[.text "7", .text "1"]]

/-- The request for the users with their orders. -/
def usersRequest : IncludeRequest (usersAndOrders.execContext .asGiven).tables where
  input := { fromTable := "users", whereClause := none, select := none
             includes := [{ relation := "orders", whereClause := none }], orderBy := [], take := none, skip := none }
  inc := { relation := "orders", whereClause := none }
  parent := _
  child := _
  fk := { childColumn := "user_id", parentColumn := "id" }
  filter := none
  childFilter := none
  includes := rfl
  select := rfl
  parentFound := rfl
  childFound := rfl
  related := rfl
  filterParsed := rfl
  childFilterParsed := rfl

end

end HelionDb
