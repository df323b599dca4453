import HelionDb.Noninterference

/-! Where the tables of a predicate stand. A predicate that names tables of one side of a join only has one value on a
combined row and on the part of that side, as long as the tables have different names. -/

namespace HelionDb

open Expression (TableSlot positionOf findUnqualified lookupJoin)

/-- No table of these takes the place of a table that a qualified column names: none has its name, ignoring case. -/
def hidesNone (info : List (String × List ColumnMeta)) (expr : Expression) : Bool :=
  expr.references.all fun reference =>
    reference.1.all fun table => info.all fun entry => !eqIgnoreAsciiCase entry.1 table

/-- All tables that a reference can mean are among the names. -/
structure Within (names : List String) (info : List (String × List ColumnMeta)) (reference : Option String × String) :
    Prop where
  qualified : ∀ table, reference.1 = some table → table ∈ names
  unqualified : reference.1 = none → ∀ entry ∈ info, (positionOf entry.2 reference.2).isSome = true → entry.1 ∈ names

theorem Within.mono {names others : List String} {info : List (String × List ColumnMeta)}
    {reference : Option String × String} (h : Within names info reference) (hnames : names ⊆ others) :
    Within others info reference where
  qualified table htable := hnames (h.qualified table htable)
  unqualified hnone entry hentry hposition := hnames (h.unqualified hnone entry hentry hposition)

theorem mem_sortDedup {name : String} {names : List String} : name ∈ sortDedup names ↔ name ∈ names := by
  rw [sortDedup, List.mem_dedup, List.mem_insertionSort]

section References

variable {info : List (String × List ColumnMeta)}

mutual

/-- The tables that a predicate names are all that its columns can mean. -/
theorem within_of_referencedTables (expr : Expression) {names : List String}
    (h : referencedTables info expr = .ok names) : ∀ reference ∈ expr.references, Within names info reference := by
  intro reference hreference
  cases expr with
  | column name =>
      obtain rfl := List.mem_singleton.mp hreference
      rw [referencedTables] at h
      split at h
      · cases h
      · cases h
        refine ⟨nofun, fun _ entry hentry hposition => ?_⟩
        exact List.mem_map.mpr ⟨entry, List.mem_filter.mpr ⟨hentry, hposition⟩, rfl⟩
  | qualifiedColumn table name =>
      obtain rfl := List.mem_singleton.mp hreference
      rw [referencedTables] at h
      cases h
      refine ⟨fun other hother => ?_, nofun⟩
      obtain rfl := Option.some.inj hother
      exact List.mem_singleton_self _
  | literal value => cases hreference
  | binaryOp l op r =>
      rw [referencedTables] at h
      obtain ⟨leftNames, hl, h⟩ := Loop.bind_ok_iff.mp h
      obtain ⟨rightNames, hr, h⟩ := Loop.bind_ok_iff.mp h
      cases h
      rcases List.mem_append.mp hreference with hmem | hmem
      · exact (within_of_referencedTables l hl reference hmem).mono fun name hname =>
          mem_sortDedup.mpr (List.mem_append_left _ hname)
      · exact (within_of_referencedTables r hr reference hmem).mono fun name hname =>
          mem_sortDedup.mpr (List.mem_append_right _ hname)
  | unaryOp op inner => exact within_of_referencedTables inner (by rw [referencedTables] at h; exact h) reference hreference
  | isNull inner => exact within_of_referencedTables inner (by rw [referencedTables] at h; exact h) reference hreference
  | isNotNull inner => exact within_of_referencedTables inner (by rw [referencedTables] at h; exact h) reference hreference
  | inList inner list => exact within_of_referencedTables inner (by rw [referencedTables] at h; exact h) reference hreference
  | like inner pattern => exact within_of_referencedTables inner (by rw [referencedTables] at h; exact h) reference hreference
  | between inner low high =>
      rw [referencedTables] at h
      obtain ⟨innerNames, hinner, h⟩ := Loop.bind_ok_iff.mp h
      obtain ⟨lowNames, hlow, h⟩ := Loop.bind_ok_iff.mp h
      obtain ⟨highNames, hhigh, h⟩ := Loop.bind_ok_iff.mp h
      cases h
      rcases List.mem_append.mp hreference with hmem | hmem
      · rcases List.mem_append.mp hmem with hmem | hmem
        · exact (within_of_referencedTables inner hinner reference hmem).mono fun name hname =>
            mem_sortDedup.mpr (List.mem_append_left _ (List.mem_append_left _ hname))
        · exact (within_of_referencedTables low hlow reference hmem).mono fun name hname =>
            mem_sortDedup.mpr (List.mem_append_left _ (List.mem_append_right _ hname))
      · exact (within_of_referencedTables high hhigh reference hmem).mono fun name hname =>
          mem_sortDedup.mpr (List.mem_append_right _ hname)
  | function name args =>
      rw [referencedTables] at h
      obtain ⟨found, hfound, h⟩ := Loop.bind_ok_iff.mp h
      cases h
      exact (within_of_referencedTablesAll args hfound reference hreference).mono fun name hname =>
        mem_sortDedup.mpr hname

theorem within_of_referencedTablesAll (args : List Expression) {names : List String}
    (h : referencedTablesAll info args = .ok names) :
    ∀ reference ∈ Expression.referencesAll args, Within names info reference := by
  intro reference hreference
  cases args with
  | nil => cases hreference
  | cons arg rest =>
      rw [referencedTablesAll] at h
      obtain ⟨first, hfirst, h⟩ := Loop.bind_ok_iff.mp h
      obtain ⟨others, hothers, h⟩ := Loop.bind_ok_iff.mp h
      cases h
      rcases List.mem_append.mp hreference with hmem | hmem
      · exact (within_of_referencedTables arg hfirst reference hmem).mono fun name hname =>
          List.mem_append_left _ hname
      · exact (within_of_referencedTablesAll rest hothers reference hmem).mono fun name hname =>
          List.mem_append_right _ hname

end

end References

/-! ### Columns in a part of a row -/

section Lookup

variable {name : String} {found : Option Nat} {slots : List TableSlot}

theorem findUnqualified_append (slots others : List TableSlot) (found : Option Nat) :
    findUnqualified name found (slots ++ others) =
      (findUnqualified name found slots).bind fun found => findUnqualified name found others := by
  fun_induction findUnqualified name found slots with
  | case1 found => rfl
  | case2 found slot rest hnone ih => rw [List.cons_append, findUnqualified, hnone]; exact ih
  | case3 slot rest position hposition other => rw [List.cons_append, findUnqualified, hposition]; rfl
  | case4 slot rest position hposition ih => rw [List.cons_append, findUnqualified, hposition]; exact ih

theorem findUnqualified_of_none (h : ∀ slot ∈ slots, positionOf slot.columns name = none) (found : Option Nat) :
    findUnqualified name found slots = .ok found := by
  induction slots with
  | nil => rw [findUnqualified]
  | cons slot slots ih =>
      obtain ⟨hslot, hslots⟩ := List.forall_mem_cons.mp h
      rw [findUnqualified, hslot]
      exact ih hslots

theorem findUnqualified_shiftSlots (width : Nat) (slots : List TableSlot) (found : Option Nat) :
    findUnqualified name (found.map (· + width)) (shiftSlots width slots) =
      (findUnqualified name found slots).map (Option.map (· + width)) := by
  fun_induction findUnqualified name found slots with
  | case1 found => rfl
  | case2 found slot rest hnone ih =>
      rw [shiftSlots, List.map_cons, findUnqualified]
      simp only [hnone]
      exact ih
  | case3 slot rest position hposition other =>
      rw [shiftSlots, List.map_cons, findUnqualified]
      simp only [hposition]
      rfl
  | case4 slot rest position hposition ih =>
      rw [shiftSlots, List.map_cons, findUnqualified]
      simp only [hposition]
      rw [show slot.offset + width + position = slot.offset + position + width by omega]
      exact ih

/-- The columns of a table in a combined row end where the row does. -/
theorem le_of_mem_slotsFrom {offset : Nat} {info : List (String × List ColumnMeta)} {slot : TableSlot}
    (h : slot ∈ slotsFrom offset info) :
    (slot.name, slot.columns) ∈ info ∧ slot.offset + slot.columns.length ≤ offset + combinedLen info := by
  induction info generalizing offset with
  | nil => cases h
  | cons entry rest ih =>
      rw [combinedLen_cons]
      rcases List.mem_cons.mp h with rfl | hrest
      · exact ⟨List.mem_cons_self, by dsimp only; omega⟩
      · obtain ⟨hmem, hle⟩ := ih hrest
        exact ⟨List.mem_cons_of_mem _ hmem, by omega⟩

theorem exists_slot_of_mem {offset : Nat} {info : List (String × List ColumnMeta)} {entry : String × List ColumnMeta}
    (h : entry ∈ info) : ∃ slot ∈ slotsFrom offset info, slot.name = entry.1 := by
  induction info generalizing offset with
  | nil => cases h
  | cons first rest ih =>
      rcases List.mem_cons.mp h with rfl | hrest
      · exact ⟨_, List.mem_cons_self, rfl⟩
      · obtain ⟨slot, hslot, hname⟩ := @ih (offset + first.2.length) hrest
        exact ⟨slot, List.mem_cons_of_mem _ hslot, hname⟩

end Lookup

section Sides

variable {left right : List (String × List ColumnMeta)} {names : List String} {reference : Option String × String}
  {leftRow rightRow : List Datum}

/-- A column of the left side is found there. -/
theorem lookupJoin_left (hwidth : leftRow.length = combinedLen left) (hdistinct : ((left ++ right).map Prod.fst).Nodup)
    (hwithin : Within names (left ++ right) reference) (hnames : ∀ name ∈ names, name ∈ left.map Prod.fst) :
    lookupJoin (leftRow ++ rightRow) (slotsFrom 0 (left ++ right)) reference.1 reference.2 =
      lookupJoin leftRow (slotsFrom 0 left) reference.1 reference.2 := by
  obtain ⟨table, name⟩ := reference
  have hvalue : ∀ slot ∈ slotsFrom 0 left, ∀ position, positionOf slot.columns name = some position →
      (leftRow ++ rightRow)[slot.offset + position]? = leftRow[slot.offset + position]? := by
    intro slot hslot position hposition
    have hle := (le_of_mem_slotsFrom hslot).2
    have hlt := lt_of_positionOf hposition
    exact List.getElem?_append_left (by omega)
  rw [slotsFrom_append]
  unfold lookupJoin
  cases table with
  | some table =>
      obtain ⟨entry, hentry, rfl⟩ := List.mem_map.mp (hnames table (hwithin.qualified table rfl))
      obtain ⟨slot, hslot, hname⟩ := @exists_slot_of_mem 0 left entry hentry
      dsimp only
      rw [List.find?_append]
      cases hfound : (slotsFrom 0 left).find? fun slot => eqIgnoreAsciiCase slot.name entry.1 with
      | none =>
          have hmiss := List.find?_eq_none.mp hfound slot hslot
          rw [hname, eqIgnoreAsciiCase_refl] at hmiss
          exact absurd rfl hmiss
      | some slot =>
          rw [Option.some_or]
          dsimp only
          split
          · rfl
          · rename_i position hposition
            rw [hvalue slot (List.mem_of_find?_eq_some hfound) position hposition]
  | none =>
      have hright : ∀ slot ∈ slotsFrom (0 + combinedLen left) right, positionOf slot.columns name = none := by
        intro slot hslot
        have hmem := (le_of_mem_slotsFrom hslot).1
        by_contra hposition
        have hsome := Option.isSome_iff_ne_none.mpr hposition
        obtain ⟨entry, hentry, hname⟩ := List.mem_map.mp
          (hnames _ (hwithin.unqualified rfl _ (List.mem_append_right _ hmem) hsome))
        rw [List.map_append] at hdistinct
        exact (List.nodup_append.mp hdistinct).2.2 _ (List.mem_map.mpr ⟨entry, hentry, rfl⟩) _
          (List.mem_map.mpr ⟨_, hmem, rfl⟩) hname
      dsimp only
      rw [findUnqualified_append]
      cases hfound : findUnqualified name none (slotsFrom 0 left) with
      | error err => rfl
      | ok found =>
          simp only [Except.bind]
          rw [findUnqualified_of_none hright]
          cases found with
          | none => rfl
          | some idx =>
              rcases findUnqualified_some hfound with hnone | ⟨slot, hslot, position, hposition, rfl⟩
              · cases hnone
              · exact congrArg (fun value => Except.ok (Option.getD value Datum.null)) (hvalue slot hslot position hposition)

/-- A column of the right side is found there, behind the columns of the left. -/
theorem lookupJoin_right (hwidth : leftRow.length = combinedLen left) (hdistinct : ((left ++ right).map Prod.fst).Nodup)
    (hwithin : Within names (left ++ right) reference) (hnames : ∀ name ∈ names, name ∈ right.map Prod.fst)
    (hclear : ∀ table, reference.1 = some table → ∀ entry ∈ left, eqIgnoreAsciiCase entry.1 table = false) :
    lookupJoin (leftRow ++ rightRow) (slotsFrom 0 (left ++ right)) reference.1 reference.2 =
      lookupJoin rightRow (slotsFrom 0 right) reference.1 reference.2 := by
  obtain ⟨table, name⟩ := reference
  have hvalue : ∀ idx, (leftRow ++ rightRow)[idx + combinedLen left]? = rightRow[idx]? := by
    intro idx
    rw [List.getElem?_append_right (by omega)]
    congr 1
    omega
  rw [slotsFrom_append, ← shiftSlots_slotsFrom]
  unfold lookupJoin
  cases table with
  | some table =>
      obtain ⟨entry, hentry, rfl⟩ := List.mem_map.mp (hnames table (hwithin.qualified table rfl))
      have hleft : ((slotsFrom 0 left).find? fun slot => eqIgnoreAsciiCase slot.name entry.1) = none := by
        apply List.find?_eq_none.mpr
        intro slot hslot hname
        exact Bool.false_ne_true ((hclear _ rfl _ (le_of_mem_slotsFrom hslot).1).symm.trans hname)
      have hwhole : ((slotsFrom 0 left ++ shiftSlots (combinedLen left) (slotsFrom 0 right)).find? fun slot =>
          eqIgnoreAsciiCase slot.name entry.1) =
          ((slotsFrom 0 right).find? fun slot => eqIgnoreAsciiCase slot.name entry.1).map fun slot =>
            { slot with offset := slot.offset + combinedLen left } := by
        rw [List.find?_append, hleft, Option.none_or, shiftSlots, List.find?_map]
        rfl
      dsimp only
      rw [hwhole]
      cases (slotsFrom 0 right).find? fun slot => eqIgnoreAsciiCase slot.name entry.1 with
      | none => rfl
      | some slot =>
          dsimp only [Option.map_some]
          cases positionOf slot.columns name with
          | none => rfl
          | some position =>
              dsimp only
              rw [← hvalue, show slot.offset + combinedLen left + position = slot.offset + position + combinedLen left by
                omega]
  | none =>
      have hleft : ∀ slot ∈ slotsFrom 0 left, positionOf slot.columns name = none := by
        intro slot hslot
        have hmem := (le_of_mem_slotsFrom hslot).1
        by_contra hposition
        have hsome := Option.isSome_iff_ne_none.mpr hposition
        obtain ⟨entry, hentry, hname⟩ := List.mem_map.mp
          (hnames _ (hwithin.unqualified rfl _ (List.mem_append_left _ hmem) hsome))
        rw [List.map_append] at hdistinct
        exact (List.nodup_append.mp hdistinct).2.2 _ (List.mem_map.mpr ⟨_, hmem, rfl⟩) _
          (List.mem_map.mpr ⟨entry, hentry, rfl⟩) hname.symm
      have hwhole : findUnqualified name none (slotsFrom 0 left ++ shiftSlots (combinedLen left) (slotsFrom 0 right)) =
          (findUnqualified name none (slotsFrom 0 right)).map (Option.map (· + combinedLen left)) := by
        rw [findUnqualified_append, findUnqualified_of_none hleft]
        exact @findUnqualified_shiftSlots name (combinedLen left) (slotsFrom 0 right) none
      dsimp only
      rw [hwhole]
      cases findUnqualified name none (slotsFrom 0 right) with
      | error err => rfl
      | ok found =>
          cases found with
          | none => rfl
          | some idx => exact congrArg (fun value => Except.ok (Option.getD value Datum.null)) (hvalue idx)

variable [CaseMapping] [Rendering] {uuidv7 : BitVec 128} {expr : Expression}

/-- A predicate on the left side has the value it has there. -/
theorem evaluateJoin_left (hwidth : leftRow.length = combinedLen left) (hdistinct : ((left ++ right).map Prod.fst).Nodup)
    (hreferenced : referencedTables (left ++ right) expr = .ok names) (hnames : ∀ name ∈ names, name ∈ left.map Prod.fst) :
    expr.evaluateJoin uuidv7 (leftRow ++ rightRow) (slotsFrom 0 (left ++ right)) =
      expr.evaluateJoin uuidv7 leftRow (slotsFrom 0 left) := by
  rw [Expression.evaluateJoin, Expression.evaluateJoin]
  apply Expression.evaluateWith_congr
  intro reference hreference
  exact lookupJoin_left hwidth hdistinct (within_of_referencedTables expr hreferenced reference hreference) hnames

/-- A predicate on the right side has the value it has there. -/
theorem evaluateJoin_right (hwidth : leftRow.length = combinedLen left) (hdistinct : ((left ++ right).map Prod.fst).Nodup)
    (hreferenced : referencedTables (left ++ right) expr = .ok names)
    (hnames : ∀ name ∈ names, name ∈ right.map Prod.fst) (hclear : hidesNone left expr = true) :
    expr.evaluateJoin uuidv7 (leftRow ++ rightRow) (slotsFrom 0 (left ++ right)) =
      expr.evaluateJoin uuidv7 rightRow (slotsFrom 0 right) := by
  rw [Expression.evaluateJoin, Expression.evaluateJoin]
  apply Expression.evaluateWith_congr
  intro reference hreference
  refine lookupJoin_right hwidth hdistinct (within_of_referencedTables expr hreferenced reference hreference) hnames ?_
  intro table htable entry hentry
  have hnone := List.all_eq_true.mp hclear reference hreference
  rw [htable] at hnone
  simpa using List.all_eq_true.mp hnone entry hentry

end Sides

end HelionDb
