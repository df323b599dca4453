import HelionDb.NestedRows
import HelionDb.Relational

/-! The objects of rows, field by field, and what `build_nested_json` makes of several includes: the arrays of all but the
first stay empty. -/

namespace HelionDb

section Objects

variable {name : String} {names texts other : List String} {entries : List (String × String)}

/-- The text under a name, of which the last column with the name counts. -/
def shownText (name : String) (entries : List (String × String)) : Option String :=
  (KeyedList.lookupLast Prod.fst name entries).map Prod.snd

theorem getField_rowFields_eq (entries : List (String × String)) (name : String) :
    getField name (rowFields entries) = (shownText name entries).map .string := by
  rw [getField_rowFields, shownText, Option.map_map]
  rfl

theorem map_fst_insertField (name : String) (value : Json) (fields : List (String × Json)) :
    (insertField name value fields).map Prod.fst =
      if name ∈ fields.map Prod.fst then fields.map Prod.fst else fields.map Prod.fst ++ [name] := by
  induction fields with
  | nil => rfl
  | cons entry rest ih =>
      rw [insertField]
      by_cases hentry : entry.1 = name
      · simp [hentry]
      · rw [if_neg hentry, List.map_cons, ih, List.map_cons]
        by_cases hmem : name ∈ rest.map Prod.fst
        · rw [if_pos hmem, if_pos (List.mem_cons_of_mem _ hmem)]
        · rw [if_neg hmem, if_neg (by simp [hmem, Ne.symm hentry])]
          rfl

/-- An object has each of its fields once. -/
theorem nodup_rowFields (entries : List (String × String)) : ((rowFields entries).map Prod.fst).Nodup := by
  induction entries using List.reverseRecOn with
  | nil => exact List.nodup_nil
  | append_singleton entries last ih =>
      have hstep : rowFields (entries ++ [last]) = insertField last.1 (.string last.2) (rowFields entries) := by
        rw [rowFields, List.foldl_append]
        rfl
      rw [hstep, map_fst_insertField]
      split
      · exact ih
      · rename_i hnew
        rw [← List.concat_eq_append]
        exact ih.concat hnew

theorem mem_rowFields_iff {value : Json} :
    (name, value) ∈ rowFields entries ↔ getField name (rowFields entries) = some value := by
  have hlookup : getField name (rowFields entries) =
      (KeyedList.lookup Prod.fst name (rowFields entries)).map Prod.snd := rfl
  rw [hlookup, Option.map_eq_some_iff]
  constructor
  · exact fun hmem => ⟨(name, value), KeyedList.lookup_self (nodup_rowFields entries) hmem, rfl⟩
  · rintro ⟨entry, hentry, rfl⟩
    obtain ⟨hmem, rfl⟩ := KeyedList.mem_of_lookup hentry
    exact hmem

theorem isSome_shownText_iff (hlength : texts.length = names.length) :
    (shownText name (names.zip texts)).isSome ↔ name ∈ names := by
  rw [shownText, Option.isSome_map, KeyedList.lookupLast, List.find?_isSome]
  constructor
  · rintro ⟨entry, hentry, hname⟩
    obtain rfl := beq_iff_eq.mp hname
    exact (List.of_mem_zip (List.mem_reverse.mp hentry)).1
  · intro hname
    rw [← @List.map_fst_zip _ _ names texts hlength.ge] at hname
    obtain ⟨entry, hentry, rfl⟩ := List.mem_map.mp hname
    exact ⟨entry, List.mem_reverse.mpr hentry, beq_self_eq_true _⟩

/-- A row is known for another one exactly if they have the same text under each name. -/
theorem hasFieldsOf_rowFields_iff (htexts : texts.length = names.length) (hother : other.length = names.length) :
    hasFieldsOf (rowFields (names.zip texts)) (rowFields (names.zip other)) = true ↔
      ∀ name, shownText name (names.zip texts) = shownText name (names.zip other) := by
  rw [hasFieldsOf, List.all_eq_true]
  constructor
  · intro h name
    cases htext : shownText name (names.zip texts) with
    | none =>
        have hnot : name ∉ names := fun hmem => by
          have := (isSome_shownText_iff htexts).mpr hmem
          rw [htext] at this
          cases this
        cases hshown : shownText name (names.zip other) with
        | none => rfl
        | some text => exact absurd ((isSome_shownText_iff hother).mp (hshown ▸ rfl)) hnot
    | some text =>
        have hmem : (name, Json.string text) ∈ rowFields (names.zip texts) := by
          rw [mem_rowFields_iff, getField_rowFields_eq, htext]
          rfl
        have hsame := of_decide_eq_true (h _ hmem)
        rw [getField_rowFields_eq] at hsame
        cases hshown : shownText name (names.zip other) with
        | none =>
            rw [hshown] at hsame
            cases hsame
        | some found =>
            rw [hshown] at hsame
            exact hsame.symm
  · rintro h ⟨name, value⟩ hmem
    rw [mem_rowFields_iff, getField_rowFields_eq, h] at hmem
    obtain ⟨text, htext, rfl⟩ := Option.map_eq_some_iff.mp hmem
    refine decide_eq_true ?_
    rw [getField_rowFields_eq, htext]
    rfl

theorem hasFieldsOf_self (entries : List (String × String)) :
    hasFieldsOf (rowFields entries) (rowFields entries) = true := by
  rw [hasFieldsOf, List.all_eq_true]
  rintro ⟨name, value⟩ hmem
  rw [mem_rowFields_iff] at hmem
  refine decide_eq_true ?_
  rw [hmem]
  rfl

end Objects

/-! ### Several includes -/

section Several

variable {fk : FkInfo} {others : List FkInfo} {columns : List String}

/-- The object of a parent for several includes has what it has for the first one, and empty arrays for the others. -/
def Extends (fk : FkInfo) (others : List FkInfo) (single several : List (String × Json)) : Prop :=
  ∀ name, getField name several =
    if name ∈ others.map FkInfo.childTable ∧ name ≠ fk.childTable ∧ name ≠ "_key" then some (.array [])
    else getField name single

theorem getField_emptyArrays (fkInfo : List FkInfo) (own : List (String × Json)) (name : String) :
    getField name (fkInfo.foldl (fun fields fk => insertField fk.childTable (.array []) fields) own) =
      if name ∈ fkInfo.map FkInfo.childTable then some (.array []) else getField name own := by
  induction fkInfo using List.reverseRecOn with
  | nil => rfl
  | append_singleton fkInfo last ih =>
      rw [List.foldl_append, List.foldl_cons, List.foldl_nil, getField_insertField, ih, List.map_append, List.map_singleton]
      by_cases hlast : name = last.childTable
      · simp [hlast]
      · simp [hlast]

theorem extends_newParent (offset : Nat) (row : List String) :
    Extends fk others (newParent columns [fk] offset row) (newParent columns (fk :: others) offset row) := by
  intro name
  rw [newParent, newParent, getField_insertField, getField_insertField, getField_emptyArrays, getField_emptyArrays]
  by_cases hkey : name = "_key"
  · simp [hkey]
  · by_cases hfirst : name = fk.childTable
    · simp [hfirst]
    · simp [hkey, hfirst]

namespace Extends

variable {single several : List (String × Json)}

theorem hasKey_eq (h : Extends fk others single several) (key : List String) : hasKey key several = hasKey key single := by
  rw [hasKey, hasKey, h "_key", if_neg fun hnot => hnot.2.2 rfl]

theorem nestChild (h : Extends fk others single several) (child : List (String × Json)) :
    Extends fk others (nestChild fk.childTable child single) (HelionDb.nestChild fk.childTable child several) := by
  have hsame : getField fk.childTable several = getField fk.childTable single :=
    (h fk.childTable).trans (if_neg fun hnot => hnot.2.1 rfl)
  rw [HelionDb.nestChild, HelionDb.nestChild, hsame]
  cases (getField fk.childTable single).bind Json.asArray with
  | none => exact h
  | some listed =>
      dsimp only
      split
      · exact h
      · intro name
        rw [getField_insertField, getField_insertField, h name]
        by_cases hfirst : name = fk.childTable
        · simp [hfirst]
        · simp [hfirst]

end Extends

theorem findIdx?_hasKey {singles severals : List (List (String × Json))}
    (h : List.Forall₂ (Extends fk others) singles severals) (key : List String) :
    severals.findIdx? (hasKey key) = singles.findIdx? (hasKey key) := by
  induction h with
  | nil => rfl
  | cons hfirst hrest ih => rw [List.findIdx?_cons, List.findIdx?_cons, hfirst.hasKey_eq, ih]

theorem forall₂_addParent_several (offset : Nat) (row : List String) {singles severals : List (List (String × Json))}
    (h : List.Forall₂ (Extends fk others) singles severals) :
    List.Forall₂ (Extends fk others) (addParent columns [fk] offset singles row)
      (addParent columns (fk :: others) offset severals row) := by
  rw [addParent, addParent, Relational.any_eq h fun _ _ hparent => (hparent.hasKey_eq (row.take offset)).symm]
  split
  · exact h
  · exact List.rel_append h (.cons (extends_newParent offset row) .nil)

theorem forall₂_addChild_several (offset : Nat) (row : List String) {singles severals : List (List (String × Json))}
    (h : List.Forall₂ (Extends fk others) singles severals) :
    List.Forall₂ (Extends fk others) (addChild columns [fk] offset singles row)
      (addChild columns (fk :: others) offset severals row) := by
  rw [addChild, addChild, findIdx?_hasKey h]
  cases singles.findIdx? (hasKey (row.take offset)) with
  | none => exact h
  | some idx =>
      dsimp only [List.head?_cons]
      split
      · exact h
      · split
        · exact h
        · exact forall₂_modify h (fun _ _ hparent => hparent.nestChild _) idx

/-- Several includes give what the first one gives, with empty arrays for the others. -/
theorem forall₂_buildNestedJson_several {rows : List (List String)} (hcolumns : columns ≠ [])
    (hfirst : ∀ other ∈ others, fk.childIdx ≤ other.childIdx) :
    List.Forall₂ (fun single several => ∀ name, several.get name =
        if name ∈ others.map FkInfo.childTable ∧ name ≠ fk.childTable ∧ name ≠ "_key" then some (.array [])
        else single.get name)
      (buildNestedJson columns rows [fk]) (buildNestedJson columns rows (fk :: others)) := by
  have hoffset : ∀ several ⊆ others, ((fk :: several).map FkInfo.childIdx).min?.getD columns.length = fk.childIdx := by
    intro several hsubset
    have hmin : ((fk :: several).map FkInfo.childIdx).min? = some fk.childIdx := by
      refine List.min?_eq_some_iff.mpr ⟨List.mem_cons_self, List.forall_mem_map.mpr fun other hother => ?_⟩
      rcases List.mem_cons.mp hother with rfl | hother
      · exact le_rfl
      · exact hfirst other (hsubset hother)
    rw [hmin, Option.getD_some]
  have hparents : ∀ rows : List (List String), List.Forall₂ (Extends fk others)
      (rows.foldl (addParent columns [fk] fk.childIdx) []) (rows.foldl (addParent columns (fk :: others) fk.childIdx) []) := by
    intro rows
    induction rows using List.reverseRecOn with
    | nil => exact .nil
    | append_singleton rows row ih =>
        simp only [List.foldl_append, List.foldl_cons, List.foldl_nil]
        exact forall₂_addParent_several fk.childIdx row ih
  have hchildren : ∀ (rows : List (List String)) (singles severals : List (List (String × Json))),
      List.Forall₂ (Extends fk others) singles severals →
        List.Forall₂ (Extends fk others) (rows.foldl (addChild columns [fk] fk.childIdx) singles)
          (rows.foldl (addChild columns (fk :: others) fk.childIdx) severals) := by
    intro rows
    induction rows with
    | nil => exact fun _ _ h => h
    | cons row rows ih => exact fun _ _ h => ih _ _ (forall₂_addChild_several fk.childIdx row h)
  rw [buildNestedJson, buildNestedJson, if_neg (by simpa using hcolumns), if_neg (by simpa using hcolumns),
    hoffset [] (List.nil_subset _), hoffset others (List.Subset.refl _)]
  dsimp only
  rw [List.forall₂_map_left_iff, List.forall₂_map_right_iff]
  refine (hchildren rows _ _ (hparents rows)).imp fun single several hparent name => ?_
  show getField name (removeField "_key" several) = ite _ _ (getField name (removeField "_key" single))
  by_cases hkey : name = "_key"
  · simp [hkey]
  · rw [getField_removeField_of_ne hkey, getField_removeField_of_ne hkey]
    exact hparent name

end Several

end HelionDb
