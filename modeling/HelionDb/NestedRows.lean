import HelionDb.FindMany
import HelionDb.Representatives

/-! What the two loops of `build_nested_json` make of the flat rows of one include. There is an object for every list of
texts that the first columns of a row have, in the order of the first such rows, and its array has the rest of the rows
that have these texts, less blank ones and less those whose fields an earlier one has. -/

namespace HelionDb

section Fields

variable {name other : String} {value : Json} {fields : List (String × Json)}

theorem getField_insertField (name other : String) (value : Json) (fields : List (String × Json)) :
    getField other (insertField name value fields) = if other = name then some value else getField other fields := by
  induction fields with
  | nil =>
      by_cases hsame : name = other
      · simp [insertField, getField, hsame]
      · simp [insertField, getField, hsame, Ne.symm hsame]
  | cons entry rest ih =>
      rw [insertField]
      by_cases hentry : entry.1 = name
      · rw [if_pos hentry]
        by_cases hsame : name = other
        · simp [getField, hsame]
        · simp [getField, hsame, Ne.symm hsame, hentry]
      · rw [if_neg hentry]
        by_cases hsame : entry.1 = other
        · have hne : other ≠ name := hsame ▸ hentry
          simp [getField, hsame, hne]
        · have hskip : ∀ tail, getField other (entry :: tail) = getField other tail := by
            intro tail
            simp [getField, hsame]
          rw [hskip, hskip, ih]

@[simp] theorem getField_insertField_self (name : String) (value : Json) (fields : List (String × Json)) :
    getField name (insertField name value fields) = some value := by
  rw [getField_insertField, if_pos rfl]

theorem getField_insertField_of_ne (hne : other ≠ name) (value : Json) (fields : List (String × Json)) :
    getField other (insertField name value fields) = getField other fields := by
  rw [getField_insertField, if_neg hne]

@[simp] theorem getField_removeField_self (name : String) (fields : List (String × Json)) :
    getField name (removeField name fields) = none := by
  rw [getField, Option.map_eq_none_iff, List.find?_eq_none]
  intro entry hentry hsame
  have hkept := (List.mem_filter.mp hentry).2
  exact of_decide_eq_true hkept (of_decide_eq_true hsame)

theorem getField_removeField_of_ne (hne : other ≠ name) (fields : List (String × Json)) :
    getField other (removeField name fields) = getField other fields := by
  rw [getField, getField, removeField, List.find?_filter]
  congr 2
  funext entry
  by_cases hentry : entry.1 = other
  · simp [hentry, hne]
  · simp [hentry]

end Fields

/-- Inserted fields hide the ones before, the last of a name the others of that name. -/
theorem getField_rowFields (entries : List (String × String)) (name : String) :
    getField name (rowFields entries) =
      (KeyedList.lookupLast Prod.fst name entries).map fun entry => .string entry.2 := by
  have hfold : ∀ (rest : List (String × String)) (fields : List (String × Json)),
      getField name (rest.foldl (fun fields entry => insertField entry.1 (.string entry.2) fields) fields) =
        ((KeyedList.lookupLast Prod.fst name rest).map fun entry => .string entry.2).or (getField name fields) := by
    intro rest
    induction rest with
    | nil => exact fun _ => rfl
    | cons entry rest ih =>
        intro fields
        rw [List.foldl_cons, ih, getField_insertField, KeyedList.lookupLast, KeyedList.lookupLast, List.reverse_cons,
          List.find?_append, List.find?_singleton]
        cases rest.reverse.find? fun item => item.1 = name with
        | some found => rfl
        | none =>
            by_cases hsame : entry.1 = name
            · simp [hsame]
            · simp [hsame, Ne.symm hsame]
  exact (hfold entries []).trans Option.or_none

theorem mem_of_getField_rowFields {entries : List (String × String)} {name text : String}
    (h : getField name (rowFields entries) = some (.string text)) : (name, text) ∈ entries := by
  rw [getField_rowFields, Option.map_eq_some_iff] at h
  obtain ⟨entry, hentry, htext⟩ := h
  obtain rfl := Json.string.inj htext
  rw [KeyedList.lookupLast] at hentry
  have hname := List.find?_some hentry
  obtain rfl := beq_iff_eq.mp hname
  exact List.mem_reverse.mp (List.mem_of_find?_eq_some hentry)

theorem getField_rowFields_of_mem {entries : List (String × String)} {entry : String × String}
    (hnodup : (entries.map Prod.fst).Nodup) (hmem : entry ∈ entries) :
    getField entry.1 (rowFields entries) = some (.string entry.2) := by
  rw [getField_rowFields, KeyedList.lookupLast_eq hnodup, KeyedList.lookup_self hnodup hmem]
  rfl

/-- A row has nothing but NULLs after the first columns. -/
def blank (columns : List String) (offset : Nat) (row : List String) : Bool :=
  row.length ≤ offset || ((row.take columns.length).drop offset).all (· = "NULL")

/-- The object of the columns after the first ones. -/
def childFields (columns : List String) (offset : Nat) (row : List String) : List (String × Json) :=
  rowFields ((columns.zip row).drop offset)

/-- An object has all the fields of another one. -/
def hasFieldsOf (child listed : List (String × Json)) : Bool :=
  child.all fun (name, value) => (getField name listed).bind Json.asStr = value.asStr

/-- The objects of the rows with these first texts. -/
def childrenOf (columns : List String) (offset : Nat) (rows : List (List String)) (key : List String) :
    List (List (String × Json)) :=
  keepNew hasFieldsOf
    ((rows.filter fun row => row.take offset = key && !blank columns offset row).map (childFields columns offset))

theorem childrenOf_concat (columns : List String) (offset : Nat) (rows : List (List String)) (row key : List String) :
    childrenOf columns offset (rows ++ [row]) key =
      if row.take offset = key ∧ blank columns offset row = false then
        if (childrenOf columns offset rows key).any (hasFieldsOf (childFields columns offset row)) then
          childrenOf columns offset rows key
        else childrenOf columns offset rows key ++ [childFields columns offset row]
      else childrenOf columns offset rows key := by
  rw [childrenOf, List.filter_append, List.map_append]
  by_cases hrow : row.take offset = key ∧ blank columns offset row = false
  · rw [if_pos hrow, List.filter_cons_of_pos (by simp [hrow]), List.filter_nil, List.map_singleton, keepNew_concat]
    rfl
  · rw [if_neg hrow, List.filter_cons_of_neg (by simpa using hrow), List.filter_nil, List.map_nil, List.append_nil]
    rfl

theorem isListed_objects (child : List (String × Json)) (children : List (List (String × Json))) :
    isListed child (children.map .object) = children.any (hasFieldsOf child) := by
  rw [isListed, List.any_map]
  rfl

/-- What the object of a parent has while it is put together. -/
structure Nests (columns : List String) (offset : Nat) (relation : String) (key : List String)
    (children : List (List (String × Json))) (parent : List (String × Json)) : Prop where
  keyed : getField "_key" parent = some (.array (key.map .string))
  nested : getField relation parent = some (.array (children.map .object))
  own : ∀ name, name ≠ relation → name ≠ "_key" →
    getField name parent = getField name (rowFields ((columns.take offset).zip key))

section Parent

variable {columns : List String} {offset : Nat} {fk : FkInfo} {key : List String}
  {children : List (List (String × Json))} {parent : List (String × Json)}

theorem all_zip_eq_iff {key other : List String} (hlength : key.length = other.length) :
    ((key.map Json.string).zip other).all (fun (a, b) => a.asStr = some b) = true ↔ key = other := by
  induction key generalizing other with
  | nil =>
      rw [List.length_nil, eq_comm, List.length_eq_zero_iff] at hlength
      simp [hlength]
  | cons text rest ih =>
      cases other with
      | nil => cases hlength
      | cons otherText otherRest =>
          rw [List.map_cons, List.zip_cons_cons, List.all_cons, Bool.and_eq_true, ih (Nat.succ.inj hlength), List.cons.injEq]
          simp [Json.asStr]

theorem Nests.hasKey_iff {relation : String} (h : Nests columns offset relation key children parent) {other : List String}
    (hlength : key.length = other.length) : hasKey other parent = true ↔ key = other := by
  rw [hasKey, h.keyed]
  exact all_zip_eq_iff hlength

theorem nests_newParent (hrelation : fk.childTable ≠ "_key") (row : List String) :
    Nests columns offset fk.childTable (row.take offset) [] (newParent columns [fk] offset row) := by
  rw [newParent]
  refine ⟨getField_insertField_self _ _ _, ?_, ?_⟩
  · rw [getField_insertField_of_ne hrelation]
    exact getField_insertField_self _ _ _
  · intro name hname hkey
    rw [getField_insertField_of_ne hkey]
    rw [List.foldl_cons, List.foldl_nil, getField_insertField_of_ne hname]
    rw [List.zip, List.take_zipWith]

/-- A child that none has the fields of comes behind the others. -/
theorem Nests.nestChild {relation : String} (h : Nests columns offset relation key children parent)
    (hrelation : relation ≠ "_key") (child : List (String × Json)) :
    Nests columns offset relation key
      (if children.any (hasFieldsOf child) then children else children ++ [child]) (nestChild relation child parent) := by
  rw [HelionDb.nestChild, h.nested]
  dsimp only [Option.bind_some, Json.asArray]
  rw [isListed_objects]
  by_cases hlisted : children.any (hasFieldsOf child) = true
  · rw [if_pos hlisted, if_pos hlisted]
    exact h
  · rw [if_neg hlisted, if_neg hlisted]
    refine ⟨?_, ?_, ?_⟩
    · rw [getField_insertField_of_ne (Ne.symm hrelation)]
      exact h.keyed
    · rw [getField_insertField_self, List.map_append, List.map_singleton]
    · intro name hname hkey
      rw [getField_insertField_of_ne hname]
      exact h.own name hname hkey

end Parent

/-! ### The two loops -/

section Loops

variable {columns : List String} {fk : FkInfo} {rows : List (List String)}

theorem any_hasKey {keys : List (List String)} {parents : List (List (String × Json))}
    (h : List.Forall₂ (fun key => Nests columns fk.childIdx fk.childTable key []) keys parents) {other : List String}
    (hlength : ∀ key ∈ keys, key.length = other.length) :
    parents.any (hasKey other) = keys.any fun key => key = other := by
  induction h with
  | nil => rfl
  | cons hfirst hrest ih =>
      rw [List.any_cons, List.any_cons, ih fun key hkey => hlength key (List.mem_cons_of_mem _ hkey)]
      congr 1
      rw [Bool.eq_iff_iff, hfirst.hasKey_iff (hlength _ List.mem_cons_self), decide_eq_true_iff]

/-- The first loop makes an empty parent for each list of first texts. -/
theorem forall₂_addParent (hrelation : fk.childTable ≠ "_key") (hrows : ∀ row ∈ rows, fk.childIdx ≤ row.length) :
    List.Forall₂ (fun key => Nests columns fk.childIdx fk.childTable key [])
      (distinct (rows.map fun row => row.take fk.childIdx)) (rows.foldl (addParent columns [fk] fk.childIdx) []) := by
  induction rows using List.reverseRecOn with
  | nil => exact .nil
  | append_singleton rows row ih =>
      have hparents := ih fun other hother => hrows other (List.mem_append_left _ hother)
      have hlength : ∀ key ∈ distinct (rows.map fun row => row.take fk.childIdx),
          key.length = (row.take fk.childIdx).length := by
        intro key hkey
        obtain ⟨other, hother, rfl⟩ := List.mem_map.mp (mem_distinct.mp hkey)
        rw [List.length_take_of_le (hrows other (List.mem_append_left _ hother)),
          List.length_take_of_le (hrows row (by simp))]
      rw [List.map_append, List.map_singleton, distinct, keepNew_concat, List.foldl_append, List.foldl_cons, List.foldl_nil,
        addParent, any_hasKey hparents hlength]
      split
      · exact hparents
      · exact List.rel_append hparents (.cons (nests_newParent hrelation row) .nil)

/-- A row of the second loop goes to the parent of its first texts. -/
theorem forall₂_addChild (hrelation : fk.childTable ≠ "_key") {keys : List (List String)} (hkeys : keys.Nodup)
    {parents : List (List (String × Json))} {row : List String} (hrow : row.take fk.childIdx ∈ keys)
    (hlength : ∀ key ∈ keys, key.length = (row.take fk.childIdx).length)
    (h : List.Forall₂ (fun key => Nests columns fk.childIdx fk.childTable key
      (childrenOf columns fk.childIdx rows key)) keys parents) :
    List.Forall₂ (fun key => Nests columns fk.childIdx fk.childTable key
      (childrenOf columns fk.childIdx (rows ++ [row]) key)) keys (addChild columns [fk] fk.childIdx parents row) := by
  have hfound : ∀ key ∈ keys, ∀ parent,
      Nests columns fk.childIdx fk.childTable key (childrenOf columns fk.childIdx rows key) parent →
        (hasKey (row.take fk.childIdx) parent = true ↔ key = row.take fk.childIdx) :=
    fun key hkey parent hparent => hparent.hasKey_iff (hlength key hkey)
  by_cases hblank : blank columns fk.childIdx row = true
  · have hchildren : ∀ key, childrenOf columns fk.childIdx (rows ++ [row]) key = childrenOf columns fk.childIdx rows key := by
      intro key
      rw [childrenOf_concat, if_neg (by simp [hblank])]
    have hsame : addChild columns [fk] fk.childIdx parents row = parents := by
      obtain ⟨idx, hidx, -⟩ := forall₂_modify_found (f := id) h hkeys hrow hfound (fun _ h => h) fun _ _ _ h => h
      rw [addChild, hidx]
      dsimp only [List.head?_cons]
      rcases Bool.or_eq_true_iff.mp hblank with hshort | hnulls
      · rw [if_pos (of_decide_eq_true hshort)]
      · rw [if_pos hnulls, ite_self]
    rw [hsame]
    exact h.imp fun key parent hparent => (hchildren key).symm ▸ hparent
  · rw [Bool.not_eq_true] at hblank
    obtain ⟨hlong, hvalues⟩ := Bool.or_eq_false_iff.mp hblank
    have hhit : ∀ parent, Nests columns fk.childIdx fk.childTable (row.take fk.childIdx)
        (childrenOf columns fk.childIdx rows (row.take fk.childIdx)) parent →
          Nests columns fk.childIdx fk.childTable (row.take fk.childIdx)
            (childrenOf columns fk.childIdx (rows ++ [row]) (row.take fk.childIdx))
            (nestChild fk.childTable (childFields columns fk.childIdx row) parent) := by
      intro parent hparent
      rw [childrenOf_concat, if_pos ⟨rfl, hblank⟩]
      exact hparent.nestChild hrelation _
    have hmiss : ∀ key parent, key ≠ row.take fk.childIdx →
        Nests columns fk.childIdx fk.childTable key (childrenOf columns fk.childIdx rows key) parent →
          Nests columns fk.childIdx fk.childTable key (childrenOf columns fk.childIdx (rows ++ [row]) key) parent := by
      intro key parent hkey hparent
      rw [childrenOf_concat, if_neg fun hrow => hkey hrow.1.symm]
      exact hparent
    obtain ⟨idx, hidx, hmodified⟩ := @forall₂_modify_found _ _ _
      (fun key => Nests columns fk.childIdx fk.childTable key (childrenOf columns fk.childIdx (rows ++ [row]) key))
      _ _ _ _ _ h hkeys hrow hfound hhit hmiss
    rw [addChild, hidx]
    dsimp only [List.head?_cons]
    rw [if_neg (of_decide_eq_false hlong), hvalues, if_neg Bool.false_ne_true]
    exact hmodified

/-- The parents after both loops have the children of all rows. -/
theorem forall₂_nested (hrelation : fk.childTable ≠ "_key") (hrows : ∀ row ∈ rows, fk.childIdx ≤ row.length) :
    List.Forall₂ (fun key => Nests columns fk.childIdx fk.childTable key (childrenOf columns fk.childIdx rows key))
      (distinct (rows.map fun row => row.take fk.childIdx))
      (rows.foldl (addChild columns [fk] fk.childIdx) (rows.foldl (addParent columns [fk] fk.childIdx) [])) := by
  have hparents := @forall₂_addParent columns fk rows hrelation hrows
  generalize hkeys : distinct (rows.map fun row => row.take fk.childIdx) = keys at hparents ⊢
  have hnodup : keys.Nodup := hkeys ▸ nodup_distinct _
  have hmem : ∀ key, key ∈ keys ↔ ∃ row ∈ rows, row.take fk.childIdx = key := by
    intro key
    rw [← hkeys, mem_distinct, List.mem_map]
  generalize rows.foldl (addParent columns [fk] fk.childIdx) [] = parents at hparents ⊢
  have hsteps : ∀ done, done <+: rows →
      List.Forall₂ (fun key => Nests columns fk.childIdx fk.childTable key (childrenOf columns fk.childIdx done key))
        keys (done.foldl (addChild columns [fk] fk.childIdx) parents) := by
    intro done hdone
    induction done using List.reverseRecOn with
    | nil => exact hparents
    | append_singleton done row ih =>
        have hrow : row ∈ rows := hdone.subset (by simp)
        rw [List.foldl_append, List.foldl_cons, List.foldl_nil]
        refine forall₂_addChild hrelation hnodup ((hmem _).mpr ⟨row, hrow, rfl⟩) ?_ (ih ((List.prefix_append _ _).trans hdone))
        intro key hkey
        obtain ⟨other, hother, rfl⟩ := (hmem key).mp hkey
        rw [List.length_take_of_le (hrows other hother), List.length_take_of_le (hrows row hrow)]
  exact hsteps rows List.prefix_rfl

end Loops

/-- What the request returns for flat rows: an object for each list of first texts. -/
theorem forall₂_buildNestedJson {columns : List String} {fk : FkInfo} {rows : List (List String)} (hcolumns : columns ≠ [])
    (hrelation : fk.childTable ≠ "_key") (hrows : ∀ row ∈ rows, fk.childIdx ≤ row.length) :
    List.Forall₂
      (fun key item =>
        item.get fk.childTable = some (.array ((childrenOf columns fk.childIdx rows key).map .object)) ∧
          ∀ name, name ≠ fk.childTable → name ≠ "_key" →
            item.get name = getField name (rowFields ((columns.take fk.childIdx).zip key)))
      (distinct (rows.map fun row => row.take fk.childIdx)) (buildNestedJson columns rows [fk]) := by
  rw [buildNestedJson, if_neg (by simpa using hcolumns)]
  show List.Forall₂ _ _ (List.map _ _)
  rw [List.forall₂_map_right_iff]
  refine (forall₂_nested hrelation hrows).imp fun key parent hparent => ⟨?_, ?_⟩
  · show getField _ (removeField _ _) = _
    rw [getField_removeField_of_ne hrelation]
    exact hparent.nested
  · intro name hname hkey
    show getField _ (removeField _ _) = _
    rw [getField_removeField_of_ne hkey]
    exact hparent.own name hname hkey

/-- There is an object as soon as there is a row. -/
theorem buildNestedJson_eq_nil_iff {columns : List String} {rows : List (List String)} {fkInfo : List FkInfo} :
    buildNestedJson columns rows fkInfo = [] ↔ rows = [] := by
  have hstep : ∀ offset parents row, (addChild columns fkInfo offset parents row).length = parents.length := by
    intro offset parents row
    unfold addChild
    split
    · split
      · rfl
      · split
        · rfl
        · rw [List.length_modify]
    · rfl
  have hchildren : ∀ offset parents, (rows.foldl (addChild columns fkInfo offset) parents).length = parents.length := by
    intro offset parents
    induction rows generalizing parents with
    | nil => rfl
    | cons row rest ih => rw [List.foldl_cons, ih, hstep]
  have hparents : ∀ offset, rows.foldl (addParent columns fkInfo offset) [] = [] ↔ rows = [] := by
    intro offset
    induction rows using List.reverseRecOn with
    | nil => exact iff_of_true rfl rfl
    | append_singleton rows row _ =>
        rw [List.foldl_append, List.foldl_cons, List.foldl_nil, addParent]
        apply iff_of_false
        · split
          · rename_i hknown
            intro hnone
            rw [hnone] at hknown
            cases hknown
          · simp
        · simp
  unfold buildNestedJson
  split
  · exact List.map_eq_nil_iff
  · rw [List.map_eq_nil_iff, ← List.length_eq_zero_iff, hchildren, List.length_eq_zero_iff, hparents]

/-- No object of a nested answer has the key in it. -/
theorem get_key_buildNestedJson {columns : List String} {rows : List (List String)} {fkInfo : List FkInfo}
    (hfk : fkInfo ≠ []) (hcolumns : columns ≠ []) {item : Json} (hitem : item ∈ buildNestedJson columns rows fkInfo) :
    item.get "_key" = none := by
  rw [buildNestedJson, if_neg (by simp [hfk, hcolumns])] at hitem
  obtain ⟨parent, -, rfl⟩ := List.mem_map.mp hitem
  exact getField_removeField_self _ _

end HelionDb
