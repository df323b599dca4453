import HelionDb.KeyPairs
import HelionDb.Loop
import HelionDb.Types
import Mathlib.Data.Finmap

/-! The index of `btree.rs`: a map from keys to sets of row positions. No key is kept with an empty
set, so an index is determined by its definition and by the pairs it holds; every operation is
specified by what it does to those pairs. The source's field `meta`, a word Lean reserves, is called
`definition`. -/

namespace HelionDb

structure IndexMeta where
  name : String
  columns : List Nat
  isUnique : Bool
  deriving DecidableEq, Repr

/-- The key an index with this definition reads off a row; a column past the end of the row
contributes nothing. -/
def IndexMeta.extractKey (definition : IndexMeta) (row : Row) : List Datum :=
  definition.columns.filterMap fun i => row.values[i]?

/-- `Index`. `remove` drops a key together with its last row, which the last field records. -/
structure Index where
  definition : IndexMeta
  entries : Finmap fun _ : List Datum => Finset Nat
  entries_nonempty : ∀ key rows, entries.lookup key = some rows → rows ≠ ∅

namespace Index

/-- `Index::new`. -/
def new (definition : IndexMeta) : Index where
  definition := definition
  entries := ∅
  entries_nonempty := by simp

def newUnique (name : String) (columns : List Nat) : Index :=
  new { name, columns, isUnique := true }

def newNonUnique (name : String) (columns : List Nat) : Index :=
  new { name, columns, isUnique := false }

/-- `Index::extract_key`. -/
def extractKey (index : Index) (row : Row) : List Datum := index.definition.extractKey row

def get (index : Index) (key : List Datum) : Option (Finset Nat) := index.entries.lookup key

def contains (index : Index) (key : List Datum) : Bool := (index.get key).isSome

/-- `Index::insert_entry`: the raw insertion, which skips the uniqueness check. -/
def insertEntry (index : Index) (key : List Datum) (rowIdx : Nat) : Index where
  definition := index.definition
  entries := index.entries.insert key (insert rowIdx ((index.get key).getD ∅))
  entries_nonempty := by
    intro other rows hlookup
    by_cases hkey : other = key
    · subst hkey
      rw [Finmap.lookup_insert] at hlookup
      rw [← Option.some.inj hlookup]
      exact Finset.insert_ne_empty _ _
    · rw [Finmap.lookup_insert_of_ne _ hkey] at hlookup
      exact index.entries_nonempty other rows hlookup

/-- `Index::insert`. -/
def insert (index : Index) (key : List Datum) (rowIdx : Nat) : Loop.Outcome HelionError Index :=
  match index.get key with
  | some existing =>
      if index.definition.isUnique ∧ rowIdx ∉ existing then
        (.error (.duplicateKey index.definition.name key), index)
      else (.ok (), index.insertEntry key rowIdx)
  | none => (.ok (), index.insertEntry key rowIdx)

/-- `Index::remove`. -/
def remove (index : Index) (key : List Datum) (rowIdx : Nat) : Index :=
  match index.get key with
  | some rows =>
      if hempty : rows.erase rowIdx = ∅ then
        { definition := index.definition
          entries := index.entries.erase key
          entries_nonempty := by
            intro other kept hlookup
            by_cases hkey : other = key
            · subst hkey
              rw [Finmap.lookup_erase] at hlookup
              cases hlookup
            · rw [Finmap.lookup_erase_ne hkey] at hlookup
              exact index.entries_nonempty other kept hlookup }
      else
        { definition := index.definition
          entries := index.entries.insert key (rows.erase rowIdx)
          entries_nonempty := by
            intro other kept hlookup
            by_cases hkey : other = key
            · subst hkey
              rw [Finmap.lookup_insert] at hlookup
              exact Option.some.inj hlookup ▸ hempty
            · rw [Finmap.lookup_insert_of_ne _ hkey] at hlookup
              exact index.entries_nonempty other kept hlookup }
  | none => index

/-- `Index::update`: the old key is gone even when the new one is refused. -/
def update (index : Index) (oldKey newKey : List Datum) (rowIdx : Nat) :
    Loop.Outcome HelionError Index :=
  (index.remove oldKey rowIdx).insert newKey rowIdx

def isEmpty (index : Index) : Bool := decide (index.entries = ∅)

/-- `Index::clear`. -/
def clear (index : Index) : Index := new index.definition

/-! ### The pairs of an index -/

/-- The pairs of a key and a row that holds it. -/
def pairs (index : Index) : Set (List Datum × Nat) :=
  { pair | ∃ rows, index.get pair.1 = some rows ∧ pair.2 ∈ rows }

theorem mem_pairs {index : Index} {key : List Datum} {rowIdx : Nat} :
    (key, rowIdx) ∈ index.pairs ↔ ∃ rows, index.get key = some rows ∧ rowIdx ∈ rows := Iff.rfl

theorem mem_pairs_of_get {index : Index} {key : List Datum} {rows : Finset Nat} {rowIdx : Nat}
    (hget : index.get key = some rows) : (key, rowIdx) ∈ index.pairs ↔ rowIdx ∈ rows := by
  simp [mem_pairs, hget]

theorem get_eq_none_iff {index : Index} {key : List Datum} :
    index.get key = none ↔ ∀ rowIdx, (key, rowIdx) ∉ index.pairs := by
  constructor
  · intro hnone rowIdx hmem
    obtain ⟨rows, hget, _⟩ := mem_pairs.mp hmem
    rw [hnone] at hget
    cases hget
  · intro hpairs
    cases hget : index.get key with
    | none => rfl
    | some rows =>
        obtain ⟨rowIdx, hrow⟩ := Finset.nonempty_iff_ne_empty.mpr (index.entries_nonempty key rows hget)
        exact absurd ((mem_pairs_of_get hget).mpr hrow) (hpairs rowIdx)

/-- Two indexes with one definition and the same pairs are the same index. -/
theorem ext_pairs {left right : Index} (hdefinition : left.definition = right.definition)
    (hpairs : left.pairs = right.pairs) : left = right := by
  have hentries : left.entries = right.entries := by
    refine Finmap.ext_lookup fun key => ?_
    change left.get key = right.get key
    cases hleft : left.get key with
    | none =>
        rw [get_eq_none_iff, hpairs, ← get_eq_none_iff] at hleft
        exact hleft.symm
    | some rows =>
        cases hright : right.get key with
        | none =>
            rw [get_eq_none_iff, ← hpairs, ← get_eq_none_iff, hleft] at hright
            cases hright
        | some rows' =>
            congr 1
            ext rowIdx
            rw [← mem_pairs_of_get hleft, ← mem_pairs_of_get hright, hpairs]
  cases left
  cases right
  cases hdefinition
  cases hentries
  rfl

@[simp] theorem new_definition (definition : IndexMeta) : (new definition).definition = definition := rfl

@[simp] theorem pairs_new (definition : IndexMeta) : (new definition).pairs = ∅ := by
  ext pair
  simp [pairs, get, new]

theorem isEmpty_iff {index : Index} : index.isEmpty = true ↔ index.pairs = ∅ := by
  constructor
  · intro hempty
    have hentries : index.entries = ∅ := of_decide_eq_true hempty
    ext pair
    simp [pairs, get, hentries]
  · intro hpairs
    have heq : index = new index.definition := ext_pairs rfl (by simpa using hpairs)
    exact decide_eq_true (congrArg Index.entries heq)

@[simp] theorem insertEntry_definition (index : Index) (key : List Datum) (rowIdx : Nat) :
    (index.insertEntry key rowIdx).definition = index.definition := rfl

@[simp] theorem pairs_insertEntry (index : Index) (key : List Datum) (rowIdx : Nat) :
    (index.insertEntry key rowIdx).pairs = KeyPairs.apply index.pairs (.add key rowIdx) := by
  ext ⟨other, row⟩
  rw [KeyPairs.mem_apply_add, Prod.mk.injEq]
  by_cases hkey : other = key
  · subst hkey
    have hget : (index.insertEntry other rowIdx).get other =
        some (Insert.insert rowIdx ((index.get other).getD ∅)) := Finmap.lookup_insert _
    rw [mem_pairs_of_get hget, Finset.mem_insert]
    cases hold : index.get other with
    | none => simp [get_eq_none_iff.mp hold row]
    | some rows => simp [mem_pairs_of_get hold]
  · have hget : (index.insertEntry key rowIdx).get other = index.get other :=
      Finmap.lookup_insert_of_ne _ hkey
    simp [mem_pairs, hget, hkey]

@[simp] theorem remove_definition (index : Index) (key : List Datum) (rowIdx : Nat) :
    (index.remove key rowIdx).definition = index.definition := by
  unfold remove
  split
  · split <;> rfl
  · rfl

theorem get_remove_of_ne (index : Index) {key other : List Datum} (hkey : other ≠ key) (rowIdx : Nat) :
    (index.remove key rowIdx).get other = index.get other := by
  unfold remove
  split
  · split
    · exact Finmap.lookup_erase_ne hkey
    · exact Finmap.lookup_insert_of_ne _ hkey
  · rfl

theorem get_remove_self {index : Index} {key : List Datum} {rows : Finset Nat}
    (hget : index.get key = some rows) (rowIdx : Nat) :
    (index.remove key rowIdx).get key =
      if rows.erase rowIdx = ∅ then none else some (rows.erase rowIdx) := by
  unfold remove
  split
  · rename_i existing hexisting
    obtain rfl := Option.some.inj (hget.symm.trans hexisting)
    split
    · exact Finmap.lookup_erase _ _
    · exact Finmap.lookup_insert _
  · rename_i hnone
    rw [hget] at hnone
    cases hnone

@[simp] theorem pairs_remove (index : Index) (key : List Datum) (rowIdx : Nat) :
    (index.remove key rowIdx).pairs = KeyPairs.apply index.pairs (.drop key rowIdx) := by
  ext ⟨other, row⟩
  rw [KeyPairs.mem_apply_drop, Ne, Prod.mk.injEq]
  by_cases hkey : other = key
  · subst hkey
    simp only [true_and]
    cases hold : index.get other with
    | none =>
        have heq : index.remove other rowIdx = index := by simp [remove, hold]
        simp [heq, get_eq_none_iff.mp hold row]
    | some rows =>
        rw [mem_pairs_of_get hold, and_comm, ← Finset.mem_erase]
        have hget := get_remove_self hold rowIdx
        by_cases hempty : rows.erase rowIdx = ∅
        · rw [if_pos hempty] at hget
          simp [get_eq_none_iff.mp hget row, hempty]
        · rw [if_neg hempty] at hget
          exact mem_pairs_of_get hget
  · simp [mem_pairs, get_remove_of_ne index hkey, hkey]

/-- A unique index refuses a key that another row holds and this one does not. -/
theorem insert_ok_iff {index : Index} {key : List Datum} {rowIdx : Nat} :
    (index.insert key rowIdx).1 = .ok () ↔
      KeyPairs.Admits index.definition.isUnique index.pairs (.add key rowIdx) := by
  unfold insert KeyPairs.Admits
  cases hget : index.get key with
  | none => simpa using fun _ row hrow => absurd hrow (get_eq_none_iff.mp hget row)
  | some existing =>
      have hheld : ∃ other, (key, other) ∈ index.pairs := by
        obtain ⟨other, hother⟩ :=
          Finset.nonempty_iff_ne_empty.mpr (index.entries_nonempty key existing hget)
        exact ⟨other, (mem_pairs_of_get hget).mpr hother⟩
      simp only [mem_pairs_of_get hget] at hheld ⊢
      by_cases hunique : index.definition.isUnique = true <;> by_cases hmem : rowIdx ∈ existing <;>
        simp [hunique, hmem, hheld]

theorem insert_of_ok {index : Index} {key : List Datum} {rowIdx : Nat}
    (hok : (index.insert key rowIdx).1 = .ok ()) :
    (index.insert key rowIdx).2 = index.insertEntry key rowIdx := by
  unfold insert at hok ⊢
  split
  · split
    · simp_all
    · rfl
  · rfl

@[simp] theorem insert_definition (index : Index) (key : List Datum) (rowIdx : Nat) :
    (index.insert key rowIdx).2.definition = index.definition := by
  unfold insert
  split
  · split <;> rfl
  · rfl

theorem update_ok_iff {index : Index} {oldKey newKey : List Datum} {rowIdx : Nat} :
    (index.update oldKey newKey rowIdx).1 = .ok () ↔
      KeyPairs.Admissible index.definition.isUnique index.pairs
        [.drop oldKey rowIdx, .add newKey rowIdx] := by
  rw [update, insert_ok_iff, remove_definition, pairs_remove]
  simp [KeyPairs.Admissible, KeyPairs.Admits]

theorem pairs_update_of_ok {index : Index} {oldKey newKey : List Datum} {rowIdx : Nat}
    (hok : (index.update oldKey newKey rowIdx).1 = .ok ()) :
    (index.update oldKey newKey rowIdx).2.pairs =
      KeyPairs.applyAll index.pairs [.drop oldKey rowIdx, .add newKey rowIdx] := by
  rw [update] at hok ⊢
  rw [insert_of_ok hok, pairs_insertEntry, pairs_remove]
  rfl

end Index

end HelionDb
