import HelionDb.IndexCalls
import HelionDb.TableIndexes

/-! Index updates that fail. `update` takes the row from its old key before it asks whether the new key is free, so a
refused update leaves the index as it was only where there was nothing to take; and `apply_index_changes` stops at the
first index that refuses, with the indexes before it updated. `insert`, which asks first, changes nothing when it
fails. -/

namespace HelionDb

namespace Index

variable {index : Index} {oldKey newKey : List Datum} {rowIdx : Nat}

/-- The new key belongs to another row of a unique index, and this row does not hold it or holds it as the old key. -/
def Refuses (index : Index) (oldKey newKey : List Datum) (rowIdx : Nat) : Prop :=
  index.definition.isUnique = true ∧ (∃ other, other ≠ rowIdx ∧ (newKey, other) ∈ index.pairs) ∧
    ((newKey, rowIdx) ∈ index.pairs → newKey = oldKey)

/-- The row is under the new key, and it is under the old key only if that is the same. -/
def Settled (index : Index) (oldKey newKey : List Datum) (rowIdx : Nat) : Prop :=
  (newKey, rowIdx) ∈ index.pairs ∧ ((oldKey, rowIdx) ∈ index.pairs → oldKey = newKey)

theorem not_ok_update_iff : (index.update oldKey newKey rowIdx).1 ≠ .ok () ↔ index.Refuses oldKey newKey rowIdx := by
  rw [Ne, update, insert_ok_iff, remove_definition, pairs_remove]
  simp only [KeyPairs.Admits, KeyPairs.mem_apply_drop, Classical.not_imp, Refuses]
  apply and_congr_right
  intro _
  constructor
  · rintro ⟨⟨other, hother, hkept⟩, hnew⟩
    have hown : (newKey, rowIdx) ∈ index.pairs → newKey = oldKey := by
      intro hmem
      by_contra hne
      exact hnew ⟨hmem, fun heq => hne (congrArg Prod.fst heq)⟩
    refine ⟨⟨other, ?_, hother⟩, hown⟩
    rintro rfl
    exact hkept (by rw [hown hother])
  · rintro ⟨⟨other, hne, hother⟩, hown⟩
    refine ⟨⟨other, hother, fun heq => hne (congrArg Prod.snd heq)⟩, ?_⟩
    rintro ⟨hmem, hkept⟩
    exact hkept (by rw [hown hmem])

/-- A refused update has taken the row from its old key. -/
theorem update_of_refuses (h : index.Refuses oldKey newKey rowIdx) :
    (index.update oldKey newKey rowIdx).2 = index.remove oldKey rowIdx :=
  insert_of_not_ok (not_ok_update_iff.mpr h)

theorem remove_eq_self_iff : index.remove oldKey rowIdx = index ↔ (oldKey, rowIdx) ∉ index.pairs := by
  constructor
  · intro hsame hmem
    rw [← hsame, pairs_remove] at hmem
    exact hmem.2 rfl
  · intro hmem
    apply ext_pairs (remove_definition _ _ _)
    rw [pairs_remove]
    exact Set.sdiff_singleton_eq_self hmem

/-- An update that fails leaves the index as it was exactly where the row was not under its old key. -/
theorem refused_update_eq_self_iff (h : index.Refuses oldKey newKey rowIdx) :
    (index.update oldKey newKey rowIdx).2 = index ↔ (oldKey, rowIdx) ∉ index.pairs := by
  rw [update_of_refuses h, remove_eq_self_iff]

/-- An update that succeeds leaves the index as it was exactly where the row is under the new key already. -/
theorem update_eq_self_iff (hok : (index.update oldKey newKey rowIdx).1 = .ok ()) :
    (index.update oldKey newKey rowIdx).2 = index ↔ index.Settled oldKey newKey rowIdx := by
  constructor
  · intro hsame
    have hpairs := mem_pairs_update hok
    rw [hsame] at hpairs
    refine ⟨(hpairs _).mpr (.inl rfl), fun hold => ?_⟩
    rcases (hpairs _).mp hold with heq | ⟨-, hne⟩
    · exact congrArg Prod.fst heq
    · exact absurd rfl hne
  · rintro ⟨hnew, hold⟩
    apply ext_pairs
    · rw [update, insert_definition, remove_definition]
    ext pair
    rw [mem_pairs_update hok]
    constructor
    · rintro (rfl | ⟨hmem, -⟩)
      · exact hnew
      · exact hmem
    · intro hmem
      by_cases heq : pair = (oldKey, rowIdx)
      · subst heq
        exact .inl (by rw [hold hmem])
      · exact .inr ⟨hmem, heq⟩

/-- What an update entry does to one index, by whether the index refuses. -/
theorem applyChange_update_ok_iff {old newRow : Row} :
    (index.applyChange (.update newRow) (some old) rowIdx).1 = .ok () ↔
      ¬ index.Refuses (index.extractKey old) (index.extractKey newRow) rowIdx := by
  rw [← not_ok_update_iff, not_not]
  exact Loop.mapError_ok_iff

end Index

namespace Table

variable {table : Table} {newRow old : Row} {rowIdx : Nat}

/-- Wherever the first index that refuses stands, the row is not under its old key there, and the indexes before it have
the row under the new key already. -/
def FailsUnchanged (table : Table) (newRow old : Row) (rowIdx : Nat) : Prop :=
  ∀ before index after, table.indexes = before ++ index :: after →
    (∀ earlier ∈ before, ¬ earlier.Refuses (earlier.extractKey old) (earlier.extractKey newRow) rowIdx) →
    index.Refuses (index.extractKey old) (index.extractKey newRow) rowIdx →
      (index.extractKey old, rowIdx) ∉ index.pairs ∧
        ∀ earlier ∈ before, earlier.Settled (earlier.extractKey old) (earlier.extractKey newRow) rowIdx

/-- The indexes that a failed update entry leaves. -/
theorem indexes_of_first_refuses {before after : List Index} {index : Index}
    (hindexes : table.indexes = before ++ index :: after)
    (hbefore : ∀ earlier ∈ before, ¬ earlier.Refuses (earlier.extractKey old) (earlier.extractKey newRow) rowIdx)
    (hrefuses : index.Refuses (index.extractKey old) (index.extractKey newRow) rowIdx) :
    (∃ err, (table.applyIndexChanges (.update newRow) (some old) rowIdx).1 = .error err) ∧
    (table.applyIndexChanges (.update newRow) (some old) rowIdx).2.indexes =
      before.map (fun earlier => (earlier.update (earlier.extractKey old) (earlier.extractKey newRow) rowIdx).2) ++
        (index.update (index.extractKey old) (index.extractKey newRow) rowIdx).2 :: after := by
  have hok : ∀ earlier ∈ before, (earlier.applyChange (.update newRow) (some old) rowIdx).1 = .ok () :=
    fun earlier hearlier => Index.applyChange_update_ok_iff.mpr (hbefore earlier hearlier)
  cases hresult : (index.applyChange (.update newRow) (some old) rowIdx).1 with
  | ok _ => exact absurd hrefuses (Index.applyChange_update_ok_iff.mp hresult)
  | error err =>
      unfold applyIndexChanges
      rw [hindexes, Loop.updateEach_of_first_error _ hok hresult]
      exact ⟨⟨err, rfl⟩, rfl⟩

theorem exists_first_refuses {err : HelionError}
    (h : (table.applyIndexChanges (.update newRow) (some old) rowIdx).1 = .error err) :
    ∃ before index after, table.indexes = before ++ index :: after ∧
      (∀ earlier ∈ before, ¬ earlier.Refuses (earlier.extractKey old) (earlier.extractKey newRow) rowIdx) ∧
      index.Refuses (index.extractKey old) (index.extractKey newRow) rowIdx := by
  obtain ⟨before, index, after, hindexes, hbefore, hindex⟩ := Loop.exists_first_error _ h
  refine ⟨before, index, after, hindexes, fun earlier hearlier => ?_, ?_⟩
  · exact Index.applyChange_update_ok_iff.mp (hbefore earlier hearlier)
  · by_contra hfree
    rw [Index.applyChange_update_ok_iff.mpr hfree] at hindex
    cases hindex

/-- A failed update entry leaves the indexes as they were exactly where the refusing one and those before it were. -/
theorem indexes_eq_self_iff {before after : List Index} {index : Index}
    (hindexes : table.indexes = before ++ index :: after)
    (hbefore : ∀ earlier ∈ before, ¬ earlier.Refuses (earlier.extractKey old) (earlier.extractKey newRow) rowIdx)
    (hrefuses : index.Refuses (index.extractKey old) (index.extractKey newRow) rowIdx) :
    (table.applyIndexChanges (.update newRow) (some old) rowIdx).2.indexes = table.indexes ↔
      (index.extractKey old, rowIdx) ∉ index.pairs ∧
        ∀ earlier ∈ before, earlier.Settled (earlier.extractKey old) (earlier.extractKey newRow) rowIdx := by
  have hsettled : ∀ earlier ∈ before,
      ((earlier.update (earlier.extractKey old) (earlier.extractKey newRow) rowIdx).2 = earlier ↔
        earlier.Settled (earlier.extractKey old) (earlier.extractKey newRow) rowIdx) := by
    intro earlier hearlier
    apply Index.update_eq_self_iff
    by_contra hfails
    exact hbefore earlier hearlier (Index.not_ok_update_iff.mp hfails)
  rw [(indexes_of_first_refuses hindexes hbefore hrefuses).2, hindexes, ← Index.refused_update_eq_self_iff hrefuses]
  constructor
  · intro hsame
    obtain ⟨hheads, htails⟩ := List.append_inj hsame (List.length_map _)
    refine ⟨(List.cons.inj htails).1, fun earlier hearlier => (hsettled earlier hearlier).mp ?_⟩
    exact List.map_inj_left.mp (hheads.trans (List.map_id before).symm) earlier hearlier
  · rintro ⟨hindex, hearlier⟩
    have hheads : (before.map fun earlier =>
        (earlier.update (earlier.extractKey old) (earlier.extractKey newRow) rowIdx).2) = before.map id :=
      List.map_congr_left fun earlier hmem => (hsettled earlier hmem).mpr (hearlier earlier hmem)
    rw [hindex, hheads, List.map_id]

theorem applyIndexChanges_unchanged_iff :
    (∀ err, (table.applyIndexChanges (.update newRow) (some old) rowIdx).1 = .error err →
      (table.applyIndexChanges (.update newRow) (some old) rowIdx).2.indexes = table.indexes) ↔
      table.FailsUnchanged newRow old rowIdx := by
  constructor
  · intro hunchanged before index after hindexes hbefore hrefuses
    obtain ⟨err, herr⟩ := (indexes_of_first_refuses hindexes hbefore hrefuses).1
    exact (indexes_eq_self_iff hindexes hbefore hrefuses).mp (hunchanged err herr)
  · intro hfails err herr
    obtain ⟨before, index, after, hindexes, hbefore, hrefuses⟩ := exists_first_refuses herr
    exact (indexes_eq_self_iff hindexes hbefore hrefuses).mpr (hfails before index after hindexes hbefore hrefuses)

/-- Without the old row nothing is changed. -/
theorem applyIndexChanges_without_old_row (table : Table) (newRow : Row) (rowIdx : Nat) :
    (table.applyIndexChanges (.update newRow) none rowIdx).2.indexes = table.indexes := by
  show (Loop.updateEach (Index.applyChange (.update newRow) none rowIdx) table.indexes).2 = table.indexes
  cases table.indexes with
  | nil => rfl
  | cons index rest => rfl

/-- When a failed update changes nothing: of an index, exactly where it does not refuse or the row is not under its old
key; of the indexes of a table, exactly where that holds of the first one that refuses and those before it have the row
under the new key already. -/
theorem failed_update_unchanged_iff (index : Index) (oldKey newKey : List Datum) (table : Table) (newRow : Row)
    (oldRow : Option Row) (rowIdx : Nat) :
    ((∀ err, (index.update oldKey newKey rowIdx).1 = .error err → (index.update oldKey newKey rowIdx).2 = index) ↔
      (index.Refuses oldKey newKey rowIdx → (oldKey, rowIdx) ∉ index.pairs)) ∧
    ((∀ err, (table.applyIndexChanges (.update newRow) oldRow rowIdx).1 = .error err →
        (table.applyIndexChanges (.update newRow) oldRow rowIdx).2.indexes = table.indexes) ↔
      ∀ old, oldRow = some old → table.FailsUnchanged newRow old rowIdx) := by
  constructor
  · constructor
    · intro hunchanged hrefuses
      cases hresult : (index.update oldKey newKey rowIdx).1 with
      | ok _ => exact absurd hresult (Index.not_ok_update_iff.mpr hrefuses)
      | error err => exact (Index.refused_update_eq_self_iff hrefuses).mp (hunchanged err hresult)
    · intro hfree err herr
      have hrefuses : index.Refuses oldKey newKey rowIdx := by
        rw [← Index.not_ok_update_iff, herr]
        nofun
      exact (Index.refused_update_eq_self_iff hrefuses).mpr (hfree hrefuses)
  · cases oldRow with
    | none => exact iff_of_true (fun _ _ => applyIndexChanges_without_old_row table newRow rowIdx) nofun
    | some old => simp only [Option.some.injEq, forall_eq', applyIndexChanges_unchanged_iff]

/-- Two rows under two keys of a unique index on the first column. -/
def twoKeys : Index := ((Index.newUnique "i" [0]).insertEntry [.integer 1] 0).insertEntry [.integer 2] 1

/-- A table with this index alone. -/
def twoKeysTable : Table :=
  { name := "t", columns := [.new "a" .integer], versionChains := [], primaryKeyIdx := none, indexes := [twoKeys] }

/-- The refused update of the first row to the key of the second has taken the first row from its own key. -/
theorem failed_update_changes :
    (¬ ∀ (index : Index) (oldKey newKey : List Datum) (rowIdx : Nat) (err : HelionError),
      (index.update oldKey newKey rowIdx).1 = .error err → (index.update oldKey newKey rowIdx).2 = index) ∧
    ¬ ∀ (table : Table) (newRow : Row) (oldRow : Option Row) (rowIdx : Nat) (err : HelionError),
      (table.applyIndexChanges (.update newRow) oldRow rowIdx).1 = .error err →
        (table.applyIndexChanges (.update newRow) oldRow rowIdx).2.indexes = table.indexes := by
  have hlost : (twoKeys.update [.integer 1] [.integer 2] 0).2.get [.integer 1] = none := by decide
  have hheld : twoKeys.get [.integer 1] = some {0} := by decide
  have hchanged : (twoKeys.update [.integer 1] [.integer 2] 0).2 ≠ twoKeys := by
    intro hsame
    rw [hsame, hheld] at hlost
    cases hlost
  constructor
  · intro h
    exact hchanged (h twoKeys [.integer 1] [.integer 2] 0 _ rfl)
  · intro h
    have hsame := h twoKeysTable { values := [.integer 2] } (some { values := [.integer 1] }) 0 _ rfl
    exact hchanged (List.cons.inj hsame).1

end Table

end HelionDb
