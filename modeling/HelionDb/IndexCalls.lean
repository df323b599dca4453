import HelionDb.Btree
import HelionDb.Histories

/-! Runs of calls on one index, from the empty one on. A call may fail, and the run goes on. A unique index never has
two rows under one key, whatever the calls. Where no update fails, an index of any kind has a row under a key exactly
when a call that succeeded put it there and no later one took it away. -/

namespace HelionDb

/-- A call of one of the methods that change an index. -/
inductive IndexCall where
  | insert (key : List Datum) (rowIdx : Nat)
  | remove (key : List Datum) (rowIdx : Nat)
  | update (oldKey newKey : List Datum) (rowIdx : Nat)

namespace IndexCall

/-- What a call returns and the index that it leaves. -/
def perform (index : Index) : IndexCall → Loop.Outcome HelionError Index
  | insert key rowIdx => index.insert key rowIdx
  | remove key rowIdx => (.ok (), index.remove key rowIdx)
  | update oldKey newKey rowIdx => index.update oldKey newKey rowIdx

/-- The call is made to put a row under a key. -/
def IsFor (pair : List Datum × Nat) : IndexCall → Prop
  | insert key rowIdx => pair = (key, rowIdx)
  | remove _ _ => False
  | update _ newKey rowIdx => pair = (newKey, rowIdx)

/-- The call takes a row away from a key. -/
def Takes : IndexCall → List Datum × Nat → Prop
  | insert _ _, _ => False
  | remove key rowIdx, pair => pair = (key, rowIdx)
  | update oldKey _ rowIdx, pair => pair = (oldKey, rowIdx)

/-- The call puts a row under a key: it is made for that, and it succeeds. -/
def Puts (index : Index) (call : IndexCall) (pair : List Datum × Nat) : Prop :=
  call.IsFor pair ∧ (call.perform index).1 = .ok ()

/-- The call is no update that fails. -/
def NoFailedUpdate (index : Index) : IndexCall → Prop
  | update oldKey newKey rowIdx => (index.update oldKey newKey rowIdx).1 = .ok ()
  | insert _ _ | remove _ _ => True

end IndexCall

namespace Index

/-- The index after a call, also one that fails. -/
def after (index : Index) (call : IndexCall) : Index := (call.perform index).2

/-- The index after a run of calls. -/
def runCalls (index : Index) (calls : List IndexCall) : Index := calls.foldl after index

/-- All update calls of the run return Ok. -/
def UpdatesSucceed (index : Index) (calls : List IndexCall) : Prop :=
  Histories.AllAlong after IndexCall.NoFailedUpdate index calls

/-- A successful insert or update of the run put the row under the key, and no later remove or update took it away. -/
def PutAndKept (index : Index) (calls : List IndexCall) (key : List Datum) (rowIdx : Nat) : Prop :=
  Histories.PutAndKept after IndexCall.Puts IndexCall.Takes index calls (key, rowIdx)

section Step

variable {index : Index} {key oldKey newKey : List Datum} {rowIdx : Nat}

/-- An insert that is refused leaves the index as it is. -/
theorem insert_of_not_ok (h : (index.insert key rowIdx).1 ≠ .ok ()) : (index.insert key rowIdx).2 = index := by
  unfold insert at h ⊢
  split
  · split
    · rfl
    · rename_i hget hfree
      simp only [hget, hfree, if_false] at h
      exact absurd rfl h
  · rename_i hget
    simp only [hget] at h
    exact absurd rfl h

theorem mem_pairs_insert (hok : (index.insert key rowIdx).1 = .ok ()) (pair : List Datum × Nat) :
    pair ∈ (index.insert key rowIdx).2.pairs ↔ pair = (key, rowIdx) ∨ pair ∈ index.pairs := by
  rw [insert_of_ok hok, pairs_insertEntry, KeyPairs.mem_apply_add]

theorem mem_pairs_update (hok : (index.update oldKey newKey rowIdx).1 = .ok ()) (pair : List Datum × Nat) :
    pair ∈ (index.update oldKey newKey rowIdx).2.pairs ↔
      pair = (newKey, rowIdx) ∨ (pair ∈ index.pairs ∧ pair ≠ (oldKey, rowIdx)) := by
  rw [update] at hok ⊢
  rw [mem_pairs_insert hok, pairs_remove, KeyPairs.mem_apply_drop]

/-- What one call that is no failed update does to the pairs of an index. -/
theorem mem_pairs_after {call : IndexCall} (hgood : call.NoFailedUpdate index) (pair : List Datum × Nat) :
    pair ∈ (index.after call).pairs ↔ call.Puts index pair ∨ (pair ∈ index.pairs ∧ ¬ call.Takes pair) := by
  cases call with
  | insert key rowIdx =>
      by_cases hok : (index.insert key rowIdx).1 = .ok ()
      · have hpairs := mem_pairs_insert hok pair
        simpa [after, IndexCall.perform, IndexCall.Puts, IndexCall.IsFor, IndexCall.Takes, hok] using hpairs
      · have hsame := insert_of_not_ok hok
        simp [after, IndexCall.perform, IndexCall.Puts, IndexCall.IsFor, IndexCall.Takes, hok, hsame]
  | remove key rowIdx =>
      simp [after, IndexCall.perform, IndexCall.Puts, IndexCall.IsFor, IndexCall.Takes]
  | update oldKey newKey rowIdx =>
      have hok : (index.update oldKey newKey rowIdx).1 = .ok () := hgood
      have hpairs := mem_pairs_update hok pair
      simpa [after, IndexCall.perform, IndexCall.Puts, IndexCall.IsFor, IndexCall.Takes, hok] using hpairs

/-- A unique index that has one row under a key at most still has so after an insert, also one that is refused. -/
theorem uniqueKeys_insert (hunique : index.definition.isUnique = true) (hkeys : KeyPairs.UniqueKeys index.pairs) :
    KeyPairs.UniqueKeys (index.insert key rowIdx).2.pairs := by
  by_cases hok : (index.insert key rowIdx).1 = .ok ()
  · rw [insert_of_ok hok, pairs_insertEntry]
    apply hkeys.apply
    rw [← hunique]
    exact insert_ok_iff.mp hok
  · rw [insert_of_not_ok hok]
    exact hkeys

theorem uniqueKeys_remove (hkeys : KeyPairs.UniqueKeys index.pairs) :
    KeyPairs.UniqueKeys (index.remove key rowIdx).pairs := by
  rw [pairs_remove]
  exact hkeys.apply trivial

/-- A unique index, with one row under a key at most. -/
def OneRowPerKey (index : Index) : Prop := index.definition.isUnique = true ∧ KeyPairs.UniqueKeys index.pairs

/-- Every call keeps a unique index at one row under a key: a failed update has only taken a row away. -/
theorem OneRowPerKey.after (h : OneRowPerKey index) (call : IndexCall) : OneRowPerKey (index.after call) := by
  obtain ⟨hunique, hkeys⟩ := h
  cases call with
  | insert key rowIdx =>
      exact ⟨(congrArg _ (insert_definition index key rowIdx)).trans hunique, uniqueKeys_insert hunique hkeys⟩
  | remove key rowIdx =>
      exact ⟨(congrArg _ (remove_definition index key rowIdx)).trans hunique, uniqueKeys_remove hkeys⟩
  | update oldKey newKey rowIdx =>
      have hremoved : (index.remove oldKey rowIdx).definition.isUnique = true := by rwa [remove_definition]
      exact ⟨(congrArg _ (insert_definition _ newKey rowIdx)).trans hremoved,
        uniqueKeys_insert hremoved (uniqueKeys_remove hkeys)⟩

theorem OneRowPerKey.card_eq_one (h : OneRowPerKey index) {rows : Finset Nat} (hget : index.get key = some rows) :
    rows.card = 1 := by
  obtain ⟨rowIdx, hrow⟩ := Finset.nonempty_iff_ne_empty.mpr (index.entries_nonempty key rows hget)
  apply Finset.card_eq_one.mpr
  refine ⟨rowIdx, Finset.eq_singleton_iff_unique_mem.mpr ⟨hrow, fun other hother => ?_⟩⟩
  exact h.2 key other rowIdx ((mem_pairs_of_get hget).mpr hother) ((mem_pairs_of_get hget).mpr hrow)

end Step

section Runs

variable {definition : IndexMeta} {calls : List IndexCall}

theorem oneRowPerKey_runCalls (hunique : definition.isUnique = true) :
    OneRowPerKey ((new definition).runCalls calls) := by
  apply Histories.foldl_keeps (P := OneRowPerKey) fun index call hkeys => hkeys.after call
  refine ⟨hunique, ?_⟩
  rw [pairs_new]
  exact fun key row other hrow => absurd hrow (Set.notMem_empty _)

theorem mem_pairs_runCalls (hupdates : (new definition).UpdatesSucceed calls) (key : List Datum) (rowIdx : Nat) :
    (key, rowIdx) ∈ ((new definition).runCalls calls).pairs ↔ (new definition).PutAndKept calls key rowIdx := by
  apply Histories.holds_iff_putAndKept (P := fun (index : Index) pair => pair ∈ index.pairs) _ _ hupdates
  · intro index call hgood pair
    exact mem_pairs_after hgood pair
  · intro pair
    rw [pairs_new]
    exact Set.notMem_empty pair

/-- From the empty index on: a unique index has one row under every key it has, whatever the calls; and where no update
fails, an index has the rows under a key that were put there and kept, and no key without rows. -/
theorem runCalls_new (definition : IndexMeta) (calls : List IndexCall) :
    (definition.isUnique = true →
      ∀ key rows, ((new definition).runCalls calls).get key = some rows → rows.card = 1) ∧
    ((new definition).UpdatesSucceed calls →
      (∀ key rowIdx, (∃ rows, ((new definition).runCalls calls).get key = some rows ∧ rowIdx ∈ rows) ↔
        (new definition).PutAndKept calls key rowIdx) ∧
      ∀ key, ((new definition).runCalls calls).get key ≠ some ∅) := by
  constructor
  · intro hunique key rows hget
    exact (oneRowPerKey_runCalls hunique).card_eq_one hget
  · intro hupdates
    refine ⟨fun key rowIdx => mem_pairs_runCalls hupdates key rowIdx, fun key hempty => ?_⟩
    exact ((new definition).runCalls calls).entries_nonempty key ∅ hempty rfl

theorem runCalls_new_moved :
    (∀ key rows,
      ((new { name := "i", columns := [0], isUnique := true }).runCalls [.insert [.integer 1] 0, .insert [.integer 1] 1,
        .update [.integer 1] [.integer 2] 0]).get key = some rows → rows.card = 1) ∧
    ∃ rows,
      ((new { name := "i", columns := [0], isUnique := true }).runCalls [.insert [.integer 1] 0, .insert [.integer 1] 1,
        .update [.integer 1] [.integer 2] 0]).get [.integer 2] = some rows ∧ 0 ∈ rows := by
  obtain ⟨hunique, hkept⟩ := runCalls_new { name := "i", columns := [0], isUnique := true }
    [.insert [.integer 1] 0, .insert [.integer 1] 1, .update [.integer 1] [.integer 2] 0]
  refine ⟨hunique rfl, ((hkept ⟨trivial, trivial, ?_, trivial⟩).1 [.integer 2] 0).mpr ?_⟩
  · rw [IndexCall.NoFailedUpdate]
    decide
  · exact ⟨[.insert [.integer 1] 0, .insert [.integer 1] 1], .update [.integer 1] [.integer 2] 0, [], rfl,
      ⟨rfl, by decide⟩, nofun⟩

end Runs

end Index

end HelionDb
