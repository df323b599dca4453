import HelionDb.TableIndexes
import Mathlib.Data.List.Dedup

/-! The MVCC store of `mvcc.rs`: transactions, snapshots, the conflict check and the computation of
the new version chains from a write set. Every writer of chains goes through `placeVersion`, which
either closes the latest version of a row and adds one behind it, or opens a new row at the end. -/

namespace HelionDb

structure Snapshot where
  txid : Nat
  active : Finset Nat
  deriving DecidableEq

inductive TransactionStatus where
  | inProgress
  | committed
  | aborted
  deriving DecidableEq, Repr

structure WriteEntry where
  tableName : String
  rowIdx : Nat
  oldTxidMax : Nat
  operation : WriteOp
  deriving DecidableEq, Repr

structure Transaction where
  txId : Nat
  status : TransactionStatus
  snapshot : Snapshot
  writeSet : List WriteEntry
  deriving DecidableEq

namespace Transaction

/-- `Transaction::new`. -/
def new (txId : Nat) (snapshot : Snapshot) : Transaction :=
  { txId, status := .inProgress, snapshot, writeSet := [] }

def addWrite (tx : Transaction) (entry : WriteEntry) : Transaction :=
  { tx with writeSet := tx.writeSet ++ [entry] }

/-- The tables a write set names, each once. -/
def tableNames (tx : Transaction) : List String := (tx.writeSet.map (·.tableName)).dedup

/-- The entries of the write set for one table, in order. -/
def entriesOf (tx : Transaction) (name : String) : List WriteEntry :=
  tx.writeSet.filter fun entry => entry.tableName == name

theorem mem_tableNames {tx : Transaction} {name : String} :
    name ∈ tx.tableNames ↔ ∃ entry ∈ tx.writeSet, entry.tableName = name := by
  simp [tableNames]

theorem nodup_tableNames (tx : Transaction) : tx.tableNames.Nodup := List.nodup_dedup _

theorem mem_entriesOf {tx : Transaction} {name : String} {entry : WriteEntry} :
    entry ∈ tx.entriesOf name ↔ entry ∈ tx.writeSet ∧ entry.tableName = name := by
  simp [entriesOf]

theorem entriesOf_eq_nil {tx : Transaction} {name : String} (hname : name ∉ tx.tableNames) :
    tx.entriesOf name = [] := by
  refine List.filter_eq_nil_iff.mpr fun entry hentry hsame => hname (mem_tableNames.mpr ⟨entry, hentry, ?_⟩)
  simpa using hsame

end Transaction

/-- The order in which a run iterates over the keys of a hash map: any permutation of them. -/
structure HashOrder where
  order : List String → List String
  perm : ∀ names, (order names).Perm names

/-- The order that leaves the keys as they come. -/
def HashOrder.asGiven : HashOrder where
  order := id
  perm := fun names => List.Perm.refl names

@[simp] theorem HashOrder.mem_order (order : HashOrder) {names : List String} {name : String} :
    name ∈ order.order names ↔ name ∈ names := (order.perm names).mem_iff

theorem HashOrder.nodup (order : HashOrder) {names : List String} (hnodup : names.Nodup) :
    (order.order names).Nodup := (order.perm names).nodup_iff.mpr hnodup

/-- `MvccStore`: the id counter, a `u64`, and the set of running transactions. -/
structure MvccStore where
  nextTxid : Nat
  activeTxns : Finset Nat

namespace MvccStore

/-- `MvccStore::with_start_id`: id 0 never leaves the active set. -/
def withStartId (startId : Nat) : MvccStore := { nextTxid := max startId 1, activeTxns := {0} }

/-- `MvccStore::begin_transaction`; `fetch_add` wraps. -/
def beginTransaction (store : MvccStore) : Transaction × MvccStore :=
  (Transaction.new store.nextTxid { txid := store.nextTxid, active := store.activeTxns },
    { nextTxid := (store.nextTxid + 1) % 2 ^ 64, activeTxns := insert store.nextTxid store.activeTxns })

/-- `MvccStore::commit_transaction`. -/
def commitTransaction (store : MvccStore) (tx : Transaction) : MvccStore :=
  { store with activeTxns := store.activeTxns.erase tx.txId }

/-- `MvccStore::rollback_transaction`. -/
def rollbackTransaction (store : MvccStore) (tx : Transaction) : MvccStore :=
  { store with activeTxns := store.activeTxns.erase tx.txId }

end MvccStore

/-- Set `txid_max` of the last version of a chain. -/
def closeLatest (txid : Nat) : Chain → Chain
  | [] => []
  | [latest] => [{ latest with txidMax := txid }]
  | version :: rest => version :: closeLatest txid rest

@[simp] theorem closeLatest_concat (txid : Nat) (prior : Chain) (latest : RowVersion) :
    closeLatest txid (prior ++ [latest]) = prior ++ [{ latest with txidMax := txid }] := by
  induction prior with
  | nil => rfl
  | cons version rest ih =>
      cases rest with
      | nil => rfl
      | cons next rest => exact congrArg (List.cons version) ih

@[simp] theorem closeLatest_length (txid : Nat) (chain : Chain) :
    (closeLatest txid chain).length = chain.length := by
  rcases List.eq_nil_or_concat chain with rfl | ⟨prior, latest, rfl⟩
  · rfl
  · simp

/-- Close the latest version of a chain and put the next one behind it. -/
def extendChain (txid : Nat) (version : RowVersion) (chain : Chain) : Chain :=
  closeLatest txid chain ++ [version]

/-- Place a version: behind the latest one of its row, or in a new row at the end. -/
def placeVersion (txid : Nat) (chains : List Chain) (change : Nat × RowVersion) : List Chain :=
  if change.1 < chains.length then chains.modify change.1 (extendChain txid change.2)
  else chains ++ [[change.2]]

/-- Place a list of versions in order. -/
def placeAll (txid : Nat) (chains : List Chain) (changes : List (Nat × RowVersion)) : List Chain :=
  changes.foldl (placeVersion txid) chains

section Placement

variable {txid : Nat} {chains : List Chain} {rowIdx : Nat} {version : RowVersion}

@[simp] theorem placeAll_nil (txid : Nat) (chains : List Chain) : placeAll txid chains [] = chains := rfl

theorem placeAll_cons (txid : Nat) (chains : List Chain) (change : Nat × RowVersion)
    (rest : List (Nat × RowVersion)) :
    placeAll txid chains (change :: rest) = placeAll txid (placeVersion txid chains change) rest := rfl

theorem placeAll_append (txid : Nat) (chains : List Chain) (first second : List (Nat × RowVersion)) :
    placeAll txid chains (first ++ second) = placeAll txid (placeAll txid chains first) second :=
  List.foldl_append

theorem placeVersion_of_lt (hrow : rowIdx < chains.length) :
    placeVersion txid chains (rowIdx, version) = chains.modify rowIdx (extendChain txid version) :=
  if_pos hrow

theorem placeVersion_of_le (hrow : chains.length ≤ rowIdx) :
    placeVersion txid chains (rowIdx, version) = chains ++ [[version]] :=
  if_neg (Nat.not_lt.mpr hrow)

theorem length_le_placeVersion (txid : Nat) (chains : List Chain) (change : Nat × RowVersion) :
    chains.length ≤ (placeVersion txid chains change).length := by
  unfold placeVersion
  split <;> simp

theorem length_le_placeAll (txid : Nat) (chains : List Chain) (changes : List (Nat × RowVersion)) :
    chains.length ≤ (placeAll txid chains changes).length := by
  induction changes generalizing chains with
  | nil => exact le_rfl
  | cons change rest ih => exact (length_le_placeVersion txid chains change).trans (ih _)

/-- A version that is placed leaves the other rows alone. -/
theorem getElem?_placeVersion_of_ne {other : Nat} (hother : other < chains.length)
    (hne : other ≠ rowIdx) :
    (placeVersion txid chains (rowIdx, version))[other]? = chains[other]? := by
  rcases Nat.lt_or_ge rowIdx chains.length with hrow | hrow
  · rw [placeVersion_of_lt hrow, List.getElem?_modify_ne _ _ (Ne.symm hne)]
  · rw [placeVersion_of_le hrow, List.getElem?_append_left hother]

theorem getElem?_placeVersion_self (hrow : rowIdx < chains.length) :
    (placeVersion txid chains (rowIdx, version))[rowIdx]? =
      some (extendChain txid version chains[rowIdx]) := by
  rw [placeVersion_of_lt hrow, List.getElem?_modify_eq, List.getElem?_eq_getElem hrow]
  rfl

theorem getElem?_placeVersion_new (hrow : chains.length ≤ rowIdx) :
    (placeVersion txid chains (rowIdx, version))[chains.length]? = some [version] := by
  rw [placeVersion_of_le hrow, List.getElem?_concat_length]

/-- A chain of the outcome is an old chain, an old chain extended, or a new one. -/
theorem mem_placeVersion {chain : Chain} (hmem : chain ∈ placeVersion txid chains (rowIdx, version)) :
    chain ∈ chains ∨ (∃ old ∈ chains, chain = extendChain txid version old) ∨ chain = [version] := by
  rcases Nat.lt_or_ge rowIdx chains.length with hrow | hrow
  · rw [placeVersion_of_lt hrow, List.mem_iff_getElem?] at hmem
    obtain ⟨position, hposition⟩ := hmem
    rw [List.getElem?_modify] at hposition
    cases hold : chains[position]? with
    | none => simp [hold] at hposition
    | some old =>
        have hmem := List.mem_of_getElem? hold
        rw [hold] at hposition
        have hchain := Option.some.inj hposition
        dsimp only at hchain
        split at hchain
        · exact Or.inr (Or.inl ⟨old, hmem, hchain.symm⟩)
        · exact Or.inl (hchain ▸ hmem)
  · rw [placeVersion_of_le hrow, List.mem_append, List.mem_singleton] at hmem
    exact hmem.elim Or.inl fun hnew => Or.inr (Or.inr hnew)

end Placement

/-! ### Conflict check and new chains -/

/-- The entry's part of `check_conflicts`: the creator of the row's current version, when it was
active in the snapshot. -/
def conflictOf (active : Finset Nat) (tables : String → Option Table) (entry : WriteEntry) : Option Nat :=
  match tables entry.tableName with
  | none => none
  | some table =>
      match table.versionChains[entry.rowIdx]? with
      | none => none
      | some chain =>
          match currentVersion chain with
          | none => none
          | some version => if version.txidMin ∈ active then some version.txidMin else none

/-- `MvccStore::check_conflicts`. -/
def checkConflicts (tx : Transaction) (tables : String → Option Table) : Except Nat Unit :=
  match tx.writeSet.findSome? (conflictOf tx.snapshot.active tables) with
  | some other => .error other
  | none => .ok ()

theorem checkConflicts_ok_iff {tx : Transaction} {tables : String → Option Table} :
    checkConflicts tx tables = .ok () ↔
      ∀ entry ∈ tx.writeSet, conflictOf tx.snapshot.active tables entry = none := by
  unfold checkConflicts
  split
  · rename_i other hfound
    obtain ⟨entry, hentry, hconflict⟩ := List.exists_of_findSome?_eq_some hfound
    constructor
    · intro hok
      cases hok
    · intro hnone
      rw [hnone entry hentry] at hconflict
      cases hconflict
  · rename_i hnone
    exact ⟨fun _ => List.findSome?_eq_none_iff.mp hnone, fun _ => rfl⟩

/-- The version a write entry creates: a deletion repeats the latest row of the snapshot and is
dropped when the snapshot has no such row. -/
def entryVersion (txId : Nat) (tables : String → Option Table) (entry : WriteEntry) :
    Option (Nat × RowVersion) :=
  match entry.operation with
  | .insert row => some (entry.rowIdx, .newInsert txId row)
  | .update row => some (entry.rowIdx, .newUpdate txId row)
  | .delete =>
      match tables entry.tableName with
      | none => none
      | some table =>
          match table.versionChains[entry.rowIdx]? with
          | none => none
          | some chain => chain.getLast?.map fun latest => (entry.rowIdx, .newDelete txId latest.row)

/-- The changes a write set makes to the table of a name. -/
def tableChanges (tx : Transaction) (tables : String → Option Table) (name : String) :
    List (Nat × RowVersion) :=
  (tx.entriesOf name).filterMap (entryVersion tx.txId tables)

/-- The chains after an entry. -/
def placeEntry (txId : Nat) (tables : String → Option Table) (chains : List Chain) (entry : WriteEntry) :
    List Chain :=
  placeAll txId chains (entryVersion txId tables entry).toList

/-- `MvccStore::apply_write_set` at one key of its result: the new chains of a named table. -/
def applyWriteSet (tx : Transaction) (tables : String → Option Table) (name : String) :
    Option (List Chain) :=
  if name ∈ tx.tableNames then
    (tables name).map fun table => placeAll tx.txId table.versionChains (tableChanges tx tables name)
  else none

theorem entryVersion_some {txId : Nat} {tables : String → Option Table} {entry : WriteEntry}
    {change : Nat × RowVersion} (h : entryVersion txId tables entry = some change) :
    change.1 = entry.rowIdx ∧ change.2.txidMin = txId ∧ change.2.txidMax = u64Max := by
  unfold entryVersion at h
  split at h
  · cases h
    exact ⟨rfl, rfl, rfl⟩
  · cases h
    exact ⟨rfl, rfl, rfl⟩
  · split at h
    · cases h
    · split at h
      · cases h
      · obtain ⟨latest, _, rfl⟩ := Option.map_eq_some_iff.mp h
        exact ⟨rfl, rfl, rfl⟩

/-- A deletion of a row of the copy repeats its latest row. -/
theorem entryVersion_delete {txId : Nat} {tables : String → Option Table} {entry : WriteEntry} {copy : Table}
    (hoperation : entry.operation = .delete) (hcopy : tables entry.tableName = some copy)
    (hrow : entry.rowIdx < copy.versionChains.length) {prior : Chain} {latest : RowVersion}
    (hlast : copy.versionChains[entry.rowIdx] = prior ++ [latest]) :
    entryVersion txId tables entry = some (entry.rowIdx, .newDelete txId latest.row) := by
  rw [entryVersion, hoperation, hcopy]
  dsimp only
  rw [List.getElem?_eq_getElem hrow, hlast]
  exact congrArg (Option.map _) List.getLast?_concat

/-- A version is created from the entry's own table alone. -/
theorem entryVersion_congr {txId : Nat} {tables tables' : String → Option Table} {entry : WriteEntry}
    (h : tables entry.tableName = tables' entry.tableName) :
    entryVersion txId tables entry = entryVersion txId tables' entry := by
  simp only [entryVersion, h]

theorem length_le_placeEntry (txId : Nat) (tables : String → Option Table) (chains : List Chain)
    (entry : WriteEntry) : chains.length ≤ (placeEntry txId tables chains entry).length :=
  length_le_placeAll _ _ _

/-- Placing the versions of a list of entries is placing them entry by entry. -/
theorem placeAll_filterMap_cons (txId : Nat) (tables : String → Option Table) (chains : List Chain)
    (entry : WriteEntry) (rest : List WriteEntry) :
    placeAll txId chains ((entry :: rest).filterMap (entryVersion txId tables)) =
      placeAll txId (placeEntry txId tables chains entry) (rest.filterMap (entryVersion txId tables)) := by
  rw [placeEntry, ← placeAll_append, List.filterMap_cons]
  congr 1
  split
  · rename_i hnone
    rw [hnone]
    rfl
  · rename_i change hchange
    rw [hchange]
    rfl

/-- An entry leaves the other rows alone. -/
theorem getElem?_placeEntry_of_ne {txId : Nat} {tables : String → Option Table} {chains : List Chain}
    {entry : WriteEntry} {other : Nat} (hother : other < chains.length) (hne : other ≠ entry.rowIdx) :
    (placeEntry txId tables chains entry)[other]? = chains[other]? := by
  unfold placeEntry
  cases hversion : entryVersion txId tables entry with
  | none => rfl
  | some change =>
      obtain ⟨rowIdx, version⟩ := change
      obtain rfl : rowIdx = entry.rowIdx := (entryVersion_some hversion).1
      exact getElem?_placeVersion_of_ne hother hne

theorem tableChanges_congr {tx : Transaction} {tables tables' : String → Option Table} {name : String}
    (h : tables name = tables' name) : tableChanges tx tables name = tableChanges tx tables' name := by
  refine List.filterMap_congr fun entry hentry => entryVersion_congr ?_
  rw [(Transaction.mem_entriesOf.mp hentry).2, h]

theorem mem_tableChanges {tx : Transaction} {tables : String → Option Table} {name : String}
    {change : Nat × RowVersion} (h : change ∈ tableChanges tx tables name) :
    change.2.txidMin = tx.txId ∧ change.2.txidMax = u64Max ∧
      ∃ entry ∈ tx.entriesOf name, entry.rowIdx = change.1 := by
  obtain ⟨entry, hentry, hversion⟩ := List.mem_filterMap.mp h
  obtain ⟨hrow, hmin, hmax⟩ := entryVersion_some hversion
  exact ⟨hmin, hmax, entry, hentry, hrow.symm⟩

end HelionDb
