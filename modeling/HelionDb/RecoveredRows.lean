import HelionDb.Steady

/-! What the first transaction after recovery sees. The counter starts above every id in the recovered chains, an id of
`u64::MAX` standing for none, and only the transaction 0 is active. So the last version of every row, which is open, is the
one that its snapshot selects. -/

namespace HelionDb

/-- The ids of transactions, up to where two more are still below `u64::MAX`. -/
def TxidInRange (txid : Nat) : Prop := 1 ≤ txid ∧ txid ≤ 2 ^ 64 - 3

/-- A version that one of these has created, and one of these closed where any has. -/
structure RowVersion.InRange (version : RowVersion) : Prop where
  created : TxidInRange version.txidMin
  closed : version.txidMax ≠ u64Max → TxidInRange version.txidMax

/-- A chain with an open last version, by transactions of such ids. -/
structure Recoverable (chain : Chain) : Prop where
  lastOpen : LastOpen chain
  inRange : ∀ version ∈ chain, version.InRange

/-- A record by transactions of such ids, whose chains have open last versions where it has any. -/
def WalRecord.InRange : WalRecord → Prop
  | .insert _ _ txid | .update _ _ _ txid | .delete _ _ txid | .commit txid => TxidInRange txid
  | .checkpoint _ images => ∀ image ∈ images, ∀ chain ∈ image.versionChains, Recoverable chain
  | .createTable _ _ | .dropTable _ | .createUser _ _ | .dropUser _ | .grant _ _ _ | .revoke _ _ _ => True

section

variable {tables : List Table} {records : List WalRecord} {record : WalRecord} {chain : Chain} {txid : Nat}

theorem inRange_of_open {version : RowVersion} (htxid : TxidInRange txid) (hmin : version.txidMin = txid)
    (hopen : version.txidMax = u64Max) : version.InRange :=
  ⟨hmin ▸ htxid, fun hclosed => absurd hopen hclosed⟩

/-- Writing under such an id keeps chains recoverable. -/
theorem recoverable_rule (htxid : TxidInRange txid) : ChainRule txid Recoverable where
  single version hmin hopen := by
    refine ⟨(lastOpen_rule txid).single version hmin hopen, ?_⟩
    intro other hother
    rw [List.mem_singleton.mp hother]
    exact inRange_of_open htxid hmin hopen
  extend chain version h hmin hopen := by
    refine ⟨(lastOpen_rule txid).extend chain version h.lastOpen hmin hopen, ?_⟩
    obtain ⟨prior, latest, rfl, -⟩ := h.lastOpen
    intro other hother
    rw [extendChain, closeLatest_concat] at hother
    simp only [List.mem_append, List.mem_singleton] at hother
    rcases hother with (hprior | rfl) | rfl
    · exact h.inRange other (List.mem_append_left _ hprior)
    · have hlatest := h.inRange latest (List.mem_append_right _ (List.mem_singleton_self _))
      exact ⟨hlatest.created, fun _ => htxid⟩
    · exact inRange_of_open htxid hmin hopen

theorem recoverable_applyWalRecord (htables : AllChains Recoverable tables) (hrecord : record.InRange) :
    AllChains Recoverable (applyWalRecord tables record) := by
  cases record with
  | createTable name columns =>
      rw [applyWalRecord]
      split
      · exact htables
      · exact htables.append_new name columns
  | dropTable name => exact htables.filter _
  | insert name row txid =>
      exact (recoverable_rule hrecord).applyWalRecord htables
        { tableName := name, rowIdx := 0, oldTxidMax := 0, operation := .insert row }
  | update name rowIdx newRow txid =>
      exact (recoverable_rule hrecord).applyWalRecord htables
        { tableName := name, rowIdx, oldTxidMax := 0, operation := .update newRow }
  | delete name rowIdx txid =>
      exact (recoverable_rule hrecord).applyWalRecord htables
        { tableName := name, rowIdx, oldTxidMax := 0, operation := .delete }
  | checkpoint count images =>
      intro table htable
      obtain ⟨image, himage, rfl⟩ := List.mem_map.mp htable
      exact hrecord image himage
  | commit | createUser | dropUser | grant | revoke => exact htables

theorem recoverable_replayRecords (hrecords : ∀ record ∈ records, record.InRange) :
    AllChains Recoverable (replayRecords [] records) := by
  induction records using List.reverseRecOn with
  | nil => exact AllChains.nil _
  | append_singleton done record ih =>
      obtain ⟨hdone, hlast⟩ := List.forall_mem_append.mp hrecords
      rw [replayRecords, List.foldl_append]
      exact recoverable_applyWalRecord (ih hdone) (hlast record (List.mem_singleton_self _))

/-- On open chains of older transactions that are not active, a scan finds the last version of every row. -/
theorem scanVisible_of_lastOpen {table : Table} {active : Finset Nat}
    (h : ∀ chain ∈ table.versionChains, LastOpen chain ∧ ∀ version ∈ chain, version.txidMin ≤ txid ∧ version.txidMin ∉ active) :
    table.scanVisible txid active =
      table.versionChains.zipIdx.filterMap fun (chain, idx) => (liveRow chain).map fun row => (idx, row) := by
  rw [Table.scanVisible]
  apply List.filterMap_congr
  rintro ⟨chain, idx⟩ hentry
  have hmem : chain ∈ table.versionChains := List.mem_of_getElem? (List.mem_zipIdx_iff_getElem?.mp hentry)
  obtain ⟨⟨prior, latest, rfl, hopen⟩, hversions⟩ := h chain hmem
  obtain ⟨hmin, hactive⟩ := hversions latest (List.mem_append_right _ (List.mem_singleton_self _))
  dsimp only
  rw [latestVisible, selectVersion_concat hopen hmin hactive, liveRow, List.getLast?_concat, Option.map_map]
  rfl

namespace DatabaseEngine

/-- The first transaction after recovery has an id above all those that have been recovered, below `u64::MAX`, and sees of
each row the last version. -/
theorem first_sees_recovered (hrecords : ∀ record ∈ records, record.InRange) :
    let recovered := replayRecords [] records
    let first := (MvccStore.withStartId (startIdOf recovered)).beginTransaction.1
    first.txId < u64Max ∧
      (∀ table ∈ recovered, ∀ chain ∈ table.versionChains, ∀ version ∈ chain,
        version.txidMin < first.txId ∧ (version.txidMax ≠ u64Max → version.txidMax < first.txId)) ∧
      ∀ table ∈ recovered, table.scanVisible first.snapshot.txid first.snapshot.active =
        table.versionChains.zipIdx.filterMap fun (chain, idx) => (liveRow chain).map fun row => (idx, row) := by
  intro recovered first
  have hchains : AllChains Recoverable recovered := recoverable_replayRecords hrecords
  have hfirst : first.txId = startIdOf recovered := Nat.max_eq_left (one_le_startIdOf recovered)
  refine ⟨?_, ?_, ?_⟩
  · have hle : startIdOf recovered ≤ 2 ^ 64 - 2 := by
      apply startIdOf_le (by decide)
      intro table htable chain hchain version hversion
      have hversion := (hchains table htable chain hchain).inRange version hversion
      refine ⟨?_, fun hclosed => ?_⟩
      · have hcreated := hversion.created.2
        omega
      · have hupper := (hversion.closed hclosed).2
        omega
    rw [hfirst, u64Max]
    omega
  · intro table htable chain hchain version hversion
    rw [hfirst]
    exact lt_startIdOf htable hchain hversion
  · intro table htable
    apply scanVisible_of_lastOpen
    intro chain hchain
    have hrecoverable := hchains table htable chain hchain
    refine ⟨hrecoverable.lastOpen, fun version hversion => ⟨?_, ?_⟩⟩
    · have hlt := (lt_startIdOf htable hchain hversion).1
      rw [← hfirst] at hlt
      exact hlt.le
    · -- Only the transaction 0 is active, which has created no version.
      have hpositive := (hrecoverable.inRange version hversion).created.1
      exact fun hmem => absurd (Finset.mem_singleton.mp hmem) (Nat.ne_of_gt hpositive)

end DatabaseEngine

end

/-! ### An update and a deletion after a checkpoint -/

namespace DatabaseEngine

/-- A table of two rows. -/
def twoRows : TableImage where
  name := "t"
  columns := [.new "a" .integer]
  versionChains := [[.newInsert 1 { values := [.integer 5] }], [.newInsert 1 { values := [.integer 6] }]]

/-- The two rows of a checkpoint, of which one is updated and the other one deleted. -/
def updateAndDelete : List WalRecord :=
  [.checkpoint 1 [twoRows], .update "t" 0 { values := [.integer 7] } 2, .commit 2, .delete "t" 1 3, .commit 3]

theorem inRange_updateAndDelete : ∀ record ∈ updateAndDelete, record.InRange := by
  have hinserted : ∀ row, Recoverable [.newInsert 1 row] := fun row =>
    (recoverable_rule ⟨le_rfl, by decide⟩).single _ rfl rfl
  intro record hrecord
  simp only [updateAndDelete, List.mem_cons, List.not_mem_nil, or_false] at hrecord
  rcases hrecord with rfl | rfl | rfl | rfl | rfl
  · intro image himage chain hchain
    rw [List.mem_singleton.mp himage] at hchain
    simp only [twoRows, List.mem_cons, List.not_mem_nil, or_false] at hchain
    rcases hchain with rfl | rfl
    · exact hinserted _
    · exact hinserted _
  all_goals exact ⟨by decide, by decide⟩

theorem first_sees_updateAndDelete :
    let recovered := replayRecords [] updateAndDelete
    let first := (MvccStore.withStartId (startIdOf recovered)).beginTransaction.1
    first.txId < u64Max ∧ ∀ table ∈ recovered,
      table.scanVisible first.snapshot.txid first.snapshot.active = [(0, { values := [.integer 7] })] := by
  obtain ⟨hid, -, hscan⟩ := first_sees_recovered inRange_updateAndDelete
  refine ⟨hid, fun table htable => (hscan table htable).trans ?_⟩
  obtain rfl := List.mem_singleton.mp htable
  rfl

end DatabaseEngine

end HelionDb
