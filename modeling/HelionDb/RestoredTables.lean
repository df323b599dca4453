import HelionDb.StoppedFlushes

/-! A table that is restored on the disk engine. The directory gets the schema and a base and keeps the files it has, of
which the loader reads the highest base and the deltas above it. So an older state of a table stands only where no file is
named by a later transaction. -/

namespace HelionDb

namespace TableDir

/-- What `restore_table` writes: the schema and a base. -/
def restoreTable (dir : TableDir) (table : Table) : TableDir :=
  ({ dir with schema := some (table.name, table.columns) } : TableDir).writeBase table

/-- No file has a later transaction than the rows. Deltas without changes do no harm, and a base named 0, which the loader
passes over, does none where there are no rows. -/
structure Overwritten (dir : TableDir) (chains : List Chain) : Prop where
  bases : ∀ base ∈ dir.bases, base.1 ≤ lastWriter chains
  deltas : ∀ delta ∈ dir.deltas, lastWriter chains < delta.1 → delta.2 = []
  written : lastWriter chains = 0 → chains = []

section

variable {dir : TableDir} {table : Table} {changes : List (Nat × RowVersion)} {txid : Nat}

theorem Named.restoreTable (h : dir.Named) (table : Table) : (dir.restoreTable table).Named := by
  refine ⟨?_, h.deltas⟩
  intro base hbase
  rcases List.mem_append.mp hbase with hold | hone
  · exact h.bases base (List.mem_filter.mp hold).1
  · rw [List.mem_singleton.mp hone]

theorem mem_bases_restoreTable : (lastWriter table.versionChains, table) ∈ (dir.restoreTable table).bases :=
  List.mem_append_right _ (List.mem_singleton_self _)

/-- Every base is loaded that is not older than the others. -/
theorem latestBase_restoreTable (hbases : ∀ base ∈ dir.bases, base.1 ≤ lastWriter table.versionChains) :
    (dir.restoreTable table).latestBase.1 = lastWriter table.versionChains ∧
      (dir.restoreTable table).baseChains = if lastWriter table.versionChains = 0 then [] else table.versionChains := by
  have hlow := le_latestBase (@mem_bases_restoreTable dir table)
  dsimp only at hlow
  rcases @latestBase_cases (dir.restoreTable table) with hnone | ⟨base, hmem, hpos, hlatest⟩
  · rw [hnone] at hlow
    have hzero : lastWriter table.versionChains = 0 := Nat.le_zero.mp hlow
    rw [baseChains, hnone, hzero, if_pos rfl]
    exact ⟨rfl, rfl⟩
  · rw [hlatest] at hlow
    have hbase : base = (lastWriter table.versionChains, table) := by
      rcases List.mem_append.mp hmem with hold | hone
      · obtain ⟨hdir, hne⟩ := List.mem_filter.mp hold
        exact absurd (Nat.le_antisymm (hbases base hdir) hlow) (of_decide_eq_true hne)
      · exact List.mem_singleton.mp hone
    subst hbase
    rw [baseChains, hlatest, if_neg (Nat.ne_of_gt hpos)]
    exact ⟨rfl, rfl⟩

theorem changesOf_newerDeltas_eq_nil_iff :
    changesOf dir.newerDeltas = [] ↔ ∀ delta ∈ dir.deltas, dir.latestBase.1 < delta.1 → delta.2 = [] := by
  simp only [changesOf, List.flatMap_eq_nil_iff, mem_newerDeltas, and_imp]

/-- Loading gives the restored rows exactly where they overwrite what was there. -/
theorem loadedChains_restoreTable_iff (hnamed : dir.Named) :
    (dir.restoreTable table).loadedChains = table.versionChains ↔ dir.Overwritten table.versionChains := by
  constructor
  · intro hloaded
    have hnew := hnamed.restoreTable table
    have hlatest := latestBase_le_lastWriter hnew
    rw [hloaded] at hlatest
    have hbases : ∀ base ∈ dir.bases, base.1 ≤ lastWriter table.versionChains := by
      intro base hbase
      by_cases hsame : base.1 = lastWriter table.versionChains
      · exact hsame.le
      · have hmem : base ∈ (dir.restoreTable table).bases :=
          List.mem_append_left _ (List.mem_filter.mpr ⟨hbase, decide_eq_true hsame⟩)
        exact (le_latestBase hmem).trans hlatest
    obtain ⟨hid, hbase⟩ := latestBase_restoreTable hbases
    have hchanges : changesOf (dir.restoreTable table).newerDeltas = [] := by
      by_contra hne
      -- The last of these changes writes a row, later than any of the rows that are restored.
      have hlater : lastWriter table.versionChains + 1 ≤ lastWriter (dir.restoreTable table).loadedChains := by
        apply le_lastWriter_replay hne
        intro change hchange
        have hlt := lt_of_mem_newerDeltas hnew hchange
        rwa [hid] at hlt
      rw [hloaded] at hlater
      omega
    refine ⟨hbases, ?_, ?_⟩
    · have hdeltas := changesOf_newerDeltas_eq_nil_iff.mp hchanges
      rwa [hid] at hdeltas
    · intro hzero
      rw [loadedChains, hchanges, replay_nil, hbase, if_pos hzero] at hloaded
      exact hloaded.symm
  · intro h
    obtain ⟨hid, hbase⟩ := latestBase_restoreTable h.bases
    have hchanges : changesOf (dir.restoreTable table).newerDeltas = [] := by
      rw [changesOf_newerDeltas_eq_nil_iff, hid]
      exact h.deltas
    rw [loadedChains, hchanges, replay_nil, hbase]
    split
    · exact (h.written ‹_›).symm
    · rfl

/-- One delta with changes among deltas without. -/
theorem changesOf_of_perm {deltas quiet : List (Nat × List (Nat × RowVersion))} {delta : Nat × List (Nat × RowVersion)}
    (hperm : deltas.Perm (delta :: quiet)) (hquiet : ∀ other ∈ quiet, other.2 = []) : changesOf deltas = delta.2 := by
  obtain ⟨before, after, rfl⟩ := List.append_of_mem (hperm.mem_iff.mpr List.mem_cons_self)
  have hrest : (before ++ after).Perm quiet := (List.perm_middle.symm.trans hperm).cons_inv
  have hnone : ∀ other ∈ before ++ after, other.2 = [] := fun other hother => hquiet other (hrest.mem_iff.mp hother)
  have hbefore : changesOf before = [] := List.flatMap_eq_nil_iff.mpr fun other h => hnone other (List.mem_append_left _ h)
  have hafter : changesOf after = [] := List.flatMap_eq_nil_iff.mpr fun other h => hnone other (List.mem_append_right _ h)
  calc
    changesOf (before ++ delta :: after) = changesOf before ++ (delta.2 ++ changesOf after) := changesOf_append _ _
    _ = delta.2 := by rw [hbefore, hafter, List.nil_append, List.append_nil]

/-- Over restored rows, a later delta is loaded exactly where its file is not there yet. -/
theorem loadedChains_restoreTable_writeDelta_iff (h : dir.Overwritten table.versionChains)
    (hlater : lastWriter table.versionChains < txid) (hne : changes ≠ []) :
    ((dir.restoreTable table).writeDelta changes txid).loadedChains = replay table.versionChains changes ↔
      txid ∉ dir.deltas.map Prod.fst := by
  obtain ⟨hid, hbase⟩ := latestBase_restoreTable h.bases
  have hchains : (dir.restoreTable table).baseChains = table.versionChains := by
    rw [hbase]
    split
    · exact (h.written ‹_›).symm
    · rfl
  by_cases hthere : txid ∈ dir.deltas.map Prod.fst
  · have hskipped : (dir.restoreTable table).writeDelta changes txid = dir.restoreTable table := by
      apply if_pos
      obtain ⟨delta, hdelta, heq⟩ := List.mem_map.mp hthere
      exact List.any_eq_true.mpr ⟨delta, hdelta, decide_eq_true heq⟩
    have hchanges : changesOf (dir.restoreTable table).newerDeltas = [] := by
      rw [changesOf_newerDeltas_eq_nil_iff, hid]
      exact h.deltas
    rw [hskipped, loadedChains, hchanges, replay_nil, hchains]
    exact iff_of_false (fun heq => replay_ne_self hne heq.symm) (not_not_intro hthere)
  · refine iff_of_true ?_ hthere
    have hfresh : txid ∉ (dir.restoreTable table).deltas.map Prod.fst := hthere
    have hnewer : ((dir.restoreTable table).writeDelta changes txid).newerDeltas.Perm
        ((txid, changes) :: (dir.restoreTable table).newerDeltas) := by
      rw [writeDelta_of_fresh hfresh]
      have hone : ([(txid, changes)].filter fun delta => (dir.restoreTable table).latestBase.1 < delta.1) = [(txid, changes)] :=
        List.filter_cons_of_pos (by simpa [hid] using hlater)
      have hsort := List.perm_insertionSort (fun left right : Nat × List (Nat × RowVersion) => left.1 ≤ right.1)
        (((dir.restoreTable table).deltas ++ [(txid, changes)]).filter fun delta => (dir.restoreTable table).latestBase.1 < delta.1)
      refine hsort.trans ?_
      rw [List.filter_append, hone]
      exact (List.perm_append_singleton _ _).trans ((List.perm_insertionSort _ _).symm.cons _)
    have hquiet : ∀ other ∈ (dir.restoreTable table).newerDeltas, other.2 = [] := by
      intro other hother
      obtain ⟨hmem, hlt⟩ := mem_newerDeltas.mp hother
      rw [hid] at hlt
      exact h.deltas other hmem hlt
    have hsame : ((dir.restoreTable table).writeDelta changes txid).baseChains = table.versionChains := by
      rw [writeDelta_of_fresh hfresh]
      exact hchains
    rw [loadedChains, changesOf_of_perm hnewer hquiet, hsame]

end

end TableDir

namespace DiskEngine

/-- `DiskEngine::restore_table`. -/
def restoreTable (engine : DiskEngine) (table : Table) : DiskEngine :=
  { engine with
    dirs := Function.update engine.dirs table.name ((engine.dirs table.name).restoreTable table)
    tables := Function.update engine.tables table.name (some table) }

section

variable {engine : DiskEngine} {table : Table} {changes : List (Nat × RowVersion)} {txid : Nat}

theorem deltaId_of_txid? {name : String} (htxid : (DiskCall.applyWriteSet name changes).txid? = some txid) :
    engine.deltaId changes = (txid, engine) := by
  rw [deltaId]
  rw [DiskCall.txid?] at htxid
  rw [htxid]

/-- Changes to a table that is restored: the delta, and the table in memory. -/
theorem applyWriteSet_restoreTable {name : String} (hname : table.name = name)
    (htxid : (DiskCall.applyWriteSet name changes).txid? = some txid) :
    (engine.restoreTable table).applyWriteSet name changes =
      (.ok (), (engine.restoreTable table).withTable name
        (((engine.dirs name).restoreTable table).writeDelta changes txid)
        (some { table with versionChains := replay table.versionChains changes })) := by
  subst hname
  have htable : (engine.restoreTable table).tables table.name = some table := Function.update_self _ _ _
  have hdir : (engine.restoreTable table).dirs table.name = (engine.dirs table.name).restoreTable table :=
    Function.update_self _ _ _
  rw [applyWriteSet, deltaId_of_txid? htxid]
  dsimp only
  rw [htable, hdir]
  rfl

/-- A table that is restored stands in its directory, and a later transaction on it too, exactly where no file in the
directory is named by a transaction later than its rows and none by the later one itself. -/
theorem reloads_restoreTable_iff (hnamed : (engine.dirs table.name).Named)
    (htxid : (DiskCall.applyWriteSet table.name changes).txid? = some txid) (hpos : 0 < txid)
    (hlater : ∀ chain ∈ table.versionChains, ∀ version ∈ chain, version.txidMin < txid) :
    (((engine.restoreTable table).dirs table.name).Reloads table.versionChains ∧
        ((engine.restoreTable table).applyWriteSet table.name changes).1 = .ok () ∧
        (((engine.restoreTable table).applyWriteSet table.name changes).2.dirs table.name).Reloads
          (replay table.versionChains changes)) ↔
      (engine.dirs table.name).Overwritten table.versionChains ∧ txid ∉ (engine.dirs table.name).deltas.map Prod.fst := by
  have hwriter : lastWriter table.versionChains < txid := by
    apply Nat.lt_of_le_pred hpos
    apply lastWriter_le
    intro chain hchain version hlast
    exact Nat.le_pred_of_lt (hlater chain hchain version (List.mem_of_getLast? hlast))
  have hne : changes ≠ [] := by
    rintro rfl
    cases htxid
  have hdir : (engine.restoreTable table).dirs table.name = (engine.dirs table.name).restoreTable table :=
    Function.update_self _ _ _
  rw [applyWriteSet_restoreTable rfl htxid, hdir, withTable_dirs_self, TableDir.reloads_iff, TableDir.reloads_iff,
    TableDir.loadedChains_restoreTable_iff hnamed]
  constructor
  · rintro ⟨⟨-, h⟩, -, -, hwritten⟩
    exact ⟨h, (TableDir.loadedChains_restoreTable_writeDelta_iff h hwriter hne).mp hwritten⟩
  · rintro ⟨h, hfresh⟩
    refine ⟨⟨rfl, h⟩, rfl, ?_, (TableDir.loadedChains_restoreTable_writeDelta_iff h hwriter hne).mpr hfresh⟩
    have hnew : txid ∉ ((engine.dirs table.name).restoreTable table).deltas.map Prod.fst := hfresh
    rw [TableDir.writeDelta_of_fresh hnew]
    rfl

end

/-! ### A table that is one transaction behind its directory -/

/-- The table `t` with the row of the first transaction. -/
def oneRow : Table := { Table.new "t" [.new "a" .integer] with versionChains := [[(insertion 0 1).2]] }

theorem named_after {calls : List DiskCall} (hcalls : ∀ call ∈ calls, call.OfTransaction)
    (hdistinct : (txidsOf calls).Nodup) (name : String) : ((after calls).dirs name).Named :=
  ((kept_after hcalls hdistinct).dirs name).named

/-- Two transactions with a flush between them, which leave a base and a delta. -/
def flushBetween : List DiskCall :=
  [.createTable "t" [.new "a" .integer], .applyWriteSet "t" [insertion 0 1], .flush, .applyWriteSet "t" [insertion 1 2]]

/-- The table `t` with the rows of both transactions, of which the second one took the first row back. -/
def rowAgain : Table :=
  { Table.new "t" [.new "a" .integer] with
    versionChains := [[{ (insertion 0 1).2 with txidMax := 2 }, .newDelete 2 (insertion 0 1).2.row], [(insertion 1 2).2]] }

theorem ofTransaction_flushBetween : ∀ call ∈ flushBetween, call.OfTransaction := by
  have hinserts := ofTransaction_twoInsertions 1 2
  simp only [twoInsertions, List.forall_mem_cons] at hinserts
  simp only [flushBetween, List.forall_mem_cons]
  exact ⟨hinserts.1, hinserts.2.1, trivial, hinserts.2.2⟩

theorem reloads_restoreTable_leftover :
    ((after flushBetween).dirs "t").bases.map Prod.fst = [1] ∧ ((after flushBetween).dirs "t").deltas.map Prod.fst = [2] ∧
      (((after flushBetween).restoreTable rowAgain).dirs "t").Reloads rowAgain.versionChains ∧
      (((after flushBetween).restoreTable rowAgain).applyWriteSet "t" [insertion 2 3]).1 = .ok () ∧
      ((((after flushBetween).restoreTable rowAgain).applyWriteSet "t" [insertion 2 3]).2.dirs "t").Reloads
        (replay rowAgain.versionChains [insertion 2 3]) := by
  have hnamed := named_after ofTransaction_flushBetween (by decide) "t"
  refine ⟨by decide, by decide, ?_⟩
  refine (@reloads_restoreTable_iff (after flushBetween) rowAgain [insertion 2 3] 3 hnamed (by decide) (by decide)
    (by decide)).mpr ?_
  exact ⟨⟨by decide, by decide, by decide⟩, by decide⟩

/-- The delta of the second transaction is loaded on top of the rows that are restored. -/
theorem not_reloads_restoreTable :
    ¬ ∀ (engine : DiskEngine) (table : Table) (changes : List (Nat × RowVersion)) (txid : Nat),
      (engine.dirs table.name).Named → (DiskCall.applyWriteSet table.name changes).txid? = some txid → 0 < txid →
      (∀ chain ∈ table.versionChains, ∀ version ∈ chain, version.txidMin < txid) →
      ((engine.restoreTable table).dirs table.name).Reloads table.versionChains ∧
        ((engine.restoreTable table).applyWriteSet table.name changes).1 = .ok () ∧
        (((engine.restoreTable table).applyWriteSet table.name changes).2.dirs table.name).Reloads
          (replay table.versionChains changes) := by
  intro h
  have hnamed := named_after (ofTransaction_twoInsertions 1 2) (by decide) "t"
  obtain ⟨hreloads, -⟩ := h (after (twoInsertions 1 2)) oneRow [insertion 1 3] 3 hnamed (by decide) (by decide) (by decide)
  obtain ⟨-, hloaded⟩ := TableDir.reloads_iff.mp hreloads
  have hlength := congrArg List.length hloaded
  revert hlength
  decide

end DiskEngine

end HelionDb
