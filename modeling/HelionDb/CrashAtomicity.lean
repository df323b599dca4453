import HelionDb.RecoveryChains

/-! A crash in the middle of a log. Replay applies the records of a transaction one by one and never looks
for its Commit record, so a log that is cut inside a transaction brings back what the records before the cut
do. Replay only ever adds versions: it leaves no trace of those records exactly when each of them finds no
row to write. The transactions before them come back as they were in memory if their records are replayed
as their commits installed them. -/

namespace HelionDb

/-- Replay of a record of a write set adds a version: the table is there, an inserted row fits its schema,
an updated row exists, a deleted row has a version to repeat. -/
def TakesEffect (tables : List Table) : WalRecord → Prop
  | .insert name row _ => ∃ table, findTable name tables = some table ∧ RowFits table.columns row
  | .update name rowIdx _ _ => ∃ table, findTable name tables = some table ∧ rowIdx < table.versionChains.length
  | .delete name rowIdx _ =>
      ∃ table, findTable name tables = some table ∧ latestRow table.versionChains rowIdx ≠ none
  | _ => False

/-- Whether a record takes effect is told by the columns and chains of the tables. -/
theorem takesEffect_congr {left right : List Table} (h : left.map Table.image = right.map Table.image)
    (record : WalRecord) : TakesEffect left record ↔ TakesEffect right record := by
  have hmove {left right : List Table} (h : left.map Table.image = right.map Table.image)
      {test : TableImage → Prop} {name : String} :
      (∃ table, findTable name left = some table ∧ test table.image) →
        ∃ table, findTable name right = some table ∧ test table.image := by
    rintro ⟨table, htable, htest⟩
    have himage := findTable_image h name
    rw [htable] at himage
    obtain ⟨other, hother, hsame⟩ := Option.map_eq_some_iff.mp himage.symm
    exact ⟨other, hother, hsame ▸ htest⟩
  have hboth {test : TableImage → Prop} {name : String} :
      (∃ table, findTable name left = some table ∧ test table.image) ↔
        ∃ table, findTable name right = some table ∧ test table.image := ⟨hmove h, hmove h.symm⟩
  cases record with
  | insert name row txId => exact @hboth (fun image => RowFits image.columns row) name
  | update name rowIdx row txId => exact @hboth (fun image => rowIdx < image.versionChains.length) name
  | delete name rowIdx txId => exact @hboth (fun image => latestRow image.versionChains rowIdx ≠ none) name
  | _ => exact Iff.rfl

/-- The number of versions of some chains. -/
def chainVersions (chains : List Chain) : Nat := (chains.map List.length).sum

/-- The number of versions of some tables. -/
def versionCount (tables : List Table) : Nat := (tables.map fun table => chainVersions table.versionChains).sum

theorem versionCount_congr {left right : List Table} (h : left.map Table.image = right.map Table.image) :
    versionCount left = versionCount right := by
  have hcount : ∀ tables : List Table, versionCount tables =
      ((tables.map Table.image).map fun image => chainVersions image.versionChains).sum := by
    intro tables
    rw [List.map_map]
    rfl
  rw [hcount, hcount, h]

theorem chainVersions_modify {chains : List Chain} {rowIdx : Nat} (hrow : rowIdx < chains.length) (txid : Nat)
    (version : RowVersion) :
    chainVersions (chains.modify rowIdx (extendChain txid version)) = chainVersions chains + 1 := by
  have hsplit : chains = chains.take rowIdx ++ chains[rowIdx] :: chains.drop (rowIdx + 1) := by
    rw [List.cons_getElem_drop_succ, List.take_append_drop]
  have hextended : (extendChain txid version chains[rowIdx]).length = chains[rowIdx].length + 1 := by
    simp [extendChain]
  rw [List.modify_eq_take_cons_drop hrow]
  conv_rhs => rw [hsplit]
  simp only [chainVersions, List.map_append, List.map_cons, List.sum_append, List.sum_cons, hextended]
  omega

section Replay

variable {txId : Nat} {entry : WriteEntry} {table : Table}

/-- Replay of an entry adds a version to its table when the entry takes effect, and nothing otherwise. -/
theorem replay_gain (tables : List Table) (htable : findTable entry.tableName tables = some table) :
    (TakesEffect tables (entry.walRecord txId) ∧
        chainVersions (entry.replay txId table).versionChains = chainVersions table.versionChains + 1) ∨
      (¬ TakesEffect tables (entry.walRecord txId) ∧ entry.replay txId table = table) := by
  unfold WriteEntry.walRecord WriteEntry.replay
  cases entry.operation with
  | insert row =>
      dsimp only [TakesEffect, Table.replayInsert]
      rw [htable]
      cases hvalid : table.validateRow row with
      | error err =>
          refine Or.inr ⟨?_, rfl⟩
          rintro ⟨found, hfound, hfits⟩
          obtain rfl := Option.some.inj hfound
          rw [Table.validateRow_ok_iff.mpr hfits] at hvalid
          cases hvalid
      | ok u =>
          refine Or.inl ⟨⟨table, rfl, Table.validateRow_ok_iff.mp hvalid⟩, ?_⟩
          simp [chainVersions]
  | update newRow =>
      dsimp only [TakesEffect, Table.replayUpdate]
      rw [htable]
      by_cases hrow : entry.rowIdx < table.versionChains.length
      · refine Or.inl ⟨⟨table, rfl, hrow⟩, ?_⟩
        rw [if_pos hrow]
        exact chainVersions_modify hrow _ _
      · refine Or.inr ⟨?_, if_neg hrow⟩
        rintro ⟨found, hfound, hlt⟩
        obtain rfl := Option.some.inj hfound
        exact hrow hlt
  | delete =>
      dsimp only [TakesEffect, Table.replayDelete, latestRow]
      rw [htable]
      cases hchain : table.versionChains[entry.rowIdx]? with
      | none =>
          refine Or.inr ⟨?_, rfl⟩
          rintro ⟨found, hfound, hlatest⟩
          obtain rfl := Option.some.inj hfound
          rw [hchain] at hlatest
          exact hlatest rfl
      | some chain =>
          dsimp only
          cases hlast : chain.getLast? with
          | none =>
              refine Or.inr ⟨?_, rfl⟩
              rintro ⟨found, hfound, hlatest⟩
              obtain rfl := Option.some.inj hfound
              rw [hchain, Option.bind_some, hlast] at hlatest
              exact hlatest rfl
          | some latest =>
              refine Or.inl ⟨⟨table, rfl, ?_⟩, ?_⟩
              · rw [hchain, Option.bind_some, hlast, Option.map_some]
                exact Option.some_ne_none _
              · exact chainVersions_modify (List.getElem?_eq_some_iff.mp hchain).1 _ _

end Replay

/-- Replay of a record of a write set adds a version or leaves the tables alone. -/
theorem applyWalRecord_gain (tables : List Table) (txId : Nat) (entry : WriteEntry) :
    (TakesEffect tables (entry.walRecord txId) ∧
        versionCount (applyWalRecord tables (entry.walRecord txId)) = versionCount tables + 1) ∨
      (¬ TakesEffect tables (entry.walRecord txId) ∧ applyWalRecord tables (entry.walRecord txId) = tables) := by
  rw [applyWalRecord_walRecord]
  cases htable : findTable entry.tableName tables with
  | none =>
      have hunknown : ¬ TakesEffect tables (entry.walRecord txId) := by
        unfold WriteEntry.walRecord
        cases entry.operation <;> rintro ⟨found, hfound, -⟩ <;> cases htable.symm.trans hfound
      refine Or.inr ⟨hunknown, KeyedList.update_eq_self fun table hfound => ?_⟩
      cases htable.symm.trans hfound
  | some table =>
      rcases @replay_gain txId entry table tables htable with ⟨heffect, hgain⟩ | ⟨hquiet, hsame⟩
      · exact Or.inl ⟨heffect, KeyedList.sum_map_update htable hgain⟩
      · refine Or.inr ⟨hquiet, KeyedList.update_eq_self fun found hfound => ?_⟩
        obtain rfl := Option.some.inj (htable.symm.trans hfound)
        exact hsame

theorem versionCount_le_replay (tables : List Table) (txId : Nat) (entries : List WriteEntry) :
    versionCount tables ≤ versionCount (replayRecords tables (entries.map (WriteEntry.walRecord txId))) := by
  induction entries generalizing tables with
  | nil => exact le_rfl
  | cons entry rest ih =>
      have hrest := ih (applyWalRecord tables (entry.walRecord txId))
      refine le_trans ?_ hrest
      rcases applyWalRecord_gain tables txId entry with ⟨-, hgain⟩ | ⟨-, hsame⟩
      · exact hgain ▸ Nat.le_succ _
      · exact hsame.symm ▸ le_rfl

/-- Replay of records of a write set leaves no trace exactly when none of them takes effect. -/
theorem replay_untouched_iff (tables : List Table) (txId : Nat) (entries : List WriteEntry) :
    (replayRecords tables (entries.map (WriteEntry.walRecord txId))).map Table.image = tables.map Table.image ↔
      ∀ record ∈ entries.map (WriteEntry.walRecord txId), ¬ TakesEffect tables record := by
  induction entries with
  | nil => simp [replayRecords]
  | cons entry rest ih =>
      rw [List.map_cons, List.forall_mem_cons]
      change (replayRecords (applyWalRecord tables (entry.walRecord txId)) _).map Table.image = _ ↔ _
      rcases applyWalRecord_gain tables txId entry with ⟨heffect, hgain⟩ | ⟨hquiet, hsame⟩
      · -- The first record that takes effect adds a version, and no later one removes it.
        refine iff_of_false (fun himage => ?_) fun hquiet => hquiet.1 heffect
        have hle := versionCount_le_replay (applyWalRecord tables (entry.walRecord txId)) txId rest
        rw [versionCount_congr himage, hgain] at hle
        exact Nat.not_succ_le_self _ hle
      · rw [hsame, ih]
        exact ⟨fun hrest => ⟨hquiet, hrest⟩, fun h => h.2⟩

namespace DatabaseEngine

variable {start : DatabaseEngine} {calls : List (List WriteEntry × CommitOrders)} {cut : Nat}

/-! ### Runs of commits -/

/-- A write transaction that is begun, filled with these entries and committed. -/
def commitCall (engine : DatabaseEngine) (call : List WriteEntry × CommitOrders) :
    Loop.Outcome HelionError (Transaction × DatabaseEngine) :=
  engine.begin.2.commit call.2 (engine.beginWith call.1)

/-- The engine after that commit. -/
def commitNext (engine : DatabaseEngine) (call : List WriteEntry × CommitOrders) : DatabaseEngine :=
  (engine.commitCall call).2.2

/-- The commit returns Ok. -/
def CommitsOk (engine : DatabaseEngine) (call : List WriteEntry × CommitOrders) : Prop :=
  (engine.commitCall call).1 = .ok ()

/-- Replay of the transaction's records does what its commit does. -/
def CommitsFaithfully (engine : DatabaseEngine) (call : List WriteEntry × CommitOrders) : Prop :=
  engine.begin.2.ReplaysFaithfully (engine.beginWith call.1)

/-- The log of a run of commits, cut behind this many records. -/
def cutLog (start : DatabaseEngine) (calls : List (List WriteEntry × CommitOrders)) (cut : Nat) :
    List WalRecord :=
  (calls.foldl commitNext start).wal.take cut

/-- The transactions of the run whose Commit record is in the cut log. -/
def finished (start : DatabaseEngine) (calls : List (List WriteEntry × CommitOrders)) (cut : Nat) :
    List (List WriteEntry × CommitOrders) :=
  calls.take (((start.cutLog calls cut).drop start.wal.length).countP fun record => record matches .commit _)

/-- The engine after these transactions. -/
def lastCommitted (start : DatabaseEngine) (calls : List (List WriteEntry × CommitOrders)) (cut : Nat) :
    DatabaseEngine :=
  (start.finished calls cut).foldl commitNext start

/-- The records of the cut log that belong to a transaction whose Commit record is not in it. -/
def unfinished (start : DatabaseEngine) (calls : List (List WriteEntry × CommitOrders)) (cut : Nat) :
    List WalRecord :=
  (start.cutLog calls cut).drop (start.lastCommitted calls cut).wal.length

theorem commitNext_wal {engine : DatabaseEngine} {call : List WriteEntry × CommitOrders}
    (hok : engine.CommitsOk call) :
    (engine.commitNext call).wal = engine.wal ++ (engine.beginWith call.1).walRecords ∧
      (engine.commitNext call).walOld = engine.walOld := by
  obtain ⟨-, -, hcommit⟩ := commit_ok hok
  rw [commitNext, commitCall, hcommit]
  exact ⟨rfl, rfl⟩

private theorem countP_writes (txId : Nat) (entries : List WriteEntry) :
    (entries.map (WriteEntry.walRecord txId)).countP (fun record => record matches .commit _) = 0 := by
  refine List.countP_eq_zero.mpr fun record hrecord => ?_
  obtain ⟨entry, -, rfl⟩ := List.mem_map.mp hrecord
  unfold WriteEntry.walRecord
  cases entry.operation <;> exact Bool.false_ne_true

private theorem countP_walRecords (tx : Transaction) :
    tx.walRecords.countP (fun record => record matches .commit _) = 1 := by
  rw [Transaction.walRecords, List.countP_append, countP_writes]
  rfl

/-- A run of commits extends the log by one Commit record for each of them. -/
theorem wal_commits (hok : Meets commitNext CommitsOk start calls) :
    ∃ records, (calls.foldl commitNext start).wal = start.wal ++ records ∧
      (calls.foldl commitNext start).walOld = start.walOld ∧
      records.countP (fun record => record matches .commit _) = calls.length := by
  induction calls generalizing start with
  | nil => exact ⟨[], (List.append_nil _).symm, rfl, rfl⟩
  | cons call rest ih =>
      obtain ⟨hcall, hrest⟩ := hok
      obtain ⟨hwal, hwalOld⟩ := commitNext_wal hcall
      obtain ⟨records, hrecords, hold, hcount⟩ := ih hrest
      refine ⟨(start.beginWith call.1).walRecords ++ records, ?_, hold.trans hwalOld, ?_⟩
      · rw [List.foldl_cons, hrecords, hwal, List.append_assoc]
      · rw [List.countP_append, countP_walRecords, hcount, List.length_cons, Nat.add_comm]

/-- A cut log consists of whole transactions and some records of the next one, without its Commit. -/
theorem cutLog_eq (hok : Meets commitNext CommitsOk start calls) (hcut : start.wal.length ≤ cut) :
    ∃ done ≤ calls.length, ∃ (txId : Nat) (entries : List WriteEntry), start.cutLog calls cut =
      ((calls.take done).foldl commitNext start).wal ++ entries.map (WriteEntry.walRecord txId) := by
  induction calls generalizing start with
  | nil => exact ⟨0, le_rfl, 0, [], by simp [cutLog, List.take_of_length_le hcut]⟩
  | cons call rest ih =>
      obtain ⟨hcall, hrest⟩ := hok
      obtain ⟨hwal, -⟩ := commitNext_wal hcall
      rcases Nat.lt_or_ge cut (start.commitNext call).wal.length with hinside | hbehind
      · -- The cut falls before the Commit record of this transaction.
        obtain ⟨records, hrecords, -, -⟩ := wal_commits hrest
        refine ⟨0, Nat.zero_le _, (start.beginWith call.1).txId,
          (start.beginWith call.1).writeSet.take (cut - start.wal.length), ?_⟩
        rw [cutLog, List.foldl_cons, hrecords, List.take_append_of_le_length hinside.le, hwal,
          List.take_append, List.take_of_length_le hcut, List.map_take]
        refine congrArg (start.wal ++ ·) ?_
        refine List.take_append_of_le_length ?_
        rw [hwal, List.length_append, Transaction.walRecords, List.length_append, List.length_singleton] at hinside
        omega
      · obtain ⟨done, hdone, txId, entries, heq⟩ := ih hrest hbehind
        exact ⟨done + 1, Nat.succ_le_succ hdone, txId, entries, heq⟩

/-- The engine after the finished transactions has the log that the cut leaves of them. -/
theorem cutLog_lastCommitted (hok : Meets commitNext CommitsOk start calls) (hcut : start.wal.length ≤ cut) :
    (start.lastCommitted calls cut).walOld = start.walOld ∧ ∃ (txId : Nat) (entries : List WriteEntry), start.cutLog calls cut =
      (start.lastCommitted calls cut).wal ++ entries.map (WriteEntry.walRecord txId) := by
  obtain ⟨done, hdone, txId, entries, heq⟩ := cutLog_eq hok hcut
  obtain ⟨records, hrecords, hold, hcount⟩ := wal_commits (hok.take done)
  have hfinished : ((start.cutLog calls cut).drop start.wal.length).countP
      (fun record => record matches .commit _) = done := by
    rw [heq, hrecords, List.append_assoc, List.drop_left, List.countP_append, countP_writes, hcount,
      List.length_take, Nat.min_eq_left hdone]
    rfl
  rw [lastCommitted, finished, hfinished]
  exact ⟨hold, txId, entries, heq⟩

/-- A run of faithful commits keeps memory and log in step. -/
theorem Mirrored.commits (h : start.Mirrored) (hwf : start.WellFormed)
    (hfaithful : Meets commitNext CommitsFaithfully start calls) :
    (calls.foldl commitNext start).Mirrored := by
  induction calls generalizing start with
  | nil => exact h
  | cons call rest ih =>
      obtain ⟨hcall, hrest⟩ := hfaithful
      have hbegun : start.begin.2.WellFormed := hwf.of_frame rfl (.refl _) rfl
      refine ih ?_ (hbegun.commit call.2 (start.beginWith call.1)) hrest
      exact Mirrored.commit h hbegun rfl fun _ => hcall

/-- A log is cut somewhere in a run of commits, of which those that are finished before the cut are replayed
faithfully. Recovery shows the finished transactions with all of their effects, as they were in memory, and
nothing of the others, exactly when none of the records behind the last Commit record takes effect there. -/
theorem crash_atomic_iff (hstart : SerialReachable ReplayGuard start) (hok : Meets commitNext CommitsOk start calls)
    (hcut : start.wal.length ≤ cut)
    (hfaithful : Meets commitNext CommitsFaithfully start (start.finished calls cut)) :
    (replayWal start.walOld (start.cutLog calls cut)).map Table.image =
        (start.lastCommitted calls cut).tables.map Table.image ↔
      ∀ record ∈ start.unfinished calls cut, ¬ TakesEffect (start.lastCommitted calls cut).tables record := by
  obtain ⟨hwalOld, txId, entries, heq⟩ := cutLog_lastCommitted hok hcut
  have hmemory : (start.lastCommitted calls cut).recovered.map Table.image =
      (start.lastCommitted calls cut).tables.map Table.image :=
    Mirrored.commits hstart.mirrored.2 hstart.wellFormed hfaithful
  have hcongr : (∀ record ∈ start.unfinished calls cut, ¬ TakesEffect (start.lastCommitted calls cut).tables record) ↔
      ∀ record ∈ start.unfinished calls cut, ¬ TakesEffect (start.lastCommitted calls cut).recovered record :=
    forall₂_congr fun record _ => not_congr (takesEffect_congr hmemory.symm record)
  rw [hcongr, ← hmemory, unfinished, heq, List.drop_left, replayWal_append, ← hwalOld]
  exact replay_untouched_iff (start.lastCommitted calls cut).recovered txId entries

/-- An engine with one empty table. -/
def oneTableRun : List SerialCall :=
  [{ op := .execute (.createTable "t" [ColumnMeta.new "a" .integer] none), orders := .asGiven }]

def oneTableEngine : DatabaseEngine := oneTableRun.foldl serialStep (fresh "disk")

theorem oneTableEngine_reachable : SerialReachable ReplayGuard oneTableEngine := by
  refine ⟨"disk", .of_meets ⟨?_, trivial⟩⟩
  rintro begun tx hpending
  cases hpending

/-- Two rows are inserted, then the first is changed and the second deleted, and a third transaction inserts one more:
their records stand behind the one of the table, in threes. -/
def changes : List (List WriteEntry × CommitOrders) :=
  [(insertEntries "t" 0 [{ values := [.integer 1] }, { values := [.integer 2] }], .asGiven),
    ([{ tableName := "t", rowIdx := 0, oldTxidMax := u64Max, operation := .update { values := [.integer 9] } },
      { tableName := "t", rowIdx := 1, oldTxidMax := u64Max, operation := .delete }], .asGiven),
    (insertEntries "t" 2 [{ values := [.integer 3] }, { values := [.integer 4] }], .asGiven)]

theorem finished_changes : oneTableEngine.finished changes 7 = changes.take 2 := rfl

theorem changes_commitFaithfully :
    Meets commitNext CommitsFaithfully oneTableEngine (oneTableEngine.finished changes 7) := by
  rw [finished_changes]
  refine ⟨.inr ⟨.inr ⟨by decide, by decide⟩, fun table htable => ?_⟩,
    .inr ⟨.inr ⟨by decide, by decide⟩, fun table htable => ?_⟩, trivial⟩
  · obtain rfl := List.mem_singleton.mp htable
    exact ⟨⟨by decide, by decide⟩, ⟨by decide, by decide⟩, trivial⟩
  · obtain rfl := List.mem_singleton.mp htable
    exact ⟨(by decide : 0 < 2), rfl, trivial⟩

/-- A cut right behind the second Commit record. -/
theorem crash_atomic_boundary :
    (replayWal [] (oneTableEngine.cutLog changes 7)).map Table.image =
      (oneTableEngine.lastCommitted changes 7).tables.map Table.image := by
  have hok : Meets commitNext CommitsOk oneTableEngine changes := ⟨rfl, rfl, rfl, trivial⟩
  have hcut : oneTableEngine.wal.length ≤ 7 := by decide
  have hquiet : ∀ record ∈ oneTableEngine.unfinished changes 7,
      ¬ TakesEffect (oneTableEngine.lastCommitted changes 7).tables record := by
    have hnone : oneTableEngine.unfinished changes 7 = [] := rfl
    rw [hnone]
    exact List.forall_mem_nil _
  exact (@crash_atomic_iff oneTableEngine changes 7 oneTableEngine_reachable hok hcut
    changes_commitFaithfully).mpr hquiet

/-- Two commits of two rows each. -/
def twoInserts : List (List WriteEntry × CommitOrders) :=
  [(insertEntries "t" 0 [{ values := [.integer 1] }, { values := [.integer 2] }], .asGiven),
    (insertEntries "t" 2 [{ values := [.integer 3] }, { values := [.integer 4] }], .asGiven)]

/-- A crash behind the first row of the second commit: recovery shows that row without the other one, and
no Commit record of the transaction is in the log. -/
theorem not_crash_atomic_inside :
    SerialReachable (fun _ _ => True) oneTableEngine ∧
      Meets commitNext CommitsOk oneTableEngine twoInserts ∧
      .commit 2 ∉ oneTableEngine.cutLog twoInserts 5 ∧
      (replayWal [] (oneTableEngine.cutLog twoInserts 5)).map (·.versionChains) =
        [[[.newInsert 1 { values := [.integer 1] }], [.newInsert 1 { values := [.integer 2] }],
          [.newInsert 2 { values := [.integer 3] }]]] ∧
      (replayWal [] (oneTableEngine.cutLog twoInserts 5)).map Table.image ≠
        (oneTableEngine.lastCommitted twoInserts 5).tables.map Table.image :=
  ⟨⟨"disk", .foldl oneTableRun _⟩, ⟨rfl, rfl, trivial⟩, by decide, by decide, by decide⟩

end DatabaseEngine

end HelionDb
