import HelionDb.SnapshotStability

/-! Two overlapping transactions that write one row. When the first of them has committed, the current
version of the row comes from a transaction that the snapshot of the second does not contain, and so it
stays while the second is in progress. The conflict check looks for the creator in the active set of the
snapshot alone: it finds one that began before the second transaction, and misses one that began later. -/

namespace HelionDb

/-! ### The creator of a row -/

/-- The creator of the current version at a position. -/
def creatorAt (chains : List Chain) (rowIdx : Nat) : Option Nat :=
  (chains[rowIdx]?.bind currentVersion).map (·.txidMin)

theorem currentVersion_extendChain (txid : Nat) {version : RowVersion} (hopen : version.txidMax = u64Max)
    (chain : Chain) : currentVersion (extendChain txid version chain) = some version := by
  rw [extendChain, currentVersion, List.reverse_append, List.reverse_singleton, List.singleton_append,
    List.find?_cons_of_pos (by simpa using hopen)]

section Placed

variable {txid : Nat} {chains : List Chain} {rowIdx : Nat}

theorem creatorAt_placeVersion (hrow : rowIdx < chains.length) {change : Nat × RowVersion}
    (hmin : change.2.txidMin = txid) (hopen : change.2.txidMax = u64Max) :
    creatorAt (placeVersion txid chains change) rowIdx =
      if change.1 = rowIdx then some txid else creatorAt chains rowIdx := by
  split
  · rename_i hhit
    subst hhit
    rw [creatorAt, getElem?_placeVersion_self hrow, Option.bind_some, currentVersion_extendChain txid hopen,
      Option.map_some, hmin]
  · rename_i hmiss
    rw [creatorAt, creatorAt, getElem?_placeVersion_of_ne hrow (Ne.symm hmiss)]

/-- After a write set the row is its writer's if the write set has a version for it, and otherwise whose it
was. -/
theorem creatorAt_placeAll (hrow : rowIdx < chains.length) {changes : List (Nat × RowVersion)}
    (hchanges : ∀ change ∈ changes, change.2.txidMin = txid ∧ change.2.txidMax = u64Max) :
    creatorAt (placeAll txid chains changes) rowIdx =
      if rowIdx ∈ changes.map Prod.fst then some txid else creatorAt chains rowIdx := by
  induction changes generalizing chains with
  | nil => rfl
  | cons change rest ih =>
      obtain ⟨hmin, hopen⟩ := hchanges change List.mem_cons_self
      have hlength := length_le_placeVersion txid chains change
      rw [placeAll_cons, ih (hrow.trans_le hlength) fun other hother =>
        hchanges other (List.mem_cons_of_mem _ hother), creatorAt_placeVersion hrow hmin hopen]
      rw [List.map_cons]
      by_cases hrest : rowIdx ∈ rest.map Prod.fst
      · rw [if_pos hrest, if_pos (List.mem_cons_of_mem _ hrest)]
      · by_cases hhit : change.1 = rowIdx
        · rw [if_neg hrest, if_pos hhit, if_pos (List.mem_cons.mpr (Or.inl hhit.symm))]
        · rw [if_neg hrest, if_neg hhit, if_neg]
          exact fun hmem => (List.mem_cons.mp hmem).elim (fun heq => hhit heq.symm) hrest

end Placed

namespace DatabaseEngine

variable {engine : DatabaseEngine} {orders : CommitOrders} {tx : Transaction} {name : String} {rowIdx : Nat}

/-- The creator of the current version of a row. -/
def creatorOf (engine : DatabaseEngine) (name : String) (rowIdx : Nat) : Option Nat :=
  (engine.chainsOf name).bind fun chains => creatorAt chains rowIdx

theorem creatorOf_eq_some {creator : Nat} (h : engine.creatorOf name rowIdx = some creator) :
    ∃ chains, engine.chainsOf name = some chains ∧ rowIdx < chains.length ∧
      creatorAt chains rowIdx = some creator := by
  obtain ⟨chains, hchains, hcreator⟩ := Option.bind_eq_some_iff.mp h
  refine ⟨chains, hchains, ?_, hcreator⟩
  obtain ⟨version, hversion, -⟩ := Option.map_eq_some_iff.mp hcreator
  obtain ⟨chain, hchain, -⟩ := Option.bind_eq_some_iff.mp hversion
  exact (List.getElem?_eq_some_iff.mp hchain).1

/-- With the versions of a transaction placed, the creator of a row is the transaction or who it was. -/
theorem creatorAt_placedChains {chains : List Chain} (hchains : engine.chainsOf name = some chains)
    (hrow : rowIdx < chains.length) :
    ((engine.placedChains tx name).bind fun chains => creatorAt chains rowIdx) =
      if rowIdx ∈ (tableChanges tx (snapshotTables engine.tables) name).map Prod.fst then some tx.txId
      else creatorAt chains rowIdx := by
  rw [placedChains, hchains]
  refine creatorAt_placeAll hrow fun change hchange => ?_
  exact ⟨(mem_tableChanges hchange).1, (mem_tableChanges hchange).2.1⟩

/-- A commit leaves the creator of a row as it is, or becomes it. -/
theorem creatorOf_commit_cases (hwf : engine.WellFormed) {creator : Nat}
    (hcreator : engine.creatorOf name rowIdx = some creator) :
    (engine.commit orders tx).2.2.creatorOf name rowIdx = some creator ∨
      (tx.status = .inProgress ∧ (engine.commit orders tx).2.2.creatorOf name rowIdx = some tx.txId) := by
  obtain ⟨chains, hchains, hrow, hat⟩ := creatorOf_eq_some hcreator
  rcases chainsOf_commit_cases hwf orders tx name with hsame | ⟨hinstalls, -, hplaced⟩
  · exact Or.inl (by rw [creatorOf, hsame]; exact hcreator)
  · rw [creatorOf, hplaced, creatorAt_placedChains hchains hrow]
    split
    · exact Or.inr ⟨hinstalls.running, rfl⟩
    · exact Or.inl hat

/-- A commit that returns Ok becomes the creator of every row it writes. -/
theorem creatorOf_commit_of_ok (hwf : engine.WellFormed) (hopen : AllChains LastOpen engine.tables)
    (hok : (engine.commit orders tx).1 = .ok ()) {entry : WriteEntry} (hentry : entry ∈ tx.writeSet)
    (hrow : (engine.creatorOf entry.tableName entry.rowIdx).isSome) :
    (engine.commit orders tx).2.2.creatorOf entry.tableName entry.rowIdx = some tx.txId := by
  obtain ⟨creator, hcreator⟩ := Option.isSome_iff_exists.mp hrow
  obtain ⟨chains, hchains, hlt, -⟩ := creatorOf_eq_some hcreator
  rw [creatorOf, chainsOf_commit_of_ok hwf hok, creatorAt_placedChains hchains hlt, if_pos]
  -- The row is there, so also a deletion has a version for it.
  obtain ⟨table, htable, rfl⟩ := Option.map_eq_some_iff.mp hchains
  obtain ⟨prior, latest, hlast, -⟩ :=
    hopen table (hwf.findTable_eq_some.mp htable).1 _ (List.getElem_mem hlt)
  have hcopy := (hwf.snapshotTables_eq entry.tableName).trans htable
  have hversion : ∃ version, entryVersion tx.txId (snapshotTables engine.tables) entry =
      some (entry.rowIdx, version) := by
    cases hoperation : entry.operation with
    | insert row => exact ⟨.newInsert tx.txId row, by rw [entryVersion, hoperation]⟩
    | update row => exact ⟨.newUpdate tx.txId row, by rw [entryVersion, hoperation]⟩
    | delete => exact ⟨.newDelete tx.txId latest.row, entryVersion_delete hoperation hcopy hlt hlast⟩
  obtain ⟨version, hversion⟩ := hversion
  refine List.mem_map.mpr ⟨(entry.rowIdx, version), List.mem_filterMap.mpr ⟨entry, ?_, hversion⟩, rfl⟩
  exact Transaction.mem_entriesOf.mpr ⟨hentry, rfl⟩

/-- A commit that names a row whose creator was active in its snapshot returns the conflict. -/
theorem commit_of_conflict (hwf : engine.WellFormed) (hrunning : tx.status = .inProgress)
    {entry : WriteEntry} (hentry : entry ∈ tx.writeSet) {creator : Nat}
    (hcreator : engine.creatorOf entry.tableName entry.rowIdx = some creator)
    (hactive : creator ∈ tx.snapshot.active) :
    (engine.commit orders tx).1 = .error (.conflict tx.txId) := by
  have hconflict : conflictOf tx.snapshot.active (snapshotTables engine.tables) entry = some creator := by
    obtain ⟨chains, hchains, hat⟩ := Option.bind_eq_some_iff.mp hcreator
    obtain ⟨table, htable, rfl⟩ := Option.map_eq_some_iff.mp hchains
    obtain ⟨version, hversion, rfl⟩ := Option.map_eq_some_iff.mp hat
    obtain ⟨chain, hchain, hcurrent⟩ := Option.bind_eq_some_iff.mp hversion
    rw [conflictOf, hwf.snapshotTables_eq, htable]
    dsimp only
    rw [hchain]
    dsimp only
    rw [hcurrent]
    exact if_pos hactive
  rw [commit, if_neg (fun h => h hrunning)]
  cases hcheck : checkConflicts tx (snapshotTables engine.tables) with
  | error other => rfl
  | ok u => cases hconflict.symm.trans (checkConflicts_ok_iff.mp hcheck entry hentry)

end DatabaseEngine

namespace Session

variable {session : Session} {snapshot : Snapshot} {handle : Nat}

/-- Ids are left, and the handle stays in progress. -/
def KeepsRunning (handle : Nat) (session : Session) (op : SessionOp) : Prop :=
  CounterOk session op ∧ (session.step op).Running handle

/-- What holds while a handle stays in progress. -/
structure Underway (snapshot : Snapshot) (handle : Nat) (session : Session) : Prop where
  sound : session.Sound
  overlaps : Overlaps snapshot handle session
  running : session.Running handle

theorem Underway.begin {start : Session} (hstart : start.Reachable CounterOk) (hcounter : CounterOk start .begin) :
    Underway start.nextSnapshot start.txs.length (start.step .begin) :=
  ⟨hstart.sound.step .begin, .begin (hstart.numbered fun _ _ h => h) hcounter, running_begin start⟩

theorem Underway.step (h : Underway snapshot handle session) {op : SessionOp}
    (hop : KeepsRunning handle session op) : Underway snapshot handle (session.step op) :=
  ⟨h.sound.step op, h.overlaps.step h.running.lt_length hop.1, hop.2⟩

/-- Whoever is in progress besides the handle was active in its snapshot or began later; the handle itself
has the id of the snapshot. -/
theorem Underway.id_cases (h : Underway snapshot handle session) {other : Nat} {tx : Transaction}
    (htx : session.txs[other]? = some tx) (hrunning : tx.status = .inProgress) :
    tx.txId ∈ snapshot.active ∨ snapshot.txid ≤ tx.txId := by
  by_cases hother : other = handle
  · subst hother
    exact Or.inr (h.overlaps.own tx htx).1.ge
  · exact (h.overlaps.others other tx hother htx hrunning).imp_right Nat.le_of_lt

/-- The creator of a row was active in the snapshot, or is not before it. -/
def RowTaken (snapshot : Snapshot) (name : String) (rowIdx : Nat) (session : Session) : Prop :=
  ∃ creator, session.engine.creatorOf name rowIdx = some creator ∧
    (creator ∈ snapshot.active ∨ snapshot.txid ≤ creator)

theorem RowTaken.step {name : String} {rowIdx : Nat} (h : RowTaken snapshot name rowIdx session)
    (hunderway : Underway snapshot handle session) (op : SessionOp) :
    RowTaken snapshot name rowIdx (session.step op) := by
  obtain ⟨creator, hcreator, hid⟩ := h
  rcases step_cases session op with ⟨-, hstep⟩ | ⟨_, _, -, hstep⟩ | ⟨_, tx, -, -, hstep⟩ |
    ⟨other, orders, tx, -, htx, hstep⟩ | hstep
  · exact ⟨creator, by rw [hstep]; exact hcreator, hid⟩
  · exact ⟨creator, by rw [hstep]; exact hcreator, hid⟩
  · exact ⟨creator, by rw [hstep, rollback_engine]; exact hcreator, hid⟩
  · rw [hstep]
    have hcases := @DatabaseEngine.creatorOf_commit_cases session.engine orders tx name rowIdx
      hunderway.sound.wellFormed creator hcreator
    rcases hcases with hsame | ⟨hrunning, hnew⟩
    · exact ⟨creator, hsame, hid⟩
    · exact ⟨tx.txId, hnew, hunderway.id_cases htx hrunning⟩
  · exact ⟨creator, by rw [hstep]; exact hcreator, hid⟩

/-- Two transactions write one row, and the first of them commits while the second is in progress. The
second commit is refused if the row's current version then comes from a transaction that began before the
second one. -/
theorem first_committer_wins {start middle last : Session} (hstart : start.Reachable CounterOk)
    (hcounter : CounterOk start .begin)
    (hbefore : Reaches step (KeepsRunning start.txs.length) (start.step .begin) middle)
    {first : Nat} {winner : Transaction} {orders : CommitOrders} (hwinner : middle.txs[first]? = some winner)
    (hfirst : first ≠ start.txs.length) (hok : (middle.engine.commit orders winner).1 = .ok ())
    (hafter : Reaches step (KeepsRunning start.txs.length) (middle.step (.commit first orders)) last)
    {loser : Transaction} (hloser : last.txs[start.txs.length]? = some loser)
    {entry other : WriteEntry} (hentry : entry ∈ winner.writeSet) (hother : other ∈ loser.writeSet)
    (hrow : other.tableName = entry.tableName ∧ other.rowIdx = entry.rowIdx)
    (hexists : (middle.engine.creatorOf entry.tableName entry.rowIdx).isSome)
    (hcreator : ∀ creator, last.engine.creatorOf entry.tableName entry.rowIdx = some creator →
      creator < loser.txId) (orders' : CommitOrders) :
    (last.engine.commit orders' loser).1 = .error (.conflict loser.txId) := by
  have hmiddle := hbefore.invariant (fun _ _ h hop => h.step hop) (Underway.begin hstart hcounter)
  -- The winner's commit does not finish the other handle, and takes the row.
  have hkeeps : KeepsRunning start.txs.length middle (.commit first orders) := by
    refine ⟨trivial, hmiddle.running.step (by rintro ⟨⟩) fun _ heq => hfirst ?_⟩
    exact (SessionOp.commit.inj heq).1
  have htaken : RowTaken start.nextSnapshot entry.tableName entry.rowIdx (middle.step (.commit first orders)) := by
    refine ⟨winner.txId, ?_, ?_⟩
    · rw [step_commit hwinner]
      exact DatabaseEngine.creatorOf_commit_of_ok hmiddle.sound.wellFormed hmiddle.sound.live hok hentry hexists
    · exact hmiddle.id_cases hwinner (DatabaseEngine.commit_ok hok).1.running
  have hend := hafter.invariant (P := fun state => Underway start.nextSnapshot start.txs.length state ∧
      RowTaken start.nextSnapshot entry.tableName entry.rowIdx state)
    (fun _ op h hop => ⟨h.1.step hop, h.2.step h.1 op⟩) ⟨hmiddle.step hkeeps, htaken⟩
  obtain ⟨hunderway, creator, hlast, hid⟩ := hend
  obtain ⟨hloserId, hloserSnapshot⟩ := hunderway.overlaps.own loser hloser
  obtain ⟨running, hrunningTx, hrunning⟩ := hunderway.running
  obtain rfl := Option.some.inj (hloser.symm.trans hrunningTx)
  have hactive : creator ∈ loser.snapshot.active := by
    have hlt := hcreator creator hlast
    rw [hloserId] at hlt
    rw [hloserSnapshot]
    exact hid.resolve_right (Nat.not_le.mpr hlt)
  rw [← hrow.1, ← hrow.2] at hlast
  exact DatabaseEngine.commit_of_conflict hunderway.sound.wellFormed hrunning hother hlast hactive

/-- Two transactions in progress, each with an update of the row. -/
def bothUpdate : Session :=
  [SessionOp.addWrite 0 rowUpdate, .addWrite 1 rowUpdate].foldl step ((oneRowSession.step .begin).step .begin)

/-- The transaction that began first commits first. -/
theorem first_committer_wins_lower :
    (bothUpdate.step (.commit 0 .asGiven)).txs.map (·.status) = [.committed, .inProgress] ∧
      ((bothUpdate.step (.commit 0 .asGiven)).engine.commit .asGiven
        ((oneRowSession.step .begin).engine.begin.1.addWrite rowUpdate)).1 = .error (.conflict 3) := by
  have hcounter : CounterOk (oneRowSession.step .begin) .begin := by
    unfold CounterOk
    decide
  have hbefore : Meets step (KeepsRunning 1) ((oneRowSession.step .begin).step .begin)
      [.addWrite 0 rowUpdate, .addWrite 1 rowUpdate] :=
    ⟨⟨trivial, _, rfl, rfl⟩, ⟨trivial, _, rfl, rfl⟩, trivial⟩
  have hwinner : bothUpdate.txs[0]? = some (oneRowSession.engine.begin.1.addWrite rowUpdate) := rfl
  refine ⟨rfl, first_committer_wins oneRowSession_reachable hcounter (.of_meets hbefore) hwinner (by decide) rfl
    .refl rfl (List.mem_singleton.mpr rfl) (List.mem_singleton.mpr rfl) ⟨rfl, rfl⟩ rfl ?_ .asGiven⟩
  rintro creator ⟨⟩
  decide

/-- The transaction that began second commits first, and both commits return Ok. -/
theorem not_first_committer_wins_higher :
    (oneRowSession.step .begin).Reachable CounterOk ∧
      bothUpdate.txs.map (·.writeSet) = [[rowUpdate], [rowUpdate]] ∧
      ([SessionOp.commit 1 .asGiven, .commit 0 .asGiven].foldl step bothUpdate).txs.map (·.status) =
        [.committed, .committed] :=
  ⟨oneRowSession_reachable, rfl, rfl⟩

end Session

end HelionDb
