import HelionDb.ConcurrentCommit
import HelionDb.StatementPhases

/-! INSERT statements into one table whose phases interleave. A statement takes the row count it reads for its first
position. When another statement has placed rows by the time it commits, the commit takes those positions for rows to
replace. No row is lost exactly when every statement still finds the end of the table where it read it. -/

namespace HelionDb

theorem getElem?_placeVersion_other {txid : Nat} {chains : List Chain} {rowIdx other : Nat} {version : RowVersion}
    (hrow : rowIdx ≤ chains.length) (hne : other ≠ rowIdx) :
    (placeVersion txid chains (rowIdx, version))[other]? = chains[other]? := by
  rcases Nat.lt_or_ge other chains.length with hlt | hge
  · exact getElem?_placeVersion_of_ne hlt hne
  · rcases Nat.lt_or_ge rowIdx chains.length with hrow' | hrow'
    · rw [placeVersion_of_lt hrow', List.getElem?_modify_ne _ _ (Ne.symm hne)]
    · rw [placeVersion_of_le hrow', List.getElem?_eq_none hge, List.getElem?_eq_none]
      rw [List.length_append, List.length_singleton]
      omega

theorem getElem?_placeVersion_at {txid : Nat} {chains : List Chain} {rowIdx : Nat} {version : RowVersion}
    (hrow : rowIdx ≤ chains.length) :
    (placeVersion txid chains (rowIdx, version))[rowIdx]? =
      some (extendChain txid version (chains[rowIdx]?.getD [])) := by
  rcases Nat.lt_or_ge rowIdx chains.length with hlt | hge
  · rw [getElem?_placeVersion_self hlt, List.getElem?_eq_getElem hlt, Option.getD_some]
  · obtain rfl : rowIdx = chains.length := Nat.le_antisymm hrow hge
    rw [getElem?_placeVersion_new le_rfl, List.getElem?_eq_none le_rfl]
    rfl

theorem length_placeVersion {txid : Nat} {chains : List Chain} {rowIdx : Nat} {version : RowVersion}
    (hrow : rowIdx ≤ chains.length) :
    (placeVersion txid chains (rowIdx, version)).length = max chains.length (rowIdx + 1) := by
  rcases Nat.lt_or_ge rowIdx chains.length with hlt | hge
  · rw [placeVersion_of_lt hlt, List.length_modify]
    omega
  · rw [placeVersion_of_le hge, List.length_append, List.length_singleton]
    omega

/-- What placing rows at consecutive positions leaves: each is the last version of its chain. -/
structure RowsPlaced (txid start : Nat) (rows : List Row) (before after : List Chain) : Prop where
  length : after.length = max before.length (start + rows.length)
  others : ∀ position, position < start ∨ start + rows.length ≤ position → after[position]? = before[position]?
  placed : ∀ i row, rows[i]? = some row →
    after[start + i]? = some (extendChain txid (.newInsert txid row) (before[start + i]?.getD []))

theorem rowsPlaced_insertEntries (txid : Nat) (snapshot : String → Option Table) (name : String) {start : Nat}
    {chains : List Chain} (hstart : start ≤ chains.length) (rows : List Row) :
    RowsPlaced txid start rows chains
      (placeAll txid chains ((insertEntries name start rows).filterMap (entryVersion txid snapshot))) := by
  induction rows generalizing start chains with
  | nil => exact ⟨by simp [insertEntries, hstart], fun _ _ => by simp [insertEntries], by simp⟩
  | cons row rest ih =>
      rw [insertEntries_cons, placeAll_filterMap_cons]
      change RowsPlaced txid start (row :: rest) chains (placeAll txid
        (placeVersion txid chains (start, .newInsert txid row)) _)
      have hlength := @length_placeVersion txid chains start (.newInsert txid row) hstart
      obtain ⟨hafter, hothers, hplaced⟩ := @ih (start + 1) (placeVersion txid chains (start, .newInsert txid row))
        (by omega)
      refine ⟨?_, fun position hposition => ?_, fun i added hadded => ?_⟩
      · rw [hafter, hlength, List.length_cons]
        omega
      · rw [List.length_cons] at hposition
        rw [hothers position (by omega), getElem?_placeVersion_other hstart (by omega)]
      · cases i with
        | zero =>
            obtain rfl : row = added := Option.some.inj hadded
            exact (hothers start (Or.inl (Nat.lt_succ_self start))).trans (getElem?_placeVersion_at hstart)
        | succ i =>
            have hnext := hplaced i added hadded
            rw [show start + 1 + i = start + (i + 1) by omega] at hnext
            rw [hnext, getElem?_placeVersion_other hstart (by omega)]

/-- At the end of a table the rows go behind what there is. -/
theorem RowsPlaced.append {txid : Nat} {rows : List Row} {before after : List Chain}
    (h : RowsPlaced txid before.length rows before after) :
    after = before ++ rows.map fun row => [.newInsert txid row] := by
  apply List.ext_getElem?
  intro position
  rcases Nat.lt_or_ge position before.length with hlt | hge
  · rw [h.others position (Or.inl hlt), List.getElem?_append_left hlt]
  · obtain ⟨i, rfl⟩ := Nat.exists_eq_add_of_le hge
    rw [List.getElem?_append_right hge, Nat.add_sub_cancel_left, List.getElem?_map]
    cases hrow : rows[i]? with
    | none =>
        rw [h.others _ (Or.inr (Nat.add_le_add_left (List.getElem?_eq_none_iff.mp hrow) _)),
          List.getElem?_eq_none hge]
        rfl
    | some row =>
        rw [h.placed i row hrow, List.getElem?_eq_none hge]
        rfl

/-- A position holds what it held, or one of the rows. -/
theorem RowsPlaced.cases {txid start : Nat} {rows : List Row} {before after : List Chain}
    (h : RowsPlaced txid start rows before after) (position : Nat) :
    after[position]? = before[position]? ∨
      ∃ i row, position = start + i ∧ rows[i]? = some row ∧
        after[position]? = some (extendChain txid (.newInsert txid row) (before[position]?.getD [])) := by
  by_cases houtside : position < start ∨ start + rows.length ≤ position
  · exact Or.inl (h.others position houtside)
  · obtain ⟨i, rfl⟩ : ∃ i, position = start + i := Nat.exists_eq_add_of_le (by omega)
    have hlt : i < rows.length := by omega
    exact Or.inr ⟨i, rows[i], rfl, List.getElem?_eq_getElem hlt, h.placed i _ (List.getElem?_eq_getElem hlt)⟩

theorem currentVersion_placed (txid : Nat) (row : Row) (chain : Chain) :
    currentVersion (extendChain txid (.newInsert txid row) chain) = some (.newInsert txid row) := by
  simp [currentVersion, extendChain, RowVersion.newInsert]

/-! ### The commit of an INSERT -/

namespace DatabaseEngine

variable {engine : DatabaseEngine} {name : String}

/-- The table of a name has no unique index. -/
def NoUniqueIndex (engine : DatabaseEngine) (name : String) : Prop :=
  ∀ table, findTable name engine.tables = some table → ∀ index ∈ table.indexes, index.definition.isUnique = false

/-- The chains of the table of a name, none when there is no such table. -/
def chainsIn (engine : DatabaseEngine) (name : String) : List Chain := (engine.chainsOf name).getD []

theorem chainsIn_of_some {chains : List Chain} (h : engine.chainsOf name = some chains) :
    engine.chainsIn name = chains := by
  rw [chainsIn, h, Option.getD_some]

/-- The rows that the table of a name holds now. -/
def liveRows (engine : DatabaseEngine) (name : String) : List Row := (engine.chainsIn name).filterMap liveRow

/-- The creators of the current versions from a position on are not in the active set. -/
def UnheldFrom (engine : DatabaseEngine) (name : String) (start : Nat) : Prop :=
  ∀ position, start ≤ position → ∀ chain, (engine.chainsIn name)[position]? = some chain →
    ∀ version, currentVersion chain = some version → version.txidMin ∉ engine.mvcc.activeTxns

private theorem noUniqueIndex_commit {tx : Transaction} {orders : CommitOrders} (hwf : engine.WellFormed)
    (hplain : engine.NoUniqueIndex name) (hok : (engine.commit orders tx).1 = .ok ()) :
    (engine.commit orders tx).2.2.NoUniqueIndex name := by
  intro after hafter index hindex
  have hmem := ((hwf.commit orders tx).findTable_eq_some.mp hafter).1
  obtain ⟨table, htable, hschema, -, hmaintained, -⟩ := table_of_commit_ok hwf hok hmem
  obtain ⟨old, hold, hdefinition, -⟩ := exists_of_maintained hmaintained hindex
  have hname : table.name = name :=
    (Prod.mk.inj hschema).1.trans ((hwf.commit orders tx).findTable_eq_some.mp hafter).2
  rw [hdefinition]
  exact hplain table (hname ▸ hwf.findTable_self htable) old hold

/-- Into a table without unique indexes an INSERT always gets through, unless the rows at its positions were written
by a transaction in the active set. -/
theorem writePhase_inserts (hwf : engine.WellFormed) (hplain : engine.NoUniqueIndex name) {chains : List Chain}
    (hchains : engine.chainsOf name = some chains) {start : Nat} (hstart : start ≤ chains.length)
    (hunheld : engine.UnheldFrom name start) (orders : CommitOrders) (rows : List Row) :
    let outcome := engine.writePhase orders (insertEntries name start rows)
    outcome.1 = .ok rows.length ∧ outcome.2.WellFormed ∧ outcome.2.NoUniqueIndex name ∧
      outcome.2.mvcc.activeTxns ⊆ engine.mvcc.activeTxns ∧
      ∃ after, outcome.2.chainsOf name = some after ∧ RowsPlaced engine.mvcc.nextTxid start rows chains after ∧
        engine.mvcc.nextTxid ∉ outcome.2.mvcc.activeTxns := by
  intro outcome
  have hbegun : engine.begin.2.WellFormed := hwf.of_frame rfl (.refl _) rfl
  obtain ⟨table, htable, hversions⟩ := Option.map_eq_some_iff.mp hchains
  have hcopy : snapshotTables engine.tables name = some table := (hwf.snapshotTables_eq name).trans htable
  have hnamed : ∀ entry ∈ (engine.beginWith (insertEntries name start rows)).writeSet, entry.tableName = name :=
    fun entry hentry => tableName_of_mem_insertEntries hentry
  have hinserts : ∀ entry ∈ insertEntries name start rows, start ≤ entry.rowIdx ∧
      ∃ row, entry.operation = .insert row := by
    intro entry hentry
    obtain ⟨⟨row, i⟩, -, rfl⟩ := List.mem_map.mp hentry
    exact ⟨Nat.le_add_right _ _, row, rfl⟩
  have haccept : ChecksAccept (engine.beginWith (insertEntries name start rows)) (snapshotTables engine.tables) := by
    refine ⟨checkConflicts_ok_iff.mpr fun entry hentry => ?_, Loop.checkAll_ok_iff.mpr fun entry hentry => ?_⟩
    · rw [conflictOf, hnamed entry hentry, hcopy]
      dsimp only
      split
      · rfl
      · rename_i chain hchain
        split
        · rfl
        · rename_i version hversion
          apply if_neg
          refine hunheld entry.rowIdx (hinserts entry hentry).1 chain ?_ version hversion
          rw [chainsIn_of_some hchains, ← hversions]
          exact hchain
    · obtain ⟨-, row, hoperation⟩ := hinserts entry hentry
      rw [checkUniqueEntry, hnamed entry hentry, hcopy, hoperation]
      refine Loop.checkAll_ok_iff.mpr fun index hindex => ?_
      rw [Index.checkUnique, hplain table htable index hindex]
      rfl
  have hsafe : engine.begin.2.CommitSafe (engine.beginWith (insertEntries name start rows)) := by
    refine ⟨fun other hother => ?_, fun other hother found hfound index hindex => ⟨fun entry hentry => ?_, ?_⟩⟩
    · obtain ⟨entry, hentry, rfl⟩ := Transaction.mem_tableNames.mp hother
      rw [hnamed entry hentry]
      obtain ⟨hmem, rfl⟩ := hwf.findTable_eq_some.mp htable
      exact hbegun.holds (List.mem_map_of_mem hmem)
    · obtain ⟨-, row, hoperation⟩ := hinserts entry (Transaction.mem_entriesOf.mp hentry).1
      rw [hoperation]
      exact id
    · obtain ⟨entry, hentry, rfl⟩ := Transaction.mem_tableNames.mp hother
      rw [hnamed entry hentry] at hfound
      rw [hplain found hfound index hindex]
      exact KeyPairs.admissible_of_not_unique _ _
  have hok : (engine.begin.2.commit orders (engine.beginWith (insertEntries name start rows))).1 = .ok () :=
    (commit_ok_iff hbegun rfl haccept).mpr hsafe
  have hcommit := (commit_ok hok).2.2
  have houtcome : outcome = _ := writePhase_eq engine orders (insertEntries name start rows)
  have hactive : outcome.2.mvcc.activeTxns = (insert engine.mvcc.nextTxid engine.mvcc.activeTxns).erase
      engine.mvcc.nextTxid := by
    rw [houtcome, hcommit]
    rfl
  rw [houtcome] at hactive ⊢
  have hplaced : engine.begin.2.placedChains (engine.beginWith (insertEntries name start rows)) name =
      some (placeAll engine.mvcc.nextTxid chains ((insertEntries name start rows).filterMap
        (entryVersion engine.mvcc.nextTxid (snapshotTables engine.tables)))) := by
    rw [placedChains, show engine.begin.2.chainsOf name = some chains from hchains, Option.map_some, tableChanges,
      entriesOf_of_named hnamed, if_pos rfl]
    rfl
  refine ⟨?_, hbegun.commit orders _, noUniqueIndex_commit hbegun hplain hok, ?_, _,
    (chainsOf_commit_of_ok hbegun hok name).trans hplaced, rowsPlaced_insertEntries _ _ _ hstart rows, ?_⟩
  · rw [hok]
    simp [insertEntries, Except.map]
  · rw [hactive]
    exact Finset.erase_insert_subset _ _
  · rw [hactive]
    exact Finset.notMem_erase _ _

/-- An INSERT reads the end of its table and takes no snapshot. -/
theorem readPhase_insert (engine : DatabaseEngine) (name : String) (rows : List Row) :
    (engine.readPhase name (.insert rows)).2 = engine ∧ ∀ entries,
      (engine.readPhase name (.insert rows)).1 = .ok entries →
        ∃ chains, engine.chainsOf name = some chains ∧ entries = insertEntries name chains.length rows := by
  unfold readPhase
  split
  · exact ⟨rfl, fun entries hread => nomatch hread⟩
  · rename_i table htable
    refine ⟨rfl, fun entries hread => ⟨table.versionChains, ?_, (Except.ok.inj hread).symm⟩⟩
    rw [chainsOf, htable, Option.map_some]

end DatabaseEngine

/-! ### INSERT statements on their way -/

namespace StatementThread

/-- The rows of an INSERT that returned Ok. -/
def inserted (thread : StatementThread) : List Row :=
  match thread.statement, thread.phase with
  | .insert rows, .done _ (.ok _) => rows
  | _, _ => []

/-- An INSERT into the table of a name. It has read an end of the table that is not behind the one there is now, and
not before the first one. -/
def InsertsInto (name : String) (first : Nat) (chains : Option (List Chain)) (thread : StatementThread) : Prop :=
  thread.tableName = name ∧ ∃ rows, thread.statement = .insert rows ∧
    ∀ entries, thread.phase = .computed entries → ∃ current, chains = some current ∧
      ∃ start, first ≤ start ∧ start ≤ current.length ∧ entries = insertEntries name start rows

end StatementThread

namespace StatementMachine

variable {name : String} {start : DatabaseEngine} {machine : StatementMachine}

/-- INSERT statements into one table, none of which has read. -/
def inserting (start : DatabaseEngine) (name : String) (inserts : List (List Row × CommitOrders)) : StatementMachine :=
  ready start name (inserts.map fun (rows, orders) => (.insert rows, orders))

/-- An INSERT that commits finds none of its positions taken. -/
def AppendsAtEnd (machine : StatementMachine) (position : Nat) : Prop :=
  ∀ thread entries, machine.threads[position]? = some thread → thread.phase = .computed entries →
    ∀ entry ∈ entries, (machine.engine.chainsIn thread.tableName).length ≤ entry.rowIdx

/-- The table has its old rows and one live row for each row of each INSERT that returned Ok, and each of these rows
is where its statement put it. -/
structure NoRowLost (name : String) (start : DatabaseEngine) (machine : StatementMachine) : Prop where
  live : (machine.engine.liveRows name).Perm (start.liveRows name ++ machine.threads.flatMap StatementThread.inserted)
  placed : ∀ thread ∈ machine.threads, ∀ written count, thread.phase = .done written (.ok count) →
    ∀ entry ∈ written, ∀ row, entry.operation = .insert row →
      rowAt (machine.engine.chainsIn name) entry.rowIdx = some row

/-- What the steps of INSERT statements keep, on whatever schedule: the old chains are untouched, and every chain
behind them holds a row. -/
structure Inserting (name : String) (start : DatabaseEngine) (machine : StatementMachine) : Prop where
  wellFormed : machine.engine.WellFormed
  plain : machine.engine.NoUniqueIndex name
  unheld : machine.engine.UnheldFrom name (start.chainsIn name).length
  threads : ∀ thread ∈ machine.threads,
    thread.InsertsInto name (start.chainsIn name).length (machine.engine.chainsOf name)
  old : (machine.engine.chainsIn name).take (start.chainsIn name).length = start.chainsIn name
  live : ∀ position chain, (start.chainsIn name).length ≤ position →
    (machine.engine.chainsIn name)[position]? = some chain → (liveRow chain).isSome
  count : (machine.engine.chainsIn name).length ≤
    (start.chainsIn name).length + (machine.threads.flatMap StatementThread.inserted).length

theorem Inserting.length_le (h : Inserting name start machine) :
    (start.chainsIn name).length ≤ (machine.engine.chainsIn name).length := by
  have hlength := congrArg List.length h.old
  rw [List.length_take] at hlength
  omega

/-- What a step of INSERT statements can do: it reads, or it places the rows of one of them. -/
inductive InsertStep (name : String) (first : Nat) (machine : StatementMachine) (position : Nat) :
    StatementMachine → Prop
  | quiet (threads : List StatementThread) (happends : AppendsAtEnd machine position)
      (hinserted : (threads.flatMap StatementThread.inserted).Perm (machine.threads.flatMap StatementThread.inserted))
      (hthreads : ∀ thread ∈ threads, thread ∈ machine.threads ∨
        thread.InsertsInto name first (machine.engine.chainsOf name) ∧
          ∀ written count, thread.phase = .done written (.ok count) → written = []) :
      InsertStep name first machine position { machine with threads }
  | placed (thread : StatementThread) (rows : List Row) (current : Nat) (chains after : List Chain)
      (engine : DatabaseEngine) (hthread : machine.threads[position]? = some thread)
      (hname : thread.tableName = name) (hstatement : thread.statement = .insert rows)
      (hphase : thread.phase = .computed (insertEntries name current rows)) (hlow : first ≤ current)
      (hhigh : current ≤ chains.length) (hchains : machine.engine.chainsOf name = some chains)
      (hwf : engine.WellFormed) (hplain : engine.NoUniqueIndex name)
      (hactive : engine.mvcc.activeTxns ⊆ machine.engine.mvcc.activeTxns) (hafter : engine.chainsOf name = some after)
      (hplaced : RowsPlaced machine.engine.mvcc.nextTxid current rows chains after)
      (hinactive : machine.engine.mvcc.nextTxid ∉ engine.mvcc.activeTxns) :
      InsertStep name first machine position
        { engine
          threads := machine.threads.set position
            { thread with phase := .done (insertEntries name current rows) (.ok rows.length) } }

theorem Inserting.insertStep (h : Inserting name start machine) (position : Nat) :
    InsertStep name (start.chainsIn name).length machine position (machine.step position) := by
  have hquiet (threads : List StatementThread) :=
    @InsertStep.quiet name (start.chainsIn name).length machine position threads
  cases hthread : machine.threads[position]? with
  | none =>
      rw [step_of_none hthread]
      refine hquiet machine.threads (fun thread entries hother => ?_) (.refl _) fun thread hmem => Or.inl hmem
      rw [hthread] at hother
      cases hother
  | some thread =>
      rw [step_of_thread hthread]
      obtain ⟨tableName, statement, orders, phase⟩ := thread
      obtain ⟨hname, rows, hstatement, hcomputed⟩ := h.threads _ (List.mem_of_getElem? hthread)
      obtain rfl : tableName = name := hname
      obtain rfl : statement = .insert rows := hstatement
      obtain ⟨hengine, hentries⟩ := machine.engine.readPhase_insert tableName rows
      have happends (hphase : ∀ entries, phase ≠ .computed entries) : AppendsAtEnd machine position := by
        intro other entries hother hother'
        rw [← Option.some.inj (hthread.symm.trans hother)] at hother'
        exact absurd hother' (hphase entries)
      -- A thread that reads adds no row, and neither does what it becomes.
      have hread (next : StatementThread) (hphase : phase = .ready) (hnext : next.inserted = [])
          (hinto : next.InsertsInto tableName (start.chainsIn tableName).length (machine.engine.chainsOf tableName))
          (hdone : ∀ written count, next.phase = .done written (.ok count) → written = []) :
          InsertStep tableName (start.chainsIn tableName).length machine position
            { machine with threads := machine.threads.set position next } := by
        refine hquiet _ (happends fun entries heq => ?_) ?_ fun other hother => ?_
        · rw [hphase] at heq
          cases heq
        · have hperm := flatMap_set_perm StatementThread.inserted hthread
            (by rw [StatementThread.inserted, hphase]) next
          rwa [hnext, List.append_nil] at hperm
        · rcases List.mem_or_eq_of_mem_set hother with hold | rfl
          · exact Or.inl hold
          · exact Or.inr ⟨hinto, hdone⟩
      have hspec := StatementThread.advance_spec ⟨tableName, .insert rows, orders, phase⟩ machine.engine
      generalize (StatementThread.advance ⟨tableName, .insert rows, orders, phase⟩ machine.engine).1 = next at hspec ⊢
      generalize (StatementThread.advance ⟨tableName, .insert rows, orders, phase⟩ machine.engine).2 = after at hspec ⊢
      cases hspec with
      | fail err hphase hread' =>
          rw [hengine]
          refine hread _ hphase rfl ⟨rfl, rows, rfl, ?_⟩ ?_
          · rintro entries ⟨⟩
          · rintro written count ⟨⟩
      | skip entries hphase hread' hskips =>
          cases hskips
      | read entries hphase hread' hwrites =>
          obtain ⟨chains, hchains, rfl⟩ := hentries entries hread'
          rw [hengine]
          refine hread _ hphase rfl ⟨rfl, rows, rfl, ?_⟩ ?_
          · rintro computed ⟨⟩
            refine ⟨chains, hchains, chains.length, ?_, le_rfl, rfl⟩
            rw [← DatabaseEngine.chainsIn_of_some hchains]
            exact h.length_le
          · rintro written count ⟨⟩
      | write entries hphase =>
          obtain ⟨chains, hchains, current, hlow, hhigh, rfl⟩ := hcomputed entries hphase
          have hunheld : machine.engine.UnheldFrom tableName current :=
            fun other hother => h.unheld other (hlow.trans hother)
          obtain ⟨hok, hwf, hplain, hactive, after, hafter, hplaced, hinactive⟩ :=
            DatabaseEngine.writePhase_inserts h.wellFormed h.plain hchains hhigh hunheld orders rows
          rw [hok]
          exact .placed _ rows current chains after _ hthread rfl rfl hphase hlow hhigh hchains hwf hplain
            hactive hafter hplaced hinactive
      | idle written result hphase =>
          refine hquiet _ (happends fun entries heq => ?_) ?_ fun other hother => Or.inl ?_
          · cases heq.symm.trans hphase
          · rw [set_same hthread]
          · rwa [set_same hthread] at hother

theorem Inserting.step (h : Inserting name start machine) (position : Nat) :
    Inserting name start (machine.step position) := by
  have hstep := h.insertStep position
  generalize machine.step position = next at hstep
  cases hstep with
  | quiet threads happends hinserted hthreads =>
      refine ⟨h.wellFormed, h.plain, h.unheld, fun thread hthread => ?_, h.old, h.live, ?_⟩
      · rcases hthreads thread hthread with hold | ⟨hnew, -⟩
        · exact h.threads thread hold
        · exact hnew
      · rw [hinserted.length_eq]
        exact h.count
  | placed thread rows current chains after engine hthread hname hstatement hphase hlow hhigh hchains hwf hplain hactive
      hafter hplaced hinactive =>
      have hbefore := DatabaseEngine.chainsIn_of_some hchains
      have hnow := DatabaseEngine.chainsIn_of_some hafter
      have hnone : thread.inserted = [] := by rw [StatementThread.inserted, hstatement, hphase]
      refine ⟨hwf, hplain, fun other hother chain hchain version hversion => ?_, fun other hother => ?_, ?_,
        fun other chain hother hchain => ?_, ?_⟩
      · rw [hnow] at hchain
        rcases hplaced.cases other with hsame | ⟨i, row, -, -, hnew⟩
        · have hold := h.unheld other hother chain (by rw [hbefore, ← hsame, hchain]) version hversion
          exact fun hmem => hold (hactive hmem)
        · obtain rfl := Option.some.inj (hnew.symm.trans hchain)
          rw [currentVersion_placed] at hversion
          rw [← Option.some.inj hversion]
          exact hinactive
      · rcases List.mem_or_eq_of_mem_set hother with hold | rfl
        · obtain ⟨htable, given, hgiven, hcomputed⟩ := h.threads other hold
          refine ⟨htable, given, hgiven, fun entries hentries => ?_⟩
          obtain ⟨found, hfound, first, hfirst, hle, rfl⟩ := hcomputed entries hentries
          obtain rfl := Option.some.inj (hchains.symm.trans hfound)
          have hlength := hplaced.length
          exact ⟨after, hafter, first, hfirst, by omega, rfl⟩
        · refine ⟨hname, rows, hstatement, ?_⟩
          rintro entries ⟨⟩
      · apply Eq.trans _ h.old
        rw [hnow, hbefore]
        apply List.ext_getElem?
        intro other
        rw [List.getElem?_take, List.getElem?_take]
        split
        · rename_i hlt
          exact hplaced.others other (Or.inl (hlt.trans_le hlow))
        · rfl
      · rw [hnow] at hchain
        rcases hplaced.cases other with hsame | ⟨i, row, -, -, hnew⟩
        · exact h.live other chain hother (by rw [hbefore, ← hsame, hchain])
        · obtain rfl := Option.some.inj (hnew.symm.trans hchain)
          rw [liveRow_extendChain]
          rfl
      · have hcount := h.count
        have hperm := (flatMap_set_perm StatementThread.inserted hthread hnone
          { thread with phase := .done (insertEntries name current rows) (.ok rows.length) }).length_eq
        rw [List.length_append] at hperm
        rw [hbefore] at hcount
        rw [hnow, hperm, hplaced.length]
        have hinserted : StatementThread.inserted
            { thread with phase := .done (insertEntries name current rows) (.ok rows.length) } = rows := by
          rw [StatementThread.inserted, hstatement]
        rw [hinserted]
        omega

/-- How many rows of INSERT statements that returned Ok have no chain of their own. -/
def lost (name : String) (start : DatabaseEngine) (machine : StatementMachine) : Nat :=
  (start.chainsIn name).length + (machine.threads.flatMap StatementThread.inserted).length -
    (machine.engine.chainsIn name).length

/-- The positions of an INSERT are behind the end of a table when it has no row or starts there. -/
private theorem behind_insertEntries_iff {start length : Nat} {rows : List Row} :
    (∀ entry ∈ insertEntries name start rows, length ≤ entry.rowIdx) ↔ rows = [] ∨ length ≤ start := by
  cases rows with
  | nil => simp [insertEntries]
  | cons row rest =>
      constructor
      · intro h
        have hfirst := h { tableName := name, rowIdx := start, oldTxidMax := u64Max, operation := .insert row }
          (by rw [insertEntries_cons]; exact List.mem_cons_self)
        exact Or.inr hfirst
      · rintro (hnil | hle) entry hentry
        · cases hnil
        · obtain ⟨⟨added, i⟩, -, rfl⟩ := List.mem_map.mp hentry
          exact hle.trans (Nat.le_add_right start i)

private theorem appendsAtEnd_iff {position : Nat} {thread : StatementThread} {rows : List Row} {current : Nat}
    (hthread : machine.threads[position]? = some thread) (hname : thread.tableName = name)
    (hphase : thread.phase = .computed (insertEntries name current rows)) :
    AppendsAtEnd machine position ↔ rows = [] ∨ (machine.engine.chainsIn name).length ≤ current := by
  rw [← @behind_insertEntries_iff name, ← hname]
  constructor
  · intro h
    exact h thread _ hthread (hname ▸ hphase)
  · intro h other entries hother hcomputed
    obtain rfl := Option.some.inj (hthread.symm.trans hother)
    cases hcomputed.symm.trans hphase
    exact hname ▸ h

/-- A step loses rows exactly when an INSERT that commits finds a position of its own taken. -/
theorem Inserting.lost_step (h : Inserting name start machine) (position : Nat) :
    machine.lost name start ≤ (machine.step position).lost name start ∧
      ((machine.step position).lost name start = machine.lost name start ↔ AppendsAtEnd machine position) := by
  have hstep := h.insertStep position
  generalize machine.step position = next at hstep
  cases hstep with
  | quiet threads happends hinserted hthreads =>
      have hsame : lost name start { machine with threads } = machine.lost name start := by
        rw [lost, lost, hinserted.length_eq]
      rw [hsame]
      exact ⟨le_rfl, iff_of_true rfl happends⟩
  | placed thread rows current chains after engine hthread hname hstatement hphase hlow hhigh hchains hwf hplain hactive
      hafter hplaced hinactive =>
      have hinserted : StatementThread.inserted
          { thread with phase := .done (insertEntries name current rows) (.ok rows.length) } = rows := by
        rw [StatementThread.inserted, hstatement]
      have hperm := (flatMap_set_perm StatementThread.inserted hthread
        (by rw [StatementThread.inserted, hstatement, hphase])
        { thread with phase := .done (insertEntries name current rows) (.ok rows.length) }).length_eq
      have hcount := h.count
      rw [appendsAtEnd_iff hthread hname hphase, lost, lost, hperm, List.length_append, hinserted,
        DatabaseEngine.chainsIn_of_some hafter, hplaced.length]
      rw [DatabaseEngine.chainsIn_of_some hchains] at hcount ⊢
      rw [← List.length_eq_zero_iff]
      constructor <;> omega

/-- While every INSERT finds its positions free, no row is lost. -/
theorem NoRowLost.step (h : NoRowLost name start machine) (hinv : Inserting name start machine) {position : Nat}
    (hguard : AppendsAtEnd machine position) : NoRowLost name start (machine.step position) := by
  have hstep := hinv.insertStep position
  generalize machine.step position = next at hstep
  cases hstep with
  | quiet threads happends hinserted hthreads =>
      refine ⟨h.live.trans (hinserted.symm.append_left _), fun thread hthread written count hdone entry hentry => ?_⟩
      rcases hthreads thread hthread with hold | ⟨-, hnone⟩
      · exact h.placed thread hold written count hdone entry hentry
      · rw [hnone written count hdone] at hentry
        cases hentry
  | placed thread rows current chains after engine hthread hname hstatement hphase hlow hhigh hchains hwf hplain hactive
      hafter hplaced hinactive =>
      have hbefore := DatabaseEngine.chainsIn_of_some hchains
      have hnow := DatabaseEngine.chainsIn_of_some hafter
      have happended : after = chains ++ rows.map fun row => [.newInsert machine.engine.mvcc.nextTxid row] := by
        rcases (appendsAtEnd_iff hthread hname hphase).mp hguard with rfl | hle
        · apply List.ext_getElem?
          intro other
          rw [hplaced.others other (Nat.lt_or_ge other current), List.map_nil, List.append_nil]
        · rw [hbefore] at hle
          obtain rfl : current = chains.length := Nat.le_antisymm hhigh hle
          exact hplaced.append
      have hinserted : StatementThread.inserted
          { thread with phase := .done (insertEntries name current rows) (.ok rows.length) } = rows := by
        rw [StatementThread.inserted, hstatement]
      have hrows : (rows.map fun row => [RowVersion.newInsert machine.engine.mvcc.nextTxid row]).filterMap liveRow =
          rows := by
        rw [List.filterMap_map]
        exact List.filterMap_some
      have hperm := flatMap_set_perm StatementThread.inserted hthread
        (by rw [StatementThread.inserted, hstatement, hphase])
        { thread with phase := .done (insertEntries name current rows) (.ok rows.length) }
      have hlive := h.live
      rw [DatabaseEngine.liveRows, hbefore] at hlive
      refine ⟨?_, fun other hother written count hdone entry hentry row hoperation => ?_⟩
      · rw [DatabaseEngine.liveRows, hnow, happended, List.filterMap_append, hrows]
        rw [hinserted] at hperm
        calc List.Perm (chains.filterMap liveRow ++ rows)
              (start.liveRows name ++ machine.threads.flatMap StatementThread.inserted ++ rows) :=
            hlive.append_right rows
          List.Perm _ (start.liveRows name ++ (machine.threads.flatMap StatementThread.inserted ++ rows)) :=
            .of_eq (List.append_assoc _ _ _)
          List.Perm _ _ := hperm.symm.append_left _
      · rw [hnow, happended, rowAt]
        rcases List.mem_or_eq_of_mem_set hother with hold | rfl
        · have hplace := h.placed other hold written count hdone entry hentry row hoperation
          rw [hbefore, rowAt] at hplace
          obtain ⟨chain, hchain, hrow⟩ := Option.bind_eq_some_iff.mp hplace
          rw [List.getElem?_append_left (List.getElem?_eq_some_iff.mp hchain).1, hchain]
          exact hrow
        · cases hdone
          obtain ⟨⟨added, i⟩, hadded, rfl⟩ := List.mem_map.mp hentry
          obtain rfl : added = row := WriteOp.insert.inj hoperation
          have hi := List.mem_zipIdx_iff_getElem?.mp hadded
          rw [← happended, hplaced.placed i added hi]
          exact liveRow_extendChain _ _ _

theorem mem_inserting {inserts : List (List Row × CommitOrders)} {thread : StatementThread}
    (h : thread ∈ (inserting start name inserts).threads) :
    ∃ rows orders, thread = { tableName := name, statement := .insert rows, orders, phase := .ready } := by
  obtain ⟨given, hgiven, rfl⟩ := List.mem_map.mp h
  obtain ⟨⟨rows, orders⟩, -, rfl⟩ := List.mem_map.mp hgiven
  exact ⟨rows, orders, rfl⟩

theorem inserted_inserting (start : DatabaseEngine) (name : String) (inserts : List (List Row × CommitOrders)) :
    (inserting start name inserts).threads.flatMap StatementThread.inserted = [] := by
  refine List.flatMap_eq_nil_iff.mpr fun thread hthread => ?_
  obtain ⟨rows, orders, rfl⟩ := mem_inserting hthread
  rfl

theorem lost_inserting (start : DatabaseEngine) (name : String) (inserts : List (List Row × CommitOrders)) :
    (inserting start name inserts).lost name start = 0 := by
  rw [lost, inserted_inserting]
  exact Nat.sub_self _

theorem inserting_ready (hwf : start.WellFormed) (hindexes : start.NoUniqueIndex name)
    (inserts : List (List Row × CommitOrders)) : Inserting name start (inserting start name inserts) := by
  have hnone : ∀ position chain, (start.chainsIn name).length ≤ position →
      (start.chainsIn name)[position]? ≠ some chain := by
    intro position chain hle hchain
    rw [List.getElem?_eq_none hle] at hchain
    cases hchain
  refine ⟨hwf, hindexes, fun position hle chain hchain => absurd hchain (hnone position chain hle), fun thread hthread => ?_,
    List.take_length, fun position chain hle hchain => absurd hchain (hnone position chain hle), Nat.le_add_right _ _⟩
  obtain ⟨rows, orders, rfl⟩ := mem_inserting hthread
  exact ⟨rfl, rows, rfl, fun entries hphase => nomatch hphase⟩

theorem Inserting.run (h : Inserting name start machine) (schedule : List Nat) :
    Inserting name start (schedule.foldl StatementMachine.step machine) :=
  (Reaches.foldl schedule machine).invariant (fun _ position h _ => h.step position) h

/-- With a live row for each row inserted, every one of them has a chain of its own. -/
theorem Inserting.lost_eq_zero (h : Inserting name start machine) (hkept : NoRowLost name start machine) :
    machine.lost name start = 0 := by
  have hrows : machine.engine.liveRows name = start.liveRows name ++
      ((machine.engine.chainsIn name).drop (start.chainsIn name).length).filterMap liveRow := by
    conv_lhs => rw [DatabaseEngine.liveRows, ← List.take_append_drop (start.chainsIn name).length
      (machine.engine.chainsIn name), h.old, List.filterMap_append]
    rfl
  have hnew : (((machine.engine.chainsIn name).drop (start.chainsIn name).length).filterMap liveRow).length =
      ((machine.engine.chainsIn name).drop (start.chainsIn name).length).length := by
    refine List.filterMap_length_eq_length.mpr fun chain hchain => ?_
    obtain ⟨position, hposition⟩ := List.mem_iff_getElem?.mp hchain
    rw [List.getElem?_drop] at hposition
    exact h.live _ chain (Nat.le_add_right _ _) hposition
  have hle := h.length_le
  have hlength := hkept.live.length_eq
  rw [hrows, List.length_append, List.length_append, hnew, List.length_drop] at hlength
  rw [lost]
  omega

/-- No row is lost on a schedule exactly when every INSERT that commits finds its positions free. -/
theorem no_row_lost_iff (hstart : start.SerialReachable fun _ _ => True) (hindexes : start.NoUniqueIndex name)
    (inserts : List (List Row × CommitOrders)) (schedule : List Nat) :
    NoRowLost name start (schedule.foldl step (inserting start name inserts)) ↔
      Meets step AppendsAtEnd (inserting start name inserts) schedule := by
  have hready := inserting_ready hstart.wellFormed hindexes inserts
  constructor
  · intro hkept
    have hfinal := hready.run schedule
    have hlost : (schedule.foldl step (inserting start name inserts)).lost name start =
        (inserting start name inserts).lost name start := by
      rw [hfinal.lost_eq_zero hkept, lost_inserting]
    exact (Meets.iff_constant (fun _ position h => h.step position) (fun _ position h => (h.lost_step position).1)
      (fun _ position h => (h.lost_step position).2) hready schedule).mpr hlost
  · intro hmeets
    have hrun : Reaches step AppendsAtEnd (inserting start name inserts)
        (schedule.foldl step (inserting start name inserts)) := .of_meets hmeets
    refine (hrun.invariant (P := fun machine => Inserting name start machine ∧ NoRowLost name start machine)
      (fun machine position h hguard => ⟨h.1.step position, h.2.step h.1 hguard⟩) ⟨hready, ?_, ?_⟩).2
    · rw [inserted_inserting, List.append_nil]
      exact .refl _
    · intro thread hthread written count hdone
      obtain ⟨rows, orders, rfl⟩ := mem_inserting hthread
      cases hdone

open Machine (emptyTable emptyTable_reachable)

/-- An INSERT of one row. -/
def insertsOne (value : Datum) : List Row × CommitOrders := ([{ values := [value] }], .asGiven)

theorem no_row_lost_in_turn :
    NoRowLost "t" emptyTable
      ([0, 0, 1, 1].foldl step (inserting emptyTable "t" [insertsOne (.integer 1), insertsOne (.integer 2)])) := by
  refine (no_row_lost_iff emptyTable_reachable ?_ [insertsOne (.integer 1), insertsOne (.integer 2)] [0, 0, 1, 1]).mpr ?_
  · rintro table htable index hindex
    cases htable
    cases hindex
  · refine ⟨?_, ?_, ?_, ?_, trivial⟩
    · rintro thread entries ⟨⟩ ⟨⟩
    · rintro thread entries ⟨⟩ ⟨⟩
      decide
    · rintro thread entries ⟨⟩ ⟨⟩
    · rintro thread entries ⟨⟩ ⟨⟩
      decide

/-- Both INSERT statements read the empty table before either commits. Both return Ok, and one row is left. -/
theorem not_no_row_lost_overlapping :
    emptyTable.SerialReachable (fun _ _ => True) ∧ emptyTable.NoUniqueIndex "t" ∧
      ([0, 1, 0, 1].foldl step (inserting emptyTable "t" [insertsOne (.integer 1), insertsOne (.integer 2)])).threads.map
        StatementThread.isOk = [true, true] ∧
      ([0, 1, 0, 1].foldl step
        (inserting emptyTable "t" [insertsOne (.integer 1), insertsOne (.integer 2)])).engine.liveRows "t" =
          [{ values := [.integer 2] }] ∧
      ¬ NoRowLost "t" emptyTable
        ([0, 1, 0, 1].foldl step (inserting emptyTable "t" [insertsOne (.integer 1), insertsOne (.integer 2)])) := by
  refine ⟨emptyTable_reachable, ?_, rfl, rfl, fun hkept => ?_⟩
  · rintro table htable index hindex
    cases htable
    cases hindex
  · have hlength := hkept.live.length_eq
    revert hlength
    decide

end StatementMachine

end HelionDb
