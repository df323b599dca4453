import HelionDb.Concurrent

/-! Commits that overlap. A commit installs chains that it computed from its copy, so whatever was installed
on the same table since the copy was taken is lost. When every commit finds the tables it names as it copied
them, the steps of any number of commits come to what whole commits do, one after another in the order in
which they install. -/

namespace HelionDb

section Congr

variable {tx : Transaction} {left right : String → Option Table}

/-- The checks read the copies of the named tables. -/
theorem checksAccept_congr (h : ∀ name ∈ tx.tableNames, left name = right name)
    (haccept : ChecksAccept tx left) : ChecksAccept tx right := by
  have hentry : ∀ entry ∈ tx.writeSet, left entry.tableName = right entry.tableName :=
    fun entry hentry => h _ (Transaction.mem_tableNames.mpr ⟨entry, hentry, rfl⟩)
  obtain ⟨hconflicts, hunique⟩ := haccept
  refine ⟨checkConflicts_ok_iff.mpr fun entry hmem => ?_, Loop.checkAll_ok_iff.mpr fun entry hmem => ?_⟩
  · rw [conflictOf, ← hentry entry hmem]
    exact checkConflicts_ok_iff.mp hconflicts entry hmem
  · rw [checkUniqueEntry, ← hentry entry hmem]
    exact Loop.checkAll_ok_iff.mp hunique entry hmem

/-- So does the in-memory phase. -/
theorem installWrites_congr (h : ∀ name ∈ tx.tableNames, left name = right name) (order : HashOrder)
    (tables : List Table) : installWrites order tx left tables = installWrites order tx right tables := by
  refine Loop.runAll_congr _ (fun name hname state => ?_) tables
  have hname := h name (order.mem_order.mp hname)
  have hmaintain : ∀ chains table, installOn tx left name chains table = installOn tx right name chains table := by
    intro chains table
    refine Loop.runAll_congr _ (fun entry hentry state => ?_) _
    rw [maintainEntry, maintainEntry, (Transaction.mem_entriesOf.mp hentry).2, hname]
  have hwrites : applyWriteSet tx left name = applyWriteSet tx right name := by
    rw [applyWriteSet, applyWriteSet, hname, tableChanges_congr hname]
  rw [installTable, installTable, hwrites]
  simp only [hmaintain]

end Congr

/-! ### Versions that stay -/

/-- The version stays: its creator, row and deletion flag, and its `txid_max` once it is set. -/
structure VersionKept (old new : RowVersion) : Prop where
  creator : new.txidMin = old.txidMin
  row : new.row = old.row
  deleted : new.isDeleted = old.isDeleted
  closed : old.txidMax ≠ u64Max → new.txidMax = old.txidMax

/-- Every version stays at its position. -/
def ChainsKept (before after : List Chain) : Prop :=
  ∀ (rowIdx : Nat) (chain : Chain), before[rowIdx]? = some chain →
    ∃ later : Chain, after[rowIdx]? = some later ∧
      ∀ (position : Nat) (version : RowVersion), chain[position]? = some version →
        ∃ kept, later[position]? = some kept ∧ VersionKept version kept

theorem VersionKept.refl (version : RowVersion) : VersionKept version version := ⟨rfl, rfl, rfl, fun _ => rfl⟩

theorem VersionKept.trans {first second third : RowVersion} (h : VersionKept first second)
    (h' : VersionKept second third) : VersionKept first third where
  creator := h'.creator.trans h.creator
  row := h'.row.trans h.row
  deleted := h'.deleted.trans h.deleted
  closed := by
    intro hclosed
    have hsecond := h.closed hclosed
    exact (h'.closed (hsecond ▸ hclosed)).trans hsecond

namespace ChainsKept

theorem refl (chains : List Chain) : ChainsKept chains chains :=
  fun _ chain hchain => ⟨chain, hchain, fun _ version hversion => ⟨version, hversion, .refl version⟩⟩

theorem trans {first second third : List Chain} (h : ChainsKept first second) (h' : ChainsKept second third) :
    ChainsKept first third := by
  intro rowIdx chain hchain
  obtain ⟨middle, hmiddle, hversions⟩ := h rowIdx chain hchain
  obtain ⟨last, hlast, hversions'⟩ := h' rowIdx middle hmiddle
  refine ⟨last, hlast, fun position version hversion => ?_⟩
  obtain ⟨kept, hkept, hfirst⟩ := hversions position version hversion
  obtain ⟨kept', hkept', hsecond⟩ := hversions' position kept hkept
  exact ⟨kept', hkept', hfirst.trans hsecond⟩

theorem placeVersion (txid : Nat) {chains : List Chain} (hopen : ∀ chain ∈ chains, LastOpen chain)
    (change : Nat × RowVersion) : ChainsKept chains (HelionDb.placeVersion txid chains change) := by
  obtain ⟨row, version⟩ := change
  intro rowIdx chain hchain
  have hrowIdx := (List.getElem?_eq_some_iff.mp hchain).1
  by_cases hrow : rowIdx = row
  · subst hrow
    refine ⟨extendChain txid version chain, ?_, fun position old hold => ?_⟩
    · rw [getElem?_placeVersion_self hrowIdx, (List.getElem?_eq_some_iff.mp hchain).2]
    · obtain ⟨prior, latest, rfl, hlatest⟩ := hopen chain (List.mem_of_getElem? hchain)
      rw [extendChain, closeLatest_concat, List.append_assoc]
      rcases Nat.lt_or_ge position prior.length with hbefore | hafter
      · rw [List.getElem?_append_left hbefore] at hold ⊢
        exact ⟨old, hold, .refl old⟩
      · rw [List.getElem?_append_right hafter] at hold ⊢
        have hlast := (List.getElem?_eq_some_iff.mp hold).1
        rw [List.length_singleton] at hlast
        obtain hposition : position - prior.length = 0 := by omega
        rw [hposition] at hold ⊢
        obtain rfl := Option.some.inj hold
        exact ⟨_, rfl, rfl, rfl, rfl, fun hclosed => absurd hlatest hclosed⟩
  · exact ⟨chain, (getElem?_placeVersion_of_ne hrowIdx hrow).trans hchain,
      fun position old hold => ⟨old, hold, .refl old⟩⟩

theorem placeAll {txid : Nat} {chains : List Chain} {changes : List (Nat × RowVersion)}
    (hopen : ∀ chain ∈ chains, LastOpen chain)
    (hchanges : ∀ change ∈ changes, change.2.txidMin = txid ∧ change.2.txidMax = u64Max) :
    ChainsKept chains (HelionDb.placeAll txid chains changes) := by
  induction changes generalizing chains with
  | nil => exact .refl chains
  | cons change rest ih =>
      obtain ⟨hmin, hmax⟩ := hchanges change List.mem_cons_self
      refine (placeVersion txid hopen change).trans (ih ?_ fun other hother => ?_)
      · exact (lastOpen_rule txid).placeVersion hopen hmin hmax
      · exact hchanges other (List.mem_cons_of_mem _ hother)

end ChainsKept

namespace DatabaseEngine

variable {engine start : DatabaseEngine} {orders : CommitOrders} {tx : Transaction}

/-- Engines on which chains grow at their ends. -/
structure Sturdy (engine : DatabaseEngine) : Prop where
  wellFormed : engine.WellFormed
  live : AllChains LastOpen engine.tables
  logged : AllChains LastOpen engine.recovered

theorem Sturdy.commit (h : engine.Sturdy) (orders : CommitOrders) (tx : Transaction) :
    (engine.commit orders tx).2.2.Sturdy := by
  obtain ⟨hlive, hlogged⟩ := chains_commit (fun _ => lastOpen_rule tx.txId) h.live h.logged orders
  exact ⟨h.wellFormed.commit orders tx, hlive, hlogged⟩

/-- With its versions placed a table keeps the versions it had. -/
theorem Sturdy.placedChains (h : engine.Sturdy) (tx : Transaction) {name : String} {chains : List Chain}
    (hchains : engine.chainsOf name = some chains) :
    ∃ placed, engine.placedChains tx name = some placed ∧ ChainsKept chains placed := by
  refine ⟨placeAll tx.txId chains (tableChanges tx (snapshotTables engine.tables) name), ?_, ?_⟩
  · rw [DatabaseEngine.placedChains, hchains, Option.map_some]
  · obtain ⟨table, htable, rfl⟩ := Option.map_eq_some_iff.mp hchains
    refine .placeAll (h.live table (h.wellFormed.findTable_eq_some.mp htable).1) fun change hchange => ?_
    exact ⟨(mem_tableChanges hchange).1, (mem_tableChanges hchange).2.1⟩

theorem Sturdy.chainsKept_commit (h : engine.Sturdy) (orders : CommitOrders) (tx : Transaction) {name : String}
    {chains : List Chain} (hchains : engine.chainsOf name = some chains) :
    ∃ later, (engine.commit orders tx).2.2.chainsOf name = some later ∧ ChainsKept chains later := by
  rcases chainsOf_commit_cases h.wellFormed orders tx name with hsame | ⟨-, -, hplaced⟩
  · exact ⟨chains, hsame.trans hchains, .refl chains⟩
  · obtain ⟨placed, heq, hkept⟩ := h.placedChains tx hchains
    exact ⟨placed, hplaced.trans heq, hkept⟩

/-- The whole commit of a thread's transaction. -/
def commitThread (engine : DatabaseEngine) (thread : CommitThread) : DatabaseEngine :=
  (engine.commit thread.orders thread.request).2.2

/-- It returns Ok. -/
def ThreadCommits (engine : DatabaseEngine) (thread : CommitThread) : Prop :=
  (engine.commit thread.orders thread.request).1 = .ok ()

theorem Sturdy.commits (h : start.Sturdy) (order : List CommitThread) :
    (order.foldl commitThread start).Sturdy := by
  induction order generalizing start with
  | nil => exact h
  | cons thread rest ih => exact ih (h.commit thread.orders thread.request)

theorem Sturdy.chainsKept_commits (h : start.Sturdy) (order : List CommitThread) {name : String}
    {chains : List Chain} (hchains : start.chainsOf name = some chains) :
    ∃ later, (order.foldl commitThread start).chainsOf name = some later ∧ ChainsKept chains later := by
  induction order generalizing start chains with
  | nil => exact ⟨chains, hchains, .refl chains⟩
  | cons thread rest ih =>
      obtain ⟨middle, hmiddle, hfirst⟩ := h.chainsKept_commit thread.orders thread.request hchains
      obtain ⟨last, hlast, hsecond⟩ := ih (h.commit thread.orders thread.request) hmiddle
      exact ⟨last, hlast, hfirst.trans hsecond⟩

end DatabaseEngine

/-! ### Runs -/

namespace CommitThread

/-- What a phase says of the checks behind it. -/
def PhaseOk (thread : CommitThread) : Prop :=
  match thread.phase with
  | .cloned _ => thread.tx.status = .inProgress
  | .conflictFree copy =>
      thread.tx.status = .inProgress ∧ checkConflicts thread.tx (snapshotTables copy) = .ok ()
  | .uniqueChecked copy | .logged copy | .stored copy =>
      thread.tx.status = .inProgress ∧ ChecksAccept thread.tx (snapshotTables copy)
  | .ready | .done _ => True

theorem PhaseOk.advance {thread next : CommitThread} {engine after : DatabaseEngine} (h : thread.PhaseOk)
    (hadvance : Advance thread engine next after) : next.PhaseOk := by
  unfold PhaseOk at h
  cases hadvance with
  | refuse | storeFail | install | installFail => trivial
  | clone hphase hrunning => exact hrunning
  | conflictFree copy hphase hcheck =>
      rw [hphase] at h
      exact ⟨h, hcheck⟩
  | uniqueChecked copy hphase hcheck =>
      rw [hphase] at h
      exact ⟨h.1, h.2, hcheck⟩
  | log copy hphase | store copy catalog hphase =>
      rw [hphase] at h
      exact h
  | idle result hphase =>
      unfold PhaseOk
      rw [hphase]
      trivial

end CommitThread

namespace Machine

variable {start : DatabaseEngine} {machine : Machine}

/-- A commit that installs finds the tables it names as it copied them, and its index maintenance goes
through. -/
def InstallGuard (machine : Machine) : MachineOp → Prop
  | .advance position => ∀ thread copy, machine.threads[position]? = some thread → thread.phase = .stored copy →
      (∀ name ∈ thread.tx.tableNames, snapshotTables copy name = snapshotTables machine.engine.tables name) ∧
        machine.engine.CommitSafe thread.tx
  | _ => True

/-- The tables in memory are those after whole commits of the transactions whose commits returned Ok. -/
structure Serialized (start : DatabaseEngine) (machine : Machine) (order : List CommitThread) : Prop where
  perm : order.Perm (machine.threads.filter CommitThread.isOk)
  commits : Meets DatabaseEngine.commitThread DatabaseEngine.ThreadCommits start order
  tables : (order.foldl DatabaseEngine.commitThread start).tables = machine.engine.tables
  routing : (order.foldl DatabaseEngine.commitThread start).catalog.SameRouting machine.engine.catalog

/-- What the steps of commits keep. -/
structure Linearized (start : DatabaseEngine) (machine : Machine) : Prop where
  phases : ∀ thread ∈ machine.threads, thread.PhaseOk
  serial : ∃ order, Serialized start machine order

theorem filter_set_perm {threads : List CommitThread} {position : Nat} {thread : CommitThread}
    (hthread : threads[position]? = some thread) (hopen : thread.isOk = false) (next : CommitThread) :
    ((threads.set position next).filter CommitThread.isOk).Perm
      (threads.filter CommitThread.isOk ++ [next].filter CommitThread.isOk) := by
  obtain ⟨hlt, rfl⟩ := List.getElem?_eq_some_iff.mp hthread
  have hsplit : threads = threads.take position ++ threads[position] :: threads.drop (position + 1) := by
    rw [List.cons_getElem_drop_succ, List.take_append_drop]
  have hfilter : threads.filter CommitThread.isOk = (threads.take position).filter CommitThread.isOk ++
      (threads.drop (position + 1)).filter CommitThread.isOk := by
    conv_lhs => rw [hsplit]
    rw [List.filter_append, List.filter_cons_of_neg (by rw [hopen]; exact Bool.false_ne_true)]
  rw [List.set_eq_take_append_cons_drop, if_pos hlt, hfilter, List.filter_append, List.append_assoc,
    ← List.singleton_append, List.filter_append]
  exact (List.perm_append_comm).append_left _

/-- An install under the guard does in memory what the whole commit does. -/
theorem Serialized.install {order : List CommitThread} (h : Serialized start machine order)
    (hstart : start.Sturdy) {thread : CommitThread} {copy : List Table} (hrunning : thread.tx.status = .inProgress)
    (haccept : ChecksAccept thread.tx (snapshotTables copy))
    (hcopy : ∀ name ∈ thread.tx.tableNames, snapshotTables copy name = snapshotTables machine.engine.tables name)
    (hsafe : machine.engine.CommitSafe thread.tx) :
    let serial := order.foldl DatabaseEngine.commitThread start
    (serial.commit thread.orders thread.tx).1 = .ok () ∧
      (installWrites thread.orders.memory thread.tx (snapshotTables copy) machine.engine.tables).1 = .ok () ∧
      (serial.commit thread.orders thread.tx).2.2.tables =
        (installWrites thread.orders.memory thread.tx (snapshotTables copy) machine.engine.tables).2 := by
  intro serial
  have hserial : serial.Sturdy := hstart.commits order
  have haccepted : ChecksAccept thread.tx (snapshotTables serial.tables) := by
    rw [h.tables]
    exact checksAccept_congr hcopy haccept
  have hserialSafe : serial.CommitSafe thread.tx := by
    refine ⟨fun name hname => (h.routing.holds_iff name).mpr (hsafe.held name hname), ?_⟩
    rw [h.tables]
    exact hsafe.maintained
  have hok : (serial.commit thread.orders thread.tx).1 = .ok () :=
    (DatabaseEngine.commit_ok_iff hserial.wellFormed hrunning haccepted).mpr hserialSafe
  obtain ⟨-, hinstalled, hcommit⟩ := DatabaseEngine.commit_ok hok
  rw [h.tables, ← installWrites_congr hcopy] at hinstalled
  refine ⟨hok, hinstalled, ?_⟩
  rw [hcommit, h.tables, ← installWrites_congr hcopy]

/-- A step that returns no Ok and leaves the tables alone keeps the order. -/
theorem Serialized.quiet {order : List CommitThread} (h : Serialized start machine order) {next : Machine}
    (hperm : (machine.threads.filter CommitThread.isOk).Perm (next.threads.filter CommitThread.isOk))
    (htables : next.engine.tables = machine.engine.tables)
    (hrouting : machine.engine.catalog.SameRouting next.engine.catalog) : Serialized start next order :=
  ⟨h.perm.trans hperm, h.commits, h.tables.trans htables.symm, h.routing.trans hrouting⟩

theorem Linearized.advance (h : Linearized start machine) (hstart : start.Sturdy) {position : Nat}
    {thread : CommitThread} (hthread : machine.threads[position]? = some thread)
    (hguard : InstallGuard machine (.advance position)) {next : CommitThread} {after : DatabaseEngine}
    (hadvance : CommitThread.Advance thread machine.engine next after) :
    Linearized start { machine with engine := after, threads := machine.threads.set position next } := by
  have hphase := h.phases thread (List.mem_of_getElem? hthread)
  obtain ⟨order, hserial⟩ := h.serial
  have hperm : next.isOk = false → thread.isOk = false →
      (machine.threads.filter CommitThread.isOk).Perm
        ((machine.threads.set position next).filter CommitThread.isOk) := by
    intro hnext hopen
    have hset := filter_set_perm hthread hopen next
    rw [List.filter_cons_of_neg (by rw [hnext]; exact Bool.false_ne_true), List.filter_nil,
      List.append_nil] at hset
    exact hset.symm
  have hopen : ∀ phase, thread.phase = phase → (∀ result, phase ≠ .done result) → thread.isOk = false := by
    rintro phase rfl hnot
    unfold CommitThread.isOk
    cases hthreadPhase : thread.phase with
    | done result => exact absurd hthreadPhase (hnot result)
    | ready | cloned | conflictFree | uniqueChecked | logged | stored => rfl
  refine ⟨fun other hother => ?_, ?_⟩
  · rcases List.mem_or_eq_of_mem_set hother with hold | rfl
    · exact h.phases other hold
    · exact hphase.advance hadvance
  · cases hadvance with
    | refuse tx err mvcc hnot => exact ⟨order, hserial.quiet (hperm rfl hnot) rfl (.refl _)⟩
    | clone hready | conflictFree _ hready | uniqueChecked _ hready | log _ hready =>
        exact ⟨order, hserial.quiet (hperm rfl (hopen _ hready (by simp))) rfl (.refl _)⟩
    | store copy catalog hready hrouting =>
        exact ⟨order, hserial.quiet (hperm rfl (hopen _ hready (by simp))) rfl hrouting.symm⟩
    | storeFail err catalog hnot hrouting => exact ⟨order, hserial.quiet (hperm rfl hnot) rfl hrouting.symm⟩
    | install copy hready hok =>
        obtain ⟨hcopy, hsafe⟩ := hguard thread copy hthread hready
        have hchecked : thread.tx.status = .inProgress ∧ ChecksAccept thread.tx (snapshotTables copy) := by
          unfold CommitThread.PhaseOk at hphase
          rwa [hready] at hphase
        obtain ⟨hcommits, -, htables⟩ := hserial.install hstart hchecked.1 hchecked.2 hcopy hsafe
        have hrequest := CommitThread.request_committed hchecked.1
        refine ⟨order ++ [thread.committed], ⟨?_, hserial.commits.concat ?_, ?_, ?_⟩⟩
        · have hset := filter_set_perm hthread (hopen _ hready (by simp)) thread.committed
          exact (hserial.perm.append_right [thread.committed]).trans hset.symm
        · rw [DatabaseEngine.ThreadCommits, hrequest]
          exact hcommits
        · rw [List.foldl_append, List.foldl_cons, List.foldl_nil, DatabaseEngine.commitThread, hrequest]
          exact htables
        · rw [List.foldl_append, List.foldl_cons, List.foldl_nil, DatabaseEngine.commitThread, hrequest]
          exact (DatabaseEngine.commit_frame _ _ _).2.1.trans hserial.routing
    | installFail copy err hready hfail =>
        obtain ⟨hcopy, hsafe⟩ := hguard thread copy hthread hready
        have hchecked : thread.tx.status = .inProgress ∧ ChecksAccept thread.tx (snapshotTables copy) := by
          unfold CommitThread.PhaseOk at hphase
          rwa [hready] at hphase
        obtain ⟨-, hok, -⟩ := hserial.install hstart hchecked.1 hchecked.2 hcopy hsafe
        rw [hok] at hfail
        cases hfail
    | idle result hdone =>
        refine ⟨order, hserial.quiet ?_ rfl (.refl _)⟩
        obtain ⟨hlt, rfl⟩ := List.getElem?_eq_some_iff.mp hthread
        rw [List.set_getElem_self]

theorem Linearized.step (h : Linearized start machine) (hstart : start.Sturdy) {op : MachineOp}
    (hguard : InstallGuard machine op) : Linearized start (machine.step op) := by
  rcases step_cases machine op with ⟨entries, orders, -, hstep⟩ | ⟨position, thread, rfl, hthread, hstep⟩ |
    ⟨-, hstep⟩ | ⟨position, copy, -, -, hstep⟩ | hstep
  · rw [hstep]
    obtain ⟨order, hserial⟩ := h.serial
    refine ⟨fun thread hthread => ?_, order, hserial.quiet ?_ rfl (.refl _)⟩
    · rcases List.mem_append.mp hthread with hold | hnew
      · exact h.phases thread hold
      · rw [List.mem_singleton.mp hnew]
        trivial
    · rw [List.filter_append, List.filter_cons_of_neg Bool.false_ne_true, List.filter_nil, List.append_nil]
  · rw [hstep]
    exact h.advance hstart hthread hguard (CommitThread.advance_spec thread machine.engine)
  · rw [hstep]
    obtain ⟨order, hserial⟩ := h.serial
    exact ⟨h.phases, order, hserial.quiet (.refl _) rfl (.refl _)⟩
  · rw [hstep]
    obtain ⟨order, hserial⟩ := h.serial
    exact ⟨h.phases, order, hserial.quiet (.refl _) rfl (.refl _)⟩
  · rw [hstep]
    exact h

theorem sturdy_of_reachable {guard : DatabaseEngine → SerialCall → Prop} (h : start.SerialReachable guard) :
    start.Sturdy := ⟨h.wellFormed, h.lastOpen.1, h.lastOpen.2⟩

/-- The steps of any number of commits, under the guard, come to whole commits of the transactions that
returned Ok, in some order; and what each of these placed, versions and `txid_max` alike, is still there. -/
theorem concurrent_commits_serialize (hstart : start.SerialReachable fun _ _ => True)
    (hrun : Reaches step InstallGuard (idle start) machine) :
    ∃ order : List CommitThread, order.Perm (machine.threads.filter CommitThread.isOk) ∧
      Meets DatabaseEngine.commitThread DatabaseEngine.ThreadCommits start order ∧
      (order.foldl DatabaseEngine.commitThread start).tables = machine.engine.tables ∧
      ∀ prior thread later, order = prior ++ thread :: later → ∀ name placed,
        (prior.foldl DatabaseEngine.commitThread start).placedChains thread.request name = some placed →
          ∃ chains, machine.engine.chainsOf name = some chains ∧ ChainsKept placed chains := by
  have hsturdy := sturdy_of_reachable hstart
  have hidle : Linearized start (idle start) :=
    ⟨by simp [idle], [], ⟨.refl _, trivial, rfl, .refl _⟩⟩
  obtain ⟨-, order, hperm, hcommits, htables, -⟩ :=
    hrun.invariant (fun _ _ h hguard => Linearized.step h hsturdy hguard) hidle
  refine ⟨order, hperm, hcommits, htables, ?_⟩
  rintro prior thread later rfl name placed hplaced
  have hok : DatabaseEngine.ThreadCommits (prior.foldl DatabaseEngine.commitThread start) thread :=
    (Meets.append_iff.mp hcommits).2.1
  have hmiddle := (hsturdy.commits prior).commit thread.orders thread.request
  have hchains := DatabaseEngine.chainsOf_commit_of_ok (hsturdy.commits prior).wellFormed hok name
  obtain ⟨chains, hlast, hkept⟩ := hmiddle.chainsKept_commits later (hchains.trans hplaced)
  refine ⟨chains, ?_, hkept⟩
  rw [DatabaseEngine.chainsOf, ← htables, List.foldl_append]
  exact hlast

/-- A table without rows. -/
def emptyTable : DatabaseEngine :=
  [({ op := .execute (.createTable "t" [ColumnMeta.new "a" .integer] none), orders := .asGiven } : SerialCall)].foldl
    DatabaseEngine.serialStep (.fresh "disk")

/-- A transaction that inserts a value at the first position. -/
def insertsFirst (value : Datum) : MachineOp :=
  .begin (insertEntries "t" 0 [{ values := [value] }]) .asGiven

theorem emptyTable_reachable : emptyTable.SerialReachable fun _ _ => True := ⟨"disk", .foldl [_] _⟩

/-- One commit from its beginning to its end. -/
def commitAlone : List MachineOp := insertsFirst (.integer 1) :: List.replicate 6 (.advance 0)

private theorem installGuard_of_phase {machine : Machine} {position : Nat}
    (h : ∀ thread, machine.threads[position]? = some thread → ∀ copy, thread.phase ≠ .stored copy) :
    InstallGuard machine (.advance position) := fun thread copy hthread hphase => absurd hphase (h thread hthread copy)

/-- Two tables without rows. -/
def emptyTables : DatabaseEngine :=
  [({ op := .execute (.createTable "t" [ColumnMeta.new "a" .integer] none), orders := .asGiven } : SerialCall),
    { op := .execute (.createTable "u" [ColumnMeta.new "a" .integer] none), orders := .asGiven }].foldl
    DatabaseEngine.serialStep (.fresh "disk")

/-- One commit on each of two tables, which take their steps in turn. -/
def commitsAlternate : List MachineOp :=
  [.begin (insertEntries "t" 0 [{ values := [.integer 1] }, { values := [.integer 2] }]) .asGiven,
      .begin (insertEntries "u" 0 [{ values := [.integer 3] }]) .asGiven] ++
    (List.replicate 6 [MachineOp.advance 0, .advance 1]).flatten

theorem commitsAlternate_guarded : Meets step InstallGuard (idle emptyTables) commitsAlternate := by
  refine ⟨trivial, trivial, ?_⟩
  iterate 10 refine ⟨installGuard_of_phase (by rintro thread ⟨⟩ copy ⟨⟩), ?_⟩
  refine ⟨fun thread copy hthread hphase => ?_, fun thread copy hthread hphase => ?_, trivial⟩
  · cases hthread
    cases hphase
    refine ⟨fun name hname => ?_, by decide, fun name hname table htable index hindex => ?_⟩ <;>
      obtain rfl := List.mem_singleton.mp (show name ∈ ["t"] from hname)
    · rfl
    · cases htable
      cases hindex
  · cases hthread
    cases hphase
    refine ⟨fun name hname => ?_, by decide, fun name hname table htable index hindex => ?_⟩ <;>
      obtain rfl := List.mem_singleton.mp (show name ∈ ["u"] from hname)
    · rfl
    · cases htable
      cases hindex

theorem concurrent_commits_serialize_alternate :
    (commitsAlternate.foldl step (idle emptyTables)).threads.map CommitThread.isOk = [true, true] ∧
      ∃ order : List CommitThread,
        order.Perm ((commitsAlternate.foldl step (idle emptyTables)).threads.filter CommitThread.isOk) ∧
        Meets DatabaseEngine.commitThread DatabaseEngine.ThreadCommits emptyTables order ∧
        (order.foldl DatabaseEngine.commitThread emptyTables).tables =
          (commitsAlternate.foldl step (idle emptyTables)).engine.tables ∧
        ∀ prior thread later, order = prior ++ thread :: later → ∀ name placed,
          (prior.foldl DatabaseEngine.commitThread emptyTables).placedChains thread.request name = some placed →
            ∃ chains, (commitsAlternate.foldl step (idle emptyTables)).engine.chainsOf name = some chains ∧
              ChainsKept placed chains :=
  ⟨rfl, concurrent_commits_serialize ⟨"disk", .foldl [_, _] _⟩ (.of_meets commitsAlternate_guarded)⟩

/-- Two commits that both copy the empty table and then install one after the other. -/
def commitsOverlap : List MachineOp :=
  [insertsFirst (.integer 1), insertsFirst (.integer 2), .advance 0, .advance 1] ++
    List.replicate 5 (.advance 0) ++ List.replicate 5 (.advance 1)

/-- Both return Ok, and the row of the first one is lost. -/
theorem not_concurrent_commits_overlap :
    emptyTable.SerialReachable (fun _ _ => True) ∧
      Reaches step (fun _ _ => True) (idle emptyTable) (commitsOverlap.foldl step (idle emptyTable)) ∧
      (commitsOverlap.foldl step (idle emptyTable)).threads.map CommitThread.isOk = [true, true] ∧
      (commitsOverlap.foldl step (idle emptyTable)).engine.chainsOf "t" =
        some [[.newInsert 2 { values := [.integer 2] }]] :=
  ⟨emptyTable_reachable, .foldl _ _, rfl, rfl⟩

end Machine

end HelionDb
