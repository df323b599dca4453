import Mathlib.Data.List.Permutation
import HelionDb.Contents

/-! UPDATE and DELETE statements whose phases interleave. The transaction of a statement begins after the statement
has read, so its snapshot has none of the statements in between among its active ids, and nothing conflicts. When
every statement that writes would read the same again, the statements that returned Ok come to whole statements, one
after another in the order in which they wrote. -/

namespace HelionDb

namespace RowStatement

/-- A statement over selected rows takes a snapshot when it reads. -/
def takesSnapshot : RowStatement → Bool
  | insert _ => false
  | update _ _ => true
  | delete _ => true

theorem takesSnapshot_of_skips {statement : RowStatement} {entries : List WriteEntry}
    (h : statement.skipsWrite entries = true) : statement.takesSnapshot = true := by
  cases statement with
  | insert rows => cases h
  | update assignments filter => rfl
  | delete filter => rfl

end RowStatement

namespace DatabaseEngine

variable {engine : DatabaseEngine} {name : String} {statement : RowStatement} {entries : List WriteEntry}

/-- A statement that could compute its entries has read its table, and its entries are for that table. -/
theorem readPhase_known (hread : (engine.readPhase name statement).1 = .ok entries) :
    (findTable name engine.tables).isSome ∧ ∀ entry ∈ entries, entry.tableName = name := by
  cases htable : findTable name engine.tables with
  | none =>
      simp only [readPhase, htable] at hread
      cases hread
  | some table =>
      refine ⟨rfl, ?_⟩
      cases statement with
      | insert rows =>
          simp only [readPhase, htable, Except.ok.injEq] at hread
          rw [← hread]
          exact fun entry hentry => tableName_of_mem_insertEntries hentry
      | update assignments filter =>
          cases hentries : updateEntries name assignments (engine.selectRows table filter) with
          | none =>
              simp only [readPhase, htable, hentries] at hread
              cases hread
          | some given =>
              simp only [readPhase, htable, hentries, Except.ok.injEq] at hread
              rw [← hread]
              exact (overRows_updateEntries hentries).named
      | delete filter =>
          simp only [readPhase, htable, Except.ok.injEq] at hread
          rw [← hread]
          exact (overRows_deleteEntries name _).named

theorem readPhase_after (hread : (engine.readPhase name statement).1 = .ok entries) :
    (engine.readPhase name statement).2 = if statement.takesSnapshot then engine.readSnapshot.2 else engine := by
  cases htable : findTable name engine.tables with
  | none =>
      simp only [readPhase, htable] at hread
      cases hread
  | some table =>
      cases statement with
      | insert rows => simp only [readPhase, htable, RowStatement.takesSnapshot, Bool.false_eq_true, if_false]
      | update assignments filter =>
          cases hentries : updateEntries name assignments (engine.selectRows table filter) <;>
            simp only [readPhase, htable, hentries, RowStatement.takesSnapshot, if_true]
      | delete filter => simp only [readPhase, htable, RowStatement.takesSnapshot, if_true]

theorem begin_nextTxid (hroom : engine.CounterRoom) : engine.begin.2.mvcc.nextTxid = engine.mvcc.nextTxid + 1 :=
  (begun_of_pending hroom (pending_writeCall engine .asGiven [])).counter

theorem readSnapshot_nextTxid (hroom : engine.CounterRoom) :
    engine.readSnapshot.2.mvcc.nextTxid = engine.mvcc.nextTxid + 1 := begin_nextTxid hroom

theorem writePhase_nextTxid (hroom : engine.CounterRoom) (orders : CommitOrders) (entries : List WriteEntry) :
    (engine.writePhase orders entries).2.mvcc.nextTxid = engine.mvcc.nextTxid + 1 := by
  rw [writePhase_eq, commit_nextTxid]
  exact begin_nextTxid hroom

theorem Steady.readPhase (h : engine.Steady) (hroom : engine.CounterRoom) (name : String) (statement : RowStatement) :
    (engine.readPhase name statement).2.Steady := by
  rcases readPhase_engine engine name statement with hsame | hread
  · rw [hsame]
    exact h
  · rw [hread]
    exact h.readSnapshot hroom

theorem nextTxid_le_readPhase (hroom : engine.CounterRoom) (name : String) (statement : RowStatement) :
    engine.mvcc.nextTxid ≤ (engine.readPhase name statement).2.mvcc.nextTxid := by
  rcases readPhase_engine engine name statement with hsame | hread
  · rw [hsame]
  · rw [hread, readSnapshot_nextTxid hroom]
    exact Nat.le_succ _

theorem Steady.writePhase (h : engine.Steady) (hroom : engine.CounterRoom) {orders : CommitOrders}
    (hsafe : engine.AcceptedSafe (writeCall orders entries)) : (engine.writePhase orders entries).2.Steady := by
  have htransition := serialStep_transition engine (writeCall orders entries)
  exact h.transition ⟨hroom, hsafe⟩ htransition

/-- A safe write phase is stopped by the uniqueness check or returns Ok. -/
theorem Steady.writePhase_cases (h : engine.Steady) {orders : CommitOrders}
    (hsafe : engine.AcceptedSafe (writeCall orders entries)) :
    (∃ err, engine.writePhase orders entries = (.error err, engine.begin.2)) ∨
      (engine.writePhase orders entries).1 = .ok entries.length := by
  cases hchecked : checkUniqueWrites (engine.beginWith entries) (snapshotTables engine.tables) with
  | error err => exact Or.inl ⟨err, h.writePhase_refused hchecked⟩
  | ok u =>
      have haccept : ChecksAccept (engine.beginWith entries) (snapshotTables engine.tables) :=
        ⟨h.checkConflicts_ok entries, hchecked⟩
      have hok : (engine.begin.2.commit orders (engine.beginWith entries)).1 = .ok () :=
        (commit_ok_iff h.begun rfl haccept).mpr (hsafe _ _ (pending_writeCall engine orders entries) haccept)
      rw [writePhase_eq, hok]
      exact Or.inr rfl

end DatabaseEngine

/-! ### Whole statements -/

namespace StatementThread

/-- The engine after the whole statement of a thread. -/
def executed (engine : DatabaseEngine) (thread : StatementThread) : DatabaseEngine :=
  (engine.execute thread.orders (thread.statement.plan thread.tableName)).2

/-- The whole statement returns what the thread returned. -/
def Returns (engine : DatabaseEngine) (thread : StatementThread) : Prop :=
  ∃ written count, thread.phase = .done written (.ok count) ∧
    (engine.execute thread.orders (thread.statement.plan thread.tableName)).1 = .ok count

/-- The thread has taken a snapshot and not begun its transaction. -/
def isBetween (thread : StatementThread) : Bool :=
  match thread.phase with
  | .computed _ => thread.statement.takesSnapshot
  | _ => false

end StatementThread

namespace StatementMachine

open DatabaseEngine

variable {start : DatabaseEngine} {machine : StatementMachine}

/-- Ids are left. A statement that writes would compute the same entries from the rows that are there now, and its
commit, if the checks accept it, is safe. -/
structure StatementGuard (machine : StatementMachine) (position : Nat) : Prop where
  room : machine.engine.CounterRoom
  current : ∀ thread entries, machine.threads[position]? = some thread → thread.phase = .computed entries →
    (machine.engine.readPhase thread.tableName thread.statement).1 = .ok entries
  safe : ∀ thread entries, machine.threads[position]? = some thread → thread.phase = .computed entries →
    machine.engine.AcceptedSafe (DatabaseEngine.writeCall thread.orders entries)

/-- The tables hold what whole statements leave: those of the threads that returned Ok, in this order. -/
structure Ordered (start : DatabaseEngine) (machine : StatementMachine) (order : List StatementThread) : Prop where
  perm : order.Perm (machine.threads.filter StatementThread.isOk)
  returns : Meets StatementThread.executed StatementThread.Returns start order
  steady : (order.foldl StatementThread.executed start).Steady
  contents : machine.engine.tables.map Table.contents =
    (order.foldl StatementThread.executed start).tables.map Table.contents
  ids : (order.foldl StatementThread.executed start).mvcc.nextTxid + machine.threads.countP StatementThread.isBetween ≤
    machine.engine.mvcc.nextTxid

/-- What the steps of statements keep. -/
structure Serializable (start : DatabaseEngine) (machine : StatementMachine) : Prop where
  steady : machine.engine.Steady
  writes : ∀ thread ∈ machine.threads, ∀ entries, thread.phase = .computed entries →
    thread.statement.skipsWrite entries = false
  ordered : ∃ order, Ordered start machine order

/-- What one thread adds to the threads that returned Ok. -/
theorem filter_isOk_set {threads : List StatementThread} {position : Nat} {thread : StatementThread}
    (hthread : threads[position]? = some thread) (hnot : thread.isOk = false) (next : StatementThread) :
    ((threads.set position next).filter StatementThread.isOk).Perm
      (threads.filter StatementThread.isOk ++ [next].filter StatementThread.isOk) := by
  obtain ⟨hlt, rfl⟩ := List.getElem?_eq_some_iff.mp hthread
  have hsplit : threads = threads.take position ++ threads[position] :: threads.drop (position + 1) := by
    rw [List.cons_getElem_drop_succ, List.take_append_drop]
  have hthreads : threads.filter StatementThread.isOk =
      (threads.take position).filter StatementThread.isOk ++ (threads.drop (position + 1)).filter StatementThread.isOk := by
    conv_lhs => rw [hsplit]
    rw [List.filter_append, List.filter_cons, hnot, if_neg Bool.false_ne_true]
  rw [List.set_eq_take_append_cons_drop, if_pos hlt, hthreads, ← List.singleton_append, List.filter_append,
    List.filter_append, List.append_assoc]
  exact List.perm_append_comm.append_left _

/-- What one thread adds to the count of those between their phases. -/
theorem countP_isBetween_set {threads : List StatementThread} {position : Nat} {thread : StatementThread}
    (hthread : threads[position]? = some thread) (next : StatementThread) :
    (threads.set position next).countP StatementThread.isBetween + (if thread.isBetween then 1 else 0) =
      threads.countP StatementThread.isBetween + (if next.isBetween then 1 else 0) := by
  obtain ⟨hlt, rfl⟩ := List.getElem?_eq_some_iff.mp hthread
  have hcount := @List.countP_set _ StatementThread.isBetween threads position next hlt
  have hpos : threads[position].isBetween = true → 0 < threads.countP StatementThread.isBetween :=
    fun h => List.countP_pos_iff.mpr ⟨_, List.getElem_mem hlt, h⟩
  rw [hcount]
  split
  · have := hpos ‹_›
    omega
  · omega

variable {order : List StatementThread} {position : Nat} {thread next : StatementThread} {after : DatabaseEngine}

/-- A step that changes no row. -/
theorem Ordered.keep (h : Ordered start machine order) (hthread : machine.threads[position]? = some thread)
    (hnot : thread.isOk = false) (hnext : next.isOk = false)
    (hcontents : after.tables.map Table.contents = machine.engine.tables.map Table.contents)
    (hids : machine.engine.mvcc.nextTxid + (if next.isBetween then 1 else 0) ≤
      after.mvcc.nextTxid + (if thread.isBetween then 1 else 0)) :
    Ordered start { engine := after, threads := machine.threads.set position next } order := by
  refine ⟨h.perm.trans ?_, h.returns, h.steady, hcontents.trans h.contents, ?_⟩
  · have hfilter := filter_isOk_set hthread hnot next
    rw [List.filter_cons, hnext, if_neg Bool.false_ne_true, List.filter_nil, List.append_nil] at hfilter
    exact hfilter.symm
  · show (order.foldl StatementThread.executed start).mvcc.nextTxid +
      (machine.threads.set position next).countP StatementThread.isBetween ≤ after.mvcc.nextTxid
    have hcount := countP_isBetween_set hthread next
    have hold := h.ids
    omega

/-- A step that ends a statement, against the whole statement after the others. -/
theorem Ordered.append (h : Ordered start machine order) (hthread : machine.threads[position]? = some thread)
    (hnot : thread.isOk = false) (hnext : next.Returns (order.foldl StatementThread.executed start))
    (hsteady : (StatementThread.executed (order.foldl StatementThread.executed start) next).Steady)
    (hcontents : after.tables.map Table.contents =
      (StatementThread.executed (order.foldl StatementThread.executed start) next).tables.map Table.contents)
    (hids : (StatementThread.executed (order.foldl StatementThread.executed start) next).mvcc.nextTxid +
        machine.engine.mvcc.nextTxid ≤
      after.mvcc.nextTxid + (order.foldl StatementThread.executed start).mvcc.nextTxid +
        (if thread.isBetween then 1 else 0)) :
    Ordered start { engine := after, threads := machine.threads.set position next } (order ++ [next]) := by
  have hfold : (order ++ [next]).foldl StatementThread.executed start =
      StatementThread.executed (order.foldl StatementThread.executed start) next := List.foldl_concat ..
  have hok : next.isOk = true ∧ next.isBetween = false := by
    obtain ⟨written, count, hphase, -⟩ := hnext
    exact ⟨by rw [StatementThread.isOk, hphase], by rw [StatementThread.isBetween, hphase]⟩
  refine ⟨?_, h.returns.concat hnext, by rwa [hfold], by rwa [hfold], ?_⟩
  · have hfilter := filter_isOk_set hthread hnot next
    rw [List.filter_cons, hok.1, if_pos rfl, List.filter_nil] at hfilter
    exact (h.perm.append_right [next]).trans hfilter.symm
  · have hcount := countP_isBetween_set hthread next
    have hold := h.ids
    rw [hok.2, if_neg Bool.false_ne_true] at hcount
    rw [hfold]
    show _ + (machine.threads.set position next).countP StatementThread.isBetween ≤ after.mvcc.nextTxid
    omega

/-- The serial engine has ids left too. -/
theorem Ordered.room (h : Ordered start machine order) (hguard : StatementGuard machine position) :
    (order.foldl StatementThread.executed start).CounterRoom := by
  have hroom := hguard.room
  have hids := h.ids
  unfold DatabaseEngine.CounterRoom at hroom ⊢
  omega

/-- A statement that selected no row does so after the others as well. -/
theorem Ordered.skip (h : Ordered start machine order) (hsteady : machine.engine.Steady)
    (hguard : StatementGuard machine position) (hthread : machine.threads[position]? = some thread)
    (hphase : thread.phase = .ready) {entries : List WriteEntry}
    (hread : (machine.engine.readPhase thread.tableName thread.statement).1 = .ok entries)
    (hskips : thread.statement.skipsWrite entries = true) :
    Ordered start { engine := (machine.engine.readPhase thread.tableName thread.statement).2
                    threads := machine.threads.set position { thread with phase := .done [] (.ok 0) } }
      (order ++ [{ thread with phase := .done [] (.ok 0) }]) := by
  have hsnapshot := RowStatement.takesSnapshot_of_skips hskips
  have hserial := (hsteady.readPhase_eq h.steady h.contents thread.tableName thread.statement).symm.trans hread
  have hexecute : (order.foldl StatementThread.executed start).execute thread.orders
      (thread.statement.plan thread.tableName) =
        (.ok 0, (order.foldl StatementThread.executed start).readSnapshot.2) := by
    have hafter := readPhase_after hserial
    rw [execute_plan]
    generalize (order.foldl StatementThread.executed start).readPhase thread.tableName thread.statement = read at hserial hafter ⊢
    obtain ⟨result, after⟩ := read
    obtain rfl : result = .ok entries := hserial
    rw [hsnapshot, if_pos rfl] at hafter
    obtain rfl : after = _ := hafter
    exact if_pos hskips
  have hexecuted : StatementThread.executed (order.foldl StatementThread.executed start)
      { thread with phase := .done [] (.ok 0) } = (order.foldl StatementThread.executed start).readSnapshot.2 :=
    congrArg Prod.snd hexecute
  refine h.append hthread (by rw [StatementThread.isOk, hphase]) ⟨[], 0, rfl, congrArg Prod.fst hexecute⟩ ?_ ?_ ?_
  · rw [hexecuted]
    exact h.steady.readSnapshot (h.room hguard)
  · rw [hexecuted, readPhase_tables]
    exact h.contents
  · rw [hexecuted, readPhase_after hread, hsnapshot, if_pos rfl, readSnapshot_nextTxid (h.room hguard),
      readSnapshot_nextTxid hguard.room]
    omega

/-- A statement that reads joins those between their phases. -/
theorem Ordered.read (h : Ordered start machine order) (hguard : StatementGuard machine position)
    (hthread : machine.threads[position]? = some thread) (hphase : thread.phase = .ready) {entries : List WriteEntry}
    (hread : (machine.engine.readPhase thread.tableName thread.statement).1 = .ok entries) :
    Ordered start { engine := (machine.engine.readPhase thread.tableName thread.statement).2
                    threads := machine.threads.set position { thread with phase := .computed entries } } order := by
  refine h.keep hthread (by rw [StatementThread.isOk, hphase]) rfl (by rw [readPhase_tables]) ?_
  rw [readPhase_after hread]
  show machine.engine.mvcc.nextTxid + (if thread.statement.takesSnapshot then 1 else 0) ≤ _
  split
  · rw [readSnapshot_nextTxid hguard.room]
    exact Nat.le_add_right _ _
  · exact Nat.le_add_right _ _

/-- A statement that writes what it would read now leaves what it leaves as a whole after the others. -/
theorem Ordered.write (h : Ordered start machine order) (hsteady : machine.engine.Steady)
    (hguard : StatementGuard machine position) (hthread : machine.threads[position]? = some thread)
    {entries : List WriteEntry} (hphase : thread.phase = .computed entries)
    (hwrites : thread.statement.skipsWrite entries = false) :
    ∃ order, Ordered start
      { engine := (machine.engine.writePhase thread.orders entries).2
        threads := machine.threads.set position
          { thread with phase := .done entries (machine.engine.writePhase thread.orders entries).1 } } order := by
  have hread := hguard.current thread entries hthread hphase
  have hsafe := hguard.safe thread entries hthread hphase
  have hserial := (hsteady.readPhase_eq h.steady h.contents thread.tableName thread.statement).symm.trans hread
  have hbetween : thread.isBetween = thread.statement.takesSnapshot := by rw [StatementThread.isBetween, hphase]
  have hnot : thread.isOk = false := by rw [StatementThread.isOk, hphase]
  generalize hserialRead : (order.foldl StatementThread.executed start).readPhase thread.tableName thread.statement =
    read at hserial
  obtain ⟨result, serial⟩ := read
  obtain rfl : result = .ok entries := hserial
  -- The serial engine after its own read.
  have hserialSteady : serial.Steady := by
    have hafter := h.steady.readPhase (h.room hguard) thread.tableName thread.statement
    rwa [hserialRead] at hafter
  have hserialTables : serial.tables = (order.foldl StatementThread.executed start).tables := by
    have hafter := readPhase_tables (order.foldl StatementThread.executed start) thread.tableName thread.statement
    rwa [hserialRead] at hafter
  have hserialIds : serial.mvcc.nextTxid = (order.foldl StatementThread.executed start).mvcc.nextTxid +
      (if thread.isBetween then 1 else 0) := by
    have hafter := readPhase_after (congrArg Prod.fst hserialRead)
    rw [hserialRead, ← hbetween] at hafter
    rw [show serial = _ from hafter]
    split
    · exact readSnapshot_nextTxid (h.room hguard)
    · rfl
  have hids : serial.mvcc.nextTxid ≤ machine.engine.mvcc.nextTxid := by
    have hcount := countP_isBetween_set hthread { thread with phase := .done entries (.ok 0) }
    have hdone : ({ thread with phase := .done entries (.ok 0) } : StatementThread).isBetween = false := rfl
    have hle := h.ids
    rw [hdone, if_neg Bool.false_ne_true] at hcount
    omega
  have hserialRoom : serial.CounterRoom := by
    have hroom := hguard.room
    unfold DatabaseEngine.CounterRoom at hroom ⊢
    omega
  have hsame : machine.engine.tables.map Table.contents = serial.tables.map Table.contents := by
    rw [hserialTables]
    exact h.contents
  have hknown : ∀ entry ∈ entries, (findTable entry.tableName serial.tables).isSome := by
    obtain ⟨hfound, hnamed⟩ := readPhase_known (congrArg Prod.fst hserialRead)
    rw [hserialTables]
    exact fun entry hentry => (hnamed entry hentry).symm ▸ hfound
  obtain ⟨hresult, hcontents, hserialSafe⟩ := hsteady.writePhase_congr hserialSteady hsame hknown hsafe
  have hexecute : (order.foldl StatementThread.executed start).execute thread.orders
      (thread.statement.plan thread.tableName) = serial.writePhase thread.orders entries := by
    rw [execute_plan, hserialRead]
    exact if_neg (Bool.eq_false_iff.mp hwrites)
  rcases hsteady.writePhase_cases hsafe with ⟨err, hrefused⟩ | hok
  · refine ⟨order, ?_⟩
    rw [hrefused]
    refine h.keep hthread hnot rfl rfl ?_
    rw [begin_nextTxid hguard.room]
    show machine.engine.mvcc.nextTxid ≤ _
    omega
  · refine ⟨order ++ [_], h.append hthread hnot ⟨entries, entries.length, congrArg _ hok, ?_⟩ ?_ ?_ ?_⟩
    · show ((order.foldl StatementThread.executed start).execute thread.orders
        (thread.statement.plan thread.tableName)).1 = .ok entries.length
      rw [hexecute, ← hresult, hok]
    · show ((order.foldl StatementThread.executed start).execute thread.orders
        (thread.statement.plan thread.tableName)).2.Steady
      rw [hexecute]
      exact hserialSteady.writePhase hserialRoom hserialSafe
    · show _ = ((order.foldl StatementThread.executed start).execute thread.orders
        (thread.statement.plan thread.tableName)).2.tables.map Table.contents
      rw [hexecute]
      exact hcontents
    · show ((order.foldl StatementThread.executed start).execute thread.orders
        (thread.statement.plan thread.tableName)).2.mvcc.nextTxid + _ ≤ _
      rw [hexecute, writePhase_nextTxid hserialRoom, writePhase_nextTxid hguard.room]
      omega

/-- A guarded step keeps the tables those of whole statements. -/
theorem Serializable.step (h : Serializable start machine) (hguard : StatementGuard machine position) :
    Serializable start (machine.step position) := by
  obtain ⟨order, hordered⟩ := h.ordered
  cases hthread : machine.threads[position]? with
  | none => rwa [step_of_none hthread]
  | some thread =>
      rw [step_of_thread hthread]
      have hwrites (next : StatementThread) (hnext : ∀ entries, next.phase = .computed entries →
          next.statement.skipsWrite entries = false) : ∀ other ∈ machine.threads.set position next, ∀ entries,
            other.phase = .computed entries → other.statement.skipsWrite entries = false := by
        intro other hother
        rcases List.mem_or_eq_of_mem_set hother with hold | rfl
        · exact h.writes other hold
        · exact hnext
      have hreadSteady := h.steady.readPhase hguard.room thread.tableName thread.statement
      have hadvance := thread.advance_spec machine.engine
      generalize (thread.advance machine.engine).1 = next at hadvance ⊢
      generalize (thread.advance machine.engine).2 = after at hadvance ⊢
      cases hadvance with
      | fail err hphase hread =>
          refine ⟨hreadSteady, hwrites _ fun entries hentries => (nomatch hentries), order, ?_⟩
          have hle := nextTxid_le_readPhase hguard.room thread.tableName thread.statement
          refine hordered.keep hthread (by rw [StatementThread.isOk, hphase]) rfl (by rw [readPhase_tables]) ?_
          show machine.engine.mvcc.nextTxid ≤ _
          omega
      | skip entries hphase hread hskips =>
          exact ⟨hreadSteady, hwrites _ fun entries hentries => (nomatch hentries), _,
            hordered.skip h.steady hguard hthread hphase hread hskips⟩
      | read entries hphase hread hskips =>
          refine ⟨hreadSteady, hwrites _ fun given hgiven => ?_, order, hordered.read hguard hthread hphase hread⟩
          obtain rfl := StatementPhase.computed.inj hgiven
          exact hskips
      | write entries hphase =>
          have hskips := h.writes thread (List.mem_of_getElem? hthread) entries hphase
          refine ⟨h.steady.writePhase hguard.room (hguard.safe thread entries hthread hphase),
            hwrites _ fun entries hentries => (nomatch hentries),
            hordered.write h.steady hguard hthread hphase hskips⟩
      | idle written result hphase =>
          rw [set_same hthread]
          exact h

theorem Serializable.ready (hsteady : start.Steady) (name : String) (statements : List (RowStatement × CommitOrders)) :
    Serializable start (ready start name statements) := by
  have hfresh : ∀ thread ∈ (StatementMachine.ready start name statements).threads, thread.phase = .ready := by
    intro thread hthread
    obtain ⟨given, -, rfl⟩ := List.mem_map.mp hthread
    rfl
  refine ⟨hsteady, fun thread hthread entries hphase => ?_, [], ?_, trivial, hsteady, rfl, ?_⟩
  · rw [hfresh thread hthread] at hphase
    cases hphase
  · have hnone : (StatementMachine.ready start name statements).threads.filter StatementThread.isOk = [] := by
      refine List.filter_eq_nil_iff.mpr fun thread hthread => ?_
      rw [StatementThread.isOk, hfresh thread hthread]
      exact Bool.false_ne_true
    rw [hnone]
  · have hnone : (StatementMachine.ready start name statements).threads.countP StatementThread.isBetween = 0 := by
      refine List.countP_eq_zero.mpr fun thread hthread => ?_
      rw [StatementThread.isBetween, hfresh thread hthread]
      exact Bool.false_ne_true
    rw [hnone]
    exact le_rfl

theorem Serializable.run (hsteady : start.Steady) {name : String} {statements : List (RowStatement × CommitOrders)}
    (run : Reaches StatementMachine.step StatementGuard (StatementMachine.ready start name statements) machine) :
    Serializable start machine :=
  run.invariant (fun _ _ h hguard => h.step hguard) (.ready hsteady name statements)

/-- When every statement that writes would read the same again, the rows are those of the statements that returned Ok,
run one after another in some order. -/
theorem concurrent_statements_serialize (hstart : start.SerialReachable SteadyGuard) {name : String}
    {statements : List (RowStatement × CommitOrders)}
    (run : Reaches step StatementGuard (ready start name statements) machine) :
    ∃ order : List StatementThread, order.Perm (machine.threads.filter StatementThread.isOk) ∧
      Meets StatementThread.executed StatementThread.Returns start order ∧
      ∀ tableName, (order.foldl StatementThread.executed start).rowsOf tableName = machine.engine.rowsOf tableName := by
  obtain ⟨order, hordered⟩ := (Serializable.run hstart.isSteady run).ordered
  refine ⟨order, hordered.perm, hordered.returns, fun tableName => ?_⟩
  have hfound := findTable_contents hordered.contents tableName
  have hrows := congrArg (Option.map TableContents.rows) hfound
  rw [Option.map_map, Option.map_map] at hrows
  exact congrArg (fun rows => rows.getD []) hrows.symm

/-! ### Two statements on one row -/

/-- A table of two columns with one row. -/
def oneRow : List SerialCall :=
  [{ op := .execute (.createTable "t" [ColumnMeta.new "a" .integer, ColumnMeta.new "b" .integer] none), orders := .asGiven },
    { op := .execute (.insert "t" [{ values := [.integer 0, .integer 0] }]), orders := .asGiven }]

def oneRowEngine : DatabaseEngine := oneRow.foldl DatabaseEngine.serialStep (.fresh "disk")

/-- An UPDATE that sets one column of every row. -/
def sets (column : Nat) : RowStatement × CommitOrders := (.update [(column, .integer 1)] fun _ => true, .asGiven)

/-- A DELETE of every row. -/
def deletesAll : RowStatement × CommitOrders := (.delete fun _ => true, .asGiven)

theorem oneRow_reachable : oneRowEngine.SerialReachable SteadyGuard := by
  have hcreated : SerialReachable SteadyGuard ((oneRow.take 1).foldl serialStep (fresh "disk")) :=
    ⟨"disk", .of_meets ⟨⟨by unfold CounterRoom; decide, acceptedSafe_of_none rfl⟩, trivial⟩⟩
  obtain ⟨defaultEngine, run⟩ := hcreated
  refine ⟨defaultEngine, run.tail (oneRow.getLast (by decide)) ⟨by unfold CounterRoom; decide, ?_⟩⟩
  exact acceptedSafe_of_ok rfl ((SerialReachable.isSteady ⟨defaultEngine, run⟩).wellFormed.of_frame rfl (.refl _) rfl) rfl

/-- Another row in this table, and an UPDATE of the row with a first value. -/
def secondRow : SerialCall :=
  { op := .execute (.insert "t" [{ values := [.integer 1, .integer 0] }]), orders := .asGiven }

def twoRowsEngine : DatabaseEngine := oneRowEngine.serialStep secondRow

def setsWhere (first : Datum) : RowStatement × CommitOrders :=
  (.update [(1, .integer 1)] fun row => row.values.head? = some first, .asGiven)

theorem twoRows_reachable : twoRowsEngine.SerialReachable SteadyGuard := by
  have hwf := oneRow_reachable.isSteady.wellFormed
  obtain ⟨defaultEngine, run⟩ := oneRow_reachable
  refine ⟨defaultEngine, run.tail secondRow ⟨by unfold CounterRoom; decide, ?_⟩⟩
  exact acceptedSafe_of_ok rfl (hwf.of_frame rfl (.refl _) rfl) rfl

/-- Two of them, each for a row of its own. -/
def setsApart : StatementMachine := ready twoRowsEngine "t" [setsWhere (.integer 0), setsWhere (.integer 1)]

/-- Both statements read before either writes. -/
theorem concurrent_statements_serialize_apart :
    ([0, 1, 0, 1].foldl step setsApart).threads.map StatementThread.isOk = [true, true] ∧
      ∃ order : List StatementThread,
        order.Perm (([0, 1, 0, 1].foldl step setsApart).threads.filter StatementThread.isOk) ∧
        Meets StatementThread.executed StatementThread.Returns twoRowsEngine order ∧
        ∀ tableName, (order.foldl StatementThread.executed twoRowsEngine).rowsOf tableName =
          ([0, 1, 0, 1].foldl step setsApart).engine.rowsOf tableName := by
  have hsteady := twoRows_reachable.isSteady
  have hfirst : Meets step StatementGuard setsApart [0, 1, 0] := by
    refine ⟨⟨by unfold CounterRoom; decide, ?_, ?_⟩, ⟨by unfold CounterRoom; decide, ?_, ?_⟩,
      ⟨by unfold CounterRoom; decide, ?_, ?_⟩, trivial⟩
    · rintro thread entries ⟨⟩ ⟨⟩
    · rintro thread entries ⟨⟩ ⟨⟩
    · rintro thread entries ⟨⟩ ⟨⟩
    · rintro thread entries ⟨⟩ ⟨⟩
    · rintro thread entries ⟨⟩ ⟨⟩
      rfl
    · rintro thread entries ⟨⟩ ⟨⟩
      exact acceptedSafe_of_ok rfl (hsteady.wellFormed.of_frame rfl (.refl _) rfl) rfl
  have hmiddle := (Serializable.run hsteady (.of_meets hfirst)).steady
  have hrun : Meets step StatementGuard setsApart ([0, 1, 0] ++ [1]) := by
    refine Meets.append_iff.mpr ⟨hfirst, ⟨by unfold CounterRoom; decide, ?_, ?_⟩, trivial⟩
    · rintro thread entries ⟨⟩ ⟨⟩
      rfl
    · rintro thread entries ⟨⟩ ⟨⟩
      exact acceptedSafe_of_ok rfl (hmiddle.wellFormed.of_frame rfl (.refl _) rfl) rfl
  exact ⟨rfl, concurrent_statements_serialize twoRows_reachable (.of_meets hrun)⟩

/-- Both statements read before either writes, and both return Ok. Of two UPDATEs of one row the first is undone, and
an UPDATE brings back a row that a DELETE took. -/
theorem not_serializable_overlapping :
    oneRowEngine.SerialReachable SteadyGuard ∧
      (([0, 1, 0, 1].foldl step (ready oneRowEngine "t" [sets 0, sets 1])).threads.map StatementThread.isOk =
          [true, true] ∧
        ([0, 1, 0, 1].foldl step (ready oneRowEngine "t" [sets 0, sets 1])).engine.rowsOf "t" =
          [some { values := [.integer 0, .integer 1] }] ∧
        ¬ ∃ order : List StatementThread,
          order.Perm (([0, 1, 0, 1].foldl step (ready oneRowEngine "t" [sets 0, sets 1])).threads.filter
            StatementThread.isOk) ∧
          (order.foldl StatementThread.executed oneRowEngine).rowsOf "t" =
            ([0, 1, 0, 1].foldl step (ready oneRowEngine "t" [sets 0, sets 1])).engine.rowsOf "t") ∧
      (([0, 1, 1, 0].foldl step (ready oneRowEngine "t" [sets 0, deletesAll])).threads.map StatementThread.isOk =
          [true, true] ∧
        ([0, 1, 1, 0].foldl step (ready oneRowEngine "t" [sets 0, deletesAll])).engine.rowsOf "t" =
          [some { values := [.integer 1, .integer 0] }] ∧
        ¬ ∃ order : List StatementThread,
          order.Perm (([0, 1, 1, 0].foldl step (ready oneRowEngine "t" [sets 0, deletesAll])).threads.filter
            StatementThread.isOk) ∧
          (order.foldl StatementThread.executed oneRowEngine).rowsOf "t" =
            ([0, 1, 1, 0].foldl step (ready oneRowEngine "t" [sets 0, deletesAll])).engine.rowsOf "t") := by
  refine ⟨oneRow_reachable, ⟨rfl, rfl, ?_⟩, rfl, rfl, ?_⟩
  · rintro ⟨order, hperm, hrows⟩
    rcases List.perm_pair.mp hperm with rfl | rfl
    · revert hrows
      decide
    · revert hrows
      decide
  · rintro ⟨order, hperm, hrows⟩
    rcases List.perm_pair.mp hperm with rfl | rfl
    · revert hrows
      decide
    · revert hrows
      decide

end StatementMachine

end HelionDb
