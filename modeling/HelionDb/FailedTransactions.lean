import HelionDb.Steady

/-! Transactions that fail. `with_read_txn` and `with_write_txn` begin a transaction and leave at the first error. Only
the exit for a write conflict takes the id out of the active set again; the exits before it and after it leave it
there, and the exits after the checks leave their log records as well. -/

namespace HelionDb

namespace DatabaseEngine

/-- `DatabaseEngine::with_read_txn`. -/
def withReadTxn {R : Type} (engine : DatabaseEngine) (f : Transaction → List Table → Except HelionError R) :
    Except HelionError R × DatabaseEngine :=
  let begun := engine.begin
  match f begun.1 engine.tables with
  | .error err => (.error err, begun.2)
  | .ok result => (.ok result, { begun.2 with mvcc := begun.2.mvcc.commitTransaction begun.1 })

/-- Nothing is left of a call but the ids it used up. -/
structure NoTrace (before after : DatabaseEngine) : Prop where
  tables : after.tables = before.tables
  wal : after.wal = before.wal
  walOld : after.walOld = before.walOld
  stored : after.catalog.engines = before.catalog.engines
  active : after.mvcc.activeTxns = before.mvcc.activeTxns

/-- The closure of a write transaction returns writes that are in conflict with a transaction of its snapshot. -/
def Conflicts (engine : DatabaseEngine) (f : Transaction → List Table → Except HelionError (List WriteEntry)) : Prop :=
  ∃ entries, f engine.begin.1 engine.tables = .ok entries ∧
    checkConflicts (engine.beginWith entries) (snapshotTables engine.tables) ≠ .ok ()

/-- A write transaction that fails before it logs, with no conflict: its closure fails, or its commit finds a key
twice. -/
def FailsUnlogged (engine : DatabaseEngine) (f : Transaction → List Table → Except HelionError (List WriteEntry)) : Prop :=
  ∀ entries, f engine.begin.1 engine.tables = .ok entries →
    checkConflicts (engine.beginWith entries) (snapshotTables engine.tables) = .ok () ∧
      checkUniqueWrites (engine.beginWith entries) (snapshotTables engine.tables) ≠ .ok ()

section

variable {engine : DatabaseEngine}

theorem noTrace_begin_iff : NoTrace engine engine.begin.2 ↔ engine.mvcc.nextTxid ∈ engine.mvcc.activeTxns := by
  constructor
  · intro h
    rw [← h.active]
    exact Finset.mem_insert_self _ _
  · intro hmem
    exact ⟨rfl, rfl, rfl, rfl, Finset.insert_eq_self.mpr hmem⟩

/-- A read whose closure fails leaves its id behind. -/
theorem withReadTxn_noTrace_iff {R : Type} {f : Transaction → List Table → Except HelionError R} {err : HelionError}
    (herr : (engine.withReadTxn f).1 = .error err) :
    NoTrace engine (engine.withReadTxn f).2 ↔ engine.mvcc.nextTxid ∈ engine.mvcc.activeTxns := by
  cases hf : f engine.begin.1 engine.tables with
  | error other =>
      have hout : (engine.withReadTxn f).2 = engine.begin.2 := by rw [withReadTxn, hf]
      rw [hout]
      exact noTrace_begin_iff
  | ok result =>
      have hok : (engine.withReadTxn f).1 = .ok result := by rw [withReadTxn, hf]
      cases hok.symm.trans herr

/-- How a commit of a running transaction ends: at a conflict, at a key that is there, or after it has logged. -/
inductive CommitEnds (engine : DatabaseEngine) (tx : Transaction) : DatabaseEngine → Prop
  | conflict (hconflict : checkConflicts tx (snapshotTables engine.tables) ≠ .ok ()) :
      CommitEnds engine tx { engine with mvcc := engine.mvcc.rollbackTransaction tx }
  | unique (hpassed : checkConflicts tx (snapshotTables engine.tables) = .ok ())
      (hunique : checkUniqueWrites tx (snapshotTables engine.tables) ≠ .ok ()) : CommitEnds engine tx engine
  | logged (after : DatabaseEngine) (hpassed : checkConflicts tx (snapshotTables engine.tables) = .ok ())
      (hunique : checkUniqueWrites tx (snapshotTables engine.tables) = .ok ())
      (hwal : after.wal = engine.wal ++ tx.walRecords) : CommitEnds engine tx after

theorem commit_ends (orders : CommitOrders) {tx : Transaction} (hstatus : tx.status = .inProgress) :
    CommitEnds engine tx (engine.commit orders tx).2.2 := by
  unfold commit
  rw [if_neg (not_not.mpr hstatus)]
  cases hconflicts : checkConflicts tx (snapshotTables engine.tables) with
  | error other =>
      apply CommitEnds.conflict
      rw [hconflicts]
      nofun
  | ok _ =>
      cases hunique : checkUniqueWrites tx (snapshotTables engine.tables) with
      | error other =>
          apply CommitEnds.unique hconflicts
          rw [hunique]
          nofun
      | ok _ => exact .logged _ hconflicts hunique (commitChecked_wal engine orders tx _).1

/-- What is logged stays. -/
theorem not_noTrace_of_logged {after : DatabaseEngine} {tx : Transaction}
    (hwal : after.wal = engine.wal ++ tx.walRecords) : ¬ NoTrace engine after := by
  intro h
  have hlength := congrArg List.length (hwal.symm.trans h.wal)
  rw [Transaction.walRecords, List.length_append, List.length_append, List.length_singleton] at hlength
  omega

theorem conflicts_iff {f : Transaction → List Table → Except HelionError (List WriteEntry)} {entries : List WriteEntry}
    (hf : f engine.begin.1 engine.tables = .ok entries) :
    engine.Conflicts f ↔ checkConflicts (engine.beginWith entries) (snapshotTables engine.tables) ≠ .ok () := by
  constructor
  · rintro ⟨others, hothers, hconflict⟩
    obtain rfl := Except.ok.inj (hf.symm.trans hothers)
    exact hconflict
  · intro hconflict
    exact ⟨entries, hf, hconflict⟩

theorem failsUnlogged_iff {f : Transaction → List Table → Except HelionError (List WriteEntry)} {entries : List WriteEntry}
    (hf : f engine.begin.1 engine.tables = .ok entries) :
    engine.FailsUnlogged f ↔
      checkConflicts (engine.beginWith entries) (snapshotTables engine.tables) = .ok () ∧
        checkUniqueWrites (engine.beginWith entries) (snapshotTables engine.tables) ≠ .ok () := by
  constructor
  · intro h
    exact h entries hf
  · intro h others hothers
    obtain rfl := Except.ok.inj (hf.symm.trans hothers)
    exact h

/-- A write of an id that was free leaves nothing behind exactly when a write conflict stops it. Where the id was
taken, exactly the exits that forget to give it back leave the set as it was. -/
theorem withWriteTxn_noTrace_iff (orders : CommitOrders)
    (f : Transaction → List Table → Except HelionError (List WriteEntry)) :
    NoTrace engine (engine.withWriteTxn orders f).2 ↔
      if engine.mvcc.nextTxid ∈ engine.mvcc.activeTxns then engine.FailsUnlogged f else engine.Conflicts f := by
  cases hf : f engine.begin.1 engine.tables with
  | error other =>
      have hout : engine.withWriteTxn orders f = (.error other, engine.begin.2) := by rw [withWriteTxn, hf]
      have hnever : ∀ entries, f engine.begin.1 engine.tables ≠ .ok entries := fun entries hok => by
        cases hf.symm.trans hok
      rw [hout, noTrace_begin_iff]
      by_cases htaken : engine.mvcc.nextTxid ∈ engine.mvcc.activeTxns
      · rw [if_pos htaken]
        exact iff_of_true htaken fun entries hok => absurd hok (hnever entries)
      · rw [if_neg htaken]
        refine iff_of_false htaken ?_
        rintro ⟨entries, hok, -⟩
        exact hnever entries hok
  | ok entries =>
      rw [withWriteTxn_of_ok hf, conflicts_iff hf, failsUnlogged_iff hf]
      have hends := @commit_ends engine.begin.2 orders (engine.beginWith entries) rfl
      generalize (engine.begin.2.commit orders (engine.beginWith entries)).2.2 = after at hends ⊢
      cases hends with
      | conflict hconflict =>
          have herased : (insert engine.mvcc.nextTxid engine.mvcc.activeTxns).erase engine.mvcc.nextTxid =
              engine.mvcc.activeTxns.erase engine.mvcc.nextTxid := Finset.erase_insert_eq_erase _ _
          by_cases htaken : engine.mvcc.nextTxid ∈ engine.mvcc.activeTxns
          · rw [if_pos htaken]
            refine iff_of_false (fun h => ?_) fun h => hconflict h.1
            have hsame := herased.symm.trans h.active
            exact Finset.notMem_erase _ _ (hsame.symm ▸ htaken)
          · rw [if_neg htaken]
            refine iff_of_true ⟨rfl, rfl, rfl, rfl, ?_⟩ hconflict
            exact herased.trans (Finset.erase_eq_of_notMem htaken)
      | unique hpassed hunique =>
          rw [noTrace_begin_iff]
          by_cases htaken : engine.mvcc.nextTxid ∈ engine.mvcc.activeTxns
          · rw [if_pos htaken]
            exact iff_of_true htaken ⟨hpassed, hunique⟩
          · rw [if_neg htaken]
            exact iff_of_false htaken fun hconflict => hconflict hpassed
      | logged after hpassed hunique hwal =>
          have hlogged : after.wal = engine.wal ++ (engine.beginWith entries).walRecords := hwal
          refine iff_of_false (not_noTrace_of_logged hlogged) ?_
          split
          · exact fun h => h.2 hunique
          · exact fun h => h hpassed

end

/-! ### Reachable engines -/

/-- A serial call, or one step of a transaction in flight. -/
inductive EngineOp where
  | serial (call : SerialCall)
  | begin
  | commit (orders : CommitOrders) (tx : Transaction)
  | rollback (tx : Transaction)

def engineStep (engine : DatabaseEngine) : EngineOp → DatabaseEngine
  | .serial call => engine.serialStep call
  | .begin => engine.begin.2
  | .commit orders tx => (engine.commit orders tx).2.2
  | .rollback tx => (engine.rollback tx).2

/-- The engines that calls reach, from any number of clients, while there are ids left. -/
def EngineReached (engine : DatabaseEngine) : Prop :=
  ∃ defaultEngine, Reaches engineStep (fun state _ => state.CounterRoom) (fresh defaultEngine) engine

/-- Every active id has been handed out. -/
structure HandedOut (engine : DatabaseEngine) : Prop where
  positive : 1 ≤ engine.mvcc.nextTxid
  active : ∀ id ∈ engine.mvcc.activeTxns, id < engine.mvcc.nextTxid

namespace HandedOut

variable {engine : DatabaseEngine}

theorem withStartId (tables : List Table) (catalog : Catalog) (walOld wal : List WalRecord) (startId : Nat) :
    HandedOut { tables, catalog, mvcc := .withStartId startId, walOld, wal } := by
  refine ⟨Nat.le_max_right _ _, fun id hid => ?_⟩
  rw [Finset.mem_singleton.mp hid]
  exact Nat.le_max_right _ _

theorem of_idStep (h : engine.HandedOut) (hroom : engine.mvcc.nextTxid < u64Max) {after : DatabaseEngine}
    (hids : IdStep engine.mvcc after.mvcc) : after.HandedOut := by
  have hnext : after.mvcc.nextTxid = engine.mvcc.nextTxid + 1 := by
    rw [hids.counter]
    apply Nat.mod_eq_of_lt
    unfold u64Max at hroom
    omega
  refine ⟨by omega, fun id hid => ?_⟩
  rcases Finset.mem_insert.mp (hids.active hid) with rfl | hold
  · omega
  · have hlt := h.active id hold
    omega

theorem of_finish (h : engine.HandedOut) {tx next : Transaction} {after : DatabaseEngine}
    (hfinish : Session.Finish engine.mvcc tx next after.mvcc) : after.HandedOut := by
  rcases hfinish with ⟨-, hmvcc⟩ | ⟨status, -, -, hmvcc⟩
  · exact ⟨hmvcc ▸ h.positive, fun id hid => hmvcc ▸ h.active id (hmvcc ▸ hid)⟩
  · refine ⟨hmvcc ▸ h.positive, fun id hid => ?_⟩
    rw [hmvcc] at hid ⊢
    exact h.active id (Finset.mem_of_mem_erase hid)

theorem of_mvcc (h : engine.HandedOut) {after : DatabaseEngine} (hmvcc : after.mvcc = engine.mvcc) : after.HandedOut :=
  ⟨hmvcc ▸ h.positive, fun id hid => hmvcc ▸ h.active id (hmvcc ▸ hid)⟩

theorem transition (h : engine.HandedOut) (hroom : engine.CounterRoom) {call : SerialCall} {after : DatabaseEngine}
    (htransition : Transition engine call after) : after.HandedOut := by
  unfold CounterRoom at hroom
  cases htransition with
  | ids mvcc hids => exact h.of_idStep (by omega) hids
  | write start entries hcommit hstart =>
      have hstarted : start.HandedOut ∧ start.mvcc.nextTxid < u64Max := by
        rcases hstart with rfl | rfl
        · exact ⟨h, by omega⟩
        · have hcounter : engine.readSnapshot.2.mvcc.nextTxid = engine.mvcc.nextTxid + 1 := by
            rw [(readSnapshot_idStep engine).counter]
            apply Nat.mod_eq_of_lt
            unfold u64Max at hroom
            omega
          exact ⟨h.of_idStep (by omega) (readSnapshot_idStep engine), by omega⟩
      have hbegun := hstarted.1.of_idStep hstarted.2 (begin_idStep start)
      exact hbegun.of_finish (Session.commit_finish start.begin.2 call.orders (start.beginWith entries))
  | reopen defaultEngine loaded next hop hopen =>
      unfold openWithDurability at hopen
      dsimp only at hopen
      split at hopen
      · cases hopen
      · obtain rfl := Except.ok.inj hopen
        exact withStartId _ _ _ _ _
  | same | create | drop | migrate | createIndex | dropIndex | checkpoint | shutdown => exact h.of_mvcc rfl

theorem step (h : engine.HandedOut) (hroom : engine.CounterRoom) (op : EngineOp) :
    (engine.engineStep op).HandedOut := by
  cases op with
  | serial call => exact h.transition hroom (serialStep_transition engine call)
  | begin =>
      have hlt : engine.mvcc.nextTxid < u64Max := by
        unfold CounterRoom at hroom
        omega
      exact h.of_idStep hlt (begin_idStep engine)
  | commit orders tx => exact h.of_finish (Session.commit_finish engine orders tx)
  | rollback tx => exact h.of_finish (Session.rollback_finish engine tx)

end HandedOut

theorem EngineReached.handedOut {engine : DatabaseEngine} (h : EngineReached engine) : engine.HandedOut := by
  obtain ⟨defaultEngine, run⟩ := h
  refine run.invariant (P := HandedOut) (fun state op hstate hroom => hstate.step hroom op) ?_
  exact HandedOut.withStartId _ _ _ _ _

/-- The next id of a reached engine is free. -/
theorem EngineReached.fresh_id {engine : DatabaseEngine} (h : EngineReached engine) :
    engine.mvcc.nextTxid ∉ engine.mvcc.activeTxns :=
  fun hmem => Nat.lt_irrefl _ (h.handedOut.active _ hmem)

/-- When a failed call leaves nothing behind. A reached engine has its next id free: there it is a write that a conflict
stops, and no other call. -/
theorem failed_calls_noTrace_iff (engine : DatabaseEngine) :
    (∀ {R : Type} (f : Transaction → List Table → Except HelionError R) (err : HelionError),
      (engine.withReadTxn f).1 = .error err →
        (NoTrace engine (engine.withReadTxn f).2 ↔ engine.mvcc.nextTxid ∈ engine.mvcc.activeTxns)) ∧
    (∀ orders f err, (engine.withWriteTxn orders f).1 = .error err →
      (NoTrace engine (engine.withWriteTxn orders f).2 ↔
        if engine.mvcc.nextTxid ∈ engine.mvcc.activeTxns then engine.FailsUnlogged f else engine.Conflicts f)) ∧
    (EngineReached engine → engine.mvcc.nextTxid ∉ engine.mvcc.activeTxns) :=
  ⟨fun _ _ herr => withReadTxn_noTrace_iff herr, fun orders f _ _ => withWriteTxn_noTrace_iff orders f,
    EngineReached.fresh_id⟩

theorem fresh_reached : EngineReached (fresh "memory") := ⟨"memory", .refl⟩

/-- An INSERT of two NULLs into a UNIQUE column. It stops behind its log records, with its rows in the table and its id
active. -/
def twoNulls : SerialCall :=
  { op := .execute (.insert "t" [{ values := [.null] }, { values := [.null] }]), orders := .asGiven }

def stoppedEngine : DatabaseEngine := (uniqueColumnRun ++ [twoNulls]).foldl serialStep (fresh "disk")

/-- An update of one of the rows. -/
def updatesStopped : WriteEntry :=
  { tableName := "t", rowIdx := 0, oldTxidMax := u64Max, operation := .update { values := [.integer 1] } }

theorem stoppedEngine_reached : EngineReached stoppedEngine := by
  have hrooms : Meets engineStep (fun state _ => state.CounterRoom) (fresh "disk")
      ((uniqueColumnRun ++ [twoNulls]).map .serial) :=
    ⟨by unfold CounterRoom; decide, by unfold CounterRoom; decide, trivial⟩
  exact ⟨"disk", .of_meets hrooms⟩

/-- A conflict with that INSERT stops the update without a trace; a closure that fails leaves its id active. -/
theorem failed_calls_noTrace_stopped :
    NoTrace stoppedEngine (stoppedEngine.withWriteTxn .asGiven fun _ _ => .ok [updatesStopped]).2 ∧
    ¬ NoTrace stoppedEngine (stoppedEngine.withReadTxn (R := Unit) fun _ _ => .error (.internal "closure")).2 ∧
    ¬ NoTrace stoppedEngine (stoppedEngine.withWriteTxn .asGiven fun _ _ => .error (.internal "closure")).2 := by
  obtain ⟨hread, hwrite, hreached⟩ := failed_calls_noTrace_iff stoppedEngine
  have hfree := hreached stoppedEngine_reached
  refine ⟨?_, fun h => hfree ((hread _ (.internal "closure") rfl).mp h), fun h => ?_⟩
  · have hconflict : checkConflicts (stoppedEngine.beginWith [updatesStopped]) (snapshotTables stoppedEngine.tables) =
        .error 1 := rfl
    refine (hwrite .asGiven (fun _ _ => .ok [updatesStopped]) _ rfl).mpr ?_
    rw [if_neg hfree]
    exact ⟨_, rfl, by simp [hconflict]⟩
  · have hconflict := (hwrite _ _ (.internal "closure") rfl).mp h
    rw [if_neg hfree] at hconflict
    obtain ⟨entries, hok, -⟩ := hconflict
    cases hok

/-- A read whose closure fails keeps id 1 active on an engine without tables. -/
theorem not_failed_calls_noTrace :
    ¬ ∀ engine, EngineReached engine → ∀ (f : Transaction → List Table → Except HelionError Unit) err,
      (engine.withReadTxn f).1 = .error err → NoTrace engine (engine.withReadTxn f).2 := by
  intro h
  have hactive := (h (fresh "memory") fresh_reached (fun _ _ => .error (.internal "closure")) _ rfl).active
  have hone : 1 ∈ (fresh "memory").mvcc.activeTxns := hactive ▸ Finset.mem_insert_self 1 {0}
  revert hone
  decide

end DatabaseEngine

end HelionDb
