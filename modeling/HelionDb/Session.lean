import HelionDb.ChainRule

/-! Interleaved transactions. Clients hold transaction handles; a step begins a transaction, buffers a
write, rolls back or runs a whole commit. Every handle has an id of its own below the counter, and a
handle that is in progress is in the active set. -/

namespace HelionDb

/-- An engine and the transaction handles that its clients hold. -/
structure Session where
  engine : DatabaseEngine
  txs : List Transaction

inductive SessionOp where
  | begin
  | addWrite (handle : Nat) (entry : WriteEntry)
  | rollback (handle : Nat)
  | commit (handle : Nat) (orders : CommitOrders)

namespace Session

def step (session : Session) : SessionOp → Session
  | .begin => { engine := session.engine.begin.2, txs := session.txs ++ [session.engine.begin.1] }
  | .addWrite handle entry =>
      { session with txs := session.txs.modify handle fun tx => tx.addWrite entry }
  | .rollback handle =>
      match session.txs[handle]? with
      | none => session
      | some tx =>
          let outcome := session.engine.rollback tx
          { engine := outcome.2, txs := session.txs.set handle outcome.1 }
  | .commit handle orders =>
      match session.txs[handle]? with
      | none => session
      | some tx =>
          let outcome := session.engine.commit orders tx
          { engine := outcome.2.2, txs := session.txs.set handle outcome.2.1 }

/-- A serial run followed by guarded interleaved steps. -/
def Reachable (guard : Session → SessionOp → Prop) (session : Session) : Prop :=
  ∃ engine, engine.SerialReachable (fun _ _ => True) ∧ Reaches step guard { engine, txs := [] } session

section Steps

variable {session : Session} {handle : Nat} {tx : Transaction}

theorem step_rollback (htx : session.txs[handle]? = some tx) :
    session.step (.rollback handle) =
      { engine := (session.engine.rollback tx).2, txs := session.txs.set handle (session.engine.rollback tx).1 } := by
  simp only [step, htx]

theorem step_commit (htx : session.txs[handle]? = some tx) (orders : CommitOrders) :
    session.step (.commit handle orders) =
      { engine := (session.engine.commit orders tx).2.2
        txs := session.txs.set handle (session.engine.commit orders tx).2.1 } := by
  simp only [step, htx]

/-- A step begins, buffers, finishes one handle by rollback or by commit, or does nothing. -/
theorem step_cases (session : Session) (op : SessionOp) :
    (op = .begin ∧ session.step op =
      { engine := session.engine.begin.2, txs := session.txs ++ [session.engine.begin.1] }) ∨
    (∃ handle entry, op = .addWrite handle entry ∧ session.step op =
      { session with txs := session.txs.modify handle fun tx => tx.addWrite entry }) ∨
    (∃ handle tx, op = .rollback handle ∧ session.txs[handle]? = some tx ∧ session.step op =
      { engine := (session.engine.rollback tx).2, txs := session.txs.set handle (session.engine.rollback tx).1 }) ∨
    (∃ handle orders tx, op = .commit handle orders ∧ session.txs[handle]? = some tx ∧ session.step op =
      { engine := (session.engine.commit orders tx).2.2
        txs := session.txs.set handle (session.engine.commit orders tx).2.1 }) ∨
    session.step op = session := by
  cases op with
  | begin => exact Or.inl ⟨rfl, rfl⟩
  | addWrite handle entry => exact Or.inr (Or.inl ⟨handle, entry, rfl, rfl⟩)
  | rollback handle =>
      cases htx : session.txs[handle]? with
      | none => exact Or.inr (Or.inr (Or.inr (Or.inr (by simp only [step, htx]))))
      | some tx => exact Or.inr (Or.inr (Or.inl ⟨handle, tx, rfl, htx, step_rollback htx⟩))
  | commit handle orders =>
      cases htx : session.txs[handle]? with
      | none => exact Or.inr (Or.inr (Or.inr (Or.inr (by simp only [step, htx]))))
      | some tx =>
          exact Or.inr (Or.inr (Or.inr (Or.inl ⟨handle, orders, tx, rfl, htx, step_commit htx orders⟩)))

end Steps

/-- What interleaved steps keep of the engine. -/
structure Sound (session : Session) : Prop where
  wellFormed : session.engine.WellFormed
  live : AllChains LastOpen session.engine.tables
  logged : AllChains LastOpen session.engine.recovered

theorem rollback_engine (engine : DatabaseEngine) (tx : Transaction) :
    (engine.rollback tx).2 = { engine with mvcc := (engine.rollback tx).2.mvcc } := by
  unfold DatabaseEngine.rollback
  split <;> rfl

theorem Sound.step {session : Session} (h : session.Sound) (op : SessionOp) : (session.step op).Sound := by
  rcases step_cases session op with ⟨-, hstep⟩ | ⟨_, _, -, hstep⟩ | ⟨_, tx, -, -, hstep⟩ |
    ⟨_, orders, tx, -, -, hstep⟩ | hstep
  · rw [hstep]
    exact ⟨h.wellFormed.of_frame rfl (.refl _) rfl, h.live, h.logged⟩
  · rw [hstep]
    exact ⟨h.wellFormed, h.live, h.logged⟩
  · rw [hstep, rollback_engine]
    exact ⟨h.wellFormed.of_frame rfl (.refl _) rfl, h.live, h.logged⟩
  · rw [hstep]
    obtain ⟨hlive, hlogged⟩ :=
      DatabaseEngine.chains_commit (fun _ => lastOpen_rule tx.txId) h.live h.logged orders
    exact ⟨h.wellFormed.commit orders tx, hlive, hlogged⟩
  · rw [hstep]
    exact h

theorem Reachable.sound {guard : Session → SessionOp → Prop} {session : Session}
    (h : Reachable guard session) : session.Sound := by
  obtain ⟨engine, hengine, run⟩ := h
  refine run.invariant (fun state op hstate _ => hstate.step op) ?_
  exact ⟨hengine.wellFormed, hengine.lastOpen.1, hengine.lastOpen.2⟩

/-! ### Ids of a session -/

/-- The counter has not reached `u64::MAX` when a transaction begins. -/
def CounterOk (session : Session) : SessionOp → Prop
  | .begin => session.engine.mvcc.nextTxid < u64Max
  | _ => True

/-- Ids are below the counter and distinct, and whoever is in progress is active. -/
structure Numbered (session : Session) : Prop where
  below : ∀ tx ∈ session.txs, tx.txId < session.engine.mvcc.nextTxid
  distinct : (session.txs.map Transaction.txId).Nodup
  active : ∀ tx ∈ session.txs, tx.status = .inProgress → tx.txId ∈ session.engine.mvcc.activeTxns

/-- What finishing a handle does to it and to the store: nothing, or it is no longer in progress and its
id is no longer active. -/
def Finish (store : MvccStore) (tx : Transaction) (next : Transaction) (nextStore : MvccStore) : Prop :=
  (next = tx ∧ nextStore = store) ∨
    ∃ status, status ≠ .inProgress ∧ next = { tx with status } ∧
      nextStore = { store with activeTxns := store.activeTxns.erase tx.txId }

theorem rollback_finish (engine : DatabaseEngine) (tx : Transaction) :
    Finish engine.mvcc tx (engine.rollback tx).1 (engine.rollback tx).2.mvcc := by
  unfold DatabaseEngine.rollback
  split
  · exact Or.inl ⟨rfl, rfl⟩
  · exact Or.inr ⟨.aborted, by decide, rfl, rfl⟩

theorem commit_finish (engine : DatabaseEngine) (orders : CommitOrders) (tx : Transaction) :
    Finish engine.mvcc tx (engine.commit orders tx).2.1 (engine.commit orders tx).2.2.mvcc := by
  rcases DatabaseEngine.commit_cases engine orders tx with ⟨err, -, hsame | haborted⟩ | ⟨-, -, hchecked⟩
  · rw [hsame]
    exact Or.inl ⟨rfl, rfl⟩
  · rw [haborted]
    exact Or.inr ⟨.aborted, by decide, rfl, rfl⟩
  · rw [hchecked]
    rcases DatabaseEngine.commitChecked_cases engine orders tx (snapshotTables engine.tables) with
      ⟨_, -, h⟩ | ⟨-, _, -, h⟩ | ⟨-, -, h⟩
    · rw [h]
      exact Or.inl ⟨rfl, rfl⟩
    · rw [h]
      exact Or.inl ⟨rfl, rfl⟩
    · rw [h]
      exact Or.inr ⟨.committed, by decide, rfl, rfl⟩

theorem Finish.txId {store nextStore : MvccStore} {tx next : Transaction}
    (h : Finish store tx next nextStore) : next.txId = tx.txId := by
  rcases h with ⟨rfl, -⟩ | ⟨_, -, rfl, -⟩ <;> rfl

theorem Finish.nextTxid {store nextStore : MvccStore} {tx next : Transaction}
    (h : Finish store tx next nextStore) : nextStore.nextTxid = store.nextTxid := by
  rcases h with ⟨-, rfl⟩ | ⟨_, -, -, rfl⟩ <;> rfl

namespace Numbered

variable {session : Session}

/-- Two handles of one id are one handle. -/
theorem position_unique (h : session.Numbered) {first second : Nat} {tx other : Transaction}
    (htx : session.txs[first]? = some tx) (hother : session.txs[second]? = some other)
    (hid : tx.txId = other.txId) : first = second := by
  have hfirst : (session.txs.map Transaction.txId)[first]? = some tx.txId := by
    rw [List.getElem?_map, htx, Option.map_some]
  have hsecond : (session.txs.map Transaction.txId)[second]? = some tx.txId := by
    rw [List.getElem?_map, hother, Option.map_some, hid]
  have hlt := (List.getElem?_eq_some_iff.mp hfirst).1
  exact (List.getElem?_inj hlt h.distinct).mp (hfirst.trans hsecond.symm)

private theorem begin (h : session.Numbered) (hcounter : session.engine.mvcc.nextTxid < u64Max) :
    (session.step .begin).Numbered := by
  have hnext : (session.step .begin).engine.mvcc.nextTxid = session.engine.mvcc.nextTxid + 1 := by
    refine Nat.mod_eq_of_lt ?_
    unfold u64Max at hcounter
    omega
  have hactive : (session.step .begin).engine.mvcc.activeTxns =
      insert session.engine.mvcc.nextTxid session.engine.mvcc.activeTxns := rfl
  have hid : session.engine.begin.1.txId = session.engine.mvcc.nextTxid := rfl
  refine ⟨fun tx htx => ?_, ?_, fun tx htx hrunning => ?_⟩
  · rw [hnext]
    rcases List.mem_append.mp htx with hold | hnew
    · exact (h.below tx hold).trans (Nat.lt_succ_self _)
    · rw [List.mem_singleton.mp hnew, hid]
      exact Nat.lt_succ_self _
  · change ((session.txs ++ [session.engine.begin.1]).map Transaction.txId).Nodup
    rw [List.map_append, List.map_singleton, hid, List.nodup_append]
    refine ⟨h.distinct, List.nodup_singleton _, ?_⟩
    intro id hold other hother heq
    obtain ⟨tx, htx, rfl⟩ := List.mem_map.mp hold
    have hsame : tx.txId = session.engine.mvcc.nextTxid := heq.trans (List.mem_singleton.mp hother)
    exact absurd (hsame ▸ h.below tx htx) (Nat.lt_irrefl _)
  · rw [hactive]
    rcases List.mem_append.mp htx with hold | hnew
    · exact Finset.mem_insert_of_mem (h.active tx hold hrunning)
    · rw [List.mem_singleton.mp hnew, hid]
      exact Finset.mem_insert_self _ _

private theorem addWrite (h : session.Numbered) (handle : Nat) (entry : WriteEntry) :
    (session.step (.addWrite handle entry)).Numbered := by
  have hmem : ∀ tx ∈ session.txs.modify handle fun tx => tx.addWrite entry,
      ∃ old ∈ session.txs, tx.txId = old.txId ∧ tx.status = old.status := by
    intro tx htx
    obtain ⟨position, hposition⟩ := List.mem_iff_getElem?.mp htx
    rw [List.getElem?_modify] at hposition
    obtain ⟨old, hold, rfl⟩ := Option.map_eq_some_iff.mp hposition
    refine ⟨old, List.mem_of_getElem? hold, ?_⟩
    split <;> exact ⟨rfl, rfl⟩
  refine ⟨fun tx htx => ?_, ?_, fun tx htx hrunning => ?_⟩
  · obtain ⟨old, hold, hid, -⟩ := hmem tx htx
    exact hid ▸ h.below old hold
  · change ((session.txs.modify handle fun tx => tx.addWrite entry).map Transaction.txId).Nodup
    have hids : (session.txs.modify handle fun tx => tx.addWrite entry).map Transaction.txId =
        session.txs.map Transaction.txId := by
      refine List.ext_getElem? fun position => ?_
      rw [List.getElem?_map, List.getElem?_map, List.getElem?_modify]
      cases session.txs[position]? with
      | none => rfl
      | some tx =>
          refine congrArg some ?_
          dsimp only
          split <;> rfl
    rw [hids]
    exact h.distinct
  · obtain ⟨old, hold, hid, hstatus⟩ := hmem tx htx
    exact hid ▸ h.active old hold (hstatus ▸ hrunning)

private theorem finish (h : session.Numbered) {handle : Nat} {tx next : Transaction} {engine : DatabaseEngine}
    (htx : session.txs[handle]? = some tx) (hfinish : Finish session.engine.mvcc tx next engine.mvcc) :
    Numbered { engine, txs := session.txs.set handle next } := by
  have hmem := List.mem_of_getElem? htx
  have hids : (session.txs.set handle next).map Transaction.txId = session.txs.map Transaction.txId := by
    refine List.ext_getElem? fun position => ?_
    rw [List.getElem?_map, List.getElem?_map, List.getElem?_set]
    split
    · rename_i heq
      subst heq
      rw [htx, if_pos (List.getElem?_eq_some_iff.mp htx).1]
      exact congrArg some hfinish.txId
    · rfl
  refine ⟨fun other hother => ?_, ?_, fun other hother hrunning => ?_⟩
  · change other.txId < engine.mvcc.nextTxid
    rw [hfinish.nextTxid]
    have hid : other.txId ∈ session.txs.map Transaction.txId := hids ▸ List.mem_map_of_mem hother
    obtain ⟨old, hold, heq⟩ := List.mem_map.mp hid
    exact heq ▸ h.below old hold
  · change ((session.txs.set handle next).map Transaction.txId).Nodup
    rw [hids]
    exact h.distinct
  · change other.txId ∈ engine.mvcc.activeTxns
    rcases hfinish with ⟨rfl, hstore⟩ | ⟨status, hstatus, rfl, hstore⟩
    · rw [hstore]
      have hset : session.txs.set handle next = session.txs := by
        obtain ⟨hlt, rfl⟩ := List.getElem?_eq_some_iff.mp htx
        exact List.set_getElem_self hlt
      exact h.active other (hset ▸ hother) hrunning
    · rw [hstore]
      obtain ⟨position, hposition⟩ := List.mem_iff_getElem?.mp hother
      rw [List.getElem?_set] at hposition
      split at hposition
      · split at hposition
        · cases hposition
          exact absurd hrunning hstatus
        · cases hposition
      · rename_i hne
        have hold := List.mem_of_getElem? hposition
        refine Finset.mem_erase.mpr ⟨fun hsame => hne ?_, h.active other hold hrunning⟩
        exact h.position_unique htx hposition hsame.symm

theorem step (h : session.Numbered) {op : SessionOp} (hcounter : CounterOk session op) :
    (session.step op).Numbered := by
  rcases step_cases session op with ⟨rfl, -⟩ | ⟨handle, entry, rfl, -⟩ | ⟨_, tx, -, htx, hstep⟩ |
    ⟨_, orders, tx, -, htx, hstep⟩ | hstep
  · exact h.begin hcounter
  · exact h.addWrite handle entry
  · rw [hstep]
    exact h.finish htx (rollback_finish session.engine tx)
  · rw [hstep]
    exact h.finish htx (commit_finish session.engine orders tx)
  · rw [hstep]
    exact h

end Numbered

theorem Reachable.numbered {guard : Session → SessionOp → Prop} {session : Session}
    (hguard : ∀ state op, guard state op → CounterOk state op) (h : Reachable guard session) :
    session.Numbered := by
  obtain ⟨engine, -, run⟩ := h
  refine run.invariant (fun state op hstate hmeets => hstate.step (hguard state op hmeets)) ?_
  exact ⟨by simp, List.nodup_nil, by simp⟩

/-! ### A transaction that stays in progress -/

/-- A handle after a step is the handle before it, perhaps finished by the step, or the one that a begin
hands out. -/
theorem handle_step (session : Session) (op : SessionOp) {handle : Nat} {next : Transaction}
    (hnext : (session.step op).txs[handle]? = some next) :
    (∃ tx, session.txs[handle]? = some tx ∧ next.txId = tx.txId ∧ next.snapshot = tx.snapshot ∧
      (next.status = .inProgress → tx.status = .inProgress)) ∨
    (op = .begin ∧ handle = session.txs.length ∧ next = session.engine.begin.1) := by
  have hfinish : ∀ {other : Nat} {tx done : Transaction} {store : MvccStore},
      session.txs[other]? = some tx → Finish session.engine.mvcc tx done store →
      (session.txs.set other done)[handle]? = some next →
      ∃ tx, session.txs[handle]? = some tx ∧ next.txId = tx.txId ∧ next.snapshot = tx.snapshot ∧
        (next.status = .inProgress → tx.status = .inProgress) := by
    intro other tx done store htx hdone hset
    rw [List.getElem?_set] at hset
    split at hset
    · rename_i hsame
      subst hsame
      rw [if_pos (List.getElem?_eq_some_iff.mp htx).1] at hset
      obtain rfl := Option.some.inj hset
      rcases hdone with ⟨rfl, -⟩ | ⟨status, hstatus, rfl, -⟩
      · exact ⟨_, htx, rfl, rfl, id⟩
      · exact ⟨tx, htx, rfl, rfl, fun hrunning => absurd hrunning hstatus⟩
    · exact ⟨next, hset, rfl, rfl, id⟩
  rcases step_cases session op with ⟨rfl, hstep⟩ | ⟨other, entry, -, hstep⟩ | ⟨other, tx, -, htx, hstep⟩ |
    ⟨other, orders, tx, -, htx, hstep⟩ | hstep
  · rw [hstep, List.getElem?_append] at hnext
    split at hnext
    · exact Or.inl ⟨next, hnext, rfl, rfl, id⟩
    · rename_i hge
      have hhandle := (List.getElem?_eq_some_iff.mp hnext).1
      rw [List.length_singleton] at hhandle
      obtain rfl : handle = session.txs.length := by omega
      rw [Nat.sub_self] at hnext
      exact Or.inr ⟨rfl, rfl, (Option.some.inj hnext).symm⟩
  · rw [hstep, List.getElem?_modify] at hnext
    obtain ⟨tx, htx, rfl⟩ := Option.map_eq_some_iff.mp hnext
    refine Or.inl ⟨tx, htx, ?_⟩
    split <;> exact ⟨rfl, rfl, id⟩
  · rw [hstep] at hnext
    exact Or.inl (hfinish htx (rollback_finish session.engine tx) hnext)
  · rw [hstep] at hnext
    exact Or.inl (hfinish htx (commit_finish session.engine orders tx) hnext)
  · rw [hstep] at hnext
    exact Or.inl ⟨next, hnext, rfl, rfl, id⟩

theorem nextTxid_le_step {session : Session} {op : SessionOp} (hcounter : CounterOk session op) :
    session.engine.mvcc.nextTxid ≤ (session.step op).engine.mvcc.nextTxid := by
  rcases step_cases session op with ⟨rfl, -⟩ | ⟨_, _, -, hstep⟩ | ⟨_, tx, -, -, hstep⟩ |
    ⟨_, orders, tx, -, -, hstep⟩ | hstep
  · change _ ≤ (session.engine.mvcc.nextTxid + 1) % 2 ^ 64
    change session.engine.mvcc.nextTxid < u64Max at hcounter
    unfold u64Max at hcounter
    omega
  · rw [hstep]
  · rw [hstep]
    exact (rollback_finish session.engine tx).nextTxid.ge
  · rw [hstep]
    exact (commit_finish session.engine orders tx).nextTxid.ge
  · rw [hstep]

/-- The transaction of a handle is in progress. -/
def Running (session : Session) (handle : Nat) : Prop :=
  ∃ tx, session.txs[handle]? = some tx ∧ tx.status = .inProgress

theorem Running.lt_length {session : Session} {handle : Nat} (h : session.Running handle) :
    handle < session.txs.length := by
  obtain ⟨tx, htx, -⟩ := h
  exact (List.getElem?_eq_some_iff.mp htx).1

/-- A handle stays in progress while nobody rolls it back or commits it. -/
theorem Running.step {session : Session} {handle : Nat} (h : session.Running handle) {op : SessionOp}
    (hrollback : op ≠ .rollback handle) (hcommit : ∀ orders, op ≠ .commit handle orders) :
    (session.step op).Running handle := by
  have hlt := h.lt_length
  obtain ⟨tx, htx, hrunning⟩ := h
  rcases step_cases session op with ⟨rfl, hstep⟩ | ⟨other, entry, -, hstep⟩ | ⟨other, _, rfl, -, hstep⟩ |
    ⟨other, orders, _, rfl, -, hstep⟩ | hstep
  · exact ⟨tx, by rw [hstep, List.getElem?_append_left hlt, htx], hrunning⟩
  · refine ⟨if other = handle then tx.addWrite entry else tx, ?_, ?_⟩
    · rw [hstep, List.getElem?_modify, htx]
      rfl
    · split <;> exact hrunning
  · refine ⟨tx, ?_, hrunning⟩
    rw [hstep, List.getElem?_set_ne fun heq : other = handle => hrollback (heq ▸ rfl), htx]
  · refine ⟨tx, ?_, hrunning⟩
    rw [hstep, List.getElem?_set_ne fun heq : other = handle => hcommit orders (heq ▸ rfl), htx]
  · exact ⟨tx, hstep.symm ▸ htx, hrunning⟩

theorem running_begin (session : Session) : (session.step .begin).Running session.txs.length :=
  ⟨session.engine.begin.1, List.getElem?_concat_length, rfl⟩

/-- What is known while the handle of a snapshot stays in progress: whoever else is in progress was active
in the snapshot or began later. -/
structure Overlaps (snapshot : Snapshot) (handle : Nat) (session : Session) : Prop where
  own : ∀ tx, session.txs[handle]? = some tx → tx.txId = snapshot.txid ∧ tx.snapshot = snapshot
  counter : snapshot.txid < session.engine.mvcc.nextTxid
  others : ∀ other tx, other ≠ handle → session.txs[other]? = some tx → tx.status = .inProgress →
    tx.txId ∈ snapshot.active ∨ snapshot.txid < tx.txId

/-- The snapshot of the transaction that a begin hands out. -/
def nextSnapshot (session : Session) : Snapshot := session.engine.begin.1.snapshot

theorem Overlaps.begin {session : Session} (h : session.Numbered) (hcounter : CounterOk session .begin) :
    Overlaps session.nextSnapshot session.txs.length (session.step .begin) := by
  refine ⟨fun tx htx => ?_, ?_, fun other tx hother htx hrunning => ?_⟩
  · have hlast : (session.step .begin).txs[session.txs.length]? = some session.engine.begin.1 :=
      List.getElem?_concat_length
    obtain rfl := Option.some.inj (hlast.symm.trans htx)
    exact ⟨rfl, rfl⟩
  · change session.engine.mvcc.nextTxid < (session.engine.mvcc.nextTxid + 1) % 2 ^ 64
    change session.engine.mvcc.nextTxid < u64Max at hcounter
    unfold u64Max at hcounter
    omega
  · rcases handle_step session .begin htx with ⟨old, hold, hid, -, hstatus⟩ | ⟨-, hnew, -⟩
    · exact Or.inl (hid ▸ h.active old (List.mem_of_getElem? hold) (hstatus hrunning))
    · exact absurd hnew hother

theorem Overlaps.step {session : Session} {snapshot : Snapshot} {handle : Nat} {op : SessionOp}
    (h : Overlaps snapshot handle session) (hhandle : handle < session.txs.length)
    (hcounter : CounterOk session op) : Overlaps snapshot handle (session.step op) := by
  refine ⟨fun tx htx => ?_, h.counter.trans_le (nextTxid_le_step hcounter), fun other tx hother htx hrunning => ?_⟩
  · rcases handle_step session op htx with ⟨old, hold, hid, hsnapshot, -⟩ | ⟨-, hnew, -⟩
    · exact ⟨hid.trans (h.own old hold).1, hsnapshot.trans (h.own old hold).2⟩
    · exact absurd hnew hhandle.ne
  · rcases handle_step session op htx with ⟨old, hold, hid, -, hstatus⟩ | ⟨-, -, rfl⟩
    · exact hid ▸ h.others other old hother hold (hstatus hrunning)
    · exact Or.inr h.counter

end Session

end HelionDb
