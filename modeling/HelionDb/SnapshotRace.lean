import HelionDb.SnapshotStability
import HelionDb.Reach

/-! Concurrent `begin_transaction`. The id comes from the counter first, then the active set is copied, then the id is
put into it, without a lock around the three. A copy between the first and the last step of another transaction misses
that transaction, whose writes are then not hidden from the snapshot. -/

namespace HelionDb

/-- Where a transaction stands. -/
inductive BeginPhase where
  | allocated
  | copied (snapshot : Snapshot)
  | running (snapshot : Snapshot)
  | finished (snapshot : Snapshot)
  deriving DecidableEq

namespace BeginPhase

/-- The snapshot, once the active set has been copied. -/
def snapshot : BeginPhase → Option Snapshot
  | allocated => none
  | copied snapshot | running snapshot | finished snapshot => some snapshot

/-- Between `fetch_add` and `add_active`. -/
def InWindow : BeginPhase → Prop
  | allocated | copied _ => True
  | running _ | finished _ => False

/-- Neither committed nor rolled back. -/
def Unfinished : BeginPhase → Prop
  | finished _ => False
  | allocated | copied _ | running _ => True

theorem unfinished_of_inWindow {phase : BeginPhase} (h : phase.InWindow) : phase.Unfinished := by
  cases phase with
  | allocated => trivial
  | copied snapshot => trivial
  | running snapshot => exact h.elim
  | finished snapshot => exact h.elim

end BeginPhase

structure BeginThread where
  txId : Nat
  phase : BeginPhase
  deriving DecidableEq

/-- The store and the transactions that began on it, in the order of their ids. -/
structure BeginMachine where
  store : MvccStore
  threads : List BeginThread

/-- One atomic step, of the transaction at a position. -/
inductive BeginOp where
  | allocate
  | copy (position : Nat)
  | register (position : Nat)
  | commit (position : Nat)
  | rollback (position : Nat)

namespace BeginMachine

/-- What a step makes of the transaction that takes it: its next phase and the store after it. -/
def advance (store : MvccStore) (op : BeginOp) (thread : BeginThread) : Option (BeginPhase × MvccStore) :=
  match op, thread.phase with
  | .copy _, .allocated => some (.copied { txid := thread.txId, active := store.activeTxns }, store)
  | .register _, .copied snapshot =>
      some (.running snapshot, { store with activeTxns := insert thread.txId store.activeTxns })
  | .commit _, .running snapshot =>
      some (.finished snapshot, store.commitTransaction (.new thread.txId snapshot))
  | .rollback _, .running snapshot =>
      some (.finished snapshot, store.rollbackTransaction (.new thread.txId snapshot))
  | _, _ => none

/-- The step of the transaction at a position, when it is there and ready for it. -/
def stepAt (machine : BeginMachine) (op : BeginOp) (position : Nat) : BeginMachine :=
  match machine.threads[position]? with
  | none => machine
  | some thread =>
      match advance machine.store op thread with
      | none => machine
      | some (phase, store) => { store, threads := machine.threads.set position { thread with phase } }

def step (machine : BeginMachine) (op : BeginOp) : BeginMachine :=
  match op with
  | .allocate =>
      { store := { machine.store with nextTxid := (machine.store.nextTxid + 1) % 2 ^ 64 }
        threads := machine.threads ++ [{ txId := machine.store.nextTxid, phase := .allocated }] }
  | .copy position | .register position | .commit position | .rollback position => machine.stepAt op position

/-- A store before any transaction. -/
def idle (startId : Nat) : BeginMachine := { store := .withStartId startId, threads := [] }

/-- The three steps with nothing in between are `begin_transaction`. -/
theorem begin_steps (machine : BeginMachine) :
    let begun := machine.store.beginTransaction
    [BeginOp.allocate, .copy machine.threads.length, .register machine.threads.length].foldl step machine =
      { store := begun.2
        threads := machine.threads ++ [{ txId := begun.1.txId, phase := .running begun.1.snapshot }] } := by
  simp [step, stepAt, advance, MvccStore.beginTransaction, Transaction.new]

/-- A transaction at a position, with its next phase. -/
def place (machine : BeginMachine) (position txId : Nat) (phase : BeginPhase) : List BeginThread :=
  machine.threads.set position { txId, phase }

/-- What one step can do. -/
inductive Moves (machine : BeginMachine) : BeginOp → BeginMachine → Prop
  | allocate : Moves machine .allocate
      { store := { machine.store with nextTxid := (machine.store.nextTxid + 1) % 2 ^ 64 }
        threads := machine.threads ++ [{ txId := machine.store.nextTxid, phase := .allocated }] }
  | copy (position txId : Nat) (hthread : machine.threads[position]? = some { txId, phase := .allocated }) :
      Moves machine (.copy position)
        { store := machine.store
          threads := machine.place position txId (.copied { txid := txId, active := machine.store.activeTxns }) }
  | register (position txId : Nat) (snapshot : Snapshot)
      (hthread : machine.threads[position]? = some { txId, phase := .copied snapshot }) :
      Moves machine (.register position)
        { store := { machine.store with activeTxns := insert txId machine.store.activeTxns }
          threads := machine.place position txId (.running snapshot) }
  | finish (op : BeginOp) (position txId : Nat) (snapshot : Snapshot)
      (hop : op = .commit position ∨ op = .rollback position)
      (hthread : machine.threads[position]? = some { txId, phase := .running snapshot }) :
      Moves machine op
        { store := { machine.store with activeTxns := machine.store.activeTxns.erase txId }
          threads := machine.place position txId (.finished snapshot) }
  | same (op : BeginOp) (hop : op ≠ .allocate)
      (hcopy : ∀ position txId, op = .copy position →
        machine.threads[position]? ≠ some { txId, phase := .allocated }) : Moves machine op machine

theorem moves_stepAt (machine : BeginMachine) {op : BeginOp} {position : Nat}
    (hop : op = .copy position ∨ op = .register position ∨ op = .commit position ∨ op = .rollback position) :
    Moves machine op (machine.stepAt op position) := by
  have hsame (hready : ∀ txId, op = .copy position → machine.threads[position]? ≠ some { txId, phase := .allocated }) :
      Moves machine op machine := by
    apply Moves.same
    · rintro rfl
      rcases hop with h | h | h | h <;> cases h
    · rintro other txId rfl
      rcases hop with h | h | h | h <;> cases h
      exact hready txId rfl
  cases hthread : machine.threads[position]? with
  | none =>
      rw [stepAt, hthread]
      exact hsame fun txId _ h => by cases hthread.symm.trans h
  | some thread =>
      obtain ⟨txId, phase⟩ := thread
      have hstep : machine.stepAt op position =
          match advance machine.store op { txId, phase } with
          | none => machine
          | some (phase, store) => { store, threads := machine.place position txId phase } := by
        rw [stepAt, hthread]
        rfl
      have hother (hphase : op = .copy position → phase ≠ .allocated) : Moves machine op machine :=
        hsame fun other hcopy h => hphase hcopy (congrArg BeginThread.phase (Option.some.inj (hthread.symm.trans h)))
      rw [hstep]
      rcases hop with rfl | rfl | rfl | rfl
      · cases phase with
        | allocated => exact .copy position txId hthread
        | copied snapshot => exact hother nofun
        | running snapshot => exact hother nofun
        | finished snapshot => exact hother nofun
      · cases phase with
        | allocated => exact hother nofun
        | copied snapshot => exact .register position txId snapshot hthread
        | running snapshot => exact hother nofun
        | finished snapshot => exact hother nofun
      · cases phase with
        | allocated => exact hother nofun
        | copied snapshot => exact hother nofun
        | running snapshot => exact .finish _ position txId snapshot (.inl rfl) hthread
        | finished snapshot => exact hother nofun
      · cases phase with
        | allocated => exact hother nofun
        | copied snapshot => exact hother nofun
        | running snapshot => exact .finish _ position txId snapshot (.inr rfl) hthread
        | finished snapshot => exact hother nofun

theorem step_moves (machine : BeginMachine) (op : BeginOp) : Moves machine op (machine.step op) := by
  cases op with
  | allocate => exact .allocate
  | copy position => exact machine.moves_stepAt (.inl rfl)
  | register position => exact machine.moves_stepAt (.inr (.inl rfl))
  | commit position => exact machine.moves_stepAt (.inr (.inr (.inl rfl)))
  | rollback position => exact machine.moves_stepAt (.inr (.inr (.inr rfl)))

/-! ### Invariants -/

/-- The ids are not used up when a transaction takes one. -/
def IdsLeft (machine : BeginMachine) : BeginOp → Prop
  | .allocate => machine.store.nextTxid < u64Max
  | _ => True

instance (machine : BeginMachine) (op : BeginOp) : Decidable (machine.IdsLeft op) := by
  cases op <;> unfold IdsLeft <;> infer_instance

/-- Ids are handed out in order, and the ids of the running transactions are in the active set, those of transactions
in their window are not. -/
structure Numbered (machine : BeginMachine) : Prop where
  ordered : (machine.threads.map BeginThread.txId).Pairwise (· < ·)
  below : ∀ thread ∈ machine.threads, thread.txId < machine.store.nextTxid
  waiting : ∀ thread ∈ machine.threads, thread.phase.InWindow → thread.txId ∉ machine.store.activeTxns
  running : ∀ thread ∈ machine.threads, thread.phase.Unfinished → ¬ thread.phase.InWindow →
    thread.txId ∈ machine.store.activeTxns
  known : ∀ txid ∈ machine.store.activeTxns, txid < machine.store.nextTxid
  owned : ∀ thread ∈ machine.threads, ∀ snapshot, thread.phase.snapshot = some snapshot → snapshot.txid = thread.txId

section Place

variable {machine : BeginMachine} {position txId : Nat} {old phase : BeginPhase}

theorem map_place (hthread : machine.threads[position]? = some { txId, phase := old }) :
    (machine.place position txId phase).map BeginThread.txId = machine.threads.map BeginThread.txId := by
  rw [place, List.map_set]
  apply List.ext_getElem?
  intro other
  by_cases hother : position = other
  · subst hother
    rw [List.getElem?_map, hthread, List.getElem?_set_self (by
      rw [List.length_map]
      exact (List.getElem?_eq_some_iff.mp hthread).1)]
    rfl
  · rw [List.getElem?_set_ne hother]

/-- A transaction after a step is the one that took it or one with another id. -/
theorem mem_place (h : (machine.threads.map BeginThread.txId).Pairwise (· < ·))
    (hthread : machine.threads[position]? = some { txId, phase := old }) {thread : BeginThread}
    (hmem : thread ∈ machine.place position txId phase) :
    thread = { txId, phase } ∨ thread ∈ machine.threads ∧ thread.txId ≠ txId := by
  obtain ⟨other, hother⟩ := List.mem_iff_getElem?.mp hmem
  by_cases hsame : position = other
  · subst hsame
    rw [place, List.getElem?_set_self (List.getElem?_eq_some_iff.mp hthread).1] at hother
    exact .inl (Option.some.inj hother).symm
  · rw [place, List.getElem?_set_ne hsame] at hother
    refine .inr ⟨List.mem_of_getElem? hother, fun hid => hsame ?_⟩
    have hids : (machine.threads.map BeginThread.txId)[position]? = (machine.threads.map BeginThread.txId)[other]? := by
      rw [List.getElem?_map, List.getElem?_map, hthread, hother]
      exact congrArg some hid.symm
    apply (List.getElem?_inj ?_ (h.imp Nat.ne_of_lt)).mp hids
    rw [List.length_map]
    exact (List.getElem?_eq_some_iff.mp hthread).1

theorem mem_place_self (hthread : machine.threads[position]? = some { txId, phase := old }) :
    { txId, phase } ∈ machine.place position txId phase :=
  List.mem_of_getElem? (List.getElem?_set_self (List.getElem?_eq_some_iff.mp hthread).1)

end Place

theorem numbered_idle (startId : Nat) : (idle startId).Numbered where
  ordered := .nil
  below := nofun
  waiting := nofun
  running := nofun
  known txid htxid := by
    obtain rfl := Finset.mem_singleton.mp htxid
    exact Nat.lt_of_lt_of_le Nat.zero_lt_one (le_max_right _ _)
  owned := nofun

/-- A transaction goes on to its next phase, and no other id becomes active or ceases to be. -/
theorem Numbered.moved {machine : BeginMachine} (h : machine.Numbered) {position txId : Nat} {old phase : BeginPhase}
    (hthread : machine.threads[position]? = some { txId, phase := old }) {active : Finset Nat}
    (hwaiting : phase.InWindow → txId ∉ active) (hrunning : phase.Unfinished → ¬ phase.InWindow → txId ∈ active)
    (hothers : ∀ txid, txid ≠ txId → (txid ∈ active ↔ txid ∈ machine.store.activeTxns))
    (howned : ∀ snapshot, phase.snapshot = some snapshot → snapshot.txid = txId) :
    Numbered
      { store := { machine.store with activeTxns := active }, threads := machine.place position txId phase } := by
  have hbelow : txId < machine.store.nextTxid := h.below _ (List.mem_of_getElem? hthread)
  refine ⟨?_, ?_, ?_, ?_, ?_, ?_⟩
  · rw [map_place hthread]
    exact h.ordered
  · intro thread hmem
    rcases mem_place h.ordered hthread hmem with rfl | ⟨hother, -⟩
    · exact hbelow
    · exact h.below thread hother
  · intro thread hmem hwindow
    rcases mem_place h.ordered hthread hmem with rfl | ⟨hother, hne⟩
    · exact hwaiting hwindow
    · rw [hothers _ hne]
      exact h.waiting thread hother hwindow
  · intro thread hmem hunfinished hwindow
    rcases mem_place h.ordered hthread hmem with rfl | ⟨hother, hne⟩
    · exact hrunning hunfinished hwindow
    · rw [hothers _ hne]
      exact h.running thread hother hunfinished hwindow
  · intro txid htxid
    by_cases hne : txid = txId
    · rw [hne]
      exact hbelow
    · exact h.known txid ((hothers txid hne).mp htxid)
  · intro thread hmem snapshot hsnapshot
    rcases mem_place h.ordered hthread hmem with rfl | ⟨hother, -⟩
    · exact howned snapshot hsnapshot
    · exact h.owned thread hother snapshot hsnapshot

theorem Numbered.step {machine : BeginMachine} (h : machine.Numbered) {op : BeginOp} (hids : machine.IdsLeft op) :
    (machine.step op).Numbered := by
  have hmoves := machine.step_moves op
  generalize machine.step op = next at hmoves
  cases hmoves with
  | allocate =>
      have hnext : (machine.store.nextTxid + 1) % 2 ^ 64 = machine.store.nextTxid + 1 :=
        Nat.mod_eq_of_lt (by
          have hlt : machine.store.nextTxid < u64Max := hids
          simp only [u64Max] at hlt
          omega)
      have hfresh : machine.store.nextTxid ∉ machine.store.activeTxns := fun hmem => Nat.lt_irrefl _ (h.known _ hmem)
      have hmem {thread : BeginThread}
          (hthread : thread ∈ machine.threads ++ [{ txId := machine.store.nextTxid, phase := .allocated }]) :
          thread ∈ machine.threads ∨ thread = { txId := machine.store.nextTxid, phase := .allocated } :=
        (List.mem_append.mp hthread).imp_right List.mem_singleton.mp
      refine ⟨?_, ?_, ?_, ?_, ?_, ?_⟩
      · rw [List.map_append, List.pairwise_append]
        refine ⟨h.ordered, List.pairwise_singleton _ _, fun txid htxid later hlater => ?_⟩
        obtain ⟨thread, hthread, rfl⟩ := List.mem_map.mp htxid
        obtain rfl := List.mem_singleton.mp hlater
        exact h.below thread hthread
      · intro thread hthread
        rw [hnext]
        rcases hmem hthread with hold | rfl
        · exact (h.below thread hold).trans (Nat.lt_succ_self _)
        · exact Nat.lt_succ_self _
      · intro thread hthread hwindow
        rcases hmem hthread with hold | rfl
        · exact h.waiting thread hold hwindow
        · exact hfresh
      · intro thread hthread hunfinished hwindow
        rcases hmem hthread with hold | rfl
        · exact h.running thread hold hunfinished hwindow
        · exact absurd trivial hwindow
      · intro txid htxid
        rw [hnext]
        exact (h.known txid htxid).trans (Nat.lt_succ_self _)
      · intro thread hthread snapshot hsnapshot
        rcases hmem hthread with hold | rfl
        · exact h.owned thread hold snapshot hsnapshot
        · cases hsnapshot
  | copy position txId hthread =>
      have hwaiting := h.waiting _ (List.mem_of_getElem? hthread) trivial
      refine h.moved hthread (fun _ => hwaiting) (fun _ hwindow => absurd trivial hwindow) (fun _ _ => Iff.rfl) ?_
      rintro snapshot ⟨⟩
      rfl
  | register position txId snapshot hthread =>
      refine h.moved hthread (fun hwindow => hwindow.elim) (fun _ _ => Finset.mem_insert_self _ _) ?_
        (h.owned _ (List.mem_of_getElem? hthread))
      intro txid hne
      simp [hne]
  | finish op position txId snapshot hop hthread =>
      refine h.moved hthread (fun hwindow => hwindow.elim) (fun hunfinished => hunfinished.elim) ?_
        (h.owned _ (List.mem_of_getElem? hthread))
      intro txid hne
      simp [hne]
  | same op hop hcopy => exact h

/-- The snapshots taken so far miss no transaction with a smaller id that is not finished: its id is in their active
set, and they see none of its versions. -/
def Complete (machine : BeginMachine) : Prop :=
  ∀ reader ∈ machine.threads, ∀ snapshot, reader.phase.snapshot = some snapshot →
    ∀ writer ∈ machine.threads, writer.txId < reader.txId → writer.phase.Unfinished →
      writer.txId ∈ snapshot.active ∧ ∀ version : RowVersion, version.txidMin = writer.txId →
        snapshot.sees version = false

/-- No transaction with a smaller id is in its window when the active set is copied. -/
def CopiesOutside (machine : BeginMachine) : BeginOp → Prop
  | .copy position => ∀ reader, machine.threads[position]? = some reader → reader.phase.snapshot = none →
      ∀ writer ∈ machine.threads, writer.txId < reader.txId → ¬ writer.phase.InWindow
  | _ => True

theorem complete_idle (startId : Nat) : (idle startId).Complete := nofun

theorem sees_of_mem {reader writer : Nat} {snapshot : Snapshot} (hreader : snapshot.txid = reader)
    (hlt : writer < reader) (hmem : writer ∈ snapshot.active) {version : RowVersion} (hmin : version.txidMin = writer) :
    snapshot.sees version = false := by
  apply Snapshot.sees_of_excludes
  rw [hmin]
  exact .inl ⟨hmem, by omega⟩

/-- A copy outside of all windows misses nobody. -/
theorem Complete.step {machine : BeginMachine} (h : machine.Numbered) (hcomplete : machine.Complete) {op : BeginOp}
    (hcopies : machine.CopiesOutside op) : (machine.step op).Complete := by
  have hmoves := machine.step_moves op
  generalize machine.step op = next at hmoves
  cases hmoves with
  | allocate =>
      intro reader hreader snapshot hsnapshot writer hwriter hlt hunfinished
      rcases List.mem_append.mp hreader with hold | hnew
      · rcases List.mem_append.mp hwriter with hother | hnew
        · exact hcomplete reader hold snapshot hsnapshot writer hother hlt hunfinished
        · obtain rfl := List.mem_singleton.mp hnew
          exact absurd (hlt.trans (h.below reader hold)) (Nat.lt_irrefl _)
      · obtain rfl := List.mem_singleton.mp hnew
        cases hsnapshot
  | copy position txId hthread =>
      intro reader hreader snapshot hsnapshot writer hwriter hlt hunfinished
      rcases mem_place h.ordered hthread hreader with rfl | ⟨hold, hne⟩
      · cases hsnapshot
        rcases mem_place h.ordered hthread hwriter with rfl | ⟨hother, -⟩
        · exact absurd hlt (Nat.lt_irrefl _)
        · have hactive := h.running writer hother hunfinished
            (hcopies _ hthread rfl writer hother hlt)
          exact ⟨hactive, fun version hmin => sees_of_mem rfl hlt hactive hmin⟩
      · rcases mem_place h.ordered hthread hwriter with rfl | ⟨hother, -⟩
        · have hmissed := hcomplete reader hold snapshot hsnapshot _ (List.mem_of_getElem? hthread) hlt trivial
          exact hmissed
        · exact hcomplete reader hold snapshot hsnapshot writer hother hlt hunfinished
  | register position txId taken hthread =>
      intro reader hreader snapshot hsnapshot writer hwriter hlt hunfinished
      have hreaders :
          ∃ before ∈ machine.threads, before.txId = reader.txId ∧ before.phase.snapshot = some snapshot := by
        rcases mem_place h.ordered hthread hreader with rfl | ⟨hold, -⟩
        · exact ⟨_, List.mem_of_getElem? hthread, rfl, hsnapshot⟩
        · exact ⟨reader, hold, rfl, hsnapshot⟩
      have hwriters : ∃ before ∈ machine.threads, before.txId = writer.txId ∧ before.phase.Unfinished := by
        rcases mem_place h.ordered hthread hwriter with rfl | ⟨hother, -⟩
        · exact ⟨_, List.mem_of_getElem? hthread, rfl, trivial⟩
        · exact ⟨writer, hother, rfl, hunfinished⟩
      obtain ⟨oldReader, holdReader, hreaderId, hreaderSnapshot⟩ := hreaders
      obtain ⟨oldWriter, holdWriter, hwriterId, hwriterPhase⟩ := hwriters
      rw [← hreaderId, ← hwriterId] at hlt
      rw [← hwriterId]
      exact hcomplete oldReader holdReader snapshot hreaderSnapshot oldWriter holdWriter hlt hwriterPhase
  | finish op position txId taken hop hthread =>
      intro reader hreader snapshot hsnapshot writer hwriter hlt hunfinished
      rcases mem_place h.ordered hthread hwriter with rfl | ⟨hother, -⟩
      · exact hunfinished.elim
      · rcases mem_place h.ordered hthread hreader with rfl | ⟨hold, -⟩
        · exact hcomplete _ (List.mem_of_getElem? hthread) snapshot hsnapshot writer hother hlt hunfinished
        · exact hcomplete reader hold snapshot hsnapshot writer hother hlt hunfinished
  | same op hop hcopy => exact hcomplete

/-- A copy within a window misses the transaction there. -/
theorem copiesOutside_of_complete {machine : BeginMachine} (h : machine.Numbered) {op : BeginOp}
    (hcomplete : (machine.step op).Complete) : machine.CopiesOutside op := by
  cases op with
  | copy position =>
      rintro ⟨txId, phase⟩ hthread hnone writer hwriter hlt hwindow
      cases phase with
      | allocated =>
          have hstep : machine.step (.copy position) =
              { store := machine.store
                threads := machine.place position txId (.copied { txid := txId, active := machine.store.activeTxns }) } := by
            simp only [step, stepAt, hthread]
            rfl
          obtain ⟨other, hother⟩ := List.mem_iff_getElem?.mp hwriter
          have hne : position ≠ other := by
            rintro rfl
            rw [hthread] at hother
            cases hother
            exact Nat.lt_irrefl _ hlt
          have hstays : writer ∈ (machine.step (.copy position)).threads := by
            rw [hstep]
            exact List.mem_of_getElem? ((List.getElem?_set_ne hne).trans hother)
          rw [hstep] at hcomplete hstays
          refine h.waiting writer hwriter hwindow (hcomplete _ (mem_place_self hthread) _ rfl writer hstays hlt ?_).1
          exact BeginPhase.unfinished_of_inWindow hwindow
      | copied snapshot => cases hnone
      | running snapshot => cases hnone
      | finished snapshot => cases hnone
  | allocate => trivial
  | register position => trivial
  | commit position => trivial
  | rollback position => trivial

/-- In a run of any interleaving, the snapshots are complete in every state exactly when no active set is copied
within the window of a transaction with a smaller id. -/
theorem snapshots_complete_iff {startId : Nat} {ops : List BeginOp} (hids : Meets step IdsLeft (idle startId) ops) :
    Meets step CopiesOutside (idle startId) ops ↔
      ∀ taken, taken <+: ops → (taken.foldl step (idle startId)).Complete := by
  refine @Meets.iff_shown_within _ _ step IdsLeft CopiesOutside (fun machine => machine.Numbered ∧ machine.Complete)
    Complete ?_ ?_ ?_ _ ⟨numbered_idle startId, complete_idle startId⟩ _ hids
  · exact fun _ h => h.2
  · exact fun _ _ h hids hcopies => ⟨h.1.step hids, h.2.step h.1 hcopies⟩
  · exact fun _ _ h _ hcomplete => copiesOutside_of_complete h.1 hcomplete

/-- Two transactions, the second of which copies the active set when the first is registered. -/
def inTurn : List BeginOp := [.allocate, .allocate, .copy 0, .register 0, .copy 1, .register 1]

theorem snapshots_complete_in_turn :
    Meets step CopiesOutside (idle 1) inTurn ↔
      ∀ taken, taken <+: inTurn → (taken.foldl step (idle 1)).Complete :=
  snapshots_complete_iff (by refine ⟨?_, ?_, trivial, trivial, trivial, trivial, trivial⟩ <;> decide)

/-- The second transaction copies the active set between the first two steps of the first one. -/
theorem not_snapshots_complete :
    ¬∀ (startId : Nat) (ops : List BeginOp), (ops.foldl step (idle startId)).Complete := by
  intro h
  have hcomplete := h 1 [.allocate, .allocate, .copy 1]
  obtain ⟨hmem, -⟩ := hcomplete { txId := 2, phase := .copied { txid := 2, active := {0} } } (by decide) _ rfl
    { txId := 1, phase := .allocated } (by decide) (by decide) trivial
  exact absurd hmem (by decide)

end BeginMachine

end HelionDb
