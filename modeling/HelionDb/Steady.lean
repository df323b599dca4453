import HelionDb.IndexMaintenance

/-! Serial runs that do not run out of ids. Every version in memory and in the log carries ids below the
counter, also after a restart, which sets the counter behind the largest id it finds. While accepted
commits are safe, moreover, no creator of a version is in the active set. -/

namespace HelionDb

namespace DatabaseEngine

variable {engine : DatabaseEngine}

private theorem raiseMaxTxid_le {maxTxid : Option Nat} {version : RowVersion} {bound : Nat}
    (hmax : maxTxid.getD 0 < bound) (hmin : version.txidMin < bound)
    (hclosed : version.txidMax ≠ u64Max → version.txidMax < bound) :
    (raiseMaxTxid maxTxid version).getD 0 < bound := by
  unfold raiseMaxTxid
  dsimp only [Option.getD_some]
  split <;> omega

private theorem le_raiseMaxTxid (maxTxid : Option Nat) (version : RowVersion) :
    maxTxid.getD 0 ≤ (raiseMaxTxid maxTxid version).getD 0 ∧
      version.txidMin ≤ (raiseMaxTxid maxTxid version).getD 0 ∧
      (version.txidMax ≠ u64Max → version.txidMax ≤ (raiseMaxTxid maxTxid version).getD 0) := by
  unfold raiseMaxTxid
  dsimp only [Option.getD_some]
  split <;> omega

private theorem foldl_raiseMaxTxid_lt {versions : List RowVersion} {maxTxid : Option Nat} {bound : Nat}
    (hmax : maxTxid.getD 0 < bound)
    (hversions : ∀ version ∈ versions, version.txidMin < bound ∧
      (version.txidMax ≠ u64Max → version.txidMax < bound)) :
    (versions.foldl raiseMaxTxid maxTxid).getD 0 < bound := by
  induction versions generalizing maxTxid with
  | nil => exact hmax
  | cons version rest ih =>
      obtain ⟨hmin, hclosed⟩ := hversions version List.mem_cons_self
      exact ih (raiseMaxTxid_le hmax hmin hclosed) fun other hother =>
        hversions other (List.mem_cons_of_mem _ hother)

private theorem le_foldl_raiseMaxTxid (versions : List RowVersion) (maxTxid : Option Nat) :
    maxTxid.getD 0 ≤ (versions.foldl raiseMaxTxid maxTxid).getD 0 := by
  induction versions generalizing maxTxid with
  | nil => exact le_rfl
  | cons version rest ih =>
      exact (le_raiseMaxTxid maxTxid version).1.trans (ih _)

private theorem mem_le_foldl_raiseMaxTxid {versions : List RowVersion} {version : RowVersion}
    (hversion : version ∈ versions) (maxTxid : Option Nat) :
    version.txidMin ≤ (versions.foldl raiseMaxTxid maxTxid).getD 0 ∧
      (version.txidMax ≠ u64Max → version.txidMax ≤ (versions.foldl raiseMaxTxid maxTxid).getD 0) := by
  induction versions generalizing maxTxid with
  | nil => cases hversion
  | cons first rest ih =>
      rw [List.foldl_cons]
      rcases List.mem_cons.mp hversion with rfl | hmem
      · obtain ⟨-, hmin, hclosed⟩ := le_raiseMaxTxid maxTxid version
        have hle := le_foldl_raiseMaxTxid rest (raiseMaxTxid maxTxid version)
        exact ⟨hmin.trans hle, fun hne => (hclosed hne).trans hle⟩
      · exact ih hmem _

theorem startIdOf_eq (tables : List Table) : startIdOf tables = (computeMaxTxid tables).getD 0 + 1 := by
  unfold startIdOf
  split
  · rename_i id hid
    rw [hid, Option.getD_some]
  · rename_i hnone
    rw [hnone, Option.getD_none]

/-- The versions of some tables. -/
private theorem mem_versions {tables : List Table} {version : RowVersion} :
    version ∈ tables.flatMap (fun table => table.versionChains.flatten) ↔
      ∃ table ∈ tables, ∃ chain ∈ table.versionChains, version ∈ chain := by
  simp [List.mem_flatMap, List.mem_flatten]

theorem ChainWf_closed {next : Nat} {chain : Chain} (h : ChainWf next chain) {version : RowVersion}
    (hversion : version ∈ chain) (hclosed : version.txidMax ≠ u64Max) : version.txidMax < next := by
  obtain ⟨prior, latest, rfl, hopen, hprior⟩ := h.shape
  rcases List.mem_append.mp hversion with hold | hlast
  · exact hprior version hold
  · exact absurd (List.mem_singleton.mp hlast ▸ hopen) hclosed

/-- The first id after recovery is above every id that was recovered. -/
theorem lt_startIdOf {tables : List Table} {table : Table} {chain : Chain} {version : RowVersion} (htable : table ∈ tables)
    (hchain : chain ∈ table.versionChains) (hversion : version ∈ chain) :
    version.txidMin < startIdOf tables ∧ (version.txidMax ≠ u64Max → version.txidMax < startIdOf tables) := by
  obtain ⟨hmin, hclosed⟩ := mem_le_foldl_raiseMaxTxid (mem_versions.mpr ⟨table, htable, chain, hchain, hversion⟩) none
  rw [startIdOf_eq]
  exact ⟨Nat.lt_succ_of_le hmin, fun hne => Nat.lt_succ_of_le (hclosed hne)⟩

/-- It is not above another id that is. -/
theorem startIdOf_le {tables : List Table} {next : Nat} (hnext : 1 ≤ next)
    (h : ∀ table ∈ tables, ∀ chain ∈ table.versionChains, ∀ version ∈ chain,
      version.txidMin < next ∧ (version.txidMax ≠ u64Max → version.txidMax < next)) : startIdOf tables ≤ next := by
  rw [startIdOf_eq]
  refine foldl_raiseMaxTxid_lt hnext fun version hversion => ?_
  obtain ⟨table, htable, chain, hchain, hmem⟩ := mem_versions.mp hversion
  exact h table htable chain hchain version hmem

theorem one_le_startIdOf (tables : List Table) : 1 ≤ startIdOf tables := by
  rw [startIdOf_eq]
  exact Nat.le_add_left 1 _

/-- The first id after recovery is above every id that was recovered and not above the old counter. -/
theorem startIdOf_spec {tables : List Table} {next : Nat} (hnext : 1 ≤ next) (hle : next ≤ u64Max)
    (h : AllChains (ChainWf next) tables) :
    1 ≤ startIdOf tables ∧ startIdOf tables ≤ next ∧ AllChains (ChainWf (startIdOf tables)) tables := by
  refine ⟨one_le_startIdOf tables, ?_, fun table htable chain hchain => ?_⟩
  · apply startIdOf_le hnext
    intro table htable chain hchain version hmem
    exact ⟨(h table htable chain hchain).creators version hmem, ChainWf_closed (h table htable chain hchain) hmem⟩
  · obtain ⟨prior, latest, hshape, hopen, hprior⟩ := (h table htable chain hchain).shape
    refine ⟨⟨prior, latest, hshape, hopen, fun version hversion => ?_⟩, fun version hversion => ?_⟩
    · have hmem : version ∈ chain := hshape ▸ List.mem_append_left _ hversion
      refine (lt_startIdOf htable hchain hmem).2 ?_
      exact ((hprior version hversion).trans_le hle).ne
    · exact (lt_startIdOf htable hchain hversion).1

/-- Every version in memory and in the log has ids below the counter, and the counter has not wrapped. -/
structure Dated (engine : DatabaseEngine) : Prop where
  positive : 1 ≤ engine.mvcc.nextTxid
  bounded : engine.mvcc.nextTxid ≤ u64Max
  live : AllChains (ChainWf engine.mvcc.nextTxid) engine.tables
  logged : AllChains (ChainWf engine.mvcc.nextTxid) engine.recovered

/-- A serial call uses two ids at most; there are two left. -/
def CounterRoom (engine : DatabaseEngine) : Prop := engine.mvcc.nextTxid + 2 ≤ u64Max

/-- What a call that commits has done before its commit. -/
structure Begun (engine begun : DatabaseEngine) (tx : Transaction) : Prop where
  frame : begun = { engine with mvcc := begun.mvcc }
  running : tx.status = .inProgress
  low : engine.mvcc.nextTxid ≤ tx.txId
  high : tx.txId ≤ engine.mvcc.nextTxid + 1
  counter : begun.mvcc.nextTxid = tx.txId + 1
  snapshotId : tx.snapshot.txid = tx.txId
  begunActive : begun.mvcc.activeTxns = insert tx.txId tx.snapshot.active
  active : tx.snapshot.active ⊆ insert engine.mvcc.nextTxid engine.mvcc.activeTxns
  kept : engine.mvcc.activeTxns.erase engine.mvcc.nextTxid ⊆ tx.snapshot.active

private theorem succ_mod {id : Nat} (h : id < u64Max) : (id + 1) % 2 ^ 64 = id + 1 := by
  refine Nat.mod_eq_of_lt ?_
  unfold u64Max at h
  omega

theorem begun_of_pending (hroom : engine.CounterRoom) {op : SerialOp} {begun : DatabaseEngine}
    {tx : Transaction} (h : engine.pending op = some (begun, tx)) : Begun engine begun tx := by
  obtain ⟨⟨start, entries⟩, hcommit, heq⟩ := Option.map_eq_some_iff.mp h
  obtain ⟨rfl, rfl⟩ := Prod.mk.inj heq
  unfold CounterRoom at hroom
  rcases commitOf_start hcommit with rfl | rfl
  · have hlt : start.mvcc.nextTxid < u64Max := by omega
    exact ⟨rfl, rfl, le_rfl, Nat.le_succ _, succ_mod hlt, rfl, rfl, Finset.subset_insert _ _,
      Finset.erase_subset _ _⟩
  · have hread := readSnapshot_idStep engine
    have hcounter : engine.readSnapshot.2.mvcc.nextTxid = engine.mvcc.nextTxid + 1 :=
      hread.counter.trans (succ_mod (by omega))
    refine ⟨rfl, rfl, ?_, hcounter.le, ?_, rfl, rfl, hread.active, hread.kept⟩
    · change engine.mvcc.nextTxid ≤ engine.readSnapshot.2.mvcc.nextTxid
      rw [hcounter]
      exact Nat.le_succ _
    · change (engine.readSnapshot.2.mvcc.nextTxid + 1) % 2 ^ 64 = engine.readSnapshot.2.mvcc.nextTxid + 1
      rw [hcounter]
      exact succ_mod (by omega)

namespace Begun

variable {begun : DatabaseEngine} {tx : Transaction}

theorem tables (h : Begun engine begun tx) : begun.tables = engine.tables := by rw [h.frame]

theorem recovered (h : Begun engine begun tx) : begun.recovered = engine.recovered := by rw [h.frame]; rfl

theorem wellFormed (h : Begun engine begun tx) (hwf : engine.WellFormed) : begun.WellFormed := by
  rw [h.frame]
  exact hwf.of_frame rfl (.refl _) rfl

/-- An accepted and safe commit returns Ok. -/
theorem commit_ok (h : Begun engine begun tx) (hwf : engine.WellFormed)
    (haccept : ChecksAccept tx (snapshotTables engine.tables)) (hsafe : begun.CommitSafe tx)
    (orders : CommitOrders) : (begun.commit orders tx).1 = .ok () :=
  (commit_ok_iff (h.wellFormed hwf) h.running (h.tables ▸ haccept)).mpr hsafe

end Begun

theorem commit_nextTxid (engine : DatabaseEngine) (orders : CommitOrders) (tx : Transaction) :
    (engine.commit orders tx).2.2.mvcc.nextTxid = engine.mvcc.nextTxid :=
  (Session.commit_finish engine orders tx).nextTxid

/-- A serial call other than a reopen moves the counter forward, by two at most. -/
theorem counter_transition (hroom : engine.CounterRoom) {call : SerialCall} {after : DatabaseEngine}
    (htransition : Transition engine call after) :
    (engine.mvcc.nextTxid ≤ after.mvcc.nextTxid ∧ after.mvcc.nextTxid ≤ u64Max) ∨
      ∃ defaultEngine loaded, openWithDurability engine.walOld engine.wal engine.catalog.saved defaultEngine
        loaded = .ok after := by
  have hroom' := hroom
  unfold CounterRoom at hroom'
  cases htransition with
  | ids mvcc hids =>
      have hnext : mvcc.nextTxid = engine.mvcc.nextTxid + 1 := hids.counter.trans (succ_mod (by omega))
      exact Or.inl ⟨hnext ▸ Nat.le_succ _, by change mvcc.nextTxid ≤ _; omega⟩
  | write start entries hcommit hstart =>
      have hpending : engine.pending call.op = some (start.begin.2, start.beginWith entries) := by
        rw [pending, hcommit]
        rfl
      have hbegun := begun_of_pending hroom hpending
      rw [commit_nextTxid, hbegun.counter]
      have hlow := hbegun.low
      have hhigh := hbegun.high
      exact Or.inl ⟨by omega, by omega⟩
  | reopen defaultEngine loaded next hop hopen => exact Or.inr ⟨defaultEngine, loaded, hopen⟩
  | same | create | drop | migrate | createIndex | dropIndex | checkpoint | shutdown =>
      exact Or.inl ⟨le_rfl, (Nat.le_add_right _ 2).trans hroom'⟩

theorem chainWf_rule {next txid : Nat} (htxid : txid < next) : ChainRule txid (ChainWf next) where
  single _ hmin hopen := .single hopen (hmin ▸ htxid)
  extend _ _ hchain hmin hopen := hchain.extend htxid hopen (hmin ▸ htxid)

theorem Dated.fresh (defaultEngine : String) : (fresh defaultEngine).Dated :=
  ⟨le_rfl, (by decide : 1 ≤ u64Max), .nil _, .nil _⟩

/-- Serial calls keep versions dated while ids are left. -/
theorem Dated.transition (h : engine.Dated) (hwf : engine.WellFormed) (hroom : engine.CounterRoom)
    {call : SerialCall} {after : DatabaseEngine} (htransition : Transition engine call after) : after.Dated := by
  rcases counter_transition hroom htransition with ⟨hle, hbounded⟩ | ⟨defaultEngine, loaded, hopen⟩
  · have hmono : ∀ chain, ChainWf engine.mvcc.nextTxid chain → ChainWf after.mvcc.nextTxid chain :=
      fun chain hchain => hchain.mono hle
    have hrule : ∀ begun tx, engine.pending call.op = some (begun, tx) →
        ChecksAccept tx (snapshotTables engine.tables) → after = (begun.commit call.orders tx).2.2 →
          ChainRule tx.txId (ChainWf after.mvcc.nextTxid) := by
      rintro begun tx hpending - rfl
      rw [commit_nextTxid, (begun_of_pending hroom hpending).counter]
      exact chainWf_rule (Nat.lt_succ_self _)
    obtain ⟨hlive, hlogged⟩ :=
      chains_transition hwf hrule (h.live.mono hmono) (h.logged.mono hmono) htransition
    exact ⟨h.positive.trans hle, hbounded, hlive, hlogged⟩
  · obtain ⟨opened, hopened, htables, hwalOld, hwal, hmvcc, -⟩ := hwf.reopen defaultEngine loaded
    have hsame : opened = after := Except.ok.inj (hopened.symm.trans hopen)
    subst hsame
    obtain ⟨hpositive, hle, hlogged⟩ := startIdOf_spec h.positive h.bounded h.logged
    have hnext : opened.mvcc.nextTxid = startIdOf engine.recovered := by
      rw [hmvcc]
      exact max_eq_left hpositive
    have hrecovered : opened.recovered = engine.recovered := by rw [recovered, hwalOld, hwal, ← recovered]
    refine ⟨hnext ▸ hpositive, hnext ▸ hle.trans h.bounded, ?_, ?_⟩
    · rw [hnext, htables]
      refine hlogged.of_image ?_
      rw [List.map_map]
      exact List.map_congr_left fun table _ => rebuildIfEmpty_image table
    · rw [hnext, hrecovered]
      exact hlogged

/-! ### Settled creators -/

/-- The commit of a call, if its checks accept it, gets through all its phases. -/
def AcceptedSafe (engine : DatabaseEngine) (call : SerialCall) : Prop :=
  ∀ begun tx, engine.pending call.op = some (begun, tx) →
    ChecksAccept tx (snapshotTables engine.tables) → begun.CommitSafe tx

theorem acceptedSafe_of_none {call : SerialCall} (hpending : engine.pending call.op = none) :
    engine.AcceptedSafe call := by
  intro begun tx hsome
  rw [hpending] at hsome
  cases hsome

theorem acceptedSafe_of_ok {call : SerialCall} {begun : DatabaseEngine} {tx : Transaction}
    (hpending : engine.pending call.op = some (begun, tx)) (hwf : begun.WellFormed)
    (hok : (begun.commit call.orders tx).1 = .ok ()) : engine.AcceptedSafe call := by
  intro other otherTx hsome _
  obtain ⟨rfl, rfl⟩ := Prod.mk.inj (Option.some.inj (hpending.symm.trans hsome))
  have hinstalls := (DatabaseEngine.commit_ok hok).1
  exact (commit_ok_iff hwf hinstalls.running hinstalls.accept).mp hok

/-- None of the creators of a chain is in a set of ids. -/
def Unheld (active : Finset Nat) (chain : Chain) : Prop := ∀ version ∈ chain, version.txidMin ∉ active

theorem unheld_rule {active : Finset Nat} {txid : Nat} (htxid : txid ∉ active) : ChainRule txid (Unheld active) :=
  .creators (p := (· ∉ active)) htxid

/-- No creator of a version, in memory or in the log, is in the active set. -/
structure Settled (engine : DatabaseEngine) : Prop where
  zero : 0 ∈ engine.mvcc.activeTxns
  live : AllChains (Unheld engine.mvcc.activeTxns) engine.tables
  logged : AllChains (Unheld engine.mvcc.activeTxns) engine.recovered

theorem Settled.fresh (defaultEngine : String) : (fresh defaultEngine).Settled :=
  ⟨Finset.mem_singleton_self 0, .nil _, .nil _⟩

/-- A serial call other than a reopen makes no old id active, and keeps id 0 active. -/
theorem active_transition (hdated : engine.Dated) (hroom : engine.CounterRoom) {call : SerialCall}
    {after : DatabaseEngine} (hzero : 0 ∈ engine.mvcc.activeTxns) (htransition : Transition engine call after) :
    (0 ∈ after.mvcc.activeTxns ∧
      ∀ id ∈ after.mvcc.activeTxns, id ∈ engine.mvcc.activeTxns ∨ engine.mvcc.nextTxid ≤ id) ∨
    ∃ defaultEngine loaded, openWithDurability engine.walOld engine.wal engine.catalog.saved defaultEngine
      loaded = .ok after := by
  have hne : 0 ≠ engine.mvcc.nextTxid := by
    have hpositive := hdated.positive
    omega
  have hbegun : ∀ id ∈ insert engine.mvcc.nextTxid engine.mvcc.activeTxns,
      id ∈ engine.mvcc.activeTxns ∨ engine.mvcc.nextTxid ≤ id := by
    intro id hid
    rcases Finset.mem_insert.mp hid with rfl | hold
    · exact Or.inr le_rfl
    · exact Or.inl hold
  cases htransition with
  | ids mvcc hids =>
      exact Or.inl ⟨hids.kept (Finset.mem_erase.mpr ⟨hne, hzero⟩), fun id hid => hbegun id (hids.active hid)⟩
  | write start entries hcommit hstart =>
      have hpending : engine.pending call.op = some (start.begin.2, start.beginWith entries) := by
        rw [pending, hcommit]
        rfl
      have hb := begun_of_pending hroom hpending
      have hlow := hb.low
      have hpositive := hdated.positive
      have hzeroBegun : 0 ∈ (start.begin.2).mvcc.activeTxns := by
        rw [hb.begunActive]
        exact Finset.mem_insert_of_mem (hb.kept (Finset.mem_erase.mpr ⟨hne, hzero⟩))
      have hidBegun : ∀ id ∈ (start.begin.2).mvcc.activeTxns,
          id ∈ engine.mvcc.activeTxns ∨ engine.mvcc.nextTxid ≤ id := by
        intro id hid
        rw [hb.begunActive] at hid
        rcases Finset.mem_insert.mp hid with rfl | hold
        · exact Or.inr hlow
        · exact hbegun id (hb.active hold)
      refine Or.inl ?_
      rcases Session.commit_finish start.begin.2 call.orders (start.beginWith entries) with
        ⟨-, hmvcc⟩ | ⟨_, -, -, hmvcc⟩
      · rw [hmvcc]
        exact ⟨hzeroBegun, hidBegun⟩
      · rw [hmvcc]
        refine ⟨Finset.mem_erase.mpr ⟨by omega, hzeroBegun⟩, fun id hid => hidBegun id ?_⟩
        exact Finset.mem_of_mem_erase hid
  | reopen defaultEngine loaded next hop hopen => exact Or.inr ⟨defaultEngine, loaded, hopen⟩
  | same | create | drop | migrate | createIndex | dropIndex | checkpoint | shutdown =>
      exact Or.inl ⟨hzero, fun id hid => Or.inl hid⟩

/-- While accepted commits are safe, serial calls keep creators settled. -/
theorem Settled.transition (h : engine.Settled) (hwf : engine.WellFormed) (hdated : engine.Dated)
    (hroom : engine.CounterRoom) {call : SerialCall} (hsafe : engine.AcceptedSafe call) {after : DatabaseEngine}
    (htransition : Transition engine call after) : after.Settled := by
  have hkeep : ∀ active : Finset Nat, (∀ id ∈ active, id ∈ engine.mvcc.activeTxns ∨ engine.mvcc.nextTxid ≤ id) →
      ∀ tables, AllChains (Unheld engine.mvcc.activeTxns) tables →
        AllChains (ChainWf engine.mvcc.nextTxid) tables → AllChains (Unheld active) tables := by
    intro active hactive tables hunheld hwfChains table htable chain hchain version hversion hmem
    rcases hactive _ hmem with hold | hlate
    · exact hunheld table htable chain hchain version hversion hold
    · exact absurd ((hwfChains table htable chain hchain).creators version hversion) (Nat.not_lt.mpr hlate)
  rcases active_transition hdated hroom h.zero htransition with ⟨hzero, hactive⟩ | ⟨defaultEngine, loaded, hopen⟩
  · have hrule : ∀ begun tx, engine.pending call.op = some (begun, tx) →
        ChecksAccept tx (snapshotTables engine.tables) → after = (begun.commit call.orders tx).2.2 →
          ChainRule tx.txId (Unheld after.mvcc.activeTxns) := by
      rintro begun tx hpending haccept rfl
      have hb := begun_of_pending hroom hpending
      have hok := hb.commit_ok hwf haccept (hsafe begun tx hpending haccept) call.orders
      exact unheld_rule (completes_of_ok (hb.wellFormed hwf) hok).inactive
    obtain ⟨hlive, hlogged⟩ := chains_transition hwf hrule (hkeep _ hactive _ h.live hdated.live)
      (hkeep _ hactive _ h.logged hdated.logged) htransition
    exact ⟨hzero, hlive, hlogged⟩
  · obtain ⟨opened, hopened, htables, hwalOld, hwal, hmvcc, -⟩ := hwf.reopen defaultEngine loaded
    have hsame : opened = after := Except.ok.inj (hopened.symm.trans hopen)
    subst hsame
    have hactive : opened.mvcc.activeTxns = {0} := by rw [hmvcc]; rfl
    have hrecovered : opened.recovered = engine.recovered := by rw [recovered, hwalOld, hwal, ← recovered]
    have hzero : AllChains (Unheld opened.mvcc.activeTxns) engine.recovered := by
      rw [hactive]
      refine h.logged.mono fun chain hchain version hversion hmem => hchain version hversion ?_
      rw [Finset.mem_singleton.mp hmem]
      exact h.zero
    refine ⟨hactive ▸ Finset.mem_singleton_self 0, ?_, hrecovered ▸ hzero⟩
    rw [htables]
    refine hzero.of_image ?_
    rw [List.map_map]
    exact List.map_congr_left fun table _ => rebuildIfEmpty_image table

/-- Calls that leave ids and whose commit, if its checks accept it, is safe. -/
structure SteadyGuard (engine : DatabaseEngine) (call : SerialCall) : Prop where
  room : engine.CounterRoom
  safe : engine.AcceptedSafe call

/-- What serial calls under this guard keep. -/
theorem SerialReachable.steady (h : SerialReachable SteadyGuard engine) :
    engine.WellFormed ∧ engine.Dated ∧ engine.Settled := by
  obtain ⟨defaultEngine, run⟩ := h
  refine run.invariant (P := fun state => state.WellFormed ∧ state.Dated ∧ state.Settled)
    (fun state call hstate hguard => ?_)
    ⟨WellFormed.fresh defaultEngine, Dated.fresh defaultEngine, Settled.fresh defaultEngine⟩
  obtain ⟨hwf, hdated, hsettled⟩ := hstate
  have htransition := serialStep_transition state call
  exact ⟨hwf.transition htransition, hdated.transition hwf hguard.room htransition,
    hsettled.transition hwf hdated hguard.room hguard.safe htransition⟩

end DatabaseEngine

end HelionDb
