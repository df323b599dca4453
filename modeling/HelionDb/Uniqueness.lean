import HelionDb.IndexConsistency
import HelionDb.Statements

/-! Uniqueness under serial SQL statements. The check before a commit compares each new row with the
committed keys only, so nothing keeps one statement from writing a key twice. While the accepted commits
are safe, every unique index keeps its keys apart, over restarts too: statements write exactly, so the
indexes agree with the chains, and the automatic indexes that a restart rebuilds were all there before. -/

namespace HelionDb

section Entries

variable {definition : IndexMeta} {txId : Nat} {snapshot : String → Option Table} {chains : List Chain}

/-- An INSERT takes the positions from the end of the table on. -/
theorem entriesExact_insert (tableName : String) (rows : List Row) :
    EntriesExact definition txId snapshot chains (insertEntries tableName chains.length rows) := by
  induction rows generalizing chains with
  | nil => trivial
  | cons row rest ih =>
      rw [insertEntries_cons]
      refine ⟨⟨le_rfl, Or.inl ?_⟩, ?_⟩
      · rw [rowAt_eq_none_of_le le_rfl]
        rfl
      · have hplaced : placeEntry txId snapshot chains
            { tableName, rowIdx := chains.length, oldTxidMax := u64Max, operation := .insert row } =
              chains ++ [[.newInsert txId row]] := placeVersion_of_le le_rfl
        have hlength : (chains ++ [[RowVersion.newInsert txId row]]).length = chains.length + 1 := by simp
        rw [hplaced, ← hlength]
        exact ih

theorem rowAt_placeEntry_of_ne {entry : WriteEntry} {other : Nat} (hother : other < chains.length)
    (hne : other ≠ entry.rowIdx) : rowAt (placeEntry txId snapshot chains entry) other = rowAt chains other := by
  rw [rowAt, rowAt, getElem?_placeEntry_of_ne hother hne]

/-- Updates and deletions of different rows each find the row as the copy has it. -/
theorem entriesExact_of_nodup {entries : List WriteEntry}
    (hnodup : (entries.map (·.rowIdx)).Nodup) (hinsert : ∀ entry ∈ entries, ∀ row, entry.operation ≠ .insert row)
    (hrow : ∀ entry ∈ entries, entry.rowIdx < chains.length)
    (hold : ∀ entry ∈ entries, oldRowOf snapshot entry = rowAt chains entry.rowIdx) :
    EntriesExact definition txId snapshot chains entries := by
  induction entries generalizing chains with
  | nil => trivial
  | cons entry rest ih =>
      obtain ⟨hentry, hrest⟩ := List.nodup_cons.mp hnodup
      have hhead := hold entry List.mem_cons_self
      refine ⟨?_, ih hrest (fun other hother => hinsert other (List.mem_cons_of_mem _ hother))
        (fun other hother => ?_) (fun other hother => ?_)⟩
      · unfold EntryExact
        rw [hhead]
        cases hoperation : entry.operation with
        | insert row => exact absurd hoperation (hinsert entry List.mem_cons_self row)
        | update row => exact Or.inr (Or.inl rfl)
        | delete => exact Or.inr (Or.inr rfl)
      · exact (hrow other (List.mem_cons_of_mem _ hother)).trans_le (length_le_placeEntry _ _ _ _)
      · have hne : other.rowIdx ≠ entry.rowIdx := fun heq => hentry (List.mem_map.mpr ⟨other, hother, heq⟩)
        rw [rowAt_placeEntry_of_ne (hrow other (List.mem_cons_of_mem _ hother)) hne]
        exact hold other (List.mem_cons_of_mem _ hother)

end Entries

namespace DatabaseEngine

variable {engine : DatabaseEngine}

/-- The commit of an SQL statement is exact for every index. -/
theorem writesExact_execute (hwf : engine.WellFormed) (hdated : engine.Dated) (plan : LogicalPlan)
    (orders : CommitOrders) : engine.WritesExact { op := .execute plan, orders } := by
  intro begun tx hpending _ other hother index _
  obtain ⟨tableName, table, htable, hwrites⟩ := pending_execute hpending
  rw [entriesOf_of_named hwrites.named]
  split
  · rename_i hname
    obtain rfl : other = table := Option.some.inj ((hwf.findTable_self hother).symm.trans (hname ▸ htable))
    generalize tx.writeSet = entries at hwrites ⊢
    cases hwrites with
    | insert rows hplan => exact entriesExact_insert tableName rows
    | «over» filter _ hover =>
        refine entriesExact_of_nodup hover.nodup hover.noInsert (fun entry hentry => hover.lt_length hentry)
          (fun entry hentry => ?_)
        rw [oldRowOf, hover.named entry hentry, hwf.snapshotTables_eq, htable]
        exact ChainsWf.getVisibleRow_eq (hdated.live other hother) hdated.bounded entry.rowIdx
  · trivial

end DatabaseEngine

/-! ### Serial SQL -/

/-- What a serial SQL client does: statements, and restarts of the engine. -/
inductive SqlCall where
  | statement (plan : LogicalPlan) (orders : CommitOrders)
  | restart (defaultEngine : String) (loaded : String → Option Table)

/-- The engine calls behind it; a restart is a shutdown and an open. -/
def SqlCall.calls : SqlCall → List SerialCall
  | .statement plan orders => [{ op := .execute plan, orders }]
  | .restart defaultEngine loaded =>
      [{ op := .shutdown, orders := .asGiven }, { op := .reopen defaultEngine loaded, orders := .asGiven }]

def LogicalPlan.isDropIndex : LogicalPlan → Bool
  | .dropIndex _ _ _ => true
  | _ => false

namespace DatabaseEngine

variable {engine : DatabaseEngine}

def sqlStep (engine : DatabaseEngine) (call : SqlCall) : DatabaseEngine := call.calls.foldl serialStep engine

/-- The engines that guarded SQL clients reach from an empty directory. -/
def SqlReachable (guard : DatabaseEngine → SqlCall → Prop) (engine : DatabaseEngine) : Prop :=
  ∃ defaultEngine, Reaches sqlStep guard (fresh defaultEngine) engine

/-- The statements considered; DROP INDEX is not among them. -/
def SqlDomain (_ : DatabaseEngine) : SqlCall → Prop
  | .statement plan _ => plan.isDropIndex = false
  | .restart _ _ => True

/-- Ids are left, and the commit of a statement, if its checks accept it, is safe: no key is added while
another row holds it, NULL keys and the keys of the same statement included. -/
structure SqlGuard (engine : DatabaseEngine) (call : SqlCall) : Prop where
  domain : SqlDomain engine call
  room : engine.CounterRoom
  safe : ∀ plan orders, call = .statement plan orders → engine.AcceptedSafe { op := .execute plan, orders }

/-- No two live rows share a non-NULL key of a unique index. -/
def UniqueRows (engine : DatabaseEngine) : Prop :=
  ∀ table ∈ engine.tables, ∀ index ∈ table.indexes, index.definition.isUnique = true →
    ∀ first ∈ table.scanVisible u64Max ∅, ∀ second ∈ table.scanVisible u64Max ∅,
      index.extractKey first.2 = index.extractKey second.2 →
        (index.extractKey first.2).all Datum.isNull = false → first.1 = second.1

/-- Unique indexes keep keys apart, and every table has its automatic indexes. -/
structure Keyed (engine : DatabaseEngine) : Prop where
  unique : ∀ table ∈ engine.tables, ∀ index ∈ table.indexes, index.definition.isUnique = true →
    KeyPairs.UniqueKeys index.pairs
  builtIn : ∀ table ∈ engine.tables, table.builtDefinitions ⊆ table.definitions.toFinset

/-- What serial SQL keeps. -/
structure SqlInv (engine : DatabaseEngine) : Prop where
  wellFormed : engine.WellFormed
  dated : engine.Dated
  consistent : engine.Consistent
  keyed : engine.Keyed

theorem SqlInv.uniqueRows (h : engine.SqlInv) : engine.UniqueRows := by
  rintro table htable index hindex hunique ⟨first, row⟩ hfirst ⟨second, other⟩ hsecond hkey -
  have hmem : ∀ position (row : Row), (position, row) ∈ table.scanVisible u64Max ∅ →
      (index.extractKey row, position) ∈ index.pairs := by
    intro position row hscan
    rw [h.consistent table htable index hindex]
    exact ⟨row, (ChainsWf.mem_scanVisible (h.dated.live table htable) h.dated.bounded (by simp)).mp hscan, rfl⟩
  exact h.keyed.unique table htable index hindex hunique _ first second (hmem first row hfirst)
    (hkey ▸ hmem second other hsecond)

theorem Keyed.commit (h : engine.Keyed) (hwf : engine.WellFormed) {orders : CommitOrders} {tx : Transaction}
    (hok : (engine.commit orders tx).1 = .ok ()) : (engine.commit orders tx).2.2.Keyed := by
  refine ⟨fun after hafter index' hindex' hunique => ?_, fun after hafter => ?_⟩
  · obtain ⟨table, htable, -, -, hmaintained, hadmissible⟩ := table_of_commit_ok hwf hok hafter
    obtain ⟨index, hindex, hdefinition, hpairs⟩ := exists_of_maintained hmaintained hindex'
    rw [hdefinition] at hunique
    have hadmits := (hadmissible index hindex).2
    rw [hunique] at hadmits
    rw [hpairs]
    exact (h.unique table htable index hindex hunique).applyAll hadmits
  · obtain ⟨table, htable, hschema, -, hmaintained, -⟩ := table_of_commit_ok hwf hok hafter
    have hdefinitions : after.definitions = table.definitions := definitions_of_maintained hmaintained
    rw [hdefinitions, ← Table.builtDefinitions_congr hschema]
    exact h.builtIn table htable

/-- Statements keep unique indexes and automatic ones. -/
theorem Keyed.execute (h : engine.Keyed) (hwf : engine.WellFormed) (hroom : engine.CounterRoom)
    {plan : LogicalPlan} {orders : CommitOrders} (hplan : plan.isDropIndex = false)
    (hsafe : engine.AcceptedSafe { op := .execute plan, orders }) {after : DatabaseEngine}
    (htransition : Transition engine { op := .execute plan, orders } after) : after.Keyed := by
  cases htransition with
  | same | ids | migrate | checkpoint | shutdown => exact ⟨h.unique, h.builtIn⟩
  | write start entries hcommit hstart =>
      have hpending : engine.pending (.execute plan) = some (start.begin.2, start.beginWith entries) := by
        rw [pending, hcommit]
        rfl
      have hbegun := begun_of_pending hroom hpending
      have htables := hbegun.tables
      have hkeyed : (start.begin.2).Keyed := ⟨htables ▸ h.unique, htables ▸ h.builtIn⟩
      by_cases haccept : ChecksAccept (start.beginWith entries) (snapshotTables engine.tables)
      · exact hkeyed.commit (hbegun.wellFormed hwf)
          (hbegun.commit_ok hwf haccept (hsafe _ _ hpending haccept) orders)
      · rw [← htables] at haccept
        rw [commit_of_not_accepted haccept]
        exact ⟨hkeyed.unique, hkeyed.builtIn⟩
  | create name columns engineName catalog hfresh hcatalog =>
      refine ⟨fun table htable index hindex hunique => ?_, fun table htable => ?_⟩
      · rcases List.mem_append.mp htable with hold | hnew
        · exact h.unique table hold index hindex hunique
        · rw [List.mem_singleton.mp hnew] at hindex
          rw [Table.index_new hindex, Index.pairs_new]
          exact fun _ _ _ hmem => absurd hmem (Set.notMem_empty _)
      · rcases List.mem_append.mp htable with hold | hnew
        · exact h.builtIn table hold
        · rw [List.mem_singleton.mp hnew, Table.builtDefinitions, Table.new_name, Table.new_columns]
  | drop name catalog hcatalog =>
      exact ⟨fun table htable => h.unique table (List.mem_filter.mp htable).1,
        fun table htable => h.builtIn table (List.mem_filter.mp htable).1⟩
  | createIndex tableName table next name columns unique htable hnext =>
      have hmem := (hwf.findTable_eq_some.mp htable).1
      obtain ⟨added, rfl, hdefinition, -, hkeys⟩ := Table.addIndex_ok hnext
      refine ⟨fun other hother index hindex hunique => ?_, fun other hother => ?_⟩
      · rcases KeyedList.mem_update hother with hold | ⟨-, -, -, rfl⟩
        · exact h.unique other hold index hindex hunique
        · rcases List.mem_append.mp hindex with hold | hnew
          · exact h.unique table hmem index hold hunique
          · rw [List.mem_singleton.mp hnew] at hunique ⊢
            rw [hdefinition] at hunique
            exact hkeys hunique
      · rcases KeyedList.mem_update hother with hold | ⟨-, -, -, rfl⟩
        · exact h.builtIn other hold
        · refine (h.builtIn table hmem).trans fun definition hdef => ?_
          rw [List.mem_toFinset] at hdef ⊢
          rw [Table.definitions, List.map_append]
          exact List.mem_append_left _ hdef
  | dropIndex tableName table next name ifExists hop htable hnext =>
      obtain rfl := SerialOp.execute.inj hop
      cases hplan
  | reopen defaultEngine loaded next hop hopen => cases hop

/-- A restart rebuilds the automatic indexes of every table from the chains there were. -/
theorem Keyed.restart (h : engine.SqlInv) {after : DatabaseEngine} (htables : after.tables = engine.shutdown.recovered.map rebuildIfEmpty) :
    after.Keyed := by
  have himage : engine.shutdown.recovered.map Table.image = engine.tables.map Table.image := by
    rw [recovered, replayWal, shutdown, writeCheckpoint, List.append_nil]
    exact WellFormed.recovered_checkpoint _ _
  have hsource : ∀ table ∈ after.tables, ∃ replayed ∈ engine.shutdown.recovered, table = rebuildIfEmpty replayed ∧
      replayed.Built ∧ ∃ old ∈ engine.tables, old.image = replayed.image := by
    intro table htable
    rw [htables] at htable
    obtain ⟨replayed, hreplayed, rfl⟩ := List.mem_map.mp htable
    have hmem : replayed.image ∈ engine.tables.map Table.image := himage ▸ List.mem_map_of_mem hreplayed
    obtain ⟨old, hold, heq⟩ := List.mem_map.mp hmem
    exact ⟨replayed, hreplayed, rfl, built_recovered _ replayed hreplayed, old, hold, heq⟩
  refine ⟨fun table htable index hindex hunique => ?_, fun table htable => ?_⟩
  · obtain ⟨replayed, hreplayed, rfl, hbuilt, old, hold, heq⟩ := hsource table htable
    have hchains : old.versionChains = replayed.versionChains := congrArg TableImage.versionChains heq
    have hschema : old.schema = replayed.schema :=
      congrArg (fun image : TableImage => (image.name, image.columns)) heq
    have hpairs := consistent_rebuildIfEmpty hbuilt (hchains ▸ h.dated.live old hold) h.dated.bounded hindex
    have hdefinition : index.definition ∈ old.definitions.toFinset := by
      refine h.keyed.builtIn old hold ?_
      rw [Table.builtDefinitions_congr hschema, Table.builtDefinitions, List.mem_toFinset]
      have hmem : index.definition ∈ (rebuildIfEmpty replayed).definitions := List.mem_map_of_mem hindex
      rw [rebuildIfEmpty_definitions, Table.definitions, hbuilt] at hmem
      exact hmem
    obtain ⟨owner, howner, hsame⟩ := List.mem_map.mp (List.mem_toFinset.mp hdefinition)
    have hkeys := h.keyed.unique old hold owner howner (hsame ▸ hunique)
    rw [h.consistent old hold owner howner, hsame, hchains] at hkeys
    have hchainsAfter : (rebuildIfEmpty replayed).versionChains = replayed.versionChains :=
      congrArg TableImage.versionChains (rebuildIfEmpty_image replayed)
    rw [hpairs, hchainsAfter]
    exact hkeys
  · obtain ⟨replayed, -, rfl, hbuilt, -⟩ := hsource table htable
    rw [← definitions_rebuildIfEmpty hbuilt]

theorem SqlInv.statement (h : engine.SqlInv) {plan : LogicalPlan} {orders : CommitOrders}
    (hguard : engine.SqlGuard (.statement plan orders)) : (engine.sqlStep (.statement plan orders)).SqlInv := by
  have htransition := serialStep_transition engine { op := .execute plan, orders }
  have hsafe := hguard.safe plan orders rfl
  exact ⟨h.wellFormed.transition htransition, h.dated.transition h.wellFormed hguard.room htransition,
    h.consistent.transition h.wellFormed h.dated
      ⟨hguard.room, hsafe, writesExact_execute h.wellFormed h.dated plan orders⟩ htransition,
    h.keyed.execute h.wellFormed hguard.room hguard.domain hsafe htransition⟩

theorem SqlInv.restart (h : engine.SqlInv) (hroom : engine.CounterRoom) (defaultEngine : String)
    (loaded : String → Option Table) : (engine.sqlStep (.restart defaultEngine loaded)).SqlInv := by
  have hshutdown : Transition engine { op := .shutdown, orders := .asGiven } engine.shutdown := .shutdown
  have hwf := h.wellFormed.transition hshutdown
  have hdated := h.dated.transition h.wellFormed hroom hshutdown
  have hconsistent := h.consistent.transition h.wellFormed h.dated (indexGuard_of_none hroom rfl) hshutdown
  have hreopen := serialStep_transition engine.shutdown
    { op := .reopen defaultEngine loaded, orders := .asGiven }
  refine ⟨hwf.transition hreopen, hdated.transition hwf hroom hreopen,
    hconsistent.transition hwf hdated (indexGuard_of_none hroom rfl) hreopen, ?_⟩
  obtain ⟨next, hopen, htables, -⟩ := hwf.reopen defaultEngine loaded
  have hstep : engine.sqlStep (.restart defaultEngine loaded) = next := by
    change engine.shutdown.serialStep { op := .reopen defaultEngine loaded, orders := .asGiven } = next
    simp only [serialStep, hopen]
  rw [hstep]
  exact Keyed.restart h htables

theorem SqlReachable.inv (h : SqlReachable SqlGuard engine) : engine.SqlInv := by
  obtain ⟨defaultEngine, run⟩ := h
  refine run.invariant (fun state call hstate hguard => ?_) ⟨WellFormed.fresh defaultEngine,
    Dated.fresh defaultEngine, List.forall_mem_nil _, List.forall_mem_nil _, List.forall_mem_nil _⟩
  cases call with
  | statement plan orders => exact hstate.statement hguard
  | restart defaultEngine loaded => exact hstate.restart hguard.room defaultEngine loaded

/-- In every serial SQL run under the guard, no two live rows share a key of a unique index. -/
theorem uniqueRows_of_sql (h : SqlReachable SqlGuard engine) : engine.UniqueRows := h.inv.uniqueRows

/-- CREATE TABLE with a primary key. -/
def createKeyed : SqlCall :=
  .statement (.createTable "t" [(ColumnMeta.new "id" .integer).primaryKey] none) .asGiven

/-- The rows of an INSERT into that table. -/
def keyRows (values : List Datum) : List Row := values.map fun value => { values := [value] }

def insertKeys (values : List Datum) : SqlCall := .statement (.insert "t" (keyRows values)) .asGiven

private theorem pending_insertKeys (values : List Datum) :
    ((fresh "disk").sqlStep createKeyed).pending (.execute (.insert "t" (keyRows values))) =
      some (((fresh "disk").sqlStep createKeyed).begin.2,
        ((fresh "disk").sqlStep createKeyed).beginWith (insertEntries "t" 0 (keyRows values))) := rfl

theorem uniqueRows_two_keys :
    ([createKeyed, insertKeys [.integer 1, .integer 2]].foldl sqlStep (fresh "disk")).UniqueRows := by
  have hcreated : SerialReachable (fun _ _ => True) ((fresh "disk").sqlStep createKeyed) := ⟨"disk", .foldl _ _⟩
  refine uniqueRows_of_sql ⟨"disk", .of_meets ⟨⟨rfl, by unfold CounterRoom; decide, ?_⟩,
    ⟨rfl, by unfold CounterRoom; decide, ?_⟩, trivial⟩⟩
  · rintro plan orders heq
    obtain ⟨rfl, rfl⟩ := SqlCall.statement.inj heq
    exact acceptedSafe_of_none rfl
  · rintro plan orders heq
    obtain ⟨rfl, rfl⟩ := SqlCall.statement.inj heq
    exact acceptedSafe_of_ok (pending_insertKeys _) (hcreated.wellFormed.of_frame rfl (.refl _) rfl) rfl

/-- One INSERT of a key twice passes the checks and leaves both rows live, although it returns an error. -/
theorem not_uniqueRows_key_twice :
    SqlReachable SqlDomain ([createKeyed, insertKeys [.integer 1, .integer 1]].foldl sqlStep (fresh "disk")) ∧
      ¬ ([createKeyed, insertKeys [.integer 1, .integer 1]].foldl sqlStep (fresh "disk")).UniqueRows :=
  ⟨⟨"disk", .of_meets ⟨rfl, rfl, trivial⟩⟩, by unfold UniqueRows; decide⟩

end DatabaseEngine

end HelionDb
