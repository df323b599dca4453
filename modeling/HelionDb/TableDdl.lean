import HelionDb.Concurrent
import HelionDb.ConcurrentCommit

/-! CREATE TABLE, DROP TABLE and commits whose phases interleave. The name check and the change of the list of tables
are under different locks, and a commit finds its target again by name alone. Tables carry incarnation numbers here that
the program does not have, so that one can say which table a transaction read. -/

namespace HelionDb

/-- Where a `create_table` stands: its name was free, the catalog has the table, the list has it. -/
inductive CreatePhase where
  | ready
  | checked
  | registered
  | listed
  | done (result : Except HelionError Unit)

/-- Where a `drop_table` stands: it found the table, the catalog does not have it any more, nor has the list. -/
inductive DropPhase where
  | ready
  | found (snapshot : Table)
  | unregistered (snapshot : Table) (engineName : String)
  | removed (snapshot : Table) (engineName : String)
  | done (result : Except HelionError Unit)

/-- A `create_table` or `drop_table` on its way. -/
inductive TableThread where
  | create (name : String) (columns : List ColumnMeta) (engineName : Option String) (phase : CreatePhase)
  | drop (name : String) (phase : DropPhase)

/-- A `create_table` or `drop_table` that is called. -/
inductive TableCall where
  | create (name : String) (columns : List ColumnMeta) (engineName : Option String)
  | drop (name : String)

/-- It starts with its name check. -/
def TableCall.thread : TableCall → TableThread
  | create name columns engineName => .create name columns engineName .ready
  | drop name => .drop name .ready

/-- What a failed log append reports. -/
def appendError : HelionError := .io "append"

/-- `Catalog::restore_table`. -/
def Catalog.restore (catalog : Catalog) (table : Table) : Catalog :=
  match catalog.getTableEngine table.name with
  | .ok kind => catalog.restoreTable kind table
  | .error _ => catalog

namespace TableThread

/-- The tables without those of a name. -/
def without (name : String) (tables : List Table) : List Table :=
  tables.filter fun table => !eqIgnoreAsciiCase table.name name

/-- The next phase; `appends` says whether a log append goes through. -/
def advance (engine : DatabaseEngine) (appends : Bool) : TableThread → TableThread × DatabaseEngine
  | create name columns engineName .ready =>
      if engine.tables.any fun table => eqIgnoreAsciiCase table.name name then
        (create name columns engineName (.done (.error (.tableAlreadyExists name))), engine)
      else (create name columns engineName .checked, engine)
  | create name columns engineName .checked =>
      match engine.catalog.createTable name columns
          ((engineName.map normalizeEngineName).getD engine.catalog.defaultEngine) with
      | .error err => (create name columns engineName (.done (.error err)), engine)
      | .ok catalog => (create name columns engineName .registered, { engine with catalog })
  | create name columns engineName .registered =>
      (create name columns engineName .listed, { engine with tables := engine.tables ++ [Table.new name columns] })
  | create name columns engineName .listed =>
      if appends then
        (create name columns engineName (.done (.ok ())), { engine with wal := engine.wal ++ [.createTable name columns] })
      else
        (create name columns engineName (.done (.error appendError)),
          { engine with
            catalog := match engine.catalog.dropTable name with
              | .ok catalog => catalog
              | .error _ => engine.catalog
            tables := without name engine.tables })
  | create name columns engineName (.done result) => (create name columns engineName (.done result), engine)
  | drop name .ready =>
      match engine.tables.find? fun table => eqIgnoreAsciiCase table.name name with
      | none => (drop name (.done (.error (.tableNotFound name))), engine)
      | some snapshot => (drop name (.found snapshot), engine)
  | drop name (.found snapshot) =>
      match engine.catalog.dropTable name with
      | .error err => (drop name (.done (.error err)), engine)
      | .ok catalog =>
          (drop name (.unregistered snapshot ((engine.catalog.metadata name).getD engine.catalog.defaultEngine)),
            { engine with catalog })
  | drop name (.unregistered snapshot engineName) =>
      (drop name (.removed snapshot engineName), { engine with tables := without name engine.tables })
  | drop name (.removed snapshot engineName) =>
      if appends then (drop name (.done (.ok ())), { engine with wal := engine.wal ++ [.dropTable name] })
      else
        (drop name (.done (.error appendError)),
          { engine with
            catalog := match engine.catalog.createTable snapshot.name snapshot.columns engineName with
              | .ok catalog => catalog.restore snapshot
              | .error _ => engine.catalog.restore snapshot
            tables := engine.tables ++ [snapshot] })
  | drop name (.done result) => (drop name (.done result), engine)

/-- The next phase of a thread that runs alone and whose appends go through. -/
def advanceAlone (alone : TableThread × DatabaseEngine) : TableThread × DatabaseEngine := alone.1.advance alone.2 true

/-- With nothing in between, the phases of a `create_table` are the call. -/
theorem advanceAlone_create (engine : DatabaseEngine) (name : String) (columns : List ColumnMeta)
    (engineName : Option String) :
    advanceAlone^[4] (create name columns engineName .ready, engine) =
      (create name columns engineName (.done (engine.createTable name columns engineName).1),
        (engine.createTable name columns engineName).2) := by
  have hdone (count : Nat) (result : Except HelionError Unit) :
      advanceAlone^[count] (create name columns engineName (.done result), engine) =
        (create name columns engineName (.done result), engine) := Function.iterate_fixed rfl count
  rw [Function.iterate_succ_apply, advanceAlone]
  dsimp only [advance, DatabaseEngine.createTable]
  split
  · rw [hdone]
  · rw [Function.iterate_succ_apply, advanceAlone]
    cases engineName with
    | none =>
        dsimp only [advance, Option.map_none, Option.getD_none]
        cases hcatalog : engine.catalog.createTable name columns engine.catalog.defaultEngine with
        | error err => rw [hdone]
        | ok catalog => rfl
    | some given =>
        dsimp only [advance, Option.map_some, Option.getD_some]
        cases hcatalog : engine.catalog.createTable name columns (normalizeEngineName given) with
        | error err => rw [hdone]
        | ok catalog => rfl

/-- With nothing in between, the phases of a `drop_table` are the call. -/
theorem advanceAlone_drop (engine : DatabaseEngine) (name : String) :
    advanceAlone^[4] (drop name .ready, engine) =
      (drop name (.done (engine.dropTable name).1), (engine.dropTable name).2) := by
  have hdone (count : Nat) (result : Except HelionError Unit) :
      advanceAlone^[count] (drop name (.done result), engine) = (drop name (.done result), engine) :=
    Function.iterate_fixed rfl count
  rw [Function.iterate_succ_apply, advanceAlone]
  dsimp only [advance, DatabaseEngine.dropTable]
  cases hfound : engine.tables.find? fun table => eqIgnoreAsciiCase table.name name with
  | none =>
      have hany : ¬ (engine.tables.any fun table => eqIgnoreAsciiCase table.name name) = true := by
        rw [Bool.not_eq_true]
        exact List.any_eq_false.mpr (List.find?_eq_none.mp hfound)
      dsimp only
      rw [hdone, if_neg hany]
  | some snapshot =>
      have hany : (engine.tables.any fun table => eqIgnoreAsciiCase table.name name) = true :=
        by
        have hname := List.find?_some hfound
        exact List.any_eq_true.mpr ⟨snapshot, List.mem_of_find?_eq_some hfound, hname⟩
      rw [if_pos hany, Function.iterate_succ_apply, advanceAlone]
      dsimp only [advance]
      cases hcatalog : engine.catalog.dropTable name with
      | error err => rw [hdone]
      | ok catalog => rfl

end TableThread

/-! ### The machine -/

/-- The copy that a commit works on, once it has one. -/
def CommitThread.copy? (thread : CommitThread) : Option (List Table) :=
  match thread.phase with
  | .cloned copy | .conflictFree copy | .uniqueChecked copy | .logged copy | .stored copy => some copy
  | .ready | .done _ => none

/-- A commit on its way, with the incarnations of the tables it copied. -/
structure ReadingCommit where
  thread : CommitThread
  read : List (String × Nat)

/-- An engine with the calls on their way. `incarnations` goes along with the list of tables, `births` is a
number that no table has had yet; a `drop_table` keeps the number of the table it found. -/
structure TableMachine where
  engine : DatabaseEngine
  commits : List ReadingCommit
  calls : List (TableThread × Nat)
  incarnations : List (String × Nat)
  births : Nat

inductive TableLabel where
  | begin (entries : List WriteEntry) (orders : CommitOrders)
  | commit (position : Nat)
  | call (position : Nat) (appends : Bool)

namespace TableMachine

/-- The incarnations after a phase of a call. -/
def incarnate (machine : TableMachine) (appends : Bool) : TableThread × Nat → List (String × Nat)
  | (.create name _ _ .registered, _) => machine.incarnations ++ [(name, machine.births)]
  | (.create name _ _ .listed, _) =>
      if appends then machine.incarnations
      else machine.incarnations.filter fun entry => !eqIgnoreAsciiCase entry.1 name
  | (.drop name (.unregistered _ _), _) => machine.incarnations.filter fun entry => !eqIgnoreAsciiCase entry.1 name
  | (.drop _ (.removed snapshot _), number) =>
      if appends then machine.incarnations else machine.incarnations ++ [(snapshot.name, number)]
  | _ => machine.incarnations

/-- The number a call keeps: that of the table a `drop_table` finds. -/
def numberOf (machine : TableMachine) : TableThread × Nat → Nat
  | (.drop name .ready, number) =>
      ((machine.incarnations.find? fun entry => eqIgnoreAsciiCase entry.1 name).map Prod.snd).getD number
  | (_, number) => number

def step (machine : TableMachine) : TableLabel → TableMachine
  | .begin entries orders =>
      { machine with
        engine := machine.engine.begin.2
        commits := machine.commits ++
          [{ thread := { tx := machine.engine.beginWith entries, orders, phase := .ready }, read := [] }] }
  | .commit position =>
      match machine.commits[position]? with
      | none => machine
      | some commit =>
          let next := commit.thread.advance machine.engine
          { machine with
            engine := next.2
            commits := machine.commits.set position
              { thread := next.1
                read := match commit.thread.phase with
                  | .ready => machine.incarnations
                  | _ => commit.read } }
  | .call position appends =>
      match machine.calls[position]? with
      | none => machine
      | some call =>
          let next := call.1.advance machine.engine appends
          { machine with
            engine := next.2
            calls := machine.calls.set position (next.1, machine.numberOf call)
            incarnations := machine.incarnate appends call
            births := machine.births + 1 }

/-- Calls that have not begun, on numbered tables. -/
def ready (engine : DatabaseEngine) (calls : List TableCall) : TableMachine :=
  { engine
    commits := []
    calls := calls.map fun call => (call.thread, 0)
    incarnations := (engine.tables.map Table.name).zipIdx
    births := engine.tables.length }

/-- A transaction has read an incarnation, or had written to it before the run. -/
def Reads (start : DatabaseEngine) (machine : TableMachine) (number txid : Nat) : Prop :=
  (∃ commit ∈ machine.commits, commit.thread.tx.txId = txid ∧ ∃ name, (name, number) ∈ commit.read) ∨
    ∃ table, start.tables[number]? = some table ∧ ∃ chain ∈ table.versionChains, ∃ version ∈ chain, version.txidMin = txid

/-- Names differ, ignoring case, and every version of a table was written by a transaction that read this incarnation
of it. -/
structure Safe (start : DatabaseEngine) (machine : TableMachine) : Prop where
  names : (machine.engine.tables.map fun table => lowerName table.name).Nodup
  origins : ∀ table ∈ machine.engine.tables, ∃ number, (table.name, number) ∈ machine.incarnations ∧
    ∀ chain ∈ table.versionChains, ∀ version ∈ chain, Reads start machine number version.txidMin

/-- A table is put into the list when its name is free, ignoring case, and a commit installs in the incarnations it
copied. -/
def DdlGuard (machine : TableMachine) : TableLabel → Prop
  | .begin _ _ => True
  | .commit position => ∀ commit copy, machine.commits[position]? = some commit → commit.thread.phase = .stored copy →
      ∀ name ∈ commit.thread.tx.tableNames, ∀ number, (name, number) ∈ machine.incarnations → (name, number) ∈ commit.read
  | .call position appends => ∀ call, machine.calls[position]? = some call →
      match call.1 with
      | .create name _ _ .registered => ∀ table ∈ machine.engine.tables, eqIgnoreAsciiCase table.name name = false
      | .drop _ (.removed snapshot _) =>
          appends = false → ∀ table ∈ machine.engine.tables, eqIgnoreAsciiCase table.name snapshot.name = false
      | _ => True

end TableMachine

/-- All creators of a chain are among some writers. -/
def WrittenBy (writers : Nat → Prop) (chain : Chain) : Prop := ∀ version ∈ chain, writers version.txidMin

theorem writtenBy_rule {writers : Nat → Prop} {txid : Nat} (h : writers txid) : ChainRule txid (WrittenBy writers) :=
  .creators (p := writers) h

/-- A table after the in-memory phase has its old chains, or those that the commit computed for its name. -/
theorem mem_installWrites {order : HashOrder} {tx : Transaction} {snapshot : String → Option Table}
    {tables : List Table} {table : Table} (h : table ∈ (installWrites order tx snapshot tables).2) :
    (∃ old ∈ tables, old.name = table.name ∧ old.versionChains = table.versionChains) ∨
      table.name ∈ tx.tableNames ∧ applyWriteSet tx snapshot table.name = some table.versionChains := by
  refine Loop.runAll_invariant (installTable tx snapshot)
    (P := fun state => ∀ table ∈ state, (∃ old ∈ tables, old.name = table.name ∧ old.versionChains = table.versionChains) ∨
      table.name ∈ tx.tableNames ∧ applyWriteSet tx snapshot table.name = some table.versionChains)
    (fun name _ state hstate table htable => ?_) (fun table htable => Or.inl ⟨table, htable, rfl, rfl⟩) table h
  unfold installTable at htable
  split at htable
  · exact hstate table htable
  · rename_i chains hchains
    split at htable
    · exact hstate table htable
    · rcases KeyedList.mem_update htable with hold | ⟨old, hold, hkey, rfl⟩
      · exact hstate table hold
      · refine Or.inr ?_
        rw [installOn_name, installOn_versionChains, hkey]
        exact ⟨(applyWriteSet_some hchains).1, hchains⟩

namespace CommitThread

variable (thread : CommitThread) (engine : DatabaseEngine)

theorem txId_advance : (thread.advance engine).1.tx.txId = thread.tx.txId := by
  obtain ⟨tx, orders, phase⟩ := thread
  unfold advance
  cases phase <;> dsimp only <;> split <;> rfl

theorem tables_advance :
    (thread.advance engine).2.tables = engine.tables ∨
      ∃ copy, thread.phase = .stored copy ∧ (thread.advance engine).2.tables =
        (installWrites thread.orders.memory thread.tx (snapshotTables copy) engine.tables).2 := by
  have hspec := thread.advance_spec engine
  generalize (thread.advance engine).1 = next at hspec
  generalize (thread.advance engine).2 = after at hspec ⊢
  cases hspec with
  | install copy hphase hok => exact Or.inr ⟨copy, hphase, rfl⟩
  | installFail copy err hphase hfail => exact Or.inr ⟨copy, hphase, rfl⟩
  | refuse | clone | conflictFree | uniqueChecked | log | store | storeFail | idle => exact Or.inl rfl

theorem copy_advance {copy : List Table} (hcopy : (thread.advance engine).1.copy? = some copy) :
    (thread.phase = .ready ∧ copy = engine.tables) ∨ thread.copy? = some copy := by
  have hspec := thread.advance_spec engine
  generalize (thread.advance engine).1 = next at hspec hcopy
  generalize (thread.advance engine).2 = after at hspec
  cases hspec with
  | clone hphase hrunning => exact Or.inl ⟨hphase, (Option.some.inj hcopy).symm⟩
  | conflictFree given hphase hcheck =>
      refine Or.inr ?_
      rw [copy?, hphase]
      exact hcopy
  | uniqueChecked given hphase hcheck =>
      refine Or.inr ?_
      rw [copy?, hphase]
      exact hcopy
  | log given hphase =>
      refine Or.inr ?_
      rw [copy?, hphase]
      exact hcopy
  | store given catalog hphase hrouting =>
      refine Or.inr ?_
      rw [copy?, hphase]
      exact hcopy
  | idle result hphase => exact Or.inr hcopy
  | refuse | storeFail | install | installFail => cases hcopy

/-- Only a thread that has not begun is ready after a step. -/
theorem ready_advance (hready : (thread.advance engine).1.phase = .ready) : False := by
  have hspec := thread.advance_spec engine
  generalize (thread.advance engine).1 = next at hspec hready
  generalize (thread.advance engine).2 = after at hspec
  cases hspec with
  | idle result hphase =>
      rw [hphase] at hready
      cases hready
  | refuse | clone | conflictFree | uniqueChecked | log | store | storeFail | install | installFail => cases hready

end CommitThread

/-! ### Numbered lists of tables -/

/-- A list of tables whose names differ, with a number for each, every version written by a writer of its number. -/
structure Listed (tables : List Table) (incarnations : List (String × Nat)) (writers : Nat → Nat → Prop) : Prop where
  names : (tables.map fun table => lowerName table.name).Nodup
  parallel : incarnations.map Prod.fst = tables.map Table.name
  origins : ∀ table ∈ tables, ∃ number, (table.name, number) ∈ incarnations ∧
    ∀ chain ∈ table.versionChains, WrittenBy (writers number) chain

namespace Listed

variable {tables : List Table} {incarnations : List (String × Nat)} {writers later : Nat → Nat → Prop}

theorem mono (h : Listed tables incarnations writers) (hlater : ∀ number txid, writers number txid → later number txid) :
    Listed tables incarnations later := by
  refine ⟨h.names, h.parallel, fun table htable => ?_⟩
  obtain ⟨number, hnumber, hwritten⟩ := h.origins table htable
  exact ⟨number, hnumber, fun chain hchain version hversion => hlater _ _ (hwritten chain hchain version hversion)⟩

theorem number_unique (h : Listed tables incarnations writers) {name : String} {first second : Nat}
    (hfirst : (name, first) ∈ incarnations) (hsecond : (name, second) ∈ incarnations) : first = second := by
  have hnames : (tables.map Table.name).Nodup := by
    have hlower := h.names
    rw [map_lowerName] at hlower
    exact hlower.of_map lowerName
  have hnodup : (incarnations.map Prod.fst).Nodup := h.parallel ▸ hnames
  exact congrArg Prod.snd (List.inj_on_of_nodup_map hnodup hfirst hsecond rfl)

theorem written (h : Listed tables incarnations writers) {table : Table} (htable : table ∈ tables) {number : Nat}
    (hnumber : (table.name, number) ∈ incarnations) : ∀ chain ∈ table.versionChains, WrittenBy (writers number) chain := by
  obtain ⟨other, hother, hwritten⟩ := h.origins table htable
  rwa [h.number_unique hnumber hother]

theorem push (h : Listed tables incarnations writers) {table : Table} {number : Nat}
    (hfree : ∀ other ∈ tables, eqIgnoreAsciiCase other.name table.name = false)
    (hwritten : ∀ chain ∈ table.versionChains, WrittenBy (writers number) chain) :
    Listed (tables ++ [table]) (incarnations ++ [(table.name, number)]) writers := by
  refine ⟨?_, ?_, fun other hother => ?_⟩
  · rw [List.map_append, List.nodup_append]
    refine ⟨h.names, List.nodup_singleton _, fun lower hlower last hlast heq => ?_⟩
    obtain ⟨other, hother, rfl⟩ := List.mem_map.mp hlower
    rw [List.map_singleton] at hlast
    have hsame : eqIgnoreAsciiCase other.name table.name = true :=
      eqIgnoreAsciiCase_iff.mpr (heq.trans (List.mem_singleton.mp hlast))
    rw [hfree other hother] at hsame
    cases hsame
  · rw [List.map_append, List.map_append, h.parallel]
    rfl
  · rcases List.mem_append.mp hother with hold | hnew
    · obtain ⟨first, hfirst, hchains⟩ := h.origins other hold
      exact ⟨first, List.mem_append_left _ hfirst, hchains⟩
    · obtain rfl := List.mem_singleton.mp hnew
      exact ⟨number, List.mem_append_right _ (List.mem_singleton_self _), hwritten⟩

theorem without (h : Listed tables incarnations writers) (name : String) :
    Listed (TableThread.without name tables) (incarnations.filter fun entry => !eqIgnoreAsciiCase entry.1 name)
      writers := by
  refine ⟨h.names.sublist (List.filter_sublist.map _), ?_, fun table htable => ?_⟩
  · have hfirst : (incarnations.map Prod.fst).filter (fun other => !eqIgnoreAsciiCase other name) =
        (incarnations.filter fun entry => !eqIgnoreAsciiCase entry.1 name).map Prod.fst := List.filter_map
    have hsecond : (tables.map Table.name).filter (fun other => !eqIgnoreAsciiCase other name) =
        (TableThread.without name tables).map Table.name := List.filter_map
    rw [h.parallel] at hfirst
    exact hfirst.symm.trans hsecond
  · obtain ⟨hold, hother⟩ := List.mem_filter.mp htable
    obtain ⟨number, hnumber, hchains⟩ := h.origins table hold
    exact ⟨number, List.mem_filter.mpr ⟨hnumber, hother⟩, hchains⟩

/-- The table that a name finds and the number that it finds belong together. -/
theorem find (h : Listed tables incarnations writers) {name : String} {table : Table}
    (hfound : (tables.find? fun table => eqIgnoreAsciiCase table.name name) = some table) :
    ∃ number, (incarnations.find? fun entry => eqIgnoreAsciiCase entry.1 name) = some (table.name, number) ∧
      ∀ chain ∈ table.versionChains, WrittenBy (writers number) chain := by
  have hfirst : (incarnations.map Prod.fst).find? (fun other => eqIgnoreAsciiCase other name) =
      (incarnations.find? fun entry => eqIgnoreAsciiCase entry.1 name).map Prod.fst := List.find?_map ..
  have hsecond : (tables.map Table.name).find? (fun other => eqIgnoreAsciiCase other name) =
      (tables.find? fun table => eqIgnoreAsciiCase table.name name).map Table.name := List.find?_map ..
  rw [h.parallel, hsecond] at hfirst
  have hentry : ((incarnations.find? fun entry => eqIgnoreAsciiCase entry.1 name)).map Prod.fst = some table.name :=
    hfirst.symm.trans (congrArg (Option.map Table.name) hfound)
  obtain ⟨⟨found, number⟩, hnumber, hname⟩ := Option.map_eq_some_iff.mp hentry
  obtain rfl : found = table.name := hname
  exact ⟨number, hnumber, h.written (List.mem_of_find?_eq_some hfound) (List.mem_of_find?_eq_some hnumber)⟩

end Listed

namespace TableMachine

open DatabaseEngine

variable {start : DatabaseEngine} {machine : TableMachine}

/-- The table that a `drop_table` under way has found. -/
def found? : TableThread → Option Table
  | .drop _ (.found snapshot) | .drop _ (.unregistered snapshot _) | .drop _ (.removed snapshot _) => some snapshot
  | _ => none

/-- What the guarded steps keep. -/
structure Tracked (start : DatabaseEngine) (machine : TableMachine) : Prop where
  listed : Listed machine.engine.tables machine.incarnations (Reads start machine)
  unread : ∀ commit ∈ machine.commits, commit.thread.phase = .ready → commit.read = []
  copies : ∀ commit ∈ machine.commits, ∀ copy, commit.thread.copy? = some copy → ∀ table ∈ copy, ∀ number,
    (table.name, number) ∈ commit.read → ∀ chain ∈ table.versionChains, WrittenBy (Reads start machine number) chain
  snapshots : ∀ call ∈ machine.calls, ∀ snapshot, found? call.1 = some snapshot →
    ∀ chain ∈ snapshot.versionChains, WrittenBy (Reads start machine call.2) chain

theorem Reads.mono {later : TableMachine} (hcommits : ∀ commit ∈ machine.commits, ∀ entry ∈ commit.read,
    ∃ other ∈ later.commits, other.thread.tx.txId = commit.thread.tx.txId ∧ entry ∈ other.read) {number txid : Nat}
    (h : Reads start machine number txid) : Reads start later number txid := by
  rcases h with ⟨commit, hcommit, hid, name, hread⟩ | hold
  · obtain ⟨other, hother, hsame, hentry⟩ := hcommits commit hcommit _ hread
    exact Or.inl ⟨other, hother, hsame.trans hid, name, hentry⟩
  · exact Or.inr hold

theorem Tracked.begin (h : Tracked start machine) (entries : List WriteEntry) (orders : CommitOrders) :
    Tracked start (machine.step (.begin entries orders)) := by
  have hmono (number txid : Nat) (hreads : Reads start machine number txid) :
      Reads start (machine.step (.begin entries orders)) number txid :=
    hreads.mono fun commit hcommit entry hentry => ⟨commit, List.mem_append_left _ hcommit, rfl, hentry⟩
  refine ⟨h.listed.mono hmono, fun commit hcommit hphase => ?_, fun commit hcommit copy hcopy table htable number hread => ?_,
    fun call hcall snapshot hfound chain hchain version hversion =>
      hmono _ _ (h.snapshots call hcall snapshot hfound chain hchain version hversion)⟩
  · rcases List.mem_append.mp hcommit with hold | hnew
    · exact h.unread commit hold hphase
    · rw [List.mem_singleton.mp hnew]
  · rcases List.mem_append.mp hcommit with hold | hnew
    · exact fun chain hchain version hversion =>
        hmono _ _ (h.copies commit hold copy hcopy table htable number hread chain hchain version hversion)
    · rw [List.mem_singleton.mp hnew] at hcopy
      cases hcopy

/-- The chains that a commit computed from its copy are those of writers of the incarnation it read. -/
theorem Tracked.written_applyWriteSet (h : Tracked start machine) {commit : ReadingCommit} (hcommit : commit ∈ machine.commits)
    {copy : List Table} (hcopy : commit.thread.copy? = some copy) {name : String} {number : Nat}
    (hread : (name, number) ∈ commit.read) {chains : List Chain}
    (hchains : applyWriteSet commit.thread.tx (snapshotTables copy) name = some chains) :
    ∀ chain ∈ chains, WrittenBy (Reads start machine number) chain := by
  obtain ⟨-, source, hsource, rfl⟩ := applyWriteSet_some hchains
  have hname : source.name = name := by
    have hfound := List.find?_some hsource
    exact beq_iff_eq.mp hfound
  have hold := h.copies commit hcommit copy hcopy source (mem_of_snapshotTables hsource) number (hname ▸ hread)
  have hwriter : Reads start machine number commit.thread.tx.txId := Or.inl ⟨commit, hcommit, rfl, name, hread⟩
  exact (writtenBy_rule hwriter).placeAll hold fun change hchange =>
    ⟨(mem_tableChanges hchange).1, (mem_tableChanges hchange).2.1⟩

/-- A commit that installs in the incarnations it copied. -/
theorem Tracked.listed_advance (h : Tracked start machine) {position : Nat} {commit : ReadingCommit}
    (hcommit : machine.commits[position]? = some commit) (hguard : DdlGuard machine (.commit position)) :
    Listed (commit.thread.advance machine.engine).2.tables machine.incarnations (Reads start machine) := by
  rcases commit.thread.tables_advance machine.engine with hsame | ⟨copy, hphase, htables⟩
  · rw [hsame]
    exact h.listed
  · have hnames := @map_installWrites commit.thread.tx (snapshotTables copy) _ Table.name
      (fun name chains table => installOn_name ..) commit.thread.orders.memory machine.engine.tables
    have hcopy : commit.thread.copy? = some copy := by rw [CommitThread.copy?, hphase]
    rw [htables]
    refine ⟨?_, ?_, fun table htable => ?_⟩
    · rw [map_lowerName, hnames, ← map_lowerName]
      exact h.listed.names
    · rw [hnames]
      exact h.listed.parallel
    · rcases mem_installWrites htable with ⟨old, hold, hname, hchains⟩ | ⟨hwritten, hchains⟩
      · rw [← hname, ← hchains]
        exact h.listed.origins old hold
      · have hmem : table.name ∈ machine.incarnations.map Prod.fst := by
          rw [h.listed.parallel, ← hnames]
          exact List.mem_map_of_mem htable
        obtain ⟨⟨name, number⟩, hnumber, hname⟩ := List.mem_map.mp hmem
        obtain rfl : name = table.name := hname
        have hread := hguard commit copy hcommit hphase _ hwritten number hnumber
        exact ⟨number, hnumber, h.written_applyWriteSet (List.mem_of_getElem? hcommit) hcopy hread hchains⟩

theorem Tracked.commit (h : Tracked start machine) {position : Nat} (hguard : DdlGuard machine (.commit position)) :
    Tracked start (machine.step (.commit position)) := by
  cases hcommit : machine.commits[position]? with
  | none =>
      simp only [step, hcommit]
      exact h
  | some commit =>
      have hmem := List.mem_of_getElem? hcommit
      have hlt := (List.getElem?_eq_some_iff.mp hcommit).1
      -- The commit that takes the step keeps its id, and what it read once it has read.
      have hmono (number txid : Nat) (hreads : Reads start machine number txid) :
          Reads start (machine.step (.commit position)) number txid := by
        refine hreads.mono fun other hother entry hentry => ?_
        simp only [step, hcommit]
        obtain ⟨index, hindex⟩ := List.mem_iff_getElem?.mp hother
        by_cases heq : position = index
        · subst heq
          obtain rfl := Option.some.inj (hcommit.symm.trans hindex)
          refine ⟨_, List.mem_set hlt _, commit.thread.txId_advance machine.engine, ?_⟩
          cases hphase : commit.thread.phase with
          | ready =>
              rw [h.unread commit hmem hphase] at hentry
              cases hentry
          | cloned | conflictFree | uniqueChecked | logged | stored | done => exact hentry
        · refine ⟨other, List.mem_of_getElem? (i := index) ?_, rfl, hentry⟩
          rw [List.getElem?_set_ne heq]
          exact hindex
      have hlisted := (h.listed_advance hcommit hguard).mono hmono
      refine ⟨?_, ?_, ?_, fun call hcall snapshot hfound chain hchain version hversion => ?_⟩
      · simp only [step, hcommit] at hlisted ⊢
        exact hlisted
      · intro other hother hphase
        simp only [step, hcommit] at hother
        rcases List.mem_or_eq_of_mem_set hother with hold | rfl
        · exact h.unread other hold hphase
        · exact (commit.thread.ready_advance machine.engine hphase).elim
      · intro other hother copy hcopy table htable number hread chain hchain version hversion
        refine hmono _ _ ?_
        simp only [step, hcommit] at hother
        rcases List.mem_or_eq_of_mem_set hother with hold | rfl
        · exact h.copies other hold copy hcopy table htable number hread chain hchain version hversion
        · rcases commit.thread.copy_advance machine.engine hcopy with ⟨hphase, rfl⟩ | hcopy
          · simp only [hphase] at hread
            exact h.listed.written htable hread chain hchain version hversion
          · have hkept : (table.name, number) ∈ commit.read := by
              cases hphase : commit.thread.phase with
              | ready =>
                  rw [CommitThread.copy?, hphase] at hcopy
                  cases hcopy
              | cloned | conflictFree | uniqueChecked | logged | stored | done => simpa only [hphase] using hread
            exact h.copies commit hmem copy hcopy table htable number hkept chain hchain version hversion
      · simp only [step, hcommit] at hcall
        exact hmono _ _ (h.snapshots call hcall snapshot hfound chain hchain version hversion)

/-- A phase of a call keeps the list of tables numbered. -/
theorem Tracked.listed_call (h : Tracked start machine) {position : Nat} {appends : Bool} {call : TableThread × Nat}
    (hcall : machine.calls[position]? = some call) (hguard : DdlGuard machine (.call position appends)) :
    Listed (call.1.advance machine.engine appends).2.tables (machine.incarnate appends call) (Reads start machine) := by
  have hfree := hguard call hcall
  have hfound := h.snapshots call (List.mem_of_getElem? hcall)
  obtain ⟨thread, number⟩ := call
  cases thread with
  | create name columns engineName phase =>
      cases phase with
      | ready =>
          dsimp only [TableThread.advance, incarnate]
          split <;> exact h.listed
      | checked =>
          dsimp only [TableThread.advance, incarnate]
          split <;> exact h.listed
      | registered =>
          have hpushed := @Listed.push _ _ _ h.listed (Table.new name columns) machine.births
          rw [Table.new_name, Table.new_versionChains] at hpushed
          exact hpushed hfree fun chain hchain => nomatch hchain
      | listed =>
          dsimp only [TableThread.advance, incarnate]
          cases appends with
          | true => exact h.listed
          | false => exact h.listed.without name
      | done result => exact h.listed
  | drop name phase =>
      cases phase with
      | ready =>
          dsimp only [TableThread.advance, incarnate]
          split <;> exact h.listed
      | found snapshot =>
          dsimp only [TableThread.advance, incarnate]
          split <;> exact h.listed
      | unregistered snapshot engineName => exact h.listed.without name
      | removed snapshot engineName =>
          dsimp only [TableThread.advance, incarnate]
          cases appends with
          | true => exact h.listed
          | false => exact h.listed.push (hfree rfl) (hfound snapshot rfl)
      | done result => exact h.listed

/-- A table that a call keeps is one it has found, or the one it finds now. -/
theorem Tracked.found_advance (h : Tracked start machine) {call : TableThread × Nat} (hmem : call ∈ machine.calls)
    (appends : Bool) {snapshot : Table} (hfound : found? (call.1.advance machine.engine appends).1 = some snapshot) :
    ∀ chain ∈ snapshot.versionChains, WrittenBy (Reads start machine (machine.numberOf call)) chain := by
  have hold := h.snapshots call hmem
  obtain ⟨thread, number⟩ := call
  cases thread with
  | create name columns engineName phase =>
      cases phase with
      | ready | checked | listed =>
          dsimp only [TableThread.advance] at hfound
          split at hfound <;> cases hfound
      | registered | done => cases hfound
  | drop name phase =>
      cases phase with
      | ready =>
          dsimp only [TableThread.advance] at hfound
          split at hfound
          · cases hfound
          · rename_i table htable
            obtain rfl := Option.some.inj hfound
            obtain ⟨found, hnumber, hwritten⟩ := h.listed.find htable
            rw [numberOf, hnumber]
            exact hwritten
      | found table =>
          dsimp only [TableThread.advance] at hfound
          split at hfound
          · cases hfound
          · exact hold snapshot hfound
      | unregistered table engineName => exact hold snapshot hfound
      | removed table engineName =>
          dsimp only [TableThread.advance] at hfound
          split at hfound <;> cases hfound
      | done result => cases hfound

theorem Tracked.call (h : Tracked start machine) {position : Nat} {appends : Bool}
    (hguard : DdlGuard machine (.call position appends)) : Tracked start (machine.step (.call position appends)) := by
  cases hcall : machine.calls[position]? with
  | none =>
      simp only [step, hcall]
      exact h
  | some call =>
      have hlisted := h.listed_call hcall hguard
      simp only [step, hcall]
      refine ⟨hlisted, h.unread, h.copies, fun other hother snapshot hfound => ?_⟩
      rcases List.mem_or_eq_of_mem_set hother with hold | rfl
      · exact h.snapshots other hold snapshot hfound
      · exact h.found_advance (List.mem_of_getElem? hcall) appends hfound

theorem Tracked.step (h : Tracked start machine) {label : TableLabel} (hguard : DdlGuard machine label) :
    Tracked start (machine.step label) := by
  cases label with
  | begin entries orders => exact h.begin entries orders
  | commit position => exact h.commit hguard
  | call position appends => exact h.call hguard

theorem tracked_ready (hwf : start.WellFormed) (calls : List TableCall) : Tracked start (ready start calls) := by
  refine ⟨⟨hwf.names, ?_, fun table htable => ?_⟩, ?_, ?_, ?_⟩
  · exact List.zipIdx_map_fst 0 _
  · obtain ⟨number, hnumber⟩ := List.mem_iff_getElem?.mp htable
    refine ⟨number, List.mem_zipIdx_iff_getElem?.mpr ?_, fun chain hchain version hversion => ?_⟩
    · rw [List.getElem?_map]
      exact congrArg (Option.map Table.name) hnumber
    · exact Or.inr ⟨table, hnumber, chain, hchain, version, hversion, rfl⟩
  · intro commit hcommit
    cases hcommit
  · intro commit hcommit
    cases hcommit
  · intro call hcall snapshot hfound
    obtain ⟨given, -, rfl⟩ := List.mem_map.mp hcall
    cases given <;> cases hfound

/-- When every table that is put into the list finds its name free and every commit installs in the incarnations it
copied, names differ and every version was written by a transaction that read its table. -/
theorem table_ddl_safe (hstart : start.SerialReachable fun _ _ => True) {calls : List TableCall}
    (run : Reaches step DdlGuard (ready start calls) machine) : machine.Safe start := by
  have htracked := run.invariant (fun _ _ h hguard => Tracked.step h hguard) (tracked_ready hstart.wellFormed calls)
  exact ⟨htracked.listed.names, htracked.listed.origins⟩

/-! ### Interleavings that go wrong -/

open Machine (emptyTable emptyTable_reachable)

/-- A transaction that inserts one row into `t`. -/
def beginsInsert : TableLabel := .begin (insertEntries "t" 0 [{ values := [.integer 1] }]) .asGiven

/-- DROP TABLE t, and CREATE TABLE t with another column. -/
def replacesTable : List TableCall := [.drop "t", .create "t" [ColumnMeta.new "b" .text] none]

/-- CREATE TABLE u and DROP TABLE u. -/
def passingTable : List TableCall := [.create "u" [ColumnMeta.new "a" .integer] none, .drop "u"]

/-- Between the steps of the commit the CREATE and a part of the DROP take theirs. -/
def commitAmong : List TableLabel :=
  [beginsInsert, .call 0 true, .commit 0, .call 0 true, .commit 0, .call 0 true, .commit 0, .call 0 true, .commit 0,
    .call 1 true, .commit 0, .call 1 true, .commit 0, .call 1 true, .call 1 true]

theorem table_ddl_safe_among : (commitAmong.foldl step (ready emptyTable passingTable)).Safe emptyTable := by
  have hrun : Meets step DdlGuard (ready emptyTable passingTable) commitAmong := by
    refine ⟨trivial, ?_, ?_, ?_, ?_, ?_, ?_, ?_, ?_, ?_, ?_, ?_, ?_, ?_, ?_, trivial⟩
    · rintro call ⟨⟩
      trivial
    · rintro commit copy ⟨⟩ ⟨⟩
    · rintro call ⟨⟩
      trivial
    · rintro commit copy ⟨⟩ ⟨⟩
    · -- The name of the new table is free.
      rintro call ⟨⟩ table htable
      obtain rfl := List.mem_singleton.mp (show table ∈ [_] from htable)
      rfl
    · rintro commit copy ⟨⟩ ⟨⟩
    · rintro call ⟨⟩
      trivial
    · rintro commit copy ⟨⟩ ⟨⟩
    · rintro call ⟨⟩
      trivial
    · rintro commit copy ⟨⟩ ⟨⟩
    · rintro call ⟨⟩
      trivial
    · rintro commit copy ⟨⟩ ⟨⟩ name hname number hnumber
      -- The commit writes to `t`, which it read, and not to `u`.
      obtain rfl := List.mem_singleton.mp (show name ∈ ["t"] from hname)
      have hlisted : ("t", number) ∈ [("t", 0), ("u", 3)] := hnumber
      obtain rfl : number = 0 := by simpa using hlisted
      exact List.mem_singleton_self _
    · rintro call ⟨⟩
      trivial
    · rintro call ⟨⟩ hfails
      cases hfails
  exact table_ddl_safe emptyTable_reachable (.of_meets hrun)

/-- The commit copies the tables, the DROP and the CREATE run, and the commit goes on. -/
def commitAround : List TableLabel :=
  [beginsInsert, .commit 0] ++ List.replicate 4 (.call 0 true) ++ List.replicate 4 (.call 1 true) ++
    List.replicate 5 (.commit 0)

/-- Two CREATE TABLE of one name, ignoring case, pass the name check before either is in the list. -/
def createsTwice : List TableCall :=
  [.create "a" [ColumnMeta.new "x" .integer] none, .create "A" [ColumnMeta.new "x" .integer] none]

def bothChecked : List TableLabel :=
  [.call 0 true, .call 1 true] ++ List.replicate 3 (.call 0 true) ++ List.replicate 3 (.call 1 true)

/-- Both tables are in the list, and the commit puts a row of the dropped table into the new one. -/
theorem not_table_ddl_safe_interleaved :
    emptyTable.SerialReachable (fun _ _ => True) ∧
      ((bothChecked.foldl step (ready emptyTable createsTwice)).engine.tables.map Table.name = ["t", "a", "A"] ∧
        ¬ (bothChecked.foldl step (ready emptyTable createsTwice)).Safe emptyTable) ∧
      ((commitAround.foldl step (ready emptyTable replacesTable)).commits.map fun commit => commit.thread.isOk) = [true] ∧
      ((commitAround.foldl step (ready emptyTable replacesTable)).engine.tables.map fun table =>
          (table.name, table.columns.map ColumnMeta.name, table.versionChains)) =
        [("t", ["b"], [[.newInsert 1 { values := [.integer 1] }]])] ∧
      ¬ (commitAround.foldl step (ready emptyTable replacesTable)).Safe emptyTable := by
  refine ⟨emptyTable_reachable, ⟨rfl, fun hsafe => ?_⟩, rfl, rfl, fun hsafe => ?_⟩
  · have hnames := hsafe.names
    revert hnames
    decide
  · have hincarnations : (commitAround.foldl step (ready emptyTable replacesTable)).incarnations = [("t", 7)] := rfl
    have hread : (commitAround.foldl step (ready emptyTable replacesTable)).commits.map ReadingCommit.read =
      [[("t", 0)]] := rfl
    obtain ⟨table, htables, hchains⟩ : ∃ table,
        (commitAround.foldl step (ready emptyTable replacesTable)).engine.tables = [table] ∧
          table.versionChains = [[.newInsert 1 { values := [.integer 1] }]] := ⟨_, rfl, rfl⟩
    obtain ⟨number, hnumber, hwritten⟩ := hsafe.origins table (htables ▸ List.mem_singleton_self table)
    rw [hincarnations] at hnumber
    obtain ⟨-, rfl⟩ := Prod.mk.inj (List.mem_singleton.mp hnumber)
    rw [hchains] at hwritten
    rcases hwritten _ (List.mem_singleton_self _) _ (List.mem_singleton_self _) with
      ⟨commit, hcommit, -, name, hentry⟩ | ⟨old, hold, -⟩
    · have hmem := List.mem_map_of_mem (f := ReadingCommit.read) hcommit
      rw [hread] at hmem
      rw [List.mem_singleton.mp hmem] at hentry
      cases List.mem_singleton.mp hentry
    · cases hold

end TableMachine

end HelionDb
