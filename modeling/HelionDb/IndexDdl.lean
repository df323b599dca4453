import HelionDb.ConcurrentCommit
import HelionDb.Database
import HelionDb.StatementPhases

/-! CREATE INDEX and DROP INDEX on their way. Both work on a copy of all tables and write the whole copy back, whatever
the other calls did in between. The tables stay as the others left them exactly when every write-back finds the tables
it copied. -/

namespace HelionDb

/-- An index statement. -/
inductive IndexStatement where
  | create (name tableName : String) (columns : List String) (unique ifNotExists : Bool)
  | drop (name tableName : String) (ifExists : Bool)

/-- The plan that is executed for it. -/
def IndexStatement.plan : IndexStatement → LogicalPlan
  | create name tableName columns unique ifNotExists => .createIndex name tableName columns unique ifNotExists
  | drop name tableName ifExists => .dropIndex name tableName ifExists

/-- Where an index statement stands. A CREATE INDEX reads the tables once for its checks and the positions of its
columns, and once more for the copy it works on. -/
inductive IndexPhase where
  | ready
  | resolved (positions : List Nat)
  | copied (positions : List Nat) (copy : List Table)
  | modified (positions : List Nat) (copy : List Table)
  | done (result : Except HelionError Nat)

/-- An index statement on its way. -/
structure IndexThread where
  statement : IndexStatement
  phase : IndexPhase

namespace IndexThread

/-- The checks of a CREATE INDEX on the tables it reads first. -/
def resolve (tables : List Table) (name tableName : String) (columns : List String) (ifNotExists : Bool) : IndexPhase :=
  match findTable tableName tables with
  | none => .done (.error (.tableNotFound tableName))
  | some table =>
      if table.indexes.any fun index => index.definition.name == name then
        .done (if ifNotExists then .ok 0 else .error (.indexAlreadyExists name))
      else
        match DatabaseEngine.indexColumns table tableName columns with
        | .error err => .done (.error err)
        | .ok positions => .resolved positions

/-- What an index statement makes of its copy. -/
def modify (positions : List Nat) (copy : List Table) : IndexStatement → IndexPhase
  | .create name tableName _ unique _ =>
      match findTable tableName copy with
      | none => .done (.error (.tableNotFound tableName))
      | some table =>
          match table.addIndex name positions unique with
          | .error err => .done (.error err)
          | .ok next => .modified positions (updateTable tableName (fun _ => next) copy)
  | .drop name tableName ifExists =>
      match findTable tableName copy with
      | none => if ifExists then .modified positions copy else .done (.error (.tableNotFound tableName))
      | some table =>
          match table.dropIndex name with
          | .error err => if ifExists then .modified positions copy else .done (.error err)
          | .ok next => .modified positions (updateTable tableName (fun _ => next) copy)

/-- The next phase of an index statement. -/
def advance (thread : IndexThread) (engine : DatabaseEngine) : IndexThread × DatabaseEngine :=
  match thread.phase with
  | .ready =>
      match thread.statement with
      | .create name tableName columns _ ifNotExists =>
          ({ thread with phase := resolve engine.tables name tableName columns ifNotExists }, engine)
      | .drop _ _ _ => ({ thread with phase := .copied [] engine.tables }, engine)
  | .resolved positions => ({ thread with phase := .copied positions engine.tables }, engine)
  | .copied positions copy => ({ thread with phase := modify positions copy thread.statement }, engine)
  | .modified _ copy => ({ thread with phase := .done (.ok 1) }, { engine with tables := copy })
  | .done _ => (thread, engine)

/-- The next phase writes the copy back. -/
def writesBack (thread : IndexThread) : Bool :=
  match thread.phase with
  | .modified _ _ => true
  | _ => false

/-- The next phase of a thread that runs alone. -/
def advanceAlone (alone : IndexThread × DatabaseEngine) : IndexThread × DatabaseEngine := alone.1.advance alone.2

theorem advanceAlone_done (count : Nat) (statement : IndexStatement) (engine : DatabaseEngine)
    (result : Except HelionError Nat) :
    advanceAlone^[count] ({ statement, phase := .done result }, engine) = ({ statement, phase := .done result }, engine) :=
  Function.iterate_fixed rfl count

/-- With nothing in between, the phases of an index statement are the statement. -/
theorem advanceAlone_execute (engine : DatabaseEngine) (orders : CommitOrders) (statement : IndexStatement) :
    advanceAlone^[4] ({ statement, phase := .ready }, engine) =
      ({ statement, phase := .done (engine.execute orders statement.plan).1 }, (engine.execute orders statement.plan).2) := by
  cases statement with
  | create name tableName columns unique ifNotExists =>
      rw [Function.iterate_succ_apply, advanceAlone]
      dsimp only [advance, resolve, IndexStatement.plan, DatabaseEngine.execute, DatabaseEngine.executeCreateIndex]
      cases htable : findTable tableName engine.tables with
      | none => rw [advanceAlone_done]
      | some table =>
          dsimp only
          split
          · rw [advanceAlone_done]
            cases ifNotExists <;> rfl
          · cases hcolumns : DatabaseEngine.indexColumns table tableName columns with
            | error err => rw [advanceAlone_done]
            | ok positions =>
                rw [Function.iterate_succ_apply, advanceAlone, Function.iterate_succ_apply, advanceAlone]
                dsimp only [advance, modify]
                rw [htable]
                dsimp only
                cases hadded : table.addIndex name positions unique with
                | error err => rw [advanceAlone_done]
                | ok next => rfl
  | drop name tableName ifExists =>
      rw [Function.iterate_succ_apply, advanceAlone, Function.iterate_succ_apply, advanceAlone]
      dsimp only [advance, modify, IndexStatement.plan, DatabaseEngine.execute, DatabaseEngine.executeDropIndex]
      cases htable : findTable tableName engine.tables with
      | none => cases ifExists <;> rfl
      | some table =>
          dsimp only
          cases hdropped : table.dropIndex name with
          | error err => cases ifExists <;> rfl
          | ok next => rfl

end IndexThread

/-- An atomic commit, CREATE TABLE or DROP TABLE by somebody else. -/
inductive OtherCall where
  | commit (entries : List WriteEntry) (orders : CommitOrders)
  | createTable (name : String) (columns : List ColumnMeta) (engineName : Option String)
  | dropTable (name : String)

namespace OtherCall

/-- What the call returns, and the engine after it. -/
def run (engine : DatabaseEngine) : OtherCall → Executed
  | commit entries orders => engine.writePhase orders entries
  | createTable name columns engineName => affecting 0 (engine.createTable name columns engineName)
  | dropTable name => affecting 0 (engine.dropTable name)

/-- The tables that commits have written to and nobody has dropped, each as a commit that returned Ok left it. -/
def committedAfter (engine : DatabaseEngine) (committed : List TableImage) (call : OtherCall) : List TableImage :=
  match call, (call.run engine).1 with
  | commit entries _, .ok _ =>
      committed ++ ((call.run engine).2.tables.filter fun table =>
        entries.any fun entry => entry.tableName == table.name).map Table.image
  | dropTable name, .ok _ => committed.filter fun image => !eqIgnoreAsciiCase image.name name
  | _, _ => committed

end OtherCall

/-- An engine and the index statements on their way. The ledger has the tables as the last call of somebody else left
them; `finished` is the statement whose write-back was the last step. -/
structure IndexMachine where
  engine : DatabaseEngine
  threads : List IndexThread
  ledger : List TableImage
  committed : List TableImage
  finished : Option IndexThread

inductive IndexLabel where
  | call (call : OtherCall)
  | advance (position : Nat)

namespace IndexMachine

def step (machine : IndexMachine) : IndexLabel → IndexMachine
  | .call call =>
      { machine with
        engine := (call.run machine.engine).2
        ledger := (call.run machine.engine).2.tables.map Table.image
        committed := call.committedAfter machine.engine machine.committed
        finished := none }
  | .advance position =>
      match machine.threads[position]? with
      | none => { machine with finished := none }
      | some thread =>
          let next := thread.advance machine.engine
          { machine with
            engine := next.2
            threads := machine.threads.set position next.1
            finished := if thread.writesBack then some next.1 else none }

/-- Index statements that have not read. -/
def ready (engine : DatabaseEngine) (statements : List IndexStatement) : IndexMachine :=
  { engine
    threads := statements.map fun statement => { statement, phase := .ready }
    ledger := engine.tables.map Table.image
    committed := []
    finished := none }

end IndexMachine

/-- The table has the index that a CREATE INDEX is for: on the columns it names, with an entry for every live row. -/
def IndexThread.Covers (engine : DatabaseEngine) (thread : IndexThread) : Prop :=
  match thread.statement with
  | .create name tableName columns _ _ =>
      ∃ table, findTable tableName engine.tables = some table ∧
        ∃ index ∈ table.indexes, index.definition.name = name ∧
          DatabaseEngine.indexColumns table tableName columns = .ok index.definition.columns ∧
          table.livePairs index.definition ⊆ index.pairs
  | .drop _ _ _ => True

/-- The columns a CREATE INDEX names still have the positions it read. -/
def IndexThread.Resolved (engine : DatabaseEngine) (positions : List Nat) (thread : IndexThread) : Prop :=
  match thread.statement with
  | .create _ tableName columns _ _ =>
      ∃ table, findTable tableName engine.tables = some table ∧
        DatabaseEngine.indexColumns table tableName columns = .ok positions
  | .drop _ _ _ => True

namespace IndexMachine

/-- Nobody's work is undone: the tables are those of the others, with every version that a commit which returned Ok
left, and an index that was just created covers every live row. -/
structure WorkKept (machine : IndexMachine) : Prop where
  tables : machine.engine.tables.map Table.image = machine.ledger
  committed : ∀ image ∈ machine.committed, ∃ chains,
    machine.engine.chainsOf image.name = some chains ∧ ChainsKept image.versionChains chains
  covers : ∀ thread, machine.finished = some thread → thread.Covers machine.engine

/-- A write-back finds the tables as they are in its copy, and the columns at the positions it read. -/
def WritesBackCurrent (machine : IndexMachine) : IndexLabel → Prop
  | .call _ => True
  | .advance position => ∀ thread positions copy, machine.threads[position]? = some thread →
      thread.phase = .modified positions copy →
      copy.map Table.image = machine.engine.tables.map Table.image ∧ thread.Resolved machine.engine positions

end IndexMachine

/-! ### What the calls of the others keep -/

namespace OtherCall

open DatabaseEngine

variable {engine : DatabaseEngine}

/-- The calls as serial calls. -/
def serial : OtherCall → SerialCall
  | commit entries orders => { op := .writeTxn fun _ _ => .ok entries, orders }
  | createTable name columns engineName => { op := .execute (.createTable name columns engineName), orders := .asGiven }
  | dropTable name => { op := .execute (.dropTable name false), orders := .asGiven }

theorem run_eq_serialStep (engine : DatabaseEngine) (call : OtherCall) :
    (call.run engine).2 = engine.serialStep call.serial := by
  cases call with
  | commit entries orders => rfl
  | createTable name columns engineName => rfl
  | dropTable name =>
      show (engine.dropTable name).2 = (engine.execute .asGiven (.dropTable name false)).2
      dsimp only [execute]
      split
      · rfl
      · rfl

theorem sturdy_run (h : engine.Sturdy) (call : OtherCall) : (call.run engine).2.Sturdy := by
  have htransition := serialStep_transition engine call.serial
  rw [run_eq_serialStep]
  obtain ⟨hlive, hlogged⟩ :=
    chains_transition h.wellFormed (fun _ tx _ _ _ => lastOpen_rule tx.txId) h.live h.logged htransition
  exact ⟨h.wellFormed.transition htransition, hlive, hlogged⟩

/-- The versions of a table stay unless it is dropped. -/
theorem chainsKept_run (h : engine.Sturdy) (call : OtherCall) {name : String} {chains : List Chain}
    (hchains : engine.chainsOf name = some chains)
    (hnotDropped : ∀ dropped, call = .dropTable dropped → (call.run engine).1.isOk → eqIgnoreAsciiCase name dropped = false) :
    ∃ later, (call.run engine).2.chainsOf name = some later ∧ ChainsKept chains later := by
  cases call with
  | commit entries orders =>
      have hbegun : engine.begin.2.Sturdy := ⟨h.wellFormed.of_frame rfl (.refl _) rfl, h.live, h.logged⟩
      rw [run, writePhase_eq]
      exact hbegun.chainsKept_commit orders (engine.beginWith entries) hchains
  | createTable created columns engineName =>
      refine ⟨chains, ?_, .refl chains⟩
      obtain ⟨table, htable, hsame⟩ := Option.map_eq_some_iff.mp hchains
      rcases engine.createTable_cases created columns engineName with ⟨err, herr⟩ | ⟨catalog, -, hok⟩
      · rw [run, affecting, herr]
        exact hchains
      · rw [run, affecting, hok, chainsOf]
        show (findTable name (engine.tables ++ [Table.new created columns])).map _ = _
        rw [show findTable name (engine.tables ++ [Table.new created columns]) = some table by
          simp only [findTable, KeyedList.lookup] at htable ⊢
          rw [List.find?_append, htable, Option.some_or], Option.map_some, hsame]
  | dropTable dropped =>
      refine ⟨chains, ?_, .refl chains⟩
      rcases engine.dropTable_cases dropped with ⟨err, herr⟩ | ⟨catalog, -, hok⟩
      · rw [run, affecting, herr]
        exact hchains
      · have hname : eqIgnoreAsciiCase name dropped = false := hnotDropped dropped rfl (by rw [run, affecting, hok]; rfl)
        rw [run, affecting, hok, ← hchains, chainsOf, chainsOf]
        congr 1
        simp only [findTable, KeyedList.lookup]
        rw [List.find?_filter]
        congr 1
        funext table
        by_cases heq : table.name = name
        · simp [heq, hname]
        · simp [heq]

/-- The tables that commits left keep their versions through a call. -/
theorem committed_run (h : engine.Sturdy) (call : OtherCall) {committed : List TableImage}
    (hcommitted : ∀ image ∈ committed, ∃ chains,
      engine.chainsOf image.name = some chains ∧ ChainsKept image.versionChains chains) :
    ∀ image ∈ call.committedAfter engine committed, ∃ chains,
      (call.run engine).2.chainsOf image.name = some chains ∧ ChainsKept image.versionChains chains := by
  have hkept (image : TableImage) (himage : image ∈ committed)
      (hnotDropped : ∀ dropped, call = .dropTable dropped → (call.run engine).1.isOk →
        eqIgnoreAsciiCase image.name dropped = false) :
      ∃ chains, (call.run engine).2.chainsOf image.name = some chains ∧ ChainsKept image.versionChains chains := by
    obtain ⟨chains, hchains, hfirst⟩ := hcommitted image himage
    obtain ⟨later, hlater, hsecond⟩ := chainsKept_run h call hchains hnotDropped
    exact ⟨later, hlater, hfirst.trans hsecond⟩
  intro image himage
  unfold committedAfter at himage
  split at himage
  · rename_i entries orders count hok
    rcases List.mem_append.mp himage with hold | hnew
    · exact hkept image hold fun dropped hcall => nomatch hcall
    · obtain ⟨table, htable, rfl⟩ := List.mem_map.mp hnew
      have hmem := (List.mem_filter.mp htable).1
      refine ⟨table.versionChains, ?_, .refl _⟩
      rw [chainsOf, show findTable table.image.name _ = some table from
        (sturdy_run h _).wellFormed.findTable_self hmem]
      rfl
  · rename_i name count hok
    obtain ⟨hold, hother⟩ := List.mem_filter.mp himage
    refine hkept image hold fun dropped hcall _ => ?_
    cases hcall
    exact Bool.not_eq_true' _ ▸ hother
  · rename_i hcommit hdrop
    refine hkept image himage fun dropped hcall hok => ?_
    subst hcall
    cases hresult : ((OtherCall.dropTable dropped).run engine).1 with
    | error err =>
        rw [hresult] at hok
        cases hok
    | ok count => exact absurd hresult (hdrop dropped count rfl)

end OtherCall

/-! ### What index statements keep -/

namespace IndexThread

open DatabaseEngine

variable {engine : DatabaseEngine} {thread : IndexThread}

/-- The copy that a CREATE INDEX will write back has its index, on the positions it read. -/
def Built (positions : List Nat) (copy : List Table) (thread : IndexThread) : Prop :=
  match thread.statement with
  | .create name tableName _ _ _ =>
      ∃ table, findTable tableName copy = some table ∧
        (∃ index ∈ table.indexes, index.definition.name = name ∧ table.livePairs index.definition ⊆ index.pairs) ∧
        ∀ index ∈ table.indexes, index.definition.name = name → index.definition.columns = positions
  | .drop _ _ _ => True

theorem addIndex_fresh {table next : Table} {name : String} {columns : List Nat} {unique : Bool}
    (hok : table.addIndex name columns unique = .ok next) : ∀ index ∈ table.indexes, index.definition.name ≠ name := by
  intro index hindex heq
  have hany : (table.indexes.any fun index => index.definition.name == name) = true :=
    List.any_eq_true.mpr ⟨index, hindex, beq_iff_eq.mpr heq⟩
  rw [Table.addIndex, if_pos hany] at hok
  cases hok

theorem findTable_replaced {tables : List Table} {name : String} {table next : Table}
    (htable : findTable name tables = some table) (hnext : next.name = name) :
    findTable name (updateTable name (fun _ => next) tables) = some next := by
  induction tables with
  | nil => cases htable
  | cons first rest ih =>
      by_cases hfirst : first.name = name
      · show KeyedList.lookup Table.name name (KeyedList.update Table.name name _ (first :: rest)) = some next
        rw [KeyedList.update, if_pos hfirst, KeyedList.lookup_cons, if_pos hnext]
      · have hrest : findTable name rest = some table := by
          rw [← htable, findTable, findTable, KeyedList.lookup_cons, if_neg hfirst]
        show KeyedList.lookup Table.name name (KeyedList.update Table.name name _ (first :: rest)) = some next
        rw [KeyedList.update, if_neg hfirst, KeyedList.lookup_cons, if_neg hfirst]
        exact ih hrest

theorem built_modify {positions given : List Nat} {copy modified : List Table} {statement : IndexStatement}
    (hmodify : modify given copy statement = .modified positions modified) :
    Built positions modified { statement, phase := .modified positions modified } := by
  cases statement with
  | drop name tableName ifExists => exact trivial
  | create name tableName columns unique ifNotExists =>
      rw [modify] at hmodify
      split at hmodify
      · cases hmodify
      · rename_i table htable
        split at hmodify
        · cases hmodify
        · rename_i next hnext
          obtain ⟨rfl, rfl⟩ := IndexPhase.modified.inj hmodify
          have hfresh := addIndex_fresh hnext
          obtain ⟨index, rfl, hdefinition, hpairs, -⟩ := Table.addIndex_ok hnext
          refine ⟨_, findTable_replaced htable (KeyedList.mem_of_lookup htable).2, ⟨index, ?_, ?_, ?_⟩, ?_⟩
          · exact List.mem_append_right _ (List.mem_singleton_self index)
          · rw [hdefinition]
          · rw [hpairs]
            exact subset_rfl
          · intro other hother hname
            rcases List.mem_append.mp hother with hold | hnew
            · exact absurd hname (hfresh other hold)
            · rw [List.mem_singleton.mp hnew, hdefinition]

/-- Positions of columns depend on the columns. -/
theorem indexColumns_congr {left right : Table} (h : left.columns = right.columns) (tableName : String)
    (columns : List String) : indexColumns left tableName columns = indexColumns right tableName columns := by
  rw [indexColumns, indexColumns, h]

theorem find_columns {left right : List Table} (h : left.map Table.image = right.map Table.image) {name : String}
    {table : Table} (htable : findTable name left = some table) :
    ∃ other, findTable name right = some other ∧ other.columns = table.columns := by
  have himage := findTable_image h name
  rw [htable, Option.map_some] at himage
  obtain ⟨other, hother, hsame⟩ := Option.map_eq_some_iff.mp himage.symm
  exact ⟨other, hother, congrArg TableImage.columns hsame⟩

/-- A write-back covers every live row exactly when the columns are where the statement found them. -/
theorem covers_iff_resolved {positions : List Nat} {copy : List Table}
    (hbuilt : thread.Built positions copy) (himage : copy.map Table.image = engine.tables.map Table.image) :
    thread.Covers { engine with tables := copy } ↔ thread.Resolved engine positions := by
  obtain ⟨statement, phase⟩ := thread
  cases statement with
  | drop name tableName ifExists => exact Iff.rfl
  | create name tableName columns unique ifNotExists =>
      obtain ⟨table, htable, ⟨index, hindex, hname, hpairs⟩, hpositions⟩ := hbuilt
      obtain ⟨current, hcurrent, hcolumns⟩ := find_columns himage htable
      have hsame := indexColumns_congr hcolumns tableName columns
      constructor
      · rintro ⟨found, hfound, other, hother, hnamed, hresolved, -⟩
        obtain rfl := Option.some.inj (htable.symm.trans hfound)
        exact ⟨current, hcurrent, by rw [hsame, hresolved, hpositions other hother hnamed]⟩
      · rintro ⟨found, hfound, hresolved⟩
        obtain rfl := Option.some.inj (hcurrent.symm.trans hfound)
        exact ⟨table, htable, index, hindex, hname, by rw [← hsame, hresolved, hpositions index hindex hname], hpairs⟩

end IndexThread

namespace IndexMachine

open DatabaseEngine

variable {start : DatabaseEngine} {machine : IndexMachine}

/-- What holds while no write-back has undone anything. -/
structure Undisturbed (machine : IndexMachine) : Prop where
  kept : machine.WorkKept
  sturdy : machine.engine.Sturdy
  built : ∀ thread ∈ machine.threads, ∀ positions copy,
    thread.phase = .modified positions copy → thread.Built positions copy

theorem built_advance {thread : IndexThread} {engine : DatabaseEngine} {positions : List Nat} {copy : List Table}
    (hmodified : (thread.advance engine).1.phase = .modified positions copy) :
    (thread.advance engine).1.Built positions copy := by
  obtain ⟨statement, phase⟩ := thread
  cases phase with
  | ready =>
      cases statement with
      | create name tableName columns unique ifNotExists =>
          have hresolve :
              IndexThread.resolve engine.tables name tableName columns ifNotExists = .modified positions copy :=
            hmodified
          unfold IndexThread.resolve at hresolve
          split at hresolve
          · cases hresolve
          · split at hresolve
            · cases hresolve
            · split at hresolve <;> cases hresolve
      | drop name tableName ifExists => cases hmodified
  | resolved given => cases hmodified
  | copied given given' =>
      exact IndexThread.built_modify hmodified
  | modified given given' => cases hmodified
  | done result => cases hmodified

/-- Only a write-back changes the engine. -/
theorem advance_engine {thread : IndexThread} (hnot : thread.writesBack = false) (engine : DatabaseEngine) :
    (thread.advance engine).2 = engine := by
  obtain ⟨statement, phase⟩ := thread
  cases phase with
  | ready => cases statement <;> rfl
  | resolved positions => rfl
  | copied positions copy => rfl
  | modified positions copy => cases hnot
  | done result => rfl

/-- A write-back undoes nothing exactly when its copy is current. -/
theorem workKept_writeBack_iff (h : Undisturbed machine) {position : Nat} {statement : IndexStatement}
    {positions : List Nat} {copy : List Table}
    (hthread : machine.threads[position]? = some { statement, phase := .modified positions copy }) :
    (machine.step (.advance position)).WorkKept ↔ WritesBackCurrent machine (.advance position) := by
  have hbuilt := h.built _ (List.mem_of_getElem? hthread) positions copy rfl
  have hstep : machine.step (.advance position) = { machine with
      engine := { machine.engine with tables := copy }
      threads := machine.threads.set position { statement, phase := .done (.ok 1) }
      finished := some { statement, phase := .done (.ok 1) } } := by
    simp only [step, hthread]
    rfl
  have hguard : WritesBackCurrent machine (.advance position) ↔
      copy.map Table.image = machine.engine.tables.map Table.image ∧
        IndexThread.Resolved machine.engine positions { statement, phase := .modified positions copy } := by
    constructor
    · exact fun hcurrent => hcurrent _ positions copy hthread rfl
    · intro hcurrent thread given given' hother hphase
      obtain rfl := Option.some.inj (hthread.symm.trans hother)
      obtain ⟨rfl, rfl⟩ := IndexPhase.modified.inj hphase
      exact hcurrent
  rw [hguard, hstep]
  constructor
  · intro hkept
    have himage : copy.map Table.image = machine.engine.tables.map Table.image := hkept.tables.trans h.kept.tables.symm
    exact ⟨himage, (IndexThread.covers_iff_resolved hbuilt himage).mp
      (hkept.covers { statement, phase := .done (.ok 1) } rfl)⟩
  · rintro ⟨himage, hresolved⟩
    refine ⟨himage.trans h.kept.tables, fun image hmem => ?_, fun thread hfinished => ?_⟩
    · obtain ⟨chains, hchains, hkept⟩ := h.kept.committed image hmem
      refine ⟨chains, ?_, hkept⟩
      have hsame := congrArg (Option.map TableImage.versionChains) (findTable_image himage image.name)
      rw [Option.map_map, Option.map_map] at hsame
      exact hsame.trans hchains
    · obtain rfl := Option.some.inj hfinished
      exact (IndexThread.covers_iff_resolved hbuilt himage).mpr hresolved

/-- A step that writes nothing back keeps everything. -/
theorem Undisturbed.quiet (h : Undisturbed machine) {position : Nat} {thread : IndexThread}
    (hthread : machine.threads[position]? = some thread) (hnot : thread.writesBack = false) :
    Undisturbed (machine.step (.advance position)) := by
  have hstep : machine.step (.advance position) = { machine with
      threads := machine.threads.set position (thread.advance machine.engine).1
      finished := none } := by
    simp only [step, hthread, advance_engine hnot, hnot]
    rfl
  rw [hstep]
  refine ⟨⟨h.kept.tables, h.kept.committed, fun thread hnone => nomatch hnone⟩, h.sturdy, ?_⟩
  intro other hother positions copy hmodified
  rcases List.mem_or_eq_of_mem_set hother with hold | rfl
  · exact h.built other hold positions copy hmodified
  · exact built_advance hmodified

theorem Undisturbed.step (h : Undisturbed machine) {label : IndexLabel} (hguard : WritesBackCurrent machine label) :
    Undisturbed (machine.step label) := by
  cases label with
  | call call =>
      refine ⟨⟨rfl, OtherCall.committed_run h.sturdy call h.kept.committed, fun thread hnone => nomatch hnone⟩, ?_, h.built⟩
      exact OtherCall.sturdy_run h.sturdy call
  | advance position =>
      cases hthread : machine.threads[position]? with
      | none =>
          simp only [IndexMachine.step, hthread]
          exact ⟨⟨h.kept.tables, h.kept.committed, fun thread hnone => nomatch hnone⟩, h.sturdy, h.built⟩
      | some thread =>
          cases hwrites : thread.writesBack with
          | false => exact h.quiet hthread hwrites
          | true =>
              obtain ⟨statement, phase⟩ := thread
              cases phase with
              | modified positions copy =>
                  have hkept := (workKept_writeBack_iff h hthread).mpr hguard
                  have himage := (hguard _ positions copy hthread rfl).1
                  refine ⟨hkept, ?_, ?_⟩
                  · have hengine : (machine.step (.advance position)).engine = { machine.engine with tables := copy } := by
                      simp only [IndexMachine.step, hthread]
                      rfl
                    rw [hengine]
                    exact ⟨h.sturdy.wellFormed.of_frame (WellFormed.map_schema_of_image himage) (.refl _) rfl,
                      h.sturdy.live.of_image himage, h.sturdy.logged⟩
                  · intro other hother given given' hmodified
                    simp only [IndexMachine.step, hthread] at hother
                    rcases List.mem_or_eq_of_mem_set hother with hold | rfl
                    · exact h.built other hold given given' hmodified
                    · exact built_advance hmodified
              | ready | resolved | copied | done => cases hwrites

/-- A step that undoes nothing met the guard. -/
theorem Undisturbed.current (h : Undisturbed machine) {label : IndexLabel} (hkept : (machine.step label).WorkKept) :
    WritesBackCurrent machine label := by
  cases label with
  | call call => trivial
  | advance position =>
      intro thread positions copy hthread hphase
      obtain ⟨statement, phase⟩ := thread
      obtain rfl : phase = .modified positions copy := hphase
      exact (workKept_writeBack_iff h hthread).mp hkept _ positions copy hthread rfl

theorem undisturbed_ready (hsturdy : start.Sturdy) (statements : List IndexStatement) :
    Undisturbed (ready start statements) := by
  refine ⟨⟨rfl, ?_, ?_⟩, hsturdy, ?_⟩
  · intro image himage
    cases himage
  · intro thread hnone
    cases hnone
  intro thread hthread positions copy hmodified
  obtain ⟨statement, -, rfl⟩ := List.mem_map.mp hthread
  cases hmodified

/-- Nobody's work is undone at any point of a schedule exactly when every write-back finds the tables it copied. -/
theorem index_ddl_keeps_work_iff (hstart : start.SerialReachable fun _ _ => True) (statements : List IndexStatement)
    (schedule : List IndexLabel) :
    (∀ taken, taken <+: schedule → (taken.foldl step (ready start statements)).WorkKept) ↔
      Meets step WritesBackCurrent (ready start statements) schedule :=
  (Meets.iff_shown (fun _ h => h.kept) (fun _ _ h hguard => h.step hguard) (fun _ _ h hkept => h.current hkept)
    (undisturbed_ready (Machine.sturdy_of_reachable hstart) statements) schedule).symm

open Machine (emptyTable emptyTable_reachable)

/-- CREATE INDEX i ON t (a). -/
def createsIndex : IndexStatement := .create "i" "t" ["a"] false false

/-- The commit of one row. -/
def commitsRow : IndexLabel := .call (.commit (insertEntries "t" 0 [{ values := [.integer 1] }]) .asGiven)

/-- CREATE INDEX j ON t (a). -/
def createsOther : IndexStatement := .create "j" "t" ["a"] false false

/-- Both find the column, a row is committed, and each goes on alone. -/
def commitAmong : List IndexLabel :=
  [.advance 0, .advance 1, commitsRow] ++ List.replicate 3 (.advance 0) ++ List.replicate 3 (.advance 1)

theorem index_ddl_keeps_work_among :
    (commitAmong.foldl step (ready emptyTable [createsIndex, createsOther])).WorkKept := by
  have hrun : Meets step WritesBackCurrent (ready emptyTable [createsIndex, createsOther]) commitAmong := by
    refine ⟨?_, ?_, trivial, ?_, ?_, ?_, ?_, ?_, ?_, trivial⟩
    · rintro thread positions copy ⟨⟩ ⟨⟩
    · rintro thread positions copy ⟨⟩ ⟨⟩
    · rintro thread positions copy ⟨⟩ ⟨⟩
    · rintro thread positions copy ⟨⟩ ⟨⟩
    · rintro thread positions copy ⟨⟩ ⟨⟩
      exact ⟨rfl, _, rfl, rfl⟩
    · rintro thread positions copy ⟨⟩ ⟨⟩
    · rintro thread positions copy ⟨⟩ ⟨⟩
    · rintro thread positions copy ⟨⟩ ⟨⟩
      exact ⟨rfl, _, rfl, rfl⟩
  exact (index_ddl_keeps_work_iff emptyTable_reachable _ commitAmong).mpr hrun commitAmong List.prefix_rfl

/-- The commit and the CREATE TABLE that run between the copy and the write-back return Ok and are undone. -/
theorem not_index_ddl_keeps_work_between :
    emptyTable.SerialReachable (fun _ _ => True) ∧
      (([.advance 0, .advance 0, commitsRow, .call (.createTable "u" [ColumnMeta.new "a" .integer] none)].foldl step
        (ready emptyTable [createsIndex])).engine.tables.map fun table => (table.name, table.versionChains)) =
          [("t", [[.newInsert 1 { values := [.integer 1] }]]), ("u", [])] ∧
      (([.advance 0, .advance 0, commitsRow, .call (.createTable "u" [ColumnMeta.new "a" .integer] none), .advance 0,
        .advance 0].foldl step (ready emptyTable [createsIndex])).engine.tables.map fun table =>
          (table.name, table.versionChains)) = [("t", [])] ∧
      ¬ ([.advance 0, .advance 0, commitsRow, .call (.createTable "u" [ColumnMeta.new "a" .integer] none), .advance 0,
        .advance 0].foldl step (ready emptyTable [createsIndex])).WorkKept := by
  refine ⟨emptyTable_reachable, rfl, rfl, fun hkept => ?_⟩
  obtain ⟨chains, hchains, hrows⟩ := hkept.committed _ (List.mem_singleton_self _)
  cases hchains
  obtain ⟨later, hlater, -⟩ := hrows 0 _ rfl
  cases hlater

end IndexMachine

end HelionDb
