import HelionDb.EngineMirror

/-! Migrations whose file operations fail. The disk engine writes its files before it changes its map, the catalog file is
replaced by a rename, and a migration takes back what it has done, so that it moves a table or leaves it where it is. -/

namespace HelionDb

/-- The file operations of one call that fail. Those of the memory engine never do: it has no files. -/
structure FileFaults where
  create : Option HelionError
  restore : Option HelionError
  drop : Option HelionError
  write : Option HelionError
  save : Option HelionError

/-- All file operations go through. -/
def FileFaults.none : FileFaults := { create := .none, restore := .none, drop := .none, write := .none, save := .none }

namespace Catalog

/-! ### Operations that may fail -/

/-- The file operations of an engine. -/
def fileStep : EngineKind → Option HelionError → Except HelionError Unit
  | .disk, some err => .error err
  | _, _ => .ok ()

/-- `StorageEngine::create_table`: the files come first. -/
def createIn (catalog : Catalog) (kind : EngineKind) (fault : Option HelionError) (name : String)
    (columns : List ColumnMeta) : Loop.Outcome HelionError Catalog :=
  match fileStep kind fault with
  | .error err => (.error err, catalog)
  | .ok () => (.ok (), catalog.setTable kind name (some (Table.new name columns)))

/-- `StorageEngine::restore_table`. -/
def restoreIn (catalog : Catalog) (kind : EngineKind) (fault : Option HelionError) (table : Table) :
    Loop.Outcome HelionError Catalog :=
  match fileStep kind fault with
  | .error err => (.error err, catalog)
  | .ok () => (.ok (), catalog.restoreTable kind table)

/-- `StorageEngine::drop_table`: the map comes first. -/
def dropIn (catalog : Catalog) (kind : EngineKind) (fault : Option HelionError) (name : String) :
    Loop.Outcome HelionError Catalog :=
  (fileStep kind fault, catalog.setTable kind name none)

/-- `StorageEngine::apply_write_set`: the delta comes first. -/
def applyIn (catalog : Catalog) (kind : EngineKind) (fault : Option HelionError) (name : String)
    (changes : List (Nat × RowVersion)) : Loop.Outcome HelionError Catalog :=
  match fileStep kind fault with
  | .error err => (.error err, catalog)
  | .ok () => catalog.applyChanges kind name changes

/-- `Catalog::save`: the file is replaced by a rename at the end. -/
def saveOr (catalog : Catalog) : Option HelionError → Loop.Outcome HelionError Catalog
  | some err => (.error err, catalog)
  | .none => (.ok (), catalog.save)

/-- `Catalog::create_table`. -/
def createTableFailing (faults : FileFaults) (catalog : Catalog) (name : String) (columns : List ColumnMeta)
    (engineName : Option String) : Loop.Outcome HelionError Catalog :=
  let engineName := engineName.getD catalog.defaultEngine
  match getEngine engineName with
  | .error err => (.error err, catalog)
  | .ok kind =>
      match catalog.createIn kind faults.create name columns with
      | (.error err, left) => (.error err, left)
      | (.ok (), created) =>
          { created with
            metadata := Function.update created.metadata name (some (normalizeEngineName engineName)) }.saveOr faults.save

/-- `Catalog::drop_table`. -/
def dropTableFailing (faults : FileFaults) (catalog : Catalog) (name : String) : Loop.Outcome HelionError Catalog :=
  match catalog.getTableEngine name with
  | .error err => (.error err, catalog)
  | .ok kind =>
      match catalog.dropIn kind faults.drop name with
      | (.error err, left) => (.error err, left)
      | (.ok (), dropped) =>
          { dropped with metadata := Function.update dropped.metadata name none }.saveOr faults.save

/-- `Catalog::migrate_table`. -/
def migrateTableFailing (faults : FileFaults) (catalog : Catalog) (name targetEngine : String) :
    Loop.Outcome HelionError Catalog :=
  let targetEngine := normalizeEngineName targetEngine
  match catalog.metadata name with
  | none => (.error (.tableNotFound name), catalog)
  | some currentEngineName =>
      if currentEngineName = targetEngine then (.ok (), catalog)
      else
        match catalog.getTableEngine name with
        | .error err => (.error err, catalog)
        | .ok current =>
            match catalog.engines current name with
            | none => (.error (.tableNotFound name), catalog)
            | some snapshot =>
                match getEngine targetEngine with
                | .error err => (.error err, catalog)
                | .ok target =>
                    match catalog.createIn target faults.create name snapshot.columns with
                    | (.error err, left) => (.error err, left)
                    | (.ok (), created) =>
                        match created.restoreIn target faults.restore snapshot with
                        | (.error err, left) => (.error err, (left.dropIn target faults.drop name).2)
                        | (.ok (), restored) =>
                            let named := { restored with
                              metadata := Function.update restored.metadata name (some targetEngine) }
                            match named.saveOr faults.save with
                            | (.error err, left) =>
                                let dropped := (left.dropIn target faults.drop name).2
                                (.error err, { dropped with
                                  metadata := Function.update dropped.metadata name (some currentEngineName) })
                            | (.ok (), saved) =>
                                match getEngine currentEngineName with
                                | .error err => (.error err, saved)
                                -- What the old copy leaves behind is only logged.
                                | .ok old => (.ok (), (saved.dropIn old faults.drop name).2)

@[simp] theorem createIn_none (catalog : Catalog) (kind : EngineKind) (name : String) (columns : List ColumnMeta) :
    catalog.createIn kind none name columns = (.ok (), catalog.setTable kind name (some (Table.new name columns))) := by
  cases kind <;> rfl

@[simp] theorem restoreIn_none (catalog : Catalog) (kind : EngineKind) (table : Table) :
    catalog.restoreIn kind none table = (.ok (), catalog.restoreTable kind table) := by
  cases kind <;> rfl

/-- Where no file operation fails, this is the migration. -/
theorem migrateTableFailing_none (catalog : Catalog) (name targetEngine : String) :
    catalog.migrateTableFailing .none name targetEngine = catalog.migrateTable name targetEngine := by
  unfold migrateTableFailing migrateTable
  dsimp only [FileFaults.none]
  cases catalog.metadata name with
  | none => rfl
  | some currentEngineName =>
      dsimp only
      split
      · rfl
      · cases catalog.getTableEngine name with
        | error err => rfl
        | ok current =>
            dsimp only
            cases catalog.engines current name with
            | none => rfl
            | some snapshot =>
                dsimp only
                cases getEngine (normalizeEngineName targetEngine) with
                | error err => rfl
                | ok target =>
                    simp only [createIn_none, restoreIn_none, saveOr]
                    cases getEngine currentEngineName <;> rfl

/-! ### Catalogs that occur -/

/-- A call that changes the catalog or its engines. -/
inductive CatalogCall where
  | createTable (name : String) (columns : List ColumnMeta) (engineName : Option String)
  | dropTable (name : String)
  | applyWriteSet (name : String) (changes : List (Nat × RowVersion))
  | restoreTable (table : Table)
  | setDefaultEngine (engine : String)
  | migrateTable (name targetEngine : String)

/-- What a call leaves, also where it fails. -/
def callFailing (catalog : Catalog) : FileFaults × CatalogCall → Catalog
  | (faults, .createTable name columns engineName) => (catalog.createTableFailing faults name columns engineName).2
  | (faults, .dropTable name) => (catalog.dropTableFailing faults name).2
  | (faults, .applyWriteSet name changes) =>
      match catalog.getTableEngine name with
      | .error _ => catalog
      | .ok kind => (catalog.applyIn kind faults.write name changes).2
  | (faults, .restoreTable table) =>
      match catalog.getTableEngine table.name with
      | .error _ => catalog
      | .ok kind => (catalog.restoreIn kind faults.restore table).2
  | (_, .setDefaultEngine engine) =>
      match getEngine engine with
      | .error _ => catalog
      | .ok _ => { catalog with defaultEngine := normalizeEngineName engine }
  | (faults, .migrateTable name targetEngine) => (catalog.migrateTableFailing faults name targetEngine).2

/-- A catalog that calls lead to. The disk engine loads each table from the directory of its name. -/
def Occurs (catalog : Catalog) : Prop :=
  ∃ saved defaultEngine loaded, (∀ name table, loaded name = some table → table.name = name) ∧
    Reaches callFailing (fun _ _ => True) (openSaved saved defaultEngine loaded) catalog

/-- An engine keeps a table under its own name. -/
def Named (catalog : Catalog) : Prop :=
  ∀ kind name table, catalog.engines kind name = some table → table.name = name

section

variable {catalog : Catalog} {kind source : EngineKind} {name targetEngine : String} {table : Table} {faults : FileFaults}

theorem Named.setTable_some (h : catalog.Named) (kind : EngineKind) (hname : table.name = name) :
    (catalog.setTable kind name (some table)).Named := by
  intro other otherName stored hstored
  by_cases hsame : other = kind ∧ otherName = name
  · obtain ⟨rfl, rfl⟩ := hsame
    rw [setTable_self] at hstored
    exact Option.some.inj hstored ▸ hname
  · rw [setTable_of_ne catalog (not_and_or.mp hsame)] at hstored
    exact h other otherName stored hstored

theorem Named.setTable_none (h : catalog.Named) (kind : EngineKind) (name : String) :
    (catalog.setTable kind name none).Named := by
  intro other otherName stored hstored
  by_cases hsame : other = kind ∧ otherName = name
  · obtain ⟨rfl, rfl⟩ := hsame
    rw [setTable_self] at hstored
    cases hstored
  · rw [setTable_of_ne catalog (not_and_or.mp hsame)] at hstored
    exact h other otherName stored hstored

theorem Named.createIn (h : catalog.Named) (kind : EngineKind) (fault : Option HelionError) (name : String)
    (columns : List ColumnMeta) : (catalog.createIn kind fault name columns).2.Named := by
  unfold Catalog.createIn
  split
  · exact h
  · exact h.setTable_some kind (Table.new_name name columns)

theorem Named.restoreIn (h : catalog.Named) (kind : EngineKind) (fault : Option HelionError) (table : Table) :
    (catalog.restoreIn kind fault table).2.Named := by
  unfold Catalog.restoreIn
  split
  · exact h
  · exact h.setTable_some kind rfl

theorem Named.saveOr {next : Catalog} (h : catalog.Named) (hengines : next.engines = catalog.engines)
    (fault : Option HelionError) : (next.saveOr fault).2.Named := by
  have hnext : next.Named := fun kind => hengines ▸ h kind
  cases fault <;> exact hnext

theorem Named.migrateTableFailing (h : catalog.Named) (faults : FileFaults) (name targetEngine : String) :
    (catalog.migrateTableFailing faults name targetEngine).2.Named := by
  unfold Catalog.migrateTableFailing
  dsimp only
  split
  · exact h
  split
  · exact h
  split
  · exact h
  rename_i current _
  split
  · exact h
  rename_i snapshot _
  split
  · exact h
  rename_i target _
  have hcreated := h.createIn target faults.create name snapshot.columns
  split
  · rename_i hcreate
    rwa [hcreate] at hcreated
  rename_i created hcreate
  rw [hcreate] at hcreated
  have hrestored := hcreated.restoreIn target faults.restore snapshot
  split
  · rename_i hrestore
    rw [hrestore] at hrestored
    exact hrestored.setTable_none target name
  rename_i restored hrestore
  rw [hrestore] at hrestored
  cases faults.save with
  | some err => exact hrestored.setTable_none target name
  | none =>
      dsimp only [Catalog.saveOr]
      split
      · exact hrestored
      · exact hrestored.setTable_none _ name

theorem Named.applyIn (h : catalog.Named) (kind : EngineKind) (fault : Option HelionError) (name : String)
    (changes : List (Nat × RowVersion)) : (catalog.applyIn kind fault name changes).2.Named := by
  unfold Catalog.applyIn Catalog.applyChanges
  split
  · exact h
  · cases htable : catalog.engines kind name with
    | none => exact h
    | some table => exact h.setTable_some kind (h kind name table htable)

theorem Named.createTableFailing (h : catalog.Named) (faults : FileFaults) (name : String) (columns : List ColumnMeta)
    (engineName : Option String) : (catalog.createTableFailing faults name columns engineName).2.Named := by
  unfold Catalog.createTableFailing
  dsimp only
  split
  · exact h
  rename_i kind _
  have hcreated := h.createIn kind faults.create name columns
  split
  · rename_i hcreate
    rwa [hcreate] at hcreated
  · rename_i created hcreate
    rw [hcreate] at hcreated
    refine hcreated.saveOr ?_ faults.save
    rfl

theorem Named.dropTableFailing (h : catalog.Named) (faults : FileFaults) (name : String) :
    (catalog.dropTableFailing faults name).2.Named := by
  unfold Catalog.dropTableFailing Catalog.dropIn
  split
  · exact h
  rename_i kind _
  have hdropped := h.setTable_none kind name
  cases fileStep kind faults.drop with
  | error err => exact hdropped
  | ok =>
      dsimp only
      refine hdropped.saveOr ?_ faults.save
      rfl

theorem Named.callFailing (h : catalog.Named) (call : FileFaults × CatalogCall) : (catalog.callFailing call).Named := by
  obtain ⟨faults, call⟩ := call
  cases call with
  | createTable name columns engineName => exact h.createTableFailing faults name columns engineName
  | dropTable name => exact h.dropTableFailing faults name
  | applyWriteSet name changes =>
      unfold Catalog.callFailing
      dsimp only
      split
      · exact h
      · exact h.applyIn _ _ _ _
  | restoreTable table =>
      unfold Catalog.callFailing
      dsimp only
      split
      · exact h
      · exact h.restoreIn _ _ _
  | setDefaultEngine engine =>
      unfold Catalog.callFailing
      dsimp only
      split <;> exact h
  | migrateTable name targetEngine => exact h.migrateTableFailing faults name targetEngine

theorem Occurs.named (h : catalog.Occurs) : catalog.Named := by
  obtain ⟨saved, defaultEngine, loaded, hloaded, hrun⟩ := h
  refine hrun.invariant (P := Named) (fun state call hstate _ => hstate.callFailing call) ?_
  intro kind name table htable
  have hmemory : (openSaved saved defaultEngine loaded).engines .memory name = none := by
    unfold openSaved
    cases saved <;> rfl
  have hdisk : (openSaved saved defaultEngine loaded).engines .disk = loaded := by
    unfold openSaved
    cases saved <;> rfl
  cases kind with
  | memory =>
      rw [hmemory] at htable
      cases htable
  | disk =>
      rw [hdisk] at htable
      exact hloaded name table htable

theorem setTable_setTable (catalog : Catalog) (kind : EngineKind) (name : String) (first second : Option Table) :
    (catalog.setTable kind name first).setTable kind name second = catalog.setTable kind name second := by
  simp [setTable]

theorem setTable_eq_self {table : Option Table} (h : catalog.engines kind name = table) :
    catalog.setTable kind name table = catalog := by
  rw [setTable, ← h, Function.update_eq_self, Function.update_eq_self]

/-- A migration moves the table to the target or leaves the catalog and the engines as they are, whichever of its file
operations fails. -/
theorem migrateTable_atomic (hoccurs : catalog.Occurs) (hsource : catalog.metadata name = some source.name)
    (hheld : catalog.engines source name = some table)
    (hfree : ∀ target, getEngine targetEngine = .ok target → catalog.engines target name = none) (faults : FileFaults) :
    let outcome := catalog.migrateTableFailing faults name targetEngine
    (outcome.1 = .ok () ∧ ∃ target, getEngine targetEngine = .ok target ∧ outcome.2.engines target name = some table ∧
        outcome.2.metadata name = some target.name ∧ outcome.2.engines source name = none) ∨
      (∃ err, outcome.1 = .error err) ∧ outcome.2.metadata = catalog.metadata ∧ outcome.2.engines = catalog.engines ∧
        ∀ target, getEngine targetEngine = .ok target → outcome.2.engines target name = none := by
  have hname : table.name = name := hoccurs.named source name table hheld
  -- An Err may leave other files, but the engines serve what they served.
  have hleft : ∀ {err : HelionError} {left : Catalog}, left.metadata = catalog.metadata → left.engines = catalog.engines →
      (∃ err', (Except.error err : Except HelionError Unit) = .error err') ∧ left.metadata = catalog.metadata ∧
        left.engines = catalog.engines ∧ ∀ target, getEngine targetEngine = .ok target → left.engines target name = none :=
    fun hmetadata hengines => ⟨⟨_, rfl⟩, hmetadata, hengines, fun target htarget => by rw [hengines]; exact hfree target htarget⟩
  have hdifferent : source.name ≠ normalizeEngineName targetEngine := by
    intro hsame
    have hnone := hfree source (getEngine_eq_ok.mpr hsame.symm)
    rw [hheld] at hnone
    cases hnone
  unfold migrateTableFailing
  simp only [hsource, hdifferent, if_false, getTableEngine_of_metadata hsource, hheld]
  cases htarget : getEngine (normalizeEngineName targetEngine) with
  | error err => exact .inr (hleft rfl rfl)
  | ok target =>
      have hgiven : getEngine targetEngine = .ok target := by
        rw [getEngine_eq_ok, ← normalizeEngineName_idem]
        exact getEngine_eq_ok.mp htarget
      have hnone := hfree target hgiven
      dsimp only
      rw [createIn]
      cases fileStep target faults.create with
      | error err => exact .inr (hleft rfl rfl)
      | ok =>
          dsimp only
          rw [restoreIn]
          cases fileStep target faults.restore with
          | error err =>
              refine .inr (hleft rfl ?_)
              dsimp only [dropIn]
              rw [setTable_setTable, setTable_eq_self hnone]
          | ok =>
              dsimp only
              rw [restoreTable, hname, setTable_setTable]
              cases faults.save with
              | some err =>
                  refine .inr (hleft ?_ ?_)
                  · show Function.update (Function.update catalog.metadata name _) name (some source.name) = _
                    rw [Function.update_idem, ← hsource, Function.update_eq_self]
                  · show ((catalog.setTable target name (some table)).setTable target name none).engines = _
                    rw [setTable_setTable, setTable_eq_self hnone]
              | none =>
                  dsimp only [saveOr]
                  rw [getEngine_kind]
                  have hother : target ≠ source := by
                    rintro rfl
                    rw [hheld] at hnone
                    cases hnone
                  refine .inl ⟨rfl, target, hgiven, ?_, ?_, ?_⟩
                  · show ((catalog.setTable target name (some table)).setTable source name none).engines target name = _
                    rw [setTable_of_ne _ (.inl hother), setTable_self]
                  · show Function.update catalog.metadata name (some (normalizeEngineName targetEngine)) name = _
                    rw [Function.update_self, getEngine_eq_ok.mp hgiven]
                  · show ((catalog.setTable target name (some table)).setTable source name none).engines source name = _
                    rw [setTable_self]

end

/-- A catalog on an empty directory with a table in memory. -/
def stocked : Catalog :=
  (openSaved none "memory" fun _ => none).callFailing (.none, .createTable "t" [.new "a" .integer] none)

theorem stocked_occurs : stocked.Occurs :=
  ⟨none, "memory", fun _ => none, nofun, .single _ trivial⟩

/-- A migration to disk whose catalog file cannot be saved. -/
theorem migrateTable_atomic_unsaved :
    let outcome := stocked.migrateTableFailing { FileFaults.none with save := some (.internal "disk full") } "t" "Disk"
    (outcome.1 = .ok () ∧ ∃ target, getEngine "Disk" = .ok target ∧
        outcome.2.engines target "t" = some (Table.new "t" [.new "a" .integer]) ∧
          outcome.2.metadata "t" = some target.name ∧ outcome.2.engines .memory "t" = none) ∨
      (∃ err, outcome.1 = .error err) ∧ outcome.2.metadata = stocked.metadata ∧ outcome.2.engines = stocked.engines ∧
        ∀ target, getEngine "Disk" = .ok target → outcome.2.engines target "t" = none :=
  migrateTable_atomic stocked_occurs rfl rfl (fun target htarget => by
    obtain rfl : EngineKind.disk = target := Except.ok.inj htarget
    rfl) _

end Catalog

end HelionDb
