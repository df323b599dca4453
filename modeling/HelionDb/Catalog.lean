import HelionDb.Mvcc
import Mathlib.Data.List.DropRight

/-! The catalog and the two built-in storage engines. An engine is the map from names to tables it
serves reads from; what the disk engine finds in its files when it starts is a parameter. -/

namespace HelionDb

inductive EngineKind where
  | memory
  | disk
  deriving DecidableEq, Repr

def EngineKind.name : EngineKind → String
  | .memory => "memory"
  | .disk => "disk"

/-- `char::is_whitespace`: the Unicode property White_Space. -/
def isWhitespace (c : Char) : Bool :=
  (0x09 ≤ c.toNat && c.toNat ≤ 0x0D) || (0x2000 ≤ c.toNat && c.toNat ≤ 0x200A) ||
    [0x20, 0x85, 0xA0, 0x1680, 0x2028, 0x2029, 0x202F, 0x205F, 0x3000].contains c.toNat

/-- `str::trim`. -/
def trim (chars : List Char) : List Char := (chars.dropWhile isWhitespace).rdropWhile isWhitespace

/-- `normalize_engine_name`: `trim` and `to_ascii_lowercase`. -/
def normalizeEngineName (engine : String) : String :=
  String.ofList ((trim engine.toList).map Char.toLower)

section Normalize

private theorem toNat_toLower (c : Char) :
    c.toLower.toNat = if 65 ≤ c.toNat ∧ c.toNat ≤ 90 then c.toNat + 32 else c.toNat := by
  unfold Char.toLower
  have hupper : (c.val ≥ 'A'.val ∧ c.val ≤ 'Z'.val) ↔ (65 ≤ c.toNat ∧ c.toNat ≤ 90) := by
    simp only [ge_iff_le, UInt32.le_iff_toNat_le]
    rfl
  split
  · rename_i h
    rw [if_pos (hupper.mp h)]
    change (c.val + (97 - 65)).toNat = c.val.toNat + 32
    have hle : c.toNat ≤ 90 := (hupper.mp h).2
    simp [UInt32.toNat_add]
    omega
  · rename_i h
    rw [if_neg fun hrange => h (hupper.mpr hrange)]

private theorem toLower_toLower (c : Char) : c.toLower.toLower = c.toLower := by
  apply Char.toNat_inj.mp
  rw [toNat_toLower, toNat_toLower]
  split_ifs <;> omega

private theorem isWhitespace_of_between {c : Char} (hlow : 0x20 < c.toNat) (hhigh : c.toNat < 0x85) :
    isWhitespace c = false := by
  simp [isWhitespace]
  omega

private theorem isWhitespace_toLower (c : Char) : isWhitespace c.toLower = isWhitespace c := by
  have hlower := toNat_toLower c
  by_cases hupper : 65 ≤ c.toNat ∧ c.toNat ≤ 90
  · rw [if_pos hupper] at hlower
    rw [isWhitespace_of_between (by omega) (by omega), isWhitespace_of_between (by omega) (by omega)]
  · rw [if_neg hupper] at hlower
    rw [Char.toNat_inj.mp hlower]

private theorem trim_map_toLower (chars : List Char) :
    trim (chars.map Char.toLower) = (trim chars).map Char.toLower := by
  have hcomp : isWhitespace ∘ Char.toLower = isWhitespace := funext isWhitespace_toLower
  rw [trim, trim, List.dropWhile_map, hcomp, List.rdropWhile, List.rdropWhile, ← List.map_reverse,
    List.dropWhile_map, hcomp, List.map_reverse]

private theorem trim_trim (chars : List Char) : trim (trim chars) = trim chars := by
  have hhead : (trim chars).dropWhile isWhitespace = trim chars := by
    rw [List.dropWhile_eq_self_iff]
    intro hlength
    have hleads : trim chars <+: chars.dropWhile isWhitespace := List.rdropWhile_prefix _ _
    have hself := List.dropWhile_eq_self_iff.mp (List.dropWhile_idempotent isWhitespace chars)
    have hnot := hself (hlength.trans_le hleads.length_le)
    rwa [← hleads.getElem hlength] at hnot
  rw [trim, hhead, trim, List.rdropWhile_idempotent]

/-- Normalizing twice is normalizing once. -/
@[simp] theorem normalizeEngineName_idem (engine : String) :
    normalizeEngineName (normalizeEngineName engine) = normalizeEngineName engine := by
  have hmap : ((trim engine.toList).map Char.toLower).map Char.toLower =
      (trim engine.toList).map Char.toLower := by
    rw [List.map_map]
    exact List.map_congr_left fun c _ => toLower_toLower c
  simp only [normalizeEngineName, String.toList_ofList]
  rw [trim_map_toLower, trim_trim, hmap]

end Normalize

/-- `CatalogData`: what `save` writes, the engine of each table and the default one. -/
structure CatalogData where
  defaultEngine : String
  tables : String → Option String

/-- `Catalog`. A table's metadata is the name of its engine. -/
structure Catalog where
  metadata : String → Option String
  engines : EngineKind → String → Option Table
  defaultEngine : String
  saved : Option CatalogData

namespace Catalog

/-- `Catalog::open`: the memory engine starts empty, the disk engine with what it loads. -/
def openSaved (saved : Option CatalogData) (defaultEngine : String) (loaded : String → Option Table) : Catalog :=
  let engines : EngineKind → String → Option Table
    | .memory => fun _ => none
    | .disk => loaded
  match saved with
  | some data =>
      { metadata := fun name => (data.tables name).map normalizeEngineName, engines,
        defaultEngine := normalizeEngineName data.defaultEngine, saved }
  | none =>
      { metadata := fun _ => none, engines, defaultEngine := normalizeEngineName defaultEngine, saved }

/-- The built-in engine of a name. -/
def engineNamed (name : String) : Option EngineKind :=
  if name = EngineKind.memory.name then some .memory
  else if name = EngineKind.disk.name then some .disk
  else none

/-- `Catalog::get_engine`. -/
def getEngine (name : String) : Except HelionError EngineKind :=
  match engineNamed (normalizeEngineName name) with
  | some kind => .ok kind
  | none => .error (.internal ("Unknown engine: " ++ normalizeEngineName name))

/-- `Catalog::get_table_engine`. -/
def getTableEngine (catalog : Catalog) (tableName : String) : Except HelionError EngineKind :=
  match catalog.metadata tableName with
  | none => .error (.tableNotFound tableName)
  | some engineName =>
      match engineNamed engineName with
      | some kind => .ok kind
      | none =>
          .error (.internal ("Engine '" ++ engineName ++ "' not found for table '" ++ tableName ++ "'"))

theorem engineNamed_eq_some {name : String} {kind : EngineKind} :
    engineNamed name = some kind ↔ name = kind.name := by
  unfold engineNamed
  constructor
  · intro h
    split at h
    · rename_i hname
      cases h
      exact hname
    · split at h
      · rename_i hname
        cases h
        exact hname
      · cases h
  · rintro rfl
    cases kind <;> decide

theorem getEngine_eq_ok {name : String} {kind : EngineKind} :
    getEngine name = .ok kind ↔ normalizeEngineName name = kind.name := by
  unfold getEngine
  rw [← engineNamed_eq_some]
  split
  · rename_i found hfound
    simp [hfound]
  · rename_i hnone
    simp [hnone]

@[simp] theorem normalizeEngineName_kind (kind : EngineKind) : normalizeEngineName kind.name = kind.name := by
  cases kind <;> decide

/-- The engine a commit and a restart use for a table: its own, or the default one. -/
def routeOf (catalog : Catalog) (tableName : String) : Except HelionError EngineKind :=
  getEngine ((catalog.metadata tableName).getD catalog.defaultEngine)

/-- `Catalog::save`. -/
def save (catalog : Catalog) : Catalog :=
  { catalog with saved := some { defaultEngine := catalog.defaultEngine, tables := catalog.metadata } }

/-- Put a table into an engine's map, or take it out. -/
def setTable (catalog : Catalog) (kind : EngineKind) (name : String) (table : Option Table) : Catalog :=
  { catalog with
    engines := Function.update catalog.engines kind (Function.update (catalog.engines kind) name table) }

@[simp] theorem setTable_self (catalog : Catalog) (kind : EngineKind) (name : String) (table : Option Table) :
    (catalog.setTable kind name table).engines kind name = table := by
  simp [setTable]

theorem setTable_of_ne (catalog : Catalog) {kind other : EngineKind} {name otherName : String}
    (hne : other ≠ kind ∨ otherName ≠ name) (table : Option Table) :
    (catalog.setTable kind name table).engines other otherName = catalog.engines other otherName := by
  by_cases hkind : other = kind
  · subst hkind
    simp [setTable, hne.resolve_left (not_not.mpr rfl)]
  · simp [setTable, hkind]

theorem isSome_setTable_self (catalog : Catalog) (kind : EngineKind) (name : String) (table : Table) :
    ((catalog.setTable kind name (some table)).engines kind name).isSome := by
  rw [setTable_self]
  rfl

theorem isSome_setTable_of_ne {catalog : Catalog} {kind other : EngineKind} {name otherName : String}
    (hheld : (catalog.engines other otherName).isSome) (hne : other ≠ kind ∨ otherName ≠ name)
    (table : Option Table) : ((catalog.setTable kind name table).engines other otherName).isSome := by
  rw [setTable_of_ne catalog hne]
  exact hheld

/-- Storing a table loses none. -/
theorem isSome_setTable {catalog : Catalog} {other : EngineKind} {otherName : String}
    (hheld : (catalog.engines other otherName).isSome) (kind : EngineKind) (name : String) (table : Table) :
    ((catalog.setTable kind name (some table)).engines other otherName).isSome := by
  by_cases hsame : other = kind ∧ otherName = name
  · obtain ⟨rfl, rfl⟩ := hsame
    exact isSome_setTable_self catalog _ _ table
  · exact isSome_setTable_of_ne hheld (not_and_or.mp hsame) _

theorem getTableEngine_of_metadata {catalog : Catalog} {name : String} {kind : EngineKind}
    (hmetadata : catalog.metadata name = some kind.name) : catalog.getTableEngine name = .ok kind := by
  simp [getTableEngine, hmetadata, engineNamed_eq_some.mpr rfl]

theorem getEngine_kind (kind : EngineKind) : getEngine kind.name = .ok kind :=
  getEngine_eq_ok.mpr (normalizeEngineName_kind kind)

/-- `Catalog::create_table`. -/
def createTable (catalog : Catalog) (name : String) (columns : List ColumnMeta) (engineName : String) :
    Except HelionError Catalog :=
  match getEngine engineName with
  | .error err => .error err
  | .ok kind =>
      let stored := catalog.setTable kind name (some (Table.new name columns))
      .ok { stored with
        metadata := Function.update catalog.metadata name (some (normalizeEngineName engineName)) }.save

/-- `Catalog::drop_table`. -/
def dropTable (catalog : Catalog) (name : String) : Except HelionError Catalog :=
  match catalog.getTableEngine name with
  | .error err => .error err
  | .ok kind =>
      .ok { catalog.setTable kind name none with
        metadata := Function.update catalog.metadata name none }.save

/-- `Catalog::migrate_table`. -/
def migrateTable (catalog : Catalog) (name targetEngine : String) : Loop.Outcome HelionError Catalog :=
  let targetEngine := normalizeEngineName targetEngine
  match catalog.metadata name with
  | none => (.error (.tableNotFound name), catalog)
  | some currentEngineName =>
      if currentEngineName = targetEngine then (.ok (), catalog)
      else
        match catalog.getTableEngine name with
        | .error err => (.error err, catalog)
        | .ok current =>
            match catalog.engines current name with
            | none => (.error (.tableNotFound name), catalog)
            | some snapshot =>
                match getEngine targetEngine with
                | .error err => (.error err, catalog)
                | .ok target =>
                    let created := catalog.setTable target name (some (Table.new name snapshot.columns))
                    let restored := created.setTable target snapshot.name (some snapshot)
                    let saved :=
                      { restored with
                        metadata := Function.update catalog.metadata name (some targetEngine) }.save
                    match getEngine currentEngineName with
                    | .error err => (.error err, saved)
                    | .ok old => (.ok (), saved.setTable old name none)

/-- `StorageEngine::restore_table` on the engine of a kind. -/
def restoreTable (catalog : Catalog) (kind : EngineKind) (table : Table) : Catalog :=
  catalog.setTable kind table.name (some table)

/-- `StorageEngine::apply_write_set` on the engine of a kind. -/
def applyChanges (catalog : Catalog) (kind : EngineKind) (name : String) (changes : List (Nat × RowVersion)) :
    Loop.Outcome HelionError Catalog :=
  match catalog.engines kind name with
  | none => (.error (.tableNotFound name), catalog)
  | some table =>
      let chains := changes.foldl
        (fun chains change => placeVersion change.2.txidMin chains change) table.versionChains
      (.ok (), catalog.setTable kind name (some { table with versionChains := chains }))

/-- The engine that a table's metadata routes to holds a table of that name. -/
def Holds (catalog : Catalog) (name : String) : Prop :=
  ∃ kind, catalog.routeOf name = .ok kind ∧ (catalog.engines kind name).isSome

instance (catalog : Catalog) (name : String) : Decidable (catalog.Holds name) :=
  match h : catalog.routeOf name with
  | .ok kind =>
      decidable_of_iff ((catalog.engines kind name).isSome = true)
        ⟨fun hsome => ⟨kind, h, hsome⟩, fun ⟨_, hroute, hsome⟩ => by
          rw [h] at hroute
          cases hroute
          exact hsome⟩
  | .error err => .isFalse fun ⟨_, hroute, _⟩ => by
      rw [h] at hroute
      cases hroute

end Catalog

end HelionDb
