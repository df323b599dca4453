import HelionDb.DiskReload

/-! Flushes of the disk engine that stop between two of their file operations. A flush writes the base of a table under a
temporary name, which the loader passes over, gives it its own name, and then removes deltas. The base is named by the last
transaction that has written to the table, so that none of the deltas that are left is read again. -/

namespace HelionDb

namespace TableDir

section

variable {dir : TableDir} {txids : List Nat} {table : Table}

/-- What is loaded has a last writer that is not older than any of the deltas. -/
theorem le_lastWriter_loadedChains (hkept : dir.WellKept txids) {delta : Nat × List (Nat × RowVersion)}
    (hdelta : delta ∈ dir.deltas) : delta.1 ≤ lastWriter dir.loadedChains := by
  by_cases hnewer : dir.latestBase.1 < delta.1
  · have hmem : delta ∈ dir.newerDeltas := mem_newerDeltas.mpr ⟨hdelta, hnewer⟩
    obtain ⟨before, last, hlast⟩ := List.eq_nil_or_concat dir.newerDeltas |>.resolve_left (List.ne_nil_of_mem hmem)
    rw [List.concat_eq_append] at hlast
    have hpairwise := pairwise_newerDeltas hkept.nodup
    rw [hlast, List.pairwise_append] at hpairwise
    rw [hlast, List.mem_append, List.mem_singleton] at hmem
    have hle : delta.1 ≤ last.1 := by
      rcases hmem with hbefore | rfl
      · exact (hpairwise.2.2 delta hbefore last (List.mem_singleton_self _)).le
      · exact le_rfl
    have hold : last ∈ dir.deltas := (mem_newerDeltas.mp (hlast ▸ List.mem_append_right _ (List.mem_singleton_self _))).1
    obtain ⟨hne, hwriter⟩ := hkept.deltas last hold
    have hloaded : dir.loadedChains = replay (replay dir.baseChains (changesOf before)) last.2 := by
      rw [loadedChains, hlast, changesOf_append, replay_append]
      exact congrArg (replay _) (List.flatMap_singleton _ _)
    rw [hloaded]
    apply hle.trans
    exact le_lastWriter_replay hne fun change hchange => (hwriter change hchange).ge
  · exact (Nat.le_of_not_lt hnewer).trans (latestBase_le_lastWriter hkept.named)

/-- Once the base of its rows is written, a directory gives them back with any of its deltas. -/
theorem loadedChains_writeBase (hkept : dir.WellKept txids) (hloaded : dir.loadedChains = table.versionChains)
    {deltas : List (Nat × List (Nat × RowVersion))} (hdeltas : deltas.Sublist dir.deltas) :
    ({ dir.writeBase table with deltas := deltas } : TableDir).loadedChains = table.versionChains := by
  have hwritten : (lastWriter table.versionChains, table) ∈ ({ dir.writeBase table with deltas := deltas } : TableDir).bases :=
    List.mem_append_right _ (List.mem_singleton_self _)
  have hnewer : ({ dir.writeBase table with deltas := deltas } : TableDir).newerDeltas = [] := by
    apply List.eq_nil_iff_forall_not_mem.mpr
    intro delta hdelta
    obtain ⟨hmem, hlt⟩ := mem_newerDeltas.mp hdelta
    have hold := le_lastWriter_loadedChains hkept (hdeltas.subset hmem)
    rw [hloaded] at hold
    exact absurd hlt (Nat.not_lt.mpr (hold.trans (le_latestBase hwritten)))
  calc
    _ = replay ({ dir.writeBase table with deltas := deltas } : TableDir).baseChains [] := by rw [loadedChains, hnewer]; rfl
    _ = ((dir.writeBase table).cleanDeltas).loadedChains := rfl
    _ = table.versionChains := loadedChains_flushed hkept hloaded

theorem WellKept.writeBase (h : dir.WellKept txids) (table : Table) {deltas : List (Nat × List (Nat × RowVersion))}
    (hdeltas : deltas.Sublist dir.deltas) : ({ dir.writeBase table with deltas := deltas } : TableDir).WellKept txids := by
  refine ⟨(h.flushed table).bases, ?_, (hdeltas.map Prod.fst).nodup h.nodup, ?_⟩
  · exact fun delta hdelta => h.deltas delta (hdeltas.subset hdelta)
  · exact fun delta hdelta => h.used delta (hdeltas.subset hdelta)

end

end TableDir

/-! ### File operations -/

/-- A file operation of `flush` in the directory of a table. -/
inductive FlushOp where
  | writeTmp (table : Table)
  | rename
  | removeDelta (txid : Nat)

/-- The files of a table with the temporary base, which has the name of the base and `.tmp` behind it. -/
structure FlushDir where
  dir : TableDir
  tmp : Option Table

namespace FlushDir

/-- What an operation leaves. A base replaces the one of its name. -/
def run (files : FlushDir) : FlushOp → FlushDir
  | .writeTmp table => { files with tmp := some table }
  | .rename =>
      match files.tmp with
      | some table => { dir := files.dir.writeBase table, tmp := none }
      | none => files
  | .removeDelta txid =>
      { files with dir := { files.dir with deltas := files.dir.deltas.filter fun delta => delta.1 ≠ txid } }

/-- The operations of `write_base` and those of `clean_deltas`, which remove some deltas in the order of the directory.
A delta that cannot be removed is left without an error. -/
def flushOps (table : Table) (removed : List Nat) : List FlushOp :=
  .writeTmp table :: .rename :: removed.map .removeDelta

section

variable {files : FlushDir} {dir : TableDir} {table : Table} {removed : List Nat} {ops : List FlushOp}

theorem foldl_removeDelta (files : FlushDir) (removed : List Nat) :
    (removed.map FlushOp.removeDelta).foldl run files =
      { files with dir := { files.dir with deltas := files.dir.deltas.filter fun delta => delta.1 ∉ removed } } := by
  induction removed generalizing files with
  | nil => simp
  | cons txid rest ih =>
      rw [List.map_cons, List.foldl_cons, ih]
      simp only [run, List.filter_filter, List.mem_cons, not_or, ← Bool.decide_and]
      simp only [and_comm]

/-- Before the base has its name the directory is as it was, and from then on it has the base and some of its deltas. -/
theorem foldl_flushOps (hops : ops <+: flushOps table removed) :
    (ops.foldl run { dir := dir, tmp := none }).dir = dir ∨
      ∃ deltas, deltas.Sublist dir.deltas ∧
        (ops.foldl run { dir := dir, tmp := none }).dir = { dir.writeBase table with deltas := deltas } := by
  match ops, hops with
  | [], _ => exact .inl rfl
  | [first], hops =>
      obtain ⟨rfl, -⟩ := List.cons_prefix_cons.mp hops
      exact .inl rfl
  | first :: second :: rest, hops =>
      obtain ⟨rfl, htail⟩ := List.cons_prefix_cons.mp hops
      obtain ⟨rfl, hrest⟩ := List.cons_prefix_cons.mp htail
      obtain ⟨done, -, rfl⟩ := List.prefix_map_iff.mp hrest
      rw [List.foldl_cons, List.foldl_cons, foldl_removeDelta]
      exact .inr ⟨_, List.filter_sublist, rfl⟩

/-- All operations, with all deltas removed, are the flush. -/
theorem foldl_flushOps_all :
    ((flushOps table (dir.deltas.map Prod.fst)).foldl run { dir := dir, tmp := none }).dir =
      (dir.writeBase table).cleanDeltas := by
  rw [flushOps, List.foldl_cons, List.foldl_cons, foldl_removeDelta]
  have hnone : (dir.deltas.filter fun delta => delta.1 ∉ dir.deltas.map Prod.fst) = [] := by
    apply List.filter_eq_nil_iff.mpr
    intro delta hdelta
    simpa using ⟨delta.2, hdelta⟩
  simp only [TableDir.cleanDeltas, TableDir.writeBase, run]
  exact congrArg (fun deltas => TableDir.mk _ _ deltas) hnone

end

end FlushDir

namespace DiskEngine

/-- The operations of `flush` table by table. -/
def flushOps (engine : DiskEngine) (order : List String) (removed : String → List Nat) : List (String × FlushOp) :=
  order.flatMap fun name => ((engine.tables name).toList.flatMap fun table => FlushDir.flushOps table (removed name)).map (name, ·)

/-- The directories after some file operations. -/
def runOps (dirs : String → FlushDir) (ops : List (String × FlushOp)) : String → FlushDir :=
  ops.foldl (fun dirs op => Function.update dirs op.1 ((dirs op.1).run op.2)) dirs

/-- The engine after some operations of a flush, the tables in memory as they were. -/
def stopped (engine : DiskEngine) (ops : List (String × FlushOp)) : DiskEngine :=
  { engine with dirs := fun name => (runOps (fun name => { dir := engine.dirs name, tmp := none }) ops name).dir }

section

variable {engine : DiskEngine} {order : List String} {removed : String → List Nat} {ops : List (String × FlushOp)}

/-- The operations of one directory. -/
def opsOf (name : String) (ops : List (String × FlushOp)) : List FlushOp :=
  ops.filterMap fun op => if op.1 = name then some op.2 else none

theorem runOps_apply (dirs : String → FlushDir) (ops : List (String × FlushOp)) (name : String) :
    runOps dirs ops name = (opsOf name ops).foldl FlushDir.run (dirs name) := by
  unfold runOps opsOf
  induction ops generalizing dirs with
  | nil => rfl
  | cons op rest ih =>
      rw [List.foldl_cons, ih]
      by_cases hname : op.1 = name
      · subst hname
        simp
      · simp [hname, Function.update_of_ne (Ne.symm hname)]

theorem opsOf_append (name : String) (first second : List (String × FlushOp)) :
    opsOf name (first ++ second) = opsOf name first ++ opsOf name second := List.filterMap_append

theorem opsOf_map_self (name : String) (ops : List FlushOp) : opsOf name (ops.map (name, ·)) = ops := by
  simp [opsOf, List.filterMap_map]

theorem opsOf_map_of_ne {name other : String} (hother : other ≠ name) (ops : List FlushOp) :
    opsOf name (ops.map (other, ·)) = [] := by
  simp [opsOf, List.filterMap_map, hother]

/-- In the directory of each table there are the operations of this table. -/
theorem opsOf_flushOps (horder : order.Nodup) (name : String) :
    opsOf name (engine.flushOps order removed) =
      if name ∈ order then (engine.tables name).toList.flatMap fun table => FlushDir.flushOps table (removed name) else [] := by
  induction order with
  | nil => rfl
  | cons first rest ih =>
      obtain ⟨hfirst, hrest⟩ := List.nodup_cons.mp horder
      rw [flushOps, List.flatMap_cons, opsOf_append, ← flushOps, ih hrest]
      by_cases hname : first = name
      · subst hname
        rw [opsOf_map_self, if_neg hfirst, if_pos List.mem_cons_self, List.append_nil]
      · rw [opsOf_map_of_ne hname, List.nil_append]
        simp [Ne.symm hname]

theorem opsOf_prefix (hops : ops <+: engine.flushOps order removed) (name : String) :
    opsOf name ops <+: opsOf name (engine.flushOps order removed) := by
  obtain ⟨rest, hrest⟩ := hops
  rw [← hrest, opsOf_append]
  exact List.prefix_append _ _

theorem stopped_dirs (engine : DiskEngine) (ops : List (String × FlushOp)) (name : String) :
    (engine.stopped ops).dirs name = ((opsOf name ops).foldl FlushDir.run { dir := engine.dirs name, tmp := none }).dir :=
  congrArg FlushDir.dir (runOps_apply _ _ _)

/-- A flush that does not stop and removes all deltas of all tables. -/
theorem stopped_flushOps (horder : order.Nodup) (hall : ∀ name, engine.tables name ≠ none → name ∈ order) :
    engine.stopped (engine.flushOps order fun name => (engine.dirs name).deltas.map Prod.fst) = engine.flush := by
  unfold flush
  rw [stopped]
  congr
  funext name
  rw [runOps_apply, opsOf_flushOps horder]
  cases htable : engine.tables name with
  | none => simp
  | some table =>
      rw [if_pos (hall name (by simp [htable])), Option.toList_some, List.flatMap_singleton]
      exact FlushDir.foldl_flushOps_all

end

/-! ### Tables that are built -/

/-- An engine whose tables are built by calls on an empty directory: each is created once and then written to, by
transactions of ascending ids from 1 on. In between there are flushes, which may stop before all is done. -/
inductive Built : DiskEngine → (String → Nat) → Prop
  | opened : Built opened fun _ => 0
  | createTable {engine : DiskEngine} {last : String → Nat} {name : String} (h : Built engine last)
      (hnew : engine.tables name = none) (columns : List ColumnMeta) : Built (engine.createTable name columns) last
  | applyWriteSet {engine : DiskEngine} {last : String → Nat} {name : String} {changes : List (Nat × RowVersion)} {txid : Nat}
      (h : Built engine last) (htable : engine.tables name ≠ none) (hne : changes ≠ [])
      (hwriter : ∀ change ∈ changes, change.2.txidMin = txid) (hlater : last name < txid) :
      Built (engine.applyWriteSet name changes).2 (Function.update last name txid)
  | flush {engine : DiskEngine} {last : String → Nat} (h : Built engine last) : Built engine.flush last
  | stopped {engine : DiskEngine} {last : String → Nat} {order : List String} {removed : String → List Nat}
      {ops : List (String × FlushOp)} (h : Built engine last) (horder : order.Nodup)
      (hops : ops <+: engine.flushOps order removed) : Built (engine.stopped ops) last

end DiskEngine

namespace TableDir

/-- What holds of the directory of a table that is built: a new one has no files, an old one gives its rows back, and no
transaction is later than the last one. -/
structure Ascending (dir : TableDir) (table : Option Table) (last : Nat) : Prop where
  kept : dir.WellKept (List.range (last + 1))
  files : table = none → dir = .empty
  reloads : ∀ found, table = some found → dir.Reloads found.versionChains
  writer : ∀ found, table = some found → lastWriter found.versionChains ≤ last

section

variable {dir : TableDir} {table : Table} {last : Nat}

theorem ascending_empty (last : Nat) : TableDir.empty.Ascending none last :=
  ⟨⟨by simp [empty], by simp [empty], List.nodup_nil, by simp [empty]⟩, fun _ => rfl, by simp, by simp⟩

theorem Ascending.createTable {dir : TableDir} (h : dir.Ascending none last) (name : String) (columns : List ColumnMeta) :
    ({ dir with schema := some (name, columns) } : TableDir).Ascending (some (Table.new name columns)) last := by
  rw [h.files rfl]
  refine ⟨⟨by simp [empty], by simp [empty], List.nodup_nil, by simp [empty]⟩, by simp, ?_, ?_⟩
  · rintro found ⟨⟩
    rw [reloads_iff, Table.new_versionChains]
    exact ⟨rfl, rfl⟩
  · rintro found ⟨⟩
    rw [Table.new_versionChains]
    exact Nat.zero_le _

/-- The delta of a later transaction is the last one that the loader applies. -/
theorem Ascending.writeDelta (h : dir.Ascending (some table) last) {changes : List (Nat × RowVersion)} {txid : Nat}
    (hne : changes ≠ []) (hwriter : ∀ change ∈ changes, change.2.txidMin = txid) (hlater : last < txid) :
    (dir.writeDelta changes txid).Ascending
      (some { table with versionChains := replay table.versionChains changes }) txid := by
  obtain ⟨hschema, hloaded⟩ := reloads_iff.mp (h.reloads table rfl)
  have hused : ∀ delta ∈ dir.deltas, delta.1 < txid := by
    intro delta hdelta
    have hlast := List.mem_range.mp (h.kept.used delta hdelta)
    omega
  have hfresh : txid ∉ dir.deltas.map Prod.fst := by
    intro hmem
    obtain ⟨delta, hdelta, rfl⟩ := List.mem_map.mp hmem
    exact Nat.lt_irrefl _ (hused delta hdelta)
  refine ⟨?_, by simp, ?_, ?_⟩
  · refine (h.kept.writeDelta (fun hmem => absurd (List.mem_range.mp hmem) (by omega)) hne hwriter).mono ?_
    intro used hmem
    simp only [List.mem_append, List.mem_range, List.mem_singleton] at hmem ⊢
    omega
  · rintro found ⟨⟩
    rw [reloads_iff]
    refine ⟨by rw [writeDelta_of_fresh hfresh]; exact hschema, ?_⟩
    rw [← hloaded, loadedChains_writeDelta_iff h.kept hfresh hne hwriter]
    constructor
    · have hbase := latestBase_le_lastWriter h.kept.named
      rw [hloaded] at hbase
      exact (hbase.trans (h.writer table rfl)).trans_lt hlater
    · intro change _ other hother
      obtain ⟨delta, hdelta, -⟩ := List.mem_flatMap.mp hother
      obtain ⟨hmem, hlt⟩ := List.mem_filter.mp hdelta
      exact absurd (of_decide_eq_true hlt) (Nat.lt_asymm (hused delta (mem_newerDeltas.mp hmem).1))
  · rintro found ⟨⟩
    exact lastWriter_replay_le ((h.writer table rfl).trans hlater.le) fun change hchange => (hwriter change hchange).le

/-- A flush keeps this wherever it stops. -/
theorem Ascending.flushed (h : dir.Ascending (some table) last) {flushed : TableDir}
    (hflushed : flushed = dir ∨
      ∃ deltas, deltas.Sublist dir.deltas ∧ flushed = { dir.writeBase table with deltas := deltas }) :
    flushed.Ascending (some table) last := by
  rcases hflushed with rfl | ⟨deltas, hdeltas, rfl⟩
  · exact h
  · obtain ⟨hschema, hloaded⟩ := reloads_iff.mp (h.reloads table rfl)
    refine ⟨h.kept.writeBase table hdeltas, by simp, ?_, h.writer⟩
    rintro found ⟨⟩
    exact reloads_iff.mpr ⟨hschema, loadedChains_writeBase h.kept hloaded hdeltas⟩

end

end TableDir

namespace DiskEngine

section

variable {engine : DiskEngine} {last : String → Nat} {order : List String} {removed : String → List Nat}
  {ops : List (String × FlushOp)}

theorem stopped_dirs_cases {name : String} {table : Table} (horder : order.Nodup)
    (hops : ops <+: engine.flushOps order removed) (htable : engine.tables name = some table) :
    (engine.stopped ops).dirs name = engine.dirs name ∨
      ∃ deltas, deltas.Sublist (engine.dirs name).deltas ∧
        (engine.stopped ops).dirs name = { (engine.dirs name).writeBase table with deltas := deltas } := by
  have hname := opsOf_prefix hops name
  rw [opsOf_flushOps horder, htable, Option.toList_some, List.flatMap_singleton] at hname
  rw [stopped_dirs]
  split at hname
  · exact FlushDir.foldl_flushOps hname
  · rw [List.prefix_nil.mp hname]
    exact .inl rfl

theorem stopped_dirs_of_none {name : String} (horder : order.Nodup) (hops : ops <+: engine.flushOps order removed)
    (htable : engine.tables name = none) : (engine.stopped ops).dirs name = engine.dirs name := by
  have hname := opsOf_prefix hops name
  rw [opsOf_flushOps horder, htable] at hname
  have hnone : opsOf name ops = [] := by simpa using hname
  rw [stopped_dirs, hnone]
  rfl

theorem Built.ascending (h : Built engine last) (name : String) :
    (engine.dirs name).Ascending (engine.tables name) (last name) := by
  induction h with
  | opened => exact TableDir.ascending_empty 0
  | @createTable engine last created h hnew columns ih =>
      change ((engine.withTable created _ (some (Table.new created columns))).dirs name).Ascending
        ((engine.withTable created _ _).tables name) _
      by_cases hname : name = created
      · rw [hname, withTable_dirs_self, withTable_tables_self]
        rw [hname, hnew] at ih
        exact ih.createTable created columns
      · rw [withTable_dirs_of_ne hname, withTable_tables_of_ne hname]
        exact ih
  | @applyWriteSet engine last written changes txid h htable hne hwriter hlater ih =>
      change ((engine.step (.applyWriteSet written changes)).dirs name).Ascending
        ((engine.step (.applyWriteSet written changes)).tables name) _
      rw [step_applyWriteSet hne hwriter]
      change ((engine.withTable written _ _).dirs name).Ascending ((engine.withTable written _ _).tables name) _
      by_cases hname : name = written
      · obtain ⟨table, hfound⟩ := Option.ne_none_iff_exists'.mp htable
        rw [hname, withTable_dirs_self, withTable_tables_self, Function.update_self, hfound]
        rw [hname, hfound] at ih
        exact ih.writeDelta hne hwriter hlater
      · rw [withTable_dirs_of_ne hname, withTable_tables_of_ne hname, Function.update_of_ne hname]
        exact ih
  | @flush engine last h ih =>
      change (match engine.tables name with
        | some table => ((engine.dirs name).writeBase table).cleanDeltas
        | none => engine.dirs name).Ascending (engine.tables name) _
      cases htable : engine.tables name with
      | none =>
          rw [htable] at ih
          exact ih
      | some table =>
          rw [htable] at ih
          exact ih.flushed (.inr ⟨[], List.nil_sublist _, rfl⟩)
  | @stopped engine last order removed ops h horder hops ih =>
      change ((engine.stopped ops).dirs name).Ascending (engine.tables name) _
      cases htable : engine.tables name with
      | none =>
          rw [stopped_dirs_of_none horder hops htable]
          rw [htable] at ih
          exact ih
      | some table =>
          rw [htable] at ih
          exact ih.flushed (stopped_dirs_cases horder hops htable)

/-- A flush is crash safe: wherever it stops, loading gives every table the rows that it has in memory. -/
theorem reloads_stopped (h : Built engine last) (horder : order.Nodup) (hops : ops <+: engine.flushOps order removed) :
    (engine.stopped ops).Reloads :=
  fun name table htable => ((h.stopped horder hops).ascending name).reloads table htable

end

/-- A table with a row from before a flush and one from after it. -/
def flushedBetween : DiskEngine :=
  (((opened.createTable "t" [.new "a" .integer]).applyWriteSet "t" [insertion 0 1]).2.flush.applyWriteSet "t"
    [insertion 1 2]).2

/-- The flush stops after the second base has its name, with the first base and a delta beside it. -/
theorem reloads_stopped_renamed :
    (flushedBetween.stopped ((flushedBetween.flushOps ["t"] fun _ => [2]).take 2)).Reloads := by
  have hcreated : Built (opened.createTable "t" [.new "a" .integer]) fun _ => 0 := Built.opened.createTable rfl _
  have hinserted := @Built.applyWriteSet _ _ "t" [insertion 0 1] 1 hcreated
    (by simp [createTable]) (by simp) (by simp [insertion]; rfl) (by simp)
  have hbuilt := @Built.applyWriteSet _ _ "t" [insertion 1 2] 2 hinserted.flush
    (by decide) (by simp) (by simp [insertion]; rfl) (by simp)
  exact reloads_stopped hbuilt (List.nodup_singleton "t") (List.take_prefix _ _)

end DiskEngine

end HelionDb
