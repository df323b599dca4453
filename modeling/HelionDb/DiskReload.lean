import HelionDb.DiskEngine
import HelionDb.Wal

/-! What the disk engine loads from the files it has written. The loader applies the changes in the order of their ids and
leaves out those up to the id of the base, while memory has them in the order of the calls. So after a write whose id is
not above the base the two differ, and after a write whose id is below another one's they agree exactly where the two write
different rows. A flush keeps them equal, a new table is as empty as the directory it finds. -/

namespace HelionDb

namespace TableDir

section

variable {dir : TableDir}

theorem foldl_latest (bases : List (Nat × Table)) (start : Nat × Option Table) :
    let latest := bases.foldl (fun latest base => if latest.1 < base.1 then (base.1, some base.2) else latest) start
    start.1 ≤ latest.1 ∧ (∀ base ∈ bases, base.1 ≤ latest.1) ∧
      (latest = start ∨ ∃ base ∈ bases, start.1 < base.1 ∧ latest = (base.1, some base.2)) := by
  induction bases generalizing start with
  | nil => exact ⟨le_rfl, (fun _ h => by cases h), .inl rfl⟩
  | cons base rest ih =>
      dsimp only
      rw [List.foldl_cons]
      by_cases hnewer : start.1 < base.1
      · rw [if_pos hnewer]
        obtain ⟨hstart, hrest, hlatest⟩ := ih (base.1, some base.2)
        refine ⟨hnewer.le.trans hstart, ?_, .inr ?_⟩
        · intro other hother
          rcases List.mem_cons.mp hother with rfl | hmem
          · exact hstart
          · exact hrest other hmem
        · rcases hlatest with hsame | ⟨other, hmem, hlt, hsame⟩
          · exact ⟨base, List.mem_cons_self, hnewer, hsame⟩
          · exact ⟨other, List.mem_cons_of_mem _ hmem, hnewer.trans hlt, hsame⟩
      · rw [if_neg hnewer]
        obtain ⟨hstart, hrest, hlatest⟩ := ih start
        refine ⟨hstart, ?_, hlatest.imp_right ?_⟩
        · intro other hother
          rcases List.mem_cons.mp hother with rfl | hmem
          · exact (Nat.le_of_not_lt hnewer).trans hstart
          · exact hrest other hmem
        · rintro ⟨other, hmem, h⟩
          exact ⟨other, List.mem_cons_of_mem _ hmem, h⟩

theorem le_latestBase {base : Nat × Table} (hmem : base ∈ dir.bases) : base.1 ≤ dir.latestBase.1 :=
  (foldl_latest dir.bases (0, none)).2.1 base hmem

theorem latestBase_cases :
    dir.latestBase = (0, none) ∨ ∃ base ∈ dir.bases, 0 < base.1 ∧ dir.latestBase = (base.1, some base.2) :=
  (foldl_latest dir.bases (0, none)).2.2

/-- The rows of the table that the loader starts with. -/
def baseChains (dir : TableDir) : List Chain := (dir.latestBase.2.map (·.versionChains)).getD []

/-- The rows that the loader ends with. -/
def loadedChains (dir : TableDir) : List Chain := replay dir.baseChains (changesOf dir.newerDeltas)

theorem foldl_replay (chains : List Chain) (deltas : List (Nat × List (Nat × RowVersion))) :
    deltas.foldl (fun chains delta => replay chains delta.2) chains = replay chains (changesOf deltas) := by
  induction deltas generalizing chains with
  | nil => rfl
  | cons delta rest ih =>
      rw [List.foldl_cons, ih, ← replay_append]
      rfl

/-- The directory gives these rows back. -/
def Reloads (dir : TableDir) (chains : List Chain) : Prop :=
  ∃ loaded, dir.loadTableFromDelta = some loaded ∧ loaded.versionChains = chains

theorem reloads_iff {chains : List Chain} :
    dir.Reloads chains ↔ dir.schema.isSome = true ∧ dir.loadedChains = chains := by
  have hbase : ∀ schema : String × List ColumnMeta,
      (dir.latestBase.2.getD (Table.new schema.1 schema.2)).versionChains = dir.baseChains := by
    intro schema
    unfold baseChains
    cases dir.latestBase.2 with
    | none => exact Table.new_versionChains _ _
    | some table => rfl
  unfold Reloads loadTableFromDelta
  cases hschema : dir.schema with
  | none => simp
  | some schema =>
      simp only [Option.map_some, Option.some.injEq, exists_eq_left', Option.isSome_some, true_and, foldl_replay, hbase]
      rfl

end

/-! ### The deltas in order -/

/-- What holds of the files of a directory. A base is named by its last writer and a delta by the writer of its changes,
the deltas have different names, and these are ids of calls so far. -/
structure WellKept (dir : TableDir) (txids : List Nat) : Prop where
  bases : ∀ base ∈ dir.bases, lastWriter base.2.versionChains = base.1
  deltas : ∀ delta ∈ dir.deltas, delta.2 ≠ [] ∧ ∀ change ∈ delta.2, change.2.txidMin = delta.1
  nodup : (dir.deltas.map Prod.fst).Nodup
  used : ∀ delta ∈ dir.deltas, delta.1 ∈ txids

/-- The files are named by what they have: a base by its last writer, a delta by the writer of its changes. -/
structure Named (dir : TableDir) : Prop where
  bases : ∀ base ∈ dir.bases, lastWriter base.2.versionChains = base.1
  deltas : ∀ delta ∈ dir.deltas, ∀ change ∈ delta.2, change.2.txidMin = delta.1

section

variable {dir : TableDir} {txids : List Nat} {txid : Nat} {changes : List (Nat × RowVersion)}

theorem WellKept.named (h : dir.WellKept txids) : dir.Named := ⟨h.bases, fun delta hdelta => (h.deltas delta hdelta).2⟩

theorem mem_newerDeltas {delta : Nat × List (Nat × RowVersion)} :
    delta ∈ dir.newerDeltas ↔ delta ∈ dir.deltas ∧ dir.latestBase.1 < delta.1 := by
  rw [newerDeltas, List.mem_insertionSort, List.mem_filter, decide_eq_true_iff]

theorem pairwise_newerDeltas (hnodup : (dir.deltas.map Prod.fst).Nodup) :
    dir.newerDeltas.Pairwise fun left right => left.1 < right.1 := by
  have hle : dir.newerDeltas.Pairwise fun left right => left.1 ≤ right.1 := by
    have : Std.Total fun left right : Nat × List (Nat × RowVersion) => left.1 ≤ right.1 :=
      ⟨fun left right => Nat.le_total left.1 right.1⟩
    have : IsTrans (Nat × List (Nat × RowVersion)) fun left right => left.1 ≤ right.1 := ⟨fun _ _ _ => Nat.le_trans⟩
    exact List.pairwise_insertionSort _ _
  have hne : dir.newerDeltas.Pairwise fun left right => left.1 ≠ right.1 := by
    rw [← List.pairwise_map (f := Prod.fst) (R := (· ≠ ·))]
    have hperm := (List.perm_insertionSort (fun left right : Nat × List (Nat × RowVersion) => left.1 ≤ right.1)
      (dir.deltas.filter fun delta => dir.latestBase.1 < delta.1)).map Prod.fst
    exact hperm.nodup_iff.mpr ((List.filter_sublist.map Prod.fst).nodup hnodup)
  exact (hle.and hne).imp fun h => Nat.lt_of_le_of_ne h.1 h.2

/-- Lists of deltas in strict order are equal where they have the same deltas. -/
theorem eq_of_perm {left right : List (Nat × List (Nat × RowVersion))} (hperm : left.Perm right)
    (hleft : left.Pairwise fun first second => first.1 < second.1)
    (hright : right.Pairwise fun first second => first.1 < second.1) : left = right := by
  refine hperm.eq_of_pairwise ?_ hleft hright
  intro first second _ _ hlt hgt
  exact absurd hlt (Nat.lt_asymm hgt)

/-- The newer deltas below an id and those above it. -/
theorem newerDeltas_split (hnodup : (dir.deltas.map Prod.fst).Nodup) (hfresh : txid ∉ dir.deltas.map Prod.fst) :
    dir.newerDeltas =
      (dir.newerDeltas.filter fun delta => delta.1 < txid) ++ dir.newerDeltas.filter fun delta => txid < delta.1 := by
  have hpairwise := pairwise_newerDeltas hnodup
  have habove : (dir.newerDeltas.filter fun delta => !decide (delta.1 < txid)) =
      dir.newerDeltas.filter fun delta => txid < delta.1 := by
    apply List.filter_congr
    intro delta hdelta
    have hne : delta.1 ≠ txid := fun heq => hfresh (heq ▸ List.mem_map_of_mem (mem_newerDeltas.mp hdelta).1)
    rw [Bool.eq_iff_iff, Bool.not_eq_true', decide_eq_false_iff_not, decide_eq_true_iff]
    omega
  apply eq_of_perm _ hpairwise
  · rw [List.pairwise_append]
    refine ⟨hpairwise.filter _, hpairwise.filter _, ?_⟩
    intro first hfirst second hsecond
    have hbelow := of_decide_eq_true (List.mem_filter.mp hfirst).2
    have hover := of_decide_eq_true (List.mem_filter.mp hsecond).2
    exact hbelow.trans hover
  · rw [← habove]
    exact (List.filter_append_perm _ _).symm

theorem writeDelta_of_fresh (hfresh : txid ∉ dir.deltas.map Prod.fst) :
    dir.writeDelta changes txid = { dir with deltas := dir.deltas ++ [(txid, changes)] } := by
  apply if_neg
  rw [List.any_eq_true]
  rintro ⟨delta, hdelta, heq⟩
  exact hfresh (List.mem_map.mpr ⟨delta, hdelta, of_decide_eq_true heq⟩)

theorem newerDeltas_writeDelta_of_le (hfresh : txid ∉ dir.deltas.map Prod.fst) (hold : txid ≤ dir.latestBase.1) :
    (dir.writeDelta changes txid).newerDeltas = dir.newerDeltas := by
  rw [writeDelta_of_fresh hfresh]
  change ((dir.deltas ++ [(txid, changes)]).filter fun delta => dir.latestBase.1 < delta.1).insertionSort _ = _
  have hnone : ([(txid, changes)].filter fun delta => dir.latestBase.1 < delta.1) = [] :=
    List.filter_cons_of_neg (by simpa using hold)
  rw [List.filter_append, hnone, List.append_nil]
  rfl

theorem newerDeltas_writeDelta_of_lt (hnodup : (dir.deltas.map Prod.fst).Nodup)
    (hfresh : txid ∉ dir.deltas.map Prod.fst) (hnew : dir.latestBase.1 < txid) :
    (dir.writeDelta changes txid).newerDeltas =
      (dir.newerDeltas.filter fun delta => delta.1 < txid) ++
        (txid, changes) :: dir.newerDeltas.filter fun delta => txid < delta.1 := by
  have hpairwise := pairwise_newerDeltas hnodup
  have hwritten : ((dir.writeDelta changes txid).deltas.map Prod.fst).Nodup := by
    rw [writeDelta_of_fresh hfresh, List.map_append]
    exact hnodup.append (List.nodup_singleton _) (List.disjoint_singleton.mpr hfresh)
  apply eq_of_perm _ (pairwise_newerDeltas hwritten)
  · rw [List.pairwise_append, List.pairwise_cons]
    refine ⟨hpairwise.filter _, ⟨?_, hpairwise.filter _⟩, ?_⟩
    · intro delta hdelta
      exact of_decide_eq_true (List.mem_filter.mp hdelta).2
    · intro first hfirst second hsecond
      have hbelow := of_decide_eq_true (List.mem_filter.mp hfirst).2
      rcases List.mem_cons.mp hsecond with rfl | hmem
      · exact hbelow
      · have hover := of_decide_eq_true (List.mem_filter.mp hmem).2
        exact hbelow.trans hover
  · have hone : ([(txid, changes)].filter fun delta => dir.latestBase.1 < delta.1) = [(txid, changes)] :=
      List.filter_cons_of_pos (by simpa using hnew)
    have hsort : (dir.writeDelta changes txid).newerDeltas.Perm
        ((dir.deltas ++ [(txid, changes)]).filter fun delta => dir.latestBase.1 < delta.1) := by
      rw [writeDelta_of_fresh hfresh]
      exact List.perm_insertionSort _ _
    have hold := List.perm_insertionSort (fun left right : Nat × List (Nat × RowVersion) => left.1 ≤ right.1)
      (dir.deltas.filter fun delta => dir.latestBase.1 < delta.1)
    rw [List.filter_append, hone] at hsort
    have hsplit := (hold.symm.trans (.of_eq (newerDeltas_split hnodup hfresh))).append_right [(txid, changes)]
    refine (hsort.trans hsplit).trans ?_
    rw [List.append_assoc]
    exact (List.perm_append_singleton _ _).append_left _

/-- The rows that the loader has before the deltas from an id on. -/
def chainsBefore (dir : TableDir) (txid : Nat) : List Chain :=
  replay dir.baseChains (changesOf (dir.newerDeltas.filter fun delta => delta.1 < txid))

/-- The changes of the deltas above an id. -/
def changesAfter (dir : TableDir) (txid : Nat) : List (Nat × RowVersion) :=
  changesOf (dir.newerDeltas.filter fun delta => txid < delta.1)

theorem changesOf_append (first second : List (Nat × List (Nat × RowVersion))) :
    changesOf (first ++ second) = changesOf first ++ changesOf second := List.flatMap_append

/-- The loader gives a new delta its place, and has it last exactly where it is newer than the base and writes other rows
than the deltas above it. -/
theorem loadedChains_writeDelta_iff (hkept : dir.WellKept txids) (hfresh : txid ∉ dir.deltas.map Prod.fst)
    (hne : changes ≠ []) (hwriter : ∀ change ∈ changes, change.2.txidMin = txid) :
    (dir.writeDelta changes txid).loadedChains = replay dir.loadedChains changes ↔
      dir.latestBase.1 < txid ∧ Apart (dir.chainsBefore txid).length changes (dir.changesAfter txid) := by
  have hbase : (dir.writeDelta changes txid).baseChains = dir.baseChains := by
    rw [writeDelta_of_fresh hfresh]
    rfl
  by_cases hnew : dir.latestBase.1 < txid
  · have hwriters : ∀ change ∈ dir.changesAfter txid, change.2.txidMin ≠ txid := by
      intro change hchange
      obtain ⟨delta, hdelta, hmem⟩ := List.mem_flatMap.mp hchange
      obtain ⟨hnewer, habove⟩ := List.mem_filter.mp hdelta
      rw [(hkept.deltas delta (mem_newerDeltas.mp hnewer).1).2 change hmem]
      exact Nat.ne_of_gt (of_decide_eq_true habove)
    have hloaded : dir.loadedChains = replay (dir.chainsBefore txid) (dir.changesAfter txid) := by
      rw [loadedChains, newerDeltas_split hkept.nodup hfresh, changesOf_append, replay_append]
      rfl
    have hwritten : (dir.writeDelta changes txid).loadedChains =
        replay (replay (dir.chainsBefore txid) changes) (dir.changesAfter txid) := by
      rw [loadedChains, hbase, newerDeltas_writeDelta_of_lt hkept.nodup hfresh hnew, changesOf_append, replay_append]
      exact replay_append _ changes _
    rw [hwritten, hloaded, replay_comm_iff hwriter hwriters, and_iff_right hnew]
  · have hsame : (dir.writeDelta changes txid).loadedChains = dir.loadedChains := by
      rw [loadedChains, hbase, newerDeltas_writeDelta_of_le hfresh (Nat.le_of_not_lt hnew)]
      rfl
    rw [hsame]
    exact iff_of_false (fun heq => replay_ne_self hne heq.symm) fun h => hnew h.1

/-! ### New tables and bases -/

theorem WellKept.mono {more : List Nat} (h : dir.WellKept txids) (hmore : txids ⊆ more) : dir.WellKept more :=
  ⟨h.bases, h.deltas, h.nodup, fun delta hdelta => hmore (h.used delta hdelta)⟩

theorem WellKept.writeDelta (h : dir.WellKept txids) (hfresh : txid ∉ txids) (hne : changes ≠ [])
    (hwriter : ∀ change ∈ changes, change.2.txidMin = txid) : (dir.writeDelta changes txid).WellKept (txids ++ [txid]) := by
  have hnew : txid ∉ dir.deltas.map Prod.fst := by
    intro hmem
    obtain ⟨delta, hdelta, rfl⟩ := List.mem_map.mp hmem
    exact hfresh (h.used delta hdelta)
  rw [writeDelta_of_fresh hnew]
  refine ⟨h.bases, ?_, ?_, ?_⟩
  · intro delta hdelta
    rcases List.mem_append.mp hdelta with hold | hone
    · exact h.deltas delta hold
    · rw [List.mem_singleton.mp hone]
      exact ⟨hne, hwriter⟩
  · rw [List.map_append]
    exact h.nodup.append (List.nodup_singleton _) (List.disjoint_singleton.mpr hnew)
  · intro delta hdelta
    rcases List.mem_append.mp hdelta with hold | hone
    · exact List.mem_append_left _ (h.used delta hold)
    · rw [List.mem_singleton.mp hone]
      exact List.mem_append_right _ (List.mem_singleton_self _)

theorem WellKept.flushed (h : dir.WellKept txids) (table : Table) :
    ((dir.writeBase table).cleanDeltas).WellKept txids := by
  refine ⟨?_, (fun _ h => by cases h), List.nodup_nil, fun _ h => by cases h⟩
  intro base hbase
  rcases List.mem_append.mp hbase with hold | hone
  · exact h.bases base (List.mem_filter.mp hold).1
  · rw [List.mem_singleton.mp hone]

theorem lastWriter_nil : lastWriter [] = 0 := rfl

theorem lt_of_mem_newerDeltas (hnamed : dir.Named) {change : Nat × RowVersion}
    (hchange : change ∈ changesOf dir.newerDeltas) : dir.latestBase.1 < change.2.txidMin := by
  obtain ⟨delta, hdelta, hmem⟩ := List.mem_flatMap.mp hchange
  obtain ⟨hold, hnewer⟩ := mem_newerDeltas.mp hdelta
  rw [hnamed.deltas delta hold change hmem]
  exact hnewer

theorem changesOf_newerDeltas_ne_nil (hkept : dir.WellKept txids) {delta : Nat × List (Nat × RowVersion)}
    (hdelta : delta ∈ dir.newerDeltas) : changesOf dir.newerDeltas ≠ [] := by
  obtain ⟨change, hchange⟩ := List.exists_mem_of_ne_nil _ (hkept.deltas delta (mem_newerDeltas.mp hdelta).1).1
  exact List.ne_nil_of_mem (List.mem_flatMap.mpr ⟨delta, hdelta, hchange⟩)

/-- The loader of a directory gives no rows exactly where it has no files to take rows from. -/
theorem loadedChains_eq_nil_iff (hkept : dir.WellKept txids) :
    dir.loadedChains = [] ↔ (∀ base ∈ dir.bases, base.1 = 0) ∧ ∀ delta ∈ dir.deltas, delta.1 = 0 := by
  constructor
  · intro hnil
    rcases @latestBase_cases dir with hnone | ⟨base, hmem, hpos, hlatest⟩
    · refine ⟨fun base hbase => ?_, fun delta hdelta => ?_⟩
      · have hle := le_latestBase hbase
        rw [hnone] at hle
        exact Nat.le_zero.mp hle
      · by_contra hne
        have hnewer : delta ∈ dir.newerDeltas := by
          rw [mem_newerDeltas, hnone]
          exact ⟨hdelta, Nat.pos_of_ne_zero hne⟩
        have hbase : dir.baseChains = [] := by
          rw [baseChains, hnone]
          rfl
        rw [loadedChains, hbase] at hnil
        exact replay_ne_self (changesOf_newerDeltas_ne_nil hkept hnewer) hnil
    · have hlength := length_le_replay dir.baseChains (changesOf dir.newerDeltas)
      have hbase : dir.baseChains = base.2.versionChains := by
        rw [baseChains, hlatest]
        rfl
      have hempty : base.2.versionChains = [] := by
        rw [← List.length_eq_zero_iff, ← hbase]
        rw [loadedChains] at hnil
        rw [hnil] at hlength
        exact Nat.le_zero.mp hlength
      have hwriter := hkept.bases base hmem
      rw [hempty, lastWriter_nil] at hwriter
      omega
  · rintro ⟨hbases, hdeltas⟩
    have hnone : dir.latestBase = (0, none) := by
      rcases @latestBase_cases dir with hnone | ⟨base, hmem, hpos, -⟩
      · exact hnone
      · exact absurd (hbases base hmem) (Nat.ne_of_gt hpos)
    have hnewer : dir.newerDeltas = [] := by
      rw [List.eq_nil_iff_forall_not_mem]
      intro delta hdelta
      obtain ⟨hmem, hpos⟩ := mem_newerDeltas.mp hdelta
      rw [hnone, hdeltas delta hmem] at hpos
      exact Nat.lt_irrefl 0 hpos
    rw [loadedChains, hnewer, baseChains, hnone]
    rfl

/-- What is loaded has a last writer that is not older than the base. -/
theorem latestBase_le_lastWriter (hnamed : dir.Named) : dir.latestBase.1 ≤ lastWriter dir.loadedChains := by
  by_cases hchanges : changesOf dir.newerDeltas = []
  · rw [loadedChains, hchanges, replay_nil]
    rcases @latestBase_cases dir with hnone | ⟨base, hmem, -, hlatest⟩
    · rw [hnone]
      exact Nat.zero_le _
    · rw [baseChains, hlatest]
      exact (hnamed.bases base hmem).ge
  · apply le_lastWriter_replay hchanges
    exact fun change hchange => (lt_of_mem_newerDeltas hnamed hchange).le

/-- A directory that gives the rows of a table back gives them back after a flush. -/
theorem loadedChains_flushed (hkept : dir.WellKept txids) {table : Table} (hloaded : dir.loadedChains = table.versionChains) :
    ((dir.writeBase table).cleanDeltas).loadedChains = table.versionChains := by
  have hnewer : ((dir.writeBase table).cleanDeltas).newerDeltas = [] := rfl
  have hle := latestBase_le_lastWriter hkept.named
  rw [hloaded] at hle
  have hwritten : (lastWriter table.versionChains, table) ∈ ((dir.writeBase table).cleanDeltas).bases :=
    List.mem_append_right _ (List.mem_singleton_self _)
  have hbases : ∀ base ∈ ((dir.writeBase table).cleanDeltas).bases,
      base.1 < lastWriter table.versionChains ∨ base = (lastWriter table.versionChains, table) := by
    intro base hbase
    rcases List.mem_append.mp hbase with hold | hone
    · obtain ⟨hmem, hne⟩ := List.mem_filter.mp hold
      exact .inl (Nat.lt_of_le_of_ne ((le_latestBase hmem).trans hle) (of_decide_eq_true hne))
    · exact .inr (List.mem_singleton.mp hone)
  rw [loadedChains, hnewer]
  change ((dir.writeBase table).cleanDeltas).baseChains = _
  rw [baseChains]
  rcases @latestBase_cases ((dir.writeBase table).cleanDeltas) with hnone | ⟨base, hmem, hpos, hlatest⟩
  · -- The base is named 0, which only a table without rows is.
    have hzero := le_latestBase hwritten
    rw [hnone] at hzero ⊢
    have hwriter : lastWriter table.versionChains = 0 := Nat.le_zero.mp hzero
    have hempty : dir.loadedChains = [] := by
      rw [loadedChains_eq_nil_iff hkept]
      refine ⟨fun base hbase => ?_, fun delta hdelta => ?_⟩
      · have hbaseLe := (le_latestBase hbase).trans hle
        omega
      · by_contra hne
        have hnew : delta ∈ dir.newerDeltas := mem_newerDeltas.mpr ⟨hdelta, by omega⟩
        have hpos : 1 ≤ lastWriter dir.loadedChains :=
          le_lastWriter_replay (changesOf_newerDeltas_ne_nil hkept hnew) fun change hchange =>
            Nat.one_le_of_lt (lt_of_mem_newerDeltas hkept.named hchange)
        rw [hloaded] at hpos
        omega
    rw [← hloaded, hempty]
    rfl
  · rw [hlatest]
    have hhighest := le_latestBase hwritten
    rw [hlatest] at hhighest
    rcases hbases base hmem with hlt | rfl
    · exact absurd hlt (Nat.not_lt.mpr hhighest)
    · rfl

end

end TableDir

/-! ### Calls -/

namespace DiskCall

/-- The transaction of a call. -/
def txid? : DiskCall → Option Nat
  | applyWriteSet _ changes => (changes.map fun change => change.2.txidMin).max?
  | createTable _ _ | dropTable _ | flush => none

/-- A list of changes has changes, all of one transaction. -/
def OfTransaction : DiskCall → Prop
  | applyWriteSet _ changes => changes ≠ [] ∧ ∃ txid, ∀ change ∈ changes, change.2.txidMin = txid
  | createTable _ _ | dropTable _ | flush => True

theorem txid?_eq_some {name : String} {changes : List (Nat × RowVersion)} {txid : Nat} (hne : changes ≠ [])
    (hwriter : ∀ change ∈ changes, change.2.txidMin = txid) : (applyWriteSet name changes).txid? = some txid := by
  obtain ⟨change, hchange⟩ := List.exists_mem_of_ne_nil _ hne
  apply List.max?_eq_some_iff.mpr
  constructor
  · exact List.mem_map.mpr ⟨change, hchange, hwriter change hchange⟩
  · intro writer hmem
    obtain ⟨other, hother, rfl⟩ := List.mem_map.mp hmem
    exact (hwriter other hother).le

end DiskCall

namespace DiskEngine

/-- Loading the directory gives every table that exists the rows it has in memory. -/
def Reloads (engine : DiskEngine) : Prop :=
  ∀ name table, engine.tables name = some table → (engine.dirs name).Reloads table.versionChains

/-- A new table finds no base and no delta that the loader would read. A write to a table has an id above that of the base,
and the deltas above its own id write other rows, where all rows that the loader has not opened by then are one. -/
def InOrder (engine : DiskEngine) : DiskCall → Prop
  | .createTable name _ =>
      (∀ base ∈ (engine.dirs name).bases, base.1 = 0) ∧ ∀ delta ∈ (engine.dirs name).deltas, delta.1 = 0
  | .applyWriteSet name changes =>
      (engine.tables name).isSome = true → ∀ change ∈ changes,
        (engine.dirs name).latestBase.1 < change.2.txidMin ∧
          Apart ((engine.dirs name).chainsBefore change.2.txidMin).length changes
            ((engine.dirs name).changesAfter change.2.txidMin)
  | .dropTable _ | .flush => True

/-- Every directory is well kept, and that of a table has its schema. -/
structure Kept (engine : DiskEngine) (txids : List Nat) : Prop where
  dirs : ∀ name, (engine.dirs name).WellKept txids
  schemas : ∀ name table, engine.tables name = some table → (engine.dirs name).schema.isSome = true

section

variable {engine : DiskEngine} {txids : List Nat} {name : String} {columns : List ColumnMeta}
  {changes : List (Nat × RowVersion)} {txid : Nat}

/-- A list of changes of one transaction: its delta, and its table where there is one. -/
theorem step_applyWriteSet (hne : changes ≠ []) (hwriter : ∀ change ∈ changes, change.2.txidMin = txid) :
    engine.step (.applyWriteSet name changes) =
      { engine with
        dirs := Function.update engine.dirs name ((engine.dirs name).writeDelta changes txid)
        tables := Function.update engine.tables name ((engine.tables name).map fun table =>
          { table with versionChains := replay table.versionChains changes }) } := by
  have hid : engine.deltaId changes = (txid, engine) := by
    have hmax : (changes.map fun change => change.2.txidMin).max? = some txid :=
      @DiskCall.txid?_eq_some name _ _ hne hwriter
    rw [deltaId, hmax]
  rw [step, applyWriteSet, hid]
  dsimp only
  cases htable : engine.tables name with
  | none =>
      have hsame : Function.update engine.tables name none = engine.tables := by
        rw [← htable]
        exact Function.update_eq_self _ _
      rw [Option.map_none, hsame]
  | some table => rfl

/-- The engine with one table and its directory replaced. -/
def withTable (engine : DiskEngine) (name : String) (dir : TableDir) (table : Option Table) : DiskEngine :=
  { engine with
    dirs := Function.update engine.dirs name dir
    tables := Function.update engine.tables name table }

section

variable {dir : TableDir} {table : Option Table} {other : String}

theorem withTable_dirs_self : (engine.withTable name dir table).dirs name = dir := Function.update_self _ _ _

theorem withTable_tables_self : (engine.withTable name dir table).tables name = table := Function.update_self _ _ _

theorem withTable_dirs_of_ne (hother : other ≠ name) :
    (engine.withTable name dir table).dirs other = engine.dirs other :=
  Function.update_of_ne hother _ _

theorem withTable_tables_of_ne (hother : other ≠ name) :
    (engine.withTable name dir table).tables other = engine.tables other := Function.update_of_ne hother _ _

end

theorem Kept.withTable (h : engine.Kept txids) {more : List Nat} (hmore : txids ⊆ more) {dir : TableDir}
    {table : Option Table} (hdir : dir.WellKept more) (hschema : table.isSome = true → dir.schema.isSome = true) :
    (engine.withTable name dir table).Kept more := by
  constructor
  · intro other
    by_cases hother : other = name
    · rw [hother, withTable_dirs_self]
      exact hdir
    · rw [withTable_dirs_of_ne hother]
      exact (h.dirs other).mono hmore
  · intro other found hfound
    by_cases hother : other = name
    · rw [hother, withTable_tables_self] at hfound
      rw [hother, withTable_dirs_self]
      exact hschema (by rw [hfound]; rfl)
    · rw [withTable_tables_of_ne hother] at hfound
      rw [withTable_dirs_of_ne hother]
      exact h.schemas other found hfound

theorem reloads_withTable_iff (hreloads : engine.Reloads) {dir : TableDir} {table : Option Table} :
    (engine.withTable name dir table).Reloads ↔ ∀ found, table = some found → dir.Reloads found.versionChains := by
  constructor
  · intro h found hfound
    have hname := h name found (withTable_tables_self.trans hfound)
    rwa [withTable_dirs_self] at hname
  · intro h other found hfound
    by_cases hother : other = name
    · rw [hother, withTable_tables_self] at hfound
      rw [hother, withTable_dirs_self]
      exact h found hfound
    · rw [withTable_tables_of_ne hother] at hfound
      rw [withTable_dirs_of_ne hother]
      exact hreloads other found hfound

theorem flush_dirs_of_none (h : engine.tables name = none) : engine.flush.dirs name = engine.dirs name := by
  simp only [flush, h]

theorem flush_dirs_of_some (h : engine.tables name = some table) :
    engine.flush.dirs name = ((engine.dirs name).writeBase table).cleanDeltas := by
  simp only [flush, h]

theorem Kept.step (h : engine.Kept txids) {call : DiskCall} (hcall : call.OfTransaction)
    (hfresh : ∀ txid ∈ call.txid?, txid ∉ txids) : (engine.step call).Kept (txids ++ call.txid?.toList) := by
  cases call with
  | createTable name columns =>
      rw [DiskCall.txid?, Option.toList_none, List.append_nil]
      have hdir := h.dirs name
      exact h.withTable (List.Subset.refl _) ⟨hdir.bases, hdir.deltas, hdir.nodup, hdir.used⟩ fun _ => rfl
  | dropTable name =>
      rw [DiskCall.txid?, Option.toList_none, List.append_nil]
      refine h.withTable (List.Subset.refl _) ⟨?_, ?_, List.nodup_nil, ?_⟩ fun hsome => by cases hsome
      · exact fun _ hmem => by cases hmem
      · exact fun _ hmem => by cases hmem
      · exact fun _ hmem => by cases hmem
  | applyWriteSet name changes =>
      obtain ⟨hne, txid, hwriter⟩ := hcall
      have htxid := @DiskCall.txid?_eq_some name _ _ hne hwriter
      rw [step_applyWriteSet hne hwriter, htxid]
      refine h.withTable (List.subset_append_left _ _) ?_ ?_
      · exact (h.dirs name).writeDelta (hfresh txid htxid) hne hwriter
      · intro hsome
        rw [Option.isSome_map] at hsome
        obtain ⟨table, htable⟩ := Option.isSome_iff_exists.mp hsome
        unfold TableDir.writeDelta
        split
        · exact h.schemas name table htable
        · exact h.schemas name table htable
  | flush =>
      rw [DiskCall.txid?, Option.toList_none, List.append_nil]
      constructor
      · intro name
        show (engine.flush.dirs name).WellKept txids
        cases htable : engine.tables name with
        | none =>
            rw [flush_dirs_of_none htable]
            exact h.dirs name
        | some table =>
            rw [flush_dirs_of_some htable]
            exact (h.dirs name).flushed table
      · intro name table htable
        change engine.tables name = some table at htable
        show (engine.flush.dirs name).schema.isSome = true
        rw [flush_dirs_of_some htable]
        exact h.schemas name table htable

/-- A flush keeps what loading gives. -/
theorem Reloads.flush (h : engine.Kept txids) (hreloads : engine.Reloads) : engine.flush.Reloads := by
  intro name table htable
  change engine.tables name = some table at htable
  rw [flush_dirs_of_some htable]
  obtain ⟨hschema, hloaded⟩ := TableDir.reloads_iff.mp (hreloads name table htable)
  exact TableDir.reloads_iff.mpr ⟨hschema, TableDir.loadedChains_flushed (h.dirs name) hloaded⟩

/-- After a call in which the engine was in order, and after no other, loading gives the tables in memory again. -/
theorem reloads_step_iff (h : engine.Kept txids) (hreloads : engine.Reloads) {call : DiskCall}
    (hcall : call.OfTransaction) (hfresh : ∀ txid ∈ call.txid?, txid ∉ txids) :
    (engine.step call).Reloads ↔ engine.InOrder call := by
  cases call with
  | createTable name columns =>
      change (engine.withTable name _ (some (Table.new name columns))).Reloads ↔ _
      rw [reloads_withTable_iff hreloads, InOrder, ← TableDir.loadedChains_eq_nil_iff (h.dirs name)]
      simp only [Option.some.injEq, forall_eq', TableDir.reloads_iff, Option.isSome_some, true_and,
        Table.new_versionChains]
      rfl
  | dropTable name =>
      change (engine.withTable name _ none).Reloads ↔ _
      rw [reloads_withTable_iff hreloads]
      exact iff_of_true (fun _ hnone => by cases hnone) trivial
  | applyWriteSet name changes =>
      obtain ⟨hne, txid, hwriter⟩ := hcall
      have htxid := @DiskCall.txid?_eq_some name _ _ hne hwriter
      have hnew : txid ∉ (engine.dirs name).deltas.map Prod.fst := by
        intro hmem
        obtain ⟨delta, hdelta, rfl⟩ := List.mem_map.mp hmem
        exact hfresh delta.1 htxid ((h.dirs name).used delta hdelta)
      rw [step_applyWriteSet hne hwriter]
      change (engine.withTable name _ _).Reloads ↔ _
      rw [reloads_withTable_iff hreloads, InOrder]
      cases htable : engine.tables name with
      | none => simp
      | some table =>
          obtain ⟨hschema, hloaded⟩ := TableDir.reloads_iff.mp (hreloads name table htable)
          have hwritten : ((engine.dirs name).writeDelta changes txid).schema.isSome = true := by
            rw [TableDir.writeDelta_of_fresh hnew]
            exact hschema
          obtain ⟨change, hchange⟩ := List.exists_mem_of_ne_nil _ hne
          simp only [Option.map_some, Option.some.injEq, forall_eq', TableDir.reloads_iff, hwritten, true_and,
            Option.isSome_some, forall_const]
          rw [← hloaded, TableDir.loadedChains_writeDelta_iff (h.dirs name) hnew hne hwriter]
          constructor
          · intro horder other hother
            rw [hwriter other hother]
            exact horder
          · intro horder
            have hfirst := horder change hchange
            rwa [hwriter change hchange] at hfirst
  | flush => exact iff_of_true (hreloads.flush h) trivial

end

section

variable {calls : List DiskCall}

/-- The transactions of some calls. -/
def txidsOf (calls : List DiskCall) : List Nat := calls.filterMap DiskCall.txid?

theorem after_concat (calls : List DiskCall) (call : DiskCall) : after (calls ++ [call]) = (after calls).step call := by
  rw [after, List.foldl_append]
  rfl

theorem kept_after (hcalls : ∀ call ∈ calls, call.OfTransaction) (hdistinct : (txidsOf calls).Nodup) :
    (after calls).Kept (txidsOf calls) := by
  induction calls using List.reverseRecOn with
  | nil =>
      refine ⟨fun _ => ⟨?_, ?_, List.nodup_nil, ?_⟩, fun _ _ hnone => by cases hnone⟩
      · exact fun _ hmem => by cases hmem
      · exact fun _ hmem => by cases hmem
      · exact fun _ hmem => by cases hmem
  | append_singleton done call ih =>
      have htxids : txidsOf (done ++ [call]) = txidsOf done ++ call.txid?.toList := by
        rw [txidsOf, List.filterMap_append]
        cases htxid : call.txid? <;> simp [txidsOf, htxid]
      rw [htxids] at hdistinct ⊢
      rw [after_concat]
      obtain ⟨hdone, -, hdisjoint⟩ := List.nodup_append.mp hdistinct
      refine (ih (fun other hother => hcalls other (List.mem_append_left _ hother)) hdone).step
        (hcalls call (List.mem_append_right _ (List.mem_singleton_self _))) ?_
      intro txid htxid hmem
      exact hdisjoint txid hmem txid (Option.mem_toList.mpr htxid) rfl

/-- In a run of calls on an empty directory, loading gives the tables in memory after every call exactly where the engine
was in order before every call. -/
theorem reloads_always_iff (hcalls : ∀ call ∈ calls, call.OfTransaction) (hdistinct : (txidsOf calls).Nodup) :
    (∀ done, done <+: calls → (after done).Reloads) ↔
      ∀ done call, done ++ [call] <+: calls → (after done).InOrder call := by
  have hkept : ∀ done, done <+: calls → (after done).Kept (txidsOf done) := by
    rintro done ⟨rest, rfl⟩
    apply kept_after fun call hcall => hcalls call (List.mem_append_left _ hcall)
    rw [txidsOf, List.filterMap_append] at hdistinct
    exact (List.nodup_append.mp hdistinct).1
  have hstep : ∀ done call, done ++ [call] <+: calls → (after done).Reloads →
      ((after (done ++ [call])).Reloads ↔ (after done).InOrder call) := by
    intro done call htaken hreloads
    have hdone : done <+: calls := (List.prefix_append _ _).trans htaken
    rw [after_concat]
    refine reloads_step_iff (hkept done hdone) hreloads (hcalls call (htaken.subset (by simp))) ?_
    intro txid htxid hmem
    obtain ⟨rest, rfl⟩ := htaken
    rw [txidsOf, List.filterMap_append, List.filterMap_append] at hdistinct
    have hpair := (List.nodup_append.mp (List.nodup_append.mp hdistinct).1).2.2
    exact hpair txid hmem txid (by simp [Option.mem_def.mp htxid]) rfl
  constructor
  · intro h done call htaken
    exact (hstep done call htaken (h done ((List.prefix_append _ _).trans htaken))).mp (h _ htaken)
  · intro h done htaken
    induction done using List.reverseRecOn with
    | nil => exact fun _ _ hnone => by cases hnone
    | append_singleton done call ih =>
        exact (hstep done call htaken (ih ((List.prefix_append _ _).trans htaken))).mpr (h done call htaken)

end

/-- An insertion of one row. -/
def insertion (rowIdx txid : Nat) : Nat × RowVersion := (rowIdx, .newInsert txid { values := [.integer 5] })

/-- A table in which two transactions insert a row each. -/
def twoInsertions (first second : Nat) : List DiskCall :=
  [.createTable "t" [.new "a" .integer], .applyWriteSet "t" [insertion 0 first],
    .applyWriteSet "t" [insertion 1 second]]

theorem ofTransaction_twoInsertions (first second : Nat) : ∀ call ∈ twoInsertions first second, call.OfTransaction := by
  intro call hcall
  simp only [twoInsertions, List.mem_cons, List.not_mem_nil, or_false] at hcall
  rcases hcall with rfl | rfl | rfl
  · trivial
  · exact ⟨List.cons_ne_nil _ _, first, fun change hchange => by rw [List.mem_singleton.mp hchange]; rfl⟩
  · exact ⟨List.cons_ne_nil _ _, second, fun change hchange => by rw [List.mem_singleton.mp hchange]; rfl⟩

theorem reloads_always_ascending : (after (twoInsertions 1 2)).Reloads := by
  refine (reloads_always_iff (ofTransaction_twoInsertions 1 2) (by decide)).mpr ?_ _ List.prefix_rfl
  rintro done call ⟨rest, hrest⟩
  match done with
  | [] =>
      cases hrest
      exact ⟨fun _ hmem => (by cases hmem), fun _ hmem => by cases hmem⟩
  | [created] =>
      cases hrest
      intro _ change hchange
      rw [List.mem_singleton.mp hchange]
      decide
  | [created, inserted] =>
      cases hrest
      intro _ change hchange
      rw [List.mem_singleton.mp hchange]
      decide
  | created :: inserted :: last :: more => simp [twoInsertions] at hrest

/-- The loader has the second insertion first, and places the first one behind it in the same row. -/
theorem not_reloads_always :
    ¬ ∀ calls : List DiskCall, (∀ call ∈ calls, call.OfTransaction) → (txidsOf calls).Nodup →
      ∀ done, done <+: calls → (after done).Reloads := by
  intro h
  have hreloads := h (twoInsertions 2 1) (ofTransaction_twoInsertions 2 1) (by decide) _ List.prefix_rfl
  obtain ⟨-, hloaded⟩ := TableDir.reloads_iff.mp (hreloads "t" _ rfl)
  have hlength := congrArg List.length hloaded
  revert hlength
  decide

end DiskEngine

end HelionDb
