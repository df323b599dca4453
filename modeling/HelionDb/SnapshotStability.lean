import HelionDb.Session

/-! What a snapshot sees while other transactions come and go. A writer that began after the snapshot closes
a version at an id behind it, so the version stays in sight. A writer that was active in the snapshot closes
it at an id that may be before it, so the version is lost from sight, and its own version stays hidden. The
versions in sight of every row therefore stay the same as long as no such writer touches a version in
sight. -/

namespace HelionDb

/-- What a reader can tell of a version: its creator, its row and whether it deletes. -/
def RowVersion.written (version : RowVersion) : Nat × Row × Bool :=
  (version.txidMin, version.row, version.isDeleted)

namespace Snapshot

variable {snapshot : Snapshot} {txid : Nat} {version : RowVersion} {chain : Chain}

/-- `is_version_visible` to the snapshot. -/
def sees (snapshot : Snapshot) (version : RowVersion) : Bool :=
  isVersionVisible version snapshot.txid snapshot.active

/-- The version of a row that the snapshot selects. -/
def selects (snapshot : Snapshot) (chain : Chain) : Option (Nat × Row × Bool) :=
  (selectVersion chain snapshot.txid snapshot.active).map RowVersion.written

/-- The versions of a row that are in sight of the snapshot. -/
def inSight (snapshot : Snapshot) (chain : Chain) : List (Nat × Row × Bool) :=
  (chain.filter snapshot.sees).map RowVersion.written

/-- The snapshot does not contain the transaction of this id. -/
def Excludes (snapshot : Snapshot) (txid : Nat) : Prop :=
  (txid ∈ snapshot.active ∧ txid ≠ snapshot.txid) ∨ snapshot.txid < txid

theorem selects_eq (snapshot : Snapshot) (chain : Chain) :
    snapshot.selects chain = (snapshot.inSight chain).getLast? := by
  rw [selects, selectVersion, inSight, List.getLast?_map, ← List.head?_reverse, ← List.filter_reverse]
  exact congrArg _ List.head?_filter.symm

theorem sees_of_excludes (h : snapshot.Excludes version.txidMin) : snapshot.sees version = false := by
  refine Bool.eq_false_iff.mpr fun hsees => ?_
  obtain ⟨hle, -, hactive⟩ := isVersionVisible_iff.mp hsees
  rcases h with ⟨hmem, hne⟩ | hlt
  · exact hne (hactive hmem)
  · exact absurd hlt (Nat.not_lt.mpr hle)

/-- Closing an open version at an id behind the snapshot leaves it in sight or out of sight. -/
theorem sees_close_of_lt (hlt : snapshot.txid < txid) (hopen : version.txidMax = u64Max) :
    snapshot.sees { version with txidMax := txid } = snapshot.sees version := by
  refine Bool.eq_iff_iff.mpr ?_
  rw [sees, sees, isVersionVisible_iff, isVersionVisible_iff]
  exact ⟨fun h => ⟨h.1, Or.inl hopen, h.2.2⟩, fun h => ⟨h.1, Or.inr hlt, h.2.2⟩⟩

/-- Closing an open version does not bring it in sight. -/
theorem sees_close_of_hidden (hopen : version.txidMax = u64Max) (hhidden : snapshot.sees version = false) :
    snapshot.sees { version with txidMax := txid } = false := by
  refine Bool.eq_false_iff.mpr fun hsees => Bool.eq_false_iff.mp hhidden ?_
  obtain ⟨hle, -, hactive⟩ := isVersionVisible_iff.mp hsees
  exact isVersionVisible_iff.mpr ⟨hle, Or.inl hopen, hactive⟩

/-- The writer began after the snapshot, or the latest version of the row is out of sight. -/
def Undisturbed (snapshot : Snapshot) (txid : Nat) (chain : Chain) : Prop :=
  snapshot.txid < txid ∨ ∀ latest, chain.getLast? = some latest → snapshot.sees latest = false

theorem inSight_extendChain (hchain : LastOpen chain) (hexcludes : snapshot.Excludes txid)
    (hmin : version.txidMin = txid) (hquiet : snapshot.Undisturbed txid chain) :
    snapshot.inSight (extendChain txid version chain) = snapshot.inSight chain := by
  obtain ⟨prior, latest, rfl, hopen⟩ := hchain
  have hnew : snapshot.sees version = false := sees_of_excludes (hmin ▸ hexcludes)
  have hclosed : snapshot.inSight [{ latest with txidMax := txid }] = snapshot.inSight [latest] := by
    have hsame : snapshot.sees { latest with txidMax := txid } = snapshot.sees latest := by
      rcases hquiet with hlt | hhidden
      · exact sees_close_of_lt hlt hopen
      · have hlatest := hhidden latest List.getLast?_concat
        rw [hlatest, sees_close_of_hidden hopen hlatest]
    rw [inSight, inSight, List.filter_singleton, List.filter_singleton, hsame]
    cases snapshot.sees latest <;> rfl
  have happend : ∀ left right : Chain,
      snapshot.inSight (left ++ right) = snapshot.inSight left ++ snapshot.inSight right := by
    intro left right
    rw [inSight, List.filter_append, List.map_append]
    rfl
  have hnone : snapshot.inSight [version] = [] := by
    rw [inSight, List.filter_singleton, hnew]
    rfl
  calc snapshot.inSight (extendChain txid version (prior ++ [latest]))
      = snapshot.inSight (prior ++ [{ latest with txidMax := txid }] ++ [version]) := by
        rw [extendChain, closeLatest_concat]
    _ = snapshot.inSight prior ++ snapshot.inSight [latest] := by
        rw [happend, happend, hnone, List.append_nil, hclosed]
    _ = snapshot.inSight (prior ++ [latest]) := (happend _ _).symm

/-! ### Rows of a table -/

/-- The versions in sight at a position; none where there is no row. -/
def sightAt (snapshot : Snapshot) (chains : List Chain) (rowIdx : Nat) : List (Nat × Row × Bool) :=
  (chains[rowIdx]?.map snapshot.inSight).getD []

theorem sightAt_placeVersion {chains : List Chain} {rowIdx : Nat} (hchains : ∀ chain ∈ chains, LastOpen chain)
    (hexcludes : snapshot.Excludes txid) (hmin : version.txidMin = txid)
    (hquiet : ∀ chain, chains[rowIdx]? = some chain → snapshot.Undisturbed txid chain) :
    snapshot.sightAt (placeVersion txid chains (rowIdx, version)) = snapshot.sightAt chains := by
  funext position
  rcases Nat.lt_or_ge rowIdx chains.length with hrow | hrow
  · by_cases hposition : position = rowIdx
    · subst hposition
      have hchain : chains[position]? = some chains[position] := List.getElem?_eq_getElem hrow
      rw [sightAt, sightAt, getElem?_placeVersion_self hrow, hchain, Option.map_some, Option.map_some,
        inSight_extendChain (hchains _ (List.getElem_mem hrow)) hexcludes hmin (hquiet _ hchain)]
    · rw [sightAt, sightAt, placeVersion_of_lt hrow, List.getElem?_modify_ne _ _ (Ne.symm hposition)]
  · rw [sightAt, sightAt, placeVersion_of_le hrow]
    rcases Nat.lt_trichotomy position chains.length with hlt | rfl | hgt
    · rw [List.getElem?_append_left hlt]
    · have hnone : snapshot.inSight [version] = [] := by
        rw [inSight, List.filter_singleton, sees_of_excludes (hmin ▸ hexcludes)]
        rfl
      rw [List.getElem?_concat_length, List.getElem?_eq_none le_rfl, Option.map_some, hnone]
      rfl
    · rw [List.getElem?_eq_none hgt.le, List.getElem?_eq_none (by rw [List.length_append]; exact hgt)]

/-- A row on which a version was placed has a latest version of its writer. -/
theorem undisturbed_placeVersion {chains : List Chain} {rowIdx : Nat} (hexcludes : snapshot.Excludes txid)
    (hmin : version.txidMin = txid) {position : Nat} {after : Chain}
    (hquiet : ∀ chain, chains[position]? = some chain → snapshot.Undisturbed txid chain)
    (hafter : (placeVersion txid chains (rowIdx, version))[position]? = some after) :
    snapshot.Undisturbed txid after := by
  have hlast : ∀ prior : Chain, snapshot.Undisturbed txid (prior ++ [version]) := by
    refine fun prior => Or.inr fun latest hlatest => ?_
    rw [List.getLast?_concat] at hlatest
    obtain rfl := Option.some.inj hlatest
    exact sees_of_excludes (hmin ▸ hexcludes)
  rcases Nat.lt_or_ge rowIdx chains.length with hrow | hrow
  · by_cases hposition : position = rowIdx
    · subst hposition
      rw [getElem?_placeVersion_self hrow] at hafter
      obtain rfl := Option.some.inj hafter
      exact hlast _
    · rw [placeVersion_of_lt hrow, List.getElem?_modify_ne _ _ (Ne.symm hposition)] at hafter
      exact hquiet after hafter
  · rw [placeVersion_of_le hrow, List.getElem?_append] at hafter
    split at hafter
    · exact hquiet after hafter
    · obtain rfl := List.mem_singleton.mp (List.mem_of_getElem? hafter)
      exact hlast []

/-- A write set of an excluded transaction leaves in sight what was in sight. -/
theorem sightAt_placeAll {chains : List Chain} {changes : List (Nat × RowVersion)}
    (hchains : ∀ chain ∈ chains, LastOpen chain) (hexcludes : snapshot.Excludes txid)
    (hchanges : ∀ change ∈ changes, change.2.txidMin = txid ∧ change.2.txidMax = u64Max)
    (hquiet : ∀ change ∈ changes, ∀ chain, chains[change.1]? = some chain → snapshot.Undisturbed txid chain) :
    snapshot.sightAt (placeAll txid chains changes) = snapshot.sightAt chains := by
  induction changes generalizing chains with
  | nil => rfl
  | cons change rest ih =>
      obtain ⟨hmin, hopen⟩ := hchanges change List.mem_cons_self
      have hfirst := sightAt_placeVersion hchains hexcludes hmin (hquiet change List.mem_cons_self)
      rw [placeAll_cons, ih ((lastOpen_rule txid).placeVersion hchains hmin hopen)
        (fun other hother => hchanges other (List.mem_cons_of_mem _ hother)) ?_, hfirst]
      intro other hother after hafter
      exact undisturbed_placeVersion hexcludes hmin (hquiet other (List.mem_cons_of_mem _ hother)) hafter

end Snapshot

private theorem filterMap_zipIdx_congr {α β : Type} {f : α × Nat → Option β} {left right : List α} {first : Nat}
    (h : ∀ position, left[position]?.bind (fun item => f (item, first + position)) =
      right[position]?.bind fun item => f (item, first + position)) :
    (left.zipIdx first).filterMap f = (right.zipIdx first).filterMap f := by
  have hskip : ∀ {items : List α} {offset : Nat},
      (∀ position, items[position]?.bind (fun item => f (item, offset + position)) = none) →
      (items.zipIdx offset).filterMap f = [] := by
    intro items offset hnone
    refine List.filterMap_eq_nil_iff.mpr fun entry hentry => ?_
    obtain ⟨item, position⟩ := entry
    obtain ⟨hle, hlt, hitem⟩ := List.mem_zipIdx hentry
    have hhere := hnone (position - offset)
    rw [List.getElem?_eq_getElem (by omega), Option.bind_some, ← hitem] at hhere
    rwa [Nat.add_sub_cancel' hle] at hhere
  induction left generalizing right first with
  | nil => exact (hskip fun position => (h position).symm).symm
  | cons item rest ih =>
      cases right with
      | nil => exact hskip h
      | cons item' rest' =>
          have hhead := h 0
          have htail := @ih rest' (first + 1) fun position => by
            have hnext := h (position + 1)
            rw [List.getElem?_cons_succ, List.getElem?_cons_succ] at hnext
            rwa [Nat.add_right_comm, Nat.add_assoc]
          change f (item, first) = f (item', first) at hhead
          rw [List.zipIdx_cons, List.zipIdx_cons, List.filterMap_cons, List.filterMap_cons, hhead, htail]

theorem latestVisible_row (snapshot : Snapshot) (chain : Chain) :
    (latestVisible chain snapshot.txid snapshot.active).map (·.row) =
      (snapshot.selects chain).bind fun written => if written.2.2 then none else some written.2.1 := by
  rw [latestVisible, Snapshot.selects]
  cases selectVersion chain snapshot.txid snapshot.active with
  | none => rfl
  | some version =>
      rw [Option.filter_some, Option.map_some, Option.bind_some, RowVersion.written]
      cases version.isDeleted <;> rfl

/-- The versions in sight decide the version that is selected at a position. -/
theorem selects_eq_sightAt (snapshot : Snapshot) (chains : List Chain) (rowIdx : Nat) :
    chains[rowIdx]?.bind snapshot.selects = (snapshot.sightAt chains rowIdx).getLast? := by
  rw [Snapshot.sightAt]
  cases chains[rowIdx]? with
  | none => rfl
  | some chain => exact snapshot.selects_eq chain

/-- The versions in sight decide a scan. -/
theorem scanVisible_congr {snapshot : Snapshot} {left right : Table}
    (h : snapshot.sightAt left.versionChains = snapshot.sightAt right.versionChains) :
    left.scanVisible snapshot.txid snapshot.active = right.scanVisible snapshot.txid snapshot.active := by
  have hrow : ∀ (table : Table) (position : Nat),
      table.versionChains[position]?.bind (fun chain =>
        (latestVisible chain snapshot.txid snapshot.active).map fun version => (0 + position, version.row)) =
      ((snapshot.sightAt table.versionChains position).getLast?.bind fun written =>
        if written.2.2 then none else some written.2.1).map fun row => (0 + position, row) := by
    intro table position
    rw [← selects_eq_sightAt]
    cases table.versionChains[position]? with
    | none => rfl
    | some chain =>
        rw [Option.bind_some, Option.bind_some, ← latestVisible_row, Option.map_map]
        rfl
  refine filterMap_zipIdx_congr fun position => ?_
  rw [hrow left position, hrow right position, h]

/-! ### Runs -/

namespace DatabaseEngine

/-- The versions of a table that are in sight of a snapshot, by position. -/
def sightOf (engine : DatabaseEngine) (snapshot : Snapshot) (name : String) :
    Option (Nat → List (Nat × Row × Bool)) :=
  (engine.chainsOf name).map snapshot.sightAt

/-- The version that a snapshot selects at every position of a table. -/
def selectedOf (engine : DatabaseEngine) (snapshot : Snapshot) (name : String) :
    Option (Nat → Option (Nat × Row × Bool)) :=
  (engine.chainsOf name).map fun chains rowIdx => chains[rowIdx]?.bind snapshot.selects

/-- What a scan of a table gives to a snapshot. -/
def scanOf (engine : DatabaseEngine) (snapshot : Snapshot) (name : String) : Option (List (Nat × Row)) :=
  (findTable name engine.tables).map fun table => table.scanVisible snapshot.txid snapshot.active

variable {snapshot : Snapshot} {name : String}

theorem selectedOf_congr {left right : DatabaseEngine}
    (h : left.sightOf snapshot name = right.sightOf snapshot name) :
    left.selectedOf snapshot name = right.selectedOf snapshot name := by
  have hselected : ∀ engine : DatabaseEngine, engine.selectedOf snapshot name =
      (engine.sightOf snapshot name).map fun sight rowIdx => (sight rowIdx).getLast? := by
    intro engine
    rw [selectedOf, sightOf, Option.map_map]
    refine congrArg (fun f => Option.map f (engine.chainsOf name)) ?_
    funext chains rowIdx
    exact selects_eq_sightAt snapshot chains rowIdx
  rw [hselected, hselected, h]

theorem scanOf_congr {left right : DatabaseEngine}
    (h : left.sightOf snapshot name = right.sightOf snapshot name) :
    left.scanOf snapshot name = right.scanOf snapshot name := by
  rw [sightOf, sightOf, chainsOf, chainsOf, Option.map_map, Option.map_map] at h
  rw [scanOf, scanOf]
  cases hleft : findTable name left.tables with
  | none =>
      rw [hleft] at h
      rw [Option.map_eq_none_iff.mp h.symm]
  | some table =>
      rw [hleft] at h
      obtain ⟨other, hother, hsight⟩ := Option.map_eq_some_iff.mp h.symm
      rw [hother]
      exact congrArg some (scanVisible_congr hsight.symm)

/-- The write set names no row whose latest version is in sight of the snapshot. -/
def HidesNothing (engine : DatabaseEngine) (snapshot : Snapshot) (tx : Transaction) : Prop :=
  ∀ entry ∈ tx.writeSet, ∀ chains, engine.chainsOf entry.tableName = some chains →
    ∀ chain, chains[entry.rowIdx]? = some chain →
      ∀ latest, chain.getLast? = some latest → snapshot.sees latest = false

/-- A commit of a transaction that the snapshot excludes leaves in sight what was in sight. -/
theorem sightOf_commit {engine : DatabaseEngine} {tx : Transaction} (hwf : engine.WellFormed)
    (hopen : AllChains LastOpen engine.tables) (hexcludes : snapshot.Excludes tx.txId)
    (hquiet : engine.Installs tx → tx.txId ∈ snapshot.active → engine.HidesNothing snapshot tx)
    (orders : CommitOrders) (name : String) :
    (engine.commit orders tx).2.2.sightOf snapshot name = engine.sightOf snapshot name := by
  rw [sightOf, sightOf]
  rcases chainsOf_commit_cases hwf orders tx name with hsame | ⟨hinstalls, -, hplaced⟩
  · rw [hsame]
  · rw [hplaced, placedChains]
    cases hchains : engine.chainsOf name with
    | none => rfl
    | some chains =>
        refine congrArg some (Snapshot.sightAt_placeAll (fun chain hchain => ?_) hexcludes
          (fun change hchange => ?_) fun change hchange chain hchain => ?_)
        · obtain ⟨table, htable, rfl⟩ := Option.map_eq_some_iff.mp hchains
          exact hopen table (hwf.findTable_eq_some.mp htable).1 chain hchain
        · exact ⟨(mem_tableChanges hchange).1, (mem_tableChanges hchange).2.1⟩
        · rcases hexcludes with ⟨hactive, -⟩ | hlater
          · obtain ⟨-, -, entry, hentry, hrow⟩ := mem_tableChanges hchange
            obtain ⟨hwritten, hname⟩ := Transaction.mem_entriesOf.mp hentry
            exact Or.inr (hquiet hinstalls hactive entry hwritten chains (hname ▸ hchains) chain (hrow ▸ hchain))
          · exact Or.inl hlater

end DatabaseEngine

namespace Session

variable {session : Session}

/-- The steps of the others: ids are left, nobody finishes the handle of the snapshot, and a commit of a
transaction that was active in the snapshot names no row whose latest version is in sight. -/
def OthersStep (snapshot : Snapshot) (handle : Nat) (session : Session) : SessionOp → Prop
  | .begin => session.engine.mvcc.nextTxid < u64Max
  | .addWrite _ _ => True
  | .rollback other => other ≠ handle
  | .commit other _ => other ≠ handle ∧ ∀ tx, session.txs[other]? = some tx → session.engine.Installs tx →
      tx.txId ∈ snapshot.active → session.engine.HidesNothing snapshot tx

theorem OthersStep.counterOk {snapshot : Snapshot} {handle : Nat} {op : SessionOp}
    (h : OthersStep snapshot handle session op) : CounterOk session op := by
  cases op with
  | begin => exact h
  | addWrite | rollback | commit => trivial

/-- What holds of a run after the begin of a snapshot: the snapshot sees what it saw at first. -/
structure Steadfast (snapshot : Snapshot) (handle : Nat) (first : DatabaseEngine) (session : Session) : Prop where
  sound : session.Sound
  numbered : session.Numbered
  overlaps : Overlaps snapshot handle session
  running : session.Running handle
  sight : ∀ name, session.engine.sightOf snapshot name = first.sightOf snapshot name

/-- Whoever else is in progress is not in the snapshot. -/
theorem Steadfast.excludes {snapshot : Snapshot} {handle : Nat} {first : DatabaseEngine}
    (h : Steadfast snapshot handle first session) {other : Nat} {tx : Transaction} (hother : other ≠ handle)
    (htx : session.txs[other]? = some tx) (hrunning : tx.status = .inProgress) :
    snapshot.Excludes tx.txId := by
  obtain ⟨own, hown, -⟩ := h.running
  rcases h.overlaps.others other tx hother htx hrunning with hactive | hlater
  · refine Or.inl ⟨hactive, fun hsame => hother ?_⟩
    exact h.numbered.position_unique htx hown (hsame.trans (h.overlaps.own own hown).1.symm)
  · exact Or.inr hlater

theorem Steadfast.step {snapshot : Snapshot} {handle : Nat} {first : DatabaseEngine} {op : SessionOp}
    (h : Steadfast snapshot handle first session) (hop : OthersStep snapshot handle session op) :
    Steadfast snapshot handle first (session.step op) where
  sound := h.sound.step op
  numbered := h.numbered.step hop.counterOk
  overlaps := h.overlaps.step h.running.lt_length hop.counterOk
  running := by
    refine h.running.step ?_ ?_
    · rintro rfl
      exact hop rfl
    · rintro orders rfl
      exact hop.1 rfl
  sight := by
    intro name
    rw [← h.sight name]
    rcases step_cases session op with ⟨-, hstep⟩ | ⟨_, _, -, hstep⟩ | ⟨_, tx, -, -, hstep⟩ |
      ⟨other, orders, tx, rfl, htx, hstep⟩ | hstep
    · rw [hstep]
      rfl
    · rw [hstep]
    · rw [hstep, rollback_engine]
      rfl
    · rw [hstep]
      by_cases hrunning : tx.status = .inProgress
      · exact DatabaseEngine.sightOf_commit h.sound.wellFormed h.sound.live
          (h.excludes hop.1 htx hrunning) (hop.2 tx htx) orders name
      · rcases DatabaseEngine.chainsOf_commit_cases h.sound.wellFormed orders tx name with
          hsame | ⟨hinstalls, -⟩
        · rw [DatabaseEngine.sightOf, DatabaseEngine.sightOf, hsame]
        · exact absurd hinstalls.running hrunning
    · rw [hstep]

/-- While a transaction is in progress, the version that its snapshot selects at every position of every
table, and every scan it makes, are those of the moment it began. -/
theorem snapshot_stable {start : Session} (hstart : start.Reachable CounterOk)
    (hcounter : CounterOk start .begin)
    (hrun : Reaches step (OthersStep start.nextSnapshot start.txs.length) (start.step .begin) session) :
    session.Running start.txs.length ∧
      ∀ name, session.engine.selectedOf start.nextSnapshot name =
          (start.step .begin).engine.selectedOf start.nextSnapshot name ∧
        session.engine.scanOf start.nextSnapshot name =
          (start.step .begin).engine.scanOf start.nextSnapshot name := by
  have hnumbered := hstart.numbered fun _ _ h => h
  have hfirst : Steadfast start.nextSnapshot start.txs.length (start.step .begin).engine (start.step .begin) :=
    ⟨hstart.sound.step .begin, hnumbered.step hcounter, .begin hnumbered hcounter, running_begin start,
      fun _ => rfl⟩
  have hlast := hrun.invariant (fun _ _ h hop => h.step hop) hfirst
  refine ⟨hlast.running, fun name => ⟨?_, ?_⟩⟩
  · exact DatabaseEngine.selectedOf_congr (hlast.sight name)
  · exact DatabaseEngine.scanOf_congr (hlast.sight name)

/-- A table with one row, and one transaction in progress. -/
def oneRowRun : List SerialCall :=
  [{ op := .execute (.createTable "t" [ColumnMeta.new "a" .integer] none), orders := .asGiven },
    { op := .execute (.insert "t" [{ values := [.integer 1] }]), orders := .asGiven }]

def oneRowSession : Session :=
  { engine := oneRowRun.foldl DatabaseEngine.serialStep (.fresh "disk"), txs := [] }

def rowUpdate : WriteEntry :=
  { tableName := "t", rowIdx := 0, oldTxidMax := u64Max, operation := .update { values := [.integer 2] } }

/-- The handle updates the row and commits. -/
def updatesRow (handle : Nat) : List SessionOp := [.addWrite handle rowUpdate, .commit handle .asGiven]

theorem oneRowSession_reachable : (oneRowSession.step .begin).Reachable CounterOk :=
  ⟨_, ⟨"disk", .foldl oneRowRun _⟩, .single SessionOp.begin (by unfold CounterOk; decide)⟩

/-- A later transaction updates the row that the snapshot sees. -/
theorem snapshot_stable_later :
    ((SessionOp.begin :: updatesRow 2).foldl step ((oneRowSession.step .begin).step .begin)).engine.scanOf
        (oneRowSession.step .begin).nextSnapshot "t" = some [(0, { values := [.integer 1] })] := by
  have hrun : Meets step (OthersStep (oneRowSession.step .begin).nextSnapshot 1)
      ((oneRowSession.step .begin).step .begin) (SessionOp.begin :: updatesRow 2) := by
    have hcounter : OthersStep (oneRowSession.step .begin).nextSnapshot 1
        ((oneRowSession.step .begin).step .begin) .begin := by
      unfold OthersStep
      decide
    refine ⟨hcounter, trivial, ⟨by decide, fun tx htx _ hactive => ?_⟩, trivial⟩
    obtain rfl := Option.some.inj htx
    exact absurd hactive (by decide)
  exact ((snapshot_stable oneRowSession_reachable (by unfold CounterOk; decide) (.of_meets hrun)).2 "t").2.trans rfl

/-- A transaction that was active in the snapshot updates the row and commits: the row disappears from the
snapshot. -/
theorem not_snapshot_stable_active :
    (oneRowSession.step .begin).Reachable CounterOk ∧
      ((oneRowSession.step .begin).step .begin).engine.scanOf (oneRowSession.step .begin).nextSnapshot "t" =
        some [(0, { values := [.integer 1] })] ∧
      (((updatesRow 0).foldl step ((oneRowSession.step .begin).step .begin)).txs.map (·.status)) =
        [.committed, .inProgress] ∧
      ((updatesRow 0).foldl step ((oneRowSession.step .begin).step .begin)).engine.scanOf
        (oneRowSession.step .begin).nextSnapshot "t" = some [] :=
  ⟨oneRowSession_reachable, rfl, rfl, rfl⟩

end Session

end HelionDb
