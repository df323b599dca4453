import HelionDb.Catalog
import Mathlib.Data.List.Find

/-! Lists of changes that are placed on version chains. Lists that write different rows may be placed in either order, where
all the rows past the end count as one: whichever list opens a row there gets its position. The first version that any
list adds to a row tells in which order two lists were placed, so lists that share a row may not be exchanged. -/

namespace HelionDb

/-- `apply_changes`, and the loop of `apply_write_set` in the engines. -/
def replay (chains : List Chain) (changes : List (Nat × RowVersion)) : List Chain :=
  changes.foldl (fun chains change => placeVersion change.2.txidMin chains change) chains

section

variable {chains : List Chain} {change other : Nat × RowVersion} {first second : List (Nat × RowVersion)}

@[simp] theorem replay_nil (chains : List Chain) : replay chains [] = chains := rfl

theorem replay_cons (chains : List Chain) (change : Nat × RowVersion) (rest : List (Nat × RowVersion)) :
    replay chains (change :: rest) = replay (placeVersion change.2.txidMin chains change) rest := rfl

theorem replay_append (chains : List Chain) (first second : List (Nat × RowVersion)) :
    replay chains (first ++ second) = replay (replay chains first) second := List.foldl_append

/-- The changes write different rows of a table of this many rows, all rows past the end taken as one. -/
def Apart (rows : Nat) (first second : List (Nat × RowVersion)) : Prop :=
  ∀ change ∈ first, ∀ other ∈ second, min change.1 rows ≠ min other.1 rows

instance (rows : Nat) (first second : List (Nat × RowVersion)) : Decidable (Apart rows first second) :=
  inferInstanceAs (Decidable (∀ change ∈ first, ∀ other ∈ second, min change.1 rows ≠ min other.1 rows))

theorem Apart.mono {rows more : Nat} (h : Apart rows first second) (hle : rows ≤ more) : Apart more first second := by
  intro change hchange other hother hsame
  apply h change hchange other hother
  omega

theorem modify_concat_of_lt {row : Nat} (hrow : row < chains.length) (f : Chain → Chain) (chain : Chain) :
    (chains ++ [chain]).modify row f = chains.modify row f ++ [chain] := by
  apply List.ext_getElem?
  intro position
  rw [List.getElem?_modify]
  by_cases hposition : position < chains.length
  · rw [List.getElem?_append_left hposition, List.getElem?_append_left (by rwa [List.length_modify]),
      List.getElem?_modify]
  · have hne : row ≠ position := by omega
    rw [List.getElem?_append_right (by omega), List.getElem?_append_right (by rw [List.length_modify]; omega),
      List.length_modify]
    simp [hne]

/-- A row past the end is opened before or after a change to a row that is there. -/
theorem placeVersion_comm_of_le {txid otherTxid : Nat} (hrow : change.1 < chains.length)
    (hother : chains.length ≤ other.1) :
    placeVersion otherTxid (placeVersion txid chains change) other =
      placeVersion txid (placeVersion otherTxid chains other) change := by
  obtain ⟨row, version⟩ := change
  obtain ⟨otherRow, otherVersion⟩ := other
  have hlonger : row < (chains ++ [[otherVersion]]).length := by
    rw [List.length_append]
    exact Nat.lt_add_right _ hrow
  have hend : (chains.modify row (extendChain txid version)).length ≤ otherRow := by
    rw [List.length_modify]
    exact hother
  rw [placeVersion_of_lt hrow, placeVersion_of_le hother, placeVersion_of_le hend, placeVersion_of_lt hlonger]
  exact (modify_concat_of_lt hrow _ _).symm

theorem placeVersion_comm {txid otherTxid : Nat} (hapart : min change.1 chains.length ≠ min other.1 chains.length) :
    placeVersion otherTxid (placeVersion txid chains change) other =
      placeVersion txid (placeVersion otherTxid chains other) change := by
  by_cases hrow : change.1 < chains.length
  · by_cases hother : other.1 < chains.length
    · have hne : change.1 ≠ other.1 := by omega
      obtain ⟨row, version⟩ := change
      obtain ⟨otherRow, otherVersion⟩ := other
      rw [placeVersion_of_lt hrow, placeVersion_of_lt hother, placeVersion_of_lt (by rwa [List.length_modify]),
        placeVersion_of_lt (by rwa [List.length_modify])]
      exact List.modify_modify_ne _ _ _ hne
    · exact placeVersion_comm_of_le hrow (Nat.le_of_not_lt hother)
  · have hother : other.1 < chains.length := by omega
    exact (placeVersion_comm_of_le hother (Nat.le_of_not_lt hrow)).symm

theorem length_le_replay (chains : List Chain) (changes : List (Nat × RowVersion)) :
    chains.length ≤ (replay chains changes).length := by
  induction changes generalizing chains with
  | nil => exact le_rfl
  | cons change rest ih => exact (length_le_placeVersion _ _ _).trans (ih _)

/-- Lists of changes that are apart are placed in either order. -/
theorem replay_comm (hapart : Apart chains.length first second) :
    replay (replay chains first) second = replay (replay chains second) first := by
  induction first generalizing chains with
  | nil => rfl
  | cons change rest ih =>
      -- One change past the second list, then the rest of the first.
      have hpast : ∀ (changes : List (Nat × RowVersion)) (chains : List Chain), Apart chains.length [change] changes →
          replay (placeVersion change.2.txidMin chains change) changes =
            placeVersion change.2.txidMin (replay chains changes) change := by
        intro changes
        induction changes with
        | nil => exact fun _ _ => rfl
        | cons other others ihOthers =>
            intro chains hother
            rw [replay_cons, replay_cons,
              placeVersion_comm (hother change List.mem_cons_self other List.mem_cons_self)]
            apply ihOthers
            intro item hitem next hnext
            exact hother.mono (length_le_placeVersion _ _ _) item hitem next (List.mem_cons_of_mem _ hnext)
      rw [replay_cons, replay_cons, ih, hpast]
      · intro item hitem other hother
        rw [List.mem_singleton.mp hitem]
        exact hapart change List.mem_cons_self other hother
      · intro item hitem other hother
        exact hapart.mono (length_le_placeVersion _ _ _) item (List.mem_cons_of_mem _ hitem) other hother

/-! ### The first version of a list -/

/-- The writers of the versions of a row. -/
def writers (chains : List Chain) (row : Nat) : List Nat := (chains[row]?.getD []).map (·.txidMin)

theorem map_txidMin_closeLatest (txid : Nat) (chain : Chain) :
    (closeLatest txid chain).map (·.txidMin) = chain.map (·.txidMin) := by
  rcases List.eq_nil_or_concat chain with rfl | ⟨prior, latest, rfl⟩
  · rfl
  · simp

/-- A change adds one writer to the row it is placed in. -/
theorem writers_placeVersion (txid : Nat) (chains : List Chain) (change : Nat × RowVersion) (row : Nat) :
    writers (placeVersion txid chains change) row =
      if min change.1 chains.length = row then writers chains row ++ [change.2.txidMin] else writers chains row := by
  obtain ⟨target, version⟩ := change
  unfold writers
  by_cases htarget : target < chains.length
  · rw [placeVersion_of_lt htarget, List.getElem?_modify]
    by_cases hrow : target = row
    · subst hrow
      rw [if_pos (by omega), List.getElem?_eq_getElem htarget]
      simp [extendChain, map_txidMin_closeLatest]
    · rw [if_neg (by omega)]
      simp [hrow]
  · have hend : chains.length ≤ target := Nat.le_of_not_lt htarget
    rw [placeVersion_of_le hend]
    by_cases hrow : chains.length = row
    · subst hrow
      rw [if_pos (by omega), List.getElem?_concat_length]
      simp
    · rw [if_neg (by omega)]
      by_cases hlt : row < chains.length
      · rw [List.getElem?_append_left hlt]
      · have hpast : (chains ++ [[version]]).length ≤ row := by
          rw [List.length_append, List.length_singleton]
          omega
        rw [List.getElem?_eq_none hpast, List.getElem?_eq_none (by omega)]

theorem writers_prefix_replay (chains : List Chain) (changes : List (Nat × RowVersion)) (row : Nat) :
    writers chains row <+: writers (replay chains changes) row := by
  induction changes generalizing chains with
  | nil => exact List.prefix_rfl
  | cons change rest ih =>
      refine List.IsPrefix.trans ?_ (ih _)
      rw [writers_placeVersion]
      split
      · exact List.prefix_append _ _
      · exact List.prefix_rfl

/-- Behind the versions that a row has, the first one is of the first change to that row. -/
theorem getElem?_writers_replay {row : Nat} (hrow : row ≤ chains.length) (changes : List (Nat × RowVersion)) :
    (writers (replay chains changes) row)[(writers chains row).length]? =
      (changes.find? fun change => min change.1 chains.length = row).map (·.2.txidMin) := by
  induction changes generalizing chains with
  | nil => exact List.getElem?_eq_none le_rfl
  | cons change rest ih =>
      have hplaced := writers_placeVersion change.2.txidMin chains change row
      rw [replay_cons, List.find?_cons]
      by_cases hhere : min change.1 chains.length = row
      · rw [if_pos hhere] at hplaced
        have hleads := writers_prefix_replay (placeVersion change.2.txidMin chains change) rest row
        rw [hplaced] at hleads
        obtain ⟨later, hlater⟩ := hleads
        rw [decide_eq_true hhere, ← hlater, List.append_assoc, List.getElem?_append_right le_rfl, Nat.sub_self]
        rfl
      · rw [if_neg hhere] at hplaced
        have hlonger := length_le_placeVersion change.2.txidMin chains change
        have hlength : row = chains.length → (placeVersion change.2.txidMin chains change).length = chains.length := by
          intro hend
          have hlt : change.1 < chains.length := by omega
          rw [placeVersion, if_pos hlt, List.length_modify]
        rw [decide_eq_false hhere, ← hplaced, ih (hrow.trans hlonger)]
        apply congrArg (Option.map _)
        apply List.find?_congr
        intro item _
        rw [decide_eq_decide]
        rcases Nat.lt_or_eq_of_le hrow with hlt | hend
        · omega
        · rw [hlength hend]

/-- Lists of changes by different writers that share a row are not placed in either order. -/
theorem not_replay_comm {txid : Nat} (hshared : ¬ Apart chains.length first second)
    (hfirst : ∀ change ∈ first, change.2.txidMin = txid) (hsecond : ∀ change ∈ second, change.2.txidMin ≠ txid) :
    replay (replay chains first) second ≠ replay (replay chains second) first := by
  simp only [Apart, not_forall, not_not] at hshared
  obtain ⟨change, hchange, other, hother, hsame⟩ := hshared
  have hrow : min change.1 chains.length ≤ chains.length := Nat.min_le_right _ _
  intro heq
  have hfound := getElem?_writers_replay hrow (first ++ second)
  rw [replay_append, heq, ← replay_append, getElem?_writers_replay hrow] at hfound
  -- The first change to the row is one of the first list on the one side and of the second on the other.
  obtain ⟨before, hbefore⟩ : ∃ item, (first ++ second).find? (fun item =>
      min item.1 chains.length = min change.1 chains.length) = some item ∧ item ∈ first := by
    cases hfind : first.find? fun item => min item.1 chains.length = min change.1 chains.length with
    | none => simpa using List.find?_eq_none.mp hfind change hchange
    | some item => exact ⟨item, by rw [List.find?_append, hfind]; rfl, List.mem_of_find?_eq_some hfind⟩
  obtain ⟨behind, hbehind⟩ : ∃ item, (second ++ first).find? (fun item =>
      min item.1 chains.length = min change.1 chains.length) = some item ∧ item ∈ second := by
    cases hfind : second.find? fun item => min item.1 chains.length = min change.1 chains.length with
    | none => simpa [hsame] using List.find?_eq_none.mp hfind other hother
    | some item => exact ⟨item, by rw [List.find?_append, hfind]; rfl, List.mem_of_find?_eq_some hfind⟩
  rw [hbefore.1, hbehind.1, Option.map_some, Option.map_some, Option.some.injEq, hfirst before hbefore.2] at hfound
  exact hsecond behind hbehind.2 hfound

/-- Changes that are placed leave a trace. -/
theorem replay_ne_self {changes : List (Nat × RowVersion)} (hne : changes ≠ []) : replay chains changes ≠ chains := by
  obtain ⟨change, rest, rfl⟩ := List.exists_cons_of_ne_nil hne
  intro heq
  have hfound := getElem?_writers_replay (Nat.min_le_right change.1 chains.length) (change :: rest)
  rw [heq, List.getElem?_eq_none le_rfl, List.find?_cons, decide_eq_true rfl] at hfound
  cases hfound

theorem replay_comm_iff {txid : Nat} (hfirst : ∀ change ∈ first, change.2.txidMin = txid)
    (hsecond : ∀ change ∈ second, change.2.txidMin ≠ txid) :
    replay (replay chains first) second = replay (replay chains second) first ↔ Apart chains.length first second := by
  constructor
  · intro heq
    by_contra hshared
    exact not_replay_comm hshared hfirst hsecond heq
  · exact replay_comm

/-- The version that is placed is the last one of its row. -/
theorem exists_getLast?_placeVersion (txid : Nat) (chains : List Chain) (change : Nat × RowVersion) :
    ∃ chain ∈ placeVersion txid chains change, chain.getLast? = some change.2 := by
  obtain ⟨row, version⟩ := change
  by_cases hrow : row < chains.length
  · exact ⟨_, List.mem_of_getElem? (getElem?_placeVersion_self hrow), List.getLast?_concat⟩
  · exact ⟨_, List.mem_of_getElem? (getElem?_placeVersion_new (Nat.le_of_not_lt hrow)), rfl⟩

/-- The highest writer among the last versions of the rows, 0 where there is none. -/
def lastWriter (chains : List Chain) : Nat :=
  ((chains.filterMap fun chain => chain.getLast?.map (·.txidMin)).max?).getD 0

theorem le_lastWriter {chain : Chain} {version : RowVersion} (hmem : chain ∈ chains) (hlast : chain.getLast? = some version) :
    version.txidMin ≤ lastWriter chains := by
  have hwriter : version.txidMin ∈ chains.filterMap fun chain => chain.getLast?.map (·.txidMin) :=
    List.mem_filterMap.mpr ⟨chain, hmem, by rw [hlast]; rfl⟩
  exact List.le_max?_getD_of_mem hwriter

theorem lastWriter_le {txid : Nat}
    (h : ∀ chain ∈ chains, ∀ version, chain.getLast? = some version → version.txidMin ≤ txid) : lastWriter chains ≤ txid := by
  unfold lastWriter
  cases hmax : (chains.filterMap fun chain => chain.getLast?.map (·.txidMin)).max? with
  | none => exact Nat.zero_le _
  | some writer =>
      obtain ⟨chain, hchain, hlast⟩ := List.mem_filterMap.mp (List.max?_mem hmax)
      obtain ⟨version, hversion, rfl⟩ := Option.map_eq_some_iff.mp hlast
      exact h chain hchain version hversion

/-- A replay has no last writer that neither the rows nor its changes have. -/
theorem lastWriter_replay_le {changes : List (Nat × RowVersion)} {txid : Nat} (hchains : lastWriter chains ≤ txid)
    (hchanges : ∀ change ∈ changes, change.2.txidMin ≤ txid) : lastWriter (replay chains changes) ≤ txid := by
  induction changes generalizing chains with
  | nil => exact hchains
  | cons change rest ih =>
      obtain ⟨hchange, hrest⟩ := List.forall_mem_cons.mp hchanges
      rw [replay_cons]
      apply ih _ hrest
      apply lastWriter_le
      intro chain hchain version hlast
      rcases mem_placeVersion hchain with hold | ⟨old, -, rfl⟩ | rfl
      · exact (le_lastWriter hold hlast).trans hchains
      · rw [extendChain, List.getLast?_concat, Option.some.injEq] at hlast
        exact hlast ▸ hchange
      · rw [List.getLast?_singleton, Option.some.injEq] at hlast
        exact hlast ▸ hchange

/-- The last changes of a replay are not older than all of its changes. -/
theorem le_lastWriter_replay {changes : List (Nat × RowVersion)} {txid : Nat} (hne : changes ≠ [])
    (hchanges : ∀ change ∈ changes, txid ≤ change.2.txidMin) : txid ≤ lastWriter (replay chains changes) := by
  obtain ⟨before, change, rfl⟩ := List.eq_nil_or_concat changes |>.resolve_left hne
  rw [List.concat_eq_append, replay_append, replay_cons, replay_nil]
  obtain ⟨chain, hmem, hlast⟩ := exists_getLast?_placeVersion change.2.txidMin (replay chains before) change
  have hchange : txid ≤ change.2.txidMin := hchanges change (by simp)
  exact hchange.trans (le_lastWriter hmem hlast)

end

end HelionDb
