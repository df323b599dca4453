import HelionDb.IndexJoin
import HelionDb.JoinedLists

/-! The hash join beside the nested-loop join. Whichever side it builds from, it reads the rows on the left at the first
list of positions and those on the right at the second, and it finds the pairs that pass the ON clause and have the same
key without NULL there. Where it builds from the right the planner hands it the positions of the right columns first. A
row that an outer join keeps is padded only if its side is built from, its key has no NULL and no row has the same key. -/

namespace HelionDb

open Expression (TableSlot positionOf)
open JoinedLists (joined)

namespace QueryPlan

section

variable {tables : List Table} {left right : QueryPlan} {onClause remainingOn : Option Expression} {buildLeft : Bool}
  {buildKeyIndices probeKeyIndices : List Nat}

/-- The positions of the side that is built from come first. -/
theorem of_selectJoinAlgorithm_hash
    (h : selectJoinAlgorithm tables left right onClause = .hashJoin buildLeft buildKeyIndices probeKeyIndices remainingOn) :
    ∃ on, onClause = some on ∧ remainingOn = some on ∧ hashJoinKeys left right on ≠ [] ∧
      buildLeft = decide (left.countOutputColumns ≤ right.countOutputColumns) ∧
      (buildKeyIndices, probeKeyIndices) =
        if left.countOutputColumns ≤ right.countOutputColumns then
          ((hashJoinKeys left right on).map Prod.fst, (hashJoinKeys left right on).map Prod.snd)
        else ((hashJoinKeys left right on).map Prod.snd, (hashJoinKeys left right on).map Prod.fst) := by
  unfold selectJoinAlgorithm at h
  cases onClause with
  | none => cases h
  | some on =>
      dsimp only at h
      cases hchosen : chooseIndexJoin tables left right on with
      | some algorithm =>
          rw [hchosen] at h
          dsimp only at h
          obtain ⟨_, _, _, _, _, _, _, _, _, _, _, _, _, _, hcompared⟩ := of_chooseIndexJoin hchosen
          obtain ⟨_, _, _, _, _, _, _, _, _, _, _, halgorithm⟩ := hcompared
          cases halgorithm.symm.trans h
      | none =>
          rw [hchosen] at h
          dsimp only at h
          split at h
          · cases h
          next hkeys =>
              have hne : hashJoinKeys left right on ≠ [] := by simpa using hkeys
              split at h
              next hle =>
                  injection h with hbuild hbuildKeys hprobeKeys hremaining
                  exact ⟨on, rfl, hremaining.symm, hne, hbuild ▸ (decide_eq_true hle).symm,
                    by rw [if_pos hle, hbuildKeys, hprobeKeys]⟩
              next hle =>
                  injection h with hbuild hbuildKeys hprobeKeys hremaining
                  exact ⟨on, rfl, hremaining.symm, hne, hbuild ▸ (decide_eq_false hle).symm,
                    by rw [if_neg hle, hbuildKeys, hprobeKeys]⟩

/-- A hash join compares a column of a scan on the left with one of a scan on the right. -/
theorem of_hashJoinKeys {on : Expression} (h : hashJoinKeys left right on ≠ []) :
    ∃ leftName leftColumns leftFilter leftIndex leftKeys rightName rightColumns rightFilter rightIndex rightKeys,
      left = .tableScan leftName leftColumns leftFilter leftIndex leftKeys ∧
      right = .tableScan rightName rightColumns rightFilter rightIndex rightKeys ∧
      ∃ pair ∈ extractEquiJoinPairs on, ∃ leftColumn rightColumn leftIdx rightIdx,
        pair.1 = .column leftColumn ∧ pair.2 = .column rightColumn ∧
        positionOf leftColumns leftColumn = some leftIdx ∧ positionOf rightColumns rightColumn = some rightIdx := by
  obtain ⟨key, hkey⟩ := List.exists_mem_of_ne_nil _ h
  obtain ⟨pair, hpair, hfound⟩ := List.mem_filterMap.mp hkey
  split at hfound
  next leftIdx rightIdx hleft hright =>
      obtain ⟨leftColumn, leftName, leftColumns, leftFilter, leftIndex, leftKeys, hfirst, rfl, hleftIdx⟩ :=
        extractColumnIndex_eq_some.mp hleft
      obtain ⟨rightColumn, rightName, rightColumns, rightFilter, rightIndex, rightKeys, hsecond, rfl, hrightIdx⟩ :=
        extractColumnIndex_eq_some.mp hright
      exact ⟨leftName, leftColumns, leftFilter, leftIndex, leftKeys, rightName, rightColumns, rightFilter, rightIndex,
        rightKeys, rfl, rfl, pair, hpair, leftColumn, rightColumn, leftIdx, rightIdx, hfirst, hsecond, hleftIdx,
        hrightIdx⟩
  next => cases hfound

end

/-! ### The rows of the two joins -/

section

variable [CaseMapping] [Rendering] {choices : QueryChoices} {leftSlots rightSlots : List TableSlot}
  {joinType : JoinType} {on : Option Expression} {buildLeft : Bool} {buildKeyIndices probeKeyIndices : List Nat}
  {leftRows rightRows : DataRows}

/-- The nested-loop join has the pairs that pass and, in an outer join, the rows without a partner. -/
theorem nestedLoopJoin_perm :
    (nestedLoopJoin choices leftSlots rightSlots joinType on leftRows rightRows).Perm
      (joined (joinPasses choices leftSlots rightSlots on) (· ++ ·) leftRows rightRows ++
        ((leftRows.filter fun leftRow => joinType = .left ∧
          ∀ rightRow ∈ rightRows, joinPasses choices leftSlots rightSlots on leftRow rightRow = false).map
            (· ++ padding (slotsWidth rightSlots)) ++
        (rightRows.filter fun rightRow => joinType = .right ∧
          ∀ leftRow ∈ leftRows, joinPasses choices leftSlots rightSlots on leftRow rightRow = false).map
            (padding (slotsWidth leftSlots) ++ ·))) := by
  have hfound :
      ∀ leftRow, (rightRows.map (leftRow ++ ·)).filter (satisfies choices (joinSlots leftSlots rightSlots) on) =
      (rightRows.filter (joinPasses choices leftSlots rightSlots on leftRow)).map (leftRow ++ ·) :=
    fun leftRow => List.filter_map
  have hempty : ∀ leftRow, ((rightRows.filter (joinPasses choices leftSlots rightSlots on leftRow)).map
        (leftRow ++ ·)).isEmpty =
      decide (∀ rightRow ∈ rightRows, joinPasses choices leftSlots rightSlots on leftRow rightRow = false) := by
    intro leftRow
    rw [Bool.eq_iff_iff, List.isEmpty_iff, List.map_eq_nil_iff, List.filter_eq_nil_iff, decide_eq_true_iff]
    simp only [Bool.not_eq_true]
  have hmatched : (leftRows.flatMap fun leftRow => combineLeft choices (joinSlots leftSlots rightSlots) joinType on
        (slotsWidth rightSlots) leftRow rightRows).Perm
      (joined (joinPasses choices leftSlots rightSlots on) (· ++ ·) leftRows rightRows ++
        (leftRows.filter fun leftRow => joinType = .left ∧
          ∀ rightRow ∈ rightRows, joinPasses choices leftSlots rightSlots on leftRow rightRow = false).map
            (· ++ padding (slotsWidth rightSlots))) := by
    unfold combineLeft
    dsimp only
    by_cases hleft : joinType = .left
    · have horElse := JoinedLists.flatMap_orElse_perm
        (fun leftRow => (rightRows.filter (joinPasses choices leftSlots rightSlots on leftRow)).map (leftRow ++ ·))
        (· ++ padding (slotsWidth rightSlots)) leftRows
      simp only [hempty] at horElse
      simp only [hfound, hempty, hleft, decide_true, Bool.and_true, true_and]
      exact horElse
    · simp only [hfound, hleft, decide_false, Bool.and_false, false_and, List.filter_false, List.map_nil,
        List.append_nil, Bool.false_eq_true, if_false]
      exact .refl _
  have hunmatched : (if joinType = .right then
      (rightRows.filter fun rightRow => !leftRows.any fun leftRow =>
        satisfies choices (joinSlots leftSlots rightSlots) on (leftRow ++ rightRow)).map
          (padding (slotsWidth leftSlots) ++ ·)
      else []) =
      (rightRows.filter fun rightRow => joinType = .right ∧
        ∀ leftRow ∈ leftRows, joinPasses choices leftSlots rightSlots on leftRow rightRow = false).map
          (padding (slotsWidth leftSlots) ++ ·) := by
    by_cases hright : joinType = .right
    · rw [if_pos hright]
      apply congrArg (List.map _)
      apply List.filter_congr
      intro rightRow _
      rw [Bool.eq_iff_iff, Bool.not_eq_true', List.any_eq_false, decide_eq_true_iff, and_iff_right hright]
      simp only [joinPasses, Bool.not_eq_true]
    · rw [if_neg hright]
      simp only [hright, false_and, decide_false, List.filter_false, List.map_nil]
  unfold nestedLoopJoin
  dsimp only
  rw [hunmatched]
  exact (hmatched.append_right _).trans (.of_eq (List.append_assoc _ _ _))

/-- The hash map finds the rows on one side under the key of a row on the other, which has no NULL. -/
def sameKey (leftKeys rightKeys : List Nat) (leftRow rightRow : List Datum) : Bool :=
  findsKey (keyAt leftKeys leftRow) (keyAt rightKeys rightRow) && !hasNull (keyAt leftKeys leftRow)

omit [CaseMapping] [Rendering] in
theorem sameKey_iff {leftKeys rightKeys : List Nat} {leftRow rightRow : List Datum} :
    sameKey leftKeys rightKeys leftRow rightRow = true ↔
      keyAt leftKeys leftRow = keyAt rightKeys rightRow ∧
        keyEq (keyAt leftKeys leftRow) (keyAt rightKeys rightRow) = true ∧ hasNull (keyAt leftKeys leftRow) = false := by
  rw [sameKey, Bool.and_eq_true_iff, findsKey_iff, Bool.not_eq_true', and_assoc]

omit [CaseMapping] [Rendering] in
theorem sameKey_comm {leftKeys rightKeys : List Nat} {leftRow rightRow : List Datum} :
    sameKey leftKeys rightKeys leftRow rightRow = sameKey rightKeys leftKeys rightRow leftRow := by
  rw [Bool.eq_iff_iff, sameKey_iff, sameKey_iff]
  by_cases hkey : keyAt leftKeys leftRow = keyAt rightKeys rightRow
  · rw [hkey]
  · exact iff_of_false (fun h => hkey h.1) fun h => hkey h.1.symm

omit [CaseMapping] [Rendering] in
/-- What one row of the side that probes finds. -/
theorem probe_eq {passes : List Datum → Bool} {combine : List Datum → List Datum} {buildRows : DataRows}
    {buildKeys probeKeys : List Nat} {probeRow : List Datum} :
    (if hasNull (keyAt probeKeys probeRow) then []
      else (((HashTable.build buildKeys buildRows).lookup (keyAt probeKeys probeRow)).map combine).filter passes) =
      (buildRows.filter fun buildRow => passes (combine buildRow) && sameKey buildKeys probeKeys buildRow probeRow).map
        combine := by
  have hfound : ∀ buildRow : List Datum,
      (!hasNull (keyAt buildKeys buildRow) && findsKey (keyAt buildKeys buildRow) (keyAt probeKeys probeRow)) =
        sameKey buildKeys probeKeys buildRow probeRow := fun buildRow => Bool.and_comm _ _
  by_cases hnull : hasNull (keyAt probeKeys probeRow) = true
  · have hnone : ∀ buildRow, sameKey buildKeys probeKeys buildRow probeRow = false := by
      intro buildRow
      rw [sameKey_comm, sameKey, hnull, Bool.not_true, Bool.and_false]
    rw [if_pos hnull]
    simp only [hnone, Bool.and_false, List.filter_false, List.map_nil]
  · rw [if_neg hnull, HashTable.lookup_build, List.filter_map, List.filter_filter]
    simp only [hfound, Function.comp_apply]

omit [CaseMapping] [Rendering] in
/-- The rows of a table of a hash join whose key no row on the other side has. -/
theorem unmatchedRows_perm (buildRows probeRows : DataRows) (buildKeys probeKeys : List Nat) :
    ((((HashTable.build buildKeys buildRows).iterated choices).filter fun entry =>
        !probeHasKey entry.1 probeRows probeKeys).flatMap Prod.snd).Perm
      (buildRows.filter fun buildRow => hasNull (keyAt buildKeys buildRow) = false ∧
        ∀ probeRow ∈ probeRows, keyEq (keyAt probeKeys probeRow) (keyAt buildKeys buildRow) = false) := by
  have hbuilt := @HashTable.rowsWhere_build_perm buildKeys buildRows fun key => !probeHasKey key probeRows probeKeys
  refine ((HashTable.iterated_perm.filter _).flatMap_right _).trans (hbuilt.trans (.of_eq ?_))
  apply List.filter_congr
  intro buildRow _
  rw [Bool.eq_iff_iff, decide_eq_true_iff, Bool.and_eq_true_iff, Bool.not_eq_true', Bool.not_eq_true', probeHasKey,
    List.any_eq_false]
  simp only [Bool.not_eq_true]

/-- The hash join has the pairs that pass and have the same key without NULL, and the rows of the side it builds from
whose key is without NULL and on no row of the other side, where its join type keeps them. -/
theorem hashJoin_perm :
    (hashJoin choices leftSlots rightSlots joinType buildLeft buildKeyIndices probeKeyIndices on leftRows rightRows).Perm
      (joined (fun leftRow rightRow => joinPasses choices leftSlots rightSlots on leftRow rightRow &&
          sameKey buildKeyIndices probeKeyIndices leftRow rightRow) (· ++ ·) leftRows rightRows ++
        ((leftRows.filter fun leftRow => joinType = .left ∧ buildLeft = true ∧
          hasNull (keyAt buildKeyIndices leftRow) = false ∧
          ∀ rightRow ∈ rightRows, keyEq (keyAt probeKeyIndices rightRow) (keyAt buildKeyIndices leftRow) = false).map
            (· ++ padding (slotsWidth rightSlots)) ++
        (rightRows.filter fun rightRow => joinType = .right ∧ buildLeft = false ∧
          hasNull (keyAt probeKeyIndices rightRow) = false ∧
          ∀ leftRow ∈ leftRows, keyEq (keyAt buildKeyIndices leftRow) (keyAt probeKeyIndices rightRow) = false).map
            (padding (slotsWidth leftSlots) ++ ·))) := by
  unfold hashJoin
  dsimp only
  simp only [probe_eq]
  cases buildLeft with
  | true =>
      have hmatched := @JoinedLists.joined_swap _ _ _ (fun leftRow rightRow =>
        joinPasses choices leftSlots rightSlots on leftRow rightRow &&
          sameKey buildKeyIndices probeKeyIndices leftRow rightRow) (· ++ ·) leftRows rightRows
      simp only [if_true]
      refine List.Perm.append ?_ ?_
      · exact List.Perm.trans (.of_eq rfl) hmatched
      · by_cases hleft : joinType = .left
        · have hpads := (@unmatchedRows_perm choices leftRows rightRows buildKeyIndices probeKeyIndices).map
            (· ++ padding (slotsWidth rightSlots))
          simpa [hleft] using hpads
        · simp [hleft]
  | false =>
      refine List.Perm.append (.of_eq ?_) ?_
      · simp only [Bool.false_eq_true, if_false, @sameKey_comm probeKeyIndices]
        rfl
      by_cases hright : joinType = .right
      · have hpads := (@unmatchedRows_perm choices rightRows leftRows probeKeyIndices buildKeyIndices).map
          (padding (slotsWidth leftSlots) ++ ·)
        simpa [hright] using hpads
      · simp [hright]

/-- Every pair that passes the ON clause has the same key bit for bit, without NULL and without NaN (a key with a NaN is
not `==` to itself), at the positions that the hash join reads. -/
def KeysAgree (choices : QueryChoices) (leftSlots rightSlots : List TableSlot) (on : Option Expression)
    (leftKeys rightKeys : List Nat) (leftRows rightRows : DataRows) : Prop :=
  ∀ leftRow ∈ leftRows, ∀ rightRow ∈ rightRows, joinPasses choices leftSlots rightSlots on leftRow rightRow = true →
    keyAt leftKeys leftRow = keyAt rightKeys rightRow ∧
      keyEq (keyAt leftKeys leftRow) (keyAt rightKeys rightRow) = true ∧ hasNull (keyAt leftKeys leftRow) = false

theorem joined_sameKey_perm_iff :
    (joined (fun leftRow rightRow => joinPasses choices leftSlots rightSlots on leftRow rightRow &&
        sameKey buildKeyIndices probeKeyIndices leftRow rightRow) (· ++ ·) leftRows rightRows).Perm
      (joined (joinPasses choices leftSlots rightSlots on) (· ++ ·) leftRows rightRows) ↔
    KeysAgree choices leftSlots rightSlots on buildKeyIndices probeKeyIndices leftRows rightRows := by
  rw [JoinedLists.joined_perm_iff fun _ _ h => (Bool.and_eq_true_iff.mp h).1]
  simp only [KeysAgree, Bool.and_eq_true_iff, sameKey_iff]
  constructor
  · intro h leftRow hleft rightRow hright hpasses
    exact (h leftRow hleft rightRow hright hpasses).2
  · intro h leftRow hleft rightRow hright hpasses
    exact ⟨hpasses, h leftRow hleft rightRow hright hpasses⟩

/-- Without rows to keep, the two joins differ by the pairs only. -/
theorem hashJoin_inner_iff :
    (hashJoin choices leftSlots rightSlots .inner buildLeft buildKeyIndices probeKeyIndices on leftRows rightRows).Perm
      (nestedLoopJoin choices leftSlots rightSlots .inner on leftRows rightRows) ↔
    KeysAgree choices leftSlots rightSlots on buildKeyIndices probeKeyIndices leftRows rightRows := by
  rw [hashJoin_perm.congr_left, nestedLoopJoin_perm.congr_right, ← joined_sameKey_perm_iff]
  simp

/-! ### Rows that an outer join keeps -/

/-- A row of the side that is kept, without a partner, is one that the hash join pads: its side is built from, its key has
no NULL and no row on the other side has a key that is `==` to it. -/
structure PadsUnmatched (choices : QueryChoices) (leftSlots rightSlots : List TableSlot) (joinType : JoinType)
    (on : Option Expression) (buildLeft : Bool) (leftKeys rightKeys : List Nat) (leftRows rightRows : DataRows) : Prop where
  left : joinType = .left → ∀ leftRow ∈ leftRows,
    (∀ rightRow ∈ rightRows, joinPasses choices leftSlots rightSlots on leftRow rightRow = false) →
      buildLeft = true ∧ hasNull (keyAt leftKeys leftRow) = false ∧
        ∀ rightRow ∈ rightRows, keyEq (keyAt rightKeys rightRow) (keyAt leftKeys leftRow) = false
  right : joinType = .right → ∀ rightRow ∈ rightRows,
    (∀ leftRow ∈ leftRows, joinPasses choices leftSlots rightSlots on leftRow rightRow = false) →
      buildLeft = false ∧ hasNull (keyAt rightKeys rightRow) = false ∧
        ∀ leftRow ∈ leftRows, keyEq (keyAt leftKeys leftRow) (keyAt rightKeys rightRow) = false

/-- Padded rows that a test tells from the pairs are compared on their own. -/
theorem joined_append_perm_iff {kept : DataRows} {pad : List Datum → List Datum} (hpad : pad.Injective)
    {second padded unmatched : List Datum → Bool} (hkept : ∀ row ∈ kept, second (pad row) = true)
    (hpairs : ∀ leftRow ∈ leftRows, ∀ rightRow ∈ rightRows,
      joinPasses choices leftSlots rightSlots on leftRow rightRow = true → second (leftRow ++ rightRow) = false) :
    (joined (fun leftRow rightRow => joinPasses choices leftSlots rightSlots on leftRow rightRow &&
          sameKey buildKeyIndices probeKeyIndices leftRow rightRow) (· ++ ·) leftRows rightRows ++
        (kept.filter padded).map pad).Perm
      (joined (joinPasses choices leftSlots rightSlots on) (· ++ ·) leftRows rightRows ++
        (kept.filter unmatched).map pad) ↔
    KeysAgree choices leftSlots rightSlots on buildKeyIndices probeKeyIndices leftRows rightRows ∧
      ∀ row ∈ kept, padded row = unmatched row := by
  rw [@JoinedLists.append_perm_append_iff _ second, joined_sameKey_perm_iff, List.map_perm_map_iff hpad,
    JoinedLists.filter_perm_filter_iff]
  · intro item hitem
    rcases List.mem_append.mp hitem with hmem | hmem
    · obtain ⟨leftRow, hleft, rightRow, hright, hpasses, rfl⟩ := JoinedLists.mem_joined.mp hmem
      exact hpairs leftRow hleft rightRow hright (Bool.and_eq_true_iff.mp hpasses).1
    · obtain ⟨leftRow, hleft, rightRow, hright, hpasses, rfl⟩ := JoinedLists.mem_joined.mp hmem
      exact hpairs leftRow hleft rightRow hright hpasses
  · intro item hitem
    rw [← List.map_append] at hitem
    obtain ⟨row, hrow, rfl⟩ := List.mem_map.mp hitem
    exact hkept row ((List.mem_append.mp hrow).elim List.mem_of_mem_filter List.mem_of_mem_filter)

theorem hashJoin_left_iff (hvalues : ComparesValues choices leftSlots rightSlots on)
    (hwidth : ∀ row ∈ leftRows, row.length = slotsWidth leftSlots) :
    (hashJoin choices leftSlots rightSlots .left buildLeft buildKeyIndices probeKeyIndices on leftRows rightRows).Perm
      (nestedLoopJoin choices leftSlots rightSlots .left on leftRows rightRows) ↔
    KeysAgree choices leftSlots rightSlots on buildKeyIndices probeKeyIndices leftRows rightRows ∧
      PadsUnmatched choices leftSlots rightSlots .left on buildLeft buildKeyIndices probeKeyIndices leftRows rightRows := by
  rw [hashJoin_perm.congr_left, nestedLoopJoin_perm.congr_right]
  simp only [reduceCtorEq, false_and, decide_false, List.filter_false, List.map_nil, List.append_nil, true_and]
  rw [@joined_append_perm_iff _ _ _ _ _ _ _ _ _ _ _ _ (fun left right h => (List.append_left_inj _).mp h)
    fun row => decide (row.drop (slotsWidth leftSlots) = padding (slotsWidth rightSlots))]
  · apply and_congr_right
    intro hkeys
    constructor
    · intro h
      refine ⟨fun _ leftRow hleft hnone => ?_, fun hright => by cases hright⟩
      exact of_decide_eq_true ((h leftRow hleft).trans (decide_eq_true hnone))
    · intro h leftRow hleft
      rw [decide_eq_decide]
      constructor
      · rintro ⟨-, -, hother⟩ rightRow hright
        apply Bool.eq_false_of_not_eq_true
        intro hpasses
        obtain ⟨hkey, hsame, -⟩ := hkeys leftRow hleft rightRow hright hpasses
        have hdiffers := hother rightRow hright
        rw [hkey] at hsame hdiffers
        exact Bool.false_ne_true (hdiffers.symm.trans hsame)
      · exact h.left rfl leftRow hleft
  · intro row hrow
    rw [decide_eq_true_iff, List.drop_left' (hwidth row hrow)]
  · intro leftRow hleft rightRow _ hpasses
    rw [decide_eq_false_iff_not, List.drop_left' (hwidth leftRow hleft)]
    exact (hvalues leftRow rightRow (hwidth leftRow hleft) hpasses).2

theorem hashJoin_right_iff (hvalues : ComparesValues choices leftSlots rightSlots on)
    (hwidth : ∀ row ∈ leftRows, row.length = slotsWidth leftSlots) :
    (hashJoin choices leftSlots rightSlots .right buildLeft buildKeyIndices probeKeyIndices on leftRows rightRows).Perm
      (nestedLoopJoin choices leftSlots rightSlots .right on leftRows rightRows) ↔
    KeysAgree choices leftSlots rightSlots on buildKeyIndices probeKeyIndices leftRows rightRows ∧
      PadsUnmatched choices leftSlots rightSlots .right on buildLeft buildKeyIndices probeKeyIndices leftRows rightRows := by
  rw [hashJoin_perm.congr_left, nestedLoopJoin_perm.congr_right]
  simp only [reduceCtorEq, false_and, decide_false, List.filter_false, List.map_nil, List.nil_append, true_and]
  rw [@joined_append_perm_iff _ _ _ _ _ _ _ _ _ _ _ _ (fun left right h => (List.append_right_inj _).mp h)
    fun row => decide (row.take (slotsWidth leftSlots) = padding (slotsWidth leftSlots))]
  · apply and_congr_right
    intro hkeys
    constructor
    · intro h
      refine ⟨(fun hleft => by cases hleft), fun _ rightRow hright hnone => ?_⟩
      exact of_decide_eq_true ((h rightRow hright).trans (decide_eq_true hnone))
    · intro h rightRow hright
      rw [decide_eq_decide]
      constructor
      · rintro ⟨-, -, hother⟩ leftRow hleft
        apply Bool.eq_false_of_not_eq_true
        intro hpasses
        have hsame := (hkeys leftRow hleft rightRow hright hpasses).2.1
        exact Bool.false_ne_true ((hother leftRow hleft).symm.trans hsame)
      · exact h.right rfl rightRow hright
  · intro row _
    rw [decide_eq_true_iff, List.take_left' (length_padding _)]
  · intro leftRow hleft rightRow _ hpasses
    rw [decide_eq_false_iff_not, List.take_left' (hwidth leftRow hleft)]
    exact (hvalues leftRow rightRow (hwidth leftRow hleft) hpasses).1

end

section

variable [CaseMapping] [Rendering] {ctx : ExecContext} {left right : QueryPlan} {joinType : JoinType}
  {onClause remainingOn : Option Expression} {buildLeft : Bool} {buildKeyIndices probeKeyIndices : List Nat}
  {leftRows rightRows : DataRows}

theorem executeTree_hashJoin (hleft : executeTree ctx left = .ok leftRows) (hright : executeTree ctx right = .ok rightRows) :
    executeTree ctx (.join left right joinType (.hashJoin buildLeft buildKeyIndices probeKeyIndices remainingOn)) =
      .ok (hashJoin ctx.choices left.slots right.slots joinType buildLeft buildKeyIndices probeKeyIndices remainingOn
        leftRows rightRows) := by
  rw [executeTree, hleft, hright]
  rfl

/-- Where the planner chooses the hash join for an inner join, it gives the rows of the nested-loop join exactly where the
pairs that pass have the same key, without NULL, at the positions that the hash join reads. -/
theorem hashJoin_inner_perm_iff
    (hchosen : selectJoinAlgorithm ctx.tables left right onClause =
      .hashJoin buildLeft buildKeyIndices probeKeyIndices remainingOn)
    (hleft : executeTree ctx left = .ok leftRows) (hright : executeTree ctx right = .ok rightRows) :
    ∃ fast slow,
      executeTree ctx (.join left right .inner (selectJoinAlgorithm ctx.tables left right onClause)) = .ok fast ∧
      executeTree ctx (.join left right .inner (.nestedLoop onClause)) = .ok slow ∧
      (fast.Perm slow ↔
        KeysAgree ctx.choices left.slots right.slots onClause buildKeyIndices probeKeyIndices leftRows rightRows) := by
  obtain ⟨on, rfl, rfl, -, -, -⟩ := of_selectJoinAlgorithm_hash hchosen
  rw [hchosen]
  exact ⟨_, _, executeTree_hashJoin hleft hright, executeTree_nestedLoop hleft hright, hashJoin_inner_iff⟩

/-- Where the planner chooses the hash join for a LEFT or a RIGHT JOIN, it gives the rows of the nested-loop join exactly
where, besides, it pads the rows without a partner. -/
theorem hashJoin_outer_perm_iff (houter : joinType = .left ∨ joinType = .right)
    (hchosen : selectJoinAlgorithm ctx.tables left right onClause =
      .hashJoin buildLeft buildKeyIndices probeKeyIndices remainingOn)
    (hleft : executeTree ctx left = .ok leftRows) (hright : executeTree ctx right = .ok rightRows)
    (hwidth : ∀ row ∈ leftRows, row.length = slotsWidth left.slots) :
    ∃ fast slow,
      executeTree ctx (.join left right joinType (selectJoinAlgorithm ctx.tables left right onClause)) = .ok fast ∧
      executeTree ctx (.join left right joinType (.nestedLoop onClause)) = .ok slow ∧
      (fast.Perm slow ↔
        KeysAgree ctx.choices left.slots right.slots onClause buildKeyIndices probeKeyIndices leftRows rightRows ∧
        PadsUnmatched ctx.choices left.slots right.slots joinType onClause buildLeft buildKeyIndices probeKeyIndices
          leftRows rightRows) := by
  obtain ⟨on, rfl, rfl, hkeys, -, -⟩ := of_selectJoinAlgorithm_hash hchosen
  rw [hchosen]
  refine ⟨_, _, executeTree_hashJoin hleft hright, executeTree_nestedLoop hleft hright, ?_⟩
  obtain ⟨leftName, leftColumns, leftFilter, leftIndex, leftKeys, rightName, rightColumns, rightFilter, rightIndex,
    rightKeys, rfl, rfl, pair, hpair, leftColumn, rightColumn, leftIdx, rightIdx, hfirst, hsecond, hleftIdx, hrightIdx⟩ :=
    of_hashJoinKeys hkeys
  have hvalues : ComparesValues ctx.choices [{ name := leftName, offset := 0, columns := leftColumns }]
      [{ name := rightName, offset := 0, columns := rightColumns }] (some on) :=
    comparesValues_of_scans hpair (.inl hfirst) (.inr hsecond) hleftIdx hrightIdx
  rcases houter with rfl | rfl
  · exact hashJoin_left_iff hvalues hwidth
  · exact hashJoin_right_iff hvalues hwidth

end

/-- A table of INTEGER columns that holds some rows. -/
def integerTable (name : String) (columns : List String) (rows : DataRows) : Table :=
  { name, columns := columns.map fun column => .new column .integer
    versionChains := rows.map fun values => [.newInsert 1 { values }], primaryKeyIdx := none, indexes := [] }

/-- A query over two such tables. -/
def pairContext (left right : Table) : ExecContext :=
  { tables := [left, right], snapshot := { txid := 2, active := {0} }, choices := .asGiven }

section

open AsciiCase PlainText

/-- `b = c` between a table of one column and another one. -/
def narrowOn : Expression := .binaryOp (.column "b") .eq (.column "c")

/-- Rows with a key on both sides, on one side and with a NULL. -/
def keyedLeft : Table := integerTable "s" ["b"] [[.integer 5], [.integer 6], [.null], [.integer 5]]

def keyedRight : Table := integerTable "u" ["c", "d"] [[.integer 5, .integer 1], [.integer 7, .integer 2], [.null, .null]]

theorem hashJoin_inner_perm_keyed :
    ∃ fast slow,
      executeTree (pairContext keyedLeft keyedRight)
        (.join (scanOf "s" keyedLeft) (scanOf "u" keyedRight) .inner (.hashJoin true [0] [0] (some narrowOn))) = .ok fast ∧
      executeTree (pairContext keyedLeft keyedRight)
        (.join (scanOf "s" keyedLeft) (scanOf "u" keyedRight) .inner (.nestedLoop (some narrowOn))) = .ok slow ∧
      fast.Perm slow := by
  obtain ⟨fast, slow, hfast, hslow, hperm⟩ :=
    @hashJoin_inner_perm_iff _ _ (pairContext keyedLeft keyedRight) (scanOf "s" keyedLeft) (scanOf "u" keyedRight)
      (some narrowOn) (some narrowOn) true [0] [0] [[.integer 5], [.integer 6], [.null], [.integer 5]]
      [[.integer 5, .integer 1], [.integer 7, .integer 2], [.null, .null]] rfl rfl rfl
  refine ⟨fast, slow, hfast, hslow, hperm.mpr ?_⟩
  unfold KeysAgree
  decide

/-- The keys of a hash join that builds from the right are read in the columns of the other side. -/
theorem not_hashJoin_inner_perm :
    ¬ ∀ (ctx : ExecContext) (left right : QueryPlan) (onClause remainingOn : Option Expression) (buildLeft : Bool)
      (buildKeyIndices probeKeyIndices : List Nat) (leftRows rightRows : DataRows),
      selectJoinAlgorithm ctx.tables left right onClause =
        .hashJoin buildLeft buildKeyIndices probeKeyIndices remainingOn →
      executeTree ctx left = .ok leftRows → executeTree ctx right = .ok rightRows →
      ∃ fast slow,
        executeTree ctx (.join left right .inner (selectJoinAlgorithm ctx.tables left right onClause)) = .ok fast ∧
        executeTree ctx (.join left right .inner (.nestedLoop onClause)) = .ok slow ∧ fast.Perm slow := by
  intro h
  let wide := integerTable "s" ["a", "b"] [[.integer 1, .integer 5]]
  let narrow := integerTable "u" ["c"] [[.integer 5]]
  obtain ⟨fast, slow, hfast, hslow, hperm⟩ := h (pairContext wide narrow) (scanOf "s" wide) (scanOf "u" narrow)
    (some narrowOn) (some narrowOn) false [0] [1] [[.integer 1, .integer 5]] [[.integer 5]] rfl rfl rfl
  have hnone : executeTree (pairContext wide narrow) (.join (scanOf "s" wide) (scanOf "u" narrow) .inner
      (.hashJoin false [0] [1] (some narrowOn))) = .ok [] := by
    decide +kernel
  have hpair : executeTree (pairContext wide narrow) (.join (scanOf "s" wide) (scanOf "u" narrow) .inner
      (.nestedLoop (some narrowOn))) = .ok [[.integer 1, .integer 5, .integer 5]] := rfl
  rw [← Except.ok.inj (hnone.symm.trans hfast), ← Except.ok.inj (hpair.symm.trans hslow)] at hperm
  cases hperm.length_eq

/-- A LEFT JOIN pads the row whose key is on the left only. -/
theorem hashJoin_outer_perm_keyed :
    let keyed := integerTable "s" ["b"] [[.integer 5], [.integer 6], [.integer 5]]
    ∃ fast slow,
      executeTree (pairContext keyed keyedRight)
        (.join (scanOf "s" keyed) (scanOf "u" keyedRight) .left (.hashJoin true [0] [0] (some narrowOn))) = .ok fast ∧
      executeTree (pairContext keyed keyedRight)
        (.join (scanOf "s" keyed) (scanOf "u" keyedRight) .left (.nestedLoop (some narrowOn))) = .ok slow ∧
      fast.Perm slow := by
  intro keyed
  obtain ⟨fast, slow, hfast, hslow, hperm⟩ :=
    @hashJoin_outer_perm_iff _ _ (pairContext keyed keyedRight) (scanOf "s" keyed) (scanOf "u" keyedRight) .left
      (some narrowOn) (some narrowOn) true [0] [0] [[.integer 5], [.integer 6], [.integer 5]]
      [[.integer 5, .integer 1], [.integer 7, .integer 2], [.null, .null]] (.inl rfl) rfl rfl rfl (by decide)
  refine ⟨fast, slow, hfast, hslow, hperm.mpr ⟨?_, ?_, ?_⟩⟩
  · unfold KeysAgree
    decide
  · intro _
    decide
  · intro hright
    cases hright

/-- A row whose key is NULL is in no table of the hash join, so a LEFT JOIN loses it. -/
theorem not_hashJoin_outer_perm :
    ¬ ∀ (ctx : ExecContext) (left right : QueryPlan) (joinType : JoinType) (onClause remainingOn : Option Expression)
      (buildLeft : Bool) (buildKeyIndices probeKeyIndices : List Nat) (leftRows rightRows : DataRows),
      joinType = .left ∨ joinType = .right →
      selectJoinAlgorithm ctx.tables left right onClause =
        .hashJoin buildLeft buildKeyIndices probeKeyIndices remainingOn →
      executeTree ctx left = .ok leftRows → executeTree ctx right = .ok rightRows →
      (∀ row ∈ leftRows, row.length = slotsWidth left.slots) →
      ∃ fast slow,
        executeTree ctx (.join left right joinType (selectJoinAlgorithm ctx.tables left right onClause)) = .ok fast ∧
        executeTree ctx (.join left right joinType (.nestedLoop onClause)) = .ok slow ∧ fast.Perm slow := by
  intro h
  let absent := integerTable "s" ["b"] [[.null]]
  let other := integerTable "u" ["c"] [[.integer 5]]
  obtain ⟨fast, slow, hfast, hslow, hperm⟩ := h (pairContext absent other) (scanOf "s" absent) (scanOf "u" other) .left
    (some narrowOn) (some narrowOn) true [0] [0] [[.null]] [[.integer 5]] (.inl rfl) rfl rfl rfl (by decide)
  have hnone : executeTree (pairContext absent other) (.join (scanOf "s" absent) (scanOf "u" other) .left
      (.hashJoin true [0] [0] (some narrowOn))) = .ok [] := by
    decide +kernel
  have hpadded : executeTree (pairContext absent other) (.join (scanOf "s" absent) (scanOf "u" other) .left
      (.nestedLoop (some narrowOn))) = .ok [[.null, .null]] := rfl
  rw [← Except.ok.inj (hnone.symm.trans hfast), ← Except.ok.inj (hpadded.symm.trans hslow)] at hperm
  cases hperm.length_eq

end

end QueryPlan

end HelionDb
