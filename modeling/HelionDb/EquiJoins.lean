import HelionDb.IndexScan
import HelionDb.Pushdown

/-! ON clauses that compare columns. The fast joins keep the whole ON clause as what is left to check, so they find the
pairs of rows that pass it and, on top of that, have equal keys. A pair that passes has values in the columns compared
that `datum_eq` finds equal, and these are not NULL, so that no such pair looks like a padded row. -/

namespace HelionDb

open Expression (TableSlot positionOf lookupJoin findUnqualified)

theorem Datum.ne_null_of_datumEq {left right : Datum} (h : left.datumEq right = true) :
    left ≠ .null ∧ right ≠ .null := by
  constructor
  · rintro rfl
    cases h
  · rintro rfl
    rw [datumEq, compareDatums_null_right] at h
    cases h

namespace QueryPlan

variable [CaseMapping] [Rendering] {uuidv7 : BitVec 128}

section

variable {lookup : Option String → String → Except HelionError Datum}

omit [CaseMapping] [Rendering] in
theorem mem_decomposeConjunction {on : Expression} {pair : Expression × Expression} (h : pair ∈ extractEquiJoinPairs on) :
    Expression.binaryOp pair.1 .eq pair.2 ∈ decomposeConjunction on := by
  fun_induction extractEquiJoinPairs on with
  | case1 left right =>
      obtain rfl := List.mem_singleton.mp h
      exact List.mem_singleton_self _
  | case2 left right ihLeft ihRight =>
      rw [decomposeConjunction]
      exact List.mem_append.mpr ((List.mem_append.mp h).imp ihLeft ihRight)
  | case3 other hne hnand => cases h

/-- Where an ON clause passes, the two sides of each of its comparisons are equal for `datum_eq`. -/
theorem datumEq_of_equiPair {on : Expression} {pair : Expression × Expression} (hpair : pair ∈ extractEquiJoinPairs on)
    (hpasses : Expression.passes (on.evaluateWith uuidv7 lookup) = true) :
    ∃ left right, pair.1.evaluateWith uuidv7 lookup = .ok left ∧ pair.2.evaluateWith uuidv7 lookup = .ok right ∧
      left.datumEq right = true := by
  have htrue := isTrue_of_passes hpasses
  rw [isTrue_decomposeConjunction, List.all_eq_true] at htrue
  have hequal := htrue _ (mem_decomposeConjunction hpair)
  rw [Expression.evaluateWith] at hequal
  cases hleft : pair.1.evaluateWith uuidv7 lookup with
  | error err =>
      rw [hleft] at hequal
      cases hequal
  | ok left =>
      cases hright : pair.2.evaluateWith uuidv7 lookup with
      | error err =>
          rw [hleft, hright] at hequal
          cases hequal
      | ok right =>
          refine ⟨left, right, rfl, rfl, ?_⟩
          rw [hleft, hright] at hequal
          change isTrue (Expression.applyBinary .eq left right) = true at hequal
          unfold Expression.applyBinary at hequal
          split at hequal
          · cases hequal
          · exact hequal

end

section

variable {leftName rightName name : String} {leftColumns rightColumns : List ColumnMeta} {leftRow rightRow : List Datum}
  {value : Datum} {idx : Nat}

/-- The slots of two scans that are joined. -/
def scanSlots (leftName : String) (leftColumns : List ColumnMeta) (rightName : String) (rightColumns : List ColumnMeta) :
    List TableSlot :=
  joinSlots [{ name := leftName, offset := 0, columns := leftColumns }]
    [{ name := rightName, offset := 0, columns := rightColumns }]

omit [CaseMapping] [Rendering] in
theorem findUnqualified_scanSlots :
    findUnqualified name none (scanSlots leftName leftColumns rightName rightColumns) =
      match positionOf leftColumns name, positionOf rightColumns name with
      | none, none => .ok none
      | some idx, none => .ok (some idx)
      | none, some idx => .ok (some (leftColumns.length + idx))
      | some _, some _ => .error (.ambiguousColumn name) := by
  have hslots : scanSlots leftName leftColumns rightName rightColumns =
      [{ name := leftName, offset := 0, columns := leftColumns },
        { name := rightName, offset := leftColumns.length, columns := rightColumns }] := by
    simp [scanSlots, joinSlots, shiftSlots, slotsWidth]
  rw [hslots]
  cases hleft : positionOf leftColumns name with
  | none =>
      cases hright : positionOf rightColumns name with
      | none => simp [findUnqualified, hleft, hright]
      | some idx => simp [findUnqualified, hleft, hright]
  | some position =>
      cases hright : positionOf rightColumns name with
      | none => simp [findUnqualified, hleft, hright]
      | some idx => simp [findUnqualified, hleft, hright]

/-- A column that has a value in the joined row and is one of the left scan has its value on the left. -/
theorem value_left (hwidth : leftRow.length = leftColumns.length)
    (hvalue : (Expression.column name).evaluateWith uuidv7
      (lookupJoin (leftRow ++ rightRow) (scanSlots leftName leftColumns rightName rightColumns)) = .ok value)
    (hidx : positionOf leftColumns name = some idx) : leftRow[idx]?.getD .null = value := by
  rw [Expression.evaluateWith, lookupJoin, findUnqualified_scanSlots, hidx] at hvalue
  cases hright : positionOf rightColumns name with
  | some other =>
      rw [hright] at hvalue
      cases hvalue
  | none =>
      rw [hright] at hvalue
      rw [← Except.ok.inj hvalue, List.getElem?_append_left]
      rw [hwidth]
      exact lt_of_positionOf hidx

/-- A column that has a value in the joined row and is one of the right scan has its value on the right. -/
theorem value_right (hwidth : leftRow.length = leftColumns.length)
    (hvalue : (Expression.column name).evaluateWith uuidv7
      (lookupJoin (leftRow ++ rightRow) (scanSlots leftName leftColumns rightName rightColumns)) = .ok value)
    (hidx : positionOf rightColumns name = some idx) : rightRow[idx]?.getD .null = value := by
  rw [Expression.evaluateWith, lookupJoin, findUnqualified_scanSlots, hidx] at hvalue
  cases hleft : positionOf leftColumns name with
  | some other =>
      rw [hleft] at hvalue
      cases hvalue
  | none =>
      rw [hleft] at hvalue
      rw [← Except.ok.inj hvalue, List.getElem?_append_right (by omega)]
      congr 2
      omega

variable {on : Expression} {pair : Expression × Expression}

/-- Where an ON clause passes, the columns it compares have values. -/
theorem exists_value_of_equiPair (hpair : pair ∈ extractEquiJoinPairs on)
    (hpasses : Expression.passes (on.evaluateWith uuidv7
      (lookupJoin (leftRow ++ rightRow) (scanSlots leftName leftColumns rightName rightColumns))) = true)
    (hname : pair.1 = .column name ∨ pair.2 = .column name) :
    ∃ value, (Expression.column name).evaluateWith uuidv7
      (lookupJoin (leftRow ++ rightRow) (scanSlots leftName leftColumns rightName rightColumns)) = .ok value ∧
      value ≠ .null := by
  obtain ⟨first, second, hfirst, hsecond, hequal⟩ := datumEq_of_equiPair hpair hpasses
  obtain ⟨hfirstNull, hsecondNull⟩ := Datum.ne_null_of_datumEq hequal
  rcases hname with hname | hname
  · rw [hname] at hfirst
    exact ⟨first, hfirst, hfirstNull⟩
  · rw [hname] at hsecond
    exact ⟨second, hsecond, hsecondNull⟩

theorem left_ne_null (hpair : pair ∈ extractEquiJoinPairs on) (hwidth : leftRow.length = leftColumns.length)
    (hpasses : Expression.passes (on.evaluateWith uuidv7
      (lookupJoin (leftRow ++ rightRow) (scanSlots leftName leftColumns rightName rightColumns))) = true)
    (hname : pair.1 = .column name ∨ pair.2 = .column name) (hidx : positionOf leftColumns name = some idx) :
    leftRow[idx]?.getD .null ≠ .null := by
  obtain ⟨value, hvalue, hnull⟩ := exists_value_of_equiPair hpair hpasses hname
  rw [value_left hwidth hvalue hidx]
  exact hnull

theorem right_ne_null (hpair : pair ∈ extractEquiJoinPairs on) (hwidth : leftRow.length = leftColumns.length)
    (hpasses : Expression.passes (on.evaluateWith uuidv7
      (lookupJoin (leftRow ++ rightRow) (scanSlots leftName leftColumns rightName rightColumns))) = true)
    (hname : pair.1 = .column name ∨ pair.2 = .column name) (hidx : positionOf rightColumns name = some idx) :
    rightRow[idx]?.getD .null ≠ .null := by
  obtain ⟨value, hvalue, hnull⟩ := exists_value_of_equiPair hpair hpasses hname
  rw [value_right hwidth hvalue hidx]
  exact hnull

end

omit [CaseMapping] [Rendering] in
theorem length_padding (width : Nat) : (padding width).length = width := List.length_replicate

omit [CaseMapping] [Rendering] in
theorem padding_getElem? (width idx : Nat) : (padding width)[idx]?.getD .null = .null := by
  rw [padding, List.getElem?_replicate]
  split <;> rfl

/-! ### Rows of the nested-loop join -/

/-- The combination of two rows passes the ON clause. -/
def joinPasses (choices : QueryChoices) (leftSlots rightSlots : List TableSlot) (on : Option Expression)
    (leftRow rightRow : List Datum) : Bool :=
  satisfies choices (joinSlots leftSlots rightSlots) on (leftRow ++ rightRow)

/-- A row whose combination passes is never one of NULLs only. -/
def ComparesValues (choices : QueryChoices) (leftSlots rightSlots : List TableSlot) (on : Option Expression) : Prop :=
  ∀ leftRow rightRow, leftRow.length = slotsWidth leftSlots →
    joinPasses choices leftSlots rightSlots on leftRow rightRow = true →
      leftRow ≠ padding (slotsWidth leftSlots) ∧ rightRow ≠ padding (slotsWidth rightSlots)

theorem comparesValues_of_scans {choices : QueryChoices} {leftName rightName left right : String}
    {leftColumns rightColumns : List ColumnMeta} {on : Expression} {pair : Expression × Expression}
    (hpair : pair ∈ extractEquiJoinPairs on) (hleft : pair.1 = .column left ∨ pair.2 = .column left)
    (hright : pair.1 = .column right ∨ pair.2 = .column right) {leftIdx rightIdx : Nat}
    (hleftIdx : positionOf leftColumns left = some leftIdx) (hrightIdx : positionOf rightColumns right = some rightIdx) :
    ComparesValues choices [{ name := leftName, offset := 0, columns := leftColumns }]
      [{ name := rightName, offset := 0, columns := rightColumns }] (some on) := by
  intro leftRow rightRow hlength hpasses
  have hwidth : leftRow.length = leftColumns.length := by simpa [slotsWidth] using hlength
  constructor
  · intro heq
    apply left_ne_null hpair hwidth hpasses hleft hleftIdx
    rw [heq]
    exact padding_getElem? _ _
  · intro heq
    apply right_ne_null hpair hwidth hpasses hright hrightIdx
    rw [heq]
    exact padding_getElem? _ _

section

variable {choices : QueryChoices} {leftSlots rightSlots : List TableSlot} {on : Option Expression} {joinType : JoinType}
  {leftRows rightRows candidates : DataRows} {leftRow rightRow : List Datum}

theorem mem_combineLeft {slots : List TableSlot} {width : Nat} {row : List Datum} :
    row ∈ combineLeft choices slots joinType on width leftRow candidates ↔
      (∃ rightRow ∈ candidates, satisfies choices slots on (leftRow ++ rightRow) = true ∧ leftRow ++ rightRow = row) ∨
      (joinType = .left ∧ (∀ rightRow ∈ candidates, satisfies choices slots on (leftRow ++ rightRow) = false) ∧
        leftRow ++ padding width = row) := by
  have hfound : ∀ item, item ∈ (candidates.map (leftRow ++ ·)).filter (satisfies choices slots on) ↔
      ∃ rightRow ∈ candidates, satisfies choices slots on (leftRow ++ rightRow) = true ∧ leftRow ++ rightRow = item := by
    intro item
    rw [List.filter_map, List.mem_map]
    simp only [List.mem_filter, Function.comp_apply, and_assoc]
  have hempty : ((candidates.map (leftRow ++ ·)).filter (satisfies choices slots on)).isEmpty = true ↔
      ∀ rightRow ∈ candidates, satisfies choices slots on (leftRow ++ rightRow) = false := by
    rw [List.isEmpty_iff, List.filter_eq_nil_iff]
    simp
  unfold combineLeft
  dsimp only
  split
  next hpad =>
      obtain ⟨hnone, hleft⟩ := Bool.and_eq_true_iff.mp hpad
      have hall := hempty.mp hnone
      rw [List.mem_singleton]
      constructor
      · intro hrow
        exact .inr ⟨of_decide_eq_true hleft, hall, hrow.symm⟩
      · rintro (⟨rightRow, hmem, hpasses, -⟩ | ⟨-, -, hrow⟩)
        · rw [hall rightRow hmem] at hpasses
          cases hpasses
        · exact hrow.symm
  next hpad =>
      rw [hfound]
      constructor
      · exact .inl
      · rintro (h | ⟨hleft, hall, -⟩)
        · exact h
        · exact absurd (Bool.and_eq_true_iff.mpr ⟨hempty.mpr hall, decide_eq_true hleft⟩) hpad

theorem mem_nestedLoopJoin {row : List Datum} :
    row ∈ nestedLoopJoin choices leftSlots rightSlots joinType on leftRows rightRows ↔
      (∃ leftRow ∈ leftRows, row ∈
        combineLeft choices (joinSlots leftSlots rightSlots) joinType on (slotsWidth rightSlots) leftRow rightRows) ∨
      (joinType = .right ∧ ∃ rightRow ∈ rightRows,
        (∀ leftRow ∈ leftRows, joinPasses choices leftSlots rightSlots on leftRow rightRow = false) ∧
        padding (slotsWidth leftSlots) ++ rightRow = row) := by
  unfold nestedLoopJoin
  rw [List.mem_append, List.mem_flatMap]
  apply or_congr_right
  by_cases hright : joinType = .right
  · rw [if_pos hright, List.mem_map]
    simp [hright, joinPasses, and_assoc]
  · rw [if_neg hright]
    exact iff_of_false List.not_mem_nil fun h => hright h.1

/-- The rows combined for an outer row have a combination that passes exactly where it is one of this row and one of its
candidates. -/
theorem append_mem_combineLeft (hvalues : ComparesValues choices leftSlots rightSlots on) {other : List Datum}
    (hother : other.length = slotsWidth leftSlots) (hleft : leftRow.length = slotsWidth leftSlots)
    (hpasses : joinPasses choices leftSlots rightSlots on leftRow rightRow = true) :
    leftRow ++ rightRow ∈
        combineLeft choices (joinSlots leftSlots rightSlots) joinType on (slotsWidth rightSlots) other candidates ↔
      other = leftRow ∧ rightRow ∈ candidates := by
  have hlength : other.length = leftRow.length := hother.trans hleft.symm
  rw [mem_combineLeft]
  constructor
  · rintro (⟨right, hright, -, heq⟩ | ⟨-, -, heq⟩)
    · obtain ⟨hsame, rfl⟩ := List.append_inj heq hlength
      exact ⟨hsame, hright⟩
    · exact absurd (List.append_inj heq hlength).2.symm (hvalues leftRow rightRow hleft hpasses).2
  · rintro ⟨rfl, hright⟩
    exact .inl ⟨rightRow, hright, hpasses, rfl⟩

/-- Where no outer row is padded, no row is a combination with NULLs for the outer row. -/
theorem padding_notMem_combineLeft (hvalues : ComparesValues choices leftSlots rightSlots on) (hinner : joinType ≠ .left)
    (hleft : leftRow.length = slotsWidth leftSlots) :
    padding (slotsWidth leftSlots) ++ rightRow ∉
      combineLeft choices (joinSlots leftSlots rightSlots) joinType on (slotsWidth rightSlots) leftRow candidates := by
  intro hmem
  rcases mem_combineLeft.mp hmem with ⟨right, -, hpasses, heq⟩ | ⟨hpadded, -, -⟩
  · have hsame := (List.append_inj heq (hleft.trans (length_padding _).symm)).1
    exact (hvalues leftRow right hleft hpasses).1 hsame
  · exact hinner hpadded

/-- The nested-loop join has a combination that passes exactly where it has the right row. -/
theorem append_mem_nestedLoopJoin (hvalues : ComparesValues choices leftSlots rightSlots on)
    (hwidth : ∀ row ∈ leftRows, row.length = slotsWidth leftSlots) (hleft : leftRow ∈ leftRows)
    (hpasses : joinPasses choices leftSlots rightSlots on leftRow rightRow = true) :
    leftRow ++ rightRow ∈ nestedLoopJoin choices leftSlots rightSlots joinType on leftRows rightRows ↔
      rightRow ∈ rightRows := by
  rw [mem_nestedLoopJoin]
  constructor
  · rintro (⟨other, hother, hrow⟩ | ⟨-, other, -, -, hrow⟩)
    · exact ((append_mem_combineLeft hvalues (hwidth _ hother) (hwidth _ hleft) hpasses).mp hrow).2
    · have hsame := (List.append_inj hrow ((length_padding _).trans (hwidth _ hleft).symm)).1
      exact absurd hsame.symm (hvalues leftRow rightRow (hwidth _ hleft) hpasses).1
  · intro hright
    have hlength := hwidth _ hleft
    exact .inl ⟨leftRow, hleft, (append_mem_combineLeft hvalues hlength hlength hpasses).mpr ⟨rfl, hright⟩⟩

end

end QueryPlan

end HelionDb
