import HelionDb.DrawnIdentifiers
import HelionDb.HashJoin
import HelionDb.OuterJoins

/-! The nested-loop join against the join it stands for: on the rows of its two plans, with duplicates counted, the pairs
for which the ON clause is TRUE and the rows without a partner of the side that the join type keeps. The ON clause is
evaluated once for each pair, and in a RIGHT JOIN once more for each right row, and the two passes agree. -/

namespace HelionDb

open Expression (TableSlot)

namespace QueryPlan

section

variable [CaseMapping] [Rendering]

/-- The ON clause, if there is one, evaluates to TRUE on a pair of rows; `draws` gives the identifier drawn there. -/
def OnTrue (draws : List Datum → List Datum → BitVec 128) (slots : List TableSlot) (on : Option Expression)
    (leftRow rightRow : List Datum) : Prop :=
  ∀ condition, on = some condition →
    condition.evaluateJoin (draws leftRow rightRow) (leftRow ++ rightRow) slots = .ok (.boolean true)

/-- The join of two plans as relational algebra has it. -/
def relationalJoin (draws : List Datum → List Datum → BitVec 128) (left right : QueryPlan) (joinType : JoinType)
    (on : Option Expression) : OuterJoin (List Datum) (List Datum) (List Datum) where
  on := OnTrue draws (joinSlots left.slots right.slots) on
  combine := (· ++ ·)
  keepsLeft := joinType = .left
  padLeft leftRow := leftRow ++ padding (slotsWidth right.slots)
  keepsRight := joinType = .right
  padRight rightRow := padding (slotsWidth left.slots) ++ rightRow

omit [CaseMapping] [Rendering] in
theorem passes_iff {outcome : Except HelionError Datum} :
    Expression.passes outcome = true ↔ outcome = .ok (.boolean true) := by
  unfold Expression.passes
  split
  · simp
  · next hother => simpa using hother

variable {draws : List Datum → List Datum → BitVec 128} {on : Option Expression} {ctx : ExecContext}
  {left right : QueryPlan} {joinType : JoinType} {leftRows rightRows : DataRows}

/-- Both passes over the pairs find the ones that the relation has. -/
theorem joinPasses_iff (huuid : ∀ condition, on = some condition → condition.callsUuidv7 = false)
    (choices : QueryChoices) (leftSlots rightSlots : List TableSlot) (leftRow rightRow : List Datum) :
    joinPasses choices leftSlots rightSlots on leftRow rightRow = true ↔
      OnTrue draws (joinSlots leftSlots rightSlots) on leftRow rightRow := by
  unfold joinPasses satisfies OnTrue
  cases on with
  | none => simp
  | some condition =>
      have hdraw : condition.evaluateJoin choices.uuidv7 (leftRow ++ rightRow) (joinSlots leftSlots rightSlots) =
          condition.evaluateJoin (draws leftRow rightRow) (leftRow ++ rightRow) (joinSlots leftSlots rightSlots) :=
        Expression.evaluateJoin_of_no_uuidv7 (huuid condition rfl) _ _
      dsimp only
      rw [passes_iff, hdraw]
      simp

theorem nestedLoopJoin_eq_result (huuid : ∀ condition, on = some condition → condition.callsUuidv7 = false)
    (draws : List Datum → List Datum → BitVec 128) (choices : QueryChoices) :
    (nestedLoopJoin choices left.slots right.slots joinType on leftRows rightRows : Multiset (List Datum)) =
      (relationalJoin draws left right joinType on).result leftRows rightRows := by
  have hresult := @OuterJoin.result_coe _ _ _ (relationalJoin draws left right joinType on) _
    (joinPasses_iff huuid choices left.slots right.slots) (joinType = .left) (joinType = .right) _ _ Iff.rfl Iff.rfl
    leftRows rightRows
  rw [hresult]
  exact Multiset.coe_eq_coe.mpr nestedLoopJoin_perm

/-- Every row of the join of rows of schema width has the combined width. -/
theorem length_of_mem_result {row : List Datum} (hleft : ∀ row ∈ leftRows, row.length = slotsWidth left.slots)
    (hright : ∀ row ∈ rightRows, row.length = slotsWidth right.slots)
    (h : row ∈ (relationalJoin draws left right joinType on).result leftRows rightRows) :
    row.length = slotsWidth left.slots + slotsWidth right.slots := by
  rcases OuterJoin.mem_result.mp h with ⟨leftRow, hl, rightRow, hr, -, rfl⟩ | ⟨-, leftRow, hl, -, rfl⟩ |
    ⟨-, rightRow, hr, -, rfl⟩
  · show (leftRow ++ rightRow).length = _
    rw [List.length_append, hleft leftRow hl, hright rightRow hr]
  · show (leftRow ++ padding (slotsWidth right.slots)).length = _
    rw [List.length_append, hleft leftRow hl, padding, List.length_replicate]
  · show (padding (slotsWidth left.slots) ++ rightRow).length = _
    rw [List.length_append, hright rightRow hr, padding, List.length_replicate]

/-- A nested-loop join has one combined row for each pair for which the ON clause is TRUE, one padded row for each row
without a partner of the side that an outer join keeps, and no other, all of the combined width. -/
theorem executeTree_nestedLoop_result (hleft : executeTree ctx left = .ok leftRows)
    (hright : executeTree ctx right = .ok rightRows)
    (hleftWidth : ∀ row ∈ leftRows, row.length = slotsWidth left.slots)
    (hrightWidth : ∀ row ∈ rightRows, row.length = slotsWidth right.slots)
    (huuid : ∀ condition, on = some condition → condition.callsUuidv7 = false)
    (draws : List Datum → List Datum → BitVec 128) :
    ∃ rows, executeTree ctx (.join left right joinType (.nestedLoop on)) = .ok rows ∧
      (rows : Multiset (List Datum)) = (relationalJoin draws left right joinType on).result leftRows rightRows ∧
      ∀ row ∈ rows, row.length = slotsWidth left.slots + slotsWidth right.slots := by
  have hresult : (nestedLoopJoin ctx.choices left.slots right.slots joinType on leftRows rightRows :
      Multiset (List Datum)) = (relationalJoin draws left right joinType on).result leftRows rightRows :=
    nestedLoopJoin_eq_result huuid draws ctx.choices
  refine ⟨_, executeTree_nestedLoop hleft hright, hresult, ?_⟩
  intro row hrow
  apply length_of_mem_result hleftWidth hrightWidth
  rw [← hresult]
  exact hrow

end

open AsciiCase PlainText in
theorem executeTree_nestedLoop_result_keyed :
    ∃ rows,
      executeTree (pairContext keyedLeft keyedRight)
        (.join (scanOf "s" keyedLeft) (scanOf "u" keyedRight) .left (.nestedLoop (some narrowOn))) = .ok rows ∧
      (rows : Multiset (List Datum)) =
        (relationalJoin (fun _ _ => 0) (scanOf "s" keyedLeft) (scanOf "u" keyedRight) .left (some narrowOn)).result
          ([[.integer 5], [.integer 6], [.null], [.integer 5]] : DataRows)
          ([[.integer 5, .integer 1], [.integer 7, .integer 2], [.null, .null]] : DataRows) ∧
      ∀ row ∈ rows, row.length = 3 := by
  have huuid : ∀ condition, some narrowOn = some condition → condition.callsUuidv7 = false := by
    intro condition hcondition
    rw [← Option.some.inj hcondition]
    rfl
  exact executeTree_nestedLoop_result rfl rfl (by decide) (by decide) huuid _

end QueryPlan

end HelionDb
