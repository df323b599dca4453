import HelionDb.Locality

/-! Predicate pushdown. The conjuncts of a WHERE clause that name one table move to the scan of the table. Rows are
filtered by the same conjuncts then, only earlier, which an outer join tells apart when they move to the side that it
pads with NULLs; and a conjunct alone has to be TRUE where among others it has to count as true. -/

namespace HelionDb

/-! ### Conjunctions -/

/-- The outcome counts as true. -/
def isTrue (outcome : Except HelionError Datum) : Bool :=
  match outcome with
  | .ok value => value.datumToBool
  | .error _ => false

/-- Nothing counts as true but TRUE. -/
def TrueOnly (outcome : Except HelionError Datum) : Prop := isTrue outcome = true → Expression.passes outcome = true

section Conjunctions

theorem isTrue_of_passes {outcome : Except HelionError Datum} (h : Expression.passes outcome = true) :
    isTrue outcome = true := by
  unfold Expression.passes at h
  split at h
  · rfl
  · cases h

theorem TrueOnly.passes_eq {outcome : Except HelionError Datum} (h : TrueOnly outcome) :
    Expression.passes outcome = isTrue outcome :=
  Bool.eq_iff_iff.mpr ⟨isTrue_of_passes, h⟩

/-- AND counts as true when both operands do, and it is TRUE then. -/
theorem passes_applyAnd (left right : Except HelionError Datum) :
    Expression.passes (left.bind fun l => right.bind fun r => Expression.applyBinary .and l r) =
      (isTrue left && isTrue right) := by
  cases left with
  | error err => rfl
  | ok l =>
      cases right with
      | error err => exact (Bool.and_false _).symm
      | ok r =>
          show Expression.passes (Expression.applyBinary .and l r) = (l.datumToBool && r.datumToBool)
          unfold Expression.applyBinary
          cases hl : l.isNull with
          | true =>
              obtain rfl : l = .null := by cases l <;> first | rfl | cases hl
              rfl
          | false =>
              cases hr : r.isNull with
              | true =>
                  obtain rfl : r = .null := by cases r <;> first | rfl | cases hr
                  exact (Bool.and_false _).symm
              | false =>
                  show Expression.passes (.ok (.boolean (l.datumToBool && r.datumToBool))) = _
                  cases l.datumToBool && r.datumToBool <;> rfl

variable [CaseMapping] [Rendering] {uuidv7 : BitVec 128} {lookup : Option String → String → Except HelionError Datum}

theorem passes_and (left right : Expression) :
    Expression.passes ((Expression.binaryOp left .and right).evaluateWith uuidv7 lookup) =
      (isTrue (left.evaluateWith uuidv7 lookup) && isTrue (right.evaluateWith uuidv7 lookup)) := by
  rw [Expression.evaluateWith]
  exact passes_applyAnd _ _

theorem isTrue_and (left right : Expression) :
    isTrue ((Expression.binaryOp left .and right).evaluateWith uuidv7 lookup) =
      (isTrue (left.evaluateWith uuidv7 lookup) && isTrue (right.evaluateWith uuidv7 lookup)) := by
  rw [← passes_and]
  symm
  apply TrueOnly.passes_eq
  intro htrue
  rw [Expression.evaluateWith] at htrue ⊢
  cases hl : left.evaluateWith uuidv7 lookup with
  | error err =>
      rw [hl] at htrue
      cases htrue
  | ok l =>
      cases hr : right.evaluateWith uuidv7 lookup with
      | error err =>
          rw [hl, hr] at htrue
          cases htrue
      | ok r =>
          rw [hl, hr] at htrue
          change isTrue (Expression.applyBinary .and l r) = true at htrue
          show Expression.passes (Expression.applyBinary .and l r) = true
          unfold Expression.applyBinary at htrue ⊢
          split at htrue
          · cases htrue
          · rename_i hnull
            rw [if_neg hnull]
            change (l.datumToBool && r.datumToBool) = true at htrue
            show Expression.passes (.ok (.boolean (l.datumToBool && r.datumToBool))) = true
            rw [htrue]
            rfl

theorem isTrue_decomposeConjunction (expr : Expression) :
    isTrue (expr.evaluateWith uuidv7 lookup) =
      (decomposeConjunction expr).all fun part => isTrue (part.evaluateWith uuidv7 lookup) := by
  fun_induction decomposeConjunction expr with
  | case1 left right ihLeft ihRight => rw [isTrue_and, List.all_append, ihLeft, ihRight]
  | case2 other hother => rw [List.all_cons, List.all_nil, Bool.and_true]

/-- Two conjuncts or more pass together when all of them count as true. -/
theorem passes_foldl (first second : Expression) (rest : List Expression) :
    Expression.passes (((second :: rest).foldl (fun whole part => .binaryOp whole .and part) first).evaluateWith uuidv7
      lookup) = (first :: second :: rest).all fun part => isTrue (part.evaluateWith uuidv7 lookup) := by
  induction rest generalizing first second with
  | nil =>
      rw [List.foldl_cons, List.foldl_nil, passes_and]
      simp only [List.all_cons, List.all_nil, Bool.and_true]
  | cons part rest ih =>
      rw [List.foldl_cons, ih, List.all_cons, isTrue_and]
      simp only [List.all_cons, Bool.and_assoc]

omit [CaseMapping] [Rendering] in
theorem decomposeConjunction_ne_nil (expr : Expression) : decomposeConjunction expr ≠ [] := by
  fun_induction decomposeConjunction expr with
  | case1 left right ihLeft ihRight => exact fun h => ihLeft (List.append_eq_nil_iff.mp h).1
  | case2 other hother => exact List.cons_ne_nil other []

omit [CaseMapping] [Rendering] in
theorem two_le_decomposeConjunction_and (left right : Expression) :
    2 ≤ (decomposeConjunction (.binaryOp left .and right)).length := by
  have hleft := List.length_pos_of_ne_nil (decomposeConjunction_ne_nil left)
  have hright := List.length_pos_of_ne_nil (decomposeConjunction_ne_nil right)
  rw [decomposeConjunction, List.length_append]
  omega

omit [CaseMapping] [Rendering] in
theorem decomposeConjunction_eq_singleton {expr : Expression} (h : ∀ left right, expr ≠ .binaryOp left .and right) :
    decomposeConjunction expr = [expr] := by
  rw [decomposeConjunction]
  exact h

/-- A WHERE clause of two conjuncts or more passes when all of them count as true. -/
theorem passes_decomposeConjunction {expr : Expression} (h : 2 ≤ (decomposeConjunction expr).length) :
    Expression.passes (expr.evaluateWith uuidv7 lookup) =
      (decomposeConjunction expr).all fun part => isTrue (part.evaluateWith uuidv7 lookup) := by
  by_cases hand : ∃ left right, expr = .binaryOp left .and right
  · obtain ⟨left, right, rfl⟩ := hand
    rw [← isTrue_decomposeConjunction, passes_and, isTrue_and]
  · rw [decomposeConjunction_eq_singleton fun left right heq => hand ⟨left, right, heq⟩] at h
    exact absurd h (by simp)

/-- Nothing else passes than the only conjunct. -/
theorem passes_of_single {expr : Expression} (h : (decomposeConjunction expr).length ≤ 1) :
    Expression.passes (expr.evaluateWith uuidv7 lookup) =
      (decomposeConjunction expr).all fun part => Expression.passes (part.evaluateWith uuidv7 lookup) := by
  have hsingle : decomposeConjunction expr = [expr] := by
    apply decomposeConjunction_eq_singleton
    rintro left right rfl
    have htwo := two_le_decomposeConjunction_and left right
    omega
  rw [hsingle, List.all_cons, List.all_nil, Bool.and_true]

end Conjunctions

section Joins

variable [CaseMapping] [Rendering] {choices : QueryChoices} {leftSlots rightSlots : List Expression.TableSlot}
  {joinType : JoinType} {onClause : Option Expression} {leftRows rightRows : DataRows} {keep : List Datum → Bool}

omit [CaseMapping] [Rendering] in
theorem flatMap_filter_eq {rows : DataRows} {expand : List Datum → DataRows} {test keep : List Datum → Bool}
    (h : ∀ row ∈ rows, ∀ wide ∈ expand row, keep wide = test row) :
    (rows.filter test).flatMap expand = (rows.flatMap expand).filter keep := by
  induction rows with
  | nil => rfl
  | cons row rows ih =>
      obtain ⟨hrow, hrows⟩ := List.forall_mem_cons.mp h
      rw [List.flatMap_cons, List.filter_append, ← ih hrows]
      cases htest : test row with
      | true =>
          rw [List.filter_cons_of_pos htest, List.flatMap_cons]
          congr 1
          exact (List.filter_eq_self.mpr fun wide hwide => (hrow wide hwide).trans htest).symm
      | false =>
          rw [List.filter_cons_of_neg (by rw [htest]; exact Bool.false_ne_true)]
          have hnone : (expand row).filter keep = [] :=
            List.filter_eq_nil_iff.mpr fun wide hwide => Bool.eq_false_iff.mp ((hrow wide hwide).trans htest)
          rw [hnone, List.nil_append]

/-- The rows that a left row is expanded to begin with it. -/
theorem of_mem_combineLeft {slots : List Expression.TableSlot} {condition : Option Expression} {width : Nat}
    {leftRow wide : List Datum} {candidates : DataRows}
    (h : wide ∈ combineLeft choices slots joinType condition width leftRow candidates) :
    (∃ rightRow ∈ candidates, wide = leftRow ++ rightRow) ∨ wide = leftRow ++ padding width := by
  simp only [combineLeft] at h
  split at h
  · exact .inr (List.mem_singleton.mp h)
  · obtain ⟨rightRow, hright, rfl⟩ := List.mem_map.mp (List.mem_filter.mp h).1
    exact .inl ⟨rightRow, hright, rfl⟩

/-- A filter on the left rows, except below a join that pads them. -/
theorem nestedLoopJoin_filter_left (htype : joinType ≠ .right) {test : List Datum → Bool}
    (hkeep : ∀ leftRow ∈ leftRows, ∀ rightRow, rightRow ∈ rightRows ∨ rightRow = padding (slotsWidth rightSlots) →
      keep (leftRow ++ rightRow) = test leftRow) :
    nestedLoopJoin choices leftSlots rightSlots joinType onClause (leftRows.filter test) rightRows =
      (nestedLoopJoin choices leftSlots rightSlots joinType onClause leftRows rightRows).filter keep := by
  unfold nestedLoopJoin
  simp only [if_neg htype, List.append_nil]
  apply flatMap_filter_eq
  intro leftRow hleft wide hwide
  rcases of_mem_combineLeft hwide with ⟨rightRow, hright, rfl⟩ | rfl
  · exact hkeep leftRow hleft rightRow (.inl hright)
  · exact hkeep leftRow hleft _ (.inr rfl)

/-- A filter on the right rows, except below a join that pads them. -/
theorem nestedLoopJoin_filter_right (htype : joinType ≠ .left) {test : List Datum → Bool}
    (hkeep : ∀ rightRow ∈ rightRows, ∀ leftRow, leftRow ∈ leftRows ∨ leftRow = padding (slotsWidth leftSlots) →
      keep (leftRow ++ rightRow) = test rightRow) :
    nestedLoopJoin choices leftSlots rightSlots joinType onClause leftRows (rightRows.filter test) =
      (nestedLoopJoin choices leftSlots rightSlots joinType onClause leftRows rightRows).filter keep := by
  have hmatched : ∀ leftRow ∈ leftRows,
      combineLeft choices (joinSlots leftSlots rightSlots) joinType onClause (slotsWidth rightSlots) leftRow
          (rightRows.filter test) =
        (combineLeft choices (joinSlots leftSlots rightSlots) joinType onClause (slotsWidth rightSlots) leftRow
          rightRows).filter keep := by
    intro leftRow hleft
    simp only [combineLeft, htype, decide_false, Bool.and_false, Bool.false_eq_true, if_false]
    rw [List.filter_filter, List.filter_map, List.filter_map, List.filter_filter]
    congr 1
    apply List.filter_congr
    intro rightRow hright
    show (_ && test rightRow) = (keep (leftRow ++ rightRow) && _)
    rw [hkeep rightRow hright leftRow (.inl hleft), Bool.and_comm]
    rfl
  simp only [nestedLoopJoin]
  rw [List.filter_append, List.filter_flatMap]
  congr 1
  · exact List.flatMap_congr hmatched
  · split
    · rw [List.filter_filter, List.filter_map, List.filter_filter]
      congr 1
      apply List.filter_congr
      intro rightRow hright
      show (_ && test rightRow) = (keep (padding (slotsWidth leftSlots) ++ rightRow) && _)
      rw [hkeep rightRow hright _ (.inr rfl), Bool.and_comm]
    · rfl

end Joins

end HelionDb
