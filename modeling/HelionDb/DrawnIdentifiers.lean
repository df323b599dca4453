import HelionDb.Noninterference

/-! Expressions that draw no identifier. UUIDV7 alone among the functions has a new value on every call; an expression
without a call of it has one value however often and wherever it is evaluated. -/

namespace HelionDb

namespace Expression

variable [CaseMapping]

/-- The function is UUIDV7. -/
def isUuidv7 (name : String) : Bool :=
  CaseMapping.toLowercase name = "uuidv7" || CaseMapping.toLowercase name = "uuid_v7"

mutual

/-- UUIDV7 is called somewhere in the expression. -/
def callsUuidv7 : Expression → Bool
  | .column _ | .qualifiedColumn _ _ | .literal _ => false
  | .binaryOp left _ right => left.callsUuidv7 || right.callsUuidv7
  | .unaryOp _ inner | .isNull inner | .isNotNull inner | .inList inner _ | .like inner _ => inner.callsUuidv7
  | .between inner low high => inner.callsUuidv7 || low.callsUuidv7 || high.callsUuidv7
  | .function name args => isUuidv7 name || anyCallsUuidv7 args

/-- UUIDV7 is called somewhere in the arguments of a function. -/
def anyCallsUuidv7 : List Expression → Bool
  | [] => false
  | arg :: rest => arg.callsUuidv7 || anyCallsUuidv7 rest

end

variable [Rendering] {draw other : BitVec 128} {lookup : Option String → String → Except HelionError Datum}

theorem evaluateFunction_of_not_uuidv7 {name : String} (h : isUuidv7 name = false) (args : List Datum) :
    evaluateFunction draw name args = evaluateFunction other name args := by
  simp only [isUuidv7, Bool.or_eq_false_iff, decide_eq_false_iff_not] at h
  unfold evaluateFunction
  dsimp only
  split <;> first | rfl | (rename_i hname; exact absurd hname (by tauto))

mutual

/-- Without UUIDV7 it does not matter which identifier is drawn. -/
theorem evaluateWith_of_no_uuidv7 (expr : Expression) (h : expr.callsUuidv7 = false) :
    expr.evaluateWith draw lookup = expr.evaluateWith other lookup := by
  cases expr with
  | column name => rfl
  | qualifiedColumn table name => rfl
  | literal value => rfl
  | binaryOp left op right =>
      rw [callsUuidv7, Bool.or_eq_false_iff] at h
      simp only [evaluateWith, evaluateWith_of_no_uuidv7 left h.1, evaluateWith_of_no_uuidv7 right h.2]
  | unaryOp op inner => simp only [evaluateWith, evaluateWith_of_no_uuidv7 inner h]
  | isNull inner => simp only [evaluateWith, evaluateWith_of_no_uuidv7 inner h]
  | isNotNull inner => simp only [evaluateWith, evaluateWith_of_no_uuidv7 inner h]
  | inList inner list => simp only [evaluateWith, evaluateWith_of_no_uuidv7 inner h]
  | like inner pattern => simp only [evaluateWith, evaluateWith_of_no_uuidv7 inner h]
  | between inner low high =>
      rw [callsUuidv7, Bool.or_eq_false_iff, Bool.or_eq_false_iff] at h
      simp only [evaluateWith, evaluateWith_of_no_uuidv7 inner h.1.1, evaluateWith_of_no_uuidv7 low h.1.2,
        evaluateWith_of_no_uuidv7 high h.2]
  | function name args =>
      rw [callsUuidv7, Bool.or_eq_false_iff] at h
      simp only [evaluateWith, evaluateAll_of_no_uuidv7 args h.2]
      apply congrArg
      funext values
      exact evaluateFunction_of_not_uuidv7 h.1 values

theorem evaluateAll_of_no_uuidv7 (args : List Expression) (h : anyCallsUuidv7 args = false) :
    evaluateAll draw lookup args = evaluateAll other lookup args := by
  cases args with
  | nil => rfl
  | cons arg rest =>
      rw [anyCallsUuidv7, Bool.or_eq_false_iff] at h
      simp only [evaluateAll, evaluateWith_of_no_uuidv7 arg h.1, evaluateAll_of_no_uuidv7 rest h.2]

end

theorem evaluateJoin_of_no_uuidv7 {expr : Expression} (h : expr.callsUuidv7 = false) (row : List Datum)
    (tableMap : List TableSlot) : expr.evaluateJoin draw row tableMap = expr.evaluateJoin other row tableMap :=
  evaluateWith_of_no_uuidv7 expr h

end Expression

end HelionDb
