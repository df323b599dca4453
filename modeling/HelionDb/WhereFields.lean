import HelionDb.WhereFilter

/-! The filters of single fields. Each operator shows its verdict on the stored value as long as its operand is taken as
it is written. -/

namespace HelionDb

namespace Json

section Literals

variable {stored : Datum} {operand : Json}

/-- A literal that keeps its value is the one of the filter. -/
theorem toDatum_eq_literal (h : operand.comparable stored = true) : operand.toDatum = operand.literal := by
  cases operand with
  | number n =>
      cases n with
      | posInt value =>
          have hvalue : value.toNat ≤ 2 ^ 63 - 1 := of_decide_eq_true h
          rw [literal, if_pos hvalue, toDatum, JsonNumber.asI64, if_pos hvalue]
          rfl
      | negInt value negative => rfl
      | float bits finite => rfl
  | _ => rfl

/-- The type of a text matters to a comparison for CHAR only. -/
theorem against_eq (h : operand.comparable stored = true) :
    against stored operand = stored.compareDatums operand.literal := by
  rw [← toDatum_eq_literal h, against, ← toDatum_eq_literal h]
  cases stored with
  | varChar s =>
      cases operand with
      | number n => cases n <;> rfl
      | _ => rfl
  | char s =>
      cases operand with
      | number n => cases n <;> rfl
      | string text => cases h
      | _ => rfl
  | _ => rfl

theorem datumEq_asText (h : operand.comparable stored = true) :
    operand.toDatum.datumEq stored = operand.literal.datumEq stored.asText := by
  rw [← toDatum_eq_literal h, Datum.datumEq, Datum.datumEq]
  cases stored with
  | varChar s =>
      cases operand with
      | number n => cases n <;> rfl
      | _ => rfl
  | char s =>
      cases operand with
      | number n => cases n <;> rfl
      | string text => cases h
      | _ => rfl
  | _ => rfl

/-- A NULL compares with nothing. -/
theorem against_of_isNull (h : (stored.isNull || operand.literal.isNull) = true) : against stored operand = none := by
  unfold against
  cases stored with
  | null => rfl
  | _ =>
      have hnull : operand.literal.isNull = true := h
      cases hliteral : operand.literal with
      | null => unfold Datum.asText; rfl
      | _ =>
          rw [hliteral] at hnull
          cases hnull

theorem comparable_of_listable (h : operand.listable stored = true) : operand.comparable stored = true := by
  cases operand <;> first | exact h | cases h

theorem isEqual_of_listable (h : operand.listable stored = true) :
    isEqual stored operand = decide (against stored operand = some .eq) := by
  cases operand <;> first | rfl | cases h

theorem literal_isNull_of_scalar [NumberText] (h : operand.scalarText.isSome = true) :
    operand.literal.isNull = false := by
  cases operand with
  | number n =>
      cases n with
      | posInt value =>
          rw [literal]
          split
          · rfl
          · rfl
      | negInt value negative => rfl
      | float bits finite => rfl
  | bool b => rfl
  | string s => rfl
  | _ => cases h

theorem isEqual_of_scalar [NumberText] (h : operand.scalarText.isSome = true) :
    isEqual stored operand = decide (against stored operand = some .eq) := by
  cases operand <;> first | rfl | cases h

end Literals

/-! ### Operators -/

section Operators

variable {stored : Datum} {operand : Json}

/-- What a comparison asks of the order of its operands. -/
def asksOrder : BinaryOperator → Option (List Ordering)
  | .eq => some [.eq]
  | .lt => some [.lt]
  | .le => some [.lt, .eq]
  | .gt => some [.gt]
  | .ge => some [.gt, .eq]
  | _ => none

/-- The order of two operands is one of those that are asked for. -/
def isOrdered (orders : List Ordering) (order : Option Ordering) : Bool := orders.any fun asked => order = some asked

theorem isOrdered_one (asked : Ordering) (order : Option Ordering) :
    isOrdered [asked] order = decide (order = some asked) :=
  Bool.or_false _

theorem isOrdered_two (first second : Ordering) (order : Option Ordering) :
    isOrdered [first, second] order = (decide (order = some first) || decide (order = some second)) :=
  congrArg _ (Bool.or_false _)

theorem applyBinary_comparison {op : BinaryOperator} {orders : List Ordering} (hop : asksOrder op = some orders)
    {left right : Datum} (hvalues : (left.isNull || right.isNull) = false) :
    Expression.applyBinary op left right = .ok (.boolean (isOrdered orders (left.compareDatums right))) := by
  have happly : ¬ (left.isNull || right.isNull) = true := Bool.eq_false_iff.mp hvalues
  unfold Expression.applyBinary
  rw [if_neg happly]
  cases op <;> cases hop <;> dsimp only [Datum.datumEq] <;>
    cases left.compareDatums right <;> try rfl
  all_goals
    rename_i order
    cases order <;> rfl

/-- A comparison, by what it asks of the order of its operands. -/
theorem compare_verdict {op : BinaryOperator} {orders : List Ordering} (hop : asksOrder op = some orders)
    (hcomparable : operand.comparable stored = true) :
    Verdict.Of ⟨true, stored.isNull || operand.literal.isNull, isOrdered orders (against stored operand)⟩
      (Expression.applyBinary op stored operand.toDatum) := by
  refine ⟨fun hunknown => ?_, fun _ => ?_, fun h => absurd h Bool.noConfusion⟩
  · show isOrdered orders (against stored operand) = false
    rw [against_of_isNull hunknown]
    exact List.any_eq_false.mpr fun asked _ => Bool.false_ne_true
  · rw [toDatum_eq_literal hcomparable]
    cases hnull : stored.isNull || operand.literal.isNull with
    | true =>
        show (if _ then _ else _) = _
        rw [if_pos hnull]
        rfl
    | false =>
        rw [applyBinary_comparison hop hnull, ← against_eq hcomparable, Verdict.datum, if_neg Bool.false_ne_true]

theorem ne_verdict [NumberText] (hscalar : operand.scalarText.isSome = true) (hcomparable : operand.comparable stored = true) :
    Verdict.Of ⟨true, stored.isNull || operand.literal.isNull, !stored.isNull && !isEqual stored operand⟩
      (Expression.applyBinary .ne stored operand.toDatum) := by
  have hliteral := literal_isNull_of_scalar hscalar
  refine ⟨fun hunknown => ?_, fun _ => ?_, fun h => absurd h Bool.noConfusion⟩
  · have hnull : stored.isNull = true := by simpa [hliteral] using hunknown
    show (!stored.isNull && _) = false
    rw [hnull]
    rfl
  · rw [toDatum_eq_literal hcomparable, isEqual_of_scalar hscalar, against_eq hcomparable]
    cases hnull : stored.isNull <;> simp [Expression.applyBinary, hnull, hliteral, Verdict.datum, Datum.datumEq]

/-- A scalar is compared as `eq` would. -/
theorem scalar_verdict [NumberText] (hscalar : operand.scalarText.isSome = true)
    (hcomparable : operand.comparable stored = true) :
    Verdict.Of ⟨true, stored.isNull, isEqual stored operand⟩
      (Expression.applyBinary .eq stored operand.toDatum) := by
  have hverdict := @compare_verdict stored operand .eq _ rfl hcomparable
  rw [isOrdered_one, ← isEqual_of_scalar hscalar, literal_isNull_of_scalar hscalar, Bool.or_false] at hverdict
  exact hverdict

/-- A pattern around a plain text that stands in the stored value where the relation puts it. -/
theorem like_verdict [Rendering] [NumberText] {pattern : String} {within : List Char → List Char → Bool}
    (hempty : ∀ text, within text [] = true → text = [])
    (hpattern : Plain operand.toText → ∀ whole,
      regexLite (likeToRegex pattern) whole = within operand.toText.toList whole.toList)
    (hfaithful : (operand.scalarText.any fun text => Plain text && (!stored.isNull || text ≠ "")) = true) :
    Verdict.Of ⟨true, false, hasText stored operand within⟩
      (.ok (.boolean (regexLite (likeToRegex pattern) stored.datumToString))) := by
  refine ⟨fun h => absurd h Bool.noConfusion, fun _ => ?_, fun h => absurd h Bool.noConfusion⟩
  have htext : ∀ text, operand.scalarText = some text → operand.toText = text := by
    intro text h
    cases operand <;> first | exact Option.some.inj h | cases h
  cases hscalar : operand.scalarText with
  | none =>
      rw [hscalar] at hfaithful
      cases hfaithful
  | some text =>
      rw [hscalar] at hfaithful
      obtain ⟨hplain, hnull⟩ := (Bool.and_eq_true _ _).mp hfaithful
      rw [htext text hscalar] at hpattern
      have hholds :
          hasText stored operand within = (!stored.isNull && within text.toList stored.datumToString.toList) := by
        rw [hasText, hscalar]
      rw [hpattern (of_decide_eq_true hplain), Verdict.datum, if_neg Bool.false_ne_true, hholds]
      cases stored with
      | null =>
          -- the text of a NULL is empty, and a text that is not does not stand in it
          have hne : text ≠ "" := of_decide_eq_true hnull
          have hout : within text.toList (Datum.datumToString .null).toList ≠ true :=
            fun h => hne (String.toList_eq_nil_iff.mp (hempty _ h))
          rw [Bool.eq_false_iff.mpr hout]
          rfl
      | _ => rfl

/-- A list of literals. -/
theorem any_datumEq {items : List Json} (hlistable : items.all (listable stored) = true) :
    ((items.map toDatum).any fun candidate => candidate.datumEq stored) = isAmong stored items := by
  rw [isAmong, List.any_map, Bool.eq_iff_iff, List.any_eq_true, List.any_eq_true]
  apply exists_congr
  intro item
  apply and_congr_right
  intro hmem
  have hitem := List.all_eq_true.mp hlistable item hmem
  have hvalue := datumEq_asText (comparable_of_listable hitem)
  cases item with
  | null => cases hitem
  | _ => exact Bool.eq_iff_iff.mp hvalue

end Operators

section Rows

variable {lookup : Option String → String → Except HelionError Datum} {field : String}

/-- The row whose columns the evaluator looks up. -/
def rowOf (lookup : Option String → String → Except HelionError Datum) : StoredRow :=
  fun field => (lookup none field).toOption

theorem rowOf_ok {stored : Datum} (hstored : lookup none field = .ok stored) : rowOf lookup field = some stored := by
  rw [rowOf, hstored]
  rfl

theorem rowOf_error {err : HelionError} (herr : lookup none field = .error err) : rowOf lookup field = none := by
  rw [rowOf, herr]
  rfl

/-- A filter that looks up a column that is not there. -/
theorem verdict_of_error {err : HelionError} (herr : lookup none field = .error err)
    {rest : Datum → Except HelionError Datum} :
    Verdict.Of ⟨false, false, false⟩ ((lookup none field).bind rest) := by
  rw [herr]
  exact ⟨fun _ => rfl, fun h => absurd h Bool.noConfusion, fun _ => ⟨err, rfl⟩⟩

end Rows

section Verdicts

variable [Rendering] [NumberText] {field : String}

/-- The verdict of the condition of a field; without its column nothing holds. -/
def fieldVerdict (row : StoredRow) (field : String) (condition : Json) : Verdict where
  known := (row field).isSome
  unknown := (row field).any fun stored => fieldComparesNull stored condition
  holds := fieldHolds (row field) condition

/-- The verdict of an operator on a field. -/
def operatorVerdict (row : StoredRow) (field : String) (entry : String × Json) : Verdict where
  known := (row field).isSome
  unknown := (row field).any fun stored => operatorComparesNull stored entry.1 entry.2
  holds := (row field).any fun stored => operatorHolds stored entry.1 entry.2

/-- A condition with operators holds where each of them does. -/
theorem allOf_operatorVerdict (row : StoredRow) (entries : List (String × Json)) (hentries : entries ≠ []) :
    Verdict.allOf (entries.map (operatorVerdict row field)) = fieldVerdict row field (.object entries) := by
  obtain ⟨first, rest, rfl⟩ := List.exists_cons_of_ne_nil hentries
  cases hrow : row field with
  | none => simp [Verdict.allOf, operatorVerdict, fieldVerdict, hrow, fieldHolds]
  | some stored =>
      simp [Verdict.allOf, operatorVerdict, fieldVerdict, hrow, fieldComparesNull, fieldHolds, Function.comp_def]

end Verdicts

/-! ### Evaluation -/

section Evaluation

variable [CaseMapping] [Rendering] {uuidv7 : BitVec 128} {lookup : Option String → String → Except HelionError Datum}
  {field : String}

theorem evaluateWith_compareWith (op : BinaryOperator) (datum : Datum) :
    ((Expression.column field).compareWith op datum).evaluateWith uuidv7 lookup =
      (lookup none field).bind fun stored => Expression.applyBinary op stored datum := by
  rw [Expression.compareWith, Expression.evaluateWith, Expression.evaluateWith, Expression.evaluateWith]
  rfl

theorem evaluateWith_like (pattern : String) :
    (Expression.like (.column field) pattern).evaluateWith uuidv7 lookup =
      (lookup none field).bind fun stored => .ok (.boolean (regexLite (likeToRegex pattern) stored.datumToString)) := by
  rw [Expression.evaluateWith, Expression.evaluateWith]
  rfl

theorem evaluateWith_inList (list : List Datum) :
    (Expression.inList (.column field) list).evaluateWith uuidv7 lookup =
      (lookup none field).bind fun stored => .ok (.boolean (list.any fun candidate => candidate.datumEq stored)) := by
  rw [Expression.evaluateWith, Expression.evaluateWith]
  rfl

theorem evaluateWith_isNull :
    (Expression.isNull (.column field)).evaluateWith uuidv7 lookup =
      (lookup none field).bind fun stored => .ok (.boolean stored.isNull) := by
  rw [Expression.evaluateWith, Expression.evaluateWith]
  rfl

variable [NumberText] {op : String} {operand : Json} {filter : Expression}

/-- Every operator looks its field up first. -/
theorem evaluateWith_operator (hfilter : parseOperatorCondition field op operand = .ok filter) :
    ∃ rest, filter.evaluateWith uuidv7 lookup = (lookup none field).bind rest := by
  unfold parseOperatorCondition at hfilter
  split at hfilter
  case h_8 | h_9 | h_10 =>
    cases hfilter
    exact ⟨_, evaluateWith_like _⟩
  case h_11 =>
    split at hfilter
    · cases hfilter
      exact ⟨_, evaluateWith_inList _⟩
    · cases hfilter
  case h_12 => cases hfilter
  all_goals
    cases hfilter
    exact ⟨_, evaluateWith_compareWith _ _⟩

/-- What an operator says of a stored value, the filter says too. -/
theorem operator_verdict {stored : Datum} (hstored : lookup none field = .ok stored)
    (hfilter : parseOperatorCondition field op operand = .ok filter) (hfaithful : operatorFaithful stored op operand = true) :
    Verdict.Of ⟨true, operatorComparesNull stored op operand, operatorHolds stored op operand⟩
      (filter.evaluateWith uuidv7 lookup) := by
  unfold parseOperatorCondition at hfilter
  split at hfilter
  -- eq
  case h_1 =>
    cases hfilter
    rw [evaluateWith_compareWith, hstored]
    have hverdict := @compare_verdict stored operand .eq _ rfl (comparable_of_listable hfaithful)
    rw [isOrdered_one, ← isEqual_of_listable hfaithful] at hverdict
    exact hverdict
  -- ne and not
  case h_2 | h_3 =>
    cases hfilter
    rw [evaluateWith_compareWith, hstored]
    obtain ⟨hscalar, hcomparable⟩ := (Bool.and_eq_true _ _).mp hfaithful
    exact ne_verdict hscalar hcomparable
  -- gt
  case h_4 =>
    cases hfilter
    rw [evaluateWith_compareWith, hstored]
    have hverdict := @compare_verdict stored operand .gt _ rfl hfaithful
    rw [isOrdered_one] at hverdict
    exact hverdict
  -- gte
  case h_5 =>
    cases hfilter
    rw [evaluateWith_compareWith, hstored]
    have hverdict := @compare_verdict stored operand .ge _ rfl hfaithful
    rw [isOrdered_two] at hverdict
    exact hverdict
  -- lt
  case h_6 =>
    cases hfilter
    rw [evaluateWith_compareWith, hstored]
    have hverdict := @compare_verdict stored operand .lt _ rfl hfaithful
    rw [isOrdered_one] at hverdict
    exact hverdict
  -- lte
  case h_7 =>
    cases hfilter
    rw [evaluateWith_compareWith, hstored]
    have hverdict := @compare_verdict stored operand .le _ rfl hfaithful
    rw [isOrdered_two] at hverdict
    exact hverdict
  -- contains
  case h_8 =>
    cases hfilter
    rw [evaluateWith_like, hstored]
    refine @like_verdict stored operand _ _ _ (fun text whole => text <:+: whole) ?_ ?_ hfaithful
    · exact fun text h => List.infix_nil.mp (of_decide_eq_true h)
    · exact fun hplain whole => Bool.eq_iff_iff.mpr ((regexLite_contains hplain).trans decide_eq_true_iff.symm)
  -- startsWith
  case h_9 =>
    cases hfilter
    rw [evaluateWith_like, hstored]
    refine @like_verdict stored operand _ _ _ (fun text whole => text <+: whole) ?_ ?_ hfaithful
    · exact fun text h => List.prefix_nil.mp (of_decide_eq_true h)
    · exact fun hplain whole => Bool.eq_iff_iff.mpr ((regexLite_startsWith hplain).trans decide_eq_true_iff.symm)
  -- endsWith
  case h_10 =>
    cases hfilter
    rw [evaluateWith_like, hstored]
    refine @like_verdict stored operand _ _ _ (fun text whole => text <:+ whole) ?_ ?_ hfaithful
    · exact fun text h => List.suffix_nil.mp (of_decide_eq_true h)
    · exact fun hplain whole => Bool.eq_iff_iff.mpr ((regexLite_endsWith hplain).trans decide_eq_true_iff.symm)
  -- in
  case h_11 =>
    split at hfilter
    · rename_i items hitems
      cases hfilter
      rw [evaluateWith_inList, hstored]
      show Verdict.Of ⟨true, false, isAmong stored (operand.asArray.getD [])⟩ _
      have hlistable : (operand.asArray.getD []).all (listable stored) = true := hfaithful
      rw [hitems] at hlistable ⊢
      refine ⟨fun h => absurd h Bool.noConfusion, fun _ => ?_, fun h => absurd h Bool.noConfusion⟩
      exact congrArg (fun among => Except.ok (Datum.boolean among)) (any_datumEq hlistable)
    · cases hfilter
  case h_12 => cases hfilter

theorem operatorVerdict_of (hfilter : parseOperatorCondition field op operand = .ok filter)
    (hfaithful : ((rowOf lookup field).all fun stored => operatorFaithful stored op operand) = true) :
    (operatorVerdict (rowOf lookup) field (op, operand)).Of (filter.evaluateWith uuidv7 lookup) := by
  cases hlookup : lookup none field with
  | error err =>
      obtain ⟨rest, hrest⟩ := @evaluateWith_operator _ _ uuidv7 lookup field _ op operand filter hfilter
      rw [operatorVerdict, rowOf_error hlookup, hrest]
      exact verdict_of_error hlookup
  | ok stored =>
      rw [rowOf_ok hlookup] at hfaithful
      rw [operatorVerdict, rowOf_ok hlookup]
      exact operator_verdict hlookup hfilter hfaithful

/-- The verdict of a list of operators, one filter for each. -/
theorem operators_verdict {ops : List (String × Json)} {filters : List Expression}
    (hfilters : (ops.mapM fun entry => parseOperatorCondition field entry.1 entry.2) = .ok filters)
    (hfaithful : ((rowOf lookup field).all fun stored => fieldFaithful stored (.object ops)) = true) :
    Verdicts uuidv7 lookup (ops.map (operatorVerdict (rowOf lookup) field)) filters := by
  rw [mapM_ok_iff_forall₂] at hfilters
  rw [Verdicts, List.forall₂_map_left_iff]
  induction hfilters with
  | nil => exact .nil
  | @cons entry filter ops filters hfirst _ ih =>
      refine .cons (operatorVerdict_of hfirst ?_) (ih ?_)
      · cases hrow : rowOf lookup field with
        | none => rfl
        | some stored =>
            rw [hrow] at hfaithful
            exact List.all_eq_true.mp hfaithful entry List.mem_cons_self
      · cases hrow : rowOf lookup field with
        | none => rfl
        | some stored =>
            rw [hrow] at hfaithful
            exact List.all_eq_true.mpr fun other hother =>
              List.all_eq_true.mp hfaithful other (List.mem_cons_of_mem entry hother)

/-- What the condition of a field says of the row, its filter says too; only a list of no operators has none. -/
theorem field_verdict {condition : Json} {filter : Option Expression}
    (hfilter : parseFieldCondition field condition = .ok filter)
    (hfaithful : ((rowOf lookup field).all fun stored => fieldFaithful stored condition) = true) :
    (filter = none ∧ condition = .object []) ∨ ∃ expr, filter = some expr ∧ condition ≠ .object [] ∧
      (fieldVerdict (rowOf lookup) field condition).Of (expr.evaluateWith uuidv7 lookup) := by
  have hscalar : ∀ scalar : Json, scalar.scalarText.isSome = true →
      ((rowOf lookup field).all fun stored => scalar.comparable stored) = true →
      (∀ stored, fieldComparesNull stored scalar = stored.isNull) →
      (∀ stored, fieldHolds stored scalar = stored.any fun stored => isEqual stored scalar) →
      (fieldVerdict (rowOf lookup) field scalar).Of
        (((Expression.column field).compareWith .eq scalar.toDatum).evaluateWith uuidv7 lookup) := by
    intro scalar htext hcomparable hnull hholds
    rw [evaluateWith_compareWith, fieldVerdict, hholds]
    cases hlookup : lookup none field with
    | error err =>
        rw [rowOf_error hlookup, ← hlookup]
        exact verdict_of_error hlookup
    | ok stored =>
        rw [rowOf_ok hlookup] at hcomparable ⊢
        show Verdict.Of ⟨true, fieldComparesNull stored scalar, isEqual stored scalar⟩ _
        rw [hnull]
        exact scalar_verdict htext hcomparable
  cases condition with
  | null =>
      cases hfilter
      refine .inr ⟨_, rfl, nofun, ?_⟩
      rw [evaluateWith_isNull]
      cases hlookup : lookup none field with
      | error err =>
          rw [fieldVerdict, rowOf_error hlookup, ← hlookup]
          exact verdict_of_error hlookup
      | ok stored =>
          rw [fieldVerdict, rowOf_ok hlookup]
          exact ⟨fun h => absurd h Bool.noConfusion, fun _ => rfl, fun h => absurd h Bool.noConfusion⟩
  | bool b =>
      cases hfilter
      exact .inr ⟨_, rfl, nofun, hscalar (.bool b) rfl hfaithful (fun _ => rfl) fun _ => rfl⟩
  | number n =>
      cases hfilter
      exact .inr ⟨_, rfl, nofun, hscalar (.number n) rfl hfaithful (fun _ => rfl) fun _ => rfl⟩
  | string s =>
      cases hfilter
      exact .inr ⟨_, rfl, nofun, hscalar (.string s) rfl hfaithful (fun _ => rfl) fun _ => rfl⟩
  | array items =>
      cases hfilter
      refine .inr ⟨_, rfl, nofun, ?_⟩
      rw [evaluateWith_inList]
      cases hlookup : lookup none field with
      | error err =>
          rw [fieldVerdict, rowOf_error hlookup, ← hlookup]
          exact verdict_of_error hlookup
      | ok stored =>
          rw [rowOf_ok hlookup] at hfaithful
          rw [fieldVerdict, rowOf_ok hlookup]
          refine ⟨fun h => absurd h Bool.noConfusion, fun _ => ?_, fun h => absurd h Bool.noConfusion⟩
          exact congrArg (fun among => Except.ok (Datum.boolean among)) (any_datumEq hfaithful)
  | object ops =>
      obtain ⟨filters, hfilters, hcombine⟩ := Loop.bind_ok_iff.mp hfilter
      obtain rfl : Expression.combineAnd filters = filter := Except.ok.inj hcombine
      have hverdicts : Verdicts uuidv7 lookup _ filters := operators_verdict hfilters hfaithful
      by_cases hops : ops = []
      · rw [hops] at hverdicts ⊢
        cases hverdicts
        exact .inl ⟨rfl, rfl⟩
      · have hne : filters ≠ [] := by
          rintro rfl
          exact hops (List.map_eq_nil_iff.mp (List.forall₂_nil_right_iff.mp hverdicts))
        obtain ⟨first, rest, rfl⟩ := List.exists_cons_of_ne_nil hne
        refine .inr ⟨_, rfl, fun h => hops (Json.object.inj h), ?_⟩
        rw [← allOf_operatorVerdict _ ops hops]
        exact combineAnd_verdict hverdicts rfl

end Evaluation

end Json

end HelionDb
