import HelionDb.AlikeValues
import HelionDb.IntegerArithmetic
import HelionDb.Noninterference

/-! Filters on a column that is given a wider integer type. A filter that only compares the column, prints it or asks
whether it is NULL comes to the same on a row of the narrow table and on the same row of the wide one. A filter that
computes with the column need not: the type of its operands decides what an operator returns and what it refuses. -/

namespace HelionDb

open Datum (Alike)
open Relational (SameOutcome)

namespace Expression

/-- The operators that compute a number. -/
def isArithmetic (op : BinaryOperator) : Bool := op ∈ [.add, .sub, .mul, .div]

section Values

variable {left right left' right' : Datum}

theorem applyBinary_alike {op : BinaryOperator} (hop : isArithmetic op = false) (hleft : Alike left left')
    (hright : Alike right right') : applyBinary op left right = applyBinary op left' right' := by
  unfold applyBinary
  rw [hleft.isNull_eq, hright.isNull_eq]
  split
  · rfl
  · cases op <;>
      simp only [hleft.datumEq_eq hright, hleft.compareDatums_eq hright, hleft.datumToBool_eq, hright.datumToBool_eq] <;>
      cases hop

theorem applyBetween_alike {high high' : Datum} (hleft : Alike left left') (hright : Alike right right')
    (hhigh : Alike high high') : applyBetween left right high = applyBetween left' right' high' := by
  unfold applyBetween
  rw [hleft.isNull_eq, hright.isNull_eq, hhigh.isNull_eq, hleft.compareDatums_eq hright, hleft.compareDatums_eq hhigh]

end Values

section Functions

variable {args args' : List Datum}

theorem filter_not_null_alike (h : List.Forall₂ Alike args args') :
    (args.filter fun arg => !arg.isNull).length = (args'.filter fun arg => !arg.isNull).length :=
  (Relational.rel_filter h fun _ _ halike => by rw [halike.isNull_eq]).length_eq

theorem numbers_alike (h : List.Forall₂ Alike args args') : Datum.numbers args = Datum.numbers args' := by
  induction h with
  | nil => rfl
  | cons hfirst hrest ih =>
      unfold Datum.numbers at ih ⊢
      rw [List.filterMap_cons, List.filterMap_cons, hfirst.asF64_eq, ih]

theorem minBy_alike (h : List.Forall₂ Alike args args') : Option.Rel Alike (Datum.minBy args) (Datum.minBy args') := by
  cases h with
  | nil => exact .none
  | cons hfirst hrest =>
      refine .some (List.rel_foldl (fun best best' hbest next next' hnext => ?_) hfirst hrest)
      rw [hbest.orEqual_eq hnext]
      split
      · exact hnext
      · exact hbest

theorem maxBy_alike (h : List.Forall₂ Alike args args') : Option.Rel Alike (Datum.maxBy args) (Datum.maxBy args') := by
  cases h with
  | nil => exact .none
  | cons hfirst hrest =>
      refine .some (List.rel_foldl (fun best best' hbest next next' hnext => ?_) hfirst hrest)
      rw [hbest.orEqual_eq hnext]
      split
      · exact hbest
      · exact hnext

theorem coalesce_alike (h : List.Forall₂ Alike args args') :
    Alike ((args.find? fun arg => !arg.isNull).getD .null) ((args'.find? fun arg => !arg.isNull).getD .null) := by
  have hfound := Relational.rel_find? h (p := fun arg => !arg.isNull) (q := fun arg => !arg.isNull)
    fun _ _ halike => by rw [halike.isNull_eq]
  revert hfound
  cases args.find? fun arg => !arg.isNull <;> cases args'.find? fun arg => !arg.isNull <;> rintro ⟨⟩
  · exact .refl _
  · next halike => exact halike

theorem head_alike (h : List.Forall₂ Alike args args') : Alike (args.head?.getD .null) (args'.head?.getD .null) := by
  cases h with
  | nil => exact .refl _
  | cons hfirst hrest => exact hfirst

theorem firstText_alike [Rendering] (h : List.Forall₂ Alike args args') :
    (args.head?.map Datum.datumToString).getD "" = (args'.head?.map Datum.datumToString).getD "" := by
  cases h with
  | nil => rfl
  | cons hfirst hrest => exact hfirst.datumToString_eq

/-- The functions that compute with a number: ABS, which keeps its type, and ROUND, which reads its digits off an
INTEGER only. -/
def isComputing [CaseMapping] (name : String) : Bool :=
  CaseMapping.toLowercase name = "abs" || CaseMapping.toLowercase name = "round"

theorem evaluateFunction_alike [CaseMapping] [Rendering] {uuidv7 : BitVec 128} {name : String}
    (hname : isComputing name = false) (h : List.Forall₂ Alike args args') :
    SameOutcome Alike (evaluateFunction uuidv7 name args) (evaluateFunction uuidv7 name args') := by
  simp only [isComputing, Bool.or_eq_false_iff, decide_eq_false_iff_not] at hname
  unfold evaluateFunction
  dsimp only
  rw [filter_not_null_alike h, numbers_alike h, firstText_alike h, Relational.isEmpty_eq h]
  split
  · exact .ok (.refl _)
  · split
    · exact .ok (.refl _)
    · exact .error _
  · split
    · exact .ok (.refl _)
    · exact .error _
  · exact .ok (.refl _)
  · split <;> exact .ok (.refl _)
  · have hmin := minBy_alike h
    revert hmin
    cases Datum.minBy args <;> cases Datum.minBy args' <;> rintro ⟨⟩
    · exact .error _
    · next halike => exact .ok halike
  · have hmax := maxBy_alike h
    revert hmax
    cases Datum.maxBy args <;> cases Datum.maxBy args' <;> rintro ⟨⟩
    · exact .error _
    · next halike => exact .ok halike
  -- LOWER, UPPER and LENGTH, each under two names.
  iterate 6 exact .ok (.refl _)
  · exact .ok (coalesce_alike h)
  · cases h with
    | nil => exact .ok (.refl _)
    | cons hfirst hrest =>
        dsimp only
        rw [hfirst.isNull_eq]
        split
        · exact .ok (head_alike hrest)
        · exact .ok hfirst
  · next habs => exact absurd habs hname.1
  · next hround => exact absurd hround hname.2
  · exact .error _

end Functions

/-! ### Expressions that only compare a column -/

section Evaluation

variable [CaseMapping] (touched : Option String × String → Bool)

/-- None of the touched columns is named. -/
def namesNone (references : List (Option String × String)) : Bool := references.all fun reference => !touched reference

mutual

/-- No operand of an arithmetic operator, of a unary minus, of ABS or of ROUND names one of the touched columns. -/
def onlyCompares : Expression → Bool
  | .column _ | .qualifiedColumn _ _ | .literal _ => true
  | .binaryOp left op right =>
      if isArithmetic op then namesNone touched (left.references ++ right.references)
      else left.onlyCompares && right.onlyCompares
  | .unaryOp .neg inner => namesNone touched inner.references
  | .unaryOp .not inner | .isNull inner | .isNotNull inner | .inList inner _ | .like inner _ => inner.onlyCompares
  | .between inner low high => inner.onlyCompares && low.onlyCompares && high.onlyCompares
  | .function name args =>
      if isComputing name then namesNone touched (referencesAll args) else allOnlyCompare args

/-- The same of all arguments of a function. -/
def allOnlyCompare : List Expression → Bool
  | [] => true
  | arg :: rest => arg.onlyCompares && allOnlyCompare rest

end

variable {touched} [Rendering] {uuidv7 : BitVec 128} {narrow wide : Option String → String → Except HelionError Datum}

omit [CaseMapping] [Rendering] in
theorem eq_of_namesNone (hsame : ∀ table name, touched (table, name) = false → narrow table name = wide table name)
    {references : List (Option String × String)} (h : namesNone touched references = true) :
    ∀ reference ∈ references, narrow reference.1 reference.2 = wide reference.1 reference.2 := by
  intro reference hreference
  apply hsame
  simpa using List.all_eq_true.mp h reference hreference

omit [CaseMapping] [Rendering] in
theorem sameOutcome_of_eq {left right : Except HelionError Datum} (h : left = right) : SameOutcome Alike left right := by
  subst h
  cases left with
  | ok value => exact .ok (.refl value)
  | error err => exact .error err

mutual

/-- An expression that only compares the touched columns comes to alike values where the columns have alike values. -/
theorem evaluateWith_alike (hlookup : ∀ table name, SameOutcome Alike (narrow table name) (wide table name))
    (hsame : ∀ table name, touched (table, name) = false → narrow table name = wide table name) (expr : Expression)
    (h : expr.onlyCompares touched = true) :
    SameOutcome Alike (expr.evaluateWith uuidv7 narrow) (expr.evaluateWith uuidv7 wide) := by
  cases expr with
  | column name => exact hlookup none name
  | qualifiedColumn table name => exact hlookup (some table) name
  | literal value => exact .ok (.refl value)
  | binaryOp left op right =>
      rw [onlyCompares] at h
      split at h
      · exact sameOutcome_of_eq (evaluateWith_congr _ (eq_of_namesNone hsame h))
      · next hop =>
          rw [Bool.and_eq_true] at h
          rw [evaluateWith, evaluateWith]
          refine (evaluateWith_alike hlookup hsame left h.1).bind fun l l' hl =>
            (evaluateWith_alike hlookup hsame right h.2).bind fun r r' hr => sameOutcome_of_eq ?_
          exact applyBinary_alike (Bool.eq_false_of_not_eq_true hop) hl hr
  | unaryOp op inner =>
      cases op with
      | neg => exact sameOutcome_of_eq (evaluateWith_congr _ (eq_of_namesNone hsame (by rwa [onlyCompares] at h)))
      | not =>
          rw [onlyCompares] at h
          rw [evaluateWith, evaluateWith]
          refine (evaluateWith_alike hlookup hsame inner h).bind fun value value' halike => sameOutcome_of_eq ?_
          simp only [applyUnary, halike.datumToBool_eq]
  | isNull inner =>
      rw [onlyCompares] at h
      rw [evaluateWith, evaluateWith]
      refine (evaluateWith_alike hlookup hsame inner h).bind fun value value' halike => sameOutcome_of_eq ?_
      rw [halike.isNull_eq]
  | isNotNull inner =>
      rw [onlyCompares] at h
      rw [evaluateWith, evaluateWith]
      refine (evaluateWith_alike hlookup hsame inner h).bind fun value value' halike => sameOutcome_of_eq ?_
      rw [halike.isNull_eq]
  | inList inner list =>
      rw [onlyCompares] at h
      rw [evaluateWith, evaluateWith]
      refine (evaluateWith_alike hlookup hsame inner h).bind fun value value' halike => sameOutcome_of_eq ?_
      simp only [(Datum.Alike.refl _).datumEq_eq halike]
  | between inner low high =>
      rw [onlyCompares, Bool.and_eq_true, Bool.and_eq_true] at h
      rw [evaluateWith, evaluateWith]
      refine (evaluateWith_alike hlookup hsame inner h.1.1).bind fun value value' halike =>
        (evaluateWith_alike hlookup hsame low h.1.2).bind fun lowVal lowVal' hlow =>
          (evaluateWith_alike hlookup hsame high h.2).bind fun highVal highVal' hhigh => sameOutcome_of_eq ?_
      rw [applyBetween_alike halike hlow hhigh]
  | like inner pattern =>
      rw [onlyCompares] at h
      rw [evaluateWith, evaluateWith]
      refine (evaluateWith_alike hlookup hsame inner h).bind fun value value' halike => sameOutcome_of_eq ?_
      rw [halike.datumToString_eq]
  | function name args =>
      rw [onlyCompares] at h
      split at h
      · exact sameOutcome_of_eq (evaluateWith_congr _ (eq_of_namesNone hsame h))
      · next hname =>
          rw [evaluateWith, evaluateWith]
          refine (evaluateAll_alike hlookup hsame args h).bind fun values values' halike => ?_
          exact evaluateFunction_alike (Bool.eq_false_of_not_eq_true hname) halike

theorem evaluateAll_alike (hlookup : ∀ table name, SameOutcome Alike (narrow table name) (wide table name))
    (hsame : ∀ table name, touched (table, name) = false → narrow table name = wide table name)
    (args : List Expression) (h : allOnlyCompare touched args = true) :
    SameOutcome (List.Forall₂ Alike) (evaluateAll uuidv7 narrow args) (evaluateAll uuidv7 wide args) := by
  cases args with
  | nil => exact .ok .nil
  | cons arg rest =>
      rw [allOnlyCompare, Bool.and_eq_true] at h
      rw [evaluateAll, evaluateAll]
      exact (evaluateWith_alike hlookup hsame arg h.1).bind fun value value' hvalue =>
        (evaluateAll_alike hlookup hsame rest h.2).bind fun values values' hvalues => .ok (.cons hvalue hvalues)

end

omit [CaseMapping] [Rendering] in
/-- An integer is not TRUE. -/
theorem not_passes_of_intValue {value : Datum} {n : Int} (h : value.intValue = some n) : passes (.ok value) = false := by
  cases value <;> first | rfl | cases h

omit [CaseMapping] [Rendering] in
theorem passes_alike {outcome outcome' : Except HelionError Datum} (h : SameOutcome Alike outcome outcome') :
    passes outcome = passes outcome' := by
  cases h with
  | error err => rfl
  | @ok left right halike =>
      rcases halike with rfl | ⟨n, hleft, hright⟩
      · rfl
      · rw [not_passes_of_intValue hleft, not_passes_of_intValue hright]

end Evaluation

section Positions

variable {row : List Datum} {tableMap wideMap : List TableSlot}

/-- The position of a combined row that `evaluate_join` reads for a column. -/
def positionIn (tableMap : List TableSlot) (table : Option String) (name : String) : Except HelionError Nat :=
  match table with
  | some table =>
      match tableMap.find? fun slot => eqIgnoreAsciiCase slot.name table with
      | none => .error (.columnNotFound (table ++ "." ++ name))
      | some slot =>
          match positionOf slot.columns name with
          | none => .error (.columnNotFound (table ++ "." ++ name))
          | some idx => .ok (slot.offset + idx)
  | none =>
      match findUnqualified name none tableMap with
      | .error err => .error err
      | .ok none => .error (.columnNotFound name)
      | .ok (some idx) => .ok idx

theorem lookupJoin_eq (table : Option String) (name : String) :
    lookupJoin row tableMap table name = (positionIn tableMap table name).map fun idx => row[idx]?.getD .null := by
  unfold lookupJoin positionIn
  cases table with
  | some table =>
      dsimp only
      cases tableMap.find? fun slot => eqIgnoreAsciiCase slot.name table with
      | none => rfl
      | some slot =>
          dsimp only
          cases positionOf slot.columns name <;> rfl
  | none =>
      dsimp only
      cases findUnqualified name none tableMap with
      | error err => rfl
      | ok found => cases found <;> rfl

/-- Two tables of a combined row that differ in no name and in no offset; the types of their columns may differ. -/
structure SlotAlike (left right : TableSlot) : Prop where
  name : left.name = right.name
  offset : left.offset = right.offset
  columns : left.columns.map (·.name) = right.columns.map (·.name)

theorem SlotAlike.positionOf_eq {left right : TableSlot} (h : SlotAlike left right) (name : String) :
    positionOf left.columns name = positionOf right.columns name := by
  have hnames : ∀ columns : List ColumnMeta,
      positionOf columns name = (columns.map (·.name)).findIdx? fun column => eqIgnoreAsciiCase column name := by
    intro columns
    rw [positionOf, List.findIdx?_map]
    rfl
  rw [hnames, hnames, h.columns]

theorem findUnqualified_eq (h : List.Forall₂ SlotAlike tableMap wideMap) (name : String) (found : Option Nat) :
    findUnqualified name found tableMap = findUnqualified name found wideMap := by
  induction h generalizing found with
  | nil => rfl
  | cons hfirst hrest ih =>
      rw [findUnqualified, findUnqualified, hfirst.positionOf_eq name, hfirst.offset]
      split
      · exact ih found
      · split
        · rfl
        · exact ih _

theorem positionIn_eq (h : List.Forall₂ SlotAlike tableMap wideMap) (table : Option String) (name : String) :
    positionIn tableMap table name = positionIn wideMap table name := by
  unfold positionIn
  cases table with
  | none =>
      dsimp only
      rw [findUnqualified_eq h]
  | some table =>
      have hfound := Relational.rel_find? h (p := fun slot => eqIgnoreAsciiCase slot.name table)
        (q := fun slot => eqIgnoreAsciiCase slot.name table) fun left right halike => by rw [halike.name]
      dsimp only
      revert hfound
      cases tableMap.find? fun slot => eqIgnoreAsciiCase slot.name table <;>
        cases wideMap.find? fun slot => eqIgnoreAsciiCase slot.name table <;> rintro ⟨⟩
      · rfl
      · next halike =>
          dsimp only
          rw [halike.positionOf_eq name, halike.offset]

/-- A reference reads a position of the combined row. -/
def readsAt (tableMap : List TableSlot) (idx : Nat) (reference : Option String × String) : Bool :=
  match positionIn tableMap reference.1 reference.2 with
  | .ok position => position = idx
  | .error _ => false

end Positions

end Expression

/-! ### Rows of the narrow and of the wide table -/

open Expression (TableSlot SlotAlike positionIn readsAt)

/-- Every integer of one type is one of the other. -/
def DataType.WidensTo (narrow wide : DataType) : Prop :=
  ∃ small large, narrow.integerRange = some small ∧ wide.integerRange = some large ∧
    large.1 ≤ small.1 ∧ small.2 ≤ large.2

/-- One value in a column of two types: NULL in both, or an integer of the one type and the same one of the other. -/
inductive WidenedValue (narrow wide : DataType) : Datum → Datum → Prop where
  | null : WidenedValue narrow wide .null .null
  | integer {value widened : Datum} {n : Int} (hnarrow : value.dataType = narrow) (hwide : widened.dataType = wide)
      (hvalue : value.intValue = some n) (hwidened : widened.intValue = some n) : WidenedValue narrow wide value widened

/-- One row in a table whose column at a position has two types. -/
structure WidenedRow (idx : Nat) (narrow wide : DataType) (row wideRow : List Datum) : Prop where
  others : ∀ other, other ≠ idx → row[other]? = wideRow[other]?
  value : Option.Rel (WidenedValue narrow wide) row[idx]? wideRow[idx]?

section Rows

variable {idx : Nat} {narrow wide : DataType} {row wideRow : List Datum} {tableMap wideMap : List TableSlot}

theorem WidenedValue.alike {value widened : Datum} (h : WidenedValue narrow wide value widened) :
    Alike value widened := by
  cases h with
  | null => exact .refl _
  | integer _ _ hvalue hwidened => exact .inr ⟨_, hvalue, hwidened⟩

/-- A value of the narrow column, stored in the wide one. -/
theorem widenedValue_of_coerce {value widened : Datum} {n : Int} (hvalue : value.intValue = some n)
    (hstored : coerceDatum value wide = .ok widened) : WidenedValue value.dataType wide value widened :=
  have hcoerced := Datum.coerceDatum_intValue hvalue hstored
  .integer rfl hcoerced.2 hvalue hcoerced.1

theorem WidenedRow.getD_alike (h : WidenedRow idx narrow wide row wideRow) (position : Nat) :
    Alike (row[position]?.getD .null) (wideRow[position]?.getD .null) := by
  by_cases hposition : position = idx
  · subst hposition
    have hvalue := h.value
    revert hvalue
    cases row[position]? <;> cases wideRow[position]? <;> rintro ⟨⟩
    · exact .refl _
    · next hwidened => exact hwidened.alike
  · rw [h.others position hposition]
    exact .refl _

variable [CaseMapping] [Rendering] {choices : QueryChoices} {filter : Expression}

/-- A filter that does not compute with the widened column selects a row of the narrow table exactly if it selects the
same row of the wide one. -/
theorem satisfies_widened (hslots : List.Forall₂ SlotAlike tableMap wideMap)
    (hfilter : filter.onlyCompares (readsAt tableMap idx) = true) (hrow : WidenedRow idx narrow wide row wideRow) :
    satisfies choices tableMap (some filter) row = satisfies choices wideMap (some filter) wideRow := by
  apply Expression.passes_alike
  apply Expression.evaluateWith_alike _ _ filter hfilter
  · intro table name
    rw [Expression.lookupJoin_eq, Expression.lookupJoin_eq, ← Expression.positionIn_eq hslots]
    cases positionIn tableMap table name with
    | ok position => exact .ok (hrow.getD_alike position)
    | error err => exact .error err
  · intro table name htouched
    rw [Expression.lookupJoin_eq, Expression.lookupJoin_eq, ← Expression.positionIn_eq hslots]
    rw [readsAt] at htouched
    cases hposition : positionIn tableMap table name with
    | error err => rfl
    | ok position =>
        rw [hposition] at htouched
        have hother : position ≠ idx := by simpa using htouched
        exact congrArg (fun value => Except.ok (Option.getD value Datum.null)) (hrow.others position hother)

/-- Integers of any types are compared as integers; so `datum_eq` is an equivalence and `<` transitive on them, and a
filter that does not compute with a widened column selects the same rows of a table as on the narrow column. -/
theorem integers_compared (choices : QueryChoices) :
    (∀ left right : IntegerDatum, left.value.compareDatums right.value = some (compare left.toInt right.toInt)) ∧
    (Equivalence fun left right : IntegerDatum => left.value.datumEq right.value = true) ∧
    (∀ left middle right : IntegerDatum, left.value.compareDatums middle.value = some .lt →
      middle.value.compareDatums right.value = some .lt → left.value.compareDatums right.value = some .lt) ∧
    ∀ (filter : Expression) (tableMap wideMap : List TableSlot) (idx : Nat) (narrow wide : DataType)
      (rows wideRows : DataRows), List.Forall₂ SlotAlike tableMap wideMap →
      filter.onlyCompares (readsAt tableMap idx) = true → List.Forall₂ (WidenedRow idx narrow wide) rows wideRows →
      rows.map (satisfies choices tableMap (some filter)) = wideRows.map (satisfies choices wideMap (some filter)) := by
  refine ⟨IntegerDatum.compareDatums_eq, IntegerDatum.equivalence_datumEq, IntegerDatum.compareDatums_lt_trans, ?_⟩
  intro filter tableMap wideMap idx narrow wide rows wideRows hslots hfilter hrows
  exact Relational.map_eq hrows fun row wideRow hrow => satisfies_widened hslots hfilter hrow

/-- The filter selects the same rows of a table on a column of any integer type as on the column widened. -/
def SelectsSameWhenWidened (choices : QueryChoices) (filter : Expression) : Prop :=
  ∀ (tableMap wideMap : List TableSlot) (idx : Nat) (narrow wide : DataType) (rows wideRows : DataRows),
    narrow.WidensTo wide → List.Forall₂ SlotAlike tableMap wideMap →
    List.Forall₂ (WidenedRow idx narrow wide) rows wideRows →
    rows.map (satisfies choices tableMap (some filter)) = wideRows.map (satisfies choices wideMap (some filter))

end Rows

section Samples

/-- A table of one column. -/
def singleColumn (dataType : DataType) : List TableSlot := [{ name := "t", offset := 0, columns := [.new "a" dataType] }]

theorem singleColumn_alike (narrow wide : DataType) :
    List.Forall₂ SlotAlike (singleColumn narrow) (singleColumn wide) :=
  .cons ⟨rfl, rfl, rfl⟩ .nil

theorem widenedRow_single {narrow wide : DataType} {value widened : Datum}
    (h : WidenedValue narrow wide value widened) : WidenedRow 0 narrow wide [value] [widened] where
  others other hother := by
    obtain ⟨position, rfl⟩ := Nat.exists_eq_succ_of_ne_zero hother
    rfl
  value := .some h

open AsciiCase PlainText

/-- A filter that tells the one value from the other is none that selects the same rows. -/
theorem not_selectsSame {filter : Expression} {narrow wide : DataType} {value widened : Datum}
    (hwidens : narrow.WidensTo wide) (h : WidenedValue narrow wide value widened)
    (hdiffer : satisfies .asGiven (singleColumn narrow) (some filter) [value] ≠
      satisfies .asGiven (singleColumn wide) (some filter) [widened]) : ¬ SelectsSameWhenWidened .asGiven filter := by
  intro hsame
  have hrows := hsame _ _ 0 narrow wide [[value]] [[widened]] hwidens (singleColumn_alike narrow wide)
    (.cons (widenedRow_single h) .nil)
  exact hdiffer (List.singleton_inj.mp hrows)

/-- Not every filter selects the same rows: `a + a = 40000`, `-a < 0`, `ABS(a) = 32768` and `ROUND(1.25, a) = 1` do
not, on columns that are widened from SMALLINT, UNSIGNED SMALLINT and INTEGER. -/
theorem not_forall_selectsSame :
    (¬ ∀ filter, SelectsSameWhenWidened .asGiven filter) ∧
    ¬ SelectsSameWhenWidened .asGiven
      (.binaryOp (.binaryOp (.column "a") .add (.column "a")) .eq (.literal (.integer 40000))) ∧
    ¬ SelectsSameWhenWidened .asGiven (.binaryOp (.unaryOp .neg (.column "a")) .lt (.literal (.integer 0))) ∧
    ¬ SelectsSameWhenWidened .asGiven (.binaryOp (.function "ABS" [.column "a"]) .eq (.literal (.integer 32768))) ∧
    ¬ SelectsSameWhenWidened .asGiven
      (.binaryOp (.function "ROUND" [.literal (.double 0x3FF4000000000000), .column "a"]) .eq
        (.literal (.integer 1))) := by
  have hsmall : DataType.smallInt.WidensTo .integer := ⟨_, _, rfl, rfl, by decide, by decide⟩
  have hunsigned : DataType.unsignedSmallInt.WidensTo .integer := ⟨_, _, rfl, rfl, by decide, by decide⟩
  have hinteger : DataType.integer.WidensTo .bigInt := ⟨_, _, rfl, rfl, by decide, by decide⟩
  have hadd : ¬ SelectsSameWhenWidened .asGiven
      (.binaryOp (.binaryOp (.column "a") .add (.column "a")) .eq (.literal (.integer 40000))) :=
    not_selectsSame hsmall (@WidenedValue.integer _ _ (.smallInt 20000) (.integer 20000) _ rfl rfl rfl rfl)
      (by decide +kernel)
  refine ⟨fun hall => hadd (hall _), hadd, ?_, ?_, ?_⟩
  · exact not_selectsSame hunsigned (@WidenedValue.integer _ _ (.unsignedSmallInt 5) (.integer 5) _ rfl rfl rfl rfl)
      (by decide +kernel)
  · exact not_selectsSame hsmall (@WidenedValue.integer _ _ (.smallInt (-32768)) (.integer (-32768)) _ rfl rfl rfl rfl)
      (by decide +kernel)
  · exact not_selectsSame hinteger (@WidenedValue.integer _ _ (.integer 1) (.bigInt 1) _ rfl rfl rfl rfl)
      (by decide +kernel)

theorem integers_compared_five :
    [[.smallInt 5], [.null], [.smallInt 7]].map (satisfies .asGiven (singleColumn .smallInt)
        (some (.binaryOp (.column "a") .eq (.literal (.integer 5))))) =
      [[.integer 5], [.null], [.integer 7]].map (satisfies .asGiven (singleColumn .integer)
        (some (.binaryOp (.column "a") .eq (.literal (.integer 5))))) := by
  apply (integers_compared .asGiven).2.2.2 _ _ _ 0 .smallInt .integer _ _ (singleColumn_alike .smallInt .integer)
  · decide +kernel
  · exact .cons (widenedRow_single (.integer rfl rfl rfl rfl)) (.cons (widenedRow_single .null)
      (.cons (widenedRow_single (.integer rfl rfl rfl rfl)) .nil))

end Samples

end HelionDb
