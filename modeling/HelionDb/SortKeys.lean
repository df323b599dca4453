import HelionDb.Comparators
import HelionDb.KeyEquality
import HelionDb.Query

/-! ORDER BY. The values of the sort keys have an order in which NULL is the largest; the comparator of `execute_tree`
takes two rows for equal in a key whose values `compare_datums` has no order for, a NULL among them. It sorts by the keys
exactly if it never overlooks the key that decides. -/

namespace HelionDb

namespace Datum

/-- The kind of a value: values of one kind have an order, and NULL comes last. -/
def orderClass : Datum → Nat
  | boolean _ => 0
  | smallInt _ | unsignedSmallInt _ | integer _ | unsignedInteger _ | bigInt _ | unsignedBigInt _ => 1
  | real _ | double _ => 2
  | varChar _ | char _ | text _ => 3
  | binary _ => 4
  | date _ => 5
  | time _ => 6
  | timestamp _ => 7
  | timestampTz _ => 8
  | uuid _ => 9
  | uuidV7 _ => 10
  | null => 11

/-- The number that orders a value among its kind. -/
def orderNumber : Datum → Int
  | boolean b => if b then 1 else 0
  | smallInt v => v.toInt
  | unsignedSmallInt v => v.toNat
  | integer v => v.toInt
  | unsignedInteger v => v.toNat
  | bigInt v => v.toInt
  | unsignedBigInt v => v.toNat
  | date days => days
  | time nanos | timestamp nanos => nanos
  | timestampTz seconds => seconds.toInt
  | uuid u | uuidV7 u => u.toNat
  | _ => 0

/-- The text that orders a value among its kind. -/
def orderText : Datum → String
  | varChar s | char s | text s => s
  | _ => ""

/-- The bytes that order a value among its kind. -/
def orderBytes : Datum → List UInt8
  | binary bytes => bytes
  | _ => []

/-- The order of values, NULL being larger than all others; floats are one kind without an order. -/
def valueOrder : Datum → Datum → Ordering :=
  Comparator.lexicographic [compareOn orderClass, compareOn orderNumber, compareOn orderText, compareOn orderBytes]

instance valueOrder_transCmp : Std.TransCmp valueOrder := by
  apply Comparator.transCmp_lexicographic
  intro cmp hcmp
  simp only [List.mem_cons, List.not_mem_nil, or_false] at hcmp
  rcases hcmp with rfl | rfl | rfl | rfl <;> infer_instance

def isFloat : Datum → Bool
  | real _ | double _ => true
  | _ => false

/-- `compare_datums` has an order for the two values: integers of any types, or texts, booleans or UUIDs of the types
that it has an arm for. -/
def comparesWith (left right : Datum) : Bool :=
  (left.intValue.isSome && right.intValue.isSome) ||
    match left, right with
    | boolean _, boolean _ | text _, text _ | varChar _, text _ | text _, varChar _ | uuid _, uuid _
    | uuidV7 _, uuidV7 _ => true
    | _, _ => false

theorem valueOrder_number {left right : Datum} (hclass : left.orderClass = right.orderClass)
    (htext : left.orderText = right.orderText) (hbytes : left.orderBytes = right.orderBytes) :
    valueOrder left right = compare left.orderNumber right.orderNumber := by
  simp only [valueOrder, Comparator.lexicographic, compareOn, hclass, htext, hbytes, Std.ReflCmp.compare_self,
    Ordering.then_eq, Ordering.eq_then]

theorem valueOrder_text {left right : Datum} (hclass : left.orderClass = right.orderClass)
    (hnumber : left.orderNumber = right.orderNumber) (hbytes : left.orderBytes = right.orderBytes) :
    valueOrder left right = compare left.orderText right.orderText := by
  simp only [valueOrder, Comparator.lexicographic, compareOn, hclass, hnumber, hbytes, Std.ReflCmp.compare_self,
    Ordering.then_eq, Ordering.eq_then]

theorem valueOrder_of_intValue {left right : Datum} {m n : Int} (hleft : left.intValue = some m)
    (hright : right.intValue = some n) : valueOrder left right = compare m n := by
  have hform : ∀ {value : Datum} {k : Int}, value.intValue = some k →
      value.orderClass = 1 ∧ value.orderNumber = k ∧ value.orderText = "" ∧ value.orderBytes = [] := by
    intro value k hvalue
    cases value <;> cases hvalue <;> exact ⟨rfl, rfl, rfl, rfl⟩
  obtain ⟨hclass, hnumber, htext, hbytes⟩ := hform hleft
  obtain ⟨hclass', hnumber', htext', hbytes'⟩ := hform hright
  rw [valueOrder_number (hclass.trans hclass'.symm) (htext.trans htext'.symm) (hbytes.trans hbytes'.symm), hnumber,
    hnumber']

/-- Floats apart, `compare_datums` gives the order of the values that it has an order for, and none for all others. -/
theorem compareDatums_eq {left right : Datum} (hleft : left.isFloat = false) (hright : right.isFloat = false) :
    left.compareDatums right = if left.comparesWith right then some (valueOrder left right) else none := by
  cases hm : left.intValue with
  | some m =>
      cases hn : right.intValue with
      | some n =>
          have hcompares : left.comparesWith right = true := by
            unfold comparesWith
            rw [hm, hn]
            rfl
          rw [if_pos hcompares, compareDatums_of_intValue hm hn, valueOrder_of_intValue hm hn]
      | none =>
          cases left <;> cases hm <;> cases right <;>
            first
              | rfl
              | cases hn
                done
              | cases hright
  | none =>
      cases left with
      | boolean a =>
          cases right with
          | boolean b => cases a <;> cases b <;> rfl
          | _ => rfl
      | varChar a =>
          cases right with
          | text b =>
              have horder : valueOrder (varChar a) (text b) = compare a b := valueOrder_text rfl rfl rfl
              exact congrArg some horder.symm
          | _ => rfl
      | text a =>
          cases right with
          | varChar b =>
              have horder : valueOrder (text a) (varChar b) = compare a b := valueOrder_text rfl rfl rfl
              exact congrArg some horder.symm
          | text b =>
              have horder : valueOrder (text a) (text b) = compare a b := valueOrder_text rfl rfl rfl
              exact congrArg some horder.symm
          | _ => rfl
      | uuid a =>
          cases right with
          | uuid b =>
              have horder : valueOrder (uuid a) (uuid b) = compare (a.toNat : Int) b.toNat :=
                valueOrder_number rfl rfl rfl
              exact congrArg some ((compare_natCast _ _).symm.trans horder.symm)
          | _ => rfl
      | uuidV7 a =>
          cases right with
          | uuidV7 b =>
              have horder : valueOrder (uuidV7 a) (uuidV7 b) = compare (a.toNat : Int) b.toNat :=
                valueOrder_number rfl rfl rfl
              exact congrArg some ((compare_natCast _ _).symm.trans horder.symm)
          | _ => rfl
      | char _ | binary _ | date _ | time _ | timestamp _ | timestampTz _ | null => cases right <;> rfl
      | real _ | double _ => cases hleft
      | _ => cases hm

end Datum

/-! ### Sort keys -/

section SortKeys

open Comparator (lexicographic masked StablySorted)
open Expression (TableSlot)

variable [CaseMapping] [Rendering] (choices : QueryChoices) (slots : List TableSlot)

/-- The value of a sort expression for a row, NULL where it has none. -/
def OrderByExpr.sortValue (order : OrderByExpr) (row : List Datum) : Datum :=
  match order.expr.evaluateJoin choices.uuidv7 row slots with
  | .ok value => value
  | .error _ => .null

/-- How a sort expression orders two rows. -/
def keyCompare (order : OrderByExpr) (left right : List Datum) : Ordering :=
  let cmp := Datum.valueOrder (order.sortValue choices slots left) (order.sortValue choices slots right)
  if order.direction = .desc then cmp.swap else cmp

/-- `compare_datums` has an order for the values of a sort expression: neither is NULL nor missing, and there is an arm
for their types. -/
def keySeen (order : OrderByExpr) (left right : List Datum) : Bool :=
  (order.sortValue choices slots left).comparesWith (order.sortValue choices slots right)

/-- How a list of sort expressions orders two rows: by the first that they differ in. -/
def keyOrder (orderBy : List OrderByExpr) : List Datum → List Datum → Ordering :=
  lexicographic (orderBy.map (keyCompare choices slots))

instance keyOrder_transCmp (orderBy : List OrderByExpr) : Std.TransCmp (keyOrder choices slots orderBy) := by
  apply Comparator.transCmp_lexicographic
  intro cmp hcmp
  obtain ⟨order, -, rfl⟩ := List.mem_map.mp hcmp
  have hvalues : Std.TransCmp fun left right =>
      Datum.valueOrder (order.sortValue choices slots left) (order.sortValue choices slots right) :=
    Comparator.transCmp_comap _
  by_cases hdesc : order.direction = .desc
  · have hswap : keyCompare choices slots order = fun left right =>
        (Datum.valueOrder (order.sortValue choices slots left) (order.sortValue choices slots right)).swap := by
      funext left right
      exact if_pos hdesc
    rw [hswap]
    exact Comparator.transCmp_swap
  · have hplain : keyCompare choices slots order = fun left right =>
        Datum.valueOrder (order.sortValue choices slots left) (order.sortValue choices slots right) := by
      funext left right
      exact if_neg hdesc
    rw [hplain]
    exact hvalues

/-- No sort expression has a float for a value. -/
def NoFloatKeys (orderBy : List OrderByExpr) (row : List Datum) : Prop :=
  ∀ order ∈ orderBy, (order.sortValue choices slots row).isFloat = false

variable {choices slots} {orderBy : List OrderByExpr} {left right : List Datum}

theorem sortValue_ok {order : OrderByExpr} {row : List Datum} {value : Datum}
    (h : order.expr.evaluateJoin choices.uuidv7 row slots = .ok value) : order.sortValue choices slots row = value := by
  rw [OrderByExpr.sortValue, h]

theorem sortValue_error {order : OrderByExpr} {row : List Datum} {err : HelionError}
    (h : order.expr.evaluateJoin choices.uuidv7 row slots = .error err) : order.sortValue choices slots row = .null := by
  rw [OrderByExpr.sortValue, h]

/-- What the comparator takes from one sort expression, in the direction of the expression. -/
theorem masked_of_ok {order : OrderByExpr} {a b : Datum} (ha : order.sortValue choices slots left = a)
    (hb : order.sortValue choices slots right = b) (hleft : a.isFloat = false) (hright : b.isFloat = false) :
    masked (keyCompare choices slots) (keySeen choices slots) order left right =
      if order.direction = .desc then (a.orEqual b).swap else a.orEqual b := by
  rw [masked, keySeen, keyCompare, ha, hb, Datum.orEqual, Datum.compareDatums_eq hleft hright]
  by_cases hcompares : a.comparesWith b = true
  · rw [if_pos hcompares, if_pos hcompares]
    rfl
  · rw [if_neg hcompares, if_neg hcompares, Option.getD_none, Ordering.swap_eq, ite_self]

theorem masked_of_null {order : OrderByExpr}
    (h : order.sortValue choices slots left = .null ∨ order.sortValue choices slots right = .null) :
    masked (keyCompare choices slots) (keySeen choices slots) order left right = .eq := by
  rw [masked, keySeen]
  apply if_neg
  rcases h with hleft | hright
  · rw [hleft]
    cases order.sortValue choices slots right <;> exact Bool.false_ne_true
  · rw [hright]
    cases order.sortValue choices slots left <;> exact Bool.false_ne_true

omit [CaseMapping] [Rendering] in
theorem ite_eq_then (cmp rest : Ordering) : (if cmp = .eq then rest else cmp) = cmp.then rest := by
  cases cmp <;> rfl

omit [CaseMapping] [Rendering] in
theorem ite_swap_eq_then (cmp rest : Ordering) : (if cmp = .eq then rest else cmp.swap) = cmp.swap.then rest := by
  cases cmp <;> rfl

theorem compareRows_cons {order : OrderByExpr} {rest : List OrderByExpr}
    (hleft : (order.sortValue choices slots left).isFloat = false)
    (hright : (order.sortValue choices slots right).isFloat = false) :
    compareRows choices slots left right (order :: rest) =
      (masked (keyCompare choices slots) (keySeen choices slots) order left right).then
        (compareRows choices slots left right rest) := by
  rw [compareRows]
  cases ha : order.expr.evaluateJoin choices.uuidv7 left slots with
  | error err =>
      rw [masked_of_null (Or.inl (sortValue_error ha))]
      rfl
  | ok a =>
      cases hb : order.expr.evaluateJoin choices.uuidv7 right slots with
      | error err =>
          rw [masked_of_null (Or.inr (sortValue_error hb))]
          rfl
      | ok b =>
          rw [sortValue_ok ha] at hleft
          rw [sortValue_ok hb] at hright
          rw [masked_of_ok (sortValue_ok ha) (sortValue_ok hb) hleft hright]
          dsimp only
          by_cases hdesc : order.direction = .desc
          · rw [if_pos hdesc]
            exact ite_swap_eq_then _ _
          · rw [if_neg hdesc]
            exact ite_eq_then _ _

/-- The comparator of `execute_tree` is the order by the keys that it can see. -/
theorem compareRows_eq (hleft : NoFloatKeys choices slots orderBy left)
    (hright : NoFloatKeys choices slots orderBy right) :
    compareRows choices slots left right orderBy =
      lexicographic (orderBy.map (masked (keyCompare choices slots) (keySeen choices slots))) left right := by
  induction orderBy with
  | nil => rfl
  | cons order rest ih =>
      rw [compareRows_cons (hleft order List.mem_cons_self) (hright order List.mem_cons_self),
        ih (fun other hother => hleft other (List.mem_cons_of_mem order hother))
          (fun other hother => hright other (List.mem_cons_of_mem order hother))]
      rfl

/-- The first key that two rows differ in decides for the comparator, too: it can see this key, or the first that the
rows differ in and that it can see orders them alike. -/
def SeesDecidingKey (choices : QueryChoices) (slots : List TableSlot) (orderBy : List OrderByExpr)
    (left right : List Datum) : Prop :=
  ∀ front key back, orderBy = front ++ key :: back →
    (∀ other ∈ front, keyCompare choices slots other left right = .eq) → keyCompare choices slots key left right ≠ .eq →
      ∃ front' seen back', orderBy = front' ++ seen :: back' ∧
        (∀ other ∈ front', keySeen choices slots other left right = true →
          keyCompare choices slots other left right = .eq) ∧
        keySeen choices slots seen left right = true ∧
        keyCompare choices slots seen left right = keyCompare choices slots key left right

/-- ORDER BY sorts some rows: on these the comparator is a total preorder, which orders them by their keys with NULL as
the largest value, and the output is the input in this order, rows with equal keys as they stood. -/
structure SortsByKeys (choices : QueryChoices) (slots : List TableSlot) (orderBy : List OrderByExpr)
    (rows : List (List Datum)) : Prop where
  reflexive : ∀ row ∈ rows, compareRows choices slots row row orderBy = .eq
  total : ∀ left ∈ rows, ∀ right ∈ rows,
    compareRows choices slots left right orderBy = (compareRows choices slots right left orderBy).swap
  transitive : ∀ a ∈ rows, ∀ b ∈ rows, ∀ c ∈ rows, compareRows choices slots a b orderBy ≠ .gt →
    compareRows choices slots b c orderBy ≠ .gt → compareRows choices slots a c orderBy ≠ .gt
  byKeys : ∀ left ∈ rows, ∀ right ∈ rows,
    compareRows choices slots left right orderBy = keyOrder choices slots orderBy left right
  sorted : StablySorted (keyOrder choices slots orderBy) rows (sortRows choices slots orderBy rows)

theorem sortsByKeys_of_agrees {rows : List (List Datum)} (h : ∀ left ∈ rows, ∀ right ∈ rows,
    compareRows choices slots left right orderBy = keyOrder choices slots orderBy left right) :
    SortsByKeys choices slots orderBy rows := by
  have hpreorders : Comparator.PreordersOn (fun left right => compareRows choices slots left right orderBy) rows := {
    reversed := by
      intro left hleft right hright
      rw [h left hleft right hright, h right hright left hleft]
      exact Std.OrientedCmp.eq_swap
    transitive := by
      intro a ha b hb c hc
      rw [h a ha b hb, h b hb c hc, h a ha c hc, Comparator.ne_gt_iff_isLE, Comparator.ne_gt_iff_isLE,
        Comparator.ne_gt_iff_isLE]
      exact Std.TransCmp.isLE_trans }
  have hsort : sortRows choices slots orderBy rows =
      rows.insertionSort fun left right => keyOrder choices slots orderBy left right ≠ .gt :=
    (sortRows_eq_insertionSort hpreorders).trans (Comparator.insertionSort_congr h)
  exact {
    reflexive := fun row hrow => (h row hrow row hrow).trans Std.ReflCmp.compare_self
    total := hpreorders.reversed
    transitive := hpreorders.transitive
    byKeys := h
    sorted := hsort ▸ Comparator.stablySorted_insertionSort rows }

/-- ORDER BY sorts rows without floats in their keys exactly if, for any two of them, the comparator sees the key that
decides. -/
theorem sortsByKeys_iff {rows : List (List Datum)} (hkeys : ∀ row ∈ rows, NoFloatKeys choices slots orderBy row) :
    SortsByKeys choices slots orderBy rows ↔
      ∀ left ∈ rows, ∀ right ∈ rows, SeesDecidingKey choices slots orderBy left right := by
  have hagrees : (∀ left ∈ rows, ∀ right ∈ rows,
      compareRows choices slots left right orderBy = keyOrder choices slots orderBy left right) ↔
        ∀ left ∈ rows, ∀ right ∈ rows, SeesDecidingKey choices slots orderBy left right := by
    apply forall₂_congr
    intro left hleft
    apply forall₂_congr
    intro right hright
    rw [compareRows_eq (hkeys left hleft) (hkeys right hright)]
    exact Comparator.lexicographic_masked_iff
  rw [← hagrees]
  exact ⟨fun h => h.byKeys, sortsByKeys_of_agrees⟩

/-- Where every key can be seen, the one that decides can. -/
theorem seesDecidingKey_of_seen (h : ∀ order ∈ orderBy, keySeen choices slots order left right = true) :
    SeesDecidingKey choices slots orderBy left right := by
  rintro front key back rfl hfront -
  have hkey : key ∈ front ++ key :: back := List.mem_append_right front List.mem_cons_self
  exact ⟨front, key, back, rfl, fun other hother _ => hfront other hother, h key hkey, rfl⟩

end SortKeys

section Samples

open AsciiCase PlainText

/-- A table `t` with a column `a` of type BIGINT. -/
def oneColumn : List Expression.TableSlot := [{ name := "t", offset := 0, columns := [.new "a" .bigInt] }]

/-- `ORDER BY a DESC`. -/
def descending : List OrderByExpr := [{ expr := .column "a", direction := .desc }]

theorem sortsByKeys_descending :
    SortsByKeys .asGiven oneColumn descending [[.bigInt 3], [.bigInt 1], [.bigInt 2]] := by
  have hkeys : ∀ row ∈ [[Datum.bigInt 3], [.bigInt 1], [.bigInt 2]], NoFloatKeys .asGiven oneColumn descending row := by
    unfold NoFloatKeys
    decide
  apply (sortsByKeys_iff hkeys).mpr
  intro left hleft right hright
  apply seesDecidingKey_of_seen
  revert left right
  decide

/-- Two is greater than one, and both are equal to NULL; the list of the three stays as it is. -/
theorem not_sortsByKeys_null :
    let rows : List (List Datum) := [[.bigInt 2], [.null], [.bigInt 1]]
    let orderBy : List OrderByExpr := [{ expr := .column "a", direction := .asc }]
    compareRows .asGiven oneColumn [.bigInt 2] [.null] orderBy = .eq ∧
      compareRows .asGiven oneColumn [.null] [.bigInt 1] orderBy = .eq ∧
      compareRows .asGiven oneColumn [.bigInt 2] [.bigInt 1] orderBy = .gt ∧
      sortRows .asGiven oneColumn orderBy rows = rows ∧ ¬ SortsByKeys .asGiven oneColumn orderBy rows := by
  intro rows orderBy
  have hfirst : compareRows .asGiven oneColumn [.bigInt 2] [.null] orderBy = .eq := rfl
  have hsecond : compareRows .asGiven oneColumn [.null] [.bigInt 1] orderBy = .eq := rfl
  have hthird : compareRows .asGiven oneColumn [.bigInt 2] [.bigInt 1] orderBy = .gt := rfl
  refine ⟨hfirst, hsecond, hthird, rfl, fun h => ?_⟩
  have hle :=
    h.transitive [.bigInt 2] List.mem_cons_self [.null] (List.mem_cons_of_mem _ List.mem_cons_self) [.bigInt 1]
    (List.mem_cons_of_mem _ (List.mem_cons_of_mem _ List.mem_cons_self)) (by rw [hfirst]; nofun) (by rw [hsecond]; nofun)
  exact hle hthird

end Samples

end HelionDb
