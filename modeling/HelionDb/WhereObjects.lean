import HelionDb.WhereFields

/-! Whole where objects. On a row for which a where object is faithful, its filter passes exactly when the object names
columns of the row and holds for it. -/

namespace HelionDb

namespace Json

/-- An entry for the conditions of a field. -/
def IsField (key : String) (value : Json) : Prop :=
  key ≠ "NOT" ∧ ∀ items, value = .array items → key ≠ "AND" ∧ key ≠ "OR"

section Entries

variable {row : StoredRow} {key : String} {value : Json}

theorem holds_field [Rendering] [NumberText] (h : IsField key value) :
    holds row (.object [(key, value)]) = fieldHolds (row key) value := by
  cases value with
  | array items =>
      obtain ⟨hand, hor⟩ := h.2 items rfl
      simp only [holds, entriesHold, if_neg hand, if_neg hor, Bool.and_true]
  | _ => simp only [holds, entriesHold, if_neg h.1, Bool.and_true]

theorem conditionFields_field (h : IsField key value) :
    conditionFields (.object [(key, value)]) = if value matches .object [] then [] else [key] := by
  cases value with
  | array items =>
      obtain ⟨hand, hor⟩ := h.2 items rfl
      simp only [conditionFields, entryFields, if_neg (not_or.mpr ⟨hand, hor⟩), List.append_nil]
      rfl
  | object ops =>
      simp only [conditionFields, entryFields, if_neg h.1, List.append_nil]
      cases ops <;> rfl
  | _ =>
      simp only [conditionFields, entryFields, if_neg h.1, List.append_nil]
      rfl

theorem comparesNull_field (h : IsField key value) :
    comparesNull row (.object [(key, value)]) = (row key).any fun stored => fieldComparesNull stored value := by
  cases value with
  | array items =>
      obtain ⟨hand, hor⟩ := h.2 items rfl
      simp only [comparesNull, entriesCompareNull, if_neg (not_or.mpr ⟨hand, hor⟩), Bool.or_false]
  | _ => simp only [comparesNull, entriesCompareNull, if_neg h.1, Bool.or_false]

theorem faithful_field [Rendering] [NumberText] (h : IsField key value) :
    faithful row (.object [(key, value)]) = (row key).all fun stored => fieldFaithful stored value := by
  cases value with
  | array items =>
      obtain ⟨hand, hor⟩ := h.2 items rfl
      simp [faithful, entriesFaithful, hand, hor]
  | _ => simp [faithful, entriesFaithful, h.1]

theorem parseWhereOpt_field [NumberText] (h : IsField key value) :
    parseWhereOpt (.object [(key, value)]) = parseFieldCondition key value := by
  cases value with
  | array items =>
      obtain ⟨hand, hor⟩ := h.2 items rfl
      simp only [parseWhereOpt, conditionsUnder, conditionUnder, if_neg hand, if_neg hor, if_neg h.1]
  | _ =>
      simp only [parseWhereOpt, conditionsUnder, conditionUnder, if_neg h.1, ite_self]

end Entries

/-! ### Lists of conditions -/

section Items

variable [Rendering] [NumberText] {row : StoredRow}

/-- A condition that says something, so that it has a filter. -/
def hasFields (condition : Json) : Bool := !condition.conditionFields.isEmpty

/-- The verdict of a where object on a row. -/
def whereVerdict (row : StoredRow) (condition : Json) : Verdict where
  known := namesColumns row condition
  unknown := comparesNull row condition
  holds := holds row condition

/-- What says nothing holds of every row. -/
structure Vacuous (row : StoredRow) (condition : Json) : Prop where
  fields : condition.conditionFields = []
  holds : condition.holds row = true
  comparesNull : condition.comparesNull row = false

/-- The conditions of an AND, those without a filter left out. -/
theorem allOf_whereVerdict {items : List Json} (hvacuous : ∀ item ∈ items, hasFields item = false → Vacuous row item) :
    Verdict.allOf ((items.filter hasFields).map (whereVerdict row)) =
      ⟨(itemFields items).all fun field => (row field).isSome, anyComparesNull row items, allHold row items⟩ := by
  induction items with
  | nil => rfl
  | cons item items ih =>
      obtain ⟨hfirst, hrest⟩ := List.forall_mem_cons.mp hvacuous
      have ih := ih hrest
      simp only [Verdict.allOf, Verdict.mk.injEq] at ih ⊢
      rw [itemFields, anyComparesNull, allHold, List.all_append, List.filter_cons]
      cases hsome : hasFields item with
      | true =>
          rw [if_pos rfl, List.map_cons, List.all_cons, List.any_cons, List.all_cons, ih.1, ih.2.1, ih.2.2]
          exact ⟨rfl, rfl, rfl⟩
      | false =>
          have hitem := hfirst hsome
          rw [if_neg Bool.false_ne_true, hitem.fields, hitem.holds, hitem.comparesNull, Bool.false_or, Bool.true_and,
            List.all_nil, Bool.true_and]
          exact ih

/-- The conditions of an OR that all say something. -/
theorem anyOf_whereVerdict (items : List Json) :
    Verdict.anyOf (items.map (whereVerdict row)) =
      ⟨(itemFields items).all fun field => (row field).isSome, anyComparesNull row items, anyHolds row items⟩ := by
  induction items with
  | nil => rfl
  | cons item items ih =>
      simp only [Verdict.anyOf, Verdict.mk.injEq, List.map_cons] at ih ⊢
      rw [itemFields, anyComparesNull, anyHolds, List.all_append, List.all_cons, List.any_cons, List.any_cons, ih.1,
        ih.2.1, ih.2.2]
      exact ⟨rfl, rfl, rfl⟩

omit [Rendering] [NumberText] in
theorem filter_hasFields_eq_nil_iff {items : List Json} : items.filter hasFields = [] ↔ itemFields items = [] := by
  induction items with
  | nil => exact iff_of_true rfl rfl
  | cons item items ih =>
      rw [itemFields, List.append_eq_nil_iff, ← ih, List.filter_cons]
      cases hitem : item.conditionFields with
      | nil => simp [hasFields, hitem]
      | cons field fields => simp [hasFields, hitem]

theorem vacuous_all {items : List Json} (hvacuous : ∀ item ∈ items, hasFields item = false → Vacuous row item)
    (hnone : items.filter hasFields = []) :
    allHold row items = true ∧ anyComparesNull row items = false := by
  have hall := allOf_whereVerdict hvacuous
  rw [hnone] at hall
  exact ⟨(congrArg Verdict.holds hall).symm, (congrArg Verdict.unknown hall).symm⟩

end Items

section Filter

variable [CaseMapping] [Rendering] [NumberText] {uuidv7 : BitVec 128}
  {lookup : Option String → String → Except HelionError Datum}

/-- The filter of a condition, or that it has none, says what the condition says. -/
def Reads (uuidv7 : BitVec 128) (lookup : Option String → String → Except HelionError Datum) (condition : Json) :
    Option Expression → Prop
  | none => Vacuous (rowOf lookup) condition
  | some filter =>
      condition.conditionFields ≠ [] ∧
        (whereVerdict (rowOf lookup) condition).Of (filter.evaluateWith uuidv7 lookup)

/-- The filters of a list of conditions, from what each of them says. -/
theorem parseConditions_reads {items : List Json} {filters : List Expression}
    (hreads : ∀ item ∈ items, ∀ filter, parseWhereOpt item = .ok filter → faithful (rowOf lookup) item = true →
      Reads uuidv7 lookup item filter)
    (hfilters : parseConditions items = .ok filters) (hfaithful : allFaithful (rowOf lookup) items = true) :
    Verdicts uuidv7 lookup ((items.filter hasFields).map (whereVerdict (rowOf lookup))) filters ∧
      ∀ item ∈ items, hasFields item = false → Vacuous (rowOf lookup) item := by
  induction items generalizing filters with
  | nil =>
      rw [parseConditions] at hfilters
      cases hfilters
      exact ⟨.nil, nofun⟩
  | cons item items ih =>
      obtain ⟨hitem, hitems⟩ := List.forall_mem_cons.mp hreads
      rw [allFaithful, Bool.and_eq_true] at hfaithful
      rw [parseConditions] at hfilters
      obtain ⟨filter, hfilter, hfilters⟩ := Loop.bind_ok_iff.mp hfilters
      obtain ⟨rest, hrest, hfilters⟩ := Loop.bind_ok_iff.mp hfilters
      obtain rfl : filter.toList ++ rest = filters := Except.ok.inj hfilters
      have hread := hitem filter hfilter hfaithful.1
      obtain ⟨hverdicts, hvacuous⟩ := ih hitems hrest hfaithful.2
      cases filter with
      | none =>
          have hread : Vacuous (rowOf lookup) item := hread
          have hsome : hasFields item = false := by rw [hasFields, hread.fields]; rfl
          rw [List.filter_cons_of_neg (by rw [hsome]; exact Bool.false_ne_true)]
          exact ⟨hverdicts, List.forall_mem_cons.mpr ⟨fun _ => hread, hvacuous⟩⟩
      | some filter =>
          obtain ⟨hfields, hverdict⟩ := hread
          have hsome : hasFields item = true := by
            rw [hasFields, Bool.not_eq_true', List.isEmpty_eq_false_iff]
            exact hfields
          rw [List.filter_cons_of_pos hsome]
          refine ⟨.cons hverdict hverdicts, List.forall_mem_cons.mpr ⟨fun h => ?_, hvacuous⟩⟩
          rw [hsome] at h
          cases h

/-! ### Objects of one entry for conditions -/

section Logical

variable {key : String} {items : List Json} {value : Json} {filter : Option Expression}

theorem reads_and (hreads : ∀ item ∈ items, ∀ filter, parseWhereOpt item = .ok filter →
      faithful (rowOf lookup) item = true → Reads uuidv7 lookup item filter)
    (hfilter : parseWhereOpt (.object [("AND", .array items)]) = .ok filter)
    (hfaithful : faithful (rowOf lookup) (.object [("AND", .array items)]) = true) :
    Reads uuidv7 lookup (.object [("AND", .array items)]) filter := by
  have hitems : allFaithful (rowOf lookup) items = true := by
    simpa [faithful, entriesFaithful] using hfaithful
  have hfields : conditionFields (.object [("AND", .array items)]) = itemFields items := by
    simp [conditionFields, entryFields]
  have hholds : holds (rowOf lookup) (.object [("AND", .array items)]) = allHold (rowOf lookup) items := by
    simp [holds, entriesHold]
  have hnull :
      comparesNull (rowOf lookup) (.object [("AND", .array items)]) = anyComparesNull (rowOf lookup) items := by
    simp [comparesNull, entriesCompareNull]
  have hparse :
      parseWhereOpt (.object [("AND", .array items)]) = (parseConditions items).map Expression.combineAnd := by
    simp [parseWhereOpt, conditionsUnder]
  rw [hparse] at hfilter
  cases hfilters : parseConditions items with
  | error err =>
      rw [hfilters] at hfilter
      cases hfilter
  | ok filters =>
      rw [hfilters] at hfilter
      obtain rfl : Expression.combineAnd filters = filter := Except.ok.inj hfilter
      obtain ⟨hverdicts, hvacuous⟩ := parseConditions_reads hreads hfilters hitems
      cases filters with
      | nil =>
          have hnone : items.filter hasFields = [] :=
            List.map_eq_nil_iff.mp (List.forall₂_nil_right_iff.mp hverdicts)
          obtain ⟨hall, hany⟩ := vacuous_all hvacuous hnone
          exact ⟨hfields.trans (filter_hasFields_eq_nil_iff.mp hnone), hholds.trans hall, hnull.trans hany⟩
      | cons first rest =>
          refine ⟨fun h => ?_, ?_⟩
          · rw [filter_hasFields_eq_nil_iff.mpr (hfields.symm.trans h)] at hverdicts
            cases hverdicts
          · have hverdict := combineAnd_verdict hverdicts rfl
            rw [allOf_whereVerdict hvacuous] at hverdict
            rw [whereVerdict, namesColumns, hfields, hholds, hnull]
            exact hverdict

theorem reads_or (hreads : ∀ item ∈ items, ∀ filter, parseWhereOpt item = .ok filter →
      faithful (rowOf lookup) item = true → Reads uuidv7 lookup item filter)
    (hfilter : parseWhereOpt (.object [("OR", .array items)]) = .ok filter)
    (hfaithful : faithful (rowOf lookup) (.object [("OR", .array items)]) = true) :
    Reads uuidv7 lookup (.object [("OR", .array items)]) filter := by
  have hitems : items ≠ [] ∧ (∀ item ∈ items, hasFields item = true) ∧ allFaithful (rowOf lookup) items = true ∧
      (anyComparesNull (rowOf lookup) items = false ∨ anyHolds (rowOf lookup) items = false) := by
    simpa [faithful, entriesFaithful, hasFields, and_assoc] using hfaithful
  obtain ⟨hne, hall, hitems, hunheld⟩ := hitems
  have hfields : conditionFields (.object [("OR", .array items)]) = itemFields items := by
    simp [conditionFields, entryFields]
  have hholds : holds (rowOf lookup) (.object [("OR", .array items)]) = anyHolds (rowOf lookup) items := by
    simp [holds, entriesHold]
  have hnull : comparesNull (rowOf lookup) (.object [("OR", .array items)]) = anyComparesNull (rowOf lookup) items := by
    simp [comparesNull, entriesCompareNull]
  have hparse : parseWhereOpt (.object [("OR", .array items)]) = (parseConditions items).map Expression.combineOr := by
    simp [parseWhereOpt, conditionsUnder]
  rw [hparse] at hfilter
  cases hfilters : parseConditions items with
  | error err =>
      rw [hfilters] at hfilter
      cases hfilter
  | ok filters =>
      rw [hfilters] at hfilter
      obtain rfl : Expression.combineOr filters = filter := Except.ok.inj hfilter
      obtain ⟨hverdicts, -⟩ := parseConditions_reads hreads hfilters hitems
      rw [List.filter_eq_self.mpr hall] at hverdicts
      cases filters with
      | nil => exact absurd (List.map_eq_nil_iff.mp (List.forall₂_nil_right_iff.mp hverdicts)) hne
      | cons first rest =>
          refine ⟨fun h => ?_, ?_⟩
          · have hnone := filter_hasFields_eq_nil_iff.mpr (hfields.symm.trans h)
            rw [List.filter_eq_self.mpr hall] at hnone
            exact hne hnone
          · have hshown : (Verdict.anyOf (items.map (whereVerdict (rowOf lookup)))).unknown = true →
                (Verdict.anyOf (items.map (whereVerdict (rowOf lookup)))).holds = false := by
              rw [anyOf_whereVerdict]
              exact fun hunknown => hunheld.resolve_left ((Bool.not_eq_false _).mpr hunknown)
            have hverdict := combineOr_verdict hverdicts rfl hshown
            rw [anyOf_whereVerdict] at hverdict
            rw [whereVerdict, namesColumns, hfields, hholds, hnull]
            exact hverdict

theorem reads_not (hreads : ∀ filter, parseWhereOpt value = .ok filter → faithful (rowOf lookup) value = true →
      Reads uuidv7 lookup value filter)
    (hfilter : parseWhereOpt (.object [("NOT", value)]) = .ok filter)
    (hfaithful : faithful (rowOf lookup) (.object [("NOT", value)]) = true) :
    Reads uuidv7 lookup (.object [("NOT", value)]) filter := by
  have hparse : parseWhereOpt (.object [("NOT", value)]) =
      (parseWhereOpt value).map fun filter => filter.map (Expression.unaryOp .not) := by
    simp [parseWhereOpt, conditionsUnder, conditionUnder]
  rw [hparse] at hfilter
  cases hinner : parseWhereOpt value with
  | error err =>
      rw [hinner] at hfilter
      cases hfilter
  | ok inner =>
      rw [hinner] at hfilter
      obtain rfl := Except.ok.inj hfilter
      have harray : ∀ items, value ≠ .array items := by
        rintro items rfl
        simp [parseWhereOpt] at hinner
      have hvalue : value.conditionFields ≠ [] ∧ faithful (rowOf lookup) value = true := by
        cases value with
        | array items => exact absurd rfl (harray items)
        | _ => simpa [faithful, entriesFaithful, List.isEmpty_eq_false_iff] using hfaithful
      have hfields : conditionFields (.object [("NOT", value)]) = value.conditionFields := by
        cases value with
        | array items => exact absurd rfl (harray items)
        | _ => simp [conditionFields, entryFields]
      have hholds : holds (rowOf lookup) (.object [("NOT", value)]) = !holds (rowOf lookup) value := by
        cases value with
        | array items => exact absurd rfl (harray items)
        | _ => simp [holds, entriesHold]
      have hnull : comparesNull (rowOf lookup) (.object [("NOT", value)]) = false := by
        cases value with
        | array items => exact absurd rfl (harray items)
        | _ => simp [comparesNull, entriesCompareNull]
      have hread := hreads inner hinner hvalue.2
      cases inner with
      | none => exact absurd hread.fields hvalue.1
      | some expr =>
          refine ⟨fun h => hvalue.1 (hfields.symm.trans h), ?_⟩
          rw [whereVerdict, namesColumns, hfields, hholds, hnull, Expression.evaluateWith]
          exact hread.2.not

theorem reads_field (hfield : IsField key value) (hfilter : parseWhereOpt (.object [(key, value)]) = .ok filter)
    (hfaithful : faithful (rowOf lookup) (.object [(key, value)]) = true) :
    Reads uuidv7 lookup (.object [(key, value)]) filter := by
  rw [parseWhereOpt_field hfield] at hfilter
  rw [faithful_field hfield] at hfaithful
  obtain ⟨rfl, rfl⟩ | ⟨expr, rfl, hne, hverdict⟩ :=
    @field_verdict _ _ uuidv7 lookup key _ value filter hfilter hfaithful
  · refine ⟨conditionFields_field hfield, holds_field hfield, ?_⟩
    rw [comparesNull_field hfield]
    cases rowOf lookup key <;> rfl
  · have hfields : conditionFields (.object [(key, value)]) = [key] := by
      rw [conditionFields_field hfield]
      cases value with
      | object ops =>
          cases ops with
          | nil => exact absurd rfl hne
          | cons entry ops => rfl
      | _ => rfl
    refine ⟨?_, ?_⟩
    · rw [hfields]
      nofun
    · rw [whereVerdict, namesColumns, hfields, holds_field hfield, comparesNull_field hfield, List.all_cons, List.all_nil,
        Bool.and_true]
      exact hverdict

end Logical

/-- What a where object says of the row, its filter says too. The recursion follows the nesting of the objects. -/
theorem parseWhereOpt_reads (condition : Json) (filter : Option Expression)
    (hfilter : parseWhereOpt condition = .ok filter) (hfaithful : faithful (rowOf lookup) condition = true) :
    Reads uuidv7 lookup condition filter := by
  match condition with
  | .null =>
      rw [parseWhereOpt] at hfilter
      cases hfilter
      exact ⟨rfl, rfl, rfl⟩
  | .object [] =>
      have hparse : parseWhereOpt (.object []) = .ok none := by
        simp [parseWhereOpt, conditionsUnder, conditionUnder]
      rw [hparse] at hfilter
      cases hfilter
      exact ⟨rfl, rfl, rfl⟩
  | .object [(key, .array items)] =>
      by_cases hand : key = "AND"
      · subst hand
        exact reads_and (fun item hitem filter => parseWhereOpt_reads item filter) hfilter hfaithful
      · by_cases hor : key = "OR"
        · subst hor
          exact reads_or (fun item hitem filter => parseWhereOpt_reads item filter) hfilter hfaithful
        · by_cases hnot : key = "NOT"
          · subst hnot
            exact reads_not (parseWhereOpt_reads (.array items)) hfilter hfaithful
          · exact reads_field ⟨hnot, fun _ _ => ⟨hand, hor⟩⟩ hfilter hfaithful
  | .object [(key, .null)] | .object [(key, .bool _)] | .object [(key, .number _)] | .object [(key, .string _)]
  | .object [(key, .object _)] =>
      by_cases hnot : key = "NOT"
      · subst hnot
        exact reads_not (parseWhereOpt_reads _) hfilter hfaithful
      · exact reads_field ⟨hnot, nofun⟩ hfilter hfaithful
  | .object (_ :: _ :: _) => cases hfaithful
  | .bool _ | .number _ | .string _ | .array _ => simp [parseWhereOpt] at hfilter
termination_by sizeOf condition

end Filter

end Json

/-- A row passes a filter, and any row where there is none. -/
def filterPasses [CaseMapping] [Rendering] (uuidv7 : BitVec 128) (filter : Option Expression) (values : List Datum)
    (columns : List ColumnMeta) : Bool :=
  match filter with
  | some filter => Expression.passes (filter.evaluate uuidv7 values columns)
  | none => true

/-- The values of a row, by the names of its columns. -/
def storedRow (columns : List ColumnMeta) (values : List Datum) : StoredRow :=
  fun field => (Expression.positionOf columns field).map fun idx => values[idx]?.getD .null

theorem rowOf_lookupColumn (columns : List ColumnMeta) (values : List Datum) :
    Json.rowOf (Expression.lookupColumn values columns) = storedRow columns values := by
  funext field
  rw [Json.rowOf, Expression.lookupColumn, storedRow]
  cases Expression.positionOf columns field <;> rfl

/-- A row passes the filter of a where object that is faithful for it exactly when every condition written in the object
holds for the row. -/
theorem where_filter_passes_iff [CaseMapping] [Rendering] [NumberText] (uuidv7 : BitVec 128) (columns : List ColumnMeta)
    (values : List Datum) (condition : Json) (filter : Option Expression)
    (hfilter : condition.parseWhereOpt = .ok filter)
    (hfaithful : condition.faithful (storedRow columns values) = true) :
    filterPasses uuidv7 filter values columns = true ↔
      condition.namesColumns (storedRow columns values) = true ∧ condition.holds (storedRow columns values) = true := by
  rw [← rowOf_lookupColumn] at hfaithful ⊢
  have hreads := @Json.parseWhereOpt_reads _ _ _ uuidv7 _ condition filter hfilter hfaithful
  cases filter with
  | none =>
      refine iff_of_true rfl ⟨?_, hreads.holds⟩
      rw [Json.namesColumns, hreads.fields]
      rfl
  | some filter => exact hreads.2.passes_iff

namespace People

open scoped AsciiCase PlainText

def columns : List ColumnMeta := [.new "age" .bigInt, .new "name" .text]

def aged (age : UInt64) : Json := .object [("age", .number (.posInt age))]

/-- An age of five or none, under a name that is not Ann. -/
def young : Json :=
  .object [("AND", .array [.object [("OR", .array [aged 5, .object [("age", .null)]])],
    .object [("NOT", .object [("name", .object [("startsWith", .string "Ann")])])]])]

theorem where_filter_passes_young :
    filterPasses 0 ((young.parseWhereOpt).toOption.getD none) [.bigInt 5, .text "Bea"] columns = true := by
  have hparse : young.parseWhereOpt = .ok ((young.parseWhereOpt).toOption.getD none) := rfl
  exact (where_filter_passes_iff 0 columns [.bigInt 5, .text "Bea"] young _ hparse (by decide)).mpr (by decide)

/-- A second key is ignored; an OR of nothing takes every row; a number above the greatest `i64` is a zero; an OR with a
NULL on one side does not hold. -/
theorem not_where_filter_passes :
    (∃ filter, Json.parseWhereOpt (.object [("age", .number (.posInt 5)), ("name", .string "Ann")]) = .ok filter ∧
        filterPasses 0 filter [.bigInt 5, .text "Bea"] columns = true ∧
        Json.holds (storedRow columns [.bigInt 5, .text "Bea"])
          (.object [("age", .number (.posInt 5)), ("name", .string "Ann")]) = false) ∧
      (∃ filter, Json.parseWhereOpt (.object [("OR", .array [])]) = .ok filter ∧
        filterPasses 0 filter [.bigInt 5, .text "Bea"] columns = true ∧
        Json.holds (storedRow columns [.bigInt 5, .text "Bea"]) (.object [("OR", .array [])]) = false) ∧
      (∃ filter, (aged 9223372036854775808).parseWhereOpt = .ok filter ∧
        filterPasses 0 filter [.bigInt 0, .null] columns = true ∧
        (aged 9223372036854775808).holds (storedRow columns [.bigInt 0, .null]) = false) ∧
      ∃ filter, Json.parseWhereOpt (.object [("OR", .array [aged 5, .object [("name", .string "Ann")]])]) = .ok filter ∧
        filterPasses 0 filter [.bigInt 5, .null] columns = false ∧
        Json.holds (storedRow columns [.bigInt 5, .null])
          (.object [("OR", .array [aged 5, .object [("name", .string "Ann")]])]) = true := by
  refine ⟨⟨_, rfl, ?_, ?_⟩, ⟨_, rfl, ?_, ?_⟩, ⟨_, rfl, ?_, ?_⟩, ⟨_, rfl, ?_, ?_⟩⟩
  all_goals decide

end People

end HelionDb
