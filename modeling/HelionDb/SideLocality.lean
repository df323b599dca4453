import HelionDb.DrawnIdentifiers
import HelionDb.Locality

/-! Predicates that name one table of a join tree. Where the names of the tables differ in more than case, such a
predicate comes to the same on a combined row as on the part of the side its table is on, a value or an error. The tree
of that side sees the same one table again, so that the predicate can go on down to the table itself. -/

namespace HelionDb

open Expression (TableSlot positionOf)

/-- Any two of the tables have names that differ in more than case. -/
def NamesDiffer (info : List (String × List ColumnMeta)) : Prop :=
  info.Pairwise fun entry other => eqIgnoreAsciiCase entry.1 other.1 = false

section Names

variable {left right info : List (String × List ColumnMeta)} {name : String}

theorem NamesDiffer.nodup (h : NamesDiffer info) : (info.map Prod.fst).Nodup := by
  rw [List.nodup_iff_pairwise_ne, List.pairwise_map]
  apply h.imp
  intro entry other hdiffer heq
  rw [heq, eqIgnoreAsciiCase_refl] at hdiffer
  cases hdiffer

theorem NamesDiffer.behind (h : NamesDiffer (left ++ right)) : NamesDiffer right := (List.pairwise_append.mp h).2.1

/-- No table on the left has the name of one on the right, ignoring case. -/
theorem NamesDiffer.clear (h : NamesDiffer (left ++ right)) (hname : name ∈ right.map Prod.fst) :
    ∀ entry ∈ left, eqIgnoreAsciiCase entry.1 name = false := by
  intro entry hentry
  obtain ⟨other, hother, rfl⟩ := List.mem_map.mp hname
  exact (List.pairwise_append.mp h).2.2 entry hentry other hother

theorem hidesNone_of_namesDiffer {expr : Expression} {names : List String} (h : NamesDiffer (left ++ right))
    (hreferenced : referencedTables (left ++ right) expr = .ok names)
    (hnames : ∀ name ∈ names, name ∈ right.map Prod.fst) : hidesNone left expr = true := by
  apply List.all_eq_true.mpr
  intro reference hreference
  have hwithin := within_of_referencedTables expr hreferenced reference hreference
  cases htable : reference.1 with
  | none => rfl
  | some table =>
      apply List.all_eq_true.mpr
      intro entry hentry
      rw [h.clear (hnames table (hwithin.qualified table htable)) entry hentry]
      rfl

end Names

/-! ### The tables that a part of a tree sees -/

/-- All tables of the whole that have these names are in the part, as often and in the same order. -/
def Covers (part info : List (String × List ColumnMeta)) (names : List String) : Prop :=
  ∀ test : String × List ColumnMeta → Bool, (∀ entry ∈ info, test entry = true → entry.1 ∈ names) →
    info.filter test = part.filter test

section Parts

variable {left right part info : List (String × List ColumnMeta)} {keep : List String}

theorem covers_part {before after : List (String × List ColumnMeta)}
    (h : ((before ++ (part ++ after)).map Prod.fst).Nodup) :
    Covers part (before ++ (part ++ after)) (part.map Prod.fst) := by
  intro test htest
  rw [List.map_append, List.map_append] at h
  obtain ⟨-, hbehind, hbefore⟩ := List.nodup_append.mp h
  obtain ⟨-, -, hafter⟩ := List.nodup_append.mp hbehind
  have hnoneBefore : before.filter test = [] := by
    rw [List.filter_eq_nil_iff]
    intro entry hentry hpasses
    have hmem := htest entry (List.mem_append_left _ hentry) hpasses
    exact hbefore _ (List.mem_map_of_mem hentry) _ (List.mem_append_left _ hmem) rfl
  have hnoneAfter : after.filter test = [] := by
    rw [List.filter_eq_nil_iff]
    intro entry hentry hpasses
    have hmem := htest entry (List.mem_append_right _ (List.mem_append_right _ hentry)) hpasses
    exact hafter _ hmem _ (List.mem_map_of_mem hentry) rfl
  rw [List.filter_append, List.filter_append, hnoneBefore, hnoneAfter, List.nil_append, List.append_nil]

theorem covers_left (h : ((left ++ right).map Prod.fst).Nodup) : Covers left (left ++ right) (left.map Prod.fst) :=
  @covers_part left [] right h

theorem covers_right (h : ((left ++ right).map Prod.fst).Nodup) :
    Covers right (left ++ right) (right.map Prod.fst) := by
  have hcovers := @covers_part right left []
  rw [List.append_nil] at hcovers
  exact hcovers h

mutual

/-- A part that has all tables a predicate names sees the same tables in it as the whole. -/
theorem referencedTables_of_covers (hcovers : Covers part info keep) (expr : Expression) {names : List String}
    (h : referencedTables info expr = .ok names) (hkeep : ∀ name ∈ names, name ∈ keep) :
    referencedTables part expr = .ok names := by
  cases expr with
  | column name =>
      rw [referencedTables] at h ⊢
      have hsame : (info.filter fun entry => (positionOf entry.2 name).isSome) =
          part.filter fun entry => (positionOf entry.2 name).isSome := by
        apply hcovers
        intro entry hentry hposition
        split at h
        · cases h
        · cases h
          exact hkeep _ (List.mem_map_of_mem (List.mem_filter.mpr ⟨hentry, hposition⟩))
      rw [← hsame]
      exact h
  | qualifiedColumn table name => exact h
  | literal value => exact h
  | binaryOp l op r =>
      rw [referencedTables] at h ⊢
      obtain ⟨leftNames, hl, h⟩ := Loop.bind_ok_iff.mp h
      obtain ⟨rightNames, hr, h⟩ := Loop.bind_ok_iff.mp h
      cases h
      have hleft := referencedTables_of_covers hcovers l hl fun name hname =>
        hkeep name (mem_sortDedup.mpr (List.mem_append_left _ hname))
      have hright := referencedTables_of_covers hcovers r hr fun name hname =>
        hkeep name (mem_sortDedup.mpr (List.mem_append_right _ hname))
      rw [hleft, hright]
      rfl
  | unaryOp op inner =>
      rw [referencedTables] at h ⊢
      exact referencedTables_of_covers hcovers inner h hkeep
  | isNull inner =>
      rw [referencedTables] at h ⊢
      exact referencedTables_of_covers hcovers inner h hkeep
  | isNotNull inner =>
      rw [referencedTables] at h ⊢
      exact referencedTables_of_covers hcovers inner h hkeep
  | inList inner list =>
      rw [referencedTables] at h ⊢
      exact referencedTables_of_covers hcovers inner h hkeep
  | like inner pattern =>
      rw [referencedTables] at h ⊢
      exact referencedTables_of_covers hcovers inner h hkeep
  | between inner low high =>
      rw [referencedTables] at h ⊢
      obtain ⟨innerNames, hinner, h⟩ := Loop.bind_ok_iff.mp h
      obtain ⟨lowNames, hlow, h⟩ := Loop.bind_ok_iff.mp h
      obtain ⟨highNames, hhigh, h⟩ := Loop.bind_ok_iff.mp h
      cases h
      have hinner := referencedTables_of_covers hcovers inner hinner fun name hname =>
        hkeep name (mem_sortDedup.mpr (List.mem_append_left _ (List.mem_append_left _ hname)))
      have hlow := referencedTables_of_covers hcovers low hlow fun name hname =>
        hkeep name (mem_sortDedup.mpr (List.mem_append_left _ (List.mem_append_right _ hname)))
      have hhigh := referencedTables_of_covers hcovers high hhigh fun name hname =>
        hkeep name (mem_sortDedup.mpr (List.mem_append_right _ hname))
      rw [hinner, hlow, hhigh]
      rfl
  | function name args =>
      rw [referencedTables] at h ⊢
      obtain ⟨found, hfound, h⟩ := Loop.bind_ok_iff.mp h
      cases h
      have hargs := referencedTablesAll_of_covers hcovers args hfound fun name hname =>
        hkeep name (mem_sortDedup.mpr hname)
      rw [hargs]
      rfl

theorem referencedTablesAll_of_covers (hcovers : Covers part info keep) (args : List Expression) {names : List String}
    (h : referencedTablesAll info args = .ok names) (hkeep : ∀ name ∈ names, name ∈ keep) :
    referencedTablesAll part args = .ok names := by
  cases args with
  | nil => exact h
  | cons arg rest =>
      rw [referencedTablesAll] at h ⊢
      obtain ⟨first, hfirst, h⟩ := Loop.bind_ok_iff.mp h
      obtain ⟨others, hothers, h⟩ := Loop.bind_ok_iff.mp h
      cases h
      have harg := referencedTables_of_covers hcovers arg hfirst fun name hname =>
        hkeep name (List.mem_append_left _ hname)
      have hrest := referencedTablesAll_of_covers hcovers rest hothers fun name hname =>
        hkeep name (List.mem_append_right _ hname)
      rw [harg, hrest]
      rfl

end

end Parts

section Sides

variable [CaseMapping] [Rendering] {expr : Expression} {leftRow rightRow : List Datum}

section Layout

variable {left right : List (String × List ColumnMeta)} {names : List String}

theorem evaluateJoin_onLeft (hdiffer : NamesDiffer (left ++ right)) (huuid : expr.callsUuidv7 = false)
    (hreferenced : referencedTables (left ++ right) expr = .ok names)
    (hnames : ∀ name ∈ names, name ∈ left.map Prod.fst) (hwidth : leftRow.length = combinedLen left)
    (draw other : BitVec 128) :
    expr.evaluateJoin draw (leftRow ++ rightRow) (slotsFrom 0 (left ++ right)) =
      expr.evaluateJoin other leftRow (slotsFrom 0 left) := by
  rw [evaluateJoin_left hwidth hdiffer.nodup hreferenced hnames]
  exact Expression.evaluateJoin_of_no_uuidv7 huuid leftRow _

theorem evaluateJoin_onRight (hdiffer : NamesDiffer (left ++ right)) (huuid : expr.callsUuidv7 = false)
    (hreferenced : referencedTables (left ++ right) expr = .ok names)
    (hnames : ∀ name ∈ names, name ∈ right.map Prod.fst) (hwidth : leftRow.length = combinedLen left)
    (draw other : BitVec 128) :
    expr.evaluateJoin draw (leftRow ++ rightRow) (slotsFrom 0 (left ++ right)) =
      expr.evaluateJoin other rightRow (slotsFrom 0 right) := by
  rw [evaluateJoin_right hwidth hdiffer.nodup hreferenced hnames (hidesNone_of_namesDiffer hdiffer hreferenced hnames)]
  exact Expression.evaluateJoin_of_no_uuidv7 huuid rightRow _

end Layout

end Sides

namespace QueryPlan

section Plans

variable {expr : Expression}

/-- The side of a join that has the one table a predicate names finds it to be the only one there too. -/
theorem referencedTables_of_one_table {left right : QueryPlan} {joinType : JoinType} {algorithm : JoinAlgorithm}
    {table : String} (hdiffer : NamesDiffer (join left right joinType algorithm).tableInfo)
    (hreferenced : referencedTables (join left right joinType algorithm).tableInfo expr = .ok [table]) :
    (table ∈ left.tableInfo.map Prod.fst → referencedTables left.tableInfo expr = .ok [table]) ∧
    (table ∈ right.tableInfo.map Prod.fst → referencedTables right.tableInfo expr = .ok [table]) := by
  constructor
  · intro hside
    exact referencedTables_of_covers (covers_left hdiffer.nodup) expr hreferenced (by simpa using hside)
  · intro hside
    exact referencedTables_of_covers (covers_right hdiffer.nodup) expr hreferenced (by simpa using hside)

variable [CaseMapping] [Rendering] {leftRow rightRow : List Datum}

/-- A predicate that names one table of a join tree comes to the same on the whole row and on the part of the side that
the table is on, with the tables of that side alone. -/
theorem evaluateJoin_of_one_table {left right : QueryPlan} {joinType : JoinType} {algorithm : JoinAlgorithm}
    {table : String} (hdiffer : NamesDiffer (join left right joinType algorithm).tableInfo)
    (huuid : expr.callsUuidv7 = false)
    (hreferenced : referencedTables (join left right joinType algorithm).tableInfo expr = .ok [table])
    (hwidth : leftRow.length = slotsWidth left.slots) (draw other : BitVec 128) :
    (table ∈ left.tableInfo.map Prod.fst →
      expr.evaluateJoin draw (leftRow ++ rightRow) (join left right joinType algorithm).slots =
        expr.evaluateJoin other leftRow left.slots) ∧
    (table ∈ right.tableInfo.map Prod.fst →
      expr.evaluateJoin draw (leftRow ++ rightRow) (join left right joinType algorithm).slots =
        expr.evaluateJoin other rightRow right.slots) := by
  rw [slots_eq, slots_eq left, slots_eq right]
  rw [slotsWidth_slots] at hwidth
  constructor
  · intro hside
    apply evaluateJoin_onLeft hdiffer huuid hreferenced _ hwidth
    simpa using hside
  · intro hside
    apply evaluateJoin_onRight hdiffer huuid hreferenced _ hwidth
    simpa using hside

end Plans

open scoped PlainText AsciiCase in
theorem evaluateJoin_of_one_table_pair :
    (Expression.binaryOp (.column "b") .eq (.literal (.integer 7))).evaluateJoin 1 [.integer 3, .integer 7]
        (join (.tableScan "t" [.new "a" .integer] none none none) (.tableScan "u" [.new "b" .integer] none none none)
          .left (.nestedLoop none)).slots =
      (Expression.binaryOp (.column "b") .eq (.literal (.integer 7))).evaluateJoin 2 [.integer 7]
        (tableScan "u" [.new "b" .integer] none none none).slots :=
  (@evaluateJoin_of_one_table (.binaryOp (.column "b") .eq (.literal (.integer 7))) _ _ [.integer 3] [.integer 7]
    (.tableScan "t" [.new "a" .integer] none none none) (.tableScan "u" [.new "b" .integer] none none none) .left
    (.nestedLoop none) "u" (List.pairwise_pair.mpr (by decide)) rfl (by decide +kernel) rfl 1 2).2
    (List.mem_singleton_self _)

/-- Down the whole tree: the predicate comes to what it comes to on the row of its table alone. -/
theorem evaluateJoin_own_table [CaseMapping] [Rendering] {expr : Expression} {plan : QueryPlan}
    {before after : List (String × List ColumnMeta)} {table : String} {columns : List ColumnMeta}
    (hinfo : plan.tableInfo = before ++ (table, columns) :: after)
    (hdiffer : NamesDiffer plan.tableInfo) (huuid : expr.callsUuidv7 = false)
    (hreferenced : referencedTables plan.tableInfo expr = .ok [table]) {front own back : List Datum}
    (hfront : front.length = combinedLen before) (hown : own.length = columns.length) (draw other : BitVec 128) :
    expr.evaluateJoin draw (front ++ (own ++ back)) plan.slots =
      expr.evaluateJoin other own [{ name := table, offset := 0, columns }] := by
  rw [slots_eq, hinfo]
  rw [hinfo] at hdiffer hreferenced
  have hmem : ∀ name ∈ [table], name ∈ ((table, columns) :: after).map Prod.fst := by simp
  have hbehind : referencedTables ([(table, columns)] ++ after) expr = .ok [table] :=
    referencedTables_of_covers (covers_right hdiffer.nodup) expr hreferenced hmem
  calc expr.evaluateJoin draw (front ++ (own ++ back)) (slotsFrom 0 (before ++ (table, columns) :: after))
      = expr.evaluateJoin draw (own ++ back) (slotsFrom 0 ([(table, columns)] ++ after)) :=
        evaluateJoin_onRight hdiffer huuid hreferenced hmem hfront draw draw
    _ = expr.evaluateJoin other own (slotsFrom 0 [(table, columns)]) :=
        evaluateJoin_onLeft (NamesDiffer.behind hdiffer) huuid hbehind (by simp) (by simpa [combinedLen] using hown)
          draw other

end QueryPlan

end HelionDb
