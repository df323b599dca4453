import HelionDb.UserPasswords

/-! The text of a CREATE INDEX and what the own parser reads from it. UNIQUE and IF NOT EXISTS are looked for in the whole
text, the name stands behind INDEX, and the table behind the last ON. -/

namespace HelionDb

open scoped AlongText

/-- `CREATE INDEX` or `CREATE UNIQUE INDEX`. -/
def createIndexKeyword (unique : Bool) : List Char :=
  if unique then "CREATE UNIQUE INDEX".toList else "CREATE INDEX".toList

/-- The keywords of a statement as they are typed: `guard` are IF and NOT EXISTS, where they are given. -/
structure IndexKeywords where
  create : List Char
  guard : Option (List Char × List Char)
  on : List Char

/-- The keywords are typed in some case. -/
structure IndexKeywords.Typed (keywords : IndexKeywords) (unique : Bool) : Prop where
  create : TypedAs (createIndexKeyword unique) keywords.create
  guard : ∀ typed ∈ keywords.guard, TypedAs "IF".toList typed.1 ∧ TypedAs "NOT EXISTS".toList typed.2
  on : TypedAs "ON".toList keywords.on

/-- `IF NOT EXISTS ` as typed, or nothing. -/
def IndexKeywords.guardText (keywords : IndexKeywords) : List Char :=
  match keywords.guard with
  | some (ifWord, notExists) => ifWord ++ ' ' :: (notExists ++ [' '])
  | none => []

/-- Names with commas between them. -/
def columnList (columns : List (List Char)) : List Char := List.intercalate [',', ' '] columns

/-- What stands behind ON: the table and the columns in parentheses. -/
def indexTarget (table : List Char) (columns : List (List Char)) : List Char :=
  table ++ ' ' :: '(' :: (columnList columns ++ [')'])

/-- The text of a CREATE INDEX. -/
def indexText (keywords : IndexKeywords) (name table : List Char) (columns : List (List Char)) : List Char :=
  keywords.create ++ ' ' :: (keywords.guardText ++ (name ++ ' ' :: (keywords.on ++ ' ' :: indexTarget table columns)))

section

variable {columns : List (List Char)}

theorem columnList_singleton (column : List Char) : columnList [column] = column := List.intercalate_singleton

theorem columnList_cons_cons (first next : List Char) (rest : List (List Char)) :
    columnList (first :: next :: rest) = first ++ ',' :: ' ' :: columnList (next :: rest) := by
  rw [columnList, List.intercalate_cons_cons, List.append_assoc]
  rfl

/-- The spaces between names are taken for parts of them. -/
theorem columnList_eq (first : List Char) (rest : List (List Char)) :
    columnList (first :: rest) = List.intercalate [','] (first :: rest.map (' ' :: ·)) := by
  induction rest generalizing first with
  | nil => rfl
  | cons next rest ih =>
      have ih := ih next
      rw [columnList] at ih ⊢
      rw [List.map_cons, List.intercalate_cons_cons, List.intercalate_cons_cons, ih, List.append_assoc, List.append_assoc]
      cases rest with
      | nil => rfl
      | cons other rest => rw [List.map_cons, List.intercalate_cons_cons, List.intercalate_cons_cons]; rfl

/-- A list of identifiers is read back. -/
theorem splitNames_columnList (hcolumns : ∀ column ∈ columns, IsIdentifier column) (hne : columns ≠ []) :
    splitNames (columnList columns) = columns.map String.ofList := by
  cases columns with
  | nil => exact absurd rfl hne
  | cons first rest =>
      obtain ⟨hfirst, hrest⟩ := List.forall_mem_cons.mp hcolumns
      have hcomma : ∀ part ∈ first :: rest.map (' ' :: ·), ',' ∉ part := by
        refine List.forall_mem_cons.mpr ⟨hfirst.notMem (by decide), List.forall_mem_map.mpr fun column hcolumn => ?_⟩
        exact List.not_mem_cons_of_ne_of_not_mem (by decide) ((hrest column hcolumn).notMem (by decide))
      have htrim : (first :: rest.map (' ' :: ·)).map trim = first :: rest := by
        rw [List.map_cons, trim_identifier hfirst, List.map_map]
        congr 1
        refine (List.map_congr_left fun column hcolumn => ?_).trans (List.map_id rest)
        rw [Function.comp_apply, trim_cons rfl, trim_identifier (hrest column hcolumn), id]
      have hfilter : (first :: rest).filter (fun name => !name.isEmpty) = first :: rest := by
        refine List.filter_eq_self.mpr fun column hcolumn => ?_
        rw [List.isEmpty_eq_false_iff.mpr (hcolumns column hcolumn).1]
        rfl
      rw [splitNames, columnList_eq, List.splitOn_intercalate ',' hcomma (List.cons_ne_nil _ _), htrim, hfilter]

theorem head?_columnList (hcolumns : ∀ column ∈ columns, IsIdentifier column) (hne : columns ≠ []) :
    ∀ c ∈ (columnList columns).head?, isWhitespace c = false := by
  cases columns with
  | nil => exact absurd rfl hne
  | cons first rest =>
      have hfirst := hcolumns first List.mem_cons_self
      cases rest with
      | nil =>
          have hhead := hfirst.head? []
          rwa [List.append_nil, ← columnList_singleton first] at hhead
      | cons next rest =>
          rw [columnList_cons_cons]
          exact hfirst.head? _

theorem getLast?_columnList (hcolumns : ∀ column ∈ columns, IsIdentifier column) (hne : columns ≠ []) :
    ∃ c, (columnList columns).getLast? = some c ∧ isIdentChar c = true := by
  induction columns with
  | nil => exact absurd rfl hne
  | cons first rest ih =>
      obtain ⟨hfirst, hrest⟩ := List.forall_mem_cons.mp hcolumns
      cases rest with
      | nil =>
          rw [columnList_singleton]
          exact ⟨_, List.getLast?_eq_some_getLast hfirst.1, hfirst.2 _ (List.getLast_mem hfirst.1)⟩
      | cons next rest =>
          obtain ⟨c, hlast, hident⟩ := ih hrest (List.cons_ne_nil _ _)
          refine ⟨c, ?_, hident⟩
          rw [columnList_cons_cons, List.getLast?_append, List.getLast?_cons, List.getLast?_cons, hlast]
          rfl

theorem trim_columnList (hcolumns : ∀ column ∈ columns, IsIdentifier column) (hne : columns ≠ []) :
    trim (columnList columns) = columnList columns := by
  refine trim_eq_self (head?_columnList hcolumns hne) fun c hc => ?_
  obtain ⟨last, hlast, hident⟩ := getLast?_columnList hcolumns hne
  rw [hlast] at hc
  rw [← Option.some.inj hc]
  exact isWhitespace_of_isIdentChar hident

end

/-! ### Flags -/

section

variable {columns : List (List Char)} {name table : List Char}

/-- Before a space between names stands a comma. -/
theorem not_infix_columnList {a : Char} (ha : a ≠ ',') (hspace : a ≠ ' ')
    (hcolumns : ∀ column ∈ columns, IsIdentifier column) : ¬ [a, ' '] <:+: columnList columns ++ [')'] := by
  induction columns with
  | nil =>
      intro h
      exact absurd (h.subset (List.mem_cons_of_mem _ List.mem_cons_self)) (by decide)
  | cons first rest ih =>
      obtain ⟨hfirst, hrest⟩ := List.forall_mem_cons.mp hcolumns
      have hno : ' ' ∉ first := hfirst.notMem (by decide)
      intro h
      cases rest with
      | nil =>
          rw [columnList_singleton] at h
          rcases List.mem_append.mp (h.subset (List.mem_cons_of_mem _ List.mem_cons_self)) with hmem | hmem
          · exact hno hmem
          · exact absurd hmem (by decide)
      | cons next rest =>
          rw [columnList_cons_cons, List.append_assoc, List.cons_append, List.cons_append, List.append_cons first ','] at h
          have hbefore : ' ' ∉ first ++ [','] := fun hmem => by
            rcases List.mem_append.mp hmem with hmem | hmem
            · exact hno hmem
            · exact absurd hmem (by decide)
          rcases last_or_infix hspace hbefore h with hlast | h
          · rw [List.getLast?_concat] at hlast
            exact ha (Option.some.inj hlast).symm
          · exact ih hrest h

/-- Before a space behind the table stands the table or a comma. -/
theorem not_infix_parenthesised {a : Char} (ha : a ≠ ',') (hspace : a ≠ ' ') (hopen : a ≠ '(')
    (hcolumns : ∀ column ∈ columns, IsIdentifier column) : ¬ [a, ' '] <:+: '(' :: (columnList columns ++ [')']) := by
  intro h
  rcases List.infix_cons_iff.mp h with ⟨rest, hrest⟩ | h
  · exact hopen (List.cons.inj hrest).1
  · exact not_infix_columnList ha hspace hcolumns h

theorem not_infix_target (htable : IsIdentifier table) (hcolumns : ∀ column ∈ columns, IsIdentifier column) :
    ¬ ['T', ' ', 'E'] <:+: indexTarget table columns := by
  intro h
  rcases around_or_inside (by decide) (htable.notMem (by decide)) h with ⟨-, h⟩ | h
  · cases h
  · have hpair : ['T', ' '] <:+: ['T', ' ', 'E'] := ⟨[], ['E'], rfl⟩
    exact not_infix_parenthesised (by decide) (by decide) (by decide) hcolumns (hpair.trans h)

/-- ON stands between spaces in a target only as the table. -/
theorem not_infix_on (htable : IsIdentifier table) (hcolumns : ∀ column ∈ columns, IsIdentifier column)
    (hother : table ≠ "ON".toList) : ¬ " ON ".toList <:+: "ON ".toList ++ indexTarget table columns := by
  have hspace : ' ' ∉ table := htable.notMem (by decide)
  intro h
  rcases @prefix_or_infix_of_head _ _ _ "ON".toList _ (by decide) h with h | h
  · exact hother (eq_of_prefix_concat (by decide) hspace h).symm
  · rcases prefix_or_infix_of_head hspace h with ⟨rest, hrest⟩ | h
    · exact absurd (List.cons.inj hrest).1 (by decide)
    · have hpair : ['N', ' '] <:+: " ON ".toList := ⟨" O".toList, [], rfl⟩
      exact not_infix_parenthesised (by decide) (by decide) (by decide) hcolumns (hpair.trans h)

theorem not_infix_on_open (hcolumns : ∀ column ∈ columns, IsIdentifier column) :
    ¬ " ON ".toList <:+: "ON ".toList ++ '(' :: (columnList columns ++ [')']) := by
  intro h
  rcases @prefix_or_infix_of_head _ _ _ "ON".toList _ (by decide) h with ⟨rest, hrest⟩ | h
  · exact absurd (List.cons.inj hrest).1 (by decide)
  · have hpair : ['N', ' '] <:+: " ON ".toList := ⟨" O".toList, [], rfl⟩
    exact not_infix_parenthesised (by decide) (by decide) (by decide) hcolumns (hpair.trans h)

/-- A column stands in the list. -/
theorem infix_columnList {column : List Char} (hcolumn : column ∈ columns) : column <:+: columnList columns := by
  induction columns with
  | nil => cases hcolumn
  | cons first rest ih =>
      cases rest with
      | nil =>
          rw [columnList_singleton, List.mem_singleton.mp hcolumn]
      | cons next rest =>
          rw [columnList_cons_cons]
          rcases List.mem_cons.mp hcolumn with rfl | hmem
          · exact (List.prefix_append _ _).isInfix
          · exact (ih hmem).trans ⟨first ++ [',', ' '], [], by simp⟩

/-- UNIQUE stands in a list only in a column. -/
theorem exists_of_infix_columnList {pattern : List Char} (hcomma : ',' ∉ pattern) (hspace : ' ' ∉ pattern)
    (hne : pattern ≠ []) (h : pattern <:+: columnList columns) : ∃ column ∈ columns, pattern <:+: column := by
  induction columns with
  | nil => exact absurd (List.infix_nil.mp h) hne
  | cons first rest ih =>
      cases rest with
      | nil =>
          rw [columnList_singleton] at h
          exact ⟨first, List.mem_cons_self, h⟩
      | cons next rest =>
          rw [columnList_cons_cons] at h
          rcases infix_of_notMem hcomma h with h | h
          · exact ⟨first, List.mem_cons_self, h⟩
          · rcases @infix_of_notMem _ _ _ [] _ hspace h with h | h
            · exact absurd (List.infix_nil.mp h) hne
            · obtain ⟨column, hcolumn, h⟩ := ih h
              exact ⟨column, List.mem_cons_of_mem _ hcolumn, h⟩

/-- The keywords in capitals. -/
def IndexKeywords.capitals (unique given : Bool) : IndexKeywords where
  create := createIndexKeyword unique
  guard := if given then some ("IF".toList, "NOT EXISTS".toList) else none
  on := "ON".toList

variable {unique given : Bool}

/-- IF NOT EXISTS stands in a text exactly if it is given. -/
theorem ifNotExists_indexText_iff (hname : IsIdentifier name) (htable : IsIdentifier table)
    (hcolumns : ∀ column ∈ columns, IsIdentifier column) :
    "IF NOT EXISTS".toList <:+: indexText (.capitals unique given) name table columns ↔ given = true := by
  cases given with
  | true =>
      refine iff_of_true ⟨createIndexKeyword unique ++ [' '],
        ' ' :: (name ++ ' ' :: ("ON".toList ++ ' ' :: indexTarget table columns)), ?_⟩ rfl
      simp [indexText, IndexKeywords.guardText, IndexKeywords.capitals]
  | false =>
      refine iff_of_false (fun h => ?_) Bool.false_ne_true
      have hbehind : ¬ ['T', ' ', 'E'] <:+: name ++ ' ' :: ("ON".toList ++ ' ' :: indexTarget table columns) := by
        intro h
        rcases around_or_inside (by decide) (hname.notMem (by decide)) h with ⟨-, h⟩ | h
        · cases h
        · rcases around_or_inside (by decide) (by decide) h with ⟨h, -⟩ | h
          · exact absurd h (by decide)
          · exact not_infix_target htable hcolumns h
      cases unique with
      | false =>
          rcases @around_or_inside _ _ _ _ "CREATE".toList _ (by decide) (by decide) (infix_ifNotExists h) with ⟨h, -⟩ | h
          · exact absurd h (by decide)
          · rcases @around_or_inside _ _ _ _ "INDEX".toList _ (by decide) (by decide) h with ⟨h, -⟩ | h
            · exact absurd h (by decide)
            · exact hbehind h
      | true =>
          rcases @around_or_inside _ _ _ _ "CREATE".toList _ (by decide) (by decide) (infix_ifNotExists h) with ⟨h, -⟩ | h
          · exact absurd h (by decide)
          · rcases @around_or_inside _ _ _ _ "UNIQUE".toList _ (by decide) (by decide) h with ⟨h, -⟩ | h
            · exact absurd h (by decide)
            · rcases @around_or_inside _ _ _ _ "INDEX".toList _ (by decide) (by decide) h with ⟨h, -⟩ | h
              · exact absurd h (by decide)
              · exact hbehind h

/-- UNIQUE stands in a text exactly if it is given or stands in an identifier. -/
theorem unique_indexText_iff :
    "UNIQUE".toList <:+: indexText (.capitals unique given) name table columns ↔
      unique = true ∨ ∃ word ∈ name :: table :: columns, "UNIQUE".toList <:+: word := by
  constructor
  · intro h
    rcases infix_of_notMem (by decide) h with h | h
    · left
      cases unique with
      | true => rfl
      | false => exact absurd (show "UNIQUE".toList <:+: "CREATE INDEX".toList from h) (by decide)
    · right
      have hbehind : "UNIQUE".toList <:+: name ++ ' ' :: ("ON".toList ++ ' ' :: indexTarget table columns) := by
        cases given with
        | false => exact h
        | true =>
            rcases @infix_of_notMem _ _ _ "IF".toList _ (by decide) h with h | h
            · exact absurd h (by decide)
            · rcases @infix_of_notMem _ _ _ "NOT".toList _ (by decide) h with h | h
              · exact absurd h (by decide)
              · rcases @infix_of_notMem _ _ _ "EXISTS".toList _ (by decide) h with h | h
                · exact absurd h (by decide)
                · exact h
      rcases infix_of_notMem (by decide) hbehind with h | h
      · exact ⟨name, List.mem_cons_self, h⟩
      · rcases infix_of_notMem (by decide) h with h | h
        · exact absurd h (by decide)
        · rcases infix_of_notMem (by decide) h with h | h
          · exact ⟨table, List.mem_cons_of_mem _ List.mem_cons_self, h⟩
          · rcases @infix_of_notMem _ _ _ [] _ (by decide) h with h | h
            · exact absurd h (by decide)
            · rcases infix_of_notMem (by decide) h with h | h
              · obtain ⟨column, hcolumn, h⟩ := exists_of_infix_columnList (by decide) (by decide) (by decide) h
                exact ⟨column, List.mem_cons_of_mem _ (List.mem_cons_of_mem _ hcolumn), h⟩
              · exact absurd h (by decide)
  · rintro (rfl | ⟨word, hword, h⟩)
    · exact ⟨"CREATE ".toList, _, rfl⟩
    · refine h.trans ?_
      have hfront : name ++ ' ' :: ("ON".toList ++ ' ' :: indexTarget table columns) <:+:
          indexText (.capitals unique given) name table columns :=
        ⟨createIndexKeyword unique ++ ' ' :: (IndexKeywords.capitals unique given).guardText, [], by
          rw [List.append_nil, List.append_assoc]
          rfl⟩
      refine List.IsInfix.trans ?_ hfront
      rcases List.mem_cons.mp hword with rfl | hword
      · exact (List.prefix_append _ _).isInfix
      · rcases List.mem_cons.mp hword with rfl | hcolumn
        · exact ⟨name ++ ' ' :: ("ON".toList ++ [' ']), ' ' :: '(' :: (columnList columns ++ [')']), by simp [indexTarget]⟩
        · refine (infix_columnList hcolumn).trans
            ⟨name ++ ' ' :: ("ON".toList ++ ' ' :: (table ++ [' ', '('])), [')'], by simp [indexTarget]⟩

end

/-! ### Upper-cased texts -/

section

variable [UpperCasing] {columns : List (List Char)} {name table : List Char} {keywords : IndexKeywords} {unique : Bool}

theorem upperText_columnList : upperText (columnList columns) = columnList (columns.map upperText) := by
  have hcomma : UpperCasing.upper ',' = [','] := upper_ascii (by decide)
  have hspace : UpperCasing.upper ' ' = [' '] := upper_ascii (by decide)
  induction columns with
  | nil => rfl
  | cons first rest ih =>
      cases rest with
      | nil => rw [List.map_singleton, columnList_singleton, columnList_singleton]
      | cons next rest =>
          rw [List.map_cons] at ih
          rw [List.map_cons, List.map_cons, columnList_cons_cons, columnList_cons_cons, upperText_append, upperText_cons,
            upperText_cons, hcomma, hspace, ih]
          rfl

theorem upperText_indexTarget :
    upperText (indexTarget table columns) = indexTarget (upperText table) (columns.map upperText) := by
  have hspace : UpperCasing.upper ' ' = [' '] := upper_ascii (by decide)
  have hopen : UpperCasing.upper '(' = ['('] := upper_ascii (by decide)
  have hclose : UpperCasing.upper ')' = [')'] := upper_ascii (by decide)
  rw [indexTarget, upperText_append, upperText_cons, upperText_cons, upperText_append, upperText_cons, upperText_columnList,
    hspace, hopen, hclose]
  rfl

/-- The upper-cased text is the text in capitals. -/
theorem upperText_indexText (htyped : keywords.Typed unique) :
    upperText (indexText keywords name table columns) =
      indexText (.capitals unique keywords.guard.isSome) (upperText name) (upperText table) (columns.map upperText) := by
  have hspace : UpperCasing.upper ' ' = [' '] := upper_ascii (by decide)
  have hcreate : upperText keywords.create = createIndexKeyword unique :=
    htyped.create.upperText (by cases unique <;> decide)
  have hon : upperText keywords.on = "ON".toList := htyped.on.upperText (by decide)
  have hguard : upperText keywords.guardText = (IndexKeywords.capitals unique keywords.guard.isSome).guardText := by
    rw [IndexKeywords.guardText, IndexKeywords.guardText]
    cases hgiven : keywords.guard with
    | none => rfl
    | some typed =>
        obtain ⟨hif, hnot⟩ := htyped.guard typed hgiven
        dsimp only
        rw [upperText_append, upperText_cons, upperText_append, upperText_cons, hif.upperText (by decide),
          hnot.upperText (by decide), hspace]
        rfl
  rw [indexText, indexText, upperText_append, upperText_cons, upperText_append, upperText_append, upperText_cons,
    upperText_append, upperText_cons, upperText_indexTarget, hcreate, hguard, hon, hspace]
  rfl

omit [UpperCasing] in
theorem indexText_last (c : Char) : c ∈ (indexText keywords name table columns).getLast? ↔ c = ')' := by
  have hsplit : indexText keywords name table columns =
      (keywords.create ++ ' ' :: (keywords.guardText ++ (name ++ ' ' :: (keywords.on ++ ' ' ::
        (table ++ ' ' :: '(' :: columnList columns))))) ++ [')'] := by
    simp only [indexText, indexTarget, List.append_assoc, List.cons_append]
  rw [hsplit, List.getLast?_concat, Option.mem_some_iff]
  exact eq_comm

omit [UpperCasing] in
theorem trim_indexText (htyped : keywords.Typed unique) :
    trim (indexText keywords name table columns) = indexText keywords name table columns := by
  refine trim_eq_self (htyped.create.head? ?_ ?_ _) fun c hc => by rw [(indexText_last c).mp hc]; rfl
  · cases unique <;> decide
  · cases unique <;> exact fun c hc => Option.some.inj hc ▸ rfl

omit [UpperCasing] in
theorem trimSemicolons_indexText :
    trimSemicolons (indexText keywords name table columns) = indexText keywords name table columns := by
  refine trimSemicolons_eq_self fun c hc => ?_
  rw [(indexText_last c).mp hc]
  decide

omit [UpperCasing] in
theorem capitals_typed (given : Bool) : (IndexKeywords.capitals unique given).Typed unique where
  create := show TypedAs (createIndexKeyword unique) (createIndexKeyword unique) by cases unique <;> decide
  guard typed h := by
    cases given
    · cases h
    · obtain rfl := Option.some.inj h
      exact ⟨by decide, by decide⟩
  on := show TypedAs "ON".toList "ON".toList by decide

theorem trim_upperText_indexText (htyped : keywords.Typed unique) :
    trim (upperText (indexText keywords name table columns)) = upperText (indexText keywords name table columns) := by
  rw [upperText_indexText htyped, trim_indexText (capitals_typed _)]

end

section

variable [UpperCasing] [Rendering] [SqlExprText] [SqlTableText] [SqlParser] {uuidv7 : BitVec 128}
  {columns : List (List Char)} {name table : List Char} {keywords : IndexKeywords} {unique : Bool}

/-- A CREATE INDEX goes to its arm. -/
theorem parseCustom_indexText (htyped : keywords.Typed unique) :
    parseCustom uuidv7 (indexText keywords name table columns) = parseCreateIndex (indexText keywords name table columns) := by
  have hother (pattern : List Char)
      (h : ∀ rest, startsWith pattern (createIndexKeyword unique ++ ' ' :: rest) = false) :
      startsWith pattern (upperText (indexText keywords name table columns)) = false := by
    rw [upperText_indexText htyped]
    exact h _
  have hcreate : startsWith "CREATE ".toList (upperText (indexText keywords name table columns)) = true := by
    rw [upperText_indexText htyped]
    cases unique <;> rfl
  have hindex : containsText " INDEX ".toList (upperText (indexText keywords name table columns)) = true := by
    rw [containsText_iff, upperText_indexText htyped]
    cases unique
    · exact ⟨"CREATE".toList, _, rfl⟩
    · exact ⟨"CREATE UNIQUE".toList, _, rfl⟩
  rw [parseCustom, trim_indexText htyped, trimSemicolons_indexText, trim_upperText_indexText htyped]
  dsimp only
  rw [hother "CREATE TABLE ".toList fun _ => by cases unique <;> rfl,
    hother "ALTER TABLE ".toList fun _ => by cases unique <;> rfl,
    hother "EXPLAIN ".toList fun _ => by cases unique <;> rfl,
    hother "EXPLAIN ANALYZE ".toList fun _ => by cases unique <;> rfl,
    hother "CREATE USER ".toList fun _ => by cases unique <;> rfl,
    hother "CREATE USER IF NOT EXISTS ".toList fun _ => by cases unique <;> rfl,
    hother "DROP USER ".toList fun _ => by cases unique <;> rfl,
    hother "DROP USER IF EXISTS ".toList fun _ => by cases unique <;> rfl,
    hother "ALTER USER ".toList fun _ => by cases unique <;> rfl,
    hother "GRANT ".toList fun _ => by cases unique <;> rfl,
    hother "REVOKE ".toList fun _ => by cases unique <;> rfl, hcreate, hindex]
  rfl

theorem parse_indexText (htyped : keywords.Typed unique) (hfall : FallsBack uuidv7 (indexText keywords name table columns)) :
    parse uuidv7 (indexText keywords name table columns) = parseCreateIndex (indexText keywords name table columns) := by
  rw [← @parseCustom_indexText _ _ _ _ _ uuidv7 _ _ _ _ _ htyped]
  refine parse_of_fallsBack uuidv7 ?_ ?_ hfall
  · rw [trim_indexText htyped, looksLikeCreateTableWithEngine, upperText_indexText htyped]
    cases unique <;> rfl
  · rw [trim_indexText htyped, looksLikeAlterTableEngine, upperText_indexText htyped]
    cases unique <;> rfl

omit [Rendering] [SqlExprText] [SqlTableText] [SqlParser] in
/-- What is read has the flags that the upper-cased text contains. -/
theorem flags_of_parseCreateIndex {sql : List Char} {statements : List HelionStatement}
    (h : parseCreateIndex sql = pure statements) :
    ∃ name table columns, statements = [.createIndex name table columns
      (containsText "UNIQUE".toList (upperText (trimSemicolons (trim sql))))
      (containsText "IF NOT EXISTS".toList (upperText (trimSemicolons (trim sql))))] := by
  rw [parseCreateIndex] at h
  obtain ⟨start, -, h⟩ := Parsed.bind_eq_pure_iff.mp h
  obtain ⟨behind, -, h⟩ := Parsed.bind_eq_pure_iff.mp h
  obtain ⟨name, -, h⟩ := Parsed.bind_eq_pure_iff.mp h
  split at h
  next => cases h
  next onPos _ =>
    obtain ⟨behindOn, -, h⟩ := Parsed.bind_eq_pure_iff.mp h
    dsimp only at h
    split at h
    next => cases h
    next parenPos _ =>
      obtain ⟨tableName, -, h⟩ := Parsed.bind_eq_pure_iff.mp h
      split at h
      next => cases h
      next stop _ =>
        obtain ⟨colList, -, h⟩ := Parsed.bind_eq_pure_iff.mp h
        split at h
        next => cases h
        next => exact ⟨_, _, _, (Parsed.pure_inj h).symm⟩

/-! ### Evaluation -/

omit [Rendering] [SqlExprText] [SqlTableText] [SqlParser] in
/-- The name starts behind INDEX. -/
theorem afterIndexStart_indexText (htyped : keywords.Typed unique) :
    afterIndexStart unique (upperText (indexText keywords name table columns)) = some (byteLength keywords.create) := by
  have hlength : byteLength keywords.create = byteLength (createIndexKeyword unique) :=
    htyped.create.byteLength (by cases unique <;> decide)
  rw [upperText_indexText htyped, hlength]
  cases unique with
  | false =>
      have hfound : byteFind " INDEX ".toList (indexText (.capitals false keywords.guard.isSome) (upperText name)
          (upperText table) (columns.map upperText)) = some (byteLength "CREATE".toList) :=
        @byteFind_of_notMem ' ' "INDEX ".toList "CREATE".toList _ (by decide)
      rw [afterIndexStart, if_neg Bool.false_ne_true, hfound]
      rfl
  | true =>
      have hfound : byteFind "UNIQUE INDEX".toList (indexText (.capitals true keywords.guard.isSome) (upperText name)
          (upperText table) (columns.map upperText)) = some (byteLength "CREATE ".toList) :=
        @byteFind_of_notMem 'U' "NIQUE INDEX".toList "CREATE ".toList _ (by decide)
      rw [afterIndexStart, if_pos rfl, hfound]
      rfl

omit [UpperCasing] [Rendering] [SqlExprText] [SqlTableText] [SqlParser] in
/-- What is left behind INDEX. -/
theorem fromByte_indexText :
    fromByte (byteLength keywords.create) (indexText keywords name table columns) =
      some (' ' :: (keywords.guardText ++ (name ++ ' ' :: (keywords.on ++ ' ' :: indexTarget table columns)))) :=
  fromByte_byteLength _ _

/-- The name that is read: the one behind IF NOT EXISTS, or the word IF where the keywords are in mixed case. -/
def IndexKeywords.nameRead (keywords : IndexKeywords) (name : List Char) : List Char :=
  match keywords.guard with
  | none => name
  | some (ifWord, notExists) =>
      if ifWord = "IF".toList ∧ notExists = "NOT EXISTS".toList ∨ ifWord = "if".toList ∧ notExists = "not exists".toList then
        name
      else ifWord

omit [UpperCasing] [Rendering] [SqlExprText] [SqlTableText] [SqlParser] in
theorem guardText_eq_iff {ifWord notExists ifTyped notTyped : List Char} (hif : ifTyped.length = ifWord.length) :
    ifWord ++ ' ' :: (notExists ++ [' ']) = ifTyped ++ ' ' :: (notTyped ++ [' ']) ↔
      ifTyped = ifWord ∧ notTyped = notExists := by
  constructor
  · intro h
    obtain ⟨hword, hrest⟩ := List.append_inj h hif.symm
    exact ⟨hword.symm, (List.append_inj' (List.cons.inj hrest).2 rfl).1.symm⟩
  · rintro ⟨rfl, rfl⟩
    rfl

omit [UpperCasing] [Rendering] [SqlExprText] [SqlTableText] [SqlParser] in
/-- What stands where the name is looked for starts with the name that is read and a space. -/
theorem nameRest_indexText (htyped : keywords.Typed unique) (hname : IsIdentifier name) (tail : List Char) :
    ∃ rest,
      (if keywords.guard.isSome then
        ((stripPrefix "IF NOT EXISTS ".toList (keywords.guardText ++ (name ++ ' ' :: tail))).or
          (stripPrefix "if not exists ".toList (keywords.guardText ++ (name ++ ' ' :: tail)))).getD
            (keywords.guardText ++ (name ++ ' ' :: tail))
      else keywords.guardText ++ (name ++ ' ' :: tail)) = keywords.nameRead name ++ ' ' :: rest ∧
      IsIdentifier (keywords.nameRead name) := by
  rw [IndexKeywords.guardText, IndexKeywords.nameRead]
  cases hguard : keywords.guard with
  | none => exact ⟨tail, rfl, hname⟩
  | some typed =>
      obtain ⟨ifWord, notExists⟩ := typed
      obtain ⟨hif, hnot⟩ := htyped.guard _ hguard
      have hlength : ∀ pattern : List Char, pattern.length = 14 →
          pattern.length = (ifWord ++ ' ' :: (notExists ++ [' '])).length := by
        intro pattern hpattern
        rw [hpattern, List.length_append, List.length_cons, List.length_append, hif.length, hnot.length]
        rfl
      have hcapitals : "IF NOT EXISTS ".toList = ifWord ++ ' ' :: (notExists ++ [' ']) ↔
          ifWord = "IF".toList ∧ notExists = "NOT EXISTS".toList :=
        @guardText_eq_iff "IF".toList "NOT EXISTS".toList ifWord notExists hif.length
      have hsmall : "if not exists ".toList = ifWord ++ ' ' :: (notExists ++ [' ']) ↔
          ifWord = "if".toList ∧ notExists = "not exists".toList :=
        @guardText_eq_iff "if".toList "not exists".toList ifWord notExists hif.length
      dsimp only [Option.isSome_some]
      rw [if_pos rfl, stripPrefix_of_length (hlength _ rfl), stripPrefix_of_length (hlength _ rfl)]
      by_cases h : ifWord = "IF".toList ∧ notExists = "NOT EXISTS".toList
      · have hread : ifWord = "IF".toList ∧ notExists = "NOT EXISTS".toList ∨
            ifWord = "if".toList ∧ notExists = "not exists".toList := .inl h
        rw [if_pos (hcapitals.mpr h), if_pos hread]
        exact ⟨tail, rfl, hname⟩
      · by_cases h' : ifWord = "if".toList ∧ notExists = "not exists".toList
        · have hread : ifWord = "IF".toList ∧ notExists = "NOT EXISTS".toList ∨
              ifWord = "if".toList ∧ notExists = "not exists".toList := .inr h'
          rw [if_neg (hcapitals.not.mpr h), if_pos (hsmall.mpr h'), if_pos hread]
          exact ⟨tail, rfl, hname⟩
        · rw [if_neg (hcapitals.not.mpr h), if_neg (hsmall.not.mpr h'), if_neg (not_or.mpr ⟨h, h'⟩)]
          refine ⟨notExists ++ ' ' :: (name ++ ' ' :: tail), ?_, hif.identifier (by decide)⟩
          simp only [Option.or_none, Option.getD_none, List.append_assoc, List.cons_append, List.nil_append]

omit [UpperCasing] [Rendering] [SqlExprText] [SqlTableText] [SqlParser] in
theorem trimStart_guardText (htyped : keywords.Typed unique) (hname : IsIdentifier name) (tail : List Char) :
    trimStart (' ' :: (keywords.guardText ++ (name ++ tail))) = keywords.guardText ++ (name ++ tail) := by
  have hhead : ∀ c ∈ (keywords.guardText ++ (name ++ tail)).head?, isWhitespace c = false := by
    rw [IndexKeywords.guardText]
    cases hguard : keywords.guard with
    | none => exact hname.head? _
    | some typed =>
        dsimp only
        rw [List.append_assoc]
        exact (htyped.guard _ hguard).1.head? (by decide) (fun c hc => Option.some.inj hc ▸ rfl) _
  rw [trimStart, List.dropWhile_cons_of_pos rfl]
  cases htext : keywords.guardText ++ (name ++ tail) with
  | nil => rfl
  | cons c rest =>
      rw [htext] at hhead
      exact List.dropWhile_cons_of_neg (by rw [hhead c rfl]; exact Bool.false_ne_true)

omit [UpperCasing] [Rendering] [SqlExprText] [SqlTableText] [SqlParser] in
/-- The columns stand between the first and the last parenthesis. -/
theorem betweenBytes_columns {front : List Char} :
    betweenBytes (byteLength front + 1) (byteLength (front ++ '(' :: columnList columns))
      (front ++ '(' :: (columnList columns ++ [')'])) = some (columnList columns) := by
  have hsplit : front ++ '(' :: (columnList columns ++ [')']) = (front ++ '(' :: columnList columns) ++ [')'] := by
    rw [List.append_assoc]
    rfl
  have hopen : byteLength front + 1 = byteLength (front ++ ['(']) := by
    rw [byteLength_append]
    rfl
  have hle : byteLength front + 1 ≤ byteLength (front ++ '(' :: columnList columns) := by
    rw [byteLength_append, byteLength_cons, show ('(' : Char).utf8Size = 1 from rfl]
    omega
  have hcut := fromByte_byteLength (front ++ ['(']) (columnList columns)
  rw [List.append_assoc] at hcut
  rw [betweenBytes, if_pos hle, hsplit, uptoByte_byteLength, Option.bind_some, hopen]
  exact hcut

omit [Rendering] [SqlExprText] [SqlTableText] [SqlParser] in
/-- What is read if the last ON stands before some text and the columns. -/
theorem parseCreateIndex_of_target (htyped : keywords.Typed unique) (hname : IsIdentifier name)
    (htable : IsIdentifier table) (hcolumns : ∀ column ∈ columns, IsIdentifier column) (hne : columns ≠ [])
    (hunique : containsText "UNIQUE".toList (upperText (indexText keywords name table columns)) = unique)
    {onPos : Nat} {front : List Char} (hopen : '(' ∉ front)
    (hon : byteRfind " ON ".toList (upperText (indexText keywords name table columns)) = some onPos)
    (hbehind : fromByte (onPos + 4) (indexText keywords name table columns) =
      some (front ++ '(' :: (columnList columns ++ [')'])))
    (htrim : trim (front ++ '(' :: (columnList columns ++ [')'])) = front ++ '(' :: (columnList columns ++ [')'])) :
    parseCreateIndex (indexText keywords name table columns) =
      pure [.createIndex (String.ofList (keywords.nameRead name)) (String.ofList (trim front)) (columns.map String.ofList)
        unique keywords.guard.isSome] := by
  have hguard : containsText "IF NOT EXISTS".toList (upperText (indexText keywords name table columns)) =
      keywords.guard.isSome := by
    rw [Bool.eq_iff_iff, containsText_iff, upperText_indexText htyped]
    exact ifNotExists_indexText_iff hname.upper htable.upper
      (List.forall_mem_map.mpr fun column hcolumn => (hcolumns column hcolumn).upper)
  obtain ⟨rest, hrest, hread⟩ := nameRest_indexText htyped hname (keywords.on ++ ' ' :: indexTarget table columns)
  have hopenPos : byteFindIf (fun c => decide (c = '(')) (front ++ '(' :: (columnList columns ++ [')'])) =
      some (byteLength front) :=
    byteFindIf_of_first (fun d hd => decide_eq_false fun (heq : d = '(') => hopen (heq ▸ hd)) rfl _
  have hclosePos : byteRfind [')'] (front ++ '(' :: (columnList columns ++ [')'])) =
      some (byteLength (front ++ '(' :: columnList columns)) := by
    have hlast := @byteRfind_of_last ')' [] (front ++ '(' :: columnList columns) [] (by decide)
    rwa [List.append_assoc] at hlast
  have hnonempty : (columns.map String.ofList).isEmpty = false := by
    rw [List.isEmpty_eq_false_iff]
    exact fun h => hne (List.map_eq_nil_iff.mp h)
  rw [parseCreateIndex, trim_indexText htyped, trimSemicolons_indexText, hunique, hguard,
    afterIndexStart_indexText htyped, Parsed.some_bind, fromByte_indexText, Parsed.some_bind,
    trimStart_guardText htyped hname]
  dsimp only
  rw [hrest, uptoByte_byteFindIf, hread.takeWhile, Parsed.some_bind, hon]
  dsimp only
  rw [hbehind, Parsed.some_bind, htrim, hopenPos]
  dsimp only
  rw [uptoByte_byteLength, Parsed.some_bind, hclosePos]
  dsimp only
  rw [betweenBytes_columns, Parsed.some_bind, trim_columnList hcolumns hne, splitNames_columnList hcolumns hne, hnonempty]
  rfl

omit [UpperCasing] [Rendering] [SqlExprText] [SqlTableText] [SqlParser] in
theorem head_ascii (htyped : keywords.Typed unique) (hname : IsIdentifier name) :
    ∀ c ∈ keywords.create ++ ' ' :: (keywords.guardText ++ name), c.toNat < 128 := by
  have hguard : ∀ c ∈ keywords.guardText, c.toNat < 128 := by
    rw [IndexKeywords.guardText]
    cases hgiven : keywords.guard with
    | none => nofun
    | some typed =>
        obtain ⟨hif, hnot⟩ := htyped.guard typed hgiven
        intro c hc
        rcases List.mem_append.mp hc with hc | hc
        · exact hif.ascii (by decide) c hc
        · rcases List.mem_cons.mp hc with rfl | hc
          · decide
          · rcases List.mem_append.mp hc with hc | hc
            · exact hnot.ascii (by decide) c hc
            · rw [List.mem_singleton.mp hc]
              decide
  intro c hc
  rcases List.mem_append.mp hc with hc | hc
  · exact htyped.create.ascii (by cases unique <;> decide) c hc
  · rcases List.mem_cons.mp hc with rfl | hc
    · decide
    · rcases List.mem_append.mp hc with hc | hc
      · exact hguard c hc
      · exact hname.ascii c hc

omit [UpperCasing] [Rendering] [SqlExprText] [SqlTableText] [SqlParser] in
theorem indexText_eq :
    indexText keywords name table columns =
      (keywords.create ++ ' ' :: (keywords.guardText ++ name)) ++ ' ' :: (keywords.on ++ ' ' :: indexTarget table columns) := by
  simp only [indexText, List.append_assoc, List.cons_append]

omit [Rendering] [SqlExprText] [SqlTableText] [SqlParser] in
/-- If the table is called ON, the last ON is its name. -/
theorem parseCreateIndex_calledOn (htyped : keywords.Typed unique) (hname : IsIdentifier name)
    (htable : IsIdentifier table) (hcolumns : ∀ column ∈ columns, IsIdentifier column) (hne : columns ≠ [])
    (hunique : containsText "UNIQUE".toList (upperText (indexText keywords name table columns)) = unique)
    (hcalled : TypedAs "ON".toList table) :
    parseCreateIndex (indexText keywords name table columns) =
      pure [.createIndex (String.ofList (keywords.nameRead name)) (String.ofList []) (columns.map String.ofList) unique
        keywords.guard.isSome] := by
  have hascii := head_ascii htyped hname
  have hspace : UpperCasing.upper ' ' = [' '] := upper_ascii (by decide)
  have hupperColumns : ∀ column ∈ columns.map upperText, IsIdentifier column :=
    List.forall_mem_map.mpr fun column hcolumn => (hcolumns column hcolumn).upper
  have hupperTable : upperText table = "ON".toList := hcalled.upperText (by decide)
  have htext : indexText keywords name table columns =
      (keywords.create ++ ' ' :: (keywords.guardText ++ name) ++ ' ' :: keywords.on) ++
        (' ' :: (table ++ [' ']) ++ '(' :: (columnList columns ++ [')'])) := by
    rw [indexText_eq, indexTarget]
    simp only [List.append_assoc, List.cons_append, List.nil_append]
  have hlast : byteRfind " ON ".toList (upperText (indexText keywords name table columns)) =
      some (byteLength (keywords.create ++ ' ' :: (keywords.guardText ++ name) ++ ' ' :: keywords.on)) := by
    have hfront :
        ∀ c ∈ keywords.create ++ ' ' :: (keywords.guardText ++ name) ++ ' ' :: keywords.on, c.toNat < 128 := by
      refine List.forall_mem_append.mpr ⟨hascii, List.forall_mem_cons.mpr ⟨by decide, htyped.on.ascii (by decide)⟩⟩
    have hback : upperText (' ' :: (table ++ [' ']) ++ '(' :: (columnList columns ++ [')'])) =
        " ON ".toList ++ '(' :: (columnList (columns.map upperText) ++ [')']) := by
      have htarget :
          ' ' :: (table ++ [' ']) ++ '(' :: (columnList columns ++ [')']) = ' ' :: indexTarget table columns := by
        simp only [indexTarget, List.append_assoc, List.cons_append, List.nil_append]
      rw [htarget, upperText_cons, upperText_indexTarget, hspace, hupperTable]
      rfl
    rw [htext, upperText_append, hback, ← byteLength_upperText hfront]
    exact byteRfind_of_last (not_infix_on_open hupperColumns)
  have hbehind :
      fromByte (byteLength (keywords.create ++ ' ' :: (keywords.guardText ++ name) ++ ' ' :: keywords.on) + 4)
      (indexText keywords name table columns) = some ([] ++ '(' :: (columnList columns ++ [')'])) := by
    have hlength : byteLength (' ' :: (table ++ [' '])) = 4 := by
      rw [byteLength_cons, byteLength_append, hcalled.byteLength (by decide)]
      rfl
    rw [htext, ← hlength, ← byteLength_append, ← List.append_assoc]
    exact fromByte_byteLength _ _
  refine parseCreateIndex_of_target htyped hname htable hcolumns hne hunique List.not_mem_nil hlast hbehind ?_
  refine trim_eq_self (fun c hc => ?_) fun c hc => ?_
  · obtain rfl := Option.some.inj hc
    rfl
  · rw [List.nil_append, ← List.cons_append, List.getLast?_concat] at hc
    obtain rfl := Option.some.inj hc
    rfl

omit [Rendering] [SqlExprText] [SqlTableText] [SqlParser] in
/-- The last ON stands before the table, if that is not called so. -/
theorem parseCreateIndex_notCalledOn (htyped : keywords.Typed unique) (hname : IsIdentifier name)
    (htable : IsIdentifier table) (hcolumns : ∀ column ∈ columns, IsIdentifier column) (hne : columns ≠ [])
    (hunique : containsText "UNIQUE".toList (upperText (indexText keywords name table columns)) = unique)
    (hcalled : ¬ TypedAs "ON".toList table) :
    parseCreateIndex (indexText keywords name table columns) =
      pure [.createIndex (String.ofList (keywords.nameRead name)) (String.ofList table) (columns.map String.ofList) unique
        keywords.guard.isSome] := by
  have hascii := head_ascii htyped hname
  have hspace : UpperCasing.upper ' ' = [' '] := upper_ascii (by decide)
  have hon : upperText keywords.on = "ON".toList := htyped.on.upperText (by decide)
  have honLength : byteLength keywords.on = 2 := htyped.on.byteLength (by decide)
  have hupperColumns : ∀ column ∈ columns.map upperText, IsIdentifier column :=
    List.forall_mem_map.mpr fun column hcolumn => (hcolumns column hcolumn).upper
  have hother : upperText table ≠ "ON".toList := by
    rw [upperText_ascii htable.ascii]
    exact hcalled
  have htarget : indexTarget table columns = table ++ [' '] ++ '(' :: (columnList columns ++ [')']) := by
    rw [indexTarget, List.append_assoc]
    rfl
  have hlast : byteRfind " ON ".toList (upperText (indexText keywords name table columns)) =
      some (byteLength (keywords.create ++ ' ' :: (keywords.guardText ++ name))) := by
    have hback : upperText (' ' :: (keywords.on ++ ' ' :: indexTarget table columns)) =
        " ON ".toList ++ indexTarget (upperText table) (columns.map upperText) := by
      rw [upperText_cons, upperText_append, upperText_cons, upperText_indexTarget, hspace, hon]
      rfl
    rw [indexText_eq, upperText_append, hback, ← byteLength_upperText hascii]
    exact byteRfind_of_last (not_infix_on htable.upper hupperColumns hother)
  have hbehind : fromByte (byteLength (keywords.create ++ ' ' :: (keywords.guardText ++ name)) + 4)
      (indexText keywords name table columns) = some (table ++ [' '] ++ '(' :: (columnList columns ++ [')'])) := by
    have hlength : byteLength (' ' :: (keywords.on ++ [' '])) = 4 := by
      rw [byteLength_cons, byteLength_append, honLength]
      rfl
    rw [indexText_eq, ← htarget, ← hlength, ← byteLength_append]
    have hcut :=
      fromByte_byteLength (keywords.create ++ ' ' :: (keywords.guardText ++ name) ++ ' ' :: (keywords.on ++ [' ']))
      (indexTarget table columns)
    simpa only [List.append_assoc, List.cons_append, List.nil_append] using hcut
  have hopen : '(' ∉ table ++ [' '] := fun hmem => by
    rcases List.mem_append.mp hmem with hmem | hmem
    · exact htable.notMem (by decide) hmem
    · exact absurd hmem (by decide)
  have htrim : trim (table ++ [' '] ++ '(' :: (columnList columns ++ [')'])) =
      table ++ [' '] ++ '(' :: (columnList columns ++ [')']) := by
    refine trim_eq_self ?_ fun c hc => ?_
    · rw [List.append_assoc]
      exact htable.head? _
    · rw [← List.cons_append, ← List.append_assoc, List.getLast?_concat] at hc
      obtain rfl := Option.some.inj hc
      rfl
  have hread := parseCreateIndex_of_target htyped hname htable hcolumns hne hunique hopen hlast hbehind htrim
  rwa [htable.trim_concat] at hread

omit [Rendering] [SqlExprText] [SqlTableText] [SqlParser] in
/-- The last ON stands before the table, unless that is called so. -/
theorem parseCreateIndex_indexText (htyped : keywords.Typed unique) (hname : IsIdentifier name)
    (htable : IsIdentifier table) (hcolumns : ∀ column ∈ columns, IsIdentifier column) (hne : columns ≠ [])
    (hunique : containsText "UNIQUE".toList (upperText (indexText keywords name table columns)) = unique) :
    parseCreateIndex (indexText keywords name table columns) =
      pure [.createIndex (String.ofList (keywords.nameRead name))
        (String.ofList (if TypedAs "ON".toList table then [] else table)) (columns.map String.ofList) unique
        keywords.guard.isSome] := by
  by_cases hcalled : TypedAs "ON".toList table
  · rw [if_pos hcalled]
    exact parseCreateIndex_calledOn htyped hname htable hcolumns hne hunique hcalled
  · rw [if_neg hcalled]
    exact parseCreateIndex_notCalledOn htyped hname htable hcolumns hne hunique hcalled

omit [UpperCasing] [Rendering] [SqlExprText] [SqlTableText] [SqlParser] in
theorem nameRead_eq_iff :
    keywords.nameRead name = name ↔ ∀ typed ∈ keywords.guard,
      typed = ("IF".toList, "NOT EXISTS".toList) ∨ typed = ("if".toList, "not exists".toList) ∨ name = typed.1 := by
  rw [IndexKeywords.nameRead]
  cases keywords.guard with
  | none => exact iff_of_true rfl nofun
  | some typed =>
      obtain ⟨ifWord, notExists⟩ := typed
      simp only [Option.mem_some_iff, forall_eq', Prod.mk.injEq]
      rw [← or_assoc]
      split
      next h => exact iff_of_true rfl (.inl h)
      next h => exact ⟨fun hsame => .inr hsame.symm, fun hsame => (hsame.resolve_left h).symm⟩

omit [Rendering] [SqlExprText] [SqlTableText] [SqlParser] in
theorem containsText_unique (htyped : keywords.Typed unique) :
    containsText "UNIQUE".toList (upperText (indexText keywords name table columns)) = true ↔
      unique = true ∨ ∃ word ∈ name :: table :: columns, "UNIQUE".toList <:+: upperText word := by
  have hmap :
      upperText name :: upperText table :: columns.map upperText = (name :: table :: columns).map upperText := rfl
  rw [containsText_iff, upperText_indexText htyped, unique_indexText_iff, hmap]
  simp only [List.mem_map, exists_exists_and_eq_and]

/-- A CREATE INDEX is read as it stands exactly if UNIQUE is given or stands in no identifier, the table is not called ON, and
IF NOT EXISTS is typed in capitals or in small letters, or its first word as the index. -/
theorem parse_indexText_iff (htyped : keywords.Typed unique) (hname : IsIdentifier name) (htable : IsIdentifier table)
    (hcolumns : ∀ column ∈ columns, IsIdentifier column) (hne : columns ≠ [])
    (hfall : FallsBack uuidv7 (indexText keywords name table columns)) :
    parse uuidv7 (indexText keywords name table columns) =
        pure [.createIndex (String.ofList name) (String.ofList table) (columns.map String.ofList) unique
          keywords.guard.isSome] ↔
      (unique = true ∨ ∀ word ∈ name :: table :: columns, ¬ "UNIQUE".toList <:+: upperText word) ∧
        upperText table ≠ "ON".toList ∧
        ∀ typed ∈ keywords.guard,
          typed = ("IF".toList, "NOT EXISTS".toList) ∨ typed = ("if".toList, "not exists".toList) ∨ name = typed.1 := by
  have hcalled : upperText table = "ON".toList ↔ TypedAs "ON".toList table := by
    rw [upperText_ascii htable.ascii, TypedAs]
  rw [parse_indexText htyped hfall, ← nameRead_eq_iff, Ne, hcalled]
  have hcontains := @containsText_unique _ columns name table keywords unique htyped
  by_cases hflag : unique = true ∨ ∀ word ∈ name :: table :: columns, ¬ "UNIQUE".toList <:+: upperText word
  · have hunique : containsText "UNIQUE".toList (upperText (indexText keywords name table columns)) = unique := by
      rw [Bool.eq_iff_iff, hcontains]
      refine ⟨fun h => ?_, .inl⟩
      rcases h with h | ⟨word, hword, h⟩
      · exact h
      · exact hflag.resolve_right fun hnone => hnone word hword h
    rw [parseCreateIndex_indexText htyped hname htable hcolumns hne hunique]
    constructor
    · intro h
      have hsame := HelionStatement.createIndex.inj (List.singleton_inj.mp (Parsed.pure_inj h))
      refine ⟨hflag, fun hon => ?_, String.ofList_inj.mp hsame.1⟩
      have htableSame := String.ofList_inj.mp hsame.2.1
      rw [if_pos hon] at htableSame
      exact htable.1 htableSame.symm
    · rintro ⟨-, hon, hread⟩
      rw [if_neg hon, hread]
  · refine iff_of_false (fun h => ?_) fun h => hflag h.1
    obtain ⟨_, _, _, hread⟩ := flags_of_parseCreateIndex h
    have hsame := (HelionStatement.createIndex.inj (List.singleton_inj.mp hread)).2.2.2.1
    rw [trim_indexText htyped, trimSemicolons_indexText] at hsame
    obtain ⟨hnotUnique, hword⟩ := not_or.mp hflag
    push Not at hword
    rw [hcontains.mpr (.inr hword)] at hsame
    exact hnotUnique hsame

end

section

open AsciiCase PlainText

/-- `Create Index if not exists by_name On users (name, id)`. -/
def byName : IndexKeywords where
  create := "Create Index".toList
  guard := some ("if".toList, "not exists".toList)
  on := "On".toList

theorem parse_indexText_byName :
    byName.Typed false ∧ IsIdentifier "by_name".toList ∧ IsIdentifier "users".toList ∧
      (∀ column ∈ ["name".toList, "id".toList], IsIdentifier column) ∧ ["name".toList, "id".toList] ≠ [] ∧
      FallsBack 0 (indexText byName "by_name".toList "users".toList ["name".toList, "id".toList]) ∧
      (parse 0 (indexText byName "by_name".toList "users".toList ["name".toList, "id".toList]) =
          pure [.createIndex (String.ofList "by_name".toList) (String.ofList "users".toList)
            (["name".toList, "id".toList].map String.ofList) false byName.guard.isSome] ↔
        (false = true ∨ ∀ word ∈ ["by_name".toList, "users".toList, "name".toList, "id".toList],
            ¬ "UNIQUE".toList <:+: upperText word) ∧
          upperText "users".toList ≠ "ON".toList ∧
          ∀ typed ∈ byName.guard, typed = ("IF".toList, "NOT EXISTS".toList) ∨
            typed = ("if".toList, "not exists".toList) ∨ "by_name".toList = typed.1) :=
  have htyped : byName.Typed false := ⟨by decide, by decide, by decide⟩
  ⟨htyped, by decide, by decide, by decide, by decide, nofun,
    parse_indexText_iff htyped (by decide) (by decide) (by decide) (by decide) nofun⟩

/-- `CREATE INDEX i ON unique_names (a)` is UNIQUE, `CREATE INDEX i ON on (a)` has no table, and the index of
`CREATE INDEX If Not Exists i ON t (a)` is called `If`. -/
theorem not_parse_indexText :
    parse 0 (indexText (.capitals false false) "i".toList "unique_names".toList ["a".toList]) ≠
        pure [.createIndex "i" "unique_names" ["a"] false false] ∧
      parse 0 (indexText (.capitals false false) "i".toList "on".toList ["a".toList]) ≠
        pure [.createIndex "i" "on" ["a"] false false] ∧
      parse 0 (indexText ⟨"CREATE INDEX".toList, some ("If".toList, "Not Exists".toList), "ON".toList⟩ "i".toList "t".toList
          ["a".toList]) ≠ pure [.createIndex "i" "t" ["a"] false true] := by
  have hdiffer {name table tableRead nameRead : String} {columns : List String} {unique given uniqueRead : Bool}
      {sql : List Char}
      (hread : parse 0 sql = pure [.createIndex nameRead tableRead columns uniqueRead given])
      (hne : ¬ (nameRead = name ∧ tableRead = table ∧ uniqueRead = unique)) :
      parse 0 sql ≠ pure [.createIndex name table columns unique given] := by
    intro h
    have hsame := HelionStatement.createIndex.inj (List.singleton_inj.mp (Parsed.pure_inj (hread.symm.trans h)))
    exact hne ⟨hsame.1, hsame.2.1, hsame.2.2.2.1⟩
  refine ⟨@hdiffer _ _ "unique_names" "_names" _ _ _ true _ rfl (by decide), ?_, ?_⟩
  · exact @hdiffer _ _ "" "i" _ _ _ false _ rfl (by decide)
  · exact @hdiffer _ _ "t" "If" _ _ _ false _ rfl (by decide)

end

end HelionDb
