import HelionDb.EngineClauses
import HelionDb.Representatives
import HelionDb.RowWrites

/-! Sequences of statements in one text. `sqlparser` reads them one by one; the own parser looks at the start of the whole
text, gives one statement and drops what follows. -/

namespace HelionDb

open Parsed

/-- The text of a sequence of statements. -/
def sequenceText (parts : List (List Char)) : List Char := List.intercalate [';'] parts

section

variable [UpperCasing]

/-- A clause that starts with ENGINE and has a word behind it. -/
def EngineClauseReads (clause : List Char) : Prop :=
  let clause := trim (trimSemicolons (trim clause))
  startsWith "ENGINE".toList (upperText clause) = true ∧
    ∃ rest, fromByte 6 clause = some rest ∧ splitWhitespace (engineRhs rest) ≠ []

theorem reads_parseEngineClause_iff (clause : List Char) :
    Reads (parseEngineClause clause) ↔ EngineClauseReads clause := by
  rw [parseEngineClause, EngineClauseReads]
  dsimp only
  generalize trim (trimSemicolons (trim clause)) = clause
  cases startsWith "ENGINE".toList (upperText clause) with
  | false => exact iff_of_false (not_reads_throw _) fun h => Bool.false_ne_true h.1
  | true =>
      rw [Bool.not_true, if_neg Bool.false_ne_true, and_iff_right rfl, reads_cut_iff]
      refine exists_congr fun rest => and_congr_right fun _ => ?_
      rw [← engineRhs]
      cases splitWhitespace (engineRhs rest) with
      | nil => exact iff_of_false (not_reads_throw _) fun h => h rfl
      | cons word more => exact iff_of_true (reads_pure _) (List.cons_ne_nil word more)

/-- An ALTER TABLE text with one word before the last ENGINE and one behind it. -/
def AlterTableReads (sql : List Char) : Prop :=
  let sql := trim (trimSemicolons (trim sql))
  IsBoundary 12 sql ∧ ∃ pos name table clause, byteRfind " ENGINE".toList (upperText sql) = some pos ∧
    betweenBytes 12 pos sql = some name ∧ splitWhitespace (trim name) = [table] ∧ fromByte pos sql = some clause ∧
    EngineClauseReads (trim clause)

theorem reads_parseAlterTableEngine_iff (sql : List Char) :
    Reads (parseAlterTableEngine sql) ↔ AlterTableReads sql := by
  rw [parseAlterTableEngine, AlterTableReads]
  generalize trim (trimSemicolons (trim sql)) = sql
  split
  next hstart =>
    rw [Option.isNone_iff_eq_none, ← Option.not_isSome_iff_eq_none, isSome_fromByte_iff] at hstart
    exact iff_of_false (not_reads_throw _) fun h => hstart h.1
  next hstart =>
    rw [Option.isNone_iff_eq_none, ← Ne, Option.ne_none_iff_isSome, isSome_fromByte_iff] at hstart
    rw [and_iff_right hstart]
    constructor
    · intro h
      split at h
      next => exact absurd h (not_reads_throw _)
      next pos hpos =>
        obtain ⟨name, hname, h⟩ := reads_cut_iff.mp h
        split at h
        next => exact absurd h (not_reads_throw _)
        next table htable =>
          obtain ⟨clause, hclause, h⟩ := reads_cut_iff.mp h
          rw [reads_bind_iff_of_reads fun _ => reads_pure _, reads_parseEngineClause_iff] at h
          exact ⟨pos, name, table, clause, hpos, hname, htable, hclause, h⟩
        next => exact absurd h (not_reads_throw _)
    · rintro ⟨pos, name, table, clause, hpos, hname, htable, hclause, h⟩
      rw [hpos]
      refine reads_cut_iff.mpr ⟨name, hname, ?_⟩
      rw [htable]
      refine reads_cut_iff.mpr ⟨clause, hclause, ?_⟩
      rwa [reads_bind_iff_of_reads fun _ => reads_pure _, reads_parseEngineClause_iff]

section

variable [Rendering] [SqlExprText] [SqlTableText] [SqlParser] (uuidv7 : BitVec 128)

/-- A CREATE TABLE text with a clause at its last ENGINE, the text before which `sqlparser` reads and whose statements are
converted. -/
def CreateTableReads (sql : List Char) : Prop :=
  let sql := trim (trimSemicolons (trim sql))
  ∃ pos front back parsed, byteRfind " ENGINE".toList (upperText sql) = some pos ∧ uptoByte pos sql = some front ∧
    fromByte pos sql = some back ∧ EngineClauseReads (trim back) ∧ SqlParser.parseSql (trim front) = .ok parsed ∧
    ∀ stmt ∈ parsed, ∃ statement, convertStatement uuidv7 stmt = .ok statement

theorem reads_parseCreateTableWithEngine_iff (sql : List Char) :
    Reads (parseCreateTableWithEngine uuidv7 sql) ↔ CreateTableReads uuidv7 sql := by
  have hconverts (engine : String) (parsed : List SqlStatement) :
      (∃ statements, (parsed.mapM fun stmt => (convertStatement uuidv7 stmt).map (setEngine engine)) = .ok statements) ↔
        ∀ stmt ∈ parsed, ∃ statement, convertStatement uuidv7 stmt = .ok statement := by
    rw [exists_mapM_ok_iff]
    refine forall₂_congr fun stmt _ => ?_
    cases convertStatement uuidv7 stmt with
    | error err => exact iff_of_false nofun nofun
    | ok statement => exact iff_of_true ⟨_, rfl⟩ ⟨_, rfl⟩
  constructor
  · rintro ⟨statements, h⟩
    obtain ⟨pos, front, back, engine, parsed, hpos, hfront, hback, hengine, hparsed, hstatements⟩ :=
      (parseCreateTableWithEngine_eq_pure_iff uuidv7).mp h
    exact ⟨pos, front, back, parsed, hpos, hfront, hback, (reads_parseEngineClause_iff _).mp ⟨engine, hengine⟩, hparsed,
      (hconverts engine parsed).mp ⟨statements, hstatements⟩⟩
  · rintro ⟨pos, front, back, parsed, hpos, hfront, hback, hclause, hparsed, hconvert⟩
    obtain ⟨engine, hengine⟩ := (reads_parseEngineClause_iff _).mpr hclause
    obtain ⟨statements, hstatements⟩ := (hconverts engine parsed).mpr hconvert
    exact ⟨statements, (parseCreateTableWithEngine_eq_pure_iff uuidv7).mpr
      ⟨pos, front, back, engine, parsed, hpos, hfront, hback, hengine, hparsed, hstatements⟩⟩

/-! ### Sequences -/

/-- How `sqlparser` reads a sequence of statements: as its parts, each of which it reads as one statement or not at all, and
without the white space and the semicolons around it; a part that starts with CREATE TABLE as a table, and a beginning of it
as one statement, if at all; and a beginning of the sequence that leaves out the last part as fewer statements. -/
structure ReadsParts (parts : List (List Char)) : Prop where
  sequence : ∀ statements, SqlParser.parseSql (sequenceText parts) = .ok statements ↔
    List.Forall₂ (fun part stmt => SqlParser.parseSql part = .ok [stmt]) parts statements
  trimmed : ∀ statements, SqlParser.parseSql (trimSemicolons (trim (sequenceText parts))) = .ok statements →
    SqlParser.parseSql (sequenceText parts) = .ok statements
  table : ∀ part ∈ parts, startsWith "CREATE TABLE ".toList (upperText (trim part)) = true →
    ∀ stmt, SqlParser.parseSql part = .ok [stmt] → ∃ create, stmt = .createTable create
  beginning : ∀ part ∈ parts, startsWith "CREATE TABLE ".toList (upperText (trim part)) = true →
    ∀ front, front <+: trim part → front ≠ [] → ∀ statements, SqlParser.parseSql (trim front) = .ok statements →
      ∃ stmt, statements = [stmt]
  fewer : ∀ front, front <+: trimStart (sequenceText parts.dropLast) → ∀ statements,
    SqlParser.parseSql (trim front) = .ok statements → parts.length ≤ 1 ∨ statements.length < parts.length

/-- A sequence is refused, or each part gives the statement that it gives on its own. -/
def SequenceKept (parts : List (List Char)) : Prop :=
  (∃ err, parse uuidv7 (sequenceText parts) = throw err) ∨
    ∃ statements, parse uuidv7 (sequenceText parts) = pure statements ∧
      List.Forall₂ (fun part statement => parse uuidv7 part = pure [statement]) parts statements

/-- A text that is cut where it can be cut, and of which a parser that gives one statement reads none, unless it is one; and
where the statements are read one by one, none that looks like one with an ENGINE clause. -/
def SequenceFits (parts : List (List Char)) : Prop :=
  let text := sequenceText parts
  ParseFits uuidv7 text ∧
    if looksLikeCreateTableWithEngine (trim text) then CreateTableReads uuidv7 (trim text) → parts.length = 1
    else if looksLikeAlterTableEngine (trim text) then AlterTableReads (trim text) → parts.length = 1
    else (FallsBack uuidv7 text → CustomReads text → parts.length = 1) ∧
      (¬ FallsBack uuidv7 text → ∀ part ∈ parts,
        looksLikeCreateTableWithEngine (trim part) = false ∧ looksLikeAlterTableEngine (trim part) = false)

/-- A sequence of which the tables have one engine, and the last ENGINE stands in the last part, after a table at its start. -/
def SharesClause (parts : List (List Char)) : Prop :=
  let text := sequenceText parts
  let sql := trim (trimSemicolons (trim (trim text)))
  looksLikeCreateTableWithEngine (trim text) = true ∧
    (∃ engine, ∀ part ∈ parts, ∀ name columns given,
      parse uuidv7 part = pure [.createTable name columns given] → given = some engine) ∧
    ∀ pos front, byteRfind " ENGINE".toList (upperText sql) = some pos → uptoByte pos sql = some front →
      ¬ front <+: trimStart (sequenceText parts.dropLast)

variable {parts : List (List Char)}

theorem sequenceKept_iff :
    SequenceKept uuidv7 parts ↔ Returns (parse uuidv7 (sequenceText parts)) ∧
      ∀ statements, parse uuidv7 (sequenceText parts) = pure statements →
        List.Forall₂ (fun part statement => parse uuidv7 part = pure [statement]) parts statements := by
  rw [SequenceKept]
  rcases parse uuidv7 (sequenceText parts) with _ | (err | statements)
  · refine iff_of_false ?_ fun h => h.1 rfl
    rintro (⟨err, herr⟩ | ⟨statements, hstatements, -⟩)
    · cases herr
    · cases hstatements
  · exact iff_of_true (.inl ⟨err, rfl⟩) ⟨nofun, nofun⟩
  · constructor
    · rintro (⟨err, herr⟩ | ⟨_, hstatements, hparts⟩)
      · cases herr
      · refine ⟨nofun, fun other hother => ?_⟩
        rw [← pure_inj hother, pure_inj hstatements]
        exact hparts
    · rintro ⟨-, h⟩
      exact .inr ⟨statements, rfl, h statements rfl⟩

/-- One statement is the one of a sequence of one. -/
theorem forall₂_singleton_iff {statement : HelionStatement}
    (h : parse uuidv7 (sequenceText parts) = pure [statement]) :
    List.Forall₂ (fun part statement => parse uuidv7 part = pure [statement]) parts [statement] ↔ parts.length = 1 := by
  constructor
  · exact fun hparts => hparts.length_eq
  · intro hlength
    obtain ⟨part, rfl⟩ := List.length_eq_one_iff.mp hlength
    rw [sequenceText, List.intercalate_singleton] at h
    exact .cons h .nil

/-- Where one statement is given at most. -/
theorem kept_iff_of_single
    (hsingle : Yields (fun statements => ∃ statement, statements = [statement]) (parse uuidv7 (sequenceText parts))) :
    (∀ statements, parse uuidv7 (sequenceText parts) = pure statements →
      List.Forall₂ (fun part statement => parse uuidv7 part = pure [statement]) parts statements) ↔
        (Reads (parse uuidv7 (sequenceText parts)) → parts.length = 1) := by
  constructor
  · rintro h ⟨statements, hstatements⟩
    exact (h statements hstatements).length_eq.trans (by obtain ⟨_, rfl⟩ := hsingle _ hstatements; rfl)
  · intro h statements hstatements
    obtain ⟨statement, rfl⟩ := hsingle _ hstatements
    exact (forall₂_singleton_iff uuidv7 hstatements).mpr (h ⟨_, hstatements⟩)

omit [UpperCasing] [Rendering] [SqlExprText] [SqlTableText] [SqlParser] in
theorem IsOwn.single {statements : List HelionStatement} (h : IsOwn statements) :
    ∃ statement, statements = [statement] := by
  obtain ⟨statement, hstatement, -⟩ := h
  exact ⟨statement, hstatement⟩

/-- An EXPLAIN that is left to the own parser is refused again. -/
theorem not_reads_parseExplain (hparts : ReadsParts parts) (hfall : FallsBack uuidv7 (sequenceText parts)) :
    ¬ Reads (parseExplain (trimSemicolons (trim (sequenceText parts)))) := by
  rintro ⟨statements, h⟩
  rw [parseExplain] at h
  split at h
  next => cases h
  next parsed hparsed =>
    obtain ⟨err, herr⟩ := hfall parsed (hparts.trimmed parsed hparsed)
    obtain ⟨converted, hconverted⟩ : ∃ converted, parsed.mapM (convertStatement uuidv7) = .ok converted := by
      refine exists_mapM_ok_iff.mpr fun stmt hstmt => ?_
      obtain ⟨result, hresult⟩ := exists_mapM_ok_iff.mp ⟨statements, Option.some.inj h⟩ stmt hstmt
      split at hresult
      next => exact ⟨_, rfl⟩
      next => cases hresult
    rw [hconverted] at herr
    cases herr

theorem kept_iff_of_fallsBack (hparts : ReadsParts parts)
    (hcreate : looksLikeCreateTableWithEngine (trim (sequenceText parts)) = false)
    (halter : looksLikeAlterTableEngine (trim (sequenceText parts)) = false)
    (hfall : FallsBack uuidv7 (sequenceText parts)) :
    (∀ statements, parse uuidv7 (sequenceText parts) = pure statements →
      List.Forall₂ (fun part statement => parse uuidv7 part = pure [statement]) parts statements) ↔
        (CustomReads (sequenceText parts) → parts.length = 1) := by
  have hexplain := not_reads_parseExplain uuidv7 hparts hfall
  have hparse := parse_of_fallsBack uuidv7 hcreate halter hfall
  have hsingle :
      Yields (fun statements => ∃ statement, statements = [statement]) (parse uuidv7 (sequenceText parts)) := by
    rw [hparse]
    cases htable : startsWith "CREATE TABLE ".toList (trim (upperText (trimSemicolons (trim (sequenceText parts))))) with
    | true =>
        refine yields_of_not_reads fun hreads => ?_
        rw [reads_parseCustom_iff uuidv7 hcreate halter hexplain, CustomReads, if_pos htable] at hreads
        exact hreads
    | false => exact yields_parseCustom uuidv7 (fun _ => IsOwn.single) htable (yields_of_not_reads hexplain)
  rw [kept_iff_of_single uuidv7 hsingle, hparse, reads_parseCustom_iff uuidv7 hcreate halter hexplain]

theorem kept_iff_of_not_fallsBack (hparts : ReadsParts parts)
    (hcreate : looksLikeCreateTableWithEngine (trim (sequenceText parts)) = false)
    (halter : looksLikeAlterTableEngine (trim (sequenceText parts)) = false)
    (hfall : ¬ FallsBack uuidv7 (sequenceText parts)) :
    (∀ statements, parse uuidv7 (sequenceText parts) = pure statements →
      List.Forall₂ (fun part statement => parse uuidv7 part = pure [statement]) parts statements) ↔
        ∀ part ∈ parts,
          looksLikeCreateTableWithEngine (trim part) = false ∧ looksLikeAlterTableEngine (trim part) = false := by
  rw [FallsBack] at hfall
  push Not at hfall
  obtain ⟨parsed, hparsed, hconverts⟩ := hfall
  cases hconverted : parsed.mapM (convertStatement uuidv7) with
  | error err => exact absurd hconverted (hconverts err)
  | ok converted =>
      have hparse : parse uuidv7 (sequenceText parts) = pure converted := by
        rw [parse, hcreate, halter, if_neg Bool.false_ne_true, if_neg Bool.false_ne_true, hparsed]
        dsimp only
        rw [hconverted]
      have hall : (∀ statements, parse uuidv7 (sequenceText parts) = pure statements →
          List.Forall₂ (fun part statement => parse uuidv7 part = pure [statement]) parts statements) ↔
            List.Forall₂ (fun part statement => parse uuidv7 part = pure [statement]) parts converted := by
        constructor
        · exact fun h => h converted hparse
        · intro h statements hstatements
          rw [← pure_inj (hparse.symm.trans hstatements)]
          exact h
      rw [hall]
      have hboth := forall₂_trans ((hparts.sequence parsed).mp hparsed) (mapM_ok_iff_forall₂.mp hconverted)
      refine forall₂_iff_of_forall₂ hboth ?_
      rintro part hpart statement ⟨stmt, hstmt, hstatement⟩
      exact parse_converted_iff uuidv7 hstmt (fun hstart => hparts.table part hpart hstart stmt hstmt) hstatement

/-! ### Sequences with an ENGINE clause -/

theorem kept_iff_of_alterTable (hcreate : looksLikeCreateTableWithEngine (trim (sequenceText parts)) = false)
    (halter : looksLikeAlterTableEngine (trim (sequenceText parts)) = true) :
    (∀ statements, parse uuidv7 (sequenceText parts) = pure statements →
      List.Forall₂ (fun part statement => parse uuidv7 part = pure [statement]) parts statements) ↔
        (AlterTableReads (trim (sequenceText parts)) → parts.length = 1) := by
  have hparse : parse uuidv7 (sequenceText parts) = parseAlterTableEngine (trim (sequenceText parts)) := by
    rw [parse, hcreate, if_neg Bool.false_ne_true, if_pos halter]
  have hsingle :
      Yields (fun statements => ∃ statement, statements = [statement]) (parse uuidv7 (sequenceText parts)) := by
    rw [hparse]
    refine (yields_parseAlterTableEngine _).mono ?_
    rintro statements ⟨_, _, h⟩
    exact ⟨_, h⟩
  rw [kept_iff_of_single uuidv7 hsingle, hparse, reads_parseAlterTableEngine_iff]

/-- A part with an ENGINE clause gives one statement. -/
theorem kept_of_createTable (hparts : ReadsParts parts)
    (hcreate : looksLikeCreateTableWithEngine (trim (sequenceText parts)) = true)
    (hone : CreateTableReads uuidv7 (trim (sequenceText parts)) → parts.length = 1) {statements : List HelionStatement}
    (h : parse uuidv7 (sequenceText parts) = pure statements) :
    List.Forall₂ (fun part statement => parse uuidv7 part = pure [statement]) parts statements := by
  have hread := h
  rw [parse, if_pos hcreate] at hread
  obtain ⟨part, rfl⟩ := List.length_eq_one_iff.mp (hone ((reads_parseCreateTableWithEngine_iff uuidv7 _).mp ⟨_, hread⟩))
  obtain ⟨pos, front, back, engine, parsed, hpos, hfront, -, -, hparsed, hstatements⟩ :=
    (parseCreateTableWithEngine_eq_pure_iff uuidv7).mp hread
  have htext : sequenceText [part] = part := List.intercalate_singleton
  rw [htext] at hcreate hpos hfront
  rw [looksLikeCreateTableWithEngine, Bool.and_eq_true] at hcreate
  obtain ⟨after, hsplit, hbytes⟩ := uptoByte_eq_some_iff.mp hfront
  have hleads : front <+: trim part := by
    have hcut : front <+: trim (trimSemicolons (trim (trim part))) := ⟨after, hsplit.symm⟩
    exact hcut.trans (trim_trimSemicolons_isPrefix (head?_trim part))
  have hne : front ≠ [] := by
    rintro rfl
    obtain ⟨before, rest, hupper, hbefore⟩ := exists_of_byteRfind hpos
    cases before with
    | nil =>
        have hspace := head?_upperText (head?_trim (trimSemicolons (trim (trim part)))) ' ' (by rw [hupper]; rfl)
        cases hspace
    | cons c before =>
        rw [← hbytes, byteLength_cons] at hbefore
        have hpos := c.utf8Size_pos
        rw [byteLength_nil] at hbefore
        omega
  obtain ⟨stmt, rfl⟩ := hparts.beginning part List.mem_cons_self hcreate.1 front hleads hne parsed hparsed
  obtain ⟨statement, rfl⟩ : ∃ statement, statements = [statement] := by
    have hlength := (mapM_ok_iff_forall₂.mp hstatements).length_eq
    exact List.length_eq_one_iff.mp hlength.symm
  exact (forall₂_singleton_iff uuidv7 h).mpr rfl

/-- Several parts that an ENGINE clause is read of share it, if each gives what it gives on its own. -/
theorem sharesClause_of_kept (hparts : ReadsParts parts)
    (hcreate : looksLikeCreateTableWithEngine (trim (sequenceText parts)) = true)
    (hkept : ∀ statements, parse uuidv7 (sequenceText parts) = pure statements →
      List.Forall₂ (fun part statement => parse uuidv7 part = pure [statement]) parts statements)
    (hreads : CreateTableReads uuidv7 (trim (sequenceText parts))) (hmany : parts.length ≠ 1) :
    SharesClause uuidv7 parts := by
  obtain ⟨statements, hread⟩ := (reads_parseCreateTableWithEngine_iff uuidv7 _).mpr hreads
  have hall := hkept statements (by rw [parse, if_pos hcreate, hread])
  obtain ⟨pos, front, back, engine, parsed, hpos, hfront, -, -, hparsed, hstatements⟩ :=
    (parseCreateTableWithEngine_eq_pure_iff uuidv7).mp hread
  refine ⟨hcreate, ⟨engine, fun part hpart name columns given hgiven => ?_⟩, fun pos' front' hpos' hfront' hleads => ?_⟩
  · obtain ⟨statement, hstatement, hparse⟩ := exists_of_mem_forall₂ hall hpart
    obtain rfl := List.singleton_inj.mp (pure_inj (hparse.symm.trans hgiven))
    obtain ⟨stmt, -, hstmt⟩ := Loop.exists_of_mapM_ok hstatements hstatement
    cases hconvert : convertStatement uuidv7 stmt with
    | error err =>
        rw [hconvert] at hstmt
        cases hstmt
    | ok converted =>
        rw [hconvert] at hstmt
        exact (setEngine_eq_createTable (Except.ok.inj hstmt)).1
  · obtain rfl := Option.some.inj (hpos.symm.trans hpos')
    obtain rfl := Option.some.inj (hfront.symm.trans hfront')
    have hcount : parsed.length = statements.length := (mapM_ok_iff_forall₂.mp hstatements).length_eq
    have hlength := hall.length_eq
    rcases hparts.fewer front hleads parsed hparsed with hone | hfewer
    · cases parts with
      | nil =>
          rw [show sequenceText [] = [] from rfl] at hcreate
          cases hcreate
      | cons part rest =>
          rw [List.length_cons] at hone hmany
          omega
    · omega

/-- Each statement of a sequence is given as on its own, or the sequence is refused, where the text fits; and there alone,
unless the parts share an ENGINE clause. -/
theorem sequenceKept_of_fits (hparts : ReadsParts parts) :
    (SequenceFits uuidv7 parts → SequenceKept uuidv7 parts) ∧
      (¬ SharesClause uuidv7 parts → SequenceKept uuidv7 parts → SequenceFits uuidv7 parts) := by
  rw [sequenceKept_iff, returns_parse_iff, SequenceFits]
  cases hcreate : looksLikeCreateTableWithEngine (trim (sequenceText parts)) with
  | true =>
      rw [if_pos rfl]
      constructor
      · rintro ⟨hfits, hone⟩
        exact ⟨hfits, fun statements h => kept_of_createTable uuidv7 hparts hcreate hone h⟩
      · rintro hshares ⟨hfits, hkept⟩
        refine ⟨hfits, fun hreads => ?_⟩
        by_contra hmany
        exact hshares (sharesClause_of_kept uuidv7 hparts hcreate hkept hreads hmany)
  | false =>
      have hkept : (∀ statements, parse uuidv7 (sequenceText parts) = pure statements →
          List.Forall₂ (fun part statement => parse uuidv7 part = pure [statement]) parts statements) ↔
            if looksLikeAlterTableEngine (trim (sequenceText parts)) then
              AlterTableReads (trim (sequenceText parts)) → parts.length = 1
            else (FallsBack uuidv7 (sequenceText parts) → CustomReads (sequenceText parts) → parts.length = 1) ∧
              (¬ FallsBack uuidv7 (sequenceText parts) → ∀ part ∈ parts,
                looksLikeCreateTableWithEngine (trim part) = false ∧ looksLikeAlterTableEngine (trim part) = false) := by
        cases halter : looksLikeAlterTableEngine (trim (sequenceText parts)) with
        | true => exact kept_iff_of_alterTable uuidv7 hcreate halter
        | false =>
            rw [if_neg Bool.false_ne_true]
            by_cases hfall : FallsBack uuidv7 (sequenceText parts)
            · rw [imp_iff_right hfall, and_iff_left fun h => absurd hfall h]
              exact kept_iff_of_fallsBack uuidv7 hparts hcreate halter hfall
            · rw [imp_iff_right hfall, and_iff_right fun h => absurd h hfall]
              exact kept_iff_of_not_fallsBack uuidv7 hparts hcreate halter hfall
      rw [hkept, if_neg Bool.false_ne_true]
      exact ⟨id, fun _ => id⟩

end

end

namespace DropTables

/-- A stand-in that reads two statements, alone and in a sequence. -/
scoped instance (priority := 2000) sqlParser : SqlParser where
  parseSql sql :=
    if trim sql = "DROP TABLE a".toList then .ok [.drop true false ["a"]]
    else if trim sql = "DROP TABLE b".toList then .ok [.drop true false ["b"]]
    else if trim sql = "DROP TABLE a; DROP TABLE b".toList then .ok [.drop true false ["a"], .drop true false ["b"]]
    else .error "sql parser error"
  debug _ := "statement"

open AsciiCase PlainText

theorem sequenceKept_drops : SequenceKept 0 ["DROP TABLE a".toList, " DROP TABLE b".toList] := by
  have hsmall : ∀ part ∈ ["DROP TABLE a".toList, " DROP TABLE b".toList],
      ¬ startsWith "CREATE TABLE ".toList (upperText (trim part)) = true := by decide
  have hfall : ¬ FallsBack 0 (sequenceText ["DROP TABLE a".toList, " DROP TABLE b".toList]) := by
    intro h
    obtain ⟨err, herr⟩ := h _ rfl
    cases herr
  have hparts : ReadsParts ["DROP TABLE a".toList, " DROP TABLE b".toList] := by
    refine ⟨fun statements => ?_, fun statements h => h, ?_, ?_, fun front hfront statements h => .inr ?_⟩
    · constructor
      · intro h
        rw [← Except.ok.inj h]
        exact .cons rfl (.cons rfl .nil)
      · rintro (_ | ⟨hfirst, _ | ⟨hsecond, ⟨⟩⟩⟩)
        rw [← List.singleton_inj.mp (Except.ok.inj hfirst), ← List.singleton_inj.mp (Except.ok.inj hsecond)]
        rfl
    · exact fun part hpart hstart => absurd hstart (hsmall part hpart)
    · exact fun part hpart hstart => absurd hstart (hsmall part hpart)
    · have hshort : (trim (trim front)).length ≤ 12 :=
        ((trim_sublist _).trans (trim_sublist front)).length_le.trans hfront.length_le
      change (if trim (trim front) = "DROP TABLE a".toList then _ else if trim (trim front) = "DROP TABLE b".toList then _
        else if trim (trim front) = "DROP TABLE a; DROP TABLE b".toList then _ else _) = Except.ok statements at h
      split_ifs at h with ha hb hboth
      · rw [← Except.ok.inj h]
        decide
      · rw [← Except.ok.inj h]
        decide
      · rw [hboth] at hshort
        exact absurd hshort (by decide)
  exact (sequenceKept_of_fits 0 hparts).1 ⟨fun h => absurd h hfall, fun h => absurd h hfall, fun _ => by decide⟩

/-- The second statement is dropped. -/
theorem not_sequenceKept :
    parse 0 (sequenceText ["CREATE USER a PASSWORD 'x'".toList, " DROP TABLE b".toList]) = pure [.createUser "a" "x"] ∧
      parse 0 " DROP TABLE b".toList = pure [.dropTable "b" false] ∧
        ¬ SequenceKept 0 ["CREATE USER a PASSWORD 'x'".toList, " DROP TABLE b".toList] := by
  have hparse :
      parse 0 (sequenceText ["CREATE USER a PASSWORD 'x'".toList, " DROP TABLE b".toList]) = pure [.createUser "a" "x"] :=
    rfl
  refine ⟨hparse, rfl, fun hkept => ?_⟩
  have hparts := ((sequenceKept_iff 0).mp hkept).2 _ hparse
  exact absurd hparts.length_eq (by decide)

end DropTables

end HelionDb
