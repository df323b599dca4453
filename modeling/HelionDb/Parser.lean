import HelionDb.ByteOffsets
import HelionDb.Catalog
import HelionDb.SqlStatement

/-! The parser of `parser.rs`. A text goes to `sqlparser`, and to a parser of its own if that does not read it or its
statements are not converted; ENGINE clauses are cut off before. The own parser looks for keywords in the upper-cased text
and cuts the text itself at the positions that it finds. -/

namespace HelionDb

/-- `char::to_uppercase`, by which texts are mapped character by character. A white space is its own upper case, and
nothing else becomes a white space or vanishes. -/
class UpperCasing extends CaseMapping where
  upper : Char → List Char
  toUppercase_eq : ∀ text, toUppercase text = String.ofList (text.toList.flatMap upper)
  upper_whitespace : ∀ c, isWhitespace c = true → upper c = [c]
  upper_ne_nil : ∀ c, upper c ≠ []
  isWhitespace_of_mem_upper : ∀ c, isWhitespace c = false → ∀ d ∈ upper c, isWhitespace d = false

theorem toNat_toUpper (c : Char) :
    c.toUpper.toNat = if 97 ≤ c.toNat ∧ c.toNat ≤ 122 then c.toNat - 32 else c.toNat := by
  unfold Char.toUpper
  have hlower : (c.val ≥ 'a'.val ∧ c.val ≤ 'z'.val) ↔ (97 ≤ c.toNat ∧ c.toNat ≤ 122) := by
    simp only [ge_iff_le, UInt32.le_iff_toNat_le]
    rfl
  split
  · rename_i h
    rw [if_pos (hlower.mp h)]
    change (c.val + (65 - 97)).toNat = c.val.toNat - 32
    have hle : 97 ≤ c.val.toNat := (hlower.mp h).1
    have hge : c.val.toNat ≤ 122 := (hlower.mp h).2
    rw [UInt32.toNat_add, show (65 - 97 : UInt32).toNat = 2 ^ 32 - 32 from rfl]
    omega
  · rename_i h
    rw [if_neg fun hrange => h (hlower.mpr hrange)]

namespace AsciiCase

private theorem isWhitespace_of_graphic {c : Char} (hlow : 0x20 < c.toNat) (hhigh : c.toNat < 0x85) :
    isWhitespace c = false := by
  simp [isWhitespace]
  omega

private theorem toUpper_eq_or (c : Char) : c.toUpper = c ∨ isWhitespace c = false ∧ isWhitespace c.toUpper = false := by
  have hupper := toNat_toUpper c
  by_cases hlower : 97 ≤ c.toNat ∧ c.toNat ≤ 122
  · rw [if_pos hlower] at hupper
    exact .inr ⟨isWhitespace_of_graphic (by omega) (by omega), isWhitespace_of_graphic (by omega) (by omega)⟩
  · rw [if_neg hlower] at hupper
    exact .inl (Char.toNat_inj.mp hupper)

/-- Capitals are no white space, and small letters are none. -/
theorem isWhitespace_toUpper (c : Char) : isWhitespace c.toUpper = isWhitespace c := by
  rcases toUpper_eq_or c with h | ⟨hc, hupper⟩
  · rw [h]
  · rw [hc, hupper]

/-- The mapping on ASCII alone, character by character. -/
scoped instance upperCasing : UpperCasing where
  toCaseMapping := mapping
  upper c := [c.toUpper]
  toUppercase_eq text := by
    show String.ofList (text.toList.map Char.toUpper) = _
    rw [List.map_eq_flatMap]
  upper_whitespace c hc := by
    rcases toUpper_eq_or c with h | ⟨h, -⟩
    · rw [h]
    · rw [hc] at h
      cases h
  upper_ne_nil _ := nofun
  isWhitespace_of_mem_upper c hc d hd := by
    rw [List.mem_singleton.mp hd, isWhitespace_toUpper, hc]

end AsciiCase

/-- `Parser::parse_sql` of the crate `sqlparser` with its PostgreSQL dialect, and the `{:?}` of a statement. -/
class SqlParser where
  parseSql : List Char → Except String (List SqlStatement)
  debug : SqlStatement → String

namespace PlainText

/-- A stand-in that reads no statement; opened where the own parser is run. -/
scoped instance sqlParser : SqlParser where
  parseSql _ := .error "sql parser error"
  debug _ := "statement"

end PlainText

/-- What a call ends in: a value or an error, or `none` where it panics. -/
abbrev Parsed (α : Type) := ExceptT HelionError Option α

namespace Parsed

variable {α β : Type}

/-- A result, without a panic. -/
def ofExcept (result : Except HelionError α) : Parsed α := some result

/-- A cut that works. -/
theorem some_bind (value : α) (next : α → Parsed β) : (liftM (some value) : Parsed α) >>= next = next value := rfl

/-- A cut that panics. -/
theorem none_bind (next : α → Parsed β) : (liftM (none : Option α) : Parsed α) >>= next = (none : Option _) := rfl

/-- Two steps end in a value when the first does and the second does with what it ended in. -/
theorem bind_eq_pure_iff {first : Parsed α} {next : α → Parsed β} {result : β} :
    first >>= next = pure result ↔ ∃ value, first = pure value ∧ next value = pure result := by
  rcases first with _ | (_ | value)
  · exact iff_of_false nofun nofun
  · exact iff_of_false nofun nofun
  · constructor
    · intro h
      exact ⟨value, rfl, h⟩
    · rintro ⟨other, hother, h⟩
      obtain rfl := Except.ok.inj (Option.some.inj hother)
      exact h

theorem bind_pure_iff {f : α → β} (hf : Function.Injective f) {first : Parsed α} {value : α} :
    (first >>= fun result => pure (f result)) = pure (f value) ↔ first = pure value := by
  rw [bind_eq_pure_iff]
  constructor
  · rintro ⟨other, hfirst, hother⟩
    rw [hfirst, hf (Except.ok.inj (Option.some.inj hother))]
  · intro h
    exact ⟨value, h, rfl⟩

theorem pure_inj {value other : α} (h : (pure value : Parsed α) = pure other) : value = other :=
  Except.ok.inj (Option.some.inj h)

end Parsed

/-- `str::to_uppercase`. -/
def upperText [UpperCasing] (text : List Char) : List Char := text.flatMap UpperCasing.upper

/-- `str::starts_with`. -/
def startsWith (pattern text : List Char) : Bool := pattern.isPrefixOf text

/-- `str::contains`. -/
def containsText (pattern text : List Char) : Bool := (byteFind pattern text).isSome

/-- `str::strip_prefix`. -/
def stripPrefix (pattern text : List Char) : Option (List Char) :=
  if startsWith pattern text then some (text.drop pattern.length) else none

/-- `str::trim_start`. -/
def trimStart (text : List Char) : List Char := text.dropWhile isWhitespace

/-- `trim_end_matches(';')`. -/
def trimSemicolons (text : List Char) : List Char := text.rdropWhile (· = ';')

/-- ``trim_matches('`')``. -/
def trimBackticks (text : List Char) : List Char := (text.dropWhile (· = '\x60')).rdropWhile (· = '\x60')

/-- `str::split_whitespace`. -/
def splitWhitespace (text : List Char) : List (List Char) :=
  (text.splitOnP isWhitespace).filter fun word => !word.isEmpty

/-- `text[from..to]`. -/
def betweenBytes (start stop : Nat) (text : List Char) : Option (List Char) :=
  if start ≤ stop then (uptoByte stop text).bind (fromByte start) else none

/-- The names of a list that commas separate. -/
def splitNames (text : List Char) : List String :=
  (((text.splitOn ',').map trim).filter fun name => !name.isEmpty).map String.ofList

/-! ### Engine clauses -/

section

variable [UpperCasing]

def parseEngineClause (clause : List Char) : Parsed String :=
  let clause := trim (trimSemicolons (trim clause))
  let upper := upperText clause
  if !startsWith "ENGINE".toList upper then throw (.parse "Expected ENGINE clause")
  else do
    let rhs ← fromByte 6 clause
    let rhs := trim rhs
    let rhs := trim ((stripPrefix ['='] rhs).getD rhs)
    match (splitWhitespace rhs).head? with
    | none => throw (.parse "Expected engine name")
    | some engine => return String.ofList (trimBackticks engine)

def looksLikeCreateTableWithEngine (sql : List Char) : Bool :=
  let upper := upperText sql
  startsWith "CREATE TABLE ".toList upper && containsText " ENGINE".toList upper

def looksLikeAlterTableEngine (sql : List Char) : Bool :=
  let upper := upperText sql
  startsWith "ALTER TABLE ".toList upper && containsText " ENGINE".toList upper

/-- The engine that a converted table gets. -/
def setEngine (engine : String) : HelionStatement → HelionStatement
  | .createTable name columns _ => .createTable name columns (some engine)
  | other => other

variable [Rendering] [SqlExprText] [SqlTableText] [SqlParser] (uuidv7 : BitVec 128)

def parseCreateTableWithEngine (sql : List Char) : Parsed (List HelionStatement) :=
  let sql := trim (trimSemicolons (trim sql))
  let upper := upperText sql
  match byteRfind " ENGINE".toList upper with
  | none => throw (.parse "Expected ENGINE clause in CREATE TABLE statement")
  | some enginePos => do
      let createSql ← uptoByte enginePos sql
      let engineClause ← fromByte enginePos sql
      let engine ← parseEngineClause (trim engineClause)
      match SqlParser.parseSql (trim createSql) with
      | .error err => throw (.parse err)
      | .ok statements =>
          .ofExcept (statements.mapM fun stmt => (convertStatement uuidv7 stmt).map (setEngine engine))

omit [Rendering] [SqlExprText] [SqlTableText] [SqlParser] in
def parseAlterTableEngine (sql : List Char) : Parsed (List HelionStatement) :=
  let sql := trim (trimSemicolons (trim sql))
  let upper := upperText sql
  if (fromByte 12 sql).isNone then throw (.parse "Expected ALTER TABLE statement")
  else
    match byteRfind " ENGINE".toList upper with
    | none => throw (.parse "Expected ENGINE clause in ALTER TABLE statement")
    | some enginePos => do
        let beforeEngine ← betweenBytes 12 enginePos sql
        match splitWhitespace (trim beforeEngine) with
        | [] => throw (.parse "Expected table name in ALTER TABLE statement")
        | [name] =>
            let engineClause ← fromByte enginePos sql
            let engine ← parseEngineClause (trim engineClause)
            return [.alterTableEngine (String.ofList (trimBackticks name)) engine]
        | _ => throw (.parse "Unsupported ALTER TABLE syntax")

omit [UpperCasing] [Rendering] [SqlExprText] [SqlTableText] in
def parseExplain (sql : List Char) : Parsed (List HelionStatement) :=
  match SqlParser.parseSql sql with
  | .error err => throw (.parse err)
  | .ok statements =>
      .ofExcept (statements.mapM fun stmt =>
        match stmt with
        | .explain analyze verbose statement => .ok (.explain analyze verbose statement)
        | other => .error (.parse ("Unsupported EXPLAIN statement: " ++ SqlParser.debug other)))

end

section

variable [UpperCasing]

/-- What stands between quotes, or else the first word. -/
def passwordOf (rest : List Char) : Parsed (List Char) :=
  match stripPrefix ['\''] rest with
  | some stripped => do
      let quoted ← uptoByte ((byteFindIf (· = '\'') stripped).getD (byteLength stripped)) stripped
      return quoted
  | none => return (splitWhitespace rest).head?.getD rest

def parseUserWithPassword (s : List Char) : Parsed (String × String) :=
  let s := trim (trimSemicolons (trim s))
  let upper := upperText s
  -- The more specific keyword is looked for first.
  let keywords := [" WITH PASSWORD ".toList, " PASSWORD ".toList]
  match keywords.findSome? fun kw => (byteFind kw upper).map (kw, ·) with
  | none => throw (.parse "Expected PASSWORD clause in user statement")
  | some (kw, pos) => do
      let username ← uptoByte pos s
      let rest ← fromByte (pos + byteLength kw) s
      let password ← passwordOf (trim (trimSemicolons (trim rest)))
      return (String.ofList (trim username), String.ofList password)

/-- `find_user_in_stmt`: the parser knows no users. -/
def findUserInStmt (_username : String) : Bool := false

/-- `strip_prefix` with a keyword in capitals or in small letters, or else nothing is left. -/
def stripKeyword (upperKeyword lowerKeyword sql : List Char) : List Char :=
  ((stripPrefix upperKeyword sql).or (stripPrefix lowerKeyword sql)).getD []

/-! ### Indexes -/

/-- Where the name of the index starts, behind UNIQUE or INDEX. -/
def afterIndexStart (unique : Bool) (upper : List Char) : Option Nat :=
  if unique then do
    let idx ← (byteFind "UNIQUE INDEX".toList upper).or (byteFind "UNIQUE".toList upper)
    let rest ← fromByte idx upper
    let skip := if startsWith "UNIQUE INDEX".toList rest then 12 else 6
    return idx + skip
  else ((byteFind " INDEX ".toList upper).or (byteFind "INDEX ".toList upper)).map (· + 6)

def parseCreateIndex (sql : List Char) : Parsed (List HelionStatement) :=
  let sql := trimSemicolons (trim sql)
  let upper := upperText sql
  let unique := containsText "UNIQUE".toList upper
  let ifNotExists := containsText "IF NOT EXISTS".toList upper
  do
    let start ← afterIndexStart unique upper
    let behind ← fromByte start sql
    let afterIndex := trimStart behind
    let nameRest :=
      if ifNotExists then
        ((stripPrefix "IF NOT EXISTS ".toList afterIndex).or
          (stripPrefix "if not exists ".toList afterIndex)).getD afterIndex
      else afterIndex
    let nameEnd := (byteFindIf (fun c => isWhitespace c || c = '(') nameRest).getD (byteLength nameRest)
    let name ← uptoByte nameEnd nameRest
    match byteRfind " ON ".toList upper with
    | none => throw (.parse "Expected ON table_name (col1, col2)")
    | some onPos =>
        let behindOn ← fromByte (onPos + 4) sql
        let afterOn := trim behindOn
        match byteFindIf (· = '(') afterOn with
        | none => throw (.parse "Expected column list in parentheses")
        | some parenPos =>
            let tableName ← uptoByte parenPos afterOn
            match byteRfind [')'] afterOn with
            | none => throw (.parse "Expected closing parenthesis")
            | some stop =>
                let colList ← betweenBytes (parenPos + 1) stop afterOn
                let columns := splitNames (trim colList)
                if columns.isEmpty then throw (.parse "Expected at least one column for index")
                else return [.createIndex (String.ofList name) (String.ofList (trim tableName)) columns unique ifNotExists]

def parseDropIndex (sql : List Char) : Parsed (List HelionStatement) :=
  let sql := trimSemicolons (trim sql)
  let upper := upperText sql
  let ifExists := containsText "IF EXISTS".toList upper
  let dropKw := if ifExists then "DROP INDEX IF EXISTS ".toList else "DROP INDEX ".toList
  match byteFind dropKw upper with
  | none => throw (.parse "Expected DROP INDEX statement")
  | some pos => do
      let behind ← fromByte (pos + byteLength dropKw) sql
      let afterDrop := trim behind
      match byteFind " ON ".toList (upperText afterDrop) with
      | none => throw (.parse "Expected ON table_name")
      | some onPos =>
          let name ← uptoByte onPos afterDrop
          let table ← fromByte (onPos + 4) afterDrop
          return [.dropIndex (String.ofList (trim name)) (String.ofList (trim table)) ifExists]

/-- The keywords of the permissions. -/
def permissionKeywords : List (List Char × GrantPermissionType) :=
  [("ALL".toList, .all), ("SELECT".toList, .select), ("INSERT".toList, .insert), ("UPDATE".toList, .update),
    ("DELETE".toList, .delete)]

/-- The columns in parentheses, if a list stands there, and what follows. -/
def grantColumns (rest : List Char) : Parsed (List String × List Char) :=
  if startsWith ['('] rest then
    match byteFindIf (· = ')') rest with
    | some stop => do
        let cols ← betweenBytes 1 stop rest
        let behind ← fromByte (stop + 1) rest
        return (splitNames cols, trim behind)
    | none => return ([], rest)
  else return ([], rest)

/-- The table before the keyword for the user, and what follows; `skip` is by how much the first form is skipped. -/
def grantTable (target bareTarget : List Char) (skip : Nat) (rest : List Char) : Parsed (List Char × List Char) :=
  match byteFind target (upperText rest), byteFind bareTarget (upperText rest) with
  | some pos, _ => do
      let table ← uptoByte pos rest
      let behind ← fromByte (pos + skip) rest
      return (table, behind)
  | none, some pos => do
      let table ← uptoByte pos rest
      let behind ← fromByte (pos + byteLength bareTarget) rest
      return (table, behind)
  | none, none => return (trim rest, [])

def parseGrantRevoke (sql : List Char) (isGrant : Bool) : Parsed (List HelionStatement) :=
  let action := if isGrant then "GRANT" else "REVOKE"
  let upper := upperText sql
  match byteFind action.toList upper with
  | none => throw (.parse ("Expected " ++ action ++ " keyword"))
  | some pos => do
      let behind ← fromByte (pos + byteLength action.toList) sql
      let rest := trim behind
      match permissionKeywords.find? fun keyword => startsWith keyword.1 (upperText rest) with
      | none => throw (.parse ("Unknown permission type in " ++ action ++ ": " ++ String.ofList rest))
      | some (keyword, permType) =>
          let behindPermission ← fromByte (byteLength keyword) rest
          let (columns, rest) ← grantColumns (trim behindPermission)
          if !startsWith "ON ".toList (upperText rest) then
            throw (.parse ("Expected ON in " ++ action ++ " statement"))
          else
            let behindOn ← (if 3 < byteLength rest then fromByte 3 rest else some [] : Option (List Char))
            let rest := trim behindOn
            let (tableName, rest) ←
              if isGrant then grantTable " TO ".toList " TO".toList 4 rest
              else grantTable " FROM ".toList " FROM".toList 5 rest
            let tableName := String.ofList (trimSemicolons (trim tableName))
            let username := trim (trimSemicolons (trim rest))
            if username.isEmpty then throw (.parse ("Expected username in " ++ action ++ " statement"))
            else if isGrant then return [.grant (String.ofList username) tableName columns permType]
            else return [.revoke (String.ofList username) tableName columns permType]

end

section

variable [UpperCasing] [Rendering] [SqlExprText] [SqlTableText] [SqlParser] (uuidv7 : BitVec 128)

/-- `parse_custom`. -/
def parseCustom (sql : List Char) : Parsed (List HelionStatement) :=
  let sql := trimSemicolons (trim sql)
  let upper := trim (upperText sql)
  if startsWith "CREATE TABLE ".toList upper then parseCreateTableWithEngine uuidv7 sql
  else if startsWith "ALTER TABLE ".toList upper then parseAlterTableEngine sql
  else if startsWith "EXPLAIN ".toList upper || startsWith "EXPLAIN ANALYZE ".toList upper then parseExplain sql
  else if startsWith "CREATE USER ".toList upper || startsWith "CREATE USER IF NOT EXISTS ".toList upper then
    let existing := containsText "IF NOT EXISTS".toList upper
    let stripped := trim
      (if existing then stripKeyword "CREATE USER IF NOT EXISTS".toList "create user if not exists".toList sql
      else stripKeyword "CREATE USER".toList "create user".toList sql)
    do
      let (username, password) ← parseUserWithPassword stripped
      if existing && findUserInStmt username then return []
      else return [.createUser username password]
  else if startsWith "DROP USER ".toList upper || startsWith "DROP USER IF EXISTS ".toList upper then
    let ifExists := containsText "IF EXISTS".toList upper
    let stripped :=
      if ifExists then stripKeyword "DROP USER IF EXISTS".toList "drop user if exists".toList sql
      else stripKeyword "DROP USER".toList "drop user".toList sql
    return [.dropUser (String.ofList (trim (trimSemicolons (trim stripped)))) ifExists]
  else if startsWith "ALTER USER ".toList upper then do
    let (username, password) ← parseUserWithPassword (trim (stripKeyword "ALTER USER".toList "alter user".toList sql))
    return [.alterUser username password]
  else if startsWith "GRANT ".toList upper then parseGrantRevoke sql true
  else if startsWith "REVOKE ".toList upper then parseGrantRevoke sql false
  else if startsWith "CREATE ".toList upper && containsText " INDEX ".toList upper then parseCreateIndex sql
  else if startsWith "DROP INDEX ".toList upper then parseDropIndex sql
  else if startsWith "SHOW TABLES".toList upper then return [.showTables]
  else if startsWith "SHOW DATABASES".toList upper then return [.showDatabases]
  else if startsWith "USE ".toList upper then do
    let behind ← fromByte 3 sql
    let name := trim (trimSemicolons (trim behind))
    if name.isEmpty then throw (.parse "Expected database name after USE")
    else return [.useDatabase (String.ofList name)]
  else throw (.parse ("Unsupported SQL: " ++ String.ofList sql))

/-- `parse`. -/
def parse (sql : List Char) : Parsed (List HelionStatement) :=
  let trimmed := trim sql
  if looksLikeCreateTableWithEngine trimmed then parseCreateTableWithEngine uuidv7 trimmed
  else if looksLikeAlterTableEngine trimmed then parseAlterTableEngine trimmed
  else
    match SqlParser.parseSql sql with
    | .ok statements =>
        match statements.mapM (convertStatement uuidv7) with
        | .ok result => return result
        | .error _ => parseCustom uuidv7 sql
    | .error _ => parseCustom uuidv7 sql

end

end HelionDb
