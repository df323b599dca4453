import HelionDb.Loop
import HelionDb.ParserPanics

/-! What the own parser gives. It looks at the start of a text alone and gives one statement or an error, except for the
tables of an ENGINE clause; it gives a statement just where it finds the words and names of one somewhere in the text. -/

namespace HelionDb

namespace Parsed

variable {α β : Type}

/-- What holds of every value that a call ends in. -/
def Yields (P : α → Prop) (result : Parsed α) : Prop := ∀ value, result = pure value → P value

section

variable {P : β → Prop}

theorem Yields.mono {Q : β → Prop} {result : Parsed β} (h : Yields P result) (himp : ∀ value, P value → Q value) :
    Yields Q result :=
  fun value hvalue => himp value (h value hvalue)

theorem yields_pure {value : β} (h : P value) : Yields P (pure value) := by
  intro other hother
  rw [← pure_inj hother]
  exact h

theorem yields_throw (err : HelionError) : Yields P (throw err) := nofun

theorem yields_bind {first : Parsed α} {next : α → Parsed β} (h : ∀ value, Yields P (next value)) :
    Yields P (first >>= next) := by
  intro result hresult
  obtain ⟨value, -, hvalue⟩ := bind_eq_pure_iff.mp hresult
  exact h value result hvalue

theorem yields_ite {c : Prop} [Decidable c] {first second : Parsed β} (hfirst : c → Yields P first)
    (hsecond : ¬ c → Yields P second) : Yields P (if c then first else second) := by
  split
  next h => exact hfirst h
  next h => exact hsecond h

end

/-- A call ends in a value. -/
def Reads (result : Parsed α) : Prop := ∃ value, result = pure value

theorem reads_pure (value : α) : Reads (pure value) := ⟨value, rfl⟩

theorem not_reads_throw (err : HelionError) : ¬ Reads (throw err : Parsed α) := nofun

theorem yields_of_not_reads {P : α → Prop} {result : Parsed α} (h : ¬ Reads result) : Yields P result :=
  fun value hvalue => absurd ⟨value, hvalue⟩ h

theorem cut_bind_eq_pure_iff {cut : Option α} {next : α → Parsed β} {result : β} :
    (liftM cut : Parsed α) >>= next = pure result ↔ ∃ value, cut = some value ∧ next value = pure result := by
  cases cut with
  | none => exact iff_of_false nofun nofun
  | some value =>
      rw [some_bind]
      constructor
      · intro h
        exact ⟨value, rfl, h⟩
      · rintro ⟨_, ⟨⟩, h⟩
        exact h

theorem reads_cut_iff {cut : Option α} {next : α → Parsed β} :
    Reads ((liftM cut : Parsed α) >>= next) ↔ ∃ value, cut = some value ∧ Reads (next value) := by
  constructor
  · rintro ⟨result, h⟩
    obtain ⟨value, hcut, hnext⟩ := cut_bind_eq_pure_iff.mp h
    exact ⟨value, hcut, result, hnext⟩
  · rintro ⟨value, hcut, result, hnext⟩
    exact ⟨result, cut_bind_eq_pure_iff.mpr ⟨value, hcut, hnext⟩⟩

theorem reads_bind_iff {first : Parsed α} {next : α → Parsed β} :
    Reads (first >>= next) ↔ ∃ value, first = pure value ∧ Reads (next value) := by
  constructor
  · rintro ⟨result, h⟩
    obtain ⟨value, hfirst, hnext⟩ := bind_eq_pure_iff.mp h
    exact ⟨value, hfirst, result, hnext⟩
  · rintro ⟨value, hfirst, result, hnext⟩
    exact ⟨result, bind_eq_pure_iff.mpr ⟨value, hfirst, hnext⟩⟩

/-- A step whose follower ends in a value. -/
theorem reads_bind_iff_of_reads {first : Parsed α} {next : α → Parsed β} (hnext : ∀ value, Reads (next value)) :
    Reads (first >>= next) ↔ Reads first :=
  reads_bind_iff.trans (exists_congr fun value => and_iff_left (hnext value))

theorem reads_ite {c : Prop} [Decidable c] {first second : Parsed α} {P Q : Prop} (hfirst : c → (Reads first ↔ P))
    (hsecond : ¬ c → (Reads second ↔ Q)) : Reads (if c then first else second) ↔ if c then P else Q := by
  split
  next h => exact hfirst h
  next h => exact hsecond h

end Parsed

open Parsed

/-! ### One statement -/

def HelionStatement.isCreateTable : HelionStatement → Bool
  | .createTable _ _ _ => true
  | _ => false

/-- One statement that creates no table. -/
def IsOwn (statements : List HelionStatement) : Prop :=
  ∃ statement, statements = [statement] ∧ statement.isCreateTable = false

section

variable [UpperCasing]

theorem yields_parseAlterTableEngine (sql : List Char) :
    Yields (fun statements => ∃ name engine, statements = [.alterTableEngine name engine]) (parseAlterTableEngine sql) := by
  rw [parseAlterTableEngine]
  refine yields_ite (fun _ => yields_throw _) fun _ => ?_
  split
  next => exact yields_throw _
  next =>
    refine yields_bind fun name => ?_
    split
    next => exact yields_throw _
    next => exact yields_bind fun clause => yields_bind fun engine => yields_pure ⟨_, _, rfl⟩
    next => exact yields_throw _

theorem yields_parseCreateIndex (sql : List Char) : Yields IsOwn (parseCreateIndex sql) := by
  rw [parseCreateIndex]
  refine yields_bind fun start => yields_bind fun behind => yields_bind fun name => ?_
  split
  next => exact yields_throw _
  next =>
    refine yields_bind fun behindOn => ?_
    dsimp only
    split
    next => exact yields_throw _
    next =>
      refine yields_bind fun table => ?_
      split
      next => exact yields_throw _
      next => exact yields_bind fun columns => yields_ite (fun _ => yields_throw _) fun _ => yields_pure ⟨_, rfl, rfl⟩

theorem yields_parseDropIndex (sql : List Char) : Yields IsOwn (parseDropIndex sql) := by
  rw [parseDropIndex]
  dsimp only
  split
  next => exact yields_throw _
  next =>
    refine yields_bind fun behind => ?_
    split
    next => exact yields_throw _
    next => exact yields_bind fun name => yields_bind fun table => yields_pure ⟨_, rfl, rfl⟩

theorem yields_parseGrantRevoke (sql : List Char) (isGrant : Bool) : Yields IsOwn (parseGrantRevoke sql isGrant) := by
  rw [parseGrantRevoke]
  dsimp only
  split
  next => exact yields_throw _
  next =>
    refine yields_bind fun behind => ?_
    split
    next => exact yields_throw _
    next =>
      refine yields_bind fun behindPermission => yields_bind fun columns => ?_
      refine yields_ite (fun _ => yields_throw _) fun _ => yields_bind fun behindOn => ?_
      have hstatement (table : List Char × List Char) (grant revoke : HelionStatement)
          (hgrant : grant.isCreateTable = false) (hrevoke : revoke.isCreateTable = false) (err : HelionError) :
          Yields IsOwn (if (trim (trimSemicolons (trim table.2))).isEmpty = true then throw err
            else if isGrant = true then pure [grant] else pure [revoke]) :=
        yields_ite (fun _ => yields_throw _) fun _ =>
          yields_ite (fun _ => yields_pure ⟨grant, rfl, hgrant⟩) fun _ => yields_pure ⟨revoke, rfl, hrevoke⟩
      refine yields_ite (fun _ => ?_) fun _ => ?_
      · exact yields_bind fun table => hstatement table _ _ rfl rfl _
      · exact yields_bind fun table => hstatement table _ _ rfl rfl _

section

variable [Rendering] [SqlExprText] [SqlTableText] [SqlParser] (uuidv7 : BitVec 128)

omit [UpperCasing] [Rendering] [SqlExprText] [SqlTableText] in
/-- A text of which every statement is an EXPLAIN. -/
theorem yields_parseExplain (sql : List Char) :
    Yields (fun statements => ∀ statement ∈ statements, statement.isCreateTable = false) (parseExplain sql) := by
  rw [parseExplain]
  split
  next => exact yields_throw _
  next parsed hparsed =>
    intro statements hstatements statement hstatement
    obtain ⟨stmt, -, hstmt⟩ := Loop.exists_of_mapM_ok (Option.some.inj hstatements) hstatement
    split at hstmt
    next => exact (Except.ok.inj hstmt) ▸ rfl
    next => cases hstmt

/-- Where the own parser makes no table it gives one statement, or explains. -/
theorem yields_parseCustom {P : List HelionStatement → Prop} (hown : ∀ statements, IsOwn statements → P statements)
    {sql : List Char} (htable : startsWith "CREATE TABLE ".toList (trim (upperText (trimSemicolons (trim sql)))) = false)
    (hexplain : Yields P (parseExplain (trimSemicolons (trim sql)))) : Yields P (parseCustom uuidv7 sql) := by
  have hone {statement : HelionStatement} (h : statement.isCreateTable = false) : Yields P (pure [statement]) :=
    yields_pure (hown _ ⟨statement, rfl, h⟩)
  rw [parseCustom]
  dsimp only
  rw [htable, if_neg Bool.false_ne_true]
  refine yields_ite (fun _ => (yields_parseAlterTableEngine _).mono ?_) fun _ => ?_
  · rintro statements ⟨_, _, h⟩
    exact hown _ ⟨_, h, rfl⟩
  refine yields_ite (fun _ => hexplain) fun _ => ?_
  refine yields_ite (fun _ => yields_bind fun user => ?_) fun _ => ?_
  · rw [findUserInStmt, Bool.and_false, if_neg Bool.false_ne_true]
    exact hone rfl
  refine yields_ite (fun _ => hone rfl) fun _ => ?_
  refine yields_ite (fun _ => yields_bind fun user => hone rfl) fun _ => ?_
  refine yields_ite (fun _ => (yields_parseGrantRevoke _ _).mono hown) fun _ => ?_
  refine yields_ite (fun _ => (yields_parseGrantRevoke _ _).mono hown) fun _ => ?_
  refine yields_ite (fun _ => (yields_parseCreateIndex _).mono hown) fun _ => ?_
  refine yields_ite (fun _ => (yields_parseDropIndex _).mono hown) fun _ => ?_
  refine yields_ite (fun _ => hone rfl) fun _ => ?_
  refine yields_ite (fun _ => hone rfl) fun _ => ?_
  refine yields_ite (fun _ => yields_bind fun behind => ?_) fun _ => yields_throw _
  exact yields_ite (fun _ => yields_throw _) fun _ => hone rfl

end

/-- The keyword for the password stands in the upper-cased text, at a place where the text can be cut. -/
def UserReads (s : List Char) : Prop :=
  let s := trim (trimSemicolons (trim s))
  let upper := upperText s
  let keywords := [" WITH PASSWORD ".toList, " PASSWORD ".toList]
  ∃ kw pos, (keywords.findSome? fun kw => (byteFind kw upper).map (kw, ·)) = some (kw, pos) ∧
    IsBoundary pos s ∧ IsBoundary (pos + byteLength kw) s

omit [UpperCasing] in
theorem reads_passwordOf (rest : List Char) : Reads (passwordOf rest) := by
  rw [passwordOf]
  split
  · rw [uptoByte_byteFindIf]
    exact reads_pure _
  · exact reads_pure _

theorem reads_parseUserWithPassword_iff (s : List Char) : Reads (parseUserWithPassword s) ↔ UserReads s := by
  rw [parseUserWithPassword, UserReads]
  generalize trim (trimSemicolons (trim s)) = s
  split
  next hfind =>
    refine iff_of_false (not_reads_throw _) ?_
    rintro ⟨kw, pos, h, -⟩
    rw [hfind] at h
    cases h
  next kw pos hfind =>
    rw [reads_cut_iff]
    constructor
    · rintro ⟨username, husername, h⟩
      obtain ⟨rest, hrest, -⟩ := reads_cut_iff.mp h
      exact ⟨kw, pos, hfind, isBoundary_of_uptoByte husername, isBoundary_of_fromByte hrest⟩
    · rintro ⟨kw', pos', hfind', hbefore, hbehind⟩
      obtain ⟨rfl, rfl⟩ := Prod.mk.inj (Option.some.inj (hfind.symm.trans hfind'))
      obtain ⟨username, husername⟩ := hbefore.exists_uptoByte
      obtain ⟨rest, hrest⟩ := hbehind.exists_fromByte
      obtain ⟨password, hpassword⟩ := reads_passwordOf (trim (trimSemicolons (trim rest)))
      exact ⟨username, husername, reads_cut_iff.mpr ⟨rest, hrest, reads_bind_iff.mpr ⟨password, hpassword, reads_pure _⟩⟩⟩

/-- A table in front of parentheses with a column in them. -/
def ColumnsRead (text : List Char) : Prop :=
  ∃ first last columns, byteFindIf (· = '(') text = some first ∧ byteRfind [')'] text = some last ∧
    betweenBytes (first + 1) last text = some columns ∧ (splitNames (trim columns)).isEmpty = false

/-- A text has INDEX or UNIQUE where it can be cut, and columns behind the last ON. -/
def CreateIndexReads (sql : List Char) : Prop :=
  let sql := trimSemicolons (trim sql)
  let upper := upperText sql
  (∃ start, afterIndexStart (containsText "UNIQUE".toList upper) upper = some start ∧ IsBoundary start sql) ∧
    ∃ pos behindOn, byteRfind " ON ".toList upper = some pos ∧ fromByte (pos + 4) sql = some behindOn ∧
      ColumnsRead (trim behindOn)

theorem reads_parseCreateIndex_iff (sql : List Char) : Reads (parseCreateIndex sql) ↔ CreateIndexReads sql := by
  rw [parseCreateIndex, CreateIndexReads]
  dsimp only
  generalize trimSemicolons (trim sql) = sql
  rw [reads_cut_iff]
  constructor
  · rintro ⟨start, hstart, h⟩
    obtain ⟨behind, hbehind, h⟩ := reads_cut_iff.mp h
    obtain ⟨name, -, h⟩ := reads_cut_iff.mp h
    refine ⟨⟨start, hstart, isBoundary_of_fromByte hbehind⟩, ?_⟩
    split at h
    next => exact absurd h (not_reads_throw _)
    next pos hpos =>
      obtain ⟨behindOn, hbehindOn, h⟩ := reads_cut_iff.mp h
      split at h
      next => exact absurd h (not_reads_throw _)
      next first hfirst =>
        obtain ⟨table, -, h⟩ := reads_cut_iff.mp h
        split at h
        next => exact absurd h (not_reads_throw _)
        next last hlast =>
          obtain ⟨columns, hcolumns, h⟩ := reads_cut_iff.mp h
          split at h
          next => exact absurd h (not_reads_throw _)
          next hne =>
            exact ⟨pos, behindOn, hpos, hbehindOn, first, last, columns, hfirst, hlast, hcolumns, Bool.eq_false_iff.mpr hne⟩
  · rintro ⟨⟨start, hstart, hbehind⟩, pos, behindOn, hpos, hbehindOn, first, last, columns, hfirst, hlast, hcolumns, hne⟩
    obtain ⟨behind, hbehind⟩ := hbehind.exists_fromByte
    obtain ⟨table, htable⟩ := (isBoundary_of_first hfirst).1.exists_uptoByte
    refine ⟨start, hstart, reads_cut_iff.mpr ⟨behind, hbehind, reads_cut_iff.mpr ⟨_, uptoByte_byteFindIf _ _, ?_⟩⟩⟩
    rw [hpos]
    refine reads_cut_iff.mpr ⟨behindOn, hbehindOn, ?_⟩
    rw [hfirst]
    refine reads_cut_iff.mpr ⟨table, htable, ?_⟩
    rw [hlast]
    refine reads_cut_iff.mpr ⟨columns, hcolumns, ?_⟩
    rw [hne, if_neg Bool.false_ne_true]
    exact reads_pure _

/-- A text has DROP INDEX, and ON behind it, where it can be cut. -/
def DropIndexReads (sql : List Char) : Prop :=
  let sql := trimSemicolons (trim sql)
  let upper := upperText sql
  let dropKw := if containsText "IF EXISTS".toList upper then "DROP INDEX IF EXISTS ".toList else "DROP INDEX ".toList
  ∃ pos behind onPos, byteFind dropKw upper = some pos ∧ fromByte (pos + byteLength dropKw) sql = some behind ∧
    byteFind " ON ".toList (upperText (trim behind)) = some onPos ∧ IsBoundary onPos (trim behind) ∧
      IsBoundary (onPos + 4) (trim behind)

theorem reads_parseDropIndex_iff (sql : List Char) : Reads (parseDropIndex sql) ↔ DropIndexReads sql := by
  rw [parseDropIndex, DropIndexReads]
  dsimp only
  generalize trimSemicolons (trim sql) = sql
  generalize (if containsText "IF EXISTS".toList (upperText sql) then "DROP INDEX IF EXISTS ".toList
    else "DROP INDEX ".toList) = dropKw
  constructor
  · intro h
    split at h
    next => exact absurd h (not_reads_throw _)
    next pos hpos =>
      obtain ⟨behind, hbehind, h⟩ := reads_cut_iff.mp h
      split at h
      next => exact absurd h (not_reads_throw _)
      next onPos hon =>
        obtain ⟨name, hname, h⟩ := reads_cut_iff.mp h
        obtain ⟨table, htable, -⟩ := reads_cut_iff.mp h
        exact ⟨pos, behind, onPos, hpos, hbehind, hon, isBoundary_of_uptoByte hname, isBoundary_of_fromByte htable⟩
  · rintro ⟨pos, behind, onPos, hpos, hbehind, hon, hname, htable⟩
    obtain ⟨name, hname⟩ := hname.exists_uptoByte
    obtain ⟨table, htable⟩ := htable.exists_fromByte
    rw [hpos]
    refine reads_cut_iff.mpr ⟨behind, hbehind, ?_⟩
    rw [hon]
    exact reads_cut_iff.mpr ⟨name, hname, reads_cut_iff.mpr ⟨table, htable, reads_pure _⟩⟩

/-! ### Grants that are read -/

/-- A text that can be cut at the keyword for the user, and names one behind it. -/
def UserBehind (pos stop : Nat) (rest : List Char) : Prop :=
  IsBoundary pos rest ∧ ∃ behind, fromByte stop rest = some behind ∧ (trim (trimSemicolons (trim behind))).isEmpty = false

/-- The upper-cased text has the keyword for the user, with a name behind it. -/
def GrantTableReads (target bareTarget : List Char) (skip : Nat) (rest : List Char) : Prop :=
  match byteFind target (upperText rest), byteFind bareTarget (upperText rest) with
  | some pos, _ => UserBehind pos (pos + skip) rest
  | none, some pos => UserBehind pos (pos + byteLength bareTarget) rest
  | none, none => False

theorem reads_grantTable_iff {target bareTarget rest : List Char} {skip : Nat} {err : HelionError}
    {statement : List Char × List Char → HelionStatement} :
    Reads (grantTable target bareTarget skip rest >>= fun table =>
      if (trim (trimSemicolons (trim table.2))).isEmpty = true then throw err else pure [statement table]) ↔
      GrantTableReads target bareTarget skip rest := by
  have huser (pos stop : Nat) :
      Reads ((do
        let table ← (liftM (uptoByte pos rest) : Parsed _)
        let behind ← (liftM (fromByte stop rest) : Parsed _)
        return (table, behind)) >>= fun table =>
          if (trim (trimSemicolons (trim table.2))).isEmpty = true then throw err else pure [statement table]) ↔
        UserBehind pos stop rest := by
    constructor
    · intro h
      obtain ⟨found, hfound, h⟩ := reads_bind_iff.mp h
      obtain ⟨table, htable, hrest⟩ := cut_bind_eq_pure_iff.mp hfound
      obtain ⟨behind, hbehind, heq⟩ := cut_bind_eq_pure_iff.mp hrest
      obtain rfl := pure_inj heq
      split at h
      next => exact absurd h (not_reads_throw _)
      next hne => exact ⟨isBoundary_of_uptoByte htable, behind, hbehind, Bool.eq_false_iff.mpr hne⟩
    · rintro ⟨hpos, behind, hbehind, hne⟩
      obtain ⟨table, htable⟩ := hpos.exists_uptoByte
      refine reads_bind_iff.mpr ⟨(table, behind), ?_, ?_⟩
      · exact cut_bind_eq_pure_iff.mpr ⟨table, htable, cut_bind_eq_pure_iff.mpr ⟨behind, hbehind, rfl⟩⟩
      · rw [hne, if_neg Bool.false_ne_true]
        exact reads_pure _
  rw [grantTable, GrantTableReads]
  cases byteFind target (upperText rest) with
  | some pos => exact huser pos _
  | none =>
      cases byteFind bareTarget (upperText rest) with
      | some pos => exact huser pos _
      | none => exact iff_of_false (not_reads_throw _) not_false

/-- What is read behind ON. -/
def GrantTargetReads (isGrant : Bool) (rest : List Char) : Prop :=
  startsWith "ON ".toList (upperText rest) = true ∧
    ∃ behindOn, (if 3 < byteLength rest then fromByte 3 rest else some []) = some behindOn ∧
      if isGrant then GrantTableReads " TO ".toList " TO".toList 4 (trim behindOn)
      else GrantTableReads " FROM ".toList " FROM".toList 5 (trim behindOn)

/-- A text has GRANT or REVOKE, a permission, ON, and TO or FROM with a user, where it can be cut. -/
def GrantReads (sql : List Char) (isGrant : Bool) : Prop :=
  let action := if isGrant then "GRANT" else "REVOKE"
  ∃ pos behind keyword behindPermission, byteFind action.toList (upperText sql) = some pos ∧
    fromByte (pos + byteLength action.toList) sql = some behind ∧
    (permissionKeywords.find? fun keyword => startsWith keyword.1 (upperText (trim behind))) = some keyword ∧
    fromByte (byteLength keyword.1) (trim behind) = some behindPermission ∧
    GrantTargetReads isGrant (afterColumns (trim behindPermission))

theorem reads_parseGrantRevoke_iff (sql : List Char) (isGrant : Bool) :
    Reads (parseGrantRevoke sql isGrant) ↔ GrantReads sql isGrant := by
  rw [parseGrantRevoke, GrantReads]
  dsimp only
  generalize (if isGrant then "GRANT" else "REVOKE") = action
  constructor
  · intro h
    split at h
    next => exact absurd h (not_reads_throw _)
    next pos hpos =>
      obtain ⟨behind, hbehind, h⟩ := reads_cut_iff.mp h
      split at h
      next => exact absurd h (not_reads_throw _)
      next keyword permType hkeyword =>
        obtain ⟨behindPermission, hpermission, h⟩ := reads_cut_iff.mp h
        refine ⟨pos, behind, (keyword, permType), behindPermission, hpos, hbehind, hkeyword, hpermission, ?_⟩
        obtain ⟨columns, hcolumns⟩ := exists_grantColumns_eq (trim behindPermission)
        rw [hcolumns, pure_bind] at h
        dsimp only at h
        split at h
        next => exact absurd h (not_reads_throw _)
        next hon =>
          rw [Bool.not_eq_true', Bool.not_eq_false] at hon
          obtain ⟨behindOn, hbehindOn, h⟩ := reads_cut_iff.mp h
          refine ⟨hon, behindOn, hbehindOn, ?_⟩
          cases isGrant with
          | true => exact reads_grantTable_iff.mp h
          | false => exact reads_grantTable_iff.mp h
  · rintro ⟨pos, behind, keyword, behindPermission, hpos, hbehind, hkeyword, hpermission, hon, behindOn, hbehindOn, htable⟩
    rw [hpos]
    refine reads_cut_iff.mpr ⟨behind, hbehind, ?_⟩
    rw [hkeyword]
    refine reads_cut_iff.mpr ⟨behindPermission, hpermission, ?_⟩
    obtain ⟨columns, hcolumns⟩ := exists_grantColumns_eq (trim behindPermission)
    rw [hcolumns, pure_bind]
    dsimp only
    rw [hon, if_neg (by decide)]
    refine reads_cut_iff.mpr ⟨behindOn, hbehindOn, ?_⟩
    cases isGrant with
    | true => exact reads_grantTable_iff.mpr htable
    | false => exact reads_grantTable_iff.mpr htable

/-- The own parser finds a statement at the start of a text. -/
def CustomReads (sql : List Char) : Prop :=
  let sql := trimSemicolons (trim sql)
  let upper := trim (upperText sql)
  if startsWith "CREATE TABLE ".toList upper then False
  else if startsWith "ALTER TABLE ".toList upper then False
  else if startsWith "EXPLAIN ".toList upper || startsWith "EXPLAIN ANALYZE ".toList upper then False
  else if startsWith "CREATE USER ".toList upper || startsWith "CREATE USER IF NOT EXISTS ".toList upper then
    UserReads (trim
      (if containsText "IF NOT EXISTS".toList upper then
        stripKeyword "CREATE USER IF NOT EXISTS".toList "create user if not exists".toList sql
      else stripKeyword "CREATE USER".toList "create user".toList sql))
  else if startsWith "DROP USER ".toList upper || startsWith "DROP USER IF EXISTS ".toList upper then True
  else if startsWith "ALTER USER ".toList upper then
    UserReads (trim (stripKeyword "ALTER USER".toList "alter user".toList sql))
  else if startsWith "GRANT ".toList upper then GrantReads sql true
  else if startsWith "REVOKE ".toList upper then GrantReads sql false
  else if startsWith "CREATE ".toList upper && containsText " INDEX ".toList upper then CreateIndexReads sql
  else if startsWith "DROP INDEX ".toList upper then DropIndexReads sql
  else if startsWith "SHOW TABLES".toList upper then True
  else if startsWith "SHOW DATABASES".toList upper then True
  else if startsWith "USE ".toList upper then
    ∃ behind, fromByte 3 sql = some behind ∧ (trim (trimSemicolons (trim behind))).isEmpty = false
  else False

section

variable [Rendering] [SqlExprText] [SqlTableText] [SqlParser] (uuidv7 : BitVec 128)

/-- The own parser reads no engine statement of a text that does not look like one. -/
theorem not_reads_createTable {sql : List Char} (hlooks : looksLikeCreateTableWithEngine (trim sql) = false)
    (hstart : startsWith "CREATE TABLE ".toList (trim (upperText (trimSemicolons (trim sql)))) = true) :
    ¬ Reads (parseCreateTableWithEngine uuidv7 (trimSemicolons (trim sql))) := by
  rw [parseCreateTableWithEngine]
  split
  next => exact not_reads_throw _
  next pos hpos =>
    have hfound := looksLike_of_found hstart hpos
    rw [looksLikeCreateTableWithEngine, hfound.1, hfound.2] at hlooks
    cases hlooks

omit [Rendering] [SqlExprText] [SqlTableText] [SqlParser] in
theorem not_reads_alterTable {sql : List Char} (hlooks : looksLikeAlterTableEngine (trim sql) = false)
    (hstart : startsWith "ALTER TABLE ".toList (trim (upperText (trimSemicolons (trim sql)))) = true) :
    ¬ Reads (parseAlterTableEngine (trimSemicolons (trim sql))) := by
  rw [parseAlterTableEngine]
  split
  next => exact not_reads_throw _
  next =>
    split
    next => exact not_reads_throw _
    next pos hpos =>
      have hfound := looksLike_of_found hstart hpos
      rw [looksLikeAlterTableEngine, hfound.1, hfound.2] at hlooks
      cases hlooks

theorem reads_parseCustom_iff {sql : List Char} (hcreate : looksLikeCreateTableWithEngine (trim sql) = false)
    (halter : looksLikeAlterTableEngine (trim sql) = false)
    (hexplain : ¬ Reads (parseExplain (trimSemicolons (trim sql)))) : Reads (parseCustom uuidv7 sql) ↔ CustomReads sql := by
  have hends {result : Parsed (List HelionStatement)} (h : Reads result) : Reads result ↔ True := iff_of_true h trivial
  rw [parseCustom, CustomReads]
  dsimp only
  refine reads_ite (fun hstart => iff_of_false (not_reads_createTable uuidv7 hcreate hstart) not_false) fun _ => ?_
  refine reads_ite (fun hstart => iff_of_false (not_reads_alterTable halter hstart) not_false) fun _ => ?_
  refine reads_ite (fun _ => iff_of_false hexplain not_false) fun _ => ?_
  refine reads_ite (fun _ => ?_) fun _ => ?_
  · rw [reads_bind_iff_of_reads, reads_parseUserWithPassword_iff]
    intro user
    split
    · exact reads_pure _
    · exact reads_pure _
  refine reads_ite (fun _ => hends (reads_pure _)) fun _ => ?_
  refine reads_ite (fun _ => ?_) fun _ => ?_
  · rw [reads_bind_iff_of_reads fun user => reads_pure _, reads_parseUserWithPassword_iff]
  refine reads_ite (fun _ => reads_parseGrantRevoke_iff _ true) fun _ => ?_
  refine reads_ite (fun _ => reads_parseGrantRevoke_iff _ false) fun _ => ?_
  refine reads_ite (fun _ => reads_parseCreateIndex_iff _) fun _ => ?_
  refine reads_ite (fun _ => reads_parseDropIndex_iff _) fun _ => ?_
  refine reads_ite (fun _ => hends (reads_pure _)) fun _ => ?_
  refine reads_ite (fun _ => hends (reads_pure _)) fun _ => ?_
  refine reads_ite (fun _ => ?_) fun _ => iff_of_false (not_reads_throw _) not_false
  rw [reads_cut_iff]
  refine exists_congr fun behind => and_congr_right fun _ => ?_
  split
  next hempty => exact iff_of_false (not_reads_throw _) (ne_false_of_eq_true hempty)
  next hempty => exact iff_of_true (reads_pure _) (Bool.eq_false_iff.mpr hempty)

end

end

end HelionDb
