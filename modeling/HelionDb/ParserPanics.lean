import HelionDb.UserPasswords

/-! Where the parser panics. A text is cut at the places at which its upper-cased text has the keywords: upper-casing may
change the number of bytes before them, and two cuts may come in the wrong order. -/

namespace HelionDb

namespace Parsed

variable {α β : Type}

/-- A call does not panic. -/
def Returns (result : Parsed α) : Prop := result ≠ (none : Option _)

theorem returns_pure (value : α) : Returns (pure value) := nofun

theorem returns_throw (err : HelionError) : Returns (throw err : Parsed α) := nofun

theorem returns_ofExcept (result : Except HelionError α) : Returns (ofExcept result) := nofun

theorem returns_cut_iff {cut : Option α} {next : α → Parsed β} :
    Returns ((liftM cut : Parsed α) >>= next) ↔ ∃ value, cut = some value ∧ Returns (next value) := by
  cases cut with
  | none => exact iff_of_false (fun h => h rfl) nofun
  | some value =>
      rw [some_bind]
      constructor
      · intro h
        exact ⟨value, rfl, h⟩
      · rintro ⟨_, ⟨⟩, h⟩
        exact h

theorem returns_cut_self {cut : Option α} : Returns (liftM cut : Parsed α) ↔ ∃ value, cut = some value := by
  cases cut with
  | none => exact iff_of_false (fun h => h rfl) nofun
  | some value => exact iff_of_true nofun ⟨value, rfl⟩

theorem returns_bind_iff {first : Parsed α} {next : α → Parsed β} :
    Returns (first >>= next) ↔ Returns first ∧ ∀ value, first = pure value → Returns (next value) := by
  rcases first with _ | (err | value)
  · exact iff_of_false (fun h => h rfl) fun h => h.1 rfl
  · exact iff_of_true nofun ⟨nofun, nofun⟩
  · constructor
    · intro h
      refine ⟨nofun, fun other hother => ?_⟩
      rw [← pure_inj hother]
      exact h
    · rintro ⟨-, h⟩
      exact h value rfl

/-- A step whose follower does not panic. -/
theorem returns_bind_iff_of_returns {first : Parsed α} {next : α → Parsed β} (hnext : ∀ value, Returns (next value)) :
    Returns (first >>= next) ↔ Returns first :=
  returns_bind_iff.trans (and_iff_left fun value _ => hnext value)

theorem returns_cut_iff_of_returns {cut : Option α} {next : α → Parsed β} (hnext : ∀ value, Returns (next value)) :
    Returns ((liftM cut : Parsed α) >>= next) ↔ cut.isSome := by
  rw [returns_cut_iff, Option.isSome_iff_exists]
  exact exists_congr fun value => and_iff_left (hnext value)

theorem returns_ite {c : Prop} [Decidable c] {first second : Parsed α} {P Q : Prop} (hfirst : Returns first ↔ P)
    (hsecond : Returns second ↔ Q) : Returns (if c then first else second) ↔ if c then P else Q := by
  split
  · exact hfirst
  · exact hsecond

end Parsed

open Parsed

/-- A cut between two positions. -/
theorem isSome_betweenBytes_iff {start stop : Nat} {text : List Char} :
    (betweenBytes start stop text).isSome ↔ start ≤ stop ∧ IsBoundary start text ∧ IsBoundary stop text := by
  rw [betweenBytes]
  split
  next hle =>
    rw [and_iff_right hle, ← @isSome_uptoByte_iff stop]
    cases hcut : uptoByte stop text with
    | none => exact iff_of_false nofun fun h => nomatch h.2
    | some front =>
        obtain ⟨back, rfl, hlength⟩ := uptoByte_eq_some_iff.mp hcut
        rw [and_iff_left Option.isSome_some, Option.bind_some, isSome_fromByte_iff, isBoundary_append_iff (hle.trans hlength.ge)]
  next hle => exact iff_of_false nofun fun h => hle h.1

theorem isBoundary_of_betweenBytes {start stop : Nat} {text between : List Char}
    (h : betweenBytes start stop text = some between) : start ≤ stop ∧ IsBoundary start text ∧ IsBoundary stop text :=
  isSome_betweenBytes_iff.mp (Option.isSome_iff_exists.mpr ⟨between, h⟩)

theorem exists_betweenBytes {start stop : Nat} {text : List Char} (hle : start ≤ stop) (hstart : IsBoundary start text)
    (hstop : IsBoundary stop text) : ∃ between, betweenBytes start stop text = some between :=
  Option.isSome_iff_exists.mp (isSome_betweenBytes_iff.mpr ⟨hle, hstart, hstop⟩)

section

variable [UpperCasing]

/-! ### Engine clauses -/

/-- A clause that starts with ENGINE in upper case can be cut behind its sixth byte. -/
def EngineFits (clause : List Char) : Prop :=
  let clause := trim (trimSemicolons (trim clause))
  startsWith "ENGINE".toList (upperText clause) = true → IsBoundary 6 clause

theorem returns_parseEngineClause_iff (clause : List Char) :
    Returns (parseEngineClause clause) ↔ EngineFits clause := by
  rw [parseEngineClause, EngineFits]
  dsimp only
  split
  next hstart =>
    rw [Bool.not_eq_true'] at hstart
    exact iff_of_true (returns_throw _) fun h => by rw [hstart] at h; cases h
  next hstart =>
    rw [Bool.not_eq_true', Bool.not_eq_false] at hstart
    rw [returns_cut_iff_of_returns, isSome_fromByte_iff, hstart, imp_iff_right rfl]
    intro rhs
    split
    · exact returns_throw _
    · exact returns_pure _

/-- A text can be cut where its upper-cased text has the last ENGINE, and the clause there. -/
def CreateTableFits (sql : List Char) : Prop :=
  let sql := trim (trimSemicolons (trim sql))
  ∀ pos, byteRfind " ENGINE".toList (upperText sql) = some pos →
    ∃ clause, fromByte pos sql = some clause ∧ EngineFits (trim clause)

/-- The last ENGINE does not stand before byte 12, where the name of the table starts. -/
def AlterTableFits (sql : List Char) : Prop :=
  let sql := trim (trimSemicolons (trim sql))
  IsBoundary 12 sql → ∀ pos, byteRfind " ENGINE".toList (upperText sql) = some pos →
    12 ≤ pos ∧ ∃ clause, fromByte pos sql = some clause ∧
      ∀ name table, betweenBytes 12 pos sql = some name → splitWhitespace (trim name) = [table] → EngineFits (trim clause)

section

variable [Rendering] [SqlExprText] [SqlTableText] [SqlParser] (uuidv7 : BitVec 128)

theorem returns_parseCreateTableWithEngine_iff (sql : List Char) :
    Returns (parseCreateTableWithEngine uuidv7 sql) ↔ CreateTableFits sql := by
  rw [parseCreateTableWithEngine, CreateTableFits]
  generalize trim (trimSemicolons (trim sql)) = sql
  cases hfind : byteRfind " ENGINE".toList (upperText sql) with
  | none => exact iff_of_true (returns_throw _) nofun
  | some pos =>
      rw [returns_cut_iff]
      constructor
      · rintro ⟨create, -, h⟩ _ ⟨⟩
        obtain ⟨clause, hclause, hengine⟩ := returns_cut_iff.mp h
        exact ⟨clause, hclause, (returns_parseEngineClause_iff _).mp (returns_bind_iff.mp hengine).1⟩
      · intro h
        obtain ⟨clause, hclause, hengine⟩ := h pos rfl
        obtain ⟨create, hcreate⟩ := (isBoundary_of_fromByte hclause).exists_uptoByte
        refine ⟨create, hcreate, returns_cut_iff.mpr ⟨clause, hclause, returns_bind_iff.mpr ?_⟩⟩
        refine ⟨(returns_parseEngineClause_iff _).mpr hengine, fun engine _ => ?_⟩
        split
        · exact returns_throw _
        · exact returns_ofExcept _

end

theorem returns_parseAlterTableEngine_iff (sql : List Char) :
    Returns (parseAlterTableEngine sql) ↔ AlterTableFits sql := by
  rw [parseAlterTableEngine, AlterTableFits]
  generalize trim (trimSemicolons (trim sql)) = sql
  split
  next hstart =>
    rw [Option.isNone_iff_eq_none, ← Option.not_isSome_iff_eq_none, isSome_fromByte_iff] at hstart
    exact iff_of_true (returns_throw _) fun h => absurd h hstart
  next hstart =>
    rw [Option.isNone_iff_eq_none, ← Ne, Option.ne_none_iff_isSome, isSome_fromByte_iff] at hstart
    rw [forall_prop_of_true hstart]
    cases hfind : byteRfind " ENGINE".toList (upperText sql) with
    | none => exact iff_of_true (returns_throw _) nofun
    | some pos =>
        rw [returns_cut_iff]
        constructor
        · rintro ⟨name, hname, h⟩ _ ⟨⟩
          obtain ⟨hle, -, hpos⟩ := isBoundary_of_betweenBytes hname
          obtain ⟨clause, hclause⟩ := hpos.exists_fromByte
          refine ⟨hle, clause, hclause, fun _ table hother htable => ?_⟩
          obtain rfl := Option.some.inj (hname.symm.trans hother)
          rw [htable] at h
          obtain ⟨_, hclause', h⟩ := returns_cut_iff.mp h
          obtain rfl := Option.some.inj (hclause.symm.trans hclause')
          rwa [returns_bind_iff_of_returns fun _ => returns_pure _, returns_parseEngineClause_iff] at h
        · intro h
          obtain ⟨hle, clause, hclause, hengine⟩ := h pos rfl
          have hpos := isBoundary_of_fromByte hclause
          obtain ⟨name, hname⟩ := exists_betweenBytes hle hstart hpos
          refine ⟨name, hname, ?_⟩
          rcases hwords : splitWhitespace (trim name) with _ | ⟨table, _ | ⟨other, more⟩⟩
          · exact returns_throw _
          · refine returns_cut_iff.mpr ⟨clause, hclause, ?_⟩
            rw [returns_bind_iff_of_returns fun _ => returns_pure _, returns_parseEngineClause_iff]
            exact hengine name table hname hwords
          · exact returns_throw _

omit [UpperCasing] in
theorem returns_passwordOf (rest : List Char) : Returns (passwordOf rest) := by
  rw [passwordOf]
  split
  · exact returns_cut_self.mpr ⟨_, uptoByte_byteFindIf _ _⟩
  · exact returns_pure _

/-- A text can be cut before and behind the place at which its upper-cased text has the first PASSWORD, after WITH if that
stands anywhere. -/
def UserFits (s : List Char) : Prop :=
  let s := trim (trimSemicolons (trim s))
  let upper := upperText s
  let keywords := [" WITH PASSWORD ".toList, " PASSWORD ".toList]
  ∀ kw pos, (keywords.findSome? fun kw => (byteFind kw upper).map (kw, ·)) = some (kw, pos) →
    IsBoundary pos s ∧ IsBoundary (pos + byteLength kw) s

theorem returns_parseUserWithPassword_iff (s : List Char) : Returns (parseUserWithPassword s) ↔ UserFits s := by
  rw [parseUserWithPassword, UserFits]
  generalize trim (trimSemicolons (trim s)) = s
  split
  next hfind => exact iff_of_true (returns_throw _) fun kw pos h => by rw [hfind] at h; cases h
  next kw pos hfind =>
    rw [returns_cut_iff]
    constructor
    · rintro ⟨username, husername, h⟩ kw' pos' hfind'
      obtain ⟨rfl, rfl⟩ := Prod.mk.inj (Option.some.inj (hfind.symm.trans hfind'))
      obtain ⟨rest, hrest, -⟩ := returns_cut_iff.mp h
      exact ⟨isBoundary_of_uptoByte husername,
        isBoundary_of_fromByte hrest⟩
    · intro h
      obtain ⟨hbefore, hbehind⟩ := h kw pos hfind
      obtain ⟨username, husername⟩ := hbefore.exists_uptoByte
      obtain ⟨rest, hrest⟩ := hbehind.exists_fromByte
      refine ⟨username, husername, returns_cut_iff.mpr ⟨rest, hrest, ?_⟩⟩
      exact returns_bind_iff.mpr ⟨returns_passwordOf _, fun password _ => returns_pure _⟩

/-- The last closing parenthesis does not stand before the first opening one. -/
def ParenthesesInOrder (text : List Char) : Prop :=
  ∀ first last, byteFindIf (· = '(') text = some first → byteRfind [')'] text = some last → first < last

omit [UpperCasing] in
/-- The first opening parenthesis starts and ends at boundaries. -/
theorem isBoundary_of_first {text : List Char} {n : Nat} (h : byteFindIf (· = '(') text = some n) :
    IsBoundary n text ∧ IsBoundary (n + 1) text := by
  obtain ⟨before, c, after, rfl, rfl, hc, -⟩ := exists_of_byteFindIf h
  obtain rfl := of_decide_eq_true hc
  exact ⟨⟨before, '(' :: after, rfl, rfl⟩, ⟨before ++ ['('], after, List.append_cons _ _ _, byteLength_append _ _⟩⟩

/-- A text can be cut where its upper-cased text has INDEX or UNIQUE, and behind the last ON, where parentheses are in
order. -/
def CreateIndexFits (sql : List Char) : Prop :=
  let sql := trimSemicolons (trim sql)
  let upper := upperText sql
  (∃ start, afterIndexStart (containsText "UNIQUE".toList upper) upper = some start ∧ IsBoundary start sql) ∧
    ∀ pos, byteRfind " ON ".toList upper = some pos →
      ∃ behindOn, fromByte (pos + 4) sql = some behindOn ∧ ParenthesesInOrder (trim behindOn)

theorem returns_parseCreateIndex_iff (sql : List Char) : Returns (parseCreateIndex sql) ↔ CreateIndexFits sql := by
  rw [parseCreateIndex, CreateIndexFits]
  dsimp only
  generalize trimSemicolons (trim sql) = sql
  rw [returns_cut_iff]
  constructor
  · rintro ⟨start, hstart, h⟩
    obtain ⟨behind, hbehind, h⟩ := returns_cut_iff.mp h
    obtain ⟨name, -, h⟩ := returns_cut_iff.mp h
    refine ⟨⟨start, hstart, isBoundary_of_fromByte hbehind⟩, fun pos hpos => ?_⟩
    rw [hpos] at h
    obtain ⟨behindOn, hbehindOn, h⟩ := returns_cut_iff.mp h
    refine ⟨behindOn, hbehindOn, fun first last hfirst hlast => ?_⟩
    rw [hfirst] at h
    obtain ⟨table, -, h⟩ := returns_cut_iff.mp h
    rw [hlast] at h
    obtain ⟨columns, hcolumns, -⟩ := returns_cut_iff.mp h
    exact (isBoundary_of_betweenBytes hcolumns).1
  · rintro ⟨⟨start, hstart, hbehind⟩, h⟩
    obtain ⟨behind, hbehind⟩ := hbehind.exists_fromByte
    refine ⟨start, hstart, returns_cut_iff.mpr ⟨behind, hbehind, returns_cut_iff.mpr ⟨_, uptoByte_byteFindIf _ _, ?_⟩⟩⟩
    split
    next => exact returns_throw _
    next pos hpos =>
      obtain ⟨behindOn, hbehindOn, horder⟩ := h pos hpos
      refine returns_cut_iff.mpr ⟨behindOn, hbehindOn, ?_⟩
      split
      next => exact returns_throw _
      next first hfirst =>
        have hboundaries := isBoundary_of_first hfirst
        obtain ⟨table, htable⟩ := hboundaries.1.exists_uptoByte
        refine returns_cut_iff.mpr ⟨table, htable, ?_⟩
        split
        next => exact returns_throw _
        next last hlast =>
          have hle : first + 1 ≤ last := horder first last hfirst hlast
          obtain ⟨columns, hcolumns⟩ := exists_betweenBytes hle hboundaries.2 (isBoundary_of_byteRfind hlast).1
          refine returns_cut_iff.mpr ⟨columns, hcolumns, ?_⟩
          split
          · exact returns_throw _
          · exact returns_pure _

/-- A text can be cut behind the first DROP INDEX of its upper-cased text, and what follows at the first ON. -/
def DropIndexFits (sql : List Char) : Prop :=
  let sql := trimSemicolons (trim sql)
  let upper := upperText sql
  let dropKw := if containsText "IF EXISTS".toList upper then "DROP INDEX IF EXISTS ".toList else "DROP INDEX ".toList
  ∀ pos, byteFind dropKw upper = some pos →
    ∃ behind, fromByte (pos + byteLength dropKw) sql = some behind ∧
      ∀ onPos, byteFind " ON ".toList (upperText (trim behind)) = some onPos →
        IsBoundary onPos (trim behind) ∧ IsBoundary (onPos + 4) (trim behind)

theorem returns_parseDropIndex_iff (sql : List Char) : Returns (parseDropIndex sql) ↔ DropIndexFits sql := by
  rw [parseDropIndex, DropIndexFits]
  dsimp only
  generalize trimSemicolons (trim sql) = sql
  generalize (if containsText "IF EXISTS".toList (upperText sql) then "DROP INDEX IF EXISTS ".toList
    else "DROP INDEX ".toList) = dropKw
  split
  next hfind => exact iff_of_true (returns_throw _) fun pos h => by rw [hfind] at h; cases h
  next pos hfind =>
    rw [returns_cut_iff]
    constructor
    · rintro ⟨behind, hbehind, h⟩ pos' hfind'
      obtain rfl := Option.some.inj (hfind.symm.trans hfind')
      refine ⟨behind, hbehind, fun onPos hon => ?_⟩
      rw [hon] at h
      obtain ⟨name, hname, h⟩ := returns_cut_iff.mp h
      obtain ⟨table, htable, -⟩ := returns_cut_iff.mp h
      exact ⟨isBoundary_of_uptoByte hname,
        isBoundary_of_fromByte htable⟩
    · intro h
      obtain ⟨behind, hbehind, hon⟩ := h pos hfind
      refine ⟨behind, hbehind, ?_⟩
      split
      next => exact returns_throw _
      next onPos hfindOn =>
        obtain ⟨hname, htable⟩ := hon onPos hfindOn
        obtain ⟨name, hname⟩ := hname.exists_uptoByte
        obtain ⟨table, htable⟩ := htable.exists_fromByte
        exact returns_cut_iff.mpr ⟨name, hname, returns_cut_iff.mpr ⟨table, htable, returns_pure _⟩⟩

/-! ### Grants -/

omit [UpperCasing] in
/-- What follows the columns in parentheses, if a list stands there. -/
def afterColumns (rest : List Char) : List Char :=
  if startsWith ['('] rest then ((byteFindIf (· = ')') rest).bind fun stop => fromByte (stop + 1) rest).elim rest trim
  else rest

omit [UpperCasing] in
/-- The columns are cut off without a panic. -/
theorem exists_grantColumns_eq (rest : List Char) :
    ∃ columns, grantColumns rest = pure (columns, afterColumns rest) := by
  rw [grantColumns, afterColumns]
  split
  next hopen =>
    cases hstop : byteFindIf (· = ')') rest with
    | none => exact ⟨[], rfl⟩
    | some stop =>
        obtain ⟨before, c, after, rfl, rfl, hc, hbefore⟩ := exists_of_byteFindIf hstop
        obtain rfl := of_decide_eq_true hc
        -- The list opens with a parenthesis of one byte, so its end is behind the first byte.
        obtain ⟨front, rfl⟩ : ∃ front, before = '(' :: front := by
          obtain ⟨more, hmore⟩ := startsWith_iff.mp hopen
          cases before with
          | nil => cases hmore
          | cons d front => exact ⟨front, by rw [(List.cons.inj hmore).1]⟩
        have hclose : IsBoundary (byteLength ('(' :: front) + 1) ('(' :: front ++ ')' :: after) :=
          ⟨'(' :: front ++ [')'], after, List.append_cons _ _ _, byteLength_append _ _⟩
        obtain ⟨columns, hcolumns⟩ := @exists_betweenBytes 1 (byteLength ('(' :: front)) ('(' :: front ++ ')' :: after)
          (Nat.le_add_right 1 _) ⟨['('], front ++ ')' :: after, rfl, rfl⟩ ⟨'(' :: front, ')' :: after, rfl, rfl⟩
        obtain ⟨behind, hbehind⟩ := hclose.exists_fromByte
        refine ⟨splitNames columns, ?_⟩
        dsimp only
        rw [hcolumns, Option.bind_some, hbehind]
        rfl
  next => exact ⟨[], rfl⟩

/-- A text can be cut before and behind the place at which its upper-cased text has the keyword for the user. -/
def GrantTableFits (target bareTarget : List Char) (skip : Nat) (rest : List Char) : Prop :=
  match byteFind target (upperText rest), byteFind bareTarget (upperText rest) with
  | some pos, _ => IsBoundary pos rest ∧ IsBoundary (pos + skip) rest
  | none, some pos => IsBoundary pos rest ∧ IsBoundary (pos + byteLength bareTarget) rest
  | none, none => True

theorem returns_grantTable_iff (target bareTarget : List Char) (skip : Nat) (rest : List Char) :
    Returns (grantTable target bareTarget skip rest) ↔ GrantTableFits target bareTarget skip rest := by
  have hcuts (pos stop : Nat) :
      Returns (do
        let table ← (liftM (uptoByte pos rest) : Parsed _)
        let behind ← (liftM (fromByte stop rest) : Parsed _)
        return (table, behind)) ↔ IsBoundary pos rest ∧ IsBoundary stop rest := by
    rw [returns_cut_iff]
    constructor
    · rintro ⟨table, htable, h⟩
      obtain ⟨behind, hbehind, -⟩ := returns_cut_iff.mp h
      exact ⟨isBoundary_of_uptoByte htable, isBoundary_of_fromByte hbehind⟩
    · rintro ⟨hpos, hstop⟩
      obtain ⟨table, htable⟩ := hpos.exists_uptoByte
      obtain ⟨behind, hbehind⟩ := hstop.exists_fromByte
      exact ⟨table, htable, returns_cut_iff.mpr ⟨behind, hbehind, returns_pure _⟩⟩
  rw [grantTable, GrantTableFits]
  cases byteFind target (upperText rest) with
  | some pos => exact hcuts pos _
  | none =>
      cases byteFind bareTarget (upperText rest) with
      | some pos => exact hcuts pos _
      | none => exact iff_of_true (returns_pure _) trivial

/-- What stands behind ON. -/
def GrantTargetFits (isGrant : Bool) (rest : List Char) : Prop :=
  startsWith "ON ".toList (upperText rest) = true →
    ∃ behindOn, (if 3 < byteLength rest then fromByte 3 rest else some []) = some behindOn ∧
      if isGrant then GrantTableFits " TO ".toList " TO".toList 4 (trim behindOn)
      else GrantTableFits " FROM ".toList " FROM".toList 5 (trim behindOn)

/-- A text can be cut where its upper-cased text has GRANT or REVOKE, the permission, ON, and TO or FROM. -/
def GrantFits (sql : List Char) (isGrant : Bool) : Prop :=
  let action := if isGrant then "GRANT" else "REVOKE"
  ∀ pos, byteFind action.toList (upperText sql) = some pos →
    ∃ behind, fromByte (pos + byteLength action.toList) sql = some behind ∧
      ∀ keyword, (permissionKeywords.find? fun keyword => startsWith keyword.1 (upperText (trim behind))) = some keyword →
        ∃ behindPermission, fromByte (byteLength keyword.1) (trim behind) = some behindPermission ∧
          GrantTargetFits isGrant (afterColumns (trim behindPermission))

theorem returns_parseGrantRevoke_iff (sql : List Char) (isGrant : Bool) :
    Returns (parseGrantRevoke sql isGrant) ↔ GrantFits sql isGrant := by
  rw [parseGrantRevoke, GrantFits]
  dsimp only
  generalize (if isGrant then "GRANT" else "REVOKE") = action
  split
  next hfind => exact iff_of_true (returns_throw _) fun pos h => by rw [hfind] at h; cases h
  next pos hfind =>
    rw [returns_cut_iff]
    constructor
    · rintro ⟨behind, hbehind, h⟩ pos' hfind'
      obtain rfl := Option.some.inj (hfind.symm.trans hfind')
      refine ⟨behind, hbehind, fun keyword hkeyword => ?_⟩
      rw [hkeyword] at h
      obtain ⟨behindPermission, hpermission, h⟩ := returns_cut_iff.mp h
      refine ⟨behindPermission, hpermission, fun hon => ?_⟩
      obtain ⟨columns, hcolumns⟩ := exists_grantColumns_eq (trim behindPermission)
      rw [hcolumns, pure_bind] at h
      dsimp only at h
      rw [hon, if_neg (by decide)] at h
      obtain ⟨behindOn, hbehindOn, h⟩ := returns_cut_iff.mp h
      refine ⟨behindOn, hbehindOn, ?_⟩
      cases isGrant with
      | true => exact (returns_grantTable_iff _ _ _ _).mp (returns_bind_iff.mp h).1
      | false => exact (returns_grantTable_iff _ _ _ _).mp (returns_bind_iff.mp h).1
    · intro h
      obtain ⟨behind, hbehind, hfits⟩ := h pos hfind
      refine ⟨behind, hbehind, ?_⟩
      split
      next => exact returns_throw _
      next keyword permType hkeyword =>
        obtain ⟨behindPermission, hpermission, htarget⟩ := hfits (keyword, permType) hkeyword
        refine returns_cut_iff.mpr ⟨behindPermission, hpermission, ?_⟩
        obtain ⟨columns, hcolumns⟩ := exists_grantColumns_eq (trim behindPermission)
        rw [hcolumns, pure_bind]
        dsimp only
        split
        next => exact returns_throw _
        next hon =>
          rw [Bool.not_eq_true', Bool.not_eq_false] at hon
          obtain ⟨behindOn, hbehindOn, htable⟩ := htarget hon
          refine returns_cut_iff.mpr ⟨behindOn, hbehindOn, ?_⟩
          have huser (table : List Char × List Char) (statement : HelionStatement) :
              Returns (if (trim (trimSemicolons (trim table.2))).isEmpty = true then
                throw (HelionError.parse ("Expected username in " ++ action ++ " statement"))
                else (pure [statement] : Parsed _)) := by
            split
            · exact returns_throw _
            · exact returns_pure _
          cases isGrant with
          | true => exact returns_bind_iff.mpr ⟨(returns_grantTable_iff _ _ _ _).mpr htable, fun table _ => huser table _⟩
          | false => exact returns_bind_iff.mpr ⟨(returns_grantTable_iff _ _ _ _).mpr htable, fun table _ => huser table _⟩

section

variable [Rendering] [SqlExprText] [SqlTableText] [SqlParser] (uuidv7 : BitVec 128)

omit [UpperCasing] [Rendering] [SqlExprText] [SqlTableText] in
theorem returns_parseExplain (sql : List Char) : Returns (parseExplain sql) := by
  rw [parseExplain]
  split
  · exact returns_throw _
  · exact returns_ofExcept _

/-- The text of a statement of the own parser can be cut where that cuts it. -/
def CustomFits (sql : List Char) : Prop :=
  let sql := trimSemicolons (trim sql)
  let upper := trim (upperText sql)
  if startsWith "CREATE TABLE ".toList upper then CreateTableFits sql
  else if startsWith "ALTER TABLE ".toList upper then AlterTableFits sql
  else if startsWith "EXPLAIN ".toList upper || startsWith "EXPLAIN ANALYZE ".toList upper then True
  else if startsWith "CREATE USER ".toList upper || startsWith "CREATE USER IF NOT EXISTS ".toList upper then
    UserFits (trim
      (if containsText "IF NOT EXISTS".toList upper then
        stripKeyword "CREATE USER IF NOT EXISTS".toList "create user if not exists".toList sql
      else stripKeyword "CREATE USER".toList "create user".toList sql))
  else if startsWith "DROP USER ".toList upper || startsWith "DROP USER IF EXISTS ".toList upper then True
  else if startsWith "ALTER USER ".toList upper then
    UserFits (trim (stripKeyword "ALTER USER".toList "alter user".toList sql))
  else if startsWith "GRANT ".toList upper then GrantFits sql true
  else if startsWith "REVOKE ".toList upper then GrantFits sql false
  else if startsWith "CREATE ".toList upper && containsText " INDEX ".toList upper then CreateIndexFits sql
  else if startsWith "DROP INDEX ".toList upper then DropIndexFits sql
  else if startsWith "SHOW TABLES".toList upper then True
  else if startsWith "SHOW DATABASES".toList upper then True
  else if startsWith "USE ".toList upper then IsBoundary 3 sql
  else True

theorem returns_parseCustom_iff (sql : List Char) : Returns (parseCustom uuidv7 sql) ↔ CustomFits sql := by
  have hends {result : Parsed (List HelionStatement)} (h : Returns result) : Returns result ↔ True :=
    iff_of_true h trivial
  rw [parseCustom, CustomFits]
  dsimp only
  generalize trimSemicolons (trim sql) = sql
  refine returns_ite (returns_parseCreateTableWithEngine_iff uuidv7 sql) ?_
  refine returns_ite (returns_parseAlterTableEngine_iff sql) ?_
  refine returns_ite (hends (returns_parseExplain sql)) ?_
  refine returns_ite ?_ ?_
  · rw [returns_bind_iff_of_returns, returns_parseUserWithPassword_iff]
    intro user
    split
    · exact returns_pure _
    · exact returns_pure _
  refine returns_ite (hends (returns_pure _)) ?_
  refine returns_ite ?_ ?_
  · rw [returns_bind_iff_of_returns fun user => returns_pure _, returns_parseUserWithPassword_iff]
  refine returns_ite (returns_parseGrantRevoke_iff sql true) ?_
  refine returns_ite (returns_parseGrantRevoke_iff sql false) ?_
  refine returns_ite (returns_parseCreateIndex_iff sql) ?_
  refine returns_ite (returns_parseDropIndex_iff sql) ?_
  refine returns_ite (hends (returns_pure _)) ?_
  refine returns_ite (hends (returns_pure _)) ?_
  refine returns_ite ?_ (hends (returns_throw _))
  rw [returns_cut_iff_of_returns, isSome_fromByte_iff]
  intro behind
  split
  · exact returns_throw _
  · exact returns_pure _

/-- A text can be cut where the parser cuts it. -/
def ParseFits (sql : List Char) : Prop :=
  if looksLikeCreateTableWithEngine (trim sql) then CreateTableFits (trim sql)
  else if looksLikeAlterTableEngine (trim sql) then AlterTableFits (trim sql)
  else FallsBack uuidv7 sql → CustomFits sql

theorem returns_parse_iff (sql : List Char) : Returns (parse uuidv7 sql) ↔ ParseFits uuidv7 sql := by
  rw [parse, ParseFits]
  refine returns_ite (returns_parseCreateTableWithEngine_iff uuidv7 _) ?_
  refine returns_ite (returns_parseAlterTableEngine_iff _) ?_
  cases hparsed : SqlParser.parseSql sql with
  | error err =>
      have hfall : FallsBack uuidv7 sql := fun statements h => by rw [hparsed] at h; cases h
      rw [imp_iff_right hfall]
      exact returns_parseCustom_iff uuidv7 sql
  | ok statements =>
      dsimp only
      cases hconverted : statements.mapM (convertStatement uuidv7) with
      | ok result =>
          refine iff_of_true (returns_pure _) fun hfall => ?_
          obtain ⟨err, herr⟩ := hfall statements hparsed
          rw [hconverted] at herr
          cases herr
      | error err =>
          have hfall : FallsBack uuidv7 sql := fun other h => by
            obtain rfl := Except.ok.inj (hparsed.symm.trans h)
            exact ⟨err, hconverted⟩
          rw [imp_iff_right hfall]
          exact returns_parseCustom_iff uuidv7 sql

end

/-- The upper case of a character is one character of as many bytes. -/
def KeepsLength (c : Char) : Prop := ∃ d, UpperCasing.upper c = [d] ∧ d.utf8Size = c.utf8Size

def KeepsLengths (text : List Char) : Prop := ∀ c ∈ text, KeepsLength c

namespace KeepsLengths

variable {text : List Char}

/-- Such a text has its boundaries where its upper-cased text has them. -/
theorem isBoundary_iff (h : KeepsLengths text) {n : Nat} : IsBoundary n (upperText text) ↔ IsBoundary n text := by
  induction text generalizing n with
  | nil => rfl
  | cons c rest ih =>
      obtain ⟨⟨d, hupper, hsize⟩, hrest⟩ := List.forall_mem_cons.mp h
      rw [upperText_cons, hupper, List.singleton_append, isBoundary_cons_iff, isBoundary_cons_iff, hsize]
      exact or_congr_right (exists_congr fun m => and_congr_right fun _ => ih hrest)

theorem mono (h : KeepsLengths text) {part : List Char} (hpart : part ⊆ text) : KeepsLengths part :=
  fun c hc => h c (hpart hc)

theorem trim (h : KeepsLengths text) : KeepsLengths (trim text) := h.mono (trim_subset text)

theorem trimSemicolons (h : KeepsLengths text) : KeepsLengths (trimSemicolons text) :=
  h.mono (trimSemicolons_isPrefix text).subset

theorem fromByte (h : KeepsLengths text) {n : Nat} {after : List Char} (hafter : fromByte n text = some after) :
    KeepsLengths after := by
  obtain ⟨before, rfl, -⟩ := fromByte_eq_some_iff.mp hafter
  exact h.mono (List.subset_append_right before after)

/-- What a search in the upper-cased text finds starts and ends at boundaries. -/
theorem byteFind (h : KeepsLengths text) {pattern : List Char} {n : Nat}
    (hfind : byteFind pattern (upperText text) = some n) : IsBoundary n text ∧ IsBoundary (n + byteLength pattern) text :=
  (isBoundary_of_byteFind hfind).imp h.isBoundary_iff.mp h.isBoundary_iff.mp

theorem byteRfind (h : KeepsLengths text) {pattern : List Char} {n : Nat}
    (hfind : byteRfind pattern (upperText text) = some n) : IsBoundary n text ∧ IsBoundary (n + byteLength pattern) text :=
  (isBoundary_of_byteRfind hfind).imp h.isBoundary_iff.mp h.isBoundary_iff.mp

theorem startsWith (h : KeepsLengths text) {pattern : List Char} (hstart : startsWith pattern (upperText text) = true) :
    IsBoundary (byteLength pattern) text := by
  obtain ⟨more, hmore⟩ := startsWith_iff.mp hstart
  exact h.isBoundary_iff.mp ⟨pattern, more, hmore.symm, rfl⟩

theorem engineFits (h : KeepsLengths text) : EngineFits text :=
  fun hstart => h.trim.trimSemicolons.trim.startsWith hstart

theorem createTableFits (h : KeepsLengths text) : CreateTableFits text := by
  intro pos hpos
  have hkeeps := h.trim.trimSemicolons.trim
  obtain ⟨clause, hclause⟩ := (hkeeps.byteRfind hpos).1.exists_fromByte
  exact ⟨clause, hclause, (hkeeps.fromByte hclause).trim.engineFits⟩

theorem userFits (h : KeepsLengths text) : UserFits text := by
  intro kw pos hfind
  obtain ⟨other, -, hother⟩ := List.exists_of_findSome?_eq_some hfind
  obtain ⟨pos', hpos, heq⟩ := Option.map_eq_some_iff.mp hother
  obtain ⟨rfl, rfl⟩ := Prod.mk.inj heq
  exact h.trim.trimSemicolons.trim.byteFind hpos

theorem dropIndexFits (h : KeepsLengths text) : DropIndexFits text := by
  intro pos hpos
  have hkeeps := h.trim.trimSemicolons
  obtain ⟨behind, hbehind⟩ := (hkeeps.byteFind hpos).2.exists_fromByte
  exact ⟨behind, hbehind, fun onPos hon => (hkeeps.fromByte hbehind).trim.byteFind hon⟩

theorem afterColumns (h : KeepsLengths text) : KeepsLengths (afterColumns text) := by
  rw [HelionDb.afterColumns]
  split
  · cases hcut : (byteFindIf (· = ')') text).bind fun stop => HelionDb.fromByte (stop + 1) text with
    | none => exact h
    | some behind =>
        obtain ⟨stop, -, hbehind⟩ := Option.bind_eq_some_iff.mp hcut
        exact (h.fromByte hbehind).trim
  · exact h

theorem grantTableFits (h : KeepsLengths text) {target bareTarget : List Char} {skip : Nat}
    (hskip : IsBoundary skip target) : GrantTableFits target bareTarget skip text := by
  rw [GrantTableFits]
  split
  next pos hpos =>
    refine ⟨(h.byteFind hpos).1, h.isBoundary_iff.mp ?_⟩
    obtain ⟨before, after, hupper, rfl, -⟩ := exists_of_byteFind hpos
    obtain ⟨part, more, rfl, rfl⟩ := hskip
    exact ⟨before ++ part, more ++ after, by rw [hupper, List.append_assoc, List.append_assoc], byteLength_append _ _⟩
  next pos hnone hpos => exact h.byteFind hpos
  next => trivial

theorem grantFits (h : KeepsLengths text) (isGrant : Bool) : GrantFits text isGrant := by
  intro pos hpos
  obtain ⟨behind, hbehind⟩ := (h.byteFind hpos).2.exists_fromByte
  have hrest := (h.fromByte hbehind).trim
  refine ⟨behind, hbehind, fun keyword hkeyword => ?_⟩
  have hstart := List.find?_some hkeyword
  obtain ⟨behindPermission, hpermission⟩ := (hrest.startsWith hstart).exists_fromByte
  refine ⟨behindPermission, hpermission, fun hon => ?_⟩
  have hkeeps := (hrest.fromByte hpermission).trim.afterColumns
  obtain ⟨behindOn, hbehindOn, hkeepsOn⟩ : ∃ behindOn, (if 3 < byteLength (HelionDb.afterColumns (HelionDb.trim behindPermission))
      then HelionDb.fromByte 3 (HelionDb.afterColumns (HelionDb.trim behindPermission)) else some []) = some behindOn ∧
      KeepsLengths behindOn := by
    split
    · obtain ⟨behindOn, hbehindOn⟩ := (hkeeps.startsWith hon).exists_fromByte
      exact ⟨behindOn, hbehindOn, hkeeps.fromByte hbehindOn⟩
    · exact ⟨[], rfl, nofun⟩
  refine ⟨behindOn, hbehindOn, ?_⟩
  cases isGrant with
  | true => exact hkeepsOn.trim.grantTableFits ⟨" TO ".toList, [], rfl, rfl⟩
  | false => exact hkeepsOn.trim.grantTableFits ⟨" FROM".toList, [' '], rfl, rfl⟩

end KeepsLengths

/-- The last ENGINE does not stand before the name of the table. -/
def NameBeforeEngine (sql : List Char) : Prop :=
  ∀ pos, byteRfind " ENGINE".toList (upperText (trim (trimSemicolons (trim sql)))) = some pos → 12 ≤ pos

omit [UpperCasing] in
/-- Two beginnings of a text, one of which has a pattern that the other lacks. -/
theorem prefix_of_not_infix {α : Type} {front other text pattern : List α} (hfront : front <+: text) (hother : other <+: text)
    (hpattern : pattern <:+: other) (hnot : ¬ pattern <:+: front) : front <+: other := by
  rcases List.prefix_or_prefix_of_prefix hfront hother with h | h
  · exact h
  · exact absurd (hpattern.trans h.isInfix) hnot

omit [UpperCasing] in
theorem trim_trimSemicolons_isPrefix {text : List Char} (h : ∀ c ∈ text.head?, isWhitespace c = false) :
    trim (trimSemicolons (trim text)) <+: text := by
  have hleads := (trimSemicolons_isPrefix (trim text)).trans (trim_isPrefix h)
  exact (trim_isPrefix (head?_of_isPrefix hleads h)).trans hleads

theorem alterTableFits_iff {sql : List Char} (h : KeepsLengths sql) (hhead : ∀ c ∈ sql.head?, isWhitespace c = false)
    (hstart : startsWith "ALTER TABLE ".toList (upperText sql) = true) : AlterTableFits sql ↔ NameBeforeEngine sql := by
  have hkeeps := h.trim.trimSemicolons.trim
  have hleads := upperText_isPrefix (trim_trimSemicolons_isPrefix hhead)
  rw [AlterTableFits, NameBeforeEngine]
  constructor
  · intro hfits pos hpos
    obtain ⟨before, after, hupper, -⟩ := exists_of_byteRfind hpos
    have hlong :=
      prefix_of_not_infix (startsWith_iff.mp hstart) hleads ⟨before, after, by rw [hupper, List.append_assoc]⟩
      (by decide)
    exact (hfits (hkeeps.startsWith (startsWith_iff.mpr hlong)) pos hpos).1
  · intro horder hbyte pos hpos
    obtain ⟨clause, hclause⟩ := (hkeeps.byteRfind hpos).1.exists_fromByte
    exact ⟨horder pos hpos, clause, hclause, fun _ _ _ _ => (hkeeps.fromByte hclause).trim.engineFits⟩

/-- A keyword at the start and ENGINE, which the own parser finds in a text, stand in it as it was given. -/
theorem looksLike_of_found {keyword sql : List Char} {pos : Nat}
    (hstart : startsWith keyword (trim (upperText (trimSemicolons (trim sql)))) = true)
    (hpos : byteRfind " ENGINE".toList (upperText (trim (trimSemicolons (trim (trimSemicolons (trim sql)))))) = some pos) :
    startsWith keyword (upperText (trim sql)) = true ∧ containsText " ENGINE".toList (upperText (trim sql)) = true := by
  have hhead := head?_trim sql
  have hleads := trimSemicolons_isPrefix (trim sql)
  have hheadCut := head?_of_isPrefix hleads hhead
  constructor
  · rw [startsWith_iff]
    have hcut := (startsWith_iff.mp hstart).trans (trim_isPrefix (head?_upperText hheadCut))
    exact hcut.trans (upperText_isPrefix hleads)
  · rw [containsText_iff]
    obtain ⟨before, after, hupper, -⟩ := exists_of_byteRfind hpos
    have hinside : " ENGINE".toList <:+: upperText (trim (trimSemicolons (trim (trimSemicolons (trim sql))))) :=
      ⟨before, after, by rw [hupper, List.append_assoc]⟩
    exact hinside.trans (upperText_isPrefix ((trim_trimSemicolons_isPrefix hheadCut).trans hleads)).isInfix

/-- The own parser gets no engine statement of a text that does not look like one. -/
theorem alterTableFits_of_not_looksLike {sql : List Char} (hlooks : looksLikeAlterTableEngine (trim sql) = false)
    (hstart : startsWith "ALTER TABLE ".toList (trim (upperText (trimSemicolons (trim sql)))) = true) :
    AlterTableFits (trimSemicolons (trim sql)) := by
  intro hbyte pos hpos
  have hfound := looksLike_of_found hstart hpos
  rw [looksLikeAlterTableEngine, hfound.1, hfound.2] at hlooks
  cases hlooks

/-! ### Where an index starts -/

/-- Semicolons at the end hold no keyword. -/
theorem infix_trimSemicolons {pattern text : List Char} (hsemicolon : ';' ∉ pattern) (hne : pattern ≠ [])
    (h : pattern <:+: upperText text) : pattern <:+: upperText (trimSemicolons text) := by
  have hsemicolons : ∀ c ∈ text.rtakeWhile (· = ';'), c = ';' := fun c hc =>
    of_decide_eq_true (@List.mem_rtakeWhile_imp _ (· = ';') _ _ hc)
  have hascii : ∀ c ∈ text.rtakeWhile (· = ';'), c.toNat < 128 := fun c hc => by rw [hsemicolons c hc]; decide
  rw [← @List.rdropWhile_append_rtakeWhile _ (· = ';') text, upperText_append, upperText_ascii hascii] at h
  cases htail : text.rtakeWhile (· = ';') with
  | nil =>
      rw [htail, List.map_nil, List.append_nil] at h
      exact h
  | cons c more =>
      rw [htail] at h hsemicolons
      obtain ⟨rfl, hmore⟩ := List.forall_mem_cons.mp hsemicolons
      rcases infix_of_notMem hsemicolon h with h | h
      · exact h
      · obtain ⟨d, hd⟩ := List.exists_mem_of_ne_nil pattern hne
        obtain ⟨e, he, rfl⟩ := List.mem_map.mp (h.subset hd)
        rw [hmore e he] at hd
        exact absurd hd hsemicolon

omit [UpperCasing] in
/-- No `unwrap` fails: in a text that has INDEX the name of the index starts somewhere. -/
theorem exists_afterIndexStart {text : List Char} (h : " INDEX ".toList <:+: text) :
    ∃ start, afterIndexStart (containsText "UNIQUE".toList text) text = some start ∧ IsBoundary start text := by
  rw [afterIndexStart]
  cases hunique : containsText "UNIQUE".toList text with
  | false =>
      cases hfind : byteFind " INDEX ".toList text with
      | none => exact absurd h (byteFind_eq_none_iff.mp hfind)
      | some pos =>
          obtain ⟨before, after, rfl, rfl, -⟩ := exists_of_byteFind hfind
          refine ⟨byteLength before + 6, rfl, before ++ " INDEX".toList, ' ' :: after, ?_, byteLength_append _ _⟩
          exact (List.append_assoc before " INDEX".toList (' ' :: after)).symm
  | true =>
      obtain ⟨idx, hidx, before, after, rfl, rfl⟩ : ∃ idx,
          (byteFind "UNIQUE INDEX".toList text).or (byteFind "UNIQUE".toList text) = some idx ∧
            ∃ before after, text = before ++ ("UNIQUE".toList ++ after) ∧ byteLength before = idx := by
        cases hboth : byteFind "UNIQUE INDEX".toList text with
        | some idx =>
            obtain ⟨before, after, rfl, hlength, -⟩ := exists_of_byteFind hboth
            exact ⟨idx, rfl, before, " INDEX".toList ++ after, rfl, hlength⟩
        | none =>
            obtain ⟨idx, hidx⟩ := Option.isSome_iff_exists.mp hunique
            obtain ⟨before, after, rfl, hlength, -⟩ := exists_of_byteFind hidx
            exact ⟨idx, hidx, before, after, rfl, hlength⟩
      rw [if_pos rfl, hidx]
      by_cases hboth : startsWith "UNIQUE INDEX".toList ("UNIQUE".toList ++ after) = true
      · obtain ⟨rest, hrest⟩ := startsWith_iff.mp hboth
        refine ⟨byteLength before + 12, ?_, before ++ "UNIQUE INDEX".toList, rest, ?_, byteLength_append _ _⟩
        · show (fromByte (byteLength before) _ >>= fun cut => _) = _
          rw [fromByte_byteLength]
          show some _ = _
          rw [if_pos hboth]
        · rw [← hrest, List.append_assoc]
      · refine ⟨byteLength before + 6, ?_, before ++ "UNIQUE".toList, after, (List.append_assoc _ _ _).symm,
          byteLength_append _ _⟩
        show (fromByte (byteLength before) _ >>= fun cut => _) = _
        rw [fromByte_byteLength]
        show some _ = _
        rw [if_neg hboth]

/-- A text goes to the parser of CREATE INDEX. -/
def ReachesCreateIndex (sql : List Char) : Prop :=
  let upper := trim (upperText (trimSemicolons (trim sql)))
  startsWith "CREATE ".toList upper ∧ containsText " INDEX ".toList upper ∧ ¬ startsWith "CREATE TABLE ".toList upper ∧
    ¬ startsWith "CREATE USER ".toList upper

/-- The parentheses behind the last ON are in order. -/
def ColumnsInOrder (sql : List Char) : Prop :=
  let sql := trimSemicolons (trim (trimSemicolons (trim sql)))
  ∀ pos behindOn, byteRfind " ON ".toList (upperText sql) = some pos → fromByte (pos + 4) sql = some behindOn →
    ParenthesesInOrder (trim behindOn)

theorem createIndexFits_iff {sql : List Char} (h : KeepsLengths sql)
    (hindex : containsText " INDEX ".toList (trim (upperText sql)) = true) :
    CreateIndexFits sql ↔ ∀ pos behindOn, byteRfind " ON ".toList (upperText (trimSemicolons (trim sql))) = some pos →
      fromByte (pos + 4) (trimSemicolons (trim sql)) = some behindOn → ParenthesesInOrder (trim behindOn) := by
  have hkeeps := h.trim.trimSemicolons
  rw [trim_upperText, containsText_iff] at hindex
  obtain ⟨start, hstart, hboundary⟩ := exists_afterIndexStart (infix_trimSemicolons (by decide) (by decide) hindex)
  rw [CreateIndexFits]
  constructor
  · rintro ⟨-, horder⟩ pos behindOn hpos hbehindOn
    obtain ⟨other, hother, hparens⟩ := horder pos hpos
    obtain rfl := Option.some.inj (hbehindOn.symm.trans hother)
    exact hparens
  · intro horder
    refine ⟨⟨start, hstart, hkeeps.isBoundary_iff.mp hboundary⟩, fun pos hpos => ?_⟩
    obtain ⟨behindOn, hbehindOn⟩ := (hkeeps.byteRfind hpos).2.exists_fromByte
    exact ⟨behindOn, hbehindOn, horder pos behindOn hpos hbehindOn⟩

omit [UpperCasing] in
/-- A text starts with one keyword only. -/
theorem not_startsWith {front other text : List Char} (h : startsWith front text = true) (hother : ¬ other <+: front)
    (hfront : ¬ front <+: other) : ¬ startsWith other text = true := by
  intro hstart
  rcases List.prefix_or_prefix_of_prefix (startsWith_iff.mp h) (startsWith_iff.mp hstart) with hle | hle
  · exact hfront hle
  · exact hother hle

omit [UpperCasing] in
theorem stripKeyword_subset (upperKeyword lowerKeyword sql : List Char) :
    stripKeyword upperKeyword lowerKeyword sql ⊆ sql := by
  have hstrip {pattern rest : List Char} (h : stripPrefix pattern sql = some rest) : rest ⊆ sql := by
    rw [stripPrefix] at h
    split at h
    next => exact Option.some.inj h ▸ List.drop_subset _ _
    next => cases h
  rw [stripKeyword]
  cases hupper : stripPrefix upperKeyword sql with
  | some rest => exact hstrip hupper
  | none =>
      cases hlower : stripPrefix lowerKeyword sql with
      | some rest => exact hstrip hlower
      | none => exact List.nil_subset sql

theorem customFits_iff {sql : List Char} (h : KeepsLengths sql) (hlooks : looksLikeAlterTableEngine (trim sql) = false) :
    CustomFits sql ↔ (ReachesCreateIndex sql → ColumnsInOrder sql) := by
  have hkeeps := h.trim.trimSemicolons
  have hstrip {keyword small : List Char} : KeepsLengths (stripKeyword keyword small (trimSemicolons (trim sql))) :=
    hkeeps.mono (stripKeyword_subset _ _ _)
  rw [CustomFits]
  constructor
  · rintro hfits ⟨hcreate, hindex, htable, huser⟩
    have hnot {keyword : List Char} (hkeyword : ¬ keyword <+: "CREATE ".toList) (hother : ¬ "CREATE ".toList <+: keyword) :
        ¬ startsWith keyword (trim (upperText (trimSemicolons (trim sql)))) = true := not_startsWith hcreate hkeyword hother
    have hguarded :
        ¬ startsWith "CREATE USER IF NOT EXISTS ".toList (trim (upperText (trimSemicolons (trim sql)))) = true :=
      fun hstart => huser (startsWith_iff.mpr (List.IsPrefix.trans (by decide) (startsWith_iff.mp hstart)))
    rw [if_neg htable, if_neg (hnot (by decide) (by decide)),
      if_neg (Bool.or_eq_true_iff.not.mpr (not_or.mpr ⟨hnot (by decide) (by decide), hnot (by decide) (by decide)⟩)),
      if_neg (Bool.or_eq_true_iff.not.mpr (not_or.mpr ⟨huser, hguarded⟩)),
      if_neg (Bool.or_eq_true_iff.not.mpr (not_or.mpr ⟨hnot (by decide) (by decide), hnot (by decide) (by decide)⟩)),
      if_neg (hnot (by decide) (by decide)), if_neg (hnot (by decide) (by decide)), if_neg (hnot (by decide) (by decide)),
      if_pos (Bool.and_eq_true_iff.mpr ⟨hcreate, hindex⟩)] at hfits
    exact (createIndexFits_iff hkeeps hindex).mp hfits
  · intro hcolumns
    simp only [ite_prop_iff_and]
    refine ⟨fun _ => hkeeps.createTableFits, fun htable => ?_⟩
    refine ⟨fun halter => alterTableFits_of_not_looksLike hlooks halter, fun _ => ?_⟩
    refine ⟨fun _ => trivial, fun _ => ?_⟩
    refine ⟨fun _ => ?_, fun huser => ?_⟩
    · split
      · exact hstrip.trim.userFits
      · exact hstrip.trim.userFits
    refine ⟨fun _ => trivial, fun _ => ?_⟩
    refine ⟨fun _ => hstrip.trim.userFits, fun _ => ?_⟩
    refine ⟨fun _ => hkeeps.grantFits true, fun _ => ?_⟩
    refine ⟨fun _ => hkeeps.grantFits false, fun _ => ?_⟩
    refine ⟨fun hcreate => ?_, fun _ => ?_⟩
    · obtain ⟨hcreate, hindex⟩ := Bool.and_eq_true_iff.mp hcreate
      rw [Bool.or_eq_true, not_or] at huser
      exact (createIndexFits_iff hkeeps hindex).mpr (hcolumns ⟨hcreate, hindex, htable, huser.1⟩)
    refine ⟨fun _ => hkeeps.dropIndexFits, fun _ => ?_⟩
    refine ⟨fun _ => trivial, fun _ => ?_⟩
    refine ⟨fun _ => trivial, fun _ => ?_⟩
    refine ⟨fun huse => ?_, fun _ => trivial⟩
    have hhead := head?_upperText (head?_of_isPrefix (trimSemicolons_isPrefix (trim sql)) (head?_trim sql))
    have hshort : "USE".toList <+: upperText (trimSemicolons (trim sql)) :=
      (List.IsPrefix.trans (by decide) (startsWith_iff.mp huse)).trans (trim_isPrefix hhead)
    exact hkeeps.startsWith (startsWith_iff.mpr hshort)

section

variable [Rendering] [SqlExprText] [SqlTableText] [SqlParser] (uuidv7 : BitVec 128)

/-- The name of the table stands before its ENGINE, and the parentheses of an index are in order. -/
def CutsInOrder (sql : List Char) : Prop :=
  if looksLikeCreateTableWithEngine (trim sql) then True
  else if looksLikeAlterTableEngine (trim sql) then NameBeforeEngine (trim sql)
  else FallsBack uuidv7 sql → ReachesCreateIndex sql → ColumnsInOrder sql

theorem parseFits_iff_cutsInOrder {sql : List Char} (h : KeepsLengths sql) :
    ParseFits uuidv7 sql ↔ CutsInOrder uuidv7 sql := by
  rw [ParseFits, CutsInOrder]
  split
  next => exact iff_of_true h.trim.createTableFits trivial
  next =>
    split
    next halter =>
      rw [looksLikeAlterTableEngine, Bool.and_eq_true] at halter
      exact alterTableFits_iff h.trim (head?_trim sql) halter.1
    next halter =>
      rw [Bool.not_eq_true] at halter
      exact imp_congr_right fun _ => customFits_iff h halter

/-- The parser panics just where a text cannot be cut; in a text whose characters keep their lengths in upper case, as
all of ASCII do, just where two cuts come in the wrong order. -/
theorem parse_returns_iff (sql : List Char) :
    (Returns (parse uuidv7 sql) ↔ ParseFits uuidv7 sql) ∧
      (KeepsLengths sql → (ParseFits uuidv7 sql ↔ CutsInOrder uuidv7 sql)) :=
  ⟨returns_parse_iff uuidv7 sql, fun h => parseFits_iff_cutsInOrder uuidv7 h⟩

end

end

open AsciiCase PlainText in
/-- Two texts on which the parser panics. -/
theorem not_parse_returns :
    ¬ Returns (parse 0 "ALTER TABLE ENGINE".toList) ∧ ¬ Returns (parse 0 "CREATE INDEX a ON t )(".toList) := by
  have halter : parse 0 "ALTER TABLE ENGINE".toList = (none : Option _) := rfl
  have hindex : parse 0 "CREATE INDEX a ON t )(".toList = (none : Option _) := rfl
  exact ⟨fun h => h halter, fun h => h hindex⟩

end HelionDb
