import HelionDb.KeywordSearch

/-! Passwords in CREATE USER and ALTER USER. The keywords are stripped in capitals or in small letters only, the word
PASSWORD is looked for in the whole rest, and the password ends at the first quote, doubled or not. -/

namespace HelionDb

open scoped AlongText

/-- The two statements that set a password. -/
inductive UserVerb where
  | create
  | alter
  deriving DecidableEq

namespace UserVerb

def keyword : UserVerb → List Char
  | create => "CREATE USER".toList
  | alter => "ALTER USER".toList

/-- The keyword in small letters. -/
def small : UserVerb → List Char
  | create => "create user".toList
  | alter => "alter user".toList

def statement (username password : List Char) : UserVerb → HelionStatement
  | create => .createUser (String.ofList username) (String.ofList password)
  | alter => .alterUser (String.ofList username) (String.ofList password)

end UserVerb

/-- `WITH PASSWORD` or `PASSWORD` between spaces. -/
def passwordKeyword (withGiven : Bool) : List Char := if withGiven then " WITH PASSWORD ".toList else " PASSWORD ".toList

/-- A text with each quote doubled. -/
def doubleQuotes (text : List Char) : List Char := text.flatMap fun c => if c = '\'' then ['\'', '\''] else [c]

/-- The name with the clause of the password. -/
def passwordClause (name keyword password : List Char) : List Char :=
  name ++ (keyword ++ '\'' :: (doubleQuotes password ++ ['\'']))

/-- The text of a statement that sets a password. -/
def userText (verb name keyword password : List Char) : List Char := verb ++ ' ' :: passwordClause name keyword password

section

variable [UpperCasing] [Rendering] [SqlExprText] [SqlTableText] [SqlParser] (uuidv7 : BitVec 128)

/-- A text is left to the own parser: `sqlparser` does not read it, or a statement of it is not converted. -/
def FallsBack (sql : List Char) : Prop :=
  ∀ statements, SqlParser.parseSql sql = .ok statements →
    ∃ err, statements.mapM (convertStatement uuidv7) = .error err

theorem parse_of_fallsBack {sql : List Char} (hcreate : looksLikeCreateTableWithEngine (trim sql) = false)
    (halter : looksLikeAlterTableEngine (trim sql) = false) (hfall : FallsBack uuidv7 sql) :
    parse uuidv7 sql = parseCustom uuidv7 sql := by
  rw [parse, if_neg (by rw [hcreate]; exact Bool.false_ne_true), if_neg (by rw [halter]; exact Bool.false_ne_true)]
  cases hparsed : SqlParser.parseSql sql with
  | error err => rfl
  | ok statements =>
      obtain ⟨err, herr⟩ := hfall statements hparsed
      dsimp only
      rw [herr]

end

/-! ### Clauses -/

section

variable [UpperCasing] {name keyword password : List Char} {withGiven : Bool}

omit [UpperCasing] in
theorem doubleQuotes_of_notMem (h : '\'' ∉ password) : doubleQuotes password = password := by
  rw [doubleQuotes]
  induction password with
  | nil => rfl
  | cons c rest ih =>
      rw [List.mem_cons, not_or] at h
      rw [List.flatMap_cons, ih h.2, if_neg (Ne.symm h.1)]
      rfl

omit [UpperCasing] in
theorem passwordClause_last (c : Char) : c ∈ (passwordClause name keyword password).getLast? ↔ c = '\'' := by
  rw [passwordClause, ← List.cons_append, ← List.append_assoc, ← List.append_assoc, List.getLast?_concat, Option.mem_some_iff]
  exact eq_comm

omit [UpperCasing] in
theorem trim_passwordClause_self (hname : IsIdentifier name) :
    trim (passwordClause name keyword password) = passwordClause name keyword password := by
  refine trim_eq_self (hname.head? _) fun c hc => ?_
  rw [(passwordClause_last c).mp hc]
  rfl

omit [UpperCasing] in
theorem trim_passwordClause (hname : IsIdentifier name) :
    trim (trimSemicolons (trim (passwordClause name keyword password))) = passwordClause name keyword password := by
  have htrim := @trim_passwordClause_self name keyword password hname
  rw [htrim, trimSemicolons_eq_self, htrim]
  intro c hc
  rw [(passwordClause_last c).mp hc]
  decide

omit [UpperCasing] in
/-- The password that is read ends at the first quote. -/
theorem passwordOf_quoted : passwordOf ('\'' :: (doubleQuotes password ++ ['\''])) =
    pure ((doubleQuotes password ++ ['\'']).takeWhile fun c => !decide (c = '\'')) := by
  rw [passwordOf, show stripPrefix ['\''] ('\'' :: (doubleQuotes password ++ ['\''])) = some _ from stripPrefix_append ['\''] _]
  dsimp only
  rw [uptoByte_byteFindIf]
  rfl

omit [UpperCasing] in
theorem takeWhile_doubleQuotes_iff :
    ((doubleQuotes password ++ ['\'']).takeWhile fun c => !decide (c = '\'')) = password ↔ '\'' ∉ password := by
  constructor
  · intro h hmem
    rw [← h] at hmem
    have hquote := List.mem_takeWhile_imp hmem
    exact absurd hquote (by decide)
  · intro h
    rw [doubleQuotes_of_notMem h, List.takeWhile_append_of_pos, List.takeWhile_cons_of_neg (by decide), List.append_nil]
    intro c hc
    have hne : c ≠ '\'' := fun heq => h (heq ▸ hc)
    rw [decide_eq_false hne]
    rfl

theorem upperText_passwordClause (hkeyword : TypedAs (passwordKeyword withGiven) keyword) :
    upperText (passwordClause name keyword password) =
      upperText name ++ (passwordKeyword withGiven ++ '\'' :: (upperText (doubleQuotes password) ++ ['\''])) := by
  have hquote : UpperCasing.upper '\'' = ['\''] := upper_ascii (by decide)
  have hupper : upperText keyword = passwordKeyword withGiven := hkeyword.upperText (by cases withGiven <;> decide)
  rw [passwordClause, upperText_append, upperText_append, upperText_cons, upperText_append, upperText_cons, hquote, hupper]
  rfl

/-- The clause is read at the keyword. -/
theorem parseUserWithPassword_of_found (hname : IsIdentifier name)
    (hkeyword : TypedAs (passwordKeyword withGiven) keyword)
    (hfound : [" WITH PASSWORD ".toList, " PASSWORD ".toList].findSome?
      (fun kw => (byteFind kw (upperText (passwordClause name keyword password))).map (kw, ·)) =
        some (passwordKeyword withGiven, byteLength (upperText name))) :
    parseUserWithPassword (passwordClause name keyword password) =
      pure (String.ofList name,
        String.ofList ((doubleQuotes password ++ ['\'']).takeWhile fun c => !decide (c = '\''))) := by
  have hlength : byteLength keyword = byteLength (passwordKeyword withGiven) :=
    hkeyword.byteLength (by cases withGiven <;> decide)
  have hrest :
      fromByte (byteLength name + byteLength (passwordKeyword withGiven)) (passwordClause name keyword password) =
      some ('\'' :: (doubleQuotes password ++ ['\''])) := by
    rw [← hlength, ← byteLength_append, passwordClause, ← List.append_assoc]
    exact fromByte_byteLength _ _
  have htrimName : trim name = name := by
    have hend := hname.head? []
    rw [List.append_nil] at hend
    refine trim_eq_self hend fun c hc => isWhitespace_of_isIdentChar (hname.2 c (List.mem_of_getLast? hc))
  have htrimRest : trim (trimSemicolons (trim ('\'' :: (doubleQuotes password ++ ['\''])))) =
      '\'' :: (doubleQuotes password ++ ['\'']) := by
    have hlast (c : Char) (hc : c ∈ ('\'' :: (doubleQuotes password ++ ['\''])).getLast?) : c = '\'' := by
      rw [← List.cons_append, List.getLast?_concat] at hc
      exact (Option.some.inj hc).symm
    have htrim : trim ('\'' :: (doubleQuotes password ++ ['\''])) = '\'' :: (doubleQuotes password ++ ['\'']) := by
      refine trim_eq_self ?_ fun c hc => by rw [hlast c hc]; rfl
      rintro c ⟨⟩
      rfl
    rw [htrim, trimSemicolons_eq_self fun c hc => by rw [hlast c hc]; decide, htrim]
  rw [parseUserWithPassword, trim_passwordClause hname, hfound, hname.byteLength_upper]
  dsimp only
  rw [hrest, passwordClause, uptoByte_byteLength, Parsed.some_bind, Parsed.some_bind, htrimRest, passwordOf_quoted,
    htrimName]
  rfl

/-- What stands before the password has no place for the longer keyword. -/
theorem not_infix_before (hname : IsIdentifier name) :
    ¬ " WITH PASSWORD ".toList <:+: upperText name ++ (" PASSWORD ".toList) := by
  intro h
  rcases prefix_or_infix_of_head (hname.upper.notMem (by decide)) h with h | h
  · exact absurd h (by decide)
  · exact absurd h (by decide)

theorem infix_password (hname : IsIdentifier name)
    (h : " WITH PASSWORD ".toList <:+: upperText name ++ (" PASSWORD ".toList ++ '\'' :: (upperText password ++ ['\'']))) :
    " WITH PASSWORD ".toList <:+: upperText password := by
  rw [← List.append_assoc] at h
  rcases infix_of_notMem (by decide) h with h | h
  · exact absurd h (not_infix_before hname)
  · rcases infix_of_notMem (by decide) h with h | h
    · exact h
    · exact absurd h (by decide)

omit [UpperCasing] in
/-- What is read at the keyword is the password exactly if that has no quote. -/
theorem read_eq_iff :
    (pure (String.ofList name, String.ofList ((doubleQuotes password ++ ['\'']).takeWhile fun c => !decide (c = '\''))) :
        Parsed (String × String)) = pure (String.ofList name, String.ofList password) ↔ '\'' ∉ password := by
  rw [← takeWhile_doubleQuotes_iff]
  constructor
  · intro h
    exact String.ofList_inj.mp (Prod.mk.inj (Parsed.pure_inj h)).2
  · intro h
    rw [h]

omit [UpperCasing] in
/-- Of two texts that start a third one, the one of fewer bytes starts the other. -/
theorem prefix_of_byteLength_le {front back other rest : List Char} (h : front ++ back = other ++ rest)
    (hle : byteLength front ≤ byteLength other) : front <+: other := by
  rcases List.append_eq_append_iff.mp h with ⟨more, hother, -⟩ | ⟨more, hfront, -⟩
  · exact ⟨more, hother.symm⟩
  · cases more with
    | nil => exact ⟨[], by rw [hfront, List.append_nil, List.append_nil]⟩
    | cons c more =>
        rw [hfront, byteLength_append, byteLength_cons] at hle
        have := c.utf8Size_pos
        omega

/-- A keyword inside the password stands behind the quote before it. -/
theorem le_of_byteFind (hname : IsIdentifier name) {pos : Nat} {rest : List Char}
    (h : byteFind " WITH PASSWORD ".toList ((upperText name ++ " PASSWORD ".toList ++ ['\'']) ++ rest) = some pos) :
    byteLength (upperText name ++ " PASSWORD ".toList ++ ['\'']) ≤ pos := by
  obtain ⟨before, after, htext, rfl, -⟩ := exists_of_byteFind h
  rcases List.append_eq_append_iff.mp htext with ⟨more, hmore, -⟩ | ⟨more, hfront, hback⟩
  · rw [hmore, @byteLength_append _ more]
    exact Nat.le_add_right _ _
  · rcases List.eq_nil_or_concat more with rfl | ⟨init, last, rfl⟩
    · rw [hfront, List.append_nil]
    · -- The keyword would have to start before the quote and go over it.
      exfalso
      rw [List.concat_eq_append, ← List.append_assoc] at hfront
      rw [List.concat_eq_append] at hback
      obtain ⟨hinit, hlast⟩ := List.append_inj' hfront rfl
      obtain rfl := List.singleton_inj.mp hlast
      rcases List.append_eq_append_iff.mp hback with ⟨tail, hkeyword, -⟩ | ⟨tail, hkeyword, -⟩
      · refine not_infix_before hname ?_
        have hinside : " WITH PASSWORD ".toList <:+: init ++ ['\''] := ⟨[], tail, hkeyword.symm⟩
        rcases infix_of_notMem (by decide) hinside with h | h
        · rw [hinit]
          exact h.trans (List.suffix_append _ _).isInfix
        · exact absurd h (by decide)
      · have hquote : '\'' ∈ " WITH PASSWORD ".toList := by
          rw [hkeyword]
          exact List.mem_append_left _ (List.mem_append_right _ List.mem_cons_self)
        exact absurd hquote (by decide)

/-- With the longer keyword inside the password the name is cut behind the quote. -/
theorem not_read_of_longer (hname : IsIdentifier name) (hkeyword : TypedAs (passwordKeyword false) keyword) {pos : Nat}
    (hlonger : byteFind " WITH PASSWORD ".toList (upperText (passwordClause name keyword password)) = some pos) :
    parseUserWithPassword (passwordClause name keyword password) ≠ pure (String.ofList name, String.ofList password) := by
  intro h
  have hclause :
      passwordClause name keyword password = name ++ keyword ++ ['\''] ++ (doubleQuotes password ++ ['\'']) := by
    rw [passwordClause, List.append_assoc, List.append_assoc]
    rfl
  have hle : byteLength (name ++ keyword ++ ['\'']) ≤ pos := by
    have hupper := @upperText_passwordClause _ name keyword password false hkeyword
    have hle := @le_of_byteFind _ name hname pos (upperText (doubleQuotes password) ++ ['\'']) (by
      rw [← hlonger, hupper]
      simp only [List.append_assoc, List.cons_append, List.nil_append]
      rfl)
    have hlength := hkeyword.byteLength (by decide)
    rw [byteLength_append, byteLength_append, hname.byteLength_upper] at hle
    rw [byteLength_append, byteLength_append, hlength]
    exact hle
  rw [parseUserWithPassword, trim_passwordClause hname, List.findSome?_cons, hlonger] at h
  dsimp only [Option.map_some] at h
  cases husername : uptoByte pos (passwordClause name keyword password) with
  | none =>
      rw [husername, Parsed.none_bind] at h
      cases h
  | some username =>
      rw [husername, Parsed.some_bind] at h
      obtain ⟨rest, -, h⟩ := Parsed.bind_eq_pure_iff.mp h
      obtain ⟨read, -, h⟩ := Parsed.bind_eq_pure_iff.mp h
      have hsame : trim username = name := String.ofList_inj.mp (Prod.mk.inj (Parsed.pure_inj h)).1
      obtain ⟨behind, hcut, rfl⟩ := uptoByte_eq_some_iff.mp husername
      have hquote : '\'' ∈ trim username := by
        have hleads := prefix_of_byteLength_le (hclause.symm.trans hcut) hle
        exact mem_trim rfl (hleads.subset (List.mem_append_right _ List.mem_cons_self))
      rw [hsame] at hquote
      exact hname.notMem (by decide) hquote

/-- The name and the password are read exactly if no quote stands in the password and the keyword before it is the first. -/
theorem parseUserWithPassword_iff (hname : IsIdentifier name) (hkeyword : TypedAs (passwordKeyword withGiven) keyword) :
    parseUserWithPassword (passwordClause name keyword password) = pure (String.ofList name, String.ofList password) ↔
      '\'' ∉ password ∧ (withGiven = false → ¬ " WITH PASSWORD ".toList <:+: upperText password) := by
  have hupper := @upperText_passwordClause _ name keyword password withGiven hkeyword
  have hspace : ' ' ∉ upperText name := hname.upper.notMem (by decide)
  cases withGiven with
  | true =>
      have hfound : byteFind " WITH PASSWORD ".toList (upperText (passwordClause name keyword password)) =
          some (byteLength (upperText name)) := by
        rw [hupper]
        exact byteFind_of_notMem hspace
      rw [parseUserWithPassword_of_found hname hkeyword (by rw [List.findSome?_cons, hfound]; rfl), read_eq_iff]
      exact ⟨fun h => ⟨h, nofun⟩, And.left⟩
  | false =>
      cases hlonger : byteFind " WITH PASSWORD ".toList (upperText (passwordClause name keyword password)) with
      | none =>
          have hfound : byteFind " PASSWORD ".toList (upperText (passwordClause name keyword password)) =
              some (byteLength (upperText name)) := by
            rw [hupper]
            exact byteFind_of_notMem hspace
          rw [parseUserWithPassword_of_found hname hkeyword
            (by rw [List.findSome?_cons, hlonger, List.findSome?_cons, hfound]; rfl), read_eq_iff]
          refine ⟨fun h => ⟨h, fun _ hinside => ?_⟩, And.left⟩
          rw [byteFind_eq_none_iff, hupper, doubleQuotes_of_notMem h] at hlonger
          refine hlonger (hinside.trans ⟨upperText name ++ (" PASSWORD ".toList ++ ['\'']), ['\''], ?_⟩)
          simp only [List.append_assoc, List.cons_append, List.nil_append]
          rfl
      | some pos =>
          refine iff_of_false (fun h => ?_) fun ⟨hquote, hfree⟩ => ?_
          · exact absurd h (not_read_of_longer hname hkeyword hlonger)
          · refine hfree rfl (infix_password hname ?_)
            have hinside : " WITH PASSWORD ".toList <:+: upperText (passwordClause name keyword password) := by
              by_contra hnot
              rw [byteFind_eq_none_iff.mpr hnot] at hlonger
              cases hlonger
            rw [hupper, doubleQuotes_of_notMem hquote] at hinside
            exact hinside

theorem parseUserWithPassword_nil :
    parseUserWithPassword [] = throw (.parse "Expected PASSWORD clause in user statement") :=
  rfl

end

section

variable [UpperCasing] {verb : UserVerb} {typed name keyword password : List Char} {withGiven : Bool}

omit [UpperCasing] in
theorem UserVerb.keyword_ascii : ∀ c ∈ verb.keyword, c.toNat < 128 := by
  cases verb <;> decide

omit [UpperCasing] in
theorem stripPrefix_of_length {front back pattern : List Char} (hlength : pattern.length = front.length) :
    stripPrefix pattern (front ++ back) = if pattern = front then some back else none := by
  split
  next hsame => rw [hsame, stripPrefix_append]
  next hother =>
    refine if_neg fun h => hother ?_
    obtain ⟨rest, hrest⟩ := startsWith_iff.mp h
    exact (List.append_inj hrest hlength).1

omit [UpperCasing] in
/-- A keyword is stripped in capitals or in small letters. -/
theorem stripKeyword_userText (hverb : TypedAs verb.keyword typed) (rest : List Char) :
    stripKeyword verb.keyword verb.small (typed ++ rest) =
      if typed = verb.keyword ∨ typed = verb.small then rest else [] := by
  have hsmall : verb.small.length = typed.length := by
    rw [hverb.length]
    cases verb <;> decide
  rw [stripKeyword, stripPrefix_of_length hverb.length.symm, stripPrefix_of_length hsmall]
  by_cases hkeyword : verb.keyword = typed
  · have htyped : typed = verb.keyword ∨ typed = verb.small := .inl hkeyword.symm
    rw [if_pos hkeyword, if_pos htyped]
    rfl
  · by_cases hlower : verb.small = typed
    · have htyped : typed = verb.keyword ∨ typed = verb.small := .inr hlower.symm
      rw [if_neg hkeyword, if_pos hlower, if_pos htyped]
      rfl
    · rw [if_neg hkeyword, if_neg hlower, if_neg (not_or.mpr ⟨Ne.symm hkeyword, Ne.symm hlower⟩)]
      rfl

/-- IF NOT EXISTS does not stand between the name and the password. -/
theorem not_infix_clause (hname : IsIdentifier name) :
    ¬ ['T', ' ', 'E'] <:+: upperText name ++ passwordKeyword withGiven := by
  have hspace : ' ' ∉ upperText name := hname.upper.notMem (by decide)
  intro h
  cases withGiven with
  | true =>
      rcases around_or_inside (by decide) hspace h with ⟨-, h⟩ | h
      · cases h
      · exact absurd h (by decide)
  | false =>
      rcases around_or_inside (by decide) hspace h with ⟨-, h⟩ | h
      · cases h
      · exact absurd h (by decide)

omit [UpperCasing] in
theorem infix_ifNotExists (h : "IF NOT EXISTS".toList <:+: password) : ['T', ' ', 'E'] <:+: password :=
  List.IsInfix.trans (by decide) h

theorem upperText_userText (hverb : TypedAs verb.keyword typed) (hkeyword : TypedAs (passwordKeyword withGiven) keyword) :
    upperText (userText typed name keyword password) =
      verb.keyword ++ ' ' :: (upperText name ++ (passwordKeyword withGiven ++
        '\'' :: (upperText (doubleQuotes password) ++ ['\'']))) := by
  have hspace : UpperCasing.upper ' ' = [' '] := upper_ascii (by decide)
  rw [userText, upperText_append, hverb.upperText UserVerb.keyword_ascii, upperText_cons, hspace,
    upperText_passwordClause hkeyword]
  rfl

/-- IF NOT EXISTS stands in a statement exactly if it stands in the password. -/
theorem ifNotExists_iff (hname : IsIdentifier name) :
    "IF NOT EXISTS".toList <:+: "CREATE USER".toList ++ ' ' :: (upperText name ++ (passwordKeyword withGiven ++
        '\'' :: (password ++ ['\'']))) ↔ "IF NOT EXISTS".toList <:+: password := by
  constructor
  · intro h
    have hsplit :
        "CREATE USER".toList ++ ' ' :: (upperText name ++ (passwordKeyword withGiven ++ '\'' :: (password ++ ['\'']))) =
        ("CREATE".toList ++ ' ' :: ("USER".toList ++ ' ' :: (upperText name ++ passwordKeyword withGiven))) ++
          '\'' :: (password ++ ['\'']) := by
      simp
    rw [hsplit] at h
    rcases infix_of_notMem (by decide) h with h | h
    · exfalso
      rcases around_or_inside (by decide) (by decide) (infix_ifNotExists h) with ⟨h, -⟩ | h
      · exact absurd h (by decide)
      · rcases around_or_inside (by decide) (by decide) h with ⟨h, -⟩ | h
        · exact absurd h (by decide)
        · exact not_infix_clause hname h
    · rcases infix_of_notMem (by decide) h with h | h
      · exact h
      · exact absurd h (by decide)
  · rintro ⟨front, back, rfl⟩
    refine ⟨"CREATE USER".toList ++ ' ' :: (upperText name ++ (passwordKeyword withGiven ++ '\'' :: front)), back ++ ['\''], ?_⟩
    simp

/-- With IF NOT EXISTS in the password nothing is stripped. -/
theorem stripKeyword_ifNotExists (hverb : TypedAs UserVerb.create.keyword typed)
    (hkeyword : TypedAs (passwordKeyword withGiven) keyword) (hname : IsIdentifier name) :
    stripKeyword "CREATE USER IF NOT EXISTS".toList "create user if not exists".toList
      (userText typed name keyword password) = [] := by
  have hnone (pattern : List Char) (hpattern : upperText pattern = UserVerb.create.keyword ++ ' ' :: "IF NOT EXISTS".toList) :
      stripPrefix pattern (userText typed name keyword password) = none := by
    refine if_neg fun h => ?_
    obtain ⟨rest, hrest⟩ := startsWith_iff.mp h
    have hupper := @upperText_userText _ .create typed name keyword password withGiven hverb hkeyword
    rw [← hrest, upperText_append, hpattern, List.append_assoc] at hupper
    obtain ⟨-, hbehind⟩ := List.cons.inj (List.append_cancel_left hupper)
    rw [← List.append_assoc] at hbehind
    have hleads := prefix_of_notMem (by decide) ⟨_, hbehind⟩
    exact not_infix_clause hname (infix_ifNotExists hleads.isInfix)
  have hcapitals :
      upperText "CREATE USER IF NOT EXISTS".toList = UserVerb.create.keyword ++ ' ' :: "IF NOT EXISTS".toList :=
    (upperText_ascii (by decide)).trans (by decide)
  have hsmall :
      upperText "create user if not exists".toList = UserVerb.create.keyword ++ ' ' :: "IF NOT EXISTS".toList :=
    (upperText_ascii (by decide)).trans (by decide)
  rw [stripKeyword, hnone _ hcapitals, hnone _ hsmall]
  rfl

omit [UpperCasing] in
theorem userText_last (c : Char) : c ∈ (userText typed name keyword password).getLast? ↔ c = '\'' := by
  have hsplit : userText typed name keyword password =
      (typed ++ ' ' :: (name ++ (keyword ++ '\'' :: doubleQuotes password))) ++ ['\''] := by
    simp [userText, passwordClause]
  rw [hsplit, List.getLast?_concat, Option.mem_some_iff]
  exact eq_comm

omit [UpperCasing] in
theorem trim_userText (hverb : TypedAs verb.keyword typed) :
    trim (userText typed name keyword password) = userText typed name keyword password := by
  refine trim_eq_self (hverb.head? ?_ ?_ _) fun c hc => by rw [(userText_last c).mp hc]; rfl
  · cases verb <;> decide
  · cases verb <;> exact fun c hc => Option.some.inj hc ▸ rfl

omit [UpperCasing] in
theorem trimSemicolons_userText :
    trimSemicolons (userText typed name keyword password) = userText typed name keyword password := by
  refine trimSemicolons_eq_self fun c hc => ?_
  rw [(userText_last c).mp hc]
  decide

/-- The upper-cased text keeps its ends. -/
theorem trim_upperText_userText (hverb : TypedAs verb.keyword typed)
    (hkeyword : TypedAs (passwordKeyword withGiven) keyword) :
    trim (upperText (userText typed name keyword password)) = upperText (userText typed name keyword password) := by
  rw [upperText_userText hverb hkeyword]
  have hlast : verb.keyword ++ ' ' :: (upperText name ++ (passwordKeyword withGiven ++
      '\'' :: (upperText (doubleQuotes password) ++ ['\'']))) =
        (verb.keyword ++ ' ' :: (upperText name ++ (passwordKeyword withGiven ++
          '\'' :: upperText (doubleQuotes password)))) ++ ['\''] := by
    simp
  refine trim_eq_self ?_ fun c hc => ?_
  · cases verb <;> (rintro c ⟨⟩; rfl)
  · rw [hlast, List.getLast?_concat] at hc
    obtain rfl := Option.some.inj hc
    rfl

end

/-! ### Parsing -/

section

variable [UpperCasing] [Rendering] [SqlExprText] [SqlTableText] [SqlParser] {uuidv7 : BitVec 128}
  {typed name keyword password : List Char} {withGiven : Bool}

/-- A CREATE USER goes to its arm. -/
theorem parseCustom_createUser (hverb : TypedAs UserVerb.create.keyword typed)
    (hkeyword : TypedAs (passwordKeyword withGiven) keyword) :
    parseCustom uuidv7 (userText typed name keyword password) =
      let existing := containsText "IF NOT EXISTS".toList (upperText (userText typed name keyword password))
      let stripped := trim
        (if existing then
          stripKeyword "CREATE USER IF NOT EXISTS".toList "create user if not exists".toList
            (userText typed name keyword password)
        else stripKeyword UserVerb.create.keyword UserVerb.create.small (userText typed name keyword password))
      do
        let (username, password) ← parseUserWithPassword stripped
        if existing && findUserInStmt username then return []
        else return [.createUser username password] := by
  have hupper := @upperText_userText _ .create typed name keyword password withGiven hverb hkeyword
  have hother (pattern : List Char) (h : ∀ rest, startsWith pattern (UserVerb.create.keyword ++ ' ' :: rest) = false) :
      startsWith pattern (upperText (userText typed name keyword password)) = false := by
    rw [hupper, h]
  have hcreate : startsWith "CREATE USER ".toList (upperText (userText typed name keyword password)) = true := by
    rw [hupper]
    rfl
  rw [parseCustom, trim_userText hverb, trimSemicolons_userText, trim_upperText_userText hverb hkeyword]
  dsimp only
  rw [hother "CREATE TABLE ".toList fun _ => rfl, hother "ALTER TABLE ".toList fun _ => rfl,
    hother "EXPLAIN ".toList fun _ => rfl, hother "EXPLAIN ANALYZE ".toList fun _ => rfl, hcreate]
  rfl

/-- An ALTER USER goes to its arm. -/
theorem parseCustom_alterUser (hverb : TypedAs UserVerb.alter.keyword typed)
    (hkeyword : TypedAs (passwordKeyword withGiven) keyword) :
    parseCustom uuidv7 (userText typed name keyword password) = do
      let (username, password) ← parseUserWithPassword
        (trim (stripKeyword UserVerb.alter.keyword UserVerb.alter.small (userText typed name keyword password)))
      return [.alterUser username password] := by
  have hupper := @upperText_userText _ .alter typed name keyword password withGiven hverb hkeyword
  have hother (pattern : List Char) (h : ∀ rest, startsWith pattern (UserVerb.alter.keyword ++ ' ' :: rest) = false) :
      startsWith pattern (upperText (userText typed name keyword password)) = false := by
    rw [hupper, h]
  have halter : startsWith "ALTER USER ".toList (upperText (userText typed name keyword password)) = true := by
    rw [hupper]
    rfl
  rw [parseCustom, trim_userText hverb, trimSemicolons_userText, trim_upperText_userText hverb hkeyword]
  dsimp only
  rw [hother "CREATE TABLE ".toList fun _ => rfl, hother "ALTER TABLE ".toList fun _ => rfl,
    hother "EXPLAIN ".toList fun _ => rfl, hother "EXPLAIN ANALYZE ".toList fun _ => rfl,
    hother "CREATE USER ".toList fun _ => rfl, hother "CREATE USER IF NOT EXISTS ".toList fun _ => rfl,
    hother "DROP USER ".toList fun _ => rfl, hother "DROP USER IF EXISTS ".toList fun _ => rfl, halter]
  rfl

/-- A statement that sets a password is left to the own parser. -/
theorem parse_userText {verb : UserVerb} (hverb : TypedAs verb.keyword typed)
    (hkeyword : TypedAs (passwordKeyword withGiven) keyword)
    (hfall : FallsBack uuidv7 (userText typed name keyword password)) :
    parse uuidv7 (userText typed name keyword password) = parseCustom uuidv7 (userText typed name keyword password) := by
  have hupper := @upperText_userText _ verb typed name keyword password withGiven hverb hkeyword
  refine parse_of_fallsBack uuidv7 ?_ ?_ hfall
  · rw [trim_userText hverb, looksLikeCreateTableWithEngine, hupper]
    cases verb <;> rfl
  · rw [trim_userText hverb, looksLikeAlterTableEngine, hupper]
    cases verb <;> rfl

/-- A statement that sets a password is read with its name and its password exactly if its verb is typed in capitals or in
small letters, no quote stands in the password, IF NOT EXISTS does not stand in the one of CREATE USER, and WITH PASSWORD
does not where WITH is left out. -/
theorem parse_userText_iff {verb : UserVerb} (hverb : TypedAs verb.keyword typed)
    (hkeyword : TypedAs (passwordKeyword withGiven) keyword) (hname : IsIdentifier name)
    (hfall : FallsBack uuidv7 (userText typed name keyword password)) :
    parse uuidv7 (userText typed name keyword password) = pure [verb.statement name password] ↔
      (typed = verb.keyword ∨ typed = verb.small) ∧ '\'' ∉ password ∧
        (verb = .create → ¬ "IF NOT EXISTS".toList <:+: upperText password) ∧
        (withGiven = false → ¬ " WITH PASSWORD ".toList <:+: upperText password) := by
  rw [parse_userText hverb hkeyword hfall]
  have hstripped :
      parseUserWithPassword (trim (stripKeyword verb.keyword verb.small (userText typed name keyword password))) =
      if typed = verb.keyword ∨ typed = verb.small then parseUserWithPassword (passwordClause name keyword password)
      else throw (.parse "Expected PASSWORD clause in user statement") := by
    rw [userText, stripKeyword_userText hverb]
    split
    next => rw [trim_cons rfl, trim_passwordClause_self hname]
    next => rw [show trim [] = [] from rfl, parseUserWithPassword_nil]
  have hread := @parseUserWithPassword_iff _ name keyword password withGiven hname hkeyword
  cases verb with
  | alter =>
      rw [parseCustom_alterUser hverb hkeyword, hstripped]
      by_cases htyped : typed = UserVerb.alter.keyword ∨ typed = UserVerb.alter.small
      · rw [if_pos htyped]
        have hinj : Function.Injective fun read : String × String => [HelionStatement.alterUser read.1 read.2] := by
          rintro ⟨_, _⟩ ⟨_, _⟩ ⟨⟩
          rfl
        refine (@Parsed.bind_pure_iff _ _ _ hinj _ (String.ofList name, String.ofList password)).trans (hread.trans ?_)
        exact ⟨fun h => ⟨htyped, h.1, nofun, h.2⟩, fun h => ⟨h.2.1, h.2.2.2⟩⟩
      · rw [if_neg htyped]
        exact iff_of_false nofun fun h => htyped h.1
  | create =>
      rw [parseCustom_createUser hverb hkeyword]
      dsimp only
      have hexisting : containsText "IF NOT EXISTS".toList (upperText (userText typed name keyword password)) = true ↔
          "IF NOT EXISTS".toList <:+: upperText (doubleQuotes password) := by
        rw [containsText_iff, @upperText_userText _ .create typed name keyword password withGiven hverb hkeyword]
        exact ifNotExists_iff hname
      by_cases hinside : "IF NOT EXISTS".toList <:+: upperText (doubleQuotes password)
      · rw [hexisting.mpr hinside, if_pos rfl, stripKeyword_ifNotExists hverb hkeyword hname]
        refine iff_of_false nofun fun h => h.2.2.1 rfl ?_
        rw [doubleQuotes_of_notMem h.2.1] at hinside
        exact hinside
      · rw [Bool.eq_false_iff.mpr (hexisting.not.mpr hinside), if_neg Bool.false_ne_true, hstripped]
        by_cases htyped : typed = UserVerb.create.keyword ∨ typed = UserVerb.create.small
        · rw [if_pos htyped]
          have hinj : Function.Injective fun read : String × String => [HelionStatement.createUser read.1 read.2] := by
            rintro ⟨_, _⟩ ⟨_, _⟩ ⟨⟩
            rfl
          refine (@Parsed.bind_pure_iff _ _ _ hinj _ (String.ofList name, String.ofList password)).trans (hread.trans ?_)
          refine ⟨fun h => ⟨htyped, h.1, fun _ => ?_, h.2⟩, fun h => ⟨h.2.1, h.2.2.2⟩⟩
          rw [doubleQuotes_of_notMem h.1] at hinside
          exact hinside
        · rw [if_neg htyped]
          exact iff_of_false nofun fun h => htyped h.1

end

section

open AsciiCase PlainText

/-- `create user bob PASSWORD 'a;b'`. -/
theorem parse_userText_bob :
    TypedAs UserVerb.create.keyword "create user".toList ∧ TypedAs (passwordKeyword false) " Password ".toList ∧
      IsIdentifier "bob".toList ∧
      FallsBack 0 (userText "create user".toList "bob".toList " Password ".toList "a;b".toList) ∧
      (parse 0 (userText "create user".toList "bob".toList " Password ".toList "a;b".toList) =
          pure [UserVerb.create.statement "bob".toList "a;b".toList] ↔
        ("create user".toList = UserVerb.create.keyword ∨ "create user".toList = UserVerb.create.small) ∧
          '\'' ∉ "a;b".toList ∧
          (UserVerb.create = .create → ¬ "IF NOT EXISTS".toList <:+: upperText "a;b".toList) ∧
          (false = false → ¬ " WITH PASSWORD ".toList <:+: upperText "a;b".toList)) :=
  ⟨by decide, by decide, by decide, nofun,
    @parse_userText_iff _ _ _ _ _ 0 _ _ _ _ false .create (by decide) (by decide) (by decide) nofun⟩

/-- A verb in mixed case, a quote, IF NOT EXISTS in the password and WITH PASSWORD in it where WITH is left out. -/
theorem not_parse_userText :
    parse 0 (userText "Create User".toList "bob".toList " WITH PASSWORD ".toList "x".toList) ≠
        pure [UserVerb.create.statement "bob".toList "x".toList] ∧
      parse 0 (userText "ALTER USER".toList "bob".toList " WITH PASSWORD ".toList "it's".toList) ≠
        pure [UserVerb.alter.statement "bob".toList "it's".toList] ∧
      parse 0 (userText "CREATE USER".toList "bob".toList " WITH PASSWORD ".toList "if not exists".toList) ≠
        pure [UserVerb.create.statement "bob".toList "if not exists".toList] ∧
      parse 0 (userText "ALTER USER".toList "bob".toList " PASSWORD ".toList "a with password b".toList) ≠
        pure [UserVerb.alter.statement "bob".toList "a with password b".toList] := by
  refine ⟨nofun, fun h => ?_, nofun, fun h => ?_⟩
  · have hcut : parse 0 (userText "ALTER USER".toList "bob".toList " WITH PASSWORD ".toList "it's".toList) =
        pure [.alterUser "bob" "it"] := rfl
    have hsame := HelionStatement.alterUser.inj (List.singleton_inj.mp (Parsed.pure_inj (hcut.symm.trans h)))
    exact absurd hsame.2 (by decide)
  · have hcut : parse 0 (userText "ALTER USER".toList "bob".toList " PASSWORD ".toList "a with password b".toList) =
        pure [.alterUser "bob PASSWORD 'a" "b'"] := rfl
    have hsame := HelionStatement.alterUser.inj (List.singleton_inj.mp (Parsed.pure_inj (hcut.symm.trans h)))
    exact absurd hsame.1 (by decide)

end

end HelionDb
