import HelionDb.ExecuteAs

/-! The messages of `messages.rs`, the session tokens of `auth.rs` and what `session.rs` computes with texts:
the identifiers of prepared statements and the substitution of parameters. The token that clients repeat in
their messages is left out, since the server goes by the one it keeps for the stream. -/

namespace HelionDb

/-- `HelionError::to_string`. -/
def HelionError.text [Rendering] : HelionError → String
  | parse message => "SQL parse error: " ++ message
  | tableNotFound table => "Table '" ++ table ++ "' not found"
  | columnNotFound column => "Column '" ++ column ++ "' not found"
  | ambiguousColumn column => "Column '" ++ column ++ "' is ambiguous (exists in multiple tables)"
  | tableAlreadyExists table => "Table '" ++ table ++ "' already exists"
  | typeMismatch expected actual => "Type mismatch: expected " ++ expected ++ ", got " ++ actual
  | transaction message => "Transaction error: " ++ message
  | constraintViolation message => "Constraint violation: " ++ message
  | duplicateKey index key =>
      "Duplicate key violation on index '" ++ index ++ "': " ++ ", ".intercalate (key.map Datum.display)
  | indexNotFound index => "Index '" ++ index ++ "' not found"
  | indexAlreadyExists index => "Index '" ++ index ++ "' already exists"
  | conflict txid => "Optimistic lock conflict: transaction " ++ toString txid ++ " aborted due to concurrent write"
  | io message => "I/O error: " ++ message
  | serialization message => "Serialization error: " ++ message
  | protocol message => "Protocol error: " ++ message
  | permissionDenied message => "Permission denied: " ++ message
  | auth message => "Authentication error: " ++ message
  | internal message => "Internal error: " ++ message
  | internalFrom message cause => "Internal error: " ++ message ++ cause.text

inductive ClientMessage where
  | query (sql : String)
  | prepare (sql : String)
  | execute (preparedId : UInt64) (params : List String)
  | auth (username password database : String)
  | structuredQuery (queryJson : String)

inductive ServerMessage where
  | queryResult (columns : List String) (rows : List (List String)) (rowsAffected : Nat) (error : Option String)
  | prepared (id : UInt64)
  | error (message : String)
  | authResult (success : Bool) (token : UInt64) (error : Option String)
  | structuredResult (dataJson : String) (error : Option String)
  deriving DecidableEq, Repr

/-- `SessionManager`: the counter and the users of the tokens. -/
structure SessionManager where
  nextToken : UInt64
  activeSessions : UInt64 → Option String

namespace SessionManager

/-- `SessionManager::new`. -/
def new : SessionManager := { nextToken := 1, activeSessions := fun _ => none }

/-- `SessionManager::create_session`; `fetch_add` wraps. -/
def createSession (sessions : SessionManager) (username : String) : UInt64 × SessionManager :=
  (sessions.nextToken,
    { nextToken := sessions.nextToken + 1
      activeSessions := Function.update sessions.activeSessions sessions.nextToken (some username) })

/-- `SessionManager::verify_token`. -/
def verifyToken (sessions : SessionManager) (token : UInt64) : Option String := sessions.activeSessions token

end SessionManager

/-- `simple_hash`. -/
def simpleHash (text : String) : UInt64 :=
  (text.toList.flatMap String.utf8EncodeChar).foldl (fun h b => h * 33 + b.toUInt64) 5381

/-- `PreparedCache`. -/
abbrev PreparedCache := UInt64 → Option String

/-- `str::replace`: the occurrences of a pattern from left to right; `skip` counts what is left of the
occurrence that was replaced last. -/
def replaceAll (pattern value : List Char) : (skip : Nat) → List Char → List Char
  | _, [] => []
  | skip + 1, _ :: rest => replaceAll pattern value skip rest
  | 0, c :: rest =>
      if pattern.isPrefixOf (c :: rest) then value ++ replaceAll pattern value (pattern.length - 1) rest
      else c :: replaceAll pattern value 0 rest

/-- `format!("${}", i)`. -/
def placeholder (i : Nat) : List Char := '$' :: Nat.toDigits 10 i

/-- The heuristic of `substitute_params`. -/
def needsQuoting (param : List Char) : Bool :=
  param.isEmpty || param.contains ' ' || param.contains '\'' || param.contains ',' || param.contains ';'

/-- `format!("'{}'", param.replace('\'', "''"))`. -/
def quoted (param : List Char) : List Char :=
  '\'' :: (param.flatMap fun c => if c = '\'' then ['\'', '\''] else [c]) ++ ['\'']

/-- What a parameter is put into the text as. -/
def paramValue (param : List Char) : List Char := if needsQuoting param then quoted param else param

/-- The loop of `substitute_params` from the parameter of a number on. -/
def substituteFrom : (i : Nat) → List (List Char) → List Char → List Char
  | _, [], text => text
  | i, param :: rest, text => substituteFrom (i + 1) rest (replaceAll (placeholder i) (paramValue param) 0 text)

/-- `substitute_params`. -/
def substituteParams (sql : String) (params : List String) : String :=
  String.ofList (substituteFrom 1 (params.map String.toList) sql.toList)

end HelionDb
