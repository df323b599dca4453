import Mathlib.Data.List.Basic

/-! Lexers that read a text letter by letter. A lexer keeps a state, gives out tokens on its way, and flushes
what it still holds at the end. Where the letter that comes next cannot belong to the token that is being read,
the lexer goes on as from its start; so a stretch of the text that is read as one token on its own is that token
wherever the text breaks on both of its sides. -/

/-- A lexer of letters `α` into tokens `τ`. At its start it holds nothing. -/
structure Lexer (α τ : Type) where
  State : Type
  start : State
  feed : State → α → List τ × State
  flush : State → List τ
  flush_start : flush start = []

namespace Lexer

variable {α τ : Type} (lexer : Lexer α τ)

/-- The tokens of what is left of a text. -/
def tokensFrom : lexer.State → List α → List τ
  | state, [] => lexer.flush state
  | state, letter :: rest => (lexer.feed state letter).1 ++ tokensFrom (lexer.feed state letter).2 rest

/-- The tokens of a text. -/
def tokens (text : List α) : List τ := lexer.tokensFrom lexer.start text

/-- The tokens given out while a stretch is read, and the state behind it. -/
def read : lexer.State → List α → List τ × lexer.State
  | state, [] => ([], state)
  | state, letter :: rest =>
      let fed := lexer.feed state letter
      (fed.1 ++ (read fed.2 rest).1, (read fed.2 rest).2)

/-- The text breaks in front of what is left of it: the lexer flushes and goes on as from its start. -/
def Breaks (state : lexer.State) (rest : List α) : Prop :=
  ∀ letter ∈ rest.head?, lexer.feed state letter =
    (lexer.flush state ++ (lexer.feed lexer.start letter).1, (lexer.feed lexer.start letter).2)

/-- A stretch is one token on its own, still held at its end. -/
def Reads (stretch : List α) (token : τ) : Prop :=
  (lexer.read lexer.start stretch).1 = [] ∧ lexer.flush (lexer.read lexer.start stretch).2 = [token]

/-- The text breaks behind a stretch that is read from the start. -/
def BreaksBehind (stretch rest : List α) : Prop := lexer.Breaks (lexer.read lexer.start stretch).2 rest

variable {lexer} {state : lexer.State} {stretch rest : List α} {token : τ}

theorem tokensFrom_append (state : lexer.State) (stretch rest : List α) :
    lexer.tokensFrom state (stretch ++ rest) =
      (lexer.read state stretch).1 ++ lexer.tokensFrom (lexer.read state stretch).2 rest := by
  induction stretch generalizing state with
  | nil => rfl
  | cons letter tail ih =>
      rw [List.cons_append, tokensFrom, ih, read, List.append_assoc]

/-- A letter that gives out nothing. -/
theorem read_of_feed {next : lexer.State} {letter : α} (h : lexer.feed state letter = ([], next)) (rest : List α) :
    lexer.read state (letter :: rest) = lexer.read next rest := by
  rw [read, h]
  rfl

/-- A stretch that gives out nothing. -/
theorem read_append {next : lexer.State} (h : lexer.read state stretch = ([], next)) (rest : List α) :
    lexer.read state (stretch ++ rest) = lexer.read next rest := by
  induction stretch generalizing state with
  | nil =>
      obtain ⟨-, rfl⟩ := Prod.mk.inj h
      rfl
  | cons letter tail ih =>
      obtain ⟨hout, hstate⟩ := Prod.mk.inj h
      obtain ⟨hfed, htail⟩ := List.append_eq_nil_iff.mp hout
      rw [List.cons_append, read, ih (Prod.ext htail hstate), hfed]
      rfl

/-- Letters that each go to what is held. -/
theorem read_held {held : List α → lexer.State} {letters : List α} (before : List α)
    (h : ∀ before, ∀ letter ∈ letters, lexer.feed (held before) letter = ([], held (before ++ [letter]))) :
    lexer.read (held before) letters = ([], held (before ++ letters)) := by
  induction letters generalizing before with
  | nil => rw [List.append_nil, read]
  | cons letter rest ih =>
      rw [read_of_feed (h before letter List.mem_cons_self),
        ih _ fun before other hother => h before other (List.mem_cons_of_mem letter hother), List.append_assoc,
        List.singleton_append]

theorem tokensFrom_of_breaks (h : lexer.Breaks state rest) :
    lexer.tokensFrom state rest = lexer.flush state ++ lexer.tokens rest := by
  cases rest with
  | nil => rw [tokens, tokensFrom, tokensFrom, lexer.flush_start, List.append_nil]
  | cons letter tail => rw [tokens, tokensFrom, tokensFrom, h letter rfl, List.append_assoc]

/-- A stretch that is a token on its own is that token of a text that breaks behind it. -/
theorem tokens_of_reads (hreads : lexer.Reads stretch token) (hends : lexer.BreaksBehind stretch rest) :
    lexer.tokens (stretch ++ rest) = token :: lexer.tokens rest := by
  rw [tokens, tokensFrom_append, hreads.1, List.nil_append, tokensFrom_of_breaks hends, hreads.2]
  rfl

/-- A text breaks in front of a letter that starts a token. -/
theorem breaks_cons {letter : α}
    (h : lexer.feed state letter =
      (lexer.flush state ++ (lexer.feed lexer.start letter).1, (lexer.feed lexer.start letter).2)) (rest : List α) :
    lexer.Breaks state (letter :: rest) := by
  intro other hother
  obtain rfl := Option.some.inj hother
  exact h

theorem Breaks.append (h : lexer.Breaks state stretch) (hne : stretch ≠ []) (rest : List α) :
    lexer.Breaks state (stretch ++ rest) := by
  obtain ⟨letter, tail, rfl⟩ := List.exists_cons_of_ne_nil hne
  exact h

/-- A stretch that is a token on its own, with breaks on both sides. -/
theorem tokensFrom_of_reads (hstarts : lexer.Breaks state stretch) (hne : stretch ≠ []) (hreads : lexer.Reads stretch token)
    (hends : lexer.BreaksBehind stretch rest) :
    lexer.tokensFrom state (stretch ++ rest) = lexer.flush state ++ token :: lexer.tokens rest := by
  rw [tokensFrom_of_breaks (hstarts.append hne rest), tokens_of_reads hreads hends]

end Lexer
